import Attribution.Proofs.Analysis.Calls
import Attribution.Proofs.Analysis.Contents
import Attribution.Proofs.Analysis.Hoisting
import Attribution.Proofs.Ty.Sameness
/-!
# What calls go by

A call of a struct or of a function that is no template goes by the declared types, if these are
declared outside all templates, wherever the call stands. Inside a template they can mention its
placeholder, and then they count as long as nothing else is put in for it.
-/
namespace Attribution

def Node.isTemplate : Node → Bool
  | funDecl _ (some _) .. => true
  | _ => false

/-- A node lies inside a template. -/
def Tree.InTemplate (tree : Tree) (id : NodeId) : Prop :=
  ∃ openers, tree.Around id openers ∧ ∃ function ∈ openers, tree.satisfies function Node.isTemplate

namespace Analysis

/-- What a callee goes by that is no template: a constructor by a struct, with its fields and the
struct as result, and a reference by a function, with its parameters and its return type. -/
inductive GoesBy (analysis : Analysis) (tree : Tree) (callee decl : NodeId) :
    List NodeId → Option Ty → Prop
  | struct {reference : NodeId} {name : String} {fields : List NodeId} :
    tree.node? callee = some (.construct reference) →
    analysis.declOf? reference = some (.node decl) →
    tree.node? decl = some (.structDecl name fields) →
    GoesBy analysis tree callee decl fields (some (.struct decl name))
  | function {name held : String} {parameters : List NodeId} {returnType body : NodeId} :
    tree.node? callee = some (.reference name) →
    analysis.declOf? callee = some (.node decl) →
    tree.node? decl = some (.funDecl held none parameters returnType body) →
    GoesBy analysis tree callee decl parameters (analysis.valueOf? returnType)

/-- A call has the result that is declared, and a type mismatch is found at each argument that does
not fit the type declared in its place. -/
structure Heeds (analysis : Analysis) (declared : List NodeId) (result : Option Ty)
    (arguments : List NodeId) (type : Ty) : Prop where
  result : ∃ expected, result = some expected ∧ type.same expected
  argument : ∀ (place : Nat) (parameter argument : NodeId), declared[place]? = some parameter →
    arguments[place]? = some argument → ∃ expected found,
      analysis.typeOf? parameter = some expected ∧ analysis.typeOf? argument = some found ∧
        (found.assignable expected = false → ∃ param, param.same expected ∧
          { node := argument, cause := .argument place param found } ∈ analysis.findings)

end Analysis

open Attribution.Tree Attribution.Part

namespace Preparation

variable {config : Config} {tree : Tree} {preparation : Preparation} {id function : NodeId}
  {expectation : Expectation} {typeArgument : Option NodeId} {arguments openers : List NodeId}

theorem template_of_around (hwell : tree.WellFormed) {decl opener : NodeId} {outer : List NodeId}
    (hdecl : tree.satisfies decl Node.isTemplateParam)
    (haround : tree.Around decl (opener :: outer)) :
    tree.satisfies opener Node.isTemplate := by
  obtain ⟨node, hnode, _⟩ := satisfies_iff.mp hdecl
  obtain ⟨path, lent, hleads⟩ := hwell.exists_leads hnode
  obtain ⟨_, function, _, name, parameters, returnType, body, _, hfunction⟩ :=
    hwell.exists_function hleads hdecl
  obtain ⟨_, houter⟩ := hwell.exists_outer hfunction haround
  cases houter
  exact satisfies_iff.mpr ⟨_, hfunction, rfl⟩

theorem exists_template_of_denoted (hwell : tree.WellFormed)
    (h : ofTree config tree = .ok preparation) {n : Nat} {type : Ty}
    (htype : preparation.checker.denotedWithin n id = some type) {p : Placeholder}
    (hp : type.placeholder? = some p) (haround : tree.Around id openers) :
    ∃ function ∈ openers, tree.satisfies function Node.isTemplate := by
  induction n generalizing id type with
  | zero => cases htype
  | succ n ih =>
    rw [Checker.denotedWithin, checker_tree h] at htype
    split at htype
    next name hnode =>
      obtain ⟨entity, hentity, hintroduced⟩ := Option.bind_eq_some_iff.mp htype
      cases entity with
      | builtin b => cases b <;> cases hintroduced <;> cases hp
      | node decl =>
        rw [Checker.introduced?, checker_tree h] at hintroduced
        split at hintroduced
        next =>
          cases hintroduced
          cases hp
        next hdecl =>
          obtain ⟨opener, hopener, outer, hinside⟩ :=
            exists_opener_of_use hwell h (.inr hnode) haround hentity
          exact ⟨opener, hopener,
            template_of_around hwell (satisfies_iff.mpr ⟨_, hdecl, rfl⟩) hinside⟩
        next => cases hintroduced
    next component hnode =>
      obtain ⟨inner, hinner, rfl⟩ := Option.map_eq_some_iff.mp htype
      exact ih hinner hp (haround.child hnode List.mem_cons_self)
    next => cases htype

theorem placeholder?_of_value (hwell : tree.WellFormed) (h : ofTree config tree = .ok preparation)
    (hkind : tree.satisfies id Node.isTypeNode) (haround : tree.Around id openers)
    (houtside : ∀ function ∈ openers, ¬ tree.satisfies function Node.isTemplate) {type : Ty}
    (htype : preparation.final.view.value? id = some type) : type.placeholder? = none := by
  obtain ⟨node, hnode, _⟩ := satisfies_iff.mp hkind
  rw [Rule.value?_of_view (view_denoted hwell h hnode), Checker.denoted?] at htype
  cases hp : type.placeholder? with
  | none => rfl
  | some p =>
    obtain ⟨function, hmem, htemplate⟩ := exists_template_of_denoted hwell h htype hp haround
    exact absurd htemplate (houtside function hmem)

theorem placeholder?_of_annotated (hwell : tree.WellFormed)
    (h : ofTree config tree = .ok preparation) (hkind : tree.satisfies id Node.isAnnotated)
    (haround : tree.Around id openers)
    (houtside : ∀ function ∈ openers, ¬ tree.satisfies function Node.isTemplate) {type : Ty}
    (htype : preparation.final.view.type? id = some type) : type.placeholder? = none := by
  obtain ⟨node, hnode, hkind'⟩ := satisfies_iff.mp hkind
  have hfits := hwell.fits _ _ hnode
  have hinside : ∀ annotation, tree.satisfies annotation Node.isTypeNode →
      annotation ∈ node.children → node.inside id openers = openers →
      preparation.checker.denoted? annotation = some type → type.placeholder? = none := by
    intro annotation hannotation hchild hsame hdenoted
    have haround' := hsame ▸ haround.child hnode hchild
    apply placeholder?_of_value hwell h hannotation haround' houtside
    obtain ⟨found, hfound, _⟩ := satisfies_iff.mp hannotation
    rwa [Rule.value?_of_view (view_denoted hwell h hfound)]
  rw [Rule.type?_of_view (view_annotated hwell h hkind), Checker.annotated?, checker_tree h,
    hnode] at htype
  cases node with
  | varDecl name annotation initializer =>
    exact hinside annotation hfits.1 List.mem_cons_self rfl htype
  | parameter name annotation => exact hinside annotation hfits List.mem_cons_self rfl htype
  | fieldDecl name annotation => exact hinside annotation hfits List.mem_cons_self rfl htype
  | _ => cases hkind'

theorem declarationType?_of_reference (hwell : tree.WellFormed)
    (h : ofTree config tree = .ok preparation) {name : String} {decl : NodeId} {type : Ty}
    (hnode : tree.node? id = some (.reference name))
    (hbound : preparation.analysis.declOf? id = some (.node decl))
    (htype : preparation.final.view.type? id = some type) :
    preparation.checker.declarationType? decl = some type := by
  obtain ⟨expectation, hat⟩ := at_of_node hwell h hnode rfl
  have hentity : preparation.checker.entity? id = some (.node decl) := hbound
  rw [Rule.type?_of_view hat.view_reference, hentity] at htype
  split at htype
  · cases htype
  · exact htype

theorem function_of_declarationType? (hwell : tree.WellFormed)
    (h : ofTree config tree = .ok preparation) {name : String} {template : Option NodeId}
    {parameters : List NodeId} {returnType body : NodeId} {type : Ty}
    (hnode : tree.node? id = some (.funDecl name template parameters returnType body))
    (htype : preparation.checker.declarationType? id = some type) : ∃ params result,
      type = .function params result ∧ preparation.final.view.value? returnType = some result ∧
        parameters.mapM preparation.final.view.type? = some params := by
  obtain ⟨_, hparameters, hreturn, _⟩ := hwell.fits _ _ hnode
  obtain ⟨found, hfound, _⟩ := satisfies_iff.mp hreturn
  rw [Checker.declarationType?, checker_tree h, hnode] at htype
  obtain ⟨params, hparams, htype⟩ := Option.bind_eq_some_iff.mp htype
  obtain ⟨result, hresult, htype⟩ := Option.bind_eq_some_iff.mp htype
  cases htype
  refine ⟨params, result, rfl, ?_, ?_⟩
  · exact (Rule.value?_of_view (view_denoted hwell h hfound)).trans hresult
  · rw [← hparams]
    apply Rule.mapM_type?
    intro parameter hparameter
    exact view_annotated hwell h
      (satisfies_mono (hparameters parameter hparameter) Node.isAnnotated_of_isParameter)

/-- The type of a callee that is no template is a function from the declared types to the declared
result. -/
theorem callee_of_goesBy (hwell : tree.WellFormed) (h : ofTree config tree = .ok preparation)
    {decl : NodeId} {declared : List NodeId} {result : Option Ty} {callee : Ty}
    (hgoes : preparation.analysis.GoesBy tree function decl declared result)
    (hcallee : preparation.final.view.type? function = some callee) : ∃ params type,
      callee = .function params type ∧ result = some type ∧
        declared.mapM preparation.final.view.type? = some params := by
  cases hgoes with
  | @struct reference name fields hnode hbound hdecl =>
    obtain ⟨expectation, hat⟩ := at_of_node hwell h hnode rfl
    have hentity : preparation.checker.entity? reference = some (.node decl) := hbound
    rw [Rule.type?_of_view hat.view_constructor, hentity, Option.bind_some,
      Checker.constructorType?, checker_tree h, hdecl] at hcallee
    obtain ⟨params, hparams, rfl⟩ := Option.map_eq_some_iff.mp hcallee
    refine ⟨params, _, rfl, rfl, ?_⟩
    rw [← hparams]
    apply Rule.mapM_type?
    intro field hfield
    exact view_annotated hwell h
      (satisfies_mono (hwell.fits _ _ hdecl field hfield) Node.isAnnotated_of_isField)
  | @function name held parameters returnType body hnode hbound hdecl =>
    obtain ⟨params, type, rfl, htype, hparams⟩ := function_of_declarationType? hwell h hdecl
      (declarationType?_of_reference hwell h hnode hbound hcallee)
    exact ⟨params, type, rfl, htype, hparams⟩

theorem outside_of_goesBy (hwell : tree.WellFormed) {analysis : Analysis} {decl : NodeId}
    {declared : List NodeId} {result : Option Ty}
    (hgoes : analysis.GoesBy tree function decl declared result)
    (houtside : ¬ tree.InTemplate decl) : ∃ openers,
      (∀ opener ∈ openers, ¬ tree.satisfies opener Node.isTemplate) ∧
      (∀ parameter ∈ declared,
        tree.satisfies parameter Node.isAnnotated ∧ tree.Around parameter openers) ∧
      ((∃ name, result = some (.struct decl name)) ∨ ∃ returnType,
        tree.satisfies returnType Node.isTypeNode ∧ tree.Around returnType openers ∧
          result = analysis.valueOf? returnType) := by
  cases hgoes with
  | @struct reference name fields hnode hbound hdecl =>
    obtain ⟨openers, haround⟩ := hwell.exists_around hdecl
    refine ⟨openers, ?_, ?_, .inl ⟨name, rfl⟩⟩
    · exact fun opener hopener htemplate => houtside ⟨openers, haround, opener, hopener, htemplate⟩
    · intro field hfield
      exact ⟨satisfies_mono (hwell.fits _ _ hdecl field hfield) Node.isAnnotated_of_isField,
        haround.child hdecl hfield⟩
  | @function name held parameters returnType body hnode hbound hdecl =>
    obtain ⟨openers, haround⟩ := hwell.exists_around hdecl
    obtain ⟨_, hparameters, hreturn, _⟩ := hwell.fits _ _ hdecl
    refine ⟨decl :: openers, ?_, ?_, .inr ⟨returnType, hreturn, ?_, rfl⟩⟩
    · intro opener hopener htemplate
      rcases List.mem_cons.mp hopener with rfl | hopener
      · obtain ⟨node, hnode', hkind⟩ := satisfies_iff.mp htemplate
        cases Option.some.inj (hdecl.symm.trans hnode')
        cases hkind
      · exact houtside ⟨openers, haround, opener, hopener, htemplate⟩
    · intro parameter hparameter
      exact ⟨satisfies_mono (hparameters parameter hparameter) Node.isAnnotated_of_isParameter,
        haround.child hdecl (List.mem_append_left _ hparameter)⟩
    · exact haround.child hdecl (List.mem_append_right _ List.mem_cons_self)

theorem placeholder?_of_goesBy (hwell : tree.WellFormed) (h : ofTree config tree = .ok preparation)
    {decl : NodeId} {declared : List NodeId} {result : Option Ty} {callee : Ty}
    (hgoes : preparation.analysis.GoesBy tree function decl declared result)
    (houtside : ¬ tree.InTemplate decl)
    (hcallee : preparation.final.view.type? function = some callee) :
    callee.placeholder? = none := by
  obtain ⟨params, type, rfl, hresult, hparams⟩ := callee_of_goesBy hwell h hgoes hcallee
  obtain ⟨openers, hopeners, hdeclared, hreturn⟩ := outside_of_goesBy hwell hgoes houtside
  have htype : type.placeholder? = none := by
    rcases hreturn with ⟨name, hstruct⟩ | ⟨returnType, hkind, haround, hvalue⟩
    · cases Option.some.inj (hresult.symm.trans hstruct)
      rfl
    · exact placeholder?_of_value hwell h hkind haround hopeners (hvalue.symm.trans hresult)
  rw [Ty.placeholder?, htype, Option.or_none]
  apply Ty.firstPlaceholder?_eq_none
  intro param hparam
  obtain ⟨place, hplace⟩ := List.mem_iff_getElem?.mp hparam
  rw [Rule.getElem?_of_mapM hparams] at hplace
  obtain ⟨parameter, hparameter, hparam⟩ := Option.bind_eq_some_iff.mp hplace
  obtain ⟨hkind, haround⟩ := hdeclared parameter (List.mem_of_getElem? hparameter)
  exact placeholder?_of_annotated hwell h hkind haround hopeners hparam

theorem At.typed_call (h : At config tree preparation id expectation
      (.call function typeArgument arguments)) {type : Ty}
    (htype : preparation.final.view.type? id = some type) : ∃ params result found params',
      preparation.final.view.type? function = some (.function params result) ∧
      arguments.mapM preparation.final.view.type? = some found ∧
      (instantiate (.function params result) (typeArgument.bind preparation.final.view.value?)
        found).callee = .function params' type ∧
      ∀ finding ∈ Rule.argumentFindings 0 params' found arguments,
        finding ∈ preparation.final.findings := by
  have hpart : .act (.add (.call id function typeArgument arguments)) ∈
      tree.parts id (.call function typeArgument arguments) expectation := by simp [parts, add]
  obtain ⟨value, hview, hvalue⟩ := Option.bind_eq_some_iff.mp htype
  rw [h.view_of_add hpart rfl rfl, Rule.result?] at hview
  split at hview
  next hready =>
    obtain ⟨callee, _, found, hcallee, _, hfound, _, htypes⟩ :=
      exists_of_ready_call h.prepared hready
    have hfindings : ∀ finding ∈ (Rule.effect preparation.setting
        (.call id function typeArgument arguments) preparation.final.view).findings,
        finding ∈ preparation.final.findings :=
      fun _ hfinding => mem_findings_of_rule h.call_mem hready hfinding
    simp only [Rule.effect, hcallee, htypes] at hview hfindings
    cases callee with
    | function params result =>
      obtain ⟨params', result', hinstance, _⟩ := Rule.instantiate_function params result
        (typeArgument.bind preparation.final.view.value?) found
      simp only [Rule.callEffect, hinstance] at hview hfindings
      cases hview
      cases hvalue
      refine ⟨params, result, found, params', hcallee, hfound, hinstance, ?_⟩
      exact fun finding hfinding => hfindings finding (List.mem_append_right _ hfinding)
    | _ => cases hview
  next => cases hview

theorem At.heeds (h : At config tree preparation id expectation
      (.call function typeArgument arguments)) {type : Ty}
    (htype : preparation.final.view.type? id = some type) {decl : NodeId} {declared : List NodeId}
    {result : Option Ty} (hgoes : preparation.analysis.GoesBy tree function decl declared result)
    (hkeeps : tree.InTemplate decl → ∀ callee, preparation.analysis.typeOf? function = some callee →
      KeepsPlaceholder callee (typeArgument.bind preparation.analysis.valueOf?)
        (arguments.filterMap preparation.analysis.typeOf?)) :
    preparation.analysis.Heeds declared result arguments type := by
  obtain ⟨params, returned, found, params', hcallee, hfound, hinstance, hfindings⟩ :=
    h.typed_call htype
  obtain ⟨_, _, heq, hresult, hparams⟩ := callee_of_goesBy h.well h.prepared hgoes hcallee
  cases heq
  have hsame : (Ty.function params' type).same (.function params returned) := by
    rw [← hinstance]
    apply KeepsPlaceholder.instantiate
    by_cases hinside : tree.InTemplate decl
    · rw [← Rule.filterMap_eq_of_mapM hfound]
      exact hkeeps hinside _ hcallee
    · exact keepsPlaceholder_of_none
        (placeholder?_of_goesBy h.well h.prepared hgoes hinside hcallee) _ _
  obtain ⟨hsameParams, hsameResult⟩ := Bool.and_eq_true_iff.mp hsame
  refine ⟨⟨returned, hresult, hsameResult⟩, ?_⟩
  intro place parameter argument hparameter hargument
  have htyped : ∀ {ids : List NodeId} {types : List Ty} {part : NodeId},
      ids.mapM preparation.final.view.type? = some types → ids[place]? = some part →
      ∃ type, preparation.final.view.type? part = some type ∧ types[place]? = some type := by
    intro ids types part htypes hpart
    have hall := Rule.isSome_mapM preparation.final.view.type? ids
    rw [htypes, Option.isSome_some, eq_comm, List.all_eq_true] at hall
    obtain ⟨type, htype⟩ := Option.isSome_iff_exists.mp (hall part (List.mem_of_getElem? hpart))
    exact ⟨type, htype, by rw [Rule.getElem?_of_mapM htypes, hpart, Option.bind_some, htype]⟩
  obtain ⟨expected, hexpected, hparam⟩ := htyped hparams hparameter
  obtain ⟨given, hgiven, hplace⟩ := htyped hfound hargument
  refine ⟨expected, given, hexpected, hgiven, ?_⟩
  intro hmisfit
  obtain ⟨param, hparam', hsameParam⟩ := Ty.sameAll_getElem? hsameParams hparam
  refine ⟨param, hsameParam, hfindings _ ?_⟩
  rw [← Ty.assignable_congr given hsameParam] at hmisfit
  have hmem := Rule.mem_argumentFindings 0 hparam' hplace hargument hmisfit
  rwa [Nat.zero_add] at hmem

end Preparation

/-- A call that has a type goes by the declared types if it calls a struct or a function that is no
template. If these are declared inside a template, its placeholder has to be kept. -/
theorem call_heeds_declaration (config : Config) {tree : Tree} (hwell : tree.WellFormed) :
    ∃ analysis, Analysis.ofTree config tree = .ok analysis ∧
      ∀ id function typeArgument arguments type decl declared result,
        tree.node? id = some (.call function typeArgument arguments) →
        analysis.typeOf? id = some type →
        analysis.GoesBy tree function decl declared result →
        (tree.InTemplate decl → ∀ callee, analysis.typeOf? function = some callee →
          KeepsPlaceholder callee (typeArgument.bind analysis.valueOf?)
            (arguments.filterMap analysis.typeOf?)) →
        analysis.Heeds declared result arguments type := by
  obtain ⟨preparation, hprepared⟩ := Preparation.exists_ofTree hwell config
  refine ⟨_, Analysis.ofTree_eq hprepared, ?_⟩
  intro id function typeArgument arguments type decl declared result hnode htype hgoes hkeeps
  obtain ⟨expectation, hat⟩ := Preparation.at_of_node hwell hprepared hnode rfl
  exact hat.heeds htype hgoes hkeeps

/-- A template that passes its parameter to a function of an integer. -/
def Tree.calledWithin : Tree where
  nodes := #[
    { node := .root [1, 8] },
    { node := .funDecl "half" none [2] 4 5 },
    { node := .parameter "n" 3 },
    { node := .simpleType "Int" },
    { node := .simpleType "Int" },
    { node := .block [6] },
    { node := .returnStatement (some 7) },
    { node := .reference "n" },
    { node := .funDecl "f" (some 9) [10] 12 13 },
    { node := .templateParam "T" },
    { node := .parameter "x" 11 },
    { node := .simpleType "T" },
    { node := .simpleType "T" },
    { node := .block [14, 18] },
    { node := .expressionStatement 15 },
    { node := .call 16 none [17] },
    { node := .reference "half" },
    { node := .reference "x" },
    { node := .returnStatement (some 19) },
    { node := .reference "x" }]
  root := 0

theorem call_heeds_declaration_calledWithin : Tree.calledWithin.WellFormed ∧
    ∃ analysis, Analysis.ofTree {} Tree.calledWithin = .ok analysis ∧ ∃ expected found param,
      analysis.typeOf? 2 = some expected ∧ param.same expected ∧
        { node := 17, cause := .argument 0 param found } ∈ analysis.findings := by
  have hwell : Tree.calledWithin.WellFormed := by decide +kernel
  obtain ⟨analysis, hanalysis, hheeds⟩ := call_heeds_declaration {} hwell
  refine ⟨hwell, analysis, hanalysis, ?_⟩
  have hfacts : (Analysis.ofTree {} Tree.calledWithin).toOption.any fun analysis =>
      (analysis.typeOf? 15).isSome && (analysis.declOf? 16 = some (.node 1)) &&
        (analysis.typeOf? 2).all fun expected => (analysis.typeOf? 17).all fun found =>
          !found.assignable expected := by decide +kernel
  rw [hanalysis] at hfacts
  simp only [Except.toOption, Option.any_some, Bool.and_eq_true, decide_eq_true_eq] at hfacts
  obtain ⟨⟨hcall, hdecl⟩, hmisfit⟩ := hfacts
  obtain ⟨type, htype⟩ := Option.isSome_iff_exists.mp hcall
  have houtside : ¬ Tree.calledWithin.InTemplate 1 := by
    rintro ⟨openers, haround, function, hfunction, htemplate⟩
    have hchild : Tree.calledWithin.Around 1 ((Node.root [1, 8]).inside 0 []) :=
      Tree.Around.root.child rfl List.mem_cons_self
    cases hwell.unshared.around_unique hchild haround rfl
    cases List.mem_singleton.mp hfunction
    cases htemplate
  have h := hheeds 15 16 none [17] type 1 [2] _ rfl htype (.function rfl hdecl rfl)
    (fun hinside => absurd hinside houtside)
  obtain ⟨expected, found, hexpected, hfound, hargument⟩ := h.argument 0 2 17 rfl rfl
  simp only [hexpected, hfound, Option.all_some, Bool.not_eq_true'] at hmisfit
  obtain ⟨param, hsame, hfinding⟩ := hargument hmisfit
  exact ⟨expected, found, param, hexpected, hsame, hfinding⟩

/-- A template with a function of its own, which is called with an integer. -/
def Tree.declaredWithin : Tree where
  nodes := #[
    { node := .root [1] },
    { node := .funDecl "f" (some 2) [3] 5 6 },
    { node := .templateParam "T" },
    { node := .parameter "x" 4 },
    { node := .simpleType "T" },
    { node := .simpleType "T" },
    { node := .block [7, 14, 18] },
    { node := .funDecl "g" none [8] 10 11 },
    { node := .parameter "y" 9 },
    { node := .simpleType "T" },
    { node := .simpleType "T" },
    { node := .block [12] },
    { node := .returnStatement (some 13) },
    { node := .reference "y" },
    { node := .expressionStatement 15 },
    { node := .call 16 none [17] },
    { node := .reference "g" },
    { node := .literal (.int 1) },
    { node := .returnStatement (some 19) },
    { node := .reference "x" }]
  root := 0

/-- The integer is put in for the placeholder of the template around: the call has the wrong type,
and nothing is found. -/
theorem declaration_not_heeded : Tree.declaredWithin.WellFormed ∧
    ∃ analysis type, Analysis.ofTree {} Tree.declaredWithin = .ok analysis ∧
      analysis.findings = [] ∧ analysis.typeOf? 15 = some type ∧
      analysis.GoesBy Tree.declaredWithin 16 7 [8] (analysis.valueOf? 10) ∧
      ¬ analysis.Heeds [8] (analysis.valueOf? 10) [17] type := by
  have hfacts : (Analysis.ofTree {} Tree.declaredWithin).toOption.any fun analysis =>
      analysis.findings.isEmpty && (analysis.declOf? 16 = some (.node 7)) &&
        (analysis.typeOf? 15).any fun type =>
          (analysis.valueOf? 10).all fun expected => !type.same expected := by decide +kernel
  obtain ⟨analysis, hanalysis, hfound⟩ := Analysis.exists_of_any hfacts
  simp only [Bool.and_eq_true, decide_eq_true_eq, List.isEmpty_iff] at hfound
  obtain ⟨⟨hfindings, hdecl⟩, hresult⟩ := hfound
  obtain ⟨type, htype, hresult⟩ := (Option.any_eq_true _ _).mp hresult
  refine ⟨by decide +kernel, analysis, type, hanalysis, hfindings, htype,
    .function rfl hdecl rfl, ?_⟩
  rintro ⟨⟨expected, hexpected, hsame⟩, _⟩
  rw [hexpected, Option.all_some, hsame] at hresult
  cases hresult

end Attribution
