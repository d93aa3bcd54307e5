import Attribution.Proofs.Analysis.Escape
import Attribution.Proofs.Analysis.Misfits
import Attribution.Proofs.Ty.Placeholders
/-!
# Templates of strings

A call that puts a string in for the placeholder of a template is found fault with, unless the body
of the template is a sum and nothing else. What the call results in does not count. So the rule is
about the calls that result in a string just if the template returns its placeholder.
-/
namespace Attribution

/-- A callee takes its one argument for the placeholder of a template, and results in a type; the
argument has a type. -/
def Analysis.fills (analysis : Analysis) (function argument template : NodeId)
    (concrete result : Ty) : Bool :=
  match analysis.typeOf? function, analysis.typeOf? argument with
  | some (.function [.generic p] found), some given =>
    p.function = template && result.same found && concrete.same given
  | _, _ => false

namespace Tree

variable {tree : Tree} {function : NodeId}

/-- The body of a function returns a sum, and does nothing else. -/
inductive ReturnsSum (tree : Tree) (function : NodeId) : Prop
  | sum {name : String} {template : Option NodeId} {parameters : List NodeId}
      {returnType body statement expression left right : NodeId} :
    tree.node? function = some (.funDecl name template parameters returnType body) →
    tree.node? body = some (.block [statement]) →
    tree.node? statement = some (.returnStatement (some expression)) →
    tree.node? expression = some (.binary .add left right) → ReturnsSum tree function

theorem isConcatenation_iff : tree.isConcatenation function ↔ tree.ReturnsSum function := by
  constructor
  · intro h
    unfold isConcatenation at h
    split at h
    next hfunction =>
      split at h
      next hbody =>
        split at h
        next hstatement =>
          split at h
          next hexpression => exact .sum hfunction hbody hstatement hexpression
          all_goals cases h
        all_goals cases h
      all_goals cases h
    all_goals cases h
  · rintro ⟨hfunction, hbody, hstatement, hexpression⟩
    simp only [isConcatenation, hfunction, hbody, hstatement, hexpression]

/-- A template of the tree introduces a placeholder by its parameter. -/
def Introduces (tree : Tree) (p : Placeholder) : Prop :=
  ∃ name parameters returnType body,
    tree.node? p.function = some (.funDecl name (some p.decl) parameters returnType body)

theorem WellFormed.eq_of_introduces (hwell : tree.WellFormed) {p : Placeholder}
    (hintroduces : tree.Introduces p) {name : String} {parameters : List NodeId}
    {returnType body : NodeId} (hfunction : tree.node? function =
      some (.funDecl name (some p.decl) parameters returnType body)) : p.function = function := by
  obtain ⟨_, _, _, _, hdecl⟩ := hintroduces
  exact Option.some.inj
    ((hwell.templateOwner?_eq hdecl).symm.trans (hwell.templateOwner?_eq hfunction))

/-- A call puts a type in for the first placeholder in the type of its callee. -/
inductive Instantiates (tree : Tree) (analysis : Analysis) (id function : NodeId) (p : Placeholder)
    (concrete result : Ty) : Prop
  | call {typeArgument : Option NodeId} {arguments : List NodeId} {params given : List Ty}
      {explicit : Option Ty} :
    tree.node? id = some (.call function typeArgument arguments) →
    analysis.typeOf? function = some (.function params result) →
    typeArgument.mapM analysis.valueOf? = some explicit →
    arguments.mapM analysis.typeOf? = some given →
    (Ty.function params result).placeholder? = some p →
    concreteFor? p explicit params given = some concrete →
      Instantiates tree analysis id function p concrete result

theorem Instantiates.of_argument {analysis : Analysis} {id argument : NodeId} {p : Placeholder}
    {concrete result : Ty} (hnode : tree.node? id = some (.call function none [argument]))
    (hcallee : analysis.typeOf? function = some (.function [.generic p] result))
    (hgiven : analysis.typeOf? argument = some concrete) :
    tree.Instantiates analysis id function p concrete result := by
  have hgivens : [argument].mapM analysis.typeOf? = some [concrete] := by simp [hgiven]
  refine .call hnode hcallee rfl hgivens rfl ?_
  simp [concreteFor?, Ty.isPlaceholderOf, Placeholder.same]

theorem instantiates_of_fills {analysis : Analysis} {id argument template : NodeId}
    {concrete result : Ty} (hnode : tree.node? id = some (.call function none [argument]))
    (hconcrete : concrete.isBasic) (hresult : result.isBasic)
    (h : analysis.fills function argument template concrete result) :
    ∃ p, tree.Instantiates analysis id function p concrete result ∧ p.function = template := by
  unfold Analysis.fills at h
  split at h
  next p found given hcallee hgiven =>
    simp only [Bool.and_eq_true, decide_eq_true_eq] at h
    obtain ⟨⟨hp, hfound⟩, hsame⟩ := h
    cases Ty.eq_of_same hresult hfound
    cases Ty.eq_of_same hconcrete hsame
    exact ⟨p, .of_argument hnode hcallee hgiven, hp⟩
  next => cases h

theorem Instantiates.unique {analysis : Analysis} {id other : NodeId} {p q : Placeholder}
    {concrete concrete' result result' : Ty}
    (h : tree.Instantiates analysis id function p concrete result)
    (hother : tree.Instantiates analysis id other q concrete' result') :
    q = p ∧ concrete' = concrete := by
  obtain ⟨hnode, hcallee, hexplicit, hgiven, hp, hconcrete⟩ := h
  obtain ⟨hnode', hcallee', hexplicit', hgiven', hq, hconcrete'⟩ := hother
  cases hnode.symm.trans hnode'
  cases hcallee.symm.trans hcallee'
  cases hexplicit.symm.trans hexplicit'
  cases hgiven.symm.trans hgiven'
  cases hp.symm.trans hq
  exact ⟨rfl, Option.some.inj (hconcrete'.symm.trans hconcrete)⟩

end Tree

/-- A finding of a kind is about a node. -/
def Analysis.Reports (analysis : Analysis) (id : NodeId) (kind : FindingKind) : Prop :=
  ∃ finding ∈ analysis.findings, finding.node = id ∧ finding.kind = kind

theorem Analysis.reports_iff {analysis : Analysis} {id : NodeId} {kind : FindingKind} :
    analysis.Reports id kind ↔
      (id, kind) ∈ analysis.findings.map fun finding => (finding.node, finding.kind) := by
  simp [Reports]

namespace Rule

variable {setting : Setting} {view : View} {rule : Rule} {node function : NodeId}
  {typeArgument : Option NodeId} {arguments : List NodeId}

theorem Accuses.eq_of_bodyShape {cause : Cause} (h : rule.Accuses node cause)
    (hkind : cause.kind = .genericBodyShape) : cause = .concatenationBody ∧
      ∃ function typeArgument arguments, rule = .call node function typeArgument arguments := by
  cases h with
  | concatenationBody => exact ⟨rfl, _, _, _, rfl⟩
  | _ => cases hkind

theorem mem_concatenationFindings {binding : Option (Placeholder × Ty)} :
    { node, cause := .concatenationBody } ∈ concatenationFindings setting node binding ↔
      ∃ p, binding = some (p, .string) ∧ ¬ setting.tree.ReturnsSum p.function := by
  cases binding with
  | none => simp [concatenationFindings]
  | some binding =>
    obtain ⟨p, concrete⟩ := binding
    have hstring : concrete.isString = true ↔ concrete = .string := by
      cases concrete <;> simp [Ty.isString]
    simp [concatenationFindings, findingIf, ← Tree.isConcatenation_iff, hstring]

theorem mem_call_bodyShape :
    { node, cause := .concatenationBody } ∈
        (effect setting (.call node function typeArgument arguments) view).findings ↔
      ∃ params result p, view.type? function = some (.function params result) ∧
        (Ty.function params result).placeholder? = some p ∧
        concreteFor? p (typeArgument.bind view.value?) params (arguments.filterMap view.type?) =
          some .string ∧ ¬ setting.tree.ReturnsSum p.function := by
  rw [effect]
  cases hcallee : view.type? function with
  | none => simp [Effect.nothing]
  | some callee =>
    cases callee with
    | function params result =>
      have hcount : ∀ amiss expected found, { node, cause := .concatenationBody } ∉
          findingIf amiss node (.argumentCount expected found) := by
        intro amiss expected found
        cases amiss <;> simp [findingIf]
      have harguments : ∀ params given, { node, cause := .concatenationBody } ∉
          argumentFindings 0 params given arguments := by
        intro params given hmem
        obtain ⟨_, _, _, _, _, _, _, _, heq⟩ := exists_of_argumentFindings hmem
        cases heq
      simp only [findings_callEffect, List.mem_append, hcount, harguments, or_false,
        mem_concatenationFindings, instantiate_binding, Ty.params]
      grind
    | _ => simp [callEffect, Effect.find]

end Rule

open Attribution.Tree Attribution.Part

namespace Preparation

variable {config : Config} {tree : Tree} {preparation : Preparation} {id function : NodeId}
  {p : Placeholder} {type concrete result : Ty}

theorem introduces_of_mem (hwell : tree.WellFormed) (h : ofTree config tree = .ok preparation)
    (htype : preparation.final.view.type? id = some type) (hp : p ∈ type.placeholders) :
    tree.Introduces p := by
  have hintroduced : ∀ rule, .add rule ∈ preparation.commands → ∀ t ∈ rule.introduced?,
      ∀ p ∈ t.placeholders, tree.Introduces p := by
    intro rule hadd t ht p hp
    cases rule with
    | structDeclared =>
      cases ht
      cases hp
    | templateDeclared template owner name =>
      cases ht
      cases List.mem_singleton.mp hp
      obtain ⟨binder, action, hmeets, hadds⟩ := (add_mem_iff h).mp hadd
      obtain ⟨above, lent, node, _, hnode, hpart⟩ := hmeets.exists_node
      cases hadds with
      | asked => cases does_of_part hpart
      | placeholder =>
        cases does_of_part hpart
        obtain ⟨path, lent, hleads⟩ := hwell.exists_leads hnode
        obtain ⟨_, function, _, held, parameters, returnType, body, _, hfunction⟩ :=
          hwell.exists_function hleads (satisfies_iff.mpr ⟨_, hnode, rfl⟩)
        rw [hmeets.owner?_current hwell hfunction, Option.getD_some]
        exact ⟨held, parameters, returnType, body, hfunction⟩
    | _ => cases ht
  have hholds : preparation.final.view.Holds fun cell =>
      cell.attr.Admits (fun t => ∀ p ∈ t.placeholders, tree.Introduces p) fun _ => True :=
    holds h (Ty.inherits_placeholders tree.Introduces) (fun _ _ _ _ _ _ _ => trivial)
      (fun _ _ _ _ => trivial) hintroduced
  exact hholds.of_read rfl htype p hp

/-- A call chooses a type for a placeholder when its rule fires. -/
theorem instantiates_iff (h : ofTree config tree = .ok preparation) :
    tree.Instantiates preparation.analysis id function p concrete result ↔
      ∃ typeArgument arguments params,
        tree.node? id = some (.call function typeArgument arguments) ∧
        (Rule.call id function typeArgument arguments).ready preparation.final.view ∧
        preparation.final.view.type? function = some (.function params result) ∧
        (Ty.function params result).placeholder? = some p ∧
        concreteFor? p (typeArgument.bind preparation.final.view.value?) params
          (arguments.filterMap preparation.final.view.type?) = some concrete := by
  constructor
  · intro hcall
    cases hcall with
    | @call typeArgument arguments params given explicit hnode hcallee hexplicit hgiven hp
        hconcrete =>
      refine ⟨typeArgument, arguments, params, hnode, ?_, hcallee, hp, ?_⟩
      · exact (ready_call h).mpr ⟨Option.isSome_of_eq_some hcallee,
          Option.isSome_of_eq_some hexplicit, Option.isSome_of_eq_some hgiven⟩
      · have hchosen : typeArgument.bind preparation.final.view.value? = explicit :=
          Rule.bind_eq_of_mapM hexplicit
        have htypes : arguments.filterMap preparation.final.view.type? = given :=
          Rule.filterMap_eq_of_mapM hgiven
        rw [hchosen, htypes]
        exact hconcrete
  · rintro ⟨typeArgument, arguments, params, hnode, hready, hcallee, hp, hconcrete⟩
    obtain ⟨_, explicit, given, _, hexplicit, hgiven, hchosen, htypes⟩ :=
      exists_of_ready_call h hready
    rw [hchosen, htypes] at hconcrete
    exact ⟨hnode, hcallee, hexplicit, hgiven, hp, hconcrete⟩

theorem type?_of_instantiates (hwell : tree.WellFormed) (h : ofTree config tree = .ok preparation)
    (hcall : tree.Instantiates preparation.analysis id function p concrete result) :
    preparation.final.view.type? id = some (result.substitute p concrete) := by
  obtain ⟨typeArgument, arguments, params, hnode, hready, hcallee, hp, hconcrete⟩ :=
    (instantiates_iff h).mp hcall
  obtain ⟨expectation, hat⟩ := at_of_node hwell h hnode rfl
  have hpart : .act (.add (.call id function typeArgument arguments)) ∈
      tree.parts id (.call function typeArgument arguments) expectation := by simp [parts, add]
  rw [View.type?, hat.view_of_add hpart rfl rfl, Rule.result?, if_pos hready, Rule.effect, hcallee]
  simp [Rule.lookup_callEffect, callType?, instantiate, hp, Ty.params, hconcrete, Ty.substitute,
    Value.type?]

theorem reports_bodyShape_iff (hwell : tree.WellFormed)
    (h : ofTree config tree = .ok preparation) :
    preparation.analysis.Reports id .genericBodyShape ↔ ∃ function p result,
      tree.Instantiates preparation.analysis id function p .string result ∧
        ¬ tree.ReturnsSum p.function := by
  simp only [instantiates_iff h]
  constructor
  · rintro ⟨⟨node, cause⟩, hfinding, rfl, hkind⟩
    obtain ⟨rule, hadd, hready, hmem⟩ := exists_rule_of_kind h hfinding hkind rfl
    obtain ⟨rfl, function, typeArgument, arguments, rfl⟩ :=
      (Rule.accuses_effect _ _ _ _ hmem).eq_of_bodyShape hkind
    obtain ⟨params, result, p, hcallee, hp, hconcrete, hbody⟩ := Rule.mem_call_bodyShape.mp hmem
    rw [setting_tree h] at hbody
    exact ⟨function, p, result, ⟨typeArgument, arguments, params, node_of_add hwell h hadd rfl,
      hready, hcallee, hp, hconcrete⟩, hbody⟩
  · rintro ⟨function, p, result, ⟨typeArgument, arguments, params, hnode, hready, hcallee, hp,
      hconcrete⟩, hbody⟩
    obtain ⟨expectation, hat⟩ := at_of_node hwell h hnode rfl
    rw [← setting_tree h] at hbody
    exact ⟨_, mem_findings_of_rule hat.call_mem hready
      (Rule.mem_call_bodyShape.mpr ⟨params, result, p, hcallee, hp, hconcrete, hbody⟩), rfl, rfl⟩

theorem reports_of_instantiates (hwell : tree.WellFormed) (h : ofTree config tree = .ok preparation)
    (hcall : tree.Instantiates preparation.analysis id function p concrete result) :
    preparation.analysis.Reports id .genericBodyShape ↔
      concrete = .string ∧ ¬ tree.ReturnsSum p.function := by
  rw [reports_bodyShape_iff hwell h]
  constructor
  · rintro ⟨other, q, result', hother, hbody⟩
    obtain ⟨rfl, rfl⟩ := hcall.unique hother
    exact ⟨rfl, hbody⟩
  · rintro ⟨rfl, hbody⟩
    exact ⟨function, p, result, hcall, hbody⟩

theorem eq_of_template (hwell : tree.WellFormed) (h : ofTree config tree = .ok preparation)
    {name held : String} {decl param returnType body : NodeId} {params : List Ty}
    {parameters : List NodeId} (hnode : tree.node? function = some (.reference name))
    (hbound : preparation.analysis.declOf? function = some (.node decl))
    (hdecl : tree.node? decl = some (.funDecl held (some param) parameters returnType body))
    (houtside : ¬ tree.InTemplate decl)
    (htype : preparation.final.view.type? function = some (.function params result))
    (hp : (Ty.function params result).placeholder? = some p) :
    p.function = decl ∧ preparation.final.view.value? returnType = some result := by
  have hdeclared := declarationType?_of_reference hwell h hnode hbound htype
  obtain ⟨_, _, heq, hresult, _⟩ := function_of_declarationType? hwell h hdecl hdeclared
  cases heq
  refine ⟨?_, hresult⟩
  obtain ⟨openers, haround, hopeners⟩ := hwell.exists_outside hdecl houtside
  obtain rfl : p.decl = param := (all_function hwell h hdecl haround
    (hwell.admits_inside hdecl haround hopeners) hdeclared).of_placeholder? _ hp
  exact hwell.eq_of_introduces (introduces_of_mem hwell h htype (Ty.placeholder?_mem _ hp)) hdecl

end Preparation

/-- A call is found fault with, for the body of a template, just if it puts a string in for the
placeholder and the body is no sum, whatever the call results in. To go by the result instead comes
to the same just if the body is a sum, if the template returns its placeholder, or if it returns
strings and a string is put in, or neither. -/
theorem body_shape_found (config : Config) {tree : Tree} (hwell : tree.WellFormed) :
    ∃ analysis, Analysis.ofTree config tree = .ok analysis ∧
      (∀ id, analysis.Reports id .genericBodyShape ↔ ∃ function p result,
        tree.Instantiates analysis id function p .string result ∧ ¬ tree.ReturnsSum p.function) ∧
      ∀ id function p concrete result,
        tree.Instantiates analysis id function p concrete result →
        tree.Introduces p ∧ analysis.typeOf? id = some (result.substitute p concrete) ∧
        ((analysis.Reports id .genericBodyShape ↔
            result.substitute p concrete = .string ∧ ¬ tree.ReturnsSum p.function) ↔
          tree.ReturnsSum p.function ∨ result.isPlaceholderOf p ∨
            (result = .string ↔ concrete = .string)) ∧
        ∀ name decl held param parameters returnType body,
          tree.node? function = some (.reference name) →
          analysis.declOf? function = some (.node decl) →
          tree.node? decl = some (.funDecl held (some param) parameters returnType body) →
          ¬ tree.InTemplate decl →
            p.function = decl ∧ analysis.valueOf? returnType = some result := by
  obtain ⟨preparation, hprepared⟩ := Preparation.exists_ofTree hwell config
  refine ⟨preparation.analysis, Analysis.ofTree_eq hprepared,
    fun id => Preparation.reports_bodyShape_iff hwell hprepared, ?_⟩
  intro id function p concrete result hcall
  have ⟨_, hcallee, _, _, hp, _⟩ := hcall
  refine ⟨Preparation.introduces_of_mem hwell hprepared hcallee (Ty.placeholder?_mem _ hp),
    Preparation.type?_of_instantiates hwell hprepared hcall, ?_, ?_⟩
  · rw [Preparation.reports_of_instantiates hwell hprepared hcall, Ty.substitute_eq_string]
    have hreturns : result.isPlaceholderOf p → result ≠ .string := by
      rintro hplaceholder rfl
      cases hplaceholder
    tauto
  · intro name decl held param parameters returnType body hreference hbound hdecl houtside
    exact Preparation.eq_of_template hwell hprepared hreference hbound hdecl houtside hcallee hp

/-- A template that returns an integer is called with a string, and one that returns a string is
called with an integer. -/
def Tree.labelled : Tree where
  nodes := #[
    { node := .root [1, 9, 17, 21] },
    { node := .funDecl "f" (some 2) [3] 5 6 },
    { node := .templateParam "T" },
    { node := .parameter "x" 4 },
    { node := .simpleType "T" },
    { node := .simpleType "Int" },
    { node := .block [7] },
    { node := .returnStatement (some 8) },
    { node := .literal (.int 1) },
    { node := .funDecl "g" (some 10) [11] 13 14 },
    { node := .templateParam "T" },
    { node := .parameter "x" 12 },
    { node := .simpleType "T" },
    { node := .simpleType "String" },
    { node := .block [15] },
    { node := .returnStatement (some 16) },
    { node := .literal (.string "a") },
    { node := .expressionStatement 18 },
    { node := .call 19 none [20] },
    { node := .reference "f" },
    { node := .literal (.string "a") },
    { node := .expressionStatement 22 },
    { node := .call 23 none [24] },
    { node := .reference "g" },
    { node := .literal (.int 1) }]
  root := 0

theorem wellFormed_labelled : Tree.labelled.WellFormed := by decide +kernel

theorem instantiates_labelled : ∃ analysis p q, Analysis.ofTree {} Tree.labelled = .ok analysis ∧
    analysis.declOf? 19 = some (.node 1) ∧
    Tree.labelled.Instantiates analysis 18 19 p .string .int ∧ p.function = 1 ∧
    Tree.labelled.Instantiates analysis 22 23 q .int .string ∧ q.function = 9 ∧
    analysis.findings.map (fun finding => (finding.node, finding.kind)) =
      [(18, .genericBodyShape)] := by
  obtain ⟨analysis, hanalysis, htest⟩ := Analysis.exists_of_any
    (show (Analysis.ofTree {} Tree.labelled).toOption.any (fun analysis =>
      decide (analysis.declOf? 19 = some (.node 1)) &&
      analysis.fills 19 20 1 .string .int && analysis.fills 23 24 9 .int .string &&
      decide (analysis.findings.map (fun finding => (finding.node, finding.kind)) =
        [(18, .genericBodyShape)])) = true by decide +kernel)
  simp only [Bool.and_eq_true, decide_eq_true_eq] at htest
  obtain ⟨⟨⟨hdecl, hfirst⟩, hsecond⟩, hfindings⟩ := htest
  obtain ⟨p, hcall, hp⟩ : ∃ p,
      Tree.labelled.Instantiates analysis 18 19 p .string .int ∧ p.function = 1 :=
    Tree.instantiates_of_fills rfl rfl rfl hfirst
  obtain ⟨q, hcall', hq⟩ : ∃ q,
      Tree.labelled.Instantiates analysis 22 23 q .int .string ∧ q.function = 9 :=
    Tree.instantiates_of_fills rfl rfl rfl hsecond
  exact ⟨analysis, p, q, hanalysis, hdecl, hcall, hp, hcall', hq, hfindings⟩

theorem not_returnsSum_labelled :
    ¬ Tree.labelled.ReturnsSum 1 ∧ ¬ Tree.labelled.ReturnsSum 9 := by
  simp only [← Tree.isConcatenation_iff]
  decide

theorem body_shape_found_labelled : Tree.labelled.WellFormed ∧
    ∃ analysis p, Analysis.ofTree {} Tree.labelled = .ok analysis ∧
      Tree.labelled.Instantiates analysis 18 19 p .string .int ∧ p.function = 1 ∧
      analysis.typeOf? 18 = some .int ∧ analysis.valueOf? 5 = some .int ∧
      analysis.Reports 18 .genericBodyShape := by
  obtain ⟨analysis, hanalysis, hfound, hcalls⟩ := body_shape_found {} wellFormed_labelled
  obtain ⟨_, p, _, hanalysis', hdecl, hcall, hp, _⟩ := instantiates_labelled
  cases Except.ok.inj (hanalysis.symm.trans hanalysis')
  have houtside : ¬ Tree.labelled.InTemplate 1 := by
    have hroot : Tree.labelled.Around 0 [] := .root
    have haround : Tree.labelled.Around 1 [0] := hroot.child rfl List.mem_cons_self
    apply wellFormed_labelled.not_inTemplate haround
    intro function hfunction
    cases List.mem_singleton.mp hfunction
    decide
  obtain ⟨_, htype, _, htemplate⟩ := hcalls 18 19 p .string .int hcall
  obtain ⟨_, hresult⟩ := htemplate "f" 1 "f" 2 [3] 5 6 rfl hdecl rfl houtside
  refine ⟨wellFormed_labelled, analysis, p, hanalysis, hcall, hp, htype, hresult, ?_⟩
  exact (hfound 18).mpr ⟨19, p, .int, hcall, hp ▸ not_returnsSum_labelled.1⟩

/-- The first call is found fault with although it results in an integer. The second one is not,
although it results in a string and the body of the template is no sum. -/
theorem body_shape_misjudged : Tree.labelled.WellFormed ∧
    ∃ analysis p q, Analysis.ofTree {} Tree.labelled = .ok analysis ∧
      Tree.labelled.Instantiates analysis 18 19 p .string .int ∧
      analysis.Reports 18 .genericBodyShape ∧
      Tree.labelled.Instantiates analysis 22 23 q .int .string ∧
      ¬ Tree.labelled.ReturnsSum q.function ∧ ¬ analysis.Reports 22 .genericBodyShape := by
  obtain ⟨analysis, p, q, hanalysis, _, hfirst, _, hsecond, hq, hfindings⟩ := instantiates_labelled
  refine ⟨wellFormed_labelled, analysis, p, q, hanalysis, hfirst, ?_, hsecond,
    hq ▸ not_returnsSum_labelled.2, ?_⟩
  · rw [Analysis.reports_iff, hfindings]
    exact List.mem_singleton.mpr rfl
  · rw [Analysis.reports_iff, hfindings]
    decide

end Attribution
