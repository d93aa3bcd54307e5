import Attribution.Proofs.Analysis.Instances
import Attribution.Proofs.Checker.Grounded
/-!
# Placeholders outside templates

Outside all templates a type can mention a placeholder only if a template was used without a type
for it: as a value, or by a call that puts in nothing.
-/
namespace Attribution

namespace Tree

variable {tree : Tree} {id decl opener : NodeId} {openers outer : List NodeId} {node : Node}

theorem Around.exists_node (hwell : tree.WellFormed) (h : tree.Around id openers) :
    ∃ node, tree.node? id = some node := by
  obtain ⟨path, expectation, hleads⟩ := h.exists_leads
  exact hwell.exists_node hleads

theorem Around.of_append {before : List NodeId} (h : tree.Around id (before ++ opener :: outer)) :
    tree.Around opener outer := by
  induction before generalizing id with
  | nil => exact h.outer
  | cons first before ih => exact ih h.outer

theorem WellFormed.subset_of_opener (hwell : tree.WellFormed) (haround : tree.Around id openers)
    (hopener : opener ∈ openers) (hinside : tree.Around decl (opener :: outer)) :
    opener :: outer ⊆ openers := by
  obtain ⟨before, after, rfl⟩ := List.append_of_mem hopener
  obtain ⟨node, hnode⟩ := hinside.outer.exists_node hwell
  rw [hwell.unshared.around_unique haround.of_append hinside.outer (Option.isSome_of_eq_some hnode)]
  exact List.subset_append_right _ _

theorem WellFormed.not_inTemplate (hwell : tree.WellFormed) (haround : tree.Around id openers)
    (houtside : ∀ function ∈ openers, ¬ tree.satisfies function Node.isTemplate) :
    ¬ tree.InTemplate id := by
  rintro ⟨others, haround', function, hfunction, htemplate⟩
  obtain ⟨node, hnode⟩ := haround.exists_node hwell
  rw [hwell.unshared.around_unique haround haround' (Option.isSome_of_eq_some hnode)] at hfunction
  exact houtside function hfunction htemplate

theorem WellFormed.exists_outside (hwell : tree.WellFormed) (hnode : tree.node? id = some node)
    (hid : ¬ tree.InTemplate id) : ∃ openers, tree.Around id openers ∧
      ∀ function ∈ openers, ¬ tree.satisfies function Node.isTemplate := by
  obtain ⟨openers, haround⟩ := hwell.exists_around hnode
  exact ⟨openers, haround, fun function hfunction htemplate =>
    hid ⟨openers, haround, function, hfunction, htemplate⟩⟩

theorem WellFormed.child_not_inTemplate (hwell : tree.WellFormed)
    (hnode : tree.node? id = some node) (hscope : node.opensScope = false) {child : NodeId}
    (hchild : child ∈ node.children) (hid : ¬ tree.InTemplate id) : ¬ tree.InTemplate child := by
  obtain ⟨openers, haround, houtside⟩ := hwell.exists_outside hnode hid
  have hinside := haround.child hnode hchild
  rw [Node.inside, hscope] at hinside
  exact hwell.not_inTemplate hinside houtside

theorem WellFormed.right_inside_function (hwell : tree.WellFormed) {function : NodeId}
    (hfunction : tree.satisfies function Node.isFunction)
    (h : tree.Around id (function :: outer)) : tree.satisfies id Node.isTemplateParam ∨
      tree.satisfies id Node.isParameter ∨ tree.satisfies id Node.isTypeNode ∨
      tree.satisfies id Node.isBlock := by
  generalize hall : function :: outer = all at h
  induction h with
  | root => cases hall
  | @child id child around node hparent hnode hchild ih =>
    have hfits := hwell.fits _ _ hnode
    rw [Node.inside] at hall
    split at hall
    next hscope =>
      cases hall
      have hkind := (satisfies_of_node hnode).mp hfunction
      cases node with
      | funDecl name template parameters returnType body =>
        obtain ⟨htemplate, hparameters, hreturn, hbody⟩ := hfits
        simp only [Node.children, List.mem_append, List.mem_cons, List.not_mem_nil,
          or_false] at hchild
        rcases hchild with (hmem | hmem) | rfl | rfl
        · exact .inl (htemplate child hmem)
        · exact .inr (.inl (hparameters child hmem))
        · exact .inr (.inr (.inl hreturn))
        · exact .inr (.inr (.inr hbody))
      | _ => cases hkind
    next hscope =>
      cases node with
      | templateParam => cases hchild
      | simpleType => cases hchild
      | parameter name type =>
        cases List.mem_singleton.mp hchild
        exact .inr (.inr (.inl hfits))
      | arrayType component =>
        cases List.mem_singleton.mp hchild
        exact .inr (.inr (.inl hfits))
      | block => exact absurd rfl hscope
      | _ => rcases ih hall with h | h | h | h <;> cases (satisfies_of_node hnode).mp h

/-- Of what can be named inside some openers, the structs stand outside all templates, and no
template parameter is another one than the given one. -/
structure Admits (tree : Tree) (openers : List NodeId) (param : NodeId) : Prop where
  struct : ∀ decl opener outer, opener ∈ openers → tree.Around decl (opener :: outer) →
    tree.satisfies decl Node.isStruct → ¬ tree.InTemplate decl
  placeholder : ∀ decl opener outer, opener ∈ openers → tree.Around decl (opener :: outer) →
    tree.satisfies decl Node.isTemplateParam → decl = param

theorem WellFormed.admits_outside (hwell : tree.WellFormed) (haround : tree.Around id openers)
    (houtside : ∀ function ∈ openers, ¬ tree.satisfies function Node.isTemplate) (param : NodeId) :
    tree.Admits openers param where
  struct _ _ _ hopener hinside _ := hwell.not_inTemplate hinside fun function hfunction =>
    houtside function (hwell.subset_of_opener haround hopener hinside hfunction)
  placeholder _ opener _ hopener hinside hkind :=
    absurd (Preparation.template_of_around hwell hkind hinside) (houtside opener hopener)

theorem WellFormed.admits_inside (hwell : tree.WellFormed) {name : String} {param : NodeId}
    {parameters : List NodeId} {returnType body : NodeId}
    (hnode : tree.node? id = some (.funDecl name (some param) parameters returnType body))
    (haround : tree.Around id openers)
    (houtside : ∀ function ∈ openers, ¬ tree.satisfies function Node.isTemplate) :
    tree.Admits (id :: openers) param := by
  have hadmits := hwell.admits_outside haround houtside param
  constructor
  · intro decl opener outer hopener hinside hkind
    rcases List.mem_cons.mp hopener with rfl | hopener
    · obtain ⟨node, hdecl, hstruct⟩ := satisfies_iff.mp hkind
      have hparts := hwell.right_inside_function (satisfies_iff.mpr ⟨_, hnode, rfl⟩) hinside
      cases node with
      | structDecl =>
        rcases hparts with h | h | h | h <;> cases (satisfies_of_node hdecl).mp h
      | _ => cases hstruct
    · exact hadmits.struct decl opener outer hopener hinside hkind
  · intro decl opener outer hopener hinside hkind
    rcases List.mem_cons.mp hopener with rfl | hopener
    · obtain ⟨path, lent, hleads⟩ := hinside.exists_leads
      obtain ⟨_, function, _, name', parameters', returnType', body', _, hfunction⟩ :=
        hwell.exists_function hleads hkind
      obtain ⟨_, heq⟩ := hwell.exists_outer hfunction hinside
      cases heq
      cases Option.some.inj (hnode.symm.trans hfunction)
      rfl
    · exact hadmits.placeholder decl opener outer hopener hinside hkind

end Tree

open Attribution.Tree Attribution.Part

namespace Preparation

variable {config : Config} {tree : Tree} {preparation : Preparation} {id decl param : NodeId}
  {openers : List NodeId} {type : Ty}

/-- What occurs in a type stands outside all templates, but for a template parameter. -/
abbrev OutsideBut (tree : Tree) (param : NodeId) (type : Ty) : Prop :=
  type.All (fun decl => ¬ tree.InTemplate decl) (· = param)

/-- What occurs in a type stands outside all templates, but for one template parameter. -/
def Singular (tree : Tree) (type : Ty) : Prop := ∃ param, OutsideBut tree param type

theorem all_denotedWithin (hwell : tree.WellFormed) (h : ofTree config tree = .ok preparation)
    (haround : tree.Around id openers) (hadmits : tree.Admits openers param) {n : Nat}
    (htype : preparation.checker.denotedWithin n id = some type) :
    OutsideBut tree param type := by
  induction n generalizing id type with
  | zero => cases htype
  | succ n ih =>
    rw [Checker.denotedWithin, checker_tree h] at htype
    split at htype
    next name hnode =>
      obtain ⟨entity, hentity, hintroduced⟩ := Option.bind_eq_some_iff.mp htype
      cases entity with
      | builtin b => cases b <;> cases hintroduced <;> trivial
      | node decl =>
        obtain ⟨opener, hopener, outer, hinside⟩ :=
          exists_opener_of_use hwell h (.inr hnode) haround hentity
        rw [Checker.introduced?, checker_tree h] at hintroduced
        split at hintroduced
        next hdecl =>
          cases hintroduced
          exact hadmits.struct decl opener outer hopener hinside (satisfies_iff.mpr ⟨_, hdecl, rfl⟩)
        next hdecl =>
          obtain ⟨function, _, rfl⟩ := Option.map_eq_some_iff.mp hintroduced
          exact hadmits.placeholder decl opener outer hopener hinside
            (satisfies_iff.mpr ⟨_, hdecl, rfl⟩)
        next => cases hintroduced
    next component hnode =>
      obtain ⟨inner, hinner, rfl⟩ := Option.map_eq_some_iff.mp htype
      have hall := ih (haround.child hnode List.mem_cons_self) hinner
      exact hall
    next => cases htype

theorem all_annotated (hwell : tree.WellFormed) (h : ofTree config tree = .ok preparation)
    (haround : tree.Around id openers) (hadmits : tree.Admits openers param)
    (htype : preparation.checker.annotated? id = some type) :
    OutsideBut tree param type := by
  rw [Checker.annotated?, checker_tree h] at htype
  split at htype
  next hnode =>
    exact all_denotedWithin hwell h (haround.child hnode List.mem_cons_self) hadmits htype
  next hnode =>
    exact all_denotedWithin hwell h (haround.child hnode List.mem_cons_self) hadmits htype
  next hnode =>
    exact all_denotedWithin hwell h (haround.child hnode List.mem_cons_self) hadmits htype
  next => cases htype

/-- The type of a function mentions what can be named inside the function. -/
theorem all_function (hwell : tree.WellFormed) (h : ofTree config tree = .ok preparation)
    {name : String} {template : Option NodeId} {parameters : List NodeId} {returnType body : NodeId}
    (hnode : tree.node? id = some (.funDecl name template parameters returnType body))
    (haround : tree.Around id openers) (hadmits : tree.Admits (id :: openers) param)
    (htype : preparation.checker.declarationType? id = some type) :
    OutsideBut tree param type := by
  rw [Checker.declarationType?, checker_tree h, hnode] at htype
  obtain ⟨params, hparams, htype⟩ := Option.bind_eq_some_iff.mp htype
  obtain ⟨result, hresult, htype⟩ := Option.bind_eq_some_iff.mp htype
  cases htype
  have hinside : ∀ child ∈ (Node.funDecl name template parameters returnType body).children,
      tree.Around child (id :: openers) := fun child hchild => haround.child hnode hchild
  constructor
  · refine Ty.allIn_iff.mpr (forall_mem_of_mapM hparams ?_)
    intro parameter hparameter found hfound
    have haround := hinside parameter
      (List.mem_append_left _ (List.mem_append_right _ hparameter))
    exact all_annotated hwell h haround hadmits hfound
  · exact all_denotedWithin hwell h
      (hinside returnType (List.mem_append_right _ List.mem_cons_self)) hadmits hresult

theorem singular_declarationType (hwell : tree.WellFormed)
    (h : ofTree config tree = .ok preparation) (hdecl : ¬ tree.InTemplate decl)
    (htype : preparation.checker.declarationType? decl = some type) : Singular tree type := by
  cases hnode : tree.node? decl with
  | none =>
    rw [Checker.declarationType?, checker_tree h, hnode] at htype
    cases htype
  | some node =>
    obtain ⟨openers, haround, houtside⟩ := hwell.exists_outside hnode hdecl
    have hadmits := hwell.admits_outside haround houtside
    cases node with
    | funDecl name template parameters returnType body =>
      cases template with
      | some param =>
        exact ⟨param, all_function hwell h hnode haround
          (hwell.admits_inside hnode haround houtside) htype⟩
      | none =>
        -- a function that is no template has no template around its parts either
        have hreturn := haround.child hnode (List.mem_append_right _ List.mem_cons_self)
        refine ⟨decl,
          all_function hwell h hnode haround (hwell.admits_outside hreturn ?_ decl) htype⟩
        intro function hfunction htemplate
        rcases List.mem_cons.mp hfunction with rfl | hfunction
        · cases (satisfies_of_node hnode).mp htemplate
        · exact houtside function hfunction htemplate
    | varDecl | parameter | fieldDecl =>
      rw [Checker.declarationType?, checker_tree h, hnode] at htype
      exact ⟨decl, all_annotated hwell h haround (hadmits decl) htype⟩
    | structDecl | templateParam =>
      rw [Checker.declarationType?, checker_tree h, hnode] at htype
      cases htype
      exact ⟨decl, trivial⟩
    | _ =>
      rw [Checker.declarationType?, checker_tree h, hnode] at htype
      cases htype

theorem decl_not_inTemplate (hwell : tree.WellFormed) (h : ofTree config tree = .ok preparation)
    {name : String} (huses : tree.UsesName id name) (hid : ¬ tree.InTemplate id)
    (hdecl : preparation.checker.entity? id = some (.node decl)) : ¬ tree.InTemplate decl := by
  obtain ⟨node, hnode⟩ : ∃ node, tree.node? id = some node := by
    rcases huses with hnode | hnode <;> exact ⟨_, hnode⟩
  obtain ⟨openers, haround, houtside⟩ := hwell.exists_outside hnode hid
  obtain ⟨opener, hopener, outer, hinside⟩ := exists_opener_of_use hwell h huses haround hdecl
  exact hwell.not_inTemplate hinside fun function hfunction =>
    houtside function (hwell.subset_of_opener haround hopener hinside hfunction)

theorem all_field (hwell : tree.WellFormed) (h : ofTree config tree = .ok preparation)
    {name : String} {fields : List NodeId}
    (hnode : tree.node? decl = some (.structDecl name fields)) (hdecl : ¬ tree.InTemplate decl)
    {field : NodeId} (hfield : field ∈ fields)
    (htype : preparation.checker.annotated? field = some type) (param : NodeId) :
    OutsideBut tree param type := by
  obtain ⟨openers, haround, houtside⟩ := hwell.exists_outside hnode hdecl
  exact all_annotated hwell h (haround.child hnode hfield)
    (hwell.admits_outside haround houtside param) htype

theorem keeps_singular (hwell : tree.WellFormed) (h : ofTree config tree = .ok preparation) :
    preparation.checker.Keeps (fun id => ¬ tree.InTemplate id) (Singular tree) where
  child id child node hid hnode hkind hchild := by
    rw [checker_tree h] at hnode
    refine hwell.child_not_inTemplate hnode ?_ hchild hid
    cases node <;> first | rfl | cases hkind
  basic type hbasic := ⟨0, by cases type <;> trivial⟩
  array _ := Iff.rfl
  param _ _ _ hcallee hparam := hcallee.imp fun _ hall => hall.param hparam
  reference id name entity type hid hnode hentity htype := by
    rw [checker_tree h] at hnode
    cases entity with
    | builtin b =>
      cases b <;> cases htype <;> exact ⟨0, by simp [Builtin.valueType, Ty.All, Ty.AllIn]⟩
    | node decl =>
      exact singular_declarationType hwell h
        (decl_not_inTemplate hwell h (.inl hnode) hid hentity) htype
  construct id reference entity type hid hnode hentity htype := by
    rw [checker_tree h] at hnode
    have hreference := hwell.child_not_inTemplate hnode rfl List.mem_cons_self hid
    obtain ⟨found, hfound, hkind⟩ := satisfies_iff.mp (hwell.fits _ _ hnode)
    cases found with
    | reference name =>
      cases entity with
      | builtin b => cases htype
      | node decl =>
        have hdecl := decl_not_inTemplate hwell h (.inl hfound) hreference hentity
        rw [Checker.constructorType?, checker_tree h] at htype
        split at htype
        next name fields hstruct =>
          obtain ⟨params, hparams, rfl⟩ := Option.map_eq_some_iff.mp htype
          refine ⟨decl, Ty.allIn_iff.mpr (forall_mem_of_mapM hparams ?_), hdecl⟩
          exact fun field hfield _ hannotated => all_field hwell h hstruct hdecl hfield hannotated _
        next => cases htype
    | _ => cases hkind
  member name stem type hstem htype := by
    cases stem with
    | array component =>
      rw [Checker.memberType?] at htype
      split at htype
      · cases htype
        exact ⟨0, trivial⟩
      · cases htype
    | struct decl held =>
      obtain ⟨_, hdecl⟩ := hstem
      obtain ⟨field, hfield, hannotated⟩ := Option.bind_eq_some_iff.mp htype
      rw [checker_tree h, Tree.field?] at hfield
      split at hfield
      next held fields hstruct =>
        exact ⟨0, all_field hwell h hstruct hdecl (List.mem_of_find?_eq_some hfield) hannotated 0⟩
      next => cases hfield
    | _ => cases htype
  explicit id function typeNode arguments type hid hnode htype := by
    rw [checker_tree h] at hnode
    obtain ⟨openers, haround, houtside⟩ := hwell.exists_outside hnode hid
    have hinside := haround.child hnode (List.mem_cons_of_mem _ List.mem_cons_self)
    exact ⟨0, all_denotedWithin hwell h hinside (hwell.admits_outside haround houtside 0) htype⟩
  call callee explicit arguments type hcallee hexplicit harguments htype := by
    obtain ⟨param, hall⟩ := hcallee
    obtain ⟨params, hinstance⟩ := exists_of_callType? htype
    obtain ⟨other, hother⟩ := hall.instantiate hexplicit harguments
    rw [hinstance] at hother
    exact ⟨other, hother.2⟩

/-- A call outside all templates leaves a placeholder just if its callee has one in the result and
the call puts in nothing for it, or something that mentions a placeholder. -/
theorem At.placeholder?_call {function : NodeId} {typeArgument : Option NodeId}
    {arguments : List NodeId} {expectation : Expectation}
    (h : At config tree preparation id expectation (.call function typeArgument arguments))
    (hid : ¬ tree.InTemplate id) (htype : preparation.final.view.type? id = some type) :
    ∃ params result, preparation.final.view.type? function = some (.function params result) ∧
      (type.placeholder?.isSome ↔ ∃ p, result.placeholder? = some p ∧
        ∀ concrete, concreteFor? p (typeArgument.bind preparation.final.view.value?) params
          (arguments.filterMap preparation.final.view.type?) = some concrete →
            concrete.placeholder?.isSome) := by
  obtain ⟨params, result, found, params', hcallee, hfound, hinstance, _⟩ := h.typed_call htype
  refine ⟨params, result, hcallee, ?_⟩
  obtain ⟨path, hleads⟩ := leads_of_walked h.walked
  obtain ⟨_, hchild⟩ := hleads.exists_child h.node
    (show (function, Expectation.nothing) ∈ _ from List.mem_cons_self)
  have hview := view_typeWithin h.well h.prepared hchild (Nat.le_add_left _ _)
    (h.well.fits _ _ h.node).1
  rw [Rule.type?_of_view hview] at hcallee
  have hfunction := h.well.child_not_inTemplate h.node rfl List.mem_cons_self hid
  have hnothing : ∀ t ∈ preparation.lent? .nothing, Singular tree t := by
    intro t ht
    cases ht
  obtain ⟨decl, hall⟩ :=
    (keeps_singular h.well h.prepared).typeWithin hfunction hnothing hcallee
  rw [Rule.filterMap_eq_of_mapM hfound]
  exact placeholder?_instantiate hall hinstance

theorem At.placeholder?_explicit {function typeNode : NodeId} {arguments : List NodeId}
    {expectation : Expectation}
    (h : At config tree preparation id expectation (.call function (some typeNode) arguments))
    (hid : ¬ tree.InTemplate id) (hsome : (preparation.final.view (.type id)).isSome) :
    ∃ explicit, preparation.final.view.value? typeNode = some explicit ∧
      explicit.placeholder? = none := by
  obtain ⟨openers, haround, houtside⟩ := h.well.exists_outside h.node hid
  have hpart : .act (.add (.call id function (some typeNode) arguments)) ∈
      tree.parts id (.call function (some typeNode) arguments) expectation := by simp [parts, add]
  have hkind := (h.well.fits _ _ h.node).2.1 typeNode List.mem_cons_self
  have hvalue := h.isSome_input hpart rfl rfl hsome (.value typeNode)
    (List.mem_append_right _ List.mem_cons_self)
  obtain ⟨node, hnode, _⟩ := satisfies_iff.mp hkind
  have hview := view_denoted h.well h.prepared hnode
  rw [hview, Option.isSome_map] at hvalue
  obtain ⟨explicit, hexplicit⟩ := Option.isSome_iff_exists.mp hvalue
  have hfound := (Rule.value?_of_view hview).trans hexplicit
  refine ⟨explicit, hfound, placeholder?_of_value h.well h.prepared hkind ?_ houtside hfound⟩
  exact haround.child h.node (List.mem_cons_of_mem _ List.mem_cons_self)

end Preparation

/-- The type of a call outside all templates mentions a placeholder just if the result of its callee
does and the call puts in nothing for it, or something that mentions a placeholder. With an explicit
type argument it mentions none. -/
theorem placeholder_escapes_iff (config : Config) {tree : Tree} (hwell : tree.WellFormed) :
    ∃ analysis, Analysis.ofTree config tree = .ok analysis ∧
      ∀ id function typeArgument arguments type,
        tree.node? id = some (.call function typeArgument arguments) → ¬ tree.InTemplate id →
        analysis.typeOf? id = some type → ∃ params result,
          analysis.typeOf? function = some (.function params result) ∧
          (type.placeholder?.isSome ↔ ∃ p, result.placeholder? = some p ∧
            ∀ concrete, concreteFor? p (typeArgument.bind analysis.valueOf?) params
              (arguments.filterMap analysis.typeOf?) = some concrete →
                concrete.placeholder?.isSome) ∧
          (typeArgument.isSome → type.placeholder? = none) := by
  obtain ⟨preparation, hprepared⟩ := Preparation.exists_ofTree hwell config
  refine ⟨_, Analysis.ofTree_eq hprepared, ?_⟩
  intro id function typeArgument arguments type hnode hid htype
  obtain ⟨expectation, hat⟩ := Preparation.at_of_node hwell hprepared hnode rfl
  obtain ⟨params, result, hcallee, hiff⟩ := hat.placeholder?_call hid htype
  refine ⟨params, result, hcallee, hiff, ?_⟩
  intro hsome
  cases typeArgument with
  | none => cases hsome
  | some typeNode =>
    obtain ⟨explicit, hexplicit, hnone⟩ :=
      hat.placeholder?_explicit hid (Option.isSome_of_isSome_bind (Option.isSome_of_eq_some htype))
    rw [Option.eq_none_iff_forall_ne_some]
    intro p hp
    obtain ⟨q, _, hall⟩ := hiff.mp (Option.isSome_of_eq_some hp)
    have hmentions := hall explicit (by
      rw [concreteFor?, Option.bind_some, hexplicit]
      rfl)
    rw [hnone] at hmentions
    cases hmentions

/-- A template without parameters, which calls itself and is called at the root. -/
def Tree.undetermined : Tree where
  nodes := #[
    { node := .root [1, 8] },
    { node := .funDecl "g" (some 2) [] 3 4 },
    { node := .templateParam "T" },
    { node := .simpleType "T" },
    { node := .block [5] },
    { node := .returnStatement (some 6) },
    { node := .call 7 none [] },
    { node := .reference "g" },
    { node := .expressionStatement 9 },
    { node := .call 10 none [] },
    { node := .reference "g" }]
  root := 0

theorem wellFormed_undetermined : Tree.undetermined.WellFormed := by decide +kernel

theorem not_inTemplate_undetermined : ¬ Tree.undetermined.InTemplate 9 := by
  have hroot : Tree.undetermined.Around 0 [] := .root
  have hstatement : Tree.undetermined.Around 8 [0] :=
    hroot.child rfl (List.mem_cons_of_mem 1 List.mem_cons_self)
  have hcall : Tree.undetermined.Around 9 [0] := hstatement.child rfl List.mem_cons_self
  apply wellFormed_undetermined.not_inTemplate hcall
  intro function hfunction
  cases List.mem_singleton.mp hfunction
  decide

theorem findings_undetermined : (Analysis.ofTree {} Tree.undetermined).toOption.any fun analysis =>
    analysis.findings.isEmpty &&
      (analysis.typeOf? 9).any fun type => type.placeholder?.isSome := by
  decide +kernel

theorem placeholder_escapes_iff_undetermined : Tree.undetermined.WellFormed ∧
    ∃ analysis params result p, Analysis.ofTree {} Tree.undetermined = .ok analysis ∧
      analysis.typeOf? 10 = some (.function params result) ∧ result.placeholder? = some p := by
  obtain ⟨analysis, hanalysis, hescapes⟩ := placeholder_escapes_iff {} wellFormed_undetermined
  have hfacts := findings_undetermined
  rw [hanalysis] at hfacts
  obtain ⟨_, hany⟩ := Bool.and_eq_true_iff.mp hfacts
  obtain ⟨type, htype, hmentions⟩ := (Option.any_eq_true _ _).mp hany
  obtain ⟨params, result, hcallee, hiff, _⟩ :=
    hescapes 9 10 none [] type rfl not_inTemplate_undetermined htype
  obtain ⟨p, hp, _⟩ := hiff.mp hmentions
  exact ⟨wellFormed_undetermined, analysis, params, result, p, hanalysis, hcallee, hp⟩

/-- The call at the root has the placeholder of the template for its type, and nothing is found. -/
theorem placeholder_escapes : Tree.undetermined.WellFormed ∧ ¬ Tree.undetermined.InTemplate 9 ∧
    Tree.undetermined.node? 9 = some (.call 10 none []) ∧
    ∃ analysis type, Analysis.ofTree {} Tree.undetermined = .ok analysis ∧
      analysis.findings = [] ∧ analysis.typeOf? 9 = some type ∧ type.placeholder?.isSome := by
  obtain ⟨analysis, hanalysis, hfacts⟩ := Analysis.exists_of_any findings_undetermined
  simp only [Bool.and_eq_true, List.isEmpty_iff] at hfacts
  obtain ⟨type, htype, hmentions⟩ := (Option.any_eq_true _ _).mp hfacts.2
  exact ⟨wellFormed_undetermined, not_inTemplate_undetermined, rfl, analysis, type, hanalysis,
    hfacts.1, htype, hmentions⟩

end Attribution
