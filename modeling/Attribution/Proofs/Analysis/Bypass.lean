import Attribution.Proofs.Analysis.Calls
import Attribution.Proofs.Analysis.Entities
import Attribution.Proofs.Analysis.Resolution
import Attribution.Proofs.Checker.Placeholders
/-!
# Operators on placeholders

An operator lets a placeholder pass just if a template parameter can be reached from one of its
operands. From variables, parameters and the elements of arrays it can be reached. What a call or a
field access yields can be a placeholder that cannot be reached so, and then the operator is checked
as if the placeholder was any other type.
-/
namespace Attribution

open Attribution.Tree Attribution.Part

namespace Tree

variable {tree : Tree} {resolve resolve' : NodeId → Option Entity} {id : NodeId}

/-- The rule of a node reads a type or a value of each node to which a step leads. -/
structure Reads (tree : Tree) (id : NodeId) (node : Node) (target : NodeId) (rule : Rule)
    (cell : Cell) : Prop where
  part : ∀ expectation, .act (.add rule) ∈ tree.parts id node expectation
  output : rule.outputs = [cell]
  weight : rule.weight = 1
  input : .type target ∈ rule.inputs ∨ .value target ∈ rule.inputs
  cell : cell = .type id ∧ node.isTypeNode = false ∨
    cell = .value id ∧ (node.isExpression || node.isTyped) = false

theorem exists_reads {node : Node} {targets : List NodeId} {target : NodeId}
    (hnode : tree.node? id = some node) (hname : node.isName = false)
    (hfield : ∀ stem name, node ≠ .fieldAccess stem name)
    (htargets : tree.carriers resolve id = .ok targets) (htarget : target ∈ targets) :
    node.isAtom = false ∧ ∃ rule cell, tree.Reads id node target rule cell := by
  rw [carriers, hnode] at htargets
  cases node with
  | reference | simpleType => cases hname
  | fieldAccess stem name => exact absurd rfl (hfield stem name)
  | parenthesized part =>
    cases htargets
    cases List.mem_singleton.mp htarget
    exact ⟨rfl, .parenthesized id target, .type id, by simp [parts, add], rfl, rfl,
      .inl List.mem_cons_self, .inl ⟨rfl, rfl⟩⟩
  | unary op part =>
    cases htargets
    cases List.mem_singleton.mp htarget
    exact ⟨rfl, .unary id op target, .type id, by simp [parts, add], rfl, rfl,
      .inl List.mem_cons_self, .inl ⟨rfl, rfl⟩⟩
  | arrayAccess part index =>
    cases htargets
    cases List.mem_singleton.mp htarget
    exact ⟨rfl, .arrayAccess id target, .type id, by simp [parts, add], rfl, rfl,
      .inl List.mem_cons_self, .inl ⟨rfl, rfl⟩⟩
  | arrayType part =>
    cases htargets
    cases List.mem_singleton.mp htarget
    exact ⟨rfl, .arrayType id target, .value id, by simp [parts, add], rfl, rfl,
      .inr List.mem_cons_self, .inr ⟨rfl, rfl⟩⟩
  | varDecl name part initializer =>
    cases htargets
    cases List.mem_singleton.mp htarget
    exact ⟨rfl, .declaredType id target, .type id, by simp [parts, add], rfl, rfl,
      .inr List.mem_cons_self, .inl ⟨rfl, rfl⟩⟩
  | parameter name part =>
    cases htargets
    cases List.mem_singleton.mp htarget
    exact ⟨rfl, .declaredType id target, .type id, by simp [parts, add], rfl, rfl,
      .inr List.mem_cons_self, .inl ⟨rfl, rfl⟩⟩
  | binary op left right =>
    cases htargets
    exact ⟨rfl, .binary id op left right, .type id, by simp [parts, add], rfl, rfl,
      .inl (List.mem_map_of_mem htarget), .inl ⟨rfl, rfl⟩⟩
  | assignment left right =>
    cases htargets
    exact ⟨rfl, .assignment id left right, .type id, by simp [parts, add], rfl, rfl,
      .inl (List.mem_map_of_mem htarget), .inl ⟨rfl, rfl⟩⟩
  | arrayLiteral components =>
    cases htargets
    cases targets with
    | nil => cases htarget
    | cons first rest =>
      exact ⟨rfl, .arrayLiteral id (first :: rest), .type id, by simp [parts, add], rfl, rfl,
        .inl (List.mem_map_of_mem htarget), .inl ⟨rfl, rfl⟩⟩
  | call function typeArgument arguments =>
    cases htargets
    refine ⟨rfl, .call id function typeArgument arguments, .type id, by simp [parts, add], rfl, rfl,
      ?_, .inl ⟨rfl, rfl⟩⟩
    rcases List.mem_append.mp htarget with hmem | hmem
    · rcases List.mem_cons.mp hmem with rfl | hmem
      · exact .inl List.mem_cons_self
      · exact .inr (List.mem_append_right _ (List.mem_map_of_mem hmem))
    · exact .inl (Rule.mem_inputs_call hmem)
  | _ =>
    cases htargets
    cases htarget

end Tree

namespace Preparation

variable {config : Config} {tree : Tree} {preparation : Preparation} {id : NodeId}
  {expectation : Expectation} {node : Node}

/-- A node has a type or denotes one. -/
def Settled (preparation : Preparation) (id : NodeId) : Prop :=
  (preparation.final.view (.type id)).isSome ∨ (preparation.final.view (.value id)).isSome

theorem settled_type (hwell : tree.WellFormed) (h : ofTree config tree = .ok preparation)
    (hnode : tree.node? id = some node) (hkind : node.isTypeNode = false)
    (hsettled : preparation.Settled id) : (preparation.final.view (.type id)).isSome := by
  refine hsettled.resolve_right ?_
  rw [view_value_eq_none hwell h hnode hkind]
  exact Bool.false_ne_true

theorem settled_value (hwell : tree.WellFormed) (h : ofTree config tree = .ok preparation)
    (hnode : tree.node? id = some node) (hkind : (node.isExpression || node.isTyped) = false)
    (hsettled : preparation.Settled id) : (preparation.final.view (.value id)).isSome := by
  refine hsettled.resolve_left ?_
  rw [view_type_eq_none hwell h hnode hkind]
  exact Bool.false_ne_true

theorem carriers_of_settled (hwell : tree.WellFormed) (h : ofTree config tree = .ok preparation)
    {targets : List NodeId} {target : NodeId} (hsettled : preparation.Settled id)
    (htargets : tree.carriers (preparation.binder.entity? tree) id = .ok targets)
    (htarget : target ∈ targets) :
    tree.carriers preparation.final.view.decl? id = .ok targets ∧
      (preparation.Settled target ∨ tree.satisfies target Node.isTemplateParam) := by
  cases hnode : tree.node? id with
  | none =>
    rw [carriers, hnode] at htargets
    cases htargets
    cases htarget
  | some node =>
    cases node with
    | reference name =>
      obtain ⟨hentity, _⟩ := exists_of_carriers_name (.inl hnode) htargets htarget
      have heq := entity?_of_reference hwell.unshared h hnode
      refine ⟨(carriers_congr heq).symm.trans htargets, .inl (.inl ?_)⟩
      have hsome := settled_type hwell h hnode rfl hsettled
      obtain ⟨_, hat⟩ := at_of_node hwell h hnode rfl
      rcases hat.reference_cases with ⟨_, hnone, _⟩ |
        ⟨entity, home, _, hdecl, _, ⟨_, hnone⟩ | ⟨_, _, htype⟩⟩
      · rw [hnone] at hsome
        cases hsome
      · rw [hnone] at hsome
        cases hsome
      · rw [heq, View.decl?, hdecl] at hentity
        cases hentity
        rw [htype] at hsome
        exact hsome
    | simpleType name =>
      obtain ⟨hentity, hcarries⟩ := exists_of_carriers_name (.inr hnode) htargets htarget
      have hsome := settled_value hwell h hnode rfl hsettled
      obtain ⟨_, hat⟩ := at_of_node hwell h hnode rfl
      rcases hat.simpleType_cases with ⟨_, hnone, _⟩ | ⟨entity, home, _, htype, hview, _, _⟩
      · rw [hnone] at hsome
        cases hsome
      · have hdecl : preparation.final.view.decl? id = some entity := by
          rw [View.decl?, hview]
          rfl
        have heq := entity?_of_simpleType hwell.unshared h hnode hdecl
        refine ⟨(carriers_congr (heq.trans hdecl.symm)).symm.trans htargets, .inr ?_⟩
        cases Option.some.inj (hentity.symm.trans heq)
        obtain ⟨found, hfound, hkind⟩ := satisfies_iff.mp hcarries
        have hkind' := (satisfies_of_node hfound).mp htype
        cases found with
        | templateParam held => exact satisfies_iff.mpr ⟨_, hfound, rfl⟩
        | structDecl held fields => cases hkind
        | _ => cases hkind'
    | fieldAccess stem name =>
      refine ⟨(carriers_eq_of_node hnode rfl).symm.trans htargets, .inl (.inl ?_)⟩
      have hsome := settled_type hwell h hnode rfl hsettled
      rw [carriers, hnode] at htargets
      cases htargets
      cases List.mem_singleton.mp htarget
      obtain ⟨path, expectation, hleads⟩ := hwell.exists_leads hnode
      have hat := at_of_leads hwell h hleads hnode rfl
      obtain ⟨place, hchild⟩ := hleads.exists_child hnode List.mem_cons_self
      have hstem := view_typeWithin hwell h hchild (Nat.le_add_left _ _) (hwell.fits _ _ hnode)
      rw [hat.view_member hstem, Option.isSome_map] at hsome
      rw [hstem, Option.isSome_map]
      exact Option.isSome_of_isSome_bind hsome
    | _ =>
      -- any other node has its type or value from a rule that reads those of its parts
      refine ⟨(carriers_eq_of_node hnode rfl).symm.trans htargets, .inl ?_⟩
      obtain ⟨hatom, rule, cell, hreads⟩ :=
        exists_reads hnode rfl (by simp) htargets htarget
      obtain ⟨expectation, hat⟩ := at_of_node hwell h hnode hatom
      have hsome : (preparation.final.view cell).isSome := by
        rcases hreads.cell with ⟨rfl, hkind⟩ | ⟨rfl, hkind⟩
        · exact settled_type hwell h hnode hkind hsettled
        · exact settled_value hwell h hnode hkind hsettled
      have hall := hat.isSome_input (hreads.part expectation) hreads.output hreads.weight hsome
      exact hreads.input.imp (hall _) (hall _)

theorem carriers_of_decl (hwell : tree.WellFormed) (h : ofTree config tree = .ok preparation)
    {targets : List NodeId} {target : NodeId}
    (htargets : tree.carriers preparation.final.view.decl? id = .ok targets)
    (htarget : target ∈ targets) :
    tree.carriers (preparation.binder.entity? tree) id = .ok targets := by
  cases hnode : tree.node? id with
  | none =>
    rw [carriers, hnode] at htargets
    cases htargets
    cases htarget
  | some node =>
    rw [← htargets]
    cases node with
    | reference name => exact carriers_congr (entity?_of_reference hwell.unshared h hnode)
    | simpleType name =>
      obtain ⟨hdecl, _⟩ := exists_of_carriers_name (.inr hnode) htargets htarget
      exact carriers_congr ((entity?_of_simpleType hwell.unshared h hnode hdecl).trans hdecl.symm)
    | _ => exact carriers_eq_of_node hnode rfl

/-- A node that has a type is marked just if a template parameter can be reached from it, by what
names stand for in the end. -/
theorem holds_iff_carries (hwell : tree.WellFormed) (h : ofTree config tree = .ok preparation)
    (hsettled : preparation.Settled id) : preparation.setting.dependence.holds id ↔
      tree.Carries preparation.final.view.decl? id := by
  rw [Dependence.holds_iff (dependence_eq h)]
  constructor
  · intro hcarries
    refine hcarries.transfer ?_ hsettled
    intro id targets target hsettled htargets htarget
    exact carriers_of_settled hwell h hsettled htargets htarget
  · intro hcarries
    refine @Carries.transfer tree _ _ id (fun _ => True) ?_ hcarries trivial
    intro id targets target _ htargets htarget
    exact ⟨carriers_of_decl hwell h htargets htarget, .inl trivial⟩

/-- From an expression that is a placeholder a template parameter can be reached, unless it draws on
a call or a field access. -/
theorem draws_or_carries (hwell : tree.WellFormed) (h : ofTree config tree = .ok preparation)
    {path : List Nat} (hleads : tree.Leads path id .nothing)
    (hkind : tree.satisfies id Node.isExpression) {type : Ty}
    (htype : preparation.final.view.type? id = some type) (hplaceholder : type.isPlaceholder) :
    tree.Draws id ∨ tree.Carries preparation.final.view.decl? id := by
  by_cases hdraws : tree.Draws id
  · exact .inl hdraws
  · right
    rw [Rule.type?_of_view (view_typeWithin hwell h hleads (Nat.le_add_left _ _) hkind)] at htype
    have hends : type.endsInPlaceholder := by
      cases type with
      | generic p => rfl
      | _ => cases hplaceholder
    rw [← checker_tree h] at hdraws ⊢
    refine Checker.carries_typeWithin ?_ htype hends hdraws
    intro id name decl hnode hentity hfield
    rw [checker_tree h] at hnode hfield
    obtain ⟨_, hat⟩ := at_of_node hwell h hnode rfl
    change preparation.final.view.decl? id = _ at hentity
    rcases hat.reference_cases with ⟨hdecl, _⟩ | ⟨entity, home, hdeclared, hdecl, _⟩
    · rw [View.decl?, hdecl] at hentity
      cases hentity
    · rw [View.decl?, hdecl] at hentity
      cases hentity
      obtain ⟨node, hnode, hkind⟩ := satisfies_iff.mp hdeclared
      have hkind' := (satisfies_of_node hnode).mp hfield
      cases node with
      | fieldDecl => cases hkind
      | _ => cases hkind'

end Preparation

/-- An operator lets a placeholder pass: the result is the placeholder, and the operator finds fault
with nothing. -/
structure Analysis.Passes (analysis : Analysis) (id : NodeId) (op : BinaryOp) (left right : NodeId)
    (placeholder : Ty) : Prop where
  type : analysis.typeOf? id = some placeholder
  faultless : ∀ finding ∈ analysis.findings,
    ¬ (Rule.binary id op left right).Accuses finding.node finding.cause

namespace Checker

variable {checker : Checker} {op : BinaryOp} {left right : NodeId} {l r p : Ty}

theorem binaryType?_eq_placeholder (hplaceholder : Rule.placeholderOperand l r = some p) :
    checker.binaryType? op left right l r = some p ↔
      checker.dependence.holds left ∨ checker.dependence.holds right := by
  have hfind : [l, r].find? Ty.isPlaceholder = some p := hplaceholder
  have hp := List.find?_some hfind
  rw [binaryType?, hfind, ← Bool.or_eq_true]
  cases checker.dependence.holds left || checker.dependence.holds right with
  | true => exact iff_of_true rfl rfl
  | false =>
    refine iff_of_false ?_ Bool.false_ne_true
    intro hresult
    rw [if_neg Bool.false_ne_true, Option.none_or] at hresult
    split at hresult
    · rcases Ty.arithmetic_cases hresult with rfl | rfl | rfl <;> cases hp
    all_goals
      cases hresult
      cases hp

end Checker

namespace Preparation

variable {config : Config} {tree : Tree} {preparation : Preparation} {id left right : NodeId}
  {expectation : Expectation} {op : BinaryOp} {l r p : Ty}

theorem view_of_type? (h : preparation.final.view.type? id = some l) :
    preparation.final.view (.type id) = some (.type l) := by
  obtain ⟨value, hvalue, heq⟩ := Option.bind_eq_some_iff.mp h
  cases value <;> cases heq
  exact hvalue

namespace At

theorem eq_of_operand (h : At config tree preparation id expectation (.binary op left right))
    {other left' right' operand : NodeId} {op' : BinaryOp}
    (hadd : .add (.binary other op' left' right') ∈ preparation.commands)
    (hoperand : operand = left ∨ operand = right) (hoperand' : operand = left' ∨ operand = right') :
    Rule.binary other op' left' right' = .binary id op left right := by
  have hother := node_of_add h.well h.prepared hadd rfl
  have hmem : operand ∈ (Node.binary op left right).children := by
    simpa [Node.children] using hoperand
  have hmem' : operand ∈ (Node.binary op' left' right').children := by
    simpa [Node.children] using hoperand'
  obtain ⟨place, hplace⟩ := List.mem_iff_getElem?.mp hmem
  obtain ⟨place', hplace'⟩ := List.mem_iff_getElem?.mp hmem'
  obtain ⟨path, hleads⟩ := leads_of_walked h.walked
  obtain ⟨_, _, hleads'⟩ := h.well.exists_leads hother
  cases (h.well.parent_unique hleads h.node hplace hleads' hother hplace').1
  cases h.node.symm.trans hother
  rfl

theorem mem_of_accuses (h : At config tree preparation id expectation (.binary op left right))
    {finding : Finding} (hfinding : finding ∈ preparation.final.findings)
    (hfaults : (Rule.binary id op left right).Accuses finding.node finding.cause) : finding ∈
      (Rule.effect preparation.setting (.binary id op left right)
        preparation.final.view).findings := by
  obtain ⟨node, cause⟩ := finding
  have hcause : cause.isReported = false := by cases hfaults <;> rfl
  obtain ⟨rule, hadd, _, hmem⟩ := exists_rule h.prepared hfinding hcause
  have haccuses := Rule.accuses_effect _ rule _ _ hmem
  have hrule : rule = .binary id op left right := by
    cases hfaults with
    | arithmeticOperands | incomparable =>
      cases haccuses
      cases h.node.symm.trans (node_of_add h.well h.prepared hadd rfl)
      rfl
    | comparisonOperand hoperand =>
      cases haccuses with
      | comparisonOperand hoperand' => exact h.eq_of_operand hadd hoperand hoperand'
    | logicOperand hoperand =>
      cases haccuses with
      | logicOperand hoperand' => exact h.eq_of_operand hadd hoperand hoperand'
  rwa [hrule] at hmem

theorem passes_iff (h : At config tree preparation id expectation (.binary op left right))
    (hleft : preparation.final.view.type? left = some l)
    (hright : preparation.final.view.type? right = some r)
    (hplaceholder : Rule.placeholderOperand l r = some p) :
    preparation.analysis.Passes id op left right p ↔
      tree.Carries preparation.final.view.decl? left ∨
        tree.Carries preparation.final.view.decl? right := by
  have hviewLeft := view_of_type? hleft
  have hviewRight := view_of_type? hright
  have hpart : .act (.add (.binary id op left right)) ∈
      tree.parts id (.binary op left right) expectation := by simp [parts, add]
  have htype : preparation.final.view.type? id =
      preparation.checker.binaryType? op left right l r := by
    apply Rule.type?_of_view
    rw [h.view_of_add hpart rfl rfl]
    exact Rule.result?_binary preparation.checker rfl (l := some l) (r := some r) hviewLeft
      hviewRight
  have hholds : preparation.checker.binaryType? op left right l r = some p ↔
      tree.Carries preparation.final.view.decl? left ∨
        tree.Carries preparation.final.view.decl? right := by
    rw [Checker.binaryType?_eq_placeholder hplaceholder,
      ← holds_iff_carries h.well h.prepared (.inl (Option.isSome_of_eq_some hviewLeft)),
      ← holds_iff_carries h.well h.prepared (.inl (Option.isSome_of_eq_some hviewRight))]
    rfl
  rw [← hholds, ← htype]
  constructor
  · exact fun hpasses => hpasses.type
  · intro hresult
    refine ⟨hresult, ?_⟩
    intro finding hfinding hfaults
    have hmem := h.mem_of_accuses hfinding hfaults
    rw [htype, Checker.binaryType?_eq_placeholder hplaceholder, ← Bool.or_eq_true] at hresult
    have hbypass : Rule.bypass preparation.setting left right l r = some p :=
      (if_pos hresult).trans hplaceholder
    simp only [Rule.effect, hleft, hright, Rule.binaryEffect, hbypass] at hmem
    cases hmem

end At

end Preparation

/-- An operator lets the first placeholder among its operands pass just if a template parameter can
be reached from one of them. From an operand that is a placeholder it can be reached, unless the
operand draws on a call or a field access. -/
theorem operators_pass_placeholders (config : Config) {tree : Tree} (hwell : tree.WellFormed) :
    ∃ analysis, Analysis.ofTree config tree = .ok analysis ∧
      ∀ id op left right l r p, tree.node? id = some (.binary op left right) →
        analysis.typeOf? left = some l → analysis.typeOf? right = some r →
        Rule.placeholderOperand l r = some p →
        (analysis.Passes id op left right p ↔
          tree.Carries analysis.declOf? left ∨ tree.Carries analysis.declOf? right) ∧
        ∀ operand ∈ [left, right], (analysis.typeOf? operand).any Ty.isPlaceholder →
          tree.Draws operand ∨ tree.Carries analysis.declOf? operand := by
  obtain ⟨preparation, hprepared⟩ := Preparation.exists_ofTree hwell config
  refine ⟨_, Analysis.ofTree_eq hprepared, ?_⟩
  intro id op left right l r p hnode hleft hright hplaceholder
  obtain ⟨path, expectation, hleads⟩ := hwell.exists_leads hnode
  have hat := Preparation.at_of_leads hwell hprepared hleads hnode rfl
  refine ⟨hat.passes_iff hleft hright hplaceholder, ?_⟩
  intro operand hoperand hany
  obtain ⟨type, htype, hkind⟩ := (Option.any_eq_true _ _).mp hany
  obtain ⟨_, hchild⟩ := hleads.exists_child hnode (List.mem_map_of_mem hoperand)
  have hexpression : tree.satisfies operand Node.isExpression := by
    obtain ⟨hone, htwo⟩ := hwell.fits _ _ hnode
    simp only [List.mem_cons, List.not_mem_nil, or_false] at hoperand
    rcases hoperand with rfl | rfl
    · exact hone
    · exact htwo
  exact Preparation.draws_or_carries hwell hprepared hchild hexpression htype hkind

/-- A template that adds an integer to a variable and to what it yields itself. -/
def Tree.recursiveTemplate : Tree where
  nodes := #[
    { node := .root [1] },
    { node := .funDecl "f" (some 2) [] 3 4 },
    { node := .templateParam "T" },
    { node := .simpleType "T" },
    { node := .block [5, 9, 13] },
    { node := .varDecl "y" 6 7 },
    { node := .simpleType "T" },
    { node := .call 8 none [] },
    { node := .reference "f" },
    { node := .expressionStatement 10 },
    { node := .binary .add 11 12 },
    { node := .reference "y" },
    { node := .literal (.int 1) },
    { node := .returnStatement (some 14) },
    { node := .binary .add 15 17 },
    { node := .call 16 none [] },
    { node := .reference "f" },
    { node := .literal (.int 1) }]
  root := 0

theorem operators_pass_placeholders_recursiveTemplate : Tree.recursiveTemplate.WellFormed ∧
    ∃ analysis p, Analysis.ofTree {} Tree.recursiveTemplate = .ok analysis ∧
      analysis.Passes 10 .add 11 12 p := by
  have hwell : Tree.recursiveTemplate.WellFormed := by decide +kernel
  obtain ⟨analysis, hanalysis, hpasses⟩ := operators_pass_placeholders {} hwell
  have hfacts : (Analysis.ofTree {} Tree.recursiveTemplate).toOption.any fun analysis =>
      (analysis.typeOf? 11).any Ty.isPlaceholder && (analysis.typeOf? 12).isSome := by
    decide +kernel
  rw [hanalysis] at hfacts
  simp only [Except.toOption, Option.any_some, Bool.and_eq_true] at hfacts
  obtain ⟨hany, hright⟩ := hfacts
  obtain ⟨l, hl, hkind⟩ := (Option.any_eq_true _ _).mp hany
  obtain ⟨r, hr⟩ := Option.isSome_iff_exists.mp hright
  obtain ⟨hiff, hcarries⟩ := hpasses 10 .add 11 12 l r l rfl hl hr (List.find?_cons_of_pos hkind)
  refine ⟨hwell, analysis, l, hanalysis, hiff.mpr (.inl ?_)⟩
  refine (hcarries 11 List.mem_cons_self hany).resolve_left ?_
  intro hdraws
  cases hdraws with
  | call hnode | fieldAccess hnode => cases hnode
  | part hnode hpart _ =>
    cases hnode
    cases hpart

/-- What the template yields is its placeholder, and the sum with it is refused. -/
theorem recursive_operand_refused : Tree.recursiveTemplate.WellFormed ∧
    ∃ analysis l r p, Analysis.ofTree {} Tree.recursiveTemplate = .ok analysis ∧
      analysis.typeOf? 15 = some l ∧ analysis.typeOf? 17 = some r ∧
      Rule.placeholderOperand l r = some p ∧ analysis.typeOf? 14 = none ∧
      ∃ finding ∈ analysis.findings, finding.kind = .invalidOperandType := by
  have hfacts : (Analysis.ofTree {} Tree.recursiveTemplate).toOption.any fun analysis =>
      (analysis.typeOf? 15).any Ty.isPlaceholder && (analysis.typeOf? 17).isSome &&
        (analysis.typeOf? 14).isNone &&
        analysis.findings.any fun finding => finding.kind = .invalidOperandType := by
    decide +kernel
  obtain ⟨analysis, hanalysis, hfound⟩ := Analysis.exists_of_any hfacts
  simp only [Bool.and_eq_true, Option.isNone_iff_eq_none] at hfound
  obtain ⟨⟨⟨hany, hright⟩, hnone⟩, hfinding⟩ := hfound
  obtain ⟨l, hl, hkind⟩ := (Option.any_eq_true _ _).mp hany
  obtain ⟨r, hr⟩ := Option.isSome_iff_exists.mp hright
  obtain ⟨finding, hmem, hfinding⟩ := List.any_eq_true.mp hfinding
  exact ⟨by decide +kernel, analysis, l, r, l, hanalysis, hl, hr, List.find?_cons_of_pos hkind,
    hnone, finding, hmem, of_decide_eq_true hfinding⟩

end Attribution
