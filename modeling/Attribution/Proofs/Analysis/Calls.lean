import Attribution.Proofs.Checker.Agreement
import Attribution.Proofs.Rule.Outspoken
/-!
# Malformed calls

A call waits for the types of its arguments, and an empty array among them takes its type from the
callee. So a callee that is no function, or a wrong number of arguments, is found if every empty
array stands where an array is expected. If one does not, the call is never looked at.
-/
namespace Attribution

/-- An array literal without elements, in any number of parentheses. -/
inductive Tree.IsEmptyArray (tree : Tree) : NodeId → Prop
  | literal {id : NodeId} : tree.node? id = some (.arrayLiteral []) → IsEmptyArray tree id
  | parenthesized {id expression : NodeId} : tree.node? id = some (.parenthesized expression) →
    IsEmptyArray tree expression → IsEmptyArray tree id

/-- Every empty array among some arguments stands where an array is expected. -/
def Tree.Placed (tree : Tree) (params : List Ty) (arguments : List NodeId) : Prop :=
  ∀ (place : Nat) (argument : NodeId), arguments[place]? = some argument →
    tree.IsEmptyArray argument → ∃ component, params[place]? = some (.array component)

theorem Rule.mem_inputs_call {id function argument : NodeId} {typeArgument : Option NodeId}
    {arguments : List NodeId} (h : argument ∈ arguments) :
    Cell.type argument ∈ Rule.inputs (.call id function typeArgument arguments) :=
  List.mem_append_left _ (List.mem_cons_of_mem _ (List.mem_map_of_mem h))

namespace Rule

/-- The call or the binary operation that a rule is about. -/
def operation? : Rule → Option (NodeId × Node)
  | call node function typeArgument arguments =>
    some (node, .call function typeArgument arguments)
  | binary node op left right => some (node, .binary op left right)
  | _ => none

end Rule

theorem Binder.eq_of_add {tree : Tree} {policy : DuplicatePolicy} {binder : Binder}
    {action : Action} {rule : Rule} (h : .add rule ∈ (binder.act tree policy action).2)
    (hrule : rule.operation?.isSome) : action = .add rule := by
  cases action with
  | add rule =>
    cases List.mem_singleton.mp h
    rfl
  | useName node name =>
    simp only [act, useName] at h
    split at h
    · simp only [bound, List.mem_cons, List.not_mem_nil, or_false, reduceCtorEq, false_or] at h
      split at h <;> cases h
      cases hrule
    · cases List.mem_singleton.mp h
      cases hrule
  | declare name decl =>
    obtain ⟨finding, heq⟩ := Binder.report_of_declare h
    cases heq
  | exit node expression =>
    simp only [act, exits] at h
    split at h
    · cases List.mem_singleton.mp h
      cases hrule
    · cases h
  | leave => cases h
  | placeholder node name =>
    simp only [act, List.mem_cons, List.not_mem_nil, or_false, Command.add.injEq] at h
    rcases h with rfl | rfl <;> cases hrule
  | enterRoot | enter | locate | useType | atom | write =>
    cases List.mem_singleton.mp h
    try cases hrule

open Attribution.Tree Attribution.Part

namespace Tree

theorem node_of_add {tree : Tree} {above id : NodeId} {expectation : Expectation}
    {node found : Node} {rule : Rule}
    (h : .act (.add rule) ∈ tree.parts above node expectation)
    (hrule : rule.operation? = some (id, found)) : above = id ∧ node = found := by
  cases does_of_part h with
  | call | binary =>
    cases hrule
    exact ⟨rfl, rfl⟩
  | _ => cases hrule

end Tree

namespace Preparation

variable {config : Config} {tree : Tree} {preparation : Preparation} {path : List Nat}
  {id function : NodeId} {expectation : Expectation} {typeArgument : Option NodeId}
  {arguments : List NodeId}

theorem node_of_add (hwell : tree.WellFormed) (h : ofTree config tree = .ok preparation)
    {rule : Rule} (hadd : .add rule ∈ preparation.commands) {node : Node}
    (hrule : rule.operation? = some (id, node)) : tree.node? id = some node := by
  rcases (mem_commands h).mp hadd with hbuiltin | ⟨binder, action, hmeets, hact⟩
  · obtain ⟨b, _, hb⟩ := List.mem_flatMap.mp hbuiltin
    simp [Builtin.commands] at hb
  · cases Binder.eq_of_add hact (Option.isSome_of_eq_some hrule)
    obtain ⟨above, lent, found, _, hnode, hpart⟩ := (Binder.exists_meets hwell).mp ⟨binder, hmeets⟩
    obtain ⟨rfl, rfl⟩ := Tree.node_of_add hpart hrule
    exact hnode

theorem view_type_of_isEmptyArray (hwell : tree.WellFormed)
    (h : ofTree config tree = .ok preparation) (hempty : tree.IsEmptyArray id)
    (hleads : tree.Leads path id expectation) : preparation.final.view (.type id) =
      ((preparation.lent? expectation).filter Ty.isArray).map Value.type := by
  induction hempty generalizing path with
  | literal hnode => exact (at_of_leads hwell h hleads hnode rfl).view_emptyArray
  | @parenthesized id expression hnode _ ih =>
    have hat := at_of_leads hwell h hleads hnode rfl
    have hpart : .act (.add (.parenthesized id expression)) ∈
        tree.parts id (.parenthesized expression) expectation := by simp [parts, add]
    obtain ⟨place, hchild⟩ := hleads.exists_child hnode List.mem_cons_self
    rw [hat.view_of_add hpart rfl rfl, ← ih hchild]
    exact Rule.result?_copy rfl rfl

namespace At

theorem view_type_argument
    (h : At config tree preparation id expectation (.call function typeArgument arguments))
    {callee : Ty} (hcallee : preparation.final.view.type? function = some callee) {place : Nat}
    {argument : NodeId} (hplace : arguments[place]? = some argument)
    (hempty : tree.IsEmptyArray argument) : preparation.final.view (.type argument) =
      (callee.params[place]?.filter Ty.isArray).map Value.type := by
  obtain ⟨path, hleads⟩ := leads_of_walked h.walked
  have hchild : (argument, Expectation.argument function argument) ∈
      (Node.call function typeArgument arguments).offspring id expectation :=
    List.mem_append_right _ (List.mem_map_of_mem (List.mem_of_getElem? hplace))
  obtain ⟨_, hinside⟩ := hleads.exists_child h.node hchild
  have hindex : preparation.final.view.index? argument = some place := by
    rw [View.index?, h.view_index hplace]
    rfl
  rw [view_type_of_isEmptyArray h.well h.prepared hempty hinside]
  simp only [lent?, hcallee, hindex, Option.bind_eq_bind, Option.bind_some]

theorem call_mem (h : At config tree preparation id expectation
      (.call function typeArgument arguments)) :
    .add (.call id function typeArgument arguments) ∈ preparation.commands :=
  h.add_mem (by simp [parts, add])

theorem placed_of_ready
    (h : At config tree preparation id expectation (.call function typeArgument arguments))
    {callee : Ty} (hcallee : preparation.final.view.type? function = some callee)
    (hready : Rule.ready (.call id function typeArgument arguments) preparation.final.view) :
    tree.Placed callee.params arguments := by
  intro place argument hplace hempty
  have hsome := List.all_eq_true.mp hready _
    (Rule.mem_inputs_call (List.mem_of_getElem? hplace))
  rw [h.view_type_argument hcallee hplace hempty, Option.isSome_map] at hsome
  obtain ⟨type, htype⟩ := Option.isSome_iff_exists.mp hsome
  obtain ⟨hparam, harray⟩ := Option.filter_eq_some_iff.mp htype
  cases type with
  | array component => exact ⟨component, hparam⟩
  | _ => cases harray

end At

/-- What is known of a call whose parts are in order: the callee has a type, so has every argument
that is no empty array, and the explicit type argument denotes a type. -/
structure Called (config : Config) (tree : Tree) (preparation : Preparation) (id : NodeId)
    (expectation : Expectation) (function : NodeId) (typeArgument : Option NodeId)
    (arguments : List NodeId) (callee : Ty) : Prop where
  node : At config tree preparation id expectation (.call function typeArgument arguments)
  callee : preparation.final.view.type? function = some callee
  explicit : ∀ type ∈ typeArgument, (preparation.final.view.value? type).isSome
  argument : ∀ argument ∈ arguments,
    (preparation.final.view.type? argument).isSome ∨ tree.IsEmptyArray argument

namespace Called

variable {callee : Ty}

theorem typed (h : Called config tree preparation id expectation function typeArgument arguments
      callee) (hplaced : tree.Placed callee.params arguments) :
    ∀ argument ∈ arguments, (preparation.final.view.type? argument).isSome := by
  intro argument hargument
  rcases h.argument argument hargument with htype | hempty
  · exact htype
  · obtain ⟨place, hplace⟩ := List.mem_iff_getElem?.mp hargument
    obtain ⟨component, hparam⟩ := hplaced place argument hplace hempty
    rw [Rule.type?_of_view (h.node.view_type_argument h.callee hplace hempty), hparam]
    rfl

theorem ready (h : Called config tree preparation id expectation function typeArgument arguments
      callee) (hplaced : tree.Placed callee.params arguments) :
    Rule.ready (.call id function typeArgument arguments) preparation.final.view := by
  rw [Rule.ready, List.all_eq_true]
  intro cell hcell
  simp only [Rule.inputs, List.cons_append, List.mem_cons, List.mem_append, List.mem_map,
    Option.mem_toList] at hcell
  rcases hcell with rfl | ⟨argument, hargument, rfl⟩ | ⟨type, htype, rfl⟩
  · exact Option.isSome_of_isSome_bind (Option.isSome_of_eq_some h.callee)
  · exact Option.isSome_of_isSome_bind (h.typed hplaced argument hargument)
  · exact Option.isSome_of_isSome_bind (h.explicit type htype)

/-- The findings of the call are there if all empty arrays are where arrays are expected. -/
theorem mem_findings (h : Called config tree preparation id expectation function typeArgument
      arguments callee) (hplaced : tree.Placed callee.params arguments) {finding : Finding}
    (hfinding : finding ∈ (Rule.callEffect preparation.setting id function arguments callee
      (typeArgument.bind preparation.final.view.value?)
        (arguments.filterMap preparation.final.view.type?)).findings) :
    finding ∈ preparation.final.findings := by
  apply mem_findings_of_rule h.node.call_mem (h.ready hplaced)
  simp only [Rule.effect, h.callee]
  exact hfinding

theorem length_typed (h : Called config tree preparation id expectation function typeArgument
      arguments callee) (hplaced : tree.Placed callee.params arguments) :
    (arguments.filterMap preparation.final.view.type?).length = arguments.length :=
  List.filterMap_length_eq_length.mpr (h.typed hplaced)

theorem callTarget_iff (h : Called config tree preparation id expectation function typeArgument
      arguments callee) (hkind : ∀ params result, callee ≠ .function params result) :
    { node := function, cause := .callTarget callee } ∈ preparation.final.findings ↔
      tree.Placed callee.params arguments := by
  constructor
  · intro hfinding
    apply h.node.placed_of_ready h.callee
    obtain ⟨rule, hadd, hready, haccuses⟩ := exists_accuser h.node.prepared hfinding rfl
    have hchild : ∀ explicit given,
        (Node.call function explicit given).children[0]? = some function := fun _ _ => rfl
    cases haccuses with
    | callTarget =>
      have hnode := node_of_add h.node.well h.node.prepared hadd rfl
      -- a node is the callee of one call
      obtain ⟨_, _, hleads⟩ := h.node.well.exists_leads h.node.node
      obtain ⟨_, _, hleads'⟩ := h.node.well.exists_leads hnode
      obtain ⟨rfl, _⟩ := h.node.well.parent_unique hleads h.node.node (hchild ..) hleads' hnode
        (hchild ..)
      cases Option.some.inj (h.node.node.symm.trans hnode)
      exact hready
  · intro hplaced
    apply h.mem_findings hplaced
    cases callee with
    | function params result => exact absurd rfl (hkind params result)
    | _ => exact List.mem_cons_self

theorem argumentCount_iff {params : List Ty} {result : Ty}
    (h : Called config tree preparation id expectation function typeArgument arguments
      (.function params result)) (hcount : params.length ≠ arguments.length) :
    { node := id, cause := .argumentCount params.length arguments.length } ∈
      preparation.final.findings ↔ tree.Placed params arguments := by
  constructor
  · intro hfinding
    apply h.node.placed_of_ready h.callee
    obtain ⟨rule, hadd, hready, haccuses⟩ := exists_accuser h.node.prepared hfinding rfl
    cases haccuses with
    | argumentCount =>
      have hnode := node_of_add h.node.well h.node.prepared hadd rfl
      cases Option.some.inj (h.node.node.symm.trans hnode)
      exact hready
  · intro hplaced
    apply h.mem_findings hplaced
    obtain ⟨params', result', hinstance, hlength⟩ := Rule.instantiate_function params result
      (typeArgument.bind preparation.final.view.value?)
      (arguments.filterMap preparation.final.view.type?)
    simp only [Rule.callEffect, hinstance, hlength, h.length_typed hplaced]
    simp [findingIf, hcount]

end Called

end Preparation

/-- Of a call whose parts are in order it is found that the callee is no function, or that it has
another number of parameters, just if all empty arrays are where arrays are expected. -/
theorem malformed_call_found (config : Config) {tree : Tree} (hwell : tree.WellFormed) :
    ∃ analysis, Analysis.ofTree config tree = .ok analysis ∧
      ∀ id function typeArgument arguments callee,
        tree.node? id = some (.call function typeArgument arguments) →
        analysis.typeOf? function = some callee →
        (∀ type ∈ typeArgument, (analysis.valueOf? type).isSome) →
        (∀ argument ∈ arguments,
          (analysis.typeOf? argument).isSome ∨ tree.IsEmptyArray argument) →
        ((∀ params result, callee ≠ .function params result) →
          ({ node := function, cause := .callTarget callee } ∈ analysis.findings ↔
            tree.Placed callee.params arguments)) ∧
        ∀ params result, callee = .function params result → params.length ≠ arguments.length →
          ({ node := id, cause := .argumentCount params.length arguments.length } ∈
            analysis.findings ↔ tree.Placed params arguments) := by
  obtain ⟨preparation, hprepared⟩ := Preparation.exists_ofTree hwell config
  refine ⟨_, Analysis.ofTree_eq hprepared, ?_⟩
  intro id function typeArgument arguments callee hnode hcallee hexplicit hargument
  obtain ⟨expectation, hat⟩ := Preparation.at_of_node hwell hprepared hnode rfl
  have hcalled : Preparation.Called config tree preparation id expectation function typeArgument
    arguments callee := ⟨hat, hcallee, hexplicit, hargument⟩
  refine ⟨hcalled.callTarget_iff, ?_⟩
  rintro params result rfl hcount
  exact hcalled.argumentCount_iff hcount

/-- Two calls with an argument too many; in the second one this is an empty array. -/
def Tree.overfed : Tree where
  nodes := #[
    { node := .root [1, 6] },
    { node := .expressionStatement 2 },
    { node := .call 3 none [4, 5] },
    { node := .reference "print" },
    { node := .literal (.string "a") },
    { node := .literal (.string "b") },
    { node := .expressionStatement 7 },
    { node := .call 8 none [9, 10] },
    { node := .reference "print" },
    { node := .literal (.string "a") },
    { node := .arrayLiteral [] }]
  root := 0

theorem Tree.wellFormed_overfed : Tree.overfed.WellFormed := by decide +kernel

theorem malformed_call_found_overfed : Tree.overfed.WellFormed ∧
    ∃ analysis, Analysis.ofTree {} Tree.overfed = .ok analysis ∧
      { node := 2, cause := .argumentCount 1 2 } ∈ analysis.findings := by
  obtain ⟨analysis, hanalysis, hfound⟩ := malformed_call_found {} Tree.wellFormed_overfed
  refine ⟨Tree.wellFormed_overfed, analysis, hanalysis, ?_⟩
  have htypes : (Analysis.ofTree {} Tree.overfed).toOption.any fun analysis =>
      ((analysis.typeOf? 3).any fun type => type.params.length = 1) &&
        (analysis.typeOf? 4).isSome && (analysis.typeOf? 5).isSome := by decide +kernel
  rw [hanalysis] at htypes
  simp only [Except.toOption, Option.any_some, Bool.and_eq_true] at htypes
  obtain ⟨⟨hcallee, hfirst⟩, hsecond⟩ := htypes
  obtain ⟨callee, htype, hlength⟩ := (Option.any_eq_true _ _).mp hcallee
  have hlength := of_decide_eq_true hlength
  have hnone : Tree.overfed.Placed callee.params [4, 5] := by
    intro place argument hplace hempty
    have hmem := List.mem_of_getElem? hplace
    simp only [List.mem_cons, List.not_mem_nil, or_false] at hmem
    rcases hmem with rfl | rfl <;> cases hempty with
    | literal hnode => cases hnode
    | parenthesized hnode _ => cases hnode
  obtain ⟨_, hcount⟩ := hfound 2 3 none [4, 5] callee rfl htype (fun _ h => by cases h)
    (by simp [hfirst, hsecond])
  cases callee with
  | function params result =>
    change params.length = 1 at hlength
    have hmem := (hcount params result rfl (by simp [hlength])).mpr hnone
    rwa [hlength] at hmem
  | _ => cases hlength

/-- The excess argument of the second call is not found. -/
theorem malformed_call_missed : Tree.overfed.WellFormed ∧
    ∃ analysis params result, Analysis.ofTree {} Tree.overfed = .ok analysis ∧
      Tree.overfed.node? 7 = some (.call 8 none [9, 10]) ∧
      analysis.typeOf? 8 = some (.function params result) ∧ params.length ≠ [9, 10].length ∧
      (analysis.typeOf? 9).isSome ∧ Tree.overfed.IsEmptyArray 10 ∧
      ∀ finding ∈ analysis.findings, finding.node ≠ 7 := by
  have htypes : (Analysis.ofTree {} Tree.overfed).toOption.any fun analysis =>
      ((analysis.typeOf? 8).any fun type => type.params.length = 1) &&
        (analysis.typeOf? 9).isSome &&
        analysis.findings.all fun finding => finding.node ≠ 7 := by decide +kernel
  obtain ⟨analysis, hanalysis, hfacts⟩ := Analysis.exists_of_any htypes
  simp only [Bool.and_eq_true] at hfacts
  obtain ⟨⟨hcallee, hfirst⟩, hfindings⟩ := hfacts
  obtain ⟨callee, htype, hlength⟩ := (Option.any_eq_true _ _).mp hcallee
  have hlength := of_decide_eq_true hlength
  cases callee with
  | function params result =>
    change params.length = 1 at hlength
    refine ⟨Tree.wellFormed_overfed, analysis, params, result, hanalysis, rfl, htype,
      by simp [hlength], hfirst, .literal rfl, ?_⟩
    intro finding hmem
    simpa using List.all_eq_true.mp hfindings finding hmem
  | _ => cases hlength

end Attribution
