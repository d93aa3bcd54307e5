import Attribution.Proofs.Analysis.Cells
import Attribution.Proofs.Binding.Added
import Attribution.Proofs.Checker.Yields
import Attribution.Proofs.Rule.Contents
/-!
# What the cells of a program hold

Every cell holds a value of the sort that its attribute asks for, in any tree at all. What holds of
the types that declarations introduce and of the entities that scopes hold, and is kept when types
are put together, holds of all types and entities in cells.
-/
namespace Attribution

variable {sound : Ty → Prop} {known : Entity → Prop} {tree : Tree} {policy : DuplicatePolicy}

theorem Builtin.admits (hinherits : Ty.Inherits sound) {cell : Cell} {value : Value}
    (h : .set cell value ∈ Builtin.all.flatMap Builtin.commands) :
    cell.attr.Admits sound known value := by
  obtain ⟨b, _, hb⟩ := List.mem_flatMap.mp h
  rcases List.mem_cons.mp hb with heq | hdenoted
  · cases heq
    cases b with
    | print =>
      refine (hinherits.function _ _).mpr ⟨?_, hinherits.basic _ rfl⟩
      intro t ht
      rw [List.mem_singleton.mp ht]
      exact hinherits.basic _ rfl
    | _ => exact hinherits.basic _ rfl
  · obtain ⟨denoted, hmem, heq⟩ := List.mem_map.mp hdenoted
    cases heq
    have hsome : b.denoted? = some denoted := Option.mem_toList.mp hmem
    apply hinherits.basic
    cases b <;> cases hsome <;> rfl

theorem Tree.write_cases {id : NodeId} {expectation : Expectation} {node : Node} {cell : Cell}
    {value : Value} (h : .act (.write cell value) ∈ tree.parts id node expectation) :
    (∃ literal, node = .literal literal ∧ cell = .type id ∧ value = .type literal.type) ∨
      ∃ argument place, cell = .index argument ∧ value = .index place := by
  cases does_of_part h with
  | literal => exact .inl ⟨_, rfl, rfl, rfl⟩
  | place => exact .inr ⟨_, _, rfl, rfl⟩

theorem Binder.Meets.admits (hinherits : Ty.Inherits sound) {binder : Binder} {action : Action}
    (h : Meets tree policy binder action) (hscopes : binder.scopes.HoldsOnly known) {cell : Cell}
    {value : Value} (hset : .set cell value ∈ (binder.act tree policy action).2) :
    cell.attr.Admits sound known value := by
  cases action with
  | enterRoot node | enter node | locate node =>
    cases List.mem_singleton.mp hset
    trivial
  | leave => cases hset
  | declare name decl =>
    obtain ⟨finding, heq⟩ := report_of_declare hset
    cases heq
  | useName node name =>
    simp only [act, useName] at hset
    split at hset
    next entity home hlookup =>
      simp only [bound, List.mem_cons, List.not_mem_nil, or_false, Command.set.injEq] at hset
      rcases hset with ⟨rfl, rfl⟩ | ⟨rfl, rfl⟩ | hlast
      · exact hscopes.lookup? hlookup
      · trivial
      · split at hlast <;> cases hlast
    next => cases List.mem_singleton.mp hset
  | useType | atom | add => cases List.mem_singleton.mp hset
  | placeholder node name => simp [act] at hset
  | exit node expression =>
    simp only [act, exits] at hset
    split at hset
    · cases List.mem_singleton.mp hset
    · cases hset
  | write written content =>
    cases List.mem_singleton.mp hset
    obtain ⟨id, expectation, node, _, _, hpart⟩ := h.exists_node
    rcases Tree.write_cases hpart with ⟨literal, rfl, rfl, rfl⟩ | ⟨argument, place, rfl, rfl⟩
    · exact hinherits.basic _ (by cases literal <;> rfl)
    · trivial

namespace Preparation

variable {config : Config} {preparation : Preparation}

theorem admits_of_set (h : ofTree config tree = .ok preparation) (hinherits : Ty.Inherits sound)
    (hknown : ∀ binder action, Binder.Meets tree config.duplicates binder action →
      binder.scopes.HoldsOnly known) {cell : Cell} {value : Value}
    (hset : .set cell value ∈ preparation.commands) : cell.attr.Admits sound known value := by
  rcases (mem_commands h).mp hset with hbuiltin | ⟨binder, action, hmeets, hact⟩
  · exact Builtin.admits hinherits hbuiltin
  · exact hmeets.admits hinherits (hknown binder action hmeets) hact

/-- What holds of the types and entities that a program names holds of those in its cells. -/
theorem holds (h : ofTree config tree = .ok preparation) (hinherits : Ty.Inherits sound)
    (hknown : ∀ binder action, Binder.Meets tree config.duplicates binder action →
      binder.scopes.HoldsOnly known)
    (hscopes : preparation.setting.scopes.HoldsOnly known)
    (hintroduced : ∀ rule, .add rule ∈ preparation.commands → ∀ t ∈ rule.introduced?, sound t) :
    preparation.final.view.Holds fun cell => cell.attr.Admits sound known := by
  obtain ⟨events, hhistory, _, hcommands⟩ :=
    Engine.history_run preparation.setting preparation.commands
  have hevents : Event.commands events = preparation.commands := hcommands
  refine (hhistory.keeps (Rule.upkeep hinherits hscopes) ?_ ?_).2
  · rw [hevents]
    exact hintroduced
  · intro cell value hset
    rw [hevents] at hset
    exact admits_of_set h hinherits hknown hset

theorem holds_sorted (h : ofTree config tree = .ok preparation) :
    preparation.final.view.Holds fun cell =>
      cell.attr.Admits (fun _ => True) fun _ => True :=
  holds h Ty.inherits_true (fun _ _ _ _ _ _ _ => trivial) (fun _ _ _ _ => trivial)
    fun _ _ _ _ => trivial

theorem view_eq_type? (h : ofTree config tree = .ok preparation) (id : NodeId) :
    preparation.final.view (.type id) = (preparation.final.view.type? id).map Value.type :=
  (holds_sorted h).eq_type rfl

theorem view_eq_value? (h : ofTree config tree = .ok preparation) (id : NodeId) :
    preparation.final.view (.value id) = (preparation.final.view.value? id).map Value.type :=
  (holds_sorted h).eq_type rfl

theorem isSome_type (h : ofTree config tree = .ok preparation) (id : NodeId) :
    (preparation.final.view (.type id)).isSome = (preparation.final.view.type? id).isSome := by
  rw [view_eq_type? h, Option.isSome_map]

theorem isSome_value (h : ofTree config tree = .ok preparation) (id : NodeId) :
    (preparation.final.view (.value id)).isSome = (preparation.final.view.value? id).isSome := by
  rw [view_eq_value? h, Option.isSome_map]

theorem ready_call (h : ofTree config tree = .ok preparation) {call function : NodeId}
    {typeArgument : Option NodeId} {arguments : List NodeId} :
    (Rule.call call function typeArgument arguments).ready preparation.final.view ↔
      (preparation.final.view.type? function).isSome ∧
      (typeArgument.mapM preparation.final.view.value?).isSome ∧
      (arguments.mapM preparation.final.view.type?).isSome := by
  rw [Rule.isSome_mapM_option, Rule.isSome_mapM]
  simp only [Rule.ready, Rule.inputs, List.all_append, List.all_cons, List.all_map,
    Bool.and_eq_true, Function.comp_def, isSome_type h, isSome_value h]
  tauto

theorem exists_of_ready_call (h : ofTree config tree = .ok preparation) {call function : NodeId}
    {typeArgument : Option NodeId} {arguments : List NodeId}
    (hready : (Rule.call call function typeArgument arguments).ready preparation.final.view) :
    ∃ callee explicit given, preparation.final.view.type? function = some callee ∧
      typeArgument.mapM preparation.final.view.value? = some explicit ∧
      arguments.mapM preparation.final.view.type? = some given ∧
      typeArgument.bind preparation.final.view.value? = explicit ∧
      arguments.filterMap preparation.final.view.type? = given := by
  obtain ⟨hcallee, hexplicit, hgiven⟩ := (ready_call h).mp hready
  obtain ⟨callee, hcallee⟩ := Option.isSome_iff_exists.mp hcallee
  obtain ⟨explicit, hexplicit⟩ := Option.isSome_iff_exists.mp hexplicit
  obtain ⟨given, hgiven⟩ := Option.isSome_iff_exists.mp hgiven
  exact ⟨callee, explicit, given, hcallee, hexplicit, hgiven, Rule.bind_eq_of_mapM hexplicit,
    Rule.filterMap_eq_of_mapM hgiven⟩

end Preparation
end Attribution
