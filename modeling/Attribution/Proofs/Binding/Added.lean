import Attribution.Proofs.Binding.Preparation
/-!
# Rules that the binder adds

A rule is added because an action asks for it, or because of what the binder knows at the action: a
name and what it stands for, a scope, the enclosing function.
-/
namespace Attribution

namespace Binder

variable {tree : Tree} {policy : DuplicatePolicy} {binder : Binder} {action : Action} {rule : Rule}

/-- Why the binder adds a rule at an action. -/
inductive Adds (tree : Tree) (binder : Binder) : Action → Rule → Prop
  | asked (rule : Rule) : Adds tree binder (.add rule) rule
  | bound {node : NodeId} {name : String} {entity : Entity} {home : ScopeId} :
    binder.scopes.lookup? binder.current name = some (entity, home) →
    entity.isPredicate tree = false → Adds tree binder (.useName node name)
      (.referenceType node entity)
  | deferred {node : NodeId} {name : String} :
    binder.scopes.lookup? binder.current name = none → Adds tree binder (.useName node name)
      (.resolveReference node name binder.current)
  | typeName {node : NodeId} {name : String} : Adds tree binder (.useType node name)
      (.resolveType node name binder.current)
  | template {node : NodeId} {name : String} : Adds tree binder (.placeholder node name)
      (.templateType node)
  | placeholder {node : NodeId} {name : String} : Adds tree binder (.placeholder node name)
      (.templateDeclared node ((binder.owner? binder.current).getD tree.root) name)
  | atom {node : NodeId} : Adds tree binder (.atom node) (.atomArity node binder.current)
  | exit {node function : NodeId} {expression : Option NodeId} {name : String}
      {template : Option NodeId} {parameters : List NodeId} {returnType body : NodeId} :
    binder.enclosingFunction? tree = some function →
    tree.node? function = some (.funDecl name template parameters returnType body) →
      Adds tree binder (.exit node expression) (.returnStatement node returnType expression)

theorem adds_iff :
    .add rule ∈ (binder.act tree policy action).2 ↔ binder.Adds tree action rule := by
  constructor
  · intro h
    cases action with
    | add asked =>
      cases List.mem_singleton.mp h
      exact .asked rule
    | useName node name =>
      simp only [act, useName] at h
      split at h
      next entity home hlookup =>
        simp only [Binder.bound, List.mem_cons, List.not_mem_nil, or_false, reduceCtorEq,
          false_or] at h
        split at h
        · cases h
        next hpredicate =>
          cases h
          exact .bound hlookup (Bool.eq_false_iff.mpr hpredicate)
      next hnone =>
        cases List.mem_singleton.mp h
        exact .deferred hnone
    | useType node name =>
      cases List.mem_singleton.mp h
      exact .typeName
    | placeholder node name =>
      simp only [act, List.mem_cons, List.not_mem_nil, or_false, Command.add.injEq] at h
      rcases h with rfl | rfl
      · exact .template
      · exact .placeholder
    | atom node =>
      cases List.mem_singleton.mp h
      exact .atom
    | exit node expression =>
      simp only [act, exits] at h
      split at h
      next name template parameters returnType body hfound =>
        cases List.mem_singleton.mp h
        obtain ⟨function, henclosing, hnode⟩ := Option.bind_eq_some_iff.mp hfound
        exact .exit henclosing hnode
      next => cases h
    | declare name decl =>
      obtain ⟨finding, heq⟩ := report_of_declare h
      cases heq
    | leave => cases h
    | enterRoot | enter | locate | write => cases List.mem_singleton.mp h
  · intro h
    cases h with
    | asked => exact List.mem_cons_self
    | bound hlookup hpredicate => simp [act, useName, hlookup, Binder.bound, hpredicate]
    | deferred hnone => simp [act, useName, hnone]
    | typeName => exact List.mem_cons_self
    | template => exact List.mem_cons_self
    | placeholder => exact List.mem_cons_of_mem _ List.mem_cons_self
    | atom => exact List.mem_cons_self
    | exit henclosing hnode => simp [act, exits, henclosing, hnode]

end Binder

namespace Preparation

variable {config : Config} {tree : Tree} {preparation : Preparation} {rule : Rule}

/-- A rule is added where the walk comes to an action that calls for it. -/
theorem add_mem_iff (h : ofTree config tree = .ok preparation) :
    .add rule ∈ preparation.commands ↔ ∃ binder action,
      Binder.Meets tree config.duplicates binder action ∧ binder.Adds tree action rule := by
  rw [mem_commands h]
  constructor
  · intro hmem
    rcases hmem with hbuiltin | ⟨binder, action, hmeets, hact⟩
    · obtain ⟨b, _, hb⟩ := List.mem_flatMap.mp hbuiltin
      simp [Builtin.commands] at hb
    · exact ⟨binder, action, hmeets, Binder.adds_iff.mp hact⟩
  · intro ⟨binder, action, hmeets, hadds⟩
    exact .inr ⟨binder, action, hmeets, Binder.adds_iff.mpr hadds⟩

end Preparation

namespace Binder

variable {tree : Tree} {policy : DuplicatePolicy} {binder : Binder} {action : Action}

theorem Meets.exists_node (h : Meets tree policy binder action) :
    ∃ id expectation node, tree.Walked id expectation ∧ tree.node? id = some node ∧
      .act action ∈ tree.parts id node expectation := by
  obtain ⟨before, after, hwalk, _⟩ := h
  obtain ⟨id, expectation, node, hwalked, hnode, haction⟩ := (Tree.WellFormed.mem_walk hwalk).mp
    (List.mem_append_right before List.mem_cons_self)
  exact ⟨id, expectation, node, hwalked, hnode, Tree.mem_actions.mp haction⟩

end Binder
end Attribution
