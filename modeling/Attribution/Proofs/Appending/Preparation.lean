import Attribution.Proofs.Appending.Binding
/-!
# The preparation of a larger tree

The walk over a tree with a new declaration at its end tells the engine what the walk over the old
tree tells it, and then what is due to the declaration. The scopes are those of the old tree with
one more name in the outermost one, then those of the declaration, so every other name of the old
tree stands for what it stood for, and the old nodes depend on placeholders as they did.
-/
namespace Attribution

namespace ScopeTree

open Strict (Nested exists_chain)

variable {scopes next : ScopeTree} {id : ScopeId}

theorem lookup?_of_put {place : ScopeId} {name other : String} {entity : Entity}
    (hnested : Nested scopes)
    (hnext : ∀ id < scopes.size, next.scope? id = (scopes.put place name entity).scope? id)
    (hne : other ≠ name) (hid : id < scopes.size) :
    next.lookup? id other = scopes.lookup? id other := by
  obtain ⟨rest, hchain⟩ := exists_chain hnested hid
  have hextends : scopes.Extends next := by
    intro id scope hscope
    rw [hnext id (scope?_lt hscope)]
    exact extends_put scopes place name entity id scope hscope
  rw [hchain.lookup?, (hchain.keep hextends).lookup?]
  apply firstHolding?_congr
  intro id hid
  have hheld : next.held? id other = (scopes.put place name entity).held? id other := by
    rw [held?, held?, hnext id (hchain.lt_size id hid)]
  rw [hheld, held?_put, if_neg fun h => hne h.2]

end ScopeTree

namespace Binder

variable {tree : Tree} {policy : DuplicatePolicy}

theorem actAll_leave (binder : Binder) (actions : List Action) :
    binder.actAll tree policy (actions ++ [.leave]) =
      ({ (binder.actAll tree policy actions).1 with
          stack := (binder.actAll tree policy actions).1.stack.tail },
        (binder.actAll tree policy actions).2) := by
  rw [actAll_append]
  simp [actAll, act]

end Binder

namespace Preparation

open Binder (outermost)

/-- What the preparations of a tree and of a larger one have to do with each other. -/
structure Gains (tree larger : Tree) (decl : NodeId) (name : String) (config : Config)
    (preparation other : Preparation) : Prop where
  trees : tree.Gains larger decl name
  small : ofTree config tree = .ok preparation
  large : ofTree config larger = .ok other
  /-- The engine is told the same, and then what is about new nodes. -/
  commands : ∃ others, other.commands = preparation.commands ++ others ∧
    ∀ command ∈ others, ∃ binder action, Binder.Meets larger config.duplicates binder action ∧
      (∀ id ∈ action.nodes, tree.size ≤ id) ∧
        command ∈ (binder.act larger config.duplicates action).2
  /-- The old scopes are as they were but for the new name in the outermost one. -/
  scopes : ∀ id < preparation.binder.scopes.size, other.binder.scopes.scope? id =
    (preparation.binder.scopes.put outermost name (.node decl)).scope? id
  free : ∀ id, preparation.binder.scopes.held? id name = none
  /-- Names are bound or put off in the same way, and then those of new nodes. -/
  bindings : ∃ resolved deferred,
    other.binder.resolved = resolved ++ preparation.binder.resolved ∧
    other.binder.deferred = deferred ++ preparation.binder.deferred ∧
    (∀ pair ∈ resolved, tree.size ≤ pair.1) ∧ ∀ pair ∈ deferred, tree.size ≤ pair.1

end Preparation

open Strict (Sturdy)

theorem Tree.Gains.exists_preparations {tree larger : Tree} {decl : NodeId} {name : String}
    (h : tree.Gains larger decl name) (config : Config) : ∃ preparation other,
      Preparation.Gains tree larger decl name config preparation other := by
  obtain ⟨body, depth, more, hbalanced, hwalk, hmore, hlarger⟩ := h.exists_walk
  obtain ⟨preparation, hsmall⟩ := Preparation.exists_of_walk hwalk config
  obtain ⟨other, hlarge⟩ := Preparation.exists_of_walk hlarger config
  obtain ⟨actions, hactions, hbinder, hcommands, _⟩ := Preparation.ofTree_eq_ok hsmall
  obtain ⟨others, hothers, hbinder', hcommands', _⟩ := Preparation.ofTree_eq_ok hlarge
  cases hwalk.symm.trans hactions
  cases hlarger.symm.trans hothers
  have hsplit : tree.walk = .ok ((.enterRoot tree.root :: body) ++ [.leave]) := hwalk
  let inside := (Binder.start tree.root).actAll tree config.duplicates
    (.enterRoot tree.root :: body)
  let after := inside.1.actAll larger config.duplicates more
  have hinside : (Binder.start larger.root).actAll larger config.duplicates
      (.enterRoot tree.root :: body) = inside := h.actAll_start hsplit
  have hwhole : (Binder.start larger.root).actAll larger config.duplicates
      (.enterRoot tree.root :: (body ++ more)) = (after.1, inside.2 ++ after.2) := by
    rw [← List.cons_append, Binder.actAll_append, hinside]
  rw [← List.cons_append, Binder.actAll_leave] at hbinder hcommands
  rw [← List.cons_append, Binder.actAll_leave, hwhole] at hbinder' hcommands'
  have hnew : ∀ action ∈ more, ∀ id ∈ action.nodes, tree.size ≤ id :=
    h.new_of_visit h.new (List.forall_mem_nil _) hmore
  have hfree : ∀ id, inside.1.scopes.held? id name = none := h.held?_eq_none hsplit
  have hstack : inside.1.stack = [Binder.outermost] := Binder.stack_of_balanced hbalanced _
  have hexists : Binder.outermost < inside.1.scopes.size := (Sturdy.actAll hsplit).outermost
  refine ⟨preparation, other,
    { trees := h
      small := hsmall
      large := hlarge
      commands := ⟨after.2, ?_, ?_⟩
      scopes := ?_
      free := ?_
      bindings := ?_ }⟩
  · rw [hcommands', hcommands, List.append_assoc]
  · intro command hcommand
    obtain ⟨before, action, rest, hsplit, hmem⟩ := Binder.mem_actAll.mp hcommand
    refine ⟨_, action, ⟨.enterRoot tree.root :: (body ++ before), rest ++ [.leave], ?_, rfl⟩,
      hnew action ?_, ?_⟩
    · simpa [hsplit] using hlarger
    · rw [hsplit]
      exact List.mem_append_right _ List.mem_cons_self
    · rw [← List.cons_append, Binder.fst_actAll_append, hinside]
      exact hmem
  · rw [hbinder, hbinder']
    exact h.scope?_of_visit hstack hexists (hfree _) hmore
  · rw [hbinder]
    exact hfree
  · rw [hbinder, hbinder']
    exact Binder.exists_bindings hnew inside.1

namespace Preparation.Gains

variable {tree larger : Tree} {decl : NodeId} {name : String} {config : Config}
  {preparation other : Preparation} {id : NodeId}
  (h : Gains tree larger decl name config preparation other)
include h

/-- Every name but the new one is found where it was. -/
theorem lookup?_eq {scope : ScopeId} (hscope : scope < preparation.binder.scopes.size)
    {found : String} (hne : found ≠ name) :
    other.binder.scopes.lookup? scope found = preparation.binder.scopes.lookup? scope found :=
  ScopeTree.lookup?_of_put (sturdy h.small).nested h.scopes hne hscope

theorem entity?_eq (hid : id < tree.size) :
    other.binder.entity? larger id = preparation.binder.entity? tree id := by
  obtain ⟨resolved, deferred, hresolved, hdeferred, hnew, hnew'⟩ := h.bindings
  have hnone : ∀ {α : Type} {list : List (NodeId × α)}, (∀ pair ∈ list, tree.size ≤ pair.1) →
      list.lookup id = none := by
    intro α list hlist
    rw [List.lookup_eq_none_iff]
    intro pair hpair
    exact bne_iff_ne.mpr (Nat.ne_of_lt (Nat.lt_of_lt_of_le hid (hlist pair hpair)))
  rw [Binder.entity?, Binder.entity?, hresolved, hdeferred, List.lookup_append,
    List.lookup_append, hnone hnew, hnone hnew', Option.none_or, Option.none_or]
  cases preparation.binder.resolved.lookup id with
  | some entity => rfl
  | none =>
    cases hscope : preparation.binder.deferred.lookup id with
    | none => rfl
    | some scope =>
      have hlt : scope < preparation.binder.scopes.size := by
        obtain ⟨before, after, hsplit, _⟩ := List.lookup_eq_some_iff.mp hscope
        exact (sturdy h.small).deferred (id, scope)
          (hsplit ▸ List.mem_append_right _ List.mem_cons_self)
      rcases h.trees.node?_cases hid with heq | ⟨statements, hroot, hlarger⟩
      · rw [heq]
        cases hnode : tree.node? id with
        | none => rfl
        | some node =>
          have habsent := h.trees.absent id node hnode
          cases node with
          | reference found | simpleType found =>
            have hne : found ≠ name := fun heq => habsent (heq ▸ List.mem_cons_self)
            exact congrArg (Option.map Prod.fst) (h.lookup?_eq hlt hne)
          | _ => rfl
      · rw [hroot, hlarger]

theorem holds_eq (hid : id < tree.size) :
    other.setting.dependence.holds id = preparation.setting.dependence.holds id := by
  have hknown : ∀ id found, preparation.binder.entity? tree id = some (.node found) →
      found < tree.size := by
    intro id found hfound
    obtain ⟨node, hnode, _⟩ := Tree.satisfies_iff.mp ((bindsDeclared h.small).entity? hfound)
    exact Tree.lt_size hnode
  rw [Bool.eq_iff_iff, Dependence.holds_iff (dependence_eq h.large),
    Dependence.holds_iff (dependence_eq h.small)]
  exact h.trees.carries_iff (fun id => h.entity?_eq) hknown hid

end Preparation.Gains

end Attribution
