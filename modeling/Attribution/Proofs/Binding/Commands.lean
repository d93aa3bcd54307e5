import Attribution.Analysis
import Attribution.Proofs.Tree.Order
/-!
# Commands of a walk

Every command comes of one action, carried out by the binder as it is then. What names stand for is
declared in the tree, and the preparation of a well-formed tree succeeds.
-/
namespace Attribution

namespace Binder

variable {tree : Tree} {policy : DuplicatePolicy}

theorem actAll_append (binder : Binder) (before after : List Action) :
    binder.actAll tree policy (before ++ after) =
      (((binder.actAll tree policy before).1.actAll tree policy after).1,
        (binder.actAll tree policy before).2 ++
          ((binder.actAll tree policy before).1.actAll tree policy after).2) := by
  induction before generalizing binder with
  | nil => rfl
  | cons action before ih =>
    simp only [List.cons_append, actAll, ih, List.append_assoc]

/-- Every command comes of an action, carried out by the binder as the actions before left it. -/
theorem mem_actAll {binder : Binder} {actions : List Action} {command : Command Rule} :
    command ∈ (binder.actAll tree policy actions).2 ↔ ∃ before action after,
      actions = before ++ action :: after ∧
        command ∈ ((binder.actAll tree policy before).1.act tree policy action).2 := by
  induction actions generalizing binder with
  | nil => simp [actAll]
  | cons first rest ih =>
    rw [actAll, List.mem_append, ih]
    constructor
    · intro h
      rcases h with hnow | ⟨before, action, after, rfl, hlater⟩
      · exact ⟨[], first, rest, rfl, hnow⟩
      · exact ⟨first :: before, action, after, rfl, hlater⟩
    · intro ⟨before, action, after, heq, hcommand⟩
      cases before with
      | nil =>
        cases heq
        exact .inl hcommand
      | cons _ before =>
        cases heq
        exact .inr ⟨before, action, after, rfl, hcommand⟩

theorem actAll_induction {holds : Binder → Prop} {actions : List Action}
    (hstep : ∀ binder, ∀ action ∈ actions, holds binder →
      holds (binder.act tree policy action).1)
    {binder : Binder} (hstart : holds binder) : holds (binder.actAll tree policy actions).1 := by
  induction actions generalizing binder with
  | nil => exact hstart
  | cons action actions ih =>
    apply ih
    · intro binder action haction
      exact hstep binder action (List.mem_cons_of_mem _ haction)
    · exact hstep binder action List.mem_cons_self hstart

end Binder

/-- The entity is a built-in or a declaration of the tree. -/
def Entity.Declared (tree : Tree) : Entity → Prop
  | node id => tree.satisfies id Node.isDeclaration
  | builtin _ => True

namespace ScopeTree

def HoldsOnly (scopes : ScopeTree) (property : Entity → Prop) : Prop :=
  ∀ id name entity, scopes.held? id name = some entity → property entity

variable {scopes : ScopeTree} {property : Entity → Prop}

theorem HoldsOnly.put (h : scopes.HoldsOnly property) {entity : Entity} (hnew : property entity)
    (id : ScopeId) (name : String) : (scopes.put id name entity).HoldsOnly property := by
  intro place other found hfound
  rw [held?_put] at hfound
  split at hfound
  · obtain ⟨_, _, rfl⟩ := Option.map_eq_some_iff.mp hfound
    exact hnew
  · exact h place other found hfound

theorem HoldsOnly.push (h : scopes.HoldsOnly property) (parent : Option ScopeId)
    (owner : NodeId) : (scopes.push parent owner).HoldsOnly property := by
  intro place other found hfound
  rw [held?, scope?, ScopeTree.push, Array.getElem?_push] at hfound
  split at hfound
  · cases hfound
  · exact h place other found hfound

theorem HoldsOnly.lookup? (h : scopes.HoldsOnly property) {id home : ScopeId} {name : String}
    {entity : Entity} (hfound : scopes.lookup? id name = some (entity, home)) :
    property entity := by
  obtain ⟨place, _, hplace⟩ := List.exists_of_findSome?_eq_some hfound
  obtain ⟨found, hheld, heq⟩ := Option.map_eq_some_iff.mp hplace
  cases heq
  exact h _ _ _ hheld

end ScopeTree

namespace Binder

variable {tree : Tree} {policy : DuplicatePolicy}

def BindsDeclared (tree : Tree) (binder : Binder) : Prop :=
  binder.scopes.HoldsOnly (Entity.Declared tree) ∧
    ∀ binding ∈ binder.resolved, binding.2.Declared tree

theorem held?_start {root : NodeId} {scope : ScopeId} {name : String} {entity : Entity}
    (h : (start root).scopes.held? scope name = some entity) :
    scope = outermost ∧ ∃ b : Builtin, b.name = name ∧ entity = .builtin b := by
  obtain ⟨found, hfound, hname⟩ := Option.bind_eq_some_iff.mp h
  simp only [start, ScopeTree.scope?, ScopeTree.pushOutermost, Array.getElem?_push] at hfound
  split at hfound
  next heq =>
    cases hfound
    refine ⟨heq, ?_⟩
    obtain ⟨before, after, hsplit, _⟩ := List.lookup_eq_some_iff.mp hname
    have hnames : (Builtin.all.map fun b => (b.name, Entity.builtin b)) =
        before ++ (name, entity) :: after := hsplit
    have hmem : (name, entity) ∈ Builtin.all.map fun b => (b.name, Entity.builtin b) := by
      rw [hnames]
      exact List.mem_append_right _ List.mem_cons_self
    obtain ⟨b, _, hb⟩ := List.mem_map.mp hmem
    cases hb
    exact ⟨b, rfl, rfl⟩
  next => cases hfound

theorem isSome_held?_start (root : NodeId) (b : Builtin) :
    ((start root).scopes.held? outermost b.name).isSome := by
  cases b <;> rfl

theorem declare_cases (binder : Binder) (name : String) (decl : NodeId) :
    (binder.scopes.held? binder.current name).isSome ∧
        (binder.declare tree policy name decl).1 = binder ∨
      (binder.declare tree policy name decl).1 =
        { binder with scopes := binder.scopes.put binder.current name (.node decl) } := by
  unfold declare ScopeTree.declare
  cases hheld : binder.scopes.held? binder.current name with
  | none => exact .inr rfl
  | some existing =>
    simp only
    split
    · exact .inl ⟨rfl, rfl⟩
    · cases policy with
      | report => exact .inl ⟨rfl, rfl⟩
      | lastWins => exact .inr rfl

theorem bindsDeclared_start (root : NodeId) : (start root).BindsDeclared tree := by
  refine ⟨?_, by simp [start]⟩
  intro place name entity hfound
  obtain ⟨_, b, _, rfl⟩ := held?_start hfound
  trivial

theorem holdsOnly_act {property : Entity → Prop} {binder : Binder}
    (h : binder.scopes.HoldsOnly property) {action : Action}
    (haction : ∀ name decl, action = .declare name decl → property (.node decl)) :
    (binder.act tree policy action).1.scopes.HoldsOnly property := by
  cases action with
  | enter node => exact h.push _ _
  | declare name decl =>
    have hput : (binder.scopes.put binder.current name (.node decl)).HoldsOnly property :=
      h.put (haction name decl rfl) _ _
    rw [Binder.act]
    rcases @declare_cases tree policy binder name decl with ⟨_, heq⟩ | heq <;> rw [heq]
    · exact h
    · exact hput
  | useName node name =>
    simp only [Binder.act, useName]
    split <;> exact h
  | _ => exact h

theorem BindsDeclared.act {binder : Binder} (h : binder.BindsDeclared tree) {action : Action}
    (haction : ∀ name decl, action = .declare name decl → tree.satisfies decl Node.isDeclaration) :
    (binder.act tree policy action).1.BindsDeclared tree := by
  refine ⟨holdsOnly_act h.1 haction, ?_⟩
  cases action with
  | declare name decl =>
    rw [Binder.act]
    rcases @declare_cases tree policy binder name decl with ⟨_, heq⟩ | heq <;> rw [heq] <;>
      exact h.2
  | useName node name =>
    simp only [Binder.act, useName]
    split
    next entity home hfound =>
      intro binding hbinding
      rcases List.mem_cons.mp hbinding with rfl | hold
      · exact h.1.lookup? hfound
      · exact h.2 binding hold
    next => exact h.2
  | _ => exact h.2

/-- What a name stands for in the end is declared. -/
theorem BindsDeclared.entity? {binder : Binder} (h : binder.BindsDeclared tree) {node : NodeId}
    {entity : Entity} (hentity : binder.entity? tree node = some entity) :
    entity.Declared tree := by
  unfold Binder.entity? at hentity
  split at hentity
  next found hfound =>
    cases hentity
    obtain ⟨before, after, hsplit, _⟩ := List.lookup_eq_some_iff.mp hfound
    exact h.2 (node, entity) (by rw [hsplit]; simp)
  next =>
    split at hentity
    · obtain ⟨found, hfound, rfl⟩ := Option.map_eq_some_iff.mp hentity
      exact h.1.lookup? hfound
    · obtain ⟨found, hfound, rfl⟩ := Option.map_eq_some_iff.mp hentity
      exact h.1.lookup? hfound
    · cases hentity

end Binder

end Attribution
