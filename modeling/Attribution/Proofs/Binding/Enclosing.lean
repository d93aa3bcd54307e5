import Attribution.Proofs.Binding.Scopes
/-!
# Enclosing functions

Whatever the kinds of the nodes, the binder knows the functions that the walk is inside of. The
scope of a root that stands elsewhere than at the top is that of the top, which belongs to no
function either.
-/
namespace Attribution

/-- The node that owns the scope of an opener. -/
def Tree.scopeOwner (tree : Tree) (opener : NodeId) : NodeId :=
  if tree.satisfies opener Node.isRoot then tree.root else opener

theorem Tree.not_function_of_root {tree : Tree} {id : NodeId}
    (h : tree.satisfies id Node.isRoot) : tree.satisfies id Node.isFunction = false := by
  obtain ⟨node, hnode, hkind⟩ := satisfies_iff.mp h
  rw [satisfies, hnode, Option.any_some]
  cases node <;> first | rfl | cases hkind

namespace Binder

variable {tree : Tree} {policy : DuplicatePolicy} {binder : Binder} {openers : List NodeId}

/-- The scopes that the walk is in are those of the openers. -/
structure Inside (tree : Tree) (binder : Binder) (openers : List NodeId) : Prop where
  owners : List.Forall₂ (fun opener scope => binder.owner? scope = some (tree.scopeOwner opener))
    openers binder.stack
  outermost : binder.owner? outermost = some tree.root

namespace Inside

theorem keep (h : binder.Inside tree openers) {next : Binder}
    (hscopes : binder.scopes.Extends next.scopes) (hstack : next.stack = binder.stack) :
    next.Inside tree openers where
  owners := by
    rw [hstack]
    exact h.owners.imp fun _ _ howner => owner?_extends hscopes howner
  outermost := owner?_extends hscopes h.outermost

theorem act (h : binder.Inside tree openers) {action : Action}
    (hroot : ∀ node, action = .enterRoot node → tree.satisfies node Node.isRoot)
    (henter : ∀ node, action = .enter node → tree.satisfies node Node.isRoot = false) :
    (binder.act tree policy action).1.Inside tree (action.track openers) := by
  cases action with
  | enterRoot node =>
    refine ⟨.cons ?_ h.owners, h.outermost⟩
    rw [Tree.scopeOwner, if_pos (hroot node rfl)]
    exact h.outermost
  | enter node =>
    have hscopes := binder.scopes.extends_push (some binder.current) node
    have hnew := binder.scopes.scope?_push_size (some binder.current) node
    have hkept : Inside tree
        { binder with scopes := binder.scopes.push (some binder.current) node } openers :=
      h.keep hscopes rfl
    refine ⟨.cons ?_ hkept.owners, hkept.outermost⟩
    rw [Tree.scopeOwner, henter node rfl]
    exact Option.map_eq_some_iff.mpr ⟨_, hnew, rfl⟩
  | leave => exact ⟨forall₂_tail h.owners, h.outermost⟩
  | declare name decl =>
    obtain ⟨hscopes, hstack⟩ := @extends_declare tree policy binder name decl
    exact h.keep hscopes hstack
  | useName node name =>
    obtain ⟨hscopes, hstack⟩ := @extends_useName tree binder node name
    exact h.keep (by rw [Binder.act, hscopes]; exact .refl _) hstack
  | _ => exact ⟨h.owners, h.outermost⟩

theorem enclosingFunction? (h : binder.Inside tree openers)
    (hroot : tree.satisfies tree.root Node.isRoot) : binder.enclosingFunction? tree =
      openers.find? fun id => tree.satisfies id Node.isFunction := by
  have hfind : ∀ {openers : List NodeId} {stack : List ScopeId},
      List.Forall₂ (fun opener scope => binder.owner? scope = some (tree.scopeOwner opener))
        openers stack →
      (stack.filterMap binder.owner?).find? (fun id => tree.satisfies id Node.isFunction) =
        openers.find? fun id => tree.satisfies id Node.isFunction := by
    intro openers stack hall
    induction hall with
    | nil => rfl
    | @cons opener _ _ _ howner _ ih =>
      rw [List.filterMap_cons_some howner, List.find?_cons, List.find?_cons, ih, Tree.scopeOwner]
      by_cases hopener : tree.satisfies opener Node.isRoot
      · rw [if_pos hopener, Tree.not_function_of_root hroot, Tree.not_function_of_root hopener]
      · rw [if_neg hopener]
  exact hfind h.owners

end Inside

/-- After any part of a walk the binder is inside the nodes that were entered and not left. -/
theorem inside_of_walk {before after : List Action} (hwalk : tree.walk = .ok (before ++ after)) :
    ((start tree.root).actAll tree policy before).1.Inside tree
      (before.foldl Action.track []) := by
  induction before using List.reverseRecOn generalizing after with
  | nil => exact ⟨.nil, rfl⟩
  | append_singleton before action ih =>
    rw [List.append_assoc] at hwalk
    rw [actAll_append, List.foldl_append]
    have hplaced := (Tree.moves_of_walk hwalk).placed before action after rfl
    apply (ih hwalk).act
    · rintro node rfl
      obtain ⟨id, expectation, found, hnode, hpart, _⟩ := hplaced rfl
      obtain ⟨rfl, hkind⟩ := Tree.eq_of_enterRoot hpart
      exact Tree.satisfies_iff.mpr ⟨found, hnode, hkind⟩
    · rintro node rfl
      obtain ⟨id, expectation, found, hnode, hpart, _⟩ := hplaced rfl
      obtain ⟨rfl, _, hkind⟩ := Tree.eq_of_enter hpart
      rw [Tree.satisfies, hnode, Option.any_some, hkind]

end Binder
end Attribution
