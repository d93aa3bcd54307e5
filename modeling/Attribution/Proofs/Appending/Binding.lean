import Mathlib.Data.List.Find
import Attribution.Proofs.Appending.Walk
import Attribution.Proofs.Strict.Pass
/-!
# Binding in a larger tree

For the old nodes the binder does what it did, since it asks for old nodes only. For a new
declaration it puts the name last into the outermost scope and makes further scopes. So every name
of the old tree is found where it was.
-/
namespace Attribution

namespace Binder

variable {tree larger : Tree} {policy : DuplicatePolicy} {binder : Binder} {decl : NodeId}
  {name : String}

theorem scope?_act_of_ne {action : Action} (haction : action.isLevel) {id : ScopeId}
    (hne : id ≠ binder.current) : (binder.act tree policy action).1.scopes.scope? id =
      binder.scopes.scope? id := by
  cases action with
  | enterRoot | enter | leave => cases haction
  | declare name decl =>
    rw [act]
    rcases @declare_cases tree policy binder name decl with ⟨_, heq⟩ | heq <;> rw [heq]
    rw [ScopeTree.scope?_put, if_neg (Ne.symm hne)]
  | useName node name => rw [act, (binder.extends_useName node name).1]
  | _ => rfl

theorem fst_actAll_cons (binder : Binder) (action : Action) (rest : List Action) :
    (binder.actAll tree policy (action :: rest)).1 =
      ((binder.act tree policy action).1.actAll tree policy rest).1 := rfl

theorem fst_actAll_append (binder : Binder) (before after : List Action) :
    (binder.actAll tree policy (before ++ after)).1 =
      ((binder.actAll tree policy before).1.actAll tree policy after).1 := by
  rw [actAll_append]

theorem size_le_actAll (binder : Binder) (actions : List Action) :
    binder.scopes.size ≤ (binder.actAll tree policy actions).1.scopes.size := by
  by_contra hlt
  exact Nat.lt_irrefl _ ((binder.extends_actAll actions).lt_size (Nat.lt_of_not_le hlt))

theorem scope?_of_balanced {actions : List Action} (h : Action.Balanced actions)
    (hroots : ∀ root, .enterRoot root ∉ actions) {base : Nat} (hcurrent : base ≤ binder.current)
    (hsize : base ≤ binder.scopes.size) {id : ScopeId} (hid : id < base) :
    (binder.actAll tree policy actions).1.scopes.scope? id = binder.scopes.scope? id := by
  induction h generalizing binder with
  | nil => rfl
  | @level action rest haction _ ih =>
    have hstack : (binder.act tree policy action).1.stack = binder.stack :=
      stack_of_balanced (.level haction .nil) binder
    have hnext : base ≤ (binder.act tree policy action).1.current := by
      rwa [current, hstack]
    have hgrown : base ≤ (binder.act tree policy action).1.scopes.size :=
      Nat.le_trans hsize (binder.size_le_actAll [action])
    rw [actAll, ih (fun root hmem => hroots root (List.mem_cons_of_mem _ hmem)) hnext hgrown]
    exact scope?_act_of_ne haction (Nat.ne_of_lt (Nat.lt_of_lt_of_le hid hcurrent))
  | @scope entry inner rest hentry hinner _ ihinner ihrest =>
    cases entry with
    | enterRoot root => exact absurd List.mem_cons_self (hroots root)
    | enter node =>
      let entered := (binder.act tree policy (.enter node)).1
      let done := (entered.actAll tree policy inner).1
      have hgrown : base ≤ entered.scopes.size :=
        Nat.le_trans hsize (@size_le_actAll tree policy binder [.enter node])
      have hleft : (done.act tree policy .leave).1.stack = binder.stack := by
        have hstack : done.stack = entered.stack := stack_of_balanced hinner entered
        exact congrArg List.tail hstack
      have hinside : done.scopes.scope? id = entered.scopes.scope? id :=
        ihinner (fun root hmem => hroots root (by simp [hmem])) hsize hgrown
      have hafter : ((done.act tree policy .leave).1.actAll tree policy rest).1.scopes.scope? id =
          done.scopes.scope? id := by
        refine ihrest (fun root hmem => hroots root (by simp [hmem])) ?_ ?_
        · rwa [current, hleft]
        · exact Nat.le_trans hgrown (entered.size_le_actAll inner)
      have hpushed : entered.scopes.scope? id = binder.scopes.scope? id :=
        ScopeTree.scope?_push_of_lt _ _ _ (Nat.lt_of_lt_of_le hid hsize)
      rw [fst_actAll_cons, fst_actAll_append, fst_actAll_cons]
      exact hafter.trans (hinside.trans hpushed)
    | _ => cases hentry

theorem scopes_act_of_quiet {action : Action} (haction : action.isQuiet) :
    (binder.act tree policy action).1.scopes = binder.scopes ∧
      (binder.act tree policy action).1.stack = binder.stack := by
  cases action with
  | enterRoot | enter | leave | declare => cases haction
  | useName node name => exact binder.extends_useName node name
  | _ => exact ⟨rfl, rfl⟩

/-- Sheltered actions leave all scopes as they are that were there before. -/
theorem scope?_of_sheltered {actions : List Action} (h : Action.Sheltered actions)
    (binder : Binder) : (binder.actAll tree policy actions).1.stack = binder.stack ∧
      ∀ id < binder.scopes.size,
        (binder.actAll tree policy actions).1.scopes.scope? id = binder.scopes.scope? id := by
  cases h with
  | quiet hquiet =>
    have hsame : (binder.actAll tree policy actions).1.scopes = binder.scopes ∧
        (binder.actAll tree policy actions).1.stack = binder.stack := by
      refine @actAll_induction tree policy
        (fun next => next.scopes = binder.scopes ∧ next.stack = binder.stack) _ ?_ _ ⟨rfl, rfl⟩
      rintro next action haction ⟨hscopes, hstack⟩
      obtain ⟨hscopes', hstack'⟩ := @scopes_act_of_quiet tree policy next action
        (hquiet action haction)
      exact ⟨hscopes'.trans hscopes, hstack'.trans hstack⟩
    exact ⟨hsame.2, fun id _ => by rw [hsame.1]⟩
  | @scope node inner hinner hroots =>
    let entered := (binder.act tree policy (.enter node)).1
    have hstack : (entered.actAll tree policy inner).1.stack = entered.stack :=
      stack_of_balanced hinner entered
    rw [fst_actAll_cons, fst_actAll_append]
    refine ⟨congrArg List.tail hstack, ?_⟩
    intro id hid
    have hcurrent : binder.scopes.size ≤ entered.current := Nat.le_refl _
    have hgrown : binder.scopes.size ≤ entered.scopes.size :=
      @size_le_actAll tree policy binder [.enter node]
    have hinside : (entered.actAll tree policy inner).1.scopes.scope? id =
        entered.scopes.scope? id := scope?_of_balanced hinner hroots hcurrent hgrown hid
    exact hinside.trans (ScopeTree.scope?_push_of_lt _ _ _ hid)

theorem exists_bindings {known : NodeId → Prop} {actions : List Action}
    (hactions : ∀ action ∈ actions, ∀ id ∈ action.nodes, known id) (binder : Binder) :
    ∃ resolved deferred,
      (binder.actAll tree policy actions).1.resolved = resolved ++ binder.resolved ∧
      (binder.actAll tree policy actions).1.deferred = deferred ++ binder.deferred ∧
      (∀ pair ∈ resolved, known pair.1) ∧ ∀ pair ∈ deferred, known pair.1 := by
  refine @actAll_induction tree policy (fun next => ∃ resolved deferred,
    next.resolved = resolved ++ binder.resolved ∧ next.deferred = deferred ++ binder.deferred ∧
      (∀ pair ∈ resolved, known pair.1) ∧ ∀ pair ∈ deferred, known pair.1) _ ?_ _
    ⟨[], [], rfl, rfl, by simp, by simp⟩
  rintro next action haction ⟨resolved, deferred, hresolved, hdeferred, hknown, hknown'⟩
  have hsame : ∀ {later : Binder}, later.resolved = next.resolved →
      later.deferred = next.deferred → ∃ resolved deferred,
        later.resolved = resolved ++ binder.resolved ∧
        later.deferred = deferred ++ binder.deferred ∧
        (∀ pair ∈ resolved, known pair.1) ∧ ∀ pair ∈ deferred, known pair.1 := fun hres hdef =>
    ⟨resolved, deferred, hres.trans hresolved, hdef.trans hdeferred, hknown, hknown'⟩
  have hnode := hactions action haction
  cases action with
  | declare name decl =>
    rw [act]
    rcases @declare_cases tree policy next name decl with ⟨_, heq⟩ | heq <;> rw [heq]
    · exact hsame rfl rfl
    · exact hsame rfl rfl
  | useName node name =>
    rw [act, useName]
    split
    next entity home _ =>
      refine ⟨(node, entity) :: resolved, deferred, congrArg _ hresolved, hdeferred, ?_, hknown'⟩
      exact List.forall_mem_cons.mpr ⟨hnode node List.mem_cons_self, hknown⟩
    next =>
      refine ⟨resolved, (node, next.current) :: deferred, hresolved, congrArg _ hdeferred, hknown,
        ?_⟩
      exact List.forall_mem_cons.mpr ⟨hnode node List.mem_cons_self, hknown'⟩
  | useType node name =>
    refine ⟨resolved, (node, next.current) :: deferred, hresolved, congrArg _ hdeferred, hknown, ?_⟩
    exact List.forall_mem_cons.mpr ⟨hnode node List.mem_cons_self, hknown'⟩
  | _ => exact hsame rfl rfl

end Binder

namespace Tree.Grows

open Binder
open Strict (Sturdy)

variable {tree larger : Tree} {policy : DuplicatePolicy} {binder : Binder} {decl : NodeId}
  (h : tree.Grows larger decl) (hbinder : Sturdy tree binder)
include h

theorem redeclared_eq {name : String} {existing : Entity} {id : NodeId}
    (hexisting : existing.Reached tree) (hid : tree.Reaches id) :
    redeclared larger name existing id = redeclared tree name existing id := by
  have hfirst : existing.node?.bind larger.predicateArity? =
      existing.node?.bind tree.predicateArity? := by
    cases existing with
    | node first => exact h.predicateArity?_eq (h.proper.reaches_iff.mp hexisting)
    | builtin b => rfl
  rw [redeclared, redeclared, hfirst, h.predicateArity?_eq (h.proper.reaches_iff.mp hid)]

include hbinder

theorem declare_eq {name : String} {id : NodeId} (hid : tree.Reaches id) :
    binder.declare larger policy name id = binder.declare tree policy name id := by
  unfold Binder.declare
  cases hdeclare : binder.scopes.declare binder.current name (.node id) with
  | ok scopes => rfl
  | error existing =>
    have hexisting : existing.Reached tree := by
      unfold ScopeTree.declare at hdeclare
      split at hdeclare
      next held hheld =>
        cases hdeclare
        exact hbinder.entities _ _ _ hheld
      next => cases hdeclare
    have hnew : (Entity.node id).Reached tree := hid
    simp only [h.isPredicate_eq hexisting, h.isPredicate_eq hnew, h.redeclared_eq hexisting hid]

theorem useName_eq (id : NodeId) (name : String) :
    binder.useName larger id name = binder.useName tree id name := by
  unfold Binder.useName
  cases hlookup : binder.scopes.lookup? binder.current name with
  | none => rfl
  | some found =>
    obtain ⟨entity, home⟩ := found
    simp only [bound, h.isPredicate_eq (hbinder.entities.lookup? hlookup)]

theorem enclosingFunction?_eq :
    binder.enclosingFunction? larger = binder.enclosingFunction? tree := by
  apply List.find?_congr
  intro id hid
  obtain ⟨scope, _, howner⟩ := List.mem_filterMap.mp hid
  obtain ⟨found, hfound, rfl⟩ := Option.map_eq_some_iff.mp howner
  have hreached := hbinder.owners scope found hfound
  exact h.satisfies_eq (h.proper.reaches_iff.mp hreached) fun _ _ => rfl

theorem exits_eq (id : NodeId) (expression : Option NodeId) :
    binder.exits larger id expression = binder.exits tree id expression := by
  rw [exits, exits, h.enclosingFunction?_eq hbinder]
  cases henclosing : binder.enclosingFunction? tree with
  | none => rfl
  | some function =>
    have hreached := hbinder.reaches_of_enclosing henclosing
    rcases h.node?_cases (h.proper.reaches_iff.mp hreached) with heq | ⟨_, hroot, hlarger⟩
    · rw [Option.bind_some, Option.bind_some, heq]
    · rw [Option.bind_some, Option.bind_some, hroot, hlarger]

/-- An action that is about old nodes has the same consequences. -/
theorem act_eq {action : Action} (haction : ∀ id ∈ action.nodes, tree.Reaches id) :
    binder.act larger policy action = binder.act tree policy action := by
  cases action with
  | declare name id => exact h.declare_eq hbinder (haction id List.mem_cons_self)
  | useName id name => exact h.useName_eq hbinder id name
  | placeholder id name => rw [act, act, h.root_eq]
  | exit id expression => rw [act, act, h.exits_eq hbinder]
  | _ => rfl

theorem actAll_eq {actions : List Action}
    (hactions : ∀ action ∈ actions, ∀ id ∈ action.nodes, tree.Reaches id) :
    binder.actAll larger policy actions = binder.actAll tree policy actions := by
  induction actions generalizing binder with
  | nil => rfl
  | cons action rest ih =>
    rw [List.forall_mem_cons] at hactions
    have hnext : Sturdy tree (binder.act tree policy action).1 := hbinder.step hactions.1
    simp only [actAll, h.act_eq hbinder hactions.1, ih hnext hactions.2]

omit hbinder in
theorem actAll_start {before after : List Action} (hwalk : tree.walk = .ok (before ++ after)) :
    (start larger.root).actAll larger policy before =
      (start tree.root).actAll tree policy before := by
  rw [h.root_eq]
  refine h.actAll_eq (Sturdy.start tree) ?_
  intro action haction
  exact Tree.nodes_of_walk hwalk (List.mem_append_left after haction)

end Tree.Grows

namespace Tree.Gains

open Binder

variable {tree larger : Tree} {policy : DuplicatePolicy} {decl : NodeId} {name : String}
  (h : tree.Gains larger decl name)
include h

theorem held?_eq_none {before after : List Action} (hwalk : tree.walk = .ok (before ++ after))
    (id : ScopeId) :
    ((start tree.root).actAll tree policy before).1.scopes.held? id name = none := by
  refine @actAll_induction tree policy (fun next => next.scopes.held? id name = none) _ ?_ _ ?_
  · intro next action haction hnone
    rw [held?_act, hnone]
    intro other
    left
    rintro rfl
    exact h.ne_of_declare hwalk (List.mem_append_left after haction) rfl
  · cases hheld : (start tree.root).scopes.held? id name with
    | none => rfl
    | some entity =>
      obtain ⟨_, b, hname, _⟩ := held?_start hheld
      exact absurd hname (h.not_builtin b)

theorem scope?_of_visit {binder : Binder} (hstack : binder.stack = [outermost])
    (hexists : outermost < binder.scopes.size)
    (hnone : binder.scopes.held? outermost name = none) {depth : Nat} {more : List Action}
    {expectation : Expectation} (hvisit : larger.visit depth decl expectation = .ok more) :
    ∀ id < binder.scopes.size, (binder.actAll larger policy more).1.scopes.scope? id =
      (binder.scopes.put outermost name (.node decl)).scope? id := by
  obtain ⟨before, after, rfl, hbefore, hafter⟩ := h.exists_sheltered hvisit
  let first := (binder.actAll larger policy before).1
  obtain ⟨hstack', hkept⟩ := @scope?_of_sheltered larger policy before hbefore binder
  have hcurrent : first.current = outermost := by
    rw [current, hstack', hstack]
    rfl
  have hfree : first.scopes.held? outermost name = none := by
    rw [ScopeTree.held?, hkept _ hexists]
    exact hnone
  have hdeclare : (first.act larger policy (.declare name decl)).1.scopes =
      first.scopes.put outermost name (.node decl) := by
    simp only [act, Binder.declare, ScopeTree.declare, hcurrent, hfree]
  intro id hid
  have hlt : id < (first.act larger policy (.declare name decl)).1.scopes.size := by
    apply Nat.lt_of_lt_of_le hid
    exact Nat.le_trans (binder.size_le_actAll before) (first.size_le_actAll [.declare name decl])
  rw [fst_actAll_append, fst_actAll_cons, (scope?_of_sheltered hafter _).2 id hlt, hdeclare,
    ScopeTree.scope?_put, ScopeTree.scope?_put, hkept id hid]

end Tree.Gains

end Attribution
