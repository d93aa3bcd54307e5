import Attribution.Proofs.Binding.Added
import Attribution.Proofs.Binding.Scopes
import Attribution.Proofs.Rule.Nodes
/-!
# Strict binding

The binder asks for the scopes that the walk is in, for their owners and for what names stand for.
All of these exist at any point of a walk over a tree in which no node is missing.
-/
namespace Attribution
namespace Strict

def redeclared (tree : Tree) (name : String) (existing : Entity) (decl : NodeId) :
    Except Breach (List (Command Rule)) := do
  let .node first := existing | return []
  let some expected ← predicateArity? tree first | return []
  let some found ← predicateArity? tree decl | return []
  return if expected = found then []
    else [.report { node := decl, cause := .redeclaredArity name expected found }]

def declare (tree : Tree) (policy : DuplicatePolicy) (binder : Binder) (name : String)
    (decl : NodeId) : Except Breach (Binder × List (Command Rule)) := do
  match ← ask (binder.scopes.declareIn binder.current name (.node decl)) with
  | .ok scopes => return ({ binder with scopes }, [])
  | .error existing =>
    if (← isPredicate tree existing) && (← isPredicate tree (.node decl)) then
      return (binder, ← redeclared tree name existing decl)
    match policy with
    | .report => return (binder, [.report { node := decl, cause := .duplicate name }])
    | .lastWins =>
      let (scopes, _) ← ask (binder.scopes.replaceIn binder.current name (.node decl))
      return ({ binder with scopes }, [])

def useName (tree : Tree) (binder : Binder) (node : NodeId) (name : String) :
    Except Breach (Binder × List (Command Rule)) := do
  match ← lookup binder.scopes binder.current name with
  | some (entity, home) =>
    let type := if ← isPredicate tree entity then
        .report { node, cause := .predicateAsValue name }
      else .add (.referenceType node entity)
    return ({ binder with resolved := (node, entity) :: binder.resolved },
      [.set (.decl node) (.decl entity), .set (.scope node) (.scope home), type])
  | none =>
    return ({ binder with deferred := (node, binder.current) :: binder.deferred },
      [.add (.resolveReference node name binder.current)])

/-- The innermost function that owns one of some scopes. -/
def enclosingFunction? (tree : Tree) (scopes : ScopeTree) :
    List ScopeId → Except Breach (Option NodeId)
  | [] => .ok none
  | id :: ids => do
    let found ← scope scopes id
    if (← node tree found.owner).isFunction then return some found.owner
    enclosingFunction? tree scopes ids

def exits (tree : Tree) (binder : Binder) (id : NodeId) (expression : Option NodeId) :
    Except Breach (List (Command Rule)) := do
  let some function ← enclosingFunction? tree binder.scopes binder.stack | return []
  match ← node tree function with
  | .funDecl _ _ _ returnType _ => return [.add (.returnStatement id returnType expression)]
  | _ => return []

def act (tree : Tree) (policy : DuplicatePolicy) (binder : Binder) (action : Action) :
    Except Breach (Binder × List (Command Rule)) := do
  match action with
  | .declare name decl => declare tree policy binder name decl
  | .useName node name => useName tree binder node name
  | .placeholder node name =>
    let owner := (← scope binder.scopes binder.current).owner
    return (binder, [.add (.templateType node), .add (.templateDeclared node owner name)])
  | .exit node expression => return (binder, ← exits tree binder node expression)
  | action => return binder.act tree policy action

def actAll (tree : Tree) (policy : DuplicatePolicy) :
    Binder → List Action → Except Breach (Binder × List (Command Rule))
  | binder, [] => .ok (binder, [])
  | binder, action :: rest => do
    let (next, now) ← act tree policy binder action
    let (last, later) ← actAll tree policy next rest
    return (last, now ++ later)

/-- Whatever a binder may ask for exists. -/
structure Sturdy (tree : Tree) (binder : Binder) : Prop where
  nested : Nested binder.scopes
  owners : ∀ id found, binder.scopes.scope? id = some found → tree.Reaches found.owner
  entities : binder.scopes.HoldsOnly (Entity.Reached tree)
  outermost : Binder.outermost < binder.scopes.size
  stack : ∀ id ∈ binder.stack, id < binder.scopes.size
  deferred : ∀ pair ∈ binder.deferred, pair.2 < binder.scopes.size

namespace Sturdy

variable {tree : Tree} {policy : DuplicatePolicy} {binder : Binder}

theorem current_lt (h : Sturdy tree binder) : binder.current < binder.scopes.size := by
  rw [Binder.current]
  cases hstack : binder.stack with
  | nil => exact h.outermost
  | cons id ids => exact h.stack id (hstack ▸ List.mem_cons_self)

theorem exists_scope (h : Sturdy tree binder) {id : ScopeId} (hid : id < binder.scopes.size) :
    ∃ found, binder.scopes.scope? id = some found ∧ tree.Reaches found.owner := by
  have hfound : binder.scopes.scope? id = some binder.scopes.scopes[id] :=
    Array.getElem?_eq_getElem hid
  exact ⟨_, hfound, h.owners _ _ hfound⟩

theorem redeclared_eq (hclosed : tree.Closed) {name : String} {existing : Entity} {decl : NodeId}
    (hexisting : existing.Reached tree) (hdecl : tree.Reaches decl) :
    redeclared tree name existing decl = .ok (Binder.redeclared tree name existing decl) := by
  cases existing with
  | builtin b => rfl
  | node first =>
    simp only [redeclared, predicateArity?_eq hclosed hexisting, predicateArity?_eq hclosed hdecl,
      ok_bind, Binder.redeclared, Entity.node?, Option.bind_some]
    cases tree.predicateArity? first <;> cases tree.predicateArity? decl <;> rfl

theorem declare_eq (h : Sturdy tree binder) (hclosed : tree.Closed) {name : String} {decl : NodeId}
    (hdecl : tree.Reaches decl) :
    declare tree policy binder name decl = .ok (binder.declare tree policy name decl) := by
  obtain ⟨found, hfound, _⟩ := h.exists_scope h.current_lt
  have hscope : binder.scopes.scope binder.current = .ok found := by
    rw [ScopeTree.scope, hfound]
  have hdeclare : binder.scopes.declareIn binder.current name (.node decl) =
      .ok (binder.scopes.declare binder.current name (.node decl)) := by
    rw [ScopeTree.declareIn, hscope]
    rfl
  have hreplace : binder.scopes.replaceIn binder.current name (.node decl) =
      .ok (binder.scopes.put binder.current name (.node decl), found.find? name) := by
    rw [ScopeTree.replaceIn, hscope]
    rfl
  have hdecl' : isPredicate tree (.node decl) = .ok ((Entity.node decl).isPredicate tree) :=
    isPredicate_eq hclosed hdecl
  unfold declare Binder.declare
  rw [hdeclare, ask_ok, ok_bind]
  cases hheld : binder.scopes.declare binder.current name (.node decl) with
  | ok scopes => rfl
  | error existing =>
    have hexisting : existing.Reached tree := by
      unfold ScopeTree.declare at hheld
      split at hheld
      next other hother =>
        cases hheld
        exact h.entities _ _ _ hother
      next => cases hheld
    simp only [isPredicate_eq hclosed hexisting, hdecl', redeclared_eq hclosed hexisting hdecl,
      hreplace, ask_ok, ok_bind, pure_eq_ok]
    split
    · rfl
    · cases policy <;> rfl

theorem useName_eq (h : Sturdy tree binder) (hclosed : tree.Closed) (node : NodeId)
    (name : String) : useName tree binder node name = .ok (binder.useName tree node name) := by
  rw [useName, lookup_eq h.nested h.current_lt, ok_bind, Binder.useName]
  cases hlookup : binder.scopes.lookup? binder.current name with
  | none => rfl
  | some found =>
    simp only [isPredicate_eq hclosed (h.entities.lookup? hlookup), ok_bind]
    rfl

theorem enclosingFunction?_eq (h : Sturdy tree binder) (hclosed : tree.Closed) :
    enclosingFunction? tree binder.scopes binder.stack = .ok (binder.enclosingFunction? tree) := by
  have hall : ∀ ids : List ScopeId, (∀ id ∈ ids, id < binder.scopes.size) →
      enclosingFunction? tree binder.scopes ids =
        .ok ((ids.filterMap binder.owner?).find? fun id => tree.satisfies id Node.isFunction) := by
    intro ids
    induction ids with
    | nil => exact fun _ => rfl
    | cons id ids ih =>
      intro hids
      obtain ⟨found, hfound, howner⟩ := h.exists_scope (hids id List.mem_cons_self)
      obtain ⟨owner, hnode⟩ := howner.exists_node hclosed
      have howner? : binder.owner? id = some found.owner := by rw [Binder.owner?, hfound]; rfl
      rw [enclosingFunction?, scope_eq hfound, ok_bind, node_eq hnode, ok_bind,
        ih fun other hother => hids other (List.mem_cons_of_mem _ hother),
        List.filterMap_cons_some howner?, List.find?_cons, Tree.satisfies, hnode, Option.any_some]
      cases owner.isFunction <;> rfl
  exact hall binder.stack h.stack

theorem reaches_of_enclosing (h : Sturdy tree binder) {function : NodeId}
    (henclosing : binder.enclosingFunction? tree = some function) : tree.Reaches function := by
  obtain ⟨scope, _, howner⟩ := List.mem_filterMap.mp (List.mem_of_find?_eq_some henclosing)
  obtain ⟨found, hfound, rfl⟩ := Option.map_eq_some_iff.mp howner
  exact h.owners scope found hfound

theorem exits_eq (h : Sturdy tree binder) (hclosed : tree.Closed) (node : NodeId)
    (expression : Option NodeId) :
    exits tree binder node expression = .ok (binder.exits tree node expression) := by
  rw [exits, h.enclosingFunction?_eq hclosed, ok_bind, Binder.exits]
  cases henclosing : binder.enclosingFunction? tree with
  | none => rfl
  | some function =>
    have hkind : tree.satisfies function Node.isFunction :=
      List.find?_some (p := fun id => tree.satisfies id Node.isFunction) henclosing
    obtain ⟨found, hfound, _⟩ := Tree.satisfies_iff.mp hkind
    simp only [node_eq hfound, hfound, ok_bind, Option.bind_some]
    cases found <;> rfl

theorem act_eq (h : Sturdy tree binder) (hclosed : tree.Closed) {action : Action}
    (haction : ∀ id ∈ action.nodes, tree.Reaches id) :
    act tree policy binder action = .ok (binder.act tree policy action) := by
  cases action with
  | declare name decl => exact h.declare_eq hclosed (haction decl List.mem_cons_self)
  | useName node name => exact h.useName_eq hclosed node name
  | placeholder node name =>
    obtain ⟨found, hfound, _⟩ := h.exists_scope h.current_lt
    have howner : binder.owner? binder.current = some found.owner := by
      rw [Binder.owner?, hfound]
      rfl
    rw [act, scope_eq hfound, ok_bind, Binder.act, howner]
    rfl
  | exit node expression =>
    rw [act, h.exits_eq hclosed]
    rfl
  | _ => rfl

theorem start (tree : Tree) : Sturdy tree (Binder.start tree.root) := by
  have hsize : (Binder.start tree.root).scopes.size = 1 := rfl
  have hscope : ∀ {id found}, (Binder.start tree.root).scopes.scope? id = some found →
      found.parent = none ∧ found.owner = tree.root := by
    intro id found hfound
    have hid : id = 0 := Nat.lt_one_iff.mp (ScopeTree.scope?_lt hfound)
    subst hid
    cases hfound
    exact ⟨rfl, rfl⟩
  refine ⟨?_, ?_, ?_, Nat.zero_lt_one, nofun, nofun⟩
  · intro id found parent hfound hparent
    rw [(hscope hfound).1] at hparent
    cases hparent
  · intro id found hfound
    rw [(hscope hfound).2]
    exact ⟨_, _, .root⟩
  · intro id name entity hheld
    obtain ⟨_, b, _, rfl⟩ := Binder.held?_start hheld
    trivial

theorem entities_act (h : Sturdy tree binder) {action : Action}
    (haction : ∀ id ∈ action.nodes, tree.Reaches id) :
    (binder.act tree policy action).1.scopes.HoldsOnly (Entity.Reached tree) := by
  cases action with
  | enter node => exact h.entities.push _ _
  | declare name decl =>
    have hdecl : (Entity.node decl).Reached tree := haction decl List.mem_cons_self
    rw [Binder.act]
    rcases @Binder.declare_cases tree policy binder name decl with ⟨_, heq⟩ | heq <;> rw [heq]
    · exact h.entities
    · exact h.entities.put hdecl _ _
  | useName node name =>
    rw [Binder.act, (binder.extends_useName node name).1]
    exact h.entities
  | _ => exact h.entities

theorem stack_act (h : Sturdy tree binder) (action : Action) :
    ∀ id ∈ (binder.act tree policy action).1.stack,
      id < (binder.act tree policy action).1.scopes.size := by
  have hextends : binder.scopes.Extends (binder.act tree policy action).1.scopes :=
    binder.extends_act action
  have hkept : ∀ id ∈ binder.stack, id < (binder.act tree policy action).1.scopes.size :=
    fun id hid => hextends.lt_size (h.stack id hid)
  intro id hid
  cases action with
  | enterRoot node =>
    rcases List.mem_cons.mp hid with rfl | hold
    · exact h.outermost
    · exact hkept id hold
  | enter node =>
    rcases List.mem_cons.mp hid with rfl | hold
    · exact ScopeTree.scope?_lt (ScopeTree.scope?_push_size _ _ _)
    · exact hkept id hold
  | leave => exact hkept id (List.mem_of_mem_tail hid)
  | declare name decl => exact hkept id ((binder.extends_declare name decl).2 ▸ hid)
  | useName node name => exact hkept id ((binder.extends_useName node name).2 ▸ hid)
  | _ => exact hkept id hid

theorem deferred_act (h : Sturdy tree binder) (action : Action) :
    ∀ pair ∈ (binder.act tree policy action).1.deferred,
      pair.2 < (binder.act tree policy action).1.scopes.size := by
  have hextends : binder.scopes.Extends (binder.act tree policy action).1.scopes :=
    binder.extends_act action
  have hkept : ∀ pair ∈ binder.deferred, pair.2 < (binder.act tree policy action).1.scopes.size :=
    fun pair hpair => hextends.lt_size (h.deferred pair hpair)
  intro pair hpair
  cases action with
  | declare name decl =>
    apply hkept
    rw [Binder.act] at hpair
    rcases @Binder.declare_cases tree policy binder name decl with ⟨_, heq⟩ | heq <;>
      rw [heq] at hpair <;> exact hpair
  | useName node name =>
    rw [Binder.act, Binder.useName] at hpair
    split at hpair
    · exact hkept pair hpair
    · rcases List.mem_cons.mp hpair with rfl | hold
      · rw [Binder.act, (binder.extends_useName node name).1]
        exact h.current_lt
      · exact hkept pair hold
  | useType node name =>
    rcases List.mem_cons.mp hpair with rfl | hold
    · exact h.current_lt
    · exact hkept pair hold
  | _ => exact hkept pair hpair

theorem step (h : Sturdy tree binder) {action : Action}
    (haction : ∀ id ∈ action.nodes, tree.Reaches id) :
    Sturdy tree (binder.act tree policy action).1 where
  nested := by
    intro id found parent hfound hparent
    rcases Binder.scope?_act hfound with ⟨old, hold, hsame, _⟩ | ⟨node, rfl, rfl, rfl⟩
    · exact h.nested id old parent hold (hsame.trans hparent)
    · cases hparent
      exact h.current_lt
  owners := by
    intro id found hfound
    rcases Binder.scope?_act hfound with ⟨old, hold, _, hsame⟩ | ⟨node, rfl, rfl, rfl⟩
    · exact hsame ▸ h.owners id old hold
    · exact haction node List.mem_cons_self
  entities := h.entities_act haction
  outermost := (binder.extends_act action).lt_size h.outermost
  stack := h.stack_act action
  deferred := h.deferred_act action

theorem actAll_eq (h : Sturdy tree binder) (hclosed : tree.Closed) {actions : List Action}
    (hactions : ∀ action ∈ actions, ∀ id ∈ action.nodes, tree.Reaches id) :
    actAll tree policy binder actions = .ok (binder.actAll tree policy actions) := by
  induction actions generalizing binder with
  | nil => rfl
  | cons action rest ih =>
    have hnow := hactions action List.mem_cons_self
    have hnext : Sturdy tree (binder.act tree policy action).1 := h.step hnow
    have hlater := ih hnext fun other hother => hactions other (List.mem_cons_of_mem _ hother)
    simp only [Strict.actAll, h.act_eq hclosed hnow, ok_bind, hlater, pure_eq_ok, Binder.actAll]

/-- Whatever a binder may ask for on its walk exists. -/
theorem actAll {before after : List Action} (hwalk : tree.walk = .ok (before ++ after)) :
    Sturdy tree ((Binder.start tree.root).actAll tree policy before).1 := by
  apply Binder.actAll_induction _ (start tree)
  intro binder action haction hbinder
  exact hbinder.step (Tree.nodes_of_walk hwalk (List.mem_append_left after haction))

theorem of_meets {action : Action} (h : Binder.Meets tree policy binder action) :
    Sturdy tree binder := by
  obtain ⟨before, after, hwalk, rfl⟩ := h
  exact actAll hwalk

end Sturdy
end Strict
end Attribution
