import Attribution.Proofs.Scope.Outward
import Attribution.Proofs.Tree.Shape
import Attribution.Engine.Basic
/-!
# Strict lookups

A question about a node or a scope that does not exist has no answer. The questions here break off
then, where those of the analysis take the node for one that they are not about. In a tree whose
nodes all exist, as far as they are reached from the root, the answers are the same.
-/
namespace Attribution

/-- What a strict pass breaks off at. -/
inductive Breach where
  | fault (fault : Fault)
  | missingRule (id : RuleId)
  /-- The rule is told of more inputs than it misses. -/
  | miscounted (id : RuleId)
  | missingArgument (call : NodeId) (position : Nat)
  /-- A run or a search goes on for longer than it may. -/
  | endless
deriving DecidableEq, Repr

@[simp] theorem ok_bind {ε α β : Type} (a : α) (f : α → Except ε β) :
    (Except.ok a >>= f) = f a := rfl

@[simp] theorem pure_eq_ok {ε α : Type} (a : α) : (pure a : Except ε α) = .ok a := rfl

/-- Some path leads from the root to the node. -/
def Tree.Reaches (tree : Tree) (id : NodeId) : Prop :=
  ∃ path expectation, tree.Leads path id expectation

theorem Tree.Reaches.exists_node {tree : Tree} {id : NodeId} (h : tree.Reaches id)
    (hclosed : tree.Closed) : ∃ node, tree.node? id = some node := by
  obtain ⟨path, expectation, hleads⟩ := h
  exact hclosed _ _ _ hleads

theorem Tree.Reaches.child {tree : Tree} {id child : NodeId} {node : Node} (h : tree.Reaches id)
    (hnode : tree.node? id = some node) (hchild : child ∈ node.children) : tree.Reaches child := by
  obtain ⟨path, expectation, hleads⟩ := h
  obtain ⟨place, lent, hbelow⟩ := hleads.exists_of_children hnode hchild
  exact ⟨_, _, hbelow⟩

/-- What the entity stands for is reached, unless it is built in. -/
def Entity.Reached (tree : Tree) : Entity → Prop
  | node id => tree.Reaches id
  | builtin _ => True

namespace Strict

/-- Break off at a fault. -/
def ask {α : Type} (answer : Except Fault α) : Except Breach α := answer.mapError .fault

@[simp] theorem ask_ok {α : Type} (a : α) : ask (.ok a) = .ok a := rfl

def node (tree : Tree) (id : NodeId) : Except Breach Node := ask (tree.node id)

/-- Answer a question about an entity. -/
def inspect {α : Type} (tree : Tree) (onNode : Node → α) (onBuiltin : Builtin → α) :
    Entity → Except Breach α
  | .node id => do return onNode (← node tree id)
  | .builtin b => .ok (onBuiltin b)

def isPredicate (tree : Tree) : Entity → Except Breach Bool :=
  inspect tree Node.isPredicate fun _ => false

def isVariable (tree : Tree) : Entity → Except Breach Bool :=
  inspect tree Node.isVariable fun _ => false

def isType (tree : Tree) : Entity → Except Breach Bool :=
  inspect tree Node.isTypeDecl fun b => b.denoted?.isSome

def describe (tree : Tree) : Entity → Except Breach String :=
  inspect tree Node.describe Builtin.describe

def atom? (tree : Tree) (id : NodeId) : Except Breach (Option (String × List NodeId)) := do
  match ← node tree id with
  | .atom name terms => return some (name, terms)
  | _ => return none

def declaredName? (tree : Tree) (id : NodeId) : Except Breach (Option String) := do
  match ← node tree id with
  | .varDecl name .. | .fieldDecl name _ | .parameter name _ | .funDecl name ..
  | .structDecl name _ | .templateParam name | .fact name _ => return some name
  | .clause head _ => return (← atom? tree head).map Prod.fst
  | _ => return none

def predicateArity? (tree : Tree) (id : NodeId) : Except Breach (Option Nat) := do
  match ← node tree id with
  | .fact _ terms => return some terms.length
  | .clause head _ => return (← atom? tree head).map fun head => head.2.length
  | _ => return none

def declaredTerms (tree : Tree) (id : NodeId) : Except Breach (List NodeId) := do
  match ← node tree id with
  | .fact _ terms => return terms
  | .clause head body =>
    return (← (head :: body).mapM (atom? tree)).flatMap fun atom => atom.elim [] Prod.snd
  | .query goal => return (← atom? tree goal).elim [] Prod.snd
  | _ => return []

def isConcatenation (tree : Tree) (function : NodeId) : Except Breach Bool := do
  let .funDecl _ _ _ _ body ← node tree function | return false
  let .block [statement] ← node tree body | return false
  let .returnStatement (some expression) ← node tree statement | return false
  let .binary .add _ _ ← node tree expression | return false
  return true

def returnContainers (tree : Tree) : List NodeId → Except Breach (List NodeId)
  | [] => .ok []
  | id :: ids => do
    let found ← node tree id
    let rest ← returnContainers tree ids
    return if found.isReturnContainer then id :: rest else rest

def scope (scopes : ScopeTree) (id : ScopeId) : Except Breach Scope := ask (scopes.scope id)

def lookup (scopes : ScopeTree) (id : ScopeId) (name : String) :
    Except Breach (Option (Entity × ScopeId)) := ask (scopes.lookup id name)

variable {tree : Tree} {id : NodeId}

theorem node_eq {found : Node} (h : tree.node? id = some found) : node tree id = .ok found := by
  rw [node, Tree.node, h]
  rfl

section Entity

variable {entity : Entity}

theorem inspect_eq {α : Type} {onNode : Node → α} {onBuiltin : Builtin → α} {answer : Entity → α}
    (hclosed : tree.Closed) (h : entity.Reached tree)
    (hnode : ∀ id found, tree.node? id = some found → onNode found = answer (.node id))
    (hbuiltin : ∀ b, onBuiltin b = answer (.builtin b)) :
    inspect tree onNode onBuiltin entity = .ok (answer entity) := by
  cases entity with
  | node id =>
    obtain ⟨found, hfound⟩ := h.exists_node hclosed
    rw [inspect, node_eq hfound, ok_bind, hnode id found hfound, pure_eq_ok]
  | builtin b => rw [inspect, hbuiltin b]

theorem inspect_satisfies_eq {test : Node → Bool} {onBuiltin : Builtin → Bool}
    {answer : Entity → Bool} (hclosed : tree.Closed) (h : entity.Reached tree)
    (hnode : ∀ id, answer (.node id) = tree.satisfies id test)
    (hbuiltin : ∀ b, onBuiltin b = answer (.builtin b)) :
    inspect tree test onBuiltin entity = .ok (answer entity) := by
  apply inspect_eq hclosed h _ hbuiltin
  intro id found hfound
  rw [hnode, Tree.satisfies, hfound, Option.any_some]

theorem isPredicate_eq (hclosed : tree.Closed) (h : entity.Reached tree) :
    isPredicate tree entity = .ok (entity.isPredicate tree) :=
  inspect_satisfies_eq hclosed h (fun _ => rfl) fun _ => rfl

theorem isVariable_eq (hclosed : tree.Closed) (h : entity.Reached tree) :
    isVariable tree entity = .ok (entity.isVariable tree) :=
  inspect_satisfies_eq hclosed h (fun _ => rfl) fun _ => rfl

theorem isType_eq (hclosed : tree.Closed) (h : entity.Reached tree) :
    isType tree entity = .ok (entity.isType tree) :=
  inspect_satisfies_eq hclosed h (fun _ => rfl) fun _ => rfl

theorem describe_eq (hclosed : tree.Closed) (h : entity.Reached tree) :
    describe tree entity = .ok (entity.describe tree) := by
  have hnode : ∀ id found, tree.node? id = some found →
      found.describe = (Entity.node id).describe tree := by
    intro id found hfound
    rw [Entity.describe, hfound]
    rfl
  exact inspect_eq hclosed h hnode fun _ => rfl

end Entity

theorem atom?_eq (hclosed : tree.Closed) (h : tree.Reaches id) :
    atom? tree id = .ok (tree.atom? id) := by
  obtain ⟨found, hfound⟩ := h.exists_node hclosed
  rw [atom?, node_eq hfound, Tree.atom?, hfound]
  cases found <;> rfl

theorem declaredName?_eq (hclosed : tree.Closed) (h : tree.Reaches id) :
    declaredName? tree id = .ok (tree.declaredName? id) := by
  obtain ⟨found, hfound⟩ := h.exists_node hclosed
  rw [declaredName?, node_eq hfound, Tree.declaredName?, hfound]
  cases found with
  | clause head body =>
    have hhead := atom?_eq hclosed (h.child hfound List.mem_cons_self)
    simp [hhead]
  | _ => rfl

theorem predicateArity?_eq (hclosed : tree.Closed) (h : tree.Reaches id) :
    predicateArity? tree id = .ok (tree.predicateArity? id) := by
  obtain ⟨found, hfound⟩ := h.exists_node hclosed
  rw [predicateArity?, node_eq hfound, Tree.predicateArity?, hfound]
  cases found with
  | clause head body =>
    have hhead := atom?_eq hclosed (h.child hfound List.mem_cons_self)
    simp [hhead]
  | _ => rfl

theorem mapM_eq {α β : Type} {ask : α → Except Breach β} {answer : α → β} {xs : List α}
    (h : ∀ x ∈ xs, ask x = .ok (answer x)) : xs.mapM ask = .ok (xs.map answer) := by
  induction xs with
  | nil => rfl
  | cons x xs ih =>
    rw [List.mapM_cons, h x List.mem_cons_self,
      ih fun other hother => h other (List.mem_cons_of_mem _ hother)]
    rfl

/-- A fold succeeds if its steps do as long as the rest and the state satisfy what each step
keeps. -/
theorem foldlM_eq {α β : Type} {step : β → α → Except Breach β} {move : β → α → β}
    (holds : List α → β → Prop)
    (hstep : ∀ b a rest, holds (a :: rest) b → step b a = .ok (move b a) ∧ holds rest (move b a))
    {xs : List α} {b : β} (h : holds xs b) :
    xs.foldlM step b = .ok (xs.foldl move b) ∧ holds [] (xs.foldl move b) := by
  induction xs generalizing b with
  | nil => exact ⟨rfl, h⟩
  | cons a rest ih =>
    obtain ⟨hnow, hrest⟩ := hstep b a rest h
    rw [List.foldlM_cons, hnow, ok_bind, List.foldl_cons]
    exact ih hrest

theorem declaredTerms_eq (hclosed : tree.Closed) (h : tree.Reaches id) :
    declaredTerms tree id = .ok (tree.declaredTerms id) := by
  obtain ⟨found, hfound⟩ := h.exists_node hclosed
  have hterms : ∀ atom, (tree.atom? atom).elim [] Prod.snd = tree.atomTerms atom := by
    intro atom
    rw [Tree.atomTerms]
    cases tree.atom? atom <;> rfl
  rw [declaredTerms, node_eq hfound, Tree.declaredTerms, hfound]
  cases found with
  | clause head body =>
    have hatoms : (head :: body).mapM (atom? tree) = .ok ((head :: body).map tree.atom?) :=
      mapM_eq fun atom hatom => atom?_eq hclosed (h.child hfound hatom)
    simp only [ok_bind, hatoms, pure_eq_ok, List.flatMap_map, hterms]
  | query goal =>
    have hgoal := atom?_eq hclosed (h.child hfound List.mem_cons_self)
    simp [hgoal, hterms]
  | _ => rfl

theorem returnContainers_eq (hclosed : tree.Closed) {ids : List NodeId}
    (h : ∀ id ∈ ids, tree.Reaches id) :
    returnContainers tree ids = .ok (tree.returnContainers ids) := by
  induction ids with
  | nil => rfl
  | cons id ids ih =>
    obtain ⟨found, hfound⟩ := (h id List.mem_cons_self).exists_node hclosed
    have hrest := ih fun other hother => h other (List.mem_cons_of_mem _ hother)
    rw [returnContainers, node_eq hfound, ok_bind, hrest, ok_bind, pure_eq_ok,
      Tree.returnContainers, Tree.returnContainers, List.filter_cons, Tree.satisfies, hfound,
      Option.any_some]

theorem isConcatenation_eq (hclosed : tree.Closed) (h : tree.Reaches id) :
    isConcatenation tree id = .ok (tree.isConcatenation id) := by
  obtain ⟨function, hfunction⟩ := h.exists_node hclosed
  rw [isConcatenation, node_eq hfunction, ok_bind, Tree.isConcatenation, hfunction]
  cases function with
  | funDecl name template parameters returnType body =>
    have hbody : tree.Reaches body := h.child hfunction (by simp [Node.children])
    obtain ⟨block, hblock⟩ := hbody.exists_node hclosed
    simp only [node_eq hblock, hblock, ok_bind]
    split
    next statement =>
      have hstatement : tree.Reaches statement := hbody.child hblock List.mem_cons_self
      obtain ⟨found, hfound⟩ := hstatement.exists_node hclosed
      simp only [node_eq hfound, hfound, ok_bind]
      split
      next expression =>
        obtain ⟨sum, hsum⟩ :=
          (hstatement.child hfound List.mem_cons_self).exists_node hclosed
        simp only [node_eq hsum, hsum, ok_bind]
        split <;> simp_all
      next => simp_all
    next => simp_all
  | _ => rfl

section Scope

variable {scopes : ScopeTree} {id : ScopeId}

theorem scope_eq {found : Scope} (h : scopes.scope? id = some found) :
    scope scopes id = .ok found := by
  rw [scope, ScopeTree.scope, h]
  rfl

/-- Every scope was made after the one that encloses it. -/
def Nested (scopes : ScopeTree) : Prop := ∀ id found parent, scopes.scope? id = some found →
  found.parent = some parent → parent < id

theorem exists_chain (hnested : Nested scopes) (h : id < scopes.size) :
    ∃ rest, scopes.Chain (id :: rest) := by
  induction id using Nat.strongRecOn with
  | _ id ih =>
    have hscope : scopes.scope? id = some scopes.scopes[id] := Array.getElem?_eq_getElem h
    cases hparent : scopes.scopes[id].parent with
    | none => exact ⟨[], .outermost hscope hparent⟩
    | some parent =>
      have hlt : parent < id := hnested _ _ _ hscope hparent
      obtain ⟨rest, hrest⟩ := ih parent hlt (Nat.lt_trans hlt h)
      exact ⟨parent :: rest, .inner hscope hparent hlt hrest⟩

theorem lookup_eq (hnested : Nested scopes) (h : id < scopes.size) (name : String) :
    lookup scopes id name = .ok (scopes.lookup? id name) := by
  obtain ⟨rest, hrest⟩ := exists_chain hnested h
  rw [lookup, ScopeTree.lookup, hrest.path]
  cases scopes.lookup? id name <;> rfl

end Scope

end Strict
end Attribution
