import Attribution.Scope.Builtin
/-!
# Scopes

A scope maps names to entities and may have a parent; a name is looked up from a scope outward.
Scopes refer to each other by position, and nothing forces a parent to exist, so a walk outward
can end at a missing scope.
-/
namespace Attribution

structure Scope where
  parent : Option ScopeId
  /-- The node that opened the scope. -/
  owner : NodeId
  /-- The names of the scope in the order in which they were first declared, each once. -/
  names : List (String × Entity) := []
deriving DecidableEq, Repr

namespace Scope

def find? (scope : Scope) (name : String) : Option Entity := scope.names.lookup name

/-- Let a name stand for an entity: a name that is held keeps its place, a new one comes last. -/
def assign (name : String) (entity : Entity) : List (String × Entity) → List (String × Entity)
  | [] => [(name, entity)]
  | (held, old) :: rest =>
    if held = name then (held, entity) :: rest else (held, old) :: assign name entity rest

/-- After an assignment its name stands for the entity, and every other name for what it did. -/
theorem lookup_assign (name other : String) (entity : Entity) (names : List (String × Entity)) :
    (assign name entity names).lookup other =
      if other = name then some entity else names.lookup other := by
  induction names with
  | nil =>
    by_cases h : other = name
    · simp [assign, h]
    · simp [assign, List.lookup_cons, h, beq_eq_false_iff_ne.mpr h]
  | cons entry rest ih =>
    obtain ⟨held, old⟩ := entry
    by_cases hn : held = name
    · subst hn
      by_cases ho : other = held
      · simp [assign, ho]
      · simp [assign, List.lookup_cons, ho, beq_eq_false_iff_ne.mpr ho]
    · by_cases ho : other = held
      · subst ho
        simp [assign, hn]
      · simp [assign, List.lookup_cons, hn, ih, beq_eq_false_iff_ne.mpr ho]

theorem map_fst_assign (name : String) (entity : Entity) (names : List (String × Entity)) :
    (assign name entity names).map Prod.fst =
      if name ∈ names.map Prod.fst then names.map Prod.fst else names.map Prod.fst ++ [name] := by
  induction names with
  | nil => rfl
  | cons entry rest ih =>
    obtain ⟨held, old⟩ := entry
    by_cases hname : held = name
    · simp [assign, hname]
    · rw [assign, if_neg hname, List.map_cons, ih]
      by_cases hmem : name ∈ rest.map Prod.fst <;> simp [hmem, Ne.symm hname]

def put (scope : Scope) (name : String) (entity : Entity) : Scope :=
  { scope with names := assign name entity scope.names }

theorem find?_put (scope : Scope) (name other : String) (entity : Entity) :
    (scope.put name entity).find? other =
      if other = name then some entity else scope.find? other :=
  lookup_assign name other entity scope.names

end Scope

structure ScopeTree where
  scopes : Array Scope := #[]
deriving DecidableEq, Repr

/-- The scopes met on the way outward, innermost first, and what stopped the way before it reached
an outermost scope, if anything did. -/
structure ScopePath where
  scopes : List ScopeId
  fault : Option Fault := none
deriving DecidableEq, Repr

namespace ScopeTree

def size (tree : ScopeTree) : Nat := tree.scopes.size

def scope? (tree : ScopeTree) (id : ScopeId) : Option Scope := tree.scopes[id]?

def scope (tree : ScopeTree) (id : ScopeId) : Except Fault Scope :=
  match tree.scope? id with
  | some scope => .ok scope
  | none => .error (.missingScope id)

/-- Add an empty scope; its id is the number of scopes before. -/
def push (tree : ScopeTree) (parent : Option ScopeId) (owner : NodeId) : ScopeTree :=
  { scopes := tree.scopes.push { parent, owner } }

/-- Add an outermost scope that holds the built-ins. -/
def pushOutermost (tree : ScopeTree) (owner : NodeId) : ScopeTree :=
  { scopes := tree.scopes.push
      { parent := none, owner, names := Builtin.all.map fun b => (b.name, .builtin b) } }

/-- The entity that a scope itself holds under a name. -/
def held? (tree : ScopeTree) (id : ScopeId) (name : String) : Option Entity :=
  (tree.scope? id).bind fun scope => scope.find? name

/-- Let a name stand for an entity in a scope, whatever it stood for before. -/
def put (tree : ScopeTree) (id : ScopeId) (name : String) (entity : Entity) : ScopeTree :=
  { scopes := tree.scopes.modify id fun scope => scope.put name entity }

/-- Putting a name changes what one scope holds under this name, and nothing else. -/
theorem held?_put (tree : ScopeTree) (id place : ScopeId) (name other : String)
    (entity : Entity) :
    (tree.put id name entity).held? place other =
      if place = id ∧ other = name then (tree.scope? place).map fun _ => entity
      else tree.held? place other := by
  simp only [held?, scope?, put, Array.getElem?_modify]
  by_cases hs : id = place
  · subst hs
    cases tree.scopes[id]? with
    | none => simp
    | some scope => by_cases ho : other = name <;> simp [Scope.find?_put, ho]
  · simp [hs, Ne.symm hs]

/-- Declare a name in a scope. A name that the scope holds stays, and what it stands for is the
error. -/
def declare (tree : ScopeTree) (id : ScopeId) (name : String) (entity : Entity) :
    Except Entity ScopeTree :=
  match tree.held? id name with
  | some existing => .error existing
  | none => .ok (tree.put id name entity)

def declareIn (tree : ScopeTree) (id : ScopeId) (name : String) (entity : Entity) :
    Except Fault (Except Entity ScopeTree) :=
  (tree.scope id).map fun _ => tree.declare id name entity

/-- Let a name stand for an entity in a scope, which has to exist, and answer with the entity that
it stood for before. -/
def replaceIn (tree : ScopeTree) (id : ScopeId) (name : String) (entity : Entity) :
    Except Fault (ScopeTree × Option Entity) :=
  (tree.scope id).map fun scope => (tree.put id name entity, scope.find? name)

/-- The way from a scope outward, at most `n` scopes long. -/
def pathWithin (tree : ScopeTree) : Nat → ScopeId → ScopePath
  | 0, id => { scopes := [], fault := some (.cyclicScope id) }
  | n + 1, id =>
    match tree.scope? id with
    | none => { scopes := [], fault := some (.missingScope id) }
    | some scope =>
      match scope.parent with
      | none => { scopes := [id] }
      | some parent =>
        let rest := tree.pathWithin n parent
        { rest with scopes := id :: rest.scopes }

/-- The way from a scope outward. Without a cycle it meets every scope at most once. -/
def path (tree : ScopeTree) (id : ScopeId) : ScopePath := tree.pathWithin (tree.size + 1) id

/-- The first of some scopes that holds a name, with what the name stands for there. -/
def firstHolding? (tree : ScopeTree) (name : String) (ids : List ScopeId) :
    Option (Entity × ScopeId) :=
  ids.findSome? fun id => (tree.held? id name).map fun entity => (entity, id)

/-- What a name stands for as seen from a scope, and the nearest scope outward that holds it. -/
def lookup? (tree : ScopeTree) (id : ScopeId) (name : String) : Option (Entity × ScopeId) :=
  tree.firstHolding? name (tree.path id).scopes

/-- Look up a name where the way outward may break off: that is a fault only if the name was not
found before. -/
def lookup (tree : ScopeTree) (id : ScopeId) (name : String) :
    Except Fault (Option (Entity × ScopeId)) :=
  match tree.lookup? id name, (tree.path id).fault with
  | some found, _ => .ok (some found)
  | none, none => .ok none
  | none, some fault => .error fault

/-- A scope followed by all scopes that enclose it. -/
def ancestors (tree : ScopeTree) (id : ScopeId) : Except Fault (List ScopeId) :=
  match (tree.path id).fault with
  | none => .ok (tree.path id).scopes
  | some fault => .error fault

end ScopeTree

end Attribution
