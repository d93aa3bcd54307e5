import Attribution.Scope.Basic
/-!
# Cells

An attribute of an entity is kept in a cell, and every kind of attribute has values of one sort.
-/
namespace Attribution

inductive Attr where
  /-- The type of an expression or declaration. -/
  | type
  /-- The scope that a node opens, or in which a name was found. -/
  | scope
  /-- The entity that a name stands for. -/
  | decl
  /-- Whether control always leaves through a statement. -/
  | returns
  /-- The type that a type node denotes. -/
  | value
  /-- The type that a type declaration introduces. -/
  | declared
  /-- The place of an argument in its call. -/
  | index
deriving DecidableEq, Repr

namespace Attr

/-- Every attribute, in the order in which the attributes of an entity are listed. -/
def all : List Attr := [type, scope, decl, returns, value, declared, index]

def position : Attr → Nat
  | type => 0
  | scope => 1
  | decl => 2
  | returns => 3
  | value => 4
  | declared => 5
  | index => 6

theorem all_position (a : Attr) : all[a.position]? = some a := by cases a <;> rfl

theorem eq_of_position {a b : Attr} (h : a.position = b.position) : a = b :=
  Option.some.inj (by rw [← all_position a, h, all_position b])

end Attr

structure Cell where
  subject : Entity
  attr : Attr
deriving DecidableEq, Repr

namespace Entity

/-- Nodes come before built-ins. -/
def region : Entity → Nat
  | node _ => 0
  | builtin _ => 1

def position : Entity → Nat
  | node id => id
  | builtin b => b.position

def type (e : Entity) : Cell := ⟨e, .type⟩
def declared (e : Entity) : Cell := ⟨e, .declared⟩

end Entity

namespace Cell

def type (id : NodeId) : Cell := ⟨.node id, .type⟩
def scope (id : NodeId) : Cell := ⟨.node id, .scope⟩
def decl (id : NodeId) : Cell := ⟨.node id, .decl⟩
def returns (id : NodeId) : Cell := ⟨.node id, .returns⟩
def value (id : NodeId) : Cell := ⟨.node id, .value⟩
def declared (id : NodeId) : Cell := ⟨.node id, .declared⟩
def index (id : NodeId) : Cell := ⟨.node id, .index⟩

/-- Cells sort by entity, those of one entity by attribute. -/
instance : Ord Cell where
  compare := compareLex (compareOn fun c => c.subject.region) <|
    compareLex (compareOn fun c => c.subject.position) (compareOn fun c => c.attr.position)

instance : Std.TransOrd Cell := inferInstanceAs <| Std.TransCmp (compareLex _ _)

end Cell

theorem Entity.eq_of_position {a b : Entity} (hr : a.region = b.region)
    (hp : a.position = b.position) : a = b := by
  cases a <;> cases b
  · exact congrArg node hp
  · contradiction
  · contradiction
  · exact congrArg builtin (Builtin.eq_of_position hp)

instance : Std.LawfulEqOrd Cell where
  eq_of_compare {a b} h := by
    change compareLex _ _ a b = .eq at h
    simp only [compareLex_eq_eq, compareOn, Nat.compare_eq_eq] at h
    obtain ⟨hr, hp, ha⟩ := h
    cases a
    cases b
    simp only [Cell.mk.injEq]
    exact ⟨Entity.eq_of_position hr hp, Attr.eq_of_position ha⟩

inductive Value where
  | type (type : Ty)
  | scope (scope : ScopeId)
  | decl (entity : Entity)
  | flag (flag : Bool)
  | index (index : Nat)
deriving Repr

namespace Value

def type? : Value → Option Ty
  | type t => some t
  | _ => none

def scope? : Value → Option ScopeId
  | scope s => some s
  | _ => none

def decl? : Value → Option Entity
  | decl e => some e
  | _ => none

def flag? : Value → Option Bool
  | flag b => some b
  | _ => none

def index? : Value → Option Nat
  | index i => some i
  | _ => none

end Value

/-- What can be read of the cells: the value of each cell that holds one. -/
abbrev View := Cell → Option Value

namespace View

def type? (view : View) (id : NodeId) : Option Ty := (view (.type id)).bind Value.type?

def value? (view : View) (id : NodeId) : Option Ty := (view (.value id)).bind Value.type?

def declared? (view : View) (id : NodeId) : Option Ty := (view (.declared id)).bind Value.type?

def decl? (view : View) (id : NodeId) : Option Entity := (view (.decl id)).bind Value.decl?

def returns? (view : View) (id : NodeId) : Option Bool := (view (.returns id)).bind Value.flag?

def index? (view : View) (id : NodeId) : Option Nat := (view (.index id)).bind Value.index?

def scope? (view : View) (id : NodeId) : Option ScopeId := (view (.scope id)).bind Value.scope?

end View

end Attribution
