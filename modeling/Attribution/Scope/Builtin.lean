import Attribution.Tree.Basic
import Attribution.Ty.Basic
/-!
# Built-ins and entities

The names that exist without a node, and the entities that a name can stand for.
-/
namespace Attribution

inductive Builtin where
  | int
  | float
  | bool
  | string
  | void
  | metatype
  | term
  | yes
  | no
  | null
  | print
deriving DecidableEq, Repr

namespace Builtin

/-- Every built-in, in the order in which the outermost scope lists them. -/
def all : List Builtin :=
  [int, float, bool, string, void, metatype, term, yes, no, null, print]

def position : Builtin → Nat
  | int => 0
  | float => 1
  | bool => 2
  | string => 3
  | void => 4
  | metatype => 5
  | term => 6
  | yes => 7
  | no => 8
  | null => 9
  | print => 10

theorem all_position (b : Builtin) : all[b.position]? = some b := by cases b <;> rfl

theorem eq_of_position {a b : Builtin} (h : a.position = b.position) : a = b :=
  Option.some.inj (by rw [← all_position a, h, all_position b])

def name : Builtin → String
  | int => "Int"
  | float => "Float"
  | bool => "Bool"
  | string => "String"
  | void => "Void"
  | metatype => "Type"
  | term => "Term"
  | yes => "true"
  | no => "false"
  | null => "null"
  | print => "print"

/-- The type of the name when it is used as a value. -/
def valueType : Builtin → Ty
  | yes | no => .bool
  | null => .null
  | print => .function [.string] .string
  | _ => .metatype

/-- The type that the name denotes, if it is the name of a type. -/
def denoted? : Builtin → Option Ty
  | int => some .int
  | float => some .float
  | bool => some .bool
  | string => some .string
  | void => some .void
  | metatype => some .metatype
  | term => some .term
  | yes | no | null | print => none

/-- What kind of thing the built-in is, in words. -/
def describe : Builtin → String
  | print => "built-in function"
  | yes | no | null => "built-in constant"
  | _ => "built-in type"

end Builtin

/-- What a name can stand for, and what can own attributes: a node or a built-in. -/
inductive Entity where
  | node (id : NodeId)
  | builtin (builtin : Builtin)
deriving DecidableEq, Repr

namespace Entity

def node? : Entity → Option NodeId
  | node id => some id
  | builtin _ => none

def isType (tree : Tree) : Entity → Bool
  | node id => tree.satisfies id Node.isTypeDecl
  | builtin b => b.denoted?.isSome

def isPredicate (tree : Tree) : Entity → Bool
  | node id => tree.satisfies id Node.isPredicate
  | builtin _ => false

/-- Whether the entity is a variable, which can only be used after its declaration. -/
def isVariable (tree : Tree) : Entity → Bool
  | node id => tree.satisfies id Node.isVariable
  | builtin _ => false

/-- What kind of thing the entity is, in words. -/
def describe (tree : Tree) : Entity → String
  | node id => ((tree.node? id).map Node.describe).getD "unknown"
  | builtin b => b.describe

end Entity

end Attribution
