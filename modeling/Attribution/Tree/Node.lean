/-!
# Nodes

The constructs of the language. Nodes live in an arena and name their children by position, so a
node holds ids, never other nodes.
-/
namespace Attribution

/-- The position of a node in its arena. -/
abbrev NodeId := Nat

/-- A range of byte offsets, its end excluded. -/
structure Span where
  start : Nat := 0
  stop : Nat := 0
deriving DecidableEq, Repr

inductive UnaryOp where
  | not
  | increment
  | decrement
deriving DecidableEq, Repr

inductive BinaryOp where
  | add
  | subtract
  | multiply
  | divide
  | remainder
  | equal
  | notEqual
  | less
  | lessEqual
  | greater
  | greaterEqual
  | and
  | or
  | xor
deriving DecidableEq, Repr

namespace BinaryOp

/-- What an operator asks of its operands; each operator is of one kind. -/
inductive Kind where
  | arithmetic
  | comparison
  | equality
  | logic
deriving DecidableEq, Repr

def kind : BinaryOp → Kind
  | add | subtract | multiply | divide | remainder => .arithmetic
  | less | lessEqual | greater | greaterEqual => .comparison
  | equal | notEqual => .equality
  | and | or | xor => .logic

def symbol : BinaryOp → String
  | add => "+"
  | subtract => "-"
  | multiply => "*"
  | divide => "/"
  | remainder => "%"
  | equal => "=="
  | notEqual => "!="
  | less => "<"
  | lessEqual => "<="
  | greater => ">"
  | greaterEqual => ">="
  | and => "&&"
  | or => "||"
  | xor => "^"

/-- The word for the operation, as in "trying to add Int with Bool". -/
def verb : BinaryOp → String
  | add => "add"
  | subtract => "subtract"
  | multiply => "multiply"
  | divide => "divide"
  | remainder => "take the remainder of"
  | equal | notEqual => "compare"
  | less | lessEqual | greater | greaterEqual => "order"
  | and => "and"
  | or => "or"
  | xor => "xor"

end BinaryOp

/-- A floating point number, held as its 64 bits. -/
structure Binary64 where
  bits : UInt64
deriving DecidableEq, Repr

namespace Binary64

def magnitude (x : Binary64) : UInt64 := x.bits &&& 0x7fffffffffffffff

def isNaN (x : Binary64) : Bool := x.magnitude > 0x7ff0000000000000

/-- Numeric equality: a NaN equals nothing, and the two zeros equal each other. -/
def same (x y : Binary64) : Bool :=
  !x.isNaN && !y.isNaN && (x.bits == y.bits || (x.magnitude == 0 && y.magnitude == 0))

end Binary64

inductive Literal where
  | int (value : Int)
  | float (value : Binary64)
  | string (value : String)
  | term (symbol : String)
deriving DecidableEq, Repr

/-- Equality of literals, numeric on floating point numbers. -/
def Literal.same : Literal → Literal → Bool
  | .float x, .float y => x.same y
  | a, b => a == b

/-- A construct of the language, with the ids of its parts. -/
inductive Node where
  | literal (value : Literal)
  /-- A use of a name as a value. -/
  | reference (name : String)
  /-- The constructor of a struct, applied to a reference. -/
  | construct (reference : NodeId)
  | arrayLiteral (components : List NodeId)
  | parenthesized (expression : NodeId)
  | fieldAccess (stem : NodeId) (field : String)
  | arrayAccess (array index : NodeId)
  | call (function : NodeId) (typeArgument : Option NodeId) (arguments : List NodeId)
  | unary (op : UnaryOp) (operand : NodeId)
  | binary (op : BinaryOp) (left right : NodeId)
  | assignment (left right : NodeId)
  /-- A use of a name as a type. -/
  | simpleType (name : String)
  | arrayType (component : NodeId)
  | root (statements : List NodeId)
  | block (statements : List NodeId)
  | varDecl (name : String) (type initializer : NodeId)
  | fieldDecl (name : String) (type : NodeId)
  | parameter (name : String) (type : NodeId)
  /-- A function; it is a template if it has a template parameter. -/
  | funDecl (name : String) (template : Option NodeId) (parameters : List NodeId)
      (returnType body : NodeId)
  | structDecl (name : String) (fields : List NodeId)
  | templateParam (name : String)
  | conditional (condition thenBranch : NodeId) (elseBranch : Option NodeId)
  | whileLoop (condition body : NodeId)
  | forLoop (init condition step body : NodeId)
  | returnStatement (expression : Option NodeId)
  | expressionStatement (expression : NodeId)
  | fact (name : String) (terms : List NodeId)
  | clause (head : NodeId) (body : List NodeId)
  | query (goal : NodeId)
  | atom (name : String) (terms : List NodeId)
deriving DecidableEq, Repr

namespace Node

/-- Equality of nodes: children by id, literals as numbers and texts. -/
def same : Node → Node → Bool
  | .literal a, .literal b => a.same b
  | a, b => a == b

/-- The parts of a node, in the order in which they are written. -/
def children : Node → List NodeId
  | literal _ | reference _ | simpleType _ | templateParam _ => []
  | construct child | parenthesized child | fieldAccess child _ | unary _ child
  | arrayType child | fieldDecl _ child | parameter _ child | expressionStatement child
  | query child => [child]
  | arrayAccess first second | binary _ first second | assignment first second
  | varDecl _ first second | whileLoop first second => [first, second]
  | arrayLiteral parts | root parts | block parts | structDecl _ parts | fact _ parts
  | atom _ parts => parts
  | call function typeArgument arguments => function :: typeArgument.toList ++ arguments
  | funDecl _ template parameters returnType body =>
    template.toList ++ parameters ++ [returnType, body]
  | conditional condition thenBranch elseBranch =>
    condition :: thenBranch :: elseBranch.toList
  | forLoop init condition step body => [init, condition, step, body]
  | returnStatement expression => expression.toList
  | clause head body => head :: body

/-- Whether a value can be assigned to the expression. -/
def isLvalue : Node → Bool
  | reference _ | fieldAccess .. | arrayAccess .. => true
  | _ => false

/-- Whether the statement carries a flag that says if control always leaves through it. -/
def isReturnContainer : Node → Bool
  | block _ | conditional .. | returnStatement _ => true
  | _ => false

def isFunction : Node → Bool
  | funDecl .. => true
  | _ => false

def isVariable : Node → Bool
  | varDecl .. => true
  | _ => false

def isTypeDecl : Node → Bool
  | structDecl .. | templateParam _ => true
  | _ => false

def isPredicate : Node → Bool
  | fact .. | clause .. => true
  | _ => false

/-- What kind of thing the node declares, in words. -/
def describe : Node → String
  | varDecl .. => "variable"
  | parameter .. => "parameter"
  | fieldDecl .. => "field"
  | funDecl .. => "function"
  | structDecl .. => "struct"
  | templateParam _ => "template parameter"
  | fact .. => "fact"
  | clause .. => "clause"
  | _ => "unknown"

end Node

end Attribution
