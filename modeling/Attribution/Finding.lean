import Attribution.Tree.Basic
import Attribution.Ty.Basic
/-!
# Findings

What the analysis has to say about a node: the cause, from which the kind and the wording follow.
-/
namespace Attribution

/-- The kinds of findings, in the order in which they sort. -/
inductive FindingKind where
  | unresolvedName
  | usedBeforeDeclaration
  | duplicateDeclaration
  | notAType
  | typeMismatch
  | arityMismatch
  | invalidOperandType
  | invalidFieldAccess
  | invalidIndexing
  | invalidCallTarget
  | invalidConstructorTarget
  | invalidArrayLiteral
  | missingReturn
  | invalidAssignmentTarget
  | genericParameterName
  | genericBodyShape
  | nonTermArgument
deriving DecidableEq, Repr

namespace FindingKind

def all : List FindingKind :=
  [unresolvedName, usedBeforeDeclaration, duplicateDeclaration, notAType, typeMismatch,
    arityMismatch, invalidOperandType, invalidFieldAccess, invalidIndexing, invalidCallTarget,
    invalidConstructorTarget, invalidArrayLiteral, missingReturn, invalidAssignmentTarget,
    genericParameterName, genericBodyShape, nonTermArgument]

def position (kind : FindingKind) : Nat := all.idxOf kind

theorem all_position (kind : FindingKind) : all[kind.position]? = some kind := by
  cases kind <;> rfl

/-- The heading under which findings of a kind are reported. -/
def title : FindingKind → String
  | unresolvedName | usedBeforeDeclaration | duplicateDeclaration | notAType =>
    "Name resolution error"
  | missingReturn => "Control flow error"
  | genericParameterName | genericBodyShape => "Template error"
  | nonTermArgument => "Logic declaration error"
  | _ => "Type error"

end FindingKind

/-- The places where a control statement asks for a type of its own. -/
inductive Control where
  | ifCondition
  | whileCondition
  | forInit
  | forCondition
  | forStep
deriving DecidableEq, Repr

namespace Control

def type : Control → Ty
  | ifCondition | whileCondition | forCondition => .bool
  | forInit | forStep => .int

/-- How an expression of another type is called in this place. -/
def complaint : Control → String
  | ifCondition => "non-boolean if condition"
  | whileCondition => "non-boolean while condition"
  | forInit => "non-Int for loop counter"
  | forCondition => "non-boolean for loop condition"
  | forStep => "non-Int for loop step"

end Control

namespace UnaryOp

/-- The type that the operator asks for and yields. -/
def type : UnaryOp → Ty
  | not => .bool
  | increment | decrement => .int

def verb : UnaryOp → String
  | not => "negate"
  | increment => "increment"
  | decrement => "decrement"

end UnaryOp

/-- Why a finding is made. -/
inductive Cause where
  | unresolved (name : String)
  | usedBeforeDeclaration (name : String)
  | duplicate (name : String)
  /-- A type name that stands for something else, which is described in words. -/
  | notAType (name description : String)
  | predicateAsValue (name : String)
  /-- A predicate is declared again with another number of terms. -/
  | redeclaredArity (name : String) (expected found : Nat)
  | atomArity (name : String) (expected found : Nat)
  | argument (position : Nat) (expected found : Ty)
  | initializer (name : String) (expected found : Ty)
  | assignment (expected found : Ty)
  | assignmentTarget
  | returnType (expected found : Ty)
  | returnWithoutValue (expected : Ty)
  | returnWithValue
  | control (place : Control) (found : Ty)
  | argumentCount (expected found : Nat)
  | unaryOperand (op : UnaryOp) (found : Ty)
  | arithmeticOperands (op : BinaryOp) (left right : Ty)
  | comparisonOperand (found : Ty)
  | logicOperand (found : Ty)
  | incomparable (left right : Ty)
  | fieldOfArray (field : String)
  | missingField (field struct : String)
  | fieldOfOther (found : Ty)
  | indexType (found : Ty)
  | indexedType (found : Ty)
  | callTarget (found : Ty)
  /-- A constructor is applied to something other than a struct. -/
  | constructorTarget (name description : String)
  | voidElement
  | noCommonSupertype (left right : Ty)
  | onlyVoidElements
  | emptyArray (expected : Ty)
  | missingReturn (function : String)
  | templateParameter (expected found : String)
  | concatenationBody
  | nonTerm (found : Ty)
  /-- A finding of the caller, in the caller's words. -/
  | stated (kind : FindingKind) (message : String)
deriving Repr

namespace Cause

def kind : Cause → FindingKind
  | unresolved _ => .unresolvedName
  | usedBeforeDeclaration _ => .usedBeforeDeclaration
  | duplicate _ => .duplicateDeclaration
  | notAType _ _ => .notAType
  | predicateAsValue _ | argument .. | initializer .. | assignment _ _ | returnType _ _
  | returnWithoutValue _ | returnWithValue | control _ _ => .typeMismatch
  | redeclaredArity .. | atomArity .. | argumentCount _ _ => .arityMismatch
  | unaryOperand _ _ | arithmeticOperands .. | comparisonOperand _ | logicOperand _
  | incomparable _ _ => .invalidOperandType
  | fieldOfArray _ | missingField _ _ | fieldOfOther _ => .invalidFieldAccess
  | indexType _ | indexedType _ => .invalidIndexing
  | callTarget _ => .invalidCallTarget
  | constructorTarget _ _ => .invalidConstructorTarget
  | voidElement | noCommonSupertype _ _ | onlyVoidElements | emptyArray _ => .invalidArrayLiteral
  | missingReturn _ => .missingReturn
  | assignmentTarget => .invalidAssignmentTarget
  | templateParameter _ _ => .genericParameterName
  | concatenationBody => .genericBodyShape
  | nonTerm _ => .nonTermArgument
  | stated kind _ => kind

def message : Cause → String
  | unresolved name => "could not resolve: " ++ name
  | usedBeforeDeclaration name => "variable used before declaration: " ++ name
  | duplicate name => name ++ " is already declared in this scope"
  | notAType name description =>
    name ++ " did not resolve to a type declaration but to a " ++ description ++ " declaration"
  | predicateAsValue name => name ++ " is a logic predicate and cannot be used as a value"
  | redeclaredArity name expected found =>
    "predicate " ++ name ++ " was declared with " ++ toString expected ++ " terms, got " ++
      toString found
  | atomArity name expected found =>
    "predicate " ++ name ++ " expects " ++ toString expected ++ " terms but got " ++
      toString found
  | argument position expected found =>
    "incompatible argument provided for argument " ++ toString position ++ ": expected " ++
      expected.display ++ " but got " ++ found.display
  | initializer name expected found =>
    "incompatible initializer type provided for variable `" ++ name ++ "`: expected " ++
      expected.display ++ " but got " ++ found.display
  | assignment expected found =>
    "cannot assign a value of type " ++ found.display ++ " to an lvalue of type " ++
      expected.display
  | assignmentTarget => "trying to assign to a non-lvalue expression"
  | returnType expected found =>
    "incompatible return type, expected " ++ expected.display ++ " but got " ++ found.display
  | returnWithoutValue expected =>
    "return without value in a function returning " ++ expected.display
  | returnWithValue => "return with value in a Void function"
  | control place found => place.complaint ++ " of type: " ++ found.display
  | argumentCount expected found =>
    "wrong number of arguments, expected " ++ toString expected ++ " but got " ++ toString found
  | unaryOperand op found => "trying to " ++ op.verb ++ " type: " ++ found.display
  | arithmeticOperands op left right =>
    "trying to " ++ op.verb ++ " " ++ left.display ++ " with " ++ right.display
  | comparisonOperand found =>
    "attempting to perform arithmetic comparison on non-numeric type: " ++ found.display
  | logicOperand found =>
    "attempting to perform binary logic on non-boolean type: " ++ found.display
  | incomparable left right =>
    "trying to compare incomparable types " ++ left.display ++ " and " ++ right.display
  | fieldOfArray field => "trying to access a non-length field on an array: " ++ field
  | missingField field struct =>
    "trying to access missing field " ++ field ++ " on struct " ++ struct
  | fieldOfOther found => "trying to access a field on an expression of type " ++ found.display
  | indexType found =>
    "indexing an array using a non-Int-valued expression of type " ++ found.display
  | indexedType found => "trying to index a non-array expression of type " ++ found.display
  | callTarget found => "trying to call a non-function expression of type " ++ found.display
  | constructorTarget name description =>
    "applying the constructor operator ($) to a non-struct reference: " ++ name ++ " is a " ++
      description
  | voidElement => "void-valued expression in array literal"
  | noCommonSupertype left right =>
    "could not find common supertype in array literal: " ++ left.display ++ " and " ++
      right.display
  | onlyVoidElements =>
    "could not find common supertype in array literal: all members have Void type"
  | emptyArray expected => "empty array literal used where " ++ expected.display ++ " is expected"
  | missingReturn function => "missing return in function `" ++ function ++ "`"
  | templateParameter expected found =>
    expected ++ " should be used as template parameter instead of " ++ found
  | concatenationBody =>
    "a template instantiated with String must return a single `+` expression"
  | nonTerm found =>
    "non term type found where term type required instead of " ++ found.display
  | stated _ message => message

end Cause

structure Finding where
  node : NodeId
  cause : Cause
deriving Repr

namespace Finding

def kind (finding : Finding) : FindingKind := finding.cause.kind

def message (finding : Finding) : String := finding.cause.message

/-- Findings sort by kind, then by node, then by wording. -/
def order (a b : Finding) : Ordering :=
  (compare a.kind.position b.kind.position).then <|
    (compare a.node b.node).then (compare a.message b.message)

/-- The findings in their order; equal ones stay as they came. -/
def sorted (findings : List Finding) : List Finding :=
  findings.mergeSort fun a b => (a.order b).isLE

end Finding

end Attribution
