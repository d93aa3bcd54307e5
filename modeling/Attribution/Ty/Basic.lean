import Attribution.Tree.Node
/-!
# Types

The types that the analysis computes. A struct and a placeholder are known by their declaration:
the names that they carry serve messages only, so `Ty.same` is coarser than equality of terms.
-/
namespace Attribution

/-- The type that stands for the parameter of a template. -/
structure Placeholder where
  decl : NodeId
  /-- The function that owns the scope of the parameter. -/
  function : NodeId
  name : String
deriving DecidableEq, Repr

/-- Two placeholders are the same if the same parameter declares them. -/
def Placeholder.same (p q : Placeholder) : Bool := p.decl == q.decl

inductive Ty where
  | int
  | float
  | bool
  | string
  | void
  | null
  /-- A symbol or variable of a logic declaration. -/
  | term
  /-- The type of an expression that denotes a type. -/
  | metatype
  | array (component : Ty)
  | struct (decl : NodeId) (name : String)
  | function (params : List Ty) (result : Ty)
  | generic (placeholder : Placeholder)
deriving Repr

namespace Ty

mutual
/-- Equality of types: structs and placeholders by declaration, at any depth. -/
def same : Ty → Ty → Bool
  | int, int | float, float | bool, bool | string, string | void, void | null, null
  | term, term | metatype, metatype => true
  | array a, array b => a.same b
  | struct a _, struct b _ => a == b
  | function ps r, function qs s => sameAll ps qs && r.same s
  | generic p, generic q => p.same q
  | _, _ => false

def sameAll : List Ty → List Ty → Bool
  | [], [] => true
  | a :: as, b :: bs => a.same b && sameAll as bs
  | _, _ => false
end

mutual
@[simp] theorem same_refl (t : Ty) : t.same t = true := by
  cases t with
  | array a => simp [same, same_refl a]
  | function ps r => simp [same, sameAll_refl ps, same_refl r]
  | _ => simp [same, Placeholder.same]

@[simp] theorem sameAll_refl (ts : List Ty) : sameAll ts ts = true := by
  cases ts with
  | nil => rfl
  | cons t ts => simp [sameAll, same_refl t, sameAll_refl ts]
end

/-- The name that an outside reader sees in messages. -/
def display : Ty → String
  | int => "Int"
  | float => "Float"
  | bool => "Bool"
  | string => "String"
  | void => "Void"
  | null => "Null"
  | term => "Term"
  | metatype => "Type"
  | array component => component.display ++ "[]"
  | struct _ name => name
  | function params result => "(" ++ ", ".intercalate (names params) ++ ") -> " ++ result.display
  | generic placeholder => placeholder.name
where
  names : List Ty → List String
    | [] => []
    | t :: ts => t.display :: names ts

def isVoid : Ty → Bool
  | void => true
  | _ => false

def isInt : Ty → Bool
  | int => true
  | _ => false

def isBool : Ty → Bool
  | bool => true
  | _ => false

def isString : Ty → Bool
  | string => true
  | _ => false

def isNull : Ty → Bool
  | null => true
  | _ => false

def isTerm : Ty → Bool
  | term => true
  | _ => false

def isArray : Ty → Bool
  | array _ => true
  | _ => false

def isNumeric : Ty → Bool
  | int | float => true
  | _ => false

/-- Values of structs, arrays and strings are references, and so may be null. -/
def isReference : Ty → Bool
  | struct _ _ | array _ | string => true
  | _ => false

def isNullable (t : Ty) : Bool := t.isReference || t.isNull

/-- Whether the type is a placeholder itself, as opposed to mentioning one. -/
def isPlaceholder : Ty → Bool
  | generic _ => true
  | _ => false

end Ty

def Literal.type : Literal → Ty
  | .int _ => .int
  | .float _ => .float
  | .string _ => .string
  | .term _ => .term

end Attribution
