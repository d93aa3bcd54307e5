import Attribution.Ty.Basic
/-!
# Substitution

A template declares one placeholder. A call puts a concrete type in its place throughout the type
of the callee; the declaration itself is never changed.
-/
namespace Attribution
namespace Ty

mutual
/-- The first placeholder that occurs in a type. -/
def placeholder? : Ty → Option Placeholder
  | generic p => some p
  | array component => component.placeholder?
  | function params result => (firstPlaceholder? params).or result.placeholder?
  | _ => none

def firstPlaceholder? : List Ty → Option Placeholder
  | [] => none
  | t :: ts => t.placeholder?.or (firstPlaceholder? ts)
end

mutual
/-- The type with every occurrence of a placeholder replaced by a concrete type. -/
def substitute (t : Ty) (p : Placeholder) (concrete : Ty) : Ty :=
  match t with
  | generic q => if q.same p then concrete else generic q
  | array component => array (component.substitute p concrete)
  | function params result =>
    function (substituteAll params p concrete) (result.substitute p concrete)
  | t => t

def substituteAll (ts : List Ty) (p : Placeholder) (concrete : Ty) : List Ty :=
  match ts with
  | [] => []
  | t :: ts => t.substitute p concrete :: substituteAll ts p concrete
end

theorem substituteAll_eq_map (ts : List Ty) (p : Placeholder) (concrete : Ty) :
    substituteAll ts p concrete = ts.map fun t => t.substitute p concrete := by
  induction ts with
  | nil => rfl
  | cons t ts ih => rw [substituteAll, ih, List.map_cons]

/-- The parameter types of a function type; any other type has none. -/
def params : Ty → List Ty
  | function params _ => params
  | _ => []

def isPlaceholderOf (p : Placeholder) : Ty → Bool
  | generic q => q.same p
  | _ => false

end Ty

/-- The type of a callee after a call has chosen a type for its placeholder, if it did. -/
structure Instance where
  callee : Ty
  /-- The placeholder and the type that stands for it. -/
  binding : Option (Placeholder × Ty) := none
deriving Repr

/-- The type that a call gives to a placeholder: the explicit one, else that of the first argument
whose parameter is the placeholder itself. -/
def concreteFor? (p : Placeholder) (explicit : Option Ty) (params arguments : List Ty) :
    Option Ty :=
  explicit.or (((params.zip arguments).find? fun pair => pair.1.isPlaceholderOf p).map Prod.snd)

/-- Choose a type for the first placeholder of a callee and put it in its place. Without a
placeholder, or without a type for it, the callee stays as it is. -/
def instantiate (callee : Ty) (explicit : Option Ty) (arguments : List Ty) : Instance :=
  match callee.placeholder? with
  | none => { callee }
  | some p =>
    match concreteFor? p explicit callee.params arguments with
    | none => { callee }
    | some concrete =>
      { callee := callee.substitute p concrete, binding := some (p, concrete) }

end Attribution
