import Mathlib.Logic.Function.Basic
import Attribution.Cell
import Attribution.Ty.Relation
import Attribution.Ty.Substitution
/-!
# Renaming types

A renaming keeps names apart and leaves alone those that the language gives a meaning. Types know
structs and placeholders by their declarations, so no question about types sees the names in them.
-/
namespace Attribution

/-- A change of names that keeps different names different, the names of the built-ins and the one
field that arrays have. -/
structure Renaming where
  name : String → String
  injective : Function.Injective name
  builtin : ∀ b : Builtin, name b.name = b.name
  length : name "length" = "length"

instance : CoeFun Renaming fun _ => String → String := ⟨Renaming.name⟩

attribute [simp] Renaming.builtin Renaming.length

variable {f : Renaming}

@[simp] theorem Renaming.eq_iff {a b : String} : f a = f b ↔ a = b := f.injective.eq_iff

theorem Renaming.beq_eq {a b : String} : (f a == f b) = (a == b) := by
  rw [Bool.eq_iff_iff, beq_iff_eq, beq_iff_eq, f.eq_iff]

@[simp] theorem Renaming.eq_length_iff {a : String} : f a = "length" ↔ a = "length" := by
  have h : f a = f "length" ↔ a = "length" := f.eq_iff
  rwa [f.length] at h

def Placeholder.rename (f : Renaming) (p : Placeholder) : Placeholder := { p with name := f p.name }

@[simp] theorem Placeholder.same_rename (p q : Placeholder) :
    (p.rename f).same (q.rename f) = p.same q := rfl

namespace Ty

mutual
/-- The type with other names in its structs and placeholders. -/
def rename (f : Renaming) : Ty → Ty
  | array component => array (component.rename f)
  | struct decl name => struct decl (f name)
  | function params result => function (renameAll f params) (result.rename f)
  | generic p => generic (p.rename f)
  | t => t

def renameAll (f : Renaming) : List Ty → List Ty
  | [] => []
  | t :: ts => t.rename f :: renameAll f ts
end

theorem renameAll_eq_map (f : Renaming) (ts : List Ty) : renameAll f ts = ts.map (rename f) := by
  induction ts with
  | nil => rfl
  | cons t ts ih => rw [renameAll, ih, List.map_cons]

variable (a b t : Ty) (p : Placeholder)

mutual
@[simp] theorem same_rename (a b : Ty) : (a.rename f).same (b.rename f) = a.same b := by
  cases a with
  | array a =>
    cases b with
    | array b => exact same_rename a b
    | _ => rfl
  | function ps r =>
    cases b with
    | function qs s => simp only [rename, same, sameAll_rename ps qs, same_rename r s]
    | _ => rfl
  | _ => cases b <;> rfl

theorem sameAll_rename (as bs : List Ty) :
    sameAll (renameAll f as) (renameAll f bs) = sameAll as bs := by
  cases as with
  | nil => cases bs <;> rfl
  | cons a as =>
    cases bs with
    | nil => rfl
    | cons b bs => simp only [renameAll, sameAll, same_rename a b, sameAll_rename as bs]
end

@[simp] theorem isVoid_rename : (t.rename f).isVoid = t.isVoid := by cases t <;> rfl

@[simp] theorem isInt_rename : (t.rename f).isInt = t.isInt := by cases t <;> rfl

@[simp] theorem isBool_rename : (t.rename f).isBool = t.isBool := by cases t <;> rfl

@[simp] theorem isString_rename : (t.rename f).isString = t.isString := by cases t <;> rfl

@[simp] theorem isTerm_rename : (t.rename f).isTerm = t.isTerm := by cases t <;> rfl

@[simp] theorem isArray_rename : (t.rename f).isArray = t.isArray := by cases t <;> rfl

@[simp] theorem isNumeric_rename : (t.rename f).isNumeric = t.isNumeric := by cases t <;> rfl

@[simp] theorem isNullable_rename : (t.rename f).isNullable = t.isNullable := by cases t <;> rfl

@[simp] theorem isPlaceholder_rename : (t.rename f).isPlaceholder = t.isPlaceholder := by
  cases t <;> rfl

@[simp] theorem assignable_rename (a b : Ty) :
    (a.rename f).assignable (b.rename f) = a.assignable b := by
  cases a with
  | array a =>
    cases b with
    | array b => exact assignable_rename a b
    | _ => rfl
  | _ => cases b <;> first | rfl | exact same_rename _ _

@[simp] theorem comparable_rename : (a.rename f).comparable (b.rename f) = a.comparable b := by
  simp [comparable]

theorem commonSupertype_rename :
    commonSupertype (a.rename f) (b.rename f) = (commonSupertype a b).map (rename f) := by
  simp only [commonSupertype, assignable_rename]
  split
  · rfl
  · split <;> rfl

theorem arithmetic_rename (op : BinaryOp) :
    arithmetic op (a.rename f) (b.rename f) = (arithmetic op a b).map (rename f) := by
  simp only [arithmetic, isString_rename, isInt_rename, isNumeric_rename]
  split
  · rfl
  · split
    · rfl
    · split <;> rfl

mutual
theorem placeholder?_rename (t : Ty) :
    (t.rename f).placeholder? = t.placeholder?.map (Placeholder.rename f) := by
  cases t with
  | array component => exact placeholder?_rename component
  | function params result =>
    simp only [rename, placeholder?, firstPlaceholder?_rename params, placeholder?_rename result,
      Option.map_or]
  | _ => rfl

theorem firstPlaceholder?_rename (ts : List Ty) :
    firstPlaceholder? (renameAll f ts) = (firstPlaceholder? ts).map (Placeholder.rename f) := by
  cases ts with
  | nil => rfl
  | cons t ts =>
    simp only [renameAll, firstPlaceholder?, placeholder?_rename t, firstPlaceholder?_rename ts,
      Option.map_or]
end

mutual
theorem substitute_rename (p : Placeholder) (concrete t : Ty) :
    (t.rename f).substitute (p.rename f) (concrete.rename f) =
      (t.substitute p concrete).rename f := by
  cases t with
  | generic q =>
    simp only [rename, substitute, Placeholder.same_rename]
    by_cases hsame : q.same p <;> simp [hsame, rename]
  | array component => simp only [rename, substitute, substitute_rename p concrete component]
  | function params result =>
    simp only [rename, substitute, substituteAll_rename p concrete params,
      substitute_rename p concrete result]
  | _ => rfl

theorem substituteAll_rename (p : Placeholder) (concrete : Ty) (ts : List Ty) :
    substituteAll (renameAll f ts) (p.rename f) (concrete.rename f) =
      renameAll f (substituteAll ts p concrete) := by
  cases ts with
  | nil => rfl
  | cons t ts =>
    simp only [renameAll, substituteAll, substitute_rename p concrete t,
      substituteAll_rename p concrete ts]
end

theorem params_rename (t : Ty) : (t.rename f).params = t.params.map (rename f) := by
  cases t with
  | function params result => exact renameAll_eq_map f params
  | _ => rfl

theorem isPlaceholderOf_rename (p : Placeholder) (t : Ty) :
    (t.rename f).isPlaceholderOf (p.rename f) = t.isPlaceholderOf p := by
  cases t <;> rfl

end Ty

theorem concreteFor?_rename (p : Placeholder) (explicit : Option Ty) (params arguments : List Ty) :
    concreteFor? (p.rename f) (explicit.map (Ty.rename f)) (params.map (Ty.rename f))
      (arguments.map (Ty.rename f)) =
        (concreteFor? p explicit params arguments).map (Ty.rename f) := by
  have hfirst : (((params.map (Ty.rename f)).zip (arguments.map (Ty.rename f))).find? fun pair =>
      pair.1.isPlaceholderOf (p.rename f)).map Prod.snd =
        (((params.zip arguments).find? fun pair => pair.1.isPlaceholderOf p).map Prod.snd).map
          (Ty.rename f) := by
    have htest : (fun pair : Ty × Ty => pair.1.isPlaceholderOf (p.rename f)) ∘
        Prod.map (Ty.rename f) (Ty.rename f) = fun pair => pair.1.isPlaceholderOf p :=
      funext fun pair => Ty.isPlaceholderOf_rename p pair.1
    rw [List.zip_map, List.find?_map, htest]
    cases (params.zip arguments).find? fun pair => pair.1.isPlaceholderOf p <;> rfl
  rw [concreteFor?, concreteFor?, hfirst, Option.map_or]

def Instance.rename (f : Renaming) (chosen : Instance) : Instance where
  callee := chosen.callee.rename f
  binding := chosen.binding.map fun (p, concrete) => (p.rename f, concrete.rename f)

theorem instantiate_rename (callee : Ty) (explicit : Option Ty) (arguments : List Ty) :
    instantiate (callee.rename f) (explicit.map (Ty.rename f)) (arguments.map (Ty.rename f)) =
      (instantiate callee explicit arguments).rename f := by
  unfold instantiate
  rw [Ty.placeholder?_rename]
  cases callee.placeholder? with
  | none => rfl
  | some p =>
    simp only [Option.map_some, Ty.params_rename, concreteFor?_rename]
    cases concreteFor? p explicit callee.params arguments with
    | none => rfl
    | some concrete =>
      simp only [Option.map_some, Ty.substitute_rename]
      rfl

def Value.rename (f : Renaming) : Value → Value
  | .type t => .type (t.rename f)
  | value => value

def View.rename (f : Renaming) (view : View) : View := fun cell => (view cell).map (Value.rename f)

namespace View

variable (view : View) (id : NodeId)

theorem bind_type?_rename (value : Option Value) :
    (value.map (Value.rename f)).bind Value.type? = (value.bind Value.type?).map (Ty.rename f) := by
  cases value with
  | none => rfl
  | some value => cases value <;> rfl

@[simp] theorem type?_rename : (view.rename f).type? id = (view.type? id).map (Ty.rename f) :=
  bind_type?_rename _

@[simp] theorem value?_rename : (view.rename f).value? id = (view.value? id).map (Ty.rename f) :=
  bind_type?_rename _

@[simp] theorem declared?_rename :
    (view.rename f).declared? id = (view.declared? id).map (Ty.rename f) := bind_type?_rename _

theorem bind_rename {α : Type} {read : Value → Option α}
    (hread : ∀ value : Value, read (value.rename f) = read value) (value : Option Value) :
    (value.map (Value.rename f)).bind read = value.bind read := by
  cases value with
  | none => rfl
  | some value => exact hread value

@[simp] theorem decl?_rename : (view.rename f).decl? id = view.decl? id :=
  bind_rename (fun value => by cases value <;> rfl) _

@[simp] theorem returns?_rename : (view.rename f).returns? id = view.returns? id :=
  bind_rename (fun value => by cases value <;> rfl) _

@[simp] theorem index?_rename : (view.rename f).index? id = view.index? id :=
  bind_rename (fun value => by cases value <;> rfl) _

end View
end Attribution
