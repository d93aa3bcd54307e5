import Attribution.Proofs.Ty.Stability
import Attribution.Proofs.Ty.Occurrence
/-!
# Operations on types that are the same

Types are the same if they are equal but for the names of structs and placeholders and the functions
that own these. No operation on types looks at a name or an owner: for types that are the same, all
of them give the same answers and types that are the same, or fail for both.
-/
namespace Attribution

theorem Placeholder.same_congr {p q : Placeholder} (h : p.same q) (r : Placeholder) :
    r.same p = r.same q :=
  congrArg (r.decl == ·) (beq_iff_eq.mp h)

namespace Ty

mutual
/-- The type without names, and with no function for the owner of its placeholders. -/
def unnamed : Ty → Ty
  | array component => array component.unnamed
  | struct decl _ => struct decl ""
  | function params result => function (unnamedAll params) result.unnamed
  | generic p => generic { decl := p.decl, function := 0, name := "" }
  | t => t

def unnamedAll : List Ty → List Ty
  | [] => []
  | t :: ts => t.unnamed :: unnamedAll ts
end

mutual
/-- Sameness is equality but for names and owners. -/
theorem same_iff_unnamed (a b : Ty) : a.same b ↔ a.unnamed = b.unnamed := by
  cases a with
  | array a =>
    cases b with
    | array b => simp [same, unnamed, same_iff_unnamed a b]
    | _ => simp [same, unnamed]
  | struct decl name =>
    cases b with
    | struct other name' => simp [same, unnamed]
    | _ => simp [same, unnamed]
  | function ps r =>
    cases b with
    | function qs s => simp [same, unnamed, sameAll_iff_unnamedAll ps qs, same_iff_unnamed r s]
    | _ => simp [same, unnamed]
  | generic p =>
    cases b with
    | generic q => simp [same, unnamed, Placeholder.same]
    | _ => simp [same, unnamed]
  | _ => cases b <;> simp [same, unnamed]

theorem sameAll_iff_unnamedAll (as bs : List Ty) :
    sameAll as bs ↔ unnamedAll as = unnamedAll bs := by
  cases as with
  | nil => cases bs <;> simp [sameAll, unnamedAll]
  | cons a as =>
    cases bs with
    | nil => simp [sameAll, unnamedAll]
    | cons b bs => simp [sameAll, unnamedAll, same_iff_unnamed a b, sameAll_iff_unnamedAll as bs]
end

variable {a a' b b' : Ty} {p q : Placeholder}

theorem congr_of_unnamed {α : Type} {f : Ty → α} (hf : ∀ t, f t.unnamed = f t) (h : a.same a') :
    f a = f a' := by
  rw [← hf a, ← hf a', (same_iff_unnamed a a').mp h]

theorem isVoid_congr (h : a.same a') : a.isVoid = a'.isVoid :=
  congr_of_unnamed (fun t => by cases t <;> rfl) h

theorem isInt_congr (h : a.same a') : a.isInt = a'.isInt :=
  congr_of_unnamed (fun t => by cases t <;> rfl) h

theorem isString_congr (h : a.same a') : a.isString = a'.isString :=
  congr_of_unnamed (fun t => by cases t <;> rfl) h

theorem isNumeric_congr (h : a.same a') : a.isNumeric = a'.isNumeric :=
  congr_of_unnamed (fun t => by cases t <;> rfl) h

theorem isReference_congr (h : a.same a') : a.isReference = a'.isReference :=
  congr_of_unnamed (fun t => by cases t <;> rfl) h

theorem isNullable_congr (h : a.same a') : a.isNullable = a'.isNullable :=
  congr_of_unnamed (fun t => by cases t <;> rfl) h

theorem same_congr_both (ha : a.same a') (hb : b.same b') : a.same b = a'.same b' := by
  rw [same_congr a hb, same_comm a, same_congr b' ha, same_comm]

theorem assignable_congr_both (ha : a.same a') (hb : b.same b') :
    a.assignable b = a'.assignable b' :=
  (assignable_congr a hb).trans (assignable_congr_left ha b')

theorem comparable_congr (ha : a.same a') (hb : b.same b') :
    a.comparable b = a'.comparable b' := by
  simp only [comparable, isVoid_congr ha, isVoid_congr hb, isNullable_congr ha, isNullable_congr hb,
    isNumeric_congr ha, isNumeric_congr hb, same_congr_both ha hb]

theorem commonSupertype_congr (ha : a.same a') (hb : b.same b') :
    Option.Rel (fun s t => s.same t) (commonSupertype a b) (commonSupertype a' b') := by
  unfold commonSupertype
  rw [assignable_congr_both ha hb, assignable_congr_both hb ha]
  split
  · exact .some hb
  · split
    · exact .some ha
    · exact .none

theorem arithmetic_congr (op : BinaryOp) (ha : a.same a') (hb : b.same b') :
    arithmetic op a b = arithmetic op a' b' := by
  simp only [arithmetic, isString_congr ha, isString_congr hb, isInt_congr ha, isInt_congr hb,
    isNumeric_congr ha, isNumeric_congr hb]

theorem option_rel_or {α : Type} {r : α → α → Prop} {x x' y y' : Option α}
    (hx : Option.Rel r x x') (hy : Option.Rel r y y') : Option.Rel r (x.or y) (x'.or y') := by
  cases hx with
  | some h => exact .some h
  | none => exact hy

mutual
theorem placeholder?_congr {a a' : Ty} (h : a.same a') :
    Option.Rel (fun p q => p.same q) a.placeholder? a'.placeholder? := by
  cases a with
  | generic p =>
    cases a' with
    | generic q => exact .some h
    | _ => cases h
  | array a =>
    cases a' with
    | array a' => exact @placeholder?_congr a a' h
    | _ => cases h
  | function ps r =>
    cases a' with
    | function qs s =>
      obtain ⟨hparams, hresult⟩ := Bool.and_eq_true_iff.mp h
      exact option_rel_or (firstPlaceholder?_congr hparams) (placeholder?_congr hresult)
    | _ => cases h
  | _ => cases a' <;> first | exact .none | cases h

theorem firstPlaceholder?_congr {as bs : List Ty} (h : sameAll as bs) :
    Option.Rel (fun p q => p.same q) (firstPlaceholder? as) (firstPlaceholder? bs) := by
  cases as with
  | nil =>
    cases bs with
    | nil => exact .none
    | cons _ _ => cases h
  | cons a as =>
    cases bs with
    | nil => cases h
    | cons b bs =>
      obtain ⟨hfirst, hrest⟩ := Bool.and_eq_true_iff.mp h
      exact option_rel_or (placeholder?_congr hfirst) (firstPlaceholder?_congr hrest)
end

mutual
theorem same_substitute_substitute (hp : p.same q) (hb : b.same b') (t : Ty) :
    (t.substitute p b).same (t.substitute q b') := by
  cases t with
  | generic r =>
    rw [substitute, substitute, Placeholder.same_congr hp r]
    split
    · exact hb
    · exact same_refl _
  | array component => exact same_substitute_substitute hp hb component
  | function params result =>
    exact Bool.and_eq_true_iff.mpr ⟨sameAll_substituteAll_substituteAll hp hb params,
      same_substitute_substitute hp hb result⟩
  | _ => exact same_refl _

theorem sameAll_substituteAll_substituteAll (hp : p.same q) (hb : b.same b') (ts : List Ty) :
    sameAll (substituteAll ts p b) (substituteAll ts q b') := by
  cases ts with
  | nil => rfl
  | cons t ts =>
    exact Bool.and_eq_true_iff.mpr ⟨same_substitute_substitute hp hb t,
      sameAll_substituteAll_substituteAll hp hb ts⟩
end

theorem substitute_congr_both (ha : a.same a') (hp : p.same q) (hb : b.same b') :
    (a.substitute p b).same (a'.substitute q b') :=
  same_trans (substitute_congr p b ha) (same_substitute_substitute hp hb a')

theorem params_congr (h : a.same a') : sameAll a.params a'.params := by
  cases a with
  | function ps r =>
    cases a' with
    | function qs s => exact (Bool.and_eq_true_iff.mp h).1
    | _ => cases h
  | _ => cases a' <;> first | rfl | cases h

theorem isPlaceholderOf_congr (ha : a.same a') (hp : p.same q) :
    a.isPlaceholderOf p = a'.isPlaceholderOf q := by
  cases a with
  | generic r =>
    cases a' with
    | generic s =>
      rw [isPlaceholderOf, isPlaceholderOf, Placeholder.same_congr hp, r.same_comm, s.same_comm]
      exact Placeholder.same_congr ha q
    | _ => cases ha
  | _ => cases a' <;> first | rfl | cases ha

end Ty

open Ty

/-- The instances have callees that are the same, and bind placeholders and types that are the same
or nothing. -/
structure Instance.Same (one other : Instance) : Prop where
  callee : one.callee.same other.callee
  binding : Option.Rel (fun c d => c.1.same d.1 ∧ c.2.same d.2) one.binding other.binding

variable {p q : Placeholder} {explicit explicit' : Option Ty} {arguments arguments' : List Ty}

theorem firstTaken_congr (hp : p.same q) {params params' : List Ty}
    (hparams : sameAll params params') (harguments : sameAll arguments arguments') :
    Option.Rel (fun s t => s.same t)
      (((params.zip arguments).find? fun pair => pair.1.isPlaceholderOf p).map Prod.snd)
      (((params'.zip arguments').find? fun pair => pair.1.isPlaceholderOf q).map Prod.snd) := by
  -- both lists of parameters end together, and so do both lists of arguments
  induction params generalizing params' arguments arguments' with
  | nil =>
    cases params' with
    | nil => exact .none
    | cons _ _ => cases hparams
  | cons param params ih =>
    cases params' with
    | nil => cases hparams
    | cons param' params' =>
      cases arguments with
      | nil =>
        cases arguments' with
        | nil => exact .none
        | cons _ _ => cases harguments
      | cons argument arguments =>
        cases arguments' with
        | nil => cases harguments
        | cons argument' arguments' =>
          obtain ⟨hparam, hparams⟩ := Bool.and_eq_true_iff.mp hparams
          obtain ⟨hargument, harguments⟩ := Bool.and_eq_true_iff.mp harguments
          rw [List.zip_cons_cons, List.zip_cons_cons, List.find?_cons, List.find?_cons]
          simp only [isPlaceholderOf_congr hparam hp]
          split
          · exact .some hargument
          · exact ih hparams harguments

theorem concreteFor?_congr_all (hp : p.same q)
    (hexplicit : Option.Rel (fun s t => s.same t) explicit explicit') {params params' : List Ty}
    (hparams : sameAll params params') (harguments : sameAll arguments arguments') :
    Option.Rel (fun s t => s.same t) (concreteFor? p explicit params arguments)
      (concreteFor? q explicit' params' arguments') :=
  option_rel_or hexplicit (firstTaken_congr hp hparams harguments)

theorem instantiate_congr {callee callee' : Ty} (hcallee : callee.same callee')
    (hexplicit : Option.Rel (fun s t => s.same t) explicit explicit')
    (harguments : sameAll arguments arguments') :
    (instantiate callee explicit arguments).Same (instantiate callee' explicit' arguments') := by
  have hfirst := placeholder?_congr hcallee
  unfold instantiate
  generalize callee.placeholder? = first, callee'.placeholder? = first' at hfirst
  cases hfirst with
  | none => exact ⟨hcallee, .none⟩
  | @some p q hp =>
    have hchosen := concreteFor?_congr_all hp hexplicit (params_congr hcallee) harguments
    dsimp only
    generalize concreteFor? p explicit callee.params arguments = chosen,
      concreteFor? q explicit' callee'.params arguments' = chosen' at hchosen
    cases hchosen with
    | none => exact ⟨hcallee, .none⟩
    | some hconcrete => exact ⟨substitute_congr_both hcallee hp hconcrete, .some ⟨hp, hconcrete⟩⟩

/-- No operation on types tells types apart that are the same: the answers are equal, the types and
placeholders that come out are the same, and where one gives nothing so does the other. -/
theorem Ty.operations_respect_same {a a' b b' : Ty} (ha : a.same a') (hb : b.same b') :
    (a.assignable b = a'.assignable b' ∧ a.comparable b = a'.comparable b' ∧
      a.isReference = a'.isReference ∧ a.isNumeric = a'.isNumeric ∧ a.isVoid = a'.isVoid) ∧
    Option.Rel (fun s t => s.same t) (commonSupertype a b) (commonSupertype a' b') ∧
    (∀ op, arithmetic op a b = arithmetic op a' b') ∧
    Option.Rel (fun p q => p.same q) a.placeholder? a'.placeholder? ∧
    (∀ p q : Placeholder, p.same q → (a.substitute p b).same (a'.substitute q b')) ∧
    ∀ (explicit explicit' : Option Ty) (arguments arguments' : List Ty),
      Option.Rel (fun s t => s.same t) explicit explicit' → sameAll arguments arguments' →
      (instantiate a explicit arguments).Same (instantiate a' explicit' arguments') :=
  ⟨⟨assignable_congr_both ha hb, comparable_congr ha hb, isReference_congr ha, isNumeric_congr ha,
      isVoid_congr ha⟩,
    commonSupertype_congr ha hb, fun op => arithmetic_congr op ha hb, placeholder?_congr ha,
    fun _ _ hp => substitute_congr_both ha hp hb,
    fun _ _ _ _ hexplicit harguments => instantiate_congr ha hexplicit harguments⟩

/-- Two types of one template that differ in names and owners. Calls of both put in the type of
their second arguments, which differ in a name themselves. -/
theorem Ty.operations_respect_same_renamed :
    let t : Placeholder := { decl := 1, function := 0, name := "T" }
    let u : Placeholder := { decl := 1, function := 7, name := "U" }
    let callee := function [array (struct 5 "Point"), generic t] (array (generic t))
    let renamed := function [array (struct 5 "Pair"), generic u] (array (generic t))
    let arguments := [array (struct 5 "Point"), struct 5 "Point"]
    let others := [array (struct 5 "Pair"), struct 5 "Pair"]
    callee.same renamed ∧ sameAll arguments others ∧
      (instantiate callee none arguments).Same (instantiate renamed none others) ∧
      (instantiate callee none arguments).binding = some (t, struct 5 "Point") := by
  intro t u callee renamed arguments others
  have hcallee : callee.same renamed := rfl
  have harguments : sameAll arguments others := rfl
  obtain ⟨_, _, _, _, _, hinstantiate⟩ := Ty.operations_respect_same hcallee (same_refl void)
  exact ⟨hcallee, harguments, hinstantiate none none arguments others .none harguments, rfl⟩

end Attribution
