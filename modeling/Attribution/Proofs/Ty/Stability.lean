import Attribution.Proofs.Ty.Order
/-!
# Substitution and the relations between types

A template is checked once, with its placeholder for a type. What was found there of its types, that
one can be assigned to or compared with another and what type they share, holds for every type that
a call puts in for the placeholder, provided that this type can be assigned to itself.
-/
namespace Attribution
namespace Ty

variable (p : Placeholder) (concrete : Ty)

mutual
theorem substitute_congr {a b : Ty} (h : a.same b) :
    (a.substitute p concrete).same (b.substitute p concrete) := by
  cases a with
  | generic q =>
    cases b with
    | generic r =>
      have hp : q.same p = r.same p := congrArg (· == p.decl) (beq_iff_eq.mp h)
      rw [substitute, substitute, hp]
      cases r.same p with
      | true => exact same_refl concrete
      | false => exact h
    | _ => cases h
  | array a =>
    cases b with
    | array b => exact substitute_congr (a := a) (b := b) h
    | _ => cases h
  | function ps r =>
    cases b with
    | function qs s =>
      obtain ⟨hparams, hresult⟩ := Bool.and_eq_true_iff.mp h
      exact Bool.and_eq_true_iff.mpr ⟨substituteAll_congr hparams, substitute_congr hresult⟩
    | _ => cases h
  | struct decl name =>
    cases b with
    | struct other name' => exact h
    | _ => cases h
  | _ => cases b <;> first | rfl | cases h

theorem substituteAll_congr {as bs : List Ty} (h : sameAll as bs) :
    sameAll (substituteAll as p concrete) (substituteAll bs p concrete) := by
  cases as with
  | nil =>
    cases bs with
    | nil => rfl
    | cons _ _ => cases h
  | cons a as =>
    cases bs with
    | nil => cases h
    | cons b bs =>
      obtain ⟨hfirst, hrest⟩ := Bool.and_eq_true_iff.mp h
      exact Bool.and_eq_true_iff.mpr ⟨substitute_congr hfirst, substituteAll_congr hrest⟩
end

theorem isReference_substitute {a : Ty} (h : a.isReference) :
    (a.substitute p concrete).isReference := by
  cases a <;> first | rfl | cases h

theorem isNullable_substitute {a : Ty} (h : a.isNullable) :
    (a.substitute p concrete).isNullable := by
  cases a <;> first | rfl | cases h

theorem isNumeric_substitute {a : Ty} (h : a.isNumeric) :
    (a.substitute p concrete).isNumeric := by
  cases a <;> first | rfl | cases h

variable {p concrete}

theorem isVoid_substitute (h : concrete.isVoid = false) (a : Ty) :
    (a.substitute p concrete).isVoid = a.isVoid := by
  cases a with
  | generic q =>
    rw [substitute]
    split
    · exact h
    · rfl
  | _ => rfl

theorem isVoid_innermost_substitute (h : concrete.innermost.isVoid = false) (a : Ty) :
    (a.substitute p concrete).innermost.isVoid = a.innermost.isVoid := by
  cases a with
  | generic q =>
    rw [substitute]
    split
    · exact h
    · rfl
  | array component => exact isVoid_innermost_substitute h component
  | _ => rfl

theorem isVoid_of_assignable_self (h : concrete.assignable concrete) :
    concrete.isVoid = false := by
  cases concrete <;> first | rfl | cases h

theorem assignable_substitute (hself : concrete.assignable concrete) {a b : Ty}
    (h : a.assignable b) : (a.substitute p concrete).assignable (b.substitute p concrete) := by
  rcases assignable_cases h with hsame | ⟨rfl, rfl⟩ | ⟨rfl, href⟩ | ⟨d, e, rfl, rfl, hcomponent⟩
  · -- what is the same can be assigned unless it holds `Void`, of which substitution adds none
    rw [assignable_congr_left hsame, assignable_self] at h
    rw [assignable_congr_left (substitute_congr p concrete hsame), assignable_self,
      isVoid_innermost_substitute (assignable_self_iff.mp hself)]
    exact h
  · rfl
  · exact null_assignable (isReference_substitute p concrete href)
  · exact assignable_substitute hself (a := d) (b := e) hcomponent

theorem comparable_substitute (hself : concrete.assignable concrete) {a b : Ty}
    (h : a.comparable b) : (a.substitute p concrete).comparable (b.substitute p concrete) := by
  have hvoid := isVoid_of_assignable_self hself
  simp only [comparable, Bool.and_eq_true, Bool.or_eq_true, isVoid_substitute hvoid] at h ⊢
  obtain ⟨hvalues, (⟨ha, hb⟩ | hsame) | ⟨ha, hb⟩⟩ := h
  · exact ⟨hvalues, .inl (.inl
      ⟨isNullable_substitute p concrete ha, isNullable_substitute p concrete hb⟩)⟩
  · exact ⟨hvalues, .inl (.inr (substitute_congr p concrete hsame))⟩
  · exact ⟨hvalues, .inr
      ⟨isNumeric_substitute p concrete ha, isNumeric_substitute p concrete hb⟩⟩

theorem commonSupertype_substitute (hself : concrete.assignable concrete) {a b c : Ty}
    (h : commonSupertype a b = some c) :
    ∃ d, commonSupertype (a.substitute p concrete) (b.substitute p concrete) = some d ∧
      d.same (c.substitute p concrete) := by
  rcases eq_of_commonSupertype h with ⟨rfl, hab⟩ | ⟨rfl, hba⟩
  · exact exists_commonSupertype.1 (assignable_substitute hself hab)
  · exact exists_commonSupertype.2 (assignable_substitute hself hba)

/-- What holds between two types with placeholders holds between the types that a call makes of
them, by a type that can be assigned to itself. -/
theorem relations_substitute (p : Placeholder) (concrete : Ty)
    (hself : concrete.assignable concrete) (a b : Ty) :
    (a.assignable b → (a.substitute p concrete).assignable (b.substitute p concrete)) ∧
    (a.comparable b → (a.substitute p concrete).comparable (b.substitute p concrete)) ∧
    ∀ c, commonSupertype a b = some c →
      ∃ d, commonSupertype (a.substitute p concrete) (b.substitute p concrete) = some d ∧
        d.same (c.substitute p concrete) :=
  ⟨assignable_substitute hself, comparable_substitute hself,
    fun _ => commonSupertype_substitute hself⟩

/-- Null goes where arrays of the placeholder are expected, and so where arrays of arrays of numbers
are. -/
theorem relations_substitute_arrays :
    let p : Placeholder := { decl := 1, function := 0, name := "T" }
    let concrete := array float
    concrete.assignable concrete ∧
      null.assignable ((array (generic p)).substitute p concrete) ∧
      null.comparable ((array (generic p)).substitute p concrete) ∧
      ∃ d, commonSupertype null ((array (generic p)).substitute p concrete) = some d ∧
        d.same (array concrete) := by
  intro p concrete
  obtain ⟨hassignable, hcomparable, hcommon⟩ :=
    relations_substitute p concrete rfl null (array (generic p))
  exact ⟨rfl, hassignable rfl, hcomparable rfl, hcommon _ rfl⟩

end Ty
end Attribution
