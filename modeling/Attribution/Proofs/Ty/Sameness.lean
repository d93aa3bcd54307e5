import Attribution.Ty.Relation
import Attribution.Ty.Substitution
/-!
# Sameness of types

Sameness is an equivalence that assignability respects. A callee stays the same if nothing but its
placeholder is put in for its placeholder.
-/
namespace Attribution

theorem Placeholder.same_comm (p q : Placeholder) : p.same q = q.same p := by
  simp [same, Bool.beq_comm]

namespace Ty

mutual
theorem same_comm (a b : Ty) : a.same b = b.same a := by
  cases a with
  | array a =>
    cases b with
    | array b => exact same_comm a b
    | _ => rfl
  | struct a _ =>
    cases b with
    | struct b _ => simp [same, Bool.beq_comm]
    | _ => rfl
  | function ps r =>
    cases b with
    | function qs s => simp only [same, sameAll_comm ps qs, same_comm r s]
    | _ => rfl
  | generic p =>
    cases b with
    | generic q => exact p.same_comm q
    | _ => rfl
  | _ => cases b <;> rfl

theorem sameAll_comm (as bs : List Ty) : sameAll as bs = sameAll bs as := by
  cases as with
  | nil => cases bs <;> rfl
  | cons a as =>
    cases bs with
    | nil => rfl
    | cons b bs => simp only [sameAll, same_comm a b, sameAll_comm as bs]
end

mutual
theorem same_trans {a b c : Ty} (h : a.same b) (h' : b.same c) : a.same c := by
  cases a with
  | array a =>
    cases b with
    | array b =>
      cases c with
      | array c => exact same_trans (a := a) (b := b) h h'
      | _ => cases h'
    | _ => cases h
  | struct a _ =>
    cases b with
    | struct b _ =>
      cases c with
      | struct c _ =>
        simp only [same, beq_iff_eq] at h h' ⊢
        exact h.trans h'
      | _ => cases h'
    | _ => cases h
  | function ps r =>
    cases b with
    | function qs s =>
      cases c with
      | function us t =>
        obtain ⟨hparams, hresult⟩ := Bool.and_eq_true_iff.mp h
        obtain ⟨hparams', hresult'⟩ := Bool.and_eq_true_iff.mp h'
        exact Bool.and_eq_true_iff.mpr
          ⟨sameAll_trans hparams hparams', same_trans hresult hresult'⟩
      | _ => cases h'
    | _ => cases h
  | generic p =>
    cases b with
    | generic q =>
      cases c with
      | generic u =>
        simp only [same, Placeholder.same, beq_iff_eq] at h h' ⊢
        exact h.trans h'
      | _ => cases h'
    | _ => cases h
  | _ => cases b <;> first | exact h' | cases h

theorem sameAll_trans {as bs cs : List Ty} (h : sameAll as bs) (h' : sameAll bs cs) :
    sameAll as cs := by
  cases as with
  | nil =>
    cases bs with
    | nil => exact h'
    | cons _ _ => cases h
  | cons a as =>
    cases bs with
    | nil => cases h
    | cons b bs =>
      cases cs with
      | nil => cases h'
      | cons c cs =>
        obtain ⟨hfirst, hrest⟩ := Bool.and_eq_true_iff.mp h
        obtain ⟨hfirst', hrest'⟩ := Bool.and_eq_true_iff.mp h'
        exact Bool.and_eq_true_iff.mpr ⟨same_trans hfirst hfirst', sameAll_trans hrest hrest'⟩
end

variable {a b c : Ty}

theorem same_congr (a : Ty) (h : b.same c) : a.same b = a.same c := by
  rw [Bool.eq_iff_iff]
  refine ⟨fun hb => same_trans hb h, fun hc => same_trans hc ?_⟩
  rwa [same_comm]

theorem same_cases (h : b.same c) : b = c ∨
    (∃ d e, b = array d ∧ c = array e ∧ d.same e) ∨
    (∃ decl name other, b = struct decl name ∧ c = struct decl other) ∨
    (∃ ps r qs s, b = function ps r ∧ c = function qs s) ∨
    ∃ p q, b = generic p ∧ c = generic q := by
  cases b with
  | array d =>
    cases c with
    | array e => exact .inr (.inl ⟨d, e, rfl, rfl, h⟩)
    | _ => cases h
  | struct decl name =>
    cases c with
    | struct other name' =>
      cases beq_iff_eq.mp h
      exact .inr (.inr (.inl ⟨decl, name, name', rfl, rfl⟩))
    | _ => cases h
  | function ps r =>
    cases c with
    | function qs s => exact .inr (.inr (.inr (.inl ⟨ps, r, qs, s, rfl, rfl⟩)))
    | _ => cases h
  | generic p =>
    cases c with
    | generic q => exact .inr (.inr (.inr (.inr ⟨p, q, rfl, rfl⟩)))
    | _ => cases h
  | _ => cases c <;> first | exact .inl rfl | cases h

/-- What can be assigned to a type can be assigned to every type that is the same. -/
theorem assignable_congr (a : Ty) {b c : Ty} (h : b.same c) : a.assignable b = a.assignable c := by
  rcases same_cases h with rfl | ⟨d, e, rfl, rfl, hsame⟩ | ⟨_, _, _, rfl, rfl⟩ |
    ⟨_, _, _, _, rfl, rfl⟩ | ⟨_, _, rfl, rfl⟩
  · rfl
  · cases a with
    | array a => exact assignable_congr a hsame
    | _ => rfl
  all_goals cases a <;> first | rfl | exact same_congr _ h

mutual
theorem same_substitute {p : Placeholder} {concrete : Ty} (h : concrete.same (generic p)) (t : Ty) :
    (t.substitute p concrete).same t := by
  cases t with
  | generic q =>
    rw [substitute]
    split
    next hsame =>
      rw [Placeholder.same_comm] at hsame
      exact same_trans h hsame
    next => exact same_refl _
  | array component => exact same_substitute h component
  | function params result =>
    exact Bool.and_eq_true_iff.mpr ⟨sameAll_substituteAll h params, same_substitute h result⟩
  | _ => exact same_refl _

theorem sameAll_substituteAll {p : Placeholder} {concrete : Ty} (h : concrete.same (generic p))
    (ts : List Ty) : sameAll (substituteAll ts p concrete) ts := by
  cases ts with
  | nil => rfl
  | cons t ts =>
    exact Bool.and_eq_true_iff.mpr ⟨same_substitute h t, sameAll_substituteAll h ts⟩
end

theorem sameAll_getElem? {as bs : List Ty} (h : sameAll as bs) {place : Nat} {b : Ty}
    (hb : bs[place]? = some b) : ∃ a, as[place]? = some a ∧ a.same b := by
  induction as generalizing bs place with
  | nil =>
    cases bs with
    | nil => cases hb
    | cons _ _ => cases h
  | cons a as ih =>
    cases bs with
    | nil => cases h
    | cons _ bs =>
      obtain ⟨hfirst, hrest⟩ := Bool.and_eq_true_iff.mp h
      cases place with
      | zero =>
        cases hb
        exact ⟨a, rfl, hfirst⟩
      | succ place => exact ih hrest hb

theorem firstPlaceholder?_eq_none {types : List Ty}
    (h : ∀ type ∈ types, type.placeholder? = none) : firstPlaceholder? types = none := by
  induction types with
  | nil => rfl
  | cons type types ih =>
    rw [firstPlaceholder?, h type List.mem_cons_self,
      ih fun other hother => h other (List.mem_cons_of_mem _ hother)]
    rfl

end Ty

/-- Nothing but the placeholder itself is put in for the placeholder of a callee. -/
def KeepsPlaceholder (callee : Ty) (explicit : Option Ty) (arguments : List Ty) : Prop :=
  ∀ p concrete, callee.placeholder? = some p →
    concreteFor? p explicit callee.params arguments = some concrete → concrete.same (.generic p)

theorem KeepsPlaceholder.instantiate {callee : Ty} {explicit : Option Ty} {arguments : List Ty}
    (h : KeepsPlaceholder callee explicit arguments) :
    (instantiate callee explicit arguments).callee.same callee := by
  unfold Attribution.instantiate
  split
  · exact callee.same_refl
  next p hp =>
    split
    · exact callee.same_refl
    next concrete hconcrete => exact Ty.same_substitute (h p concrete hp hconcrete) callee

theorem keepsPlaceholder_of_none {callee : Ty} (h : callee.placeholder? = none)
    (explicit : Option Ty) (arguments : List Ty) :
    KeepsPlaceholder callee explicit arguments := by
  intro p concrete hp
  rw [h] at hp
  cases hp

end Attribution
