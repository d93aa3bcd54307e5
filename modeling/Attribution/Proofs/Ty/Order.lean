import Attribution.Proofs.Ty.Sameness
/-!
# Assignability as an order

Assignability is transitive, and types that can be assigned to each other are the same. All types
but `Void` and the arrays that hold it in the end can be assigned to themselves. Below any type the
others form a chain, so that of two types with a common supertype one is the least.
-/
namespace Attribution
namespace Ty

/-- What an array holds in the end, however deep arrays nest in it. -/
def innermost : Ty → Ty
  | array component => component.innermost
  | t => t

theorem assignable_self (a : Ty) : a.assignable a = !a.innermost.isVoid := by
  cases a with
  | array component => exact assignable_self component
  | struct decl name => exact same_refl (struct decl name)
  | function params result => exact same_refl (function params result)
  | generic p => exact same_refl (generic p)
  | _ => rfl

theorem assignable_self_iff {a : Ty} : a.assignable a ↔ a.innermost.isVoid = false := by
  rw [assignable_self, Bool.not_eq_true']

theorem assignable_congr_left {a b : Ty} (h : a.same b) (c : Ty) :
    a.assignable c = b.assignable c := by
  have hsame : a.same c = b.same c := by
    rw [same_comm a, same_comm b]
    exact same_congr c h
  rcases same_cases h with rfl | ⟨d, e, rfl, rfl, hcomponent⟩ | ⟨_, _, _, rfl, rfl⟩ |
    ⟨_, _, _, _, rfl, rfl⟩ | ⟨_, _, rfl, rfl⟩
  · rfl
  · cases c with
    | array c => exact assignable_congr_left hcomponent c
    | _ => rfl
  all_goals cases c <;> first | rfl | exact hsame

theorem null_assignable {b : Ty} (h : b.isReference) : null.assignable b := by
  cases b <;> first | rfl | cases h

theorem assignable_cases {a b : Ty} (h : a.assignable b) : a.same b ∨ (a = int ∧ b = float) ∨
    (a = null ∧ b.isReference) ∨ ∃ d e, a = array d ∧ b = array e ∧ d.assignable e := by
  cases a with
  | void => cases h
  | array d =>
    cases b with
    | array e => exact .inr (.inr (.inr ⟨d, e, rfl, rfl, h⟩))
    | _ => cases h
  | int =>
    cases b with
    | float => exact .inr (.inl ⟨rfl, rfl⟩)
    | void => cases h
    | _ => exact .inl h
  | null =>
    cases b with
    | null => exact .inl rfl
    | string | array | struct => exact .inr (.inr (.inl ⟨rfl, rfl⟩))
    | _ => cases h
  | _ =>
    cases b with
    | void => cases h
    | _ => exact .inl h

theorem isReference_of_assignable {a b : Ty} (h : a.isReference) (hab : a.assignable b) :
    b.isReference := by
  rcases assignable_cases hab with hsame | ⟨rfl, rfl⟩ | ⟨rfl, _⟩ | ⟨d, e, rfl, rfl, _⟩
  · rcases same_cases hsame with rfl | ⟨_, _, rfl, rfl, _⟩ | ⟨_, _, _, rfl, rfl⟩ |
      ⟨_, _, _, _, rfl, rfl⟩ | ⟨_, _, rfl, rfl⟩
    · exact h
    all_goals first | rfl | cases h
  · cases h
  · cases h
  · rfl

theorem assignable_trans {a b c : Ty} (hab : a.assignable b) (hbc : b.assignable c) :
    a.assignable c := by
  rcases assignable_cases hab with hsame | ⟨rfl, rfl⟩ | ⟨rfl, href⟩ | ⟨d, e, rfl, rfl, hcomponent⟩
  · rwa [assignable_congr_left hsame]
  · -- nothing lies above floating point numbers
    cases c <;> first | rfl | cases hbc
  · exact null_assignable (isReference_of_assignable href hbc)
  · cases c with
    | array c => exact assignable_trans (a := d) (b := e) hcomponent hbc
    | _ => cases hbc

theorem same_of_assignable {a b : Ty} (hab : a.assignable b) (hba : b.assignable a) : a.same b := by
  rcases assignable_cases hab with hsame | ⟨rfl, rfl⟩ | ⟨rfl, href⟩ | ⟨d, e, rfl, rfl, hcomponent⟩
  · exact hsame
  · cases hba
  · cases isReference_of_assignable href hba
  · exact same_of_assignable (a := d) (b := e) hcomponent hba

/-- Of two types that can be assigned to a third one can be assigned to the other. -/
theorem assignable_or_of_common {a b d : Ty} (had : a.assignable d) (hbd : b.assignable d) :
    a.assignable b ∨ b.assignable a := by
  have hequal : ∀ {s t : Ty}, s.same d → t.assignable d → t.assignable s := by
    intro s t hs ht
    rw [same_comm] at hs
    rwa [assignable_congr t hs] at ht
  rcases assignable_cases had with hsame | ⟨rfl, rfl⟩ | ⟨rfl, href⟩ | ⟨s, t, rfl, rfl, hcomponent⟩
  · exact .inr (hequal hsame hbd)
  · rcases assignable_cases hbd with hsame | ⟨rfl, _⟩ | ⟨_, href⟩ | ⟨_, _, _, heq, _⟩
    · exact .inl (hequal hsame had)
    · exact .inl rfl
    · cases href
    · cases heq
  · -- null lies below every other type from which a reference can be reached
    rcases assignable_cases hbd with hsame | ⟨rfl, rfl⟩ | ⟨rfl, _⟩ | ⟨_, _, rfl, _, _⟩
    · exact .inl (hequal hsame had)
    · cases href
    · exact .inl rfl
    · exact .inl rfl
  · rcases assignable_cases hbd with hsame | ⟨_, heq⟩ | ⟨rfl, _⟩ | ⟨_, _, rfl, heq, hother⟩
    · exact .inl (hequal hsame had)
    · cases heq
    · exact .inr rfl
    · cases heq
      exact assignable_or_of_common (a := s) (d := t) hcomponent hother

variable {a b c d : Ty}

theorem eq_of_commonSupertype (h : commonSupertype a b = some c) :
    (c = b ∧ a.assignable b) ∨ c = a ∧ b.assignable a := by
  unfold commonSupertype at h
  split at h
  next hab => exact .inl ⟨(Option.some.inj h).symm, hab⟩
  next =>
    split at h
    next hba => exact .inr ⟨(Option.some.inj h).symm, hba⟩
    next => cases h

theorem isSome_commonSupertype :
    (commonSupertype a b).isSome ↔ a.assignable b ∨ b.assignable a := by
  unfold commonSupertype
  split
  next hab => simp [hab]
  next hab =>
    split
    next hba => simp [hba]
    next hba => simp [hab, hba]

theorem commonSupertype_comm (a b : Ty) :
    Option.Rel (fun s t => s.same t) (commonSupertype a b) (commonSupertype b a) := by
  unfold commonSupertype
  split
  next hab =>
    split
    next hba => exact .some (same_of_assignable hba hab)
    next => exact .some (same_refl b)
  next =>
    split
    · exact .some (same_refl a)
    · exact .none

theorem exists_commonSupertype :
    (a.assignable b → ∃ c, commonSupertype a b = some c ∧ c.same b) ∧
    (b.assignable a → ∃ c, commonSupertype a b = some c ∧ c.same a) := by
  constructor
  · intro hab
    exact ⟨b, if_pos hab, same_refl b⟩
  · intro hba
    unfold commonSupertype
    split
    next hab => exact ⟨b, rfl, same_of_assignable hba hab⟩
    next => exact ⟨a, rfl, same_refl a⟩

theorem commonSupertype_le (h : commonSupertype a b = some c) (had : a.assignable d)
    (hbd : b.assignable d) : c.assignable d := by
  rcases eq_of_commonSupertype h with ⟨rfl, _⟩ | ⟨rfl, _⟩
  · exact hbd
  · exact had

theorem le_commonSupertype (ha : a.innermost.isVoid = false) (hb : b.innermost.isVoid = false)
    (h : commonSupertype a b = some c) : a.assignable c ∧ b.assignable c := by
  rcases eq_of_commonSupertype h with ⟨rfl, hab⟩ | ⟨rfl, hba⟩
  · exact ⟨hab, assignable_self_iff.mpr hb⟩
  · exact ⟨assignable_self_iff.mpr ha, hba⟩

/-- Up to sameness assignability is a partial order on types that are not `Void` and hold no `Void`
in the end. Two such types have a common supertype just if there is a type to which both can be
assigned, and then it is their least upper bound, whichever comes first. -/
theorem assignable_order :
    (∀ a : Ty, a.innermost.isVoid = false → a.assignable a) ∧
    (∀ a b c : Ty, a.assignable b → b.assignable c → a.assignable c) ∧
    (∀ a b : Ty, a.assignable b → b.assignable a → a.same b) ∧
    ∀ a b : Ty, a.innermost.isVoid = false → b.innermost.isVoid = false →
      ((commonSupertype a b).isSome ↔ ∃ d, a.assignable d ∧ b.assignable d) ∧
      Option.Rel (fun s t => s.same t) (commonSupertype a b) (commonSupertype b a) ∧
      ∀ c, commonSupertype a b = some c → a.assignable c ∧ b.assignable c ∧
        ∀ d, a.assignable d → b.assignable d → c.assignable d := by
  refine ⟨fun _ => assignable_self_iff.mpr, fun _ _ _ => assignable_trans,
    fun _ _ => same_of_assignable, ?_⟩
  intro a b ha hb
  refine ⟨⟨?_, ?_⟩, commonSupertype_comm a b, ?_⟩
  · intro hsome
    obtain ⟨c, hc⟩ := Option.isSome_iff_exists.mp hsome
    exact ⟨c, le_commonSupertype ha hb hc⟩
  · intro ⟨d, had, hbd⟩
    exact isSome_commonSupertype.mpr (assignable_or_of_common had hbd)
  · intro c hc
    obtain ⟨hac, hbc⟩ := le_commonSupertype ha hb hc
    exact ⟨hac, hbc, fun d => commonSupertype_le hc⟩

/-- Arrays of arrays of numbers, of which the wider ones come first. -/
theorem assignable_order_arrays :
    let floats := array (array float)
    let ints := array (array int)
    floats.innermost.isVoid = false ∧ ints.innermost.isVoid = false ∧
      ∃ c, commonSupertype floats ints = some c ∧ floats.assignable c ∧ ints.assignable c ∧
        ∀ d, floats.assignable d → ints.assignable d → c.assignable d := by
  intro floats ints
  obtain ⟨_, _, hleast⟩ := assignable_order.2.2.2 floats ints rfl rfl
  exact ⟨rfl, rfl, floats, rfl, hleast floats rfl⟩

end Ty
end Attribution
