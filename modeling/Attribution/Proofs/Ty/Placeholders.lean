import Attribution.Proofs.Rule.Contents
import Attribution.Proofs.Ty.Occurrence
/-!
# Placeholders of types

A type mentions placeholders, the first of which is the one that a call chooses a type for. Types
that are put together from others mention no new ones, so what holds of the placeholders that
templates declare holds of all.
-/
namespace Attribution
namespace Ty

mutual
/-- The placeholders that a type mentions, from left to right. -/
def placeholders : Ty → List Placeholder
  | generic p => [p]
  | array component => component.placeholders
  | function params result => placeholdersIn params ++ result.placeholders
  | _ => []

def placeholdersIn : List Ty → List Placeholder
  | [] => []
  | t :: ts => t.placeholders ++ placeholdersIn ts
end

variable {p q : Placeholder} {concrete : Ty}

theorem mem_placeholdersIn {ts : List Ty} :
    p ∈ placeholdersIn ts ↔ ∃ t ∈ ts, p ∈ t.placeholders := by
  induction ts with
  | nil => simp [placeholdersIn]
  | cons t ts ih => simp [placeholdersIn, ih]

mutual
theorem head?_placeholders (t : Ty) : t.placeholders.head? = t.placeholder? := by
  cases t with
  | array component => exact head?_placeholders component
  | function params result =>
    rw [placeholders, List.head?_append, head?_placeholdersIn params, head?_placeholders result,
      placeholder?]
  | _ => rfl

theorem head?_placeholdersIn (ts : List Ty) : (placeholdersIn ts).head? = firstPlaceholder? ts := by
  cases ts with
  | nil => rfl
  | cons t ts =>
    rw [placeholdersIn, List.head?_append, head?_placeholders t, head?_placeholdersIn ts,
      firstPlaceholder?]
end

theorem placeholder?_mem (t : Ty) (h : t.placeholder? = some p) : p ∈ t.placeholders := by
  rw [← head?_placeholders] at h
  exact List.mem_of_head? h

mutual
/-- Where the placeholder was, there are those of the type that is put in. -/
theorem placeholders_substitute (p : Placeholder) (concrete t : Ty) :
    (t.substitute p concrete).placeholders =
      t.placeholders.flatMap fun q => if q.same p then concrete.placeholders else [q] := by
  cases t with
  | generic q => rw [substitute, placeholders, List.flatMap_singleton]; split <;> rfl
  | array component => exact placeholders_substitute p concrete component
  | function params result =>
    rw [substitute, placeholders, placeholdersIn_substituteAll p concrete params,
      placeholders_substitute p concrete result, placeholders, List.flatMap_append]
  | _ => rfl

theorem placeholdersIn_substituteAll (p : Placeholder) (concrete : Ty) (ts : List Ty) :
    placeholdersIn (substituteAll ts p concrete) =
      (placeholdersIn ts).flatMap fun q => if q.same p then concrete.placeholders else [q] := by
  cases ts with
  | nil => rfl
  | cons t ts =>
    rw [substituteAll, placeholdersIn, placeholders_substitute p concrete t,
      placeholdersIn_substituteAll p concrete ts, placeholdersIn, List.flatMap_append]
end

theorem mem_placeholders_substitute (t : Ty) (h : q ∈ (t.substitute p concrete).placeholders) :
    q ∈ t.placeholders ∨ q ∈ concrete.placeholders := by
  rw [placeholders_substitute, List.mem_flatMap] at h
  obtain ⟨held, hheld, hq⟩ := h
  split at hq
  · exact .inr hq
  · rw [List.mem_singleton] at hq
    exact .inl (hq ▸ hheld)

theorem substitute_eq_string {t : Ty} :
    t.substitute p concrete = .string ↔
      t = .string ∨ t.isPlaceholderOf p ∧ concrete = .string := by
  cases t with
  | generic held =>
    rw [substitute, isPlaceholderOf]
    cases held.same p <;> simp
  | _ => simp [substitute, isPlaceholderOf]

theorem inherits_placeholders (property : Placeholder → Prop) :
    Inherits fun t => ∀ p ∈ t.placeholders, property p where
  basic t ht := by
    intro p hp
    cases t <;> cases ht <;> cases hp
  array _ := Iff.rfl
  function params result := by
    simp only [placeholders, List.mem_append, mem_placeholdersIn]
    constructor
    · intro h
      exact ⟨fun t ht p hp => h p (.inl ⟨t, ht, hp⟩), fun p hp => h p (.inr hp)⟩
    · rintro ⟨hparams, hresult⟩ p (⟨t, ht, hp⟩ | hp)
      · exact hparams t ht p hp
      · exact hresult p hp
  call callee explicit arguments hcallee hexplicit harguments := by
    apply instantiate_keeps hcallee hexplicit harguments
    intro p concrete _ hconcrete q hq
    rcases mem_placeholders_substitute callee hq with hold | hnew
    · exact hcallee q hold
    · exact hconcrete q hnew

end Ty
end Attribution
