import Attribution.Ty.Substitution
/-!
# What occurs in types

Structs and placeholders occur in types by their declarations. A type that is put in for the only
placeholder of another one takes all of its occurrences with it.
-/
namespace Attribution
namespace Ty

mutual
/-- What is said of declarations holds for each struct and each placeholder that a type mentions. -/
def All (onStruct onPlaceholder : NodeId → Prop) : Ty → Prop
  | array component => component.All onStruct onPlaceholder
  | struct decl _ => onStruct decl
  | function params result =>
    AllIn onStruct onPlaceholder params ∧ result.All onStruct onPlaceholder
  | generic p => onPlaceholder p.decl
  | _ => True

def AllIn (onStruct onPlaceholder : NodeId → Prop) : List Ty → Prop
  | [] => True
  | t :: ts => t.All onStruct onPlaceholder ∧ AllIn onStruct onPlaceholder ts
end

variable {onStruct onPlaceholder other : NodeId → Prop}

theorem allIn_iff {ts : List Ty} :
    AllIn onStruct onPlaceholder ts ↔ ∀ t ∈ ts, t.All onStruct onPlaceholder := by
  induction ts with
  | nil => simp [AllIn]
  | cons t ts ih => simp [AllIn, ih]

theorem All.param {t : Ty} (ht : t.All onStruct onPlaceholder) {place : Nat} {param : Ty}
    (hparam : t.params[place]? = some param) : param.All onStruct onPlaceholder := by
  cases t with
  | function params result => exact allIn_iff.mp ht.1 param (List.mem_of_getElem? hparam)
  | _ => cases hparam

mutual
theorem All.of_placeholder? {p : Placeholder} (t : Ty) (ht : t.All onStruct onPlaceholder)
    (hp : t.placeholder? = some p) : onPlaceholder p.decl := by
  cases t with
  | generic q =>
    cases hp
    exact ht
  | array component => exact All.of_placeholder? component ht hp
  | function params result =>
    rcases Option.or_eq_some_iff.mp hp with hfirst | ⟨_, hlast⟩
    · exact AllIn.of_firstPlaceholder? params ht.1 hfirst
    · exact All.of_placeholder? result ht.2 hlast
  | _ => cases hp

theorem AllIn.of_firstPlaceholder? {p : Placeholder} (ts : List Ty)
    (hts : AllIn onStruct onPlaceholder ts) (hp : firstPlaceholder? ts = some p) :
    onPlaceholder p.decl := by
  cases ts with
  | nil => cases hp
  | cons t ts =>
    rcases Option.or_eq_some_iff.mp hp with hfirst | ⟨_, hlater⟩
    · exact All.of_placeholder? t hts.1 hfirst
    · exact AllIn.of_firstPlaceholder? ts hts.2 hlater
end

variable {p : Placeholder} {concrete : Ty}

theorem substitute_generic {q : Placeholder} (h : q.decl = p.decl) :
    (generic q).substitute p concrete = concrete := by
  exact if_pos (beq_iff_eq.mpr h)

mutual
theorem All.substitute (hconcrete : concrete.All onStruct other) (t : Ty)
    (ht : t.All onStruct (· = p.decl)) : (t.substitute p concrete).All onStruct other := by
  cases t with
  | generic q =>
    rw [substitute_generic ht]
    exact hconcrete
  | array component => exact All.substitute hconcrete component ht
  | function params result =>
    exact ⟨AllIn.substitute hconcrete params ht.1, All.substitute hconcrete result ht.2⟩
  | _ => exact ht

theorem AllIn.substitute (hconcrete : concrete.All onStruct other) (ts : List Ty)
    (hts : AllIn onStruct (· = p.decl) ts) :
    AllIn onStruct other (substituteAll ts p concrete) := by
  cases ts with
  | nil => trivial
  | cons t ts =>
    exact ⟨All.substitute hconcrete t hts.1, AllIn.substitute hconcrete ts hts.2⟩
end

mutual
theorem isSome_placeholder?_substitute (t : Ty) (ht : t.All onStruct (· = p.decl)) :
    (t.substitute p concrete).placeholder?.isSome =
      (t.placeholder?.isSome && concrete.placeholder?.isSome) := by
  cases t with
  | generic q =>
    rw [substitute_generic ht]
    rfl
  | array component => exact isSome_placeholder?_substitute component ht
  | function params result =>
    rw [Ty.substitute, placeholder?, placeholder?, Option.isSome_or, Option.isSome_or,
      isSome_firstPlaceholder?_substitute params ht.1, isSome_placeholder?_substitute result ht.2,
      Bool.and_or_distrib_right]
  | _ => rfl

theorem isSome_firstPlaceholder?_substitute (ts : List Ty) (hts : AllIn onStruct (· = p.decl) ts) :
    (firstPlaceholder? (substituteAll ts p concrete)).isSome =
      ((firstPlaceholder? ts).isSome && concrete.placeholder?.isSome) := by
  cases ts with
  | nil => rfl
  | cons t ts =>
    rw [substituteAll, firstPlaceholder?, firstPlaceholder?, Option.isSome_or, Option.isSome_or,
      isSome_placeholder?_substitute t hts.1, isSome_firstPlaceholder?_substitute ts hts.2,
      Bool.and_or_distrib_right]
end

end Ty

theorem concreteFor?_congr {p q : Placeholder} (h : q.decl = p.decl) (explicit : Option Ty)
    (params arguments : List Ty) :
    concreteFor? q explicit params arguments = concreteFor? p explicit params arguments := by
  have hsame : ∀ t : Ty, t.isPlaceholderOf q = t.isPlaceholderOf p := by
    intro t
    cases t with
    | generic r =>
      rw [Ty.isPlaceholderOf, Ty.isPlaceholderOf, Placeholder.same, Placeholder.same, h]
    | _ => rfl
  simp only [concreteFor?, hsame]

theorem concreteFor?_cases {p : Placeholder} {explicit : Option Ty} {params arguments : List Ty}
    {concrete : Ty} (h : concreteFor? p explicit params arguments = some concrete) :
    explicit = some concrete ∨ concrete ∈ arguments := by
  rcases Option.or_eq_some_iff.mp h with hsome | ⟨_, hfirst⟩
  · exact .inl hsome
  · obtain ⟨pair, hpair, rfl⟩ := Option.map_eq_some_iff.mp hfirst
    exact .inr (List.of_mem_zip (List.mem_of_find?_eq_some hpair)).2

theorem instantiate_binding {callee : Ty} {explicit : Option Ty} {arguments : List Ty}
    {p : Placeholder} {concrete : Ty} :
    (instantiate callee explicit arguments).binding = some (p, concrete) ↔
      callee.placeholder? = some p ∧
        concreteFor? p explicit callee.params arguments = some concrete := by
  unfold instantiate
  split
  next hnone => simp [hnone]
  next q hq =>
    split
    next hnone =>
      simp only [reduceCtorEq, false_iff, hq, Option.some.injEq]
      rintro ⟨rfl, hconcrete⟩
      cases hnone.symm.trans hconcrete
    next found hfound =>
      simp only [Option.some.injEq, Prod.mk.injEq, hq]
      constructor
      · rintro ⟨rfl, rfl⟩
        exact ⟨rfl, hfound⟩
      · rintro ⟨rfl, hconcrete⟩
        exact ⟨rfl, Option.some.inj (hfound.symm.trans hconcrete)⟩

theorem instantiate_keeps {sound : Ty → Prop} {callee : Ty} {explicit : Option Ty}
    {arguments : List Ty} (hcallee : sound callee) (hexplicit : ∀ t ∈ explicit, sound t)
    (harguments : ∀ t ∈ arguments, sound t)
    (hsubstitute : ∀ p concrete, callee.placeholder? = some p → sound concrete →
      sound (callee.substitute p concrete)) :
    sound (instantiate callee explicit arguments).callee := by
  unfold instantiate
  split
  · exact hcallee
  next p hp =>
    split
    · exact hcallee
    next concrete hconcrete =>
      apply hsubstitute p concrete hp
      rcases concreteFor?_cases hconcrete with hsome | hmem
      · exact hexplicit concrete hsome
      · exact harguments concrete hmem

theorem Ty.All.instantiate {onStruct : NodeId → Prop} {decl : NodeId} {callee : Ty}
    {explicit : Option Ty} {arguments : List Ty} (hcallee : callee.All onStruct (· = decl))
    (hexplicit : ∀ t ∈ explicit, ∃ decl, t.All onStruct (· = decl))
    (harguments : ∀ t ∈ arguments, ∃ decl, t.All onStruct (· = decl)) :
    ∃ decl, (instantiate callee explicit arguments).callee.All onStruct (· = decl) := by
  refine instantiate_keeps ⟨decl, hcallee⟩ hexplicit harguments ?_
  rintro p concrete hp ⟨other, hother⟩
  obtain rfl : p.decl = decl := hcallee.of_placeholder? _ hp
  exact ⟨other, hother.substitute _ hcallee⟩

/-- A call leaves a placeholder in its result just if there is one in the declared result and the
call puts in nothing for it, or something that mentions a placeholder itself. -/
theorem placeholder?_instantiate {onStruct : NodeId → Prop} {decl : NodeId}
    {params params' : List Ty} {result result' : Ty} {explicit : Option Ty} {arguments : List Ty}
    (hcallee : (Ty.function params result).All onStruct (· = decl))
    (h : (instantiate (.function params result) explicit arguments).callee =
      .function params' result') :
    result'.placeholder?.isSome ↔ ∃ p, result.placeholder? = some p ∧
      ∀ concrete, concreteFor? p explicit params arguments = some concrete →
        concrete.placeholder?.isSome := by
  have hdecl : ∀ p, result.placeholder? = some p → p.decl = decl :=
    fun p hp => Ty.All.of_placeholder? result hcallee.2 hp
  rw [Option.isSome_iff_exists]
  unfold instantiate at h
  split at h
  next hnone =>
    cases h
    have hresult : result.placeholder? = none := (Option.or_eq_none_iff.mp hnone).2
    simp [hresult]
  next p hp =>
    obtain rfl : p.decl = decl := Ty.All.of_placeholder? _ hcallee hp
    split at h
    next hnone =>
      cases h
      constructor
      · rintro ⟨q, hq⟩
        refine ⟨q, hq, ?_⟩
        intro concrete hconcrete
        rw [concreteFor?_congr (hdecl q hq)] at hconcrete
        cases hnone.symm.trans hconcrete
      · rintro ⟨q, hq, _⟩
        exact ⟨q, hq⟩
    next concrete hconcrete =>
      cases h
      rw [← Option.isSome_iff_exists, Ty.isSome_placeholder?_substitute result hcallee.2,
        Bool.and_eq_true]
      constructor
      · rintro ⟨hsome, hmentions⟩
        obtain ⟨q, hq⟩ := Option.isSome_iff_exists.mp hsome
        refine ⟨q, hq, ?_⟩
        intro other hother
        rw [concreteFor?_congr (hdecl q hq)] at hother
        cases hconcrete.symm.trans hother
        exact hmentions
      · rintro ⟨q, hq, hall⟩
        rw [concreteFor?_congr (hdecl q hq)] at hall
        exact ⟨Option.isSome_of_eq_some hq, hall concrete hconcrete⟩

end Attribution
