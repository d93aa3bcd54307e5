import Attribution.Proofs.Ty.Order
import Attribution.Proofs.Ty.Placeholders
/-!
# Complete substitution

A way leads into a type, to a component, a parameter or a result, step by step. A call puts the type
that it chooses wherever a way leads to the placeholder, and keeps everything else. Which type that
is, and whether there is one, is settled by the explicit type and the first argument for the
placeholder itself.
-/
namespace Attribution
namespace Ty

/-- One step into a type. -/
inductive Step where
  | component
  | param (place : Nat)
  | result
deriving DecidableEq, Repr

def step? : Ty → Step → Option Ty
  | array component, .component => some component
  | function params _, .param place => params[place]?
  | function _ result, .result => some result
  | _, _ => none

/-- What stands in a type where the way leads. -/
def at? (t : Ty) : List Step → Option Ty
  | [] => some t
  | step :: way => (t.step? step).bind fun part => part.at? way

/-- Some way leads to the placeholder. -/
def Mentions (t : Ty) (p : Placeholder) : Prop :=
  ∃ way q, t.at? way = some (generic q) ∧ q.same p

/-- The types are the same, or built in the same way of any parts. -/
def Alike : Ty → Ty → Prop
  | array _, array _ => True
  | function ps _, function qs _ => ps.length = qs.length
  | t, u => t = u

/-- The second type has the concrete one wherever the first has the placeholder, and is built like
the first everywhere else. -/
structure Replaces (t : Ty) (p : Placeholder) (concrete u : Ty) : Prop where
  occurrence : ∀ way q, t.at? way = some (generic q) → q.same p → u.at? way = some concrete
  elsewhere : ∀ way part, t.at? way = some part → part.isPlaceholderOf p = false →
    ∃ other, u.at? way = some other ∧ part.Alike other

variable {p q : Placeholder} {concrete t u : Ty}

theorem at?_cons {step : Step} {way : List Step} {part : Ty} :
    t.at? (step :: way) = some part ↔
      ∃ inner, t.step? step = some inner ∧ inner.at? way = some part :=
  Option.bind_eq_some_iff

mutual
theorem exists_way (t : Ty) (h : q ∈ t.placeholders) : ∃ way, t.at? way = some (generic q) := by
  cases t with
  | generic held =>
    cases List.mem_singleton.mp h
    exact ⟨[], rfl⟩
  | array component =>
    obtain ⟨way, hway⟩ := exists_way component h
    exact ⟨.component :: way, hway⟩
  | function params result =>
    rcases List.mem_append.mp h with hparams | hresult
    · obtain ⟨place, param, hparam, way, hway⟩ := exists_wayIn params hparams
      exact ⟨.param place :: way, at?_cons.mpr ⟨param, hparam, hway⟩⟩
    · obtain ⟨way, hway⟩ := exists_way result hresult
      exact ⟨.result :: way, hway⟩
  | _ => cases h

theorem exists_wayIn (ts : List Ty) (h : q ∈ placeholdersIn ts) :
    ∃ (place : Nat) (t : Ty), ts[place]? = some t ∧ ∃ way, t.at? way = some (generic q) := by
  cases ts with
  | nil => cases h
  | cons t ts =>
    rcases List.mem_append.mp h with hfirst | hlater
    · exact ⟨0, t, rfl, exists_way t hfirst⟩
    · obtain ⟨place, other, hother, hway⟩ := exists_wayIn ts hlater
      exact ⟨place + 1, other, hother, hway⟩
end

theorem placeholders_subset_of_step? {step : Step} (h : t.step? step = some u)
    (hq : q ∈ u.placeholders) : q ∈ t.placeholders := by
  cases t with
  | array component =>
    cases step with
    | component =>
      cases h
      exact hq
    | _ => cases h
  | function params result =>
    cases step with
    | component => cases h
    | param place =>
      exact List.mem_append_left _ (mem_placeholdersIn.mpr ⟨u, List.mem_of_getElem? h, hq⟩)
    | result =>
      cases h
      exact List.mem_append_right _ hq
  | _ => cases step <;> cases h

theorem mem_placeholders_iff : q ∈ t.placeholders ↔ ∃ way, t.at? way = some (generic q) := by
  refine ⟨exists_way t, ?_⟩
  rintro ⟨way, hway⟩
  induction way generalizing t with
  | nil =>
    cases hway
    exact List.mem_singleton_self q
  | cons step way ih =>
    obtain ⟨inner, hstep, hinner⟩ := at?_cons.mp hway
    exact placeholders_subset_of_step? hstep (ih hinner)

theorem mentions_iff : t.Mentions p ↔ ∃ q ∈ t.placeholders, q.same p := by
  simp only [Mentions, mem_placeholders_iff]
  constructor
  · rintro ⟨way, q, hway, hsame⟩
    exact ⟨q, ⟨way, hway⟩, hsame⟩
  · rintro ⟨q, ⟨way, hway⟩, hsame⟩
    exact ⟨way, q, hway, hsame⟩

theorem not_mentions_iff : (∀ p, ¬ t.Mentions p) ↔ t.placeholders = [] := by
  simp only [mentions_iff]
  constructor
  · intro h
    apply List.eq_nil_iff_forall_not_mem.mpr
    exact fun q hq => h q ⟨q, hq, beq_self_eq_true q.decl⟩
  · rintro h p ⟨q, hq, _⟩
    rw [h] at hq
    cases hq

theorem placeholder?_eq_none_iff : t.placeholder? = none ↔ ∀ p, ¬ t.Mentions p := by
  rw [not_mentions_iff, ← head?_placeholders, List.head?_eq_none_iff]

theorem Mentions.of_placeholder? (h : t.placeholder? = some p) : t.Mentions p :=
  mentions_iff.mpr ⟨p, placeholder?_mem t h, beq_self_eq_true p.decl⟩

theorem not_mentions_substitute (honly : ∀ q, t.Mentions q → q.same p)
    (hconcrete : ∀ q, ¬ concrete.Mentions q) : ∀ q, ¬ (t.substitute p concrete).Mentions q := by
  rw [not_mentions_iff] at hconcrete ⊢
  rw [placeholders_substitute, List.flatMap_eq_nil_iff]
  intro q hq
  rw [if_pos (honly q (mentions_iff.mpr ⟨q, hq, beq_self_eq_true q.decl⟩)), hconcrete]

theorem step?_substitute {step : Step} (h : t.step? step = some u) :
    (t.substitute p concrete).step? step = some (u.substitute p concrete) := by
  cases t with
  | array component =>
    cases step with
    | component =>
      cases h
      rfl
    | _ => cases h
  | function params result =>
    cases step with
    | component => cases h
    | param place =>
      have hparam : params[place]? = some u := h
      rw [substitute, step?, substituteAll_eq_map, List.getElem?_map, hparam, Option.map_some]
    | result =>
      cases h
      rfl
  | _ => cases step <;> cases h

theorem at?_substitute {way : List Step} {part : Ty} (h : t.at? way = some part) :
    (t.substitute p concrete).at? way = some (part.substitute p concrete) := by
  induction way generalizing t with
  | nil =>
    cases h
    rfl
  | cons step way ih =>
    obtain ⟨inner, hstep, hinner⟩ := at?_cons.mp h
    exact at?_cons.mpr ⟨_, step?_substitute hstep, ih hinner⟩

theorem alike_substitute (h : t.isPlaceholderOf p = false) :
    t.Alike (t.substitute p concrete) := by
  cases t with
  | generic q =>
    have hq : ¬ q.same p := ne_true_of_eq_false h
    rw [substitute, if_neg hq]
    rfl
  | array component => trivial
  | function params result =>
    rw [substitute, substituteAll_eq_map]
    exact (List.length_map _).symm
  | _ => rfl

theorem replaces_substitute (p : Placeholder) (concrete t : Ty) :
    t.Replaces p concrete (t.substitute p concrete) where
  occurrence way q hway hsame := by
    rw [at?_substitute hway, substitute, if_pos hsame]
  elsewhere way part hway hpart := ⟨_, at?_substitute hway, alike_substitute hpart⟩

theorem Replaces.step (h : t.Replaces p concrete u) (step : Step) {inner other : Ty}
    (ht : t.step? step = some inner) (hu : u.step? step = some other) :
    inner.Replaces p concrete other where
  occurrence way q hway hsame := by
    have hwhole := h.occurrence (step :: way) q (at?_cons.mpr ⟨inner, ht, hway⟩) hsame
    rwa [at?, hu] at hwhole
  elsewhere way part hway hpart := by
    have hwhole := h.elsewhere (step :: way) part (at?_cons.mpr ⟨inner, ht, hway⟩) hpart
    rwa [at?, hu] at hwhole

theorem Replaces.alike (h : t.Replaces p concrete u) (ht : t.isPlaceholderOf p = false) :
    t.Alike u := by
  obtain ⟨other, hother, halike⟩ := h.elsewhere [] t rfl ht
  cases hother
  exact halike

mutual
/-- What is in place of the placeholder and what is kept elsewhere make up the whole type. -/
theorem Replaces.eq_substitute (t u : Ty) (h : t.Replaces p concrete u) :
    u = t.substitute p concrete := by
  cases t with
  | generic q =>
    rw [substitute]
    split
    next hsame => exact Option.some.inj (h.occurrence [] q rfl hsame)
    next hother =>
      have halike := h.alike (eq_false_of_ne_true hother)
      cases u <;> exact halike.symm
  | array component =>
    have halike := h.alike rfl
    cases u with
    | array other =>
      have hcomponent := h.step .component rfl rfl
      exact congrArg array (Replaces.eq_substitute component other hcomponent)
    | _ => cases halike
  | function params result =>
    have halike := h.alike rfl
    cases u with
    | function params' result' =>
      have hparams := Replaces.eq_substituteAll params params' halike
        fun place t u ht hu => h.step (.param place) ht hu
      rw [hparams, Replaces.eq_substitute result result' (h.step .result rfl rfl)]
      rfl
    | _ => cases halike
  | _ =>
    have halike := h.alike rfl
    cases u <;> exact halike.symm

theorem Replaces.eq_substituteAll (ts us : List Ty) (hlength : ts.length = us.length)
    (h : ∀ (place : Nat) (t u : Ty), ts[place]? = some t → us[place]? = some u →
      t.Replaces p concrete u) :
    us = substituteAll ts p concrete := by
  cases ts with
  | nil => exact List.eq_nil_of_length_eq_zero hlength.symm
  | cons t ts =>
    cases us with
    | nil => cases hlength
    | cons u us =>
      rw [substituteAll, Replaces.eq_substitute t u (h 0 t u rfl rfl),
        Replaces.eq_substituteAll ts us (Nat.succ.inj hlength) fun place => h (place + 1)]
end

theorem alike_refl (t : Ty) : t.Alike t := by
  cases t <;> first | rfl | trivial

theorem substitute_of_not_mentions (h : ¬ t.Mentions p) : t.substitute p concrete = t := by
  have hreplaces : t.Replaces p concrete t :=
    ⟨fun way q hway hsame => absurd ⟨way, q, hway, hsame⟩ h,
      fun way part hway _ => ⟨part, hway, alike_refl part⟩⟩
  exact hreplaces.eq_substitute.symm

theorem same_step? (h : t.same u) {step : Step} {inner other : Ty}
    (ht : t.step? step = some inner) (hu : u.step? step = some other) : inner.same other := by
  rcases same_cases h with rfl | ⟨d, e, rfl, rfl, hsame⟩ | ⟨decl, name, name', rfl, rfl⟩ |
    ⟨ps, r, qs, s, rfl, rfl⟩ | ⟨q, q', rfl, rfl⟩
  · cases ht.symm.trans hu
    exact inner.same_refl
  · cases step with
    | component =>
      cases ht
      cases hu
      exact hsame
    | _ => cases ht
  · cases step <;> cases ht
  · obtain ⟨hparams, hresult⟩ := Bool.and_eq_true_iff.mp h
    cases step with
    | component => cases ht
    | param place =>
      obtain ⟨param, hparam, hsame⟩ := sameAll_getElem? hparams hu
      cases hparam.symm.trans ht
      exact hsame
    | result =>
      cases ht
      cases hu
      exact hresult
  · cases step <;> cases ht

theorem same_at? (h : t.same u) {way : List Step} {part other : Ty} (ht : t.at? way = some part)
    (hu : u.at? way = some other) : part.same other := by
  induction way generalizing t u with
  | nil =>
    cases ht
    cases hu
    exact h
  | cons step way ih =>
    obtain ⟨inner, hstep, hinner⟩ := at?_cons.mp ht
    obtain ⟨inner', hstep', hinner'⟩ := at?_cons.mp hu
    exact ih (same_step? h hstep hstep') hinner hinner'

theorem same_substitute_iff :
    t.same (t.substitute p concrete) ↔ (t.Mentions p → concrete.same (generic p)) := by
  constructor
  · rintro hsame ⟨way, q, hway, hq⟩
    have hput := (replaces_substitute p concrete t).occurrence way q hway hq
    have hgeneric : (generic q).same concrete := same_at? hsame hway hput
    rw [same_comm] at hgeneric
    exact same_trans hgeneric hq
  · intro h
    by_cases hmentions : t.Mentions p
    · rw [same_comm]
      exact same_substitute (h hmentions) t
    · rw [substitute_of_not_mentions hmentions]
      exact t.same_refl

/-- What is declared can be put where the substituted type is expected just if the two are the same
and hold values. -/
theorem assignable_substitute_iff (t : Ty) : t.assignable (t.substitute p concrete) ↔
    (t.substitute p concrete).innermost.isVoid = false ∧ t.same (t.substitute p concrete) := by
  constructor
  · intro h
    cases t with
    | array component => exact (assignable_substitute_iff component).mp h
    | generic q =>
      rcases assignable_cases h with hsame | ⟨heq, _⟩ | ⟨heq, _⟩ | ⟨_, _, heq, _⟩
      · rw [assignable_congr_left hsame, assignable_self_iff] at h
        exact ⟨h, hsame⟩
      all_goals cases heq
    | void => cases h
    | struct decl name => exact ⟨rfl, same_refl _⟩
    | function params result => exact ⟨rfl, h⟩
    | _ => exact ⟨rfl, rfl⟩
  · rintro ⟨hvalue, hsame⟩
    rwa [assignable_congr_left hsame, assignable_self_iff]

theorem isPlaceholderOf_iff : t.isPlaceholderOf p ↔ ∃ q, t = generic q ∧ q.same p := by
  cases t with
  | generic q => simp [isPlaceholderOf]
  | _ => simp [isPlaceholderOf]

end Ty

open Ty

/-- The parameter at the place is the placeholder itself. -/
def Takes (p : Placeholder) (params : List Ty) (place : Nat) : Prop :=
  ∃ q, params[place]? = some (.generic q) ∧ q.same p

/-- The type is that of the first argument whose parameter is the placeholder itself. -/
def IsFirstTaken (p : Placeholder) (params arguments : List Ty) (type : Ty) : Prop :=
  ∃ place, Takes p params place ∧ arguments[place]? = some type ∧
    ∀ earlier < place, ¬ Takes p params earlier

section Choice

variable {p : Placeholder} {explicit : Option Ty} {params arguments : List Ty} {concrete : Ty}

theorem takes_iff {place : Nat} : Takes p params place ↔
    ∃ param, params[place]? = some param ∧ param.isPlaceholderOf p := by
  simp only [isPlaceholderOf_iff]
  constructor
  · rintro ⟨q, hq, hsame⟩
    exact ⟨_, hq, q, rfl, hsame⟩
  · rintro ⟨_, hq, q, rfl, hsame⟩
    exact ⟨q, hq, hsame⟩

theorem isFirstTaken_iff : IsFirstTaken p params arguments concrete ↔
    ((params.zip arguments).find? fun pair => pair.1.isPlaceholderOf p).map Prod.snd =
      some concrete := by
  simp only [Option.map_eq_some_iff, List.find?_eq_some_iff_getElem]
  constructor
  · rintro ⟨place, htakes, hargument, hearlier⟩
    obtain ⟨param, hparam, htaken⟩ := takes_iff.mp htakes
    obtain ⟨hlt, hpair⟩ := List.getElem?_eq_some_iff.mp
      (List.getElem?_zip_eq_some.mpr ⟨hparam, hargument⟩ :
        (params.zip arguments)[place]? = some (param, concrete))
    refine ⟨(param, concrete), ⟨htaken, place, hlt, hpair, fun earlier hbefore => ?_⟩, rfl⟩
    rw [Bool.not_eq_true', Bool.eq_false_iff]
    intro hother
    rw [List.getElem_zip] at hother
    exact hearlier earlier hbefore (takes_iff.mpr ⟨_, List.getElem?_eq_getElem _, hother⟩)
  · rintro ⟨⟨param, _⟩, ⟨htaken, place, hlt, hpair, hearlier⟩, rfl⟩
    obtain ⟨hparam, hargument⟩ := List.getElem?_zip_eq_some.mp
      (List.getElem?_eq_some_iff.mpr ⟨hlt, hpair⟩)
    refine ⟨place, takes_iff.mpr ⟨param, hparam, htaken⟩, hargument, fun earlier hbefore => ?_⟩
    intro htakes
    obtain ⟨other, hother, hotaken⟩ := takes_iff.mp htakes
    have hnot := hearlier earlier hbefore
    rw [List.getElem_zip, (List.getElem?_eq_some_iff.mp hother).2, hotaken] at hnot
    cases hnot

theorem concreteFor?_eq_some_iff : concreteFor? p explicit params arguments = some concrete ↔
    explicit = some concrete ∨ explicit = none ∧ IsFirstTaken p params arguments concrete := by
  rw [concreteFor?, Option.or_eq_some_iff, isFirstTaken_iff]

theorem concreteFor?_eq_none_iff : concreteFor? p explicit params arguments = none ↔
    explicit = none ∧ ∀ place < arguments.length, ¬ Takes p params place := by
  rw [concreteFor?, Option.or_eq_none_iff, Option.map_eq_none_iff, List.find?_eq_none]
  refine and_congr_right fun _ => ⟨?_, ?_⟩
  · intro hnone place hplace htakes
    obtain ⟨param, hparam, htaken⟩ := takes_iff.mp htakes
    have hpair : (params.zip arguments)[place]? = some (param, arguments[place]) :=
      List.getElem?_zip_eq_some.mpr ⟨hparam, List.getElem?_eq_getElem hplace⟩
    exact hnone _ (List.mem_of_getElem? hpair) htaken
  · rintro hnone ⟨param, argument⟩ hmem htaken
    obtain ⟨place, hpair⟩ := List.mem_iff_getElem?.mp hmem
    obtain ⟨hparam, hargument⟩ := List.getElem?_zip_eq_some.mp hpair
    exact hnone place (List.getElem?_eq_some_iff.mp hargument).1
      (takes_iff.mpr ⟨param, hparam, htaken⟩)

theorem binding_eq_none_iff {callee : Ty} :
    (instantiate callee explicit arguments).binding = none ↔
      callee.placeholder? = none ∨ ∃ p, callee.placeholder? = some p ∧
        concreteFor? p explicit callee.params arguments = none := by
  unfold instantiate
  split
  next hnone => simp [hnone]
  next p hp =>
    cases hconcrete : concreteFor? p explicit callee.params arguments <;> simp [hp, hconcrete]

theorem callee_of_bound {callee : Ty}
    (h : (instantiate callee explicit arguments).binding = some (p, concrete)) :
    (instantiate callee explicit arguments).callee = callee.substitute p concrete := by
  obtain ⟨hp, hconcrete⟩ := instantiate_binding.mp h
  simp only [instantiate, hp, hconcrete]

theorem callee_of_unbound {callee : Ty}
    (h : (instantiate callee explicit arguments).binding = none) :
    (instantiate callee explicit arguments).callee = callee := by
  rcases binding_eq_none_iff.mp h with hnone | ⟨p, hp, hconcrete⟩
  · simp only [instantiate, hnone]
  · simp only [instantiate, hp, hconcrete]

end Choice

/-- A call that binds a placeholder replaces every occurrence of it in its callee and nothing else,
and takes the type from where it is written, or else from the first argument for the placeholder
itself. A call that binds none leaves its callee as it is. -/
theorem instantiate_complete (callee : Ty) (explicit : Option Ty) (arguments : List Ty) :
    (callee.placeholder?.isSome ↔ ∃ p, callee.Mentions p) ∧
    (∀ p concrete, (instantiate callee explicit arguments).binding = some (p, concrete) →
      callee.placeholder? = some p ∧ callee.Mentions p ∧
      callee.Replaces p concrete (instantiate callee explicit arguments).callee ∧
      ((∀ q, callee.Mentions q → q.same p) → (∀ q, ¬ concrete.Mentions q) →
        ∀ q, ¬ (instantiate callee explicit arguments).callee.Mentions q) ∧
      (explicit = some concrete ∨
        explicit = none ∧ IsFirstTaken p callee.params arguments concrete)) ∧
    ((instantiate callee explicit arguments).binding = none ↔
      (∀ p, ¬ callee.Mentions p) ∨ explicit = none ∧
        ∃ p, callee.placeholder? = some p ∧
          ∀ place < arguments.length, ¬ Takes p callee.params place) ∧
    ((instantiate callee explicit arguments).binding = none →
      (instantiate callee explicit arguments).callee = callee) := by
  refine ⟨?_, ?_, ?_, callee_of_unbound⟩
  · rw [← Option.ne_none_iff_isSome]
    exact placeholder?_eq_none_iff.not.trans not_forall_not
  · intro p concrete hbound
    obtain ⟨hp, hconcrete⟩ := instantiate_binding.mp hbound
    rw [callee_of_bound hbound]
    exact ⟨hp, .of_placeholder? hp, replaces_substitute p concrete callee,
      not_mentions_substitute, concreteFor?_eq_some_iff.mp hconcrete⟩
  · rw [binding_eq_none_iff, placeholder?_eq_none_iff]
    refine or_congr_right ?_
    simp only [concreteFor?_eq_none_iff]
    constructor
    · rintro ⟨p, hp, hexplicit, hnone⟩
      exact ⟨hexplicit, p, hp, hnone⟩
    · rintro ⟨hexplicit, p, hp, hnone⟩
      exact ⟨p, hp, hexplicit, hnone⟩

/-- The second argument settles the type of the placeholder, which the result takes inside an
array. -/
theorem instantiate_complete_array :
    let p : Placeholder := { decl := 1, function := 0, name := "T" }
    let callee : Ty := .function [.int, .generic p] (.array (.generic p))
    (instantiate callee none [.int, .string]).binding = some (p, .string) ∧
      callee.Replaces p .string (instantiate callee none [.int, .string]).callee ∧
      IsFirstTaken p callee.params [.int, .string] .string := by
  intro p callee
  obtain ⟨_, hbound, _⟩ := instantiate_complete callee none [.int, .string]
  obtain ⟨_, _, hreplaces, _, hexplicit | ⟨_, htaken⟩⟩ := hbound p .string rfl
  · cases hexplicit
  · exact ⟨rfl, hreplaces, htaken⟩

end Attribution
