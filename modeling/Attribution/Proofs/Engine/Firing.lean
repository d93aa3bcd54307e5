import Mathlib.Data.List.Perm.Lattice
import Attribution.Engine.Recipe
import Attribution.Proofs.Engine.History
/-!
# What fires

A rule fires at most once, and only when all its inputs hold values. When a run is over, exactly
the rules with all inputs set have fired, and the others are the stalled ones.
-/
namespace Attribution

variable {ρ σ : Type}

namespace Engine

private theorem countP_range_getElem? {α : Type} (as : List α) (p : α → Bool) :
    (List.range as.length).countP (fun i => as[i]?.any p) = as.countP p := by
  induction as with
  | nil => rfl
  | cons a as ih =>
    rw [List.length_cons, List.range_succ_eq_map, List.countP_cons, List.countP_cons,
      List.countP_map, ← ih]
    rfl

theorem countP_fired (engine : Engine ρ) (hnd : engine.fired.Nodup)
    (hfired : ∀ id, id ∈ engine.fired ↔ engine.HasFired id) (p : ρ → Bool) :
    engine.fired.countP (fun id => engine.rules[id]?.any p) =
      engine.slots.countP fun slot => slot.fired && p slot.rule := by
  have hperm : (engine.fired.filter fun id => engine.rules[id]?.any p).Perm
      ((List.range engine.slots.size).filter fun id =>
        engine.slots.toList[id]?.any fun slot => slot.fired && p slot.rule) := by
    apply (List.perm_ext_iff_of_nodup (hnd.filter _) (List.nodup_range.filter _)).mpr
    intro id
    simp only [List.mem_filter, hfired, List.mem_range, Array.getElem?_toList,
      Option.any_eq_true, Bool.and_eq_true, getElem?_rules]
    constructor
    · intro ⟨⟨slot, hslot, hf⟩, rule, ⟨other, hother, hrule⟩, hp⟩
      have heq := Option.some.inj (hslot.symm.trans hother)
      refine ⟨(Array.getElem?_eq_some_iff.mp hslot).1, slot, hslot, hf, ?_⟩
      rw [heq, hrule]
      exact hp
    · intro ⟨_, slot, hslot, hf, hp⟩
      exact ⟨⟨slot, hslot, hf⟩, slot.rule, ⟨slot, hslot, rfl⟩, hp⟩
  rw [List.countP_eq_length_filter, hperm.length_eq, ← List.countP_eq_length_filter,
    ← Array.countP_toList, ← Array.length_toList, countP_range_getElem?]

theorem length_fired_add_stalled (engine : Engine ρ) (hnd : engine.fired.Nodup)
    (hfired : ∀ id, id ∈ engine.fired ↔ engine.HasFired id) :
    engine.fired.length + engine.stalled = engine.slots.size := by
  have hall : engine.fired.length =
      engine.fired.countP fun id => engine.rules[id]?.any fun _ => true := by
    symm
    rw [List.countP_eq_length]
    intro id hid
    obtain ⟨slot, hslot, _⟩ := (hfired id).mp hid
    simp [rules, hslot]
  rw [hall, countP_fired engine hnd hfired, stalled, ← Array.countP_toList,
    ← Array.countP_toList, ← Array.length_toList,
    List.length_eq_countP_add_countP fun slot => slot.fired]
  simp only [Bool.not_eq_true, Bool.decide_eq_false, Bool.and_true]

variable [RuleFamily ρ σ]

def lacksInput (engine : Engine ρ) (rule : ρ) : Bool :=
  (RuleFamily.inputs rule).any fun cell => (engine.view cell).isNone

theorem lacksInput_eq_false {engine : Engine ρ} {rule : ρ} :
    engine.lacksInput rule = false ↔
      ∀ cell ∈ RuleFamily.inputs rule, (engine.view cell).isSome := by
  simp [lacksInput, Option.isSome_iff_ne_none]

theorem Kept.lacksInput_of_waits {engine : Engine ρ} (h : engine.Kept) (hdone : engine.ready = [])
    {id : RuleId} {slot : Slot ρ} (hslot : engine.Waits id slot) :
    engine.lacksInput slot.rule = true := by
  obtain ⟨cell, hcell, hnone⟩ := h.awaits_of_done hdone hslot
  exact List.any_eq_true.mpr ⟨cell, hcell, by simp [hnone]⟩

theorem stalled_eq_countP {engine : Engine ρ} (h : engine.Kept) (hdone : engine.ready = [])
    (hfired : ∀ (id : RuleId) (slot : Slot ρ), engine.slots[id]? = some slot → slot.fired = true →
      engine.lacksInput slot.rule = false) :
    engine.stalled = engine.rules.countP engine.lacksInput := by
  rw [stalled, rules, Array.toList_map, List.countP_map, ← Array.countP_toList]
  apply List.countP_congr
  intro slot hmem
  obtain ⟨id, hslot⟩ := Array.mem_iff_getElem?.mp (Array.mem_toList_iff.mp hmem)
  cases hf : slot.fired with
  | true => simp [hfired id slot hslot hf]
  | false => simp [h.lacksInput_of_waits hdone ⟨hslot, hf⟩]

end Engine

variable [RuleFamily ρ σ]

namespace History

open Engine

variable {setting : σ} {events : List (Event ρ)} {engine : Engine ρ}

theorem not_lacksInput (h : History setting events engine) {id : RuleId} {slot : Slot ρ}
    (hslot : engine.slots[id]? = some slot) (hfired : slot.fired = true) :
    engine.lacksInput slot.rule = false := by
  obtain ⟨rule, view, hfiring⟩ := h.hasFired_iff.mp ⟨slot, hslot, hfired⟩
  obtain ⟨other, hother, hrule⟩ := getElem?_rules.mp (h.rule_of_firing hfiring)
  have heq : slot.rule = rule := by
    rw [← hrule, Option.some.inj (hslot.symm.trans hother)]
  rw [heq, lacksInput_eq_false]
  exact fun _ => h.isSome_of_firing hfiring

/-- When nothing is ready, the rules that have fired are those whose inputs are all set. -/
theorem fired_iff (h : History setting events engine) (hdone : engine.ready = []) {id : RuleId}
    {rule : ρ} (hrule : engine.rules[id]? = some rule) :
    (∃ view, .firing id rule view ∈ events) ↔
      ∀ cell ∈ RuleFamily.inputs rule, (engine.view cell).isSome := by
  obtain ⟨slot, hslot, rfl⟩ := getElem?_rules.mp hrule
  constructor
  · intro ⟨view, hfiring⟩
    exact fun _ => h.isSome_of_firing hfiring
  · intro hinputs
    cases hf : slot.fired with
    | false =>
      obtain ⟨cell, hcell, hnone⟩ := h.kept.awaits_of_done hdone ⟨hslot, hf⟩
      have hsome := hinputs cell hcell
      rw [hnone] at hsome
      cases hsome
    | true =>
      obtain ⟨other, view, hfiring⟩ := h.hasFired_iff.mp ⟨slot, hslot, hf⟩
      have heq := Option.some.inj (hrule.symm.trans (h.rule_of_firing hfiring))
      exact ⟨view, heq ▸ hfiring⟩

theorem fired_add_stalled (h : History setting events engine) :
    engine.fixpoint.fired + engine.fixpoint.stalled = engine.rules.length := by
  have hsize : engine.rules.length = engine.slots.size := by simp [Engine.rules]
  rw [hsize]
  exact Engine.length_fired_add_stalled engine h.kept.fired_nodup h.kept.fired

end History

/-- Whatever an engine was told and whichever ready rules had their turn: no rule fires twice, a
rule fires only with all its inputs set, and when a run returns, the rules with all inputs set have
fired, the others are counted as stalled, and together these are all rules. -/
theorem fires_exactly {setting : σ} {events : List (Event ρ)} {engine : Engine ρ}
    (h : History setting events engine) :
    (events.filterMap Event.fired?).Nodup ∧
    (∀ id rule view, .firing id rule view ∈ events →
      engine.rules[id]? = some rule ∧ ∀ cell ∈ RuleFamily.inputs rule, (view cell).isSome) ∧
    ∀ final, engine.Returns setting final → ∃ later,
      History setting (events ++ later) final ∧ later.filterMap Event.command? = [] ∧
      (∀ id rule, final.rules[id]? = some rule →
        ((∃ view, .firing id rule view ∈ events ++ later) ↔
          ∀ cell ∈ RuleFamily.inputs rule, (final.view cell).isSome)) ∧
      final.fixpoint.fired = ((events ++ later).filterMap Event.fired?).length ∧
      final.fixpoint.stalled = final.rules.countP final.lacksInput ∧
      final.fixpoint.fired + final.fixpoint.stalled = final.rules.length := by
  refine ⟨?_, ?_, ?_⟩
  · rw [← h.records.fired]
    exact h.kept.fired_nodup
  · intro id rule view hfiring
    obtain ⟨_, _, _, _, _, _, _, hinputs⟩ := h.moment hfiring
    exact ⟨h.rule_of_firing hfiring, hinputs⟩
  · intro final ⟨n, hfinal, hdone⟩
    obtain ⟨later, hlater, hcommands⟩ := h.drain n
    rw [hfinal] at hlater
    refine ⟨later, hlater, hcommands, ?_, ?_, ?_, ?_⟩
    · intro id rule hrule
      exact hlater.fired_iff hdone hrule
    · exact congrArg List.length hlater.records.fired
    · apply Engine.stalled_eq_countP hlater.kept hdone
      intro id slot hslot hfired
      exact hlater.not_lacksInput hslot hfired
    · exact hlater.fired_add_stalled

/-- A rule that names one input twice fires once, and of the two rules that it adds one is
stalled. -/
theorem fires_exactly_twice :
    let outer : Recipe := .steps "outer" [.type 0, .type 0] [.type 1]
      [.spawn (.copy "inner" (.type 0) (.type 2)), .spawn (.copy "idle" (.type 3) (.type 4))]
    let engine := (({} : Engine Recipe).obey (.add outer)).obey (.set (.type 0) (.type .int))
    let final := engine.run 0
    engine.Returns 0 final ∧ final.rules.length = 3 ∧
      final.fixpoint.fired + final.fixpoint.stalled = final.rules.length ∧
      final.fixpoint.fired = 2 := by
  intro outer engine final
  have h : History (0 : Nat) _ engine :=
    .obey (.set (.type 0) (.type .int)) (.obey (.add outer) .new)
  have hdone : final.ready = [] := by decide +kernel
  have hreturns : engine.Returns 0 final := ⟨engine.backlog, rfl, hdone⟩
  obtain ⟨_, _, _, _, _, _, htotal⟩ := (fires_exactly h).2.2 final hreturns
  exact ⟨hreturns, by decide +kernel, htotal, by decide +kernel⟩

end Attribution
