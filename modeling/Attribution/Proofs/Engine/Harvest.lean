import Attribution.Proofs.Engine.Fixpoint
import Attribution.Proofs.Engine.Schedule
/-!
# What is found in the end

Where nothing is found by rules that are spawned, every finding comes of one command: one that is
reported, or those of a rule that is added, acting on the final cells. None is lost and none comes
twice.
-/
namespace Attribution

variable {ρ σ : Type} [RuleFamily ρ σ]

/-- What comes to be found because of a command, once the cells of an engine are final. -/
def Command.findings (setting : σ) (engine : Engine ρ) : Command ρ → List Finding
  | set _ _ => []
  | report finding => [finding]
  | add rule =>
    if engine.lacksInput rule then [] else (RuleFamily.fire setting rule engine.view).findings

namespace History

open Engine Event

variable {setting : σ} {events : List (Event ρ)} {engine : Engine ρ}

theorem firedRules_eq (h : History setting events engine) (hdone : engine.ready = []) :
    (firedRules events : Multiset ρ) = engine.rules.filter fun rule => !engine.lacksInput rule := by
  classical
  ext rule
  rw [Multiset.coe_count, Multiset.coe_count, List.count_eq_countP, List.count_eq_countP,
    h.countP_firedRules, List.countP_filter, Engine.rules, Array.toList_map, List.countP_map,
    ← Array.countP_toList]
  apply List.countP_congr
  intro slot hmem
  obtain ⟨id, hslot⟩ := Array.mem_iff_getElem?.mp (Array.mem_toList_iff.mp hmem)
  cases hf : slot.fired with
  | true => simp [h.not_lacksInput hslot hf]
  | false => simp [h.kept.lacksInput_of_waits hdone ⟨hslot, hf⟩]

variable [RuleFamily.Local ρ]

/-- If spawned rules find nothing, the findings are those that come of the commands. -/
theorem findings_perm (h : History setting events engine) (hdone : engine.ready = [])
    (hquiet : ∀ (rule next : ρ) (view view' : View),
      next ∈ (RuleFamily.fire setting rule view).spawned →
        (RuleFamily.fire setting next view').findings = []) :
    engine.findings.Perm ((commands events).flatMap (Command.findings setting engine)) := by
  let found (rule : ρ) : Multiset Finding :=
    if engine.lacksInput rule then 0 else (RuleFamily.fire setting rule engine.view).findings
  have hfindings := flatMap_eq_bind events (Event.findings setting) _
    (fun rule => (RuleFamily.fire setting rule engine.view).findings) (fun _ => rfl)
    fun _ _ _ hfiring => congrArg Effect.findings (h.fire_eq hfiring)
  have hrules := flatMap_eq_bind events (Event.rules setting) _
    (fun rule => (RuleFamily.fire setting rule engine.view).spawned) (fun _ => rfl)
    fun _ _ _ hfiring => congrArg Effect.spawned (h.fire_eq hfiring)
  have hfired : (firedRules events : Multiset ρ).bind (fun rule =>
      (RuleFamily.fire setting rule engine.view).findings) =
        (engine.rules : Multiset ρ).bind found := by
    rw [h.firedRules_eq hdone]
    induction engine.rules with
    | nil => rfl
    | cons rule rules ih =>
      rw [← Multiset.cons_coe rule, Multiset.cons_bind, ← ih]
      cases hlacks : engine.lacksInput rule with
      | true => simp [found, hlacks]
      | false => simp [found, hlacks]
  have hspawned : ((firedRules events : Multiset ρ).bind fun rule =>
      ((RuleFamily.fire setting rule engine.view).spawned : Multiset ρ)).bind found = 0 := by
    rw [Multiset.eq_zero_iff_forall_notMem]
    intro finding hmem
    obtain ⟨next, hnext, hfinding⟩ := Multiset.mem_bind.mp hmem
    obtain ⟨rule, _, hspawn⟩ := Multiset.mem_bind.mp hnext
    have hnone := hquiet rule next engine.view engine.view (Multiset.mem_coe.mp hspawn)
    simp [found, hnone] at hfinding
  have hcommand : ∀ command : Command ρ,
      ((Event.findings setting (.command command) : List Finding) : Multiset Finding) +
        (Event.rules setting (.command command) : Multiset ρ).bind found =
          (command.findings setting engine : Multiset Finding) := by
    intro command
    cases command with
    | set cell value => simp [Event.findings, Event.rules, Command.findings]
    | report finding => simp [Event.findings, Event.rules, Command.findings]
    | add rule =>
      cases hlacks : engine.lacksInput rule <;>
        simp [Event.findings, Event.rules, Command.findings, found, hlacks]
  apply Multiset.coe_eq_coe.mp
  rw [h.records.findings, hfindings, hfired, h.records.rules, hrules, Multiset.add_bind, hspawned,
    add_zero, Multiset.bind_assoc, ← Multiset.bind_add, ← Multiset.coe_bind]
  exact Multiset.bind_congr fun command _ => hcommand command

end History
end Attribution
