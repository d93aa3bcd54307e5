import Attribution.Proofs.Engine.Fixpoint
import Attribution.Proofs.Engine.Schedule
/-!
# Single producers

Give every rule a share of the cells, large enough for what the rule writes together with the
shares of the rules that it spawns. If the shares of the commands do not overlap, no cell is ever
written twice: a share passes from a rule to the rules that it spawns, and a rule fires once.
-/
namespace Attribution

variable {ρ σ : Type}

/-- What comes of a command stays within these cells, if rules stay within their shares. -/
def Command.share (share : ρ → List Cell) : Command ρ → List Cell
  | set cell _ => [cell]
  | add rule => share rule
  | report _ => []

variable [RuleFamily ρ σ]

/-- The writes of a rule and the shares of the rules that it spawns fit into its share. -/
def KeepsShares (setting : σ) (share : ρ → List Cell) : Prop :=
  ∀ rule view, ((Engine.cellWrites rule (RuleFamily.fire setting rule view)).map Prod.fst ++
    (RuleFamily.fire setting rule view).spawned.flatMap share).Subperm (share rule)

theorem Effect.map_cell_attempts (rule : ρ) (effect : Effect ρ) :
    (effect.attempts rule).map Attempt.cell = (Engine.cellWrites rule effect).map Prod.fst := by
  simp [Effect.attempts, Function.comp_def]

namespace History

open Event

variable {setting : σ} {events : List (Event ρ)} {engine : Engine ρ} {share : ρ → List Cell}

theorem firedRules_le_rules (h : History setting events engine) :
    (firedRules events : Multiset ρ) ≤ engine.rules := by
  classical
  rw [Multiset.le_iff_count]
  intro rule
  rw [Multiset.coe_count, Multiset.coe_count, List.count_eq_countP, List.count_eq_countP,
    h.countP_firedRules, Engine.rules, Array.toList_map, List.countP_map, ← Array.countP_toList]
  apply List.countP_mono_left
  intro slot _ hslot
  exact (Bool.and_eq_true_iff.mp hslot).2

theorem share_le (hkeeps : KeepsShares setting share) (event : Event ρ) :
    ((event.attempts setting).map Attempt.cell : Multiset Cell) +
        (event.rules setting).flatMap share ≤
      event.command?.toList.flatMap (Command.share share) +
        event.rule?.toList.flatMap share := by
  cases event with
  | command command =>
    cases command <;> simp [Event.attempts, Event.rules, command?, rule?, Command.share]
  | firing id rule view =>
    have hfits := Multiset.coe_le.mpr (hkeeps rule view)
    simpa [Event.attempts, Event.rules, command?, rule?, Effect.map_cell_attempts] using hfits

/-- What was written, with the shares of all rules that were registered, fits into what the
commands brought, with the shares of the rules that fired. -/
theorem shares_le (hkeeps : KeepsShares setting share) (events : List (Event ρ)) :
    ((events.flatMap (Event.attempts setting)).map Attempt.cell : Multiset Cell) +
        (events.flatMap (Event.rules setting)).flatMap share ≤
      (commands events).flatMap (Command.share share) + (firedRules events).flatMap share := by
  induction events with
  | nil => exact le_refl _
  | cons event events ih =>
    have hboth := add_le_add (share_le hkeeps event) ih
    simpa only [commands, firedRules, List.filterMap_eq_flatMap_toList, List.flatMap_cons,
      List.flatMap_append, List.map_append, ← Multiset.coe_add, add_add_add_comm] using hboth

theorem nodup_attempts (hkeeps : KeepsShares setting share) (h : History setting events engine)
    (hnd : ((commands events).flatMap (Command.share share)).Nodup) :
    ((events.flatMap (Event.attempts setting)).map Attempt.cell).Nodup := by
  have hle := bind_le_bind h.firedRules_le_rules fun rule => (share rule : Multiset Cell)
  rw [h.records.rules, Multiset.coe_bind, Multiset.coe_bind] at hle
  have hcells := (shares_le hkeeps events).trans (add_le_add_right hle _)
  exact Multiset.coe_nodup.mp (Multiset.nodup_of_le (le_of_add_le_add_right hcells)
    (Multiset.coe_nodup.mpr hnd))

theorem conflicts_eq_nil (hkeeps : KeepsShares setting share) (h : History setting events engine)
    (hnd : ((commands events).flatMap (Command.share share)).Nodup) : engine.conflicts = [] := by
  rw [h.records.journal.conflicts, Attempt.rejected_eq_nil]
  exact ⟨nodup_attempts hkeeps h hnd, fun _ _ => List.not_mem_nil⟩

end History

end Attribution
