import Attribution.Proofs.Engine.Schedule
/-!
# What rules and cells keep

If the commands bring only rules and values of a certain kind, and rules of this kind that read such
values bring only such rules and values again, no others are ever met.
-/
namespace Attribution

variable {ρ σ : Type} [RuleFamily ρ σ]

/-- The value of each cell is one that the cell may hold. -/
def View.Holds (holds : Cell → Value → Prop) (view : View) : Prop :=
  ∀ cell value, view cell = some value → holds cell value

/-- A rule that reads values that their cells may hold writes such values again. The rules that it
spawns are of its kind. -/
structure RuleFamily.Upkeep (setting : σ) (kind : ρ → Prop) (holds : Cell → Value → Prop) :
    Prop where
  spawned : ∀ rule view, kind rule → view.Holds holds →
    ∀ next ∈ (RuleFamily.fire setting rule view).spawned, kind next
  writes : ∀ rule view, kind rule → view.Holds holds →
    ∀ write ∈ Engine.cellWrites rule (RuleFamily.fire setting rule view), holds write.1 write.2

namespace History

open Engine Event

variable {setting : σ} {events : List (Event ρ)} {engine : Engine ρ} {kind : ρ → Prop}
  {holds : Cell → Value → Prop}

theorem holds_of_attempts (h : History setting events engine)
    (hattempts : ∀ attempt ∈ events.flatMap (Event.attempts setting),
      holds attempt.cell attempt.value) : engine.view.Holds holds := by
  intro cell value hvalue
  rw [h.records.journal.view] at hvalue
  obtain ⟨attempt, hmem, rfl, rfl⟩ := Attempt.first_eq_some hvalue
  exact hattempts attempt hmem

/-- What is kept by each rule is kept throughout. -/
theorem keeps (h : History setting events engine)
    (hkeeps : RuleFamily.Upkeep setting kind holds)
    (hadd : ∀ rule, .add rule ∈ commands events → kind rule)
    (hset : ∀ cell value, .set cell value ∈ commands events → holds cell value) :
    (∀ rule ∈ engine.rules, kind rule) ∧ engine.view.Holds holds := by
  have hall : (∀ rule ∈ events.flatMap (Event.rules setting), kind rule) ∧
      ∀ attempt ∈ events.flatMap (Event.attempts setting),
        holds attempt.cell attempt.value := by
    induction h with
    | new => simp
    | @obey events engine command h ih =>
      rw [commands_append_command] at hadd hset
      obtain ⟨hrules, hattempts⟩ := ih
        (fun rule hrule => hadd rule (List.mem_append_left _ hrule))
        (fun cell value hvalue => hset cell value (List.mem_append_left _ hvalue))
      rw [List.flatMap_append, List.flatMap_append, List.flatMap_singleton, List.flatMap_singleton,
        List.forall_mem_append, List.forall_mem_append]
      cases command with
      | set cell value =>
        have hnew := hset cell value (List.mem_append_right _ List.mem_cons_self)
        exact ⟨⟨hrules, by simp [Event.rules]⟩, hattempts, by simpa [Event.attempts] using hnew⟩
      | add rule =>
        have hnew := hadd rule (List.mem_append_right _ List.mem_cons_self)
        exact ⟨⟨hrules, by simpa [Event.rules] using hnew⟩, hattempts, by simp [Event.attempts]⟩
      | report finding =>
        exact ⟨⟨hrules, by simp [Event.rules]⟩, hattempts, by simp [Event.attempts]⟩
    | @fire events engine id h hready ih =>
      obtain ⟨slot, hslot, hexecutes, _⟩ := h.executes_of_ready hready
      rw [hexecutes, commands_append_firing] at hadd hset
      obtain ⟨hrules, hattempts⟩ := ih hadd hset
      rw [hexecutes, List.flatMap_append, List.flatMap_append, List.flatMap_singleton,
        List.flatMap_singleton, List.forall_mem_append, List.forall_mem_append]
      have hkind : kind slot.rule := by
        apply hrules
        rw [← h.records.rules]
        exact mem_rules.mpr ⟨id, slot, hslot.1, rfl⟩
      have hview := h.holds_of_attempts hattempts
      refine ⟨⟨hrules, hkeeps.spawned _ _ hkind hview⟩, hattempts, ?_⟩
      intro attempt hattempt
      obtain ⟨write, hwrite, rfl⟩ := List.mem_map.mp hattempt
      exact hkeeps.writes _ _ hkind hview write hwrite
  rw [h.records.rules]
  exact ⟨hall.1, h.holds_of_attempts hall.2⟩

end History
end Attribution
