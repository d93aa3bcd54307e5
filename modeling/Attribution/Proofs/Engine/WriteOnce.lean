import Attribution.Engine.Recipe
import Attribution.Proofs.Engine.Changes
/-!
# Cells are written once

Of all attempts to write a cell the first one counts. The later ones become conflicts and change
nothing else, and what a rule writes to outputs that it does not have is not even an attempt.
-/
namespace Attribution

variable {ρ σ : Type} [RuleFamily ρ σ]

/-- What is left of an effect without the writes to outputs that the rule does not have. -/
def Effect.declared (rule : ρ) (effect : Effect ρ) : Effect ρ :=
  { effect with
    writes := effect.writes.filter fun write => write.1 < (RuleFamily.outputs rule).length }

theorem Effect.cellWrites_declared (rule : ρ) (effect : Effect ρ) :
    Engine.cellWrites rule (effect.declared rule) = Engine.cellWrites rule effect := by
  rw [Engine.cellWrites, declared, List.filterMap_filter, Engine.cellWrites]
  apply List.filterMap_congr
  intro (output, value) _
  split
  next => rfl
  next hbeyond =>
    have hnone : (RuleFamily.outputs rule)[output]? = none :=
      List.getElem?_eq_none (by simpa using hbeyond)
    exact (congrArg (Option.map fun cell => (cell, value)) hnone).symm

namespace Engine

theorem perform_declared (engine : Engine ρ) (rule : ρ) (effect : Effect ρ) :
    engine.perform rule (effect.declared rule) = engine.perform rule effect := by
  rw [perform, Effect.cellWrites_declared]
  rfl

theorem conflicts_write_of_eq_none {engine : Engine ρ} {cell : Cell} (h : engine.view cell = none)
    (value : Value) (label : String) :
    (engine.write cell value label).conflicts = engine.conflicts := by
  rw [write, h]
  exact (foldl_wake_frame _ (engine.store cell value)).2.2.1

end Engine

namespace Course

variable {turn : Engine ρ → RuleId → Prop} {changes more : List (Change ρ)} {engine : Engine ρ}

theorem view_of_append (h : Course turn (changes ++ more) engine) {cell : Cell} {value : Value}
    (hvalue : (Engine.replay changes).view cell = some value) : engine.view cell = some value := by
  rw [h.of_append.journal.view] at hvalue
  rw [h.journal.view, Change.attempts_append]
  exact Attempt.first_append_of_some hvalue _

end Course

/-- List all attempts to write a cell, in the order in which they take effect, in the name of those
who make them. A cell holds what the first attempt on it brought, from then on and ever after, and
the conflicts are all other attempts in order. An attempt on a cell that was written before leaves
its conflict behind and nothing else; the first one leaves none. Whichever rule fires next, its
writes to outputs that it does not have make no difference. -/
theorem cells_written_once {setting : σ} {events : List (Event ρ)} {engine : Engine ρ}
    (h : History setting events engine) :
    let changes := events.flatMap (Event.changes setting)
    (∀ cell, engine.view cell = Attempt.first (Change.attempts changes) cell) ∧
    engine.conflicts = Attempt.rejected [] (Change.attempts changes) ∧
    (∀ done rest, changes = done ++ rest →
      rest.foldl Engine.change (Engine.replay done) = engine ∧
      ∀ cell value, (Engine.replay done).view cell = some value →
        engine.view cell = some value) ∧
    (∀ done attempt rest, changes = done ++ .write attempt :: rest →
      let now := Engine.replay done
      let next := now.change (.write attempt)
      (attempt.cell ∈ (Change.attempts done).map Attempt.cell → next =
        { now with
          conflicts := now.conflicts ++ [{ cell := attempt.cell, label := attempt.label }] }) ∧
      (attempt.cell ∉ (Change.attempts done).map Attempt.cell →
        next.conflicts = now.conflicts ∧ next.view attempt.cell = some attempt.value)) ∧
    ∀ id slot, engine.Waits id slot → engine.fireReady setting id =
      ((engine.unqueue id).mark id).perform slot.rule
        ((RuleFamily.fire setting slot.rule engine.view).declared slot.rule) := by
  intro changes
  have hcourse : Course Engine.Queued changes engine := h.course
  refine ⟨hcourse.journal.view, hcourse.journal.conflicts, ?_, ?_, ?_⟩
  · intro done rest hsplit
    rw [hsplit] at hcourse
    exact ⟨hcourse.foldl_of_append, fun cell value => hcourse.view_of_append⟩
  · intro done attempt rest hsplit now next
    rw [hsplit] at hcourse
    rw [← hcourse.of_append.isSome_view_iff]
    refine ⟨fun hheld => Engine.write_of_isSome hheld _ _, fun hfree => ?_⟩
    have hnone : now.view attempt.cell = none := Option.not_isSome_iff_eq_none.mp hfree
    refine ⟨Engine.conflicts_write_of_eq_none hnone _ _, ?_⟩
    change (now.write _ _ _).view _ = _
    rw [Engine.view_write, if_pos rfl, hnone, Option.getD_none]
  · intro id slot hslot
    rw [Engine.perform_declared, Engine.fireReady_of_waits hslot]

/-- A rule that writes a cell that was set, then one of its own twice, then an output that it does
not have. -/
theorem cells_written_once_rewritten :
    let rule : Recipe := .steps "rewrite" [] [.type 0, .type 1]
      [.set 0 (.type .float), .set 1 (.type .int), .set 1 (.type .bool), .set 2 (.type .void)]
    let engine := ((({} : Engine Recipe).obey (.set (.type 0) (.type .int))).obey
      (.add rule)).fireReady (0 : Nat) 0
    engine.view (.type 0) = some (.type .int) ∧ engine.view (.type 1) = some (.type .int) ∧
      engine.conflicts = [⟨.type 0, "rewrite"⟩, ⟨.type 1, "rewrite"⟩] := by
  intro rule engine
  have h : History (0 : Nat) _ engine :=
    .fire (.obey (.add rule) (.obey (.set (.type 0) (.type .int)) .new)) List.mem_cons_self
  obtain ⟨hview, hconflicts, _⟩ := cells_written_once h
  exact ⟨(hview _).trans rfl, (hview _).trans rfl, hconflicts.trans rfl⟩

end Attribution
