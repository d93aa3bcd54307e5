import Mathlib.Data.Finset.Dedup
import Mathlib.Data.Finset.Card
import Attribution.Engine.Recipe
import Attribution.Proofs.Engine.Acyclic
import Attribution.Proofs.Engine.Changes
import Attribution.Proofs.Strict.Engine
/-!
# The books of an engine

What an engine keeps beside its cells, the counters, the waiting lists and the queue, says at any
time which rules lack inputs, and which. So no rule is ever told of an input that it does not miss,
and a rule that leaves the queue is there and has not fired.
-/
namespace Attribution

variable {ρ σ : Type} [RuleFamily ρ σ]

namespace Engine

/-- Nobody is listed for a cell that holds a value. -/
def Unlisted (engine : Engine ρ) : Prop :=
  ∀ cell, (engine.view cell).isSome → engine.waiters[cell]? = none

/-- The counters, waiting lists and queue of an engine agree with its cells. -/
structure Booked (engine : Engine ρ) : Prop where
  missing : ∀ id slot, engine.Waits id slot → slot.missing =
    ((RuleFamily.inputs slot.rule).toFinset.filter fun cell => engine.view cell = none).card
  listed : ∀ id slot, engine.Waits id slot → ∀ cell, (engine.waiters.getD cell []).count id =
    if cell ∈ RuleFamily.inputs slot.rule ∧ engine.view cell = none then 1 else 0
  queued : ∀ id slot, engine.Waits id slot →
    engine.ready.count id = if slot.missing = 0 then 1 else 0
  absent : ∀ id, engine.HasFired id →
    id ∉ engine.ready ∧ ∀ cell, id ∉ engine.waiters.getD cell []
  unlisted : engine.Unlisted
  in_range : ∀ id, (id ∈ engine.ready ∨ id ∈ engine.fired ∨
    ∃ cell, id ∈ engine.waiters.getD cell [] ∨ id ∈ engine.producers cell) →
      id < engine.slots.size

theorem length_awaited (engine : Engine ρ) (rule : ρ) : (engine.awaited rule).length =
    ((RuleFamily.inputs rule).toFinset.filter fun cell => engine.view cell = none).card := by
  rw [← List.toFinset_card_of_nodup (nodup_awaited engine rule)]
  apply congrArg Finset.card
  ext cell
  rw [List.mem_toFinset, mem_awaited, Finset.mem_filter, List.mem_toFinset]

theorem getElem?_foldl_await (id : RuleId) {cells : List Cell} {cell : Cell} (h : cell ∉ cells)
    (waiters : Std.TreeMap Cell (List RuleId)) :
    (cells.foldl (await id) waiters)[cell]? = waiters[cell]? := by
  induction cells generalizing waiters with
  | nil => rfl
  | cons first rest ih =>
    obtain ⟨hfirst, hrest⟩ := not_or.mp (List.mem_cons.not.mp h)
    rw [List.foldl_cons, ih hrest, await, Std.TreeMap.getElem?_insert, if_neg]
    rw [Std.LawfulEqCmp.compare_eq_iff_eq]
    exact Ne.symm hfirst

theorem Unlisted.write {engine : Engine ρ} (h : engine.Unlisted) (cell : Cell) (value : Value)
    (label : String) : (engine.write cell value label).Unlisted := by
  intro other hother
  rw [view_write] at hother
  rw [waiters_write]
  by_cases heq : other = cell
  · subst heq
    split
    next hheld => exact h other hheld
    next => simp
  · rw [if_neg heq] at hother
    split
    next => exact h other hother
    next => rw [Std.TreeMap.getElem?_erase, h other hother, ite_self]

theorem Unlisted.add {engine : Engine ρ} (h : engine.Unlisted) (rule : ρ) :
    (engine.add rule).Unlisted := by
  intro cell hcell
  rw [view_add] at hcell
  have hawaited : cell ∉ engine.awaited rule := by
    rw [mem_awaited]
    rintro ⟨_, hnone⟩
    rw [hnone] at hcell
    cases hcell
  exact (getElem?_foldl_await _ hawaited _).trans (h cell hcell)

end Engine

open Engine

theorem Course.unlisted {turn : Engine ρ → RuleId → Prop} {changes : List (Change ρ)}
    {engine : Engine ρ} (h : Course turn changes engine) : engine.Unlisted := by
  induction h with
  | new =>
    intro cell hcell
    cases hcell
  | change change _ _ ih =>
    cases change with
    | write attempt => exact ih.write _ _ _
    | add rule => exact ih.add rule
    | note finding | take id => exact ih

theorem Engine.Kept.booked {engine : Engine ρ} (h : engine.Kept) (hunlisted : engine.Unlisted) :
    engine.Booked where
  missing id slot hslot := (h.missing id slot hslot).trans (length_awaited engine slot.rule)
  listed id slot hslot cell := by
    obtain ⟨hle, hiff⟩ := h.waiters id cell
    split
    next hcell =>
      have hpos := List.count_pos_iff.mpr (hiff.mpr ⟨slot, hslot, mem_awaited.mpr hcell⟩)
      omega
    next hcell =>
      rw [List.count_eq_zero, hiff]
      rintro ⟨other, hother, hawaited⟩
      exact hcell (mem_awaited.mp (hslot.unique hother ▸ hawaited))
  queued id slot hslot := by
    split
    next hzero =>
      exact List.count_eq_one_of_mem h.ready_nodup ((h.ready id).mpr ⟨slot, hslot, hzero⟩)
    next hne =>
      rw [List.count_eq_zero, h.ready id]
      rintro ⟨other, hother, hzero⟩
      exact hne (hslot.unique hother ▸ hzero)
  absent id hfired := by
    refine ⟨fun hready => ?_, fun cell hcell => ?_⟩
    · obtain ⟨slot, hslot, _⟩ := (h.ready id).mp hready
      exact hslot.not_hasFired hfired
    · obtain ⟨slot, hslot, _⟩ := (h.waiters id cell).2.mp hcell
      exact hslot.not_hasFired hfired
  unlisted := hunlisted
  in_range id hid := by
    rcases hid with hready | hfired | ⟨cell, hlisted | hproducer⟩
    · obtain ⟨slot, hslot, _⟩ := (h.ready id).mp hready
      exact hslot.lt_size
    · obtain ⟨slot, hslot, _⟩ := (h.fired id).mp hfired
      exact (Array.getElem?_eq_some_iff.mp hslot).1
    · obtain ⟨slot, hslot, _⟩ := (h.waiters id cell).2.mp hlisted
      exact hslot.lt_size
    · obtain ⟨slot, hslot, _⟩ := mem_producers.mp hproducer
      exact (Array.getElem?_eq_some_iff.mp hslot).1

namespace Strict

/-- Make a change, unless a rule is asked for that is not there, one is told of an input that it
does not miss, or one is taken that has fired. -/
def change (engine : Engine ρ) : Change ρ → Except Breach (Engine ρ)
  | .write attempt => write engine attempt.cell attempt.value attempt.label
  | .note finding => .ok (engine.report finding)
  | .add rule => .ok (engine.add rule)
  | .take id => do
    let found ← slot engine id
    if found.fired then .error (.missingRule id) else return (engine.unqueue id).mark id

theorem change_eq {engine : Engine ρ} (h : engine.Kept) {next : Change ρ}
    (hturn : ∀ id, next = .take id → id ∈ engine.ready) :
    change engine next = .ok (engine.change next) := by
  cases next with
  | write attempt => exact write_eq h _ _ _
  | note finding | add rule => rfl
  | take id =>
    obtain ⟨slot, hslot, _⟩ := h.waits_of_ready (hturn id rfl)
    rw [change, slot_eq hslot.1, ok_bind, hslot.2]
    rfl

end Strict

/-- Stop a history after any of the changes of which it consists, be it while a rule fires. A rule
that has not fired misses as many inputs as it has distinct inputs without a value, is listed for
these and no others, once for each, and is in the queue, once, just if it misses none. Rules that
have fired are nowhere, there is no list for a cell that holds a value, and all ids are those of
rules. The next change takes no rule that is missing or has fired, and counts none below zero. -/
theorem books_agree {setting : σ} {events : List (Event ρ)} {engine : Engine ρ}
    (h : History setting events engine) :
    ∀ done rest, events.flatMap (Event.changes setting) = done ++ rest →
      (Engine.replay done).Booked ∧ rest.foldl Engine.change (Engine.replay done) = engine ∧
        ∀ next ∈ rest.head?, Strict.change (Engine.replay done) next =
          .ok ((Engine.replay done).change next) := by
  intro done rest hsplit
  have hcourse := h.course
  rw [hsplit] at hcourse
  have hkept := hcourse.of_append.kept
  refine ⟨hkept.booked hcourse.of_append.unlisted, hcourse.foldl_of_append, fun next hnext => ?_⟩
  obtain ⟨more, rfl⟩ := List.head?_eq_some_iff.mp hnext
  apply Strict.change_eq hkept
  rintro id rfl
  exact hcourse.turn_of_append

/-- Between two writes of a rule: the first one has given another rule one of its two inputs, of
which it names one twice; the second one will be rejected. -/
theorem books_agree_between :
    let reader : Recipe := .steps "reader" [.type 1, .type 2, .type 1] [] []
    let writer : Recipe := .steps "writer" [.type 0] [.type 1]
      [.set 0 (.type .int), .set 0 (.type .bool)]
    let done : List (Change Recipe) := [.add reader, .add writer,
      .write ⟨.type 0, .type .int, "direct"⟩, .take 1, .write ⟨.type 1, .type .int, "writer"⟩]
    let next : Change Recipe := .write ⟨.type 1, .type .bool, "writer"⟩
    (Engine.replay done).Booked ∧ (Engine.replay done).slots[0]?.map Slot.missing = some 1 ∧
      Strict.change (Engine.replay done) next = .ok ((Engine.replay done).change next) := by
  intro reader writer done next
  let before := ((({} : Engine Recipe).obey (.add reader)).obey (.add writer)).obey
    (.set (.type 0) (.type .int))
  have hbefore : History (0 : Nat) _ before :=
    .obey (.set (.type 0) (.type .int)) (.obey (.add writer) (.obey (.add reader) .new))
  have hready : before.ready = [1] := rfl
  have hexecutes : before.executes 1 = [.firing 1 writer before.view] := rfl
  have h := hbefore.fire (hready ▸ List.mem_cons_self)
  rw [hexecutes] at h
  obtain ⟨hbooked, _, hnext⟩ := books_agree h done [next] rfl
  exact ⟨hbooked, rfl, hnext next rfl⟩

end Attribution
