import Mathlib.Data.List.Sort
import Attribution.Engine.Recipe
import Attribution.Proofs.Engine.Changes
/-!
# First come, first served

Which rules become ready, and when, can be told from the writes and the rules of a history alone: a
rule is ready once the last of its inputs is written, or at once if it is added later. In this order
rules stand in the queue, and in this order they fire.
-/
namespace Attribution

variable {ρ σ : Type} [RuleFamily ρ σ]

/-- A write to the cell gives the rule the last of its inputs. -/
def Completes (written : List Cell) (cell : Cell) (rule : ρ) : Prop :=
  cell ∉ written ∧ cell ∈ RuleFamily.inputs rule ∧
    ∀ other ∈ RuleFamily.inputs rule, other ∈ written ∨ other = cell

instance (written : List Cell) (cell : Cell) (rule : ρ) : Decidable (Completes written cell rule) :=
  inferInstanceAs (Decidable (_ ∧ _ ∧ _))

namespace Change

omit [RuleFamily ρ σ] in
/-- The cells that hold values after these changes. -/
def written (changes : List (Change ρ)) : List Cell := (attempts changes).map Attempt.cell

/-- The rules that one more change makes ready. A write makes those ready to which it gives the last
of their inputs, in the order in which they were added. -/
def released (done : List (Change ρ)) : Change ρ → List RuleId
  | write attempt => (List.range (registered done).length).filter fun id =>
      (registered done)[id]?.any fun rule => Completes (written done) attempt.cell rule
  | add rule =>
    if ∀ cell ∈ RuleFamily.inputs rule, cell ∈ written done then [(registered done).length] else []
  | note _ | take _ => []

/-- The rules in the order in which they become ready, one change after the other. -/
def releases (done : List (Change ρ)) : List (Change ρ) → List RuleId
  | [] => []
  | change :: rest => change.released done ++ releases (done ++ [change]) rest

theorem releases_append (done changes : List (Change ρ)) (last : Change ρ) :
    releases done (changes ++ [last]) =
      releases done changes ++ last.released (done ++ changes) := by
  induction changes generalizing done with
  | nil => simp [releases]
  | cons change rest ih => simp [releases, ih]

end Change

namespace Engine

/-- The turn is that of the rule that has been in the queue for the longest time. -/
def First (engine : Engine ρ) (id : RuleId) : Prop := engine.ready.head? = some id

theorem First.queued {engine : Engine ρ} {id : RuleId} (h : engine.First id) : engine.Queued id :=
  List.mem_of_head? h

theorem ready_foldl_wake {ids : List RuleId} (hnd : ids.Nodup) (engine : Engine ρ) :
    (ids.foldl wake engine).ready = engine.ready ++
      ids.filter fun id => engine.slots[id]?.any fun slot => slot.missing = 1 := by
  induction ids generalizing engine with
  | nil => simp
  | cons id ids ih =>
    obtain ⟨hid, hnd⟩ := List.nodup_cons.mp hnd
    have hslots :
        ids.filter (fun k => (engine.wake id).slots[k]?.any fun slot => slot.missing = 1) =
          ids.filter fun k => engine.slots[k]?.any fun slot => slot.missing = 1 := by
      apply List.filter_congr
      intro k hk
      rw [slots_wake, Array.getElem?_modify, if_neg]
      rintro rfl
      exact hid hk
    rw [List.foldl_cons, ih hnd, hslots, ready_wake, List.filter_cons]
    split <;> simp

theorem Kept.ready_write {engine : Engine ρ} (h : engine.Kept) {cell : Cell}
    (hfree : engine.view cell = none) (value : Value) (label : String) :
    (engine.write cell value label).ready = engine.ready ++
      (engine.waiters.getD cell []).filter fun id =>
        engine.slots[id]?.any fun slot => slot.missing = 1 := by
  have hnd : (engine.waiters.getD cell []).Nodup :=
    List.nodup_iff_count_le_one.mpr fun id => (h.waiters id cell).1
  rw [Engine.write, hfree]
  exact ready_foldl_wake hnd (engine.store cell value)

theorem length_awaited_eq_one {engine : Engine ρ} {rule : ρ} {cell : Cell}
    (h : cell ∈ engine.awaited rule) : (engine.awaited rule).length = 1 ↔
      ∀ other ∈ engine.awaited rule, other = cell := by
  constructor
  · intro hone other hother
    obtain ⟨only, honly⟩ := List.length_eq_one_iff.mp hone
    rw [honly, List.mem_singleton] at h hother
    rw [h, hother]
  · intro hall
    have hnd := nodup_awaited engine rule
    have hpos := List.length_pos_of_mem h
    rw [List.eq_replicate_of_mem hall, List.nodup_replicate] at hnd
    omega

end Engine

open Engine

/-- What an engine shows of the changes that made it, beside its cells: its rules are those that
were added, the lists of those who wait are in order, and what has fired had all its inputs. -/
structure Engine.Reflects (changes : List (Change ρ)) (engine : Engine ρ) : Prop where
  rules : engine.rules = Change.registered changes
  sorted : ∀ cell, (engine.waiters.getD cell []).Pairwise (· < ·)
  supplied : ∀ id ∈ engine.fired, ∀ rule, engine.rules[id]? = some rule →
    ∀ cell ∈ RuleFamily.inputs rule, (engine.view cell).isSome

namespace Engine

variable {changes : List (Change ρ)} {engine : Engine ρ}

theorem getD_waiters_write (engine : Engine ρ) (cell : Cell) (value : Value) (label : String)
    (other : Cell) : (engine.write cell value label).waiters.getD other [] =
      if (engine.view cell).isNone ∧ cell = other then [] else engine.waiters.getD other [] := by
  rw [waiters_write]
  cases engine.view cell with
  | some held => simp
  | none => simp [Std.TreeMap.getD_erase, Std.LawfulEqCmp.compare_eq_iff_eq]

theorem Reflects.write (h : engine.Reflects changes) (attempt : Attempt) :
    (engine.change (.write attempt)).Reflects (changes ++ [.write attempt]) := by
  obtain ⟨hrules, _, hfired⟩ := write_frame engine attempt.cell attempt.value attempt.label
  refine ⟨?_, ?_, ?_⟩
  · rw [Change.registered_append]
    exact hrules.trans (h.rules.trans (List.append_nil _).symm)
  · intro cell
    change ((engine.write _ _ _).waiters.getD cell []).Pairwise (· < ·)
    rw [getD_waiters_write]
    split
    next => exact List.Pairwise.nil
    next => exact h.sorted cell
  · intro id hid rule hrule cell hcell
    change ((engine.write _ _ _).view cell).isSome
    rw [view_write]
    split
    next => rfl
    next => exact h.supplied id (hfired ▸ hid) rule (hrules ▸ hrule) cell hcell

theorem Reflects.add (h : engine.Reflects changes) (hkept : engine.Kept) (rule : ρ) :
    (engine.change (.add rule)).Reflects (changes ++ [.add rule]) := by
  refine ⟨?_, ?_, ?_⟩
  · rw [Change.registered_append, ← h.rules]
    exact rules_add engine rule
  · intro cell
    change ((engine.add rule).waiters.getD cell []).Pairwise (· < ·)
    rw [getD_waiters_add]
    split
    next =>
      -- the new rule has the greatest id
      refine List.pairwise_append.mpr ⟨h.sorted cell, List.pairwise_singleton _ _, ?_⟩
      intro id hid last hlast
      obtain ⟨slot, hslot, _⟩ := (hkept.waiters id cell).2.mp hid
      rw [List.mem_singleton.mp hlast]
      exact hslot.lt_size
    next => simpa using h.sorted cell
  · intro id hid other hother cell hcell
    obtain ⟨slot, hslot, _⟩ := (hkept.fired id).mp hid
    have hold : engine.rules[id]? = some slot.rule := getElem?_rules.mpr ⟨slot, hslot, rfl⟩
    change (engine.add rule).rules[id]? = some other at hother
    rw [rules_add, List.getElem?_append_left (List.getElem?_eq_some_iff.mp hold).1] at hother
    exact h.supplied id hid other hother cell hcell

theorem Reflects.take (h : engine.Reflects changes) (hkept : engine.Kept) {id : RuleId}
    (hready : id ∈ engine.ready) : (engine.change (.take id)).Reflects (changes ++ [.take id]) := by
  have hrules : ((engine.unqueue id).mark id).rules = engine.rules :=
    congrArg Array.toList (map_modify engine.slots id
      (fun slot => { slot with fired := true }) Slot.rule fun _ => rfl)
  refine ⟨?_, h.sorted, ?_⟩
  · rw [Change.registered_append]
    exact hrules.trans (h.rules.trans (List.append_nil _).symm)
  · intro k hk rule hrule
    rw [change, hrules] at hrule
    rcases List.mem_append.mp hk with hold | hnew
    · exact h.supplied k hold rule hrule
    · obtain ⟨slot, hslot, hinputs⟩ := hkept.waits_of_ready hready
      obtain ⟨other, hother, rfl⟩ := getElem?_rules.mp (List.mem_singleton.mp hnew ▸ hrule)
      exact Option.some.inj (hslot.1.symm.trans hother) ▸ hinputs

end Engine

namespace Course

variable {changes : List (Change ρ)} {engine : Engine ρ}

theorem reflects (h : Course Engine.Queued changes engine) : engine.Reflects changes := by
  induction h with
  | new => exact ⟨by simp [Engine.rules, Change.registered], by simp, by simp⟩
  | change change hbefore hturn ih =>
    cases change with
    | write attempt => exact ih.write attempt
    | add rule => exact ih.add hbefore.kept rule
    | take id => exact ih.take hbefore.kept (hturn id rfl)
    | note finding =>
      refine ⟨?_, ih.sorted, ih.supplied⟩
      rw [Change.registered_append]
      exact ih.rules.trans (List.append_nil _).symm

theorem isSome_view_iff_written (h : Course Engine.Queued changes engine) {cell : Cell} :
    (engine.view cell).isSome ↔ cell ∈ Change.written changes := h.isSome_view_iff

/-- A rule that waits for a cell misses nothing else just if the cell would complete its inputs. -/
theorem completes_iff (h : Course Engine.Queued changes engine) {cell : Cell}
    (hfree : engine.view cell = none) (id : RuleId) :
    (∃ slot, engine.Waits id slot ∧ cell ∈ engine.awaited slot.rule ∧ slot.missing = 1) ↔
      ∃ rule, (Change.registered changes)[id]? = some rule ∧
        Completes (Change.written changes) cell rule := by
  have hunwritten : cell ∉ Change.written changes := by
    rw [← h.isSome_view_iff_written, hfree]
    exact Bool.false_ne_true
  have hone : ∀ slot, engine.Waits id slot → cell ∈ engine.awaited slot.rule →
      (slot.missing = 1 ↔ ∀ other ∈ engine.awaited slot.rule, other = cell) := by
    intro slot hslot hcell
    rw [h.kept.missing id slot hslot, List.count_nil, Nat.add_zero, length_awaited_eq_one hcell]
  rw [← h.reflects.rules]
  constructor
  · rintro ⟨slot, hslot, hcell, hmissing⟩
    refine ⟨slot.rule, getElem?_rules.mpr ⟨slot, hslot.1, rfl⟩, hunwritten,
      (mem_awaited.mp hcell).1, fun other hother => ?_⟩
    rw [← h.isSome_view_iff_written, or_iff_not_imp_left, Option.not_isSome_iff_eq_none]
    exact fun hnone => (hone slot hslot hcell).mp hmissing other (mem_awaited.mpr ⟨hother, hnone⟩)
  · rintro ⟨rule, hrule, _, hcell, hothers⟩
    obtain ⟨slot, hslot, rfl⟩ := getElem?_rules.mp hrule
    have hwaits : engine.Waits id slot := by
      refine ⟨hslot, Bool.eq_false_iff.mpr fun hfired => ?_⟩
      have hset := h.reflects.supplied id ((h.kept.fired id).mpr ⟨slot, hslot, hfired⟩) _ hrule cell
        hcell
      rw [hfree] at hset
      cases hset
    have hawaited : cell ∈ engine.awaited slot.rule := mem_awaited.mpr ⟨hcell, hfree⟩
    refine ⟨slot, hwaits, hawaited, (hone slot hwaits hawaited).mpr fun other hother => ?_⟩
    obtain ⟨hinput, hnone⟩ := mem_awaited.mp hother
    rcases hothers other hinput with hwritten | rfl
    · rw [← h.isSome_view_iff_written, hnone] at hwritten
      cases hwritten
    · rfl

theorem woken_eq_released (h : Course Engine.Queued changes engine) (attempt : Attempt)
    (hfree : engine.view attempt.cell = none) :
    ((engine.waiters.getD attempt.cell []).filter fun id =>
      engine.slots[id]?.any fun slot => slot.missing = 1) =
        (Change.write attempt).released changes := by
  -- both lists go up, so it is enough to compare their members
  apply ((h.reflects.sorted attempt.cell).filter _).eq_of_mem_iff (List.pairwise_lt_range.filter _)
  intro id
  have hcompletes := h.completes_iff hfree id
  rw [List.mem_filter, List.mem_filter, (h.kept.waiters id _).2]
  simp only [Option.any_eq_true, decide_eq_true_eq, List.mem_range]
  constructor
  · rintro ⟨⟨slot, hslot, hcell⟩, other, hother, hmissing⟩
    cases hslot.1.symm.trans hother
    obtain ⟨rule, hrule, hlast⟩ := hcompletes.mp ⟨slot, hslot, hcell, hmissing⟩
    exact ⟨(List.getElem?_eq_some_iff.mp hrule).1, rule, hrule, hlast⟩
  · rintro ⟨_, rule, hrule, hlast⟩
    obtain ⟨slot, hslot, hcell, hmissing⟩ := hcompletes.mpr ⟨rule, hrule, hlast⟩
    exact ⟨⟨slot, hslot, hcell⟩, slot, hslot.1, hmissing⟩

theorem ready_change (h : Course Engine.Queued changes engine) (change : Change ρ)
    (htake : ∀ id, change ≠ .take id) : (engine.change change).ready =
      engine.ready ++ change.released changes := by
  cases change with
  | write attempt =>
    cases hfree : engine.view attempt.cell with
    | some held =>
      have hwritten : attempt.cell ∈ Change.written changes := by
        rw [← h.isSome_view_iff_written, hfree]
        rfl
      have hnone : (Change.write attempt).released changes = [] := by
        apply List.filter_eq_nil_iff.mpr
        intro id _ hany
        obtain ⟨rule, _, hlast⟩ := (Option.any_eq_true _ _).mp hany
        exact (of_decide_eq_true hlast).1 hwritten
      rw [hnone, List.append_nil, Engine.change, write_of_isSome (hfree ▸ rfl)]
    | none => exact (h.kept.ready_write hfree _ _).trans (congrArg _ (h.woken_eq_released _ hfree))
  | note finding => exact (List.append_nil _).symm
  | add rule =>
    have hsize : engine.slots.size = (Change.registered changes).length := by
      rw [← h.reflects.rules, Engine.rules, Array.length_toList, Array.size_map]
    have hready : engine.awaited rule = [] ↔
        ∀ cell ∈ RuleFamily.inputs rule, cell ∈ Change.written changes := by
      simp only [awaited_eq_nil, h.isSome_view_iff_written]
    change (if engine.awaited rule = [] then engine.ready ++ [engine.slots.size]
      else engine.ready) = engine.ready ++ if _ then [_] else []
    rw [hsize, if_congr hready rfl rfl]
    split
    next => rfl
    next => rw [List.append_nil]
  | take id => exact absurd rfl (htake id)

/-- Rules become ready in an order that shows in the writes and the rules that were added, and stand
in the queue and fire in this order. -/
theorem fired_append_ready (h : Course Engine.First changes engine) :
    engine.fired ++ engine.ready = Change.releases [] changes := by
  induction h with
  | new => rfl
  | @change changes engine change hbefore hturn ih =>
    have hqueued : Course Engine.Queued changes engine := hbefore.mono fun _ _ => First.queued
    rw [Change.releases_append, List.nil_append, ← ih]
    cases change with
    | take id =>
      obtain ⟨rest, hready⟩ := List.head?_eq_some_iff.mp (hturn id rfl)
      change (engine.fired ++ [id]) ++ engine.ready.erase id = _
      rw [hready, List.erase_cons_head, Change.released, List.append_nil, List.append_assoc]
      rfl
    | write attempt =>
      have hfired := (write_frame engine attempt.cell attempt.value attempt.label).2.2
      rw [hqueued.ready_change _ (by simp), Engine.change, hfired, List.append_assoc]
    | note finding | add rule =>
      rw [hqueued.ready_change _ (by simp), List.append_assoc]
      rfl

end Course

/-- The engines that a new engine becomes, with the events on the way, when at any time it is told
something or makes a step of a run. -/
inductive Serves (setting : σ) : List (Event ρ) → Engine ρ → Prop
  | new : Serves setting [] {}
  | obey {events : List (Event ρ)} {engine : Engine ρ} (command : Command ρ) :
    Serves setting events engine →
      Serves setting (events ++ [.command command]) (engine.obey command)
  | step {events : List (Event ρ)} {engine next : Engine ρ} {id : RuleId} :
    Serves setting events engine → engine.First id → engine.step setting = some next →
      Serves setting (events ++ engine.executes id) next

namespace Serves

variable {setting : σ} {events : List (Event ρ)} {engine : Engine ρ}

theorem history (h : Serves setting events engine) : History setting events engine := by
  induction h with
  | new => exact .new
  | obey command _ ih => exact ih.obey command
  | step _ hfirst hstep ih =>
    rw [step_eq, hfirst, Option.map_some] at hstep
    exact Option.some.inj hstep ▸ ih.fire hfirst.queued

theorem course (h : Serves setting events engine) :
    Course Engine.First (events.flatMap (Event.changes setting)) engine := by
  induction h with
  | new => exact .new
  | obey command _ ih =>
    rw [List.flatMap_append, List.flatMap_singleton]
    exact ih.obey setting command
  | step h hfirst hstep ih =>
    obtain ⟨slot, hslot, hexecutes, _⟩ := h.history.executes_of_ready hfirst.queued
    rw [step_eq, hfirst, Option.map_some] at hstep
    rw [hexecutes, List.flatMap_append, List.flatMap_singleton, ← Option.some.inj hstep]
    exact ih.fire setting hslot hfirst

theorem onward (setting : σ) : Onward setting (@Serves ρ σ _ setting) where
  history := history
  obey h command := .obey command h
  fire h hfirst := .step h hfirst (by rw [step_eq, hfirst]; rfl)

end Serves

/-- An engine that is told commands and runs in between is what the changes of its events make of a
new one: each command at its time, of each rule that fires first its writes in order, then its
findings, then the rules that it spawns. The rules that have fired and behind them the queue are all
rules that became ready, in the order in which they did: when a write gave them the last of their
inputs, those of one write in the order in which they were added, or when they were added, if they
lacked none. The findings are those reported and those of each rule that fired, in the same order.
Further calls, runs among them, only go on like this. -/
theorem served_in_turn {setting : σ} {events : List (Event ρ)} {engine : Engine ρ}
    (h : Serves setting events engine) :
    engine = Engine.replay (events.flatMap (Event.changes setting)) ∧
    engine.fired ++ engine.ready = Change.releases [] (events.flatMap (Event.changes setting)) ∧
    engine.fired = events.filterMap Event.fired? ∧
    engine.findings = events.flatMap (Event.findings setting) ∧
    ∀ calls final, Performs setting engine calls final → ∃ later,
      Serves setting (events ++ later) final ∧
        later.filterMap Event.command? = calls.filterMap Call.command? :=
  ⟨h.course.eq_replay, h.course.fired_append_ready, h.history.records.fired,
    h.history.records.findings, fun _ _ hcalls => (Serves.onward setting).performs hcalls h⟩

/-- A rule fires that makes another one ready by a write and then spawns a third, which is ready at
once. -/
theorem served_in_turn_spawning :
    let finding : Finding := { node := 0, cause := .unresolved "name" }
    let source : Recipe := .steps "source" [.type 0] [.type 1]
      [.spawn (.copy "spawned" (.type 0) (.type 3)), .report finding, .set 0 (.type .int)]
    let before := ((({} : Engine Recipe).obey (.add (.copy "copy" (.type 1) (.type 2)))).obey
      (.add source)).obey (.set (.type 0) (.type .bool))
    let engine := before.fireReady (0 : Nat) 1
    before.step (0 : Nat) = some engine ∧ engine.fired ++ engine.ready = [1, 0, 2] ∧
      engine.fired = [1] ∧ engine.findings = [finding] := by
  intro finding source before engine
  have hstep : before.step (0 : Nat) = some engine := rfl
  have h : Serves (0 : Nat) _ engine :=
    .step (.obey (.set (.type 0) (.type .bool)) (.obey (.add source) (.obey (.add _) .new)))
      (rfl : before.First 1) hstep
  obtain ⟨_, horder, hfired, hfindings, _⟩ := served_in_turn h
  exact ⟨hstep, horder.trans rfl, hfired.trans rfl, hfindings.trans rfl⟩

end Attribution
