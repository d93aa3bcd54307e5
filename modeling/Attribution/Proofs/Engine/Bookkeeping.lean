import Mathlib.Data.List.Nodup
import Attribution.Engine.Basic
/-!
# Bookkeeping of the engine

The counters, waiting lists and the queue of an engine say which rules can fire. `Engine.Kept` is
what they promise between any two operations; every operation keeps the promise.
-/
namespace Attribution

section Queue

variable {α : Type} {p : Prop} [Decidable p] {queue : List α} {last : α}

theorem nodup_append_if (h : queue.Nodup) (hnew : last ∉ queue) :
    (if p then queue ++ [last] else queue).Nodup := by
  split
  · rw [← List.concat_eq_append]
    exact h.concat hnew
  · exact h

theorem mem_append_if {other : α} (hne : other ≠ last) :
    (other ∈ if p then queue ++ [last] else queue) ↔ other ∈ queue := by
  split <;> simp [hne]

end Queue

namespace Engine

variable {ρ σ : Type}

/-- The rule with this id is registered and has not fired. -/
def Waits (engine : Engine ρ) (id : RuleId) (slot : Slot ρ) : Prop :=
  engine.slots[id]? = some slot ∧ slot.fired = false

def HasFired (engine : Engine ρ) (id : RuleId) : Prop :=
  ∃ slot, engine.slots[id]? = some slot ∧ slot.fired = true

theorem slots_wake (engine : Engine ρ) (id : RuleId) :
    (engine.wake id).slots =
      engine.slots.modify id fun slot => { slot with missing := slot.missing - 1 } := by
  unfold wake
  split
  next h =>
    apply Array.ext_getElem?
    intro i
    rw [Array.getElem?_modify]
    split
    next hi => rw [← hi, h, Option.map_none]
    next => rfl
  next => rfl

theorem ready_wake (engine : Engine ρ) (id : RuleId) :
    (engine.wake id).ready =
      if engine.slots[id]?.any (fun slot => slot.missing = 1) then engine.ready ++ [id]
      else engine.ready := by
  unfold wake
  split
  next h => simp [h]
  next slot h => simp [h]

@[simp] theorem waiters_wake (engine : Engine ρ) (id : RuleId) :
    (engine.wake id).waiters = engine.waiters := by
  unfold wake
  split <;> rfl

@[simp] theorem fired_wake (engine : Engine ρ) (id : RuleId) :
    (engine.wake id).fired = engine.fired := by
  unfold wake
  split <;> rfl

theorem getD_foldl_await (id : RuleId) (cells : List Cell) (hnd : cells.Nodup)
    (waiters : Std.TreeMap Cell (List RuleId)) (cell : Cell) :
    (cells.foldl (await id) waiters).getD cell [] =
      waiters.getD cell [] ++ if cell ∈ cells then [id] else [] := by
  induction cells generalizing waiters with
  | nil => simp
  | cons c cells ih =>
    have hc := (List.nodup_cons.mp hnd).1
    rw [List.foldl_cons, ih (List.nodup_cons.mp hnd).2, await, Std.TreeMap.getD_insert]
    simp only [Std.LawfulEqCmp.compare_eq_iff_eq]
    by_cases h : c = cell
    · subst h
      simp [hc]
    · simp [h, Ne.symm h]

variable [RuleFamily ρ σ]

theorem mem_awaited {engine : Engine ρ} {rule : ρ} {cell : Cell} :
    cell ∈ engine.awaited rule ↔ cell ∈ RuleFamily.inputs rule ∧ engine.view cell = none := by
  simp [awaited, mem_distinct]

theorem nodup_awaited (engine : Engine ρ) (rule : ρ) : (engine.awaited rule).Nodup :=
  (nodup_distinct _).filter _

theorem awaited_eq_nil {engine : Engine ρ} {rule : ρ} :
    engine.awaited rule = [] ↔
      ∀ cell ∈ RuleFamily.inputs rule, (engine.view cell).isSome := by
  rw [List.eq_nil_iff_forall_not_mem]
  simp only [mem_awaited, not_and, Option.isSome_iff_ne_none, ne_eq]

theorem awaited_congr {engine other : Engine ρ} (h : other.view = engine.view) (rule : ρ) :
    other.awaited rule = engine.awaited rule := by
  simp only [awaited, h]

/-- Between operations, and while the rules in `due` still have to be told of a write, the
bookkeeping of an engine agrees with its cells: an unfired rule misses as many distinct inputs as
have no value, it waits for exactly these, once for each, and it is in the queue exactly if it
misses nothing. Rules that have fired are nowhere. -/
structure KeptBut (due : List RuleId) (engine : Engine ρ) : Prop where
  missing : ∀ id slot, engine.Waits id slot →
    slot.missing = (engine.awaited slot.rule).length + due.count id
  waiters : ∀ id cell, (engine.waiters.getD cell []).count id ≤ 1 ∧
    (id ∈ engine.waiters.getD cell [] ↔
      ∃ slot, engine.Waits id slot ∧ cell ∈ engine.awaited slot.rule)
  ready : ∀ id, id ∈ engine.ready ↔ ∃ slot, engine.Waits id slot ∧ slot.missing = 0
  ready_nodup : engine.ready.Nodup
  due_waits : ∀ id ∈ due, ∃ slot, engine.Waits id slot
  fired : ∀ id, id ∈ engine.fired ↔ engine.HasFired id
  fired_nodup : engine.fired.Nodup

def Kept (engine : Engine ρ) : Prop := engine.KeptBut []

theorem Waits.unique {engine : Engine ρ} {id : RuleId} {slot other : Slot ρ}
    (h : engine.Waits id slot) (h' : engine.Waits id other) : other = slot :=
  Option.some.inj (h'.1.symm.trans h.1)

theorem Waits.not_hasFired {engine : Engine ρ} {id : RuleId} {slot : Slot ρ}
    (h : engine.Waits id slot) : ¬ engine.HasFired id := by
  rintro ⟨other, hother, hfired⟩
  rw [Option.some.inj (hother.symm.trans h.1), h.2] at hfired
  cases hfired

theorem Kept.annotate {engine : Engine ρ} (h : engine.Kept) (findings : List Finding)
    (conflicts : List Conflict) : ({ engine with findings, conflicts } : Engine ρ).Kept :=
  ⟨h.missing, h.waiters, h.ready, h.ready_nodup, h.due_waits, h.fired, h.fired_nodup⟩

theorem kept_new : ({} : Engine ρ).Kept where
  missing := by simp [Waits]
  waiters := by simp [Waits]
  ready := by simp [Waits]
  ready_nodup := List.nodup_nil
  due_waits := by simp
  fired := by simp [HasFired]
  fired_nodup := List.nodup_nil

theorem waits_wake {engine : Engine ρ} {id k : RuleId} {slot : Slot ρ} :
    (engine.wake id).Waits k slot ↔ ∃ old, engine.Waits k old ∧
      slot = { old with missing := old.missing - if k = id then 1 else 0 } := by
  simp only [Waits, slots_wake, Array.getElem?_modify]
  by_cases h : id = k
  · subst h
    simp only [if_true, Option.map_eq_some_iff]
    constructor
    · rintro ⟨⟨old, hold, rfl⟩, hfired⟩
      exact ⟨old, ⟨hold, hfired⟩, rfl⟩
    · rintro ⟨old, ⟨hold, hfired⟩, rfl⟩
      exact ⟨⟨old, hold, rfl⟩, hfired⟩
  · simp [h, Ne.symm h]

theorem hasFired_wake {engine : Engine ρ} {id k : RuleId} :
    (engine.wake id).HasFired k ↔ engine.HasFired k := by
  simp only [HasFired, slots_wake, Array.getElem?_modify]
  by_cases h : id = k
  · simp only [if_pos h, Option.map_eq_some_iff]
    constructor
    · rintro ⟨_, ⟨old, hold, rfl⟩, hfired⟩
      exact ⟨old, hold, hfired⟩
    · rintro ⟨old, hold, hfired⟩
      exact ⟨_, ⟨old, hold, rfl⟩, hfired⟩
  · simp [h]

/-- A rule that is due to be told is not in the queue, and is after it was told of its last
missing input. -/
theorem KeptBut.wake {id : RuleId} {due : List RuleId} {engine : Engine ρ}
    (h : engine.KeptBut (id :: due)) : (engine.wake id).KeptBut due := by
  obtain ⟨told, htold⟩ := h.due_waits id List.mem_cons_self
  have hawaited : ∀ rule, (engine.wake id).awaited rule = engine.awaited rule :=
    awaited_congr (view_wake engine id)
  -- the rule is still due once, so it counts one input more than it awaits
  have hmissing : told.missing ≠ 0 := by
    have := h.missing id told htold
    simp only [List.count_cons_self] at this
    omega
  have hqueue : id ∉ engine.ready := by
    intro hid
    obtain ⟨slot, hslot, hzero⟩ := (h.ready id).mp hid
    exact hmissing (htold.unique hslot ▸ hzero)
  have hready : (engine.wake id).ready =
      if told.missing = 1 then engine.ready ++ [id] else engine.ready := by
    simp [ready_wake, htold.1]
  refine ⟨?_, ?_, ?_, ?_, ?_, ?_, ?_⟩
  · intro k slot hslot
    obtain ⟨old, hold, rfl⟩ := waits_wake.mp hslot
    have := h.missing k old hold
    simp only [List.count_cons, beq_iff_eq, eq_comm (a := id)] at this
    simp only [hawaited]
    omega
  · intro k cell
    rw [waiters_wake]
    refine ⟨(h.waiters k cell).1, (h.waiters k cell).2.trans ?_⟩
    simp only [hawaited, waits_wake]
    constructor
    · rintro ⟨slot, hslot, hcell⟩
      exact ⟨_, ⟨slot, hslot, rfl⟩, hcell⟩
    · rintro ⟨_, ⟨slot, hslot, rfl⟩, hcell⟩
      exact ⟨slot, hslot, hcell⟩
  · intro k
    rw [hready]
    by_cases hk : k = id
    · subst hk
      constructor
      · intro hmem
        refine ⟨_, waits_wake.mpr ⟨told, htold, rfl⟩, ?_⟩
        split at hmem
        next hone => simp [hone]
        next => exact absurd hmem hqueue
      · rintro ⟨slot, hslot, hzero⟩
        obtain ⟨old, hold, rfl⟩ := waits_wake.mp hslot
        have hone : told.missing = 1 := by
          rw [htold.unique hold] at hzero
          simp only [if_true] at hzero
          omega
        simp [hone]
    · rw [mem_append_if hk, h.ready k]
      simp only [waits_wake, if_neg hk, Nat.sub_zero]
      constructor
      · rintro ⟨slot, hslot, hzero⟩
        exact ⟨slot, ⟨slot, hslot, rfl⟩, hzero⟩
      · rintro ⟨slot, ⟨old, hold, rfl⟩, hzero⟩
        exact ⟨old, hold, hzero⟩
  · rw [hready]
    exact nodup_append_if h.ready_nodup hqueue
  · intro k hk
    obtain ⟨slot, hslot⟩ := h.due_waits k (List.mem_cons_of_mem _ hk)
    exact ⟨_, waits_wake.mpr ⟨slot, hslot, rfl⟩⟩
  · intro k
    rw [fired_wake, hasFired_wake]
    exact h.fired k
  · rw [fired_wake]
    exact h.fired_nodup

theorem KeptBut.foldl_wake {due : List RuleId} {engine : Engine ρ} (h : engine.KeptBut due) :
    (due.foldl Engine.wake engine).Kept := by
  induction due generalizing engine with
  | nil => exact h
  | cons id due ih => exact ih h.wake

/-- The first value of a cell is stored, and nobody has been told yet. -/
def store (engine : Engine ρ) (cell : Cell) (value : Value) : Engine ρ :=
  { engine with
    cells := engine.cells.insert cell value
    waiters := engine.waiters.erase cell }

theorem view_store (engine : Engine ρ) (cell : Cell) (value : Value) (other : Cell) :
    (engine.store cell value).view other =
      if cell = other then some value else engine.view other := by
  simp only [view, store, Std.TreeMap.getElem?_insert, Std.LawfulEqCmp.compare_eq_iff_eq]

theorem waits_store {engine : Engine ρ} {cell : Cell} {value : Value} {id : RuleId}
    {slot : Slot ρ} : (engine.store cell value).Waits id slot ↔ engine.Waits id slot := Iff.rfl

theorem length_awaited_store (engine : Engine ρ) (cell : Cell) (value : Value) (rule : ρ) :
    (engine.awaited rule).length =
      ((engine.store cell value).awaited rule).length +
        if cell ∈ engine.awaited rule then 1 else 0 := by
  have hfilter : (engine.store cell value).awaited rule =
      (engine.awaited rule).filter (· != cell) := by
    simp only [awaited, List.filter_filter, view_store]
    apply List.filter_congr
    intro other _
    by_cases h : cell = other
    · simp [h]
    · simp [h, Ne.symm h]
  rw [hfilter, ← (nodup_awaited engine rule).erase_eq_filter cell]
  split
  next h => rw [List.length_erase_of_mem h, Nat.sub_add_cancel (List.length_pos_of_mem h)]
  next h => rw [List.erase_of_not_mem h, Nat.add_zero]

theorem Kept.store {engine : Engine ρ} (h : engine.Kept) (cell : Cell) (value : Value) :
    (engine.store cell value).KeptBut (engine.waiters.getD cell []) := by
  have hcount : ∀ id slot, engine.Waits id slot →
      (engine.waiters.getD cell []).count id =
        if cell ∈ engine.awaited slot.rule then 1 else 0 := by
    intro id slot hslot
    have hle := (h.waiters id cell).1
    have hiff := (h.waiters id cell).2
    split
    next hc =>
      have := List.count_pos_iff.mpr (hiff.mpr ⟨slot, hslot, hc⟩)
      omega
    next hc =>
      apply List.count_eq_zero_of_not_mem
      intro hid
      obtain ⟨other, hother, hc'⟩ := hiff.mp hid
      exact hc (hslot.unique hother ▸ hc')
  refine ⟨?_, ?_, h.ready, h.ready_nodup, ?_, h.fired, h.fired_nodup⟩
  · intro id slot hslot
    rw [hcount id slot hslot, ← length_awaited_store, h.missing id slot hslot]
    rfl
  · intro id other
    have hwaiters : (engine.store cell value).waiters.getD other [] =
        if cell = other then [] else engine.waiters.getD other [] := by
      simp only [Engine.store, Std.TreeMap.getD_erase, Std.LawfulEqCmp.compare_eq_iff_eq]
    simp only [hwaiters, mem_awaited, view_store, waits_store]
    by_cases hc : cell = other
    · simp [hc]
    · simp only [if_neg hc]
      simpa only [mem_awaited] using h.waiters id other
  · intro id hid
    obtain ⟨slot, hslot, _⟩ := (h.waiters id cell).2.mp hid
    exact ⟨slot, hslot⟩

theorem Kept.write {engine : Engine ρ} (h : engine.Kept) (cell : Cell) (value : Value)
    (label : String) : (engine.write cell value label).Kept := by
  unfold Engine.write
  split
  · exact h.annotate engine.findings _
  · exact (h.store cell value).foldl_wake

theorem Kept.report {engine : Engine ρ} (h : engine.Kept) (finding : Finding) :
    (engine.report finding).Kept := h.annotate _ engine.conflicts

theorem waits_add {engine : Engine ρ} {rule : ρ} {id : RuleId} {slot : Slot ρ} :
    (engine.add rule).Waits id slot ↔ engine.Waits id slot ∨
      id = engine.slots.size ∧ slot = { rule, missing := (engine.awaited rule).length } := by
  simp only [Waits, add, Array.getElem?_push]
  split
  next h =>
    subst h
    simp only [Option.some.injEq, true_and, Array.getElem?_size, reduceCtorEq, false_and,
      false_or, eq_comm (b := slot)]
    constructor
    · exact And.left
    · rintro rfl
      exact ⟨rfl, rfl⟩
  next h => simp [h]

theorem hasFired_add {engine : Engine ρ} {rule : ρ} {id : RuleId} :
    (engine.add rule).HasFired id ↔ engine.HasFired id := by
  simp only [HasFired, add, Array.getElem?_push]
  split
  next h => simp [h]
  next => rfl

theorem getD_waiters_add (engine : Engine ρ) (rule : ρ) (cell : Cell) :
    (engine.add rule).waiters.getD cell [] = engine.waiters.getD cell [] ++
      if cell ∈ engine.awaited rule then [engine.slots.size] else [] :=
  getD_foldl_await _ _ (nodup_awaited engine rule) _ _

theorem Waits.lt_size {engine : Engine ρ} {id : RuleId} {slot : Slot ρ}
    (h : engine.Waits id slot) : id < engine.slots.size :=
  (Array.getElem?_eq_some_iff.mp h.1).1

theorem Kept.size_not_mem_waiters {engine : Engine ρ} (h : engine.Kept) (cell : Cell) :
    engine.slots.size ∉ engine.waiters.getD cell [] := by
  intro hid
  obtain ⟨slot, hslot, _⟩ := (h.waiters _ cell).2.mp hid
  exact Nat.lt_irrefl _ hslot.lt_size

theorem Kept.size_not_mem_ready {engine : Engine ρ} (h : engine.Kept) :
    engine.slots.size ∉ engine.ready := by
  intro hid
  obtain ⟨slot, hslot, _⟩ := (h.ready _).mp hid
  exact Nat.lt_irrefl _ hslot.lt_size

theorem Kept.add {engine : Engine ρ} (h : engine.Kept) (rule : ρ) : (engine.add rule).Kept := by
  -- the new id is the number of slots, and so nobody goes by it yet
  have hnew := h.size_not_mem_waiters
  have hqueue := h.size_not_mem_ready
  have hawaited : ∀ other, (engine.add rule).awaited other = engine.awaited other :=
    awaited_congr (view_add engine rule)
  have hwaiters := getD_waiters_add engine rule
  have hready : (engine.add rule).ready =
      if engine.awaited rule = [] then engine.ready ++ [engine.slots.size] else engine.ready := rfl
  refine ⟨?_, ?_, ?_, ?_, ?_, ?_, h.fired_nodup⟩
  · intro id slot hslot
    rw [hawaited]
    rcases waits_add.mp hslot with hold | ⟨rfl, rfl⟩
    · exact h.missing id slot hold
    · rfl
  · intro id cell
    simp only [hwaiters, List.count_append, List.mem_append, waits_add, hawaited]
    by_cases hid : id = engine.slots.size
    · subst hid
      rw [List.count_eq_zero_of_not_mem (hnew cell)]
      refine ⟨by split <;> simp, ?_⟩
      constructor
      · rintro (hold | hid)
        · exact absurd hold (hnew cell)
        · split at hid
          next hc => exact ⟨_, .inr ⟨rfl, rfl⟩, hc⟩
          next => cases hid
      · rintro ⟨slot, hslot | ⟨_, rfl⟩, hc⟩
        · exact absurd hslot.lt_size (Nat.lt_irrefl _)
        · simp [hc]
    · have hcount : List.count id (if cell ∈ engine.awaited rule then [engine.slots.size] else []) =
          0 := by
        split <;> simp [Ne.symm hid]
      have hmem : id ∉ if cell ∈ engine.awaited rule then [engine.slots.size] else [] := by
        split <;> simp [hid]
      simp only [hcount, Nat.add_zero, hmem, or_false, hid, false_and]
      exact h.waiters id cell
  · intro id
    simp only [hready, waits_add]
    by_cases hid : id = engine.slots.size
    · subst hid
      constructor
      · intro hmem
        split at hmem
        next hnil => exact ⟨_, .inr ⟨rfl, rfl⟩, by simp [hnil]⟩
        next => exact absurd hmem hqueue
      · rintro ⟨slot, hslot | ⟨_, rfl⟩, hzero⟩
        · exact absurd hslot.lt_size (Nat.lt_irrefl _)
        · simp [List.length_eq_zero_iff.mp hzero]
    · simp only [mem_append_if hid, hid, false_and, or_false]
      exact h.ready id
  · rw [hready]
    exact nodup_append_if h.ready_nodup hqueue
  · simp
  · intro id
    rw [hasFired_add]
    exact h.fired id

theorem Kept.obey {engine : Engine ρ} (h : engine.Kept) (command : Command ρ) :
    (engine.obey command).Kept := by
  cases command with
  | set cell value => exact h.write cell value "direct"
  | add rule => exact h.add rule
  | report finding => exact h.report finding

theorem Kept.perform {engine : Engine ρ} (h : engine.Kept) (rule : ρ) (effect : Effect ρ) :
    (engine.perform rule effect).Kept := by
  have hwrites : ∀ (writes : List (Cell × Value)) (engine : Engine ρ), engine.Kept →
      (writes.foldl (fun engine write =>
        engine.write write.1 write.2 (RuleFamily.label rule)) engine).Kept := by
    intro writes
    induction writes with
    | nil => exact fun _ h => h
    | cons write writes ih => exact fun engine h => ih _ (h.write write.1 write.2 _)
  have hadds : ∀ (rules : List ρ) (engine : Engine ρ), engine.Kept →
      (rules.foldl Engine.add engine).Kept := by
    intro rules
    induction rules with
    | nil => exact fun _ h => h
    | cons rule rules ih => exact fun engine h => ih _ (h.add rule)
  exact hadds effect.spawned _ ((hwrites (cellWrites rule effect) engine h).annotate _ _)

def unqueue (engine : Engine ρ) (id : RuleId) : Engine ρ :=
  { engine with ready := engine.ready.erase id }

def mark (engine : Engine ρ) (id : RuleId) : Engine ρ :=
  { engine with
    slots := engine.slots.modify id fun slot => { slot with fired := true }
    fired := engine.fired ++ [id] }

/-- Fire some rule of the queue, whichever place it has. -/
def fireReady (setting : σ) (engine : Engine ρ) (id : RuleId) : Engine ρ :=
  (engine.unqueue id).fire setting id

/-- A step fires the rule that has been in the queue for the longest time. -/
theorem step_eq (setting : σ) (engine : Engine ρ) :
    engine.step setting = engine.ready.head?.map (engine.fireReady setting) := by
  unfold step
  cases h : engine.ready with
  | nil => rfl
  | cons id rest => simp [fireReady, unqueue, h]

theorem fireReady_of_waits {setting : σ} {engine : Engine ρ} {id : RuleId} {slot : Slot ρ}
    (h : engine.Waits id slot) :
    engine.fireReady setting id =
      ((engine.unqueue id).mark id).perform slot.rule
        (RuleFamily.fire setting slot.rule engine.view) := by
  unfold fireReady fire
  have hslot : (engine.unqueue id).slots[id]? = some slot := h.1
  rw [hslot]
  simp only [h.2]
  rfl

theorem waits_mark {engine : Engine ρ} {id k : RuleId} {slot : Slot ρ} :
    ((engine.unqueue id).mark id).Waits k slot ↔ engine.Waits k slot ∧ k ≠ id := by
  simp only [Waits, mark, unqueue, Array.getElem?_modify]
  by_cases h : id = k
  · subst h
    simp only [if_true, Option.map_eq_some_iff, ne_eq, not_true_eq_false, and_false, iff_false]
    rintro ⟨⟨_, _, rfl⟩, hfired⟩
    cases hfired
  · simp [h, Ne.symm h]

theorem hasFired_mark {engine : Engine ρ} {id k : RuleId} {slot : Slot ρ}
    (h : engine.Waits id slot) :
    ((engine.unqueue id).mark id).HasFired k ↔ engine.HasFired k ∨ k = id := by
  simp only [HasFired, mark, unqueue, Array.getElem?_modify]
  by_cases hk : id = k
  · subst hk
    simp [h.1]
  · simp [hk, Ne.symm hk]

/-- A rule of the queue that is taken out and marked leaves the bookkeeping in order: it misses
nothing, so it waits for no cell. -/
theorem Kept.mark {engine : Engine ρ} (h : engine.Kept) {id : RuleId} {slot : Slot ρ}
    (hready : id ∈ engine.ready) (hslot : engine.Waits id slot) :
    ((engine.unqueue id).mark id).Kept := by
  have hzero : slot.missing = 0 := by
    obtain ⟨other, hother, hzero⟩ := (h.ready id).mp hready
    exact hslot.unique hother ▸ hzero
  have hnil : engine.awaited slot.rule = [] := by
    have := h.missing id slot hslot
    rw [hzero] at this
    exact List.length_eq_zero_iff.mp (by omega)
  refine ⟨?_, ?_, ?_, h.ready_nodup.erase id, by simp, ?_, ?_⟩
  · intro k other hother
    exact h.missing k other (waits_mark.mp hother).1
  · intro k cell
    refine ⟨(h.waiters k cell).1, (h.waiters k cell).2.trans ?_⟩
    constructor
    · rintro ⟨other, hother, hcell⟩
      refine ⟨other, waits_mark.mpr ⟨hother, ?_⟩, hcell⟩
      rintro rfl
      rw [hslot.unique hother, hnil] at hcell
      cases hcell
    · rintro ⟨other, hother, hcell⟩
      exact ⟨other, (waits_mark.mp hother).1, hcell⟩
  · intro k
    have hmem : k ∈ ((engine.unqueue id).mark id).ready ↔ k ≠ id ∧ k ∈ engine.ready :=
      h.ready_nodup.mem_erase_iff
    simp only [hmem, h.ready k, waits_mark]
    constructor
    · rintro ⟨hk, other, hother, hzero⟩
      exact ⟨other, ⟨hother, hk⟩, hzero⟩
    · rintro ⟨other, ⟨hother, hk⟩, hzero⟩
      exact ⟨hk, other, hother, hzero⟩
  · intro k
    rw [hasFired_mark hslot]
    simp [Engine.mark, unqueue, h.fired k]
  · have hid : id ∉ engine.fired := fun hmem => hslot.not_hasFired ((h.fired id).mp hmem)
    change (engine.fired ++ [id]).Nodup
    rw [← List.concat_eq_append]
    exact h.fired_nodup.concat hid

theorem Kept.waits_of_ready {engine : Engine ρ} (h : engine.Kept) {id : RuleId}
    (hready : id ∈ engine.ready) : ∃ slot, engine.Waits id slot ∧
      ∀ cell ∈ RuleFamily.inputs slot.rule, (engine.view cell).isSome := by
  obtain ⟨slot, hslot, hzero⟩ := (h.ready id).mp hready
  have hmissing := h.missing id slot hslot
  rw [hzero] at hmissing
  exact ⟨slot, hslot, awaited_eq_nil.mp (List.length_eq_zero_iff.mp (by omega))⟩

/-- Once the queue is empty, every rule that has not fired lacks an input. -/
theorem Kept.awaits_of_done {engine : Engine ρ} (h : engine.Kept) (hdone : engine.ready = [])
    {id : RuleId} {slot : Slot ρ} (hslot : engine.Waits id slot) :
    ∃ cell ∈ RuleFamily.inputs slot.rule, engine.view cell = none := by
  have hne : engine.awaited slot.rule ≠ [] := by
    intro hnil
    have hmissing := h.missing id slot hslot
    rw [hnil] at hmissing
    have hmem : id ∈ engine.ready := (h.ready id).mpr ⟨slot, hslot, hmissing⟩
    rw [hdone] at hmem
    cases hmem
  obtain ⟨cell, hcell⟩ := List.exists_mem_of_ne_nil _ hne
  exact ⟨cell, mem_awaited.mp hcell⟩

theorem Kept.fireReady (setting : σ) {engine : Engine ρ} (h : engine.Kept) {id : RuleId}
    (hready : id ∈ engine.ready) : (engine.fireReady setting id).Kept := by
  obtain ⟨slot, hslot, _⟩ := h.waits_of_ready hready
  rw [fireReady_of_waits hslot]
  exact (h.mark hready hslot).perform slot.rule _

end Engine
end Attribution
