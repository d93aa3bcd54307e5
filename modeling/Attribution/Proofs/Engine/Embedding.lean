import Mathlib.Data.List.Forall2
import Attribution.Proofs.Engine.Fixpoint
/-!
# An engine within a larger one

The rules of one engine can reappear among those of a larger one. If the other rules of the larger
engine write none of the cells that both have, the two runs stay in step: each step of the larger
engine either fires the counterpart of the rule that is next in the smaller one, or a rule that
does not matter to it.
-/
namespace Attribution

variable {ρ σ : Type}

/-- How the parts of two engines correspond. -/
structure Correspondence (ρ : Type) where
  /-- The cells that both engines have. -/
  shared : Cell → Bool
  /-- What both hold in a cell. -/
  value : Cell → Value → Value → Prop
  rule : ρ → ρ → Prop
  finding : Finding → Finding → Prop
  /-- The findings of the larger engine that have a counterpart. -/
  counts : Finding → Bool
  /-- The rules of the larger engine that have none. -/
  foreign : ρ → Prop

namespace Correspondence

def Views (c : Correspondence ρ) (view other : View) : Prop :=
  ∀ cell, c.shared cell = true → Option.Rel (c.value cell) (view cell) (other cell)

/-- The effects of two rules with the same outputs correspond. -/
structure Effects (c : Correspondence ρ) (outputs : List Cell) (effect other : Effect ρ) :
    Prop where
  writes : List.Forall₂ (fun write image => image.1 = write.1 ∧
    ∀ cell, outputs[write.1]? = some cell → c.value cell write.2 image.2) effect.writes other.writes
  findings : List.Forall₂ c.finding effect.findings other.findings
  counts : ∀ finding ∈ other.findings, c.counts finding = true
  spawned : List.Forall₂ c.rule effect.spawned other.spawned

/-- Two commands correspond. -/
def Commands (c : Correspondence ρ) : Command ρ → Command ρ → Prop
  | .set cell value, .set cell' value' =>
    cell' = cell ∧ c.shared cell = true ∧ c.value cell value value'
  | .add rule, .add rule' => c.rule rule rule'
  | .report finding, .report finding' => c.finding finding finding' ∧ c.counts finding' = true
  | _, _ => False

/-- A command to the larger engine alone. -/
def Outside (c : Correspondence ρ) : Command ρ → Prop
  | .set cell _ => c.shared cell = false
  | .add rule => c.foreign rule
  | .report finding => c.counts finding = false

/-- What rules have to meet so that the engines stay in step. -/
structure Lawful [RuleFamily ρ σ] (c : Correspondence ρ) (small large : σ) : Prop where
  label_eq : ∀ {rule image}, c.rule rule image → RuleFamily.label image = RuleFamily.label rule
  inputs_eq : ∀ {rule image}, c.rule rule image → RuleFamily.inputs image = RuleFamily.inputs rule
  outputs_eq : ∀ {rule image}, c.rule rule image →
    RuleFamily.outputs image = RuleFamily.outputs rule
  inputs_shared : ∀ {rule image}, c.rule rule image →
    ∀ cell ∈ RuleFamily.inputs rule, c.shared cell = true
  outputs_shared : ∀ {rule image}, c.rule rule image →
    ∀ cell ∈ RuleFamily.outputs rule, c.shared cell = true
  fire : ∀ {rule image view other}, c.rule rule image → c.Views view other →
    c.Effects (RuleFamily.outputs rule) (RuleFamily.fire small rule view)
      (RuleFamily.fire large image other)
  foreign_outputs : ∀ {rule}, c.foreign rule →
    ∀ cell ∈ RuleFamily.outputs rule, c.shared cell = false
  foreign_findings : ∀ {rule}, c.foreign rule → ∀ view,
    ∀ finding ∈ (RuleFamily.fire large rule view).findings, c.counts finding = false
  foreign_spawned : ∀ {rule}, c.foreign rule → ∀ view,
    ∀ next ∈ (RuleFamily.fire large rule view).spawned, c.foreign next

end Correspondence

/-- A queue of the larger engine is one of the smaller engine, whose rules have `places` among those
of the larger one, when rules that have no counterpart are passed over. -/
def Follows (places queue others : List RuleId) : Prop :=
  List.Forall₂ (fun id place => places[id]? = some place) queue
    (others.filter fun id => id ∈ places)

namespace Follows

variable {places queue others : List RuleId} {id place : RuleId}

theorem nil (places : List RuleId) : Follows places [] [] := List.Forall₂.nil

theorem append_outside (h : Follows places queue others) (hplace : place ∉ places) :
    Follows places queue (others ++ [place]) := by
  simpa [Follows, List.filter_append, hplace] using h

theorem append (h : Follows places queue others) (hplace : places[id]? = some place) :
    Follows places (queue ++ [id]) (others ++ [place]) := by
  have hmem : place ∈ places := List.mem_of_getElem? hplace
  simp only [Follows, List.filter_append, List.filter_cons, List.filter_nil, hmem, decide_true,
    if_true]
  exact List.rel_append h (.cons hplace .nil)

theorem outside (h : Follows places queue (place :: others)) (hplace : place ∉ places) :
    Follows places queue others := by
  simpa [Follows, hplace] using h

theorem exists_cons (h : Follows places queue (place :: others)) (hplace : place ∈ places) :
    ∃ id rest, queue = id :: rest ∧ places[id]? = some place ∧ Follows places rest others := by
  simp only [Follows, List.filter_cons, hplace, decide_true, if_true] at h
  cases h with
  | cons hid hrest => exact ⟨_, _, rfl, hid, hrest⟩

theorem eq_nil (h : Follows places queue []) : queue = [] := by
  cases h
  rfl

theorem extend (h : Follows places queue others) (hnew : place ∉ others) :
    Follows (places ++ [place]) queue others := by
  have hfilter : (others.filter fun id => id ∈ places ++ [place]) =
      others.filter fun id => id ∈ places := by
    apply List.filter_congr
    intro id hid
    have hne : id ≠ place := fun heq => hnew (heq ▸ hid)
    simp [hne]
  rw [Follows, hfilter]
  refine List.Forall₂.imp ?_ h
  intro id place hplace
  exact List.getElem?_append_left (List.getElem?_eq_some_iff.mp hplace).1 ▸ hplace

end Follows

namespace Correspondence

open Engine

structure Slots (c : Correspondence ρ) (slot image : Slot ρ) : Prop where
  rule : c.rule slot.rule image.rule
  missing : image.missing = slot.missing
  fired : image.fired = slot.fired

/-- The engines are in step: the rules of the smaller one stand in some places of the larger one,
nothing else there is of the smaller one, and what the two show of it corresponds. -/
structure Holds (c : Correspondence ρ) (places : List RuleId) (engine other : Engine ρ) : Prop where
  size : places.length = engine.slots.size
  increasing : places.Pairwise (· < ·)
  slots : ∀ {id place : RuleId}, places[id]? = some place → ∃ slot image,
    engine.slots[id]? = some slot ∧ other.slots[place]? = some image ∧ c.Slots slot image
  foreign : ∀ {place : RuleId} {slot : Slot ρ}, other.slots[place]? = some slot →
    place ∉ places → c.foreign slot.rule
  views : c.Views engine.view other.view
  waiters : ∀ cell, c.shared cell = true →
    Follows places (engine.waiters.getD cell []) (other.waiters.getD cell [])
  waiters_outside : ∀ cell, c.shared cell = false →
    ∀ place ∈ other.waiters.getD cell [], place ∉ places
  ready : Follows places engine.ready other.ready
  findings : List.Forall₂ c.finding engine.findings (other.findings.filter c.counts)
  conflicts : engine.conflicts = other.conflicts.filter fun conflict => c.shared conflict.cell

variable {c : Correspondence ρ} {places : List RuleId} {engine other : Engine ρ}
  {cell : Cell} {value image : Value} {id place : RuleId}

theorem holds_new (c : Correspondence ρ) : c.Holds [] {} {} where
  size := rfl
  increasing := .nil
  slots := by simp
  foreign := by simp
  views := fun _ _ => .none
  waiters := fun _ _ => by simpa using Follows.nil []
  waiters_outside := by simp
  ready := .nil []
  findings := .nil
  conflicts := rfl

namespace Holds

theorem lt_size (h : c.Holds places engine other) (hplace : place ∈ places) :
    place < other.slots.size := by
  obtain ⟨id, hid⟩ := List.getElem?_of_mem hplace
  obtain ⟨_, image, _, himage, _⟩ := h.slots hid
  exact (Array.getElem?_eq_some_iff.mp himage).1

theorem modify_outside (h : c.Holds places engine other) (hplace : place ∉ places)
    {f : Slot ρ → Slot ρ} (hf : ∀ slot, (f slot).rule = slot.rule) {ready fired : List RuleId}
    (hready : Follows places engine.ready ready) :
    c.Holds places engine { other with slots := other.slots.modify place f, ready, fired } := by
  refine { h with ready := hready, slots := ?_, foreign := ?_ }
  · intro id other' hid
    have hne : place ≠ other' := fun heq => hplace (heq ▸ List.mem_of_getElem? hid)
    simp only [Array.getElem?_modify, if_neg hne]
    exact h.slots hid
  · intro other' slot hslot hother
    simp only [Array.getElem?_modify] at hslot
    split at hslot
    · obtain ⟨old, hold, rfl⟩ := Option.map_eq_some_iff.mp hslot
      rw [hf]
      exact h.foreign hold hother
    · exact h.foreign hslot hother

theorem modify (h : c.Holds places engine other) (hplace : places[id]? = some place)
    {f : Slot ρ → Slot ρ} (hf : ∀ {slot image}, c.Slots slot image → c.Slots (f slot) (f image))
    {ready ready' fired fired' : List RuleId} (hready : Follows places ready ready') :
    c.Holds places { engine with slots := engine.slots.modify id f, ready, fired }
      { other with slots := other.slots.modify place f, ready := ready', fired := fired' } := by
  refine { h with size := ?_, ready := hready, slots := ?_, foreign := ?_ }
  · rw [Array.size_modify]
    exact h.size
  · intro id' place' hplace'
    obtain ⟨slot, image, hslot, himage, hlike⟩ := h.slots hplace'
    simp only [Array.getElem?_modify, hslot, himage]
    by_cases heq : id = id'
    · subst heq
      cases hplace.symm.trans hplace'
      exact ⟨_, _, if_pos rfl, if_pos rfl, hf hlike⟩
    · have hne : place ≠ place' := by
        rintro rfl
        have hlt := (List.getElem?_eq_some_iff.mp hplace).1
        exact heq ((List.getElem?_inj hlt (h.increasing.imp Nat.ne_of_lt)).mp
          (hplace.trans hplace'.symm))
      exact ⟨slot, image, if_neg heq, if_neg hne, hlike⟩
  · intro place' slot hslot hplace'
    have hne : place ≠ place' := fun heq => hplace' (heq ▸ List.mem_of_getElem? hplace)
    simp only [Array.getElem?_modify, if_neg hne] at hslot
    exact h.foreign hslot hplace'

theorem wake_outside (h : c.Holds places engine other) (hplace : place ∉ places) :
    c.Holds places engine (other.wake place) := by
  unfold wake
  split
  · exact h
  · refine h.modify_outside hplace ?_ ?_
    · exact fun _ => rfl
    · split
      · exact h.ready.append_outside hplace
      · exact h.ready

theorem wake (h : c.Holds places engine other) (hplace : places[id]? = some place) :
    c.Holds places (engine.wake id) (other.wake place) := by
  obtain ⟨slot, image, hslot, himage, hlike⟩ := h.slots hplace
  simp only [Engine.wake, hslot, himage, hlike.missing]
  apply h.modify hplace
  · intro slot image hlike
    exact { hlike with missing := by rw [hlike.missing] }
  · split
    · exact h.ready.append hplace
    · exact h.ready

theorem foldl_wake {due due' : List RuleId} (h : c.Holds places engine other)
    (hdue : Follows places due due') :
    c.Holds places (due.foldl Engine.wake engine) (due'.foldl Engine.wake other) := by
  induction due' generalizing due engine other with
  | nil =>
    rw [hdue.eq_nil]
    exact h
  | cons place rest ih =>
    rw [List.foldl_cons]
    by_cases hplace : place ∈ places
    · obtain ⟨id, due, rfl, hid, hrest⟩ := hdue.exists_cons hplace
      rw [List.foldl_cons]
      exact ih (h.wake hid) hrest
    · exact ih (h.wake_outside hplace) (hdue.outside hplace)

theorem store (h : c.Holds places engine other) (hvalue : c.value cell value image) :
    c.Holds places (engine.store cell value) (other.store cell image) := by
  refine { h with views := ?_, waiters := ?_, waiters_outside := ?_ }
  · intro cell' hcell'
    simp only [view_store]
    split
    next heq =>
      subst heq
      exact .some hvalue
    next => exact h.views cell' hcell'
  · intro cell' hcell'
    simp only [Engine.store, Std.TreeMap.getD_erase]
    split
    · exact .nil places
    · exact h.waiters cell' hcell'
  · intro cell' hcell' place hplace
    simp only [Engine.store, Std.TreeMap.getD_erase] at hplace
    split at hplace
    · cases hplace
    · exact h.waiters_outside cell' hcell' place hplace

theorem store_outside (h : c.Holds places engine other) (hcell : c.shared cell = false) :
    c.Holds places engine (other.store cell image) := by
  have hne : ∀ {cell'}, c.shared cell' = true → cell ≠ cell' := by
    rintro cell' hcell' rfl
    rw [hcell] at hcell'
    cases hcell'
  refine { h with views := ?_, waiters := ?_, waiters_outside := ?_ }
  · intro cell' hcell'
    rw [view_store, if_neg (hne hcell')]
    exact h.views cell' hcell'
  · intro cell' hcell'
    simp only [Engine.store, Std.TreeMap.getD_erase, Std.LawfulEqCmp.compare_eq_iff_eq,
      if_neg (hne hcell')]
    exact h.waiters cell' hcell'
  · intro cell' hcell' place hplace
    simp only [Engine.store, Std.TreeMap.getD_erase] at hplace
    split at hplace
    · cases hplace
    · exact h.waiters_outside cell' hcell' place hplace

theorem write (h : c.Holds places engine other) (hcell : c.shared cell = true)
    (hvalue : c.value cell value image) (label : String) :
    c.Holds places (engine.write cell value label) (other.write cell image label) := by
  have hview := h.views cell hcell
  unfold Engine.write
  cases hold : engine.view cell with
  | none =>
    rw [hold] at hview
    cases hnew : other.view cell with
    | none => exact (h.store hvalue).foldl_wake (h.waiters cell hcell)
    | some _ =>
      rw [hnew] at hview
      cases hview
  | some _ =>
    rw [hold] at hview
    cases hnew : other.view cell with
    | none =>
      rw [hnew] at hview
      cases hview
    | some _ =>
      refine { h with conflicts := ?_ }
      rw [List.filter_append, ← h.conflicts]
      simp [hcell]

theorem write_outside (h : c.Holds places engine other) (hcell : c.shared cell = false)
    (label : String) : c.Holds places engine (other.write cell image label) := by
  unfold Engine.write
  split
  · refine { h with conflicts := ?_ }
    rw [List.filter_append, ← h.conflicts]
    simp [hcell]
  · have hstored : c.Holds places engine (other.store cell image) := h.store_outside hcell
    have hnone : Follows places [] (other.waiters.getD cell []) := by
      rw [Follows, List.filter_eq_nil_iff.mpr]
      · exact .nil
      · intro place hplace
        simpa using h.waiters_outside cell hcell place hplace
    exact hstored.foldl_wake hnone

variable {finding finding' : Finding}

theorem report (h : c.Holds places engine other) (hfinding : c.finding finding finding')
    (hcounts : c.counts finding' = true) :
    c.Holds places (engine.report finding) (other.report finding') := by
  refine { h with findings := ?_ }
  simp only [Engine.report, List.filter_append, List.filter_cons, hcounts, if_true,
    List.filter_nil]
  exact List.rel_append h.findings (.cons hfinding .nil)

theorem report_outside (h : c.Holds places engine other) (hcounts : c.counts finding = false) :
    c.Holds places engine (other.report finding) := by
  refine { h with findings := ?_ }
  simp only [Engine.report, List.filter_append, List.filter_cons, hcounts, List.filter_nil]
  simpa using h.findings

variable [RuleFamily ρ σ] {small large : σ} {rule rule' : ρ}

theorem awaited_eq (h : c.Holds places engine other) (hlaw : c.Lawful small large)
    (hrule : c.rule rule rule') : other.awaited rule' = engine.awaited rule := by
  rw [awaited, awaited, hlaw.inputs_eq hrule]
  apply List.filter_congr
  intro cell hcell
  have hview := h.views cell (hlaw.inputs_shared hrule cell (mem_distinct.mp hcell))
  cases hold : engine.view cell <;> cases hnew : other.view cell <;> rw [hold, hnew] at hview <;>
    first | rfl | cases hview

theorem slots_add (h : c.Holds places engine other) (hlaw : c.Lawful small large)
    (hrule : c.rule rule rule') {id place : RuleId}
    (hid : (places ++ [other.slots.size])[id]? = some place) : ∃ slot image,
      (engine.add rule).slots[id]? = some slot ∧ (other.add rule').slots[place]? = some image ∧
        c.Slots slot image := by
  simp only [Engine.add, Array.getElem?_push, ← h.size]
  by_cases hlast : id = places.length
  · subst hlast
    rw [List.getElem?_concat_length] at hid
    cases hid
    exact ⟨_, _, if_pos rfl, if_pos rfl, hrule, by rw [h.awaited_eq hlaw hrule], rfl⟩
  · have hlt : id < places.length := by
      have hle := (List.getElem?_eq_some_iff.mp hid).1
      rw [List.length_append, List.length_singleton] at hle
      exact Nat.lt_of_le_of_ne (Nat.le_of_lt_succ hle) hlast
    rw [List.getElem?_append_left hlt] at hid
    have hne : place ≠ other.slots.size := Nat.ne_of_lt (h.lt_size (List.mem_of_getElem? hid))
    simp only [if_neg hlast, if_neg hne]
    exact h.slots hid

theorem add (h : c.Holds places engine other) (hkept : other.Kept) (hlaw : c.Lawful small large)
    (hrule : c.rule rule rule') :
    c.Holds (places ++ [other.slots.size]) (engine.add rule) (other.add rule') := by
  have hawaited := h.awaited_eq hlaw hrule
  have hplace : (places ++ [other.slots.size])[engine.slots.size]? = some other.slots.size := by
    rw [← h.size, List.getElem?_concat_length]
  have hwaiters := getD_waiters_add engine rule
  have hwaiters' := getD_waiters_add other rule'
  rw [hawaited] at hwaiters'
  refine { views := h.views, findings := h.findings, conflicts := h.conflicts, size := ?_,
           increasing := ?_, slots := ?_, foreign := ?_, waiters := ?_, waiters_outside := ?_,
           ready := ?_ }
  · simp [Engine.add, h.size]
  · rw [List.pairwise_append]
    refine ⟨h.increasing, List.pairwise_singleton _ _, ?_⟩
    intro place hplace last hlast
    rw [List.mem_singleton.mp hlast]
    exact h.lt_size hplace
  · exact h.slots_add hlaw hrule
  · intro place slot hslot hplace
    rw [List.mem_append, List.mem_singleton, not_or] at hplace
    simp only [Engine.add, Array.getElem?_push, if_neg hplace.2] at hslot
    exact h.foreign hslot hplace.1
  · intro cell hcell
    have hold := (h.waiters cell hcell).extend (hkept.size_not_mem_waiters cell)
    rw [hwaiters, hwaiters']
    split
    · exact hold.append hplace
    · simpa using hold
  · intro cell hcell place hmem
    have hnot : cell ∉ engine.awaited rule := by
      intro hawait
      rw [hlaw.inputs_shared hrule cell (mem_awaited.mp hawait).1] at hcell
      cases hcell
    rw [hwaiters', if_neg hnot, List.append_nil] at hmem
    rw [List.mem_append, List.mem_singleton, not_or]
    refine ⟨h.waiters_outside cell hcell place hmem, ?_⟩
    rintro rfl
    exact hkept.size_not_mem_waiters cell hmem
  · have hold := h.ready.extend hkept.size_not_mem_ready
    simp only [Engine.add, hawaited]
    split
    · exact hold.append hplace
    · exact hold

theorem add_outside (h : c.Holds places engine other) (hrule : c.foreign rule) :
    c.Holds places engine (other.add rule) := by
  have hplace : other.slots.size ∉ places := fun hmem => Nat.lt_irrefl _ (h.lt_size hmem)
  have hwaiters := getD_waiters_add other rule
  refine { h with slots := ?_, foreign := ?_, waiters := ?_, waiters_outside := ?_, ready := ?_ }
  · intro id place hid
    have hne : place ≠ other.slots.size := Nat.ne_of_lt (h.lt_size (List.mem_of_getElem? hid))
    simp only [Engine.add, Array.getElem?_push, if_neg hne]
    exact h.slots hid
  · intro place slot hslot hmem
    simp only [Engine.add, Array.getElem?_push] at hslot
    split at hslot
    · cases hslot
      exact hrule
    · exact h.foreign hslot hmem
  · intro cell hcell
    rw [hwaiters]
    split
    · exact (h.waiters cell hcell).append_outside hplace
    · simpa using h.waiters cell hcell
  · intro cell hcell place hmem
    rw [hwaiters, List.mem_append] at hmem
    rcases hmem with hold | hnew
    · exact h.waiters_outside cell hcell place hold
    · split at hnew
      · rw [List.mem_singleton.mp hnew]
        exact hplace
      · cases hnew
  · simp only [Engine.add]
    split
    · exact h.ready.append_outside hplace
    · exact h.ready

theorem foldl_add (hlaw : c.Lawful small large) {rules images : List ρ}
    (hrules : List.Forall₂ c.rule rules images) (h : c.Holds places engine other)
    (hkept : other.Kept) : ∃ places, c.Holds places (rules.foldl Engine.add engine)
      (images.foldl Engine.add other) := by
  induction hrules generalizing places engine other with
  | nil => exact ⟨places, h⟩
  | cons hrule _ ih => exact ih (h.add hkept hlaw hrule) (hkept.add _)

theorem foldl_add_outside {rules : List ρ} (hrules : ∀ rule ∈ rules, c.foreign rule)
    (h : c.Holds places engine other) :
    c.Holds places engine (rules.foldl Engine.add other) := by
  induction rules generalizing other with
  | nil => exact h
  | cons rule rest ih =>
    rw [List.forall_mem_cons] at hrules
    exact ih hrules.2 (h.add_outside hrules.1)

theorem cellWrites (hlaw : c.Lawful small large) (hrule : c.rule rule rule')
    {effect effect' : Effect ρ}
    (heffects : c.Effects (RuleFamily.outputs rule) effect effect') :
    List.Forall₂ (fun write image => c.shared write.1 = true ∧ image.1 = write.1 ∧
      c.value write.1 write.2 image.2) (Engine.cellWrites rule effect)
        (Engine.cellWrites rule' effect') := by
  obtain ⟨writes, _, _⟩ := effect
  obtain ⟨writes', _, _⟩ := effect'
  have hwrites : List.Forall₂ _ writes writes' := heffects.writes
  simp only [Engine.cellWrites, hlaw.outputs_eq hrule]
  clear heffects
  induction hwrites with
  | nil => exact .nil
  | cons hwrite _ ih =>
    obtain ⟨hplace, hvalue⟩ := hwrite
    simp only [List.filterMap_cons, hplace]
    split
    next hnone =>
      rw [Option.map_eq_none_iff] at hnone
      simpa only [hnone, Option.map_none] using ih
    next write hsome =>
      obtain ⟨cell, hcell, rfl⟩ := Option.map_eq_some_iff.mp hsome
      simp only [hcell, Option.map_some]
      have hshared := hlaw.outputs_shared hrule cell (List.mem_of_getElem? hcell)
      exact .cons ⟨hshared, rfl, hvalue cell hcell⟩ ih

theorem foldl_write (label : String) {writes images : List (Cell × Value)}
    (hwrites : List.Forall₂ (fun write image => c.shared write.1 = true ∧ image.1 = write.1 ∧
      c.value write.1 write.2 image.2) writes images) (h : c.Holds places engine other) :
    c.Holds places (writes.foldl (fun engine write => engine.write write.1 write.2 label) engine)
      (images.foldl (fun engine write => engine.write write.1 write.2 label) other) := by
  induction hwrites generalizing engine other with
  | nil => exact h
  | cons hwrite _ ih =>
    obtain ⟨hshared, hcell, hvalue⟩ := hwrite
    rw [List.foldl_cons, List.foldl_cons, hcell]
    exact ih (h.write hshared hvalue label)

theorem foldl_write_outside (label : String) {writes : List (Cell × Value)}
    (hwrites : ∀ write ∈ writes, c.shared write.1 = false) (h : c.Holds places engine other) :
    c.Holds places engine
      (writes.foldl (fun engine write => engine.write write.1 write.2 label) other) := by
  induction writes generalizing other with
  | nil => exact h
  | cons write rest ih =>
    rw [List.forall_mem_cons] at hwrites
    exact ih hwrites.2 (h.write_outside hwrites.1 label)

theorem foldl_write_kept (label : String) (writes : List (Cell × Value)) (h : other.Kept) :
    (writes.foldl (fun engine write => engine.write write.1 write.2 label) other).Kept := by
  induction writes generalizing other with
  | nil => exact h
  | cons write rest ih => exact ih (h.write _ _ _)

theorem annotate {found found' : List Finding} (h : c.Holds places engine other)
    (hfound : List.Forall₂ c.finding found found')
    (hcounts : ∀ finding ∈ found', c.counts finding = true) :
    c.Holds places { engine with findings := engine.findings ++ found }
      { other with findings := other.findings ++ found' } := by
  refine { h with findings := ?_ }
  rw [List.filter_append, List.filter_eq_self.mpr hcounts]
  exact List.rel_append h.findings hfound

theorem annotate_outside {found : List Finding} (h : c.Holds places engine other)
    (hcounts : ∀ finding ∈ found, c.counts finding = false) :
    c.Holds places engine { other with findings := other.findings ++ found } := by
  have hnone : found.filter c.counts = [] := by
    rw [List.filter_eq_nil_iff]
    intro finding hfinding
    rw [hcounts finding hfinding]
    exact Bool.false_ne_true
  refine { h with findings := ?_ }
  rw [List.filter_append, hnone, List.append_nil]
  exact h.findings

theorem perform (h : c.Holds places engine other) (hkept : other.Kept)
    (hlaw : c.Lawful small large) (hrule : c.rule rule rule') {effect effect' : Effect ρ}
    (heffects : c.Effects (RuleFamily.outputs rule) effect effect') :
    ∃ places, c.Holds places (engine.perform rule effect) (other.perform rule' effect') := by
  have hwritten := h.foldl_write (RuleFamily.label rule) (cellWrites hlaw hrule heffects)
  have hkept' := foldl_write_kept (RuleFamily.label rule) (Engine.cellWrites rule' effect') hkept
  rw [Engine.perform, Engine.perform, hlaw.label_eq hrule]
  exact foldl_add hlaw heffects.spawned (hwritten.annotate heffects.findings heffects.counts)
    (hkept'.annotate _ _)

theorem perform_outside (h : c.Holds places engine other) (hlaw : c.Lawful small large)
    (hrule : c.foreign rule) (view : View) :
    c.Holds places engine (other.perform rule (RuleFamily.fire large rule view)) := by
  have hwrites : ∀ write ∈ Engine.cellWrites rule (RuleFamily.fire large rule view),
      c.shared write.1 = false := by
    intro write hwrite
    obtain ⟨⟨output, value⟩, _, houtput⟩ := List.mem_filterMap.mp hwrite
    obtain ⟨cell, hcell, rfl⟩ := Option.map_eq_some_iff.mp houtput
    exact hlaw.foreign_outputs hrule cell (List.mem_of_getElem? hcell)
  exact foldl_add_outside (hlaw.foreign_spawned hrule view)
    ((h.foldl_write_outside _ hwrites).annotate_outside (hlaw.foreign_findings hrule view))

/-- A step of the larger engine is a step of the smaller one, or none. -/
theorem step {next' : Engine ρ} (h : c.Holds places engine other) (hkept : other.Kept)
    (hlaw : c.Lawful small large) (hstep : other.step large = some next') :
    ∃ places, c.Holds places engine next' ∨
      ∃ next, engine.step small = some next ∧ c.Holds places next next' := by
  rw [step_eq, Option.map_eq_some_iff] at hstep
  obtain ⟨place, hhead, rfl⟩ := hstep
  obtain ⟨rest, hready⟩ : ∃ rest, other.ready = place :: rest := by
    cases hqueue : other.ready with
    | nil => simp [hqueue] at hhead
    | cons _ rest =>
      rw [hqueue] at hhead
      cases hhead
      exact ⟨rest, rfl⟩
  have hmem : place ∈ other.ready := hready ▸ List.mem_cons_self
  obtain ⟨slot', hwaits', _⟩ := hkept.waits_of_ready hmem
  have hunqueue : (other.unqueue place).ready = rest := by
    rw [unqueue, hready, List.erase_cons_head]
  have hqueue := h.ready
  rw [hready] at hqueue
  rw [fireReady_of_waits hwaits']
  by_cases hplace : place ∈ places
  · obtain ⟨id, queue, hids, hid, hrest⟩ := hqueue.exists_cons hplace
    obtain ⟨slot, image, hslot, himage, hlike⟩ := h.slots hid
    cases himage.symm.trans hwaits'.1
    have hwaits : engine.Waits id slot := ⟨hslot, hlike.fired ▸ hwaits'.2⟩
    have hmarked : c.Holds places ((engine.unqueue id).mark id)
        ((other.unqueue place).mark place) := by
      refine h.modify hid ?_ ?_
      · intro slot image hlike
        exact { hlike with fired := rfl }
      · simpa only [unqueue, hids, hready, List.erase_cons_head] using hrest
    obtain ⟨places, hnext⟩ := hmarked.perform (hkept.mark hmem hwaits') hlaw hlike.rule
      (hlaw.fire hlike.rule h.views)
    refine ⟨places, .inr ⟨_, ?_, hnext⟩⟩
    rw [step_eq, hids, List.head?_cons, Option.map_some, fireReady_of_waits hwaits]
  · have hmarked : c.Holds places engine ((other.unqueue place).mark place) := by
      refine h.modify_outside hplace ?_ ?_
      · exact fun _ => rfl
      · rw [hunqueue]
        exact hqueue.outside hplace
    exact ⟨places, .inl (hmarked.perform_outside hlaw (h.foreign hwaits'.1 hplace) _)⟩

theorem drain (hlaw : c.Lawful small large) (n : Nat) (h : c.Holds places engine other)
    (hkept : other.Kept) :
    ∃ m places, c.Holds places (engine.drain small m) (other.drain large n) := by
  induction n generalizing places engine other with
  | zero => exact ⟨0, places, h⟩
  | succ n ih =>
    cases hstep : other.step large with
    | none =>
      rw [Engine.drain, hstep]
      exact ⟨0, places, h⟩
    | some next' =>
      have hkept' : next'.Kept := by
        rw [step_eq, Option.map_eq_some_iff] at hstep
        obtain ⟨place, hhead, rfl⟩ := hstep
        exact hkept.fireReady large (List.mem_of_mem_head? hhead)
      rw [Engine.drain, hstep]
      obtain ⟨places, hquiet | ⟨next, hnext, hboth⟩⟩ := h.step hkept hlaw hstep
      · exact ih hquiet hkept'
      · obtain ⟨m, places, hrun⟩ := ih hboth hkept'
        refine ⟨m + 1, places, ?_⟩
        rw [Engine.drain, hnext]
        exact hrun

theorem run [RuleFamily.Bounded ρ] (h : c.Holds places engine other) (hkept : engine.Kept)
    (hkept' : other.Kept) (hlaw : c.Lawful small large) :
    ∃ places, c.Holds places (engine.run small) (other.run large) := by
  obtain ⟨m, places, hend⟩ := drain hlaw other.backlog h hkept'
  have hdone' : (other.run large).ready = [] := hkept'.ready_drain large (Nat.le_refl _)
  have hdone : (engine.drain small m).ready = [] := by
    have hready := hend.ready
    rw [← Engine.run, hdone'] at hready
    exact hready.eq_nil
  have heq : engine.run small = engine.drain small m := by
    rw [Engine.run, ← drain_of_le (hkept.ready_drain small (Nat.le_refl _))
      (Nat.le_max_left engine.backlog m), drain_of_le hdone (Nat.le_max_right engine.backlog m)]
  exact ⟨places, heq ▸ hend⟩

theorem obey (h : c.Holds places engine other) (hkept : other.Kept) (hlaw : c.Lawful small large)
    {command command' : Command ρ} (hcommand : c.Commands command command') :
    ∃ places, c.Holds places (engine.obey command) (other.obey command') := by
  match command, command', hcommand with
  | .set cell value, .set _ value', ⟨rfl, hshared, hvalue⟩ =>
    exact ⟨places, h.write hshared hvalue "direct"⟩
  | .add rule, .add rule', hrule => exact ⟨_, h.add hkept hlaw hrule⟩
  | .report finding, .report finding', ⟨hfinding, hcounts⟩ =>
    exact ⟨places, h.report hfinding hcounts⟩

theorem obey_outside (h : c.Holds places engine other) {command : Command ρ}
    (hcommand : c.Outside command) : c.Holds places engine (other.obey command) := by
  cases command with
  | set cell value => exact h.write_outside hcommand "direct"
  | add rule => exact h.add_outside hcommand
  | report finding => exact h.report_outside hcommand

theorem foldl_obey (hlaw : c.Lawful small large) {commands commands' : List (Command ρ)}
    (hcommands : List.Forall₂ c.Commands commands commands') (h : c.Holds places engine other)
    (hkept : other.Kept) : ∃ places, c.Holds places (commands.foldl Engine.obey engine)
      (commands'.foldl Engine.obey other) := by
  induction hcommands generalizing places engine other with
  | nil => exact ⟨places, h⟩
  | cons hcommand _ ih =>
    obtain ⟨places, hnext⟩ := h.obey hkept hlaw hcommand
    exact ih hnext (hkept.obey _)

theorem foldl_obey_outside {commands : List (Command ρ)}
    (hcommands : ∀ command ∈ commands, c.Outside command) (h : c.Holds places engine other) :
    c.Holds places engine (commands.foldl Engine.obey other) := by
  induction commands generalizing other with
  | nil => exact h
  | cons command rest ih =>
    rw [List.forall_mem_cons] at hcommands
    exact ih hcommands.2 (h.obey_outside hcommands.1)

theorem stalled_eq (h : c.Holds places engine other) (hnone : ∀ rule, ¬ c.foreign rule) :
    other.stalled = engine.stalled := by
  have hplaces : places = List.range other.slots.size := by
    refine List.Perm.eq_of_pairwise (fun _ _ _ _ hlt hgt => ?_) h.increasing
      List.pairwise_lt_range ?_
    · exact absurd (Nat.lt_trans hlt hgt) (Nat.lt_irrefl _)
    · refine (List.perm_ext_iff_of_nodup (h.increasing.imp Nat.ne_of_lt) List.nodup_range).mpr ?_
      intro place
      rw [List.mem_range]
      refine ⟨h.lt_size, fun hlt => ?_⟩
      by_contra hplace
      exact hnone _ (h.foreign (Array.getElem?_eq_getElem hlt) hplace)
  have hsize : engine.slots.size = other.slots.size := by
    rw [← h.size, hplaces, List.length_range]
  have hfired : other.slots.map Slot.fired = engine.slots.map Slot.fired := by
    apply Array.ext_getElem?
    intro id
    rw [Array.getElem?_map, Array.getElem?_map]
    by_cases hlt : id < other.slots.size
    · have hid : places[id]? = some id := by
        rw [hplaces, List.getElem?_range hlt]
      obtain ⟨slot, image, hslot, himage, hlike⟩ := h.slots hid
      rw [hslot, himage, Option.map_some, Option.map_some, hlike.fired]
    · rw [Array.getElem?_eq_none (Nat.le_of_not_lt hlt),
        Array.getElem?_eq_none (hsize ▸ Nat.le_of_not_lt hlt)]
  have hcount : ∀ engine : Engine ρ,
      engine.stalled = (engine.slots.map Slot.fired).countP fun fired => !fired := by
    intro engine
    rw [Array.countP_map]
    rfl
  rw [hcount, hcount, hfired]

end Holds

/-- Take commands and their counterparts, and after these commands to the larger engine alone. The
engines that obey them and run to the end are in step. -/
theorem Lawful.run [RuleFamily ρ σ] [RuleFamily.Bounded ρ] {small large : σ}
    (hlaw : c.Lawful small large) {commands commands' others : List (Command ρ)}
    (hcommands : List.Forall₂ c.Commands commands commands')
    (hothers : ∀ command ∈ others, c.Outside command) :
    ∃ places, c.Holds places ((commands.foldl Engine.obey {}).run small)
      (((commands' ++ others).foldl Engine.obey {}).run large) := by
  have hkept : ∀ commands : List (Command ρ), (commands.foldl Engine.obey {}).Kept :=
    fun commands => ((History.new : History small [] ({} : Engine ρ)).foldl_obey commands).kept
  obtain ⟨places, hboth⟩ := Holds.foldl_obey hlaw hcommands (holds_new c) kept_new
  have hall := Holds.foldl_obey_outside hothers hboth
  rw [← List.foldl_append] at hall
  exact hall.run (hkept _) (hkept _) hlaw

end Correspondence

end Attribution
