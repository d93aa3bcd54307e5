import Mathlib.Order.WellFounded
import Attribution.Engine.Cycle
import Attribution.Proofs.Engine.History
/-!
# Engines without cycles

A stalled rule is blocked by the stalled rules that could still write a cell it waits for. Where no
rule is blocked by itself, be it through others, the search for cycles comes back with none. This is
so if no cell needs itself: a cell needs the inputs of the rules that may write it.
-/
namespace Attribution
namespace Engine

open Relation (TransGen)

variable {ρ σ : Type} [RuleFamily ρ σ] {engine : Engine ρ} {id other : RuleId} {cell : Cell}

/-- The rule is there and has not fired. -/
def Stalls (engine : Engine ρ) (id : RuleId) : Prop :=
  ∃ slot, engine.slots[id]? = some slot ∧ slot.fired = false

/-- A stalled rule waits for a cell without a value that another stalled rule could write. -/
def Blocked (engine : Engine ρ) (id other : RuleId) : Prop :=
  ∃ slot blocker cell, engine.slots[id]? = some slot ∧ slot.fired = false ∧
    engine.slots[other]? = some blocker ∧ blocker.fired = false ∧
    cell ∈ RuleFamily.inputs slot.rule ∧ cell ∈ RuleFamily.outputs blocker.rule ∧
    engine.view cell = none

/-- No stalled rule is blocked by itself, nor by others that it blocks in turn. -/
def Acyclic (engine : Engine ρ) : Prop := ∀ id, ¬ TransGen engine.Blocked id id

theorem mem_producers : id ∈ engine.producers cell ↔ ∃ slot, engine.slots[id]? = some slot ∧
    slot.fired = false ∧ cell ∈ RuleFamily.outputs slot.rule := by
  simp only [producers, List.mem_flatMap, List.mem_range]
  constructor
  · intro ⟨found, hlt, hmem⟩
    split at hmem
    next slot hslot =>
      split at hmem
      · cases hmem
      next hfired =>
        obtain ⟨output, houtput, rfl⟩ := List.mem_map.mp hmem
        obtain ⟨houtput, heq⟩ := List.mem_filter.mp houtput
        rw [of_decide_eq_true heq] at houtput
        exact ⟨slot, hslot, Bool.eq_false_iff.mpr hfired, houtput⟩
    · cases hmem
  · intro ⟨slot, hslot, hfired, houtput⟩
    refine ⟨id, (Array.getElem?_eq_some_iff.mp hslot).1, ?_⟩
    simp only [hslot, hfired, Bool.false_eq_true, if_false]
    exact List.mem_map.mpr ⟨cell, by simpa using houtput, rfl⟩

theorem mem_blockers (h : engine.Stalls id) :
    other ∈ engine.blockers id ↔ engine.Blocked id other := by
  obtain ⟨slot, hslot, hfired⟩ := h
  simp only [blockers, hslot, List.mem_flatMap, List.mem_filter, mem_producers]
  constructor
  · intro ⟨cell, ⟨hinput, hnone⟩, blocker, hblocker, hopen, houtput⟩
    exact ⟨slot, blocker, cell, hslot, hfired, hblocker, hopen, hinput, houtput,
      Option.isNone_iff_eq_none.mp hnone⟩
  · intro ⟨found, blocker, cell, hfound, _, hblocker, hopen, hinput, houtput, hnone⟩
    cases Option.some.inj (hslot.symm.trans hfound)
    exact ⟨cell, ⟨hinput, Option.isNone_iff_eq_none.mpr hnone⟩, blocker, hblocker, hopen, houtput⟩

theorem Blocked.stalls (h : engine.Blocked id other) : engine.Stalls other := by
  obtain ⟨_, blocker, _, _, _, hblocker, hopen, _⟩ := h
  exact ⟨blocker, hblocker, hopen⟩

/-- Following the blockers of a rule meets no cycle, if the way to the rule led from each of the
rules before over blockers. -/
theorem cycles_explore (hacyclic : engine.Acyclic) {n : Nat} {before : List RuleId}
    {search : Search} (hid : engine.Stalls id)
    (hbefore : ∀ rule ∈ before, TransGen engine.Blocked rule id) :
    (engine.explore n before id search).cycles = search.cycles := by
  induction n generalizing before id search with
  | zero => rfl
  | succ n ih =>
    -- each rule on the way is blocked by whatever blocks the last one
    have hpath : ∀ next, engine.Blocked id next → ∀ rule ∈ before ++ [id],
        TransGen engine.Blocked rule next := by
      intro next hnext rule hrule
      rcases List.mem_append.mp hrule with hold | hlast
      · exact (hbefore rule hold).tail hnext
      · rw [List.mem_singleton.mp hlast]
        exact .single hnext
    have hfold : ∀ (nexts : List RuleId) (search : Search),
        (∀ next ∈ nexts, engine.Blocked id next) →
        (nexts.foldl (fun search next =>
          if next ∈ search.done then search
          else if next ∈ before ++ [id] then
            { search with
              cycles := search.cycles ++ [(before ++ [id]).drop ((before ++ [id]).idxOf next)] }
          else engine.explore n (before ++ [id]) next search) search).cycles = search.cycles := by
      intro nexts
      induction nexts with
      | nil => exact fun _ _ => rfl
      | cons next nexts ihNexts =>
        intro search hnexts
        have hnext := hnexts next List.mem_cons_self
        rw [List.foldl_cons, ihNexts _ fun _ hmem => hnexts _ (List.mem_cons_of_mem _ hmem)]
        split
        · rfl
        · split
          next hclosed => exact absurd (hpath next hnext next hclosed) (hacyclic next)
          next => exact ih hnext.stalls (hpath next hnext)
    exact hfold (engine.blockers id) search fun next hnext => (mem_blockers hid).mp hnext

theorem Acyclic.cycles_eq_nil (h : engine.Acyclic) : engine.cycles = [] := by
  have hfold : ∀ (ids : List RuleId) (search : Search),
      (ids.foldl (fun search id =>
        if (engine.slots[id]?.any fun slot => !slot.fired) ∧ id ∉ search.done then
          engine.explore engine.slots.size [] id search
        else search) search).cycles = search.cycles := by
    intro ids
    induction ids with
    | nil => exact fun _ => rfl
    | cons id ids ih =>
      intro search
      rw [List.foldl_cons, ih]
      split
      next hstart =>
        obtain ⟨slot, hslot, hfired⟩ := (Option.any_eq_true _ _).mp hstart.1
        exact cycles_explore h ⟨slot, hslot, Bool.not_eq_true' _ ▸ hfired⟩
          (fun _ hmem => by cases hmem)
      next => rfl
  exact hfold (List.range engine.slots.size) {}

theorem Acyclic.fixpoint_cycles (h : engine.Acyclic) : engine.fixpoint.cycles = [] := by
  rw [fixpoint, h.cycles_eq_nil, List.map_nil]

/-- A rule that may write the cell waits for the other one. -/
def Needs (engine : Engine ρ) (cell needed : Cell) : Prop :=
  ∃ rule ∈ engine.rules, cell ∈ RuleFamily.outputs rule ∧ needed ∈ RuleFamily.inputs rule

theorem exists_needs (h : TransGen engine.Blocked id other) : ∃ slot blocker written,
    engine.slots[id]? = some slot ∧ engine.slots[other]? = some blocker ∧
      written ∈ RuleFamily.outputs blocker.rule ∧
      ∀ cell ∈ RuleFamily.outputs slot.rule, TransGen engine.Needs cell written := by
  induction h with
  | single hblocked =>
    obtain ⟨slot, blocker, written, hslot, _, hblocker, _, hinput, houtput, _⟩ := hblocked
    refine ⟨slot, blocker, written, hslot, hblocker, houtput, ?_⟩
    intro cell hcell
    exact .single ⟨slot.rule, mem_rules.mpr ⟨id, slot, hslot, rfl⟩, hcell, hinput⟩
  | @tail middle _ _ hblocked ih =>
    obtain ⟨slot, found, reached, hslot, hfound, hreached, hall⟩ := ih
    obtain ⟨mid, blocker, written, hmid, _, hblocker, _, hinput, houtput, _⟩ := hblocked
    rw [Option.some.inj (hfound.symm.trans hmid)] at hreached
    refine ⟨slot, blocker, written, hslot, hblocker, houtput, ?_⟩
    intro cell hcell
    exact (hall cell hcell).tail
      ⟨mid.rule, mem_rules.mpr ⟨middle, mid, hmid, rfl⟩, hreached, hinput⟩

/-- If needs lead from no cell on forever, no rule is blocked by itself. -/
theorem acyclic_of_acc (h : ∀ cell, Acc (fun needed cell => engine.Needs cell needed) cell) :
    engine.Acyclic := by
  have hwell : WellFounded fun needed cell => engine.Needs cell needed := ⟨h⟩
  intro id hcycle
  obtain ⟨slot, blocker, written, hslot, hblocker, hwritten, hall⟩ := exists_needs hcycle
  cases Option.some.inj (hslot.symm.trans hblocker)
  exact hwell.transGen.irrefl.irrefl written (Relation.transGen_swap.mpr (hall written hwritten))

end Engine
end Attribution
