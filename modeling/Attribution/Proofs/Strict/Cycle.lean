import Attribution.Proofs.Engine.Acyclic
import Attribution.Proofs.Strict.Engine
/-!
# A strict search for cycles

The search asks for every rule by its id, and a path that is longer than there are rules is a
breach. Whatever the engine, all ids that the search comes upon are ids of rules, and no path visits
a rule twice; so nothing is missing, and paths end in time.
-/
namespace Attribution

/-- Come to a rule from the end of a path, and go on from there unless the search has been there. -/
def Engine.Search.enter (path : List RuleId) (go : RuleId → Engine.Search → Engine.Search)
    (search : Engine.Search) (next : RuleId) : Engine.Search :=
  if next ∈ search.done then search
  else if next ∈ path then
    { search with cycles := search.cycles ++ [path.drop (path.idxOf next)] }
  else go next search

/-- Begin at a rule that has not fired, unless the search has been there. -/
def Engine.start {ρ σ : Type} [RuleFamily ρ σ] (engine : Engine ρ) (search : Engine.Search)
    (id : RuleId) : Engine.Search :=
  if (engine.slots[id]?.any fun slot => !slot.fired) ∧ id ∉ search.done then
    engine.explore engine.slots.size [] id search
  else search

namespace Strict

variable {ρ σ : Type} [RuleFamily ρ σ]

def producers (engine : Engine ρ) (cell : Cell) : Except Breach (List RuleId) := do
  let lists ← (List.range engine.slots.size).mapM fun id => do
    let found ← slot engine id
    return if found.fired then []
      else ((RuleFamily.outputs found.rule).filter (· = cell)).map fun _ => id
  return lists.flatten

def blockers (engine : Engine ρ) (id : RuleId) : Except Breach (List RuleId) := do
  let found ← slot engine id
  let awaited := (RuleFamily.inputs found.rule).filter fun cell => (engine.view cell).isNone
  let lists ← awaited.mapM (producers engine)
  return lists.flatten

def enter (path : List RuleId) (go : RuleId → Engine.Search → Except Breach Engine.Search)
    (search : Engine.Search) (next : RuleId) : Except Breach Engine.Search :=
  if next ∈ search.done then .ok search
  else if next ∈ path then
    .ok { search with cycles := search.cycles ++ [path.drop (path.idxOf next)] }
  else go next search

def explore (engine : Engine ρ) :
    Nat → List RuleId → RuleId → Engine.Search → Except Breach Engine.Search
  | 0, _, _, _ => .error .endless
  | n + 1, before, id, search => do
    let nexts ← blockers engine id
    let followed ← nexts.foldlM (enter (before ++ [id]) (explore engine n (before ++ [id]))) search
    return { followed with done := id :: followed.done }

def start (engine : Engine ρ) (search : Engine.Search) (id : RuleId) :
    Except Breach Engine.Search := do
  let found ← slot engine id
  if !found.fired ∧ id ∉ search.done then explore engine engine.slots.size [] id search
  else return search

def cycles (engine : Engine ρ) : Except Breach (List (List RuleId)) := do
  let search ← (List.range engine.slots.size).foldlM (start engine) {}
  return search.cycles

def labels (engine : Engine ρ) : List RuleId → Except Breach (List String)
  | [] => .ok []
  | id :: rest => do
    let found ← slot engine id
    let others ← labels engine rest
    return RuleFamily.label found.rule :: others

def fixpoint (engine : Engine ρ) : Except Breach Fixpoint := do
  let found ← cycles engine
  let labelled ← found.mapM (labels engine)
  return { fired := engine.fired.length, stalled := engine.stalled, cycles := labelled }

variable {engine : Engine ρ}

theorem slot_of_lt {id : RuleId} (h : id < engine.slots.size) :
    slot engine id = .ok engine.slots[id] := slot_eq (Array.getElem?_eq_getElem h)

theorem flatten_eq {α β : Type} {ask : α → Except Breach (List β)} {answer : α → List β}
    {xs : List α} (h : ∀ x ∈ xs, ask x = .ok (answer x)) :
    (do
      let lists ← xs.mapM ask
      return lists.flatten) = Except.ok (ε := Breach) (xs.flatMap answer) := by
  rw [mapM_eq h]
  rfl

theorem producers_eq (cell : Cell) : producers engine cell = .ok (engine.producers cell) := by
  unfold producers Engine.producers
  apply flatten_eq
  intro id hid
  have hlt := List.mem_range.mp hid
  rw [slot_of_lt hlt, ok_bind, Array.getElem?_eq_getElem hlt, pure_eq_ok]

theorem blockers_eq {id : RuleId} (h : id < engine.slots.size) :
    blockers engine id = .ok (engine.blockers id) := by
  rw [blockers, slot_of_lt h, ok_bind, Engine.blockers, Array.getElem?_eq_getElem h]
  exact flatten_eq fun cell _ => producers_eq cell

theorem lt_of_blockers {id next : RuleId} (h : next ∈ engine.blockers id) :
    next < engine.slots.size := by
  unfold Engine.blockers at h
  split at h
  · obtain ⟨cell, _, hnext⟩ := List.mem_flatMap.mp h
    obtain ⟨found, hfound, _⟩ := Engine.mem_producers.mp hnext
    exact (Array.getElem?_eq_some_iff.mp hfound).1
  · cases h

/-- The cycles that a search has met are made of rules. -/
def Meets (engine : Engine ρ) (search : Engine.Search) : Prop :=
  ∀ cycle ∈ search.cycles, ∀ id ∈ cycle, id < engine.slots.size

theorem enter_eq {path : List RuleId} (hpath : ∀ rule ∈ path, rule < engine.slots.size)
    {go : RuleId → Engine.Search → Except Breach Engine.Search}
    {move : RuleId → Engine.Search → Engine.Search} {search : Engine.Search} {next : RuleId}
    (hsearch : Meets engine search)
    (hgo : next ∉ path →
      go next search = .ok (move next search) ∧ Meets engine (move next search)) :
    enter path go search next = .ok (search.enter path move next) ∧
      Meets engine (search.enter path move next) := by
  unfold enter Engine.Search.enter
  split
  · exact ⟨rfl, hsearch⟩
  · split
    · refine ⟨rfl, ?_⟩
      intro cycle hcycle
      rcases List.mem_append.mp hcycle with hold | hnew
      · exact hsearch cycle hold
      · cases List.mem_singleton.mp hnew
        exact fun rule hrule => hpath rule (List.mem_of_mem_drop hrule)
    next hnew => exact hgo hnew

theorem length_lt_of_path {before : List RuleId} {id : RuleId} (hnodup : (before ++ [id]).Nodup)
    (hpath : ∀ rule ∈ before ++ [id], rule < engine.slots.size) :
    before.length < engine.slots.size := by
  have hsubset : before ++ [id] ⊆ List.range engine.slots.size := fun rule hrule =>
    List.mem_range.mpr (hpath rule hrule)
  have hle := (hnodup.subperm hsubset).length_le
  rw [List.length_append, List.length_singleton, List.length_range] at hle
  omega

theorem explore_eq {n : Nat} {before : List RuleId} {id : RuleId} {search : Engine.Search}
    (hnodup : (before ++ [id]).Nodup) (hpath : ∀ rule ∈ before ++ [id], rule < engine.slots.size)
    (hn : engine.slots.size ≤ before.length + n) (hsearch : Meets engine search) :
    explore engine n before id search = .ok (engine.explore n before id search) ∧
      Meets engine (engine.explore n before id search) := by
  induction n generalizing before id search with
  | zero =>
    have hlt := length_lt_of_path hnodup hpath
    omega
  | succ n ih =>
    have hid : id < engine.slots.size := hpath id (List.mem_append_right _ List.mem_cons_self)
    have hstep : ∀ (search : Engine.Search) (next : RuleId) (rest : List RuleId),
        Meets engine search ∧ (∀ other ∈ next :: rest, other < engine.slots.size) →
        enter (before ++ [id]) (explore engine n (before ++ [id])) search next =
            .ok (search.enter (before ++ [id]) (engine.explore n (before ++ [id])) next) ∧
          Meets engine (search.enter (before ++ [id]) (engine.explore n (before ++ [id])) next) ∧
            ∀ other ∈ rest, other < engine.slots.size := by
      intro search next rest ⟨hsearch, hnexts⟩
      obtain ⟨hnext, hrest⟩ := List.forall_mem_cons.mp hnexts
      have hgo : next ∉ before ++ [id] → explore engine n (before ++ [id]) next search =
          .ok (engine.explore n (before ++ [id]) next search) ∧
            Meets engine (engine.explore n (before ++ [id]) next search) := by
        intro hnew
        have hlonger : engine.slots.size ≤ (before ++ [id]).length + n := by
          rw [List.length_append, List.length_singleton]
          omega
        apply ih _ _ hlonger hsearch
        · rw [← List.concat_eq_append]
          exact hnodup.concat hnew
        · intro rule hrule
          rcases List.mem_append.mp hrule with hold | hlast
          · exact hpath rule hold
          · exact List.mem_singleton.mp hlast ▸ hnext
      obtain ⟨heq, hmeets⟩ := enter_eq hpath hsearch hgo
      exact ⟨heq, hmeets, hrest⟩
    obtain ⟨hfold, hmeets, _⟩ := foldlM_eq
      (fun nexts search => Meets engine search ∧ ∀ next ∈ nexts, next < engine.slots.size)
      hstep ⟨hsearch, fun _ => lt_of_blockers⟩
    refine ⟨?_, hmeets⟩
    rw [explore, blockers_eq hid, ok_bind, hfold]
    rfl

theorem start_eq {search : Engine.Search} {id : RuleId} (h : id < engine.slots.size)
    (hsearch : Meets engine search) :
    start engine search id = .ok (engine.start search id) ∧
      Meets engine (engine.start search id) := by
  have hnodup : ([] ++ [id]).Nodup := List.nodup_singleton id
  have hpath : ∀ rule ∈ [] ++ [id], rule < engine.slots.size := fun rule hrule =>
    List.mem_singleton.mp hrule ▸ h
  have hexplore := explore_eq hnodup hpath (Nat.le_add_left _ _) hsearch
  rw [start, slot_of_lt h, ok_bind, Engine.start, Array.getElem?_eq_getElem h, Option.any_some]
  split
  · exact hexplore
  · exact ⟨rfl, hsearch⟩

theorem cycles_eq (engine : Engine ρ) :
    cycles engine = .ok engine.cycles ∧ ∀ cycle ∈ engine.cycles, ∀ id ∈ cycle,
      id < engine.slots.size := by
  have hnothing : Meets engine {} := fun _ h => nomatch h
  have hstep : ∀ (search : Engine.Search) (id : RuleId) (rest : List RuleId),
      Meets engine search ∧ (∀ other ∈ id :: rest, other < engine.slots.size) →
      start engine search id = .ok (engine.start search id) ∧
        Meets engine (engine.start search id) ∧ ∀ other ∈ rest, other < engine.slots.size := by
    intro search id rest ⟨hsearch, hids⟩
    obtain ⟨hid, hrest⟩ := List.forall_mem_cons.mp hids
    obtain ⟨heq, hmeets⟩ := start_eq hid hsearch
    exact ⟨heq, hmeets, hrest⟩
  obtain ⟨hfold, hmeets, _⟩ := foldlM_eq
    (fun ids search => Meets engine search ∧ ∀ id ∈ ids, id < engine.slots.size)
    hstep ⟨hnothing, fun _ => List.mem_range.mp⟩
  refine ⟨?_, hmeets⟩
  rw [cycles, hfold]
  rfl

theorem labels_eq {ids : List RuleId} (h : ∀ id ∈ ids, id < engine.slots.size) :
    labels engine ids = .ok (ids.filterMap engine.labelOf?) := by
  induction ids with
  | nil => rfl
  | cons id rest ih =>
    obtain ⟨hid, hrest⟩ := List.forall_mem_cons.mp h
    have hlabel : engine.labelOf? id = some (RuleFamily.label engine.slots[id].rule) := by
      rw [Engine.labelOf?, Array.getElem?_eq_getElem hid, Option.map_some]
    rw [labels, slot_of_lt hid, ok_bind, ih hrest, ok_bind, pure_eq_ok,
      List.filterMap_cons_some hlabel]

/-- The search for cycles comes to an end, and misses no rule. -/
theorem fixpoint_eq (engine : Engine ρ) : fixpoint engine = .ok engine.fixpoint := by
  obtain ⟨hcycles, hlt⟩ := cycles_eq engine
  rw [fixpoint, hcycles, ok_bind, mapM_eq fun cycle hcycle => labels_eq (hlt cycle hcycle)]
  rfl

end Strict
end Attribution
