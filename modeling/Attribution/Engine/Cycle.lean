import Attribution.Engine.Basic
/-!
# Cycles among stalled rules

A stalled rule is blocked by the stalled rules that could still write one of the cells it waits
for. A depth-first search over this relation, from every stalled rule in turn, meets the cycles
that keep rules from firing.
-/
namespace Attribution
namespace Engine

variable {ρ σ : Type} [RuleFamily ρ σ]

/-- The rules that have not fired and have the cell as an output, once for each time. -/
def producers (engine : Engine ρ) (cell : Cell) : List RuleId :=
  (List.range engine.slots.size).flatMap fun id =>
    match engine.slots[id]? with
    | some slot =>
      if slot.fired then []
      else ((RuleFamily.outputs slot.rule).filter (· = cell)).map fun _ => id
    | none => []

/-- The stalled rules that could still write an input of a rule, input by input. -/
def blockers (engine : Engine ρ) (id : RuleId) : List RuleId :=
  match engine.slots[id]? with
  | some slot =>
    ((RuleFamily.inputs slot.rule).filter fun cell => (engine.view cell).isNone).flatMap
      engine.producers
  | none => []

structure Search where
  /-- The rules whose blockers have all been followed. -/
  done : List RuleId := []
  cycles : List (List RuleId) := []

/-- Follow the blockers of a rule that was reached along a path. A blocker on the path closes a
cycle; one whose blockers have been followed is passed over. Paths have no repetition, so `n` need
not be larger than the number of rules. -/
def explore (engine : Engine ρ) : Nat → List RuleId → RuleId → Search → Search
  | 0, _, _, search => search
  | n + 1, before, id, search =>
    let path := before ++ [id]
    let followed := (engine.blockers id).foldl
      (fun search next =>
        if next ∈ search.done then search
        else if next ∈ path then
          { search with cycles := search.cycles ++ [path.drop (path.idxOf next)] }
        else explore engine n path next search)
      search
    { followed with done := id :: followed.done }

/-- The cycles among stalled rules, in the order in which the search meets them: each rule is
blocked by the next, and the last by the first. -/
def cycles (engine : Engine ρ) : List (List RuleId) :=
  let search := (List.range engine.slots.size).foldl
    (fun search id =>
      if (engine.slots[id]?.any fun slot => !slot.fired) ∧ id ∉ search.done then
        engine.explore engine.slots.size [] id search
      else search)
    {}
  search.cycles

def labelOf? (engine : Engine ρ) (id : RuleId) : Option String :=
  engine.slots[id]?.map fun slot => RuleFamily.label slot.rule

end Engine

/-- How a run ended. -/
structure Fixpoint where
  /-- The number of rules that have fired, in this run and before. -/
  fired : Nat
  /-- The number of rules that have not. -/
  stalled : Nat
  /-- The cycles among them, by label. -/
  cycles : List (List String)
deriving DecidableEq, Repr

def Engine.fixpoint {ρ σ : Type} [RuleFamily ρ σ] (engine : Engine ρ) : Fixpoint where
  fired := engine.fired.length
  stalled := engine.stalled
  cycles := engine.cycles.map fun cycle => cycle.filterMap engine.labelOf?

end Attribution
