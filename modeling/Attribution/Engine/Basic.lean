import Attribution.Cell
import Attribution.Finding
import Std.Data.TreeMap
/-!
# The rule engine

Cells are written once. A rule names the cells that it reads and those that it may write, and
fires once, as soon as all its inputs hold values; rules that are ready fire in the order in which
they became ready. What a rule reads is fixed when it fires: its writes take effect afterwards,
then its findings are noted, then the rules that it spawns are added. Rules whose inputs never
arrive are left alone.

The engine does not know what rules are. A `RuleFamily` says how to read them off some type of
rules, given a setting that all of them can see.
-/
namespace Attribution

/-- The position of a rule among the rules of an engine, in the order in which they were added. -/
abbrev RuleId := Nat

/-- What a rule does when it fires. A write names an output of the rule by its place. -/
structure Effect (ρ : Type) where
  writes : List (Nat × Value) := []
  findings : List Finding := []
  spawned : List ρ := []

/-- A type of rules, with what the engine has to know of each. -/
class RuleFamily (ρ : Type) (σ : outParam Type) where
  label : ρ → String
  inputs : ρ → List Cell
  outputs : ρ → List Cell
  /-- What a rule does in a setting, given what it can read. -/
  fire : σ → ρ → View → Effect ρ
  /-- A bound on the number of rules that a rule lets fire: itself, those that it spawns, those
  that they spawn. -/
  weight : ρ → Nat

/-- What some weights come to. -/
def total : List Nat → Nat
  | [] => 0
  | weight :: rest => weight + total rest

@[simp] theorem total_nil : total [] = 0 := rfl

@[simp] theorem total_cons (weight : Nat) (rest : List Nat) :
    total (weight :: rest) = weight + total rest := rfl

@[simp] theorem total_append (weights others : List Nat) :
    total (weights ++ others) = total weights + total others := by
  induction weights with
  | nil => simp
  | cons weight rest ih => simp [ih, Nat.add_assoc]

/-- The weights of a family are bounds: what a rule spawns weighs less than the rule. -/
class RuleFamily.Bounded (ρ : Type) {σ : outParam Type} [RuleFamily ρ σ] : Prop where
  spawned_lt (setting : σ) (rule : ρ) (view : View) :
    total ((RuleFamily.fire setting rule view).spawned.map fun spawned =>
      RuleFamily.weight spawned) < RuleFamily.weight rule

structure Slot (ρ : Type) where
  rule : ρ
  /-- The number of distinct inputs without a value. -/
  missing : Nat
  fired : Bool := false

/-- A second write to a cell, by the label of the rule that tried it. -/
structure Conflict where
  cell : Cell
  label : String
deriving DecidableEq, Repr

structure Engine (ρ : Type) where
  cells : Std.TreeMap Cell Value := ∅
  slots : Array (Slot ρ) := #[]
  /-- The rules that wait for a cell, in the order in which they were added. -/
  waiters : Std.TreeMap Cell (List RuleId) := ∅
  /-- The rules that are ready and have not fired, in the order in which they became ready. -/
  ready : List RuleId := []
  /-- The rules that have fired, in order. -/
  fired : List RuleId := []
  findings : List Finding := []
  conflicts : List Conflict := []

/-- The elements of a list at their first places. -/
def distinct {α : Type} [DecidableEq α] : List α → List α
  | [] => []
  | a :: rest => a :: (distinct rest).filter (· ≠ a)

theorem mem_distinct {α : Type} [DecidableEq α] {a : α} {as : List α} :
    a ∈ distinct as ↔ a ∈ as := by
  induction as with
  | nil => rfl
  | cons b bs ih =>
    by_cases h : a = b
    · simp [distinct, h]
    · simp [distinct, h, ih]

theorem nodup_distinct {α : Type} [DecidableEq α] (as : List α) : (distinct as).Nodup := by
  induction as with
  | nil => exact List.nodup_nil
  | cons b bs ih =>
    refine List.nodup_cons.mpr ⟨?_, ih.filter _⟩
    simp

namespace Engine

variable {ρ σ : Type}

def view (engine : Engine ρ) : View := fun cell => engine.cells[cell]?

/-- Note that one of the cells that a rule waits for has a value. The last one makes it ready. -/
def wake (engine : Engine ρ) (id : RuleId) : Engine ρ :=
  match engine.slots[id]? with
  | none => engine
  | some slot =>
    { engine with
      slots := engine.slots.modify id fun slot => { slot with missing := slot.missing - 1 }
      ready := if slot.missing = 1 then engine.ready ++ [id] else engine.ready }

/-- Write a cell in the name of a rule. A cell that holds a value keeps it, and the attempt is a
conflict; otherwise the rules that wait for the cell are told in turn. -/
def write (engine : Engine ρ) (cell : Cell) (value : Value) (label : String) : Engine ρ :=
  match engine.view cell with
  | some _ => { engine with conflicts := engine.conflicts ++ [{ cell, label }] }
  | none =>
    (engine.waiters.getD cell []).foldl wake
      { engine with
        cells := engine.cells.insert cell value
        waiters := engine.waiters.erase cell }

@[simp] theorem view_wake (engine : Engine ρ) (id : RuleId) :
    (engine.wake id).view = engine.view := by
  unfold wake
  split <;> rfl

@[simp] theorem view_foldl_wake (ids : List RuleId) (engine : Engine ρ) :
    (ids.foldl wake engine).view = engine.view := by
  induction ids generalizing engine with
  | nil => rfl
  | cons id ids ih => rw [List.foldl_cons, ih, view_wake]

/-- After a write its cell holds a value, the one that it held before if it held one; every other
cell is as before. -/
theorem view_write (engine : Engine ρ) (cell : Cell) (value : Value) (label : String)
    (other : Cell) :
    (engine.write cell value label).view other =
      if other = cell then some ((engine.view cell).getD value) else engine.view other := by
  unfold write
  split
  next held h =>
    change engine.view other = _
    by_cases heq : other = cell
    · simp [heq, h]
    · simp [heq]
  next h =>
    rw [view_foldl_wake]
    change (engine.cells.insert cell value)[other]? = _
    rw [Std.TreeMap.getElem?_insert, h, Option.getD_none]
    simp only [Std.LawfulEqCmp.compare_eq_iff_eq, eq_comm (a := cell)]
    rfl

def set (engine : Engine ρ) (cell : Cell) (value : Value) : Engine ρ :=
  engine.write cell value "direct"

def report (engine : Engine ρ) (finding : Finding) : Engine ρ :=
  { engine with findings := engine.findings ++ [finding] }

def await (id : RuleId) (waiters : Std.TreeMap Cell (List RuleId)) (cell : Cell) :
    Std.TreeMap Cell (List RuleId) :=
  waiters.insert cell (waiters.getD cell [] ++ [id])

/-- The number of rules that have not fired. -/
def stalled (engine : Engine ρ) : Nat := engine.slots.countP fun slot => !slot.fired

variable [RuleFamily ρ σ]

/-- The inputs of a rule that hold no value, each once. -/
def awaited (engine : Engine ρ) (rule : ρ) : List Cell :=
  (distinct (RuleFamily.inputs rule)).filter fun cell => (engine.view cell).isNone

/-- Add a rule, which is ready at once if all its inputs hold values. -/
def add (engine : Engine ρ) (rule : ρ) : Engine ρ :=
  let id := engine.slots.size
  let awaited := engine.awaited rule
  { engine with
    slots := engine.slots.push { rule, missing := awaited.length }
    waiters := awaited.foldl (await id) engine.waiters
    ready := if awaited = [] then engine.ready ++ [id] else engine.ready }

@[simp] theorem view_add (engine : Engine ρ) (rule : ρ) :
    (engine.add rule).view = engine.view := rfl

/-- The writes of an effect by cell; a write to an output that the rule does not have is none. -/
def cellWrites (rule : ρ) (effect : Effect ρ) : List (Cell × Value) :=
  effect.writes.filterMap fun (output, value) =>
    (RuleFamily.outputs rule)[output]?.map fun cell => (cell, value)

def perform (engine : Engine ρ) (rule : ρ) (effect : Effect ρ) : Engine ρ :=
  let written := (cellWrites rule effect).foldl
    (fun engine write => engine.write write.1 write.2 (RuleFamily.label rule)) engine
  effect.spawned.foldl add { written with findings := written.findings ++ effect.findings }

/-- Fire a rule, unless it has fired. -/
def fire (setting : σ) (engine : Engine ρ) (id : RuleId) : Engine ρ :=
  match engine.slots[id]? with
  | none => engine
  | some slot =>
    if slot.fired then engine
    else
      let effect := RuleFamily.fire setting slot.rule engine.view
      let marked := { engine with
        slots := engine.slots.modify id fun slot => { slot with fired := true }
        fired := engine.fired ++ [id] }
      marked.perform slot.rule effect

/-- Fire the rule that became ready first, if any is ready. -/
def step (setting : σ) (engine : Engine ρ) : Option (Engine ρ) :=
  match engine.ready with
  | [] => none
  | id :: rest => some (fire setting { engine with ready := rest } id)

/-- Make at most `n` steps. -/
def drain (setting : σ) : Nat → Engine ρ → Engine ρ
  | 0, engine => engine
  | n + 1, engine =>
    match engine.step setting with
    | none => engine
    | some next => drain setting n next

/-- A bound on the number of rules that can still fire. -/
def backlog (engine : Engine ρ) : Nat :=
  total <| (engine.slots.toList.filter fun slot => !slot.fired).map fun slot =>
    RuleFamily.weight slot.rule

/-- Fire rules until none is ready. -/
def run (setting : σ) (engine : Engine ρ) : Engine ρ := engine.drain setting engine.backlog

end Engine

/-- What can be asked of an engine from outside. -/
inductive Command (ρ : Type) where
  | set (cell : Cell) (value : Value)
  | add (rule : ρ)
  | report (finding : Finding)

def Engine.obey {ρ σ : Type} [RuleFamily ρ σ] (engine : Engine ρ) : Command ρ → Engine ρ
  | .set cell value => engine.set cell value
  | .add rule => engine.add rule
  | .report finding => engine.report finding

end Attribution
