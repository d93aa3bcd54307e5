import Attribution.Engine.Basic
/-!
# Rules written as data

A recipe is a rule whose body is a list of instructions. All recipes of an engine see one number.
-/
namespace Attribution

/-- One instruction of a rule body. A read that yields nothing, or a value of another sort than
the instruction asks for, makes it do nothing. -/
inductive Instruction (ρ : Type) where
  | set (output : Nat) (value : Value)
  | input (output input : Nat)
  /-- Write the value of any cell, whether the rule waits for it or not. -/
  | peek (output : Nat) (cell : Cell)
  /-- Write the array type over a type. -/
  | array (output input : Nat)
  | decl (output input : Nat)
  | negate (output input : Nat)
  /-- Write an index, moved on by the number that the setting holds. -/
  | shift (output input : Nat)
  | report (finding : Finding)
  | spawn (rule : ρ)

inductive Recipe where
  | copy (label : String) (source target : Cell)
  | steps (label : String) (inputs outputs : List Cell) (body : List (Instruction Recipe))

namespace Recipe

def label : Recipe → String
  | copy label _ _ => label
  | steps label .. => label

def inputs : Recipe → List Cell
  | copy _ source _ => [source]
  | steps _ inputs _ _ => inputs

def outputs : Recipe → List Cell
  | copy _ _ target => [target]
  | steps _ _ outputs _ => outputs

mutual
/-- The number of rules in a recipe: itself and those in its spawn instructions. -/
def weight : Recipe → Nat
  | copy .. => 1
  | steps _ _ _ body => spawnWeight body + 1

def spawnWeight : List (Instruction Recipe) → Nat
  | [] => 0
  | instruction :: rest => instructionWeight instruction + spawnWeight rest

def instructionWeight : Instruction Recipe → Nat
  | .spawn rule => weight rule
  | _ => 0
end

/-- An index is a machine word, and moving it on wraps around. -/
def shiftIndex (index number : Nat) : Nat := (index + number) % UInt64.size

/-- The value that an instruction writes, given the number and what can be read. -/
def written? (number : Nat) (inputs : List Cell) (view : View) :
    Instruction Recipe → Option (Nat × Value)
  | .set output value => some (output, value)
  | .input output i => (input i).map fun value => (output, value)
  | .peek output cell => (view cell).map fun value => (output, value)
  | .array output i => ((input i).bind Value.type?).map fun t => (output, .type (.array t))
  | .decl output i => ((input i).bind Value.decl?).map fun e => (output, .decl e)
  | .negate output i => ((input i).bind Value.flag?).map fun b => (output, .flag !b)
  | .shift output i =>
    ((input i).bind Value.index?).map fun n => (output, .index (shiftIndex n number))
  | .report _ | .spawn _ => none
where
  input (i : Nat) : Option Value := inputs[i]?.bind view

def finding? : Instruction Recipe → Option Finding
  | .report finding => some finding
  | _ => none

def spawned? : Instruction Recipe → Option Recipe
  | .spawn rule => some rule
  | _ => none

/-- What a recipe does: its writes, its findings and its new rules, each in order. -/
def fire (number : Nat) (rule : Recipe) (view : View) : Effect Recipe :=
  match rule with
  | copy _ source _ => { writes := (view source).toList.map fun value => (0, value) }
  | steps _ inputs _ body =>
    { writes := body.filterMap (written? number inputs view)
      findings := body.filterMap finding?
      spawned := body.filterMap spawned? }

instance : RuleFamily Recipe Nat where
  label := label
  inputs := inputs
  outputs := outputs
  fire := fire
  weight := weight

theorem spawnWeight_eq_total (body : List (Instruction Recipe)) :
    spawnWeight body = total ((body.filterMap spawned?).map weight) := by
  induction body with
  | nil => rfl
  | cons instruction rest ih =>
    cases instruction <;>
      simp [spawnWeight, instructionWeight, spawned?, List.filterMap_cons, ih]

instance : RuleFamily.Bounded Recipe where
  spawned_lt number rule view := by
    cases rule with
    | copy label source target => exact Nat.zero_lt_one
    | steps label inputs outputs body =>
      change total ((body.filterMap spawned?).map weight) < spawnWeight body + 1
      rw [spawnWeight_eq_total]
      exact Nat.lt_succ_self _

/-- What a firing recipe read: its label and the values of its inputs. A copy leaves no trace. -/
def trace? (view : View) : Recipe → Option (String × List (Option Value))
  | copy .. => none
  | steps label inputs .. => some (label, inputs.map view)

end Recipe

/-- The traces of the recipes that have fired since the first `since` firings, in order. The inputs
of a rule hold values when it fires and never change, so they can be read afterwards. -/
def Engine.traces (engine : Engine Recipe) (since : Nat) :
    List (String × List (Option Value)) :=
  (engine.fired.drop since).filterMap fun id =>
    engine.slots[id]?.bind fun slot => slot.rule.trace? engine.view

end Attribution
