import Attribution.Proofs.Engine.Fixpoint
import Attribution.Proofs.Engine.Upkeep
import Attribution.Proofs.Strict.Lookup
/-!
# A strict engine

The strict engine asks for every rule by its id, counts no rule below zero, and takes the effect of
a rule from an attempt that may break off. As long as attempts succeed it does what an engine does:
whoever waits for a cell is there and misses an input.
-/
namespace Attribution
namespace Strict

variable {ρ σ : Type} [RuleFamily ρ σ]

def slot (engine : Engine ρ) (id : RuleId) : Except Breach (Slot ρ) :=
  match engine.slots[id]? with
  | some slot => .ok slot
  | none => .error (.missingRule id)

/-- A rule can be told of an input only if it misses one. -/
def wake (engine : Engine ρ) (id : RuleId) : Except Breach (Engine ρ) := do
  let found ← slot engine id
  if found.missing = 0 then .error (.miscounted id) else return engine.wake id

def write (engine : Engine ρ) (cell : Cell) (value : Value) (label : String) :
    Except Breach (Engine ρ) :=
  match engine.view cell with
  | some _ => .ok { engine with conflicts := engine.conflicts ++ [{ cell, label }] }
  | none => (engine.waiters.getD cell []).foldlM wake (engine.store cell value)

def perform (engine : Engine ρ) (rule : ρ) (effect : Effect ρ) : Except Breach (Engine ρ) := do
  let written ← (Engine.cellWrites rule effect).foldlM
    (fun engine write => Strict.write engine write.1 write.2 (RuleFamily.label rule)) engine
  return effect.spawned.foldl Engine.add
    { written with findings := written.findings ++ effect.findings }

variable (attempt : ρ → View → Except Breach (Effect ρ))

def fire (engine : Engine ρ) (id : RuleId) : Except Breach (Engine ρ) := do
  let found ← slot engine id
  if found.fired then return engine
  let effect ← attempt found.rule engine.view
  perform (engine.mark id) found.rule effect

/-- Fire at most `n` rules. It is a breach if any rule is still ready then. -/
def drain : Nat → Engine ρ → Except Breach (Engine ρ)
  | 0, engine => if engine.ready = [] then .ok engine else .error .endless
  | n + 1, engine =>
    match engine.ready with
    | [] => .ok engine
    | id :: rest => do
      let next ← fire attempt { engine with ready := rest } id
      drain n next

def obey (engine : Engine ρ) : Command ρ → Except Breach (Engine ρ)
  | .set cell value => write engine cell value "direct"
  | .add rule => .ok (engine.add rule)
  | .report finding => .ok (engine.report finding)

variable {attempt} {engine : Engine ρ}

theorem slot_eq {id : RuleId} {found : Slot ρ} (h : engine.slots[id]? = some found) :
    slot engine id = .ok found := by
  rw [slot, h]

open Engine

theorem wake_eq {id : RuleId} {due : List RuleId} (h : engine.KeptBut (id :: due)) :
    wake engine id = .ok (engine.wake id) := by
  obtain ⟨told, htold⟩ := h.due_waits id List.mem_cons_self
  have hmissing : told.missing ≠ 0 := by
    have := h.missing id told htold
    rw [List.count_cons_self] at this
    omega
  rw [wake, slot_eq htold.1, ok_bind, if_neg hmissing, pure_eq_ok]

theorem foldlM_wake_eq {due : List RuleId} (h : engine.KeptBut due) :
    due.foldlM wake engine = .ok (due.foldl Engine.wake engine) :=
  (foldlM_eq (fun due engine => engine.KeptBut due) (fun _ _ _ h => ⟨wake_eq h, h.wake⟩) h).1

theorem write_eq (h : engine.Kept) (cell : Cell) (value : Value) (label : String) :
    write engine cell value label = .ok (engine.write cell value label) := by
  rw [write, Engine.write]
  cases engine.view cell with
  | some held => rfl
  | none => exact foldlM_wake_eq (h.store cell value)

theorem foldlM_write_eq (h : engine.Kept) (label : String) (writes : List (Cell × Value)) :
    writes.foldlM (fun engine write => Strict.write engine write.1 write.2 label) engine =
      .ok (writes.foldl (fun engine write => engine.write write.1 write.2 label) engine) :=
  (foldlM_eq (fun _ engine => engine.Kept)
    (fun _ write _ h => ⟨write_eq h write.1 write.2 label, h.write write.1 write.2 label⟩) h).1

theorem perform_eq (h : engine.Kept) (rule : ρ) (effect : Effect ρ) :
    perform engine rule effect = .ok (engine.perform rule effect) := by
  rw [perform, foldlM_write_eq h]
  rfl

theorem obey_eq (h : engine.Kept) (command : Command ρ) :
    obey engine command = .ok (engine.obey command) := by
  cases command with
  | set cell value => exact write_eq h cell value "direct"
  | add rule => rfl
  | report finding => rfl

theorem foldlM_obey_eq (h : engine.Kept) (commands : List (Command ρ)) :
    commands.foldlM obey engine = .ok (commands.foldl Engine.obey engine) :=
  (foldlM_eq (fun _ engine => engine.Kept)
    (fun _ command _ h => ⟨obey_eq h command, h.obey command⟩) h).1

variable {setting : σ}

theorem fire_eq (h : engine.Kept) {id : RuleId} (hready : id ∈ engine.ready)
    (hattempt : ∀ found, engine.Waits id found →
      attempt found.rule engine.view = .ok (RuleFamily.fire setting found.rule engine.view)) :
    fire attempt (engine.unqueue id) id = .ok (engine.fireReady setting id) := by
  obtain ⟨found, hfound, _⟩ := h.waits_of_ready hready
  have hslot : slot (engine.unqueue id) id = .ok found := slot_eq hfound.1
  have hview : attempt found.rule (engine.unqueue id).view =
      .ok (RuleFamily.fire setting found.rule engine.view) := hattempt found hfound
  rw [fire, hslot, ok_bind, hfound.2, if_neg Bool.false_ne_true, hview, ok_bind,
    perform_eq (h.mark hready hfound), fireReady_of_waits hfound]

/-- If attempts on rules and cells of a certain kind succeed, and the commands brought no others, a
strict run leads where a run leads. -/
theorem drain_eq [RuleFamily.Bounded ρ] {kind : ρ → Prop} {holds : Cell → Value → Prop}
    (hkeeps : RuleFamily.Upkeep setting kind holds)
    (hattempt : ∀ rule view, kind rule → view.Holds holds →
      attempt rule view = .ok (RuleFamily.fire setting rule view))
    {events : List (Event ρ)} (h : History setting events engine)
    (hadd : ∀ rule, .add rule ∈ Event.commands events → kind rule)
    (hset : ∀ cell value, .set cell value ∈ Event.commands events → holds cell value) {n : Nat}
    (hle : engine.backlog ≤ n) : drain attempt n engine = .ok (engine.drain setting n) := by
  induction n generalizing events engine with
  | zero =>
    have hdone : engine.ready = [] := h.kept.ready_drain setting hle
    rw [drain, if_pos hdone, Engine.drain]
  | succ n ih =>
    rw [drain, Engine.drain, step_eq]
    cases hready : engine.ready with
    | nil => rfl
    | cons id rest =>
      have hmem : id ∈ engine.ready := hready ▸ List.mem_cons_self
      have hqueue : { engine with ready := rest } = engine.unqueue id := by
        rw [unqueue, hready, List.erase_cons_head]
      obtain ⟨hrules, hview⟩ := h.keeps hkeeps hadd hset
      have hfire := fire_eq h.kept hmem fun found hfound =>
        hattempt found.rule engine.view
          (hrules found.rule (mem_rules.mpr ⟨id, found, hfound.1, rfl⟩)) hview
      obtain ⟨found, hfound, _⟩ := h.kept.waits_of_ready hmem
      have hlt := backlog_fireReady_lt setting hfound
      have hcommands : Event.commands (events ++ engine.executes id) = Event.commands events := by
        obtain ⟨_, _, hexecutes, _⟩ := h.executes_of_ready hmem
        rw [hexecutes, Event.commands_append_firing]
      simp only [hqueue, hfire, ok_bind, List.head?_cons, Option.map_some]
      exact ih (h.fire hmem) (hcommands ▸ hadd) (hcommands ▸ hset) (by omega)

end Strict
end Attribution
