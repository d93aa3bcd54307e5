import Mathlib.Data.List.Induction
import Attribution.Proofs.Engine.History
/-!
# Histories change by change

An event changes an engine in steps. A firing takes its rule out of the queue, makes the writes of
the body in order, notes the findings, and then adds the rules that it spawns. An engine is what all
these changes, one after the other, make of a new one; what each of them keeps holds at any time,
also while a rule fires.
-/
namespace Attribution

inductive Change (ρ : Type) where
  | write (attempt : Attempt)
  | note (finding : Finding)
  | add (rule : ρ)
  /-- A rule leaves the queue and counts as fired. -/
  | take (id : RuleId)

variable {ρ σ : Type}

namespace Change

def attempt? : Change ρ → Option Attempt
  | write attempt => some attempt
  | _ => none

def rule? : Change ρ → Option ρ
  | add rule => some rule
  | _ => none

/-- All attempts to write a cell, in the order in which they take effect. -/
def attempts (changes : List (Change ρ)) : List Attempt := changes.filterMap attempt?

/-- All rules that are added. A rule stands in the place that is its id. -/
def registered (changes : List (Change ρ)) : List ρ := changes.filterMap rule?

@[simp] theorem attempts_append (changes more : List (Change ρ)) :
    attempts (changes ++ more) = attempts changes ++ attempts more := List.filterMap_append

@[simp] theorem registered_append (changes more : List (Change ρ)) :
    registered (changes ++ more) = registered changes ++ registered more := List.filterMap_append

end Change

variable [RuleFamily ρ σ]

namespace Engine

def change (engine : Engine ρ) : Change ρ → Engine ρ
  | .write attempt => engine.write attempt.cell attempt.value attempt.label
  | .note finding => engine.report finding
  | .add rule => engine.add rule
  | .take id => (engine.unqueue id).mark id

/-- What changes make of a new engine. -/
def replay (changes : List (Change ρ)) : Engine ρ := changes.foldl change {}

theorem write_of_isSome {engine : Engine ρ} {cell : Cell} (h : (engine.view cell).isSome)
    (value : Value) (label : String) : engine.write cell value label =
      { engine with conflicts := engine.conflicts ++ [{ cell, label }] } := by
  obtain ⟨held, hheld⟩ := Option.isSome_iff_exists.mp h
  rw [write, hheld]

theorem waiters_foldl_wake (ids : List RuleId) (engine : Engine ρ) :
    (ids.foldl wake engine).waiters = engine.waiters := by
  induction ids generalizing engine with
  | nil => rfl
  | cons id ids ih => rw [List.foldl_cons, ih, waiters_wake]

theorem waiters_write (engine : Engine ρ) (cell : Cell) (value : Value) (label : String) :
    (engine.write cell value label).waiters =
      if (engine.view cell).isSome then engine.waiters else engine.waiters.erase cell := by
  unfold write
  cases engine.view cell with
  | some held => rfl
  | none => exact waiters_foldl_wake _ (engine.store cell value)

theorem foldl_report (findings : List Finding) (engine : Engine ρ) :
    findings.foldl report engine = { engine with findings := engine.findings ++ findings } := by
  induction findings generalizing engine with
  | nil => simp
  | cons finding rest ih => simp [ih, report]

end Engine

/-- The changes that a rule brings about once it is taken. -/
def Effect.changes (rule : ρ) (effect : Effect ρ) : List (Change ρ) :=
  (effect.attempts rule).map .write ++ effect.findings.map .note ++ effect.spawned.map .add

def Event.changes (setting : σ) : Event ρ → List (Change ρ)
  | command (.set cell value) => [.write { cell, value, label := "direct" }]
  | command (.add rule) => [.add rule]
  | command (.report finding) => [.note finding]
  | firing id rule view => .take id :: (RuleFamily.fire setting rule view).changes rule

theorem Effect.not_take_of_changes {rule : ρ} {effect : Effect ρ} {change : Change ρ}
    (h : change ∈ effect.changes rule) (id : RuleId) : change ≠ .take id := by
  rintro rfl
  simp [changes] at h

theorem Engine.perform_eq_foldl (engine : Engine ρ) (rule : ρ) (effect : Effect ρ) :
    engine.perform rule effect = (effect.changes rule).foldl Engine.change engine := by
  rw [Effect.changes, List.foldl_append, List.foldl_append, List.foldl_map, List.foldl_map,
    List.foldl_map, Effect.attempts, List.foldl_map]
  change _ = effect.spawned.foldl add (effect.findings.foldl report _)
  rw [foldl_report]
  rfl

/-- Changes one after the other lead from a new engine to this one, and rules are taken only when it
is their turn. -/
inductive Course (turn : Engine ρ → RuleId → Prop) : List (Change ρ) → Engine ρ → Prop
  | new : Course turn [] {}
  | change {changes : List (Change ρ)} {engine : Engine ρ} (change : Change ρ) :
    Course turn changes engine → (∀ id, change = .take id → turn engine id) →
      Course turn (changes ++ [change]) (engine.change change)

/-- Any rule of the queue can have its turn. -/
def Engine.Queued (engine : Engine ρ) (id : RuleId) : Prop := id ∈ engine.ready

namespace Course

variable {turn : Engine ρ → RuleId → Prop} {changes more : List (Change ρ)} {engine : Engine ρ}

theorem eq_replay (h : Course turn changes engine) : engine = Engine.replay changes := by
  induction h with
  | new => rfl
  | change change _ _ ih => rw [Engine.replay, List.foldl_concat, ih, Engine.replay]

theorem mono {other : Engine ρ → RuleId → Prop} (hturn : ∀ engine id, turn engine id →
    other engine id) (h : Course turn changes engine) : Course other changes engine := by
  induction h with
  | new => exact .new
  | change change _ hchange ih => exact ih.change change fun id hid => hturn _ _ (hchange id hid)

theorem append (h : Course turn changes engine) (hmore : ∀ change ∈ more, ∀ id, change ≠ .take id) :
    Course turn (changes ++ more) (more.foldl Engine.change engine) := by
  induction more generalizing changes engine with
  | nil => simpa using h
  | cons change more ih =>
    obtain ⟨hchange, hmore⟩ := List.forall_mem_cons.mp hmore
    have hnext := h.change change fun id hid => absurd hid (hchange id)
    simpa using ih hnext hmore

theorem exists_last {change : Change ρ} (h : Course turn (changes ++ [change]) engine) :
    ∃ before, Course turn changes before ∧ (∀ id, change = .take id → turn before id) ∧
      engine = before.change change := by
  obtain ⟨all, hall⟩ : ∃ all, changes ++ [change] = all := ⟨_, rfl⟩
  rw [hall] at h
  cases h with
  | new => simp at hall
  | change last hbefore hlast =>
    obtain ⟨rfl, heq⟩ := List.append_inj' hall rfl
    cases heq
    exact ⟨_, hbefore, hlast, rfl⟩

/-- A course can be stopped after any of its changes. -/
theorem of_append (h : Course turn (changes ++ more) engine) :
    Course turn changes (Engine.replay changes) := by
  induction more using List.reverseRecOn generalizing engine with
  | nil =>
    rw [List.append_nil] at h
    exact h.eq_replay ▸ h
  | append_singleton more change ih =>
    rw [← List.append_assoc] at h
    obtain ⟨before, hbefore, _⟩ := h.exists_last
    exact ih hbefore

theorem foldl_of_append (h : Course turn (changes ++ more) engine) :
    more.foldl Engine.change (Engine.replay changes) = engine := by
  rw [h.eq_replay, Engine.replay, Engine.replay, List.foldl_append]

theorem turn_of_append {id : RuleId} (h : Course turn (changes ++ .take id :: more) engine) :
    turn (Engine.replay changes) id := by
  rw [List.append_cons] at h
  obtain ⟨before, hbefore, hturn, _⟩ := h.of_append.exists_last
  exact hbefore.eq_replay ▸ hturn id rfl

theorem obey (setting : σ) (h : Course turn changes engine) (command : Command ρ) :
    Course turn (changes ++ (Event.command command).changes setting) (engine.obey command) := by
  cases command with
  | set cell value => exact h.change (.write { cell, value, label := "direct" }) (by simp)
  | add rule => exact h.change (.add rule) (by simp)
  | report finding => exact h.change (.note finding) (by simp)

theorem fire (setting : σ) (h : Course turn changes engine) {id : RuleId} {slot : Slot ρ}
    (hslot : engine.Waits id slot) (hturn : turn engine id) :
    Course turn (changes ++ (Event.firing id slot.rule engine.view).changes setting)
      (engine.fireReady setting id) := by
  have htaken := h.change (.take id) fun k hk => by
    cases hk
    exact hturn
  have hmore : ∀ change ∈ (RuleFamily.fire setting slot.rule engine.view).changes slot.rule,
      ∀ k, change ≠ .take k := fun _ => Effect.not_take_of_changes
  have hperformed := htaken.append hmore
  rw [List.append_assoc] at hperformed
  rw [Engine.fireReady_of_waits hslot, Engine.perform_eq_foldl]
  exact hperformed

theorem journal (h : Course turn changes engine) : engine.Journal (Change.attempts changes) := by
  induction h with
  | new => exact ⟨fun _ => rfl, rfl⟩
  | change change _ _ ih =>
    rw [Change.attempts_append]
    cases change with
    | write attempt => exact ih.write attempt
    | note finding | add rule | take id =>
      exact (List.append_nil (Change.attempts _)).symm ▸ ⟨ih.view, ih.conflicts⟩

theorem isSome_view_iff (h : Course turn changes engine) {cell : Cell} :
    (engine.view cell).isSome ↔ cell ∈ (Change.attempts changes).map Attempt.cell := by
  rw [h.journal.view, Attempt.isSome_first]

theorem kept (h : Course Engine.Queued changes engine) : engine.Kept := by
  induction h with
  | new => exact Engine.kept_new
  | change change _ hturn ih =>
    cases change with
    | write attempt => exact ih.write _ _ _
    | note finding => exact ih.report finding
    | add rule => exact ih.add rule
    | take id =>
      obtain ⟨slot, hslot, _⟩ := ih.waits_of_ready (hturn id rfl)
      exact ih.mark (hturn id rfl) hslot

end Course

/-- The changes of the events of a history lead to its engine. -/
theorem History.course {setting : σ} {events : List (Event ρ)} {engine : Engine ρ}
    (h : History setting events engine) :
    Course Engine.Queued (events.flatMap (Event.changes setting)) engine := by
  induction h with
  | new => exact .new
  | obey command _ ih =>
    rw [List.flatMap_append, List.flatMap_singleton]
    exact ih.obey setting command
  | fire h hready ih =>
    obtain ⟨slot, hslot, hexecutes, _⟩ := h.executes_of_ready hready
    rw [hexecutes, List.flatMap_append, List.flatMap_singleton]
    exact ih.fire setting hslot hready

end Attribution
