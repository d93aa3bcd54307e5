import Attribution.Engine.Cycle
import Attribution.Proofs.Engine.Bookkeeping
/-!
# Histories of an engine

An engine is told commands, and in between rules of its queue fire, in whatever order. The events
so far determine the engine: its cells hold the first value that was attempted for each, its
conflicts are the later attempts, and its findings and rules are those of the events in turn.
-/
namespace Attribution

/-- Something that happens to an engine. A firing keeps what could be read at that moment. -/
inductive Event (ρ : Type) where
  | command (command : Command ρ)
  | firing (id : RuleId) (rule : ρ) (view : View)

/-- An attempt to write a cell, in the name of a rule. -/
structure Attempt where
  cell : Cell
  value : Value
  label : String

namespace Attempt

def first (attempts : List Attempt) (cell : Cell) : Option Value :=
  (attempts.find? fun attempt => attempt.cell = cell).map value

/-- The attempts on cells that were written before: those in `seen`, and those attempted earlier
in the list. -/
def rejected (seen : List Cell) : List Attempt → List Conflict
  | [] => []
  | attempt :: rest =>
    if attempt.cell ∈ seen then
      { cell := attempt.cell, label := attempt.label } :: rejected seen rest
    else rejected (attempt.cell :: seen) rest

theorem first_append (attempts : List Attempt) (last : Attempt) (cell : Cell) :
    first (attempts ++ [last]) cell =
      if cell = last.cell then some ((first attempts last.cell).getD last.value)
      else first attempts cell := by
  unfold first
  rw [List.find?_append]
  by_cases h : last.cell = cell
  · subst h
    cases hfound : attempts.find? fun attempt => attempt.cell = last.cell <;> simp
  · have hne : cell ≠ last.cell := Ne.symm h
    cases hfound : attempts.find? fun attempt => attempt.cell = cell <;> simp [h, hne]

theorem first_append_of_some {attempts : List Attempt} {cell : Cell} {value : Value}
    (h : first attempts cell = some value) (later : List Attempt) :
    first (attempts ++ later) cell = some value := by
  unfold first at h ⊢
  rw [List.find?_append]
  obtain ⟨attempt, hfound, hvalue⟩ := Option.map_eq_some_iff.mp h
  rw [hfound, Option.some_or, Option.map_some, hvalue]

theorem isSome_first {attempts : List Attempt} {cell : Cell} :
    (first attempts cell).isSome ↔ cell ∈ attempts.map Attempt.cell := by
  simp [first]

theorem first_eq_some {attempts : List Attempt} {cell : Cell} {value : Value}
    (h : first attempts cell = some value) :
    ∃ attempt ∈ attempts, attempt.cell = cell ∧ attempt.value = value := by
  obtain ⟨attempt, hfound, rfl⟩ := Option.map_eq_some_iff.mp h
  exact ⟨attempt, List.mem_of_find?_eq_some hfound,
    by simpa using List.find?_some hfound, rfl⟩

theorem rejected_append (seen : List Cell) (attempts : List Attempt) (last : Attempt) :
    rejected seen (attempts ++ [last]) = rejected seen attempts ++
      if last.cell ∈ seen ∨ last.cell ∈ attempts.map Attempt.cell then
        [{ cell := last.cell, label := last.label }] else [] := by
  induction attempts generalizing seen with
  | nil => simp [rejected]
  | cons attempt rest ih =>
    simp only [List.cons_append, rejected, ih, List.map_cons, List.mem_cons]
    by_cases h : attempt.cell ∈ seen
    · have hiff : (last.cell ∈ seen ∨ last.cell = attempt.cell ∨
          last.cell ∈ rest.map Attempt.cell) ↔
          (last.cell ∈ seen ∨ last.cell ∈ rest.map Attempt.cell) := by
        constructor
        · rintro (h' | h' | h')
          · exact .inl h'
          · exact .inl (h' ▸ h)
          · exact .inr h'
        · rintro (h' | h')
          · exact .inl h'
          · exact .inr (.inr h')
      simp only [if_pos h, hiff, List.cons_append]
    · have hiff : ((last.cell = attempt.cell ∨ last.cell ∈ seen) ∨
          last.cell ∈ rest.map Attempt.cell) ↔
          (last.cell ∈ seen ∨ last.cell = attempt.cell ∨
            last.cell ∈ rest.map Attempt.cell) := by
        rw [or_comm (a := last.cell = attempt.cell), or_assoc]
      simp only [if_neg h, hiff]

theorem rejected_eq_nil {seen : List Cell} {attempts : List Attempt} :
    rejected seen attempts = [] ↔
      (attempts.map Attempt.cell).Nodup ∧ ∀ cell ∈ attempts.map Attempt.cell, cell ∉ seen := by
  induction attempts generalizing seen with
  | nil => simp [rejected]
  | cons attempt rest ih =>
    simp only [rejected, List.map_cons, List.nodup_cons, List.mem_cons]
    split
    next h =>
      simp only [reduceCtorEq, false_iff, not_and]
      exact fun _ hall => hall _ (.inl rfl) h
    next h =>
      rw [ih]
      simp only [List.mem_cons, not_or]
      constructor
      · rintro ⟨hnd, hall⟩
        refine ⟨⟨fun hmem => (hall _ hmem).1 rfl, hnd⟩, ?_⟩
        rintro cell (rfl | hcell)
        · exact h
        · exact (hall cell hcell).2
      · rintro ⟨⟨hfresh, hnd⟩, hall⟩
        exact ⟨hnd, fun cell hcell =>
          ⟨fun heq => hfresh (heq ▸ hcell), hall cell (.inr hcell)⟩⟩

theorem first_of_mem {attempts : List Attempt} (hnd : (attempts.map Attempt.cell).Nodup)
    {attempt : Attempt} (h : attempt ∈ attempts) :
    first attempts attempt.cell = some attempt.value := by
  have hsome : (first attempts attempt.cell).isSome :=
    isSome_first.mpr (List.mem_map_of_mem h)
  obtain ⟨value, hvalue⟩ := Option.isSome_iff_exists.mp hsome
  obtain ⟨other, hother, hcell, rfl⟩ := first_eq_some hvalue
  rw [hvalue, List.inj_on_of_nodup_map hnd hother h hcell]

end Attempt

variable {ρ σ : Type}

namespace Event

def command? : Event ρ → Option (Command ρ)
  | command c => some c
  | firing .. => none

def fired? : Event ρ → Option RuleId
  | command _ => none
  | firing id _ _ => some id

def rule? : Event ρ → Option ρ
  | command _ => none
  | firing _ rule _ => some rule

end Event

namespace Engine

def rules (engine : Engine ρ) : List ρ := (engine.slots.map Slot.rule).toList

theorem mem_rules {engine : Engine ρ} {rule : ρ} :
    rule ∈ engine.rules ↔ ∃ (id : RuleId) (slot : Slot ρ),
      engine.slots[id]? = some slot ∧ slot.rule = rule := by
  simp only [rules, Array.toList_map, List.mem_map, Array.mem_toList_iff,
    Array.mem_iff_getElem?]
  constructor
  · intro ⟨slot, ⟨id, hid⟩, hrule⟩
    exact ⟨id, slot, hid, hrule⟩
  · intro ⟨id, slot, hid, hrule⟩
    exact ⟨slot, ⟨id, hid⟩, hrule⟩

theorem getElem?_rules {engine : Engine ρ} {id : RuleId} {rule : ρ} :
    engine.rules[id]? = some rule ↔ ∃ slot, engine.slots[id]? = some slot ∧ slot.rule = rule := by
  simp [rules]

theorem map_modify {α : Type} (slots : Array (Slot ρ)) (id : RuleId) (f : Slot ρ → Slot ρ)
    (g : Slot ρ → α) (hg : ∀ slot, g (f slot) = g slot) :
    (slots.modify id f).map g = slots.map g := by
  apply Array.ext_getElem?
  intro i
  rw [Array.getElem?_map, Array.getElem?_map, Array.getElem?_modify]
  split
  · cases slots[i]? with
    | none => rfl
    | some slot => simp [hg]
  · rfl

theorem wake_frame (engine : Engine ρ) (id : RuleId) :
    (engine.wake id).rules = engine.rules ∧ (engine.wake id).findings = engine.findings ∧
      (engine.wake id).conflicts = engine.conflicts := by
  refine ⟨?_, ?_, ?_⟩
  · rw [rules, slots_wake]
    exact congrArg Array.toList (map_modify _ _ _ _ fun _ => rfl)
  · unfold wake
    split <;> rfl
  · unfold wake
    split <;> rfl

theorem foldl_wake_frame (ids : List RuleId) (engine : Engine ρ) :
    (ids.foldl wake engine).rules = engine.rules ∧
      (ids.foldl wake engine).findings = engine.findings ∧
      (ids.foldl wake engine).conflicts = engine.conflicts ∧
      (ids.foldl wake engine).fired = engine.fired := by
  induction ids generalizing engine with
  | nil => exact ⟨rfl, rfl, rfl, rfl⟩
  | cons id ids ih =>
    have hwake := wake_frame engine id
    have hrest := ih (engine.wake id)
    exact ⟨hrest.1.trans hwake.1, hrest.2.1.trans hwake.2.1, hrest.2.2.1.trans hwake.2.2,
      hrest.2.2.2.trans (fired_wake engine id)⟩

/-- The cells and conflicts of an engine are those of some attempts, made one after the other. -/
structure Journal (attempts : List Attempt) (engine : Engine ρ) : Prop where
  view : ∀ cell, engine.view cell = Attempt.first attempts cell
  conflicts : engine.conflicts = Attempt.rejected [] attempts

theorem Journal.write {attempts : List Attempt} {engine : Engine ρ} (h : engine.Journal attempts)
    (attempt : Attempt) :
    (engine.write attempt.cell attempt.value attempt.label).Journal (attempts ++ [attempt]) := by
  refine ⟨?_, ?_⟩
  · intro cell
    rw [view_write, Attempt.first_append, h.view, h.view]
  · rw [Attempt.rejected_append, ← h.conflicts]
    have hiff : (attempt.cell ∈ ([] : List Cell) ∨ attempt.cell ∈ attempts.map Attempt.cell) ↔
        (engine.view attempt.cell).isSome := by
      rw [h.view, Attempt.isSome_first]
      simp
    simp only [hiff]
    unfold Engine.write
    cases hcell : engine.view attempt.cell with
    | some value => rfl
    | none =>
      have hframe := (foldl_wake_frame (engine.waiters.getD attempt.cell [])
        (engine.store attempt.cell attempt.value)).2.2.1
      simpa [store] using hframe

theorem write_frame (engine : Engine ρ) (cell : Cell) (value : Value) (label : String) :
    (engine.write cell value label).rules = engine.rules ∧
      (engine.write cell value label).findings = engine.findings ∧
      (engine.write cell value label).fired = engine.fired := by
  unfold write
  split
  · exact ⟨rfl, rfl, rfl⟩
  · have h := foldl_wake_frame (engine.waiters.getD cell []) (engine.store cell value)
    exact ⟨h.1, h.2.1, h.2.2.2⟩

end Engine

variable [RuleFamily ρ σ]

def Effect.attempts (rule : ρ) (effect : Effect ρ) : List Attempt :=
  (Engine.cellWrites rule effect).map fun write =>
    { cell := write.1, value := write.2, label := RuleFamily.label rule }

namespace Event

def attempts (setting : σ) : Event ρ → List Attempt
  | command (.set cell value) => [{ cell, value, label := "direct" }]
  | command _ => []
  | firing _ rule view => (RuleFamily.fire setting rule view).attempts rule

def findings (setting : σ) : Event ρ → List Finding
  | command (.report finding) => [finding]
  | command _ => []
  | firing _ rule view => (RuleFamily.fire setting rule view).findings

def rules (setting : σ) : Event ρ → List ρ
  | command (.add rule) => [rule]
  | command _ => []
  | firing _ rule view => (RuleFamily.fire setting rule view).spawned

end Event

/-- The firing that takes place when the turn of a rule comes: none if it has fired before. -/
def Engine.executes (engine : Engine ρ) (id : RuleId) : List (Event ρ) :=
  match engine.slots[id]? with
  | none => []
  | some slot => if slot.fired then [] else [.firing id slot.rule engine.view]

/-- The engines that a new engine can become, with the events on the way: at any time it can be
told something, and any rule of the queue can have its turn. -/
inductive History (setting : σ) : List (Event ρ) → Engine ρ → Prop
  | new : History setting [] {}
  | obey {events : List (Event ρ)} {engine : Engine ρ} (command : Command ρ) :
    History setting events engine →
      History setting (events ++ [.command command]) (engine.obey command)
  | fire {events : List (Event ρ)} {engine : Engine ρ} {id : RuleId} :
    History setting events engine → id ∈ engine.ready →
      History setting (events ++ engine.executes id) (engine.fireReady setting id)

namespace Engine

/-- An engine is what the events of its history made of it. -/
structure Records (setting : σ) (events : List (Event ρ)) (engine : Engine ρ) : Prop where
  journal : engine.Journal (events.flatMap (Event.attempts setting))
  findings : engine.findings = events.flatMap (Event.findings setting)
  rules : engine.rules = events.flatMap (Event.rules setting)
  fired : engine.fired = events.filterMap Event.fired?

theorem records_new (setting : σ) : Records setting ([] : List (Event ρ)) {} where
  journal := ⟨fun _ => rfl, rfl⟩
  findings := rfl
  rules := by simp [rules]
  fired := rfl

theorem rules_add (engine : Engine ρ) (rule : ρ) :
    (engine.add rule).rules = engine.rules ++ [rule] := by
  simp [rules, add]

theorem foldl_add_frame (rules : List ρ) (engine : Engine ρ) :
    (rules.foldl add engine).view = engine.view ∧
      (rules.foldl add engine).conflicts = engine.conflicts ∧
      (rules.foldl add engine).findings = engine.findings ∧
      (rules.foldl add engine).fired = engine.fired ∧
      (rules.foldl add engine).rules = engine.rules ++ rules := by
  induction rules generalizing engine with
  | nil => exact ⟨rfl, rfl, rfl, rfl, (List.append_nil _).symm⟩
  | cons rule rest ih =>
    obtain ⟨hview, hconflicts, hfindings, hfired, hrules⟩ := ih (engine.add rule)
    refine ⟨hview, hconflicts, hfindings, hfired, ?_⟩
    rw [List.foldl_cons, hrules, rules_add, List.append_assoc, List.singleton_append]

theorem foldl_write_frame (label : String) (writes : List (Cell × Value))
    {attempts : List Attempt} {engine : Engine ρ} (h : engine.Journal attempts) :
    let written := writes.foldl (fun engine write => engine.write write.1 write.2 label) engine
    written.Journal (attempts ++
        writes.map fun write => { cell := write.1, value := write.2, label }) ∧
      written.rules = engine.rules ∧ written.findings = engine.findings ∧
      written.fired = engine.fired := by
  induction writes generalizing attempts engine with
  | nil => simpa using h
  | cons write writes ih =>
    have hone := h.write { cell := write.1, value := write.2, label }
    obtain ⟨hjournal, hrules, hfindings, hfired⟩ := ih hone
    have hframe := write_frame engine write.1 write.2 label
    refine ⟨?_, hrules.trans hframe.1, hfindings.trans hframe.2.1, hfired.trans hframe.2.2⟩
    simpa using hjournal

theorem Records.extend {setting : σ} {events : List (Event ρ)} {engine next : Engine ρ}
    (h : engine.Records setting events) (event : Event ρ)
    (journal : next.Journal
      (events.flatMap (Event.attempts setting) ++ event.attempts setting))
    (findings : next.findings = engine.findings ++ event.findings setting)
    (rules : next.rules = engine.rules ++ event.rules setting)
    (fired : next.fired = engine.fired ++ event.fired?.toList) :
    next.Records setting (events ++ [event]) := by
  refine ⟨?_, ?_, ?_, ?_⟩
  · rw [List.flatMap_append, List.flatMap_singleton]
    exact journal
  · rw [findings, h.findings, List.flatMap_append, List.flatMap_singleton]
  · rw [rules, h.rules, List.flatMap_append, List.flatMap_singleton]
  · rw [fired, h.fired, List.filterMap_append]
    cases event <;> rfl

theorem Records.obey {setting : σ} {events : List (Event ρ)} {engine : Engine ρ}
    (h : engine.Records setting events) (command : Command ρ) :
    (engine.obey command).Records setting (events ++ [.command command]) := by
  cases command with
  | set cell value =>
    have hframe := write_frame engine cell value "direct"
    apply h.extend
    · exact h.journal.write { cell, value, label := "direct" }
    · exact hframe.2.1.trans (List.append_nil _).symm
    · exact hframe.1.trans (List.append_nil _).symm
    · exact hframe.2.2.trans (List.append_nil _).symm
  | add rule =>
    apply h.extend
    · rw [show Event.attempts setting (.command _ : Event ρ) = [] from rfl, List.append_nil]
      exact ⟨h.journal.view, h.journal.conflicts⟩
    · exact (List.append_nil _).symm
    · exact rules_add engine rule
    · exact (List.append_nil _).symm
  | report finding =>
    apply h.extend
    · rw [show Event.attempts setting (.command _ : Event ρ) = [] from rfl, List.append_nil]
      exact ⟨h.journal.view, h.journal.conflicts⟩
    · rfl
    · exact (List.append_nil _).symm
    · exact (List.append_nil _).symm

theorem Records.fireReady {setting : σ} {events : List (Event ρ)} {engine : Engine ρ}
    (h : engine.Records setting events) {id : RuleId} {slot : Slot ρ}
    (hslot : engine.Waits id slot) :
    (engine.fireReady setting id).Records setting
      (events ++ [.firing id slot.rule engine.view]) := by
  let effect := RuleFamily.fire setting slot.rule engine.view
  let marked := (engine.unqueue id).mark id
  let written := (cellWrites slot.rule effect).foldl
    (fun engine write => engine.write write.1 write.2 (RuleFamily.label slot.rule)) marked
  have hjournal : marked.Journal (events.flatMap (Event.attempts setting)) :=
    ⟨h.journal.view, h.journal.conflicts⟩
  have hmarked : marked.rules = engine.rules :=
    congrArg Array.toList (map_modify engine.slots id
      (fun slot => { slot with fired := true }) Slot.rule fun _ => rfl)
  obtain ⟨hwritten, hrules, hfindings, hfired⟩ :=
    foldl_write_frame (RuleFamily.label slot.rule) (cellWrites slot.rule effect) hjournal
  obtain ⟨sview, sconflicts, sfindings, sfired, srules⟩ := foldl_add_frame effect.spawned
    { written with findings := written.findings ++ effect.findings }
  rw [fireReady_of_waits hslot]
  apply h.extend
  · refine ⟨?_, ?_⟩
    · intro cell
      exact (congrFun sview cell).trans (hwritten.view cell)
    · exact sconflicts.trans hwritten.conflicts
  · exact sfindings.trans (congrArg (· ++ effect.findings) hfindings)
  · exact srules.trans (congrArg (· ++ effect.spawned) (hrules.trans hmarked))
  · exact sfired.trans hfired

end Engine

namespace History

variable {setting : σ} {events : List (Event ρ)} {engine : Engine ρ}

theorem kept (h : History setting events engine) : engine.Kept := by
  induction h with
  | new => exact Engine.kept_new
  | obey command _ ih => exact ih.obey command
  | fire _ hready ih => exact ih.fireReady setting hready

theorem executes_of_ready (h : History setting events engine) {id : RuleId}
    (hready : id ∈ engine.ready) :
    ∃ slot, engine.Waits id slot ∧ engine.executes id = [.firing id slot.rule engine.view] ∧
      ∀ cell ∈ RuleFamily.inputs slot.rule, (engine.view cell).isSome := by
  obtain ⟨slot, hslot, hinputs⟩ := h.kept.waits_of_ready hready
  refine ⟨slot, hslot, ?_, hinputs⟩
  simp [Engine.executes, hslot.1, hslot.2]

theorem records (h : History setting events engine) : engine.Records setting events := by
  induction h with
  | new => exact Engine.records_new setting
  | obey command _ ih => exact ih.obey command
  | fire h hready ih =>
    obtain ⟨slot, hslot, hexecutes, _⟩ := h.executes_of_ready hready
    rw [hexecutes]
    exact ih.fireReady hslot

/-- The moment of a firing: an earlier engine in which the turn of the rule came, with all of its
inputs set. -/
theorem moment (h : History setting events engine) {id : RuleId} {rule : ρ} {view : View}
    (hfiring : .firing id rule view ∈ events) :
    ∃ before later now, events = before ++ later ∧ History setting before now ∧
      now.view = view ∧ now.rules[id]? = some rule ∧
      ∀ cell ∈ RuleFamily.inputs rule, (view cell).isSome := by
  induction h with
  | new => cases hfiring
  | @obey events engine command h ih =>
    rcases List.mem_append.mp hfiring with hfiring | hfiring
    · obtain ⟨before, later, now, rfl, hnow⟩ := ih hfiring
      exact ⟨before, _, now, List.append_assoc _ _ _, hnow⟩
    · cases List.mem_singleton.mp hfiring
  | @fire events engine next h hready ih =>
    rcases List.mem_append.mp hfiring with hfiring | hfiring
    · obtain ⟨before, later, now, rfl, hnow⟩ := ih hfiring
      exact ⟨before, _, now, List.append_assoc _ _ _, hnow⟩
    · obtain ⟨slot, hslot, hexecutes, hinputs⟩ := h.executes_of_ready hready
      rw [hexecutes] at hfiring
      cases List.mem_singleton.mp hfiring
      refine ⟨events, _, engine, rfl, h, rfl, ?_, hinputs⟩
      simp [Engine.rules, hslot.1]

/-- What a cell held when a rule fired, it holds ever after. -/
theorem view_of_firing (h : History setting events engine) {id : RuleId} {rule : ρ} {view : View}
    (hfiring : .firing id rule view ∈ events) {cell : Cell} {value : Value}
    (hcell : view cell = some value) : engine.view cell = some value := by
  obtain ⟨before, later, now, rfl, hnow, rfl, _⟩ := h.moment hfiring
  rw [hnow.records.journal.view] at hcell
  rw [h.records.journal.view, List.flatMap_append]
  exact Attempt.first_append_of_some hcell _

theorem reads_of_firing (h : History setting events engine) {id : RuleId} {rule : ρ} {view : View}
    (hfiring : .firing id rule view ∈ events) {cell : Cell}
    (hcell : cell ∈ RuleFamily.inputs rule) : view cell = engine.view cell := by
  obtain ⟨_, _, _, _, _, _, _, hinputs⟩ := h.moment hfiring
  obtain ⟨value, hvalue⟩ := Option.isSome_iff_exists.mp (hinputs cell hcell)
  rw [hvalue, h.view_of_firing hfiring hvalue]

theorem isSome_of_firing (h : History setting events engine) {id : RuleId} {rule : ρ} {view : View}
    (hfiring : .firing id rule view ∈ events) {cell : Cell}
    (hcell : cell ∈ RuleFamily.inputs rule) : (engine.view cell).isSome := by
  obtain ⟨_, _, _, _, _, _, _, hinputs⟩ := h.moment hfiring
  rw [← h.reads_of_firing hfiring hcell]
  exact hinputs cell hcell

theorem rule_of_firing (h : History setting events engine) {id : RuleId} {rule : ρ}
    {view : View} (hfiring : .firing id rule view ∈ events) : engine.rules[id]? = some rule := by
  obtain ⟨before, later, now, rfl, hnow, _, hrule, _⟩ := h.moment hfiring
  have hlt := (List.getElem?_eq_some_iff.mp hrule).1
  rw [h.records.rules, List.flatMap_append, ← hnow.records.rules,
    List.getElem?_append_left hlt, hrule]

theorem hasFired_iff (h : History setting events engine) {id : RuleId} :
    engine.HasFired id ↔ ∃ rule view, .firing id rule view ∈ events := by
  rw [← h.kept.fired id, h.records.fired, List.mem_filterMap]
  constructor
  · intro ⟨event, hevent, hid⟩
    cases event with
    | command _ => cases hid
    | firing k rule view =>
      cases hid
      exact ⟨rule, view, hevent⟩
  · intro ⟨rule, view, hevent⟩
    exact ⟨_, hevent, rfl⟩

end History

/-- A kind of histories that can go on with any command, and with the step that a run makes next. -/
structure Onward (setting : σ) (reached : List (Event ρ) → Engine ρ → Prop) : Prop where
  history : ∀ {events engine}, reached events engine → History setting events engine
  obey : ∀ {events engine}, reached events engine → ∀ command,
    reached (events ++ [.command command]) (engine.obey command)
  fire : ∀ {events engine id}, reached events engine → engine.ready.head? = some id →
    reached (events ++ engine.executes id) (engine.fireReady setting id)

theorem History.onward (setting : σ) : Onward setting (@History ρ σ _ setting) where
  history := id
  obey h command := .obey command h
  fire h hfirst := .fire h (List.mem_of_head? hfirst)

theorem Onward.drain {setting : σ} {reached : List (Event ρ) → Engine ρ → Prop}
    (honward : Onward setting reached) {events : List (Event ρ)} {engine : Engine ρ}
    (h : reached events engine) (n : Nat) :
    ∃ later, reached (events ++ later) (engine.drain setting n) ∧
      later.filterMap Event.command? = [] := by
  induction n generalizing events engine with
  | zero => exact ⟨[], (List.append_nil events).symm ▸ h, rfl⟩
  | succ n ih =>
    simp only [Engine.drain, Engine.step_eq]
    cases hfirst : engine.ready.head? with
    | none => exact ⟨[], by simpa using h, rfl⟩
    | some id =>
      obtain ⟨later, hlater, hcommands⟩ := ih (honward.fire h hfirst)
      obtain ⟨slot, _, hexecutes, _⟩ :=
        (honward.history h).executes_of_ready (List.mem_of_head? hfirst)
      refine ⟨engine.executes id ++ later, by simpa using hlater, ?_⟩
      rw [List.filterMap_append, hexecutes, hcommands]
      rfl

theorem History.drain {setting : σ} {events : List (Event ρ)} {engine : Engine ρ}
    (h : History setting events engine) (n : Nat) :
    ∃ later, History setting (events ++ later) (engine.drain setting n) ∧
      later.filterMap Event.command? = [] := (History.onward setting).drain h n

/-- A run started in an engine comes to its end in another: no rule is ready any more. -/
def Engine.Returns (setting : σ) (engine final : Engine ρ) : Prop :=
  ∃ n, engine.drain setting n = final ∧ final.ready = []

inductive Call (ρ : Type) where
  | tell (command : Command ρ)
  | run

def Call.command? : Call ρ → Option (Command ρ)
  | tell command => some command
  | run => none

/-- Calls in order lead from one engine to another; every run among them returns. -/
inductive Performs (setting : σ) : Engine ρ → List (Call ρ) → Engine ρ → Prop
  | nil (engine : Engine ρ) : Performs setting engine [] engine
  | tell {engine final : Engine ρ} {calls : List (Call ρ)} (command : Command ρ) :
    Performs setting (engine.obey command) calls final →
      Performs setting engine (.tell command :: calls) final
  | run {engine next final : Engine ρ} {calls : List (Call ρ)} :
    engine.Returns setting next → Performs setting next calls final →
      Performs setting engine (.run :: calls) final

theorem Onward.performs {setting : σ} {reached : List (Event ρ) → Engine ρ → Prop}
    (honward : Onward setting reached) {events : List (Event ρ)} {engine final : Engine ρ}
    {calls : List (Call ρ)} (h : Performs setting engine calls final)
    (hbefore : reached events engine) :
    ∃ later, reached (events ++ later) final ∧
      later.filterMap Event.command? = calls.filterMap Call.command? := by
  induction h generalizing events with
  | nil engine => exact ⟨[], (List.append_nil events).symm ▸ hbefore, rfl⟩
  | tell command _ ih =>
    obtain ⟨later, hlater, hcommands⟩ := ih (honward.obey hbefore command)
    refine ⟨.command command :: later, by simpa using hlater, ?_⟩
    exact congrArg (command :: ·) hcommands
  | run hreturns _ ih =>
    obtain ⟨n, rfl, _⟩ := hreturns
    obtain ⟨drained, hdrained, hnone⟩ := honward.drain hbefore n
    obtain ⟨later, hlater, hcommands⟩ := ih hdrained
    refine ⟨drained ++ later, by simpa using hlater, ?_⟩
    rw [List.filterMap_append, hnone]
    exact hcommands

theorem Performs.history {setting : σ} {events : List (Event ρ)} {engine final : Engine ρ}
    {calls : List (Call ρ)} (h : Performs setting engine calls final)
    (hbefore : History setting events engine) :
    ∃ later, History setting (events ++ later) final ∧
      later.filterMap Event.command? = calls.filterMap Call.command? :=
  (History.onward setting).performs h hbefore

end Attribution
