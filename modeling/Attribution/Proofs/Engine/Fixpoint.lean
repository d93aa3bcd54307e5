import Attribution.Proofs.Engine.Firing
/-!
# The end of a run

Where weights bound what rules add, a run returns. If besides no rule reads anything but its
inputs, the engine is then settled: what it holds was brought by commands and by rules with all
inputs set, acting as they would on the final cells, and nothing that these bring is missing.
-/
namespace Attribution

variable {ρ σ : Type} [RuleFamily ρ σ]

/-- The rules of a family read nothing but their inputs. -/
class RuleFamily.Local (ρ : Type) {σ : outParam Type} [RuleFamily ρ σ] : Prop where
  fire_congr (setting : σ) (rule : ρ) (view view' : View) :
    (∀ cell ∈ RuleFamily.inputs rule, view cell = view' cell) →
      RuleFamily.fire setting rule view = RuleFamily.fire setting rule view'

namespace Engine

/-- What a registered rule adds to the backlog. -/
def load (slot : Slot ρ) : Nat := if slot.fired then 0 else RuleFamily.weight slot.rule

theorem backlog_eq (engine : Engine ρ) : engine.backlog = total (engine.slots.map load).toList := by
  rw [backlog, Array.toList_map]
  induction engine.slots.toList with
  | nil => rfl
  | cons slot slots ih =>
    rw [List.map_cons, total_cons, ← ih]
    cases hf : slot.fired <;> simp [load, hf]

theorem backlog_wake (engine : Engine ρ) (id : RuleId) :
    (engine.wake id).backlog = engine.backlog := by
  rw [backlog_eq, backlog_eq, slots_wake]
  exact congrArg (fun loads : Array Nat => total loads.toList) (map_modify _ _ _ _ fun _ => rfl)

theorem backlog_foldl_wake (ids : List RuleId) (engine : Engine ρ) :
    (ids.foldl wake engine).backlog = engine.backlog := by
  induction ids generalizing engine with
  | nil => rfl
  | cons id ids ih => rw [List.foldl_cons, ih, backlog_wake]

theorem backlog_write (engine : Engine ρ) (cell : Cell) (value : Value) (label : String) :
    (engine.write cell value label).backlog = engine.backlog := by
  unfold write
  split
  · rfl
  · exact backlog_foldl_wake _ (engine.store cell value)

theorem backlog_add (engine : Engine ρ) (rule : ρ) :
    (engine.add rule).backlog = engine.backlog + RuleFamily.weight rule := by
  rw [backlog_eq, backlog_eq]
  simp [add, load]

theorem backlog_mark {engine : Engine ρ} {id : RuleId} {slot : Slot ρ}
    (h : engine.Waits id slot) :
    ((engine.unqueue id).mark id).backlog + RuleFamily.weight slot.rule = engine.backlog := by
  obtain ⟨hlt, hget⟩ := Array.getElem?_eq_some_iff.mp h.1
  have hlist : engine.slots.toList[id] = slot := by
    rw [Array.getElem_toList, hget]
  have hsplit : engine.slots.toList =
      engine.slots.toList.take id ++ slot :: engine.slots.toList.drop (id + 1) := by
    rw [← hlist, List.getElem_cons_drop, List.take_append_drop]
  have hmarked : ((engine.unqueue id).mark id).slots.toList = engine.slots.toList.take id ++
      { slot with fired := true } :: engine.slots.toList.drop (id + 1) := by
    change (engine.slots.modify id _).toList = _
    rw [Array.toList_modify, List.modify_eq_take_cons_drop hlt, hlist]
  rw [backlog_eq, backlog_eq, Array.toList_map, Array.toList_map, hmarked]
  conv_rhs => rw [hsplit]
  simp [load, h.2]
  omega

theorem backlog_perform (engine : Engine ρ) (rule : ρ) (effect : Effect ρ) :
    (engine.perform rule effect).backlog =
      engine.backlog + total (effect.spawned.map fun spawned => RuleFamily.weight spawned) := by
  have hwrites : ∀ (writes : List (Cell × Value)) (engine : Engine ρ),
      (writes.foldl (fun engine write =>
        engine.write write.1 write.2 (RuleFamily.label rule)) engine).backlog =
          engine.backlog := by
    intro writes
    induction writes with
    | nil => exact fun _ => rfl
    | cons write writes ih => exact fun engine => (ih _).trans (backlog_write engine _ _ _)
  have hadds : ∀ (rules : List ρ) (engine : Engine ρ), (rules.foldl add engine).backlog =
      engine.backlog + total (rules.map fun spawned => RuleFamily.weight spawned) := by
    intro rules
    induction rules with
    | nil => exact fun _ => rfl
    | cons rule rules ih =>
      intro engine
      rw [List.foldl_cons, ih, backlog_add, List.map_cons, total_cons, Nat.add_assoc]
  rw [perform, hadds]
  exact congrArg (· + _) (hwrites (cellWrites rule effect) engine)

section Bounded

variable [RuleFamily.Bounded ρ]

theorem backlog_fireReady_lt (setting : σ) {engine : Engine ρ} {id : RuleId} {slot : Slot ρ}
    (h : engine.Waits id slot) : (engine.fireReady setting id).backlog < engine.backlog := by
  have hspawned := RuleFamily.Bounded.spawned_lt setting slot.rule engine.view
  have hmark := backlog_mark h
  rw [fireReady_of_waits h, backlog_perform]
  omega

/-- As many steps as the backlog is large leave no rule ready. -/
theorem Kept.ready_drain (setting : σ) {n : Nat} {engine : Engine ρ} (h : engine.Kept)
    (hle : engine.backlog ≤ n) : (engine.drain setting n).ready = [] := by
  induction n generalizing engine with
  | zero =>
    rw [drain]
    cases hready : engine.ready with
    | nil => rfl
    | cons id rest =>
      obtain ⟨slot, hslot, _⟩ := h.waits_of_ready (hready ▸ List.mem_cons_self)
      have := backlog_fireReady_lt setting hslot
      omega
  | succ n ih =>
    rw [drain, step_eq]
    cases hready : engine.ready with
    | nil => simpa using hready
    | cons id rest =>
      have hmem : id ∈ engine.ready := hready ▸ List.mem_cons_self
      obtain ⟨slot, hslot, _⟩ := h.waits_of_ready hmem
      -- a firing takes more weight off the backlog than the rules that it adds put on
      have hlt := backlog_fireReady_lt setting hslot
      exact ih (h.fireReady setting hmem) (by omega)

theorem Kept.returns_run (setting : σ) {engine : Engine ρ} (h : engine.Kept) :
    engine.Returns setting (engine.run setting) :=
  ⟨engine.backlog, rfl, h.ready_drain setting (Nat.le_refl _)⟩

end Bounded

theorem backlog_le {bound : Nat} (h : ∀ rule : ρ, RuleFamily.weight rule ≤ bound)
    (engine : Engine ρ) : engine.backlog ≤ bound * engine.slots.size := by
  rw [backlog_eq, Array.toList_map, ← Array.length_toList]
  induction engine.slots.toList with
  | nil => exact Nat.zero_le _
  | cons slot slots ih =>
    have hload : load slot ≤ bound := by
      unfold load
      split
      · exact Nat.zero_le _
      · exact h slot.rule
    rw [List.map_cons, total_cons, List.length_cons, Nat.mul_succ]
    omega

theorem drain_of_le {setting : σ} {n m : Nat} {engine : Engine ρ}
    (hdone : (engine.drain setting n).ready = []) (hle : n ≤ m) :
    engine.drain setting m = engine.drain setting n := by
  induction n generalizing m engine with
  | zero =>
    have hready : engine.ready = [] := hdone
    cases m with
    | zero => rfl
    | succ m => rw [drain, drain, step, hready]
  | succ n ih =>
    obtain ⟨m, rfl⟩ := Nat.exists_eq_succ_of_ne_zero (Nat.ne_zero_of_lt hle)
    rw [drain] at hdone ⊢
    rw [drain]
    cases hstep : engine.step setting with
    | none => rfl
    | some next =>
      rw [hstep] at hdone
      exact ih hdone (Nat.le_of_succ_le_succ hle)

/-- All inputs of a rule hold values. -/
def Supplies (engine : Engine ρ) (rule : ρ) : Prop :=
  ∀ cell ∈ RuleFamily.inputs rule, (engine.view cell).isSome

/-- An engine that was told some commands holds what these and the rules with all inputs set
bring, no less and no more. Of several values for one cell it holds one. -/
structure Settled (setting : σ) (commands : List (Command ρ)) (engine : Engine ρ) : Prop where
  mem_rules : ∀ rule, rule ∈ engine.rules ↔ .add rule ∈ commands ∨
    ∃ parent ∈ engine.rules, engine.Supplies parent ∧
      rule ∈ (RuleFamily.fire setting parent engine.view).spawned
  mem_findings : ∀ finding, finding ∈ engine.findings ↔ .report finding ∈ commands ∨
    ∃ rule ∈ engine.rules, engine.Supplies rule ∧
      finding ∈ (RuleFamily.fire setting rule engine.view).findings
  isSome_view : ∀ cell, (engine.view cell).isSome ↔ ∃ value, .set cell value ∈ commands ∨
    ∃ rule ∈ engine.rules, engine.Supplies rule ∧
      (cell, value) ∈ cellWrites rule (RuleFamily.fire setting rule engine.view)
  view_eq : ∀ cell value, engine.view cell = some value → .set cell value ∈ commands ∨
    ∃ rule ∈ engine.rules, engine.Supplies rule ∧
      (cell, value) ∈ cellWrites rule (RuleFamily.fire setting rule engine.view)
  stalled : (∀ rule ∈ engine.rules, engine.Supplies rule) → engine.stalled = 0

end Engine

theorem Event.mem_commands {events : List (Event ρ)} {command : Command ρ} :
    command ∈ events.filterMap Event.command? ↔ .command command ∈ events := by
  rw [List.mem_filterMap]
  constructor
  · intro h
    obtain ⟨event, hevent, heq⟩ := h
    cases event with
    | command _ =>
      cases heq
      exact hevent
    | firing _ _ _ => cases heq
  · intro hmem
    exact ⟨_, hmem, rfl⟩

namespace History

open Engine

variable [RuleFamily.Local ρ] {setting : σ} {events : List (Event ρ)} {engine : Engine ρ}

theorem fire_eq (h : History setting events engine) {id : RuleId} {rule : ρ} {view : View}
    (hfiring : .firing id rule view ∈ events) :
    RuleFamily.fire setting rule view = RuleFamily.fire setting rule engine.view :=
  RuleFamily.Local.fire_congr setting rule view engine.view fun _ => h.reads_of_firing hfiring

theorem mem_flatMap (h : History setting events engine) (hdone : engine.ready = []) {α : Type}
    (brings : Event ρ → List α)
    (hbrings : ∀ id rule view view', RuleFamily.fire setting rule view =
      RuleFamily.fire setting rule view' →
        brings (.firing id rule view) = brings (.firing 0 rule view')) (x : α) :
    x ∈ events.flatMap brings ↔
      (∃ command, .command command ∈ events ∧ x ∈ brings (.command command)) ∨
        ∃ rule ∈ engine.rules, engine.Supplies rule ∧
          x ∈ brings (.firing 0 rule engine.view) := by
  have hfire : ∀ id rule view, .firing id rule view ∈ events →
      brings (.firing id rule view) = brings (.firing 0 rule engine.view) :=
    fun id rule view hfiring => hbrings id rule view engine.view (h.fire_eq hfiring)
  rw [List.mem_flatMap]
  constructor
  · intro ⟨event, hevent, hx⟩
    cases event with
    | command command => exact .inl ⟨command, hevent, hx⟩
    | firing id rule view =>
      have hrule := h.rule_of_firing hevent
      rw [hfire id rule view hevent] at hx
      exact .inr ⟨rule, List.mem_of_getElem? hrule, (h.fired_iff hdone hrule).mp ⟨view, hevent⟩, hx⟩
  · intro hx
    rcases hx with ⟨command, hcommand, hx⟩ | ⟨rule, hrule, hsupplies, hx⟩
    · exact ⟨_, hcommand, hx⟩
    · obtain ⟨id, hid⟩ := List.mem_iff_getElem?.mp hrule
      obtain ⟨view, hfiring⟩ := (h.fired_iff hdone hid).mpr hsupplies
      rw [← hfire id rule view hfiring] at hx
      exact ⟨_, hfiring, hx⟩

theorem mem_attempts (h : History setting events engine) (hdone : engine.ready = [])
    {cell : Cell} {value : Value} :
    (∃ label, (⟨cell, value, label⟩ : Attempt) ∈ events.flatMap (Event.attempts setting)) ↔
      (.set cell value ∈ events.filterMap Event.command? ∨
        ∃ rule ∈ engine.rules, engine.Supplies rule ∧
          (cell, value) ∈ cellWrites rule (RuleFamily.fire setting rule engine.view)) := by
  have hmem := h.mem_flatMap hdone (Event.attempts setting)
    fun _ rule _ _ heq => congrArg (Effect.attempts rule) heq
  constructor
  · intro ⟨label, hlabel⟩
    rcases (hmem _).mp hlabel with ⟨command, hcommand, hx⟩ | ⟨rule, hrule, hsupplies, hx⟩
    · cases command with
      | set cell' value' =>
        cases List.mem_singleton.mp hx
        exact .inl (Event.mem_commands.mpr hcommand)
      | add _ => cases hx
      | report _ => cases hx
    · obtain ⟨write, hwrite, heq⟩ := List.mem_map.mp hx
      cases heq
      exact .inr ⟨rule, hrule, hsupplies, hwrite⟩
  · intro hsource
    rcases hsource with hcommand | ⟨rule, hrule, hsupplies, hwrite⟩
    · exact ⟨"direct", (hmem _).mpr
        (.inl ⟨_, Event.mem_commands.mp hcommand, List.mem_cons_self⟩)⟩
    · exact ⟨RuleFamily.label rule, (hmem _).mpr
        (.inr ⟨rule, hrule, hsupplies, List.mem_map.mpr ⟨_, hwrite, rfl⟩⟩)⟩

/-- When nothing is ready any more, an engine is settled. -/
theorem settled (h : History setting events engine) (hdone : engine.ready = []) :
    engine.Settled setting (events.filterMap Event.command?) := by
  refine ⟨?_, ?_, ?_, ?_, ?_⟩
  · intro rule
    rw [h.records.rules, h.mem_flatMap hdone (Event.rules setting)
      (fun _ _ _ _ heq => congrArg Effect.spawned heq), ← h.records.rules]
    apply or_congr _ Iff.rfl
    constructor
    · intro ⟨command, hcommand, hx⟩
      cases command with
      | add added =>
        cases List.mem_singleton.mp hx
        exact Event.mem_commands.mpr hcommand
      | set _ _ => cases hx
      | report _ => cases hx
    · intro hcommand
      exact ⟨_, Event.mem_commands.mp hcommand, List.mem_cons_self⟩
  · intro finding
    rw [h.records.findings, h.mem_flatMap hdone (Event.findings setting)
      (fun _ _ _ _ heq => congrArg Effect.findings heq)]
    apply or_congr _ Iff.rfl
    constructor
    · intro ⟨command, hcommand, hx⟩
      cases command with
      | report reported =>
        cases List.mem_singleton.mp hx
        exact Event.mem_commands.mpr hcommand
      | set _ _ => cases hx
      | add _ => cases hx
    · intro hcommand
      exact ⟨_, Event.mem_commands.mp hcommand, List.mem_cons_self⟩
  · intro cell
    rw [h.records.journal.view, Attempt.isSome_first, List.mem_map]
    constructor
    · intro ⟨attempt, hmem, hcell⟩
      exact ⟨attempt.value, (h.mem_attempts hdone).mp ⟨attempt.label, hcell ▸ hmem⟩⟩
    · intro ⟨value, hsource⟩
      obtain ⟨label, hmem⟩ := (h.mem_attempts hdone).mpr hsource
      exact ⟨_, hmem, rfl⟩
  · intro cell value hvalue
    rw [h.records.journal.view] at hvalue
    obtain ⟨attempt, hmem, rfl, rfl⟩ := Attempt.first_eq_some hvalue
    exact (h.mem_attempts hdone).mp ⟨attempt.label, hmem⟩
  · intro hall
    rw [stalled_eq_countP h.kept hdone fun _ _ hslot hfired => h.not_lacksInput hslot hfired]
    apply List.countP_eq_zero.mpr
    intro rule hrule
    rw [lacksInput_eq_false.mpr (hall rule hrule)]
    exact Bool.false_ne_true

end History

theorem History.foldl_obey {setting : σ} {events : List (Event ρ)} {engine : Engine ρ}
    (h : History setting events engine) (commands : List (Command ρ)) :
    History setting (events ++ commands.map .command) (commands.foldl Engine.obey engine) := by
  induction commands generalizing events engine with
  | nil => exact (List.append_nil events).symm ▸ h
  | cons command commands ih =>
    have hrest := ih (h.obey command)
    rw [List.append_assoc] at hrest
    exact hrest

theorem Event.commands_map_command (commands : List (Command ρ)) :
    (commands.map .command).filterMap Event.command? = commands := by
  rw [List.filterMap_map]
  exact List.filterMap_some

theorem History.length_fired_drain_le {setting : σ} {events : List (Event ρ)} {engine : Engine ρ}
    (h : History setting events engine) (n : Nat) :
    (engine.drain setting n).fired.length ≤ engine.fired.length + n := by
  induction n generalizing events engine with
  | zero => exact Nat.le_refl _
  | succ n ih =>
    rw [Engine.drain, Engine.step_eq]
    cases hready : engine.ready with
    | nil => exact Nat.le_add_right _ _
    | cons id rest =>
      have hmem : id ∈ engine.ready := hready ▸ List.mem_cons_self
      have hfired : (engine.fireReady setting id).fired = engine.fired ++ [id] := by
        obtain ⟨_, _, hexecutes, _⟩ := h.executes_of_ready hmem
        rw [(h.fire hmem).records.fired, hexecutes, List.filterMap_append, ← h.records.fired]
        rfl
      have hrest := ih (h.fire hmem)
      rw [hfired, List.length_append, List.length_singleton, Nat.add_right_comm] at hrest
      exact hrest

/-- An engine that is told some commands and then run has a history of just these commands, and no
rule is ready any more. -/
theorem Engine.history_run [RuleFamily.Bounded ρ] (setting : σ) (commands : List (Command ρ)) :
    ∃ events, History setting events ((commands.foldl Engine.obey {}).run setting) ∧
      ((commands.foldl Engine.obey {}).run setting).ready = [] ∧
        events.filterMap Event.command? = commands := by
  have h : History setting (commands.map .command) (commands.foldl Engine.obey {}) :=
    History.new.foldl_obey commands
  obtain ⟨n, hfinal, hdone⟩ := h.kept.returns_run setting
  obtain ⟨later, hlater, hnone⟩ := h.drain n
  rw [hfinal] at hlater
  refine ⟨_, hlater, hdone, ?_⟩
  rw [List.filterMap_append, hnone, List.append_nil, Event.commands_map_command]

theorem Engine.settled_run [RuleFamily.Bounded ρ] [RuleFamily.Local ρ] (setting : σ)
    (commands : List (Command ρ)) :
    ((commands.foldl Engine.obey {}).run setting).Settled setting commands := by
  obtain ⟨events, h, hdone, hcommands⟩ := Engine.history_run setting commands
  have hsettled := h.settled hdone
  rw [hcommands] at hsettled
  exact hsettled

end Attribution
