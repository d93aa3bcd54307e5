import Mathlib.Data.Multiset.Bind
import Mathlib.Data.Multiset.Count
import Attribution.Proofs.Engine.Firing
/-!
# Independence of the schedule

Rules that read nothing but their inputs leave no choice to the order in which an engine is told
things and its ready rules have their turns. What fires in one complete history without conflicts
fires in every history of the same commands, and nothing else does: the rules that have fired
decide which others are registered, and the values of cells decide which of these fire.
-/
namespace Attribution

variable {ρ σ : Type}

namespace Event

def commands (events : List (Event ρ)) : List (Command ρ) := events.filterMap command?

def firedRules (events : List (Event ρ)) : List ρ := events.filterMap rule?

@[simp] theorem commands_append_command (events : List (Event ρ)) (c : Command ρ) :
    commands (events ++ [command c]) = commands events ++ [c] :=
  List.filterMap_append

@[simp] theorem commands_append_firing (events : List (Event ρ)) (id : RuleId) (rule : ρ)
    (view : View) : commands (events ++ [firing id rule view]) = commands events :=
  List.filterMap_append.trans (List.append_nil _)

@[simp] theorem firedRules_append_command (events : List (Event ρ)) (c : Command ρ) :
    firedRules (events ++ [command c]) = firedRules events :=
  List.filterMap_append.trans (List.append_nil _)

@[simp] theorem firedRules_append_firing (events : List (Event ρ)) (id : RuleId) (rule : ρ)
    (view : View) : firedRules (events ++ [firing id rule view]) = firedRules events ++ [rule] :=
  List.filterMap_append

theorem length_firedRules (events : List (Event ρ)) :
    (firedRules events).length = (events.filterMap fired?).length := by
  rw [firedRules, List.length_filterMap_eq_countP, List.length_filterMap_eq_countP]
  apply List.countP_congr
  intro event _
  cases event <;> rfl

theorem flatMap_eq_bind {α : Type} (events : List (Event ρ)) (brings : Event ρ → List α)
    (direct : Command ρ → List α) (byRule : ρ → List α)
    (hdirect : ∀ c, brings (.command c) = direct c)
    (hrule : ∀ id rule view, .firing id rule view ∈ events →
      brings (.firing id rule view) = byRule rule) :
    (events.flatMap brings : Multiset α) =
      (commands events : Multiset _).bind (fun c => direct c) +
        (firedRules events : Multiset _).bind (fun rule => byRule rule) := by
  induction events with
  | nil => simp [commands, firedRules]
  | cons event events ih =>
    have hrest := ih fun id rule view h => hrule id rule view (List.mem_cons_of_mem _ h)
    rw [List.flatMap_cons, ← Multiset.coe_add, hrest]
    cases event with
    | command c =>
      have hc : commands (.command c :: events) = c :: commands events := rfl
      have hf : firedRules (.command c :: events) = firedRules events := rfl
      rw [hc, hf, hdirect, ← Multiset.cons_coe, Multiset.cons_bind, add_assoc]
    | firing id rule view =>
      have hc : commands (.firing id rule view :: events) = commands events := rfl
      have hf : firedRules (.firing id rule view :: events) = rule :: firedRules events := rfl
      rw [hc, hf, hrule id rule view List.mem_cons_self, ← Multiset.cons_coe,
        Multiset.cons_bind, add_left_comm]

end Event

variable [RuleFamily ρ σ]

/-- The second rule can come to be added because the first one is, whatever is read. -/
inductive Descends (setting : σ) : ρ → ρ → Prop
  | self (rule : ρ) : Descends setting rule rule
  | spawn {rule parent child : ρ} (view : View) : Descends setting rule parent →
    child ∈ (RuleFamily.fire setting parent view).spawned → Descends setting rule child

/-- Neither the rule nor what it lets be added reads anything but inputs. -/
def ReadsInputs (setting : σ) (rule : ρ) : Prop :=
  ∀ other, Descends setting rule other → ∀ view view' : View,
    (∀ cell ∈ RuleFamily.inputs other, view cell = view' cell) →
      RuleFamily.fire setting other view = RuleFamily.fire setting other view'

/-- One rule of the queue has its turn. -/
def Engine.Fires (setting : σ) (next now : Engine ρ) : Prop :=
  ∃ id ∈ now.ready, next = now.fireReady setting id

/-- Two engines with the same contents, findings up to order. -/
structure Engine.Agrees (engine other : Engine ρ) : Prop where
  view : other.view = engine.view
  conflicts : other.conflicts = engine.conflicts
  findings : other.findings.Perm engine.findings
  fired : other.fixpoint.fired = engine.fixpoint.fired
  stalled : other.fixpoint.stalled = engine.fixpoint.stalled

theorem bind_le_bind {α β : Type} {s t : Multiset α} (h : s ≤ t)
    (f : α → Multiset β) : s.bind f ≤ t.bind f := by
  obtain ⟨rest, rfl⟩ := Multiset.le_iff_exists_add.mp h
  rw [Multiset.add_bind]
  exact Multiset.le_add_right _ _

namespace History

open Engine Event

variable {setting : σ} {events others : List (Event ρ)} {engine other : Engine ρ}

theorem countP_firedRules (h : History setting events engine) (p : ρ → Bool) :
    (firedRules events).countP p = engine.slots.countP fun slot => slot.fired && p slot.rule := by
  rw [← countP_fired engine h.kept.fired_nodup h.kept.fired, h.records.fired, firedRules,
    List.countP_filterMap, List.countP_filterMap]
  apply List.countP_congr
  intro event hevent
  cases event with
  | command _ => rfl
  | firing id rule view =>
    have hrule := h.rule_of_firing hevent
    simp [rule?, fired?, hrule]

theorem countP_firedRules_lt (h : History setting events engine) {id : RuleId} {slot : Slot ρ}
    (hslot : engine.Waits id slot) (p : ρ → Bool) (hp : p slot.rule = true) :
    (firedRules events).countP p < engine.rules.countP p := by
  rw [h.countP_firedRules, Engine.rules, Array.toList_map, List.countP_map, ← Array.countP_toList]
  have hmem : slot ∈ engine.slots.toList :=
    Array.mem_toList_iff.mpr (Array.mem_iff_getElem?.mpr ⟨id, hslot.1⟩)
  obtain ⟨before, after, hsplit⟩ := List.append_of_mem hmem
  have hle : ∀ slots : List (Slot ρ),
      slots.countP (fun slot => slot.fired && p slot.rule) ≤ slots.countP (p ∘ Slot.rule) := by
    intro slots
    apply List.countP_mono_left
    intro slot _ h
    exact (Bool.and_eq_true_iff.mp h).2
  have hbefore := hle before
  have hafter := hle after
  rw [hsplit, List.countP_append, List.countP_append, List.countP_cons, List.countP_cons]
  simp only [hslot.2, Function.comp_apply, hp, Bool.false_and, Bool.false_eq_true, if_false,
    if_true]
  omega

theorem countP_rules_le (h : History setting events engine) (hdone : engine.ready = [])
    (p : ρ → Bool)
    (hp : ∀ rule, p rule = true →
      ∀ cell ∈ RuleFamily.inputs rule, (engine.view cell).isSome) :
    engine.rules.countP p ≤ (firedRules events).countP p := by
  rw [h.countP_firedRules, Engine.rules, Array.toList_map, List.countP_map, ← Array.countP_toList]
  apply List.countP_mono_left
  intro slot hmem hslot
  obtain ⟨id, hid⟩ := Array.mem_iff_getElem?.mp (Array.mem_toList_iff.mp hmem)
  cases hf : slot.fired with
  | true => simpa using hslot
  | false =>
    obtain ⟨cell, hcell, hnone⟩ := h.kept.awaits_of_done hdone ⟨hid, hf⟩
    have hsome := hp slot.rule hslot cell hcell
    rw [hnone] at hsome
    cases hsome

theorem descends (h : History setting events engine) {rule : ρ} (hrule : rule ∈ engine.rules) :
    ∃ root, .add root ∈ commands events ∧ Descends setting root rule := by
  induction h generalizing rule with
  | new => simp [Engine.rules] at hrule
  | @obey events engine command h ih =>
    rw [(h.obey command).records.rules, List.flatMap_append, ← h.records.rules] at hrule
    rw [commands_append_command]
    rcases List.mem_append.mp hrule with hold | hnew
    · obtain ⟨root, hroot, hdescends⟩ := ih hold
      exact ⟨root, List.mem_append_left _ hroot, hdescends⟩
    · rw [List.flatMap_singleton] at hnew
      cases command with
      | set _ _ => cases hnew
      | report _ => cases hnew
      | add added =>
        rw [List.mem_singleton.mp hnew]
        exact ⟨added, List.mem_append_right _ List.mem_cons_self, .self added⟩
  | @fire events engine id h hready ih =>
    obtain ⟨slot, hslot, hexecutes, _⟩ := h.executes_of_ready hready
    rw [(h.fire hready).records.rules, List.flatMap_append, ← h.records.rules, hexecutes] at hrule
    rw [hexecutes, commands_append_firing]
    rcases List.mem_append.mp hrule with hold | hnew
    · exact ih hold
    · rw [List.flatMap_singleton] at hnew
      obtain ⟨root, hroot, hdescends⟩ := ih (mem_rules.mpr ⟨id, slot, hslot.1, rfl⟩)
      exact ⟨root, hroot, hdescends.spawn engine.view hnew⟩

theorem fire_of_firing (h : History setting events engine)
    (hreads : ∀ rule, .add rule ∈ commands events → ReadsInputs setting rule)
    {id : RuleId} {rule : ρ} {view : View} (hfiring : .firing id rule view ∈ events) :
    RuleFamily.fire setting rule view = RuleFamily.fire setting rule engine.view := by
  have hrule : rule ∈ engine.rules := List.mem_of_getElem? (h.rule_of_firing hfiring)
  obtain ⟨root, hroot, hdescends⟩ := h.descends hrule
  exact hreads root hroot rule hdescends _ _ fun _ => h.reads_of_firing hfiring

theorem flatMap_le {α : Type} (brings : Event ρ → List α) (view : View)
    (hothers : ∀ id rule seen, .firing id rule seen ∈ others →
      brings (.firing id rule seen) = brings (.firing 0 rule view))
    (hevents : ∀ id rule seen, .firing id rule seen ∈ events →
      brings (.firing id rule seen) = brings (.firing 0 rule view))
    (hcommands : (commands others : Multiset (Command ρ)) ≤ commands events)
    (hfired : (firedRules others : Multiset ρ) ≤ firedRules events) :
    (others.flatMap brings : Multiset α) ≤ events.flatMap brings := by
  rw [flatMap_eq_bind others brings _ _ (fun _ => rfl) hothers,
    flatMap_eq_bind events brings _ _ (fun _ => rfl) hevents]
  exact add_le_add (bind_le_bind hcommands _) (bind_le_bind hfired _)

/-- The cells of a history that attempts less than one without conflicts: they are among the cells
of that one, and there are no conflicts either. -/
theorem view_of_attempts_le (h : History setting others other)
    (one : History setting events engine) (clean : engine.conflicts = [])
    (hle : (others.flatMap (Event.attempts setting) : Multiset Attempt) ≤
      events.flatMap (Event.attempts setting)) :
    other.conflicts = [] ∧
      ∀ cell value, other.view cell = some value → engine.view cell = some value := by
  have hnd : ((events.flatMap (Event.attempts setting)).map Attempt.cell).Nodup :=
    (Attempt.rejected_eq_nil.mp (one.records.journal.conflicts.symm.trans clean)).1
  refine ⟨?_, ?_⟩
  · rw [h.records.journal.conflicts, Attempt.rejected_eq_nil]
    refine ⟨?_, by simp⟩
    have hcells := Multiset.map_le_map (f := Attempt.cell) hle
    rw [Multiset.map_coe, Multiset.map_coe] at hcells
    exact Multiset.coe_nodup.mp (Multiset.nodup_of_le hcells (Multiset.coe_nodup.mpr hnd))
  · intro cell value hvalue
    rw [h.records.journal.view] at hvalue
    obtain ⟨attempt, hmem, rfl, rfl⟩ := Attempt.first_eq_some hvalue
    rw [one.records.journal.view]
    exact Attempt.first_of_mem hnd (Multiset.mem_coe.mp (Multiset.mem_of_le hle hmem))

/-- The firings of some events acted as they would on these cells. -/
def ActsLike (setting : σ) (view : View) (events : List (Event ρ)) : Prop :=
  ∀ id rule seen, .firing id rule seen ∈ events →
    RuleFamily.fire setting rule seen = RuleFamily.fire setting rule view

theorem brings_le {view : View} (hothers : ActsLike setting view others)
    (hevents : ActsLike setting view events)
    (hcommands : (commands others : Multiset (Command ρ)) ≤ commands events)
    (hfired : (firedRules others : Multiset ρ) ≤ firedRules events) :
    ((others.flatMap (Event.attempts setting) : List Attempt) : Multiset Attempt) ≤
        events.flatMap (Event.attempts setting) ∧
      ((others.flatMap (Event.findings setting) : List Finding) : Multiset Finding) ≤
        events.flatMap (Event.findings setting) ∧
      ((others.flatMap (Event.rules setting) : List ρ) : Multiset ρ) ≤
        events.flatMap (Event.rules setting) := by
  refine ⟨?_, ?_, ?_⟩
  · refine flatMap_le _ view ?_ ?_ hcommands hfired
    · intro id rule seen h
      exact congrArg (Effect.attempts rule) (hothers id rule seen h)
    · intro id rule seen h
      exact congrArg (Effect.attempts rule) (hevents id rule seen h)
  · refine flatMap_le _ view ?_ ?_ hcommands hfired
    · intro id rule seen h
      exact congrArg Effect.findings (hothers id rule seen h)
    · intro id rule seen h
      exact congrArg Effect.findings (hevents id rule seen h)
  · refine flatMap_le _ view ?_ ?_ hcommands hfired
    · intro id rule seen h
      exact congrArg Effect.spawned (hothers id rule seen h)
    · intro id rule seen h
      exact congrArg Effect.spawned (hevents id rule seen h)

/-- What fires in a history fires, as often and to the same effect, in a complete one without
conflicts that was told at least as much. -/
theorem firedRules_le (one : History setting events engine) (hdone : engine.ready = [])
    (clean : engine.conflicts = [])
    (hreads : ∀ rule, .add rule ∈ commands events → ReadsInputs setting rule)
    (h : History setting others other)
    (hcommands : (commands others : Multiset (Command ρ)) ≤ commands events) :
    (firedRules others : Multiset ρ) ≤ firedRules events ∧
      ActsLike setting engine.view others := by
  classical
  induction h with
  | new => exact ⟨Multiset.zero_le _, fun _ _ _ h => by cases h⟩
  | @obey others other command h ih =>
    have hold : (commands others : Multiset (Command ρ)) ≤ commands events := by
      rw [commands_append_command, ← Multiset.coe_add] at hcommands
      exact le_trans (Multiset.le_add_right _ _) hcommands
    obtain ⟨hfired, hacts⟩ := ih hold
    refine ⟨?_, ?_⟩
    · rw [firedRules_append_command]
      exact hfired
    · intro id rule seen hfiring
      rcases List.mem_append.mp hfiring with hfiring | hfiring
      · exact hacts id rule seen hfiring
      · cases List.mem_singleton.mp hfiring
  | @fire others other id h hready ih =>
    obtain ⟨slot, hslot, hexecutes, hinputs⟩ := h.executes_of_ready hready
    rw [hexecutes, commands_append_firing] at hcommands
    rw [hexecutes]
    obtain ⟨hfired, hacts⟩ := ih hcommands
    obtain ⟨hattempts, _, hrules⟩ :=
      brings_le hacts (fun _ _ _ hfiring => one.fire_of_firing hreads hfiring) hcommands hfired
    have hview := (h.view_of_attempts_le one clean hattempts).2
    have hset : ∀ cell ∈ RuleFamily.inputs slot.rule, (engine.view cell).isSome := by
      intro cell hcell
      obtain ⟨value, hvalue⟩ := Option.isSome_iff_exists.mp (hinputs cell hcell)
      rw [hview cell value hvalue]
      rfl
    refine ⟨?_, ?_⟩
    · rw [firedRules_append_firing, Multiset.le_iff_count]
      intro rule
      have hcount : (firedRules others).count rule ≤ (firedRules events).count rule := by
        simpa using Multiset.le_iff_count.mp hfired rule
      simp only [Multiset.coe_count, List.count_append]
      by_cases heq : slot.rule = rule
      · subst heq
        -- the rule is registered once more than it fired, there no more often than it fired here
        have hlt := h.countP_firedRules_lt hslot (· == slot.rule) (by simp)
        have hregistered : other.rules.count slot.rule ≤ engine.rules.count slot.rule := by
          rw [h.records.rules, one.records.rules]
          simpa using Multiset.le_iff_count.mp hrules slot.rule
        have hall := one.countP_rules_le hdone (· == slot.rule) (by
          intro rule hrule
          rw [eq_of_beq hrule]
          exact hset)
        simp only [← List.count_eq_countP] at hlt hall
        rw [List.count_singleton_self]
        omega
      · rw [List.count_singleton, beq_eq_false_iff_ne.mpr heq]
        exact hcount
    · intro k rule seen hfiring
      rcases List.mem_append.mp hfiring with hfiring | hfiring
      · exact hacts k rule seen hfiring
      · cases List.mem_singleton.mp hfiring
        have hmem : slot.rule ∈ other.rules := mem_rules.mpr ⟨id, slot, hslot.1, rfl⟩
        obtain ⟨root, hroot, hdescends⟩ := h.descends hmem
        have hroot' : .add root ∈ commands events :=
          Multiset.mem_coe.mp (Multiset.mem_of_le hcommands hroot)
        apply hreads root hroot' slot.rule hdescends
        intro cell hcell
        obtain ⟨value, hvalue⟩ := Option.isSome_iff_exists.mp (hinputs cell hcell)
        rw [hvalue, hview cell value hvalue]

/-- A history of at most the commands of a complete one without conflicts comes to an end. -/
theorem acc_fires (one : History setting events engine) (hdone : engine.ready = [])
    (clean : engine.conflicts = [])
    (hreads : ∀ rule, .add rule ∈ commands events → ReadsInputs setting rule)
    (h : History setting others other)
    (hcommands : (commands others : Multiset (Command ρ)) ≤ commands events) :
    Acc (Engine.Fires setting) other := by
  -- induction on the number of firings that the complete history is ahead
  obtain ⟨n, hn⟩ : ∃ n, (firedRules events).length - (firedRules others).length = n := ⟨_, rfl⟩
  induction n using Nat.strongRecOn generalizing others other with
  | ind n ih =>
    refine ⟨_, ?_⟩
    intro next ⟨id, hready, hnext⟩
    obtain ⟨slot, _, hexecutes, _⟩ := h.executes_of_ready hready
    have hlater := h.fire hready
    rw [hexecutes] at hlater
    have hcommands' : (commands (others ++ [.firing id slot.rule other.view]) :
        Multiset (Command ρ)) ≤ commands events := by
      rw [commands_append_firing]
      exact hcommands
    have hcard := Multiset.card_le_card
      (firedRules_le one hdone clean hreads hlater hcommands').1
    simp only [Multiset.coe_card, firedRules_append_firing, List.length_append,
      List.length_singleton] at hcard
    rw [hnext]
    refine ih _ ?_ hlater hcommands' rfl
    rw [firedRules_append_firing, List.length_append, List.length_singleton]
    omega

/-- Two complete histories of the same commands, one of them without conflicts, agree. -/
theorem agrees (one : History setting events engine) (hdone : engine.ready = [])
    (clean : engine.conflicts = [])
    (hreads : ∀ rule, .add rule ∈ commands events → ReadsInputs setting rule)
    (h : History setting others other) (hcommands : (commands others).Perm (commands events))
    (hdone' : other.ready = []) : engine.Agrees other := by
  have hle : (commands others : Multiset (Command ρ)) ≤ commands events :=
    (Multiset.coe_eq_coe.mpr hcommands).le
  have hge : (commands events : Multiset (Command ρ)) ≤ commands others :=
    (Multiset.coe_eq_coe.mpr hcommands).ge
  have hacts : ActsLike setting engine.view events :=
    fun _ _ _ hfiring => one.fire_of_firing hreads hfiring
  obtain ⟨hfired, hacts'⟩ := firedRules_le one hdone clean hreads h hle
  obtain ⟨hattempts, hfindings, hrules⟩ := brings_le hacts' hacts hle hfired
  obtain ⟨clean', hview⟩ := h.view_of_attempts_le one clean hattempts
  have hreads' : ∀ rule, .add rule ∈ commands others → ReadsInputs setting rule :=
    fun rule hrule => hreads rule (hcommands.mem_iff.mp hrule)
  have hfired' := (firedRules_le h hdone' clean' hreads' one hge).1
  obtain ⟨hattempts', hfindings', hrules'⟩ := brings_le hacts hacts' hge hfired'
  have hview' := (one.view_of_attempts_le h clean' hattempts').2
  have hlength : other.fixpoint.fired = engine.fixpoint.fired := by
    change other.fired.length = engine.fired.length
    rw [h.records.fired, one.records.fired, ← length_firedRules, ← length_firedRules]
    exact congrArg Multiset.card (le_antisymm hfired hfired')
  refine ⟨?_, clean'.trans clean.symm, ?_, hlength, ?_⟩
  · funext cell
    cases hcell : engine.view cell with
    | some value => exact hview' cell value hcell
    | none =>
      cases hcell' : other.view cell with
      | none => rfl
      | some value => rw [hview cell value hcell'] at hcell; cases hcell
  · rw [h.records.findings, one.records.findings]
    exact Multiset.coe_eq_coe.mp (le_antisymm hfindings hfindings')
  · have hsize : other.rules.length = engine.rules.length := by
      rw [h.records.rules, one.records.rules]
      exact congrArg Multiset.card (le_antisymm hrules hrules')
    have htotal := h.fired_add_stalled
    have htotal' := one.fired_add_stalled
    omega

theorem returns_of_acc (hacc : Acc (Engine.Fires setting) engine) :
    ∃ final, engine.Returns setting final := by
  induction hacc with
  | intro engine _ ih =>
    cases hready : engine.ready with
    | nil => exact ⟨engine, 0, rfl, hready⟩
    | cons id rest =>
      obtain ⟨final, n, hfinal, hdone⟩ := ih _ ⟨id, hready ▸ List.mem_cons_self, rfl⟩
      refine ⟨final, n + 1, ?_, hdone⟩
      rw [Engine.drain, step_eq, hready]
      exact hfinal

end History

namespace Performs

open Engine Event

variable {setting : σ} {events : List (Event ρ)} {engine next final : Engine ρ}
  {calls more : List (Call ρ)}

theorem exists_final (issued : List (Command ρ))
    (hacc : ∀ events (engine : Engine ρ), History setting events engine →
      (commands events).Subperm issued → Acc (Engine.Fires setting) engine)
    (calls : List (Call ρ)) (h : History setting events engine)
    (hcommands : (commands events ++ calls.filterMap Call.command?).Subperm issued) :
    ∃ final, Performs setting engine calls final := by
  induction calls generalizing events engine with
  | nil => exact ⟨engine, .nil engine⟩
  | cons call calls ih =>
    cases call with
    | tell command =>
      obtain ⟨final, hfinal⟩ := ih (h.obey command) (by
        rw [commands_append_command, List.append_assoc]
        exact hcommands)
      exact ⟨final, .tell command hfinal⟩
    | run =>
      have hprefix : (commands events).Subperm issued :=
        (List.sublist_append_left _ _).subperm.trans hcommands
      obtain ⟨next, hnext⟩ := History.returns_of_acc (hacc events engine h hprefix)
      obtain ⟨n, rfl, _⟩ := id hnext
      obtain ⟨later, hlater, hnone⟩ := h.drain n
      obtain ⟨final, hfinal⟩ := ih hlater (by
        rw [commands, List.filterMap_append, hnone, List.append_nil]
        exact hcommands)
      exact ⟨final, .run hnext hfinal⟩

theorem ready_of_run (h : Performs setting engine (calls ++ [.run]) final) : final.ready = [] := by
  obtain ⟨more, hmore⟩ : ∃ more, calls ++ [.run] = more := ⟨_, rfl⟩
  rw [hmore] at h
  induction h generalizing calls with
  | nil _ => simp at hmore
  | tell command _ ih =>
    cases calls with
    | nil => cases hmore
    | cons call calls => exact ih (List.cons.inj hmore).2
  | run hreturns hrest ih =>
    cases calls with
    | nil =>
      cases (List.cons.inj hmore).2
      cases hrest
      exact hreturns.choose_spec.2
    | cons call calls => exact ih (List.cons.inj hmore).2

end Performs

open Event in
/-- Take commands whose rules read nothing but their inputs. If one way to issue them, with ready
rules having their turns in between and until none is left, ends without conflicts, then no way to
issue them goes on forever, none brings a conflict, and all that are complete end alike; so do all
ways to make calls of them in some order with runs in between and a run at the end. -/
theorem schedules_agree {setting : σ} {events : List (Event ρ)} {engine : Engine ρ}
    (one : History setting events engine) (hdone : engine.ready = [])
    (clean : engine.conflicts = [])
    (hreads : ∀ rule, .add rule ∈ commands events → ReadsInputs setting rule) :
    (∀ others other, History setting others other →
      (commands others).Subperm (commands events) →
        Acc (Engine.Fires setting) other ∧ other.conflicts = []) ∧
    (∀ others other, History setting others other → (commands others).Perm (commands events) →
      other.ready = [] → engine.Agrees other) ∧
    (∀ calls, (calls.filterMap Call.command?).Perm (commands events) →
      (∃ final, Performs setting {} (calls ++ [.run]) final) ∧
        ∀ final, Performs setting {} (calls ++ [.run]) final → engine.Agrees final) := by
  have hbounded : ∀ others other, History setting others other →
      (commands others).Subperm (commands events) → Acc (Engine.Fires setting) other :=
    fun others other h hsub => one.acc_fires hdone clean hreads h hsub
  have hcomplete : ∀ others other, History setting others other →
      (commands others).Perm (commands events) → other.ready = [] → engine.Agrees other :=
    fun others other h hperm hready => one.agrees hdone clean hreads h hperm hready
  refine ⟨?_, hcomplete, ?_⟩
  · intro others other h hsub
    refine ⟨hbounded others other h hsub, ?_⟩
    obtain ⟨hfired, hacts⟩ := one.firedRules_le hdone clean hreads h hsub
    have hle := History.brings_le hacts
      (fun _ _ _ hfiring => one.fire_of_firing hreads hfiring) hsub hfired
    exact (h.view_of_attempts_le one clean hle.1).1
  · intro calls hperm
    have hcalls : (calls ++ [Call.run]).filterMap Call.command? =
        calls.filterMap Call.command? :=
      List.filterMap_append.trans (List.append_nil _)
    refine ⟨?_, ?_⟩
    · apply Performs.exists_final (commands events) hbounded _ .new
      rw [hcalls]
      exact hperm.subperm
    · intro final h
      obtain ⟨later, hlater, hcommands⟩ := h.history .new
      apply hcomplete _ _ hlater _ h.ready_of_run
      rw [List.nil_append, Event.commands, hcommands, hcalls]
      exact hperm

private theorem readsInputs_copy (number : Nat) (label : String) (source target : Cell) :
    ReadsInputs number (Recipe.copy label source target) := by
  intro other hother
  have heq : other = .copy label source target := by
    induction hother with
    | self => rfl
    | spawn _ _ hchild ih =>
      rw [ih] at hchild
      cases hchild
  rw [heq]
  intro view view' hagree
  have hsource : view source = view' source := hagree source List.mem_cons_self
  change ({ writes := (view source).toList.map fun value => (0, value) } : Effect Recipe) =
    { writes := (view' source).toList.map fun value => (0, value) }
  rw [hsource]

/-- A copy and its source, told in either order. -/
theorem schedules_agree_copy :
    let rule : Recipe := .copy "copy" (.type 0) (.type 1)
    let source : Command Recipe := .set (.type 0) (.type .int)
    let engine := (((({} : Engine Recipe).obey source).obey (.add rule)).fireReady 0 0)
    let other := (((({} : Engine Recipe).obey (.add rule)).obey source).fireReady 0 0)
    engine.conflicts = [] ∧ engine.Agrees other ∧ other.fixpoint.fired = 1 := by
  intro rule source engine other
  have one : History (0 : Nat) _ engine :=
    .fire (.obey (.add rule) (.obey source .new)) List.mem_cons_self
  have two : History (0 : Nat) _ other :=
    .fire (.obey source (.obey (.add rule) .new)) List.mem_cons_self
  have hreads : ∀ added, .add added ∈ [source, .add rule] → ReadsInputs (0 : Nat) added := by
    intro added hadded
    have heq : added = rule := by simpa [source] using hadded
    rw [heq]
    exact readsInputs_copy 0 _ _ _
  have hagrees := (schedules_agree one rfl rfl hreads).2.1 _ other two
    (List.Perm.swap source (.add rule) []) rfl
  exact ⟨rfl, hagrees, rfl⟩

end Attribution
