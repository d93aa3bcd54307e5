import Attribution.Proofs.Engine.Sweep
import Attribution.Proofs.Strict.Cycle
/-!
# What the search for cycles finds

The loop meets the same cycles as the search along paths, and so it comes to an end. The cycles are
cycles among stalled rules, and there are none only if no stalled rule is blocked by itself.
-/
namespace Attribution
namespace Engine

open Relation (TransGen ReflTransGen)

variable {ρ σ : Type} [RuleFamily ρ σ] {engine : Engine ρ}

namespace Sweep

/-- The loop has met the same cycles as a search along paths, and is done with the same rules. -/
structure Agrees (sweep : Sweep) (search : Search) : Prop where
  done : ∀ id, sweep.marks id = some .done ↔ id ∈ search.done
  active : ∀ id, sweep.marks id = some .active ↔ id ∈ sweep.path
  cycles : sweep.cycles = search.cycles

/-- Without starting anywhere else, the loop comes to where it agrees with a search. -/
def Arrives (engine : Engine ρ) (sweep : Sweep) (stack : List Frame) (search : Search) : Prop :=
  ∃ final, Leads engine sweep final ∧ final.stack = stack ∧ final.starts = sweep.starts ∧
    final.Agrees search

variable {sweep : Sweep} {search : Search} {id next : RuleId} {below : List Frame}

theorem Agrees.enter (h : sweep.Agrees search) (hmark : sweep.marks id = none) :
    (sweep.enter engine id).Agrees search := by
  refine ⟨?_, fun other => active_enter (h.active other), h.cycles⟩
  intro other
  by_cases heq : other = id
  · rw [heq, marks_enter_self, ← h.done, hmark]
    simp
  · rw [marks_enter heq, h.done]

theorem Agrees.leave (h : sweep.Agrees search) {frame : Frame}
    (hstack : sweep.stack = frame :: below) (hnodup : sweep.path.Nodup) :
    (sweep.leave frame.id below).Agrees { search with done := frame.id :: search.done } := by
  refine ⟨?_, fun other => active_leave hstack hnodup (h.active other), h.cycles⟩
  intro other
  rw [List.mem_cons]
  by_cases heq : other = frame.id
  · simp [heq]
  · rw [marks_leave heq, h.done, or_iff_right heq]

theorem arrives_look (h : sweep.Agrees search) {go : RuleId → Search → Search}
    (hgo : sweep.marks next = none →
      (sweep.enter engine next).Arrives engine sweep.stack (go next search)) :
    (sweep.look engine next).Arrives engine sweep.stack (search.enter sweep.path go next) := by
  unfold look Search.enter
  cases hmark : sweep.marks next with
  | none =>
    have hdone : next ∉ search.done := (h.done next).not.mp (by simp [hmark])
    have hpath : next ∉ sweep.path := (h.active next).not.mp (by simp [hmark])
    rw [if_neg hdone, if_neg hpath]
    exact hgo hmark
  | some mark =>
    cases mark with
    | active =>
      have hdone : next ∉ search.done := (h.done next).not.mp (by simp [hmark])
      rw [if_neg hdone, if_pos ((h.active next).mp hmark)]
      refine ⟨_, .refl, rfl, rfl, h.done, h.active, ?_⟩
      exact congrArg (· ++ _) h.cycles
    | done =>
      rw [if_pos ((h.done next).mp hmark)]
      exact ⟨sweep, .refl, rfl, rfl, h⟩

theorem Arrives.head {step : Sweep} {stack : List Frame} (hstep : sweep.step engine = some step)
    (hstarts : step.starts = sweep.starts) (h : step.Arrives engine stack search) :
    sweep.Arrives engine stack search := by
  obtain ⟨final, hleads, hstack, hfinal, hagrees⟩ := h
  exact ⟨final, .head hstep hleads, hstack, hfinal.trans hstarts, hagrees⟩

theorem arrives_foldl {path : List RuleId} {go : RuleId → Search → Search}
    {blockers nexts : List RuleId} {cursor : Nat}
    (hnodup : path.Nodup) (hpath : path = (below.map Frame.id).reverse ++ [id])
    (hgo : ∀ (current : Sweep) (search : Search) (next : RuleId), next ∈ blockers →
      current.path = path → current.Agrees search → current.marks next = none →
      (current.enter engine next).Arrives engine current.stack (go next search))
    (hstack : sweep.stack = { id, blockers, cursor } :: below)
    (hnexts : blockers.drop cursor = nexts) (h : sweep.Agrees search) :
    let followed := nexts.foldl (fun search next => search.enter path go next) search
    sweep.Arrives engine below { followed with done := id :: followed.done } := by
  induction nexts generalizing cursor sweep search with
  | nil =>
    have hover : blockers[cursor]? = none := by
      rw [List.getElem?_eq_none_iff, ← List.drop_eq_nil_iff]
      exact hnexts
    have hstep : sweep.step engine = some (sweep.leave id below) := by
      simp only [step, hstack, hover]
    refine ⟨sweep.leave id below, .single hstep, rfl, rfl, ?_⟩
    exact h.leave hstack (by rw [path_cons hstack, ← hpath]; exact hnodup)
  | cons next rest ih =>
    have hnext : blockers[cursor]? = some next := by
      rw [← List.head?_drop, hnexts]
      rfl
    have hrest : blockers.drop (cursor + 1) = rest := by
      rw [← List.tail_drop, hnexts]
      rfl
    let frame : Frame := { id, blockers, cursor }
    have hstep : sweep.step engine = some ((sweep.move frame below).look engine next) := by
      simp only [step, hstack, hnext]
      rfl
    have hmoved : (sweep.move frame below).path = path := by
      rw [path_move hstack, path_cons hstack, ← hpath]
    have hagrees : (sweep.move frame below).Agrees search :=
      ⟨h.done, fun other => by rw [path_move hstack]; exact h.active other, h.cycles⟩
    obtain ⟨middle, hleads, hstack', hstarts, hfollowed⟩ :=
      arrives_look hagrees fun hmark =>
        hgo _ search next (List.mem_of_getElem? hnext) hmoved hagrees hmark
    rw [hmoved] at hfollowed
    obtain ⟨final, hfinal, hend⟩ := ih hstack' hrest hfollowed
    refine Arrives.head hstep starts_look ⟨final, hleads.trans hfinal, ?_⟩
    exact ⟨hend.1, hend.2.1.trans hstarts, hend.2.2⟩

theorem arrives_explore {n : Nat} (h : sweep.Agrees search) (hmark : sweep.marks id = none)
    (hnodup : (sweep.path ++ [id]).Nodup)
    (hpath : ∀ rule ∈ sweep.path ++ [id], rule < engine.slots.size)
    (hn : engine.slots.size ≤ sweep.path.length + n) :
    (sweep.enter engine id).Arrives engine sweep.stack
      (engine.explore n sweep.path id search) := by
  induction n generalizing sweep id search with
  | zero =>
    have hlt := Strict.length_lt_of_path hnodup hpath
    omega
  | succ n ih =>
    apply arrives_foldl hnodup rfl ?_ rfl (List.drop_zero) (h.enter hmark)
    intro current search next hnext hcurrent hagrees hnew
    rw [← hcurrent]
    have hlonger : current.path.length = sweep.path.length + 1 := by
      rw [hcurrent, List.length_append, List.length_singleton]
    refine ih hagrees hnew ?_ ?_ (by omega)
    · rw [← List.concat_eq_append]
      refine (hcurrent ▸ hnodup).concat ?_
      rw [← hagrees.active, hnew]
      exact fun heq => nomatch heq
    · intro rule hrule
      rcases List.mem_append.mp hrule with hold | hlast
      · exact hpath rule (hcurrent ▸ hold)
      · exact List.mem_singleton.mp hlast ▸ Strict.lt_of_blockers hnext

theorem Agrees.marks_eq_none (h : sweep.Agrees search) (hstack : sweep.stack = []) :
    sweep.marks id = none ↔ id ∉ search.done := by
  have hpath : id ∉ sweep.path := by
    rw [path, hstack]
    exact List.not_mem_nil
  rw [← h.done]
  cases hmark : sweep.marks id with
  | none => simp
  | some mark =>
    cases mark with
    | active => exact absurd ((h.active id).mp hmark) hpath
    | done => simp

theorem arrives_start (h : sweep.Agrees search) (hstack : sweep.stack = [])
    (hid : id < engine.slots.size) :
    (sweep.start engine id).Arrives engine [] (engine.start search id) := by
  have hpath : sweep.path = [] := by
    rw [path, hstack]
    rfl
  unfold start Engine.start
  simp only [h.marks_eq_none hstack]
  split
  next hstart =>
    have hexplore := arrives_explore (n := engine.slots.size) h
      ((h.marks_eq_none hstack).mpr hstart.2) (by rw [hpath]; exact List.nodup_singleton id)
      (by rw [hpath]; exact List.forall_mem_singleton.mpr hid) (Nat.le_add_left _ _)
    rwa [hstack, hpath] at hexplore
  next => exact ⟨sweep, .refl, hstack, rfl, h⟩

theorem exists_halted_of_agrees {ids : List RuleId} (h : sweep.Agrees search)
    (hstack : sweep.stack = []) (hstarts : sweep.starts = ids)
    (hids : ∀ id ∈ ids, id < engine.slots.size) :
    ∃ final, Leads engine sweep final ∧ final.step engine = none ∧
      final.Agrees (ids.foldl engine.start search) := by
  induction ids generalizing sweep search with
  | nil =>
    refine ⟨sweep, .refl, ?_, h⟩
    simp only [step, hstack, hstarts]
  | cons id rest ih =>
    obtain ⟨hid, hrest⟩ := List.forall_mem_cons.mp hids
    have hstep : sweep.step engine = some (start engine { sweep with starts := rest } id) := by
      simp only [step, hstack, hstarts]
    have hagrees : ({ sweep with starts := rest } : Sweep).Agrees search :=
      ⟨h.done, h.active, h.cycles⟩
    obtain ⟨middle, hleads, hempty, hmiddle, hfollowed⟩ := arrives_start hagrees hstack hid
    have hwaits : middle.starts = rest := by
      rw [hmiddle]
      unfold start
      split <;> rfl
    obtain ⟨final, hfinal, hend⟩ := ih hfollowed hempty hwaits hrest
    exact ⟨final, .head hstep (hleads.trans hfinal), hend⟩

end Sweep

/-- The loop comes to an end, with the cycles that the search meets. -/
theorem exists_halted (engine : Engine ρ) : ∃ final, Sweep.Leads engine engine.sweep final ∧
    final.step engine = none ∧ final.cycles = engine.cycles := by
  have hagrees : engine.sweep.Agrees {} := ⟨by simp [sweep], by simp [sweep, Sweep.path], rfl⟩
  obtain ⟨final, hleads, hover, hend⟩ :=
    Sweep.exists_halted_of_agrees hagrees rfl rfl fun _ => List.mem_range.mp
  exact ⟨final, hleads, hover, hend.cycles⟩

theorem map_some_labels {ids : List RuleId} (h : ∀ id ∈ ids, engine.Stalls id) :
    (ids.filterMap engine.labelOf?).map some = ids.map engine.labelOf? := by
  induction ids with
  | nil => rfl
  | cons id rest ih =>
    obtain ⟨⟨slot, hslot, _⟩, hrest⟩ := List.forall_mem_cons.mp h
    have hlabel : engine.labelOf? id = some (RuleFamily.label slot.rule) := by
      rw [labelOf?, hslot, Option.map_some]
    rw [List.filterMap_cons_some hlabel, List.map_cons, List.map_cons, ih hrest, hlabel]

/-- Whatever the engine, the search for cycles comes to an end, and what it has met is reported.
There is nothing to report just if no stalled rule is blocked by itself, be it through others, and
whatever is reported is a cycle of different stalled rules, each blocked by the next. -/
theorem cycles_exact (engine : Engine ρ) :
    (∃ final, Sweep.Leads engine engine.sweep final ∧ final.step engine = none ∧
      engine.fixpoint.cycles = final.cycles.map fun cycle => cycle.filterMap engine.labelOf?) ∧
    (engine.fixpoint.cycles = [] ↔ engine.Acyclic) ∧
    ∀ labels ∈ engine.fixpoint.cycles, ∃ cycle, engine.Closes cycle ∧
      labels.map some = cycle.map engine.labelOf? := by
  obtain ⟨final, hleads, hover, hcycles⟩ := exists_halted engine
  obtain ⟨hfollows, _⟩ := follows_of_leads hleads
  refine ⟨⟨final, hleads, hover, by rw [hcycles]; rfl⟩, ⟨?_, Acyclic.fixpoint_cycles⟩, ?_⟩
  · intro hnone
    apply acyclic_of_halted hleads hover
    rw [hcycles]
    exact List.map_eq_nil_iff.mp hnone
  · intro labels hlabels
    obtain ⟨cycle, hcycle, rfl⟩ := List.mem_map.mp hlabels
    have hcloses := hfollows.closes cycle (hcycles ▸ hcycle)
    exact ⟨cycle, hcloses, map_some_labels hcloses.stalls⟩

end Engine
end Attribution
