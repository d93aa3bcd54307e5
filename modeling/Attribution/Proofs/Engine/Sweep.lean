import Mathlib.Data.List.Chain
import Attribution.Proofs.Engine.Acyclic
/-!
# The search for cycles as a loop

The search keeps the rules on the way to where it is on a stack, each with its blockers and the
number of them that it has looked at. A rule is marked as active when the search comes to it, and as
done when all its blockers have been looked at. Whatever the graph, active rules are those on the
stack, so that a blocker that is active closes a cycle; and as long as no cycle has been met, from
rules that are done blockers lead to an end.
-/
namespace Attribution
namespace Engine

open Function (update)
open Relation (TransGen ReflTransGen)

inductive Mark where
  | active
  | done
deriving DecidableEq, Repr

/-- A rule that the search has come to. -/
structure Frame where
  id : RuleId
  blockers : List RuleId
  /-- The number of blockers that have been looked at. -/
  cursor : Nat := 0

/-- Where a search is. -/
structure Sweep where
  /-- The rules from which it has not started. -/
  starts : List RuleId
  marks : RuleId → Option Mark := fun _ => none
  cycles : List (List RuleId) := []
  /-- The rules on the way, the last one first. -/
  stack : List Frame := []

/-- A cycle among stalled rules: each is blocked by the next, and the last by the first. -/
structure Closes {ρ σ : Type} [RuleFamily ρ σ] (engine : Engine ρ) (cycle : List RuleId) :
    Prop where
  ne_nil : cycle ≠ []
  nodup : cycle.Nodup
  stalls : ∀ id ∈ cycle, engine.Stalls id
  chain : cycle.IsChain engine.Blocked
  closed : engine.Blocked (cycle.getLast ne_nil) (cycle.head ne_nil)

/-- From the rule blockers lead to an end, whichever are followed. -/
def Ends {ρ σ : Type} [RuleFamily ρ σ] (engine : Engine ρ) (id : RuleId) : Prop :=
  Acc (fun next id => engine.Blocked id next) id

namespace Sweep

variable {ρ σ : Type} [RuleFamily ρ σ]

def path (sweep : Sweep) : List RuleId := (sweep.stack.map Frame.id).reverse

/-- Go on to a rule. -/
def enter (engine : Engine ρ) (sweep : Sweep) (id : RuleId) : Sweep :=
  { sweep with
    marks := update sweep.marks id (some .active)
    stack := { id, blockers := engine.blockers id } :: sweep.stack }

/-- Leave a rule for those below it on the stack. -/
def leave (sweep : Sweep) (id : RuleId) (below : List Frame) : Sweep :=
  { sweep with marks := update sweep.marks id (some .done), stack := below }

/-- Move on to the next blocker of the last rule on the way. -/
def move (sweep : Sweep) (frame : Frame) (below : List Frame) : Sweep :=
  { sweep with stack := { frame with cursor := frame.cursor + 1 } :: below }

/-- Look at a blocker of the last rule on the way. -/
def look (engine : Engine ρ) (sweep : Sweep) (next : RuleId) : Sweep :=
  match sweep.marks next with
  | none => sweep.enter engine next
  | some .active =>
    { sweep with cycles := sweep.cycles ++ [sweep.path.drop (sweep.path.idxOf next)] }
  | some .done => sweep

/-- Start at a rule that has not fired, unless the search has come to it before. -/
def start (engine : Engine ρ) (sweep : Sweep) (id : RuleId) : Sweep :=
  if (engine.slots[id]?.any fun slot => !slot.fired) ∧ sweep.marks id = none then
    sweep.enter engine id
  else sweep

/-- One round of the loop, unless it is over. -/
def step (engine : Engine ρ) (sweep : Sweep) : Option Sweep :=
  match sweep.stack with
  | [] =>
    match sweep.starts with
    | [] => none
    | id :: rest => some (start engine { sweep with starts := rest } id)
  | frame :: below =>
    match frame.blockers[frame.cursor]? with
    | none => some (sweep.leave frame.id below)
    | some next => some ((sweep.move frame below).look engine next)

/-- The loop comes from one state to another. -/
def Leads (engine : Engine ρ) : Sweep → Sweep → Prop :=
  ReflTransGen fun sweep next => sweep.step engine = some next

/-- The blockers that were looked at are done, but for the one to which each rule on the stack
leads; the last rule leads above. -/
def Looked (marks : RuleId → Option Mark) : List Frame → Option RuleId → Prop
  | [], _ => True
  | frame :: below, above =>
    (∀ next ∈ frame.blockers.take frame.cursor, marks next = some .done ∨ above = some next) ∧
      Looked marks below (some frame.id)

theorem Looked.mono {marks other : RuleId → Option Mark} {stack : List Frame}
    {above : Option RuleId} (h : Looked marks stack above)
    (hkeeps : ∀ id, marks id = some .done → other id = some .done) : Looked other stack above := by
  induction stack generalizing above with
  | nil => trivial
  | cons frame below ih =>
    obtain ⟨hframe, hbelow⟩ := h
    refine ⟨?_, ih hbelow⟩
    intro next hnext
    exact (hframe next hnext).imp_left (hkeeps next)

theorem Looked.of_done {marks : RuleId → Option Mark} {stack : List Frame} {id : RuleId}
    (h : Looked marks stack (some id)) (hdone : marks id = some .done) :
    Looked marks stack none := by
  cases stack with
  | nil => trivial
  | cons frame below =>
    obtain ⟨hframe, hbelow⟩ := h
    refine ⟨?_, hbelow⟩
    intro next hnext
    rcases hframe next hnext with hfollowed | heq
    · exact .inl hfollowed
    · cases heq
      exact .inl hdone

/-- What holds of the search at all times. -/
structure Follows (engine : Engine ρ) (sweep : Sweep) (above : Option RuleId) : Prop where
  nodup : sweep.path.Nodup
  stalls : ∀ id ∈ sweep.path, engine.Stalls id
  chain : sweep.path.IsChain engine.Blocked
  blockers : ∀ frame ∈ sweep.stack, frame.blockers = engine.blockers frame.id
  active : ∀ id, sweep.marks id = some .active ↔ id ∈ sweep.path
  closes : ∀ cycle ∈ sweep.cycles, engine.Closes cycle
  ends : sweep.cycles = [] → ∀ id, sweep.marks id = some .done → engine.Ends id
  looked : sweep.cycles = [] → Looked sweep.marks sweep.stack above

/-- The search has come to all stalled rules but those from which it is still to start. -/
def Covers (engine : Engine ρ) (sweep : Sweep) : Prop :=
  ∀ id, engine.Stalls id → id ∈ sweep.starts ∨ sweep.marks id ≠ none

variable {engine : Engine ρ} {sweep : Sweep} {id other : RuleId} {below : List Frame}

theorem path_cons {frame : Frame} (h : sweep.stack = frame :: below) :
    sweep.path = (below.map Frame.id).reverse ++ [frame.id] := by
  rw [path, h, List.map_cons, List.reverse_cons]

@[simp] theorem path_enter : (sweep.enter engine id).path = sweep.path ++ [id] := by
  have hstack : (sweep.enter engine id).stack =
      { id, blockers := engine.blockers id } :: sweep.stack := rfl
  exact path_cons hstack

@[simp] theorem marks_enter_self : (sweep.enter engine id).marks id = some .active :=
  Function.update_self _ _ _

theorem marks_enter (h : other ≠ id) : (sweep.enter engine id).marks other = sweep.marks other :=
  Function.update_of_ne h _ _

@[simp] theorem path_leave : (sweep.leave id below).path = (below.map Frame.id).reverse := rfl

@[simp] theorem marks_leave_self : (sweep.leave id below).marks id = some .done :=
  Function.update_self _ _ _

theorem marks_leave (h : other ≠ id) : (sweep.leave id below).marks other = sweep.marks other :=
  Function.update_of_ne h _ _

theorem active_enter (h : sweep.marks other = some .active ↔ other ∈ sweep.path) :
    (sweep.enter engine id).marks other = some .active ↔
      other ∈ (sweep.enter engine id).path := by
  rw [path_enter, List.mem_append, List.mem_singleton]
  by_cases heq : other = id
  · simp [heq]
  · rw [marks_enter heq, h, or_iff_left heq]

theorem active_leave {frame : Frame} (hstack : sweep.stack = frame :: below)
    (hnodup : sweep.path.Nodup) (h : sweep.marks other = some .active ↔ other ∈ sweep.path) :
    (sweep.leave frame.id below).marks other = some .active ↔
      other ∈ (sweep.leave frame.id below).path := by
  rw [path_cons hstack] at h hnodup
  rw [path_leave]
  by_cases heq : other = frame.id
  · rw [heq, marks_leave_self]
    refine ⟨fun hactive => (by cases hactive), fun hmem => ?_⟩
    exact absurd rfl ((List.nodup_append.mp hnodup).2.2 _ hmem _ List.mem_cons_self)
  · rw [marks_leave heq, h, List.mem_append, List.mem_singleton, or_iff_left heq]

theorem Follows.enter (h : sweep.Follows engine (some id)) (hid : engine.Stalls id)
    (hmark : sweep.marks id = none) (hlast : ∀ last ∈ sweep.path.getLast?, engine.Blocked last id) :
    (sweep.enter engine id).Follows engine none := by
  have hnew : id ∉ sweep.path := by
    intro hmem
    rw [(h.active id).mpr hmem] at hmark
    cases hmark
  have hne : ∀ other, sweep.marks other = some .done → other ≠ id := by
    rintro other hother rfl
    rw [hmark] at hother
    cases hother
  refine ⟨?_, ?_, ?_, ?_, fun other => active_enter (h.active other), h.closes, ?_, ?_⟩
  · rw [path_enter, ← List.concat_eq_append]
    exact h.nodup.concat hnew
  · intro other hother
    rw [path_enter] at hother
    rcases List.mem_append.mp hother with hold | hlast
    · exact h.stalls other hold
    · exact List.mem_singleton.mp hlast ▸ hid
  · rw [path_enter, List.isChain_append]
    refine ⟨h.chain, List.isChain_singleton id, ?_⟩
    intro last hmem first hfirst
    cases hfirst
    exact hlast last hmem
  · intro frame hframe
    rcases List.mem_cons.mp hframe with rfl | hold
    · rfl
    · exact h.blockers frame hold
  · intro hnone other hother
    by_cases heq : other = id
    · rw [heq, marks_enter_self] at hother
      cases hother
    · rw [marks_enter heq] at hother
      exact h.ends hnone other hother
  · intro hnone
    refine ⟨fun _ hmem => ?_, (h.looked hnone).mono fun other hother => ?_⟩
    · rw [List.take_zero] at hmem
      cases hmem
    · rw [marks_enter (hne other hother)]
      exact hother

theorem Follows.leave (h : sweep.Follows engine none) {frame : Frame}
    (hstack : sweep.stack = frame :: below) (hover : frame.blockers[frame.cursor]? = none) :
    (sweep.leave frame.id below).Follows engine none := by
  have hpath := path_cons hstack
  have hnodup := h.nodup
  rw [hpath, List.nodup_append] at hnodup
  have hstalls : engine.Stalls frame.id := by
    apply h.stalls
    rw [hpath]
    exact List.mem_append_right _ List.mem_cons_self
  -- all blockers of the rule were looked at, and none of them is still on the stack
  have hends : sweep.cycles = [] → engine.Ends frame.id := by
    intro hnone
    have hlooked := h.looked hnone
    rw [hstack] at hlooked
    constructor
    intro next hnext
    have hmem : next ∈ frame.blockers.take frame.cursor := by
      rw [List.take_of_length_le (List.getElem?_eq_none_iff.mp hover),
        h.blockers frame (hstack ▸ List.mem_cons_self), mem_blockers hstalls]
      exact hnext
    rcases hlooked.1 next hmem with hdone | habove
    · exact h.ends hnone next hdone
    · cases habove
  refine ⟨hnodup.1, ?_, ?_, ?_, fun id => active_leave hstack h.nodup (h.active id), h.closes,
    ?_, ?_⟩
  · intro id hid
    apply h.stalls
    rw [hpath]
    exact List.mem_append_left _ hid
  · have hchain := h.chain
    rw [hpath, List.isChain_append] at hchain
    exact hchain.1
  · intro other hother
    apply h.blockers
    rw [hstack]
    exact List.mem_cons_of_mem _ hother
  · intro hnone id hid
    by_cases heq : id = frame.id
    · rw [heq]
      exact hends hnone
    · rw [marks_leave heq] at hid
      exact h.ends hnone id hid
  · intro hnone
    have hlooked := h.looked hnone
    rw [hstack] at hlooked
    refine (hlooked.2.mono fun id hid => ?_).of_done marks_leave_self
    by_cases heq : id = frame.id
    · rw [heq, marks_leave_self]
    · rw [marks_leave heq]
      exact hid

theorem Follows.closes_drop {above : Option RuleId} (h : sweep.Follows engine above) {last : RuleId}
    (hlast : last ∈ sweep.path.getLast?) (hblocked : engine.Blocked last id)
    (hmem : id ∈ sweep.path) : engine.Closes (sweep.path.drop (sweep.path.idxOf id)) := by
  have hlt := List.idxOf_lt_length_iff.mpr hmem
  have hne : sweep.path.drop (sweep.path.idxOf id) ≠ [] := by
    rw [Ne, List.drop_eq_nil_iff]
    omega
  refine ⟨hne, (List.drop_sublist _ _).nodup h.nodup,
    fun _ hid => h.stalls _ (List.mem_of_mem_drop hid), h.chain.drop _, ?_⟩
  have hhead : (sweep.path.drop (sweep.path.idxOf id)).head hne = id := by
    rw [List.head_drop, List.getElem_idxOf]
  have hend : (sweep.path.drop (sweep.path.idxOf id)).getLast hne = last := by
    rw [List.getLast_drop]
    exact List.getLast_of_mem_getLast? hlast
  rw [hhead, hend]
  exact hblocked

theorem path_move {frame : Frame} (hstack : sweep.stack = frame :: below) :
    (sweep.move frame below).path = sweep.path := by
  rw [path_cons hstack, path, move, List.map_cons, List.reverse_cons]

theorem Follows.move (h : sweep.Follows engine none) {frame : Frame} {next : RuleId}
    (hstack : sweep.stack = frame :: below) (hnext : frame.blockers[frame.cursor]? = some next) :
    (sweep.move frame below).Follows engine (some next) := by
  have hpath := path_move hstack
  refine ⟨hpath ▸ h.nodup, hpath ▸ h.stalls, hpath ▸ h.chain, ?_, hpath ▸ h.active, h.closes,
    h.ends, ?_⟩
  · intro other hother
    have hframes := h.blockers
    rw [hstack] at hframes
    rcases List.mem_cons.mp hother with rfl | hold
    · exact hframes frame List.mem_cons_self
    · exact hframes other (List.mem_cons_of_mem _ hold)
  · intro hnone
    have hlooked := h.looked hnone
    rw [hstack] at hlooked
    refine ⟨?_, hlooked.2⟩
    intro other hother
    rw [List.take_add_one, hnext] at hother
    rcases List.mem_append.mp hother with hold | hnew
    · rcases hlooked.1 other hold with hdone | habove
      · exact .inl hdone
      · cases habove
    · exact .inr (congrArg some (List.mem_singleton.mp hnew).symm)

theorem Follows.look (h : sweep.Follows engine (some id)) {last : RuleId}
    (hlast : sweep.path.getLast? = some last) (hblocked : engine.Blocked last id) :
    (sweep.look engine id).Follows engine none := by
  unfold Sweep.look
  split
  next hmark =>
    apply h.enter hblocked.stalls hmark
    intro other hother
    rw [hlast] at hother
    cases hother
    exact hblocked
  next hmark =>
    have hcloses := h.closes_drop hlast hblocked ((h.active id).mp hmark)
    refine ⟨h.nodup, h.stalls, h.chain, h.blockers, h.active, ?_, ?_, ?_⟩
    · intro cycle hcycle
      rcases List.mem_append.mp hcycle with hold | hnew
      · exact h.closes cycle hold
      · exact List.mem_singleton.mp hnew ▸ hcloses
    · exact fun hnone => absurd hnone (List.append_ne_nil_of_right_ne_nil _ (List.cons_ne_nil _ _))
    · exact fun hnone => absurd hnone (List.append_ne_nil_of_right_ne_nil _ (List.cons_ne_nil _ _))
  next hmark =>
    exact ⟨h.nodup, h.stalls, h.chain, h.blockers, h.active, h.closes, h.ends,
      fun hnone => (h.looked hnone).of_done hmark⟩

theorem Follows.start (h : sweep.Follows engine none) (hstack : sweep.stack = []) (id : RuleId) :
    (sweep.start engine id).Follows engine none := by
  unfold Sweep.start
  split
  next hstart =>
    obtain ⟨slot, hslot, hopen⟩ := (Option.any_eq_true _ _).mp hstart.1
    have habove : sweep.Follows engine (some id) :=
      ⟨h.nodup, h.stalls, h.chain, h.blockers, h.active, h.closes, h.ends,
        fun _ => hstack ▸ trivial⟩
    refine habove.enter ⟨slot, hslot, (Bool.not_eq_true' _).mp hopen⟩ hstart.2 ?_
    intro last hlast
    rw [path, hstack] at hlast
    cases hlast
  next => exact h

theorem Follows.step (h : sweep.Follows engine none) {next : Sweep}
    (hstep : sweep.step engine = some next) : next.Follows engine none := by
  unfold Sweep.step at hstep
  split at hstep
  next hstack =>
    split at hstep
    next => cases hstep
    next id rest _ =>
      cases hstep
      have hrest : ({ sweep with starts := rest } : Sweep).Follows engine none :=
        ⟨h.nodup, h.stalls, h.chain, h.blockers, h.active, h.closes, h.ends, h.looked⟩
      exact hrest.start hstack id
  next frame below hstack =>
    split at hstep
    next hover =>
      cases hstep
      exact h.leave hstack hover
    next id hid =>
      cases hstep
      have hlast : sweep.path.getLast? = some frame.id := by
        rw [path_cons hstack, List.getLast?_concat]
      have hblocked : engine.Blocked frame.id id := by
        rw [← mem_blockers (h.stalls _ (List.mem_of_mem_getLast? hlast)),
          ← h.blockers frame (hstack ▸ List.mem_cons_self)]
        exact List.mem_of_getElem? hid
      exact (h.move hstack hid).look ((path_move hstack).symm ▸ hlast) hblocked

theorem marks_enter_ne_none (h : other ≠ id → sweep.marks other ≠ none) :
    (sweep.enter engine id).marks other ≠ none := by
  by_cases heq : other = id
  · rw [heq, marks_enter_self]
    exact Option.some_ne_none _
  · rw [marks_enter heq]
    exact h heq

theorem marks_leave_ne_none (h : sweep.marks other ≠ none) :
    (sweep.leave id below).marks other ≠ none := by
  by_cases heq : other = id
  · rw [heq, marks_leave_self]
    exact Option.some_ne_none _
  · rw [marks_leave heq]
    exact h

theorem marks_look_ne_none (h : sweep.marks other ≠ none) :
    (sweep.look engine id).marks other ≠ none := by
  unfold look
  split
  next => exact marks_enter_ne_none fun _ => h
  next => exact h
  next => exact h

theorem starts_look : (sweep.look engine id).starts = sweep.starts := by
  unfold look
  split <;> rfl

theorem covers_start (h : ∀ other, engine.Stalls other →
    other ∈ sweep.starts ∨ other = id ∨ sweep.marks other ≠ none) :
    (sweep.start engine id).Covers engine := by
  intro other hother
  unfold start
  split
  next =>
    rcases h other hother with hwaits | hmet
    · exact .inl hwaits
    · exact .inr (marks_enter_ne_none hmet.resolve_left)
  next hstart =>
    rcases h other hother with hwaits | rfl | hmark
    · exact .inl hwaits
    · refine .inr fun hmark => hstart ⟨?_, hmark⟩
      obtain ⟨slot, hslot, hopen⟩ := hother
      rw [hslot, Option.any_some, hopen]
      rfl
    · exact .inr hmark

theorem Covers.step (h : sweep.Covers engine) {next : Sweep}
    (hstep : sweep.step engine = some next) : next.Covers engine := by
  unfold Sweep.step at hstep
  split at hstep
  next =>
    split at hstep
    next => cases hstep
    next id rest hstarts =>
      cases hstep
      apply covers_start
      intro other hother
      rcases h other hother with hwaits | hmark
      · rw [hstarts] at hwaits
        exact (List.mem_cons.mp hwaits).elim (fun heq => .inr (.inl heq)) .inl
      · exact .inr (.inr hmark)
  next frame below _ =>
    split at hstep
    next =>
      cases hstep
      exact fun other hother => (h other hother).imp_right marks_leave_ne_none
    next id _ =>
      cases hstep
      intro other hother
      rw [starts_look]
      exact (h other hother).imp_right fun hmark => marks_look_ne_none hmark

end Sweep

variable {ρ σ : Type} [RuleFamily ρ σ] {engine : Engine ρ}

/-- The search for cycles before its first round. -/
def sweep (engine : Engine ρ) : Sweep := { starts := List.range engine.slots.size }

theorem follows_of_leads {final : Sweep} (h : Sweep.Leads engine engine.sweep final) :
    final.Follows engine none ∧ final.Covers engine := by
  induction h with
  | refl =>
    constructor
    · exact {
        nodup := List.nodup_nil
        stalls := fun _ h => nomatch h
        chain := List.isChain_nil
        blockers := fun _ h => nomatch h
        active := fun _ => ⟨(fun h => nomatch h), fun h => nomatch h⟩
        closes := fun _ h => nomatch h
        ends := fun _ _ h => nomatch h
        looked := fun _ => trivial }
    · intro id ⟨slot, hslot, _⟩
      exact .inl (List.mem_range.mpr (Array.getElem?_eq_some_iff.mp hslot).1)
  | tail _ hstep ih => exact ⟨ih.1.step hstep, ih.2.step hstep⟩

theorem acyclic_of_ends (h : ∀ id, engine.Stalls id → engine.Ends id) : engine.Acyclic := by
  have hwell : WellFounded fun next id => engine.Blocked id next := by
    constructor
    intro id
    by_cases hid : engine.Stalls id
    · exact h id hid
    · constructor
      intro next ⟨slot, _, _, hslot, hopen, _⟩
      exact absurd ⟨slot, hslot, hopen⟩ hid
  intro id hcycle
  exact hwell.transGen.irrefl.irrefl id (Relation.transGen_swap.mpr hcycle)

/-- A search that is over and has met no cycle has come to every stalled rule and left it. -/
theorem acyclic_of_halted {final : Sweep} (h : Sweep.Leads engine engine.sweep final)
    (hhalted : final.step engine = none) (hnone : final.cycles = []) : engine.Acyclic := by
  obtain ⟨hfollows, hcovers⟩ := follows_of_leads h
  unfold Sweep.step at hhalted
  split at hhalted
  next hstack =>
    split at hhalted
    next hstarts =>
      apply acyclic_of_ends
      intro id hid
      rcases hcovers id hid with hwaits | hmark
      · rw [hstarts] at hwaits
        cases hwaits
      · obtain ⟨mark, hmark⟩ := Option.ne_none_iff_exists'.mp hmark
        cases mark with
        | active =>
          have hmem := (hfollows.active id).mp hmark
          rw [Sweep.path, hstack] at hmem
          cases hmem
        | done => exact hfollows.ends hnone id hmark
    next => cases hhalted
  next =>
    split at hhalted
    · cases hhalted
    · cases hhalted

end Engine
end Attribution
