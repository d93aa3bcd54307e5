import Attribution.Proofs.Analysis.Flows
import Attribution.Proofs.Engine.WriteOnce
/-!
# Sorts of cells

Each attribute asks for values of one sort, and at no time does a cell hold a value of another one,
also where a rule moves what it does not look at from cell to cell. So a rule that fires finds in
each of its inputs what it takes the input for, and a call finds the types of all of its arguments,
each in its place.
-/
namespace Attribution

/-- Whether the value is of the sort that the attribute asks for. -/
def Attr.accepts : Attr → Value → Bool
  | type, held | value, held | declared, held => held.type?.isSome
  | scope, held => held.scope?.isSome
  | decl, held => held.decl?.isSome
  | returns, held => held.flag?.isSome
  | index, held => held.index?.isSome

/-- Every cell holds a value of its sort, if any. -/
def View.Sorted (view : View) : Prop := view.Holds fun cell value => cell.attr.accepts value

theorem Attr.accepts_of_admits {sound : Ty → Prop} {known : Entity → Prop} {attr : Attr}
    {value : Value} (h : attr.Admits sound known value) : attr.accepts value := by
  cases attr <;> cases value <;> first | rfl | cases h

theorem forall₂_filterMap {α β : Type} {f : α → Option β} {as : List α}
    (h : ∀ a ∈ as, (f a).isSome) : List.Forall₂ (fun a b => f a = some b) as (as.filterMap f) := by
  induction as with
  | nil => exact .nil
  | cons a as ih =>
    obtain ⟨hfirst, hrest⟩ := List.forall_mem_cons.mp h
    obtain ⟨b, hb⟩ := Option.isSome_iff_exists.mp hfirst
    rw [List.filterMap_cons_some hb]
    exact .cons hb (ih hrest)

theorem related_of_forall₂ {α β : Type} {related : α → β → Prop} {as : List α} {bs : List β}
    (h : List.Forall₂ related as bs) {place : Nat} {a : α} {b : β} (ha : as[place]? = some a)
    (hb : bs[place]? = some b) : related a b := by
  obtain ⟨hlt, rfl⟩ := List.getElem?_eq_some_iff.mp ha
  obtain ⟨hlt', rfl⟩ := List.getElem?_eq_some_iff.mp hb
  exact h.get hlt hlt'

namespace Rule

/-- What the rule reads is what it takes it for: its inputs hold values of their sorts; if it is a
call, the types that it reads are those of all arguments in order; and what is found of an argument
is found by a call at the node in this place and says the type of this node. -/
structure Supplied (setting : Setting) (rule : Rule) (view : View) : Prop where
  inputs : ∀ cell ∈ rule.inputs, ∃ value, view cell = some value ∧ cell.attr.accepts value
  arguments : ∀ node function typeArgument arguments,
    rule = .call node function typeArgument arguments →
      List.Forall₂ (fun argument type => view.type? argument = some type) arguments
        (arguments.filterMap view.type?)
  accused : ∀ finding ∈ (effect setting rule view).findings, ∀ position expected found,
    finding.cause = .argument position expected found →
      ∃ node function typeArgument arguments, rule = .call node function typeArgument arguments ∧
        arguments[position]? = some finding.node ∧ view.type? finding.node = some found

variable {setting : Setting} {rule : Rule} {view : View}

theorem isSome_type?_of_sorted (hview : view.Sorted) {id : NodeId}
    (h : (view (.type id)).isSome) : (view.type? id).isSome := by
  obtain ⟨value, hvalue⟩ := Option.isSome_iff_exists.mp h
  have hsort : value.type?.isSome := hview (.type id) value hvalue
  rw [View.type?, hvalue]
  exact hsort

theorem argumentTypes (hview : view.Sorted) {node function : NodeId} {typeArgument : Option NodeId}
    {arguments : List NodeId}
    (hinputs : ∀ cell ∈ (call node function typeArgument arguments).inputs, (view cell).isSome) :
    List.Forall₂ (fun argument type => view.type? argument = some type) arguments
      (arguments.filterMap view.type?) := by
  apply forall₂_filterMap
  intro argument hargument
  apply isSome_type?_of_sorted hview
  apply hinputs
  exact List.mem_append_left _ (List.mem_cons_of_mem _ (List.mem_map_of_mem hargument))

theorem place_of_argument {node function argument : NodeId} {typeArgument : Option NodeId}
    {arguments : List NodeId} {position : Nat} {expected found : Ty}
    (h : { node := argument, cause := .argument position expected found } ∈
      (effect setting (call node function typeArgument arguments) view).findings) :
    arguments[position]? = some argument ∧
      (arguments.filterMap view.type?)[position]? = some found := by
  simp only [effect] at h
  split at h
  next callee hcallee =>
    cases callee with
    | function params result =>
      have hmisfit : _ ∈ (callEffect setting node function arguments (.function params result)
          (typeArgument.bind view.value?) (arguments.filterMap view.type?)).findings.filter
            fun finding => finding.cause.isMisfit := List.mem_filter.mpr ⟨h, rfl⟩
      rw [filter_callEffect] at hmisfit
      obtain ⟨place, param, type, found, _, htype, hargument, _, heq⟩ :=
        exists_of_argumentFindings hmisfit
      cases heq
      rw [Nat.zero_add]
      exact ⟨hargument, htype⟩
    -- of a callee that is no function nothing but this is found
    | _ => cases List.mem_singleton.mp h
  next => cases h

theorem supplied (hview : view.Sorted) (hinputs : ∀ cell ∈ rule.inputs, (view cell).isSome) :
    rule.Supplied setting view where
  inputs cell hcell := by
    obtain ⟨value, hvalue⟩ := Option.isSome_iff_exists.mp (hinputs cell hcell)
    exact ⟨value, hvalue, hview cell value hvalue⟩
  arguments node function typeArgument arguments heq := by
    subst heq
    exact argumentTypes hview hinputs
  accused finding hfinding position expected found hcause := by
    obtain ⟨argument, cause⟩ := finding
    cases hcause
    cases accuses_effect setting rule view _ hfinding with
    | argument =>
      obtain ⟨hargument, hfound⟩ := place_of_argument hfinding
      exact ⟨_, _, _, _, rfl, hargument,
        related_of_forall₂ (argumentTypes hview hinputs) hargument hfound⟩

end Rule

open Attribution.Tree

namespace Preparation

variable {config : Config} {tree : Tree} {preparation : Preparation} {events : List (Event Rule)}
  {engine : Engine Rule}

/-- Whatever rules have fired, and whichever commands have been given, cells hold values of their
sorts. -/
theorem sorted_of_history (h : ofTree config tree = .ok preparation)
    (hhistory : History preparation.setting events engine)
    (hcommands : ∀ command ∈ Event.commands events, command ∈ preparation.commands) :
    engine.view.Sorted := by
  have hscopes : preparation.setting.scopes.HoldsOnly fun _ => True := fun _ _ _ _ => trivial
  obtain ⟨_, hholds⟩ := hhistory.keeps (Rule.upkeep Ty.inherits_true hscopes)
    (fun _ _ _ _ => trivial) fun cell value hset =>
      admits_of_set h Ty.inherits_true (fun _ _ _ _ _ _ _ => trivial) (hcommands _ hset)
  exact fun cell value hvalue => Attr.accepts_of_admits (hholds cell value hvalue)

/-- A rule that fires is supplied with what it reads, at the moment when it fires. -/
theorem supplied_of_firing (h : ofTree config tree = .ok preparation)
    (hhistory : History preparation.setting events engine)
    (hcommands : ∀ command ∈ Event.commands events, command ∈ preparation.commands) {id : RuleId}
    {rule : Rule} {view : View} (hfiring : .firing id rule view ∈ events) :
    rule.Supplied preparation.setting view := by
  have hsorted := sorted_of_history h hhistory hcommands
  obtain ⟨_, _, _, _, _, _, _, hinputs⟩ := hhistory.moment hfiring
  exact Rule.supplied
    (fun cell value hvalue => hsorted cell value (hhistory.view_of_firing hfiring hvalue)) hinputs

theorem argument_of_finding (h : ofTree config tree = .ok preparation)
    (hsorted : preparation.final.view.Sorted) {finding : Finding}
    (hfinding : finding ∈ preparation.final.findings) {position : Nat} {expected found : Ty}
    (hcause : finding.cause = .argument position expected found) :
    ∃ call function typeArgument arguments,
      tree.node? call = some (.call function typeArgument arguments) ∧
      arguments[position]? = some finding.node ∧
      preparation.final.view.type? finding.node = some found := by
  obtain ⟨rule, hadd, hready, hmem⟩ := exists_rule h hfinding (by rw [hcause]; rfl)
  have hsupplied : rule.Supplied preparation.setting preparation.final.view :=
    Rule.supplied hsorted (List.all_eq_true.mp hready)
  obtain ⟨node, function, typeArgument, arguments, rfl, hargument, hfound⟩ :=
    hsupplied.accused finding hmem position expected found hcause
  obtain ⟨binder, action, hmeets, hadds⟩ := (add_mem_iff h).mp hadd
  cases hadds with
  | asked =>
    obtain ⟨id, expectation, held, _, hheld, hpart⟩ := hmeets.exists_node
    obtain ⟨rfl, rfl⟩ := lets_of_parts hpart
    exact ⟨_, function, typeArgument, arguments, hheld, hargument, hfound⟩

end Preparation

open Analysis in
/-- If the walk over a tree comes to the end, as it does if paths lead to nodes only and never back,
then every cell holds a value of the sort that its attribute asks for, after every change that the
engine goes through: in the run of the analysis, and in whatever order else rules have their turns
and commands of the walk are given. Every rule that fires reads from each input what it takes it
for; a call reads one type for each argument, in order. So whatever the analysis finds of the
argument at some position it finds at the node in this position of a call. -/
theorem cells_sorted (config : Config) (tree : Tree) :
    (tree.Closed → tree.Acyclic →
      ∃ preparation, Preparation.ofTree config tree = .ok preparation) ∧
    ∀ preparation, Preparation.ofTree config tree = .ok preparation → ∃ analysis,
      ofTree config tree = .ok analysis ∧
      (∃ events, History preparation.setting events analysis.engine ∧
        Event.commands events = preparation.commands) ∧
      (∀ events engine, History preparation.setting events engine →
        (∀ command ∈ Event.commands events, command ∈ preparation.commands) →
        (∀ done rest, events.flatMap (Event.changes preparation.setting) = done ++ rest →
          (Engine.replay done).view.Sorted) ∧
        ∀ id rule view, .firing id rule view ∈ events →
          rule.Supplied preparation.setting view) ∧
      ∀ finding ∈ analysis.findings, ∀ position expected found,
        finding.cause = .argument position expected found →
          ∃ call function typeArgument arguments,
            tree.node? call = some (.call function typeArgument arguments) ∧
            arguments[position]? = some finding.node ∧
            analysis.typeOf? finding.node = some found := by
  refine ⟨?_, ?_⟩
  · intro hclosed hacyclic
    obtain ⟨actions, hwalk⟩ := hacyclic.exists_walk hclosed
    exact Preparation.exists_of_walk hwalk config
  · intro preparation h
    obtain ⟨events, hhistory, _, hcommands⟩ :=
      Engine.history_run preparation.setting preparation.commands
    have hevents : Event.commands events = preparation.commands := hcommands
    have hfinal : preparation.final.view.Sorted :=
      Preparation.sorted_of_history h hhistory (by rw [hevents]; exact fun _ => id)
    refine ⟨_, ofTree_eq h, ⟨events, hhistory, hevents⟩, ?_, ?_⟩
    · intro events engine hhistory hcommands
      refine ⟨?_, fun _ _ _ => Preparation.supplied_of_firing h hhistory hcommands⟩
      intro done rest hsplit cell value hvalue
      -- what a cell holds on the way it holds at the end, where all is sorted
      have hcourse := hhistory.course
      rw [hsplit] at hcourse
      exact Preparation.sorted_of_history h hhistory hcommands cell value
        (hcourse.view_of_append hvalue)
    · intro finding hfinding position expected found hcause
      exact Preparation.argument_of_finding h hfinal hfinding hcause

/-- A function of two integers, whose parameters share their type node, is called with a number and
a text. The call is stated twice. -/
def Tree.twice : Tree where
  nodes := #[
    { node := .root [1, 7, 7] },
    { node := .funDecl "f" none [2, 3] 5 6 },
    { node := .parameter "a" 4 },
    { node := .parameter "b" 4 },
    { node := .simpleType "Int" },
    { node := .simpleType "Void" },
    { node := .block [] },
    { node := .expressionStatement 8 },
    { node := .call 9 none [10, 11] },
    { node := .reference "f" },
    { node := .literal (.int 1) },
    { node := .literal (.string "s") }]
  root := 0

/-- The second argument is found not to fit its parameter, at its own node. -/
theorem cells_sorted_twice : Tree.twice.Closed ∧ Tree.twice.Acyclic ∧
    ∃ analysis, Analysis.ofTree {} Tree.twice = .ok analysis ∧ analysis.engine.view.Sorted ∧
      ∃ finding ∈ analysis.findings, ∃ expected found,
        finding.cause = .argument 1 expected found ∧ finding.node = 11 ∧
        analysis.typeOf? 11 = some found := by
  have hlast : Tree.twice.layer Tree.twice.size = [] := by decide +kernel
  have hclosed : Tree.twice.Closed := Tree.closed_of_places hlast (by decide +kernel)
  have hacyclic : Tree.twice.Acyclic := Tree.acyclic_of_places hlast (by decide +kernel)
  obtain ⟨hprepared, hsorted⟩ := cells_sorted {} Tree.twice
  obtain ⟨preparation, h⟩ := hprepared hclosed hacyclic
  obtain ⟨analysis, hanalysis, ⟨events, hhistory, hcommands⟩, hpoints, hplaces⟩ :=
    hsorted preparation h
  have hview : analysis.engine.view.Sorted := by
    rw [hhistory.course.eq_replay]
    exact (hpoints events _ hhistory (by rw [hcommands]; exact fun _ => id)).1 _ []
      (List.append_nil _).symm
  have hmisfit : (Analysis.ofTree {} Tree.twice).toOption.any (fun analysis =>
      analysis.findings.any fun finding => finding.node = 11 && match finding.cause with
        | .argument 1 _ _ => true
        | _ => false) = true := by
    decide +kernel
  rw [hanalysis] at hmisfit
  obtain ⟨⟨node, cause⟩, hfinding, hmatch⟩ := List.any_eq_true.mp hmisfit
  obtain ⟨hnode, hcause⟩ := Bool.and_eq_true_iff.mp hmatch
  cases of_decide_eq_true hnode
  split at hcause
  next expected found heq =>
    obtain ⟨_, _, _, _, _, _, hfound⟩ := hplaces _ hfinding 1 expected found heq
    exact ⟨hclosed, hacyclic, analysis, hanalysis, hview, _, hfinding, expected, found, heq, rfl,
      hfound⟩
  next => cases hcause

end Attribution
