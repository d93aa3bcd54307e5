import Attribution.Proofs.Analysis.Contents
import Attribution.Proofs.Analysis.Names
import Attribution.Proofs.Strict.Cycle
import Attribution.Proofs.Strict.Rules
import Attribution.Proofs.Strict.Walk
import Attribution.Proofs.Tree.Layers
/-!
# A strict pass

The strict pass breaks off at the first node, scope, rule or argument that is asked for and does not
exist, at a rule that is told of more inputs than it misses, and when it fires more than two rules
for each that the walk registers. Over a tree whose nodes all exist and do not contain themselves,
as far as they are reached from the root, it comes to the end, and to the result of the analysis.
-/
namespace Attribution
namespace Strict

/-- What the name in a node stands for. -/
def entity? (tree : Tree) (binder : Binder) (id : NodeId) : Except Breach (Option Entity) :=
  match binder.resolved.lookup id, binder.deferred.lookup id with
  | some entity, _ => .ok (some entity)
  | none, none => .ok none
  | none, some scope => do
    match ← node tree id with
    | .reference name | .simpleType name =>
      let found ← lookup binder.scopes scope name
      return found.map Prod.fst
    | _ => return none

def carriers (tree : Tree) (binder : Binder) (id : NodeId) : Except Breach (List NodeId) := do
  match ← node tree id with
  | .reference _ | .simpleType _ =>
    let some (.node decl) ← entity? tree binder id | return []
    let found ← node tree decl
    return if found.carriesPlaceholder then [decl] else []
  | _ => ask (tree.carriers (fun _ => none) id)

def dependence (tree : Tree) (binder : Binder) : Except Breach Dependence := do
  let targets ← (List.range tree.size).mapM (carriers tree binder)
  let sources := tree.nodes.map fun located => located.node.isTemplateParam
  return { marks := Dependence.saturate targets.toArray tree.size sources }

def prepare (config : Config) (tree : Tree) : Except Breach Preparation := do
  let actions ← walk tree
  let (binder, commands) ← actAll tree config.duplicates (Binder.start tree.root) actions
  let dependence ← dependence tree binder
  return {
    binder
    commands := Builtin.all.flatMap Builtin.commands ++ commands
    setting :=
      { tree, placeholderName := config.placeholderName, scopes := binder.scopes, dependence } }

def analyse (config : Config) (tree : Tree) : Except Breach (Analysis × Fixpoint) := do
  let preparation ← prepare config tree
  let engine ← preparation.commands.foldlM obey {}
  let final ← drain (effect preparation.setting) (2 * engine.slots.size) engine
  let fixpoint ← fixpoint final
  return ({ engine := final, scopes := preparation.binder.scopes }, fixpoint)

variable {tree : Tree} {binder : Binder} {id : NodeId}

theorem exists_node_of_lt (h : id < tree.size) : ∃ found, tree.node? id = some found := by
  rw [Tree.node?, Array.getElem?_eq_getElem h]
  exact ⟨_, rfl⟩

theorem entity?_eq (hbinder : Sturdy tree binder) (h : id < tree.size) :
    entity? tree binder id = .ok (binder.entity? tree id) := by
  obtain ⟨found, hfound⟩ := exists_node_of_lt h
  rw [entity?, Binder.entity?]
  cases hresolved : binder.resolved.lookup id with
  | some entity => rfl
  | none =>
    cases hdeferred : binder.deferred.lookup id with
    | none => rfl
    | some scope =>
      obtain ⟨before, after, hsplit, _⟩ := List.lookup_eq_some_iff.mp hdeferred
      have hscope : scope < binder.scopes.size :=
        hbinder.deferred (id, scope) (hsplit ▸ List.mem_append_right _ List.mem_cons_self)
      simp only [node_eq hfound, hfound, ok_bind]
      cases found with
      | reference name | simpleType name =>
        simp only [lookup_eq hbinder.nested hscope, ok_bind]
        rfl
      | _ => rfl

theorem carriers_eq (hbinder : Sturdy tree binder) (h : id < tree.size) :
    carriers tree binder id = ask (tree.carriers (binder.entity? tree) id) := by
  obtain ⟨found, hfound⟩ := exists_node_of_lt h
  rw [carriers, node_eq hfound, ok_bind]
  cases found with
  | reference name | simpleType name =>
    simp only [entity?_eq hbinder h, ok_bind, Tree.carriers, hfound]
    cases binder.entity? tree id with
    | none => rfl
    | some entity =>
      cases entity with
      | builtin b => rfl
      | node decl =>
        simp only [Option.bind_some, Entity.node?, node]
        cases tree.node decl <;> rfl
  | _ => simp only [Tree.carriers, hfound]

theorem mapM_ask {α β : Type} {question : α → Except Breach β} {answer : α → Except Fault β}
    {xs : List α} (h : ∀ x ∈ xs, question x = ask (answer x)) :
    xs.mapM question = ask (xs.mapM answer) := by
  induction xs with
  | nil => rfl
  | cons x xs ih =>
    obtain ⟨hnow, hrest⟩ := List.forall_mem_cons.mp h
    rw [List.mapM_cons, List.mapM_cons, hnow, ih hrest]
    cases answer x with
    | error fault => rfl
    | ok b => cases xs.mapM answer <;> rfl

theorem dependence_eq (hbinder : Sturdy tree binder) :
    dependence tree binder = ask (Dependence.of tree (binder.entity? tree)) := by
  rw [dependence, mapM_ask fun id hid => carriers_eq hbinder (List.mem_range.mp hid),
    Dependence.of]
  cases (List.range tree.size).mapM (tree.carriers (binder.entity? tree)) <;> rfl

variable {config : Config} {preparation : Preparation}

theorem prepare_eq (hclosed : tree.Closed) (h : Preparation.ofTree config tree = .ok preparation) :
    prepare config tree = .ok preparation := by
  obtain ⟨actions, hwalk, _⟩ := Preparation.ofTree_eq_ok h
  have hall : tree.walk = .ok (actions ++ []) := by rw [List.append_nil, hwalk]
  have hbinder : Sturdy tree ((Binder.start tree.root).actAll tree config.duplicates actions).1 :=
    Sturdy.actAll hall
  have hactions : actAll tree config.duplicates (Binder.start tree.root) actions =
      .ok ((Binder.start tree.root).actAll tree config.duplicates actions) :=
    (Sturdy.start tree).actAll_eq hclosed fun action haction => Tree.nodes_of_walk hwalk haction
  simp only [prepare, walk_eq hclosed hwalk, hactions, dependence_eq hbinder, ok_bind]
  rw [Preparation.ofTree, hwalk] at h
  change (Dependence.of tree _ >>= _) = _ at h
  cases hdependence : Dependence.of tree
    (((Binder.start tree.root).actAll tree config.duplicates actions).1.entity? tree) with
  | error fault =>
    rw [hdependence] at h
    cases h
  | ok dependence =>
    rw [hdependence] at h
    exact congrArg ask h

end Strict

namespace Binder

variable {tree : Tree} {policy : DuplicatePolicy} {binder : Binder} {action : Action}

theorem Meets.exists_walk (h : Meets tree policy binder action) :
    ∃ actions, tree.walk = .ok actions ∧ action ∈ actions := by
  obtain ⟨before, after, hwalk, _⟩ := h
  exact ⟨_, hwalk, List.mem_append_right before List.mem_cons_self⟩

theorem Meets.reaches (h : Meets tree policy binder action) :
    ∀ id ∈ action.nodes, tree.Reaches id := by
  obtain ⟨actions, hwalk, hmem⟩ := h.exists_walk
  exact Tree.nodes_of_walk hwalk hmem

theorem mem_nodes_of_report {finding : Finding}
    (h : .report finding ∈ (binder.act tree policy action).2) : finding.node ∈ action.nodes := by
  rcases report_cases h with ⟨name, rfl, _⟩ | ⟨name, rfl, _⟩ <;> exact List.mem_cons_self

end Binder

namespace Preparation

open Strict (Sturdy)

variable {tree : Tree} {config : Config} {preparation : Preparation}

theorem sturdy (h : ofTree config tree = .ok preparation) : Sturdy tree preparation.binder := by
  obtain ⟨actions, hwalk, hbinder, _⟩ := ofTree_eq_ok h
  have hall : tree.walk = .ok (actions ++ []) := by rw [List.append_nil, hwalk]
  rw [hbinder]
  exact Sturdy.actAll hall

theorem setting_sturdy (hclosed : tree.Closed) (h : ofTree config tree = .ok preparation) :
    preparation.setting.Sturdy := by
  obtain ⟨_, _, _, _, htree, hscopes⟩ := ofTree_eq_ok h
  refine ⟨?_, ?_, ?_⟩
  · rw [htree]
    exact hclosed
  · rw [hscopes]
    exact (sturdy h).nested
  · rw [htree, hscopes]
    exact (sturdy h).entities

theorem extends_of_meets (h : ofTree config tree = .ok preparation) {binder : Binder}
    {action : Action} (hmeets : binder.Meets tree config.duplicates action) :
    binder.scopes.Extends preparation.setting.scopes := by
  obtain ⟨actions, hwalk, hbinder, _, _, hscopes⟩ := ofTree_eq_ok h
  obtain ⟨before, after, hsplit, rfl⟩ := hmeets
  cases hwalk.symm.trans hsplit
  rw [hscopes, hbinder, Binder.actAll_append]
  exact Binder.extends_actAll _ _

/-- The rules that the walk adds are about nodes that are reached, and about scopes that exist. -/
theorem sound_of_add (h : ofTree config tree = .ok preparation) {rule : Rule}
    (hadd : .add rule ∈ preparation.commands) : rule.Sound tree preparation.setting.scopes := by
  obtain ⟨binder, action, hmeets, hadds⟩ := (add_mem_iff h).mp hadd
  have hbinder : Sturdy tree binder := .of_meets hmeets
  have hextends := extends_of_meets h hmeets
  have hcurrent : binder.current < preparation.setting.scopes.size :=
    hextends.lt_size hbinder.current_lt
  have hnodes := hmeets.reaches
  cases hadds with
  | asked =>
    obtain ⟨id, expectation, node, _, _, hpart⟩ := hmeets.exists_node
    refine ⟨hnodes, ?_⟩
    rw [Tree.scope?_of_asked hpart]
    rintro scope ⟨⟩
  | bound hlookup =>
    exact Rule.sound_of_entity (hnodes _ List.mem_cons_self) (hbinder.entities.lookup? hlookup)
      rfl rfl
  | deferred | typeName | atom =>
    refine ⟨hnodes, ?_⟩
    rintro scope ⟨⟩
    exact hcurrent
  | template =>
    refine ⟨hnodes, ?_⟩
    rintro scope ⟨⟩
  | @placeholder node name =>
    obtain ⟨found, hfound, howner⟩ := hbinder.exists_scope hbinder.current_lt
    have howner? : binder.owner? binder.current = some found.owner := by
      rw [Binder.owner?, hfound]
      rfl
    rw [howner?]
    refine ⟨?_, by rintro scope ⟨⟩⟩
    intro id hid
    rcases List.mem_cons.mp hid with rfl | hid
    · exact hnodes _ List.mem_cons_self
    · cases List.mem_singleton.mp hid
      exact howner
  | @exit node function expression name template parameters returnType body henclosing hfound =>
    have hfunction : tree.Reaches function := hbinder.reaches_of_enclosing henclosing
    refine ⟨?_, by rintro scope ⟨⟩⟩
    intro id hid
    rcases List.mem_cons.mp hid with rfl | hid
    · exact hnodes _ List.mem_cons_self
    · rcases List.mem_cons.mp hid with rfl | hid
      · exact hfunction.child hfound (by simp [Node.children])
      · exact hnodes _ (List.mem_cons_of_mem _ hid)

theorem reaches_of_report (h : ofTree config tree = .ok preparation) {finding : Finding}
    (hreport : .report finding ∈ preparation.commands) : tree.Reaches finding.node := by
  rcases (mem_commands h).mp hreport with hbuiltin | ⟨binder, action, hmeets, hact⟩
  · obtain ⟨b, _, hb⟩ := List.mem_flatMap.mp hbuiltin
    simp [Builtin.commands] at hb
  · exact hmeets.reaches _ (Binder.mem_nodes_of_report hact)

theorem reaches_of_finding (h : ofTree config tree = .ok preparation) {finding : Finding}
    (hfinding : finding ∈ preparation.final.findings) : tree.Reaches finding.node := by
  rcases mem_findings.mp hfinding with hreport | ⟨rule, hadd, _, hmem⟩
  · exact reaches_of_report h hreport
  · exact (sound_of_add h hadd).nodes _ (Rule.accuses_effect _ _ _ finding hmem).mem_nodes

end Preparation

namespace Strict

variable {tree : Tree} {config : Config} {preparation : Preparation}

theorem drain_engine (preparation : Preparation) :
    preparation.engine.drain preparation.setting (2 * preparation.engine.slots.size) =
      preparation.final := by
  have hhistory : History preparation.setting _ preparation.engine :=
    History.new.foldl_obey preparation.commands
  have hdone := hhistory.kept.ready_drain preparation.setting (Nat.le_refl _)
  exact Engine.drain_of_le hdone (Engine.backlog_le Rule.weight_le_two _)

theorem analyse_eq (hclosed : tree.Closed) (h : Preparation.ofTree config tree = .ok preparation) :
    analyse config tree = .ok
      ({ engine := preparation.final, scopes := preparation.binder.scopes },
        preparation.final.fixpoint) := by
  have hsturdy := Preparation.setting_sturdy hclosed h
  have htree := Preparation.setting_tree h
  have hhistory : History preparation.setting _ preparation.engine :=
    History.new.foldl_obey preparation.commands
  have hcommands : Event.commands ([] ++ preparation.commands.map .command) =
      preparation.commands := Event.commands_map_command preparation.commands
  have hengine : preparation.commands.foldlM obey {} = .ok preparation.engine :=
    foldlM_obey_eq Engine.kept_new preparation.commands
  have hrun := drain_eq (Rule.upkeep_sound hsturdy) (fun rule view => effect_eq hsturdy) hhistory
    (by
      rw [hcommands, htree]
      exact fun rule => Preparation.sound_of_add h)
    (by
      rw [hcommands, htree]
      exact fun cell value => Preparation.admits_of_set h (Ty.inherits_names _)
        fun binder action hmeets => (Sturdy.of_meets hmeets).entities)
    (Engine.backlog_le Rule.weight_le_two _)
  rw [drain_engine] at hrun
  rw [analyse, prepare_eq hclosed h, ok_bind, hengine, ok_bind, hrun, ok_bind, fixpoint_eq]
  rfl

end Strict

/-- The analysis of a tree whose nodes all exist and do not contain themselves, as far as they are
reached from the root, comes to the end and never asks for a node, a scope, a rule or an argument
that does not exist, nor does it count a rule below zero: a pass that would break off at any of
these has the same result. It fires at most two rules for each that the walk registers, and what it
finds is found at nodes that are reached. -/
theorem pass_is_safe {tree : Tree} (hclosed : tree.Closed) (hacyclic : tree.Acyclic)
    (config : Config) : ∃ preparation analysis,
      Preparation.ofTree config tree = .ok preparation ∧
      Analysis.ofTree config tree = .ok analysis ∧
      Strict.analyse config tree = .ok (analysis, analysis.engine.fixpoint) ∧
      analysis.engine.ready = [] ∧
      analysis.engine.fixpoint.fired ≤ 2 * preparation.engine.slots.size ∧
      ∀ finding ∈ analysis.findings, tree.Reaches finding.node := by
  obtain ⟨actions, hwalk⟩ := hacyclic.exists_walk hclosed
  obtain ⟨preparation, h⟩ := Preparation.exists_of_walk hwalk config
  have hhistory : History preparation.setting _ preparation.engine :=
    History.new.foldl_obey preparation.commands
  refine ⟨preparation, _, h, Analysis.ofTree_eq h, Strict.analyse_eq hclosed h, ?_, ?_,
    fun finding => Preparation.reaches_of_finding h⟩
  · exact hhistory.kept.ready_drain preparation.setting (Nat.le_refl _)
  · have hnone : preparation.engine.fired = [] := by
      rw [hhistory.records.fired, List.nil_append, List.filterMap_map]
      exact List.filterMap_eq_nil_iff.mpr fun _ _ => rfl
    have hle := hhistory.length_fired_drain_le (2 * preparation.engine.slots.size)
    rw [Strict.drain_engine, hnone, List.length_nil, Nat.zero_add] at hle
    exact hle

/-- A block that contains one declaration and one expression twice each, and a name in both this
expression and a third. Nothing leads to the call, nor does the call lead to anything. -/
def Tree.woven : Tree where
  nodes := #[
    { node := .simpleType "Int" },
    { node := .literal (.int 1) },
    { node := .varDecl "x" 0 1 },
    { node := .reference "x" },
    { node := .reference "y" },
    { node := .binary .add 3 4 },
    { node := .parenthesized 3 },
    { node := .call 99 (some 98) [97, 7] },
    { node := .block [2, 2, 6, 6, 5] }]
  root := 8

/-- The walk registers 14 rules, and 15 fire. Of both findings, one comes of the walk and one of a
rule. -/
theorem pass_is_safe_woven : Tree.woven.Closed ∧ Tree.woven.Acyclic ∧ ∃ preparation analysis,
    Preparation.ofTree {} Tree.woven = .ok preparation ∧
    Analysis.ofTree {} Tree.woven = .ok analysis ∧
    Strict.analyse {} Tree.woven = .ok (analysis, analysis.engine.fixpoint) ∧
    preparation.engine.slots.size = 14 ∧ analysis.engine.fixpoint.fired = 15 ∧
    analysis.engine.fixpoint.fired ≤ 2 * preparation.engine.slots.size ∧
    analysis.findings.map Finding.node = [2, 4] ∧ analysis.conflicts.length = 13 ∧
    ∀ finding ∈ analysis.findings, Tree.woven.Reaches finding.node := by
  have hlast : Tree.woven.layer Tree.woven.size = [] := by decide +kernel
  have hclosed : Tree.woven.Closed := Tree.closed_of_places hlast (by decide +kernel)
  have hacyclic : Tree.woven.Acyclic := Tree.acyclic_of_places hlast (by decide +kernel)
  obtain ⟨preparation, analysis, hpreparation, hanalysis, hstrict, _, hle, hreached⟩ :=
    pass_is_safe hclosed hacyclic {}
  have hrules : (Preparation.ofTree {} Tree.woven).toOption.any (fun preparation =>
      preparation.engine.slots.size = 14) = true := by
    decide +kernel
  have hsome : (Analysis.ofTree {} Tree.woven).toOption.any (fun analysis =>
      analysis.engine.fixpoint.fired = 15 && analysis.findings.map Finding.node = [2, 4] &&
        analysis.conflicts.length = 13) = true := by
    decide +kernel
  rw [hpreparation, Except.toOption, Option.any_some, decide_eq_true_eq] at hrules
  rw [hanalysis] at hsome
  simp only [Except.toOption, Option.any_some, Bool.and_eq_true, decide_eq_true_eq] at hsome
  obtain ⟨⟨hfired, hfindings⟩, hconflicts⟩ := hsome
  exact ⟨hclosed, hacyclic, preparation, analysis, hpreparation, hanalysis, hstrict, hrules, hfired,
    hle, hfindings, hconflicts, hreached⟩

end Attribution
