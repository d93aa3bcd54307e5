import Mathlib.Data.List.Pairwise
import Attribution.Proofs.Binding.Commands
import Attribution.Proofs.Rule.Reach
import Attribution.Proofs.Tree.Carriers
/-!
# The preparation of a well-formed tree

The preparation of a well-formed tree succeeds. A cell that an action reaches is within reach of
the commands of this action and of no others.
-/
namespace Attribution

/-- On its walk over a tree the binder meets an action, as the actions before left it. -/
def Binder.Meets (tree : Tree) (policy : DuplicatePolicy) (binder : Binder) (action : Action) :
    Prop :=
  ∃ before after, tree.walk = .ok (before ++ action :: after) ∧
    binder = ((Binder.start tree.root).actAll tree policy before).1

namespace Binder

variable {tree : Tree} {policy : DuplicatePolicy} {binder other : Binder} {action : Action}

theorem exists_meets (hwell : tree.WellFormed) : (∃ binder, Meets tree policy binder action) ↔
    ∃ id expectation node, tree.Walked id expectation ∧ tree.node? id = some node ∧
      .act action ∈ tree.parts id node expectation := by
  obtain ⟨list, hlist⟩ := hwell.exists_walk
  constructor
  · intro ⟨binder, before, after, hwalk, _⟩
    obtain ⟨id, expectation, node, hwalked, hnode, haction⟩ := (Tree.WellFormed.mem_walk hwalk).mp
      (List.mem_append_right before List.mem_cons_self)
    exact ⟨id, expectation, node, hwalked, hnode, Tree.mem_actions.mp haction⟩
  · intro ⟨id, expectation, node, hwalked, hnode, haction⟩
    have hmem := (Tree.WellFormed.mem_walk hlist).mpr
      ⟨id, expectation, node, hwalked, hnode, Tree.mem_actions.mpr haction⟩
    obtain ⟨before, after, hsplit⟩ := List.append_of_mem hmem
    exact ⟨_, before, after, hsplit ▸ hlist, rfl⟩

/-- The moment at which the binder is asked for a node comes once. -/
theorem Meets.unique (hwell : tree.WellFormed) (h : Meets tree policy binder action)
    {action' : Action} (h' : Meets tree policy other action') (hbinds : action.binds?.isSome)
    (heq : action'.binds? = action.binds?) : other = binder ∧ action' = action := by
  obtain ⟨before, after, hwalk, rfl⟩ := h
  obtain ⟨before', after', hwalk', rfl⟩ := h'
  have hsame := Except.ok.inj (hwalk.symm.trans hwalk')
  obtain ⟨rfl, rfl⟩ := Tree.split_unique (hwell.nodup_binds hwalk) rfl hsame hbinds heq
  exact ⟨rfl, rfl⟩

theorem bindsDeclared_actAll {before after : List Action}
    (hwalk : tree.walk = .ok (before ++ after)) :
    ((start tree.root).actAll tree policy before).1.BindsDeclared tree := by
  apply actAll_induction _ (bindsDeclared_start tree.root)
  intro binder action haction hbinder
  apply hbinder.act
  intro name decl heq
  obtain ⟨id, expectation, node, _, hnode, hmem⟩ := (Tree.WellFormed.mem_walk hwalk).mp
    (List.mem_append_left after haction)
  rw [heq] at hmem
  obtain ⟨rfl, hname⟩ := Tree.declare_mem_iff.mp (Tree.mem_actions.mp hmem)
  exact Tree.satisfies_iff.mpr ⟨node, hnode, Tree.isDeclaration_of_introduced hname⟩

theorem Meets.bindsDeclared (h : Meets tree policy binder action) :
    binder.BindsDeclared tree := by
  obtain ⟨before, after, hwalk, rfl⟩ := h
  exact bindsDeclared_actAll hwalk

theorem owner?_put (binder : Binder) (place scope : ScopeId) (name : String) (entity : Entity) :
    ({ binder with scopes := binder.scopes.put scope name entity } : Binder).owner? place =
      binder.owner? place := by
  simp only [owner?, ScopeTree.scope?, ScopeTree.put, Array.getElem?_modify]
  split
  · rw [Option.map_map]
    rfl
  · rfl

end Binder

namespace Dependence

theorem exists_of {tree : Tree} {resolve : NodeId → Option Entity}
    (h : ∀ id entity, resolve id = some entity → entity.Declared tree) :
    ∃ dependence, Dependence.of tree resolve = .ok dependence := by
  apply exists_of_lt
  intro id decl hdecl
  obtain ⟨node, hnode, _⟩ := Tree.satisfies_iff.mp (h id _ hdecl)
  exact Tree.lt_size hnode

end Dependence

namespace Preparation

variable {config : Config} {tree : Tree} {preparation : Preparation}

theorem exists_of_ofTree (h : ofTree config tree = .ok preparation) : ∃ actions dependence,
    tree.walk = .ok actions ∧
      Dependence.of tree (preparation.binder.entity? tree) = .ok dependence ∧
      ((Binder.start tree.root).actAll tree config.duplicates actions).1 = preparation.binder ∧
      preparation = {
        binder := preparation.binder
        commands := Builtin.all.flatMap Builtin.commands ++
          ((Binder.start tree.root).actAll tree config.duplicates actions).2
        setting := { tree, placeholderName := config.placeholderName,
                     scopes := preparation.binder.scopes, dependence } } := by
  unfold ofTree at h
  cases hwalk : tree.walk with
  | error fault =>
    rw [hwalk] at h
    cases h
  | ok actions =>
    rw [hwalk] at h
    change (Dependence.of tree _ >>= _) = _ at h
    cases hdependence : Dependence.of tree
        (((Binder.start tree.root).actAll tree config.duplicates actions).1.entity? tree) with
    | error fault =>
      rw [hdependence] at h
      cases h
    | ok dependence =>
      rw [hdependence] at h
      cases h
      exact ⟨actions, dependence, rfl, hdependence, rfl, rfl⟩

theorem ofTree_eq_ok (h : ofTree config tree = .ok preparation) : ∃ actions,
    tree.walk = .ok actions ∧
    preparation.binder = ((Binder.start tree.root).actAll tree config.duplicates actions).1 ∧
    preparation.commands = Builtin.all.flatMap Builtin.commands ++
      ((Binder.start tree.root).actAll tree config.duplicates actions).2 ∧
    preparation.setting.tree = tree ∧ preparation.setting.scopes = preparation.binder.scopes := by
  obtain ⟨actions, dependence, hwalk, _, hbinder, heq⟩ := exists_of_ofTree h
  exact ⟨actions, hwalk, hbinder.symm, congrArg commands heq,
    congrArg (fun found => found.setting.tree) heq,
    congrArg (fun found => found.setting.scopes) heq⟩

theorem setting_eq (h : ofTree config tree = .ok preparation) : ∃ dependence,
    Dependence.of tree (preparation.binder.entity? tree) = .ok dependence ∧
      preparation.setting = { tree, placeholderName := config.placeholderName,
                              scopes := preparation.binder.scopes, dependence } := by
  obtain ⟨_, dependence, _, hdependence, _, heq⟩ := exists_of_ofTree h
  exact ⟨dependence, hdependence, congrArg setting heq⟩

theorem dependence_eq (h : ofTree config tree = .ok preparation) :
    Dependence.of tree (preparation.binder.entity? tree) = .ok preparation.setting.dependence := by
  obtain ⟨dependence, hdependence, hsetting⟩ := setting_eq h
  rw [hsetting]
  exact hdependence

theorem exists_of_walk {actions : List Action} (hwalk : tree.walk = .ok actions)
    (config : Config) : ∃ preparation, ofTree config tree = .ok preparation := by
  have hall : tree.walk = .ok (actions ++ []) := by rw [List.append_nil, hwalk]
  have hbinds : ((Binder.start tree.root).actAll tree config.duplicates actions).1.BindsDeclared
    tree := Binder.bindsDeclared_actAll hall
  obtain ⟨dependence, hdependence⟩ := Dependence.exists_of fun id entity hentity =>
    hbinds.entity? hentity
  unfold ofTree
  rw [hwalk]
  change ∃ preparation, (Dependence.of tree _ >>= _) = _
  rw [hdependence]
  exact ⟨_, rfl⟩

theorem ofTree_eq_error {fault : Fault} :
    ofTree config tree = .error fault ↔ tree.walk = .error fault := by
  cases hwalk : tree.walk with
  | error found => simp [ofTree, hwalk, bind, Except.bind]
  | ok actions =>
    obtain ⟨preparation, h⟩ := exists_of_walk hwalk config
    simp [h]

theorem exists_ofTree (hwell : tree.WellFormed) (config : Config) :
    ∃ preparation, ofTree config tree = .ok preparation := by
  obtain ⟨actions, hwalk⟩ := hwell.exists_walk
  exact exists_of_walk hwalk config

theorem setting_tree (h : ofTree config tree = .ok preparation) :
    preparation.setting.tree = tree := by
  obtain ⟨_, _, _, _, htree, _⟩ := ofTree_eq_ok h
  exact htree

theorem bindsDeclared (h : ofTree config tree = .ok preparation) :
    preparation.binder.BindsDeclared tree := by
  obtain ⟨actions, hwalk, hbinder, _⟩ := ofTree_eq_ok h
  have hall : tree.walk = .ok (actions ++ []) := by rw [List.append_nil, hwalk]
  rw [hbinder]
  exact Binder.bindsDeclared_actAll hall

theorem scopes_declared (h : ofTree config tree = .ok preparation) :
    preparation.setting.scopes.HoldsOnly (Entity.Declared tree) := by
  obtain ⟨_, _, _, _, _, hscopes⟩ := ofTree_eq_ok h
  rw [hscopes]
  exact (bindsDeclared h).1

/-- A command is about a built-in or comes of an action that the binder meets. -/
theorem mem_commands (h : ofTree config tree = .ok preparation) {command : Command Rule} :
    command ∈ preparation.commands ↔ command ∈ Builtin.all.flatMap Builtin.commands ∨
      ∃ binder action, Binder.Meets tree config.duplicates binder action ∧
        command ∈ (binder.act tree config.duplicates action).2 := by
  obtain ⟨actions, hwalk, _, hcommands, _⟩ := ofTree_eq_ok h
  rw [hcommands, List.mem_append, Binder.mem_actAll]
  apply or_congr Iff.rfl
  constructor
  · intro ⟨before, action, after, hsplit, hcommand⟩
    exact ⟨_, action, ⟨before, after, hsplit ▸ hwalk, rfl⟩, hcommand⟩
  · intro ⟨binder, action, ⟨before, after, hwalk', hbinder⟩, hcommand⟩
    refine ⟨before, action, after, Except.ok.inj (hwalk.symm.trans hwalk'), ?_⟩
    rw [← hbinder]
    exact hcommand

theorem subject_of_builtin {command : Command Rule} {cell : Cell}
    (h : command ∈ Builtin.all.flatMap Builtin.commands) (hcell : cell ∈ command.reach) :
    ∃ b, cell.subject = .builtin b := by
  obtain ⟨b, _, hb⟩ := List.mem_flatMap.mp h
  rcases List.mem_cons.mp hb with rfl | hb
  · exact ⟨b, congrArg Cell.subject (List.mem_singleton.mp hcell)⟩
  · obtain ⟨denoted, _, rfl⟩ := List.mem_map.mp hb
    exact ⟨b, congrArg Cell.subject (List.mem_singleton.mp hcell)⟩

theorem subject_of_action {actions : List Action} (hwalk : tree.walk = .ok actions)
    {action : Action} (haction : action ∈ actions) {cell : Cell} (hcell : cell ∈ action.reach) :
    ∃ id, cell.subject = .node id := by
  obtain ⟨id, expectation, node, _, _, hmem⟩ := (Tree.WellFormed.mem_walk hwalk).mp haction
  have hpart := Tree.mem_actions.mp hmem
  by_cases hattr : cell.attr = .index
  · obtain ⟨_, _, _, _, argument, _, _, rfl, _⟩ := Tree.call_of_reach hpart hcell hattr
    exact ⟨argument, rfl⟩
  · exact ⟨id, Tree.subject_of_reach hpart hcell hattr⟩

theorem nodup_reach (hunshared : tree.Unshared) (h : ofTree config tree = .ok preparation) :
    (preparation.commands.flatMap Command.reach).Nodup := by
  obtain ⟨actions, hwalk, _, hcommands, _⟩ := ofTree_eq_ok h
  have hsublist := @Binder.sublist_reach_actAll tree config.duplicates (Binder.start tree.root)
    actions
  rw [hcommands, List.flatMap_append, List.nodup_append]
  refine ⟨by decide, hsublist.nodup (hunshared.nodup_reach hwalk), ?_⟩
  rintro cell hbuiltin _ hnode rfl
  obtain ⟨command, hcommand, hreach⟩ := List.mem_flatMap.mp hbuiltin
  obtain ⟨b, hb⟩ := subject_of_builtin hcommand hreach
  obtain ⟨action, haction, hreach'⟩ := List.mem_flatMap.mp (hsublist.subset hnode)
  obtain ⟨id, hid⟩ := subject_of_action hwalk haction hreach'
  rw [hb] at hid
  cases hid

theorem eq_of_reach (hunshared : tree.Unshared) (h : ofTree config tree = .ok preparation)
    {command other : Command Rule} (hcommand : command ∈ preparation.commands)
    (hother : other ∈ preparation.commands) {cell : Cell} (hcell : cell ∈ command.reach)
    (hcell' : cell ∈ other.reach) : other = command := by
  have hpairs := (List.nodup_flatMap.mp (nodup_reach hunshared h)).2
  by_contra hne
  have hdisjoint : List.Disjoint other.reach command.reach := by
    have hsymm : Std.Symm (Function.onFun List.Disjoint (Command.reach)) :=
      ⟨fun _ _ hdisjoint => hdisjoint.symm⟩
    exact hpairs.forall hother hcommand hne
  exact hdisjoint hcell' hcell

theorem exists_of_reach (hwell : tree.WellFormed) (h : ofTree config tree = .ok preparation)
    {command : Command Rule} (hcommand : command ∈ preparation.commands) {cell : Cell}
    (hcell : cell ∈ command.reach) (hattr : cell.attr ≠ .index) {id : NodeId}
    (hsubject : cell.subject = .node id) : ∃ binder action expectation node,
      Binder.Meets tree config.duplicates binder action ∧
      command ∈ (binder.act tree config.duplicates action).2 ∧ cell ∈ action.reach ∧
      tree.Walked id expectation ∧ tree.node? id = some node ∧
      .act action ∈ tree.parts id node expectation := by
  rcases (mem_commands h).mp hcommand with hbuiltin | ⟨binder, action, hmeets, hact⟩
  · obtain ⟨b, hb⟩ := subject_of_builtin hbuiltin hcell
    rw [hsubject] at hb
    cases hb
  · have hreach := Binder.reach_act hact hcell
    obtain ⟨found, expectation, node, hwalked, hnode, hpart⟩ :=
      (Binder.exists_meets hwell).mp ⟨binder, hmeets⟩
    -- the action stands at the node that owns the cell
    have howner := Tree.subject_of_reach hpart hreach hattr
    rw [hsubject] at howner
    cases howner
    exact ⟨binder, action, expectation, node, hmeets, hact, hreach, hwalked, hnode, hpart⟩

end Preparation

end Attribution
