import Attribution.Proofs.Appending.Preparation
import Attribution.Proofs.Appending.Rules
/-!
# Programs with one more declaration

The engine of a larger tree works on the old tree as if the new declaration were not there: what it
is told of this writes to no old node, finds fault with none, and brings no rules that would.
-/
namespace Attribution

theorem Scope.assign_of_free {name : String} {entity : Entity} {names : List (String × Entity)}
    (h : names.lookup name = none) : assign name entity names = names ++ [(name, entity)] := by
  induction names with
  | nil => rfl
  | cons entry rest ih =>
    obtain ⟨held, old⟩ := entry
    rw [List.lookup_cons] at h
    by_cases hname : held = name
    · subst hname
      simp at h
    · rw [beq_eq_false_iff_ne.mpr (Ne.symm hname)] at h
      rw [assign, if_neg hname, ih h, List.cons_append]

namespace Preparation.Gains

variable {tree larger : Tree} {decl : NodeId} {name : String} {config : Config}
  {preparation other : Preparation} (h : Gains tree larger decl name config preparation other)
include h

theorem settings : preparation.setting.Grows other.setting decl name := by
  obtain ⟨_, _, hsmall⟩ := setting_eq h.small
  obtain ⟨_, _, hlarge⟩ := setting_eq h.large
  have htree : preparation.setting.tree = tree := setting_tree h.small
  have hscopes : preparation.setting.scopes = preparation.binder.scopes := by rw [hsmall]
  refine { trees := ?_, sturdy := setting_sturdy h.trees.proper.closed h.small,
           placeholderName_eq := ?_, lookup?_eq := ?_, holds_eq := ?_, absent := ?_ }
  · rw [htree, setting_tree h.large]
    exact h.trees.toGrows
  · rw [hsmall, hlarge]
  · rw [hscopes, hlarge]
    exact fun hscope hne => h.lookup?_eq hscope hne
  · rw [htree]
    exact h.holds_eq
  · rw [htree]
    exact h.trees.absent

theorem native_of_add {rule : Rule} (hadd : .add rule ∈ preparation.commands) :
    rule.Native preparation.setting name := by
  obtain ⟨binder, action, hmeets, hadds⟩ := (add_mem_iff h.small).mp hadd
  have hsound := sound_of_add h.small hadd
  rw [← setting_tree h.small] at hsound
  refine ⟨hsound, ?_⟩
  obtain ⟨actions, hwalk, hmem⟩ := hmeets.exists_walk
  cases hadds with
  | asked =>
    obtain ⟨id, expectation, node, _, _, hpart⟩ := hmeets.exists_node
    have hscope := Tree.scope?_of_asked hpart
    cases rule with
    | resolveReference | resolveType => cases hscope
    | _ => exact nofun
  | deferred => exact fun heq => h.trees.ne_of_use hwalk (.inl hmem) (Option.some.inj heq)
  | typeName => exact fun heq => h.trees.ne_of_use hwalk (.inr hmem) (Option.some.inj heq)
  | _ => exact nofun

theorem owns_of_set {cell : Cell} {value : Value} (hset : .set cell value ∈ preparation.commands) :
    preparation.setting.tree.owns cell = true := by
  have hreach : cell ∈ (Command.set cell value).reach := List.mem_cons_self
  rw [setting_tree h.small, Tree.owns_iff]
  intro id hsubject
  rcases (mem_commands h.small).mp hset with hbuiltin | ⟨binder, action, hmeets, hact⟩
  · obtain ⟨b, hb⟩ := subject_of_builtin hbuiltin hreach
    cases hsubject.symm.trans hb
  · have hid := Action.mem_nodes_of_reach (Binder.reach_act hact hreach) hsubject
    exact h.trees.proper.reaches_iff.mp (hmeets.reaches id hid)

theorem commands_native : List.Forall₂ (preparation.setting.correspondence name).Commands
    preparation.commands preparation.commands := by
  have htree : preparation.setting.tree = tree := setting_tree h.small
  rw [List.forall₂_same]
  intro command hcommand
  cases command with
  | set cell value =>
    refine ⟨rfl, ?_, rfl, ?_⟩
    · exact h.owns_of_set hcommand
    · rw [htree]
      exact admits_of_set h.small (Ty.inherits_names _)
        (fun binder action hmeets => (Strict.Sturdy.of_meets hmeets).entities) hcommand
  | add rule => exact ⟨rfl, h.native_of_add hcommand⟩
  | report finding =>
    refine ⟨rfl, decide_eq_true ?_⟩
    rw [htree]
    exact h.trees.proper.reaches_iff.mp (reaches_of_report h.small hcommand)

theorem outside_of_act {binder : Binder} {action : Action}
    (hmeets : Binder.Meets larger config.duplicates binder action)
    (hnew : ∀ id ∈ action.nodes, tree.size ≤ id) {command : Command Rule}
    (hcommand : command ∈ (binder.act larger config.duplicates action).2) :
    (preparation.setting.correspondence name).Outside command := by
  have htree : preparation.setting.tree = tree := setting_tree h.small
  obtain ⟨actions, hwalk, hmem⟩ := hmeets.exists_walk
  have howns : ∀ cell ∈ command.reach, preparation.setting.tree.owns cell = false := by
    intro cell hcell
    have hreach := Binder.reach_act hcommand hcell
    obtain ⟨id, hsubject⟩ := subject_of_action hwalk hmem hreach
    rw [Tree.owns_node hsubject, htree, decide_eq_false_iff_not, Nat.not_lt]
    exact hnew id (Action.mem_nodes_of_reach hreach hsubject)
  cases command with
  | set cell value => exact howns cell List.mem_cons_self
  | add rule =>
    refine ⟨howns, ?_⟩
    intro node cause haccuses
    rw [htree]
    apply hnew
    cases Binder.adds_iff.mp hcommand with
    | asked => exact haccuses.mem_nodes
    | bound | template | placeholder => cases haccuses
    | exit => cases haccuses <;> simp [Action.nodes]
    | deferred | typeName | atom => exact haccuses.mem_nodes
  | report finding =>
    refine decide_eq_false (Nat.not_lt_of_le ?_)
    rw [htree]
    exact hnew _ (Binder.mem_nodes_of_report hcommand)

/-- The engines of both trees come to their ends in step. -/
theorem holds : ∃ places, (preparation.setting.correspondence name).Holds places
    preparation.final other.final := by
  obtain ⟨others, hcommands, hothers⟩ := h.commands
  have hrun := h.settings.lawful.run h.commands_native fun command hcommand => by
    obtain ⟨binder, action, hmeets, hnew, hact⟩ := hothers command hcommand
    exact h.outside_of_act hmeets hnew hact
  rw [← hcommands] at hrun
  exact hrun

end Preparation.Gains

/-- Failure is local. Take a tree with exactly one path to each node, and append to its root a
variable, a function or a struct that is made of new nodes, and whose name occurs nowhere in the
tree and is not built in. However ill-typed it is, every cell of an old node or of a built-in holds
what it held; every scope is where it was, with the same parent, owner and names, only that the
outermost one has the new name as its last; and what is found at old nodes is the same, in the same
order. -/
theorem append_local (config : Config) {tree : Tree} (hproper : tree.Proper) {added : Array Located}
    {decl : NodeId} {name : String} (hlarger : (tree.append added decl).Proper)
    (hnew : tree.size ≤ decl)
    (hfits : ∀ id node, tree.size ≤ id → (tree.append added decl).node? id = some node →
      (tree.append added decl).Fits node)
    (hkind : (tree.append added decl).satisfies decl
      fun node => node.isVariable || node.isFunction || node.isStruct)
    (hname : (tree.append added decl).declaredName? decl = some name)
    (habsent : ∀ id node, tree.node? id = some node → name ∉ node.names)
    (hbuiltin : ∀ b : Builtin, b.name ≠ name) :
    ∃ analysis extended, Analysis.ofTree config tree = .ok analysis ∧
      Analysis.ofTree config (tree.append added decl) = .ok extended ∧
      (∀ cell, (∀ id, cell.subject = .node id → id < tree.size) →
        extended.get? cell = analysis.get? cell) ∧
      (∀ id scope, analysis.scopes.scope? id = some scope → extended.scopes.scope? id = some
        (if id = Binder.outermost then
          { scope with names := scope.names ++ [(name, .node decl)] } else scope)) ∧
      extended.findings.filter (fun finding => finding.node < tree.size) = analysis.findings := by
  have hgains : tree.Gains (tree.append added decl) decl name :=
    { hproper.grows hlarger hnew with
      fits := hfits
      kind := hkind
      declared := hname
      absent := habsent
      not_builtin := hbuiltin }
  obtain ⟨preparation, other, h⟩ := hgains.exists_preparations config
  have htree : preparation.setting.tree = tree := Preparation.setting_tree h.small
  obtain ⟨places, hholds⟩ := h.holds
  refine ⟨_, _, Analysis.ofTree_eq h.small, Analysis.ofTree_eq h.large, ?_, ?_, ?_⟩
  · intro cell hold
    have howns : preparation.setting.tree.owns cell = true := by
      rw [htree, Tree.owns_iff]
      exact hold
    exact Setting.eq_of_views hholds.views howns
  · intro id scope hscope
    rw [h.scopes id (ScopeTree.scope?_lt hscope), ScopeTree.scope?_put, hscope]
    by_cases hid : id = Binder.outermost
    · subst hid
      have hfree : scope.find? name = none := by
        have hheld := h.free Binder.outermost
        rwa [ScopeTree.held?, hscope] at hheld
      rw [if_pos rfl, if_pos rfl, Option.map_some, Scope.put, Scope.assign_of_free hfree]
    · rw [if_neg hid, if_neg (Ne.symm hid)]
  · have hfindings := hholds.findings.imp fun _ _ heq => heq.symm
    rw [List.forall₂_eq_eq_eq] at hfindings
    rw [← htree]
    exact hfindings.symm

/-- A sum of a variable and of a name that stands for nothing. -/
def Tree.unfinished : Tree where
  nodes := #[
    { node := .root [1, 4] },
    { node := .varDecl "a" 2 3 },
    { node := .simpleType "Int" },
    { node := .literal (.int 1) },
    { node := .expressionStatement 5 },
    { node := .binary .add 6 7 },
    { node := .reference "a" },
    { node := .reference "b" }]
  root := 0

/-- A function in which a variable gets a value that does not fit it, and which returns another one
that does not fit the function. The variable has a name that the sum asks for. -/
def Tree.addendum : Array Located := #[
  { node := .funDecl "f" none [] 9 10 },
  { node := .simpleType "Bool" },
  { node := .block [11, 14] },
  { node := .varDecl "b" 12 13 },
  { node := .simpleType "Int" },
  { node := .literal (.string "one") },
  { node := .returnStatement (some 15) },
  { node := .reference "a" }]

theorem append_local_addendum : Tree.unfinished.Proper ∧ ∃ analysis extended,
    Analysis.ofTree {} Tree.unfinished = .ok analysis ∧
    Analysis.ofTree {} (Tree.unfinished.append Tree.addendum 8) = .ok extended ∧
    analysis.findings.map Finding.node = [7] ∧ extended.findings.length = 3 ∧
    (∀ attr, extended.get? ⟨.node 1, attr⟩ = analysis.get? ⟨.node 1, attr⟩) ∧
    extended.findings.filter (fun finding => finding.node < 8) = analysis.findings := by
  have hwell : Tree.unfinished.WellFormed := by decide +kernel
  have hlarger : (Tree.unfinished.append Tree.addendum 8).WellFormed := by decide +kernel
  have habsent : ∀ id node, Tree.unfinished.node? id = some node → "f" ∉ node.names := by
    have hall : ∀ located ∈ Tree.unfinished.nodes, "f" ∉ located.node.names := by decide
    intro id node hnode
    obtain ⟨located, hlocated, rfl⟩ := Option.map_eq_some_iff.mp hnode
    exact hall located (Array.mem_of_getElem? hlocated)
  obtain ⟨analysis, extended, hanalysis, hextended, hcells, _, hfindings⟩ :=
    append_local {} hwell.proper hlarger.proper (Nat.le_refl 8)
      (fun id node _ => hlarger.fits id node)
      (show (Tree.unfinished.append Tree.addendum 8).satisfies 8 _ by decide) rfl habsent
      (fun b => by cases b <;> decide)
  have hsmall : (Analysis.ofTree {} Tree.unfinished).toOption.any (fun analysis =>
      analysis.findings.map Finding.node = [7]) = true := by
    decide +kernel
  have hlarge : (Analysis.ofTree {} (Tree.unfinished.append Tree.addendum 8)).toOption.any
      (fun extended => extended.findings.length = 3) = true := by
    decide +kernel
  rw [hanalysis, Except.toOption, Option.any_some, decide_eq_true_eq] at hsmall
  rw [hextended, Except.toOption, Option.any_some, decide_eq_true_eq] at hlarge
  refine ⟨hwell.proper, analysis, extended, hanalysis, hextended, hsmall, hlarge, ?_, hfindings⟩
  intro attr
  refine hcells _ ?_
  rintro id ⟨⟩
  decide

end Attribution
