import Attribution.Proofs.Analysis.Cells
import Attribution.Proofs.Engine.Producers
import Attribution.Proofs.Tree.Layers
/-!
# One producer for each cell

Of what reaches a cell, command or rule, only one ever writes it: the cells of different nodes are
different, the actions of one node reach different cells, and a rule that spawns another one leaves
to it a cell that it does not write itself.
-/
namespace Attribution

namespace Rule

theorem outputs_sublist_reach (rule : Rule) : rule.outputs.Sublist rule.reach := by
  cases rule with
  | construct node reference => exact List.nil_sublist _
  | resolveReference node name scope =>
    exact List.sublist_append_left [Cell.decl node, Cell.scope node] [Cell.type node]
  | resolveType node name scope =>
    exact List.sublist_append_left [Cell.decl node, Cell.scope node] [Cell.value node]
  | _ => exact List.Sublist.refl _

theorem cellWrites_sublist (setting : Setting) (rule : Rule) (view : View) :
    ((Engine.cellWrites rule (effect setting rule view)).map Prod.fst).Sublist rule.outputs := by
  have hout : RuleFamily.outputs rule = rule.outputs := rfl
  rcases writesOnce_effect setting rule view with h | ⟨value, h⟩ | ⟨first, second, h⟩ <;>
    simp only [Engine.cellWrites, h, hout, List.filterMap_cons, List.filterMap_nil]
  · exact List.nil_sublist _
  · cases rule.outputs <;> simp
  · rcases rule.outputs with _ | ⟨one, _ | ⟨two, rest⟩⟩ <;> simp

theorem fieldAccessEffect_spawned {setting : Setting} {node : NodeId} {field : String} {type : Ty}
    {next : Rule} (h : next ∈ (fieldAccessEffect setting node field type).spawned) :
    (fieldAccessEffect setting node field type).writes = [] := by
  unfold fieldAccessEffect at h ⊢
  split at h
  · split at h <;> cases h
  · split at h
    · split at h <;> rfl
    · rfl
  · cases h

/-- What a rule writes and what the rule that it spawns reaches are different cells in reach of the
rule. -/
theorem keepsShares (setting : Setting) : KeepsShares setting reach := by
  intro rule view
  have hwrites := cellWrites_sublist setting rule view
  change (_ ++ (effect setting rule view).spawned.flatMap reach).Subperm rule.reach
  rcases spawned_effect setting rule view with hnone | ⟨_, next, _, hone⟩
  · rw [hnone, List.flatMap_nil, List.append_nil]
    exact (hwrites.trans rule.outputs_sublist_reach).subperm
  · have hnext : next ∈ (effect setting rule view).spawned := hone ▸ List.mem_cons_self
    rw [hone, List.flatMap_singleton]
    apply List.Sublist.subperm
    cases spawns_of_mem hnext with
    | @reference node | @constructor node =>
      exact hwrites.append (List.Sublist.refl [Cell.type node])
    | @typeName node => exact hwrites.append (List.Sublist.refl [Cell.value node])
    | @field node stem _ _ member =>
      have hnil : (effect setting (.fieldAccess node stem member) view).writes = [] := by
        simp only [effect] at hnext ⊢
        split at hnext
        next type htype => exact fieldAccessEffect_spawned hnext
        next => cases hnext
      have hcells : Engine.cellWrites (.fieldAccess node stem member)
          (effect setting (.fieldAccess node stem member) view) = [] := by
        rw [Engine.cellWrites, hnil, List.filterMap_nil]
      change (List.map Prod.fst (Engine.cellWrites (.fieldAccess node stem member)
        (effect setting (.fieldAccess node stem member) view)) ++ [Cell.type node]).Sublist _
      rw [hcells]
      exact List.Sublist.refl [Cell.type node]

end Rule

theorem Command.share_reach (command : Command Rule) :
    command.share Rule.reach = command.reach := by
  cases command <;> rfl

namespace Preparation

variable {config : Config} {tree : Tree} {preparation : Preparation}

theorem conflicts_eq_nil (hunshared : tree.Unshared) (h : ofTree config tree = .ok preparation) :
    preparation.final.conflicts = [] := by
  obtain ⟨events, hhistory, _, hcommands⟩ :=
    Engine.history_run preparation.setting preparation.commands
  apply hhistory.conflicts_eq_nil (Rule.keepsShares preparation.setting)
  rw [Event.commands, hcommands, List.flatMap_congr fun command _ => command.share_reach]
  exact nodup_reach hunshared h

end Preparation

open Analysis in
/-- In a tree where no two paths lead to one node, whatever the kinds of its nodes, no cell is ever
written twice. There is an analysis if paths lead to nodes only. -/
theorem conflict_free (config : Config) {tree : Tree} (hunshared : tree.Unshared) :
    (∀ analysis, ofTree config tree = .ok analysis → analysis.conflicts = []) ∧
      (tree.Closed → ∃ analysis, ofTree config tree = .ok analysis ∧ analysis.conflicts = []) := by
  have hclean : ∀ analysis, ofTree config tree = .ok analysis → analysis.conflicts = [] := by
    intro analysis hanalysis
    cases hprepared : Preparation.ofTree config tree with
    | error fault =>
      rw [ofTree, hprepared] at hanalysis
      cases hanalysis
    | ok preparation =>
      rw [ofTree_eq hprepared] at hanalysis
      cases hanalysis
      exact Preparation.conflicts_eq_nil hunshared hprepared
  refine ⟨hclean, ?_⟩
  intro hclosed
  obtain ⟨actions, hwalk⟩ := (hclosed.acyclic hunshared).exists_walk hclosed
  obtain ⟨preparation, hprepared⟩ := Preparation.exists_of_walk hwalk config
  exact ⟨_, ofTree_eq hprepared, hclean _ (ofTree_eq hprepared)⟩

/-- A type name is passed to a call, a block stands for an atom, and a field is declared in a
statement. -/
def Tree.misfit : Tree where
  nodes := #[
    { node := .root [1, 6, 9] },
    { node := .call 2 (some 3) [4, 5] },
    { node := .reference "f" },
    { node := .literal (.int 1) },
    { node := .simpleType "Int" },
    { node := .arrayLiteral [] },
    { node := .clause 7 [8] },
    { node := .block [] },
    { node := .fact "f" [] },
    { node := .fieldDecl "x" 10 },
    { node := .parenthesized 11 },
    { node := .templateParam "T" }]
  root := 0

theorem conflict_free_misfit : ¬ Tree.misfit.WellFormed ∧
    ∃ analysis, Analysis.ofTree {} Tree.misfit = .ok analysis ∧ analysis.conflicts = [] := by
  have hlast : Tree.misfit.layer Tree.misfit.size = [] := by decide +kernel
  have hunshared : Tree.misfit.Unshared :=
    Tree.unshared_of_places hlast (by decide +kernel)
  have hclosed : Tree.misfit.Closed := Tree.closed_of_places hlast (by decide +kernel)
  exact ⟨by decide +kernel, (conflict_free {} hunshared).2 hclosed⟩

end Attribution
