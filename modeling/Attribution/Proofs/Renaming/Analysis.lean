import Mathlib.Logic.Equiv.Basic
import Attribution.Proofs.Analysis.Cells
import Attribution.Proofs.Renaming.Rules
/-!
# Renamed programs

Names matter only up to equality: the analysis of a renamed tree is the renamed analysis.
-/
namespace Attribution

namespace Renaming

variable (f : Renaming)

theorem eq_rename_of_views {view other : View} (h : f.correspondence.Views view other) :
    other = view.rename f := by
  funext cell
  have hcell := h cell rfl
  rw [View.rename]
  cases hview : view cell <;> cases hother : other cell <;> rw [hview, hother] at hcell
  · rfl
  · cases hcell
  · cases hcell
  · cases hcell with
    | some hvalue => exact congrArg some hvalue

theorem lawful {setting : Setting} (hname : f setting.placeholderName = setting.placeholderName) :
    f.correspondence.Lawful setting (setting.rename f) where
  label_eq := by
    rintro rule _ rfl
    exact rule.label_rename
  inputs_eq := by
    rintro rule _ rfl
    exact rule.inputs_rename
  outputs_eq := by
    rintro rule _ rfl
    exact rule.outputs_rename
  inputs_shared := fun _ _ _ => rfl
  outputs_shared := fun _ _ _ => rfl
  fire := by
    rintro rule _ view other rfl hviews
    rw [f.eq_rename_of_views hviews]
    exact Rule.effect_rename setting view hname rule
  foreign_outputs := False.elim
  foreign_findings := False.elim
  foreign_spawned := False.elim

theorem commands_builtin :
    List.Forall₂ f.correspondence.Commands (Builtin.all.flatMap Builtin.commands)
      (Builtin.all.flatMap Builtin.commands) := by
  rw [List.forall₂_same]
  intro command hcommand
  obtain ⟨b, _, hb⟩ := List.mem_flatMap.mp hcommand
  rcases List.mem_cons.mp hb with rfl | hb
  · exact ⟨rfl, rfl, by cases b <;> rfl⟩
  · obtain ⟨denoted, hdenoted, rfl⟩ := List.mem_map.mp hb
    refine ⟨rfl, rfl, ?_⟩
    have hsome := Option.mem_toList.mp hdenoted
    cases b <;> cases hsome <;> rfl

end Renaming

namespace Preparation

variable {f : Renaming} {config : Config} {tree : Tree} {preparation : Preparation}

/-- The preparation of a renamed tree is there if that of the tree is, with renamed scopes, and all
that is told to the engines corresponds. -/
theorem exists_rename (h : ofTree config tree = .ok preparation) :
    ∃ renamed, ofTree config (tree.rename f) = .ok renamed ∧
      renamed.binder = preparation.binder.rename f ∧
      renamed.setting = preparation.setting.rename f ∧
      List.Forall₂ f.correspondence.Commands preparation.commands renamed.commands := by
  obtain ⟨actions, hwalk, hbinder, hcommands, _⟩ := ofTree_eq_ok h
  have hwalk' : (tree.rename f).walk = .ok (actions.map (Action.rename f)) := by
    rw [Tree.walk_rename, hwalk]
    rfl
  obtain ⟨renamed, hrenamed⟩ := exists_of_walk hwalk' config
  obtain ⟨others, hothers, hbinder', hcommands', _⟩ := ofTree_eq_ok hrenamed
  cases hwalk'.symm.trans hothers
  have hroot : Binder.start (tree.rename f).root = (Binder.start tree.root).rename f :=
    (Binder.start_rename tree.root).symm
  have hact : Binder.Renames f ((Binder.start tree.root).actAll tree config.duplicates actions)
      ((Binder.start (tree.rename f).root).actAll (tree.rename f) config.duplicates
        (actions.map (Action.rename f))) := by
    rw [hroot]
    exact Binder.actAll_rename tree actions
  have hboth : renamed.binder = preparation.binder.rename f := by
    rw [hbinder', hbinder, hact.binder]
  refine ⟨renamed, hrenamed, hboth, ?_, ?_⟩
  · obtain ⟨dependence, hdependence, hsetting⟩ := setting_eq h
    obtain ⟨dependence', hdependence', hsetting'⟩ := setting_eq hrenamed
    rw [hboth, funext (Binder.entity?_rename tree preparation.binder), Dependence.of_rename,
      hdependence] at hdependence'
    cases hdependence'
    rw [hsetting', hsetting, hboth]
    rfl
  · rw [hcommands, hcommands']
    exact List.rel_append f.commands_builtin hact.commands

end Preparation

/-- Give the names of a program other names, which are different where the names are, and keep the
names of built-ins, that of the length of an array, and the one that template parameters have to
have. Then the analysis is there if it was, and has the renamed values in the same cells, the same
scopes with renamed names, the same conflicts and as many stalled rules, and it finds the same kinds
of fault with the same nodes in the same order. -/
theorem names_up_to_equality (f : Renaming) (config : Config) (tree : Tree)
    (hname : f config.placeholderName = config.placeholderName) :
    (∀ fault, Analysis.ofTree config (tree.rename f) = .error fault ↔
      Analysis.ofTree config tree = .error fault) ∧
    ∀ analysis, Analysis.ofTree config tree = .ok analysis → ∃ renamed,
      Analysis.ofTree config (tree.rename f) = .ok renamed ∧
      (∀ cell, renamed.get? cell = (analysis.get? cell).map (Value.rename f)) ∧
      renamed.scopes = analysis.scopes.rename f ∧
      renamed.conflicts = analysis.conflicts ∧ renamed.stalled = analysis.stalled ∧
      renamed.findings.map (fun finding => (finding.node, finding.kind)) =
        analysis.findings.map fun finding => (finding.node, finding.kind) := by
  constructor
  · intro fault
    rw [Analysis.ofTree_eq_error, Analysis.ofTree_eq_error, Tree.walk_rename]
    cases tree.walk <;> simp [Except.map]
  · intro analysis hanalysis
    obtain ⟨preparation, hpreparation, hengine, hscopes⟩ := Analysis.exists_preparation hanalysis
    obtain ⟨renamed, hrenamed, hbinder, hsetting, hcommands⟩ :=
      Preparation.exists_rename (f := f) hpreparation
    have hplaceholder : f preparation.setting.placeholderName =
        preparation.setting.placeholderName := by
      obtain ⟨_, _, hset⟩ := Preparation.setting_eq hpreparation
      rw [hset]
      exact hname
    obtain ⟨places, hholds⟩ :
        ∃ places, f.correspondence.Holds places analysis.engine renamed.final := by
      have hrun := (f.lawful hplaceholder).run hcommands (List.forall_mem_nil _)
      rw [List.append_nil, ← hsetting] at hrun
      rw [hengine]
      exact hrun
    refine ⟨_, Analysis.ofTree_eq hrenamed, ?_, ?_, ?_, ?_, ?_⟩
    · intro cell
      exact congrFun (f.eq_rename_of_views hholds.views) cell
    · rw [hscopes, hbinder]
      rfl
    · have hall : renamed.final.conflicts.filter (fun conflict =>
          f.correspondence.shared conflict.cell) = renamed.final.conflicts :=
        List.filter_eq_self.mpr fun _ _ => rfl
      exact (hholds.conflicts.trans hall).symm
    · exact hholds.stalled_eq fun _ => id
    · have hall : renamed.final.findings.filter f.correspondence.counts =
          renamed.final.findings := List.filter_eq_self.mpr fun _ _ => rfl
      have hfindings := hholds.findings
      rw [hall] at hfindings
      have hmarks : List.Forall₂ Eq
          (renamed.final.findings.map fun finding => (finding.node, finding.kind))
          (analysis.engine.findings.map fun finding => (finding.node, finding.kind)) := by
        rw [List.forall₂_map_left_iff, List.forall₂_map_right_iff]
        exact hfindings.flip.imp fun _ _ halike => Prod.ext halike.1 halike.2
      rwa [List.forall₂_eq_eq_eq] at hmarks

/-- Two names change places. -/
def Renaming.swapped : Renaming where
  name := Equiv.swap "Box" "Crate"
  injective := Equiv.injective _
  builtin b := by cases b <;> decide
  length := by decide

/-- A struct is constructed, and a field that it does not have is asked for. -/
def Tree.boxed : Tree where
  nodes := #[
    { node := .root [1, 4, 10] },
    { node := .structDecl "Box" [2] },
    { node := .fieldDecl "width" 3 },
    { node := .simpleType "Int" },
    { node := .varDecl "b" 5 6 },
    { node := .simpleType "Box" },
    { node := .call 7 none [9] },
    { node := .construct 8 },
    { node := .reference "Box" },
    { node := .literal (.int 1) },
    { node := .expressionStatement 11 },
    { node := .fieldAccess 12 "depth" },
    { node := .reference "b" }]
  root := 0

theorem names_up_to_equality_swapped : ∃ renamed,
    Analysis.ofTree {} (Tree.boxed.rename Renaming.swapped) = .ok renamed ∧
      renamed.scopes.held? 0 "Crate" = some (.node 1) ∧
      renamed.findings.map (fun finding => (finding.node, finding.kind)) =
        [(11, .invalidFieldAccess)] := by
  obtain ⟨analysis, hanalysis, htest⟩ := Analysis.exists_of_any
    (show (Analysis.ofTree {} Tree.boxed).toOption.any (fun analysis =>
      analysis.scopes.held? 0 "Box" = some (.node 1) &&
        analysis.findings.map (fun finding => (finding.node, finding.kind)) =
          [(11, .invalidFieldAccess)]) = true by decide +kernel)
  simp only [Bool.and_eq_true, decide_eq_true_eq] at htest
  obtain ⟨renamed, hrenamed, _, hscopes, _, _, hfindings⟩ :=
    (names_up_to_equality Renaming.swapped {} Tree.boxed (by decide)).2 analysis hanalysis
  have hname : Renaming.swapped "Box" = "Crate" := by decide
  refine ⟨renamed, hrenamed, ?_, hfindings.trans htest.2⟩
  rw [hscopes, ← hname, ScopeTree.held?_rename, htest.1]

end Attribution
