import Attribution.Proofs.Binding.Preparation
import Attribution.Proofs.Rule.Findings
import Attribution.Proofs.Rule.Result
/-!
# The final cells

When the rules of a program have run, a cell within reach of one command alone holds what this
command or its rule says, and a cell out of reach of all commands holds nothing.
-/
namespace Attribution

namespace Preparation

def final (preparation : Preparation) : Engine Rule := preparation.engine.run preparation.setting

theorem settled (preparation : Preparation) :
    preparation.final.Settled preparation.setting preparation.commands :=
  Engine.settled_run preparation.setting preparation.commands

variable {preparation : Preparation}

/-- A rule was added by a command, or spawned by one that was. -/
theorem mem_rules {rule : Rule} : rule ∈ preparation.final.rules ↔
    .add rule ∈ preparation.commands ∨ ∃ parent, .add parent ∈ preparation.commands ∧
      parent.ready preparation.final.view ∧
      rule ∈ (Rule.effect preparation.setting parent preparation.final.view).spawned := by
  constructor
  · intro hrule
    rcases (preparation.settled.mem_rules rule).mp hrule with
      hadd | ⟨parent, hparent, hready, hrule⟩
    · exact .inl hadd
    · refine .inr ⟨parent, ?_, Rule.supplies_iff.mp hready, hrule⟩
      rcases (preparation.settled.mem_rules parent).mp hparent with hadd | ⟨elder, _, _, hspawned⟩
      · exact hadd
      · have hone : parent.weight = 1 := (Rule.weight_of_spawned hspawned).2
        have htwo : parent.weight = 2 := (Rule.weight_of_spawned hrule).1
        omega
  · intro h
    rcases h with hadd | ⟨parent, hadd, hready, hrule⟩
    · exact (preparation.settled.mem_rules rule).mpr (.inl hadd)
    · have hparent := (preparation.settled.mem_rules parent).mpr (.inl hadd)
      exact (preparation.settled.mem_rules rule).mpr
        (.inr ⟨parent, hparent, Rule.supplies_iff.mpr hready, hrule⟩)

/-- What is found was reported, or found by a rule that a command added. -/
theorem mem_findings {finding : Finding} : finding ∈ preparation.final.findings ↔
    .report finding ∈ preparation.commands ∨ ∃ rule, .add rule ∈ preparation.commands ∧
      rule.ready preparation.final.view ∧
      finding ∈ (Rule.effect preparation.setting rule preparation.final.view).findings := by
  rw [preparation.settled.mem_findings]
  apply or_congr_right
  constructor
  · intro ⟨rule, hrule, hsupplies, hmem⟩
    rcases mem_rules.mp hrule with hadd | ⟨parent, _, _, hspawned⟩
    · exact ⟨rule, hadd, Rule.supplies_iff.mp hsupplies, hmem⟩
    · rw [show (RuleFamily.fire preparation.setting rule preparation.final.view).findings = [] from
        Rule.findings_of_spawned hspawned ..] at hmem
      cases hmem
  · intro ⟨rule, hadd, hready, hmem⟩
    exact ⟨rule, mem_rules.mpr (.inl hadd), Rule.supplies_iff.mpr hready, hmem⟩

theorem mem_findings_of_rule {rule : Rule} (hadd : .add rule ∈ preparation.commands)
    (hready : rule.ready preparation.final.view) {finding : Finding}
    (h : finding ∈ (Rule.effect preparation.setting rule preparation.final.view).findings) :
    finding ∈ preparation.final.findings :=
  mem_findings.mpr (.inr ⟨rule, hadd, hready, h⟩)

theorem exists_reach {cell : Cell} {rule : Rule} (hrule : rule ∈ preparation.final.rules)
    (hcell : cell ∈ rule.outputs) : ∃ root, .add root ∈ preparation.commands ∧
      cell ∈ root.reach ∧ (rule = root ∨ root.ready preparation.final.view ∧
        rule ∈ (Rule.effect preparation.setting root preparation.final.view).spawned) := by
  rcases mem_rules.mp hrule with hadd | ⟨parent, hadd, hready, hspawned⟩
  · exact ⟨rule, hadd, Rule.mem_reach_of_outputs hcell, .inl rfl⟩
  · exact ⟨parent, hadd, Rule.mem_reach_of_spawned hspawned hcell, .inr ⟨hready, hspawned⟩⟩

theorem mem_outputs_of_cellWrites {rule : Rule} {effect : Effect Rule} {cell : Cell}
    {value : Value} (h : (cell, value) ∈ Engine.cellWrites rule effect) :
    cell ∈ rule.outputs := by
  obtain ⟨write, _, hwrite⟩ := List.mem_filterMap.mp h
  obtain ⟨found, hfound, heq⟩ := Option.map_eq_some_iff.mp hwrite
  cases heq
  exact List.mem_of_getElem? hfound

theorem view_eq_none {cell : Cell}
    (h : ∀ command ∈ preparation.commands, cell ∉ command.reach) :
    preparation.final.view cell = none := by
  rw [← Option.not_isSome_iff_eq_none, preparation.settled.isSome_view cell]
  intro ⟨value, hsource⟩
  rcases hsource with hset | ⟨rule, hrule, _, hwrite⟩
  · exact h _ hset List.mem_cons_self
  · obtain ⟨root, hadd, hreach, _⟩ := exists_reach hrule (mem_outputs_of_cellWrites hwrite)
    exact h _ hadd hreach

theorem view_of_set {cell : Cell} {value : Value} (hset : .set cell value ∈ preparation.commands)
    (h : ∀ command ∈ preparation.commands, cell ∈ command.reach → command = .set cell value) :
    preparation.final.view cell = some value := by
  obtain ⟨held, hheld⟩ := Option.isSome_iff_exists.mp
    ((preparation.settled.isSome_view cell).mpr ⟨value, .inl hset⟩)
  rcases preparation.settled.view_eq cell held hheld with hset' | ⟨rule, hrule, _, hwrite⟩
  · cases h _ hset' List.mem_cons_self
    exact hheld
  · obtain ⟨root, hadd, hreach, _⟩ := exists_reach hrule (mem_outputs_of_cellWrites hwrite)
    cases h _ hadd hreach

/-- What a rule writes to a cell in the end. -/
def Writes (preparation : Preparation) (rule : Rule) (cell : Cell) (value : Value) : Prop :=
  (cell, value) ∈
    Engine.cellWrites rule (Rule.effect preparation.setting rule preparation.final.view)

theorem view_of_rule {cell : Cell} {rule : Rule} (hrule : rule ∈ preparation.final.rules)
    (houtputs : rule.outputs = [cell])
    (hset : ∀ value, .set cell value ∉ preparation.commands)
    (hother : ∀ other ∈ preparation.final.rules, ∀ value,
      preparation.Writes other cell value → other = rule) :
    preparation.final.view cell = rule.result? preparation.setting preparation.final.view := by
  -- whatever the cell holds was written by this rule
  have hwriter : ∀ value, preparation.final.view cell = some value →
      rule.ready preparation.final.view = true ∧ preparation.Writes rule cell value := by
    intro value hvalue
    rcases preparation.settled.view_eq cell value hvalue with hcommand |
      ⟨other, hmem, hsupplies, hwrite⟩
    · exact absurd hcommand (hset value)
    · rw [hother other hmem value hwrite] at hsupplies hwrite
      exact ⟨Rule.supplies_iff.mp hsupplies, hwrite⟩
  rw [Rule.result?]
  split
  next hready =>
    apply Option.ext
    intro value
    rw [← Rule.mem_cellWrites_iff houtputs]
    constructor
    · intro hvalue
      exact (hwriter value hvalue).2
    · intro hwrite
      obtain ⟨held, hheld⟩ := Option.isSome_iff_exists.mp ((preparation.settled.isSome_view
        cell).mpr ⟨value, .inr ⟨rule, hrule, Rule.supplies_iff.mpr hready, hwrite⟩⟩)
      rw [hheld, ← (Rule.mem_cellWrites_iff houtputs).mp hwrite]
      exact ((Rule.mem_cellWrites_iff houtputs).mp (hwriter held hheld).2).symm
  next hready =>
    rw [← Option.not_isSome_iff_eq_none]
    intro hsome
    obtain ⟨value, hvalue⟩ := Option.isSome_iff_exists.mp hsome
    exact hready (hwriter value hvalue).1

structure Sole (preparation : Preparation) (root : Rule) (cell : Cell) : Prop where
  added : .add root ∈ preparation.commands
  sole : ∀ command ∈ preparation.commands, cell ∈ command.reach → command = .add root

namespace Sole

variable {root : Rule} {cell : Cell}

theorem not_set (h : preparation.Sole root cell) (value : Value) :
    .set cell value ∉ preparation.commands := by
  intro hset
  cases h.sole _ hset List.mem_cons_self

theorem rule_mem (h : preparation.Sole root cell) : root ∈ preparation.final.rules :=
  mem_rules.mpr (.inl h.added)

theorem eq_or_spawned (h : preparation.Sole root cell) {rule : Rule}
    (hrule : rule ∈ preparation.final.rules) (hcell : cell ∈ rule.outputs) :
    rule = root ∨ root.ready preparation.final.view ∧
      rule ∈ (Rule.effect preparation.setting root preparation.final.view).spawned := by
  obtain ⟨found, hadd, hreach, hcase⟩ := exists_reach hrule hcell
  rw [Command.add.inj (h.sole _ hadd hreach)] at hcase
  exact hcase

/-- The cell holds what the rule yields, if no rule that it spawns has to do with the cell. -/
theorem view_eq (h : preparation.Sole root cell) (houtputs : root.outputs = [cell])
    (hspawned : ∀ rule ∈ (Rule.effect preparation.setting root preparation.final.view).spawned,
      cell ∉ rule.outputs) :
    preparation.final.view cell = root.result? preparation.setting preparation.final.view := by
  apply view_of_rule h.rule_mem houtputs h.not_set
  intro rule hrule value hwrite
  rcases h.eq_or_spawned hrule (mem_outputs_of_cellWrites hwrite) with heq | ⟨_, hmem⟩
  · exact heq
  · exact absurd (mem_outputs_of_cellWrites hwrite) (hspawned rule hmem)

theorem view_of_weight (h : preparation.Sole root cell) (houtputs : root.outputs = [cell])
    (hweight : root.weight = 1) :
    preparation.final.view cell = root.result? preparation.setting preparation.final.view := by
  apply h.view_eq houtputs
  intro rule hrule
  have htwo : root.weight = 2 := (Rule.weight_of_spawned hrule).1
  omega

theorem view_of_spawned (h : preparation.Sole root cell)
    (hroot : ∀ value, ¬ preparation.Writes root cell value)
    (hready : root.ready preparation.final.view) {rule : Rule} (houtputs : rule.outputs = [cell])
    (hspawned :
      (Rule.effect preparation.setting root preparation.final.view).spawned = [rule]) :
    preparation.final.view cell = rule.result? preparation.setting preparation.final.view := by
  have hmem : rule ∈ (Rule.effect preparation.setting root preparation.final.view).spawned := by
    rw [hspawned]
    exact List.mem_cons_self
  apply view_of_rule (mem_rules.mpr (.inr ⟨root, h.added, hready, hmem⟩)) houtputs h.not_set
  intro other hother value hwrite
  rcases h.eq_or_spawned hother (mem_outputs_of_cellWrites hwrite) with rfl | ⟨_, hmem⟩
  · exact absurd hwrite (hroot value)
  · rw [hspawned] at hmem
    exact List.mem_singleton.mp hmem

theorem view_eq_none (h : preparation.Sole root cell)
    (hroot : root.ready preparation.final.view → ∀ value, ¬ preparation.Writes root cell value)
    (hspawned : root.ready preparation.final.view → ∀ rule ∈
      (Rule.effect preparation.setting root preparation.final.view).spawned,
        cell ∉ rule.outputs) :
    preparation.final.view cell = none := by
  rw [← Option.not_isSome_iff_eq_none, preparation.settled.isSome_view cell]
  intro ⟨value, hsource⟩
  rcases hsource with hset | ⟨rule, hrule, hsupplies, hwrite⟩
  · exact h.not_set value hset
  · rcases h.eq_or_spawned hrule (mem_outputs_of_cellWrites hwrite) with rfl | ⟨hready, hmem⟩
    · exact hroot (Rule.supplies_iff.mp hsupplies) value hwrite
    · exact hspawned hready rule hmem (mem_outputs_of_cellWrites hwrite)

theorem view_of_find (h : preparation.Sole root cell) {node : NodeId} {cause : Cause}
    (heffect : Rule.effect preparation.setting root preparation.final.view =
      Effect.find node cause) : preparation.final.view cell = none := by
  apply h.view_eq_none
  · intro _ value hwrite
    rw [Writes, Engine.cellWrites, heffect] at hwrite
    cases hwrite
  · rw [heffect]
    intro _ rule hmem
    cases hmem

theorem view_of_write (h : preparation.Sole root cell) (hready : root.ready preparation.final.view)
    (hspawned : ∀ rule ∈ (Rule.effect preparation.setting root preparation.final.view).spawned,
      cell ∉ rule.outputs) {value : Value}
    (hvalue : ∀ other, preparation.Writes root cell other ↔ other = value) :
    preparation.final.view cell = some value := by
  obtain ⟨held, hheld⟩ := Option.isSome_iff_exists.mp ((preparation.settled.isSome_view cell).mpr
    ⟨value, .inr ⟨root, h.rule_mem, Rule.supplies_iff.mpr hready, (hvalue value).mpr rfl⟩⟩)
  rcases preparation.settled.view_eq cell held hheld with hset | ⟨rule, hrule, _, hwrite⟩
  · exact absurd hset (h.not_set held)
  · rcases h.eq_or_spawned hrule (mem_outputs_of_cellWrites hwrite) with rfl | ⟨_, hmem⟩
    · rw [hheld, (hvalue held).mp hwrite]
    · exact absurd (mem_outputs_of_cellWrites hwrite) (hspawned rule hmem)

end Sole

end Preparation

namespace Analysis

theorem ofTree_eq {config : Config} {tree : Tree} {preparation : Preparation}
    (h : Preparation.ofTree config tree = .ok preparation) :
    ofTree config tree = .ok
      { engine := preparation.final, scopes := preparation.binder.scopes } := by
  rw [ofTree, h]
  rfl

theorem exists_of_any {config : Config} {tree : Tree} {test : Analysis → Bool}
    (h : (ofTree config tree).toOption.any test) :
    ∃ analysis, ofTree config tree = .ok analysis ∧ test analysis := by
  cases hanalysis : ofTree config tree with
  | error fault =>
    rw [hanalysis] at h
    cases h
  | ok analysis =>
    rw [hanalysis] at h
    exact ⟨analysis, rfl, h⟩

theorem ofTree_eq_error {fault : Fault} :
    ofTree config tree = .error fault ↔ tree.walk = .error fault := by
  rw [← @Preparation.ofTree_eq_error config, ofTree]
  cases Preparation.ofTree config tree with
  | error found => simp [bind, Except.bind]
  | ok preparation => simp [bind, Except.bind, pure, Except.pure]

theorem exists_preparation {analysis : Analysis} (h : ofTree config tree = .ok analysis) :
    ∃ preparation, Preparation.ofTree config tree = .ok preparation ∧
      analysis.engine = preparation.final ∧ analysis.scopes = preparation.binder.scopes := by
  rw [ofTree] at h
  cases hpreparation : Preparation.ofTree config tree with
  | error found =>
    rw [hpreparation] at h
    cases h
  | ok preparation =>
    rw [hpreparation] at h
    cases h
    exact ⟨preparation, rfl, rfl, rfl⟩

end Analysis

end Attribution
