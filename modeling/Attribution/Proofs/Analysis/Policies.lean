import Attribution.Proofs.Analysis.Names
/-!
# Policies on duplicates

The two policies differ where a name is declared a second time and not as a predicate once more:
one finds fault with the second declaration, the other puts it in place of the first. So where the
first policy finds no fault, the binder goes the same way under both, step by step, and the analysis
is the same.
-/
namespace Attribution

/-- Whether fault is found with a second declaration. -/
def Command.reportsDuplicate : Command Rule → Bool
  | report finding => finding.kind = .duplicateDeclaration
  | _ => false

namespace Binder

variable {tree : Tree}

theorem declare_lastWins {binder : Binder} {name : String} {decl : NodeId}
    (h : ∀ command ∈ (binder.declare tree .report name decl).2,
      command.reportsDuplicate = false) :
    binder.declare tree .lastWins name decl = binder.declare tree .report name decl := by
  unfold declare at h ⊢
  cases hheld : binder.scopes.declare binder.current name (.node decl) with
  | ok scopes => rfl
  | error existing =>
    rw [hheld] at h
    simp only at h ⊢
    split
    next => rfl
    next hfresh =>
      rw [if_neg hfresh] at h
      exact absurd (h _ List.mem_cons_self) (by simp [Command.reportsDuplicate, Finding.kind,
        Cause.kind])

theorem act_lastWins {binder : Binder} {action : Action}
    (h : ∀ command ∈ (binder.act tree .report action).2, command.reportsDuplicate = false) :
    binder.act tree .lastWins action = binder.act tree .report action := by
  cases action with
  | declare name decl => exact declare_lastWins h
  | _ => rfl

theorem actAll_lastWins {binder : Binder} {actions : List Action}
    (h : ∀ command ∈ (binder.actAll tree .report actions).2, command.reportsDuplicate = false) :
    binder.actAll tree .lastWins actions = binder.actAll tree .report actions := by
  induction actions generalizing binder with
  | nil => rfl
  | cons action rest ih =>
    simp only [actAll, List.forall_mem_append] at h ⊢
    rw [act_lastWins h.1, ih h.2]

theorem reportsDuplicate_redeclared (name : String) (existing : Entity) (decl : NodeId) :
    ∀ command ∈ redeclared tree name existing decl, command.reportsDuplicate = false := by
  intro command hcommand
  unfold redeclared at hcommand
  split at hcommand
  · split at hcommand
    · cases hcommand
    · cases List.mem_singleton.mp hcommand
      rfl
  · cases hcommand

theorem reportsDuplicate_lastWins (binder : Binder) (action : Action) :
    ∀ command ∈ (binder.act tree .lastWins action).2, command.reportsDuplicate = false := by
  intro command hcommand
  cases command with
  | set | add => rfl
  | report finding =>
    rcases report_cases hcommand with ⟨name, rfl, _⟩ | ⟨name, _, hcause⟩
    · simp only [act, declare] at hcommand
      split at hcommand
      · cases hcommand
      · split at hcommand
        · exact reportsDuplicate_redeclared _ _ _ _ hcommand
        · cases hcommand
    · simp [Command.reportsDuplicate, Finding.kind, Cause.kind, hcause]

end Binder

namespace Preparation

variable {config : Config} {tree : Tree} {preparation : Preparation}

theorem report_of_duplicate {finding : Finding}
    (hfinding : finding ∈ preparation.final.findings)
    (hkind : finding.kind = .duplicateDeclaration) : .report finding ∈ preparation.commands := by
  rcases mem_findings.mp hfinding with hreport | ⟨rule, hadd, _, hmem⟩
  · exact hreport
  · obtain ⟨node, cause⟩ := finding
    have haccuses := Rule.accuses_effect _ _ _ _ hmem
    cases haccuses <;> cases hkind

/-- A preparation that finds fault with no second declaration is the same under both policies. -/
theorem ofTree_lastWins {name : String}
    (h : ofTree { placeholderName := name, duplicates := .report } tree = .ok preparation)
    (hquiet : ∀ command ∈ preparation.commands, command.reportsDuplicate = false) :
    ofTree { placeholderName := name, duplicates := .lastWins } tree = .ok preparation := by
  obtain ⟨actions, hwalk, _, hcommands, _⟩ := ofTree_eq_ok h
  rw [hcommands, List.forall_mem_append] at hquiet
  rw [← h, ofTree, ofTree, hwalk]
  simp only [bind, Except.bind, Binder.actAll_lastWins hquiet.2]

end Preparation

/-- Where the analysis finds fault with no second declaration, nothing changes if the last
declaration wins; and then no fault is found with a second declaration. A tree that cannot be walked
cannot be analysed under either policy. -/
theorem last_wins_conservative (name : String) (tree : Tree) :
    let reporting : Config := { placeholderName := name, duplicates := .report }
    let replacing : Config := { placeholderName := name, duplicates := .lastWins }
    (∀ fault, Analysis.ofTree reporting tree = .error fault ↔
      Analysis.ofTree replacing tree = .error fault) ∧
    (∀ analysis, Analysis.ofTree reporting tree = .ok analysis →
      (∀ finding ∈ analysis.findings, finding.kind ≠ .duplicateDeclaration) →
        Analysis.ofTree replacing tree = .ok analysis) ∧
    ∀ analysis, Analysis.ofTree replacing tree = .ok analysis →
      ∀ finding ∈ analysis.findings, finding.kind ≠ .duplicateDeclaration := by
  intro reporting replacing
  refine ⟨?_, ?_, ?_⟩
  · intro fault
    rw [Analysis.ofTree_eq_error, Analysis.ofTree_eq_error]
  · intro analysis h hquiet
    obtain ⟨preparation, hpreparation, hengine, _⟩ := Analysis.exists_preparation h
    have hcommands : ∀ command ∈ preparation.commands, command.reportsDuplicate = false := by
      intro command hcommand
      cases command with
      | set | add => rfl
      | report finding =>
        have hmem := Preparation.mem_findings.mpr (.inl hcommand)
        rw [← hengine] at hmem
        exact decide_eq_false (hquiet finding hmem)
    rw [← h, Analysis.ofTree, Analysis.ofTree, hpreparation,
      Preparation.ofTree_lastWins hpreparation hcommands]
  · intro analysis h finding hfinding hkind
    obtain ⟨preparation, hpreparation, hengine, _⟩ := Analysis.exists_preparation h
    rw [Analysis.findings, hengine] at hfinding
    obtain ⟨binder, action, _, hact⟩ := Preparation.exists_of_report hpreparation
      (Preparation.report_of_duplicate hfinding hkind)
    exact absurd hkind (of_decide_eq_false (binder.reportsDuplicate_lastWins action _ hact))

/-- A predicate that is declared again, with another number of terms, and a variable that is
declared again, in an inner scope. -/
def Tree.redeclaring : Tree where
  nodes := #[
    { node := .root [1, 3, 6, 9] },
    { node := .fact "p" [2] },
    { node := .literal (.term "a") },
    { node := .fact "p" [4, 5] },
    { node := .literal (.term "b") },
    { node := .literal (.term "c") },
    { node := .varDecl "x" 7 8 },
    { node := .simpleType "Int" },
    { node := .literal (.int 1) },
    { node := .block [10] },
    { node := .varDecl "x" 11 12 },
    { node := .simpleType "Int" },
    { node := .literal (.int 2) }]
  root := 0

/-- A variable that is declared again, with another type, and then used. -/
def Tree.replacing : Tree where
  nodes := #[
    { node := .root [1, 4, 7] },
    { node := .varDecl "x" 2 3 },
    { node := .simpleType "Int" },
    { node := .literal (.int 1) },
    { node := .varDecl "x" 5 6 },
    { node := .simpleType "Term" },
    { node := .literal (.term "a") },
    { node := .expressionStatement 8 },
    { node := .reference "x" }]
  root := 0

theorem last_wins_conservative_redeclaring :
    (∃ analysis, Analysis.ofTree {} Tree.redeclaring = .ok analysis ∧
      analysis.findings.map Finding.kind = [.arityMismatch] ∧
      Analysis.ofTree { duplicates := .lastWins } Tree.redeclaring = .ok analysis) ∧
    ∃ first last, Analysis.ofTree {} Tree.replacing = .ok first ∧
      first.findings.map Finding.kind = [.duplicateDeclaration] ∧
      Analysis.ofTree { duplicates := .lastWins } Tree.replacing = .ok last ∧
      first.declOf? 8 = some (.node 1) ∧ last.declOf? 8 = some (.node 4) ∧
      ∀ finding ∈ last.findings, finding.kind ≠ .duplicateDeclaration := by
  obtain ⟨analysis, hanalysis, hkinds⟩ := Analysis.exists_of_any
    (show (Analysis.ofTree {} Tree.redeclaring).toOption.any (fun analysis =>
      analysis.findings.map Finding.kind = [.arityMismatch]) = true by decide +kernel)
  obtain ⟨first, hfirst, hfound⟩ := Analysis.exists_of_any
    (show (Analysis.ofTree {} Tree.replacing).toOption.any (fun analysis =>
      analysis.findings.map Finding.kind = [.duplicateDeclaration] &&
        analysis.declOf? 8 = some (.node 1)) = true by decide +kernel)
  obtain ⟨last, hlast, hdecl⟩ := Analysis.exists_of_any
    (show (Analysis.ofTree { duplicates := .lastWins } Tree.replacing).toOption.any (fun analysis =>
      analysis.declOf? 8 = some (.node 4)) = true by decide +kernel)
  simp only [Bool.and_eq_true, decide_eq_true_eq] at hkinds hfound hdecl
  obtain ⟨_, hsame, _⟩ := last_wins_conservative "T" Tree.redeclaring
  obtain ⟨_, _, hnone⟩ := last_wins_conservative "T" Tree.replacing
  refine ⟨⟨analysis, hanalysis, hkinds, hsame analysis hanalysis ?_⟩,
    first, last, hfirst, hfound.1, hlast, hfound.2, hdecl, hnone last hlast⟩
  intro finding hfinding hkind
  have hmem := List.mem_map_of_mem (f := Finding.kind) hfinding
  rw [hkinds, hkind] at hmem
  exact absurd hmem (by decide)

end Attribution
