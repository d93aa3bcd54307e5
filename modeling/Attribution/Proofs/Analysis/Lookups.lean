import Attribution.Proofs.Analysis.Entities
/-!
# Two lookups of names

Names are looked up twice: by what the binder has noted on its walk, to settle before any rule runs
what depends on a placeholder, and by commands and rules, which give a node the entity that it
stands for. Both come to the same, also where a name is declared after its use or declared again.
-/
namespace Attribution

open Analysis in
/-- In a tree where no two paths lead to one node, what the binder knows references to stand for is
what they stand for in the end. A type name stands for the same if that is a type; if it is not,
this is found and the name stands for nothing. -/
theorem lookups_agree (config : Config) {tree : Tree} (hunshared : tree.Unshared) :
    (∀ preparation, Preparation.ofTree config tree = .ok preparation →
      ∃ analysis, ofTree config tree = .ok analysis ∧
        Dependence.of tree (preparation.binder.entity? tree) =
          .ok preparation.setting.dependence ∧
        (∀ id name, tree.node? id = some (.reference name) → ∀ entity,
          preparation.binder.entity? tree id = some entity ↔ analysis.declOf? id = some entity) ∧
        ∀ id name, tree.node? id = some (.simpleType name) → ∀ entity,
          (analysis.declOf? id = some entity ↔
            preparation.binder.entity? tree id = some entity ∧ entity.isType tree = true) ∧
          (preparation.binder.entity? tree id = some entity → entity.isType tree = false →
            analysis.declOf? id = none ∧
              { node := id, cause := .notAType name (entity.describe tree) } ∈
                analysis.findings)) ∧
      (tree.Closed → ∃ preparation, Preparation.ofTree config tree = .ok preparation) := by
  refine ⟨?_, ?_⟩
  · intro preparation h
    refine ⟨_, ofTree_eq h, Preparation.dependence_eq h, ?_, ?_⟩
    · intro id name hnode entity
      rw [Preparation.entity?_of_reference hunshared h hnode]
      rfl
    · intro id name hnode entity
      obtain ⟨hdecl, hfound⟩ := Preparation.simpleType_entity? hunshared h hnode
      have hends : preparation.final.view.decl? id = some entity ↔
          preparation.binder.entity? tree id = some entity ∧ entity.isType tree = true := by
        rw [hdecl, Option.filter_eq_some_iff]
      refine ⟨hends, ?_⟩
      intro hentity htype
      refine ⟨?_, hfound entity hentity htype⟩
      change preparation.final.view.decl? id = none
      rw [hdecl, hentity, Option.filter_some, if_neg (ne_true_of_eq_false htype)]
  · intro hclosed
    obtain ⟨actions, hwalk⟩ := (hclosed.acyclic hunshared).exists_walk hclosed
    exact Preparation.exists_of_walk hwalk config

/-- A variable `x` is used and then declared again, for the type of which its own name is taken. A
variable `y` is used before it is declared. -/
def Tree.replaced : Tree where
  nodes := #[
    { node := .root [1, 4, 6, 8, 11] },
    { node := .varDecl "x" 2 3 },
    { node := .simpleType "Int" },
    { node := .literal (.int 1) },
    { node := .expressionStatement 5 },
    { node := .reference "x" },
    { node := .expressionStatement 7 },
    { node := .reference "y" },
    { node := .varDecl "x" 9 10 },
    { node := .simpleType "x" },
    { node := .literal (.int 2) },
    { node := .varDecl "y" 12 13 },
    { node := .simpleType "Int" },
    { node := .reference "x" }]
  root := 0

/-- The first use of `x` keeps the first declaration, which the scope has lost in the end. -/
theorem lookups_agree_replaced :
    Tree.replaced.Unshared ∧ ∃ preparation analysis,
      Preparation.ofTree { duplicates := .lastWins } Tree.replaced = .ok preparation ∧
      Analysis.ofTree { duplicates := .lastWins } Tree.replaced = .ok analysis ∧
      analysis.declOf? 5 = some (.node 1) ∧ analysis.declOf? 7 = some (.node 11) ∧
      analysis.declOf? 13 = some (.node 8) ∧ analysis.declOf? 9 = none ∧
      { node := 9, cause := .notAType "x" "variable" } ∈ analysis.findings := by
  have hlast : Tree.replaced.layer Tree.replaced.size = [] := by decide +kernel
  have hunshared : Tree.replaced.Unshared := Tree.unshared_of_places hlast (by decide +kernel)
  have hclosed : Tree.replaced.Closed := Tree.closed_of_places hlast (by decide +kernel)
  obtain ⟨hagree, hprepared⟩ := lookups_agree { duplicates := .lastWins } hunshared
  obtain ⟨preparation, h⟩ := hprepared hclosed
  have hknown : ∀ id entity,
      ((Preparation.ofTree { duplicates := .lastWins } Tree.replaced).toOption.bind
        fun preparation => preparation.binder.entity? Tree.replaced id) = some entity →
      preparation.binder.entity? Tree.replaced id = some entity := by
    intro id entity hentity
    rw [h] at hentity
    exact hentity
  obtain ⟨analysis, hanalysis, _, hreference, htype⟩ := hagree preparation h
  obtain ⟨hnone, hfound⟩ := (htype 9 "x" rfl (.node 8)).2 (hknown 9 _ (by decide +kernel)) rfl
  exact ⟨hunshared, preparation, analysis, h, hanalysis,
    (hreference 5 "x" rfl _).mp (hknown 5 _ (by decide +kernel)),
    (hreference 7 "y" rfl _).mp (hknown 7 _ (by decide +kernel)),
    (hreference 13 "x" rfl _).mp (hknown 13 _ (by decide +kernel)), hnone, hfound⟩

end Attribution
