import Attribution.Proofs.Tree.Shape
/-!
# Control flow

Control runs through statements one after the other. Conditions may go either way, and bodies of
loops run any number of times, while a return statement leaves the function; the statements of a
function that is declared on the way are not run. Control runs through a block exactly if it runs
through all of its statements, and through a conditional if it runs through one of its branches.
-/
namespace Attribution

theorem Node.isReturnContainer_of_isBlock {node : Node} (h : node.isBlock) :
    node.isReturnContainer := by
  cases node <;> first | rfl | cases h

/-- The ways that control can take from a statement: the statements to which it goes before the one
that follows. A loop comes again after its body. -/
def Node.ways (id : NodeId) : Node → List (List NodeId)
  | block statements => [statements]
  | conditional _ thenBranch elseBranch => [[thenBranch], elseBranch.toList]
  | whileLoop _ body | forLoop _ _ _ body => [[], [body, id]]
  | varDecl .. | funDecl .. | structDecl .. | expressionStatement _ | fact .. | clause ..
  | query _ => [[]]
  | _ => []

theorem Node.nil_mem_ways {id : NodeId} {node : Node} (h : node.isStatement)
    (hflag : node.isReturnContainer = false) : [] ∈ node.ways id := by
  cases node with
  | block | conditional | returnStatement => cases hflag
  | varDecl | funDecl | structDecl | whileLoop | forLoop | expressionStatement | fact | clause
  | query => exact List.mem_cons_self
  | _ => cases h

namespace Tree

/-- How control comes out of statements. -/
inductive Ending where
  /-- Off their end. -/
  | falls
  /-- Out of the function. -/
  | leaves
deriving DecidableEq, Repr

/-- A path of control through a sequence of statements: the statements to which it comes in turn,
and how it comes out. -/
inductive Runs (tree : Tree) : List NodeId → List NodeId → Ending → Prop
  | fall : Runs tree [] [] .falls
  | step {id : NodeId} {node : Node} {way rest steps : List NodeId} {ending : Ending} :
    tree.node? id = some node → way ∈ node.ways id → Runs tree (way ++ rest) steps ending →
      Runs tree (id :: rest) (id :: steps) ending
  | leave {id : NodeId} {expression : Option NodeId} {rest : List NodeId} :
    tree.node? id = some (.returnStatement expression) → Runs tree (id :: rest) [id] .leaves

/-- Some path through the statements falls off their end. -/
def FallsThrough (tree : Tree) (ids : List NodeId) : Prop := ∃ steps, tree.Runs ids steps .falls

variable {tree : Tree} {id : NodeId} {ids others : List NodeId}

theorem Runs.append {steps next : List NodeId} {ending : Ending} (h : tree.Runs ids steps .falls)
    (hnext : tree.Runs others next ending) : tree.Runs (ids ++ others) (steps ++ next) ending := by
  generalize hends : Ending.falls = ends at h
  induction h with
  | fall => exact hnext
  | step hnode hway _ ih =>
    have hrun := ih hends
    rw [List.append_assoc] at hrun
    exact .step hnode hway hrun
  | leave => cases hends

theorem Runs.split {between steps : List NodeId} (h : tree.Runs between steps .falls)
    (hbetween : between = ids ++ others) : tree.FallsThrough ids ∧ tree.FallsThrough others := by
  generalize hends : Ending.falls = ends at h
  induction h generalizing ids others with
  | fall =>
    obtain ⟨rfl, rfl⟩ := List.append_eq_nil_iff.mp hbetween.symm
    exact ⟨⟨[], .fall⟩, [], .fall⟩
  | @step id node way rest steps ending hnode hway hrest ih =>
    subst hends
    rcases List.cons_eq_append_iff.mp hbetween with ⟨rfl, rfl⟩ | ⟨front, rfl, rfl⟩
    · exact ⟨⟨[], .fall⟩, _, .step hnode hway hrest⟩
    · obtain ⟨⟨_, hfront⟩, hothers⟩ := ih (List.append_assoc way front others).symm rfl
      exact ⟨⟨_, .step hnode hway hfront⟩, hothers⟩
  | leave => cases hends

theorem fallsThrough_nil : tree.FallsThrough [] := ⟨[], .fall⟩

theorem fallsThrough_append :
    tree.FallsThrough (ids ++ others) ↔ tree.FallsThrough ids ∧ tree.FallsThrough others := by
  constructor
  · intro ⟨steps, h⟩
    exact h.split rfl
  · intro ⟨⟨_, hids⟩, _, hothers⟩
    exact ⟨_, hids.append hothers⟩

theorem fallsThrough_iff : tree.FallsThrough ids ↔ ∀ id ∈ ids, tree.FallsThrough [id] := by
  induction ids with
  | nil => simp [fallsThrough_nil]
  | cons id ids ih =>
    rw [← List.singleton_append, fallsThrough_append, ih, List.singleton_append,
      List.forall_mem_cons]

theorem fallsThrough_single {node : Node} (hnode : tree.node? id = some node) :
    tree.FallsThrough [id] ↔ ∃ way ∈ node.ways id, tree.FallsThrough way := by
  constructor
  · intro ⟨_, h⟩
    cases h with
    | step hfound hway hrest =>
      cases Option.some.inj (hnode.symm.trans hfound)
      rw [List.append_nil] at hrest
      exact ⟨_, hway, _, hrest⟩
  · intro ⟨way, hway, steps, h⟩
    refine ⟨id :: steps, .step hnode hway ?_⟩
    rw [List.append_nil]
    exact h

theorem fallsThrough_block {statements : List NodeId}
    (hnode : tree.node? id = some (.block statements)) :
    tree.FallsThrough [id] ↔ tree.FallsThrough statements := by
  simp [fallsThrough_single hnode, Node.ways]

theorem fallsThrough_conditional {condition thenBranch : NodeId} {elseBranch : Option NodeId}
    (hnode : tree.node? id = some (.conditional condition thenBranch elseBranch)) :
    tree.FallsThrough [id] ↔
      tree.FallsThrough [thenBranch] ∨ tree.FallsThrough elseBranch.toList := by
  simp [fallsThrough_single hnode, Node.ways]

theorem not_fallsThrough_return {expression : Option NodeId}
    (hnode : tree.node? id = some (.returnStatement expression)) : ¬ tree.FallsThrough [id] := by
  simp [fallsThrough_single hnode, Node.ways]

/-- Only statements that carry a flag can keep control from running on. -/
theorem fallsThrough_of_statement (h : tree.satisfies id Node.isStatement)
    (hflag : tree.satisfies id Node.isReturnContainer = false) : tree.FallsThrough [id] := by
  obtain ⟨node, hnode, hkind⟩ := satisfies_iff.mp h
  have hplain : node.isReturnContainer = false := by
    rw [← Bool.not_eq_true] at hflag ⊢
    exact fun htrue => hflag ((satisfies_of_node hnode).mpr htrue)
  exact (fallsThrough_single hnode).mpr ⟨[], Node.nil_mem_ways hkind hplain, fallsThrough_nil⟩

end Tree
end Attribution
