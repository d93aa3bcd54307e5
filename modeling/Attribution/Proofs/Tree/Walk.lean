import Mathlib.Data.List.Flatten
import Mathlib.Data.List.Forall2
import Attribution.Proofs.Tree.Shape
import Attribution.Traversal
/-!
# The walk over a well-formed tree

The walk over a well-formed tree succeeds. It comes to every node once, heads of clauses apart, and
does there what the node itself asks for.
-/
namespace Attribution

@[simp] theorem flatMap_const_nil {α β : Type} (list : List α) :
    (list.flatMap fun _ => ([] : List β)) = [] :=
  List.flatMap_eq_nil_iff.mpr fun _ _ => rfl

namespace Part

def visited? : Part → Option (NodeId × Expectation)
  | visit id expectation => some (id, expectation)
  | _ => none

def action? : Part → Option Action
  | act action => some action
  | _ => none

@[simp] theorem filterMap_visited_act (action : Action) (parts : List Part) :
    (act action :: parts).filterMap visited? = parts.filterMap visited? := rfl

@[simp] theorem filterMap_visited_visit (id : NodeId) (expectation : Expectation)
    (parts : List Part) : (visit id expectation :: parts).filterMap visited? =
      (id, expectation) :: parts.filterMap visited? := rfl

@[simp] theorem filterMap_visited_need (id : NodeId) (parts : List Part) :
    (need id :: parts).filterMap visited? = parts.filterMap visited? := rfl

@[simp] theorem filterMap_visited_cons_plain (id : NodeId) (parts : List Part) :
    (plain id :: parts).filterMap visited? = (id, .nothing) :: parts.filterMap visited? := rfl

@[simp] theorem filterMap_visited_plain (ids : List NodeId) :
    (ids.filterMap fun id => (plain id).visited?) = ids.map fun id => (id, .nothing) := by
  induction ids with
  | nil => rfl
  | cons id ids ih => exact congrArg ((id, Expectation.nothing) :: ·) ih

@[simp] theorem filterMap_visited_arguments (function : NodeId) (place : Nat)
    (ids : List NodeId) :
    (arguments function place ids).filterMap visited? =
      ids.map fun id => (id, .argument function id) := by
  induction ids generalizing place with
  | nil => rfl
  | cons id ids ih => simp [arguments, ih]

section

variable {α : Type} {gather : Action → List α}

/-- What is gathered of the action that a part may be. -/
def gathered (gather : Action → List α) : Part → List α
  | act action => gather action
  | _ => []

@[simp] theorem gathered_act (action : Action) : (act action).gathered gather = gather action := rfl

@[simp] theorem gathered_add (rule : Rule) :
    (add rule).gathered gather = gather (.add rule) := rfl

@[simp] theorem gathered_visit (id : NodeId) (expectation : Expectation) :
    (visit id expectation).gathered gather = [] := rfl

@[simp] theorem gathered_need (id : NodeId) : (need id).gathered gather = [] := rfl

@[simp] theorem gathered_plain (id : NodeId) : (plain id).gathered gather = [] := rfl

@[simp] theorem flatMap_gathered_plain (ids : List NodeId) :
    (ids.map plain).flatMap (gathered gather) = [] := by
  induction ids with
  | nil => rfl
  | cons id ids ih => exact ih

@[simp] theorem flatMap_gathered_arguments (function : NodeId) (place : Nat) (ids : List NodeId) :
    (arguments function place ids).flatMap (gathered gather) =
      (ids.zipIdx place).flatMap fun found =>
        gather (.write (.index found.1) (.index found.2)) := by
  induction ids generalizing place with
  | nil => rfl
  | cons id ids ih =>
    rw [arguments, List.zipIdx_cons, List.flatMap_cons, List.flatMap_cons, List.flatMap_cons, ih]
    rfl

end

end Part

open Attribution.Part

namespace Tree

def visits (tree : Tree) (id : NodeId) (expectation : Expectation) (node : Node) :
    List (NodeId × Expectation) :=
  (tree.parts id node expectation).filterMap visited?

def actions (tree : Tree) (id : NodeId) (expectation : Expectation) (node : Node) :
    List Action :=
  (tree.parts id node expectation).filterMap action?

theorem flatMap_actions {α : Type} (tree : Tree) (id : NodeId) (expectation : Expectation)
    (node : Node) (gather : Action → List α) :
    (tree.actions id expectation node).flatMap gather =
      (tree.parts id node expectation).flatMap (gathered gather) := by
  rw [actions]
  induction tree.parts id node expectation with
  | nil => rfl
  | cons part parts ih =>
    rw [List.flatMap_cons, ← ih]
    cases part <;> rfl

@[simp] theorem flatMap_gathered_termParts {α : Type} (gather : Action → List α) (tree : Tree)
    (id : NodeId) : (tree.termParts id).flatMap (gathered gather) =
      (tree.declaredTerms id).flatMap fun term => gather (.add (.termType term)) := by
  rw [termParts, List.flatMap_map]
  rfl

theorem filterMap_visited_termParts (tree : Tree) (id : NodeId) :
    (tree.termParts id).filterMap visited? = [] := by
  rw [termParts, List.filterMap_map]
  exact List.filterMap_eq_nil_iff.mpr fun _ _ => rfl

theorem visits_clause (tree : Tree) (id head : NodeId) (expectation : Expectation)
    (body : List NodeId) :
    tree.visits id expectation (.clause head body) =
      (tree.atomTerms head ++ body).map fun child => (child, .nothing) := by
  rw [visits, parts, atomTerms]
  cases tree.atom? head with
  | none => simp [filterMap_visited_termParts]
  | some found => simp [filterMap_visited_termParts]

theorem visits_eq (tree : Tree) (id : NodeId) (expectation : Expectation) {node : Node}
    (h : ∀ head body, node ≠ .clause head body) :
    tree.visits id expectation node = node.offspring id expectation := by
  cases node with
  | clause head body => exact absurd rfl (h head body)
  | arrayLiteral components =>
    cases components with
    | nil => cases expectation <;> rfl
    | cons c cs => simp [visits, parts, add, Node.offspring, Node.children]
  | call function typeArgument arguments =>
    cases typeArgument <;> simp [visits, parts, add, Node.offspring]
  | funDecl name template parameters returnType body =>
    cases template <;> simp [visits, parts, add, Node.offspring, Node.children]
  | conditional condition thenBranch elseBranch =>
    cases elseBranch <;>
      simp [visits, parts, Part.control, add, Node.offspring, Node.children]
  | returnStatement expression =>
    cases expression <;> simp [visits, parts, add, Node.offspring, Node.children]
  | fact | query =>
    simp [visits, parts, Node.offspring, Node.children,
      filterMap_visited_termParts]
  | _ => simp [visits, parts, Part.control, add, Node.offspring, Node.children]

theorem atom?_eq {tree : Tree} {id : NodeId} {name : String} {terms : List NodeId}
    (h : tree.node? id = some (.atom name terms)) : tree.atom? id = some (name, terms) := by
  rw [atom?, h]

theorem exists_atom {tree : Tree} {id : NodeId} (h : tree.satisfies id Node.isAtom) :
    ∃ name terms, tree.node? id = some (.atom name terms) := by
  obtain ⟨node, hnode, hatom⟩ := satisfies_iff.mp h
  cases node <;> first | exact ⟨_, _, hnode⟩ | cases hatom

theorem atomTerms_eq {tree : Tree} {id : NodeId} {name : String} {terms : List NodeId}
    (h : tree.node? id = some (.atom name terms)) : tree.atomTerms id = terms := by
  rw [atomTerms, atom?_eq h]

theorem exists_of_atomTerms {tree : Tree} {id term : NodeId} (h : term ∈ tree.atomTerms id) :
    ∃ name terms, tree.node? id = some (.atom name terms) ∧ term ∈ terms := by
  unfold atomTerms atom? at h
  split at h
  next name terms hatom =>
    split at hatom
    next hnode =>
      cases hatom
      exact ⟨name, terms, hnode, h⟩
    next => cases hatom
  next => cases h

/-- A visit leads downward: to a child, or past the head of a clause to one of its terms. -/
theorem leads_of_visit {tree : Tree} {path : List Nat} {id : NodeId} {expectation : Expectation}
    (h : tree.Leads path id expectation) {node : Node} (hnode : tree.node? id = some node)
    {child : NodeId × Expectation} (hchild : child ∈ tree.visits id expectation node) :
    ∃ below, tree.Leads below child.1 child.2 ∧ path.length < below.length := by
  by_cases hclause : ∀ head body, node ≠ .clause head body
  · rw [visits_eq tree id expectation hclause] at hchild
    obtain ⟨place, hplace⟩ := List.mem_iff_getElem?.mp hchild
    exact ⟨_, h.child hnode hplace, Nat.lt_succ_self _⟩
  · simp only [not_forall, not_not] at hclause
    obtain ⟨head, body, rfl⟩ := hclause
    rw [visits_clause] at hchild
    obtain ⟨found, hfound, rfl⟩ := List.mem_map.mp hchild
    have hlead : tree.Leads (0 :: path) head .nothing := h.child hnode rfl
    rcases List.mem_append.mp hfound with hterm | hbody
    · obtain ⟨name, terms, hhead, hterm⟩ := exists_of_atomTerms hterm
      obtain ⟨place, hplace⟩ := List.mem_iff_getElem?.mp hterm
      refine ⟨place :: 0 :: path, hlead.child hhead ?_, ?_⟩
      · simp [Node.offspring, Node.children, hplace]
      · simp only [List.length_cons]
        omega
    · obtain ⟨place, hplace⟩ := List.mem_iff_getElem?.mp hbody
      refine ⟨(place + 1) :: path, h.child hnode ?_, Nat.lt_succ_self _⟩
      simp [Node.offspring, Node.children, hplace]

/-- The nodes to which the walk comes from a node, itself first, at most `depth` levels down. -/
def trail (tree : Tree) : Nat → NodeId → Expectation → List (NodeId × Expectation)
  | 0, _, _ => []
  | depth + 1, id, expectation =>
    (id, expectation) :: ((tree.node? id).toList.flatMap fun node =>
      (tree.visits id expectation node).flatMap fun child => tree.trail depth child.1 child.2)

theorem mem_trail_succ {tree : Tree} {depth : Nat} {id : NodeId} {expectation : Expectation}
    {node : Node} (hnode : tree.node? id = some node) {found : NodeId × Expectation} :
    found ∈ tree.trail (depth + 1) id expectation ↔ found = (id, expectation) ∨
      ∃ child ∈ tree.visits id expectation node, found ∈ tree.trail depth child.1 child.2 := by
  simp [trail, hnode]

/-- The walk comes to nothing but what lies below, and to nothing twice. -/
theorem trail_sublist_below (tree : Tree) {depth n : Nat} (hle : 2 * depth ≤ n) (id : NodeId)
    (expectation : Expectation) :
    (tree.trail depth id expectation).Sublist (tree.below n id expectation) := by
  induction depth generalizing n id expectation with
  | zero => exact List.nil_sublist _
  | succ depth ih =>
    obtain ⟨m, rfl⟩ : ∃ m, n = m + 2 := ⟨n - 2, by omega⟩
    have hm : 2 * depth ≤ m := by omega
    rw [trail, below]
    apply List.Sublist.cons_cons
    apply List.Sublist.flatMap_right
    intro node _
    by_cases hclause : ∀ head body, node ≠ .clause head body
    · rw [visits_eq tree id expectation hclause]
      apply List.Sublist.flatMap_right
      intro child _
      exact ih (Nat.le_succ_of_le hm) _ _
    · simp only [not_forall, not_not] at hclause
      obtain ⟨head, body, rfl⟩ := hclause
      -- the walk goes past the head to its terms, which lie two levels below the clause
      rw [visits_clause, List.map_append, List.flatMap_append]
      have hbody : ((body.map fun child => (child, Expectation.nothing)).flatMap
          fun child => tree.trail depth child.1 child.2).Sublist
          ((body.map fun child => (child, Expectation.nothing)).flatMap
            fun child => tree.below (m + 1) child.1 child.2) := by
        apply List.Sublist.flatMap_right
        intro child _
        exact ih (Nat.le_succ_of_le hm) _ _
      have hhead : (((tree.atomTerms head).map fun child => (child, Expectation.nothing)).flatMap
          fun child => tree.trail depth child.1 child.2).Sublist
          (tree.below (m + 1) head .nothing) := by
        rw [below]
        apply List.Sublist.cons
        cases hatom : tree.node? head with
        | none => simp [atomTerms, atom?, hatom]
        | some node =>
          cases node with
          | atom name terms =>
            rw [atomTerms_eq hatom, Option.toList_some, List.flatMap_singleton]
            apply List.Sublist.flatMap_right
            intro child _
            exact ih hm _ _
          | _ => simp [atomTerms, atom?, hatom]
      exact hhead.append hbody

/-- The walk comes to a node, from which its type can be taken as told. -/
def Walked (tree : Tree) (id : NodeId) (expectation : Expectation) : Prop :=
  (id, expectation) ∈ tree.trail tree.size tree.root .nothing

theorem leads_of_walked {tree : Tree} {id : NodeId} {expectation : Expectation}
    (h : tree.Walked id expectation) : ∃ path, tree.Leads path id expectation := by
  have hbelow := (tree.trail_sublist_below (Nat.le_refl _) _ _).subset h
  obtain ⟨way, hway⟩ := leads_of_mem_below .root hbelow
  exact ⟨_, hway⟩

theorem Unshared.nodup_trail {tree : Tree} (hunshared : tree.Unshared)
    (hnodes : ∀ id expectation, tree.Walked id expectation → (tree.node? id).isSome) :
    ((tree.trail tree.size tree.root .nothing).map Prod.fst).Nodup := by
  have hpairs := List.Pairwise.sublist (tree.trail_sublist_below (Nat.le_refl _) _ _)
    (hunshared.pairwise_below (2 * tree.size) .root)
  rw [List.Nodup, List.pairwise_map]
  apply hpairs.imp_of_mem
  intro one other hone _ hne
  exact hne (hnodes _ _ hone)

end Tree
end Attribution
