import Attribution.Proofs.Tree.Nesting
/-!
# Traversal order

A tree lists its nodes from the root downward and from left to right. The walk enters the nodes that
open scopes in this order.
-/
namespace Attribution

open Attribution.Part

namespace Tree

variable {tree : Tree} {path : List Nat} {id : NodeId} {expectation : Expectation}

/-- The root alone is a root, one path leads to each node, and clauses are headed by atoms. -/
structure Regular (tree : Tree) : Prop where
  rooted : tree.Rooted
  closed : tree.Closed
  unshared : tree.Unshared
  headed : tree.Headed

theorem WellFormed.regular (hwell : tree.WellFormed) : tree.Regular where
  rooted := hwell.rooted
  closed := hwell.closed
  unshared := hwell.unshared
  headed := hwell.headed

theorem Regular.acyclic (h : tree.Regular) : tree.Acyclic := h.closed.acyclic h.unshared

theorem Regular.exists_walk (h : tree.Regular) : ∃ list, tree.walk = .ok list :=
  h.acyclic.exists_walk h.closed

theorem below_succ {node : Node} (hnode : tree.node? id = some node) (n : Nat) :
    tree.below (n + 1) id expectation = (id, expectation) ::
      (node.offspring id expectation).flatMap fun child => tree.below n child.1 child.2 := by
  rw [below, hnode, Option.toList_some, List.flatMap_singleton]

theorem Leads.of_append {way : List Nat} {found : NodeId} {lent : Expectation}
    (h : tree.Leads (way ++ path) found lent) :
    ∃ id expectation, tree.Leads path id expectation := by
  induction way generalizing found lent with
  | nil => exact ⟨found, lent, h⟩
  | cons place way ih =>
    cases h with
    | child hparent _ _ => exact ih hparent

theorem Regular.below_eq (hregular : tree.Regular) (h : tree.Leads path id expectation)
    {n m : Nat} (hn : tree.size ≤ path.length + n) (hm : tree.size ≤ path.length + m) :
    tree.below m id expectation = tree.below n id expectation := by
  have hlt := hregular.acyclic.length_lt_size hregular.closed h
  induction n generalizing path id expectation m with
  | zero => omega
  | succ n ih =>
    obtain ⟨m, rfl⟩ := Nat.exists_eq_succ_of_ne_zero (n := m) (by omega)
    obtain ⟨node, hnode⟩ := hregular.closed _ _ _ h
    rw [below_succ hnode, below_succ hnode]
    congr 1
    apply List.flatMap_congr
    intro child hchild
    obtain ⟨place, hplace⟩ := List.mem_iff_getElem?.mp hchild
    have hleads := h.child hnode hplace
    have hdeeper := hregular.acyclic.length_lt_size hregular.closed hleads
    rw [List.length_cons] at hdeeper
    exact ih hleads (by rw [List.length_cons]; omega) (by rw [List.length_cons]; omega)
      (by rw [List.length_cons]; exact hdeeper)

/-- The nodes of a tree, each before what lies below it, and this from left to right. -/
def preorder (tree : Tree) : List NodeId :=
  (tree.below tree.size tree.root .nothing).map Prod.fst

/-- What stands in a part in some respect, given what the visits come to. -/
def entries (key : Action → Option NodeId) (visited : NodeId × Expectation → List NodeId) :
    Part → List NodeId
  | .act action => (key action).toList
  | .visit id expectation => visited (id, expectation)
  | .need _ => []

/-- The nodes of a kind, and no others, act in some respect, each for itself and before it visits
anything. Atoms are not of this kind. -/
structure ActsFirst (tree : Tree) (key : Action → Option NodeId) (kind : Node → Bool) : Prop where
  first : ∀ visited id expectation node, tree.node? id = some node →
    (tree.parts id node expectation).flatMap (entries key visited) =
      (if kind node then [id] else []) ++ (tree.visits id expectation node).flatMap visited
  atom : ∀ name terms, kind (.atom name terms) = false

/-- The places on a trail whose nodes are of a kind. -/
def trailOf (tree : Tree) (kind : Node → Bool) (depth : Nat) (place : NodeId × Expectation) :
    List NodeId :=
  ((tree.trail depth place.1 place.2).filter fun place => tree.satisfies place.1 kind).map Prod.fst

variable {key : Action → Option NodeId} {kind : Node → Bool}

theorem flatMap_entries_of_none (visited : NodeId × Expectation → List NodeId)
    {parts : List Part} (h : ∀ action, .act action ∈ parts → key action = none) :
    parts.flatMap (entries key visited) = (parts.filterMap visited?).flatMap visited := by
  induction parts with
  | nil => rfl
  | cons part parts ih =>
    have hrest := ih fun action hmem => h action (List.mem_cons_of_mem _ hmem)
    rw [List.flatMap_cons, hrest]
    cases part with
    | act action =>
      rw [entries, h action List.mem_cons_self]
      rfl
    | visit id expectation => rfl
    | need id => rfl

theorem ActsFirst.filterMap_visit (hfirst : tree.ActsFirst key kind) {depth : Nat}
    {list : List Action} (h : tree.visit depth id expectation = .ok list) :
    list.filterMap key = tree.trailOf kind depth (id, expectation) := by
  induction depth generalizing id expectation list with
  | zero => cases h
  | succ depth ih =>
    obtain ⟨node, hnode, lists, hlists, rfl⟩ := visit_eq_ok_iff.mp h
    have hparts : ∀ (parts : List Part) (lists : List (List Action)), List.Forall₂
        (fun part list => tree.follow (tree.visit depth) part = .ok list) parts lists →
        lists.flatten.filterMap key = parts.flatMap (entries key (tree.trailOf kind depth)) := by
      intro parts lists hall
      induction hall with
      | nil => rfl
      | @cons part list parts lists hpart _ ihparts =>
        rw [List.flatten_cons, List.filterMap_append, ihparts, List.flatMap_cons]
        congr 1
        cases part with
        | act action =>
          cases hpart
          rw [List.filterMap_cons, entries]
          cases key action <;> rfl
        | visit child lent => exact ih hpart
        | need child =>
          rw [eq_nil_of_need hpart]
          rfl
    have hkind : tree.satisfies id kind = kind node := by
      rw [satisfies, hnode, Option.any_some]
    rw [hparts _ _ hlists, hfirst.first _ _ _ _ hnode, trailOf, trail, hnode, Option.toList_some,
      List.flatMap_singleton, List.filter_cons, List.filter_flatMap, hkind]
    have hvisits : (((tree.visits id expectation node).flatMap fun child =>
        (tree.trail depth child.1 child.2).filter fun place =>
          tree.satisfies place.1 kind).map Prod.fst) =
        (tree.visits id expectation node).flatMap (tree.trailOf kind depth) := List.map_flatMap
    cases kind node with
    | false => exact hvisits.symm
    | true => exact congrArg (id :: ·) hvisits.symm

theorem Headed.filter_trail (hheaded : tree.Headed)
    (hatom : ∀ name terms, kind (.atom name terms) = false) {depth n : Nat} {list : List Action}
    (h : tree.visit depth id expectation = .ok list) (hn : 2 * depth ≤ n) :
    ((tree.trail depth id expectation).filter fun place => tree.satisfies place.1 kind) =
      (tree.below n id expectation).filter fun place => tree.satisfies place.1 kind := by
  induction depth generalizing n id expectation list with
  | zero => cases h
  | succ depth ih =>
    obtain ⟨n, rfl⟩ : ∃ m, n = m + 2 := ⟨n - 2, by omega⟩
    have hle : 2 * depth ≤ n := by omega
    obtain ⟨node, hnode, lists, hlists, _⟩ := visit_eq_ok_iff.mp h
    have hvisit : ∀ child ∈ tree.visits id expectation node,
        ∃ list, tree.visit depth child.1 child.2 = .ok list := by
      intro child hchild
      obtain ⟨list, _, hfollow⟩ := exists_of_forall₂ hlists (mem_visits.mp hchild)
      exact ⟨list, hfollow⟩
    rw [trail, hnode, Option.toList_some, List.flatMap_singleton, below_succ hnode,
      List.filter_cons, List.filter_cons]
    suffices hsame : ((tree.visits id expectation node).flatMap fun child =>
        tree.trail depth child.1 child.2).filter (fun place => tree.satisfies place.1 kind) =
        ((node.offspring id expectation).flatMap fun child =>
          tree.below (n + 1) child.1 child.2).filter fun place => tree.satisfies place.1 kind by
      rw [hsame]
    rw [List.filter_flatMap, List.filter_flatMap]
    by_cases hclause : ∀ head body, node ≠ .clause head body
    · rw [visits_eq tree id expectation hclause] at hvisit ⊢
      apply List.flatMap_congr
      intro child hchild
      obtain ⟨list, hlist⟩ := hvisit child hchild
      exact ih hlist (Nat.le_succ_of_le hle)
    · simp only [not_forall, not_not] at hclause
      obtain ⟨head, body, rfl⟩ := hclause
      -- the walk goes past the head, an atom, to its terms, which lie two levels below the clause
      obtain ⟨name, terms, hhead⟩ := exists_atom (hheaded _ _ _ hnode)
      rw [visits_clause, atomTerms_eq hhead, List.map_append] at hvisit ⊢
      have hbody : (body.map fun child => (child, Expectation.nothing)).flatMap (fun child =>
          (tree.trail depth child.1 child.2).filter fun place => tree.satisfies place.1 kind) =
          (body.map fun child => (child, Expectation.nothing)).flatMap fun child =>
            (tree.below (n + 1) child.1 child.2).filter fun place =>
              tree.satisfies place.1 kind := by
        apply List.flatMap_congr
        intro child hchild
        obtain ⟨list, hlist⟩ := hvisit child (List.mem_append_right _ hchild)
        exact ih hlist (Nat.le_succ_of_le hle)
      have hterms : (terms.map fun child => (child, Expectation.nothing)).flatMap (fun child =>
          (tree.trail depth child.1 child.2).filter fun place => tree.satisfies place.1 kind) =
          (tree.below (n + 1) head .nothing).filter fun place =>
            tree.satisfies place.1 kind := by
        have hpassed : tree.satisfies head kind = false := by
          rw [satisfies, hhead, Option.any_some, hatom]
        rw [below_succ hhead, List.filter_cons, hpassed, List.filter_flatMap]
        apply List.flatMap_congr
        intro child hchild
        obtain ⟨list, hlist⟩ := hvisit child (List.mem_append_left _ hchild)
        exact ih hlist hle
      rw [List.flatMap_append, hbody, hterms]
      rfl

/-- The walk acts for all nodes of a kind in traversal order. -/
theorem Regular.filterMap_walk (hregular : tree.Regular) (hfirst : tree.ActsFirst key kind)
    {list : List Action} (h : tree.walk = .ok list) :
    list.filterMap key = tree.preorder.filter fun id => tree.satisfies id kind := by
  have hbelow : tree.below (2 * tree.size) tree.root .nothing =
      tree.below tree.size tree.root .nothing :=
    hregular.below_eq .root (by simp) (by simp; omega)
  rw [hfirst.filterMap_visit h, trailOf, hregular.headed.filter_trail hfirst.atom h (Nat.le_refl _),
    hbelow, preorder, List.filter_map]
  rfl

end Tree
end Attribution
