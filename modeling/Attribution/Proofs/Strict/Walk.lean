import Attribution.Proofs.Strict.Lookup
import Attribution.Proofs.Tree.Actions
/-!
# The strict walk

What the walk does at a node can depend on the kinds of its children, which have to exist for it.
The walk that breaks off otherwise is the same walk, if no node is missing.
-/
namespace Attribution
open Attribution.Part

namespace Strict

/-- The rules for the terms of a logic declaration. -/
def termParts (tree : Tree) (id : NodeId) : Except Breach (List Part) := do
  return (← declaredTerms tree id).map fun term => add (.termType term)

def parts (tree : Tree) (id : NodeId) (node : Node) (expectation : Expectation) :
    Except Breach (List Part) := do
  match node with
  | .block statements =>
    let containers ← returnContainers tree statements
    return act (.enter id) :: statements.map plain ++
      [add (.blockReturns id containers), act .leave]
  | .conditional condition thenBranch elseBranch =>
    let branches := thenBranch :: elseBranch.toList
    let containers ← returnContainers tree branches
    return Part.control .ifCondition condition ++ branches.map plain ++
      [add (.ifReturns id containers)]
  | .fact name terms =>
    return act (.declare name id) :: terms.map plain ++ (← termParts tree id)
  | .clause head body =>
    let declaration := match ← atom? tree head with
      | some (name, terms) => act (.declare name id) :: terms.map plain
      | none => []
    return need head :: declaration ++ body.map plain ++ (← termParts tree id)
  | .query goal => return plain goal :: (← termParts tree id)
  | node => return tree.parts id node expectation

def follow (tree : Tree) (visit : NodeId → Expectation → Except Breach (List Action)) :
    Part → Except Breach (List Action)
  | .act action => .ok [action]
  | .visit id expectation => visit id expectation
  | .need id => do
    let _ ← node tree id
    return []

def visit (tree : Tree) : Nat → NodeId → Expectation → Except Breach (List Action)
  | 0, id, _ => .error (.fault (.cyclicNode id))
  | depth + 1, id, expectation => do
    let found ← node tree id
    let lists ← (← parts tree id found expectation).mapM (follow tree (visit tree depth))
    return lists.flatten

def walk (tree : Tree) : Except Breach (List Action) := visit tree tree.size tree.root .nothing

variable {tree : Tree} {id : NodeId} {found : Node}

theorem termParts_eq (hclosed : tree.Closed) (h : tree.Reaches id) :
    termParts tree id = .ok (tree.termParts id) := by
  rw [termParts, declaredTerms_eq hclosed h]
  rfl

theorem parts_eq (hclosed : tree.Closed) (h : tree.Reaches id) (hnode : tree.node? id = some found)
    (expectation : Expectation) :
    parts tree id found expectation = .ok (tree.parts id found expectation) := by
  have hchild : ∀ child ∈ found.children, tree.Reaches child := fun child hmem => h.child hnode hmem
  cases found with
  | block statements =>
    have hstatements : returnContainers tree statements = .ok (tree.returnContainers statements) :=
      returnContainers_eq hclosed hchild
    simp only [parts, hstatements, ok_bind]
    rfl
  | conditional condition thenBranch elseBranch =>
    have hbranches := returnContainers_eq hclosed fun branch (hmem : branch ∈ thenBranch ::
      elseBranch.toList) => hchild branch (List.mem_cons_of_mem _ hmem)
    simp only [parts, hbranches, ok_bind]
    rfl
  | fact name terms =>
    simp only [parts, termParts_eq hclosed h, ok_bind]
    rfl
  | clause head body =>
    simp only [parts, atom?_eq hclosed (hchild head List.mem_cons_self), termParts_eq hclosed h,
      ok_bind]
    rfl
  | query goal =>
    simp only [parts, termParts_eq hclosed h, ok_bind]
    rfl
  | _ => rfl

theorem visit_eq (hclosed : tree.Closed) {depth : Nat} {path : List Nat} {expectation : Expectation}
    (h : tree.Leads path id expectation) {list : List Action}
    (hvisit : tree.visit depth id expectation = .ok list) :
    visit tree depth id expectation = .ok list := by
  induction depth generalizing path id expectation list with
  | zero => cases hvisit
  | succ depth ih =>
    obtain ⟨found, hfound, lists, hlists, rfl⟩ := Tree.visit_eq_ok_iff.mp hvisit
    have hreaches : tree.Reaches id := ⟨path, expectation, h⟩
    have hmembers := (List.forall₂_and_left (tree.parts id found expectation) lists).mpr
      ⟨fun part (hpart : part ∈ tree.parts id found expectation) => hpart, hlists⟩
    have hfollow : List.Forall₂ (fun part list => follow tree (visit tree depth) part = .ok list)
        (tree.parts id found expectation) lists := by
      apply hmembers.imp
      intro part list ⟨hmem, hmodel⟩
      cases part with
      | act action =>
        cases hmodel
        rfl
      | visit child lent =>
        obtain ⟨below, hbelow, _⟩ := Tree.leads_of_visit h hfound (Tree.mem_visits.mpr hmem)
        exact ih hbelow hmodel
      | need child =>
        cases Tree.eq_nil_of_need hmodel
        obtain ⟨body, rfl⟩ := Tree.exists_clause_of_need hmem
        obtain ⟨head, hhead⟩ := (hreaches.child hfound List.mem_cons_self).exists_node hclosed
        rw [follow, node_eq hhead]
        rfl
    rw [visit, node_eq hfound, ok_bind, parts_eq hclosed hreaches hfound, ok_bind,
      Tree.mapM_eq_ok_iff.mpr hfollow]
    rfl

theorem walk_eq (hclosed : tree.Closed) {list : List Action} (hwalk : tree.walk = .ok list) :
    walk tree = .ok list := visit_eq hclosed .root hwalk

end Strict
end Attribution
