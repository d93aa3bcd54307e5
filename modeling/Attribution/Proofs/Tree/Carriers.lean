import Mathlib.Data.Finset.Card
import Mathlib.Data.Finset.Range
import Attribution.Dependence
import Attribution.Proofs.Tree.Actions
/-!
# Dependence is reachability

Marks are spread until nothing changes, which takes at most one round for each node. So the marked
nodes are those from which a template parameter can be reached.
-/
namespace Attribution

/-- A template parameter can be reached from a node, by steps from each node to what it can take a
placeholder over from. -/
inductive Tree.Carries (tree : Tree) (resolve : NodeId → Option Entity) : NodeId → Prop
  | parameter {id : NodeId} : tree.satisfies id Node.isTemplateParam → Carries tree resolve id
  | step {id target : NodeId} {targets : List NodeId} : tree.carriers resolve id = .ok targets →
    target ∈ targets → Carries tree resolve target → Carries tree resolve id

namespace Tree

variable {tree : Tree} {resolve resolve' : NodeId → Option Entity} {id : NodeId} {name : String}

theorem lt_size_of_carriers {target : NodeId} {targets : List NodeId}
    (h : tree.carriers resolve id = .ok targets) (htarget : target ∈ targets) : id < tree.size := by
  cases hnode : tree.node? id with
  | none =>
    rw [carriers, hnode] at h
    cases h
    cases htarget
  | some node => exact lt_size hnode

theorem exists_node_of_lt (h : id < tree.size) : ∃ node, tree.node? id = some node :=
  ⟨tree.nodes[id].node, by rw [node?, Array.getElem?_eq_getElem h]; rfl⟩

theorem carriers_of_name {decl : NodeId} {node : Node}
    (hnode : tree.node? id = some (.reference name) ∨ tree.node? id = some (.simpleType name))
    (hname : resolve id = some (.node decl)) (hdecl : tree.node? decl = some node)
    (hcarries : node.carriesPlaceholder) : tree.carriers resolve id = .ok [decl] := by
  rw [carriers]
  rcases hnode with hnode | hnode <;>
  · rw [hnode]
    simp only [hname, Option.bind_some, Entity.node?, Tree.node, hdecl]
    exact congrArg Except.ok (if_pos hcarries)

theorem exists_carriers (h : ∀ id decl, resolve id = some (.node decl) → decl < tree.size)
    (id : NodeId) : ∃ targets, tree.carriers resolve id = .ok targets := by
  have hname : ∀ decl, (resolve id).bind Entity.node? = some decl →
      ∃ node, tree.node decl = .ok node := by
    intro decl hdecl
    obtain ⟨entity, hentity, hnode⟩ := Option.bind_eq_some_iff.mp hdecl
    cases entity with
    | builtin b => cases hnode
    | node found =>
      cases hnode
      obtain ⟨node, hfound⟩ := exists_node_of_lt (h id decl hentity)
      exact ⟨node, by rw [Tree.node, hfound]⟩
  unfold carriers
  split
  iterate 2
    split
    · exact ⟨[], rfl⟩
    next decl hdecl =>
      obtain ⟨node, hnode⟩ := hname decl hdecl
      rw [hnode]
      exact ⟨_, rfl⟩
  all_goals exact ⟨_, rfl⟩

theorem carriers_congr (h : resolve id = resolve' id) :
    tree.carriers resolve id = tree.carriers resolve' id := by
  unfold carriers
  rw [h]

theorem carriers_eq_of_node {node : Node} (hnode : tree.node? id = some node)
    (hname : node.isName = false) :
    tree.carriers resolve id = tree.carriers resolve' id := by
  unfold carriers
  rw [hnode]
  cases node with
  | reference | simpleType => cases hname
  | _ => rfl

theorem exists_of_carriers_name {targets : List NodeId} {target : NodeId}
    (hnode : tree.node? id = some (.reference name) ∨ tree.node? id = some (.simpleType name))
    (htargets : tree.carriers resolve id = .ok targets) (htarget : target ∈ targets) :
    resolve id = some (.node target) ∧ tree.satisfies target Node.carriesPlaceholder := by
  cases hdecl : (resolve id).bind Entity.node? with
  | none =>
    rw [carriers] at htargets
    rcases hnode with hnode | hnode <;>
    · simp only [hnode, hdecl] at htargets
      cases htargets
      cases htarget
  | some decl =>
    obtain ⟨entity, hentity, hfound⟩ := Option.bind_eq_some_iff.mp hdecl
    cases entity with
    | builtin b => cases hfound
    | node found =>
      cases hfound
      have hname : (do
          let node ← tree.node decl
          return if node.carriesPlaceholder then [decl] else []) = Except.ok targets := by
        rw [carriers] at htargets
        rcases hnode with hnode | hnode <;> simpa only [hnode, hdecl] using htargets
      rw [Tree.node] at hname
      cases hnode' : tree.node? decl with
      | none =>
        rw [hnode'] at hname
        cases hname
      | some node =>
        rw [hnode'] at hname
        cases Except.ok.inj hname
        split at htarget
        next hcarries =>
          cases List.mem_singleton.mp htarget
          exact ⟨hentity, satisfies_iff.mpr ⟨node, hnode', hcarries⟩⟩
        next => cases htarget

theorem Carries.transfer {settled : NodeId → Prop}
    (hstep : ∀ id targets target, settled id → tree.carriers resolve id = .ok targets →
      target ∈ targets → tree.carriers resolve' id = .ok targets ∧
        (settled target ∨ tree.satisfies target Node.isTemplateParam))
    (h : tree.Carries resolve id) (hid : settled id) : tree.Carries resolve' id := by
  induction h with
  | parameter hkind => exact .parameter hkind
  | step htargets htarget _ ih =>
    obtain ⟨htargets', hsettled | hkind⟩ := hstep _ _ _ hid htargets htarget
    · exact .step htargets' htarget (ih hsettled)
    · exact .step htargets' htarget (.parameter hkind)

end Tree

namespace Dependence

variable {targets : Array (List NodeId)} {marks : Array Bool}

def Marked (marks : Array Bool) (id : NodeId) : Prop := marks.getD id false = true

theorem Marked.lt_size {id : NodeId} (h : Marked marks id) : id < marks.size := by
  by_contra hge
  rw [Marked, Array.getD_eq_getD_getElem?, Array.getElem?_eq_none (Nat.le_of_not_lt hge)] at h
  cases h

theorem size_spread (targets : Array (List NodeId)) (marks : Array Bool) :
    (spread targets marks).size = marks.size := Array.size_mapIdx

theorem marked_spread {id : NodeId} : Marked (spread targets marks) id ↔
    Marked marks id ∨ id < marks.size ∧ ∃ target ∈ targets.getD id [], Marked marks target := by
  rw [Marked, Array.getD_eq_getD_getElem?, spread, Array.getElem?_mapIdx]
  by_cases hlt : id < marks.size
  · simp [hlt, Marked, Array.getD_eq_getD_getElem?, List.any_eq_true]
  · have hnot : ¬ Marked marks id := fun h => hlt h.lt_size
    simp [hlt, hnot]

theorem eq_of_marked {other : Array Bool} (hsize : other.size = marks.size)
    (h : ∀ id, Marked other id ↔ Marked marks id) : other = marks := by
  apply Array.ext hsize
  intro id hother hmarks
  have hsame := h id
  rw [Marked, Marked, Array.getD_eq_getD_getElem?, Array.getD_eq_getD_getElem?,
    Array.getElem?_eq_getElem hother, Array.getElem?_eq_getElem hmarks] at hsame
  exact Bool.eq_iff_iff.mpr hsame

/-- The nodes that are not marked. -/
def unmarked (marks : Array Bool) : Finset NodeId :=
  (Finset.range marks.size).filter fun id => marks.getD id false = false

theorem mem_unmarked {id : NodeId} :
    id ∈ unmarked marks ↔ id < marks.size ∧ ¬ Marked marks id := by
  rw [unmarked, Finset.mem_filter, Finset.mem_range, Marked, Bool.not_eq_true]

theorem card_unmarked_lt (h : spread targets marks ≠ marks) :
    (unmarked (spread targets marks)).card < (unmarked marks).card := by
  apply Finset.card_lt_card
  rw [Finset.ssubset_iff_subset_ne]
  constructor
  · intro id hid
    obtain ⟨hlt, hnot⟩ := mem_unmarked.mp hid
    rw [size_spread] at hlt
    exact mem_unmarked.mpr ⟨hlt, fun hmarked => hnot (marked_spread.mpr (.inl hmarked))⟩
  · intro hsame
    apply h
    apply eq_of_marked (size_spread targets marks)
    intro id
    refine ⟨fun hmarked => ?_, fun hmarked => marked_spread.mpr (.inl hmarked)⟩
    by_contra hnot
    have hlt := hmarked.lt_size
    rw [size_spread] at hlt
    have hmem : id ∈ unmarked (spread targets marks) := hsame ▸ mem_unmarked.mpr ⟨hlt, hnot⟩
    exact (mem_unmarked.mp hmem).2 hmarked

theorem spread_saturate {n : Nat} (hn : (unmarked marks).card ≤ n) :
    spread targets (saturate targets n marks) = saturate targets n marks := by
  induction n generalizing marks with
  | zero =>
    by_contra hchanges
    have hlt := card_unmarked_lt hchanges
    rw [saturate] at hlt
    omega
  | succ n ih =>
    rw [saturate]
    split
    next hfixed => exact hfixed
    next hchanges =>
      apply ih
      have hlt := card_unmarked_lt hchanges
      omega

theorem size_saturate (n : Nat) (marks : Array Bool) :
    (saturate targets n marks).size = marks.size := by
  induction n generalizing marks with
  | zero => rfl
  | succ n ih =>
    rw [saturate]
    split
    · rfl
    · rw [ih, size_spread]

theorem marked_saturate {id : NodeId} (h : Marked marks id) (n : Nat) :
    Marked (saturate targets n marks) id := by
  induction n generalizing marks with
  | zero => exact h
  | succ n ih =>
    rw [saturate]
    split
    · exact h
    · exact ih (marked_spread.mpr (.inl h))

/-- What holds of the marked nodes and is taken over along steps holds of the nodes that are marked
in the end. -/
theorem saturate_induction {property : NodeId → Prop}
    (hstep : ∀ id, ∀ target ∈ targets.getD id [], property target → property id) (n : Nat)
    (hmarks : ∀ id, Marked marks id → property id) {id : NodeId}
    (h : Marked (saturate targets n marks) id) : property id := by
  induction n generalizing marks with
  | zero => exact hmarks id h
  | succ n ih =>
    rw [saturate] at h
    split at h
    · exact hmarks id h
    · refine ih ?_ h
      intro other hother
      rcases marked_spread.mp hother with hmarked | ⟨_, target, htarget, hmarked⟩
      · exact hmarks other hmarked
      · exact hstep other target htarget (hmarks target hmarked)

theorem card_unmarked_le (marks : Array Bool) : (unmarked marks).card ≤ marks.size := by
  have hle := Finset.card_filter_le (Finset.range marks.size) fun id => marks.getD id false = false
  rwa [Finset.card_range] at hle

theorem marked_sources (tree : Tree) (id : NodeId) :
    Marked (tree.nodes.map fun located => located.node.isTemplateParam) id ↔
      tree.satisfies id Node.isTemplateParam := by
  rw [Marked, Array.getD_eq_getD_getElem?, Array.getElem?_map, Tree.satisfies, Tree.node?]
  cases tree.nodes[id]? <;> rfl

theorem carriers_eq {tree : Tree} {resolve : NodeId → Option Entity} {lists : List (List NodeId)}
    (h : (List.range tree.size).mapM (tree.carriers resolve) = .ok lists) (id : NodeId) :
    tree.carriers resolve id = .ok (lists.toArray.getD id []) := by
  have hall := Tree.mapM_eq_ok_iff.mp h
  have hlength := hall.length_eq
  rw [List.length_range] at hlength
  by_cases hlt : id < tree.size
  · have hget := hall.get (by rwa [List.length_range]) (hlength ▸ hlt)
    simpa [Array.getD_eq_getD_getElem?, hlength ▸ hlt] using hget
  · have hnone : tree.node? id = none := by
      rw [Tree.node?, Array.getElem?_eq_none (Nat.le_of_not_lt hlt)]
      rfl
    have hbeyond : lists.length ≤ id := hlength ▸ Nat.le_of_not_lt hlt
    simp [Tree.carriers, hnone, Array.getD_eq_getD_getElem?, List.getElem?_eq_none hbeyond]

theorem exists_of_lt {tree : Tree} {resolve : NodeId → Option Entity}
    (h : ∀ id decl, resolve id = some (.node decl) → decl < tree.size) :
    ∃ dependence, Dependence.of tree resolve = .ok dependence := by
  have hall : ∀ ids : List NodeId, ∃ targets, ids.mapM (tree.carriers resolve) = .ok targets := by
    intro ids
    induction ids with
    | nil => exact ⟨[], rfl⟩
    | cons id ids ih =>
      obtain ⟨targets, htargets⟩ := Tree.exists_carriers h id
      obtain ⟨rest, hrest⟩ := ih
      rw [List.mapM_cons, htargets, hrest]
      exact ⟨targets :: rest, rfl⟩
  obtain ⟨targets, htargets⟩ := hall (List.range tree.size)
  rw [Dependence.of, htargets]
  exact ⟨_, rfl⟩

/-- The marked nodes are those from which a template parameter can be reached. -/
theorem holds_iff {tree : Tree} {resolve : NodeId → Option Entity} {dependence : Dependence}
    (h : Dependence.of tree resolve = .ok dependence) (id : NodeId) :
    dependence.holds id ↔ tree.Carries resolve id := by
  rw [Dependence.of] at h
  cases hlists : (List.range tree.size).mapM (tree.carriers resolve) with
  | error fault =>
    rw [hlists] at h
    cases h
  | ok lists =>
    rw [hlists] at h
    cases h
    let sources := tree.nodes.map fun located => located.node.isTemplateParam
    change Marked (saturate lists.toArray tree.size sources) id ↔ _
    constructor
    · apply saturate_induction
      · intro id target htarget hcarries
        exact .step (carriers_eq hlists id) htarget hcarries
      · intro id hmarked
        exact .parameter ((marked_sources tree id).mp hmarked)
    · intro hcarries
      induction hcarries with
      | parameter hkind => exact marked_saturate ((marked_sources tree _).mpr hkind) _
      | @step id target targets htargets htarget _ ih =>
        have hlt := Tree.lt_size_of_carriers htargets htarget
        obtain rfl := Except.ok.inj ((carriers_eq hlists id).symm.trans htargets)
        have hsize : sources.size = tree.size := Array.size_map
        rw [← spread_saturate (hsize ▸ card_unmarked_le sources)]
        refine marked_spread.mpr (.inr ⟨?_, target, htarget, ih⟩)
        rw [size_saturate, hsize]
        exact hlt

end Dependence
end Attribution
