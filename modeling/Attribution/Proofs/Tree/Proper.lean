import Attribution.Proofs.Tree.Nesting
/-!
# Proper trees

An arena whose children are of any kinds, as long as one path leads to each node. The walk can pass
over some of the nodes then, but where it comes to a node it has come to the parent, and what it
does for children it does once for each.
-/
namespace Attribution
namespace Tree

/-- The root is a root, children exist, and exactly one path leads to each node. -/
structure Proper (tree : Tree) : Prop where
  root : tree.satisfies tree.root Node.isRoot
  closed : tree.Closed
  reached : ∀ id, id < tree.size → ∃ path expectation, tree.Leads path id expectation
  once : ∀ path other id expectation lent, tree.Leads path id expectation →
    tree.Leads other id lent → other = path

variable {tree : Tree} {path : List Nat} {id : NodeId} {expectation : Expectation} {node : Node}

theorem WellFormed.proper (hwell : tree.WellFormed) : tree.Proper where
  root := hwell.root
  closed := hwell.closed
  reached := hwell.reached
  once := hwell.once

namespace Proper

theorem unshared (hproper : tree.Proper) : tree.Unshared :=
  fun _ _ _ _ _ hleads hother _ => hproper.once _ _ _ _ _ hleads hother

theorem exists_walk (hproper : tree.Proper) : ∃ list, tree.walk = .ok list :=
  (hproper.closed.acyclic hproper.unshared).exists_walk hproper.closed

theorem exists_leads (hproper : tree.Proper) (hnode : tree.node? id = some node) :
    ∃ path expectation, tree.Leads path id expectation := hproper.reached id (lt_size hnode)

end Proper

theorem mem_trail_cases {depth : Nat} {found : NodeId × Expectation}
    (h : found ∈ tree.trail depth id expectation) : found = (id, expectation) ∨
      ∃ above ∈ tree.trail depth id expectation, ∃ node, tree.node? above.1 = some node ∧
        found ∈ tree.visits above.1 above.2 node := by
  induction depth generalizing id expectation with
  | zero => cases h
  | succ depth ih =>
    rcases List.mem_cons.mp h with hself | hbelow
    · exact .inl hself
    · right
      obtain ⟨node, hnode, hbelow⟩ := List.mem_flatMap.mp hbelow
      obtain ⟨child, hchild, hfound⟩ := List.mem_flatMap.mp hbelow
      rw [Option.mem_toList] at hnode
      rcases ih hfound with rfl | ⟨above, habove, held, hheld, hvisit⟩
      · exact ⟨(id, expectation), List.mem_cons_self, node, hnode, hchild⟩
      · exact ⟨above, (mem_trail_succ hnode).mpr (.inr ⟨child, hchild, habove⟩), held, hheld,
          hvisit⟩

namespace Unshared

theorem walked_parent (hunshared : tree.Unshared) {list : List Action}
    (hwalk : tree.walk = .ok list) (hleads : tree.Leads path id expectation)
    (hnode : tree.node? id = some node) (hatom : node.isAtom = false) {child : NodeId}
    (hchild : child ∈ node.children) {lent : Expectation} (hwalked : tree.Walked child lent) :
    ∃ held, tree.Walked id held := by
  obtain ⟨found, hfound⟩ := exists_of_walked hwalk hwalked
  have hsome : (tree.node? child).isSome := Option.isSome_of_eq_some hfound
  obtain ⟨place, hplace⟩ := List.mem_iff_getElem?.mp hchild
  -- there is no other node of which this one is a child
  have hparent : ∀ {other : NodeId} {way : List Nat} {before : Expectation} {holder : Node},
      tree.Leads way other before → tree.node? other = some holder →
        child ∈ holder.children → other = id := by
    intro other way before holder hway hholder hmem
    obtain ⟨place', hplace'⟩ := List.mem_iff_getElem?.mp hmem
    exact (hunshared.parent_unique hleads hnode hplace hway hholder hplace' hsome).1
  rcases mem_trail_cases hwalked with heq | ⟨⟨above, before⟩, habove, holder, hholder, hvisit⟩
  · cases heq
    obtain ⟨openers, haround⟩ := hleads.exists_around
    exact absurd hchild (hunshared.not_child_root haround hnode hsome)
  · obtain ⟨way, hway⟩ := leads_of_walked habove
    by_cases hclause : ∀ head body, holder ≠ .clause head body
    · rw [visits_eq tree above before hclause] at hvisit
      obtain ⟨place', hplace'⟩ := List.mem_iff_getElem?.mp hvisit
      cases hparent hway hholder (Leads.mem_children hplace')
      exact ⟨before, habove⟩
    · simp only [not_forall, not_not] at hclause
      obtain ⟨head, body, rfl⟩ := hclause
      rw [visits_clause] at hvisit
      obtain ⟨term, hterm, heq⟩ := List.mem_map.mp hvisit
      cases heq
      rcases List.mem_append.mp hterm with hhead | hbody
      · obtain ⟨name, terms, hheld, hmem⟩ := exists_of_atomTerms hhead
        obtain ⟨place', lent', hinside⟩ := hway.exists_of_children hholder (List.mem_cons_self)
        cases hparent hinside hheld hmem
        cases Option.some.inj (hnode.symm.trans hheld)
        cases hatom
      · cases hparent hway hholder (List.mem_cons_of_mem _ hbody)
        exact ⟨before, habove⟩

theorem nodup_children (hunshared : tree.Unshared) (hclosed : tree.Closed) {list : List Action}
    (hwalk : tree.walk = .ok list) : ((tree.trail tree.size tree.root .nothing).flatMap fun place =>
      (tree.node? place.1).toList.flatMap Node.children).Nodup := by
  have hunique : ∀ {place other : NodeId × Expectation} {node held : Node} {child : NodeId}
      {i j : Nat}, place ∈ tree.trail tree.size tree.root .nothing →
      other ∈ tree.trail tree.size tree.root .nothing → tree.node? place.1 = some node →
      tree.node? other.1 = some held → node.children[i]? = some child →
      held.children[j]? = some child → other.1 = place.1 ∧ j = i := by
    intro place other node held child i j hplace hother hnode hheld hi hj
    obtain ⟨path, hleads⟩ := leads_of_walked hplace
    obtain ⟨way, hway⟩ := leads_of_walked hother
    obtain ⟨lent, hbelow⟩ := hleads.exists_of_place hnode hi
    obtain ⟨found, hfound⟩ := hclosed _ _ _ hbelow
    exact hunshared.parent_unique hleads hnode hi hway hheld hj (Option.isSome_of_eq_some hfound)
  rw [List.nodup_flatMap]
  constructor
  · intro place hplace
    obtain ⟨node, hnode⟩ := exists_of_walked hwalk hplace
    rw [hnode, Option.toList_some, List.flatMap_singleton, List.nodup_iff_getElem?_ne_getElem?]
    intro i j hlt hj heq
    have hchild : node.children[j]? = some node.children[j] := List.getElem?_eq_getElem hj
    have hsame := (hunique hplace hplace hnode hnode (heq.trans hchild) hchild).2
    omega
  · have hplaces := List.pairwise_map.mp (hunshared.nodup_walked hwalk)
    apply hplaces.imp_of_mem
    intro place other hplace hother hne child hchild hchild'
    obtain ⟨node, hnode, hmem⟩ := List.mem_flatMap.mp hchild
    obtain ⟨held, hheld, hmem'⟩ := List.mem_flatMap.mp hchild'
    obtain ⟨i, hi⟩ := List.mem_iff_getElem?.mp hmem
    obtain ⟨j, hj⟩ := List.mem_iff_getElem?.mp hmem'
    exact hne (hunique hplace hother (Option.mem_toList.mp hnode) (Option.mem_toList.mp hheld) hi
      hj).1.symm

/-- If the actions of each node are about some of its children, the walk acts once at most on
each. -/
theorem nodup_flatMap (hunshared : tree.Unshared) (hclosed : tree.Closed) {list : List Action}
    (hwalk : tree.walk = .ok list) {about : Action → List NodeId}
    (habout : ∀ id expectation node,
      ((tree.actions id expectation node).flatMap about).Sublist node.children) :
    (list.flatMap about).Nodup := by
  rw [((perm_of_visit hwalk).flatMap_right about).nodup_iff, List.flatMap_assoc]
  refine List.Sublist.nodup ?_ (hunshared.nodup_children hclosed hwalk)
  apply List.Sublist.flatMap_right
  intro place _
  rw [own]
  cases hnode : tree.node? place.1 with
  | none => exact List.nil_sublist _
  | some node =>
    rw [Option.toList_some, List.flatMap_singleton, List.flatMap_singleton]
    exact habout _ _ _

end Unshared

end Tree
end Attribution
