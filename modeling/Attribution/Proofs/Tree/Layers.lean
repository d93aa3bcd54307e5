import Attribution.Proofs.Tree.Shape
/-!
# Deciding well-formedness

The paths of each length can be listed, and those of a well-formed tree are shorter than its arena
is large. So well-formedness can be decided.
-/
namespace Attribution
namespace Tree

structure Place where
  path : List Nat
  id : NodeId
  expectation : Expectation
deriving DecidableEq

def next (tree : Tree) (place : Place) : List Place :=
  (tree.node? place.id).toList.flatMap fun node =>
    (node.offspring place.id place.expectation).zipIdx.map fun child =>
      { path := child.2 :: place.path, id := child.1.1, expectation := child.1.2 }

/-- The places to which paths of one length lead. -/
def layer (tree : Tree) : Nat → List Place
  | 0 => [{ path := [], id := tree.root, expectation := .nothing }]
  | n + 1 => (tree.layer n).flatMap tree.next

/-- The places to which paths lead that are shorter than the arena is large. -/
def places (tree : Tree) : List Place := (List.range tree.size).flatMap tree.layer

variable {tree : Tree} {place : Place} {n : Nat}

theorem mem_next {child : Place} : child ∈ tree.next place ↔ ∃ node step,
    tree.node? place.id = some node ∧ child.path = step :: place.path ∧
      (node.offspring place.id place.expectation)[step]? = some (child.id, child.expectation) := by
  rw [next, List.mem_flatMap]
  constructor
  · intro ⟨node, hnode, hchild⟩
    obtain ⟨⟨⟨id, lent⟩, step⟩, hstep, rfl⟩ := List.mem_map.mp hchild
    exact ⟨node, step, Option.mem_toList.mp hnode, rfl, List.mem_zipIdx_iff_getElem?.mp hstep⟩
  · intro ⟨node, step, hnode, hpath, hchild⟩
    refine ⟨node, Option.mem_toList.mpr hnode, List.mem_map.mpr
      ⟨((child.id, child.expectation), step), List.mem_zipIdx_iff_getElem?.mpr hchild, ?_⟩⟩
    cases child
    cases hpath
    rfl

theorem mem_layer : place ∈ tree.layer n ↔
    tree.Leads place.path place.id place.expectation ∧ place.path.length = n := by
  induction n generalizing place with
  | zero =>
    constructor
    · intro hplace
      cases List.mem_singleton.mp hplace
      exact ⟨.root, rfl⟩
    · intro ⟨hleads, hlength⟩
      obtain ⟨path, id, expectation⟩ := place
      cases hleads with
      | root => exact List.mem_singleton.mpr rfl
      | child => cases hlength
  | succ n ih =>
    rw [layer, List.mem_flatMap]
    constructor
    · intro ⟨above, habove, hnext⟩
      obtain ⟨node, step, hnode, hpath, hchild⟩ := mem_next.mp hnext
      obtain ⟨hleads, hlength⟩ := ih.mp habove
      rw [hpath]
      exact ⟨hleads.child hnode hchild, congrArg (· + 1) hlength⟩
    · intro ⟨hleads, hlength⟩
      obtain ⟨path, id, expectation⟩ := place
      cases hleads with
      | root => cases hlength
      | @child path above before node step _ _ hleads hnode hchild =>
        refine ⟨⟨path, above, before⟩, ih.mpr ⟨hleads, Nat.succ.inj hlength⟩, ?_⟩
        exact mem_next.mpr ⟨node, step, hnode, rfl, hchild⟩

theorem mem_places (hlast : tree.layer tree.size = []) : place ∈ tree.places ↔
    tree.Leads place.path place.id place.expectation := by
  have hlong : ∀ m, tree.layer (tree.size + m) = [] := by
    intro m
    induction m with
    | zero => exact hlast
    | succ m ih =>
      rw [← Nat.add_assoc, layer, ih]
      rfl
  rw [places, List.mem_flatMap]
  constructor
  · intro ⟨n, _, hplace⟩
    exact (mem_layer.mp hplace).1
  · intro hleads
    have hmem : place ∈ tree.layer place.path.length := mem_layer.mpr ⟨hleads, rfl⟩
    refine ⟨_, List.mem_range.mpr ?_, hmem⟩
    by_contra hle
    obtain ⟨m, hm⟩ := Nat.exists_eq_add_of_le (Nat.le_of_not_lt hle)
    rw [hm, hlong] at hmem
    cases hmem

/-- If paths end and the places to which they lead are of different nodes, nothing is shared. -/
theorem unshared_of_places (hlast : tree.layer tree.size = [])
    (honce : ∀ place ∈ tree.places, ∀ other ∈ tree.places, place.id = other.id →
      other.path = place.path) : tree.Unshared := by
  intro path other id expectation lent hleads hother _
  exact honce ⟨path, id, expectation⟩ ((mem_places hlast).mpr hleads) ⟨other, id, lent⟩
    ((mem_places hlast).mpr hother) rfl

theorem closed_of_places (hlast : tree.layer tree.size = [])
    (hnodes : ∀ place ∈ tree.places, (tree.node? place.id).isSome) : tree.Closed := by
  intro path id expectation hleads
  exact Option.isSome_iff_exists.mp
    (hnodes ⟨path, id, expectation⟩ ((mem_places hlast).mpr hleads))

theorem acyclic_of_places (hlast : tree.layer tree.size = [])
    (honce : ∀ place ∈ tree.places, ∀ other ∈ tree.places, place.id = other.id →
      place.path <:+ other.path → other.path = place.path) : tree.Acyclic := by
  intro path way id expectation lent hleads hother
  have hsame := honce ⟨path, id, expectation⟩ ((mem_places hlast).mpr hleads)
    ⟨way ++ path, id, lent⟩ ((mem_places hlast).mpr hother) rfl (List.suffix_append way path)
  exact List.append_left_eq_self.mp hsame

instance (node : Node) : Decidable (tree.Fits node) :=
  match node with
  | .literal _ | .reference _ | .simpleType _ | .templateParam _ => inferInstanceAs (Decidable True)
  | .construct _ | .parenthesized _ | .fieldAccess _ _ | .unary _ _ | .expressionStatement _
  | .arrayType _ | .fieldDecl _ _ | .parameter _ _ | .query _ =>
    inferInstanceAs (Decidable (_ = true))
  | .arrayAccess _ _ | .binary _ _ _ | .assignment _ _ | .varDecl _ _ _ | .whileLoop _ _ =>
    inferInstanceAs (Decidable (_ ∧ _))
  | .arrayLiteral ids | .fact _ ids | .atom _ ids =>
    inferInstanceAs (Decidable (∀ id ∈ ids, tree.satisfies id Node.isExpression))
  | .root ids | .block ids =>
    inferInstanceAs (Decidable (∀ id ∈ ids, tree.satisfies id Node.isStatement))
  | .structDecl _ ids => inferInstanceAs (Decidable (∀ id ∈ ids, tree.satisfies id Node.isField))
  | .returnStatement expression =>
    inferInstanceAs (Decidable (∀ id ∈ expression.toList, tree.satisfies id Node.isExpression))
  | .clause head body =>
    inferInstanceAs (Decidable (∀ id ∈ head :: body, tree.satisfies id Node.isAtom))
  | .call function typeArgument arguments =>
    inferInstanceAs (Decidable (tree.satisfies function Node.isExpression ∧
      (∀ id ∈ typeArgument.toList, tree.satisfies id Node.isTypeNode) ∧
      ∀ id ∈ arguments, tree.satisfies id Node.isExpression))
  | .funDecl _ template parameters returnType body =>
    inferInstanceAs (Decidable ((∀ id ∈ template.toList, tree.satisfies id Node.isTemplateParam) ∧
      (∀ id ∈ parameters, tree.satisfies id Node.isParameter) ∧
      tree.satisfies returnType Node.isTypeNode ∧ tree.satisfies body Node.isBlock))
  | .conditional condition thenBranch elseBranch =>
    inferInstanceAs (Decidable (tree.satisfies condition Node.isExpression ∧
      ∀ id ∈ thenBranch :: elseBranch.toList, tree.satisfies id Node.isStatement))
  | .forLoop init condition step body =>
    inferInstanceAs (Decidable ((tree.satisfies init Node.isVariable ∨
      tree.satisfies init Node.isExpression) ∧ tree.satisfies condition Node.isExpression ∧
        tree.satisfies step Node.isExpression ∧ tree.satisfies body Node.isStatement))

theorem wellFormed_iff (tree : Tree) : tree.WellFormed ↔
    tree.satisfies tree.root Node.isRoot ∧ (∀ located ∈ tree.nodes, tree.Fits located.node) ∧
      tree.layer tree.size = [] ∧
      (∀ id ∈ List.range tree.size, ∃ place ∈ tree.places, place.id = id) ∧
      ∀ place ∈ tree.places, ∀ other ∈ tree.places, place.id = other.id →
        other.path = place.path := by
  constructor
  · intro hwell
    have hlast : tree.layer tree.size = [] := by
      rw [List.eq_nil_iff_forall_not_mem]
      intro place hplace
      obtain ⟨hleads, hlength⟩ := mem_layer.mp hplace
      have hlt := hwell.length_lt_size hleads
      omega
    refine ⟨hwell.root, ?_, hlast, ?_, ?_⟩
    · intro located hlocated
      obtain ⟨id, hlt, hid⟩ := Array.mem_iff_getElem.mp hlocated
      apply hwell.fits id
      rw [node?, Array.getElem?_eq_getElem hlt, hid]
      rfl
    · intro id hid
      obtain ⟨path, expectation, hleads⟩ := hwell.reached id (List.mem_range.mp hid)
      exact ⟨⟨path, id, expectation⟩, (mem_places hlast).mpr hleads, rfl⟩
    · intro place hplace other hother hid
      have hleads := (mem_places hlast).mp hplace
      rw [hid] at hleads
      exact hwell.once _ _ _ _ _ hleads ((mem_places hlast).mp hother)
  · intro ⟨hroot, hfits, hlast, hreached, honce⟩
    refine ⟨hroot, ?_, ?_, ?_⟩
    · intro id node hnode
      obtain ⟨located, hlocated, rfl⟩ := Option.map_eq_some_iff.mp hnode
      exact hfits located (Array.mem_of_getElem? hlocated)
    · intro id hlt
      obtain ⟨place, hplace, rfl⟩ := hreached id (List.mem_range.mpr hlt)
      exact ⟨place.path, place.expectation, (mem_places hlast).mp hplace⟩
    · intro path other id expectation lent hleads hother
      exact honce ⟨path, id, expectation⟩ ((mem_places hlast).mpr hleads) ⟨other, id, lent⟩
        ((mem_places hlast).mpr hother) rfl

instance (tree : Tree) : Decidable tree.WellFormed := decidable_of_iff _ tree.wellFormed_iff.symm

end Tree
end Attribution
