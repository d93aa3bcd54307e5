import Attribution.Proofs.Tree.Actions
/-!
# Nesting

Roots, blocks and functions open scopes for what lies below them. The actions of a walk enter and
leave these nodes as they nest: where the walk acts on a name, it has entered those around the node
of the name and left all others.
-/
namespace Attribution

/-- Whether a node opens a scope for what lies below it. -/
def Node.opensScope : Node → Bool
  | root _ | block _ | funDecl .. => true
  | _ => false

/-- The nodes that open scopes around the children of a node, given those around the node. -/
def Node.inside (node : Node) (id : NodeId) (openers : List NodeId) : List NodeId :=
  if node.opensScope then id :: openers else openers

/-- The nodes around a node that open scopes, the innermost first. -/
inductive Tree.Around (tree : Tree) : NodeId → List NodeId → Prop
  | root : Around tree tree.root []
  | child {id child : NodeId} {openers : List NodeId} {node : Node} : Around tree id openers →
    tree.node? id = some node → child ∈ node.children → Around tree child (node.inside id openers)

namespace Action

/-- The nodes that were entered and not left, the last one first, after an action. -/
def track (openers : List NodeId) : Action → List NodeId
  | enterRoot id | enter id => id :: openers
  | leave => openers.tail
  | _ => openers

/-- Whether it matters to an action which nodes have been entered. -/
def isPlaced : Action → Bool
  | leave | write .. | add _ => false
  | _ => true

end Action

open Attribution.Part

namespace Tree

variable {tree : Tree} {id : NodeId} {expectation : Expectation} {openers : List NodeId}

theorem Around.exists_leads (h : tree.Around id openers) :
    ∃ path expectation, tree.Leads path id expectation := by
  induction h with
  | root => exact ⟨[], .nothing, .root⟩
  | child _ hnode hchild ih =>
    obtain ⟨path, expectation, hleads⟩ := ih
    obtain ⟨place, lent, hlonger⟩ := hleads.exists_of_children hnode hchild
    exact ⟨_, lent, hlonger⟩

theorem Leads.exists_around {path : List Nat} (h : tree.Leads path id expectation) :
    ∃ openers, tree.Around id openers := by
  induction h with
  | root => exact ⟨[], .root⟩
  | child _ hnode hchild ih =>
    obtain ⟨openers, haround⟩ := ih
    exact ⟨_, haround.child hnode (Leads.mem_children hchild)⟩

theorem Around.outer {opener : NodeId} (h : tree.Around id (opener :: openers)) :
    tree.Around opener openers := by
  generalize hall : opener :: openers = all at h
  induction h with
  | root => cases hall
  | @child id child around node hparent _ _ ih =>
    rw [Node.inside] at hall
    split at hall
    · cases hall
      exact hparent
    · exact ih hall

theorem Unshared.not_child_root (hunshared : tree.Unshared) (haround : tree.Around id openers)
    {node : Node} (hnode : tree.node? id = some node) (hroot : (tree.node? tree.root).isSome) :
    tree.root ∉ node.children := by
  intro hchild
  obtain ⟨path, expectation, hleads⟩ := haround.exists_leads
  obtain ⟨place, lent, hlonger⟩ := hleads.exists_of_children hnode hchild
  cases hunshared _ _ _ _ _ .root hlonger hroot

theorem Unshared.around_unique (hunshared : tree.Unshared) (h : tree.Around id openers)
    {others : List NodeId} (h' : tree.Around id others) (hsome : (tree.node? id).isSome) :
    others = openers := by
  induction h generalizing others with
  | root =>
    cases h' with
    | root => rfl
    | child hparent hnode hchild =>
      exact absurd hchild (hunshared.not_child_root hparent hnode hsome)
  | child hparent hnode hchild ih =>
    cases h' with
    | root => exact absurd hchild (hunshared.not_child_root hparent hnode hsome)
    | child hparent' hnode' hchild' =>
      obtain ⟨path, expectation, hleads⟩ := hparent.exists_leads
      obtain ⟨path', expectation', hleads'⟩ := hparent'.exists_leads
      obtain ⟨place, hplace⟩ := List.mem_iff_getElem?.mp hchild
      obtain ⟨place', hplace'⟩ := List.mem_iff_getElem?.mp hchild'
      obtain ⟨rfl, _⟩ :=
        hunshared.parent_unique hleads hnode hplace hleads' hnode' hplace' hsome
      cases Option.some.inj (hnode.symm.trans hnode')
      rw [ih hparent' (Option.isSome_of_eq_some hnode)]

/-- The root is a root, and nothing else is. -/
def Rooted (tree : Tree) : Prop :=
  ∀ path id expectation, tree.Leads path id expectation →
    (tree.satisfies id Node.isRoot ↔ path = [])

theorem Rooted.around_ne_nil (hrooted : tree.Rooted) (h : tree.Around id openers) :
    id = tree.root ∨ openers ≠ [] := by
  induction h with
  | root => exact .inl rfl
  | @child id child openers node _ hnode _ ih =>
    right
    rcases ih with rfl | hne
    · obtain ⟨found, hfound, hroot⟩ := satisfies_iff.mp ((hrooted _ _ _ .root).mpr rfl)
      cases Option.some.inj (hnode.symm.trans hfound)
      cases node with
      | root => exact List.cons_ne_nil _ _
      | _ => cases hroot
    · rw [Node.inside]
      split
      · exact List.cons_ne_nil _ _
      · exact hne

theorem Fits.not_root {node : Node} (h : tree.Fits node) {child : NodeId}
    (hchild : child ∈ node.children) : ¬ tree.satisfies child Node.isRoot := by
  intro hroot
  obtain ⟨found, hfound, hkind⟩ := satisfies_iff.mp hroot
  have hother : ∀ {test}, tree.satisfies child test → test found = true := by
    intro test hsat
    obtain ⟨held, hheld, htest⟩ := satisfies_iff.mp hsat
    cases Option.some.inj (hfound.symm.trans hheld)
    exact htest
  cases found with
  | root =>
    cases node with
    | literal | reference | simpleType | templateParam => cases hchild
    | _ =>
      simp only [Fits, Node.children, List.mem_cons, List.mem_append, List.not_mem_nil,
        or_false] at h hchild
      grind [Node.isExpression, Node.isTypeNode, Node.isStatement, Node.isAtom, Node.isField,
        Node.isReference, Node.isVariable, Node.isParameter, Node.isBlock, Node.isTemplateParam]
  | _ => cases hkind

theorem WellFormed.rooted (hwell : tree.WellFormed) : tree.Rooted := by
  intro path id expectation hleads
  cases hleads with
  | root => exact ⟨fun _ => rfl, fun _ => hwell.root⟩
  | child _ hnode hchild =>
    refine ⟨fun hroot => ?_, fun hnil => by cases hnil⟩
    exact absurd hroot ((hwell.fits _ _ hnode).not_root (Leads.mem_children hchild))

theorem WellFormed.exists_around (hwell : tree.WellFormed) {node : Node}
    (hnode : tree.node? id = some node) : ∃ openers, tree.Around id openers := by
  obtain ⟨_, _, hleads⟩ := hwell.exists_leads hnode
  exact hleads.exists_around

theorem WellFormed.exists_outer (hwell : tree.WellFormed) {function template : NodeId}
    {name : String} {parameters : List NodeId} {returnType body : NodeId}
    (hfunction : tree.node? function =
      some (.funDecl name (some template) parameters returnType body))
    (haround : tree.Around template openers) : ∃ outer, openers = function :: outer := by
  obtain ⟨outer, houter⟩ := hwell.exists_around hfunction
  obtain ⟨htemplate, _⟩ := hwell.fits _ _ hfunction
  obtain ⟨node, hnode, _⟩ := satisfies_iff.mp (htemplate template List.mem_cons_self)
  have hchild := houter.child hfunction
    (List.mem_append_left _ (List.mem_append_left _ List.mem_cons_self))
  exact ⟨outer, hwell.unshared.around_unique hchild haround (Option.isSome_of_eq_some hnode)⟩

theorem eq_of_enterRoot {node : Node} {found : NodeId}
    (h : .act (.enterRoot found) ∈ tree.parts id node expectation) : found = id ∧ node.isRoot := by
  cases does_of_part h
  exact ⟨rfl, rfl⟩

theorem eq_of_enter {node : Node} {found : NodeId}
    (h : .act (.enter found) ∈ tree.parts id node expectation) :
    found = id ∧ node.opensScope ∧ node.isRoot = false := by
  cases does_of_part h with
  | enterBlock | enterFunction => exact ⟨rfl, rfl, rfl⟩

/-- Parts of a node that lead from some openers to others, with each placed action of the node and
each visit where the openers are those around it. -/
def Nests (tree : Tree) (id : NodeId) (final : List NodeId) : List NodeId → List Part → Prop
  | openers, [] => openers = final
  | openers, .act action :: rest =>
    (action.isPlaced → tree.Around id openers) ∧ tree.Nests id final (action.track openers) rest
  | openers, .visit child _ :: rest => tree.Around child openers ∧ tree.Nests id final openers rest
  | openers, .need _ :: rest => tree.Nests id final openers rest

@[simp] theorem nests_nil {final : List NodeId} :
    tree.Nests id final openers [] ↔ openers = final := Iff.rfl

@[simp] theorem nests_act {final : List NodeId} {action : Action} {rest : List Part} :
    tree.Nests id final openers (.act action :: rest) ↔
      (action.isPlaced → tree.Around id openers) ∧
        tree.Nests id final (action.track openers) rest := Iff.rfl

@[simp] theorem nests_add {final : List NodeId} {rule : Rule} {rest : List Part} :
    tree.Nests id final openers (add rule :: rest) ↔ tree.Nests id final openers rest := by
  simp [add, Action.isPlaced, Action.track]

@[simp] theorem nests_visit {final : List NodeId} {child : NodeId} {lent : Expectation}
    {rest : List Part} : tree.Nests id final openers (.visit child lent :: rest) ↔
      tree.Around child openers ∧ tree.Nests id final openers rest := Iff.rfl

@[simp] theorem nests_need {final : List NodeId} {child : NodeId} {rest : List Part} :
    tree.Nests id final openers (.need child :: rest) ↔ tree.Nests id final openers rest := Iff.rfl

@[simp] theorem nests_plain {final : List NodeId} {child : NodeId} {rest : List Part} :
    tree.Nests id final openers (plain child :: rest) ↔
      tree.Around child openers ∧ tree.Nests id final openers rest := Iff.rfl

@[simp] theorem nests_map_plain {final : List NodeId} {ids : List NodeId} {rest : List Part} :
    tree.Nests id final openers (ids.map plain ++ rest) ↔
      (∀ child ∈ ids, tree.Around child openers) ∧ tree.Nests id final openers rest := by
  induction ids with
  | nil => simp
  | cons child ids ih => simp [ih, and_assoc]

@[simp] theorem nests_only_plain {final : List NodeId} {ids : List NodeId} :
    tree.Nests id final openers (ids.map plain) ↔
      (∀ child ∈ ids, tree.Around child openers) ∧ openers = final := by
  rw [← List.append_nil (ids.map plain), nests_map_plain, nests_nil]

@[simp] theorem nests_arguments {final : List NodeId} {function : NodeId} {place : Nat}
    {ids : List NodeId} {rest : List Part} :
    tree.Nests id final openers (arguments function place ids ++ rest) ↔
      (∀ child ∈ ids, tree.Around child openers) ∧ tree.Nests id final openers rest := by
  induction ids generalizing place with
  | nil => simp [arguments]
  | cons child ids ih => simp [arguments, ih, and_assoc, Action.isPlaced, Action.track]

@[simp] theorem nests_termParts {final : List NodeId} {declaration : NodeId} :
    tree.Nests id final openers (tree.termParts declaration) ↔ openers = final := by
  rw [termParts]
  induction tree.declaredTerms declaration with
  | nil => simp
  | cons term terms ih => simp [ih]

theorem Around.nests (h : tree.Around id openers) {node : Node} (hnode : tree.node? id = some node)
    (expectation : Expectation) :
    tree.Nests id openers openers (tree.parts id node expectation) := by
  have hchild : ∀ child ∈ node.children, tree.Around child (node.inside id openers) :=
    fun child hmem => h.child hnode hmem
  cases node with
  | arrayLiteral components =>
    cases components with
    | nil => cases expectation <;> simp [parts, emptyArray]
    | cons c cs =>
      simp only [Node.children, Node.inside, Node.opensScope] at hchild
      simp_all [parts]
  | clause head body =>
    simp only [Node.children, Node.inside, Node.opensScope] at hchild
    have hterms : ∀ term ∈ tree.atomTerms head, tree.Around term openers := by
      intro term hterm
      obtain ⟨name, terms, hhead, hmem⟩ := exists_of_atomTerms hterm
      exact (hchild head List.mem_cons_self).child hhead hmem
    cases hatom : tree.atom? head with
    | none => simp_all [parts]
    | some found =>
      rw [atomTerms, hatom] at hterms
      simp_all [parts, Action.isPlaced, Action.track]
  | call function typeArgument arguments =>
    simp only [Node.children, Node.inside, Node.opensScope] at hchild
    cases typeArgument <;> simp_all [parts]
  | funDecl name template parameters returnType body =>
    simp only [Node.children, Node.inside, Node.opensScope] at hchild
    cases template <;> simp_all [parts, Action.isPlaced, Action.track]
  | _ =>
    simp only [Node.children, Node.inside, Node.opensScope] at hchild
    simp_all [parts, Part.control, Action.isPlaced, Action.track]

/-- Actions that lead from some openers to others, with each placed one at a node around which are
the openers that it meets. -/
structure Moves (tree : Tree) (openers : List NodeId) (list : List Action)
    (final : List NodeId) : Prop where
  ends : list.foldl Action.track openers = final
  placed : ∀ before action after, list = before ++ action :: after → action.isPlaced →
    ∃ id expectation node, tree.node? id = some node ∧
      .act action ∈ tree.parts id node expectation ∧
        tree.Around id (before.foldl Action.track openers)

theorem moves_nil (tree : Tree) (openers : List NodeId) : tree.Moves openers [] openers where
  ends := rfl
  placed before _ _ heq := by cases before <;> cases heq

theorem moves_single {node : Node} (hnode : tree.node? id = some node) {action : Action}
    (hpart : .act action ∈ tree.parts id node expectation)
    (haround : action.isPlaced → tree.Around id openers) :
    tree.Moves openers [action] (action.track openers) where
  ends := rfl
  placed before other after heq hplaced := by
    rcases List.append_eq_singleton_iff.mp heq.symm with ⟨rfl, hlast⟩ | ⟨_, hnone⟩
    · cases hlast
      exact ⟨id, expectation, node, hnode, hpart, haround hplaced⟩
    · cases hnone

theorem Moves.append {between final : List NodeId} {first second : List Action}
    (h : tree.Moves openers first between) (h' : tree.Moves between second final) :
    tree.Moves openers (first ++ second) final where
  ends := by rw [List.foldl_append, h.ends, h'.ends]
  placed before action after heq hplaced := by
    rcases List.append_eq_append_iff.mp heq with ⟨rest, rfl, hrest⟩ | ⟨rest, rfl, hrest⟩
    · rw [List.foldl_append, h.ends]
      exact h'.placed rest action after hrest hplaced
    · cases rest with
      | nil =>
        rw [List.append_nil] at h
        rw [h.ends]
        exact h'.placed [] action after hrest.symm hplaced
      | cons _ rest =>
        cases hrest
        exact h.placed before action rest rfl hplaced

theorem moves_of_visit {depth : Nat} {list : List Action}
    (h : tree.visit depth id expectation = .ok list) (haround : tree.Around id openers) :
    tree.Moves openers list openers := by
  induction depth generalizing id expectation openers list with
  | zero => cases h
  | succ depth ih =>
    obtain ⟨node, hnode, lists, hlists, rfl⟩ := visit_eq_ok_iff.mp h
    have hparts : ∀ (parts : List Part) (lists : List (List Action)) (start : List NodeId),
        List.Forall₂ (fun part list => tree.follow (tree.visit depth) part = .ok list) parts lists →
        (∀ part ∈ parts, part ∈ tree.parts id node expectation) →
        tree.Nests id openers start parts → tree.Moves start lists.flatten openers := by
      intro parts lists start hall
      induction hall generalizing start with
      | nil =>
        rintro - rfl
        exact moves_nil tree _
      | @cons part list parts lists hpart _ ihparts =>
        intro hmem hnests
        have hrest := fun other hother => hmem other (List.mem_cons_of_mem _ hother)
        rw [List.flatten_cons]
        cases part with
        | act action =>
          cases hpart
          exact (moves_single hnode (hmem _ List.mem_cons_self) hnests.1).append
            (ihparts _ hrest hnests.2)
        | visit child lent => exact (ih hpart hnests.1).append (ihparts _ hrest hnests.2)
        | need child =>
          rw [eq_nil_of_need hpart]
          exact ihparts _ hrest hnests
    exact hparts _ _ _ hlists (fun _ hmem => hmem) (haround.nests hnode expectation)

/-- Where the walk acts on a name, it has entered the openers around the node of the name. -/
theorem moves_of_walk {list : List Action} (h : tree.walk = .ok list) : tree.Moves [] list [] :=
  moves_of_visit h .root

theorem Rooted.around_of_enter (hrooted : tree.Rooted) {before after : List Action}
    (h : tree.walk = .ok (before ++ .enter id :: after)) :
    tree.Around id (before.foldl Action.track []) ∧ before.foldl Action.track [] ≠ [] := by
  obtain ⟨found, expectation, node, hnode, hpart, haround⟩ :=
    (moves_of_walk h).placed before _ after rfl rfl
  obtain ⟨rfl, _, hroot⟩ := eq_of_enter hpart
  refine ⟨haround, (hrooted.around_ne_nil haround).resolve_left ?_⟩
  rintro rfl
  obtain ⟨other, hother, hkind⟩ := satisfies_iff.mp ((hrooted _ _ _ .root).mpr rfl)
  cases Option.some.inj (hnode.symm.trans hother)
  rw [hroot] at hkind
  cases hkind

end Tree
end Attribution
