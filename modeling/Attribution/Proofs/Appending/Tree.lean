import Attribution.Proofs.Strict.Lookup
import Attribution.Proofs.Tree.Carriers
import Attribution.Proofs.Tree.Proper
/-!
# Trees with one more statement

A tree becomes larger by new nodes at the end of its arena, one of which is a new last statement of
the root. Paths to the old nodes stay, the new nodes have new nodes below them, and a question about
old nodes has the answer that it had, as long as it does not ask for the statements of the root.
-/
namespace Attribution

/-- A root gets one more statement. -/
def Node.followed (statement : NodeId) : Node → Node
  | root statements => root (statements ++ [statement])
  | node => node

namespace Tree

/-- The tree with new nodes, one of which is its new last statement. -/
def append (tree : Tree) (added : Array Located) (statement : NodeId) : Tree where
  nodes := tree.nodes.modify tree.root
    (fun located => { located with node := located.node.followed statement }) ++ added
  root := tree.root

theorem node?_append {tree : Tree} {id : NodeId} (hid : id < tree.size) (added : Array Located)
    (statement : NodeId) : (tree.append added statement).node? id =
      if id = tree.root then (tree.node? id).map (Node.followed statement)
      else tree.node? id := by
  have hlt : id < (tree.nodes.modify tree.root fun located =>
      { located with node := located.node.followed statement }).size := by
    rwa [Array.size_modify]
  rw [node?, append, Array.getElem?_append_left hlt, Array.getElem?_modify, node?]
  by_cases h : id = tree.root
  · subst h
    rw [if_pos rfl, if_pos rfl, Option.map_map, Option.map_map]
    rfl
  · rw [if_neg (Ne.symm h), if_neg h]

/-- A tree and a larger one, which has one more statement at the end of the root and new nodes for
it. -/
structure Grows (tree larger : Tree) (statement : NodeId) : Prop where
  proper : tree.Proper
  proper_larger : larger.Proper
  root_eq : larger.root = tree.root
  root : ∃ statements, tree.node? tree.root = some (.root statements) ∧
    larger.node? tree.root = some (.root (statements ++ [statement]))
  kept : ∀ {id}, id < tree.size → id ≠ tree.root → larger.node? id = tree.node? id
  new : tree.size ≤ statement

theorem Proper.grows {tree : Tree} {added : Array Located} {statement : NodeId}
    (hproper : tree.Proper) (hlarger : (tree.append added statement).Proper)
    (hnew : tree.size ≤ statement) : tree.Grows (tree.append added statement) statement where
  proper := hproper
  proper_larger := hlarger
  root_eq := rfl
  root := by
    obtain ⟨root, hroot, hkind⟩ := satisfies_iff.mp hproper.root
    cases root with
    | root statements =>
      refine ⟨statements, hroot, ?_⟩
      rw [node?_append (lt_size hroot), if_pos rfl, hroot]
      rfl
    | _ => cases hkind
  kept hid hne := by rw [node?_append hid, if_neg hne]
  new := hnew

namespace Proper

variable {tree : Tree} {id child : NodeId} {node : Node}

theorem lt_size_child (hproper : tree.Proper) (hnode : tree.node? id = some node)
    (hchild : child ∈ node.children) : child < tree.size := by
  obtain ⟨path, expectation, hleads⟩ := hproper.exists_leads hnode
  obtain ⟨place, lent, hbelow⟩ := hleads.exists_of_children hnode hchild
  obtain ⟨found, hfound⟩ := hproper.closed _ _ _ hbelow
  exact lt_size hfound

theorem ne_root_of_child (hproper : tree.Proper) (hnode : tree.node? id = some node)
    (hchild : child ∈ node.children) : child ≠ tree.root := by
  rintro rfl
  obtain ⟨path, expectation, hleads⟩ := hproper.exists_leads hnode
  obtain ⟨place, lent, hbelow⟩ := hleads.exists_of_children hnode hchild
  cases hproper.once _ _ _ _ _ hbelow .root

theorem reaches_iff (hproper : tree.Proper) : tree.Reaches id ↔ id < tree.size := by
  constructor
  · intro hreaches
    obtain ⟨node, hnode⟩ := hreaches.exists_node hproper.closed
    exact lt_size hnode
  · exact hproper.reached id

theorem lt_size_of_carriers (hproper : tree.Proper) {resolve : NodeId → Option Entity}
    {target : NodeId} {targets : List NodeId} (h : tree.carriers resolve id = .ok targets)
    (htarget : target ∈ targets) : target < tree.size := by
  have hname : ∀ {name}, tree.node? id = some (.reference name) ∨
      tree.node? id = some (.simpleType name) → target < tree.size := by
    intro name hnode
    obtain ⟨found, hfound, _⟩ := satisfies_iff.mp (exists_of_carriers_name hnode h htarget).2
    exact lt_size hfound
  cases hnode : tree.node? id with
  | none =>
    rw [carriers, hnode] at h
    cases h
    cases htarget
  | some node =>
    cases node with
    | reference name => exact hname (.inl hnode)
    | simpleType name => exact hname (.inr hnode)
    | _ =>
      rw [carriers, hnode] at h
      cases h
      refine hproper.lt_size_child hnode ?_
      grind [Node.children]

end Proper

namespace Grows

variable {tree larger : Tree} {statement : NodeId} {path : List Nat} {id : NodeId}
  {expectation : Expectation} {node : Node}

/-- The only old node that changes is the root. -/
theorem node?_cases (h : tree.Grows larger statement) (hid : id < tree.size) :
    larger.node? id = tree.node? id ∨ ∃ statements, tree.node? id = some (.root statements) ∧
      larger.node? id = some (.root (statements ++ [statement])) := by
  by_cases hroot : id = tree.root
  · subst hroot
    exact .inr h.root
  · exact .inl (h.kept hid hroot)

theorem exists_larger (h : tree.Grows larger statement) (hnode : tree.node? id = some node) :
    ∃ found, larger.node? id = some found ∧
      ∀ (expectation : Expectation) (place : Nat) (child : NodeId × Expectation),
        (node.offspring id expectation)[place]? = some child →
          (found.offspring id expectation)[place]? = some child := by
  rcases h.node?_cases (lt_size hnode) with heq | ⟨statements, hroot, hlarger⟩
  · exact ⟨node, heq.trans hnode, fun _ _ _ hchild => hchild⟩
  · cases hnode.symm.trans hroot
    refine ⟨_, hlarger, ?_⟩
    intro expectation place child hchild
    simp only [Node.offspring, Node.children, List.map_append] at hchild ⊢
    rw [List.getElem?_append_left (List.getElem?_eq_some_iff.mp hchild).1, hchild]

theorem leads (h : tree.Grows larger statement) (hleads : tree.Leads path id expectation) :
    larger.Leads path id expectation := by
  induction hleads with
  | root =>
    rw [← h.root_eq]
    exact .root
  | child _ hnode hchild ih =>
    obtain ⟨found, hfound, hoffspring⟩ := h.exists_larger hnode
    exact ih.child hfound (hoffspring _ _ _ hchild)

theorem le_child (h : tree.Grows larger statement) (hid : tree.size ≤ id)
    (hnode : larger.node? id = some node) {child : NodeId} (hchild : child ∈ node.children) :
    tree.size ≤ child := by
  by_contra hlt
  obtain ⟨path, expectation, hleads⟩ := h.proper_larger.exists_leads hnode
  obtain ⟨place, lent, hbelow⟩ := hleads.exists_of_children hnode hchild
  obtain ⟨way, expectation', hold⟩ := h.proper.reached child (Nat.lt_of_not_le hlt)
  -- an old path to the child passes through an old parent, but there is one parent only
  cases h.proper_larger.once _ _ _ _ _ hbelow (h.leads hold)
  cases hold with
  | child hparent hfound _ =>
    obtain ⟨rfl, _⟩ := hleads.unique (h.leads hparent)
    exact Nat.not_lt_of_le hid (lt_size hfound)

theorem size_lt (h : tree.Grows larger statement) : tree.size < larger.size := by
  obtain ⟨statements, _, hlarger⟩ := h.root
  exact Nat.lt_of_le_of_lt h.new (h.proper_larger.lt_size_child hlarger
    (List.mem_append_right _ List.mem_cons_self))

theorem satisfies_eq (h : tree.Grows larger statement) (hid : id < tree.size)
    {test : Node → Bool}
    (htest : ∀ statements others, test (.root statements) = test (.root others)) :
    larger.satisfies id test = tree.satisfies id test := by
  rcases h.node?_cases hid with heq | ⟨statements, hroot, hlarger⟩
  · rw [satisfies, satisfies, heq]
  · rw [satisfies, satisfies, hroot, hlarger]
    exact htest _ _

theorem atom?_eq (h : tree.Grows larger statement) (hid : id < tree.size) :
    larger.atom? id = tree.atom? id := by
  rcases h.node?_cases hid with heq | ⟨statements, hroot, hlarger⟩
  · rw [atom?, atom?, heq]
  · rw [atom?, atom?, hroot, hlarger]

theorem atomTerms_eq (h : tree.Grows larger statement) (hid : id < tree.size) :
    larger.atomTerms id = tree.atomTerms id := by
  rw [atomTerms, atomTerms, h.atom?_eq hid]

theorem returnContainers_eq (h : tree.Grows larger statement) {ids : List NodeId}
    (hids : ∀ id ∈ ids, id < tree.size) :
    larger.returnContainers ids = tree.returnContainers ids := by
  apply List.filter_congr
  intro id hid
  rw [h.satisfies_eq (hids id hid) fun _ _ => rfl]

theorem declaredName?_eq (h : tree.Grows larger statement) (hid : id < tree.size) :
    larger.declaredName? id = tree.declaredName? id := by
  rcases h.node?_cases hid with heq | ⟨statements, hroot, hlarger⟩
  · rw [declaredName?, declaredName?, heq]
    cases hnode : tree.node? id with
    | none => rfl
    | some node =>
      cases node with
      | clause head body =>
        have hhead := h.atom?_eq (h.proper.lt_size_child hnode List.mem_cons_self)
        exact congrArg (Option.map Prod.fst) hhead
      | _ => rfl
  · rw [declaredName?, declaredName?, hroot, hlarger]

theorem predicateArity?_eq (h : tree.Grows larger statement) (hid : id < tree.size) :
    larger.predicateArity? id = tree.predicateArity? id := by
  rcases h.node?_cases hid with heq | ⟨statements, hroot, hlarger⟩
  · rw [predicateArity?, predicateArity?, heq]
    cases hnode : tree.node? id with
    | none => rfl
    | some node =>
      cases node with
      | clause head body =>
        have hhead := h.atom?_eq (h.proper.lt_size_child hnode List.mem_cons_self)
        exact congrArg (Option.map fun head => head.2.length) hhead
      | _ => rfl
  · rw [predicateArity?, predicateArity?, hroot, hlarger]

theorem declaredTerms_eq (h : tree.Grows larger statement) (hid : id < tree.size) :
    larger.declaredTerms id = tree.declaredTerms id := by
  rcases h.node?_cases hid with heq | ⟨statements, hroot, hlarger⟩
  · rw [declaredTerms, declaredTerms, heq]
    cases hnode : tree.node? id with
    | none => rfl
    | some node =>
      cases node with
      | clause head body =>
        apply List.flatMap_congr
        intro atom hatom
        exact h.atomTerms_eq (h.proper.lt_size_child hnode hatom)
      | query goal => exact h.atomTerms_eq (h.proper.lt_size_child hnode List.mem_cons_self)
      | _ => rfl
  · rw [declaredTerms, declaredTerms, hroot, hlarger]

theorem isConcatenation_eq (h : tree.Grows larger statement) (hid : id < tree.size) :
    larger.isConcatenation id = tree.isConcatenation id := by
  have hchild : ∀ {id child : NodeId} {node : Node}, tree.node? id = some node →
      child ∈ node.children → larger.node? child = tree.node? child := fun hnode hmem =>
    h.kept (h.proper.lt_size_child hnode hmem) (h.proper.ne_root_of_child hnode hmem)
  rcases h.node?_cases hid with heq | ⟨statements, hroot, hlarger⟩
  · rw [isConcatenation, isConcatenation, heq]
    split
    next name template parameters returnType body hfunction =>
      rw [hchild hfunction (by simp [Node.children])]
      split
      next statement hbody =>
        rw [hchild hbody List.mem_cons_self]
        split
        next expression hreturn => rw [hchild hreturn List.mem_cons_self]
        next => rfl
      next => rfl
    next => rfl
  · rw [isConcatenation, isConcatenation, hroot, hlarger]

section Entity

variable {entity : Entity}

theorem isPredicate_eq (h : tree.Grows larger statement) (hentity : entity.Reached tree) :
    entity.isPredicate larger = entity.isPredicate tree := by
  cases entity with
  | node id => exact h.satisfies_eq (h.proper.reaches_iff.mp hentity) fun _ _ => rfl
  | builtin b => rfl

theorem isVariable_eq (h : tree.Grows larger statement) (hentity : entity.Reached tree) :
    entity.isVariable larger = entity.isVariable tree := by
  cases entity with
  | node id => exact h.satisfies_eq (h.proper.reaches_iff.mp hentity) fun _ _ => rfl
  | builtin b => rfl

theorem isType_eq (h : tree.Grows larger statement) (hentity : entity.Reached tree) :
    entity.isType larger = entity.isType tree := by
  cases entity with
  | node id => exact h.satisfies_eq (h.proper.reaches_iff.mp hentity) fun _ _ => rfl
  | builtin b => rfl

theorem describe_eq (h : tree.Grows larger statement) (hentity : entity.Reached tree) :
    entity.describe larger = entity.describe tree := by
  cases entity with
  | node id =>
    rcases h.node?_cases (h.proper.reaches_iff.mp hentity) with heq | ⟨statements, hroot, hlarger⟩
    · rw [Entity.describe, Entity.describe, heq]
    · rw [Entity.describe, Entity.describe, hroot, hlarger]
      rfl
  | builtin b => rfl

end Entity

section Carriers

variable {resolve resolve' : NodeId → Option Entity}

theorem carriers_eq (h : tree.Grows larger statement) (hid : id < tree.size)
    (hresolve : resolve' id = resolve id)
    (hknown : ∀ found, resolve id = some (.node found) → found < tree.size) :
    larger.carriers resolve' id = tree.carriers resolve id := by
  rcases h.node?_cases hid with heq | ⟨statements, hroot, hlarger⟩
  · rw [carriers, carriers, heq, hresolve]
    cases tree.node? id with
    | none => rfl
    | some node =>
      cases node with
      | reference | simpleType =>
        cases hentity : resolve id with
        | none => rfl
        | some entity =>
          cases entity with
          | builtin b => rfl
          | node found =>
            simp only [Option.bind_some, Entity.node?, Tree.node]
            rcases h.node?_cases (hknown found hentity) with heq | ⟨statements, hroot, hlarger⟩
            · rw [heq]
            · rw [hroot, hlarger]
              rfl
      | _ => rfl
  · rw [carriers, carriers, hroot, hlarger]

/-- A template parameter can be reached from the old nodes from which it could be. -/
theorem carries_iff (h : tree.Grows larger statement)
    (hresolve : ∀ id < tree.size, resolve' id = resolve id)
    (hknown : ∀ id found, resolve id = some (.node found) → found < tree.size)
    (hid : id < tree.size) : larger.Carries resolve' id ↔ tree.Carries resolve id := by
  have hcarriers : ∀ id < tree.size, larger.carriers resolve' id = tree.carriers resolve id :=
    fun id hid => h.carriers_eq hid (hresolve id hid) (hknown id)
  have hkind : ∀ id < tree.size, larger.satisfies id Node.isTemplateParam =
      tree.satisfies id Node.isTemplateParam := fun id hid => h.satisfies_eq hid fun _ _ => rfl
  constructor
  · intro hcarries
    induction hcarries with
    | @parameter id hparameter => exact .parameter (hkind id hid ▸ hparameter)
    | @step id target targets htargets htarget _ ih =>
      rw [hcarriers id hid] at htargets
      exact .step htargets htarget (ih (h.proper.lt_size_of_carriers htargets htarget))
  · intro hcarries
    induction hcarries with
    | @parameter id hparameter => exact .parameter ((hkind id hid).trans hparameter)
    | @step id target targets htargets htarget _ ih =>
      have hlt := h.proper.lt_size_of_carriers htargets htarget
      exact .step ((hcarriers id hid).trans htargets) htarget (ih hlt)

end Carriers

end Grows
end Tree
end Attribution
