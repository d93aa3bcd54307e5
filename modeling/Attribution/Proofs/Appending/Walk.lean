import Attribution.Proofs.Appending.Tree
import Attribution.Proofs.Binding.Lexical
import Attribution.Proofs.Checker.Grounded
import Attribution.Proofs.Rule.Nodes
/-!
# The walk over a larger tree

The walk over a tree with a new declaration at its end is the walk over the old tree, with what is
done for the declaration before the root is left. This is about new nodes only, and declares the new
name and nothing else outside of scopes of its own.
-/
namespace Attribution

/-- Whether the node stands inside an expression, a type or a struct, where nothing is declared and
no scope is opened. -/
def Node.isInner (node : Node) : Bool := node.isExpression || node.isTypeNode || node.isField

/-- The names in a node. -/
def Node.names : Node → List String
  | reference name | fieldAccess _ name | simpleType name | varDecl name _ _ | fieldDecl name _
  | parameter name _ | funDecl name _ _ _ _ | structDecl name _ | templateParam name | fact name _
  | atom name _ => [name]
  | _ => []

namespace Action

/-- Whether an action neither declares anything nor enters or leaves a scope. -/
def isQuiet (action : Action) : Bool := action.isLevel && action.declares?.isNone

/-- Actions that declare nothing in the scope in which they begin. -/
inductive Sheltered : List Action → Prop
  | quiet {list : List Action} : (∀ action ∈ list, action.isQuiet) → Sheltered list
  | scope {node : NodeId} {inner : List Action} : Balanced inner →
    (∀ root, .enterRoot root ∉ inner) → Sheltered (.enter node :: (inner ++ [.leave]))

end Action

open Attribution.Part

namespace Tree

variable {tree larger : Tree} {decl : NodeId} {name : String} {id : NodeId}
  {expectation : Expectation} {node : Node}

theorem balanced_flatten {lists : List (List Action)}
    (h : ∀ list ∈ lists, Action.Balanced list) : Action.Balanced lists.flatten := by
  induction lists with
  | nil => exact .nil
  | cons list lists ih =>
    rw [List.forall_mem_cons] at h
    exact h.1.append (ih h.2)

theorem visit_mono {depth : Nat} {list : List Action}
    (h : tree.visit depth id expectation = .ok list) {n : Nat} (hle : depth ≤ n) :
    tree.visit n id expectation = .ok list := by
  induction depth generalizing id expectation list n with
  | zero => cases h
  | succ depth ih =>
    obtain ⟨m, rfl⟩ := Nat.exists_eq_add_of_lt (Nat.lt_of_succ_le hle)
    have hle' : depth ≤ depth + m := Nat.le_add_right _ _
    obtain ⟨node, hnode, lists, hlists, rfl⟩ := visit_eq_ok_iff.mp h
    refine visit_eq_ok_iff.mpr ⟨node, hnode, lists, hlists.imp ?_, rfl⟩
    intro part list hpart
    cases part with
    | visit child lent => exact ih hpart hle'
    | _ => exact hpart

theorem trail_induction (property : NodeId → Expectation → Prop)
    (hstep : ∀ id expectation node, property id expectation → tree.node? id = some node →
      ∀ child ∈ tree.visits id expectation node, property child.1 child.2)
    {depth : Nat} (h : property id expectation) :
    ∀ found ∈ tree.trail depth id expectation, property found.1 found.2 := by
  induction depth generalizing id expectation with
  | zero => simp [trail]
  | succ depth ih =>
    intro found hfound
    rcases List.mem_cons.mp hfound with rfl | hbelow
    · exact h
    · obtain ⟨node, hnode, hbelow⟩ := List.mem_flatMap.mp hbelow
      obtain ⟨child, hchild, hfound⟩ := List.mem_flatMap.mp hbelow
      exact ih (hstep _ _ _ h (Option.mem_toList.mp hnode) child hchild) found hfound

theorem exists_of_mem_visit {depth : Nat} {list : List Action}
    (h : tree.visit depth id expectation = .ok list) {action : Action} (haction : action ∈ list) :
    ∃ found ∈ tree.trail depth id expectation, ∃ node, tree.node? found.1 = some node ∧
      .act action ∈ tree.parts found.1 node found.2 := by
  obtain ⟨found, hfound, hown⟩ := List.mem_flatMap.mp ((perm_of_visit h).subset haction)
  obtain ⟨node, hnode, hmem⟩ := mem_own.mp hown
  exact ⟨found, hfound, node, hnode, mem_actions.mp hmem⟩

theorem visits_cases {child : NodeId × Expectation}
    (h : child ∈ tree.visits id expectation node) :
    (child ∈ node.offspring id expectation) ∨ ∃ head body name terms,
      node = .clause head body ∧ tree.node? head = some (.atom name terms) ∧
        child.1 ∈ terms ∧ child.2 = .nothing := by
  by_cases hclause : ∀ head body, node ≠ .clause head body
  · rw [visits_eq tree id expectation hclause] at h
    exact .inl h
  · simp only [not_forall, not_not] at hclause
    obtain ⟨head, body, rfl⟩ := hclause
    rw [visits_clause] at h
    obtain ⟨term, hterm, rfl⟩ := List.mem_map.mp h
    rcases List.mem_append.mp hterm with hhead | hbody
    · obtain ⟨name, terms, hatom, hmem⟩ := exists_of_atomTerms hhead
      exact .inr ⟨head, body, name, terms, rfl, hatom, hmem, rfl⟩
    · exact .inl (List.mem_map.mpr ⟨term, List.mem_cons_of_mem _ hbody, rfl⟩)

theorem nodes_of_offspring {child : NodeId × Expectation}
    (h : child ∈ node.offspring id expectation) :
    ∀ found ∈ child.2.nodes, found = id ∨ found ∈ node.children ∨ found ∈ expectation.nodes := by
  intro found hfound
  cases node with
  | parenthesized expression =>
    cases List.mem_singleton.mp h
    exact .inr (.inr hfound)
  | varDecl name type initializer =>
    simp only [Node.offspring, List.mem_cons, List.not_mem_nil, or_false] at h
    rcases h with rfl | rfl
    · cases hfound
    · exact .inl (List.mem_singleton.mp hfound)
  | call function typeArgument arguments =>
    right; left
    rcases List.mem_append.mp h with hplain | hargument
    · obtain ⟨_, _, rfl⟩ := List.mem_map.mp hplain
      cases hfound
    · obtain ⟨argument, hmem, rfl⟩ := List.mem_map.mp hargument
      simp only [Expectation.nodes, List.mem_cons, List.not_mem_nil, or_false] at hfound
      rcases hfound with rfl | rfl
      · exact List.mem_cons_self
      · exact List.mem_append_right _ hmem
  | _ =>
    obtain ⟨_, _, rfl⟩ := List.mem_map.mp h
    cases hfound

theorem declaredTerms_cases (hnode : tree.node? id = some node) {term : NodeId}
    (h : term ∈ tree.declaredTerms id) : term ∈ node.children ∨ ∃ atom name terms,
      atom ∈ node.children ∧ tree.node? atom = some (.atom name terms) ∧ term ∈ terms := by
  rw [declaredTerms, hnode] at h
  cases node with
  | fact => exact .inl h
  | clause head body =>
    obtain ⟨atom, hatom, hterm⟩ := List.mem_flatMap.mp h
    obtain ⟨name, terms, hheld, hmem⟩ := exists_of_atomTerms hterm
    exact .inr ⟨atom, name, terms, hatom, hheld, hmem⟩
  | query goal =>
    obtain ⟨name, terms, hheld, hmem⟩ := exists_of_atomTerms h
    exact .inr ⟨goal, name, terms, List.mem_cons_self, hheld, hmem⟩
  | _ => cases h

theorem visit_root {depth : Nat} {statements : List NodeId}
    (hnode : tree.node? id = some (.root statements)) :
    tree.visit (depth + 1) id expectation =
      (statements.mapM fun statement => tree.visit depth statement .nothing).map fun lists =>
        .enterRoot id :: (lists.flatten ++ [.leave]) := by
  have hnode' : tree.node id = .ok (.root statements) := by rw [Tree.node, hnode]
  have hvisits : (statements.map plain).mapM (tree.follow (tree.visit depth)) =
      statements.mapM fun statement => tree.visit depth statement .nothing := List.mapM_map
  rw [visit, hnode', ok_bind, parts, List.cons_append, List.mapM_cons, List.mapM_append, hvisits]
  cases statements.mapM fun statement => tree.visit depth statement .nothing with
  | error fault => rfl
  | ok lists => simp [follow, Except.map]

namespace Grows

variable (h : tree.Grows larger decl)
include h

theorem termParts_eq (hid : id < tree.size) : larger.termParts id = tree.termParts id := by
  rw [termParts, termParts, h.declaredTerms_eq hid]

theorem parts_eq (hnode : tree.node? id = some node) (expectation : Expectation) :
    larger.parts id node expectation = tree.parts id node expectation := by
  have hid := lt_size hnode
  have hchild : ∀ child ∈ node.children, child < tree.size := fun child =>
    h.proper.lt_size_child hnode
  cases node with
  | block statements =>
    have hstatements : ∀ id ∈ statements, id < tree.size := hchild
    rw [parts, parts, h.returnContainers_eq hstatements]
  | conditional condition thenBranch elseBranch =>
    have hbranches : ∀ id ∈ thenBranch :: elseBranch.toList, id < tree.size :=
      fun child hmem => hchild child (List.mem_cons_of_mem _ hmem)
    rw [parts, parts, h.returnContainers_eq hbranches]
  | fact name terms => rw [parts, parts, h.termParts_eq hid]
  | clause head body =>
    rw [parts, parts, h.termParts_eq hid, h.atom?_eq (hchild head List.mem_cons_self)]
  | query goal => rw [parts, parts, h.termParts_eq hid]
  | arrayLiteral components => cases components <;> rfl
  | _ => rfl

/-- Visits of old nodes do what they did, those of the root apart. -/
theorem visit_eq {depth : Nat} {list : List Action} (hne : id ≠ tree.root)
    (hvisit : tree.visit depth id expectation = .ok list) :
    larger.visit depth id expectation = .ok list := by
  induction depth generalizing id expectation list with
  | zero => cases hvisit
  | succ depth ih =>
    obtain ⟨node, hnode, lists, hlists, rfl⟩ := visit_eq_ok_iff.mp hvisit
    have hkept := (h.kept (lt_size hnode) hne).trans hnode
    refine visit_eq_ok_iff.mpr ⟨node, hkept, lists, ?_, rfl⟩
    rw [h.parts_eq hnode]
    refine ((List.forall₂_and_left _ _).mpr ⟨fun _ hmem => hmem, hlists⟩).imp ?_
    rintro part list ⟨hmem, hpart⟩
    cases part with
    | act action => exact hpart
    | visit child lent =>
      refine ih ?_ hpart
      rcases visits_cases (mem_visits.mpr hmem) with hoffspring | ⟨_, _, _, _, _, hatom, hterm, _⟩
      · have hchild : child ∈ node.children := by
          rw [← Node.map_fst_offspring id expectation]
          exact List.mem_map_of_mem hoffspring
        exact h.proper.ne_root_of_child hnode hchild
      · exact h.proper.ne_root_of_child hatom hterm
    | need child =>
      obtain ⟨body, rfl⟩ := exists_clause_of_need hmem
      have hchild : child ∈ (Node.clause child body).children := List.mem_cons_self
      have hsame := h.kept (h.proper.lt_size_child hnode hchild)
        (h.proper.ne_root_of_child hnode hchild)
      rw [← hpart, follow, follow, Tree.node, Tree.node, hsame]

/-- The walk comes to the new statement after all others. -/
theorem exists_walk : ∃ body depth more, Action.Balanced body ∧
    tree.walk = .ok (.enterRoot tree.root :: (body ++ [.leave])) ∧
      larger.visit depth decl .nothing = .ok more ∧
      larger.walk = .ok (.enterRoot tree.root :: (body ++ more ++ [.leave])) := by
  obtain ⟨list, hwalk⟩ := h.proper.exists_walk
  obtain ⟨statements, hroot, hlarger⟩ := h.root
  obtain ⟨n, hn⟩ := Nat.exists_eq_add_of_lt (Nat.zero_lt_of_lt (lt_size hroot))
  obtain ⟨m, hm⟩ := Nat.exists_eq_add_of_lt (Nat.zero_lt_of_lt h.size_lt)
  rw [Nat.zero_add] at hn hm
  have hle : n ≤ m := by
    have hlt := h.size_lt
    omega
  rw [walk, hn, visit_root hroot] at hwalk
  cases hlists : statements.mapM fun statement => tree.visit n statement .nothing with
  | error fault =>
    rw [hlists] at hwalk
    cases hwalk
  | ok lists =>
    have hold : List.Forall₂ (fun statement list => larger.visit m statement .nothing = .ok list)
        statements lists := by
      refine ((List.forall₂_and_left _ _).mpr
        ⟨fun _ hmem => hmem, mapM_eq_ok_iff.mp hlists⟩).imp ?_
      rintro statement list ⟨hmem, hvisit⟩
      exact visit_mono (h.visit_eq (h.proper.ne_root_of_child hroot hmem) hvisit) hle
    obtain ⟨more, hmore⟩ : ∃ more, larger.visit m decl .nothing = .ok more := by
      have hchild : (Node.root (statements ++ [decl])).children[statements.length]? = some decl :=
        List.getElem?_concat_length
      have hleads : larger.Leads [statements.length] decl .nothing := by
        refine Leads.root.child (h.root_eq ▸ hlarger) ?_
        simp only [Node.offspring, List.getElem?_map, hchild]
        rfl
      have hclosed := h.proper_larger.closed
      apply (hclosed.acyclic h.proper_larger.unshared).exists_visit hclosed hleads
      rw [hm, List.length_singleton]
      omega
    have hall : (statements ++ [decl]).mapM (fun statement => larger.visit m statement .nothing) =
        .ok (lists ++ [more]) := mapM_eq_ok_iff.mpr (List.rel_append hold (.cons hmore .nil))
    have hbalanced : Action.Balanced lists.flatten := by
      apply balanced_flatten
      intro list hlist
      obtain ⟨statement, _, hvisit⟩ := exists_of_forall₂ hold.flip hlist
      exact balanced_of_visit hvisit
    refine ⟨lists.flatten, m, more, hbalanced, ?_, hmore, ?_⟩
    · rw [walk, hn, visit_root hroot, hlists]
      rfl
    · rw [walk, hm, h.root_eq, visit_root hlarger, hall]
      simp [Except.map]

theorem visits_new (hid : tree.size ≤ id) (hnode : larger.node? id = some node)
    {child : NodeId × Expectation} (hchild : child ∈ larger.visits id expectation node) :
    ∃ parent holder, tree.size ≤ parent ∧ larger.node? parent = some holder ∧
      child.1 ∈ holder.children := by
  rcases visits_cases hchild with hoffspring | ⟨head, body, name, terms, rfl, hatom, hterm, _⟩
  · refine ⟨id, node, hid, hnode, ?_⟩
    rw [← Node.map_fst_offspring id expectation]
    exact List.mem_map_of_mem hoffspring
  · exact ⟨head, _, h.le_child hid hnode List.mem_cons_self, hatom, hterm⟩

theorem new_of_visit {depth : Nat} {list : List Action} (hid : tree.size ≤ id)
    (hexpectation : ∀ found ∈ expectation.nodes, tree.size ≤ found)
    (hvisit : larger.visit depth id expectation = .ok list) :
    ∀ action ∈ list, ∀ found ∈ action.nodes, tree.size ≤ found := by
  have hall : ∀ place ∈ larger.trail depth id expectation,
      tree.size ≤ place.1 ∧ ∀ found ∈ place.2.nodes, tree.size ≤ found := by
    refine trail_induction (fun id expectation => tree.size ≤ id ∧
      ∀ found ∈ expectation.nodes, tree.size ≤ found) ?_ ⟨hid, hexpectation⟩
    rintro id expectation node ⟨hid, hexpectation⟩ hnode child hchild
    obtain ⟨parent, holder, hparent, hholder, hmem⟩ := h.visits_new hid hnode hchild
    refine ⟨h.le_child hparent hholder hmem, ?_⟩
    intro found hfound
    rcases visits_cases hchild with hoffspring | ⟨_, _, _, _, _, _, _, hnothing⟩
    · rcases nodes_of_offspring hoffspring found hfound with rfl | hbelow | habove
      · exact hid
      · exact h.le_child hid hnode hbelow
      · exact hexpectation found habove
    · rw [hnothing] at hfound
      cases hfound
  intro action haction found hfound
  obtain ⟨place, hplace, node, hnode, hpart⟩ := exists_of_mem_visit hvisit haction
  obtain ⟨hold, hlent⟩ := hall place hplace
  rcases nodes_of_parts hnode hpart found hfound with rfl | hchild | hterm | hexpected
  · exact hold
  · exact h.le_child hold hnode hchild
  · rcases declaredTerms_cases hnode hterm with hchild | ⟨atom, name, terms, hatom, hheld, hmem⟩
    · exact h.le_child hold hnode hchild
    · exact h.le_child (h.le_child hold hnode hatom) hheld hmem
  · exact hlent found hexpected

end Grows

/-- A larger tree has a new declaration at its end, of a name that the old tree does not know. The
new nodes have children of the kinds that they ask for. -/
structure Gains (tree larger : Tree) (decl : NodeId) (name : String) : Prop
    extends tree.Grows larger decl where
  fits : ∀ id node, tree.size ≤ id → larger.node? id = some node → larger.Fits node
  kind : larger.satisfies decl fun node => node.isVariable || node.isFunction || node.isStruct
  declared : larger.declaredName? decl = some name
  absent : ∀ id node, tree.node? id = some node → name ∉ node.names
  not_builtin : ∀ b : Builtin, b.name ≠ name

theorem Fits.inner (hfits : tree.Fits node) (hinner : node.isInner) :
    ∀ child ∈ node.children, tree.satisfies child Node.isInner := by
  have hexpression : ∀ {id}, tree.satisfies id Node.isExpression →
      tree.satisfies id Node.isInner := fun hsat =>
    satisfies_mono hsat fun htest => by simp [Node.isInner, htest]
  have htype : ∀ {id}, tree.satisfies id Node.isTypeNode → tree.satisfies id Node.isInner :=
    fun hsat => satisfies_mono hsat fun htest => by simp [Node.isInner, htest]
  have hreference : ∀ {id}, tree.satisfies id Node.isReference →
      tree.satisfies id Node.isInner := by
    intro id hsat
    refine satisfies_mono hsat ?_
    rintro (_ | _) htest <;> first | rfl | cases htest
  cases node with
  | literal | reference | simpleType => simp [Node.children]
  | root | block | varDecl | parameter | funDecl | structDecl | templateParam | conditional
  | whileLoop | forLoop | returnStatement | expressionStatement | fact | clause | query | atom =>
    cases hinner
  | _ =>
    simp only [Fits, Node.children, List.mem_cons, List.mem_append, List.not_mem_nil,
      or_false] at hfits ⊢
    grind

theorem not_introduced_of_inner (hinner : node.isInner) :
    tree.introduced? node = none ∧ node.opensScope = false ∧ node.isRoot = false := by
  cases node with
  | root | block | varDecl | parameter | funDecl | structDecl | templateParam | conditional
  | whileLoop | forLoop | returnStatement | expressionStatement | fact | clause | query | atom =>
    cases hinner
  | _ => exact ⟨rfl, rfl, rfl⟩

theorem isQuiet_of_parts (hinner : node.isInner) {action : Action}
    (h : .act action ∈ tree.parts id node expectation) : action.isQuiet := by
  obtain ⟨hname, hopens, hroot⟩ := @not_introduced_of_inner tree node hinner
  cases action with
  | enterRoot found =>
    rw [(eq_of_enterRoot h).2] at hroot
    cases hroot
  | enter found =>
    rw [(eq_of_enter h).2.1] at hopens
    cases hopens
  | leave =>
    have hleave : node.opensScope := marks_of_parts h
    rw [hopens] at hleave
    cases hleave
  | declare found decl =>
    rw [(declare_mem_iff.mp h).2] at hname
    cases hname
  | _ => rfl

theorem quiet_of_follow {visit : NodeId → Expectation → Except Fault (List Action)}
    {parts : List Part} (hact : ∀ action, .act action ∈ parts → action.isQuiet)
    (hvisit : ∀ child lent list, .visit child lent ∈ parts → visit child lent = .ok list →
      ∀ action ∈ list, action.isQuiet) {lists : List (List Action)}
    (h : List.Forall₂ (fun part list => tree.follow visit part = .ok list) parts lists) :
    ∀ action ∈ lists.flatten, action.isQuiet := by
  induction h with
  | nil => simp
  | @cons part list parts lists hpart _ ih =>
    have hrest := ih (fun action hmem => hact action (List.mem_cons_of_mem _ hmem))
      fun child lent list hmem => hvisit child lent list (List.mem_cons_of_mem _ hmem)
    rw [List.flatten_cons, List.forall_mem_append]
    refine ⟨?_, hrest⟩
    cases part with
    | act action =>
      cases hpart
      simpa using hact action List.mem_cons_self
    | visit child lent => exact hvisit child lent list List.mem_cons_self hpart
    | need child =>
      rw [eq_nil_of_need hpart]
      simp

namespace Gains

variable (h : tree.Gains larger decl name)
include h

theorem ne_of_declare {list : List Action} (hwalk : tree.walk = .ok list) {found : String}
    {other : NodeId} (hmem : .declare found other ∈ list) : found ≠ name := by
  rintro rfl
  obtain ⟨place, _, node, hnode, hpart⟩ := exists_of_mem_visit hwalk hmem
  have hintroduced := (declare_mem_iff.mp hpart).2
  have hnames := h.absent _ _ hnode
  cases node with
  | clause head body =>
    obtain ⟨⟨name, terms⟩, hatom, rfl⟩ := Option.map_eq_some_iff.mp hintroduced
    rw [atom?] at hatom
    split at hatom
    next hhead =>
      cases hatom
      exact h.absent _ _ hhead List.mem_cons_self
    next => cases hatom
  | varDecl | parameter | funDecl | structDecl | templateParam | fact =>
    cases hintroduced
    exact hnames List.mem_cons_self
  | _ => cases hintroduced

theorem ne_of_use {list : List Action} (hwalk : tree.walk = .ok list) {found : String}
    (hmem : .useName id found ∈ list ∨ .useType id found ∈ list) : found ≠ name := by
  rintro rfl
  rcases hmem with hmem | hmem <;>
  · obtain ⟨⟨above, lent⟩, _, node, hnode, hpart⟩ := exists_of_mem_visit hwalk hmem
    cases does_of_part hpart
    exact h.absent _ _ hnode List.mem_cons_self

theorem quiet_of_visit {depth : Nat} {list : List Action} (hid : tree.size ≤ id)
    (hinner : larger.satisfies id Node.isInner)
    (hvisit : larger.visit depth id expectation = .ok list) :
    ∀ action ∈ list, action.isQuiet := by
  have hall : ∀ place ∈ larger.trail depth id expectation,
      tree.size ≤ place.1 ∧ larger.satisfies place.1 Node.isInner := by
    refine trail_induction (fun id _ => tree.size ≤ id ∧ larger.satisfies id Node.isInner) ?_
      ⟨hid, hinner⟩
    rintro id expectation node ⟨hid, hinner⟩ hnode child hchild
    rw [satisfies_of_node hnode] at hinner
    rcases visits_cases hchild with hoffspring | ⟨_, _, _, _, rfl, _⟩
    · have hmem : child.1 ∈ node.children := by
        rw [← Node.map_fst_offspring id expectation]
        exact List.mem_map_of_mem hoffspring
      exact ⟨h.le_child hid hnode hmem, (h.fits id node hid hnode).inner hinner _ hmem⟩
    · cases hinner
  intro action haction
  obtain ⟨place, hplace, node, hnode, hpart⟩ := exists_of_mem_visit hvisit haction
  exact isQuiet_of_parts ((satisfies_of_node hnode).mp (hall place hplace).2) hpart

theorem not_enterRoot {depth : Nat} {list : List Action}
    (hvisit : larger.visit depth decl expectation = .ok list) (root : NodeId) :
    .enterRoot root ∉ list := by
  have hall : ∀ place ∈ larger.trail depth decl expectation,
      tree.size ≤ place.1 ∧ ¬ larger.satisfies place.1 Node.isRoot := by
    refine trail_induction (fun id _ => tree.size ≤ id ∧ ¬ larger.satisfies id Node.isRoot) ?_ ?_
    · rintro id expectation node ⟨hid, _⟩ hnode child hchild
      obtain ⟨parent, holder, hparent, hholder, hmem⟩ := h.visits_new hid hnode hchild
      exact ⟨h.le_child hparent hholder hmem, (h.fits _ _ hparent hholder).not_root hmem⟩
    · refine ⟨h.new, ?_⟩
      intro hroot
      obtain ⟨node, hnode, hkind⟩ := satisfies_iff.mp h.kind
      rw [satisfies_of_node hnode] at hroot
      cases node with
      | root => cases hkind
      | _ => cases hroot
  intro haction
  obtain ⟨place, hplace, node, hnode, hpart⟩ := exists_of_mem_visit hvisit haction
  exact (hall place hplace).2 ((satisfies_of_node hnode).mpr (eq_of_enterRoot hpart).2)

theorem sheltered_variable {depth : Nat} {list : List Action} {type initializer : NodeId}
    (hnode : larger.node? decl = some (.varDecl name type initializer))
    (hvisit : larger.visit depth decl expectation = .ok list) : ∃ before after,
      list = before ++ .declare name decl :: after ∧ Action.Sheltered before ∧
        Action.Sheltered after := by
  cases depth with
  | zero => cases hvisit
  | succ depth =>
    obtain ⟨held, hheld, lists, hlists, rfl⟩ := visit_eq_ok_iff.mp hvisit
    cases hnode.symm.trans hheld
    obtain ⟨htype, hinitializer⟩ := h.fits decl _ h.new hnode
    have hnew : ∀ child ∈ (Node.varDecl name type initializer).children, tree.size ≤ child :=
      fun child => h.le_child h.new hnode
    obtain _ | ⟨hfirst, _ | ⟨hsecond, _ | ⟨hdeclare, hrest⟩⟩⟩ := hlists
    next first second _ rest =>
      cases hdeclare
      refine ⟨first ++ second, rest.flatten, by simp, .quiet ?_, .quiet ?_⟩
      · rw [List.forall_mem_append]
        constructor
        · refine h.quiet_of_visit (hnew type List.mem_cons_self) ?_ hfirst
          exact satisfies_mono htype fun htest => by simp [Node.isInner, htest]
        · refine h.quiet_of_visit (hnew initializer (by simp [Node.children])) ?_ hsecond
          exact satisfies_mono hinitializer fun htest => by simp [Node.isInner, htest]
      · refine quiet_of_follow ?_ ?_ hrest
        · intro action hmem
          simp only [add, List.mem_cons, Part.act.injEq, List.not_mem_nil, or_false] at hmem
          rcases hmem with rfl | rfl | rfl <;> rfl
        · intro child lent list hmem
          simp [add] at hmem

theorem sheltered_struct {depth : Nat} {list : List Action} {fields : List NodeId}
    (hnode : larger.node? decl = some (.structDecl name fields))
    (hvisit : larger.visit depth decl expectation = .ok list) : ∃ after,
      list = .declare name decl :: after ∧ Action.Sheltered after := by
  cases depth with
  | zero => cases hvisit
  | succ depth =>
    obtain ⟨held, hheld, lists, hlists, rfl⟩ := visit_eq_ok_iff.mp hvisit
    cases hnode.symm.trans hheld
    have hfields : ∀ id ∈ fields, larger.satisfies id Node.isField := h.fits decl _ h.new hnode
    have hnew : ∀ id ∈ fields, tree.size ≤ id := fun child => h.le_child h.new hnode
    have hparts : larger.parts decl (.structDecl name fields) expectation =
        act (.declare name decl) :: (add (.structType decl) :: add (.structDeclared decl name) ::
          fields.map plain) := rfl
    rw [hparts] at hlists
    obtain _ | ⟨hdeclare, hrest⟩ := hlists
    next declare rest =>
      cases hdeclare
      refine ⟨rest.flatten, by simp, .quiet (quiet_of_follow ?_ ?_ hrest)⟩
      · intro action hmem
        simp only [add, plain, List.mem_cons, List.mem_map, Part.act.injEq, reduceCtorEq, and_false,
          exists_false, or_false] at hmem
        rcases hmem with rfl | rfl <;> rfl
      · intro child lent list hmem hfield
        simp only [add, plain, List.mem_cons, List.mem_map, reduceCtorEq, false_or,
          Part.visit.injEq] at hmem
        obtain ⟨id, hid, rfl, rfl⟩ := hmem
        refine h.quiet_of_visit (hnew id hid) ?_ hfield
        exact satisfies_mono (hfields id hid) fun htest => by simp [Node.isInner, htest]

theorem sheltered_function {depth : Nat} {list : List Action} {template : Option NodeId}
    {parameters : List NodeId} {returnType body : NodeId}
    (hnode : larger.node? decl = some (.funDecl name template parameters returnType body))
    (hvisit : larger.visit depth decl expectation = .ok list) : ∃ after,
      list = .declare name decl :: after ∧ Action.Sheltered after := by
  have hroots := h.not_enterRoot hvisit
  cases depth with
  | zero => cases hvisit
  | succ depth =>
    obtain ⟨held, hheld, lists, hlists, rfl⟩ := visit_eq_ok_iff.mp hvisit
    cases hnode.symm.trans hheld
    have hparts : ∃ inside, larger.parts decl (.funDecl name template parameters returnType body)
        expectation = act (.declare name decl) :: act (.enter decl) :: (inside ++ [act .leave]) ∧
          ∀ action, .act action ∈ inside → action.isLevel := by
      refine ⟨template.toList.flatMap (fun t => [plain t, add (.templateParameterName decl t)]) ++
        parameters.map plain ++ [plain returnType, plain body,
          add (.functionType decl parameters returnType),
          add (.missingReturn decl body returnType)], by simp [parts], ?_⟩
      intro action haction
      simp only [plain, add, List.mem_append, List.mem_flatMap, List.mem_map, List.mem_cons,
        List.not_mem_nil, or_false, Part.act.injEq, reduceCtorEq, false_or, and_false,
        exists_false] at haction
      rcases haction with ⟨_, _, rfl⟩ | rfl | rfl <;> rfl
    obtain ⟨inside, hparts, hlevel⟩ := hparts
    rw [hparts] at hlists
    obtain _ | @⟨_, _, _, _, hdeclare, _ | @⟨_, _, _, rest, henter, hrest⟩⟩ := hlists
    cases hdeclare
    cases henter
    obtain ⟨inner, last, hflatten, hbalanced, hlast⟩ :=
      balanced_of_parts (fun _ _ _ => balanced_of_visit) hlevel hrest
    obtain _ | ⟨hleave, hnil⟩ := hlast
    cases hleave
    cases hnil
    refine ⟨.enter decl :: (inner ++ [.leave]), by simp [hflatten], .scope hbalanced ?_⟩
    intro root hmem
    exact hroots root (by simp [hflatten, hmem])

/-- What is done for a new declaration declares its name, and nothing else outside of scopes of its
own. -/
theorem exists_sheltered {depth : Nat} {list : List Action}
    (hvisit : larger.visit depth decl expectation = .ok list) : ∃ before after,
      list = before ++ .declare name decl :: after ∧ Action.Sheltered before ∧
        Action.Sheltered after := by
  obtain ⟨node, hnode, hkind⟩ := satisfies_iff.mp h.kind
  have hname := h.declared
  rw [declaredName?, hnode] at hname
  cases node with
  | varDecl =>
    cases hname
    exact h.sheltered_variable hnode hvisit
  | structDecl =>
    cases hname
    obtain ⟨after, hlist, hafter⟩ := h.sheltered_struct hnode hvisit
    exact ⟨[], after, hlist, .quiet (by simp), hafter⟩
  | funDecl =>
    cases hname
    obtain ⟨after, hlist, hafter⟩ := h.sheltered_function hnode hvisit
    exact ⟨[], after, hlist, .quiet (by simp), hafter⟩
  | _ => cases hkind

end Gains

end Tree
end Attribution
