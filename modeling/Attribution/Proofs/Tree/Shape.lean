import Mathlib.Data.List.Nodup
import Mathlib.Data.List.Perm.Subperm
import Attribution.Dependence
import Attribution.Rule.Basic
/-!
# Well-formed trees

A path is a list of places among children, the last step first. A tree is well formed if children
exist and are of the kinds that their parents ask for, and exactly one path leads from the root to
each node.
-/
namespace Attribution

namespace Node

def isRoot : Node → Bool
  | root _ => true
  | _ => false

def isReference : Node → Bool
  | reference _ => true
  | _ => false

def isName : Node → Bool
  | reference _ | simpleType _ => true
  | _ => false

def isExpression : Node → Bool
  | literal _ | reference _ | construct _ | arrayLiteral _ | parenthesized _ | fieldAccess ..
  | arrayAccess .. | call .. | unary .. | binary .. | assignment .. => true
  | _ => false

def isTypeNode : Node → Bool
  | simpleType _ | arrayType _ => true
  | _ => false

def isStatement : Node → Bool
  | block _ | varDecl .. | funDecl .. | structDecl .. | conditional .. | whileLoop .. | forLoop ..
  | returnStatement _ | expressionStatement _ | fact .. | clause .. | query _ => true
  | _ => false

def isBlock : Node → Bool
  | block _ => true
  | _ => false

def isField : Node → Bool
  | fieldDecl .. => true
  | _ => false

def isParameter : Node → Bool
  | parameter .. => true
  | _ => false

def isAtom : Node → Bool
  | atom .. => true
  | _ => false

theorem isAtom_of_isExpression {node : Node} (h : node.isExpression) : node.isAtom = false := by
  cases node <;> first | rfl | cases h

/-- The children of a node, each with what it can take its type from if it has none of its own. -/
def offspring (id : NodeId) (expectation : Expectation) : Node → List (NodeId × Expectation)
  | parenthesized expression => [(expression, expectation)]
  | varDecl _ type initializer => [(type, .nothing), (initializer, .variable id)]
  | call function typeArgument arguments =>
    ((function :: typeArgument.toList).map fun child => (child, .nothing)) ++
      arguments.map fun argument => (argument, .argument function argument)
  | node => node.children.map fun child => (child, .nothing)

theorem map_fst_offspring (id : NodeId) (expectation : Expectation) (node : Node) :
    (node.offspring id expectation).map Prod.fst = node.children := by
  cases node <;> simp [offspring, children, Function.comp_def]

theorem getElem?_children_call {function : NodeId} {typeArgument : Option NodeId}
    {arguments : List NodeId} {place : Nat} {argument : NodeId}
    (h : arguments[place]? = some argument) :
    (call function typeArgument arguments).children[1 + typeArgument.toList.length + place]? =
      some argument := by
  have hlength : (function :: typeArgument.toList).length = 1 + typeArgument.toList.length := by
    rw [List.length_cons, Nat.add_comm]
  rw [children, List.getElem?_append_right (by omega), hlength, Nat.add_sub_cancel_left, h]

end Node

namespace Tree

/-- The children of a node exist and are of the kinds that the node asks for. -/
def Fits (tree : Tree) : Node → Prop
  | .literal _ | .reference _ | .simpleType _ | .templateParam _ => True
  | .construct reference => tree.satisfies reference Node.isReference
  | .parenthesized expression | .fieldAccess expression _ | .unary _ expression
  | .expressionStatement expression => tree.satisfies expression Node.isExpression
  | .arrayAccess left right | .binary _ left right | .assignment left right =>
    tree.satisfies left Node.isExpression ∧ tree.satisfies right Node.isExpression
  | .arrayLiteral expressions | .fact _ expressions | .atom _ expressions =>
    ∀ id ∈ expressions, tree.satisfies id Node.isExpression
  | .call function typeArgument arguments =>
    tree.satisfies function Node.isExpression ∧
      (∀ id ∈ typeArgument.toList, tree.satisfies id Node.isTypeNode) ∧
      ∀ id ∈ arguments, tree.satisfies id Node.isExpression
  | .arrayType type | .fieldDecl _ type | .parameter _ type =>
    tree.satisfies type Node.isTypeNode
  | .root statements | .block statements =>
    ∀ id ∈ statements, tree.satisfies id Node.isStatement
  | .varDecl _ type initializer =>
    tree.satisfies type Node.isTypeNode ∧ tree.satisfies initializer Node.isExpression
  | .funDecl _ template parameters returnType body =>
    (∀ id ∈ template.toList, tree.satisfies id Node.isTemplateParam) ∧
      (∀ id ∈ parameters, tree.satisfies id Node.isParameter) ∧
      tree.satisfies returnType Node.isTypeNode ∧ tree.satisfies body Node.isBlock
  | .structDecl _ fields => ∀ id ∈ fields, tree.satisfies id Node.isField
  | .conditional condition thenBranch elseBranch =>
    tree.satisfies condition Node.isExpression ∧
      ∀ id ∈ thenBranch :: elseBranch.toList, tree.satisfies id Node.isStatement
  | .whileLoop condition body =>
    tree.satisfies condition Node.isExpression ∧ tree.satisfies body Node.isStatement
  | .forLoop init condition step body =>
    (tree.satisfies init Node.isVariable ∨ tree.satisfies init Node.isExpression) ∧
      tree.satisfies condition Node.isExpression ∧ tree.satisfies step Node.isExpression ∧
      tree.satisfies body Node.isStatement
  | .returnStatement expression =>
    ∀ id ∈ expression.toList, tree.satisfies id Node.isExpression
  | .clause head body => ∀ id ∈ head :: body, tree.satisfies id Node.isAtom
  | .query goal => tree.satisfies goal Node.isAtom

/-- The paths from the root, with the nodes that they lead to and what these can take their types
from. -/
inductive Leads (tree : Tree) : List Nat → NodeId → Expectation → Prop
  | root : Leads tree [] tree.root .nothing
  | child {path : List Nat} {id : NodeId} {expectation : Expectation} {node : Node} {place : Nat}
      {child : NodeId} {lent : Expectation} : Leads tree path id expectation →
    tree.node? id = some node → (node.offspring id expectation)[place]? = some (child, lent) →
      Leads tree (place :: path) child lent

structure WellFormed (tree : Tree) : Prop where
  root : tree.satisfies tree.root Node.isRoot
  fits : ∀ id node, tree.node? id = some node → tree.Fits node
  reached : ∀ id, id < tree.size → ∃ path expectation, tree.Leads path id expectation
  once : ∀ path other id expectation lent, tree.Leads path id expectation →
    tree.Leads other id lent → other = path

/-- Paths lead to nodes only. -/
def Closed (tree : Tree) : Prop :=
  ∀ path id expectation, tree.Leads path id expectation → ∃ node, tree.node? id = some node

/-- No path leads on to a node that it has come to before. -/
def Acyclic (tree : Tree) : Prop :=
  ∀ path way id expectation lent, tree.Leads path id expectation →
    tree.Leads (way ++ path) id lent → way = []

/-- No two paths lead to one node. -/
def Unshared (tree : Tree) : Prop :=
  ∀ path other id expectation lent, tree.Leads path id expectation → tree.Leads other id lent →
    (tree.node? id).isSome → other = path

theorem satisfies_iff {tree : Tree} {id : NodeId} {test : Node → Bool} :
    tree.satisfies id test ↔ ∃ node, tree.node? id = some node ∧ test node = true := by
  simp [satisfies, Option.any_eq_true]

theorem satisfies_of_node {tree : Tree} {id : NodeId} {node : Node} {test : Node → Bool}
    (hnode : tree.node? id = some node) : tree.satisfies id test ↔ test node = true := by
  rw [satisfies, hnode, Option.any_some]

theorem satisfies_mono {tree : Tree} {id : NodeId} {test test' : Node → Bool}
    (h : tree.satisfies id test) (himp : ∀ {node : Node}, test node → test' node) :
    tree.satisfies id test' := by
  obtain ⟨node, hnode, htest⟩ := satisfies_iff.mp h
  exact satisfies_iff.mpr ⟨node, hnode, himp htest⟩

theorem lt_size {tree : Tree} {id : NodeId} {node : Node} (h : tree.node? id = some node) :
    id < tree.size := by
  obtain ⟨located, hlocated, _⟩ := Option.map_eq_some_iff.mp h
  exact (Array.getElem?_eq_some_iff.mp hlocated).1

theorem Fits.exists_node {tree : Tree} {node : Node} (h : tree.Fits node) :
    ∀ child ∈ node.children, ∃ found, tree.node? child = some found := by
  intro child hchild
  have hsome : ∀ {test}, tree.satisfies child test → ∃ found, tree.node? child = some found := by
    intro test hsat
    obtain ⟨found, hfound, _⟩ := satisfies_iff.mp hsat
    exact ⟨found, hfound⟩
  cases node <;> simp only [Fits, Node.children, List.mem_cons, List.mem_append,
    List.not_mem_nil, or_false] at h hchild
  all_goals grind

namespace Leads

variable {tree : Tree} {path other : List Nat} {id : NodeId} {expectation lent : Expectation}

theorem mem_children {node : Node} {place : Nat} {child : NodeId}
    (h : (node.offspring id expectation)[place]? = some (child, lent)) :
    child ∈ node.children := by
  rw [← Node.map_fst_offspring id expectation]
  exact List.mem_map.mpr ⟨_, List.mem_of_getElem? h, rfl⟩

theorem exists_child (h : tree.Leads path id expectation) {node : Node}
    (hnode : tree.node? id = some node) {child : NodeId}
    (hchild : (child, lent) ∈ node.offspring id expectation) :
    ∃ place, tree.Leads (place :: path) child lent := by
  obtain ⟨place, hplace⟩ := List.mem_iff_getElem?.mp hchild
  exact ⟨place, h.child hnode hplace⟩

theorem exists_of_children (h : tree.Leads path id expectation) {node : Node}
    (hnode : tree.node? id = some node) {child : NodeId} (hchild : child ∈ node.children) :
    ∃ place lent, tree.Leads (place :: path) child lent := by
  rw [← Node.map_fst_offspring id expectation] at hchild
  obtain ⟨⟨found, lent⟩, hmem, rfl⟩ := List.mem_map.mp hchild
  obtain ⟨place, hleads⟩ := h.exists_child hnode hmem
  exact ⟨place, lent, hleads⟩

theorem exists_of_place (h : tree.Leads path id expectation) {node : Node}
    (hnode : tree.node? id = some node) {place : Nat} {child : NodeId}
    (hchild : node.children[place]? = some child) :
    ∃ lent, tree.Leads (place :: path) child lent := by
  rw [← Node.map_fst_offspring id expectation, List.getElem?_map, Option.map_eq_some_iff] at hchild
  obtain ⟨⟨found, lent⟩, hplace, rfl⟩ := hchild
  exact ⟨lent, h.child hnode hplace⟩

/-- What a node can take its type from is a variable above it, or a call. -/
theorem lent_cases (h : tree.Leads path id expectation) :
    expectation = .nothing ∨
    (∃ decl name type initializer above before, expectation = .variable decl ∧
      tree.Leads above decl before ∧
        tree.node? decl = some (.varDecl name type initializer)) ∨
    ∃ (function argument call : NodeId) (typeArgument : Option NodeId) (arguments : List NodeId)
      (above : List Nat) (before : Expectation) (place : Nat),
      expectation = .argument function argument ∧ tree.Leads above call before ∧
        tree.node? call = some (.call function typeArgument arguments) ∧
          arguments[place]? = some argument := by
  induction h with
  | root => exact .inl rfl
  | @child path id expectation node place child lent hparent hnode hchild ih =>
    have hmem := List.mem_of_getElem? hchild
    cases node with
    | parenthesized expression =>
      cases List.mem_singleton.mp hmem
      exact ih
    | varDecl name type initializer =>
      rcases List.mem_cons.mp hmem with heq | heq
      · cases heq
        exact .inl rfl
      · cases List.mem_singleton.mp heq
        exact .inr (.inl ⟨id, name, type, child, path, expectation, rfl, hparent, hnode⟩)
    | call function typeArgument arguments =>
      rcases List.mem_append.mp hmem with hplain | hargument
      · obtain ⟨found, _, heq⟩ := List.mem_map.mp hplain
        cases heq
        exact .inl rfl
      · obtain ⟨argument, harg, heq⟩ := List.mem_map.mp hargument
        cases heq
        obtain ⟨place, hplace⟩ := List.mem_iff_getElem?.mp harg
        exact .inr (.inr ⟨function, child, id, typeArgument, arguments, path, expectation, place,
          rfl, hparent, hnode, hplace⟩)
    | _ =>
      obtain ⟨found, _, heq⟩ := List.mem_map.mp hmem
      cases heq
      exact .inl rfl

theorem unique (h : tree.Leads path id expectation) {found : NodeId}
    (h' : tree.Leads path found lent) : found = id ∧ lent = expectation := by
  induction h generalizing found lent with
  | root =>
    cases h'
    exact ⟨rfl, rfl⟩
  | child _ hnode hchild ih =>
    cases h' with
    | child hparent' hnode' hchild' =>
      obtain ⟨rfl, rfl⟩ := ih hparent'
      cases Option.some.inj (hnode.symm.trans hnode')
      cases Option.some.inj (hchild.symm.trans hchild')
      exact ⟨rfl, rfl⟩

end Leads

namespace WellFormed

variable {tree : Tree} {path other : List Nat} {id : NodeId} {expectation lent : Expectation}

theorem exists_node (h : tree.WellFormed) (hleads : tree.Leads path id expectation) :
    ∃ node, tree.node? id = some node := by
  cases hleads with
  | root =>
    obtain ⟨node, hnode, _⟩ := satisfies_iff.mp h.root
    exact ⟨node, hnode⟩
  | child _ hnode hchild =>
    exact (h.fits _ _ hnode).exists_node _ (Leads.mem_children hchild)

theorem exists_leads (h : tree.WellFormed) {node : Node} (hnode : tree.node? id = some node) :
    ∃ path expectation, tree.Leads path id expectation := h.reached id (lt_size hnode)

theorem expectation_unique (h : tree.WellFormed) (hleads : tree.Leads path id expectation)
    (hother : tree.Leads other id lent) : lent = expectation := by
  obtain rfl := h.once _ _ _ _ _ hleads hother
  exact (hleads.unique hother).2

theorem exists_function (h : tree.WellFormed) (hleads : tree.Leads path id expectation)
    (htemplate : tree.satisfies id Node.isTemplateParam) :
    ∃ above function lent name parameters returnType body, tree.Leads above function lent ∧
      tree.node? function = some (.funDecl name (some id) parameters returnType body) := by
  obtain ⟨node, hnode, hkind⟩ := satisfies_iff.mp htemplate
  have hother : ∀ test, tree.satisfies id test → test node = true := by
    intro test hsat
    obtain ⟨found, hfound, htest⟩ := satisfies_iff.mp hsat
    cases Option.some.inj (hnode.symm.trans hfound)
    exact htest
  cases node with
  | templateParam held =>
    cases hleads with
    | root => cases hother _ h.root
    | @child path parent before found place _ _ hparent hfound hchild =>
      have hmem := Leads.mem_children hchild
      have hfits := h.fits _ _ hfound
      cases found with
      | funDecl name template parameters returnType body =>
        obtain ⟨_, hparameters, htype, hblock⟩ := hfits
        simp only [Node.children, List.mem_append, List.mem_cons, List.not_mem_nil, or_false,
          Option.mem_toList] at hmem
        rcases hmem with (rfl | hparameter) | rfl | rfl
        · exact ⟨path, parent, before, name, parameters, returnType, body, hparent, hfound⟩
        · cases hother _ (hparameters _ hparameter)
        · cases hother _ htype
        · cases hother _ hblock
      | literal | reference | simpleType | templateParam => cases hmem
      | _ =>
        simp only [Fits, Node.children, List.mem_cons, List.mem_append, List.not_mem_nil,
          or_false] at hfits hmem
        grind [Node.isExpression, Node.isTypeNode, Node.isStatement, Node.isAtom, Node.isField,
          Node.isReference, Node.isVariable]
  | _ => cases hkind

end WellFormed

/-- A node is the child of one node, in one place. -/
theorem Unshared.parent_unique {tree : Tree} (h : tree.Unshared) {path other : List Nat}
    {id found child : NodeId} {expectation lent : Expectation}
    (hleads : tree.Leads path id expectation) {node node' : Node}
    (hnode : tree.node? id = some node) {place place' : Nat}
    (hchild : node.children[place]? = some child) (hother : tree.Leads other found lent)
    (hnode' : tree.node? found = some node') (hchild' : node'.children[place']? = some child)
    (hsome : (tree.node? child).isSome) : found = id ∧ place' = place := by
  obtain ⟨_, hone⟩ := hleads.exists_of_place hnode hchild
  obtain ⟨_, htwo⟩ := hother.exists_of_place hnode' hchild'
  obtain ⟨rfl, rfl⟩ := List.cons.inj (h _ _ _ _ _ hone htwo hsome)
  exact ⟨(hleads.unique hother).1, rfl⟩

theorem Closed.acyclic {tree : Tree} (hclosed : tree.Closed) (hunshared : tree.Unshared) :
    tree.Acyclic := by
  intro path way id expectation lent h hlonger
  obtain ⟨node, hnode⟩ := hclosed _ _ _ h
  have hsame := hunshared _ _ _ _ _ h hlonger (Option.isSome_of_eq_some hnode)
  exact List.append_left_eq_self.mp hsame

namespace Acyclic

variable {tree : Tree} {path : List Nat} {id : NodeId} {expectation : Expectation}

theorem exists_way (h : tree.Acyclic) (hclosed : tree.Closed)
    (hleads : tree.Leads path id expectation) :
    ∃ way : List NodeId, way.length = path.length + 1 ∧ way.Nodup ∧
      ∀ step ∈ way, step < tree.size ∧
        ∃ rest before lent, tree.Leads before step lent ∧ rest ++ before = path := by
  induction hleads with
  | root =>
    obtain ⟨node, hnode⟩ := hclosed _ _ _ .root
    refine ⟨[tree.root], rfl, List.nodup_singleton _, ?_⟩
    intro step hstep
    rw [List.mem_singleton.mp hstep]
    exact ⟨lt_size hnode, [], [], .nothing, .root, rfl⟩
  | @child path id expectation node place child lent hparent hnode hchild ih =>
    obtain ⟨way, hlength, hnodup, hway⟩ := ih
    have hleads : tree.Leads (place :: path) child lent := .child hparent hnode hchild
    obtain ⟨found, hfound⟩ := hclosed _ _ _ hleads
    refine ⟨child :: way, by simp [hlength], ?_, ?_⟩
    · refine List.nodup_cons.mpr ⟨?_, hnodup⟩
      intro hmem
      obtain ⟨_, rest, before, _, hbefore, rfl⟩ := hway child hmem
      cases h _ (place :: rest) _ _ _ hbefore hleads
    · intro step hstep
      rcases List.mem_cons.mp hstep with rfl | hold
      · exact ⟨lt_size hfound, [], _, _, hleads, rfl⟩
      · obtain ⟨hlt, rest, before, other, hbefore, rfl⟩ := hway step hold
        exact ⟨hlt, place :: rest, before, other, hbefore, rfl⟩

theorem length_lt_size (h : tree.Acyclic) (hclosed : tree.Closed)
    (hleads : tree.Leads path id expectation) : path.length < tree.size := by
  obtain ⟨way, hlength, hnodup, hway⟩ := h.exists_way hclosed hleads
  have hsub : way ⊆ List.range tree.size := by
    intro step hstep
    exact List.mem_range.mpr (hway step hstep).1
  have hle := (List.subperm_of_subset hnodup hsub).length_le
  rw [List.length_range] at hle
  omega

end Acyclic

namespace WellFormed

variable {tree : Tree} {path : List Nat} {id : NodeId} {expectation : Expectation}

theorem closed (h : tree.WellFormed) : tree.Closed := fun _ _ _ hleads => h.exists_node hleads

theorem unshared (h : tree.WellFormed) : tree.Unshared :=
  fun _ _ _ _ _ hleads hother _ => h.once _ _ _ _ _ hleads hother

theorem acyclic (h : tree.WellFormed) : tree.Acyclic := h.closed.acyclic h.unshared

theorem parent_unique (h : tree.WellFormed) (hleads : tree.Leads path id expectation)
    {node : Node} (hnode : tree.node? id = some node) {place : Nat} {child : NodeId}
    (hchild : node.children[place]? = some child) {other : List Nat} {found : NodeId}
    {lent : Expectation} (hother : tree.Leads other found lent) {node' : Node}
    (hnode' : tree.node? found = some node') {place' : Nat}
    (hchild' : node'.children[place']? = some child) : found = id ∧ place' = place := by
  obtain ⟨lent, hlent⟩ := hleads.exists_of_place hnode hchild
  obtain ⟨held, hheld⟩ := h.exists_node hlent
  exact h.unshared.parent_unique hleads hnode hchild hother hnode' hchild'
    (Option.isSome_of_eq_some hheld)

theorem length_lt_size (h : tree.WellFormed) (hleads : tree.Leads path id expectation) :
    path.length < tree.size := h.acyclic.length_lt_size h.closed hleads

end WellFormed

/-- A node and what lies below it, at most `n` levels in all, once for each path. -/
def below (tree : Tree) : Nat → NodeId → Expectation → List (NodeId × Expectation)
  | 0, _, _ => []
  | n + 1, id, expectation =>
    (id, expectation) :: ((tree.node? id).toList.flatMap fun node =>
      (node.offspring id expectation).flatMap fun child => tree.below n child.1 child.2)

theorem leads_of_mem_below {tree : Tree} {n : Nat} {path : List Nat} {id : NodeId}
    {expectation : Expectation} (h : tree.Leads path id expectation)
    {found : NodeId × Expectation} (hfound : found ∈ tree.below n id expectation) :
    ∃ way, tree.Leads (way ++ path) found.1 found.2 := by
  induction n generalizing path id expectation with
  | zero => cases hfound
  | succ n ih =>
    rcases List.mem_cons.mp hfound with rfl | hbelow
    · exact ⟨[], h⟩
    · obtain ⟨node, hnode, hbelow⟩ := List.mem_flatMap.mp hbelow
      obtain ⟨child, hchild, hbelow⟩ := List.mem_flatMap.mp hbelow
      obtain ⟨place, hplace⟩ := List.mem_iff_getElem?.mp hchild
      obtain ⟨way, hway⟩ := ih (h.child (Option.mem_toList.mp hnode) hplace) hbelow
      exact ⟨way ++ [place], by simpa using hway⟩

theorem Unshared.pairwise_below {tree : Tree} (hunshared : tree.Unshared) (n : Nat)
    {path : List Nat} {id : NodeId} {expectation : Expectation}
    (h : tree.Leads path id expectation) :
    (tree.below n id expectation).Pairwise fun one other =>
      (tree.node? one.1).isSome → one.1 ≠ other.1 := by
  induction n generalizing path id expectation with
  | zero => exact List.Pairwise.nil
  | succ n ih =>
    cases hnode : tree.node? id with
    | none => simp [below, hnode]
    | some node =>
      rw [below, hnode, Option.toList_some, List.flatMap_singleton, List.pairwise_cons,
        List.pairwise_flatMap]
      refine ⟨?_, ?_, ?_⟩
      · intro found hfound hsome heq
        obtain ⟨child, hchild, hbelow⟩ := List.mem_flatMap.mp hfound
        obtain ⟨place, hplace⟩ := List.mem_iff_getElem?.mp hchild
        obtain ⟨way, hway⟩ := leads_of_mem_below (h.child hnode hplace) hbelow
        rw [← heq] at hway
        have hlength := congrArg List.length (hunshared _ _ _ _ _ h hway hsome)
        simp only [List.length_append, List.length_cons] at hlength
        omega
      · intro child hchild
        obtain ⟨place, hplace⟩ := List.mem_iff_getElem?.mp hchild
        exact ih (h.child hnode hplace)
      · rw [List.pairwise_iff_getElem]
        intro i j hi hj hlt left hleft right hright hsome heq
        obtain ⟨way, hway⟩ :=
          leads_of_mem_below (h.child hnode (List.getElem?_eq_getElem hi)) hleft
        obtain ⟨other, hother⟩ :=
          leads_of_mem_below (h.child hnode (List.getElem?_eq_getElem hj)) hright
        rw [← heq] at hother
        have hpaths := hunshared _ _ _ _ _ hway hother hsome
        have hsuffix := (List.append_inj' hpaths (by simp)).2
        have := (List.cons.inj hsuffix).1
        omega

end Tree
end Attribution
