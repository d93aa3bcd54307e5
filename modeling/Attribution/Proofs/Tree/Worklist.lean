import Attribution.Proofs.Tree.Carriers
/-!
# Dependence by a list of work

The nodes that can depend on a placeholder can also be found backwards from the template parameters.
A queue holds the nodes to be marked, a node that is in it twice is passed over the second time, and
a node that gets its mark puts those from which a step leads to it at the end. The queue can grow,
but with every mark there are fewer nodes to be marked, so the loop comes to an end on any graph.
-/
namespace Attribution

open Relation (ReflTransGen)

/-- The parts from which an expression takes a placeholder over; the index of an array is none. -/
def Node.operands : Node → List NodeId
  | .parenthesized part | .unary _ part | .fieldAccess part _ | .arrayAccess part _ => [part]
  | .binary _ left right | .assignment left right => [left, right]
  | .arrayLiteral parts => parts
  | .call function typeArgument arguments => function :: typeArgument.toList ++ arguments
  | _ => []

/-- The type node of a variable, a parameter or an array type. -/
def Node.typeNode? : Node → Option NodeId
  | .varDecl _ type _ | .parameter _ type | .arrayType type => some type
  | _ => none

/-- A step along which a placeholder is taken over. -/
inductive Tree.Takes (tree : Tree) (resolve : NodeId → Option Entity) : NodeId → NodeId → Prop
  | operand {id part : NodeId} {node : Node} : tree.node? id = some node →
    part ∈ node.operands → Takes tree resolve id part
  /-- The name stands for a variable, a parameter or a template parameter. -/
  | use {id decl : NodeId} {node : Node} : tree.node? id = some node → node.isName →
    resolve id = some (.node decl) → tree.satisfies decl Node.carriesPlaceholder →
      Takes tree resolve id decl
  | typed {id type : NodeId} {node : Node} : tree.node? id = some node →
    node.typeNode? = some type → Takes tree resolve id type

theorem Node.isName_of_operand {node : Node} {part : NodeId} (h : part ∈ node.operands) :
    node.isName = false := by
  cases node <;> first | rfl | cases h

theorem Node.isName_of_typeNode {node : Node} {type : NodeId} (h : node.typeNode? = some type) :
    node.isName = false := by
  cases node <;> first | rfl | cases h

namespace Tree

variable {tree : Tree} {resolve : NodeId → Option Entity} {id target : NodeId}
  {targets : List NodeId}

theorem carriers_of_parts {node : Node} (hnode : tree.node? id = some node)
    (hname : node.isName = false) :
    tree.carriers resolve id = .ok (node.operands ++ node.typeNode?.toList) := by
  rw [carriers, hnode]
  cases node with
  | reference | simpleType => cases hname
  | _ => simp [Node.operands, Node.typeNode?]

theorem exists_name {node : Node} (hnode : tree.node? id = some node) (hname : node.isName) :
    ∃ name, tree.node? id = some (.reference name) ∨ tree.node? id = some (.simpleType name) := by
  cases node with
  | reference name => exact ⟨name, .inl hnode⟩
  | simpleType name => exact ⟨name, .inr hnode⟩
  | _ => cases hname

theorem takes_iff (h : tree.carriers resolve id = .ok targets) :
    tree.Takes resolve id target ↔ target ∈ targets := by
  constructor
  · intro htakes
    cases htakes with
    | operand hnode hpart =>
      cases (carriers_of_parts hnode (Node.isName_of_operand hpart)).symm.trans h
      exact List.mem_append_left _ hpart
    | use hnode hname hresolve hdecl =>
      obtain ⟨name, hname⟩ := exists_name hnode hname
      obtain ⟨found, hfound, hcarries⟩ := satisfies_iff.mp hdecl
      cases (carriers_of_name hname hresolve hfound hcarries).symm.trans h
      exact List.mem_cons_self
    | typed hnode htype =>
      cases (carriers_of_parts hnode (Node.isName_of_typeNode htype)).symm.trans h
      exact List.mem_append_right _ (Option.mem_toList.mpr htype)
  · intro hmem
    obtain ⟨node, hnode⟩ := exists_node_of_lt (lt_size_of_carriers h hmem)
    cases hname : node.isName with
    | true =>
      obtain ⟨name, hkind⟩ := exists_name hnode hname
      obtain ⟨hresolve, hdecl⟩ := exists_of_carriers_name hkind h hmem
      exact .use hnode hname hresolve hdecl
    | false =>
      cases (carriers_of_parts hnode hname).symm.trans h
      rcases List.mem_append.mp hmem with hpart | htype
      · exact .operand hnode hpart
      · exact .typed hnode (Option.mem_toList.mp htype)

theorem carries_iff (hresolve : ∀ id decl, resolve id = some (.node decl) → decl < tree.size) :
    tree.Carries resolve id ↔
      ∃ param, ReflTransGen (tree.Takes resolve) id param ∧
        tree.satisfies param Node.isTemplateParam := by
  constructor
  · intro h
    induction h with
    | parameter hkind => exact ⟨_, .refl, hkind⟩
    | step htargets htarget _ ih =>
      obtain ⟨param, hpath, hkind⟩ := ih
      exact ⟨param, .head ((takes_iff htargets).mpr htarget) hpath, hkind⟩
  · intro ⟨param, hpath, hkind⟩
    induction hpath using ReflTransGen.head_induction_on with
    | refl => exact .parameter hkind
    | @head id next htakes _ ih =>
      obtain ⟨targets, htargets⟩ := exists_carriers hresolve id
      exact .step htargets ((takes_iff htargets).mp htakes) ih

theorem Carries.lt_size (h : tree.Carries resolve id) : id < tree.size := by
  cases h with
  | parameter hkind =>
    obtain ⟨node, hnode, _⟩ := satisfies_iff.mp hkind
    exact Tree.lt_size hnode
  | step htargets htarget _ => exact lt_size_of_carriers htargets htarget

/-- The nodes to which one step leads, if there is an answer. -/
def steps (tree : Tree) (resolve : NodeId → Option Entity) (id : NodeId) : List NodeId :=
  match tree.carriers resolve id with
  | .ok targets => targets
  | .error _ => []

/-- The nodes from which one step leads to a node, as often as a step does. -/
def users (tree : Tree) (resolve : NodeId → Option Entity) (target : NodeId) : List NodeId :=
  (List.range tree.size).flatMap fun id =>
    ((tree.steps resolve id).filter fun found => found = target).map fun _ => id

theorem mem_steps : target ∈ tree.steps resolve id ↔
    ∃ targets, tree.carriers resolve id = .ok targets ∧ target ∈ targets := by
  rw [steps]
  cases tree.carriers resolve id with
  | ok targets => simp
  | error fault => simp

theorem mem_users : id ∈ tree.users resolve target ↔ target ∈ tree.steps resolve id := by
  simp only [users, List.mem_flatMap, List.mem_range, List.mem_map, List.mem_filter,
    decide_eq_true_eq]
  constructor
  · rintro ⟨_, _, found, ⟨hmem, rfl⟩, rfl⟩
    exact hmem
  · intro hmem
    obtain ⟨targets, htargets, htarget⟩ := mem_steps.mp hmem
    exact ⟨id, lt_size_of_carriers htargets htarget, target, ⟨hmem, rfl⟩, rfl⟩

end Tree

/-- The nodes that wait for their marks, and those that have one. -/
structure Worklist where
  queue : List NodeId
  marked : List NodeId := []

namespace Worklist

/-- At first the template parameters wait. -/
def start (tree : Tree) : Worklist where
  queue := (List.range tree.size).filter fun id => tree.satisfies id Node.isTemplateParam

/-- One round of the loop, unless it is over. -/
def step (tree : Tree) (resolve : NodeId → Option Entity) (worklist : Worklist) :
    Option Worklist :=
  match worklist.queue with
  | [] => none
  | node :: rest =>
    if node ∈ worklist.marked then some { worklist with queue := rest }
    else
      let marked := node :: worklist.marked
      some { queue := rest ++ (tree.users resolve node).filter fun id => id ∉ marked, marked }

/-- The loop comes from one state to another. -/
def Leads (tree : Tree) (resolve : NodeId → Option Entity) : Worklist → Worklist → Prop :=
  ReflTransGen fun worklist next => worklist.step tree resolve = some next

/-- The loop has met a node. -/
def Knows (worklist : Worklist) (id : NodeId) : Prop := id ∈ worklist.queue ∨ id ∈ worklist.marked

/-- What holds of the loop at all times: it meets only nodes from which a template parameter can be
reached, it has met all template parameters, and with a node that is marked it has met all nodes
from which a step leads there. -/
structure Follows (tree : Tree) (resolve : NodeId → Option Entity) (worklist : Worklist) :
    Prop where
  sound : ∀ id, worklist.Knows id → tree.Carries resolve id
  sources : ∀ id, tree.satisfies id Node.isTemplateParam → worklist.Knows id
  closed : ∀ target ∈ worklist.marked, ∀ id, target ∈ tree.steps resolve id → worklist.Knows id

variable {tree : Tree} {resolve : NodeId → Option Entity} {worklist next : Worklist}

theorem follows_start (tree : Tree) (resolve : NodeId → Option Entity) :
    (start tree).Follows tree resolve := by
  have hmem : ∀ id, id ∈ (start tree).queue ↔ tree.satisfies id Node.isTemplateParam := by
    intro id
    simp only [start, List.mem_filter, List.mem_range, and_iff_right_iff_imp]
    intro hkind
    obtain ⟨node, hnode, _⟩ := Tree.satisfies_iff.mp hkind
    exact Tree.lt_size hnode
  refine ⟨?_, fun id hkind => .inl ((hmem id).mpr hkind), fun _ h => nomatch h⟩
  intro id hknown
  rcases hknown with hwaits | hmarked
  · exact .parameter ((hmem id).mp hwaits)
  · cases hmarked

theorem step_cases (h : worklist.step tree resolve = some next) :
    ∃ node rest, worklist.queue = node :: rest ∧
      (node ∈ worklist.marked ∧ next = { worklist with queue := rest } ∨
        node ∉ worklist.marked ∧ next.marked = node :: worklist.marked ∧
          ∀ id, id ∈ next.queue ↔
            id ∈ rest ∨ id ∈ tree.users resolve node ∧ id ∉ next.marked) := by
  unfold step at h
  split at h
  next => cases h
  next node rest hqueue =>
    refine ⟨node, rest, hqueue, ?_⟩
    split at h
    next hmarked =>
      cases h
      exact .inl ⟨hmarked, rfl⟩
    next hmarked =>
      cases h
      exact .inr ⟨hmarked, rfl, fun id => by simp⟩

theorem Follows.step (h : worklist.Follows tree resolve)
    (hstep : worklist.step tree resolve = some next) : next.Follows tree resolve := by
  obtain ⟨node, rest, hqueue, ⟨hmarked, rfl⟩ | ⟨hmarked, hnext, hwaits⟩⟩ := step_cases hstep
  · have hknows : ∀ id, ({ worklist with queue := rest } : Worklist).Knows id ↔
        worklist.Knows id := by
      intro id
      simp only [Knows, hqueue, List.mem_cons]
      constructor
      · exact fun hknown => hknown.imp_left .inr
      · rintro ((rfl | hrest) | hold)
        · exact .inr hmarked
        · exact .inl hrest
        · exact .inr hold
    exact ⟨fun id hknown => h.sound id ((hknows id).mp hknown),
      fun id hkind => (hknows id).mpr (h.sources id hkind),
      fun target htarget id hid => (hknows id).mpr (h.closed target htarget id hid)⟩
  · have hnode := h.sound node (.inl (hqueue ▸ List.mem_cons_self))
    have hknows : ∀ id, next.Knows id ↔ worklist.Knows id ∨ id ∈ tree.users resolve node := by
      intro id
      simp only [Knows, hqueue, hwaits, hnext, List.mem_cons]
      tauto
    refine ⟨?_, fun id hkind => (hknows id).mpr (.inl (h.sources id hkind)), ?_⟩
    · intro id hknown
      rcases (hknows id).mp hknown with hold | huser
      · exact h.sound id hold
      · obtain ⟨targets, htargets, htarget⟩ := Tree.mem_steps.mp (Tree.mem_users.mp huser)
        exact .step htargets htarget hnode
    · intro target htarget id hid
      rw [hnext] at htarget
      rcases List.mem_cons.mp htarget with rfl | hold
      · exact (hknows id).mpr (.inr (Tree.mem_users.mpr hid))
      · exact (hknows id).mpr (.inl (h.closed target hold id hid))

theorem Follows.mem_marked (h : worklist.Follows tree resolve)
    (hover : worklist.step tree resolve = none) (id : NodeId) :
    id ∈ worklist.marked ↔ tree.Carries resolve id := by
  have hqueue : worklist.queue = [] := by
    unfold Worklist.step at hover
    split at hover
    next hnil => exact hnil
    next => split at hover <;> cases hover
  have hmarked : ∀ id, worklist.Knows id → id ∈ worklist.marked := by
    intro id hknown
    rcases hknown with hwaits | hmarked
    · rw [hqueue] at hwaits
      cases hwaits
    · exact hmarked
  constructor
  · exact fun hmem => h.sound id (.inr hmem)
  · intro hcarries
    induction hcarries with
    | parameter hkind => exact hmarked _ (h.sources _ hkind)
    | step htargets htarget _ ih =>
      exact hmarked _ (h.closed _ ih _ (Tree.mem_steps.mpr ⟨_, htargets, htarget⟩))

/-- The nodes that are still to be marked. -/
def unmarked (tree : Tree) (worklist : Worklist) : Finset NodeId :=
  (Finset.range tree.size).filter fun id => id ∉ worklist.marked

theorem Follows.measure_lt (h : worklist.Follows tree resolve)
    (hstep : worklist.step tree resolve = some next) :
    (next.unmarked tree).card < (worklist.unmarked tree).card ∨
      (next.unmarked tree).card = (worklist.unmarked tree).card ∧
        next.queue.length < worklist.queue.length := by
  obtain ⟨node, rest, hqueue, ⟨_, rfl⟩ | ⟨hmarked, hnext, _⟩⟩ := step_cases hstep
  · right
    rw [hqueue]
    exact ⟨rfl, Nat.lt_succ_self _⟩
  · left
    have hlt : node < tree.size := (h.sound node (.inl (hqueue ▸ List.mem_cons_self))).lt_size
    apply Finset.card_lt_card
    rw [Finset.ssubset_iff_of_subset]
    · refine ⟨node, ?_, ?_⟩
      · simp [unmarked, hlt, hmarked]
      · simp [unmarked, hnext]
    · intro id hid
      simp only [unmarked, hnext, Finset.mem_filter, List.mem_cons, not_or] at hid ⊢
      exact ⟨hid.1, hid.2.2⟩

/-- The loop comes to an end. -/
theorem Follows.exists_final {worklist : Worklist} (h : worklist.Follows tree resolve) :
    ∃ final, worklist.Leads tree resolve final ∧ final.step tree resolve = none ∧
      final.Follows tree resolve := by
  cases hstep : worklist.step tree resolve with
  | none => exact ⟨worklist, .refl, hstep, h⟩
  | some next =>
    obtain ⟨final, hleads, hover, hfinal⟩ := (h.step hstep).exists_final
    exact ⟨final, .head hstep hleads, hover, hfinal⟩
termination_by ((worklist.unmarked tree).card, worklist.queue.length)
decreasing_by exact Prod.lex_def.mpr (h.measure_lt hstep)

end Worklist

/-- The nodes that can depend on a placeholder are those from which steps lead to a template
parameter, in any arena and whatever names stand for in it. The loop over a list of work comes to an
end and marks the same nodes. -/
theorem dependence_exact (tree : Tree) {resolve : NodeId → Option Entity}
    (hresolve : ∀ id decl, resolve id = some (.node decl) → decl < tree.size) :
    ∃ dependence, Dependence.of tree resolve = .ok dependence ∧
      (∀ id, dependence.holds id ↔ ∃ param, ReflTransGen (tree.Takes resolve) id param ∧
        tree.satisfies param Node.isTemplateParam) ∧
      ∃ final, (Worklist.start tree).Leads tree resolve final ∧
        final.step tree resolve = none ∧ ∀ id, id ∈ final.marked ↔ dependence.holds id := by
  obtain ⟨dependence, hdependence⟩ := Dependence.exists_of_lt hresolve
  obtain ⟨final, hleads, hover, hfinal⟩ := (Worklist.follows_start tree resolve).exists_final
  refine ⟨dependence, hdependence, ?_, final, hleads, hover, ?_⟩
  · intro id
    rw [Dependence.holds_iff hdependence, Tree.carries_iff hresolve]
  · intro id
    rw [hfinal.mem_marked hover, Dependence.holds_iff hdependence]

/-- A sum of a parameter of the placeholder type and of a variable whose type node is a use of the
variable itself; nothing of it is below the root. -/
def Tree.entwined : Tree where
  nodes := #[
    { node := .root [] },
    { node := .templateParam "T" },
    { node := .simpleType "T" },
    { node := .parameter "x" 2 },
    { node := .reference "x" },
    { node := .varDecl "y" 6 8 },
    { node := .reference "y" },
    { node := .binary .add 4 6 },
    { node := .literal (.int 1) }]
  root := 0

def Tree.entwinedNames : NodeId → Option Entity
  | 2 => some (.node 1)
  | 4 => some (.node 3)
  | 6 => some (.node 5)
  | _ => none

theorem dependence_exact_entwined :
    (∀ id decl, Tree.entwinedNames id = some (.node decl) → decl < Tree.entwined.size) ∧
    ∃ dependence, Dependence.of Tree.entwined Tree.entwinedNames = .ok dependence ∧
      dependence.holds 7 ∧
      (∃ param, ReflTransGen (Tree.entwined.Takes Tree.entwinedNames) 7 param ∧
        Tree.entwined.satisfies param Node.isTemplateParam) ∧
      ¬ ∃ param, ReflTransGen (Tree.entwined.Takes Tree.entwinedNames) 6 param ∧
        Tree.entwined.satisfies param Node.isTemplateParam := by
  have hresolve : ∀ id decl, Tree.entwinedNames id = some (.node decl) →
      decl < Tree.entwined.size := by
    intro id decl h
    unfold Tree.entwinedNames at h
    split at h <;> cases h <;> decide
  obtain ⟨dependence, hdependence, hholds, _⟩ := dependence_exact Tree.entwined hresolve
  have htest : (Dependence.of Tree.entwined Tree.entwinedNames).toOption.any
      (fun dependence => dependence.holds 7 && !dependence.holds 6) = true := by decide +kernel
  rw [hdependence] at htest
  obtain ⟨hseven, hsix⟩ := Bool.and_eq_true_iff.mp htest
  rw [Bool.not_eq_true'] at hsix
  refine ⟨hresolve, dependence, hdependence, hseven, (hholds 7).mp hseven, ?_⟩
  rw [← hholds, hsix]
  exact Bool.false_ne_true

end Attribution
