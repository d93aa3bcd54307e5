import Mathlib.Data.List.Induction
import Attribution.Tree.Draft
import Attribution.Proofs.Tree.Actions
/-!
# Trees that are built step by step

Whoever passes in only ids that earlier steps answered with gets a tree in which children come
before their parents, so that no path comes back to a node and the walk ends. Every id that was
answered stands in the finished tree for what its step asked for, whatever was built after it.
-/
namespace Attribution

namespace Tree

/-- Children come before their parents. -/
def Descending (tree : Tree) : Prop :=
  ∀ id node, tree.node? id = some node → ∀ child ∈ node.children, child < id

namespace Descending

variable {tree : Tree} {path way : List Nat} {id found : Nat} {expectation lent : Expectation}

theorem exists_node (h : tree.Descending) {node : Node} (hnode : tree.node? id = some node)
    {child : NodeId} (hchild : child ∈ node.children) : ∃ found, tree.node? child = some found := by
  have hlt : child < tree.nodes.size := Nat.lt_trans (h id node hnode child hchild) (lt_size hnode)
  exact ⟨_, congrArg (Option.map Located.node) (Array.getElem?_eq_getElem hlt)⟩

theorem wellFounded (h : tree.Descending) :
    WellFounded fun child id => ∃ node, tree.node? id = some node ∧ child ∈ node.children := by
  refine Subrelation.wf ?_ Nat.lt_wfRel.wf
  rintro child id ⟨node, hnode, hchild⟩
  exact h id node hnode child hchild

theorem closed (h : tree.Descending) (hroot : ∃ node, tree.node? tree.root = some node) :
    tree.Closed := by
  intro path id expectation hleads
  cases hleads with
  | root => exact hroot
  | child _ hnode hplace => exact h.exists_node hnode (Leads.mem_children hplace)

theorem le_of_leads (h : tree.Descending) (hleads : tree.Leads path id expectation)
    (hon : tree.Leads (way ++ path) found lent) : found + way.length ≤ id := by
  induction way generalizing found lent with
  | nil => exact Nat.le_of_eq (hleads.unique hon).1
  | cons place way ih =>
    cases hon with
    | @child _ parent _ node _ _ _ hparent hnode hplace =>
      have hlt : found < parent := h parent node hnode found (Leads.mem_children hplace)
      have hle : parent + way.length ≤ id := ih hparent
      calc found + (way.length + 1) = found + 1 + way.length := by omega
        _ ≤ parent + way.length := Nat.add_le_add_right hlt _
        _ ≤ id := hle

theorem acyclic (h : tree.Descending) : tree.Acyclic := by
  intro path way id expectation lent hleads hon
  have hle : id + way.length ≤ id := h.le_of_leads hleads hon
  exact List.eq_nil_of_length_eq_zero (Nat.le_zero.mp (Nat.add_le_add_iff_left.mp hle))

end Descending
end Tree

namespace Draft

/-- The ids that are passed in to a step, those inside its node included. -/
def Step.passed : Step → List NodeId
  | .node added _ => added.children
  | .callNamed _ arguments | .callTemplate _ _ arguments => arguments
  | .varDecl _ _ initializer => [initializer]
  | .funDecl _ _ parameters _ statements => parameters ++ statements
  | .construct _ | .arrayType _ | .fieldDecl .. | .parameter .. => []

/-- What is passed in to a step is an id that an earlier step answered with. -/
def PassesAnswers (steps : List Step) : Prop :=
  ∀ place (h : place < steps.length), ∀ id ∈ steps[place].passed,
    id ∈ (({} : Draft).buildAll (steps.take place)).2

instance (steps : List Step) : Decidable (PassesAnswers steps) :=
  inferInstanceAs (Decidable (∀ place (h : place < steps.length), ∀ id ∈ steps[place].passed,
    id ∈ (({} : Draft).buildAll (steps.take place)).2))

/-- The node stands at the id, and comes from nowhere in the source. -/
def Holds (nodes : Array Located) (id : NodeId) (node : Node) : Prop :=
  nodes[id]? = some { node }

/-- What the step asked for stands at the id, with the nodes of its own that it needs. -/
def Step.Built (nodes : Array Located) (id : NodeId) : Step → Prop
  | .node added span => nodes[id]? = some { node := added, span }
  | .construct struct => ∃ reference, Holds nodes id (.construct reference) ∧
      Holds nodes reference (.reference struct)
  | .callNamed function arguments => ∃ callee, Holds nodes id (.call callee none arguments) ∧
      Holds nodes callee (.reference function)
  | .callTemplate function typeArgument arguments => ∃ callee type,
      Holds nodes id (.call callee (some type) arguments) ∧
      Holds nodes callee (.reference function) ∧ Holds nodes type (.simpleType typeArgument)
  | .arrayType component => ∃ type, Holds nodes id (.arrayType type) ∧
      Holds nodes type (.simpleType component)
  | .varDecl name typeName initializer => ∃ type, Holds nodes id (.varDecl name type initializer) ∧
      Holds nodes type (.simpleType typeName)
  | .fieldDecl name typeName => ∃ type, Holds nodes id (.fieldDecl name type) ∧
      Holds nodes type (.simpleType typeName)
  | .parameter name typeName => ∃ type, Holds nodes id (.parameter name type) ∧
      Holds nodes type (.simpleType typeName)
  | .funDecl name template parameters returnType statements => ∃ param result body,
      Holds nodes id (.funDecl name param parameters result body) ∧
      Option.Rel (fun name id => Holds nodes id (.templateParam name)) template param ∧
      Holds nodes result (.simpleType (returnType.getD "Void")) ∧
      Holds nodes body (.block statements)

/-- Every node of the draft is a node of the later one. -/
def Extends (draft later : Draft) : Prop :=
  ∀ (id : NodeId) (located : Located), draft.nodes[id]? = some located →
    later.nodes[id]? = some located

/-- Children come before their parents, in a draft. -/
def Ordered (draft : Draft) : Prop :=
  ∀ (id : NodeId) (located : Located), draft.nodes[id]? = some located →
    ∀ child ∈ located.node.children, child < id

variable {draft later last : Draft} {step : Step} {steps : List Step} {id : NodeId} {node : Node}

theorem Extends.refl (draft : Draft) : draft.Extends draft := fun _ _ h => h

theorem Extends.trans (h : draft.Extends later) (h' : later.Extends last) : draft.Extends last :=
  fun id located hlocated => h' id located (h id located hlocated)

theorem Extends.size_le (h : draft.Extends later) : draft.nodes.size ≤ later.nodes.size := by
  by_contra hlt
  have hold := h later.nodes.size _ (Array.getElem?_eq_getElem (Nat.lt_of_not_le hlt))
  exact Nat.lt_irrefl _ (Array.getElem?_eq_some_iff.mp hold).1

theorem extends_addAt (draft : Draft) (node : Node) (span : Span) :
    draft.Extends (draft.addAt node span).1 := by
  intro id located hlocated
  have hne : id ≠ draft.nodes.size := Nat.ne_of_lt (Array.getElem?_eq_some_iff.mp hlocated).1
  rwa [addAt, Array.getElem?_push, if_neg hne]

theorem extends_add (draft : Draft) (node : Node) : draft.Extends (draft.add node).1 :=
  extends_addAt draft node {}

theorem holds_add (draft : Draft) (node : Node) :
    Holds (draft.add node).1.nodes (draft.add node).2 node :=
  node_addAt draft node {}

theorem Ordered.addAt (h : draft.Ordered) (span : Span)
    (hchildren : ∀ child ∈ node.children, child < draft.nodes.size) :
    (draft.addAt node span).1.Ordered := by
  intro id located hlocated
  rw [Draft.addAt, Array.getElem?_push] at hlocated
  split at hlocated
  next hnew =>
    cases hlocated
    rw [hnew]
    exact hchildren
  next => exact h id located hlocated

theorem Ordered.add (h : draft.Ordered)
    (hchildren : ∀ child ∈ node.children, child < draft.nodes.size) :
    (draft.add node).1.Ordered :=
  h.addAt {} hchildren

theorem add_lt (draft : Draft) (node : Node) : (draft.add node).2 < (draft.add node).1.nodes.size :=
  (Array.getElem?_eq_some_iff.mp (holds_add draft node)).1

theorem extends_addTemplate (draft : Draft) (template : Option String) :
    draft.Extends (draft.addTemplate template).1 := by
  cases template with
  | none => exact .refl draft
  | some name => exact extends_add draft _

theorem holds_addTemplate (draft : Draft) (template : Option String) :
    Option.Rel (fun name id => Holds (draft.addTemplate template).1.nodes id (.templateParam name))
      template (draft.addTemplate template).2 := by
  cases template with
  | none => exact .none
  | some name => exact .some (holds_add draft _)

theorem Ordered.addTemplate (h : draft.Ordered) (template : Option String) :
    (draft.addTemplate template).1.Ordered := by
  cases template with
  | none => exact h
  | some name => exact h.add fun _ hchild => absurd hchild List.not_mem_nil

theorem addTemplate_lt (draft : Draft) (template : Option String) :
    ∀ id ∈ (draft.addTemplate template).2.toList,
      id < (draft.addTemplate template).1.nodes.size := by
  cases template with
  | none => exact fun _ hid => absurd hid List.not_mem_nil
  | some name =>
    intro id hid
    rw [List.mem_singleton.mp hid]
    exact add_lt draft _

theorem extends_build (draft : Draft) (step : Step) : draft.Extends (draft.build step).1 := by
  cases step with
  | node added span => exact extends_addAt draft added span
  | callTemplate =>
    exact (extends_add draft _).trans ((extends_add _ _).trans (extends_add _ _))
  | funDecl name template =>
    exact (extends_addTemplate draft template).trans
      ((extends_add _ _).trans ((extends_add _ _).trans (extends_add _ _)))
  | _ => exact (extends_add draft _).trans (extends_add _ _)

theorem Step.Built.extend (h : step.Built draft.nodes id) (hextends : draft.Extends later) :
    step.Built later.nodes id := by
  have hold : ∀ {id node}, Holds draft.nodes id node → Holds later.nodes id node :=
    fun {id _} hheld => hextends id _ hheld
  cases step with
  | node => exact hextends id _ h
  | callTemplate =>
    obtain ⟨callee, type, hcall, hcallee, htype⟩ := h
    exact ⟨callee, type, hold hcall, hold hcallee, hold htype⟩
  | funDecl =>
    obtain ⟨param, result, body, hfunction, hparam, hresult, hbody⟩ := h
    refine ⟨param, result, body, hold hfunction, ?_, hold hresult, hold hbody⟩
    cases hparam with
    | none => exact .none
    | some hname => exact .some (hold hname)
  | _ =>
    obtain ⟨part, hwhole, hpart⟩ := h
    exact ⟨part, hold hwhole, hold hpart⟩

theorem Step.Built.lt_size (h : step.Built draft.nodes id) : id < draft.nodes.size := by
  have hlt : ∀ {located}, draft.nodes[id]? = some located → id < draft.nodes.size :=
    fun hlocated => (Array.getElem?_eq_some_iff.mp hlocated).1
  cases step with
  | node => exact hlt h
  | callTemplate =>
    obtain ⟨_, _, hcall, _⟩ := h
    exact hlt hcall
  | funDecl =>
    obtain ⟨_, _, _, hfunction, _⟩ := h
    exact hlt hfunction
  | _ =>
    obtain ⟨_, hwhole, _⟩ := h
    exact hlt hwhole

theorem built_build (draft : Draft) (step : Step) :
    step.Built (draft.build step).1.nodes (draft.build step).2 := by
  cases step with
  | node added span => exact node_addAt draft added span
  | callTemplate function typeArgument arguments =>
    refine ⟨_, _, holds_add _ _, ?_, ?_⟩
    · exact ((extends_add _ _).trans (extends_add _ _)) _ _ (holds_add draft _)
    · exact extends_add _ _ _ _ (holds_add _ _)
  | funDecl name template parameters returnType statements =>
    have hparam := holds_addTemplate draft template
    refine ⟨_, _, _, holds_add _ _, ?_, ?_, ?_⟩
    · cases template with
      | none => exact .none
      | some name =>
        exact .some (((extends_add _ _).trans ((extends_add _ _).trans (extends_add _ _))) _ _
          (holds_add draft _))
    · exact ((extends_add _ _).trans (extends_add _ _)) _ _ (holds_add _ _)
    · exact extends_add _ _ _ _ (holds_add _ _)
  | _ => exact ⟨_, holds_add _ _, extends_add _ _ _ _ (holds_add draft _)⟩

theorem Ordered.addLeaf (h : draft.Ordered) (hleaf : node.children = []) :
    (draft.add node).1.Ordered := by
  refine h.add ?_
  rw [hleaf]
  exact fun _ hchild => absurd hchild List.not_mem_nil

theorem lt_add (node : Node) (h : id < draft.nodes.size) : id < (draft.add node).1.nodes.size :=
  Nat.lt_of_lt_of_le h (extends_add draft node).size_le

/-- A step keeps children before their parents: what it adds by itself comes before the node that
it is about. -/
theorem Ordered.build (h : draft.Ordered) (hpassed : ∀ id ∈ step.passed, id < draft.nodes.size) :
    (draft.build step).1.Ordered := by
  cases step with
  | node added span => exact h.addAt span hpassed
  | construct | arrayType | fieldDecl | parameter =>
    refine (h.addLeaf rfl).add ?_
    intro child hchild
    rw [List.mem_singleton.mp hchild]
    exact add_lt draft _
  | callNamed function arguments =>
    refine (h.addLeaf rfl).add ?_
    intro child hchild
    rcases List.mem_cons.mp hchild with rfl | hargument
    · exact add_lt draft _
    · exact lt_add _ (hpassed child hargument)
  | callTemplate function typeArgument arguments =>
    refine ((h.addLeaf rfl).addLeaf rfl).add ?_
    intro child hchild
    rcases List.mem_cons.mp hchild with rfl | hrest
    · exact lt_add _ (add_lt draft _)
    · rcases List.mem_cons.mp hrest with rfl | hargument
      · exact add_lt _ _
      · exact lt_add _ (lt_add _ (hpassed child hargument))
  | varDecl name type initializer =>
    refine (h.addLeaf rfl).add ?_
    intro child hchild
    rcases List.mem_cons.mp hchild with rfl | hinitializer
    · exact add_lt draft _
    · exact lt_add _ (hpassed child hinitializer)
  | funDecl name template parameters returnType statements =>
    have hstart := (extends_addTemplate draft template).size_le
    have hresult : ((draft.addTemplate template).1.add
        (.simpleType (returnType.getD "Void"))).1.Ordered := (h.addTemplate template).addLeaf rfl
    -- the body holds the statements, and the function its parameters and all that was added for it
    refine (hresult.add ?_).add ?_
    · intro child hchild
      exact lt_add _ (Nat.lt_of_lt_of_le (hpassed child (List.mem_append_right _ hchild)) hstart)
    · intro child hchild
      rcases List.mem_append.mp hchild with hfirst | hlast
      · refine lt_add _ (lt_add _ ?_)
        rcases List.mem_append.mp hfirst with htemplate | hparameter
        · exact addTemplate_lt draft template child htemplate
        · exact Nat.lt_of_lt_of_le (hpassed child (List.mem_append_left _ hparameter)) hstart
      · rcases List.mem_cons.mp hlast with rfl | hbody
        · exact lt_add _ (add_lt _ _)
        · rw [List.mem_singleton.mp hbody]
          exact add_lt _ _

theorem buildAll_cons (draft : Draft) (step : Step) (steps : List Step) :
    draft.buildAll (step :: steps) = (((draft.build step).1.buildAll steps).1,
      (draft.build step).2 :: ((draft.build step).1.buildAll steps).2) := rfl

theorem buildAll_append (draft : Draft) (before after : List Step) :
    draft.buildAll (before ++ after) =
      (((draft.buildAll before).1.buildAll after).1,
        (draft.buildAll before).2 ++ ((draft.buildAll before).1.buildAll after).2) := by
  induction before generalizing draft with
  | nil => rfl
  | cons step before ih => rw [List.cons_append, buildAll_cons, ih, buildAll_cons, List.cons_append]

theorem extends_buildAll (draft : Draft) (steps : List Step) :
    draft.Extends (draft.buildAll steps).1 := by
  induction steps generalizing draft with
  | nil => exact .refl draft
  | cons step steps ih => exact (extends_build draft step).trans (ih _)

theorem extends_of_append (draft : Draft) (before after : List Step) :
    (draft.buildAll before).1.Extends (draft.buildAll (before ++ after)).1 := by
  rw [buildAll_append]
  exact extends_buildAll _ after

theorem built_buildAll (draft : Draft) (steps : List Step) :
    List.Forall₂ (Step.Built (draft.buildAll steps).1.nodes) (draft.buildAll steps).2 steps := by
  induction steps generalizing draft with
  | nil => exact .nil
  | cons step steps ih =>
    exact .cons ((built_build draft step).extend (extends_buildAll _ steps)) (ih _)

theorem answer_lt (h : id ∈ (draft.buildAll steps).2) :
    id < (draft.buildAll steps).1.nodes.size := by
  obtain ⟨step, _, hbuilt⟩ := Tree.exists_of_forall₂ (built_buildAll draft steps) h
  exact hbuilt.lt_size

theorem PassesAnswers.of_append {before after : List Step} (h : PassesAnswers (before ++ after)) :
    PassesAnswers before := by
  intro place hplace id hid
  have hanswer := h place (by rw [List.length_append]; omega) id
  rw [List.getElem_append_left hplace, List.take_append_of_le_length (Nat.le_of_lt hplace)]
    at hanswer
  exact hanswer hid

theorem PassesAnswers.of_concat {before : List Step} (h : PassesAnswers (before ++ [step])) :
    ∀ id ∈ step.passed, id ∈ (({} : Draft).buildAll before).2 := by
  intro id hid
  have hanswer := h before.length (by simp) id
  rw [List.getElem_concat_length rfl, List.take_left' rfl] at hanswer
  exact hanswer hid

theorem ordered_buildAll (h : PassesAnswers steps) : (({} : Draft).buildAll steps).1.Ordered := by
  induction steps using List.reverseRecOn with
  | nil =>
    intro id located hlocated
    cases hlocated
  | append_singleton before step ih =>
    rw [buildAll_append]
    -- the last step is passed answers of the steps before it, and these are nodes already
    exact (ih h.of_append).build fun id hid => answer_lt (h.of_concat id hid)

variable {statements : List NodeId}

theorem Ordered.descending (h : draft.Ordered) (root : NodeId) :
    ({ nodes := draft.nodes, root } : Tree).Descending := by
  intro id node hnode child hchild
  obtain ⟨located, hlocated, rfl⟩ := Option.map_eq_some_iff.mp hnode
  exact h id located hlocated child hchild

theorem descending_finish (hpassed : PassesAnswers steps)
    (hstatements : ∀ id ∈ statements, id ∈ (({} : Draft).buildAll steps).2) :
    ((({} : Draft).buildAll steps).1.finish statements).Descending := by
  have hordered : ((({} : Draft).buildAll steps).1.add (.root statements)).1.Ordered :=
    (ordered_buildAll hpassed).add fun id hid => answer_lt (hstatements id hid)
  exact hordered.descending _

theorem extends_finish (draft : Draft) (statements : List NodeId) :
    draft.Extends { nodes := (draft.finish statements).nodes } :=
  extends_add draft (.root statements)

theorem holds_root (draft : Draft) (statements : List NodeId) :
    Holds (draft.finish statements).nodes (draft.finish statements).root (.root statements) :=
  holds_add draft (.root statements)

/-- Whoever passes in only ids that earlier steps answered with builds a well-founded tree. At each
of these ids stands what its step asked for; all that stood in a draft stands in the finished tree;
children exist and come before their parents, and the root, with the given statements, is last. So
nothing lies below itself, and the walk over the tree ends. -/
theorem finish_wellFounded {steps : List Step} {statements : List NodeId}
    (hpassed : PassesAnswers steps)
    (hstatements : ∀ id ∈ statements, id ∈ (({} : Draft).buildAll steps).2) :
    let tree := (({} : Draft).buildAll steps).1.finish statements
    List.Forall₂ (Step.Built tree.nodes) (({} : Draft).buildAll steps).2 steps ∧
    (∀ before after, steps = before ++ after → ∀ (id : NodeId) (located : Located),
      (({} : Draft).buildAll before).1.nodes[id]? = some located →
        tree.nodes[id]? = some located) ∧
    (∀ id node, tree.node? id = some node → ∀ child ∈ node.children,
      child < id ∧ ∃ found, tree.node? child = some found) ∧
    (tree.root + 1 = tree.size ∧ Holds tree.nodes tree.root (.root statements)) ∧
    (WellFounded fun child id => ∃ node, tree.node? id = some node ∧ child ∈ node.children) ∧
    tree.Acyclic ∧ ∃ actions, tree.walk = .ok actions := by
  intro tree
  have hdescending : tree.Descending := descending_finish hpassed hstatements
  have hextends := extends_finish (({} : Draft).buildAll steps).1 statements
  have hroot : Holds tree.nodes tree.root (.root statements) := holds_root _ statements
  have hclosed : tree.Closed :=
    hdescending.closed ⟨_, congrArg (Option.map Located.node) hroot⟩
  refine ⟨?_, ?_, ?_, ⟨?_, hroot⟩, hdescending.wellFounded, hdescending.acyclic,
    hdescending.acyclic.exists_walk hclosed⟩
  · exact (built_buildAll {} steps).imp fun _ _ hbuilt => hbuilt.extend hextends
  · rintro before after rfl id located hlocated
    exact hextends id located (extends_of_append {} before after id located hlocated)
  · intro id node hnode child hchild
    exact ⟨hdescending id node hnode child hchild, hdescending.exists_node hnode hchild⟩
  · exact (Array.size_push _).symm

/-- A template with a parameter and a call of it. The constructor of a struct is passed in twice,
so that two nodes share it. -/
theorem finish_wellFounded_shared :
    let steps : List Step := [.construct "P", .node (.expressionStatement 1) ⟨4, 6⟩,
      .parameter "x" "T", .funDecl "f" (some "T") [4] none [2], .callTemplate "f" "Int" [1],
      .node (.expressionStatement 11) {}]
    let tree := (({} : Draft).buildAll steps).1.finish [8, 12]
    PassesAnswers steps ∧ (∀ id ∈ [8, 12], id ∈ (({} : Draft).buildAll steps).2) ∧
    (({} : Draft).buildAll steps).2 = [1, 2, 4, 8, 11, 12] ∧
    List.Forall₂ (Step.Built tree.nodes) [1, 2, 4, 8, 11, 12] steps ∧
    tree.root + 1 = 14 ∧ tree.Acyclic ∧ ∃ actions, tree.walk = .ok actions := by
  intro steps tree
  have hpassed : PassesAnswers steps := by decide +kernel
  have hstatements : ∀ id ∈ [8, 12], id ∈ (({} : Draft).buildAll steps).2 := by decide +kernel
  obtain ⟨hbuilt, _, _, ⟨hroot, _⟩, _, hacyclic, hwalk⟩ := finish_wellFounded hpassed hstatements
  exact ⟨hpassed, hstatements, rfl, hbuilt, hroot, hacyclic, hwalk⟩

end Draft
end Attribution
