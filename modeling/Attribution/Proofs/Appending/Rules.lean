import Mathlib.Data.List.Find
import Attribution.Proofs.Appending.Walk
import Attribution.Proofs.Engine.Embedding
import Attribution.Proofs.Strict.Rules
/-!
# Rules in a larger tree

A rule that is about old nodes does in a larger tree what it does in the old one. It asks for old
nodes only, since the cells that it reads name no others, and for no name that is new.
-/
namespace Attribution

/-- For old nodes and old names the second setting, which is that of a larger tree, has the answers
of the first one. -/
structure Setting.Grows (small large : Setting) (decl : NodeId) (name : String) : Prop where
  trees : small.tree.Grows large.tree decl
  sturdy : small.Sturdy
  placeholderName_eq : large.placeholderName = small.placeholderName
  lookup?_eq : ∀ {scope : ScopeId} {found : String}, scope < small.scopes.size → found ≠ name →
    large.scopes.lookup? scope found = small.scopes.lookup? scope found
  holds_eq : ∀ {id : NodeId}, id < small.tree.size →
    large.dependence.holds id = small.dependence.holds id
  absent : ∀ id node, small.tree.node? id = some node → name ∉ node.names

/-- The name that a rule looks up. -/
def Rule.sought? : Rule → Option String
  | resolveReference _ name _ | resolveType _ name _ => some name
  | _ => none

namespace Rule

open Effect

variable {small large : Setting} {decl : NodeId} {name : String} {node : NodeId}
  (h : small.Grows large decl name)
include h

theorem constructEffect_eq {reference : NodeId} {entity : Entity}
    (hreference : reference < small.tree.size) (hentity : entity.Reached small.tree) :
    constructEffect large node reference entity = constructEffect small node reference entity := by
  unfold constructEffect
  rw [h.trees.describe_eq hentity]
  rcases h.trees.node?_cases hreference with heq | ⟨_, hroot, hlarger⟩
  case' inl => rw [heq]
  case' inr => rw [hroot, hlarger]
  all_goals
    cases entity with
    | builtin b => rfl
    | node id =>
      simp only [Entity.node?, Option.bind_some]
      rcases h.trees.node?_cases (h.trees.proper.reaches_iff.mp hentity) with
        heq | ⟨_, hroot, hlarger⟩
      · rw [heq]
      · rw [hroot, hlarger, Option.map_some, Option.map_some]

theorem fieldAccessEffect_eq {field : String} {type : Ty}
    (htype : type.Names small.tree.Reaches) :
    fieldAccessEffect large node field type = fieldAccessEffect small node field type := by
  cases type with
  | struct struct called =>
    have hstruct := h.trees.proper.reaches_iff.mp (htype struct List.mem_cons_self)
    simp only [fieldAccessEffect]
    rcases h.trees.node?_cases hstruct with heq | ⟨_, hroot, hlarger⟩
    · rw [heq]
      split
      next fields hfound =>
        have hfind : (fields.find? fun id => large.tree.declaredName? id = some field) =
            fields.find? fun id => small.tree.declaredName? id = some field := by
          apply List.find?_congr
          intro id hid
          rw [h.trees.declaredName?_eq (h.trees.proper.lt_size_child hfound hid)]
        rw [hfind]
      next => rfl
    · rw [hroot, hlarger]
  | _ => rfl

theorem callEffect_eq {function : NodeId} {nodes : List NodeId} {callee : Ty}
    {explicit : Option Ty} {arguments : List Ty} (hcallee : callee.Names small.tree.Reaches) :
    callEffect large node function nodes callee explicit arguments =
      callEffect small node function nodes callee explicit arguments := by
  cases callee with
  | function params result =>
    have hshape : concatenationFindings large node
        (instantiate (.function params result) explicit arguments).binding =
        concatenationFindings small node
          (instantiate (.function params result) explicit arguments).binding := by
      cases hbinding : (instantiate (.function params result) explicit arguments).binding with
      | none => rfl
      | some pair =>
        obtain ⟨placeholder, concrete⟩ := pair
        have hfunction := hcallee _ (Ty.function_of_binding hbinding)
        rw [concatenationFindings, concatenationFindings,
          h.trees.isConcatenation_eq (h.trees.proper.reaches_iff.mp hfunction)]
    simp only [callEffect, hshape]
  | _ => rfl

theorem atomArityEffect_eq {atom : NodeId} {scope : ScopeId} (hatom : atom < small.tree.size)
    (hscope : scope < small.scopes.size) :
    atomArityEffect large atom scope = atomArityEffect small atom scope := by
  rw [atomArityEffect, atomArityEffect, h.trees.atom?_eq hatom]
  cases hfound : small.tree.atom? atom with
  | none => rfl
  | some pair =>
    obtain ⟨found, terms⟩ := pair
    have hne : found ≠ name := by
      rintro rfl
      rw [Tree.atom?] at hfound
      split at hfound
      next hnode =>
        cases hfound
        exact h.absent _ _ hnode List.mem_cons_self
      next => cases hfound
    simp only [h.lookup?_eq hscope hne]
    cases hlookup : small.scopes.lookup? scope found with
    | none => rfl
    | some pair =>
      obtain ⟨entity, home⟩ := pair
      cases entity with
      | builtin b => rfl
      | node id =>
        have hid : small.tree.Reaches id := h.sturdy.entities.lookup? hlookup
        simp only [Option.bind_some, Entity.node?,
          h.trees.predicateArity?_eq (h.trees.proper.reaches_iff.mp hid)]

theorem resolveReferenceEffect_eq {found : String} {scope : ScopeId} (hne : found ≠ name)
    (hscope : scope < small.scopes.size) :
    resolveReferenceEffect large node found scope =
      resolveReferenceEffect small node found scope := by
  rw [resolveReferenceEffect, resolveReferenceEffect, h.lookup?_eq hscope hne]
  cases hlookup : small.scopes.lookup? scope found with
  | none => rfl
  | some pair =>
    obtain ⟨entity, home⟩ := pair
    have hentity : entity.Reached small.tree := h.sturdy.entities.lookup? hlookup
    simp only [referenceEffect, h.trees.isVariable_eq hentity, h.trees.isPredicate_eq hentity]

theorem resolveTypeEffect_eq {found : String} {scope : ScopeId} (hne : found ≠ name)
    (hscope : scope < small.scopes.size) :
    resolveTypeEffect large node found scope = resolveTypeEffect small node found scope := by
  rw [resolveTypeEffect, resolveTypeEffect, h.lookup?_eq hscope hne]
  cases hlookup : small.scopes.lookup? scope found with
  | none => rfl
  | some pair =>
    obtain ⟨entity, home⟩ := pair
    have hentity : entity.Reached small.tree := h.sturdy.entities.lookup? hlookup
    simp only [h.trees.isType_eq hentity, h.trees.describe_eq hentity]

/-- What a rule about old nodes does, one case for each constructor that sees the setting. -/
theorem effect_grows {rule : Rule} {view : View} (hrule : rule.Sound small.tree small.scopes)
    (hsought : rule.sought? ≠ some name) (hview : view.Reached small.tree) :
    rule.effect large view = rule.effect small view := by
  have hnodes : ∀ id ∈ rule.nodes, id < small.tree.size := fun id hid =>
    h.trees.proper.reaches_iff.mp (hrule.nodes id hid)
  cases rule with
  | construct node reference =>
    simp only [effect]
    cases hentity : view.decl? reference with
    | none => rfl
    | some entity =>
      exact constructEffect_eq h (hnodes reference (by simp [nodes])) (hview.decl hentity)
  | fieldAccess node stem field =>
    simp only [effect]
    cases hstem : view.type? stem with
    | none => rfl
    | some type => exact fieldAccessEffect_eq h (hview.type hstem)
  | call node function typeArgument arguments =>
    simp only [effect]
    cases hcallee : view.type? function with
    | none => rfl
    | some callee => exact callEffect_eq h (hview.type hcallee)
  | binary node op left right =>
    have hleft := h.holds_eq (hnodes left (by simp [nodes]))
    have hright := h.holds_eq (hnodes right (by simp [nodes]))
    simp only [effect, binaryEffect, bypass, hleft, hright]
  | assignment node left right =>
    have hleft : large.tree.satisfies left Node.isLvalue =
        small.tree.satisfies left Node.isLvalue :=
      h.trees.satisfies_eq (hnodes left (by simp [nodes])) fun _ _ => rfl
    simp only [effect, assignmentEffect, hleft]
  | missingReturn function body returnType =>
    simp only [effect, h.trees.declaredName?_eq (hnodes function List.mem_cons_self)]
  | atomArity atom scope =>
    exact atomArityEffect_eq h (hnodes atom List.mem_cons_self) (hrule.scope scope rfl)
  | templateParameterName function template =>
    simp only [effect, h.trees.declaredName?_eq (hnodes template (by simp [nodes])),
      h.placeholderName_eq]
  | resolveReference node found scope =>
    exact resolveReferenceEffect_eq h (fun heq => hsought (congrArg some heq))
      (hrule.scope scope rfl)
  | resolveType node found scope =>
    exact resolveTypeEffect_eq h (fun heq => hsought (congrArg some heq)) (hrule.scope scope rfl)
  | returnStatement node returnType expression => cases expression <;> rfl
  | _ => rfl

end Rule

theorem Rule.mem_nodes_of_inputs {rule : Rule} {cell : Cell} (h : cell ∈ rule.inputs)
    {id : NodeId} (hid : cell.subject = .node id) : id ∈ rule.nodes := by
  cases rule with
  | referenceType node entity | typeValue node entity =>
    cases List.mem_singleton.mp h
    cases hid
    exact List.mem_cons_of_mem _ List.mem_cons_self
  | _ =>
    grind [inputs, nodes, Cell.type, Cell.value, Cell.decl, Cell.declared, Cell.returns, Cell.index]

theorem Rule.exists_of_reach {rule : Rule} {cell : Cell} (h : cell ∈ rule.reach) :
    ∃ id ∈ rule.nodes, cell.subject = .node id := by
  cases rule <;>
    grind [reach, outputs, nodes, Cell.type, Cell.value, Cell.decl, Cell.declared, Cell.returns,
      Cell.scope]

theorem Action.mem_nodes_of_reach {action : Action} {cell : Cell} (h : cell ∈ action.reach)
    {id : NodeId} (hid : cell.subject = .node id) : id ∈ action.nodes := by
  cases action with
  | add rule =>
    obtain ⟨found, hfound, hsubject⟩ := Rule.exists_of_reach h
    cases hid.symm.trans hsubject
    exact hfound
  | write other value =>
    cases List.mem_singleton.mp h
    simp [nodes, hid, Entity.node?]
  | _ => grind [reach, nodes, Cell.type, Cell.value, Cell.decl, Cell.declared, Cell.scope]

/-- Whether a cell is one of a built-in or of a node of the tree. -/
def Tree.owns (tree : Tree) (cell : Cell) : Bool :=
  cell.subject.node?.all fun id => id < tree.size

theorem Tree.owns_node {tree : Tree} {cell : Cell} {id : NodeId} (hid : cell.subject = .node id) :
    tree.owns cell = decide (id < tree.size) := by
  rw [owns, hid]
  rfl

theorem Tree.owns_iff {tree : Tree} {cell : Cell} :
    tree.owns cell = true ↔ ∀ id, cell.subject = .node id → id < tree.size := by
  cases hsubject : cell.subject with
  | node id => simp [owns_node hsubject]
  | builtin b => simp [owns, hsubject, Entity.node?]

/-- A rule of the old tree, which does not look the new name up. -/
structure Rule.Native (setting : Setting) (name : String) (rule : Rule) : Prop
    extends rule.Sound setting.tree setting.scopes where
  sought_ne : rule.sought? ≠ some name

/-- A rule that neither writes to old nodes nor finds fault with them. -/
structure Rule.Foreign (tree : Tree) (rule : Rule) : Prop where
  reach : ∀ cell ∈ rule.reach, tree.owns cell = false
  accuses : ∀ node cause, rule.Accuses node cause → tree.size ≤ node

/-- Both engines have the cells and the rules of the old tree, and what these find. -/
def Setting.correspondence (setting : Setting) (name : String) : Correspondence Rule where
  shared := setting.tree.owns
  value cell value image := image = value ∧
    cell.attr.Admits (Ty.Names setting.tree.Reaches) (Entity.Reached setting.tree) value
  rule rule image := image = rule ∧ rule.Native setting name
  finding finding image := image = finding
  counts finding := finding.node < setting.tree.size
  foreign := Rule.Foreign setting.tree

theorem Setting.eq_of_views {setting : Setting} {name : String} {view other : View}
    (h : (setting.correspondence name).Views view other) {cell : Cell}
    (hcell : setting.tree.owns cell = true) : other cell = view cell := by
  have hboth := h cell hcell
  generalize view cell = value, other cell = image at hboth
  cases hboth with
  | none => rfl
  | some hboth => exact congrArg some hboth.1

namespace Setting.Grows

variable {small large : Setting} {decl : NodeId} {name : String} {rule next : Rule}
  {view other : View} (h : small.Grows large decl name)
include h

theorem lt_size (hrule : rule.Native small name) {id : NodeId} (hid : id ∈ rule.nodes) :
    id < small.tree.size := h.trees.proper.reaches_iff.mp (hrule.nodes id hid)

theorem owns_inputs (hrule : rule.Native small name) : ∀ cell ∈ rule.inputs,
    small.tree.owns cell = true := by
  intro cell hcell
  rw [Tree.owns_iff]
  exact fun id hsubject => h.lt_size hrule (Rule.mem_nodes_of_inputs hcell hsubject)

theorem owns_outputs (hrule : rule.Native small name) : ∀ cell ∈ rule.outputs,
    small.tree.owns cell = true := by
  intro cell hcell
  obtain ⟨id, hid, hsubject⟩ := Rule.exists_of_reach (Rule.mem_reach_of_outputs hcell)
  rw [Tree.owns_node hsubject]
  exact decide_eq_true (h.lt_size hrule hid)

/-- A rule of the old tree does the same in both engines, and does it in a view of the cells that
both have. -/
theorem exists_effect (hrule : rule.Native small name)
    (hviews : (small.correspondence name).Views view other) : ∃ shown : View,
      shown.Reached small.tree ∧ rule.effect small view = rule.effect small shown ∧
        rule.effect large other = rule.effect small shown := by
  let shown : View := fun cell => if small.tree.owns cell then view cell else none
  have hshown : shown.Reached small.tree := by
    intro cell value hvalue
    simp only [shown] at hvalue
    split at hvalue
    next howns =>
      have hboth := hviews cell howns
      rw [hvalue, Setting.eq_of_views hviews howns, hvalue] at hboth
      cases hboth with
      | some hboth => exact hboth.2
    next => cases hvalue
  have hview : ∀ cell ∈ rule.inputs, view cell = shown cell := by
    intro cell hcell
    exact (if_pos (h.owns_inputs hrule cell hcell)).symm
  have hother : ∀ cell ∈ rule.inputs, other cell = shown cell := by
    intro cell hcell
    rw [← hview cell hcell]
    exact Setting.eq_of_views hviews (h.owns_inputs hrule cell hcell)
  refine ⟨shown, hshown, Rule.effect_congr small rule hview, ?_⟩
  rw [Rule.effect_congr large rule hother]
  exact Rule.effect_grows h hrule.toSound hrule.sought_ne hshown

theorem native_of_spawned (hrule : rule.Native small name) (hview : view.Reached small.tree)
    (hnext : next ∈ (rule.effect small view).spawned) : next.Native small name where
  toSound := (Rule.upkeep_sound h.sturdy).spawned rule view hrule.toSound hview next hnext
  sought_ne := by
    cases Rule.spawns_of_mem hnext <;> exact nofun

theorem effects (hrule : rule.Native small name)
    (hviews : (small.correspondence name).Views view other) :
    (small.correspondence name).Effects rule.outputs (rule.effect small view)
      (rule.effect large other) := by
  obtain ⟨shown, hshown, hsmall, hlarge⟩ := h.exists_effect hrule hviews
  rw [hsmall, hlarge]
  refine ⟨?_, ?_, ?_, ?_⟩
  · rw [List.forall₂_same]
    rintro ⟨output, value⟩ hwrite
    refine ⟨rfl, ?_⟩
    intro cell hcell
    refine ⟨rfl, ?_⟩
    refine (Rule.upkeep_sound h.sturdy).writes rule shown hrule.toSound hshown (cell, value) ?_
    exact List.mem_filterMap.mpr ⟨(output, value), hwrite, by
      simp only [RuleFamily.outputs, hcell, Option.map_some]⟩
  · rw [List.forall₂_same]
    exact fun _ _ => rfl
  · intro finding hfinding
    have haccused := Rule.accuses_effect small rule shown finding hfinding
    exact decide_eq_true (h.lt_size hrule haccused.mem_nodes)
  · rw [List.forall₂_same]
    exact fun next hnext => ⟨rfl, h.native_of_spawned hrule hshown hnext⟩

end Setting.Grows

theorem Rule.Foreign.spawned {tree : Tree} {setting : Setting} {rule next : Rule} {view : View}
    (hrule : rule.Foreign tree) (hnext : next ∈ (rule.effect setting view).spawned) :
    next.Foreign tree := by
  have houtputs : ∀ cell ∈ next.outputs, tree.owns cell = false := fun cell hcell =>
    hrule.reach cell (mem_reach_of_spawned hnext hcell)
  cases spawns_of_mem hnext <;> exact ⟨houtputs, by rintro _ _ ⟨⟩⟩

theorem Setting.Grows.lawful {small large : Setting} {decl : NodeId} {name : String}
    (h : small.Grows large decl name) :
    (small.correspondence name).Lawful small large where
  label_eq := by
    rintro rule _ ⟨rfl, _⟩
    rfl
  inputs_eq := by
    rintro rule _ ⟨rfl, _⟩
    rfl
  outputs_eq := by
    rintro rule _ ⟨rfl, _⟩
    rfl
  inputs_shared hrule := h.owns_inputs hrule.2
  outputs_shared hrule := h.owns_outputs hrule.2
  fire := by
    rintro rule _ view other ⟨rfl, hrule⟩ hviews
    exact h.effects hrule hviews
  foreign_outputs hrule cell hcell := hrule.reach cell (Rule.mem_reach_of_outputs hcell)
  foreign_findings hrule view finding hfinding := by
    have haccused := Rule.accuses_effect large _ view finding hfinding
    exact decide_eq_false (Nat.not_lt_of_le (hrule.accuses _ _ haccused))
  foreign_spawned hrule view next hnext := hrule.spawned hnext

end Attribution
