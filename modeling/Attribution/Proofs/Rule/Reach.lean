import Attribution.Binding
import Attribution.Proofs.Rule.Locality
import Attribution.Proofs.Tree.Actions
/-!
# What actions reach

What comes of an action can write only cells of the node at which it stands, places of arguments
apart, and no cell is within reach of two actions of one node.
-/
namespace Attribution

namespace Node

/-- Whether the node declares something of which a type node says the type. -/
def isAnnotated : Node → Bool
  | varDecl .. | fieldDecl .. | parameter .. => true
  | _ => false

/-- Whether the node declares something that has a type. -/
def isTyped : Node → Bool
  | varDecl .. | fieldDecl .. | parameter .. | funDecl .. | structDecl .. | templateParam _ => true
  | _ => false

variable {node : Node}

theorem isAnnotated_of_isVariable (h : node.isVariable) : node.isAnnotated := by
  cases node <;> first | rfl | cases h

theorem isAnnotated_of_isParameter (h : node.isParameter) : node.isAnnotated := by
  cases node <;> first | rfl | cases h

theorem isAnnotated_of_isField (h : node.isField) : node.isAnnotated := by
  cases node <;> first | rfl | cases h

theorem isTyped_of_isAnnotated (h : node.isAnnotated) : node.isTyped := by
  cases node <;> first | rfl | cases h

end Node

def Action.reach : Action → List Cell
  | enterRoot node | enter node | locate node => [.scope node]
  | useName node _ => [.decl node, .scope node, .type node]
  | useType node _ => [.decl node, .scope node, .value node]
  | placeholder node _ => [.type node, .declared node]
  | write cell _ => [cell]
  | add rule => rule.reach
  | leave | declare .. | atom _ | exit .. => []

theorem Action.attr_of_binds {action : Action} (h : action.binds?.isSome) {cell : Cell}
    (hcell : cell ∈ action.reach) : cell.attr ≠ .index := by
  cases action with
  | useName | useType =>
    simp only [reach, List.mem_cons, List.not_mem_nil, or_false] at hcell
    rcases hcell with rfl | rfl | rfl <;> simp [Cell.decl, Cell.scope, Cell.type, Cell.value]
  | placeholder =>
    simp only [reach, List.mem_cons, List.not_mem_nil, or_false] at hcell
    rcases hcell with rfl | rfl <;> simp [Cell.type, Cell.declared]
  | _ => cases h

def Command.reach : Command Rule → List Cell
  | set cell _ => [cell]
  | add rule => rule.reach
  | report _ => []

namespace Binder

variable {tree : Tree} {policy : DuplicatePolicy} {binder : Binder}

theorem report_of_declare {name : String} {decl : NodeId} {command : Command Rule}
    (h : command ∈ (binder.declare tree policy name decl).2) :
    ∃ finding, command = .report finding := by
  unfold declare at h
  split at h
  · cases h
  · split at h
    · unfold redeclared at h
      split at h
      · split at h
        · cases h
        · exact ⟨_, List.mem_singleton.mp h⟩
      · cases h
    · cases policy with
      | report => exact ⟨_, List.mem_singleton.mp h⟩
      | lastWins => cases h

theorem flatMap_of_declare {α : Type} {gather : Command Rule → List α}
    (h : ∀ finding, gather (.report finding) = []) (name : String) (decl : NodeId) :
    (binder.declare tree policy name decl).2.flatMap gather = [] := by
  apply List.flatMap_eq_nil_iff.mpr
  intro command hcommand
  obtain ⟨finding, rfl⟩ := report_of_declare hcommand
  exact h finding

theorem sublist_reach_bound (node : NodeId) (name : String) (entity : Entity) (home : ScopeId) :
    ((bound tree node name entity home).flatMap Command.reach).Sublist
      [Cell.decl node, Cell.scope node, Cell.type node] := by
  rw [bound]
  split
  · exact List.sublist_append_left [Cell.decl node, Cell.scope node] [Cell.type node]
  · exact List.Sublist.refl _

/-- The commands that come of an action reach nothing but what the action does, and each cell only
once. -/
theorem sublist_reach_act (action : Action) :
    ((binder.act tree policy action).2.flatMap Command.reach).Sublist action.reach := by
  cases action with
  | declare name decl =>
    rw [act, flatMap_of_declare fun _ => rfl]
    exact List.nil_sublist _
  | useName node name =>
    simp only [act, useName]
    split
    · exact sublist_reach_bound node name _ _
    · exact List.Sublist.refl _
  | exit node expression =>
    simp only [act, exits]
    split <;> exact List.Sublist.refl _
  | add rule =>
    change (rule.reach ++ []).Sublist rule.reach
    rw [List.append_nil]
  | _ => exact List.Sublist.refl _

theorem reach_act {action : Action} {command : Command Rule} {cell : Cell}
    (hcommand : command ∈ (binder.act tree policy action).2) (hcell : cell ∈ command.reach) :
    cell ∈ action.reach :=
  (sublist_reach_act action).subset (List.mem_flatMap.mpr ⟨command, hcommand, hcell⟩)

theorem sublist_actAll {α : Type} {gather : Command Rule → List α} {about : Action → List α}
    (h : ∀ (binder : Binder) (action : Action),
      ((binder.act tree policy action).2.flatMap gather).Sublist (about action))
    (binder : Binder) (actions : List Action) :
    ((binder.actAll tree policy actions).2.flatMap gather).Sublist (actions.flatMap about) := by
  induction actions generalizing binder with
  | nil => exact List.Sublist.refl _
  | cons action actions ih =>
    rw [actAll, List.flatMap_append, List.flatMap_cons]
    exact (h binder action).append (ih _)

theorem sublist_reach_actAll (binder : Binder) (actions : List Action) :
    ((binder.actAll tree policy actions).2.flatMap Command.reach).Sublist
      (actions.flatMap Action.reach) :=
  sublist_actAll (fun _ action => sublist_reach_act action) binder actions

end Binder

open Attribution.Part

namespace Tree

variable {tree : Tree} {id : NodeId} {expectation : Expectation} {node : Node}

theorem subject_of_reach {action : Action} {cell : Cell}
    (haction : .act action ∈ tree.parts id node expectation) (hcell : cell ∈ action.reach)
    (hattr : cell.attr ≠ .index) : cell.subject = .node id := by
  cases does_of_part haction with
  | place =>
    cases List.mem_singleton.mp hcell
    exact absurd rfl hattr
  | _ =>
    grind [Action.reach, Rule.reach, Rule.outputs, Cell.type, Cell.scope, Cell.value,
      Cell.declared, Cell.decl, Cell.returns]

theorem eq_of_reach {action other : Action} {cell : Cell}
    (haction : .act action ∈ tree.parts id node expectation)
    (hother : .act other ∈ tree.parts id node expectation)
    (hcell : cell ∈ action.reach) (hcell' : cell ∈ other.reach) (hattr : cell.attr ≠ .index) :
    other = action := by
  cases does_of_part haction with
  | place =>
    cases List.mem_singleton.mp hcell
    exact absurd rfl hattr
  | _ =>
    cases does_of_part hother <;>
      grind [Action.reach, Rule.reach, Rule.outputs, Cell.type, Cell.scope, Cell.value,
        Cell.declared, Cell.decl, Cell.returns, Cell.index]

theorem nodup_reach (harguments : ∀ function typeArgument arguments,
    node = .call function typeArgument arguments → arguments.Nodup) :
    ((tree.actions id expectation node).flatMap Action.reach).Nodup := by
  rw [flatMap_actions]
  cases node with
  | call function typeArgument arguments =>
    have hplaces : (arguments.zipIdx.flatMap fun found => [Cell.index found.1]) =
        arguments.map Cell.index := by
      rw [← List.map_eq_flatMap, ← Function.comp_def, ← List.map_map, List.zipIdx_map_fst]
    have hcells : (arguments.map Cell.index).Nodup :=
      (harguments _ _ _ rfl).map fun _ _ heq => Entity.node.inj (Cell.mk.inj heq).1
    have hne : ∀ argument, Cell.index argument ≠ Cell.type id :=
      fun _ heq => nomatch (Cell.mk.inj heq).2
    simp [parts, List.nodup_append, Action.reach, Rule.reach, Rule.outputs, hplaces, hcells, hne]
  | clause head body =>
    cases hatom : tree.atom? head <;>
      simp [parts, hatom, Action.reach, Rule.reach, Rule.outputs]
  | arrayLiteral components =>
    cases components with
    | nil => cases expectation <;> simp [parts, emptyArray, Action.reach, Rule.reach, Rule.outputs]
    | cons c cs => simp [parts, Action.reach, Rule.reach, Rule.outputs]
  | funDecl name template parameters returnType body =>
    cases template <;>
      simp [parts, Action.reach, Rule.reach, Rule.outputs, Cell.type, Cell.scope]
  | _ =>
    simp [parts, Part.control, Action.reach, Rule.reach, Rule.outputs,
      Cell.type, Cell.scope, Cell.value, Cell.declared, Cell.decl, Cell.returns]

theorem call_of_reach {action : Action} {cell : Cell}
    (haction : .act action ∈ tree.parts id node expectation) (hcell : cell ∈ action.reach)
    (hattr : cell.attr = .index) : ∃ function typeArgument arguments place argument,
      node = .call function typeArgument arguments ∧ arguments[place]? = some argument ∧
        cell = .index argument ∧ action = .write (.index argument) (.index place) := by
  cases does_of_part haction with
  | place hplace =>
    exact ⟨_, _, _, _, _, rfl, hplace, List.mem_singleton.mp hcell, rfl⟩
  | _ =>
    grind [Action.reach, Rule.reach, Rule.outputs, Cell.type, Cell.scope, Cell.value,
      Cell.declared, Cell.decl, Cell.returns]

theorem kind_of_reach {action : Action}
    (haction : .act action ∈ tree.parts id node expectation) :
    (.type id ∈ action.reach → node.isExpression || node.isTyped) ∧
      (.value id ∈ action.reach → node.isTypeNode) := by
  cases does_of_part haction <;>
    grind [Action.reach, Rule.reach, Rule.outputs, Cell.index, Cell.type, Cell.scope, Cell.value,
      Cell.declared, Cell.decl, Cell.returns, Node.isExpression, Node.isTyped, Node.isTypeNode]

theorem mem_visits_call {function : NodeId} {typeArgument : Option NodeId}
    {arguments : List NodeId} {place : Nat} {argument : NodeId}
    (hplace : arguments[place]? = some argument) : (argument, .argument function argument) ∈
      tree.visits id expectation (.call function typeArgument arguments) := by
  rw [visits_eq tree id expectation (fun _ _ heq => by cases heq), Node.offspring]
  exact List.mem_append_right _ (List.mem_map_of_mem (List.mem_of_getElem? hplace))

namespace Unshared

theorem nodup_arguments (hunshared : tree.Unshared) {list : List Action}
    (h : tree.walk = .ok list) (hwalked : tree.Walked id expectation) {function : NodeId}
    {typeArgument : Option NodeId} {arguments : List NodeId}
    (hnode : tree.node? id = some (.call function typeArgument arguments)) : arguments.Nodup := by
  obtain ⟨path, hleads⟩ := leads_of_walked hwalked
  rw [List.nodup_iff_getElem?_ne_getElem?]
  intro i j hlt hj heq
  have hplace : arguments[j]? = some arguments[j] := List.getElem?_eq_getElem hj
  obtain ⟨found, hfound⟩ := exists_of_visits h hwalked hnode (mem_visits_call hplace)
  have hsame := (hunshared.parent_unique hleads hnode
    (Node.getElem?_children_call (heq.trans hplace)) hleads hnode
    (Node.getElem?_children_call hplace) (Option.isSome_of_eq_some hfound)).2
  omega

theorem eq_of_reach (hunshared : tree.Unshared) {list : List Action} (h : tree.walk = .ok list)
    {other : NodeId} {lent : Expectation} (hwalked : tree.Walked id expectation)
    (hother : tree.Walked other lent) {action action' : Action} {cell : Cell}
    (haction : action ∈ tree.own (id, expectation)) (haction' : action' ∈ tree.own (other, lent))
    (hcell : cell ∈ action.reach) (hcell' : cell ∈ action'.reach) : other = id := by
  obtain ⟨node, hnode, hmem⟩ := mem_own.mp haction
  obtain ⟨node', hnode', hmem'⟩ := mem_own.mp haction'
  have hpart := mem_actions.mp hmem
  have hpart' := mem_actions.mp hmem'
  by_cases hattr : cell.attr = .index
  · -- the place of an argument, which has one parent
    obtain ⟨_, _, _, _, argument, rfl, hplace, hindex, _⟩ := call_of_reach hpart hcell hattr
    obtain ⟨_, _, _, _, argument', rfl, hplace', hindex', _⟩ := call_of_reach hpart' hcell' hattr
    rw [hindex] at hindex'
    cases hindex'
    obtain ⟨path, hleads⟩ := leads_of_walked hwalked
    obtain ⟨path', hleads'⟩ := leads_of_walked hother
    obtain ⟨found, hfound⟩ := exists_of_visits h hwalked hnode (mem_visits_call hplace)
    exact (hunshared.parent_unique hleads hnode (Node.getElem?_children_call hplace) hleads' hnode'
      (Node.getElem?_children_call hplace') (Option.isSome_of_eq_some hfound)).1
  · have howner := subject_of_reach hpart hcell hattr
    rw [subject_of_reach hpart' hcell' hattr] at howner
    exact Entity.node.inj howner

/-- No two actions of a walk reach one cell. -/
theorem nodup_reach (hunshared : tree.Unshared) {list : List Action} (h : tree.walk = .ok list) :
    (list.flatMap Action.reach).Nodup := by
  rw [((perm_of_visit h).flatMap_right Action.reach).nodup_iff, List.flatMap_assoc,
    List.nodup_flatMap]
  constructor
  · intro ⟨id, expectation⟩ hwalked
    obtain ⟨node, hnode⟩ := exists_of_walked h hwalked
    rw [own_eq hnode]
    apply Tree.nodup_reach
    rintro function typeArgument arguments rfl
    exact hunshared.nodup_arguments h hwalked hnode
  · have hplaces := List.pairwise_map.mp (hunshared.nodup_walked h)
    apply hplaces.imp_of_mem
    intro ⟨id, expectation⟩ ⟨other, lent⟩ hwalked hother hne cell hcell hcell'
    obtain ⟨action, haction, hreach⟩ := List.mem_flatMap.mp hcell
    obtain ⟨action', haction', hreach'⟩ := List.mem_flatMap.mp hcell'
    exact hne (hunshared.eq_of_reach h hwalked hother haction haction' hreach hreach').symm

end Unshared

end Tree
end Attribution
