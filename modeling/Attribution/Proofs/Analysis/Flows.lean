import Attribution.Proofs.Analysis.Contents
import Attribution.Proofs.Analysis.Names
import Attribution.Proofs.Binding.Enclosing
import Attribution.Proofs.Engine.Harvest
import Attribution.Proofs.Rule.Flows
import Attribution.Proofs.Tree.Layers
import Attribution.Proofs.Tree.Proper
/-!
# Values that do not fit

A value flows into a variable from its initializer, into the left side of an assignment, into a
parameter of a call, and out of a function. What is found of such flows is exactly that the types of
both sides are known and the value is not assignable, and it is found once.
-/
namespace Attribution

open Attribution.Tree Attribution.Binder Attribution.Part

namespace Tree

/-- The value of a node does not fit the place into which it flows, and what is to be found then. A
flow goes by the node of its value, which has one parent. -/
inductive Misfit (tree : Tree) (analysis : Analysis) : NodeId → Finding → Prop
  | initializer {decl type value : NodeId} {name : String} {expected found : Ty} :
    tree.node? decl = some (.varDecl name type value) →
    analysis.valueOf? type = some expected → analysis.typeOf? value = some found →
    found.assignable expected = false →
      Misfit tree analysis value { node := value, cause := .initializer name expected found }
  | assignment {node left right : NodeId} {l r : Ty} :
    tree.node? node = some (.assignment left right) → tree.satisfies left Node.isLvalue →
    analysis.typeOf? left = some l → analysis.typeOf? right = some r → r.assignable l = false →
      Misfit tree analysis right { node, cause := .assignment l r }
  /-- There is no place to assign to. -/
  | target {node left right : NodeId} {l r : Ty} :
    tree.node? node = some (.assignment left right) →
    tree.satisfies left Node.isLvalue = false →
    analysis.typeOf? left = some l → analysis.typeOf? right = some r →
      Misfit tree analysis right { node := left, cause := .assignmentTarget }
  /-- The parameter is that of the callee after the call has chosen types for placeholders. -/
  | argument {call function argument : NodeId} {typeArgument : Option NodeId}
      {arguments : List NodeId} {position : Nat} {params given : List Ty} {result : Ty}
      {explicit : Option Ty} {expected found : Ty} :
    tree.node? call = some (.call function typeArgument arguments) →
    analysis.typeOf? function = some (.function params result) →
    typeArgument.mapM analysis.valueOf? = some explicit →
    arguments.mapM analysis.typeOf? = some given → arguments[position]? = some argument →
    (instantiate (.function params result) explicit given).callee.params[position]? =
      some expected →
    given[position]? = some found → found.assignable expected = false →
      Misfit tree analysis argument { node := argument, cause := .argument position expected found }
  /-- The function is the innermost one around the statement. -/
  | result {statement expression function returnType body : NodeId} {openers : List NodeId}
      {name : String} {template : Option NodeId} {parameters : List NodeId}
      {expected found : Ty} :
    tree.node? statement = some (.returnStatement (some expression)) →
    tree.Around statement openers →
    (openers.find? fun id => tree.satisfies id Node.isFunction) = some function →
    tree.node? function = some (.funDecl name template parameters returnType body) →
    analysis.valueOf? returnType = some expected → analysis.typeOf? expression = some found →
    expected.isVoid = false → found.assignable expected = false →
      Misfit tree analysis expression
        { node := expression, cause := .returnType expected found }

variable {tree : Tree} {id : NodeId} {expectation : Expectation} {node : Node}

/-- What an action through which a value flows says of the node at which it stands. -/
def Lets (id : NodeId) (node : Node) : Action → Prop
  | .add (.initializer name type value) => node = .varDecl name type value
  | .add (.assignment found left right) => found = id ∧ node = .assignment left right
  | .add (.call found function typeArgument arguments) =>
    found = id ∧ node = .call function typeArgument arguments
  | .add (.returnStatement ..) => False
  | .exit found expression => found = id ∧ node = .returnStatement expression
  | _ => True

theorem lets_of_parts {action : Action} (h : .act action ∈ tree.parts id node expectation) :
    Lets id node action := by
  cases does_of_part h with
  | initializer => rfl
  | assignment | call | exit => exact ⟨rfl, rfl⟩
  | _ => trivial

end Tree

/-- The nodes whose values flow somewhere by an action. -/
def Action.flowing : Action → List NodeId
  | add rule => rule.flowing
  | exit _ expression => expression.toList
  | _ => []

namespace Tree

variable {tree : Tree} {id : NodeId} {expectation : Expectation} {node : Node}

theorem flowing_sublist (tree : Tree) (id : NodeId) (expectation : Expectation) (node : Node) :
    ((tree.actions id expectation node).flatMap Action.flowing).Sublist node.children := by
  rw [flatMap_actions]
  cases node with
  | arrayLiteral components =>
    cases components with
    | nil => cases expectation <;> exact List.Sublist.refl []
    | cons c cs => simp [parts, Action.flowing, Rule.flowing]
  | clause head body =>
    cases hatom : tree.atom? head <;> simp [parts, hatom, Action.flowing, Rule.flowing]
  | call function typeArgument arguments =>
    simp [parts, Action.flowing, Rule.flowing, Node.children]
  | funDecl name template parameters returnType body =>
    cases template <;> simp [parts, Action.flowing, Rule.flowing]
  | _ => simp [parts, Part.control, Action.flowing, Rule.flowing, Node.children]

end Tree

def Command.flowing : Command Rule → List NodeId
  | add rule => rule.flowing
  | _ => []

namespace Binder

variable {tree : Tree} {policy : DuplicatePolicy}

theorem sublist_flowing_act (binder : Binder) (action : Action) :
    ((binder.act tree policy action).2.flatMap Command.flowing).Sublist action.flowing := by
  cases action with
  | declare name decl =>
    rw [act, flatMap_of_declare fun _ => rfl]
    exact List.nil_sublist _
  | useName node name =>
    simp only [act, useName]
    split
    · rw [bound]
      split <;> exact List.Sublist.refl _
    · exact List.Sublist.refl _
  | exit node expression =>
    simp only [act, exits]
    split
    · change (expression.toList ++ []).Sublist expression.toList
      rw [List.append_nil]
    · exact List.nil_sublist _
  | add rule =>
    change (rule.flowing ++ []).Sublist rule.flowing
    rw [List.append_nil]
  | _ => exact List.Sublist.refl _

end Binder

namespace Preparation

variable {config : Config} {tree : Tree} {preparation : Preparation} {id : NodeId}
  {finding : Finding}

theorem nodup_flowing (hproper : tree.Proper) (h : ofTree config tree = .ok preparation) :
    (preparation.commands.flatMap Command.flowing).Nodup := by
  obtain ⟨actions, hwalk, _, hcommands, _⟩ := ofTree_eq_ok h
  have hbuiltin : (Builtin.all.flatMap Builtin.commands).flatMap Command.flowing = [] := rfl
  rw [hcommands, List.flatMap_append, hbuiltin, List.nil_append]
  exact (sublist_actAll sublist_flowing_act _ _).nodup
    (hproper.unshared.nodup_flatMap hproper.closed hwalk
    fun id expectation node => flowing_sublist tree id expectation node)

theorem walked_of_isSome (h : ofTree config tree = .ok preparation) {cell : Cell}
    (hsome : (preparation.final.view cell).isSome) (hattr : cell.attr ≠ .index)
    (hsubject : cell.subject = .node id) : ∃ expectation, tree.Walked id expectation := by
  by_contra hnone
  have hreach : ∀ command ∈ preparation.commands, cell ∉ command.reach := by
    intro command hcommand hcell
    rcases (mem_commands h).mp hcommand with hbuiltin | ⟨binder, action, hmeets, hact⟩
    · obtain ⟨b, hb⟩ := subject_of_builtin hbuiltin hcell
      rw [hsubject] at hb
      cases hb
    · obtain ⟨found, expectation, node, hwalked, _, hpart⟩ := hmeets.exists_node
      have howner := subject_of_reach hpart (reach_act hact hcell) hattr
      rw [hsubject] at howner
      cases howner
      exact hnone ⟨expectation, hwalked⟩
  rw [view_eq_none hreach] at hsome
  cases hsome

theorem walked_of_type (h : ofTree config tree = .ok preparation) {type : Ty}
    (htype : preparation.final.view.type? id = some type) :
    ∃ expectation, tree.Walked id expectation := by
  obtain ⟨value, hvalue, _⟩ := Option.bind_eq_some_iff.mp htype
  exact walked_of_isSome h (Option.isSome_of_eq_some hvalue) (by simp [Cell.type]) rfl

theorem add_mem_of_child (hproper : tree.Proper) (h : ofTree config tree = .ok preparation)
    {node : Node} (hnode : tree.node? id = some node) (hatom : node.isAtom = false)
    {child : NodeId} (hchild : child ∈ node.children) {type : Ty}
    (htype : preparation.final.view.type? child = some type) {action : Action}
    (hpart : ∀ expectation, .act action ∈ tree.parts id node expectation) :
    ∃ binder, Binder.Meets tree config.duplicates binder action := by
  obtain ⟨list, hwalk⟩ := hproper.exists_walk
  obtain ⟨path, expectation, hleads⟩ := hproper.exists_leads hnode
  obtain ⟨lent, hwalked⟩ := walked_of_type h htype
  obtain ⟨held, habove⟩ :=
    hproper.unshared.walked_parent hwalk hleads hnode hatom hchild hwalked
  have hmem : action ∈ list := (WellFormed.mem_walk hwalk).mpr
    ⟨id, held, node, habove, hnode, mem_actions.mpr (hpart held)⟩
  obtain ⟨before, after, rfl⟩ := List.append_of_mem hmem
  exact ⟨_, before, after, hwalk, rfl⟩

/-- What is found of values that do not fit, by the nodes of these values. -/
def misfits (preparation : Preparation) : List (NodeId × Finding) :=
  preparation.commands.flatMap fun command =>
    match command with
    | .add rule =>
      if preparation.final.lacksInput rule then []
      else rule.misfits preparation.setting preparation.final.view
    | _ => []

theorem mem_misfits : (id, finding) ∈ preparation.misfits ↔ ∃ rule,
    .add rule ∈ preparation.commands ∧ rule.ready preparation.final.view ∧
      (id, finding) ∈ rule.misfits preparation.setting preparation.final.view := by
  have hready : ∀ rule : Rule, preparation.final.lacksInput rule = false ↔
      rule.ready preparation.final.view := by
    intro rule
    rw [Engine.lacksInput_eq_false, Rule.ready, List.all_eq_true]
    rfl
  rw [misfits, List.mem_flatMap]
  constructor
  · rintro ⟨command, hcommand, hmem⟩
    cases command with
    | add rule =>
      dsimp only at hmem
      split at hmem
      · cases hmem
      next hlacks => exact ⟨rule, hcommand, (hready rule).mp (Bool.eq_false_iff.mpr hlacks), hmem⟩
    | _ => cases hmem
  · rintro ⟨rule, hadd, hrule, hmem⟩
    refine ⟨_, hadd, ?_⟩
    dsimp only
    rw [(hready rule).mpr hrule]
    exact hmem

theorem nodup_misfits (hproper : tree.Proper) (h : ofTree config tree = .ok preparation) :
    (preparation.misfits.map Prod.fst).Nodup := by
  refine List.Sublist.nodup ?_ (nodup_flowing hproper h)
  rw [misfits, List.map_flatMap]
  apply List.Sublist.flatMap_right
  intro command _
  cases command with
  | add rule =>
    dsimp only
    split
    · exact List.nil_sublist _
    · exact rule.misfits_sublist _ _
  | _ => exact List.nil_sublist _

/-- What is found is what comes of the commands, each by itself. -/
theorem findings_perm (preparation : Preparation) : preparation.final.findings.Perm
    (preparation.commands.flatMap (Command.findings preparation.setting preparation.final)) := by
  obtain ⟨events, hhistory, hdone, hcommands⟩ :=
    Engine.history_run preparation.setting preparation.commands
  rw [← hcommands]
  exact hhistory.findings_perm hdone fun _ _ _ view' hnext =>
    Rule.findings_of_spawned hnext preparation.setting view'

theorem findings_perm_misfits (h : ofTree config tree = .ok preparation) :
    (preparation.final.findings.filter fun finding => finding.cause.isMisfit).Perm
      (preparation.misfits.map Prod.snd) := by
  have hperm := preparation.findings_perm
  refine (hperm.filter _).trans (List.Perm.of_eq ?_)
  rw [List.filter_flatMap, misfits, List.map_flatMap]
  apply List.flatMap_congr
  intro command hcommand
  cases command with
  | set => rfl
  | report finding =>
    have hcause : finding.cause.isMisfit = false := by
      have hreported := isReported_of_report h hcommand
      cases hcause : finding.cause with
      | duplicate | redeclaredArity | predicateAsValue => rfl
      | _ =>
        rw [hcause] at hreported
        cases hreported
    simp [Command.findings, hcause]
  | add rule =>
    cases hlacks : preparation.final.lacksInput rule with
    | true =>
      have hmute : Command.findings preparation.setting preparation.final (.add rule) = [] := by
        rw [Command.findings]
        exact if_pos hlacks
      rw [hmute]
      simp [hlacks]
    | false =>
      have hfindings : Command.findings preparation.setting preparation.final (.add rule) =
          (rule.effect preparation.setting preparation.final.view).findings := by
        rw [Command.findings]
        exact if_neg (Bool.eq_false_iff.mp hlacks)
      rw [hfindings]
      simp [hlacks, Rule.misfits, Function.comp_def]

end Preparation

end Attribution
