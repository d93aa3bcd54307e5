import Attribution.Proofs.Binding.Scopes
import Attribution.Proofs.Tree.Layers
import Attribution.Proofs.Tree.Preorder
/-!
# Scopes as the tree nests

The scopes of a walk are those of the root, the blocks and the functions, in traversal order, and
each is enclosed by the scope of the innermost such node around its own. A scope holds the names
that are declared right inside its node, and a return statement is held against the innermost
function around it.
-/
namespace Attribution

namespace Action

/-- Whether an action stays in the scopes that the walk is in. -/
def isLevel : Action → Bool
  | enterRoot _ | enter _ | leave => false
  | _ => true

def entersScope : Action → Bool
  | enterRoot _ | enter _ => true
  | _ => false

/-- Actions that leave each scope that they enter, and no other. -/
inductive Balanced : List Action → Prop
  | nil : Balanced []
  | level {action : Action} {rest : List Action} : action.isLevel → Balanced rest →
    Balanced (action :: rest)
  | scope {entry : Action} {inner rest : List Action} : entry.entersScope → Balanced inner →
    Balanced rest → Balanced (entry :: (inner ++ leave :: rest))

theorem Balanced.append {first second : List Action} (h : Balanced first)
    (h' : Balanced second) : Balanced (first ++ second) := by
  induction h with
  | nil => exact h'
  | level haction _ ih => exact .level haction ih
  | scope hentry hinner _ _ ih =>
    rw [List.cons_append, List.append_assoc, List.cons_append]
    exact .scope hentry hinner ih

end Action

open Attribution.Part

namespace Tree

variable {tree : Tree} {id : NodeId} {expectation : Expectation} {node : Node}

/-- What leaving a scope, returning and a rule for a return statement say of the node at which the
walk does so. -/
def Marks (id : NodeId) (node : Node) : Action → Prop
  | .leave => node.opensScope
  | .exit statement expression => statement = id ∧ node = .returnStatement expression
  | .add (.returnStatement ..) => False
  | _ => True

theorem marks_of_parts {action : Action} (h : .act action ∈ tree.parts id node expectation) :
    Marks id node action := by
  cases does_of_part h with
  | exit => exact ⟨rfl, rfl⟩
  | leaveRoot | leaveBlock | leaveFunction => rfl
  | _ => trivial

theorem balanced_of_parts {visit : NodeId → Expectation → Except Fault (List Action)}
    (hvisit : ∀ child lent list, visit child lent = .ok list → Action.Balanced list)
    {front back : List Part} (hfront : ∀ action, .act action ∈ front → action.isLevel)
    {lists : List (List Action)}
    (h : List.Forall₂ (fun part list => tree.follow visit part = .ok list) (front ++ back) lists) :
    ∃ inner rest, lists.flatten = inner ++ rest.flatten ∧ Action.Balanced inner ∧
      List.Forall₂ (fun part list => tree.follow visit part = .ok list) back rest := by
  induction front generalizing lists with
  | nil => exact ⟨[], lists, rfl, .nil, h⟩
  | cons part front ih =>
    obtain _ | ⟨hpart, hrest⟩ := h
    next list lists =>
      obtain ⟨inner, rest, hflatten, hbalanced, hback⟩ :=
        ih (fun action hmem => hfront action (List.mem_cons_of_mem _ hmem)) hrest
      refine ⟨list ++ inner, rest, by rw [List.flatten_cons, hflatten, List.append_assoc], ?_,
        hback⟩
      cases part with
      | act action =>
        cases hpart
        exact .level (hfront action List.mem_cons_self) hbalanced
      | visit child lent => exact (hvisit _ _ _ hpart).append hbalanced
      | need child =>
        rw [eq_nil_of_need hpart]
        exact hbalanced

theorem balanced_of_level {visit : NodeId → Expectation → Except Fault (List Action)}
    (hvisit : ∀ child lent list, visit child lent = .ok list → Action.Balanced list)
    {parts : List Part} (hparts : ∀ action, .act action ∈ parts → action.isLevel)
    {lists : List (List Action)}
    (h : List.Forall₂ (fun part list => tree.follow visit part = .ok list) parts lists) :
    Action.Balanced lists.flatten := by
  rw [← List.append_nil parts] at h
  obtain ⟨inner, rest, hflatten, hbalanced, hback⟩ := balanced_of_parts hvisit hparts h
  cases hback
  rw [hflatten, List.flatten_nil, List.append_nil]
  exact hbalanced

theorem balanced_of_scope {visit : NodeId → Expectation → Except Fault (List Action)}
    (hvisit : ∀ child lent list, visit child lent = .ok list → Action.Balanced list)
    (entry : Action) (hentry : entry.entersScope) {inside : List Part}
    (hinside : ∀ action, .act action ∈ inside → action.isLevel) {lists : List (List Action)}
    (h : List.Forall₂ (fun part list => tree.follow visit part = .ok list)
      (act entry :: (inside ++ [act .leave])) lists) : Action.Balanced lists.flatten := by
  obtain _ | ⟨hfirst, hrest⟩ := h
  next first lists =>
    cases hfirst
    obtain ⟨inner, rest, hflatten, hbalanced, hback⟩ := balanced_of_parts hvisit hinside hrest
    obtain _ | ⟨hleave, hnil⟩ := hback
    cases hleave
    cases hnil
    rw [List.flatten_cons, hflatten, List.flatten_singleton]
    exact .scope hentry hbalanced .nil

theorem balanced_of_visit {depth : Nat} {list : List Action}
    (h : tree.visit depth id expectation = .ok list) : Action.Balanced list := by
  induction depth generalizing id expectation list with
  | zero => cases h
  | succ depth ih =>
    obtain ⟨node, _, lists, hlists, rfl⟩ := visit_eq_ok_iff.mp h
    have hvisit : ∀ child lent list, tree.visit depth child lent = .ok list →
        Action.Balanced list :=
      fun _ _ _ => ih
    cases node with
    | root statements =>
      have hinside : ∀ action, .act action ∈ statements.map plain → action.isLevel := by
        simp [plain]
      exact balanced_of_scope hvisit (.enterRoot id) rfl hinside hlists
    | block statements =>
      have hinside : ∀ action, .act action ∈ statements.map plain ++
          [add (.blockReturns id (tree.returnContainers statements))] → action.isLevel := by
        simp [plain, add, Action.isLevel]
      apply balanced_of_scope hvisit (.enter id) rfl hinside
      simpa [parts] using hlists
    | funDecl name template parameters returnType body =>
      obtain _ | ⟨hdeclare, hrest⟩ := hlists
      next first rest =>
        cases hdeclare
        have hinside : ∀ action, .act action ∈
            template.toList.flatMap (fun t => [plain t, add (.templateParameterName id t)]) ++
              parameters.map plain ++ [plain returnType, plain body,
                add (.functionType id parameters returnType),
                  add (.missingReturn id body returnType)] → action.isLevel := by
          intro action haction
          simp only [plain, add, List.mem_append, List.mem_flatMap, List.mem_map, List.mem_cons,
            List.not_mem_nil, or_false, Part.act.injEq, reduceCtorEq, false_or, and_false,
            exists_false] at haction
          rcases haction with ⟨_, _, rfl⟩ | rfl | rfl <;> rfl
        apply Action.Balanced.level rfl
        apply balanced_of_scope hvisit (.enter id) rfl hinside
        simpa using hrest
    | _ =>
      apply balanced_of_level hvisit _ hlists
      intro action haction
      cases action with
      | enterRoot found => cases (eq_of_enterRoot haction).2
      | enter found => cases (eq_of_enter haction).2.1
      | leave => cases marks_of_parts haction
      | _ => rfl

end Tree

/-- The nodes that own the scopes of a tree of scopes. -/
def ScopeTree.owners (scopes : ScopeTree) : List NodeId := scopes.scopes.toList.map Scope.owner

namespace ScopeTree

end ScopeTree

namespace Binder

variable {tree : Tree} {policy : DuplicatePolicy}

/-- Balanced actions leave the binder in the scopes that it was in. -/
theorem stack_of_balanced {actions : List Action} (h : Action.Balanced actions)
    (binder : Binder) : (binder.actAll tree policy actions).1.stack = binder.stack := by
  induction h generalizing binder with
  | nil => rfl
  | @level action rest haction _ ih =>
    have hstack : (binder.act tree policy action).1.stack = binder.stack := by
      cases action with
      | enterRoot | enter | leave => cases haction
      | declare name decl => exact (binder.extends_declare name decl).2
      | useName node name => exact (binder.extends_useName node name).2
      | _ => rfl
    exact (ih _).trans hstack
  | @scope entry inner rest hentry _ _ ihinner ihrest =>
    have hstack : ∃ scope, (binder.act tree policy entry).1.stack = scope :: binder.stack := by
      cases entry with
      | enterRoot node => exact ⟨outermost, rfl⟩
      | enter node => exact ⟨binder.scopes.size, rfl⟩
      | _ => cases hentry
    obtain ⟨scope, hscope⟩ := hstack
    change ((binder.act tree policy entry).1.actAll tree policy (inner ++ .leave :: rest)).1.stack =
      binder.stack
    rw [actAll_append]
    refine (ihrest _).trans ?_
    change ((binder.act tree policy entry).1.actAll tree policy inner).1.stack.tail = binder.stack
    rw [ihinner, hscope, List.tail_cons]

theorem Nests.enclosingFunction? {binder : Binder} {openers : List NodeId}
    (h : binder.Nests tree openers) : binder.enclosingFunction? tree =
      openers.find? fun id => tree.satisfies id Node.isFunction := by
  have howners : ∀ {openers : List NodeId} {stack : List ScopeId},
      List.Forall₂ (fun opener scope => binder.owner? scope = some opener) openers stack →
        stack.filterMap binder.owner? = openers := by
    intro openers stack hall
    induction hall with
    | nil => rfl
    | cons howner _ ih => rw [List.filterMap_cons_some howner, ih]
  rw [Binder.enclosingFunction?, howners h.owners]

end Binder

namespace Preparation

open Binder

variable {config : Config} {tree : Tree} {preparation : Preparation}

namespace Scoped

variable {actions before after : List Action}

end Scoped

end Preparation

/-- A function that returns from a block within its body. -/
def Tree.inward : Tree where
  nodes := #[
    { node := .root [1] },
    { node := .funDecl "f" none [2] 4 5 },
    { node := .parameter "x" 3 },
    { node := .simpleType "Int" },
    { node := .simpleType "Int" },
    { node := .block [6] },
    { node := .block [7] },
    { node := .returnStatement (some 8) },
    { node := .reference "x" }]
  root := 0

end Attribution
