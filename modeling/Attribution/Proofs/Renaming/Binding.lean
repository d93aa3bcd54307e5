import Attribution.Proofs.Engine.Embedding
import Attribution.Proofs.Renaming.Walk
import Attribution.Binding
/-!
# Binding renamed names

Scopes hold the renamed names in the same places, so that every name is found where it was. The
walk over a renamed tree therefore builds the renamed scopes, and its commands to the engine differ
in names and in the wording of findings only.
-/
namespace Attribution

variable {f : Renaming}

namespace Scope

def rename (f : Renaming) (scope : Scope) : Scope :=
  { scope with names := scope.names.map fun (name, entity) => (f name, entity) }

theorem find?_rename (scope : Scope) (name : String) :
    (scope.rename f).find? (f name) = scope.find? name := by
  obtain ⟨parent, owner, names⟩ := scope
  change (names.map fun (name, entity) => (f name, entity)).lookup (f name) = names.lookup name
  induction names with
  | nil => rfl
  | cons entry rest ih =>
    obtain ⟨held, entity⟩ := entry
    rw [List.map_cons, List.lookup_cons, List.lookup_cons, ih, f.beq_eq]

theorem assign_rename (name : String) (entity : Entity) (names : List (String × Entity)) :
    assign (f name) entity (names.map fun (name, entity) => (f name, entity)) =
      (assign name entity names).map fun (name, entity) => (f name, entity) := by
  induction names with
  | nil => rfl
  | cons entry rest ih =>
    obtain ⟨held, old⟩ := entry
    rw [List.map_cons, assign, assign, ih]
    by_cases h : held = name <;> simp [h]

theorem put_rename (scope : Scope) (name : String) (entity : Entity) :
    (scope.rename f).put (f name) entity = (scope.put name entity).rename f := by
  simp only [put, rename, assign_rename]

end Scope

namespace ScopeTree

variable (tree : ScopeTree)

def rename (f : Renaming) (tree : ScopeTree) : ScopeTree :=
  { scopes := tree.scopes.map (Scope.rename f) }

theorem size_rename : (tree.rename f).size = tree.size := Array.size_map

theorem scope?_rename (id : ScopeId) :
    (tree.rename f).scope? id = (tree.scope? id).map (Scope.rename f) := Array.getElem?_map

theorem push_rename (parent : Option ScopeId) (owner : NodeId) :
    (tree.rename f).push parent owner = (tree.push parent owner).rename f := by
  simp only [push, rename, Array.map_push]
  rfl

theorem pushOutermost_rename (owner : NodeId) :
    (tree.rename f).pushOutermost owner = (tree.pushOutermost owner).rename f := by
  simp only [pushOutermost, rename, Array.map_push, Scope.rename, List.map_map, Function.comp_def,
    f.builtin]

theorem held?_rename (id : ScopeId) (name : String) :
    (tree.rename f).held? id (f name) = tree.held? id name := by
  rw [held?, held?, scope?_rename]
  cases tree.scope? id with
  | none => rfl
  | some scope => exact scope.find?_rename name

theorem put_rename (id : ScopeId) (name : String) (entity : Entity) :
    (tree.rename f).put id (f name) entity = (tree.put id name entity).rename f := by
  simp only [put, rename, mk.injEq]
  apply Array.ext_getElem?
  intro place
  simp only [Array.getElem?_modify, Array.getElem?_map, Option.map_map]
  split
  · cases tree.scopes[place]? with
    | none => rfl
    | some scope => exact congrArg some (scope.put_rename name entity)
  · rfl

theorem declare_rename (id : ScopeId) (name : String) (entity : Entity) :
    (tree.rename f).declare id (f name) entity = (tree.declare id name entity).map (rename f) := by
  rw [declare, declare, held?_rename]
  cases tree.held? id name with
  | none => exact congrArg Except.ok (tree.put_rename id name entity)
  | some existing => rfl

theorem pathWithin_rename (n : Nat) (id : ScopeId) :
    (tree.rename f).pathWithin n id = tree.pathWithin n id := by
  induction n generalizing id with
  | zero => rfl
  | succ n ih =>
    rw [pathWithin, pathWithin, scope?_rename]
    cases tree.scope? id with
    | none => rfl
    | some scope =>
      obtain ⟨parent, owner, names⟩ := scope
      cases parent with
      | none => rfl
      | some parent => simp only [Option.map_some, Scope.rename, ih]

theorem lookup?_rename (id : ScopeId) (name : String) :
    (tree.rename f).lookup? id (f name) = tree.lookup? id name := by
  rw [lookup?, lookup?, path, path, size_rename, pathWithin_rename, firstHolding?, firstHolding?]
  simp only [held?_rename]

end ScopeTree

theorem Entity.isPredicate_rename (tree : Tree) (entity : Entity) :
    entity.isPredicate (tree.rename f) = entity.isPredicate tree := by
  cases entity with
  | node id => exact tree.satisfies_rename id fun node => by cases node <;> rfl
  | builtin b => rfl

/-- Nothing but names and wording changes. -/
def Renaming.correspondence (f : Renaming) : Correspondence Rule where
  shared _ := true
  value _ value image := image = value.rename f
  rule rule image := image = rule.rename f
  finding finding image := image.node = finding.node ∧ image.kind = finding.kind
  counts _ := true
  foreign _ := False

namespace Binder

def rename (f : Renaming) (binder : Binder) : Binder :=
  { binder with scopes := binder.scopes.rename f }

/-- What comes of an action, and of the renamed action. -/
structure Renames (f : Renaming) (result image : Binder × List (Command Rule)) : Prop where
  binder : image.1 = result.1.rename f
  commands : List.Forall₂ f.correspondence.Commands result.2 image.2

variable (tree : Tree) (policy : DuplicatePolicy) (binder : Binder)

theorem owner?_rename (scope : ScopeId) : (binder.rename f).owner? scope = binder.owner? scope := by
  simp only [owner?, rename, ScopeTree.scope?_rename, Option.map_map]
  rfl

theorem enclosingFunction?_rename :
    (binder.rename f).enclosingFunction? (tree.rename f) = binder.enclosingFunction? tree := by
  have hfunction : ∀ id, (tree.rename f).satisfies id Node.isFunction =
      tree.satisfies id Node.isFunction :=
    fun id => tree.satisfies_rename id fun node => by cases node <;> rfl
  rw [enclosingFunction?, enclosingFunction?, funext binder.owner?_rename, funext hfunction]
  rfl

theorem redeclared_rename (name : String) (existing : Entity) (decl : NodeId) :
    List.Forall₂ f.correspondence.Commands (redeclared tree name existing decl)
      (redeclared (tree.rename f) (f name) existing decl) := by
  rw [redeclared, redeclared, funext tree.predicateArity?_rename]
  split
  · split
    · exact .nil
    · exact .cons ⟨⟨rfl, rfl⟩, rfl⟩ .nil
  · exact .nil

theorem declare_rename (name : String) (decl : NodeId) :
    Renames f (binder.declare tree policy name decl)
      ((binder.rename f).declare (tree.rename f) policy (f name) decl) := by
  unfold declare
  have hcurrent : (binder.rename f).current = binder.current := rfl
  have hdeclare : (binder.rename f).scopes.declare binder.current (f name) (.node decl) =
      (binder.scopes.declare binder.current name (.node decl)).map (ScopeTree.rename f) :=
    binder.scopes.declare_rename _ _ _
  rw [hcurrent, hdeclare]
  cases binder.scopes.declare binder.current name (.node decl) with
  | ok scopes => exact ⟨rfl, .nil⟩
  | error existing =>
    simp only [Except.map, Entity.isPredicate_rename]
    split
    · exact ⟨rfl, redeclared_rename tree name existing decl⟩
    · cases policy with
      | report => exact ⟨rfl, .cons ⟨⟨rfl, rfl⟩, rfl⟩ .nil⟩
      | lastWins =>
        refine ⟨?_, .nil⟩
        exact congrArg (fun scopes => ({ binder with scopes } : Binder))
          (binder.scopes.put_rename _ _ _)

theorem useName_rename (node : NodeId) (name : String) :
    Renames f (binder.useName tree node name)
      ((binder.rename f).useName (tree.rename f) node (f name)) := by
  unfold useName
  have hcurrent : (binder.rename f).current = binder.current := rfl
  have hlookup : (binder.rename f).scopes.lookup? binder.current (f name) =
      binder.scopes.lookup? binder.current name := binder.scopes.lookup?_rename _ _
  rw [hcurrent, hlookup]
  cases binder.scopes.lookup? binder.current name with
  | none => exact ⟨rfl, .cons rfl .nil⟩
  | some found =>
    obtain ⟨entity, home⟩ := found
    refine ⟨rfl, .cons ⟨rfl, rfl, rfl⟩ (.cons ⟨rfl, rfl, rfl⟩ (.cons ?_ .nil))⟩
    rw [Entity.isPredicate_rename]
    split
    · exact ⟨⟨rfl, rfl⟩, rfl⟩
    · exact rfl

theorem exits_rename (node : NodeId) (expression : Option NodeId) :
    List.Forall₂ f.correspondence.Commands (binder.exits tree node expression)
      ((binder.rename f).exits (tree.rename f) node expression) := by
  unfold exits
  rw [enclosingFunction?_rename]
  cases binder.enclosingFunction? tree with
  | none => exact .nil
  | some function =>
    simp only [Option.bind_some, Tree.node?_rename]
    cases tree.node? function with
    | none => exact .nil
    | some node =>
      cases node with
      | funDecl => exact .cons rfl .nil
      | _ => exact .nil

theorem act_rename (action : Action) :
    Renames f (binder.act tree policy action)
      ((binder.rename f).act (tree.rename f) policy (action.rename f)) := by
  cases action with
  | enterRoot node => exact ⟨rfl, .cons ⟨rfl, rfl, rfl⟩ .nil⟩
  | enter node =>
    have hsize : (binder.rename f).scopes.size = binder.scopes.size := binder.scopes.size_rename
    refine ⟨?_, .cons ⟨rfl, rfl, ?_⟩ .nil⟩
    · simp only [Action.rename, act, hsize]
      exact congrArg (fun scopes =>
          ({ binder with scopes, stack := binder.scopes.size :: binder.stack } : Binder))
        (binder.scopes.push_rename _ _)
    · exact congrArg Value.scope hsize
  | leave => exact ⟨rfl, .nil⟩
  | declare name decl => exact declare_rename tree policy binder name decl
  | locate decl => exact ⟨rfl, .cons ⟨rfl, rfl, rfl⟩ .nil⟩
  | useName node name => exact useName_rename tree binder node name
  | useType node name => exact ⟨rfl, .cons rfl .nil⟩
  | placeholder node name =>
    refine ⟨rfl, .cons rfl (.cons ?_ .nil)⟩
    change Rule.templateDeclared node _ (f name) = Rule.templateDeclared node _ (f name)
    rw [owner?_rename]
    rfl
  | atom node => exact ⟨rfl, .cons rfl .nil⟩
  | exit node expression => exact ⟨rfl, exits_rename tree binder node expression⟩
  | write cell value => exact ⟨rfl, .cons ⟨rfl, rfl, rfl⟩ .nil⟩
  | add rule => exact ⟨rfl, .cons rfl .nil⟩

variable {policy binder}

theorem actAll_rename (actions : List Action) :
    Renames f (binder.actAll tree policy actions)
      ((binder.rename f).actAll (tree.rename f) policy (actions.map (Action.rename f))) := by
  induction actions generalizing binder with
  | nil => exact ⟨rfl, .nil⟩
  | cons action rest ih =>
    have hact := act_rename tree policy binder action (f := f)
    have hrest := @ih (binder.act tree policy action).1
    rw [← hact.binder] at hrest
    exact ⟨hrest.binder, List.rel_append hact.commands hrest.commands⟩

theorem start_rename (root : NodeId) : (start root).rename f = start root := by
  have hempty : ({} : ScopeTree).rename f = {} := by
    simp [ScopeTree.rename]
  rw [start, rename, ← ScopeTree.pushOutermost_rename, hempty]

/-- A renamed name stands for what the name stood for. -/
theorem entity?_rename (binder : Binder) (id : NodeId) :
    (binder.rename f).entity? (tree.rename f) id = binder.entity? tree id := by
  have hlookup : ∀ scope name, (binder.rename f).scopes.lookup? scope (f name) =
      binder.scopes.lookup? scope name := fun scope name => binder.scopes.lookup?_rename scope name
  have hresolved : (binder.rename f).resolved = binder.resolved := rfl
  have hdeferred : (binder.rename f).deferred = binder.deferred := rfl
  rw [entity?, entity?, hresolved, hdeferred, Tree.node?_rename]
  cases binder.resolved.lookup id with
  | some entity => rfl
  | none =>
    cases binder.deferred.lookup id with
    | none => rfl
    | some scope =>
      cases tree.node? id with
      | none => rfl
      | some node =>
        cases node with
        | reference name => exact congrArg (Option.map Prod.fst) (hlookup scope name)
        | simpleType name => exact congrArg (Option.map Prod.fst) (hlookup scope name)
        | _ => rfl

end Binder

end Attribution
