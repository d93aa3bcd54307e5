import Attribution.Traversal
import Attribution.Engine.Basic
/-!
# Binding names

The actions of a walk, carried out one by one, build the scopes and issue the commands for the
engine. A name is bound to what it stands for at this point of the walk; if it stands for nothing
yet, that is put off until all scopes are complete.
-/
namespace Attribution

/-- What becomes of a second declaration of a name in one scope. -/
inductive DuplicatePolicy where
  /-- It is found fault with, and the first one stays. -/
  | report
  /-- It takes the place of the first one. -/
  | lastWins
deriving DecidableEq, Repr

/-- How far the binding of names has come. -/
structure Binder where
  scopes : ScopeTree
  /-- The scopes that the walk is in, innermost first. -/
  stack : List ScopeId := []
  /-- What names stand for that were bound on the way, the last one first. -/
  resolved : List (NodeId × Entity) := []
  /-- The scopes from which the other names are to be looked up, the last one first. -/
  deferred : List (NodeId × ScopeId) := []
deriving Repr

namespace Binder

/-- The scope of the built-ins, which every walk starts in. -/
def outermost : ScopeId := 0

def start (root : NodeId) : Binder := { scopes := ({} : ScopeTree).pushOutermost root }

def current (binder : Binder) : ScopeId := binder.stack.headD outermost

def owner? (binder : Binder) (scope : ScopeId) : Option NodeId :=
  (binder.scopes.scope? scope).map Scope.owner

/-- The innermost function that owns one of the scopes that the walk is in. -/
def enclosingFunction? (binder : Binder) (tree : Tree) : Option NodeId :=
  (binder.stack.filterMap binder.owner?).find? fun id => tree.satisfies id Node.isFunction

/-- A predicate may be declared again, but only with as many terms. -/
def redeclared (tree : Tree) (name : String) (existing : Entity) (decl : NodeId) :
    List (Command Rule) :=
  match existing.node?.bind tree.predicateArity?, tree.predicateArity? decl with
  | some expected, some found =>
    if expected = found then []
    else [.report { node := decl, cause := .redeclaredArity name expected found }]
  | _, _ => []

def declare (binder : Binder) (tree : Tree) (policy : DuplicatePolicy) (name : String)
    (decl : NodeId) : Binder × List (Command Rule) :=
  match binder.scopes.declare binder.current name (.node decl) with
  | .ok scopes => ({ binder with scopes }, [])
  | .error existing =>
    if existing.isPredicate tree && (Entity.node decl).isPredicate tree then
      (binder, redeclared tree name existing decl)
    else
      match policy with
      | .report => (binder, [.report { node := decl, cause := .duplicate name }])
      | .lastWins =>
        ({ binder with scopes := binder.scopes.put binder.current name (.node decl) }, [])

/-- A name that stands for something gets its entity, its scope, and its type unless it is the
name of a predicate. -/
def bound (tree : Tree) (node : NodeId) (name : String) (entity : Entity) (home : ScopeId) :
    List (Command Rule) :=
  [.set (.decl node) (.decl entity), .set (.scope node) (.scope home),
    if entity.isPredicate tree then .report { node, cause := .predicateAsValue name }
    else .add (.referenceType node entity)]

def useName (binder : Binder) (tree : Tree) (node : NodeId) (name : String) :
    Binder × List (Command Rule) :=
  match binder.scopes.lookup? binder.current name with
  | some (entity, home) =>
    ({ binder with resolved := (node, entity) :: binder.resolved },
      bound tree node name entity home)
  | none =>
    ({ binder with deferred := (node, binder.current) :: binder.deferred },
      [.add (.resolveReference node name binder.current)])

/-- A return statement is held against the result type of the enclosing function, if any. -/
def exits (binder : Binder) (tree : Tree) (node : NodeId) (expression : Option NodeId) :
    List (Command Rule) :=
  match (binder.enclosingFunction? tree).bind tree.node? with
  | some (.funDecl _ _ _ returnType _) => [.add (.returnStatement node returnType expression)]
  | _ => []

def act (tree : Tree) (policy : DuplicatePolicy) (binder : Binder) :
    Action → Binder × List (Command Rule)
  | .enterRoot node =>
    ({ binder with stack := outermost :: binder.stack }, [.set (.scope node) (.scope outermost)])
  | .enter node =>
    let id := binder.scopes.size
    ({ binder with
        scopes := binder.scopes.push (some binder.current) node
        stack := id :: binder.stack },
      [.set (.scope node) (.scope id)])
  | .leave => ({ binder with stack := binder.stack.tail }, [])
  | .declare name decl => binder.declare tree policy name decl
  | .locate decl => (binder, [.set (.scope decl) (.scope binder.current)])
  | .useName node name => binder.useName tree node name
  | .useType node name =>
    ({ binder with deferred := (node, binder.current) :: binder.deferred },
      [.add (.resolveType node name binder.current)])
  | .placeholder node name =>
    (binder, [.add (.templateType node),
      .add (.templateDeclared node ((binder.owner? binder.current).getD tree.root) name)])
  | .atom node => (binder, [.add (.atomArity node binder.current)])
  | .exit node expression => (binder, binder.exits tree node expression)
  | .write cell value => (binder, [.set cell value])
  | .add rule => (binder, [.add rule])

def actAll (tree : Tree) (policy : DuplicatePolicy) :
    Binder → List Action → Binder × List (Command Rule)
  | binder, [] => (binder, [])
  | binder, action :: rest =>
    let (next, now) := binder.act tree policy action
    let (last, later) := actAll tree policy next rest
    (last, now ++ later)

/-- What the name in a node stands for once all scopes are complete. -/
def entity? (binder : Binder) (tree : Tree) (node : NodeId) : Option Entity :=
  match binder.resolved.lookup node with
  | some entity => some entity
  | none =>
    match binder.deferred.lookup node, tree.node? node with
    | some scope, some (.reference name) | some scope, some (.simpleType name) =>
      (binder.scopes.lookup? scope name).map Prod.fst
    | _, _ => none

end Binder

end Attribution
