import Attribution.Fault
/-!
# Trees

A program is an arena of nodes and the id of its root. Nothing is promised about ids: a node may
be shared, unreachable, or name a child that does not exist. Looking up an id is therefore an
operation that can fail, and the questions below that follow ids answer with an `Option`.
-/
namespace Attribution

/-- A node and the part of the source that it came from. -/
structure Located where
  node : Node
  span : Span := {}
deriving DecidableEq, Repr

structure Tree where
  nodes : Array Located
  root : NodeId
deriving DecidableEq, Repr

namespace Tree

def size (tree : Tree) : Nat := tree.nodes.size

def node? (tree : Tree) (id : NodeId) : Option Node := tree.nodes[id]?.map Located.node

def node (tree : Tree) (id : NodeId) : Except Fault Node :=
  match tree.node? id with
  | some node => .ok node
  | none => .error (.missingNode id)

def span (tree : Tree) (id : NodeId) : Except Fault Span :=
  match tree.nodes[id]? with
  | some located => .ok located.span
  | none => .error (.missingNode id)

/-- Whether the node exists and passes the test. -/
def satisfies (tree : Tree) (id : NodeId) (test : Node → Bool) : Bool :=
  (tree.node? id).any test

def atom? (tree : Tree) (id : NodeId) : Option (String × List NodeId) :=
  match tree.node? id with
  | some (.atom name terms) => some (name, terms)
  | _ => none

/-- The terms of an atom; any other node has none. -/
def atomTerms (tree : Tree) (id : NodeId) : List NodeId :=
  match tree.atom? id with
  | some (_, terms) => terms
  | none => []

/-- The name that a declaration introduces; a clause declares the name of its head. -/
def declaredName? (tree : Tree) (id : NodeId) : Option String :=
  match tree.node? id with
  | some (.varDecl name ..) | some (.fieldDecl name _) | some (.parameter name _)
  | some (.funDecl name ..) | some (.structDecl name _) | some (.templateParam name)
  | some (.fact name _) => some name
  | some (.clause head _) => (tree.atom? head).map Prod.fst
  | _ => none

/-- The number of terms that a fact or the head of a clause takes. -/
def predicateArity? (tree : Tree) (id : NodeId) : Option Nat :=
  match tree.node? id with
  | some (.fact _ terms) => some terms.length
  | some (.clause head _) => (tree.atom? head).map fun head => head.2.length
  | _ => none

/-- Every term of a logic declaration, in order: of a clause first those of the head. -/
def declaredTerms (tree : Tree) (id : NodeId) : List NodeId :=
  match tree.node? id with
  | some (.fact _ terms) => terms
  | some (.clause head body) => (head :: body).flatMap tree.atomTerms
  | some (.query goal) => tree.atomTerms goal
  | _ => []

/-- Whether the body of the function is a block that only returns a sum. -/
def isConcatenation (tree : Tree) (function : NodeId) : Bool :=
  match tree.node? function with
  | some (.funDecl _ _ _ _ body) =>
    match tree.node? body with
    | some (.block [statement]) =>
      match tree.node? statement with
      | some (.returnStatement (some expression)) =>
        match tree.node? expression with
        | some (.binary .add _ _) => true
        | _ => false
      | _ => false
    | _ => false
  | _ => false

/-- The statements among `ids` that carry a flag on whether control leaves through them. -/
def returnContainers (tree : Tree) (ids : List NodeId) : List NodeId :=
  ids.filter fun id => tree.satisfies id Node.isReturnContainer

end Tree

end Attribution
