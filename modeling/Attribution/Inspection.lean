import Attribution.Scope.Builtin
/-!
# Inspection

What can be said of a node by itself, before any analysis.
-/
namespace Attribution

def NodeId.display (id : NodeId) : String := "#" ++ toString id

def ScopeId.display (id : ScopeId) : String := "scope" ++ toString id

structure NodeFacts where
  span : Span
  declaredName : Option String
  isLvalue : Bool
  isReturnContainer : Bool
  predicateArity : Option Nat
  isType : Bool
  isPredicate : Bool
  description : String
  /-- The nodes of the arena that are the same construct with the same parts. -/
  equalTo : List NodeId
deriving DecidableEq, Repr

namespace Tree

def sameAs (tree : Tree) (node : Node) : List NodeId :=
  (List.range tree.size).filter fun id => tree.satisfies id node.same

/-- The nodes that have to exist for the questions about a node to have an answer: the head of a
clause says what the clause declares. -/
def consulted : Node → List NodeId
  | .clause head _ => [head]
  | _ => []

def inspect (tree : Tree) (id : NodeId) : Except Fault NodeFacts := do
  let node ← tree.node id
  let span ← tree.span id
  let _ ← (consulted node).mapM tree.node
  return {
    span
    declaredName := tree.declaredName? id
    isLvalue := node.isLvalue
    isReturnContainer := node.isReturnContainer
    predicateArity := tree.predicateArity? id
    isType := (Entity.node id).isType tree
    isPredicate := (Entity.node id).isPredicate tree
    description := (Entity.node id).describe tree
    equalTo := tree.sameAs node }

end Tree

end Attribution
