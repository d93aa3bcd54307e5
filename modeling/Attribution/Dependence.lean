import Attribution.Scope.Builtin
/-!
# Dependence on placeholders

Before any rule fires it is settled which nodes can have a type that mentions a placeholder: those
from which a template parameter can be reached. Steps lead from an expression to its operands,
from a use of a name to the variable, parameter or template parameter that it stands for, and from
a declaration or an array type to its type node.
-/
namespace Attribution

/-- Whether a use of a name takes a placeholder over from the node that the name stands for. -/
def Node.carriesPlaceholder : Node → Bool
  | .varDecl .. | .parameter .. | .templateParam _ => true
  | _ => false

def Node.isTemplateParam : Node → Bool
  | .templateParam _ => true
  | _ => false

namespace Tree

/-- The nodes to which one step leads. `resolve` says what the name in a node stands for. -/
def carriers (tree : Tree) (resolve : NodeId → Option Entity) (id : NodeId) :
    Except Fault (List NodeId) :=
  match tree.node? id with
  | some (.reference _) | some (.simpleType _) =>
    match (resolve id).bind Entity.node? with
    | none => .ok []
    | some decl => do
      let node ← tree.node decl
      return if node.carriesPlaceholder then [decl] else []
  | some (.parenthesized part) | some (.unary _ part) | some (.fieldAccess part _)
  | some (.arrayAccess part _) | some (.arrayType part) | some (.varDecl _ part _)
  | some (.parameter _ part) => .ok [part]
  | some (.binary _ left right) | some (.assignment left right) => .ok [left, right]
  | some (.arrayLiteral parts) => .ok parts
  | some (.call function typeArgument arguments) =>
    .ok (function :: typeArgument.toList ++ arguments)
  | _ => .ok []

end Tree

/-- A mark for each node of the arena. -/
structure Dependence where
  marks : Array Bool := #[]
deriving DecidableEq, Repr

namespace Dependence

/-- Whether the type of a node can mention a placeholder. -/
def holds (dependence : Dependence) (id : NodeId) : Bool := dependence.marks.getD id false

/-- Mark every node from which one step leads to a marked one. -/
def spread (targets : Array (List NodeId)) (marks : Array Bool) : Array Bool :=
  marks.mapIdx fun id marked =>
    marked || (targets.getD id []).any fun target => marks.getD target false

/-- Spread marks `n` times, or until nothing changes. -/
def saturate (targets : Array (List NodeId)) : Nat → Array Bool → Array Bool
  | 0, marks => marks
  | n + 1, marks =>
    let next := spread targets marks
    if next = marks then marks else saturate targets n next

/-- Mark the nodes of a tree from which a template parameter can be reached. A shortest way visits
no node twice, so it is enough to spread marks once for each node. -/
def of (tree : Tree) (resolve : NodeId → Option Entity) : Except Fault Dependence := do
  let targets ← (List.range tree.size).mapM (tree.carriers resolve)
  let sources := tree.nodes.map fun located => located.node.isTemplateParam
  return { marks := saturate targets.toArray tree.size sources }

end Dependence

end Attribution
