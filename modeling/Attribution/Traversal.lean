import Attribution.Rule.Basic
/-!
# The walk over a tree

A tree is walked once, depth first. What the walk does at a node is a list of parts: actions of
the node itself and visits of other nodes, in order. The whole walk is the list of all actions, so
that what they do to scopes and rules is a separate matter.
-/
namespace Attribution

inductive Action where
  | enterRoot (node : NodeId)
  | enter (node : NodeId)
  | leave
  | declare (name : String) (decl : NodeId)
  /-- Note the scope that a declaration stands in. -/
  | locate (decl : NodeId)
  | useName (node : NodeId) (name : String)
  | useType (node : NodeId) (name : String)
  /-- Introduce the placeholder of a template. -/
  | placeholder (node : NodeId) (name : String)
  | atom (node : NodeId)
  /-- Return from the enclosing function. -/
  | exit (node : NodeId) (expression : Option NodeId)
  | write (cell : Cell) (value : Value)
  | add (rule : Rule)
deriving Repr

/-- A part of what the walk does at a node. -/
inductive Part where
  | act (action : Action)
  | visit (id : NodeId) (expectation : Expectation)
  /-- The node has to exist, though the walk does not go there. -/
  | need (id : NodeId)
deriving Repr

namespace Part

/-- Visit a node that can take its type from nothing else. -/
def plain (id : NodeId) : Part := visit id .nothing

def add (rule : Rule) : Part := act (.add rule)

/-- The rule of an empty array literal, if there is something to take its type from. -/
def emptyArray (id : NodeId) : Expectation → List Part
  | .nothing => []
  | .variable decl => [add (.emptyInitializer id decl)]
  | .argument function argument => [add (.emptyArgument id function argument)]

/-- The arguments of a call, each with its place. -/
def arguments (function : NodeId) : Nat → List NodeId → List Part
  | _, [] => []
  | position, id :: rest =>
    act (.write (.index id) (.index position)) :: visit id (.argument function id) ::
      arguments function (position + 1) rest

/-- A part of a control statement that has to have a type of its own. -/
def control (place : Control) (id : NodeId) : List Part := [plain id, add (.control place id)]

end Part

open Attribution.Part

namespace Tree

/-- Every term of a logic declaration has the type of terms. -/
def termParts (tree : Tree) (id : NodeId) : List Part :=
  (tree.declaredTerms id).map fun term => add (.termType term)

/-- What the walk does at a node: an expectation is only of use to an empty array literal, and
passes through parentheses. A variable is declared after its initializer and a function before
its parts, and the head of a clause declares a predicate instead of using one. -/
def parts (tree : Tree) (id : NodeId) (node : Node) (expectation : Expectation) : List Part :=
  match node with
  | .literal value => [act (.write (.type id) (.type value.type))]
  | .reference name => [act (.useName id name)]
  | .construct reference => [plain reference, add (.construct id reference)]
  | .arrayLiteral [] => emptyArray id expectation
  | .arrayLiteral components => components.map plain ++ [add (.arrayLiteral id components)]
  | .parenthesized expression =>
    [visit expression expectation, add (.parenthesized id expression)]
  | .fieldAccess stem field => [plain stem, add (.fieldAccess id stem field)]
  | .arrayAccess array index =>
    [plain array, plain index, add (.arrayIndex index), add (.arrayAccess id array)]
  | .call function typeArgument args =>
    plain function :: typeArgument.toList.map plain ++ arguments function 0 args ++
      [add (.call id function typeArgument args)]
  | .unary op operand => [plain operand, add (.unary id op operand)]
  | .binary op left right => [plain left, plain right, add (.binary id op left right)]
  | .assignment left right => [plain left, plain right, add (.assignment id left right)]
  | .simpleType name => [act (.useType id name)]
  | .arrayType component => [plain component, add (.arrayType id component)]
  | .root statements => act (.enterRoot id) :: statements.map plain ++ [act .leave]
  | .block statements =>
    act (.enter id) :: statements.map plain ++
      [add (.blockReturns id (tree.returnContainers statements)), act .leave]
  | .varDecl name type initializer =>
    [plain type, visit initializer (.variable id), act (.declare name id), act (.locate id),
      add (.declaredType id type), add (.initializer name type initializer)]
  | .fieldDecl _ type => [plain type, add (.declaredType id type)]
  | .parameter name type =>
    [plain type, act (.declare name id), act (.locate id), add (.declaredType id type)]
  | .funDecl name template parameters returnType body =>
    [act (.declare name id), act (.enter id)] ++
      template.toList.flatMap (fun t => [plain t, add (.templateParameterName id t)]) ++
      parameters.map plain ++
      [plain returnType, plain body, add (.functionType id parameters returnType),
        add (.missingReturn id body returnType), act .leave]
  | .structDecl name fields =>
    [act (.declare name id), add (.structType id), add (.structDeclared id name)] ++
      fields.map plain
  | .templateParam name => [act (.declare name id), act (.placeholder id name)]
  | .conditional condition thenBranch elseBranch =>
    let branches := thenBranch :: elseBranch.toList
    control .ifCondition condition ++ branches.map plain ++
      [add (.ifReturns id (tree.returnContainers branches))]
  | .whileLoop condition body => control .whileCondition condition ++ [plain body]
  | .forLoop init condition step body =>
    control .forInit init ++ control .forCondition condition ++ control .forStep step ++
      [plain body]
  | .returnStatement expression =>
    expression.toList.map plain ++ [add (.returnReturns id), act (.exit id expression)]
  | .expressionStatement expression => [plain expression]
  | .fact name terms => act (.declare name id) :: terms.map plain ++ tree.termParts id
  | .clause head body =>
    need head :: (match tree.atom? head with
      | some (name, terms) => act (.declare name id) :: terms.map plain
      | none => []) ++ body.map plain ++ tree.termParts id
  | .query goal => plain goal :: tree.termParts id
  | .atom _ terms => terms.map plain ++ [act (.atom id)]

/-- The actions of one part, given those of the visits. -/
def follow (tree : Tree) (visit : NodeId → Expectation → Except Fault (List Action)) :
    Part → Except Fault (List Action)
  | .act action => .ok [action]
  | .visit id expectation => visit id expectation
  | .need id => (tree.node id).map fun _ => []

/-- The actions of the walk at a node and below, which may nest `depth` nodes deep. -/
def visit (tree : Tree) : Nat → NodeId → Expectation → Except Fault (List Action)
  | 0, id, _ => .error (.cyclicNode id)
  | depth + 1, id, expectation => do
    let node ← tree.node id
    let actions ← (tree.parts id node expectation).mapM (tree.follow (tree.visit depth))
    return actions.flatten

/-- The actions of the walk over a tree. Nodes that do not contain themselves nest at most as deep
as there are nodes. -/
def walk (tree : Tree) : Except Fault (List Action) := tree.visit tree.size tree.root .nothing

end Tree

end Attribution
