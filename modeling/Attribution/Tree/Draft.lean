import Attribution.Tree.Basic
/-!
# Drafts

A tree can be built node by node. Each step adds one node, behind the smaller nodes that it needs
and that nobody passed in, and answers with the id of that node. Ids that are passed in are not
checked.
-/
namespace Attribution

structure Draft where
  nodes : Array Located := #[]
deriving DecidableEq, Repr

namespace Draft

/-- A step of building. Names of types and of callees stand for nodes of their own. -/
inductive Step where
  | node (node : Node) (span : Span)
  /-- The constructor of a struct by its name. -/
  | construct (struct : String)
  | callNamed (function : String) (arguments : List NodeId)
  | callTemplate (function typeArgument : String) (arguments : List NodeId)
  /-- An array of a type by its name. -/
  | arrayType (component : String)
  | varDecl (name type : String) (initializer : NodeId)
  | fieldDecl (name type : String)
  | parameter (name type : String)
  /-- A function with the statements of its body. Without a return type it returns nothing; with
  the name of a template parameter it is a template. -/
  | funDecl (name : String) (template : Option String) (parameters : List NodeId)
      (returnType : Option String) (statements : List NodeId)
deriving Repr

/-- Add one node and answer with its id. -/
def addAt (draft : Draft) (node : Node) (span : Span) : Draft × NodeId :=
  ({ nodes := draft.nodes.push { node, span } }, draft.nodes.size)

theorem node_addAt (draft : Draft) (node : Node) (span : Span) :
    (draft.addAt node span).1.nodes[(draft.addAt node span).2]? = some { node, span } :=
  Array.getElem?_push_size

/-- Add one node that comes from nowhere in the source. -/
def add (draft : Draft) (node : Node) : Draft × NodeId := draft.addAt node {}

/-- Add the parameter of a template, if there is one. -/
def addTemplate (draft : Draft) : Option String → Draft × Option NodeId
  | none => (draft, none)
  | some name =>
    let (draft, id) := draft.add (.templateParam name)
    (draft, some id)

/-- Carry out a step and answer with the id of the node that it is about. -/
def build (draft : Draft) : Step → Draft × NodeId
  | .node node span => draft.addAt node span
  | .construct struct =>
    let (draft, reference) := draft.add (.reference struct)
    draft.add (.construct reference)
  | .callNamed function arguments =>
    let (draft, callee) := draft.add (.reference function)
    draft.add (.call callee none arguments)
  | .callTemplate function typeArgument arguments =>
    let (draft, callee) := draft.add (.reference function)
    let (draft, type) := draft.add (.simpleType typeArgument)
    draft.add (.call callee (some type) arguments)
  | .arrayType component =>
    let (draft, type) := draft.add (.simpleType component)
    draft.add (.arrayType type)
  | .varDecl name type initializer =>
    let (draft, type) := draft.add (.simpleType type)
    draft.add (.varDecl name type initializer)
  | .fieldDecl name type =>
    let (draft, type) := draft.add (.simpleType type)
    draft.add (.fieldDecl name type)
  | .parameter name type =>
    let (draft, type) := draft.add (.simpleType type)
    draft.add (.parameter name type)
  | .funDecl name template parameters returnType statements =>
    let (draft, template) := draft.addTemplate template
    let (draft, result) := draft.add (.simpleType (returnType.getD "Void"))
    let (draft, body) := draft.add (.block statements)
    draft.add (.funDecl name template parameters result body)

def buildAll (draft : Draft) : List Step → Draft × List NodeId
  | [] => (draft, [])
  | step :: rest =>
    let (draft, id) := draft.build step
    let (draft, ids) := draft.buildAll rest
    (draft, id :: ids)

/-- Put the statements of the program under a root, the last node. -/
def finish (draft : Draft) (statements : List NodeId) : Tree :=
  let (draft, root) := draft.add (.root statements)
  { nodes := draft.nodes, root }

end Draft

end Attribution
