import Attribution.Rule.Basic
import Attribution.Engine.Basic
import Attribution.Dependence
import Attribution.Ty.Relation
import Attribution.Ty.Substitution
/-!
# Effects of rules

What each rule does when it fires: the values it writes, what it finds, and the rule it spawns.
-/
namespace Attribution

/-- What every rule can see. -/
structure Setting where
  tree : Tree
  placeholderName : String
  /-- The scopes as they are when all declarations have been met. -/
  scopes : ScopeTree
  dependence : Dependence

namespace Effect

variable {ρ : Type}

def nothing : Effect ρ := {}

/-- Write the first output. -/
def give (value : Value) : Effect ρ := { writes := [(0, value)] }

/-- Write a type to the first output. -/
def giveType (type : Ty) : Effect ρ := give (.type type)

def find (node : NodeId) (cause : Cause) : Effect ρ := { findings := [{ node, cause }] }

/-- Make a finding if something is amiss. -/
def findIf (amiss : Bool) (node : NodeId) (cause : Cause) : Effect ρ :=
  if amiss then find node cause else nothing

def spawn (rule : ρ) : Effect ρ := { spawned := [rule] }

/-- Make findings besides. -/
def finding (effect : Effect ρ) (findings : List Finding) : Effect ρ :=
  { effect with findings := effect.findings ++ findings }

/-- Copy a cell to the first output. -/
def copy (value : Option Value) : Effect ρ :=
  match value with
  | some value => give value
  | none => nothing

end Effect

/-- Findings about one node if something is amiss, none otherwise. -/
def findingIf (amiss : Bool) (node : NodeId) (cause : Cause) : List Finding :=
  if amiss then [{ node, cause }] else []

namespace Rule

open Effect

/-- A name that is used as a value gives its entity and scope, and its type unless it is the name
of a predicate. -/
def referenceEffect (setting : Setting) (node : NodeId) (name : String) (entity : Entity) :
    Effect Rule :=
  if entity.isPredicate setting.tree then find node (.predicateAsValue name)
  else spawn (.referenceType node entity)

/-- The element type of an array literal. A void element is found fault with and left out; the
others are joined in order, until two have no common supertype. -/
def joinElements (node : NodeId) : Option Ty → List (NodeId × Ty) → Effect Rule
  | none, [] => find node .onlyVoidElements
  | some joined, [] => giveType (.array joined)
  | joined, (element, type) :: rest =>
    if type.isVoid then
      let others := joinElements node joined rest
      { others with findings := { node := element, cause := .voidElement } :: others.findings }
    else
      match joined with
      | none => joinElements node (some type) rest
      | some current =>
        match Ty.commonSupertype current type with
        | some common => joinElements node (some common) rest
        | none => find node (.noCommonSupertype current type)

/-- An empty literal takes an array type over; no other type will do. -/
def emptyArrayEffect (node : NodeId) (expected : Ty) : Effect Rule :=
  if expected.isArray then giveType expected else find node (.emptyArray expected)

def constructEffect (setting : Setting) (node reference : NodeId) (entity : Entity) :
    Effect Rule :=
  match entity.node?.bind fun id => (setting.tree.node? id).map fun found => (id, found) with
  | some (id, .structDecl _ fields) => spawn (.constructorType node id fields)
  | _ =>
    let name := match setting.tree.node? reference with
      | some (.reference name) => name
      | _ => "?"
    find node (.constructorTarget name (entity.describe setting.tree))

def fieldAccessEffect (setting : Setting) (node : NodeId) (field : String) : Ty → Effect Rule
  | .array _ => if field = "length" then giveType .int else find node (.fieldOfArray field)
  | .struct decl name =>
    match setting.tree.node? decl with
    | some (.structDecl _ fields) =>
      match fields.find? fun id => setting.tree.declaredName? id = some field with
      | some id => spawn (.fieldType node id)
      | none => find node (.missingField field name)
    | _ => nothing
  | other => find node (.fieldOfOther other)

/-- The arguments that do not fit their parameters, up to the shorter of the two lists. -/
def argumentFindings : Nat → List Ty → List Ty → List NodeId → List Finding
  | position, param :: params, argument :: arguments, node :: nodes =>
    findingIf (!argument.assignable param) node (.argument position param argument) ++
      argumentFindings (position + 1) params arguments nodes
  | _, _, _, _ => []

/-- A template that is instantiated with strings has to return a sum and nothing else. -/
def concatenationFindings (setting : Setting) (node : NodeId) :
    Option (Placeholder × Ty) → List Finding
  | some (placeholder, concrete) =>
    findingIf (concrete.isString && !setting.tree.isConcatenation placeholder.function) node
      .concatenationBody
  | none => []

def callEffect (setting : Setting) (node function : NodeId) (nodes : List NodeId)
    (callee : Ty) (explicit : Option Ty) (arguments : List Ty) : Effect Rule :=
  match callee with
  | .function _ _ =>
    let found := instantiate callee explicit arguments
    let shape := concatenationFindings setting node found.binding
    match found.callee with
    | .function params result =>
      { writes := [(0, .type result)]
        findings := shape ++
          findingIf (params.length ≠ arguments.length) node
            (.argumentCount params.length arguments.length) ++
          argumentFindings 0 params arguments nodes }
    | _ => { findings := shape }
  | other => find function (.callTarget other)

/-- The placeholder among two operand types, the left one first. -/
def placeholderOperand (left right : Ty) : Option Ty := [left, right].find? Ty.isPlaceholder

/-- An operand that can mention a placeholder lets the operator pass unchecked, and the result is
the placeholder. -/
def bypass (setting : Setting) (left right : NodeId) (l r : Ty) : Option Ty :=
  if setting.dependence.holds left || setting.dependence.holds right then
    placeholderOperand l r
  else none

def binaryEffect (setting : Setting) (node : NodeId) (op : BinaryOp) (left right : NodeId)
    (l r : Ty) : Effect Rule :=
  match bypass setting left right l r with
  | some placeholder => giveType placeholder
  | none =>
    match op.kind with
    | .arithmetic =>
      match Ty.arithmetic op l r with
      | some result => giveType result
      | none => find node (.arithmeticOperands op l r)
    | .comparison =>
      (giveType .bool).finding <|
        findingIf (!l.isNumeric) left (.comparisonOperand l) ++
          findingIf (!r.isNumeric) right (.comparisonOperand r)
    | .logic =>
      (giveType .bool).finding <|
        findingIf (!l.isBool) left (.logicOperand l) ++
          findingIf (!r.isBool) right (.logicOperand r)
    | .equality =>
      (giveType .bool).finding <| findingIf (!l.comparable r) node (.incomparable l r)

def assignmentEffect (setting : Setting) (node left : NodeId) (l r : Ty) : Effect Rule :=
  (giveType l).finding <|
    if setting.tree.satisfies left Node.isLvalue then
      findingIf (!r.assignable l) node (.assignment l r)
    else [{ node := left, cause := .assignmentTarget }]

def atomArityEffect (setting : Setting) (atom : NodeId) (scope : ScopeId) : Effect Rule :=
  match setting.tree.atom? atom with
  | none => nothing
  | some (name, terms) =>
    match (setting.scopes.lookup? scope name).bind fun found => found.1.node? with
    | none => nothing
    | some decl =>
      match setting.tree.predicateArity? decl with
      | none => nothing
      | some expected =>
        findIf (expected ≠ terms.length) atom (.atomArity name expected terms.length)

def resolveReferenceEffect (setting : Setting) (node : NodeId) (name : String)
    (scope : ScopeId) : Effect Rule :=
  match setting.scopes.lookup? scope name with
  | none => find node (.unresolved name)
  | some (entity, home) =>
    let next := if entity.isVariable setting.tree then find node (.usedBeforeDeclaration name)
      else referenceEffect setting node name entity
    { next with writes := [(0, .decl entity), (1, .scope home)] }

def resolveTypeEffect (setting : Setting) (node : NodeId) (name : String) (scope : ScopeId) :
    Effect Rule :=
  match setting.scopes.lookup? scope name with
  | none => find node (.unresolved name)
  | some (entity, home) =>
    if entity.isType setting.tree then
      { writes := [(0, .decl entity), (1, .scope home)], spawned := [.typeValue node entity] }
    else find node (.notAType name (entity.describe setting.tree))

def effect (setting : Setting) (rule : Rule) (view : View) : Effect Rule :=
  match rule with
  | structType _ | templateType _ => giveType .metatype
  | structDeclared node name => giveType (.struct node name)
  | templateDeclared node function name => giveType (.generic { decl := node, function, name })
  | returnReturns _ => give (.flag true)
  | referenceType _ entity => copy (view entity.type)
  | typeValue _ entity => copy (view entity.declared)
  | fieldType _ field => copy (view (.type field))
  | parenthesized _ expression => copy (view (.type expression))
  | declaredType _ type => copy (view (.value type))
  | construct node reference =>
    match view.decl? reference with
    | some entity => constructEffect setting node reference entity
    | none => nothing
  | constructorType _ struct fields =>
    match view.declared? struct, fields.mapM view.type? with
    | some result, some params => giveType (.function params result)
    | _, _ => nothing
  | arrayLiteral node components =>
    joinElements node none <| components.filterMap fun id =>
      (view.type? id).map fun type => (id, type)
  | emptyInitializer node decl =>
    match view.type? decl with
    | some expected => emptyArrayEffect node expected
    | none => nothing
  | emptyArgument node function argument =>
    match view.type? function, view.index? argument with
    | some (.function params _), some index =>
      match params[index]? with
      | some expected => emptyArrayEffect node expected
      | none => nothing
    | _, _ => nothing
  | fieldAccess node stem field =>
    match view.type? stem with
    | some type => fieldAccessEffect setting node field type
    | none => nothing
  | arrayIndex index =>
    match view.type? index with
    | some type => findIf (!type.isInt) index (.indexType type)
    | none => nothing
  | arrayAccess node array =>
    match view.type? array with
    | some (.array component) => giveType component
    | some other => find node (.indexedType other)
    | none => nothing
  | call node function typeArgument arguments =>
    match view.type? function with
    | some callee =>
      callEffect setting node function arguments callee (typeArgument.bind view.value?)
        (arguments.filterMap view.type?)
    | none => nothing
  | unary node op operand =>
    match view.type? operand with
    | some type =>
      (giveType op.type).finding <| findingIf (!type.same op.type) node (.unaryOperand op type)
    | none => nothing
  | binary node op left right =>
    match view.type? left, view.type? right with
    | some l, some r => binaryEffect setting node op left right l r
    | _, _ => nothing
  | assignment node left right =>
    match view.type? left, view.type? right with
    | some l, some r => assignmentEffect setting node left l r
    | _, _ => nothing
  | arrayType _ component =>
    match view.value? component with
    | some type => giveType (.array type)
    | none => nothing
  | initializer name type value =>
    match view.value? type, view.type? value with
    | some expected, some found =>
      findIf (!found.assignable expected) value (.initializer name expected found)
    | _, _ => nothing
  | functionType _ parameters returnType =>
    match view.value? returnType, parameters.mapM view.type? with
    | some result, some params => giveType (.function params result)
    | _, _ => nothing
  | missingReturn function body returnType =>
    match view.returns? body, view.value? returnType with
    | some returns, some type =>
      findIf (!returns && !type.isVoid) function
        (.missingReturn ((setting.tree.declaredName? function).getD "?"))
    | _, _ => nothing
  | blockReturns _ containers =>
    give (.flag (containers.any fun id => view.returns? id = some true))
  | ifReturns _ containers =>
    give (.flag (containers.length = 2 && containers.all fun id => view.returns? id = some true))
  | control place node =>
    match view.type? node with
    | some type => findIf (!type.same place.type) node (.control place type)
    | none => nothing
  | returnStatement node returnType none =>
    match view.value? returnType with
    | some expected => findIf (!expected.isVoid) node (.returnWithoutValue expected)
    | none => nothing
  | returnStatement node returnType (some expression) =>
    match view.value? returnType, view.type? expression with
    | some expected, some found =>
      if expected.isVoid then find node .returnWithValue
      else findIf (!found.assignable expected) expression (.returnType expected found)
    | _, _ => nothing
  | termType term =>
    match view.type? term with
    | some type => findIf (!type.isTerm) term (.nonTerm type)
    | none => nothing
  | atomArity atom scope => atomArityEffect setting atom scope
  | templateParameterName function template =>
    match setting.tree.declaredName? template with
    | some name =>
      findIf (name ≠ setting.placeholderName) function
        (.templateParameter setting.placeholderName name)
    | none => nothing
  | resolveReference node name scope => resolveReferenceEffect setting node name scope
  | resolveType node name scope => resolveTypeEffect setting node name scope

instance : RuleFamily Rule Setting where
  label := label
  inputs := inputs
  outputs := outputs
  fire := effect
  weight := weight

end Rule

end Attribution
