import Attribution.Cell
import Attribution.Finding
/-!
# Rules of the language

One constructor for each rule, with the nodes that it is about; which cells it reads and writes
follows from them.
-/
namespace Attribution

/-- What an expression that has no type of its own can take its type from. -/
inductive Expectation where
  | nothing
  | variable (decl : NodeId)
  | argument (function argument : NodeId)
deriving DecidableEq, Repr

inductive Rule where
  /-- A struct is a type. -/
  | structType (node : NodeId)
  /-- A struct introduces a type of its own. -/
  | structDeclared (node : NodeId) (name : String)
  /-- A template parameter is a type. -/
  | templateType (node : NodeId)
  /-- A template parameter introduces a placeholder. -/
  | templateDeclared (node function : NodeId) (name : String)
  /-- Control leaves through a return statement. -/
  | returnReturns (node : NodeId)
  /-- A reference has the type of what it stands for. -/
  | referenceType (node : NodeId) (entity : Entity)
  /-- A type name denotes the type that its entity introduces. -/
  | typeValue (node : NodeId) (entity : Entity)
  /-- A field access has the type of the field. -/
  | fieldType (node field : NodeId)
  | parenthesized (node expression : NodeId)
  /-- A variable, parameter or field has the type that its type node denotes. -/
  | declaredType (decl type : NodeId)
  /-- A constructor needs a struct. -/
  | construct (node reference : NodeId)
  /-- A constructor is a function from the types of the fields to the struct. -/
  | constructorType (node struct : NodeId) (fields : List NodeId)
  /-- A literal is an array of the least type that fits its elements. -/
  | arrayLiteral (node : NodeId) (components : List NodeId)
  /-- An empty literal has the type of the variable that it initializes. -/
  | emptyInitializer (node decl : NodeId)
  /-- An empty literal has the type of the parameter that it is passed for. -/
  | emptyArgument (node function argument : NodeId)
  | fieldAccess (node stem : NodeId) (field : String)
  /-- An index is an integer. -/
  | arrayIndex (index : NodeId)
  | arrayAccess (node array : NodeId)
  | call (node function : NodeId) (typeArgument : Option NodeId) (arguments : List NodeId)
  | unary (node : NodeId) (op : UnaryOp) (operand : NodeId)
  | binary (node : NodeId) (op : BinaryOp) (left right : NodeId)
  | assignment (node left right : NodeId)
  | arrayType (node component : NodeId)
  /-- An initializer fits its variable. -/
  | initializer (name : String) (type value : NodeId)
  | functionType (function : NodeId) (parameters : List NodeId) (returnType : NodeId)
  /-- Control leaves a function only through a return statement, unless it returns nothing. -/
  | missingReturn (function body returnType : NodeId)
  /-- Control leaves through a block if it leaves through one of its statements. -/
  | blockReturns (block : NodeId) (containers : List NodeId)
  /-- Control leaves through a conditional if it leaves through both branches. -/
  | ifReturns (node : NodeId) (containers : List NodeId)
  /-- A control statement gets the type that it asks for. -/
  | control (place : Control) (node : NodeId)
  /-- A returned value fits the function. -/
  | returnStatement (node returnType : NodeId) (expression : Option NodeId)
  /-- A term of a logic declaration has the type of terms. -/
  | termType (term : NodeId)
  /-- An atom has as many terms as the predicate that it names. -/
  | atomArity (atom : NodeId) (scope : ScopeId)
  /-- A template parameter has the one name that is allowed. -/
  | templateParameterName (function template : NodeId)
  /-- A reference that stood for nothing when it was met is looked up again at the end. -/
  | resolveReference (node : NodeId) (name : String) (scope : ScopeId)
  /-- A type name is looked up at the end. -/
  | resolveType (node : NodeId) (name : String) (scope : ScopeId)
deriving DecidableEq, Repr

namespace Rule

/-- The name of a rule in conflicts. -/
def label : Rule → String
  | structType _ => "struct-type"
  | structDeclared .. => "struct-declared"
  | templateType _ => "generic-type"
  | templateDeclared .. => "generic-declared"
  | returnReturns _ => "return-returns"
  | referenceType .. => "reference-type"
  | typeValue .. => "type-value"
  | fieldType .. => "field-type"
  | parenthesized .. => "parenthesized"
  | declaredType .. => "declared-type"
  | construct .. => "constructor"
  | constructorType .. => "constructor-type"
  | arrayLiteral .. => "array-literal"
  | emptyInitializer .. | emptyArgument .. => "empty-array"
  | fieldAccess .. => "field-access"
  | arrayIndex _ => "array-index"
  | arrayAccess .. => "array-access"
  | call .. => "call"
  | unary .. => "unary"
  | binary .. => "binary"
  | assignment .. => "assignment"
  | arrayType .. => "array-type"
  | initializer .. => "initializer"
  | functionType .. => "function-type"
  | missingReturn .. => "missing-return"
  | blockReturns .. => "block-returns"
  | ifReturns .. => "if-returns"
  | control .ifCondition _ => "if-condition"
  | control .whileCondition _ => "while-condition"
  | control .forInit _ => "for-init"
  | control .forCondition _ => "for-condition"
  | control .forStep _ => "for-step"
  | returnStatement .. => "return"
  | termType _ => "term-type"
  | atomArity .. => "atom-arity"
  | templateParameterName .. => "template-parameter-name"
  | resolveReference .. => "resolve-reference"
  | resolveType .. => "resolve-type"

/-- The cells that a rule waits for. -/
def inputs : Rule → List Cell
  | structType _ | structDeclared .. | templateType _ | templateDeclared .. | returnReturns _
  | atomArity .. | templateParameterName .. | resolveReference .. | resolveType .. => []
  | referenceType _ entity => [entity.type]
  | typeValue _ entity => [entity.declared]
  | fieldType _ field => [.type field]
  | parenthesized _ expression => [.type expression]
  | declaredType _ type => [.value type]
  | construct _ reference => [.decl reference]
  | constructorType _ struct fields => .declared struct :: fields.map .type
  | arrayLiteral _ components => components.map .type
  | emptyInitializer _ decl => [.type decl]
  | emptyArgument _ function argument => [.type function, .index argument]
  | fieldAccess _ stem _ => [.type stem]
  | arrayIndex index => [.type index]
  | arrayAccess _ array => [.type array]
  | call _ function typeArgument arguments =>
    .type function :: arguments.map .type ++ typeArgument.toList.map .value
  | unary _ _ operand => [.type operand]
  | binary _ _ left right | assignment _ left right => [.type left, .type right]
  | arrayType _ component => [.value component]
  | initializer _ type value => [.value type, .type value]
  | functionType _ parameters returnType => .value returnType :: parameters.map .type
  | missingReturn _ body returnType => [.returns body, .value returnType]
  | blockReturns _ containers | ifReturns _ containers => containers.map .returns
  | control _ node => [.type node]
  | returnStatement _ returnType expression =>
    .value returnType :: expression.toList.map .type
  | termType term => [.type term]

/-- The cells that a rule may write. -/
def outputs : Rule → List Cell
  | structType node | templateType node | referenceType node _ | fieldType node _
  | parenthesized node _ | declaredType node _ | constructorType node _ _ | arrayLiteral node _
  | emptyInitializer node _ | emptyArgument node _ _ | fieldAccess node _ _ | arrayAccess node _
  | call node _ _ _ | unary node _ _ | binary node _ _ _ | assignment node _ _
  | functionType node _ _ => [.type node]
  | structDeclared node _ | templateDeclared node _ _ => [.declared node]
  | typeValue node _ | arrayType node _ => [.value node]
  | returnReturns node | blockReturns node _ | ifReturns node _ => [.returns node]
  | resolveReference node _ _ | resolveType node _ _ => [.decl node, .scope node]
  | construct .. | arrayIndex _ | initializer .. | missingReturn .. | control .. | termType _
  | returnStatement .. | atomArity .. | templateParameterName .. => []

/-- A rule spawns one other at most, and that one spawns none. -/
def weight : Rule → Nat
  | construct .. | fieldAccess .. | resolveReference .. | resolveType .. => 2
  | _ => 1

end Rule

end Attribution
