import Attribution.Proofs.Rule.Locality
/-!
# What rules find

Every rule finds fault with a node of its own and for reasons of its own.
-/
namespace Attribution
namespace Rule

open Effect

/-- The nodes that a rule can find fault with, and why. -/
inductive Accuses : Rule → NodeId → Cause → Prop
  | constructorTarget {node reference : NodeId} {name description : String} :
    Accuses (.construct node reference) node (.constructorTarget name description)
  | onlyVoidElements {node : NodeId} {components : List NodeId} :
    Accuses (.arrayLiteral node components) node .onlyVoidElements
  | voidElement {node element : NodeId} {components : List NodeId} : element ∈ components →
    Accuses (.arrayLiteral node components) element .voidElement
  | noCommonSupertype {node : NodeId} {components : List NodeId} {left right : Ty} :
    Accuses (.arrayLiteral node components) node (.noCommonSupertype left right)
  | emptyInitializer {node decl : NodeId} {expected : Ty} :
    Accuses (.emptyInitializer node decl) node (.emptyArray expected)
  | emptyArgument {node function argument : NodeId} {expected : Ty} :
    Accuses (.emptyArgument node function argument) node (.emptyArray expected)
  | fieldOfArray {node stem : NodeId} {field : String} :
    Accuses (.fieldAccess node stem field) node (.fieldOfArray field)
  | missingField {node stem : NodeId} {field struct : String} :
    Accuses (.fieldAccess node stem field) node (.missingField field struct)
  | fieldOfOther {node stem : NodeId} {field : String} {found : Ty} :
    Accuses (.fieldAccess node stem field) node (.fieldOfOther found)
  | indexType {index : NodeId} {found : Ty} : Accuses (.arrayIndex index) index (.indexType found)
  | indexedType {node array : NodeId} {found : Ty} :
    Accuses (.arrayAccess node array) node (.indexedType found)
  | callTarget {node function : NodeId} {typeArgument : Option NodeId} {arguments : List NodeId}
      {found : Ty} :
    Accuses (.call node function typeArgument arguments) function (.callTarget found)
  | concatenationBody {node function : NodeId} {typeArgument : Option NodeId}
      {arguments : List NodeId} :
    Accuses (.call node function typeArgument arguments) node .concatenationBody
  | argumentCount {node function : NodeId} {typeArgument : Option NodeId} {arguments : List NodeId}
      {expected found : Nat} :
    Accuses (.call node function typeArgument arguments) node (.argumentCount expected found)
  | argument {node function argument : NodeId} {typeArgument : Option NodeId}
      {arguments : List NodeId} {position : Nat} {expected found : Ty} :
    arguments[position]? = some argument →
      Accuses (.call node function typeArgument arguments) argument
        (.argument position expected found)
  | unaryOperand {node operand : NodeId} {op : UnaryOp} {found : Ty} :
    Accuses (.unary node op operand) node (.unaryOperand op found)
  | arithmeticOperands {node left right : NodeId} {op : BinaryOp} {l r : Ty} :
    Accuses (.binary node op left right) node (.arithmeticOperands op l r)
  | comparisonOperand {node left right operand : NodeId} {op : BinaryOp} {found : Ty} :
    operand = left ∨ operand = right →
      Accuses (.binary node op left right) operand (.comparisonOperand found)
  | logicOperand {node left right operand : NodeId} {op : BinaryOp} {found : Ty} :
    operand = left ∨ operand = right →
      Accuses (.binary node op left right) operand (.logicOperand found)
  | incomparable {node left right : NodeId} {op : BinaryOp} {l r : Ty} :
    Accuses (.binary node op left right) node (.incomparable l r)
  | assignment {node left right : NodeId} {l r : Ty} :
    Accuses (.assignment node left right) node (.assignment l r)
  | assignmentTarget {node left right : NodeId} :
    Accuses (.assignment node left right) left .assignmentTarget
  | initializer {name : String} {type value : NodeId} {expected found : Ty} :
    Accuses (.initializer name type value) value (.initializer name expected found)
  | missingReturn {function body returnType : NodeId} {name : String} :
    Accuses (.missingReturn function body returnType) function (.missingReturn name)
  | control {place : Control} {node : NodeId} {found : Ty} :
    Accuses (.control place node) node (.control place found)
  | returnWithoutValue {node returnType : NodeId} {expected : Ty} :
    Accuses (.returnStatement node returnType none) node (.returnWithoutValue expected)
  | returnWithValue {node returnType expression : NodeId} :
    Accuses (.returnStatement node returnType (some expression)) node .returnWithValue
  | returnType {node returnType expression : NodeId} {expected found : Ty} :
    Accuses (.returnStatement node returnType (some expression)) expression
      (.returnType expected found)
  | nonTerm {term : NodeId} {found : Ty} : Accuses (.termType term) term (.nonTerm found)
  | atomArity {atom : NodeId} {scope : ScopeId} {name : String} {expected found : Nat} :
    Accuses (.atomArity atom scope) atom (.atomArity name expected found)
  | templateParameter {function template : NodeId} {expected found : String} :
    Accuses (.templateParameterName function template) function
      (.templateParameter expected found)
  | unresolvedReference {node : NodeId} {name : String} {scope : ScopeId} :
    Accuses (.resolveReference node name scope) node (.unresolved name)
  | usedBeforeDeclaration {node : NodeId} {name : String} {scope : ScopeId} :
    Accuses (.resolveReference node name scope) node (.usedBeforeDeclaration name)
  | predicateAsValue {node : NodeId} {name : String} {scope : ScopeId} :
    Accuses (.resolveReference node name scope) node (.predicateAsValue name)
  | unresolvedType {node : NodeId} {name : String} {scope : ScopeId} :
    Accuses (.resolveType node name scope) node (.unresolved name)
  | notAType {node : NodeId} {name description : String} {scope : ScopeId} :
    Accuses (.resolveType node name scope) node (.notAType name description)

/-- The rule can find fault with whatever is found. -/
def AccusesAll (rule : Rule) (findings : List Finding) : Prop :=
  ∀ finding ∈ findings, rule.Accuses finding.node finding.cause

variable {rule : Rule} {node : NodeId} {cause : Cause}

theorem accusesAll_nil (rule : Rule) : rule.AccusesAll [] := fun _ h => nomatch h

theorem Accuses.single (h : rule.Accuses node cause) : rule.AccusesAll [{ node, cause }] := by
  intro finding hfinding
  cases List.mem_singleton.mp hfinding
  exact h

theorem AccusesAll.append {first second : List Finding} (h : rule.AccusesAll first)
    (h' : rule.AccusesAll second) : rule.AccusesAll (first ++ second) := by
  intro finding hfinding
  exact (List.mem_append.mp hfinding).elim (h finding) (h' finding)

theorem Accuses.findingIf (h : rule.Accuses node cause) (amiss : Bool) :
    rule.AccusesAll (findingIf amiss node cause) := by
  cases amiss with
  | false => exact accusesAll_nil rule
  | true => exact h.single

theorem Accuses.findIf (h : rule.Accuses node cause) (amiss : Bool) :
    rule.AccusesAll (findIf amiss node cause : Effect Rule).findings := by
  cases amiss with
  | false => exact accusesAll_nil rule
  | true => exact h.single

theorem findings_copy (value : Option Value) : (copy value : Effect Rule).findings = [] := by
  cases value <;> rfl

theorem accuses_joinElements {components : List NodeId} (joined : Option Ty)
    (elements : List (NodeId × Ty)) (h : ∀ element ∈ elements, element.1 ∈ components) :
    (arrayLiteral node components).AccusesAll (joinElements node joined elements).findings := by
  fun_induction joinElements node joined elements with
  | case1 => exact Accuses.onlyVoidElements.single
  | case2 => exact accusesAll_nil _
  | case3 joined element type rest _ others ih =>
    have hrest := ih fun other hother => h other (List.mem_cons_of_mem _ hother)
    exact (Accuses.voidElement (h _ List.mem_cons_self)).single.append hrest
  | case4 element type rest _ ih =>
    exact ih fun other hother => h other (List.mem_cons_of_mem _ hother)
  | case5 element type rest _ current common _ ih =>
    exact ih fun other hother => h other (List.mem_cons_of_mem _ hother)
  | case6 => exact Accuses.noCommonSupertype.single

theorem accuses_emptyArrayEffect {expected : Ty}
    (h : rule.Accuses node (.emptyArray expected)) :
    rule.AccusesAll (emptyArrayEffect node expected).findings := by
  unfold emptyArrayEffect
  split
  · exact accusesAll_nil rule
  · exact h.single

theorem accuses_argumentFindings {function : NodeId} {typeArgument : Option NodeId}
    {all : List NodeId} (place : Nat) (params arguments : List Ty) (nodes : List NodeId)
    (h : ∀ i argument, nodes[i]? = some argument → all[place + i]? = some argument) :
    (call node function typeArgument all).AccusesAll
      (argumentFindings place params arguments nodes) := by
  fun_induction argumentFindings place params arguments nodes with
  | case1 place param params argument arguments argumentNode nodes ih =>
    refine AccusesAll.append (Accuses.findingIf (.argument (h 0 _ rfl)) _) (ih ?_)
    intro i other hother
    rw [Nat.add_right_comm]
    exact h (i + 1) other hother
  | case2 => exact accusesAll_nil _

theorem mem_argumentFindings (position : Nat) {place : Nat} {params arguments : List Ty}
    {nodes : List NodeId} {param found : Ty} {argument : NodeId}
    (hparam : params[place]? = some param) (hfound : arguments[place]? = some found)
    (hargument : nodes[place]? = some argument) (hmisfit : found.assignable param = false) :
    { node := argument, cause := .argument (position + place) param found } ∈
      argumentFindings position params arguments nodes := by
  fun_induction argumentFindings position params arguments nodes generalizing place with
  | case1 position first params other arguments node nodes ih =>
    cases place with
    | zero =>
      cases hparam
      cases hfound
      cases hargument
      simp [findingIf, hmisfit]
    | succ place =>
      rw [Nat.add_comm place 1, ← Nat.add_assoc]
      exact List.mem_append_right _ (ih hparam hfound hargument)
  | case2 params position arguments nodes hnone =>
    cases params with
    | nil => cases hparam
    | cons =>
      cases arguments with
      | nil => cases hfound
      | cons =>
        cases nodes with
        | nil => cases hargument
        | cons => exact absurd rfl (hnone _ _ _ _ _ _ rfl rfl)

theorem accuses_callEffect (setting : Setting) (node function : NodeId)
    (typeArgument : Option NodeId) (nodes : List NodeId) (callee : Ty) (explicit : Option Ty)
    (arguments : List Ty) : (call node function typeArgument nodes).AccusesAll
      (callEffect setting node function nodes callee explicit arguments).findings := by
  have hshape : ∀ binding, (call node function typeArgument nodes).AccusesAll
      (concatenationFindings setting node binding) := by
    intro binding
    cases binding with
    | none => exact accusesAll_nil _
    | some binding => exact Accuses.concatenationBody.findingIf _
  cases callee with
  | function params result =>
    simp only [callEffect]
    split
    · refine ((hshape _).append (Accuses.argumentCount.findingIf _)).append ?_
      apply accuses_argumentFindings
      intro i argument hargument
      rwa [Nat.zero_add]
    · exact hshape _
  | _ => exact Accuses.callTarget.single

theorem accuses_binaryEffect (setting : Setting) (node : NodeId) (op : BinaryOp)
    (left right : NodeId) (l r : Ty) : (binary node op left right).AccusesAll
      (binaryEffect setting node op left right l r).findings := by
  unfold binaryEffect
  split
  · exact accusesAll_nil _
  · split
    · split
      · exact accusesAll_nil _
      · exact Accuses.arithmeticOperands.single
    · exact ((Accuses.comparisonOperand (.inl rfl)).findingIf _).append
        ((Accuses.comparisonOperand (.inr rfl)).findingIf _)
    · exact ((Accuses.logicOperand (.inl rfl)).findingIf _).append
        ((Accuses.logicOperand (.inr rfl)).findingIf _)
    · exact Accuses.incomparable.findingIf _

theorem accuses_constructEffect (setting : Setting) (node reference : NodeId) (entity : Entity) :
    (construct node reference).AccusesAll
      (constructEffect setting node reference entity).findings := by
  unfold constructEffect
  split
  · exact accusesAll_nil _
  · exact Accuses.constructorTarget.single

theorem accuses_fieldAccessEffect (setting : Setting) (node stem : NodeId) (field : String)
    (type : Ty) : (fieldAccess node stem field).AccusesAll
      (fieldAccessEffect setting node field type).findings := by
  unfold fieldAccessEffect
  split
  · split
    · exact accusesAll_nil _
    · exact Accuses.fieldOfArray.single
  · split
    · split
      · exact accusesAll_nil _
      · exact Accuses.missingField.single
    · exact accusesAll_nil _
  · exact Accuses.fieldOfOther.single

theorem accuses_atomArityEffect (setting : Setting) (atom : NodeId) (scope : ScopeId) :
    (atomArity atom scope).AccusesAll (atomArityEffect setting atom scope).findings := by
  unfold atomArityEffect
  split
  · exact accusesAll_nil _
  · split
    · exact accusesAll_nil _
    · split
      · exact accusesAll_nil _
      · exact Accuses.atomArity.findIf _

theorem accuses_resolveReferenceEffect (setting : Setting) (node : NodeId) (name : String)
    (scope : ScopeId) : (resolveReference node name scope).AccusesAll
      (resolveReferenceEffect setting node name scope).findings := by
  unfold resolveReferenceEffect referenceEffect
  split
  · exact Accuses.unresolvedReference.single
  · split
    · exact Accuses.usedBeforeDeclaration.single
    · split
      · exact Accuses.predicateAsValue.single
      · exact accusesAll_nil _

theorem accuses_resolveTypeEffect (setting : Setting) (node : NodeId) (name : String)
    (scope : ScopeId) : (resolveType node name scope).AccusesAll
      (resolveTypeEffect setting node name scope).findings := by
  unfold resolveTypeEffect
  split
  · exact Accuses.unresolvedType.single
  · split
    · exact accusesAll_nil _
    · exact Accuses.notAType.single

/-- Whatever a rule finds is among what it can find. -/
theorem accuses_effect (setting : Setting) (rule : Rule) (view : View) :
    rule.AccusesAll (effect setting rule view).findings := by
  cases rule with
  | referenceType | typeValue | fieldType | parenthesized | declaredType =>
    simp only [effect, findings_copy]
    exact accusesAll_nil _
  | structType | structDeclared | templateType | templateDeclared | returnReturns | blockReturns
  | ifReturns => exact accusesAll_nil _
  | constructorType | arrayType | functionType =>
    simp only [effect]
    split <;> exact accusesAll_nil _
  | construct node reference =>
    simp only [effect]
    split
    · exact accuses_constructEffect _ _ _ _
    · exact accusesAll_nil _
  | arrayLiteral node components =>
    apply accuses_joinElements
    intro element helement
    obtain ⟨id, hid, hfound⟩ := List.mem_filterMap.mp helement
    obtain ⟨type, _, rfl⟩ := Option.map_eq_some_iff.mp hfound
    exact hid
  | emptyInitializer node decl =>
    simp only [effect]
    split
    · exact accuses_emptyArrayEffect .emptyInitializer
    · exact accusesAll_nil _
  | emptyArgument node function argument =>
    simp only [effect]
    split
    · split
      · exact accuses_emptyArrayEffect .emptyArgument
      · exact accusesAll_nil _
    · exact accusesAll_nil _
  | fieldAccess node stem field =>
    simp only [effect]
    split
    · exact accuses_fieldAccessEffect _ _ _ _ _
    · exact accusesAll_nil _
  | arrayIndex index =>
    simp only [effect]
    split
    · exact Accuses.indexType.findIf _
    · exact accusesAll_nil _
  | arrayAccess node array =>
    simp only [effect]
    split
    · exact accusesAll_nil _
    · exact Accuses.indexedType.single
    · exact accusesAll_nil _
  | call node function typeArgument arguments =>
    simp only [effect]
    split
    · exact accuses_callEffect _ _ _ _ _ _ _ _
    · exact accusesAll_nil _
  | unary node op operand =>
    simp only [effect]
    split
    · exact Accuses.unaryOperand.findingIf _
    · exact accusesAll_nil _
  | binary node op left right =>
    simp only [effect]
    split
    · exact accuses_binaryEffect _ _ _ _ _ _ _
    · exact accusesAll_nil _
  | assignment node left right =>
    simp only [effect]
    split
    · simp only [assignmentEffect, finding]
      split
      · exact Accuses.assignment.findingIf _
      · exact Accuses.assignmentTarget.single
    · exact accusesAll_nil _
  | initializer name type value =>
    simp only [effect]
    split
    · exact Accuses.initializer.findIf _
    · exact accusesAll_nil _
  | missingReturn function body returnType =>
    simp only [effect]
    split
    · exact Accuses.missingReturn.findIf _
    · exact accusesAll_nil _
  | control place node =>
    simp only [effect]
    split
    · exact Accuses.control.findIf _
    · exact accusesAll_nil _
  | returnStatement node returnType expression =>
    cases expression <;> simp only [effect] <;> split
    · exact Accuses.returnWithoutValue.findIf _
    · exact accusesAll_nil _
    · split
      · exact Accuses.returnWithValue.single
      · exact Accuses.returnType.findIf _
    · exact accusesAll_nil _
  | termType term =>
    simp only [effect]
    split
    · exact Accuses.nonTerm.findIf _
    · exact accusesAll_nil _
  | atomArity atom scope => exact accuses_atomArityEffect _ _ _
  | templateParameterName function template =>
    simp only [effect]
    split
    · exact Accuses.templateParameter.findIf _
    · exact accusesAll_nil _
  | resolveReference node name scope => exact accuses_resolveReferenceEffect _ _ _ _
  | resolveType node name scope => exact accuses_resolveTypeEffect _ _ _ _

theorem findings_of_spawned {setting : Setting} {rule next : Rule} {view : View}
    (h : next ∈ (effect setting rule view).spawned) (setting' : Setting) (view' : View) :
    (effect setting' next view').findings = [] := by
  have hnone : ∀ node cause, ¬ next.Accuses node cause := by
    intro node cause haccuses
    cases spawns_of_mem h <;> cases haccuses
  rw [List.eq_nil_iff_forall_not_mem]
  intro finding hfinding
  exact hnone _ _ (accuses_effect setting' next view' finding hfinding)

end Rule
end Attribution
