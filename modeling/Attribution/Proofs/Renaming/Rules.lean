import Attribution.Proofs.Renaming.Binding
import Attribution.Rule.Spawn
/-!
# Renaming rules

A renamed rule that sees a renamed setting and renamed values does the same: it writes the renamed
values, spawns the renamed rules, and finds the same kinds of fault with the same nodes.
-/
namespace Attribution

variable {f : Renaming}

namespace Entity

variable (tree : Tree) (entity : Entity)

theorem isType_rename : entity.isType (tree.rename f) = entity.isType tree := by
  cases entity with
  | node id => exact tree.satisfies_rename id fun node => by cases node <;> rfl
  | builtin b => rfl

theorem isVariable_rename : entity.isVariable (tree.rename f) = entity.isVariable tree := by
  cases entity with
  | node id => exact tree.satisfies_rename id fun node => by cases node <;> rfl
  | builtin b => rfl

end Entity

namespace Tree

variable (tree : Tree) (resolve : NodeId → Option Entity)

theorem carriers_rename (id : NodeId) :
    (tree.rename f).carriers resolve id = tree.carriers resolve id := by
  have hdecl : ∀ decl, ((tree.rename f).node decl >>= fun node =>
      (return if node.carriesPlaceholder then [decl] else [])) =
        (tree.node decl >>= fun node =>
          (return if node.carriesPlaceholder then [decl] else []) :
            Except Fault (List NodeId)) := by
    intro decl
    rw [node_rename]
    cases tree.node decl with
    | error fault => rfl
    | ok node => cases node <;> rfl
  rw [carriers, carriers, node?_rename]
  cases tree.node? id with
  | none => rfl
  | some node =>
    cases node with
    | reference name =>
      simp only [Option.map_some, Node.rename, hdecl]
    | simpleType name =>
      simp only [Option.map_some, Node.rename, hdecl]
    | _ => rfl

end Tree

theorem Dependence.of_rename (tree : Tree) (resolve : NodeId → Option Entity) :
    Dependence.of (tree.rename f) resolve = Dependence.of tree resolve := by
  have hsources : ((tree.rename f).nodes.map fun located => located.node.isTemplateParam) =
      tree.nodes.map fun located => located.node.isTemplateParam := by
    rw [Tree.rename, Array.map_map]
    congr 1
    funext located
    obtain ⟨node, span⟩ := located
    cases node <;> rfl
  rw [Dependence.of, Dependence.of, funext (tree.carriers_rename resolve), hsources,
    Tree.size_rename]

namespace Renaming

open Effect

variable {outputs : List Cell}

theorem effects_nothing : f.correspondence.Effects outputs nothing nothing :=
  ⟨.nil, .nil, by simp [nothing], .nil⟩

theorem effects_give (value : Value) :
    f.correspondence.Effects outputs (give value) (give (value.rename f)) :=
  ⟨.cons ⟨rfl, fun _ _ => rfl⟩ .nil, .nil, by simp [give], .nil⟩

theorem effects_giveType (type : Ty) :
    f.correspondence.Effects outputs (giveType type) (giveType (type.rename f)) :=
  effects_give (.type type)

theorem effects_find (node : NodeId) {cause cause' : Cause} (hkind : cause'.kind = cause.kind) :
    f.correspondence.Effects outputs (find node cause) (find node cause') :=
  ⟨.nil, .cons ⟨rfl, hkind⟩ .nil, fun _ _ => rfl, .nil⟩

theorem effects_findIf (amiss : Bool) (node : NodeId) {cause cause' : Cause}
    (hkind : cause'.kind = cause.kind) :
    f.correspondence.Effects outputs (findIf amiss node cause) (findIf amiss node cause') := by
  cases amiss with
  | true => exact effects_find node hkind
  | false => exact effects_nothing

theorem effects_spawn (rule : Rule) :
    f.correspondence.Effects outputs (spawn rule) (spawn (rule.rename f)) :=
  ⟨.nil, .nil, by simp [spawn], .cons rfl .nil⟩

theorem effects_copy (value : Option Value) :
    f.correspondence.Effects outputs (copy value) (copy (value.map (Value.rename f))) := by
  cases value with
  | none => exact effects_nothing
  | some value => exact effects_give value

theorem effects_finding {effect image : Effect Rule} {findings findings' : List Finding}
    (heffect : f.correspondence.Effects outputs effect image)
    (hfindings : List.Forall₂ f.correspondence.finding findings findings') :
    f.correspondence.Effects outputs (effect.finding findings) (image.finding findings') :=
  ⟨heffect.writes, List.rel_append heffect.findings hfindings, fun _ _ => rfl, heffect.spawned⟩

theorem effects_resolved {effect image : Effect Rule} (entity : Entity) (home : ScopeId)
    (heffect : f.correspondence.Effects outputs effect image) :
    f.correspondence.Effects outputs
      { effect with writes := [(0, .decl entity), (1, .scope home)] }
      { image with writes := [(0, .decl entity), (1, .scope home)] } :=
  { heffect with writes := .cons ⟨rfl, fun _ _ => rfl⟩ (.cons ⟨rfl, fun _ _ => rfl⟩ .nil) }

theorem effects_cons {effect image : Effect Rule}
    (heffect : f.correspondence.Effects outputs effect image) (finding : Finding) :
    f.correspondence.Effects outputs
      { effect with findings := finding :: effect.findings }
      { image with findings := finding :: image.findings } :=
  ⟨heffect.writes, .cons ⟨rfl, rfl⟩ heffect.findings, fun _ _ => rfl, heffect.spawned⟩

theorem findings_append {findings findings' others others' : List Finding}
    (hfindings : List.Forall₂ f.correspondence.finding findings findings')
    (hothers : List.Forall₂ f.correspondence.finding others others') :
    List.Forall₂ f.correspondence.finding (findings ++ others) (findings' ++ others') :=
  List.rel_append hfindings hothers

theorem findings_findingIf (amiss : Bool) (node : NodeId) {cause cause' : Cause}
    (hkind : cause'.kind = cause.kind) :
    List.Forall₂ f.correspondence.finding (findingIf amiss node cause)
      (findingIf amiss node cause') := by
  cases amiss with
  | true => exact .cons ⟨rfl, hkind⟩ .nil
  | false => exact .nil

end Renaming

def Setting.rename (f : Renaming) (setting : Setting) : Setting :=
  { setting with tree := setting.tree.rename f, scopes := setting.scopes.rename f }

namespace Rule

open Effect Renaming

variable {outputs : List Cell} (setting : Setting) (view : View)

theorem referenceEffect_rename (node : NodeId) (name : String) (entity : Entity) :
    f.correspondence.Effects outputs (referenceEffect setting node name entity)
      (referenceEffect (setting.rename f) node (f name) entity) := by
  unfold referenceEffect
  rw [Setting.rename, Entity.isPredicate_rename]
  split
  · exact effects_find node rfl
  · exact effects_spawn _

theorem joinElements_rename (node : NodeId) (joined : Option Ty) (elements : List (NodeId × Ty)) :
    f.correspondence.Effects outputs (joinElements node joined elements)
      (joinElements node (joined.map (Ty.rename f))
        (elements.map fun (id, type) => (id, type.rename f))) := by
  induction elements generalizing joined with
  | nil =>
    cases joined with
    | none => exact effects_find node rfl
    | some joined => exact effects_giveType (.array joined)
  | cons element rest ih =>
    obtain ⟨id, type⟩ := element
    cases joined with
    | none =>
      simp only [List.map_cons, Option.map_none, joinElements, Ty.isVoid_rename]
      split
      · exact effects_cons (ih none) _
      · exact ih (some type)
    | some current =>
      simp only [List.map_cons, Option.map_some, joinElements, Ty.isVoid_rename,
        Ty.commonSupertype_rename]
      split
      · exact effects_cons (ih (some current)) _
      · cases Ty.commonSupertype current type with
        | none => exact effects_find node rfl
        | some common => exact ih (some common)

theorem emptyArrayEffect_rename (node : NodeId) (expected : Ty) :
    f.correspondence.Effects outputs (emptyArrayEffect node expected)
      (emptyArrayEffect node (expected.rename f)) := by
  unfold emptyArrayEffect
  rw [Ty.isArray_rename]
  split
  · exact effects_giveType expected
  · exact effects_find node rfl

theorem constructEffect_rename (node reference : NodeId) (entity : Entity) :
    f.correspondence.Effects outputs (constructEffect setting node reference entity)
      (constructEffect (setting.rename f) node reference entity) := by
  unfold constructEffect
  simp only [Setting.rename, Tree.node?_rename]
  cases entity with
  | builtin b => exact effects_find node rfl
  | node id =>
    simp only [Entity.node?, Option.bind_some]
    cases setting.tree.node? id with
    | none => exact effects_find node rfl
    | some found =>
      cases found with
      | structDecl name fields => exact effects_spawn _
      | _ => exact effects_find node rfl

theorem fieldAccessEffect_rename (node : NodeId) (field : String) (stem : Ty) :
    f.correspondence.Effects outputs (fieldAccessEffect setting node field stem)
      (fieldAccessEffect (setting.rename f) node (f field) (stem.rename f)) := by
  cases stem with
  | array component =>
    simp only [Ty.rename, fieldAccessEffect, f.eq_length_iff]
    split
    · exact effects_giveType .int
    · exact effects_find node rfl
  | struct decl name =>
    have hname : ∀ id, (setting.rename f).tree.declaredName? id =
        (setting.tree.declaredName? id).map f := setting.tree.declaredName?_rename
    have hnode : (setting.rename f).tree.node? decl =
        (setting.tree.node? decl).map (Node.rename f) :=
      setting.tree.node?_rename decl
    have hfield : (fun id => decide ((setting.rename f).tree.declaredName? id = some (f field))) =
        fun id => decide (setting.tree.declaredName? id = some field) := by
      funext id
      cases h : setting.tree.declaredName? id <;> simp [hname, h]
    simp only [Ty.rename, fieldAccessEffect]
    rw [hfield, hnode]
    cases setting.tree.node? decl with
    | none => exact effects_nothing
    | some found =>
      cases found with
      | structDecl _ fields =>
        simp only [Option.map_some, Node.rename]
        cases fields.find? fun id => setting.tree.declaredName? id = some field with
        | none => exact effects_find node rfl
        | some id => exact effects_spawn (.fieldType node id)
      | _ => exact effects_nothing
  | _ => exact effects_find node rfl

theorem argumentFindings_rename (position : Nat) (params arguments : List Ty)
    (nodes : List NodeId) :
    List.Forall₂ f.correspondence.finding (argumentFindings position params arguments nodes)
      (argumentFindings position (params.map (Ty.rename f)) (arguments.map (Ty.rename f))
        nodes) := by
  induction params generalizing position arguments nodes with
  | nil => exact .nil
  | cons param params ih =>
    cases arguments with
    | nil => exact .nil
    | cons argument arguments =>
      cases nodes with
      | nil => exact .nil
      | cons node nodes =>
        simp only [List.map_cons, argumentFindings, Ty.assignable_rename]
        exact findings_append (findings_findingIf _ _ rfl) (ih (position + 1) arguments nodes)

theorem concatenationFindings_rename (node : NodeId) (binding : Option (Placeholder × Ty)) :
    List.Forall₂ f.correspondence.finding (concatenationFindings setting node binding)
      (concatenationFindings (setting.rename f) node
        (binding.map fun (p, concrete) => (p.rename f, concrete.rename f))) := by
  cases binding with
  | none => exact .nil
  | some binding =>
    obtain ⟨p, concrete⟩ := binding
    simp only [Option.map_some, concatenationFindings, Ty.isString_rename, Setting.rename,
      Tree.isConcatenation_rename]
    exact findings_findingIf _ _ rfl

theorem callEffect_rename (node function : NodeId) (nodes : List NodeId) (callee : Ty)
    (explicit : Option Ty) (arguments : List Ty) :
    f.correspondence.Effects outputs
      (callEffect setting node function nodes callee explicit arguments)
      (callEffect (setting.rename f) node function nodes (callee.rename f)
        (explicit.map (Ty.rename f)) (arguments.map (Ty.rename f))) := by
  cases callee with
  | function params result =>
    have hinstance := instantiate_rename (f := f) (.function params result) explicit arguments
    simp only [Ty.rename] at hinstance
    simp only [Ty.rename, callEffect, hinstance, Instance.rename]
    have hshape := concatenationFindings_rename (f := f) setting node
      (instantiate (.function params result) explicit arguments).binding
    cases (instantiate (.function params result) explicit arguments).callee with
    | function params result =>
      simp only [Ty.rename, Ty.renameAll_eq_map, List.length_map]
      refine ⟨.cons ⟨rfl, fun _ _ => rfl⟩ .nil, ?_, fun _ _ => rfl, .nil⟩
      exact findings_append (findings_append hshape (findings_findingIf _ _ rfl))
        (argumentFindings_rename 0 params arguments nodes)
    | _ => exact ⟨.nil, hshape, fun _ _ => rfl, .nil⟩
  | _ => exact effects_find function rfl

theorem bypass_rename (left right : NodeId) (l r : Ty) :
    bypass (setting.rename f) left right (l.rename f) (r.rename f) =
      (bypass setting left right l r).map (Ty.rename f) := by
  unfold bypass placeholderOperand
  have hdependence : (setting.rename f).dependence = setting.dependence := rfl
  rw [hdependence]
  by_cases h : setting.dependence.holds left || setting.dependence.holds right
  · simp only [h, if_true, List.find?_cons, Ty.isPlaceholder_rename]
    cases l.isPlaceholder <;> cases r.isPlaceholder <;> rfl
  · simp only [h, Bool.false_eq_true, if_false, Option.map_none]

theorem binaryEffect_rename (node : NodeId) (op : BinaryOp) (left right : NodeId) (l r : Ty) :
    f.correspondence.Effects outputs (binaryEffect setting node op left right l r)
      (binaryEffect (setting.rename f) node op left right (l.rename f) (r.rename f)) := by
  unfold binaryEffect
  rw [bypass_rename]
  cases bypass setting left right l r with
  | some placeholder => exact effects_giveType placeholder
  | none =>
    simp only [Option.map_none]
    cases op.kind with
    | arithmetic =>
      simp only [Ty.arithmetic_rename]
      cases Ty.arithmetic op l r with
      | none => exact effects_find node rfl
      | some result => exact effects_giveType result
    | comparison =>
      simp only [Ty.isNumeric_rename]
      exact effects_finding (effects_giveType .bool)
        (findings_append (findings_findingIf _ _ rfl) (findings_findingIf _ _ rfl))
    | logic =>
      simp only [Ty.isBool_rename]
      exact effects_finding (effects_giveType .bool)
        (findings_append (findings_findingIf _ _ rfl) (findings_findingIf _ _ rfl))
    | equality =>
      simp only [Ty.comparable_rename]
      exact effects_finding (effects_giveType .bool) (findings_findingIf _ _ rfl)

theorem assignmentEffect_rename (node left : NodeId) (l r : Ty) :
    f.correspondence.Effects outputs (assignmentEffect setting node left l r)
      (assignmentEffect (setting.rename f) node left (l.rename f) (r.rename f)) := by
  have hlvalue : (setting.tree.rename f).satisfies left Node.isLvalue =
      setting.tree.satisfies left Node.isLvalue :=
    setting.tree.satisfies_rename left fun node => by cases node <;> rfl
  unfold assignmentEffect
  simp only [Setting.rename, hlvalue, Ty.assignable_rename]
  refine effects_finding (effects_giveType l) ?_
  split
  · exact findings_findingIf _ _ rfl
  · exact .cons ⟨rfl, rfl⟩ .nil

theorem atomArityEffect_rename (atom : NodeId) (scope : ScopeId) :
    f.correspondence.Effects outputs (atomArityEffect setting atom scope)
      (atomArityEffect (setting.rename f) atom scope) := by
  unfold atomArityEffect
  simp only [Setting.rename, Tree.atom?_rename, Tree.predicateArity?_rename]
  cases setting.tree.atom? atom with
  | none => exact effects_nothing
  | some found =>
    obtain ⟨name, terms⟩ := found
    simp only [Option.map_some, ScopeTree.lookup?_rename]
    cases (setting.scopes.lookup? scope name).bind fun found => found.1.node? with
    | none => exact effects_nothing
    | some decl =>
      simp only []
      cases setting.tree.predicateArity? decl with
      | none => exact effects_nothing
      | some expected => exact effects_findIf _ atom rfl

theorem resolveReferenceEffect_rename (node : NodeId) (name : String) (scope : ScopeId) :
    f.correspondence.Effects outputs (resolveReferenceEffect setting node name scope)
      (resolveReferenceEffect (setting.rename f) node (f name) scope) := by
  unfold resolveReferenceEffect
  have hlookup : (setting.rename f).scopes.lookup? scope (f name) =
      setting.scopes.lookup? scope name := setting.scopes.lookup?_rename scope name
  rw [hlookup]
  cases setting.scopes.lookup? scope name with
  | none => exact effects_find node rfl
  | some found =>
    obtain ⟨entity, home⟩ := found
    have hnext : f.correspondence.Effects outputs
        (if entity.isVariable setting.tree then find node (.usedBeforeDeclaration name)
          else referenceEffect setting node name entity)
        (if entity.isVariable (setting.rename f).tree then
            find node (.usedBeforeDeclaration (f name))
          else referenceEffect (setting.rename f) node (f name) entity) := by
      rw [Setting.rename, Entity.isVariable_rename]
      split
      · exact effects_find node rfl
      · exact referenceEffect_rename setting node name entity
    exact effects_resolved entity home hnext

theorem resolveTypeEffect_rename (node : NodeId) (name : String) (scope : ScopeId) :
    f.correspondence.Effects outputs (resolveTypeEffect setting node name scope)
      (resolveTypeEffect (setting.rename f) node (f name) scope) := by
  unfold resolveTypeEffect
  have hlookup : (setting.rename f).scopes.lookup? scope (f name) =
      setting.scopes.lookup? scope name := setting.scopes.lookup?_rename scope name
  rw [hlookup]
  cases setting.scopes.lookup? scope name with
  | none => exact effects_find node rfl
  | some found =>
    obtain ⟨entity, home⟩ := found
    simp only [Setting.rename, Entity.isType_rename]
    split
    · exact effects_resolved entity home (effects_spawn (.typeValue node entity))
    · exact effects_find node rfl

theorem mapM_type?_rename (ids : List NodeId) :
    ids.mapM (view.rename f).type? = (ids.mapM view.type?).map (List.map (Ty.rename f)) := by
  induction ids with
  | nil => rfl
  | cons id rest ih =>
    rw [List.mapM_cons, List.mapM_cons, ih, View.type?_rename]
    cases view.type? id with
    | none => rfl
    | some type => cases rest.mapM view.type? <;> rfl

theorem filterMap_type?_rename (ids : List NodeId) :
    ids.filterMap (view.rename f).type? = (ids.filterMap view.type?).map (Ty.rename f) := by
  rw [List.map_filterMap]
  congr 1
  funext id
  exact view.type?_rename id

theorem elements_rename (ids : List NodeId) :
    (ids.filterMap fun id => ((view.rename f).type? id).map fun type => (id, type)) =
      (ids.filterMap fun id => (view.type? id).map fun type => (id, type)).map
        fun (id, type) => (id, type.rename f) := by
  rw [List.map_filterMap]
  congr 1
  funext id
  rw [View.type?_rename]
  cases view.type? id <;> rfl

theorem bind_value?_rename (id : Option NodeId) :
    id.bind (view.rename f).value? = (id.bind view.value?).map (Ty.rename f) := by
  cases id with
  | none => rfl
  | some id => exact view.value?_rename id

theorem emptyArgument_rename (node function argument : NodeId) :
    f.correspondence.Effects outputs (effect setting (.emptyArgument node function argument) view)
      (effect (setting.rename f) (.emptyArgument node function argument) (view.rename f)) := by
  simp only [effect, View.type?_rename, View.index?_rename]
  cases view.type? function with
  | none => exact effects_nothing
  | some callee =>
    cases callee with
    | function params result =>
      cases view.index? argument with
      | none => exact effects_nothing
      | some index =>
        simp only [Option.map_some, Ty.rename, Ty.renameAll_eq_map, List.getElem?_map]
        cases params[index]? with
        | none => exact effects_nothing
        | some expected => exact emptyArrayEffect_rename node expected
    | _ => exact effects_nothing

theorem same_rename_of_fixed {expected : Ty} (hfixed : expected.rename f = expected) (type : Ty) :
    (type.rename f).same expected = type.same expected := by
  rw [← hfixed, Ty.same_rename, hfixed]

theorem unary_rename (node : NodeId) (op : UnaryOp) (operand : NodeId) :
    f.correspondence.Effects outputs (effect setting (.unary node op operand) view)
      (effect (setting.rename f) (.unary node op operand) (view.rename f)) := by
  simp only [effect, View.type?_rename]
  cases view.type? operand with
  | none => exact effects_nothing
  | some type =>
    have hop : op.type.rename f = op.type := by cases op <;> rfl
    have hgive : f.correspondence.Effects outputs (giveType op.type)
        (giveType (op.type.rename f)) := effects_giveType op.type
    rw [hop] at hgive
    simp only [Option.map_some, same_rename_of_fixed hop]
    exact effects_finding hgive (findings_findingIf _ _ rfl)

theorem templateParameterName_rename (hname : f setting.placeholderName = setting.placeholderName)
    (function template : NodeId) : f.correspondence.Effects outputs
      (effect setting (.templateParameterName function template) view)
      (effect (setting.rename f) (.templateParameterName function template) (view.rename f)) := by
  have hdeclared : (setting.rename f).tree.declaredName? template =
      (setting.tree.declaredName? template).map f := setting.tree.declaredName?_rename template
  simp only [effect, hdeclared]
  cases setting.tree.declaredName? template with
  | none => exact effects_nothing
  | some name =>
    have hallowed : f name ≠ (setting.rename f).placeholderName ↔
        name ≠ setting.placeholderName := by
      change f name ≠ setting.placeholderName ↔ _
      rw [← hname, ne_eq, f.eq_iff, hname]
    simp only [Option.map_some, hallowed]
    exact effects_findIf _ _ rfl

theorem returnStatement_rename (node returnType : NodeId) (expression : Option NodeId) :
    f.correspondence.Effects outputs
      (effect setting (.returnStatement node returnType expression) view)
      (effect (setting.rename f) (.returnStatement node returnType expression)
        (view.rename f)) := by
  cases expression with
  | none =>
    simp only [effect, View.value?_rename]
    cases view.value? returnType with
    | none => exact effects_nothing
    | some expected =>
      simp only [Option.map_some, Ty.isVoid_rename]
      exact effects_findIf _ _ rfl
  | some expression =>
    simp only [effect, View.value?_rename, View.type?_rename]
    cases view.value? returnType with
    | none => exact effects_nothing
    | some expected =>
      cases view.type? expression with
      | none => exact effects_nothing
      | some found =>
        simp only [Option.map_some, Ty.isVoid_rename, Ty.assignable_rename]
        split
        · exact effects_find _ rfl
        · exact effects_findIf _ _ rfl

theorem inputs_rename (rule : Rule) : (rule.rename f).inputs = rule.inputs := by
  cases rule <;> rfl

theorem outputs_rename (rule : Rule) : (rule.rename f).outputs = rule.outputs := by
  cases rule <;> rfl

theorem label_rename (rule : Rule) : (rule.rename f).label = rule.label := by
  cases rule <;> rfl

theorem effect_rename (hname : f setting.placeholderName = setting.placeholderName) (rule : Rule) :
    f.correspondence.Effects outputs (effect setting rule view)
      (effect (setting.rename f) (rule.rename f) (view.rename f)) := by
  cases rule with
  | structType node | templateType node => exact effects_giveType .metatype
  | structDeclared node name => exact effects_giveType (.struct node name)
  | templateDeclared node function name => exact effects_giveType (.generic ⟨node, function, name⟩)
  | returnReturns node => exact effects_give (.flag true)
  | referenceType node entity | typeValue node entity => exact effects_copy _
  | fieldType node field => exact effects_copy _
  | parenthesized node expression => exact effects_copy _
  | declaredType decl type => exact effects_copy _
  | construct node reference =>
    simp only [effect, rename, View.decl?_rename]
    cases view.decl? reference with
    | none => exact effects_nothing
    | some entity => exact constructEffect_rename setting node reference entity
  | constructorType node struct fields =>
    simp only [effect, rename, View.declared?_rename, mapM_type?_rename]
    cases view.declared? struct with
    | none => exact effects_nothing
    | some result =>
      cases fields.mapM view.type? with
      | none => exact effects_nothing
      | some params =>
        simp only [Option.map_some, ← Ty.renameAll_eq_map]
        exact effects_giveType (.function params result)
  | arrayLiteral node components =>
    simp only [effect, rename, elements_rename]
    exact joinElements_rename node none _
  | emptyInitializer node decl =>
    simp only [effect, rename, View.type?_rename]
    cases view.type? decl with
    | none => exact effects_nothing
    | some expected => exact emptyArrayEffect_rename node expected
  | emptyArgument node function argument =>
    exact emptyArgument_rename setting view node function argument
  | fieldAccess node stem field =>
    simp only [effect, rename, View.type?_rename]
    cases view.type? stem with
    | none => exact effects_nothing
    | some type => exact fieldAccessEffect_rename setting node field type
  | arrayIndex index =>
    simp only [effect, rename, View.type?_rename]
    cases view.type? index with
    | none => exact effects_nothing
    | some type =>
      simp only [Option.map_some, Ty.isInt_rename]
      exact effects_findIf _ _ rfl
  | arrayAccess node array =>
    simp only [effect, rename, View.type?_rename]
    cases view.type? array with
    | none => exact effects_nothing
    | some type =>
      cases type with
      | array component => exact effects_giveType component
      | _ => exact effects_find node rfl
  | call node function typeArgument arguments =>
    simp only [effect, rename]
    rw [View.type?_rename, filterMap_type?_rename, bind_value?_rename]
    cases view.type? function with
    | none => exact effects_nothing
    | some callee => exact callEffect_rename setting node function arguments callee _ _
  | unary node op operand => exact unary_rename setting view node op operand
  | binary node op left right =>
    simp only [effect, rename, View.type?_rename]
    cases view.type? left with
    | none => exact effects_nothing
    | some l =>
      cases view.type? right with
      | none => exact effects_nothing
      | some r => exact binaryEffect_rename setting node op left right l r
  | assignment node left right =>
    simp only [effect, rename, View.type?_rename]
    cases view.type? left with
    | none => exact effects_nothing
    | some l =>
      cases view.type? right with
      | none => exact effects_nothing
      | some r => exact assignmentEffect_rename setting node left l r
  | arrayType node component =>
    simp only [effect, rename, View.value?_rename]
    cases view.value? component with
    | none => exact effects_nothing
    | some type => exact effects_giveType (.array type)
  | initializer name type value =>
    simp only [effect, rename, View.type?_rename, View.value?_rename]
    cases view.value? type with
    | none => exact effects_nothing
    | some expected =>
      cases view.type? value with
      | none => exact effects_nothing
      | some found =>
        simp only [Option.map_some, Ty.assignable_rename]
        exact effects_findIf _ _ rfl
  | functionType function parameters returnType =>
    simp only [effect, rename, View.value?_rename, mapM_type?_rename]
    cases view.value? returnType with
    | none => exact effects_nothing
    | some result =>
      cases parameters.mapM view.type? with
      | none => exact effects_nothing
      | some params =>
        simp only [Option.map_some, ← Ty.renameAll_eq_map]
        exact effects_giveType (.function params result)
  | missingReturn function body returnType =>
    simp only [effect, rename, View.returns?_rename, View.value?_rename]
    cases view.returns? body with
    | none => exact effects_nothing
    | some returns =>
      cases view.value? returnType with
      | none => exact effects_nothing
      | some type =>
        simp only [Option.map_some, Ty.isVoid_rename]
        exact effects_findIf _ _ rfl
  | blockReturns block containers =>
    simp only [effect, rename, View.returns?_rename]
    exact effects_give _
  | ifReturns node containers =>
    simp only [effect, rename, View.returns?_rename]
    exact effects_give _
  | control place node =>
    simp only [effect, rename, View.type?_rename]
    cases view.type? node with
    | none => exact effects_nothing
    | some type =>
      have hplace : place.type.rename f = place.type := by cases place <;> rfl
      simp only [Option.map_some, same_rename_of_fixed hplace]
      exact effects_findIf _ _ rfl
  | returnStatement node returnType expression =>
    exact returnStatement_rename setting view node returnType expression
  | termType term =>
    simp only [effect, rename, View.type?_rename]
    cases view.type? term with
    | none => exact effects_nothing
    | some type =>
      simp only [Option.map_some, Ty.isTerm_rename]
      exact effects_findIf _ _ rfl
  | atomArity atom scope => exact atomArityEffect_rename setting atom scope
  | templateParameterName function template =>
    exact templateParameterName_rename setting view hname function template
  | resolveReference node name scope => exact resolveReferenceEffect_rename setting node name scope
  | resolveType node name scope => exact resolveTypeEffect_rename setting node name scope

end Rule

end Attribution
