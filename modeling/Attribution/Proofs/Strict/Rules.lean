import Attribution.Proofs.Rule.Contents
import Attribution.Proofs.Strict.Binding
import Attribution.Proofs.Ty.Names
/-!
# Strict rules

A rule asks for nodes long after the walk: for those that it is about, for the declarations that it
reads off cells or finds in scopes, for the fields and functions that types name. All of these are
reached from the root if the rule and the cells that it reads were told of nothing else.
-/
namespace Attribution

/-- The nodes that a rule is about are reached, and the scope from which it looks a name up is
there. -/
structure Rule.Sound (tree : Tree) (scopes : ScopeTree) (rule : Rule) : Prop where
  nodes : ∀ id ∈ rule.nodes, tree.Reaches id
  scope : ∀ id ∈ rule.scope?, id < scopes.size

/-- The nodes that the values of cells name are reached. -/
def View.Reached (tree : Tree) (view : View) : Prop :=
  view.Holds fun cell => cell.attr.Admits (Ty.Names tree.Reaches) (Entity.Reached tree)

namespace View.Reached

variable {tree : Tree} {view : View} {id : NodeId}

theorem type {t : Ty} (h : view.Reached tree) (htype : view.type? id = some t) :
    t.Names tree.Reaches := h.of_read rfl htype

theorem decl {entity : Entity} (h : view.Reached tree) (hdecl : view.decl? id = some entity) :
    entity.Reached tree := by
  obtain ⟨value, hvalue, hentity⟩ := Option.bind_eq_some_iff.mp hdecl
  have hadmits := h _ value hvalue
  cases value <;> cases hentity
  exact hadmits

end View.Reached

/-- What the rules of a setting may ask for exists, besides what they are about themselves. -/
structure Setting.Sturdy (setting : Setting) : Prop where
  closed : setting.tree.Closed
  nested : Strict.Nested setting.scopes
  entities : setting.scopes.HoldsOnly (Entity.Reached setting.tree)

theorem Ty.inherits_names (known : NodeId → Prop) : Ty.Inherits (Ty.Names known) where
  basic t ht := by
    intro id hid
    cases t <;> cases ht <;> cases hid
  array _ := Iff.rfl
  function params result := by
    simp only [Names, names, List.mem_append, mem_namesIn]
    constructor
    · intro h
      exact ⟨fun t ht id hid => h id (.inl ⟨t, ht, hid⟩), fun id hid => h id (.inr hid)⟩
    · rintro ⟨hparams, hresult⟩ id (⟨t, ht, hid⟩ | hid)
      · exact hparams t ht id hid
      · exact hresult id hid
  call _ _ _ hcallee hexplicit harguments := hcallee.instantiate hexplicit harguments

namespace Strict

open Effect

/-- The struct that an entity is, with its fields. -/
def struct? (tree : Tree) : Entity → Except Breach (Option (NodeId × List NodeId))
  | .node id => do
    match ← node tree id with
    | .structDecl _ fields => return some (id, fields)
    | _ => return none
  | .builtin _ => .ok none

def referredName (tree : Tree) (reference : NodeId) : Except Breach String := do
  match ← node tree reference with
  | .reference name => return name
  | _ => return "?"

def constructEffect (setting : Setting) (node reference : NodeId) (entity : Entity) :
    Except Breach (Effect Rule) := do
  match ← struct? setting.tree entity with
  | some (id, fields) => return spawn (.constructorType node id fields)
  | none =>
    let name ← referredName setting.tree reference
    let kind ← describe setting.tree entity
    return find node (.constructorTarget name kind)

def findField (tree : Tree) (field : String) : List NodeId → Except Breach (Option NodeId)
  | [] => .ok none
  | id :: ids => do
    if (← declaredName? tree id) = some field then return some id else findField tree field ids

def fieldAccessEffect (setting : Setting) (id : NodeId) (field : String) :
    Ty → Except Breach (Effect Rule)
  | .struct decl name => do
    match ← node setting.tree decl with
    | .structDecl _ fields =>
      match ← findField setting.tree field fields with
      | some found => return spawn (.fieldType id found)
      | none => return find id (.missingField field name)
    | _ => return nothing
  | other => .ok (Rule.fieldAccessEffect setting id field other)

/-- The node of an argument is asked for only where the argument does not fit. -/
def argumentFindings (call : NodeId) (nodes : List NodeId) :
    Nat → List Ty → List Ty → Except Breach (List Finding)
  | position, param :: params, argument :: arguments => do
    let rest ← argumentFindings call nodes (position + 1) params arguments
    if argument.assignable param then return rest
    match nodes[position]? with
    | some node => return { node, cause := .argument position param argument } :: rest
    | none => .error (.missingArgument call position)
  | _, _, _ => .ok []

def concatenationFindings (setting : Setting) (node : NodeId) :
    Option (Placeholder × Ty) → Except Breach (List Finding)
  | some (placeholder, concrete) => do
    if concrete.isString then
      let shaped ← isConcatenation setting.tree placeholder.function
      return findingIf (!shaped) node .concatenationBody
    else return []
  | none => .ok []

def callEffect (setting : Setting) (node function : NodeId) (nodes : List NodeId) (callee : Ty)
    (explicit : Option Ty) (arguments : List Ty) : Except Breach (Effect Rule) :=
  match callee with
  | .function _ _ => do
    let found := instantiate callee explicit arguments
    let shape ← concatenationFindings setting node found.binding
    match found.callee with
    | .function params result =>
      let misfits ← argumentFindings node nodes 0 params arguments
      return {
        writes := [(0, .type result)]
        findings := shape ++
          findingIf (params.length ≠ arguments.length) node
            (.argumentCount params.length arguments.length) ++
          misfits }
    | _ => return { findings := shape }
  | other => .ok (find function (.callTarget other))

def assignmentEffect (setting : Setting) (id left : NodeId) (l r : Ty) :
    Except Breach (Effect Rule) := do
  let target ← node setting.tree left
  return (giveType l).finding <|
    if target.isLvalue then findingIf (!r.assignable l) id (.assignment l r)
    else [{ node := left, cause := .assignmentTarget }]

def missingReturnEffect (setting : Setting) (function : NodeId) (returns : Bool) (type : Ty) :
    Except Breach (Effect Rule) := do
  if !returns && !type.isVoid then
    let name ← declaredName? setting.tree function
    return find function (.missingReturn (name.getD "?"))
  else return nothing

def atomArityEffect (setting : Setting) (atom : NodeId) (scope : ScopeId) :
    Except Breach (Effect Rule) := do
  let some (name, terms) ← atom? setting.tree atom | return nothing
  let some (.node decl, _) ← lookup setting.scopes scope name | return nothing
  let some expected ← predicateArity? setting.tree decl | return nothing
  return findIf (expected ≠ terms.length) atom (.atomArity name expected terms.length)

def resolveReferenceEffect (setting : Setting) (node : NodeId) (name : String) (scope : ScopeId) :
    Except Breach (Effect Rule) := do
  let some (entity, home) ← lookup setting.scopes scope name |
    return find node (.unresolved name)
  let next ← if ← isVariable setting.tree entity then
      pure (find node (.usedBeforeDeclaration name))
    else if ← isPredicate setting.tree entity then pure (find node (.predicateAsValue name))
    else pure (spawn (.referenceType node entity))
  return { next with writes := [(0, .decl entity), (1, .scope home)] }

def resolveTypeEffect (setting : Setting) (node : NodeId) (name : String) (scope : ScopeId) :
    Except Breach (Effect Rule) := do
  let some (entity, home) ← lookup setting.scopes scope name |
    return find node (.unresolved name)
  if ← isType setting.tree entity then
    return {
      writes := [(0, .decl entity), (1, .scope home)], spawned := [.typeValue node entity] }
  else
    let kind ← describe setting.tree entity
    return find node (.notAType name kind)

def effect (setting : Setting) (rule : Rule) (view : View) : Except Breach (Effect Rule) :=
  match rule with
  | .construct node reference =>
    match view.decl? reference with
    | some entity => constructEffect setting node reference entity
    | none => .ok nothing
  | .fieldAccess node stem field =>
    match view.type? stem with
    | some type => fieldAccessEffect setting node field type
    | none => .ok nothing
  | .call node function typeArgument arguments =>
    match view.type? function with
    | some callee =>
      callEffect setting node function arguments callee (typeArgument.bind view.value?)
        (arguments.filterMap view.type?)
    | none => .ok nothing
  | .assignment node left right =>
    match view.type? left, view.type? right with
    | some l, some r => assignmentEffect setting node left l r
    | _, _ => .ok nothing
  | .missingReturn function body returnType =>
    match view.returns? body, view.value? returnType with
    | some returns, some type => missingReturnEffect setting function returns type
    | _, _ => .ok nothing
  | .atomArity atom scope => atomArityEffect setting atom scope
  | .templateParameterName function template => do
    let some name ← declaredName? setting.tree template | return nothing
    return findIf (name ≠ setting.placeholderName) function
      (.templateParameter setting.placeholderName name)
  | .resolveReference node name scope => resolveReferenceEffect setting node name scope
  | .resolveType node name scope => resolveTypeEffect setting node name scope
  | rule => .ok (rule.effect setting view)

variable {setting : Setting} {view : View}

theorem referredName_eq {tree : Tree} (hclosed : tree.Closed) {reference : NodeId}
    (h : tree.Reaches reference) : referredName tree reference =
      .ok (match tree.node? reference with
        | some (.reference name) => name
        | _ => "?") := by
  obtain ⟨found, hfound⟩ := h.exists_node hclosed
  rw [referredName, node_eq hfound, ok_bind, hfound]
  cases found <;> rfl

theorem constructEffect_eq (hsetting : setting.Sturdy) {node reference : NodeId} {entity : Entity}
    (hreference : setting.tree.Reaches reference) (hentity : entity.Reached setting.tree) :
    constructEffect setting node reference entity =
      .ok (Rule.constructEffect setting node reference entity) := by
  have hname := referredName_eq hsetting.closed hreference
  have hkind := describe_eq hsetting.closed hentity
  cases entity with
  | builtin b =>
    simp only [constructEffect, struct?, ok_bind, hname, hkind]
    rfl
  | node id =>
    obtain ⟨found, hfound⟩ := Tree.Reaches.exists_node hentity hsetting.closed
    simp only [constructEffect, struct?, node_eq hfound, ok_bind, Rule.constructEffect,
      Entity.node?, Option.bind_some, hfound, Option.map_some]
    cases found with
    | structDecl => rfl
    | _ =>
      rw [hname, hkind]
      rfl

theorem findField_eq {tree : Tree} (hclosed : tree.Closed) (field : String) {fields : List NodeId}
    (h : ∀ id ∈ fields, tree.Reaches id) : findField tree field fields =
      .ok (fields.find? fun id => tree.declaredName? id = some field) := by
  induction fields with
  | nil => rfl
  | cons id ids ih =>
    rw [findField, declaredName?_eq hclosed (h id List.mem_cons_self), ok_bind, List.find?_cons,
      ih fun other hother => h other (List.mem_cons_of_mem _ hother)]
    by_cases hname : tree.declaredName? id = some field
    · rw [if_pos hname, decide_eq_true hname]
      rfl
    · rw [if_neg hname, decide_eq_false hname]

theorem fieldAccessEffect_eq (hsetting : setting.Sturdy) {node : NodeId} {field : String}
    {type : Ty} (htype : type.Names setting.tree.Reaches) :
    fieldAccessEffect setting node field type =
      .ok (Rule.fieldAccessEffect setting node field type) := by
  cases type with
  | struct decl name =>
    have hdecl : setting.tree.Reaches decl := htype decl List.mem_cons_self
    obtain ⟨found, hfound⟩ := hdecl.exists_node hsetting.closed
    rw [fieldAccessEffect, node_eq hfound, ok_bind, Rule.fieldAccessEffect, hfound]
    cases found with
    | structDecl structName fields =>
      have hfields : ∀ id ∈ fields, setting.tree.Reaches id := fun id hid => hdecl.child hfound hid
      simp only [findField_eq hsetting.closed field hfields, ok_bind]
      cases fields.find? fun id => decide (setting.tree.declaredName? id = some field) <;> rfl
    | _ => rfl
  | _ => rfl

/-- Where a type names a struct that is not there, the rule breaks off. -/
example : fieldAccessEffect ⟨⟨#[], 0⟩, "T", {}, {}⟩ 0 "name" (.struct 7 "S") =
    .error (.fault (.missingNode 7)) := rfl

theorem argumentFindings_eq (call : NodeId) {nodes : List NodeId} {position : Nat}
    (params : List Ty) {arguments : List Ty} (h : position + arguments.length ≤ nodes.length) :
    argumentFindings call nodes position params arguments =
      .ok (Rule.argumentFindings position params arguments (nodes.drop position)) := by
  induction arguments generalizing position params with
  | nil =>
    cases params <;> rfl
  | cons argument arguments ih =>
    cases params with
    | nil => rfl
    | cons param params =>
      rw [List.length_cons] at h
      have hlt : position < nodes.length := by omega
      rw [argumentFindings, ih params (by omega), ok_bind, List.drop_eq_getElem_cons hlt,
        Rule.argumentFindings, List.getElem?_eq_getElem hlt]
      cases hfits : argument.assignable param <;> rfl

theorem concatenationFindings_eq (hsetting : setting.Sturdy) {node : NodeId}
    {binding : Option (Placeholder × Ty)}
    (h : ∀ pair ∈ binding, setting.tree.Reaches pair.1.function) :
    concatenationFindings setting node binding =
      .ok (Rule.concatenationFindings setting node binding) := by
  cases binding with
  | none => rfl
  | some pair =>
    obtain ⟨placeholder, concrete⟩ := pair
    rw [concatenationFindings, Rule.concatenationFindings]
    cases hstring : concrete.isString with
    | false => rfl
    | true =>
      rw [if_pos rfl, isConcatenation_eq hsetting.closed (h _ rfl), Bool.true_and]
      rfl

theorem callEffect_eq (hsetting : setting.Sturdy) {node function : NodeId} {nodes : List NodeId}
    {callee : Ty} {explicit : Option Ty} {arguments : List Ty}
    (hcallee : callee.Names setting.tree.Reaches) (hlength : arguments.length ≤ nodes.length) :
    callEffect setting node function nodes callee explicit arguments =
      .ok (Rule.callEffect setting node function nodes callee explicit arguments) := by
  cases callee with
  | function params result =>
    have hbinding : ∀ pair ∈ (instantiate (.function params result) explicit arguments).binding,
        setting.tree.Reaches pair.1.function := fun pair hpair =>
      hcallee _ (Ty.function_of_binding hpair)
    have hmisfits : ∀ params : List Ty, argumentFindings node nodes 0 params arguments =
        .ok (Rule.argumentFindings 0 params arguments nodes) := fun params =>
      argumentFindings_eq node params (by omega)
    rw [callEffect, concatenationFindings_eq hsetting hbinding, Rule.callEffect]
    simp only [ok_bind, hmisfits]
    cases (instantiate (.function params result) explicit arguments).callee <;> rfl
  | _ => rfl

theorem assignmentEffect_eq (hsetting : setting.Sturdy) {node left : NodeId} {l r : Ty}
    (hleft : setting.tree.Reaches left) : assignmentEffect setting node left l r =
      .ok (Rule.assignmentEffect setting node left l r) := by
  obtain ⟨found, hfound⟩ := hleft.exists_node hsetting.closed
  rw [assignmentEffect, node_eq hfound, ok_bind, Rule.assignmentEffect, Tree.satisfies, hfound,
    Option.any_some]
  rfl

theorem missingReturnEffect_eq (hsetting : setting.Sturdy) {function : NodeId} {returns : Bool}
    {type : Ty} (hfunction : setting.tree.Reaches function) :
    missingReturnEffect setting function returns type =
      .ok (findIf (!returns && !type.isVoid) function
        (.missingReturn ((setting.tree.declaredName? function).getD "?"))) := by
  rw [missingReturnEffect, declaredName?_eq hsetting.closed hfunction]
  cases !returns && !type.isVoid <;> rfl

theorem atomArityEffect_eq (hsetting : setting.Sturdy) {atom : NodeId} {scope : ScopeId}
    (hatom : setting.tree.Reaches atom) (hscope : scope < setting.scopes.size) :
    atomArityEffect setting atom scope = .ok (Rule.atomArityEffect setting atom scope) := by
  rw [atomArityEffect, atom?_eq hsetting.closed hatom, ok_bind, Rule.atomArityEffect]
  cases setting.tree.atom? atom with
  | none => rfl
  | some found =>
    obtain ⟨name, terms⟩ := found
    simp only [lookup_eq hsetting.nested hscope, ok_bind]
    cases hlookup : setting.scopes.lookup? scope name with
    | none => rfl
    | some pair =>
      obtain ⟨entity, home⟩ := pair
      cases entity with
      | builtin b => rfl
      | node decl =>
        have hdecl : setting.tree.Reaches decl := hsetting.entities.lookup? hlookup
        simp only [predicateArity?_eq hsetting.closed hdecl, ok_bind, Option.bind_some,
          Entity.node?]
        cases setting.tree.predicateArity? decl <;> rfl

theorem resolveReferenceEffect_eq (hsetting : setting.Sturdy) {scope : ScopeId} (node : NodeId)
    (name : String) (hscope : scope < setting.scopes.size) :
    resolveReferenceEffect setting node name scope =
      .ok (Rule.resolveReferenceEffect setting node name scope) := by
  rw [resolveReferenceEffect, lookup_eq hsetting.nested hscope, ok_bind,
    Rule.resolveReferenceEffect]
  cases hlookup : setting.scopes.lookup? scope name with
  | none => rfl
  | some pair =>
    obtain ⟨entity, home⟩ := pair
    have hentity : entity.Reached setting.tree := hsetting.entities.lookup? hlookup
    simp only [isVariable_eq hsetting.closed hentity, isPredicate_eq hsetting.closed hentity,
      ok_bind, Rule.referenceEffect]
    cases entity.isVariable setting.tree <;> cases entity.isPredicate setting.tree <;> rfl

theorem resolveTypeEffect_eq (hsetting : setting.Sturdy) {scope : ScopeId} (node : NodeId)
    (name : String) (hscope : scope < setting.scopes.size) :
    resolveTypeEffect setting node name scope =
      .ok (Rule.resolveTypeEffect setting node name scope) := by
  rw [resolveTypeEffect, lookup_eq hsetting.nested hscope, ok_bind, Rule.resolveTypeEffect]
  cases hlookup : setting.scopes.lookup? scope name with
  | none => rfl
  | some pair =>
    obtain ⟨entity, home⟩ := pair
    have hentity : entity.Reached setting.tree := hsetting.entities.lookup? hlookup
    simp only [isType_eq hsetting.closed hentity, describe_eq hsetting.closed hentity, ok_bind]
    cases entity.isType setting.tree <;> rfl

/-- Whatever a rule asks for when it fires exists. -/
theorem effect_eq (hsetting : setting.Sturdy) {rule : Rule}
    (hrule : rule.Sound setting.tree setting.scopes) (hview : view.Reached setting.tree) :
    effect setting rule view = .ok (rule.effect setting view) := by
  cases rule with
  | construct node reference =>
    simp only [effect, Rule.effect]
    cases hentity : view.decl? reference with
    | none => rfl
    | some entity =>
      have hreference := hrule.nodes reference (List.mem_cons_of_mem _ List.mem_cons_self)
      exact constructEffect_eq hsetting hreference (hview.decl hentity)
  | fieldAccess node stem field =>
    simp only [effect, Rule.effect]
    cases hstem : view.type? stem with
    | none => rfl
    | some type => exact fieldAccessEffect_eq hsetting (hview.type hstem)
  | call node function typeArgument arguments =>
    simp only [effect, Rule.effect]
    cases hcallee : view.type? function with
    | none => rfl
    | some callee =>
      exact callEffect_eq hsetting (hview.type hcallee) (List.length_filterMap_le _ _)
  | assignment node left right =>
    have hleft := hrule.nodes left (List.mem_cons_of_mem _ List.mem_cons_self)
    simp only [effect, Rule.effect]
    cases view.type? left with
    | none => rfl
    | some l =>
      cases view.type? right with
      | none => rfl
      | some r => exact assignmentEffect_eq hsetting hleft
  | missingReturn function body returnType =>
    have hfunction := hrule.nodes function List.mem_cons_self
    simp only [effect, Rule.effect]
    cases view.returns? body with
    | none => rfl
    | some returns =>
      cases view.value? returnType with
      | none => rfl
      | some type => exact missingReturnEffect_eq hsetting hfunction
  | atomArity atom scope =>
    exact atomArityEffect_eq hsetting (hrule.nodes atom List.mem_cons_self) (hrule.scope scope rfl)
  | templateParameterName function template =>
    have htemplate := hrule.nodes template (List.mem_cons_of_mem _ List.mem_cons_self)
    simp only [effect, Rule.effect, declaredName?_eq hsetting.closed htemplate, ok_bind]
    cases setting.tree.declaredName? template <;> rfl
  | resolveReference node name scope =>
    exact resolveReferenceEffect_eq hsetting node name (hrule.scope scope rfl)
  | resolveType node name scope =>
    exact resolveTypeEffect_eq hsetting node name (hrule.scope scope rfl)
  | _ => rfl

end Strict

namespace Rule

variable {tree : Tree} {scopes : ScopeTree} {rule next : Rule}

theorem Sound.introduced (h : rule.Sound tree scopes) :
    ∀ t ∈ rule.introduced?, t.Names tree.Reaches := by
  intro t ht id hid
  cases rule with
  | structDeclared node name =>
    cases ht
    exact h.nodes id hid
  | templateDeclared node function name =>
    cases ht
    exact h.nodes id hid
  | _ => cases ht

theorem sound_of_entity {node : NodeId} {entity : Entity} (hnode : tree.Reaches node)
    (hentity : entity.Reached tree) (hnodes : rule.nodes = node :: entity.node?.toList)
    (hscope : rule.scope? = none) : rule.Sound tree scopes := by
  refine ⟨?_, ?_⟩
  · intro id hid
    rw [hnodes] at hid
    rcases List.mem_cons.mp hid with rfl | hid
    · exact hnode
    · cases entity with
      | node found =>
        cases List.mem_singleton.mp hid
        exact hentity
      | builtin b => cases hid
  · intro id hid
    rw [hscope] at hid
    cases hid

theorem upkeep_sound {setting : Setting} (hsetting : setting.Sturdy) :
    RuleFamily.Upkeep setting (Rule.Sound setting.tree setting.scopes) fun cell =>
      cell.attr.Admits (Ty.Names setting.tree.Reaches) (Entity.Reached setting.tree) where
  spawned rule view hrule hview next hnext := by
    cases spawns_of_mem hnext with
    | reference hlookup | typeName hlookup =>
      exact sound_of_entity (hrule.nodes _ List.mem_cons_self)
        (hsetting.entities.lookup? hlookup) rfl rfl
    | @constructor _ _ struct _ _ hstruct hdecl =>
      have hreached : setting.tree.Reaches struct := View.Reached.decl hview hdecl
      refine ⟨?_, nofun⟩
      intro id hid
      rcases List.mem_cons.mp hid with rfl | hid
      · exact hrule.nodes _ List.mem_cons_self
      · rcases List.mem_cons.mp hid with rfl | hid
        · exact hreached
        · exact hreached.child hstruct hid
    | @field _ _ struct _ _ _ _ _ hfield hstruct htype =>
      have hreached : setting.tree.Reaches struct :=
        View.Reached.type hview htype struct List.mem_cons_self
      refine ⟨?_, nofun⟩
      intro id hid
      rcases List.mem_cons.mp hid with rfl | hid
      · exact hrule.nodes _ List.mem_cons_self
      · cases List.mem_singleton.mp hid
        exact hreached.child hstruct hfield
  writes rule view hrule hview := by
    apply admits_effect (Ty.inherits_names _) hsetting.entities _ hview
    exact hrule.introduced

end Rule
end Attribution
