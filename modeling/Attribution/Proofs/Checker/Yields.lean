import Attribution.Proofs.Checker.Basic
/-!
# What rules yield

Given the types of its parts, the rule of an expression or a declaration yields the type that the
recursive checker computes from them, and nothing if the type of a part is missing.
-/
namespace Attribution
namespace Rule

open Effect

theorem isSome_mapM {α β : Type} (f : α → Option β) (xs : List α) :
    (xs.mapM f).isSome = xs.all fun x => (f x).isSome := by
  induction xs with
  | nil => rfl
  | cons x xs ih =>
    rw [List.mapM_cons, List.all_cons, ← ih]
    cases f x with
    | none => rfl
    | some y => cases xs.mapM f <;> rfl

theorem isSome_mapM_option {α β : Type} (f : α → Option β) (x : Option α) :
    (x.mapM f).isSome = x.toList.all fun a => (f a).isSome := by
  cases x with
  | none => rfl
  | some a => cases ha : f a <;> simp [ha]

theorem filterMap_eq_of_mapM {α β : Type} {f : α → Option β} {xs : List α} {ys : List β}
    (h : xs.mapM f = some ys) : xs.filterMap f = ys := by
  induction xs generalizing ys with
  | nil => exact Option.some.inj h
  | cons x xs ih =>
    rw [List.mapM_cons] at h
    obtain ⟨y, hy, h⟩ := Option.bind_eq_some_iff.mp h
    obtain ⟨rest, hrest, h⟩ := Option.bind_eq_some_iff.mp h
    rw [List.filterMap_cons_some hy, ih hrest]
    exact Option.some.inj h

theorem bind_eq_of_mapM {α β : Type} {f : α → Option β} {x : Option α} {y : Option β}
    (h : x.mapM f = some y) : x.bind f = y := by
  cases x with
  | none => exact Option.some.inj h
  | some a => cases ha : f a <;> simp_all

theorem getElem?_of_mapM {α β : Type} {f : α → Option β} {xs : List α} {ys : List β}
    (h : xs.mapM f = some ys) (place : Nat) : ys[place]? = xs[place]?.bind f := by
  induction xs generalizing ys place with
  | nil =>
    cases Option.some.inj h
    rfl
  | cons x xs ih =>
    rw [List.mapM_cons] at h
    obtain ⟨y, hy, h⟩ := Option.bind_eq_some_iff.mp h
    obtain ⟨rest, hrest, h⟩ := Option.bind_eq_some_iff.mp h
    cases Option.some.inj h
    cases place with
    | zero => exact hy.symm
    | succ place => exact ih hrest place

variable {setting : Setting} {view : View} {node : NodeId}

theorem type?_of_view {id : NodeId} {type : Option Ty}
    (h : view (.type id) = type.map Value.type) : view.type? id = type := by
  rw [View.type?, h]
  cases type <;> rfl

theorem value?_of_view {id : NodeId} {type : Option Ty}
    (h : view (.value id) = type.map Value.type) : view.value? id = type := by
  rw [View.value?, h]
  cases type <;> rfl

theorem all_isSome_type {ids : List NodeId} {type? : NodeId → Option Ty}
    (h : ∀ id ∈ ids, view (.type id) = (type? id).map Value.type) :
    ((ids.map Cell.type).all fun cell => (view cell).isSome) = (ids.mapM type?).isSome := by
  rw [isSome_mapM, List.all_map]
  apply Bool.eq_iff_iff.mpr
  simp only [List.all_eq_true, Function.comp_apply]
  constructor
  · intro hall id hid
    have hsome := hall id hid
    rw [h id hid, Option.isSome_map] at hsome
    exact hsome
  · intro hall id hid
    rw [h id hid, Option.isSome_map]
    exact hall id hid

theorem mapM_type? {ids : List NodeId} {type? : NodeId → Option Ty}
    (h : ∀ id ∈ ids, view (.type id) = (type? id).map Value.type) :
    ids.mapM view.type? = ids.mapM type? :=
  mapM_congr fun id hid => type?_of_view (h id hid)

theorem result?_arrayType {component : NodeId} {value : Option Ty}
    (h : view (.value component) = value.map Value.type) :
    (Rule.arrayType node component).result? setting view =
      (value.map Ty.array).map Value.type := by
  cases value <;> simp [result?, ready, inputs, effect, value?_of_view h, h, giveType, give]

theorem result?_functionType {parameters : List NodeId} {returnType : NodeId}
    {type? : NodeId → Option Ty} {result : Option Ty}
    (hparameters : ∀ id ∈ parameters, view (.type id) = (type? id).map Value.type)
    (hresult : view (.value returnType) = result.map Value.type) :
    (Rule.functionType node parameters returnType).result? setting view =
      (do
        let params ← parameters.mapM type?
        let result ← result
        return Ty.function params result : Option Ty).map Value.type := by
  rw [result?, ready, inputs, List.all_cons, all_isSome_type hparameters, effect,
    mapM_type? hparameters, value?_of_view hresult, hresult]
  cases parameters.mapM type? <;> cases result <;> rfl

theorem result?_constructorType {struct : NodeId} {name : String} {fields : List NodeId}
    {type? : NodeId → Option Ty}
    (hfields : ∀ id ∈ fields, view (.type id) = (type? id).map Value.type)
    (hstruct : view (.declared struct) = some (.type (.struct struct name))) :
    (Rule.constructorType node struct fields).result? setting view =
      ((fields.mapM type?).map fun params =>
        Ty.function params (.struct struct name)).map Value.type := by
  rw [result?, ready, inputs, List.all_cons, all_isSome_type hfields, effect,
    mapM_type? hfields, View.declared?, hstruct]
  cases fields.mapM type? <;> rfl

theorem result?_unary {op : UnaryOp} {operand : NodeId} {type : Option Ty}
    (h : view (.type operand) = type.map Value.type) :
    (Rule.unary node op operand).result? setting view =
      (type.map fun _ => op.type).map Value.type := by
  cases type <;>
    simp [result?, ready, inputs, effect, type?_of_view h, h, giveType, give, finding]

theorem lookup_binaryEffect (checker : Checker)
    (hdependence : setting.dependence = checker.dependence) {op : BinaryOp} {left right : NodeId}
    {l r : Ty} : (binaryEffect setting node op left right l r).writes.lookup 0 =
      (checker.binaryType? op left right l r).map Value.type := by
  rw [binaryEffect, bypass, Checker.binaryType?, hdependence, placeholderOperand]
  split
  next placeholder hplaceholder =>
    rw [hplaceholder]
    rfl
  next hnone =>
    rw [hnone, Option.none_or]
    cases op.kind with
    | arithmetic =>
      simp only []
      cases Ty.arithmetic op l r <;> rfl
    | comparison | equality | logic => rfl

theorem result?_binary (checker : Checker) (hdependence : setting.dependence = checker.dependence)
    {op : BinaryOp} {left right : NodeId} {l r : Option Ty}
    (hleft : view (.type left) = l.map Value.type)
    (hright : view (.type right) = r.map Value.type) :
    (Rule.binary node op left right).result? setting view =
      (do
        let l ← l
        let r ← r
        checker.binaryType? op left right l r : Option Ty).map Value.type := by
  rw [result?, ready, inputs, List.all_cons, List.all_cons, hleft, hright, effect,
    type?_of_view hleft, type?_of_view hright]
  cases l with
  | none => rfl
  | some l =>
    cases r with
    | none => rfl
    | some r => exact lookup_binaryEffect checker hdependence

theorem result?_assignment {left right : NodeId} {l r : Option Ty}
    (hleft : view (.type left) = l.map Value.type)
    (hright : view (.type right) = r.map Value.type) :
    (Rule.assignment node left right).result? setting view =
      (do
        let l ← l
        let _ ← r
        return l : Option Ty).map Value.type := by
  rw [result?, ready, inputs, List.all_cons, List.all_cons, hleft, hright, effect,
    type?_of_view hleft, type?_of_view hright]
  cases l <;> cases r <;> rfl

theorem result?_arrayAccess {array : NodeId} {type : Option Ty}
    (h : view (.type array) = type.map Value.type) :
    (Rule.arrayAccess node array).result? setting view =
      (type.bind Ty.component?).map Value.type := by
  rw [result?, ready, inputs, List.all_cons, h, effect, type?_of_view h]
  cases type with
  | none => rfl
  | some type => cases type <;> rfl

/-- The common supertype of what is joined so far, if anything, and of the elements to come. -/
def joinAll : Option Ty → List Ty → Option Ty
  | none, [] => none
  | none, first :: rest => rest.foldlM Ty.commonSupertype first
  | some joined, rest => rest.foldlM Ty.commonSupertype joined

theorem lookup_joinElements (joined : Option Ty) (elements : List (NodeId × Ty)) :
    (joinElements node joined elements).writes.lookup 0 =
      ((joinAll joined ((elements.map Prod.snd).filter fun element : Ty => !element.isVoid)).map
        Ty.array).map Value.type := by
  fun_induction joinElements node joined elements with
  | case1 => rfl
  | case2 => rfl
  | case3 joined element type rest hvoid others ih =>
    rw [List.map_cons, List.filter_cons_of_neg (by simp [hvoid])]
    exact ih
  | case4 element type rest hvoid ih =>
    rw [List.map_cons, List.filter_cons_of_pos (by simp [hvoid])]
    exact ih
  | case5 element type rest hvoid current common hcommon ih =>
    rw [List.map_cons, List.filter_cons_of_pos (by simp [hvoid]), ih]
    simp only [joinAll, List.foldlM_cons, hcommon, Option.bind_eq_bind, Option.bind_some]
  | case6 element type rest hvoid current hcommon =>
    rw [List.map_cons, List.filter_cons_of_pos (by simp [hvoid])]
    simp only [joinAll, List.foldlM_cons, hcommon, Option.bind_eq_bind, Option.bind_none]
    rfl

theorem joinAll_none (types : List Ty) :
    joinAll none (types.filter fun element => !element.isVoid) = elementType? types := by
  rw [elementType?]
  cases types.filter fun element : Ty => !element.isVoid <;> rfl

theorem map_snd_elements {components : List NodeId} {types : List Ty}
    (h : components.mapM view.type? = some types) :
    (components.filterMap fun id => (view.type? id).map fun type => (id, type)).map Prod.snd =
      types := by
  rw [List.map_filterMap, ← filterMap_eq_of_mapM h]
  apply List.filterMap_congr
  intro id _
  rw [Option.map_map]
  exact Option.map_id'

theorem result?_arrayLiteral {components : List NodeId} {type? : NodeId → Option Ty}
    (h : ∀ id ∈ components, view (.type id) = (type? id).map Value.type) :
    (Rule.arrayLiteral node components).result? setting view =
      (do
        let elements ← components.mapM type?
        (elementType? elements).map Ty.array : Option Ty).map Value.type := by
  rw [result?, ready, inputs, all_isSome_type h, effect]
  cases hall : components.mapM type? with
  | none => rfl
  | some elements =>
    rw [← mapM_type? h] at hall
    rw [Option.isSome_some, if_pos rfl, lookup_joinElements, map_snd_elements hall, joinAll_none]
    rfl

theorem fieldAccessEffect_of_field {decl field : NodeId} {name held : String}
    (h : setting.tree.field? decl name = some field) :
    fieldAccessEffect setting node name (.struct decl held) =
      Effect.spawn (.fieldType node field) := by
  cases hnode : setting.tree.node? decl with
  | none => simp [Tree.field?, hnode] at h
  | some found =>
    cases found with
    | structDecl struct fields =>
      simp only [Tree.field?, hnode] at h
      simp only [fieldAccessEffect, hnode, h]
    | _ => simp [Tree.field?, hnode] at h

theorem fieldAccessEffect_of_none {decl : NodeId} {name held : String}
    (h : setting.tree.field? decl name = none) :
    (fieldAccessEffect setting node name (.struct decl held)).spawned = [] ∧
      (fieldAccessEffect setting node name (.struct decl held)).writes = [] := by
  cases hnode : setting.tree.node? decl with
  | none => simp [fieldAccessEffect, hnode, nothing]
  | some found =>
    cases found with
    | structDecl struct fields =>
      simp only [Tree.field?, hnode] at h
      simp [fieldAccessEffect, hnode, h, find]
    | _ => simp [fieldAccessEffect, hnode, nothing]

theorem fieldAccessEffect_array (name : String) (component : Ty) :
    (fieldAccessEffect setting node name (.array component)).spawned = [] ∧
      (fieldAccessEffect setting node name (.array component)).writes.lookup 0 =
        (if name = "length" then some Ty.int else none).map Value.type := by
  rw [fieldAccessEffect]
  by_cases hlength : name = "length"
  · rw [if_pos hlength, if_pos hlength]
    exact ⟨rfl, rfl⟩
  · rw [if_neg hlength, if_neg hlength]
    exact ⟨rfl, rfl⟩

theorem lookup_callEffect {function : NodeId} {nodes : List NodeId} {callee : Ty}
    {explicit : Option Ty} {arguments : List Ty} :
    (callEffect setting node function nodes callee explicit arguments).writes.lookup 0 =
      (callType? callee explicit arguments).map Value.type := by
  cases callee with
  | function params result =>
    rw [callType?, callEffect]
    cases (instantiate (.function params result) explicit arguments).callee <;> rfl
  | _ => rfl

theorem result?_call {function : NodeId} {typeArgument : Option NodeId} {arguments : List NodeId}
    {callee : Option Ty} {type? value? : NodeId → Option Ty}
    (hcallee : view (.type function) = callee.map Value.type)
    (harguments : ∀ id ∈ arguments, view (.type id) = (type? id).map Value.type)
    (hexplicit : ∀ id ∈ typeArgument, view (.value id) = (value? id).map Value.type) :
    (Rule.call node function typeArgument arguments).result? setting view =
      (do
        let callee ← callee
        let given ← arguments.mapM type?
        let explicit ← typeArgument.mapM value?
        callType? callee explicit given : Option Ty).map Value.type := by
  rw [result?, ready, inputs, List.cons_append, List.all_cons, List.all_append, hcallee,
    all_isSome_type harguments, effect, type?_of_view hcallee]
  cases callee with
  | none => rfl
  | some callee =>
    cases hall : arguments.mapM type? with
    | none => simp
    | some given =>
      rw [← mapM_type? harguments] at hall
      rw [filterMap_eq_of_mapM hall]
      cases typeArgument with
      | none => simp [lookup_callEffect]
      | some t =>
        have ht : view (.value t) = (value? t).map Value.type := hexplicit t rfl
        cases hvalue : value? t with
        | none =>
          rw [hvalue] at ht
          simp [ht, hvalue]
        | some explicit =>
          rw [hvalue] at ht
          simp [ht, hvalue, lookup_callEffect, value?_of_view ht]

theorem lookup_emptyArrayEffect {expected : Ty} :
    (emptyArrayEffect node expected).writes.lookup 0 =
      ((some expected).filter Ty.isArray).map Value.type := by
  rw [emptyArrayEffect, Option.filter_some]
  split <;> rfl

theorem result?_emptyInitializer {decl : NodeId} :
    (Rule.emptyInitializer node decl).result? setting view =
      ((view.type? decl).filter Ty.isArray).map Value.type := by
  rw [result?, ready, inputs, List.all_cons, effect]
  cases htype : view.type? decl with
  | none => exact ite_self none
  | some expected =>
    obtain ⟨value, hvalue, _⟩ := Option.bind_eq_some_iff.mp htype
    rw [hvalue]
    exact lookup_emptyArrayEffect

theorem result?_emptyArgument {function argument : NodeId} :
    (Rule.emptyArgument node function argument).result? setting view =
      ((do
        let callee ← view.type? function
        let place ← view.index? argument
        callee.params[place]? : Option Ty).filter Ty.isArray).map Value.type := by
  rw [result?, ready, inputs, List.all_cons, List.all_cons, effect]
  cases htype : view.type? function with
  | none => exact ite_self none
  | some callee =>
    cases hindex : view.index? argument with
    | none =>
      cases callee <;> exact ite_self none
    | some place =>
      obtain ⟨_, hcallee, _⟩ := Option.bind_eq_some_iff.mp htype
      obtain ⟨_, hplace, _⟩ := Option.bind_eq_some_iff.mp hindex
      rw [hcallee, hplace]
      cases callee with
      | function params result =>
        simp only [Option.bind_eq_bind, Option.bind_some, Ty.params]
        cases params[place]? with
        | none => rfl
        | some expected => exact lookup_emptyArrayEffect
      | _ => rfl

end Rule
end Attribution
