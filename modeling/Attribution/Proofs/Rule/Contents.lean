import Attribution.Proofs.Checker.Keeps
import Attribution.Proofs.Engine.Upkeep
/-!
# What rules write

A cell holds a value of the sort that its attribute asks for. The types among the values are put
together from types that were read, basic types and those that a declaration introduces, so what
holds of these, and is kept on the way, holds of all types.
-/
namespace Attribution

/-- The sort of the values of an attribute, with what is known of types and entities. -/
def Attr.Admits (sound : Ty → Prop) (known : Entity → Prop) : Attr → Value → Prop
  | type, .type t | value, .type t | declared, .type t => sound t
  | decl, .decl entity => known entity
  | scope, .scope _ | returns, .flag _ | index, .index _ => True
  | _, _ => False

/-- Whether the values of an attribute are types. -/
def Attr.isTyped : Attr → Bool
  | type | value | declared => true
  | _ => false

theorem Attr.admits_type {sound : Ty → Prop} {known : Entity → Prop} {attr : Attr}
    (h : attr.isTyped) {value : Value} :
    attr.Admits sound known value ↔ ∃ t, value = .type t ∧ sound t := by
  cases attr with
  | type | value | declared => cases value <;> simp [Admits]
  | _ => cases h

/-- A property of types that basic types have, that passes between types and their parts, and that
stays when a call puts types in for placeholders. -/
structure Ty.Inherits (sound : Ty → Prop) : Prop where
  basic : ∀ t : Ty, t.isBasic → sound t
  array : ∀ component : Ty, sound (.array component) ↔ sound component
  function : ∀ (params : List Ty) (result : Ty),
    sound (.function params result) ↔ (∀ t ∈ params, sound t) ∧ sound result
  call : ∀ (callee : Ty) (explicit : Option Ty) (arguments : List Ty), sound callee →
    (∀ t ∈ explicit, sound t) → (∀ t ∈ arguments, sound t) →
      sound (instantiate callee explicit arguments).callee

theorem Ty.inherits_true : Ty.Inherits fun _ => True where
  basic _ _ := trivial
  array _ := Iff.rfl
  function _ _ := by simp
  call _ _ _ _ _ _ := trivial

namespace View

variable {view : View} {sound : Ty → Prop} {known : Entity → Prop} {id : NodeId} {type : Ty}

theorem Holds.cell (h : view.Holds fun cell => cell.attr.Admits sound known) {cell : Cell}
    (hattr : cell.attr.isTyped) {value : Value} (hvalue : view cell = some value) :
    ∃ t, value = .type t ∧ sound t :=
  (Attr.admits_type hattr).mp (h cell value hvalue)

theorem Holds.of_read (h : view.Holds fun cell => cell.attr.Admits sound known) {cell : Cell}
    (hattr : cell.attr.isTyped) (htype : (view cell).bind Value.type? = some type) :
    sound type := by
  obtain ⟨value, hvalue, htype⟩ := Option.bind_eq_some_iff.mp htype
  obtain ⟨t, rfl, ht⟩ := h.cell hattr hvalue
  cases htype
  exact ht

theorem Holds.eq_type (h : view.Holds fun cell => cell.attr.Admits sound known) {cell : Cell}
    (hattr : cell.attr.isTyped) : view cell = ((view cell).bind Value.type?).map Value.type := by
  cases hvalue : view cell with
  | none => rfl
  | some value =>
    obtain ⟨t, rfl, _⟩ := h.cell hattr hvalue
    rfl

end View

namespace Rule

open Effect

/-- The type that a declaration introduces. -/
def introduced? : Rule → Option Ty
  | structDeclared node name => some (.struct node name)
  | templateDeclared node function name => some (.generic { decl := node, function, name })
  | _ => none

/-- Only sound types are written. -/
def Gives (sound : Ty → Prop) (effect : Effect Rule) : Prop :=
  ∀ write ∈ effect.writes, ∃ t, write.2 = .type t ∧ sound t

variable {sound : Ty → Prop} {known : Entity → Prop} {setting : Setting} {view : View}
  {node : NodeId} {type : Ty}

theorem gives_of_nil {effect : Effect Rule} (h : effect.writes = []) : Gives sound effect := by
  intro write hwrite
  rw [h] at hwrite
  cases hwrite

theorem gives_type {effect : Effect Rule} (h : effect.writes = [(0, .type type)])
    (htype : sound type) : Gives sound effect := by
  intro write hwrite
  rw [h] at hwrite
  cases List.mem_singleton.mp hwrite
  exact ⟨type, rfl, htype⟩

theorem gives_findIf (amiss : Bool) (cause : Cause) :
    Gives sound (findIf amiss node cause) := by
  cases amiss <;> exact gives_of_nil rfl

theorem gives_copy (hview : view.Holds fun cell => cell.attr.Admits sound known) {cell : Cell}
    (hattr : cell.attr.isTyped) : Gives sound (copy (view cell)) := by
  cases hvalue : view cell with
  | none => exact gives_of_nil rfl
  | some value =>
    obtain ⟨t, rfl, ht⟩ := hview.cell hattr hvalue
    exact gives_type rfl ht

theorem gives_joinElements (hinherits : Ty.Inherits sound) {joined : Option Ty}
    {elements : List (NodeId × Ty)} (hjoined : ∀ t ∈ joined, sound t)
    (helements : ∀ element ∈ elements, sound element.2) :
    Gives sound (joinElements node joined elements) := by
  fun_induction joinElements node joined elements with
  | case1 => exact gives_of_nil rfl
  | case2 joined => exact gives_type rfl ((hinherits.array joined).mpr (hjoined joined rfl))
  | case3 joined element type rest _ others ih =>
    exact ih hjoined fun other hother => helements other (List.mem_cons_of_mem _ hother)
  | case4 element type rest _ ih =>
    apply ih
    · rintro t ⟨⟩
      exact helements _ List.mem_cons_self
    · exact fun other hother => helements other (List.mem_cons_of_mem _ hother)
  | case5 element type rest _ current common hcommon ih =>
    apply ih
    · rintro t ⟨⟩
      rcases Ty.eq_of_commonSupertype hcommon with ⟨rfl, _⟩ | ⟨rfl, _⟩
      · exact helements _ List.mem_cons_self
      · exact hjoined _ rfl
    · exact fun other hother => helements other (List.mem_cons_of_mem _ hother)
  | case6 => exact gives_of_nil rfl

theorem gives_emptyArrayEffect (htype : sound type) : Gives sound (emptyArrayEffect node type) := by
  unfold emptyArrayEffect
  split
  · exact gives_type rfl htype
  · exact gives_of_nil rfl

theorem gives_callEffect (hinherits : Ty.Inherits sound) {function : NodeId} {nodes : List NodeId}
    {callee : Ty} {explicit : Option Ty} {arguments : List Ty} (hcallee : sound callee)
    (hexplicit : ∀ t ∈ explicit, sound t) (harguments : ∀ t ∈ arguments, sound t) :
    Gives sound (callEffect setting node function nodes callee explicit arguments) := by
  have hinstance := hinherits.call callee explicit arguments hcallee hexplicit harguments
  cases callee with
  | function params result =>
    simp only [callEffect]
    split
    next params' result' heq =>
      rw [heq] at hinstance
      exact gives_type rfl ((hinherits.function params' result').mp hinstance).2
    next => exact gives_of_nil rfl
  | _ => exact gives_of_nil rfl

theorem gives_binaryEffect (hinherits : Ty.Inherits sound) {op : BinaryOp} {left right : NodeId}
    {l r : Ty} (hleft : sound l) (hright : sound r) :
    Gives sound (binaryEffect setting node op left right l r) := by
  have hbool : sound .bool := hinherits.basic _ rfl
  unfold binaryEffect
  split
  next placeholder hbypass =>
    apply gives_type rfl
    unfold bypass at hbypass
    split at hbypass
    · have hmem := List.mem_of_find?_eq_some hbypass
      simp only [List.mem_cons, List.not_mem_nil, or_false] at hmem
      rcases hmem with rfl | rfl
      · exact hleft
      · exact hright
    · cases hbypass
  next =>
    split
    · split
      next result hresult =>
        apply gives_type rfl
        rcases Ty.arithmetic_cases hresult with rfl | rfl | rfl <;> exact hinherits.basic _ rfl
      next => exact gives_of_nil rfl
    all_goals exact gives_type rfl hbool

theorem gives_fieldAccessEffect (hinherits : Ty.Inherits sound) (field : String) :
    Gives sound (fieldAccessEffect setting node field type) := by
  unfold fieldAccessEffect
  split
  · split
    · exact gives_type rfl (hinherits.basic _ rfl)
    · exact gives_of_nil rfl
  · split
    · split <;> exact gives_of_nil rfl
    · exact gives_of_nil rfl
  · exact gives_of_nil rfl

/-- The types that a rule writes are sound, if those are that it reads and introduces. -/
theorem gives_effect (hinherits : Ty.Inherits sound) {rule : Rule}
    (hintroduced : ∀ t ∈ rule.introduced?, sound t)
    (hview : view.Holds fun cell => cell.attr.Admits sound known)
    (htyped : ∀ cell ∈ rule.outputs, cell.attr.isTyped) :
    Gives sound (effect setting rule view) := by
  have htype : ∀ id t, view.type? id = some t → sound t := fun _ _ h => hview.of_read rfl h
  have hvalue : ∀ id t, view.value? id = some t → sound t := fun _ _ h => hview.of_read rfl h
  have hdeclared : ∀ id t, view.declared? id = some t → sound t := fun _ _ h => hview.of_read rfl h
  have hfunction : ∀ {ids : List NodeId} {params : List Ty} {result : Ty},
      ids.mapM view.type? = some params → sound result → sound (.function params result) := by
    intro ids params result hparams hresult
    exact (hinherits.function params result).mpr
      ⟨forall_mem_of_mapM hparams fun id _ t h => htype id t h, hresult⟩
  cases rule with
  | structType | templateType => exact gives_type rfl (hinherits.basic _ rfl)
  | structDeclared | templateDeclared => exact gives_type rfl (hintroduced _ rfl)
  | returnReturns | blockReturns | ifReturns | resolveReference | resolveType =>
    cases htyped _ List.mem_cons_self
  | referenceType | typeValue | fieldType | parenthesized | declaredType =>
    exact gives_copy hview rfl
  | construct node reference =>
    simp only [effect]
    split
    · unfold constructEffect
      split <;> exact gives_of_nil rfl
    · exact gives_of_nil rfl
  | constructorType node struct fields =>
    simp only [effect]
    split
    next result params hresult hparams =>
      exact gives_type rfl (hfunction hparams (hdeclared struct result hresult))
    next => exact gives_of_nil rfl
  | arrayLiteral node components =>
    have hnone : ∀ t ∈ (none : Option Ty), sound t := by simp
    apply gives_joinElements hinherits hnone
    intro element helement
    obtain ⟨id, _, hfound⟩ := List.mem_filterMap.mp helement
    obtain ⟨t, ht, rfl⟩ := Option.map_eq_some_iff.mp hfound
    exact htype id t ht
  | emptyInitializer node decl =>
    simp only [effect]
    split
    next expected hexpected => exact gives_emptyArrayEffect (htype decl expected hexpected)
    next => exact gives_of_nil rfl
  | emptyArgument node function argument =>
    simp only [effect]
    split
    next params result index hcallee hindex =>
      split
      next expected hexpected =>
        have hcalleeSound := (hinherits.function params result).mp (htype function _ hcallee)
        exact gives_emptyArrayEffect (hcalleeSound.1 expected (List.mem_of_getElem? hexpected))
      next => exact gives_of_nil rfl
    next => exact gives_of_nil rfl
  | fieldAccess node stem field =>
    simp only [effect]
    split
    · exact gives_fieldAccessEffect hinherits field
    · exact gives_of_nil rfl
  | arrayAccess node array =>
    simp only [effect]
    split
    next component hcomponent =>
      exact gives_type rfl ((hinherits.array component).mp (htype array _ hcomponent))
    next => exact gives_of_nil rfl
    next => exact gives_of_nil rfl
  | call node function typeArgument arguments =>
    simp only [effect]
    split
    next callee hcallee =>
      apply gives_callEffect hinherits (htype function callee hcallee)
      · intro t ht
        obtain ⟨id, _, hid⟩ := Option.bind_eq_some_iff.mp ht
        exact hvalue id t hid
      · intro t ht
        obtain ⟨id, _, hid⟩ := List.mem_filterMap.mp ht
        exact htype id t hid
    next => exact gives_of_nil rfl
  | unary node op operand =>
    simp only [effect]
    split
    next => exact gives_type rfl (hinherits.basic _ (by cases op <;> rfl))
    next => exact gives_of_nil rfl
  | binary node op left right =>
    simp only [effect]
    split
    next l r hleft hright =>
      exact gives_binaryEffect hinherits (htype left l hleft) (htype right r hright)
    next => exact gives_of_nil rfl
  | assignment node left right =>
    simp only [effect]
    split
    next l r hleft hright => exact gives_type rfl (htype left l hleft)
    next => exact gives_of_nil rfl
  | arrayType node component =>
    simp only [effect]
    split
    next t ht => exact gives_type rfl ((hinherits.array t).mpr (hvalue component t ht))
    next => exact gives_of_nil rfl
  | functionType function parameters returnType =>
    simp only [effect]
    split
    next result params hresult hparams =>
      exact gives_type rfl (hfunction hparams (hvalue returnType result hresult))
    next => exact gives_of_nil rfl
  | returnStatement node returnType expression =>
    cases expression <;> simp only [effect] <;> split
    · exact gives_findIf _ _
    · exact gives_of_nil rfl
    · split
      · exact gives_of_nil rfl
      · exact gives_findIf _ _
    · exact gives_of_nil rfl
  | atomArity atom scope =>
    simp only [effect, atomArityEffect]
    split
    · exact gives_of_nil rfl
    · split
      · exact gives_of_nil rfl
      · split
        · exact gives_of_nil rfl
        · exact gives_findIf _ _
  | arrayIndex | initializer | missingReturn | control | termType | templateParameterName =>
    simp only [effect]
    split
    · exact gives_findIf _ _
    · exact gives_of_nil rfl

theorem mem_writes_of_cellWrites {rule : Rule} {effect : Effect Rule} {cell : Cell} {value : Value}
    (h : (cell, value) ∈ Engine.cellWrites rule effect) :
    ∃ output, (output, value) ∈ effect.writes ∧ rule.outputs[output]? = some cell := by
  obtain ⟨⟨output, written⟩, hwrite, hcell⟩ := List.mem_filterMap.mp h
  obtain ⟨found, hfound, heq⟩ := Option.map_eq_some_iff.mp hcell
  cases heq
  exact ⟨output, hwrite, hfound⟩

theorem admits_other (hscopes : setting.scopes.HoldsOnly known) {rule : Rule} {output : Nat}
    {value : Value} {cell : Cell} (hwrite : (output, value) ∈ (effect setting rule view).writes)
    (hcell : rule.outputs[output]? = some cell)
    (hrule : ¬ ∀ cell ∈ rule.outputs, cell.attr.isTyped) :
    cell.attr.Admits sound known value := by
  have hresolved : ∀ {node : NodeId} {scope home : ScopeId} {name : String} {entity : Entity},
      setting.scopes.lookup? scope name = some (entity, home) →
      (output, value) ∈ [(0, Value.decl entity), (1, .scope home)] →
      [Cell.decl node, .scope node][output]? = some cell → cell.attr.Admits sound known value := by
    intro node scope home name entity hlookup hwrite hcell
    simp only [List.mem_cons, Prod.mk.injEq, List.not_mem_nil, or_false] at hwrite
    rcases hwrite with ⟨rfl, rfl⟩ | ⟨rfl, rfl⟩
    · cases hcell
      exact hscopes.lookup? hlookup
    · cases hcell
      trivial
  have hflag : ∀ {node : NodeId} {flag : Bool}, (output, value) ∈ [(0, Value.flag flag)] →
      [Cell.returns node][output]? = some cell → cell.attr.Admits sound known value := by
    intro node flag hwrite hcell
    cases List.mem_singleton.mp hwrite
    cases hcell
    trivial
  cases rule with
  | returnReturns | blockReturns | ifReturns => exact hflag hwrite hcell
  | resolveReference node name scope =>
    simp only [effect, resolveReferenceEffect] at hwrite
    split at hwrite
    next => cases hwrite
    next hlookup => exact hresolved hlookup hwrite hcell
  | resolveType node name scope =>
    simp only [effect, resolveTypeEffect] at hwrite
    split at hwrite
    next => cases hwrite
    next hlookup =>
      split at hwrite
      · exact hresolved hlookup hwrite hcell
      · cases hwrite
  | _ => exact absurd (by simp [outputs, Cell.type, Cell.value, Cell.declared, Attr.isTyped]) hrule

/-- Rules write values of the sorts that their outputs ask for. -/
theorem admits_effect (hinherits : Ty.Inherits sound)
    (hscopes : setting.scopes.HoldsOnly known) {rule : Rule}
    (hintroduced : ∀ t ∈ rule.introduced?, sound t)
    (hview : view.Holds fun cell => cell.attr.Admits sound known) :
    ∀ write ∈ Engine.cellWrites rule (effect setting rule view),
      write.1.attr.Admits sound known write.2 := by
  intro ⟨cell, value⟩ hcell
  obtain ⟨output, hwrite, houtput⟩ := mem_writes_of_cellWrites hcell
  by_cases htyped : ∀ cell ∈ rule.outputs, cell.attr.isTyped
  · apply (Attr.admits_type (htyped cell (List.mem_of_getElem? houtput))).mpr
    exact gives_effect hinherits hintroduced hview htyped _ hwrite
  · exact admits_other hscopes hwrite houtput htyped

theorem introduced?_of_spawned {rule next : Rule}
    (h : next ∈ (effect setting rule view).spawned) : next.introduced? = none := by
  cases spawns_of_mem h <;> rfl

theorem upkeep (hinherits : Ty.Inherits sound) (hscopes : setting.scopes.HoldsOnly known) :
    RuleFamily.Upkeep setting (fun rule : Rule => ∀ t ∈ rule.introduced?, sound t)
      fun cell => cell.attr.Admits sound known where
  spawned rule view _ _ next hnext := by
    rw [introduced?_of_spawned hnext]
    exact fun t ht => nomatch ht
  writes rule view hintroduced hview := admits_effect hinherits hscopes hintroduced hview

end Rule
end Attribution
