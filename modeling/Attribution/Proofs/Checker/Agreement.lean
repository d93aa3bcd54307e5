import Attribution.Proofs.Checker.Yields
import Attribution.Proofs.Tree.Layers
/-!
# The analysis agrees with the recursive checker

When the rules have run, the type and the value of every node of a well-formed tree are those that
the recursive checker finds, whatever else is wrong with the program.
-/
namespace Attribution

open Attribution.Tree Attribution.Part

namespace Preparation

variable {config : Config} {tree : Tree} {preparation : Preparation} {path : List Nat}
  {id : NodeId} {expectation : Expectation} {node : Node} {n : Nat}

/-- The checker that goes by the names of the final cells. -/
def checker (preparation : Preparation) : Checker :=
  Analysis.checker { engine := preparation.final, scopes := preparation.binder.scopes }
    preparation.setting.tree preparation.setting.dependence

theorem checker_tree (h : ofTree config tree = .ok preparation) :
    preparation.checker.tree = tree := setting_tree h

theorem at_of_leads (hwell : tree.WellFormed) (h : ofTree config tree = .ok preparation)
    (hleads : tree.Leads path id expectation) (hnode : tree.node? id = some node)
    (hatom : node.isAtom = false) : At config tree preparation id expectation node :=
  ⟨hwell, h, hwell.walked hleads hnode hatom, hnode⟩

theorem at_of_node (hwell : tree.WellFormed) (h : ofTree config tree = .ok preparation)
    (hnode : tree.node? id = some node) (hatom : node.isAtom = false) :
    ∃ expectation, At config tree preparation id expectation node := by
  obtain ⟨path, expectation, hleads⟩ := hwell.exists_leads hnode
  exact ⟨expectation, at_of_leads hwell h hleads hnode hatom⟩

theorem view_value_eq_none (hwell : tree.WellFormed) (h : ofTree config tree = .ok preparation)
    (hnode : tree.node? id = some node) (hkind : node.isTypeNode = false) :
    preparation.final.view (.value id) = none := by
  apply view_of_unreached hwell h hnode rfl
  · simp [Cell.value]
  · intro expectation action haction hreach
    rw [(kind_of_reach haction).2 hreach] at hkind
    cases hkind

theorem view_type_eq_none (hwell : tree.WellFormed) (h : ofTree config tree = .ok preparation)
    (hnode : tree.node? id = some node) (hkind : (node.isExpression || node.isTyped) = false) :
    preparation.final.view (.type id) = none := by
  apply view_of_unreached hwell h hnode rfl
  · simp [Cell.type]
  · intro expectation action haction hreach
    rw [(kind_of_reach haction).1 hreach] at hkind
    cases hkind

theorem view_introduced (hwell : tree.WellFormed) (h : ofTree config tree = .ok preparation)
    {entity : Entity} (htype : entity.isType tree = true) :
    preparation.final.view entity.declared =
      (preparation.checker.introduced? entity).map Value.type := by
  cases entity with
  | builtin b => exact view_builtin_declared hwell h b
  | node id =>
    obtain ⟨node, hnode, hkind⟩ := satisfies_iff.mp htype
    rw [Checker.introduced?, checker_tree h, hnode]
    cases node with
    | structDecl name fields =>
      obtain ⟨_, hat⟩ := at_of_node hwell h hnode rfl
      exact hat.view_struct.2
    | templateParam held =>
      obtain ⟨path, expectation, hleads⟩ := hwell.exists_leads hnode
      have htemplate : tree.satisfies id Node.isTemplateParam := satisfies_iff.mpr ⟨_, hnode, rfl⟩
      obtain ⟨_, function, _, name, parameters, returnType, body, habove, hfunction⟩ :=
        hwell.exists_function hleads htemplate
      have hat := at_of_leads hwell h hleads hnode rfl
      have hview := (hat.view_template (at_of_leads hwell h habove hfunction rfl)).2
      simp only [hwell.templateOwner?_eq hfunction, Option.map_some]
      exact hview
    | _ => cases hkind

theorem view_denotedWithin (hwell : tree.WellFormed) (h : ofTree config tree = .ok preparation)
    (hleads : tree.Leads path id expectation) (hn : tree.size ≤ path.length + n) :
    preparation.final.view (.value id) =
      (preparation.checker.denotedWithin n id).map Value.type := by
  induction n generalizing path id expectation with
  | zero =>
    have hlt := hwell.length_lt_size hleads
    omega
  | succ n ih =>
    obtain ⟨node, hnode⟩ := hwell.exists_node hleads
    rw [Checker.denotedWithin, checker_tree h, hnode]
    cases node with
    | simpleType name =>
      have hat := at_of_leads hwell h hleads hnode rfl
      change _ = ((preparation.final.view.decl? id).bind _).map _
      rcases hat.simpleType_cases with ⟨hdecl, hvalue, _⟩ |
        ⟨entity, home, _, htype, hdecl, _, hvalue⟩
      · rw [hvalue, View.decl?, hdecl]
        rfl
      · rw [hvalue, View.decl?, hdecl]
        exact view_introduced hwell h htype
    | arrayType component =>
      have hat := at_of_leads hwell h hleads hnode rfl
      have hpart : .act (.add (.arrayType id component)) ∈
          tree.parts id (.arrayType component) expectation := by simp [parts, add]
      obtain ⟨place, hchild⟩ := hleads.exists_child hnode List.mem_cons_self
      have hcomponent := ih hchild (by rw [List.length_cons]; omega)
      rw [hat.view_of_add hpart rfl rfl, Rule.result?_arrayType hcomponent]
    | _ => exact view_value_eq_none hwell h hnode rfl

theorem view_denoted (hwell : tree.WellFormed) (h : ofTree config tree = .ok preparation)
    (hnode : tree.node? id = some node) :
    preparation.final.view (.value id) = (preparation.checker.denoted? id).map Value.type := by
  obtain ⟨path, expectation, hleads⟩ := hwell.exists_leads hnode
  rw [Checker.denoted?, checker_tree h]
  exact view_denotedWithin hwell h hleads (Nat.le_add_left _ _)

theorem view_annotated (hwell : tree.WellFormed) (h : ofTree config tree = .ok preparation)
    (hkind : tree.satisfies id Node.isAnnotated) : preparation.final.view (.type id) =
      (preparation.checker.annotated? id).map Value.type := by
  obtain ⟨node, hnode, hkind⟩ := satisfies_iff.mp hkind
  rw [Checker.annotated?, checker_tree h, hnode]
  have hrule : ∀ {type expectation},
      At config tree preparation id expectation node →
      .act (.add (.declaredType id type)) ∈ tree.parts id node expectation →
      type ∈ node.children → preparation.final.view (.type id) =
        (preparation.checker.denoted? type).map Value.type := by
    intro type expectation hat hpart hchild
    obtain ⟨found, hfound⟩ := (hwell.fits _ _ hnode).exists_node type hchild
    rw [hat.view_of_add hpart rfl rfl, ← view_denoted hwell h hfound]
    exact Rule.result?_copy rfl rfl
  cases node with
  | varDecl name type initializer =>
    obtain ⟨_, hat⟩ := at_of_node hwell h hnode rfl
    exact hrule hat (by simp [parts, add]) List.mem_cons_self
  | parameter name type =>
    obtain ⟨_, hat⟩ := at_of_node hwell h hnode rfl
    exact hrule hat (by simp [parts, add]) List.mem_cons_self
  | fieldDecl name type =>
    obtain ⟨_, hat⟩ := at_of_node hwell h hnode rfl
    exact hrule hat (by simp [parts, add]) List.mem_cons_self
  | _ => cases hkind

theorem view_declarationType (hwell : tree.WellFormed)
    (h : ofTree config tree = .ok preparation) (hnode : tree.node? id = some node)
    (hkind : node.isExpression = false) : preparation.final.view (.type id) =
      (preparation.checker.declarationType? id).map Value.type := by
  rw [Checker.declarationType?, checker_tree h, hnode]
  cases node with
  | varDecl | parameter | fieldDecl =>
    exact view_annotated hwell h (satisfies_iff.mpr ⟨_, hnode, rfl⟩)
  | funDecl name template parameters returnType body =>
    obtain ⟨expectation, hat⟩ := at_of_node hwell h hnode rfl
    have hpart : .act (.add (.functionType id parameters returnType)) ∈
        tree.parts id (.funDecl name template parameters returnType body) expectation := by
      simp [parts, add]
    obtain ⟨_, hparameters, hreturn, _⟩ := hwell.fits _ _ hnode
    have hparams : ∀ parameter ∈ parameters, preparation.final.view (.type parameter) =
        (preparation.checker.annotated? parameter).map Value.type := by
      intro parameter hparameter
      exact view_annotated hwell h
        (satisfies_mono (hparameters parameter hparameter) Node.isAnnotated_of_isParameter)
    obtain ⟨found, hfound, _⟩ := satisfies_iff.mp hreturn
    rw [hat.view_of_add hpart rfl rfl,
      Rule.result?_functionType hparams (view_denoted hwell h hfound)]
  | structDecl name fields =>
    obtain ⟨_, hat⟩ := at_of_node hwell h hnode rfl
    exact hat.view_struct.1
  | templateParam held =>
    obtain ⟨path, expectation, hleads⟩ := hwell.exists_leads hnode
    have htemplate : tree.satisfies id Node.isTemplateParam := satisfies_iff.mpr ⟨_, hnode, rfl⟩
    obtain ⟨_, function, _, name, parameters, returnType, body, habove, hfunction⟩ :=
      hwell.exists_function hleads htemplate
    have hat := at_of_leads hwell h hleads hnode rfl
    exact (hat.view_template (at_of_leads hwell h habove hfunction rfl)).1
  | literal | reference | construct | arrayLiteral | parenthesized | fieldAccess | arrayAccess
  | call | unary | binary | assignment => cases hkind
  | _ => exact view_type_eq_none hwell h hnode rfl

theorem view_entityType (hwell : tree.WellFormed) (h : ofTree config tree = .ok preparation)
    {entity : Entity} (hdeclared : entity.Declared tree) :
    preparation.final.view entity.type =
      (preparation.checker.entityType? entity).map Value.type := by
  cases entity with
  | builtin b => exact view_builtin_type hwell h b
  | node id =>
    obtain ⟨node, hnode, hkind⟩ := satisfies_iff.mp hdeclared
    apply view_declarationType hwell h hnode
    cases node with
    | literal | reference | construct | arrayLiteral | parenthesized | fieldAccess | arrayAccess
    | call | unary | binary | assignment => cases hkind
    | _ => rfl

/-- The type that is expected of an expression, as the cells have it. -/
def lent? (preparation : Preparation) : Expectation → Option Ty
  | .nothing => none
  | .variable decl => preparation.final.view.type? decl
  | .argument function argument => do
    let callee ← preparation.final.view.type? function
    let place ← preparation.final.view.index? argument
    callee.params[place]?

def PartsAgree (preparation : Preparation) (tree : Tree) (n : Nat) (id : NodeId)
    (expectation : Expectation) (node : Node) : Prop :=
  ∀ part lent, (part, lent) ∈ node.offspring id expectation →
    tree.satisfies part Node.isExpression → preparation.final.view (.type part) =
      (preparation.checker.typeWithin n part (preparation.lent? lent)).map Value.type

namespace At

theorem view_reference {name : String}
    (h : At config tree preparation id expectation (.reference name)) :
    preparation.final.view (.type id) = (if preparation.checker.rejected id then none
      else (preparation.checker.entity? id).bind preparation.checker.entityType?).map
        Value.type := by
  change _ = (if preparation.rejected id then none
    else (preparation.final.view.decl? id).bind _).map _
  rcases h.reference_cases with ⟨hdecl, htype, _⟩ |
    ⟨entity, home, hdeclared, hdecl, _, ⟨hrejected, htype⟩ | ⟨haccepted, _, htype⟩⟩
  · rw [htype, View.decl?, hdecl, Option.bind_none, Option.bind_none, ite_self]
    rfl
  · rw [htype, hrejected]
    rfl
  · rw [htype, haccepted, View.decl?, hdecl]
    exact view_entityType h.well h.prepared hdeclared

theorem view_constructor {reference : NodeId}
    (h : At config tree preparation id expectation (.construct reference)) :
    preparation.final.view (.type id) = ((preparation.checker.entity? reference).bind
      preparation.checker.constructorType?).map Value.type := by
  change _ = ((preparation.final.view.decl? reference).bind _).map _
  by_cases hstruct : ∃ decl name fields,
      preparation.final.view.decl? reference = some (.node decl) ∧
        tree.node? decl = some (.structDecl name fields)
  · obtain ⟨decl, name, fields, hdecl, hnode⟩ := hstruct
    have hcell : preparation.final.view (.decl reference) = some (.decl (.node decl)) := by
      obtain ⟨value, hvalue, heq⟩ := Option.bind_eq_some_iff.mp hdecl
      cases value <;> cases heq
      exact hvalue
    have hfields : ∀ field ∈ fields, preparation.final.view (.type field) =
        (preparation.checker.annotated? field).map Value.type := by
      intro field hfield
      exact view_annotated h.well h.prepared
        (satisfies_mono (h.well.fits _ _ hnode field hfield) Node.isAnnotated_of_isField)
    obtain ⟨_, hat⟩ := at_of_node h.well h.prepared hnode rfl
    rw [h.view_construct hcell hnode, Rule.result?_constructorType hfields hat.view_struct.2,
      hdecl, Option.bind_some, Checker.constructorType?, checker_tree h.prepared, hnode]
  · have hother : ∀ decl name fields, preparation.final.view.decl? reference = some (.node decl) →
        tree.node? decl ≠ some (.structDecl name fields) :=
      fun decl name fields hdecl hnode => hstruct ⟨decl, name, fields, hdecl, hnode⟩
    rw [(h.view_construct_eq_none hother).1]
    cases hview : preparation.final.view.decl? reference with
    | none => rfl
    | some entity =>
      cases entity with
      | builtin b => rfl
      | node decl =>
        rw [Option.bind_some, Checker.constructorType?, checker_tree h.prepared]
        split
        next name fields hnode => exact absurd hnode (hother decl name fields hview)
        next => rfl

theorem view_member {stem : NodeId} {name : String} {type : Option Ty}
    (h : At config tree preparation id expectation (.fieldAccess stem name))
    (hstem : preparation.final.view (.type stem) = type.map Value.type) :
    preparation.final.view (.type id) =
      (type.bind (preparation.checker.memberType? name)).map Value.type := by
  have hread := Rule.type?_of_view hstem
  have hown : (∀ found, type = some found →
      (Rule.fieldAccessEffect preparation.setting id name found).spawned = []) →
      preparation.final.view (.type id) = (type.bind fun found =>
        (Rule.fieldAccessEffect preparation.setting id name found).writes.lookup 0) := by
    intro hspawned
    rw [h.view_fieldAccess fun found hfound => hspawned found (hread.symm.trans hfound),
      Rule.result?, Rule.ready, Rule.inputs, List.all_cons, hstem, Rule.effect, hread]
    cases type <;> rfl
  cases type with
  | none =>
    exact hown fun found hfound => by cases hfound
  | some type =>
    cases type with
    | struct decl held =>
      rw [Option.bind_some, Checker.memberType?, checker_tree h.prepared, ← h.tree_eq]
      cases hfield : preparation.setting.tree.field? decl name with
      | none =>
        obtain ⟨hspawned, hwrites⟩ := @Rule.fieldAccessEffect_of_none preparation.setting id decl
          name held hfield
        rw [hown, Option.bind_some, hwrites]
        · rfl
        · intro found hfound
          cases hfound
          exact hspawned
      | some field =>
        rw [h.view_field hstem (Rule.fieldAccessEffect_of_field hfield)]
        rw [h.tree_eq] at hfield
        exact view_annotated h.well h.prepared
          (satisfies_mono (h.well.isField_of_field? hfield) Node.isAnnotated_of_isField)
    | array component =>
      obtain ⟨hspawned, hwrites⟩ :=
        @Rule.fieldAccessEffect_array preparation.setting id name component
      rw [hown]
      · exact hwrites
      · intro found hfound
        cases hfound
        exact hspawned
    | _ =>
      rw [hown]
      · rfl
      · intro found hfound
        cases hfound
        rfl

theorem view_emptyArray (h : At config tree preparation id expectation (.arrayLiteral [])) :
    preparation.final.view (.type id) =
      ((preparation.lent? expectation).filter Ty.isArray).map Value.type := by
  cases expectation with
  | nothing =>
    apply h.view_of_unreached rfl
    · simp [Cell.type]
    · intro action haction
      cases haction
  | «variable» decl =>
    have hpart : .act (.add (.emptyInitializer id decl)) ∈
        tree.parts id (.arrayLiteral []) (.variable decl) := by simp [parts, emptyArray, add]
    rw [h.view_of_add hpart rfl rfl, Rule.result?_emptyInitializer]
    rfl
  | argument function argument =>
    have hpart : .act (.add (.emptyArgument id function argument)) ∈
        tree.parts id (.arrayLiteral []) (.argument function argument) := by
      simp [parts, emptyArray, add]
    rw [h.view_of_add hpart rfl rfl, Rule.result?_emptyArgument]
    rfl

theorem view_call {function : NodeId} {typeArgument : Option NodeId} {arguments : List NodeId}
    (h : At config tree preparation id expectation (.call function typeArgument arguments))
    (hparts : PartsAgree preparation tree n id expectation
      (.call function typeArgument arguments)) :
    preparation.final.view (.type id) = (do
      let callee ← preparation.checker.typeWithin n function none
      let given ← arguments.zipIdx.mapM fun argument =>
        preparation.checker.typeWithin n argument.1 callee.params[argument.2]?
      let explicit ← typeArgument.mapM preparation.checker.denoted?
      callType? callee explicit given : Option Ty).map Value.type := by
  obtain ⟨hfunction, htype, harguments⟩ := h.well.fits _ _ h.node
  have hpart : .act (.add (.call id function typeArgument arguments)) ∈
      tree.parts id (.call function typeArgument arguments) expectation := by simp [parts, add]
  have hcallee := hparts function .nothing List.mem_cons_self hfunction
  have hgiven : ∀ argument ∈ arguments, preparation.final.view (.type argument) =
      (preparation.checker.typeWithin n argument
        (preparation.lent? (.argument function argument))).map Value.type := by
    intro argument hargument
    apply hparts argument _ _ (harguments argument hargument)
    exact List.mem_append_right _ (List.mem_map_of_mem hargument)
  have hexplicit : ∀ type ∈ typeArgument, preparation.final.view (.value type) =
      (preparation.checker.denoted? type).map Value.type := by
    intro type hmem
    obtain ⟨found, hfound, _⟩ := satisfies_iff.mp (htype type (Option.mem_toList.mpr hmem))
    exact view_denoted h.well h.prepared hfound
  rw [h.view_of_add hpart rfl rfl, Rule.result?_call hcallee hgiven hexplicit]
  change ((preparation.checker.typeWithin n function none).bind _).map _ = _
  cases hfound : preparation.checker.typeWithin n function none with
  | none => rfl
  | some callee =>
    -- the places of the arguments are those that the call has noted
    have hplaces : (arguments.mapM fun argument => preparation.checker.typeWithin n argument
        (preparation.lent? (.argument function argument))) =
        arguments.zipIdx.mapM fun argument =>
          preparation.checker.typeWithin n argument.1 callee.params[argument.2]? := by
      rw [← List.zipIdx_map_fst 0 arguments, List.mapM_map, List.zipIdx_map_fst]
      apply mapM_congr
      intro argument hargument
      have hread : preparation.final.view.type? function = some callee := by
        rw [Rule.type?_of_view hcallee]
        exact hfound
      have hindex : preparation.final.view.index? argument.1 = some argument.2 := by
        rw [View.index?, h.view_index (List.mem_zipIdx_iff_getElem?.mp hargument)]
        rfl
      simp only [Function.comp_apply, lent?, hread, hindex, Option.bind_eq_bind,
        Option.bind_some]
    rw [hplaces]
    rfl

end At

theorem view_typeWithin (hwell : tree.WellFormed) (h : ofTree config tree = .ok preparation)
    (hleads : tree.Leads path id expectation) (hn : tree.size ≤ path.length + n)
    (hkind : tree.satisfies id Node.isExpression) :
    preparation.final.view (.type id) = (preparation.checker.typeWithin n id
      (preparation.lent? expectation)).map Value.type := by
  -- paths are shorter than the arena is large, so the depth never runs out before they end
  induction n generalizing path id expectation with
  | zero =>
    have hlt := hwell.length_lt_size hleads
    omega
  | succ n ih =>
    obtain ⟨node, hnode, hkind⟩ := satisfies_iff.mp hkind
    have hat := at_of_leads hwell h hleads hnode (Node.isAtom_of_isExpression hkind)
    have hfits := hwell.fits _ _ hnode
    have hparts : PartsAgree preparation tree n id expectation node := by
      intro part lent hpart hsat
      obtain ⟨place, hchild⟩ := hleads.exists_child hnode hpart
      exact ih hchild (by rw [List.length_cons]; omega) hsat
    have hplain : ∀ part, (part, Expectation.nothing) ∈ node.offspring id expectation →
        tree.satisfies part Node.isExpression → preparation.final.view (.type part) =
          (preparation.checker.typeWithin n part none).map Value.type :=
      fun part => hparts part .nothing
    rw [Checker.typeWithin, checker_tree h, hnode]
    cases node with
    | literal value =>
      exact hat.view_of_write (by simp [parts]) (by simp [Cell.type])
    | reference name => exact hat.view_reference
    | construct reference => exact hat.view_constructor
    | arrayLiteral components =>
      cases components with
      | nil => exact hat.view_emptyArray
      | cons first rest =>
        have hpart : .act (.add (.arrayLiteral id (first :: rest))) ∈
            tree.parts id (.arrayLiteral (first :: rest)) expectation := by simp [parts, add]
        have hcomponents : ∀ component ∈ first :: rest,
            preparation.final.view (.type component) =
              (preparation.checker.typeWithin n component none).map Value.type := by
          intro component hcomponent
          exact hplain component (List.mem_map_of_mem hcomponent) (hfits component hcomponent)
        rw [hat.view_of_add hpart rfl rfl, Rule.result?_arrayLiteral hcomponents]
    | parenthesized expression =>
      have hpart : .act (.add (.parenthesized id expression)) ∈
          tree.parts id (.parenthesized expression) expectation := by simp [parts, add]
      rw [hat.view_of_add hpart rfl rfl, ← hparts expression expectation
        List.mem_cons_self hfits]
      exact Rule.result?_copy rfl rfl
    | fieldAccess stem name =>
      exact hat.view_member (hplain stem List.mem_cons_self hfits)
    | arrayAccess array index =>
      have hpart : .act (.add (.arrayAccess id array)) ∈
          tree.parts id (.arrayAccess array index) expectation := by simp [parts, add]
      rw [hat.view_of_add hpart rfl rfl,
        Rule.result?_arrayAccess (hplain array List.mem_cons_self hfits.1)]
    | call function typeArgument arguments =>
      exact hat.view_call hparts
    | unary op operand =>
      have hpart : .act (.add (.unary id op operand)) ∈
          tree.parts id (.unary op operand) expectation := by simp [parts, add]
      rw [hat.view_of_add hpart rfl rfl,
        Rule.result?_unary (hplain operand List.mem_cons_self hfits)]
    | binary op left right =>
      have hpart : .act (.add (.binary id op left right)) ∈
          tree.parts id (.binary op left right) expectation := by simp [parts, add]
      rw [hat.view_of_add hpart rfl rfl, Rule.result?_binary preparation.checker rfl
        (hplain left List.mem_cons_self hfits.1)
        (hplain right (List.mem_cons_of_mem _ List.mem_cons_self) hfits.2)]
    | assignment left right =>
      have hpart : .act (.add (.assignment id left right)) ∈
          tree.parts id (.assignment left right) expectation := by simp [parts, add]
      rw [hat.view_of_add hpart rfl rfl, Rule.result?_assignment
        (hplain left List.mem_cons_self hfits.1)
        (hplain right (List.mem_cons_of_mem _ List.mem_cons_self) hfits.2)]
    | _ => cases hkind

/-- What is expected of an expression follows from types alone. -/
theorem expected?_eq (hwell : tree.WellFormed) (h : ofTree config tree = .ok preparation)
    (hleads : tree.Leads path id expectation) :
    preparation.checker.expected? expectation = preparation.lent? expectation := by
  rcases hleads.lent_cases with rfl | ⟨decl, name, type, initializer, _, _, rfl, _, hdecl⟩ |
    ⟨function, argument, call, typeArgument, arguments, above, before, place, rfl, habove, hcall,
      hplace⟩
  · rfl
  · exact (Rule.type?_of_view (view_annotated hwell h (satisfies_iff.mpr ⟨_, hdecl, rfl⟩))).symm
  · have hat := at_of_leads hwell h habove hcall rfl
    obtain ⟨_, hfunction⟩ := habove.exists_child hcall
      (show (function, Expectation.nothing) ∈ _ from List.mem_cons_self)
    have htype := view_typeWithin hwell h hfunction (Nat.le_add_left _ _) (hwell.fits _ _ hcall).1
    have hindex : preparation.final.view.index? argument = some place := by
      rw [View.index?, hat.view_index hplace]
      rfl
    rw [Checker.expected?, lent?, checker_tree h, Rule.type?_of_view htype, hindex,
      hwell.argumentPlace?_eq hcall hplace]
    rfl

theorem view_type (hwell : tree.WellFormed) (h : ofTree config tree = .ok preparation)
    (hleads : tree.Leads path id expectation) :
    preparation.final.view.type? id = preparation.checker.type? id expectation := by
  obtain ⟨node, hnode⟩ := hwell.exists_node hleads
  have hnode' : preparation.checker.tree.node? id = some node := by
    rw [checker_tree h]
    exact hnode
  rw [Checker.type?]
  cases hkind : node.isExpression with
  | true =>
    rw [Checker.declarationType?_eq_none hnode' hkind, Option.or_none, expected?_eq hwell h hleads,
      checker_tree h]
    exact Rule.type?_of_view (view_typeWithin hwell h hleads (Nat.le_add_left _ _)
      (satisfies_iff.mpr ⟨node, hnode, hkind⟩))
  | false =>
    rw [Checker.typeWithin_eq_none hnode' hkind, Option.none_or]
    exact Rule.type?_of_view (view_declarationType hwell h hnode hkind)

end Preparation

/-- The analysis of a well-formed tree gives every node the type and the value that the recursive
checker finds. -/
theorem types_eq_checker (config : Config) {tree : Tree} (hwell : tree.WellFormed) :
    ∃ preparation analysis, Preparation.ofTree config tree = .ok preparation ∧
      Analysis.ofTree config tree = .ok analysis ∧
      ∀ path id expectation, tree.Leads path id expectation →
        analysis.typeOf? id =
          (analysis.checker tree preparation.setting.dependence).type? id expectation ∧
        analysis.valueOf? id =
          (analysis.checker tree preparation.setting.dependence).denoted? id := by
  obtain ⟨preparation, h⟩ := Preparation.exists_ofTree hwell config
  refine ⟨preparation, _, h, Analysis.ofTree_eq h, ?_⟩
  intro path id expectation hleads
  have hchecker : Analysis.checker
      { engine := preparation.final, scopes := preparation.binder.scopes } tree
        preparation.setting.dependence = preparation.checker := by
    rw [Preparation.checker, Preparation.setting_tree h]
  obtain ⟨node, hnode⟩ := hwell.exists_node hleads
  rw [hchecker]
  exact ⟨Preparation.view_type hwell h hleads,
    Rule.value?_of_view (Preparation.view_denoted hwell h hnode)⟩

/-- A function of an array, a call that passes it an empty one, and a name that stands for
nothing. -/
def Tree.emptyPassed : Tree where
  nodes := #[
    { node := .root [1, 9, 12] },
    { node := .funDecl "size" none [2] 5 6 },
    { node := .parameter "xs" 3 },
    { node := .arrayType 4 },
    { node := .simpleType "Int" },
    { node := .simpleType "Int" },
    { node := .block [7] },
    { node := .returnStatement (some 8) },
    { node := .literal (.int 0) },
    { node := .expressionStatement 10 },
    { node := .call 11 none [14] },
    { node := .reference "size" },
    { node := .expressionStatement 13 },
    { node := .reference "unknown" },
    { node := .parenthesized 15 },
    { node := .arrayLiteral [] }]
  root := 0

theorem types_eq_checker_emptyPassed : Tree.emptyPassed.WellFormed ∧
    ∃ preparation analysis, Preparation.ofTree {} Tree.emptyPassed = .ok preparation ∧
      Analysis.ofTree {} Tree.emptyPassed = .ok analysis ∧ analysis.findings ≠ [] ∧
      analysis.typeOf? 15 = some (.array .int) ∧
      (analysis.checker Tree.emptyPassed preparation.setting.dependence).type? 15
        (.argument 11 14) = some (.array .int) ∧
      (analysis.checker Tree.emptyPassed preparation.setting.dependence).denoted? 3 =
        analysis.valueOf? 3 := by
  have hwell : Tree.emptyPassed.WellFormed := by decide +kernel
  obtain ⟨preparation, analysis, hprepared, hanalysis, hall⟩ := types_eq_checker {} hwell
  have hfound : (Analysis.ofTree {} Tree.emptyPassed).toOption.any
      (fun analysis => analysis.findings.isEmpty) = false := by decide +kernel
  have hsame : ((Analysis.ofTree {} Tree.emptyPassed).toOption.bind (·.typeOf? 15)).any
      (·.same (.array .int)) = true := by decide +kernel
  rw [hanalysis] at hfound hsame
  have htype : analysis.typeOf? 15 = some (.array .int) := by
    obtain ⟨type, htype, hsame⟩ := (Option.any_eq_true _ _).mp hsame
    cases type with
    | array component =>
      cases component with
      | int => exact htype
      | _ => cases hsame
    | _ => cases hsame
  have hcall : Tree.emptyPassed.Leads [1, 0, 1] 14 (.argument 11 14) :=
    .child (.child (.child .root rfl rfl) rfl rfl) rfl rfl
  have hinner : Tree.emptyPassed.Leads [0, 1, 0, 1] 15 (.argument 11 14) := hcall.child rfl rfl
  have hparameter : Tree.emptyPassed.Leads [0, 0, 0] 3 .nothing :=
    .child (.child (.child .root rfl rfl) rfl rfl) rfl rfl
  refine ⟨hwell, preparation, analysis, hprepared, hanalysis, ?_, htype, ?_, ?_⟩
  · intro hnone
    simp [Except.toOption, hnone] at hfound
  · rw [← (hall _ _ _ hinner).1]
    exact htype
  · exact (hall _ _ _ hparameter).2.symm

end Attribution
