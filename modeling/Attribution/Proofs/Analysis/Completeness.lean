import Attribution.Proofs.Analysis.Returns
import Attribution.Proofs.Checker.Grounded
import Attribution.Proofs.Rule.Outspoken
/-!
# Complete analyses

An analysis that finds nothing leaves nothing out: no rule waits for anything, every expression and
every declaration has a type, every name stands for something, every type node denotes a type, and
of every statement that can return it is known whether it does.
-/
namespace Attribution

theorem Node.isName_of_isReference {node : Node} (h : node.isReference) : node.isName := by
  cases node <;> first | rfl | cases h

/-- An expression is the initializer of a variable, in any number of parentheses. -/
inductive Tree.Initializes (tree : Tree) : NodeId → NodeId → Prop
  | direct {decl : NodeId} {name : String} {type initializer : NodeId} :
    tree.node? decl = some (.varDecl name type initializer) → Initializes tree initializer decl
  | inner {outer expression decl : NodeId} : tree.node? outer = some (.parenthesized expression) →
    Initializes tree outer decl → Initializes tree expression decl

theorem Tree.Initializes.expectation_eq {tree : Tree} (hwell : tree.WellFormed)
    {id decl : NodeId} (h : tree.Initializes id decl) {path : List Nat} {expectation : Expectation}
    (hleads : tree.Leads path id expectation) : expectation = .variable decl := by
  induction h generalizing path expectation with
  | @direct decl name type initializer hdecl =>
    obtain ⟨above, before, habove⟩ := hwell.exists_leads hdecl
    have hmem : (initializer, Expectation.variable decl) ∈
        (Node.varDecl name type initializer).offspring decl before :=
      List.mem_cons_of_mem _ List.mem_cons_self
    obtain ⟨place, hchild⟩ := habove.exists_child hdecl hmem
    exact hwell.expectation_unique hchild hleads
  | inner houter _ ih =>
    obtain ⟨above, before, habove⟩ := hwell.exists_leads houter
    obtain ⟨place, hchild⟩ := habove.exists_child houter List.mem_cons_self
    rw [hwell.expectation_unique hchild hleads]
    exact ih habove

theorem Tree.Initializes.exists_variable {tree : Tree} {id decl : NodeId}
    (h : tree.Initializes id decl) :
    ∃ name type initializer, tree.node? decl = some (.varDecl name type initializer) := by
  induction h with
  | direct hdecl => exact ⟨_, _, _, hdecl⟩
  | inner _ _ ih => exact ih

open Attribution.Tree Attribution.Part

namespace Preparation

variable {config : Config} {tree : Tree} {preparation : Preparation} {path : List Nat}
  {id : NodeId} {expectation : Expectation} {node : Node} {n : Nat}

theorem exit_expression (hwell : tree.WellFormed) (hnode : tree.node? id = some node)
    {statement : NodeId} {expression : Option NodeId}
    (hpart : .act (.exit statement expression) ∈ tree.parts id node expectation) :
    ∀ part ∈ expression.toList, tree.satisfies part Node.isExpression := by
  have hfits := hwell.fits _ _ hnode
  cases does_of_part hpart
  exact hfits

/-- The analysis of a tree finds nothing, and every empty array literal initializes a variable. -/
structure Faultless (preparation : Preparation) (config : Config) (tree : Tree) : Prop where
  well : tree.WellFormed
  prepared : ofTree config tree = .ok preparation
  findings : preparation.final.findings = []
  initialized : ∀ id, tree.node? id = some (.arrayLiteral []) → ∃ decl, tree.Initializes id decl

theorem exists_type (hwell : tree.WellFormed) (h : ofTree config tree = .ok preparation)
    (hnode : tree.node? id = some node) (hsome : (preparation.final.view (.type id)).isSome) :
    ∃ type : Ty, preparation.final.view (.type id) = some (.type type) ∧ type.Grounded tree := by
  obtain ⟨path, expectation, hleads⟩ := hwell.exists_leads hnode
  rw [isSome_type h] at hsome
  obtain ⟨type, htype⟩ := Option.isSome_iff_exists.mp hsome
  refine ⟨type, by rw [view_eq_type? h, htype]; rfl, ?_⟩
  rw [view_type hwell h hleads] at htype
  have hgrounded := Checker.grounded_type htype
  rwa [checker_tree h] at hgrounded

namespace Faultless

theorem at_node (h : preparation.Faultless config tree) (hnode : tree.node? id = some node)
    (hatom : node.isAtom = false) :
    ∃ expectation, At config tree preparation id expectation node :=
  at_of_node h.well h.prepared hnode hatom

theorem findings_of_ready (h : preparation.Faultless config tree) {rule : Rule}
    (hadd : .add rule ∈ preparation.commands) (hready : rule.ready preparation.final.view) :
    (Rule.effect preparation.setting rule preparation.final.view).findings = [] := by
  rw [List.eq_nil_iff_forall_not_mem]
  intro finding hfinding
  have hmem := mem_findings_of_rule hadd hready hfinding
  rw [h.findings] at hmem
  cases hmem

theorem isSome_of_add (h : preparation.Faultless config tree)
    (hat : At config tree preparation id expectation node) {rule : Rule}
    (hpart : .act (.add rule) ∈ tree.parts id node expectation) {cell : Cell}
    (houtputs : rule.outputs = [cell]) (hweight : rule.weight = 1)
    (hready : rule.ready preparation.final.view)
    (hspeaks : (Rule.effect preparation.setting rule preparation.final.view).Speaks) :
    (preparation.final.view cell).isSome := by
  rw [hat.view_of_add hpart houtputs hweight, Rule.result?, if_pos hready]
  exact hspeaks (h.findings_of_ready (hat.add_mem hpart) hready)

theorem introduced (h : preparation.Faultless config tree) {entity : Entity}
    (htype : entity.isType tree = true) : (preparation.checker.introduced? entity).isSome := by
  cases entity with
  | builtin b => exact htype
  | node id =>
    obtain ⟨node, hnode, hkind⟩ := satisfies_iff.mp htype
    rw [Checker.introduced?, checker_tree h.prepared, hnode]
    cases node with
    | structDecl => rfl
    | templateParam held =>
      obtain ⟨path, expectation, hleads⟩ := h.well.exists_leads hnode
      obtain ⟨_, function, _, name, parameters, returnType, body, _, hfunction⟩ :=
        h.well.exists_function hleads (satisfies_iff.mpr ⟨_, hnode, rfl⟩)
      simp only [h.well.templateOwner?_eq hfunction, Option.map_some, Option.isSome_some]
    | _ => cases hkind

theorem denotedWithin (h : preparation.Faultless config tree)
    (hleads : tree.Leads path id expectation) (hn : tree.size ≤ path.length + n)
    (hkind : tree.satisfies id Node.isTypeNode) :
    (preparation.checker.denotedWithin n id).isSome := by
  induction n generalizing path id expectation with
  | zero =>
    have hlt := h.well.length_lt_size hleads
    omega
  | succ n ih =>
    obtain ⟨node, hnode, hkind⟩ := satisfies_iff.mp hkind
    rw [Checker.denotedWithin, checker_tree h.prepared, hnode]
    cases node with
    | simpleType name =>
      change ((preparation.final.view.decl? id).bind _).isSome
      rcases (at_of_leads h.well h.prepared hleads hnode rfl).simpleType_cases with
        ⟨_, _, hfindings⟩ | ⟨entity, _, _, htype, hdecl, _, _⟩
      · exact absurd h.findings hfindings
      · rw [View.decl?, hdecl]
        exact h.introduced htype
    | arrayType component =>
      obtain ⟨place, hchild⟩ := hleads.exists_child hnode List.mem_cons_self
      simp only [Option.isSome_map]
      exact ih hchild (by rw [List.length_cons]; omega) (h.well.fits _ _ hnode)
    | _ => cases hkind

theorem denoted (h : preparation.Faultless config tree)
    (hkind : tree.satisfies id Node.isTypeNode) : (preparation.checker.denoted? id).isSome := by
  obtain ⟨node, hnode, _⟩ := satisfies_iff.mp hkind
  obtain ⟨path, expectation, hleads⟩ := h.well.exists_leads hnode
  rw [Checker.denoted?, checker_tree h.prepared]
  exact h.denotedWithin hleads (Nat.le_add_left _ _) hkind

theorem annotated (h : preparation.Faultless config tree)
    (hkind : tree.satisfies id Node.isAnnotated) : (preparation.checker.annotated? id).isSome := by
  obtain ⟨node, hnode, hkind⟩ := satisfies_iff.mp hkind
  rw [Checker.annotated?, checker_tree h.prepared, hnode]
  cases node with
  | varDecl name type initializer => exact h.denoted (h.well.fits _ _ hnode).1
  | parameter name type => exact h.denoted (h.well.fits _ _ hnode)
  | fieldDecl name type => exact h.denoted (h.well.fits _ _ hnode)
  | _ => cases hkind

theorem annotated_all (h : preparation.Faultless config tree) {ids : List NodeId}
    {test : Node → Bool} (htest : ∀ {node : Node}, test node → node.isAnnotated)
    (hids : ∀ id ∈ ids, tree.satisfies id test) :
    (ids.mapM preparation.checker.annotated?).isSome := by
  rw [Rule.isSome_mapM, List.all_eq_true]
  intro id hid
  exact h.annotated (satisfies_mono (hids id hid) htest)

theorem declaration (h : preparation.Faultless config tree)
    (hkind : tree.satisfies id Node.isTyped) :
    (preparation.checker.declarationType? id).isSome := by
  obtain ⟨node, hnode, hkind⟩ := satisfies_iff.mp hkind
  rw [Checker.declarationType?, checker_tree h.prepared, hnode]
  cases node with
  | varDecl | parameter | fieldDecl => exact h.annotated (satisfies_iff.mpr ⟨_, hnode, rfl⟩)
  | funDecl name template parameters returnType body =>
    obtain ⟨_, hparameters, hreturn, _⟩ := h.well.fits _ _ hnode
    obtain ⟨params, hparams⟩ := Option.isSome_iff_exists.mp
      (h.annotated_all Node.isAnnotated_of_isParameter hparameters)
    obtain ⟨result, hresult⟩ := Option.isSome_iff_exists.mp (h.denoted hreturn)
    simp only [hparams, hresult]
    rfl
  | structDecl | templateParam => rfl
  | _ => cases hkind

theorem entity (h : preparation.Faultless config tree) {entity : Entity}
    (hdeclared : entity.Declared tree) (hpredicate : entity.isPredicate tree = false) :
    (preparation.checker.entityType? entity).isSome := by
  cases entity with
  | builtin b => rfl
  | node id =>
    obtain ⟨node, hnode, hkind⟩ := satisfies_iff.mp hdeclared
    apply h.declaration (satisfies_iff.mpr ⟨node, hnode, ?_⟩)
    have hnot : node.isPredicate = false := by
      rw [Entity.isPredicate, satisfies, hnode] at hpredicate
      exact hpredicate
    cases node with
    | varDecl | parameter | funDecl | structDecl | templateParam => rfl
    | fact | clause => cases hnot
    | _ => cases hkind

theorem not_rejected (h : preparation.Faultless config tree) (id : NodeId) :
    preparation.rejected id = false := by
  rw [rejected, h.findings]
  rfl

theorem value (h : preparation.Faultless config tree)
    (hkind : tree.satisfies id Node.isTypeNode) :
    (preparation.final.view (.value id)).isSome := by
  obtain ⟨node, hnode, _⟩ := satisfies_iff.mp hkind
  rw [view_denoted h.well h.prepared hnode, Option.isSome_map]
  exact h.denoted hkind

theorem typed (h : preparation.Faultless config tree) (hkind : tree.satisfies id Node.isTyped) :
    (preparation.final.view (.type id)).isSome := by
  obtain ⟨node, hnode, htyped⟩ := satisfies_iff.mp hkind
  have hexpression : node.isExpression = false := by
    cases node <;> first | rfl | cases htyped
  rw [view_declarationType h.well h.prepared hnode hexpression, Option.isSome_map]
  exact h.declaration hkind

theorem annotated_type (h : preparation.Faultless config tree)
    (hkind : tree.satisfies id Node.isAnnotated) : (preparation.final.view (.type id)).isSome :=
  h.typed (satisfies_mono hkind Node.isTyped_of_isAnnotated)

theorem name (h : preparation.Faultless config tree) (hkind : tree.satisfies id Node.isName) :
    (preparation.final.view.decl? id).isSome ∧ (preparation.final.view.scope? id).isSome := by
  obtain ⟨node, hnode, hkind⟩ := satisfies_iff.mp hkind
  cases node with
  | reference name =>
    obtain ⟨_, hat⟩ := h.at_node hnode rfl
    rcases hat.reference_cases with ⟨_, _, hfindings⟩ | ⟨entity, home, _, hdecl, hscope, _⟩
    · exact absurd h.findings hfindings
    · rw [View.decl?, View.scope?, hdecl, hscope]
      exact ⟨rfl, rfl⟩
  | simpleType name =>
    obtain ⟨_, hat⟩ := h.at_node hnode rfl
    rcases hat.simpleType_cases with ⟨_, _, hfindings⟩ | ⟨entity, home, _, _, hdecl, hscope, _⟩
    · exact absurd h.findings hfindings
    · rw [View.decl?, View.scope?, hdecl, hscope]
      exact ⟨rfl, rfl⟩
  | _ => cases hkind

def PartsTyped (preparation : Preparation) (tree : Tree) (node : Node) : Prop :=
  ∀ part ∈ node.children, tree.satisfies part Node.isExpression →
    ∃ type : Ty, preparation.final.view (.type part) = some (.type type) ∧ type.Grounded tree

theorem ready_of_expression (h : preparation.Faultless config tree)
    (hat : At config tree preparation id expectation node) (hkind : node.isExpression)
    (hparts : PartsTyped preparation tree node) {rule : Rule}
    (hpart : .act (.add rule) ∈ tree.parts id node expectation) :
    rule.ready preparation.final.view := by
  have hfits := h.well.fits _ _ hat.node
  have htype : ∀ part ∈ node.children, tree.satisfies part Node.isExpression →
      (preparation.final.view (.type part)).isSome := by
    intro part hmem hsat
    obtain ⟨type, hview, _⟩ := hparts part hmem hsat
    rw [hview]
    rfl
  rw [Rule.ready, List.all_eq_true]
  cases does_of_part hpart with
  | construct =>
    have hname := satisfies_mono hfits Node.isName_of_isReference
    obtain ⟨entity, hentity⟩ := Option.isSome_iff_exists.mp (h.name hname).1
    obtain ⟨value, hvalue, _⟩ := Option.bind_eq_some_iff.mp hentity
    simp [Rule.inputs, hvalue]
  | emptyInitializer =>
    obtain ⟨path, hleads⟩ := leads_of_walked hat.walked
    obtain ⟨decl, hdecl⟩ := h.initialized id hat.node
    cases hdecl.expectation_eq h.well hleads
    obtain ⟨name, type, initializer, hvariable⟩ := hdecl.exists_variable
    simp [Rule.inputs, h.typed (satisfies_iff.mpr ⟨_, hvariable, rfl⟩)]
  | emptyArgument =>
    obtain ⟨path, hleads⟩ := leads_of_walked hat.walked
    obtain ⟨decl, hdecl⟩ := h.initialized id hat.node
    cases hdecl.expectation_eq h.well hleads
  | arrayLiteral =>
    simp only [Rule.inputs, List.mem_map]
    rintro cell ⟨component, hcomponent, rfl⟩
    exact htype component hcomponent (hfits component hcomponent)
  | parenthesized | fieldAccess | unary =>
    simp [Rule.inputs, htype _ List.mem_cons_self hfits]
  | arrayIndex | arrayAccess | binary | assignment =>
    have hleft := htype _ List.mem_cons_self hfits.1
    have hright := htype _ (List.mem_cons_of_mem _ List.mem_cons_self) hfits.2
    simp [Rule.inputs, hleft, hright]
  | call =>
    obtain ⟨hfunction, hgiven, harguments⟩ := hfits
    intro cell hcell
    simp only [Rule.inputs, List.cons_append, List.mem_cons, List.mem_append, List.mem_map] at hcell
    rcases hcell with rfl | ⟨argument, hargument, rfl⟩ | ⟨type, hmem, rfl⟩
    · exact htype _ List.mem_cons_self hfunction
    · exact htype argument (List.mem_append_right _ hargument) (harguments argument hargument)
    · exact h.value (hgiven type hmem)
  | _ => cases hkind

theorem construct {reference : NodeId} (h : preparation.Faultless config tree)
    (hat : At config tree preparation id expectation (.construct reference)) :
    (preparation.final.view (.type id)).isSome := by
  have hname : tree.satisfies reference Node.isName :=
    satisfies_mono (h.well.fits _ _ hat.node) Node.isName_of_isReference
  by_cases hstruct : ∃ decl name fields,
      preparation.final.view.decl? reference = some (.node decl) ∧
        tree.node? decl = some (.structDecl name fields)
  · obtain ⟨decl, name, fields, hdecl, hnode⟩ := hstruct
    rw [hat.view_constructor]
    change (((preparation.final.view.decl? reference).bind _).map _).isSome
    rw [hdecl, Option.isSome_map, Option.bind_some, Checker.constructorType?,
      checker_tree h.prepared, hnode]
    simp only [Option.isSome_map]
    exact h.annotated_all Node.isAnnotated_of_isField (h.well.fits _ _ hnode)
  · have hother : ∀ decl name fields, preparation.final.view.decl? reference = some (.node decl) →
        tree.node? decl ≠ some (.structDecl name fields) :=
      fun decl name fields hdecl hnode => hstruct ⟨decl, name, fields, hdecl, hnode⟩
    exact absurd h.findings ((hat.view_construct_eq_none hother).2 (h.name hname).1)

theorem fieldAccess {stem : NodeId} {name : String} (h : preparation.Faultless config tree)
    (hat : At config tree preparation id expectation (.fieldAccess stem name)) {type : Ty}
    (hstem : preparation.final.view (.type stem) = some (.type type))
    (hgrounded : type.Grounded tree) : (preparation.final.view (.type id)).isSome := by
  have hpart : .act (.add (.fieldAccess id stem name)) ∈
      tree.parts id (.fieldAccess stem name) expectation := by simp [parts, add]
  have hready : Rule.ready (.fieldAccess id stem name) preparation.final.view := by
    simp [Rule.ready, Rule.inputs, hstem]
  have heffect : Rule.effect preparation.setting (.fieldAccess id stem name)
      preparation.final.view = Rule.fieldAccessEffect preparation.setting id name type := by
    simp only [Rule.effect, View.type?, hstem, Option.bind_some, Value.type?]
  have hfindings := h.findings_of_ready (hat.add_mem hpart) hready
  rw [heffect] at hfindings
  have hview :=
    @At.view_member config tree preparation id expectation stem name (some type) hat hstem
  rw [hview, Option.isSome_map, Option.bind_some]
  cases type with
  | array component =>
    rw [Rule.fieldAccessEffect] at hfindings
    rw [Checker.memberType?]
    split
    · rfl
    next hlength =>
      rw [if_neg hlength] at hfindings
      cases hfindings
  | struct decl held =>
    obtain ⟨node, hnode, hkind⟩ := satisfies_iff.mp hgrounded
    cases node with
    | structDecl struct fields =>
      rw [Rule.fieldAccessEffect, hat.tree_eq, hnode] at hfindings
      simp only at hfindings
      rw [Checker.memberType?, checker_tree h.prepared]
      split at hfindings
      next field hfind =>
        have hfield : tree.field? decl name = some field := by
          rw [Tree.field?, hnode]
          exact hfind
        rw [hfield, Option.bind_some]
        exact h.annotated
          (satisfies_mono (h.well.isField_of_field? hfield) Node.isAnnotated_of_isField)
      next => cases hfindings
    | _ => cases hkind
  | _ => cases hfindings

theorem expression_of_leads (h : preparation.Faultless config tree)
    (hleads : tree.Leads path id expectation) (hn : tree.size ≤ path.length + n)
    (hkind : tree.satisfies id Node.isExpression) :
    (preparation.final.view (.type id)).isSome := by
  induction n generalizing path id expectation with
  | zero =>
    have hlt := h.well.length_lt_size hleads
    omega
  | succ n ih =>
    obtain ⟨node, hnode, hkind⟩ := satisfies_iff.mp hkind
    have hat := at_of_leads h.well h.prepared hleads hnode (Node.isAtom_of_isExpression hkind)
    have hfits := h.well.fits _ _ hnode
    have hparts : PartsTyped preparation tree node := by
      intro part hpart hsat
      obtain ⟨place, lent, hchild⟩ := hleads.exists_of_children hnode hpart
      obtain ⟨found, hfound, _⟩ := satisfies_iff.mp hsat
      exact exists_type h.well h.prepared hfound
        (ih hchild (by rw [List.length_cons]; omega) hsat)
    -- a rule of the node that is outspoken gives the type, since its parts have theirs
    have hrule : ∀ {rule : Rule}, .act (.add rule) ∈ tree.parts id node expectation →
        rule.outputs = [.type id] → rule.weight = 1 →
        (Rule.effect preparation.setting rule preparation.final.view).Speaks →
        (preparation.final.view (.type id)).isSome :=
      fun hpart houtputs hweight hspeaks => h.isSome_of_add hat hpart houtputs hweight
        (h.ready_of_expression hat hkind hparts hpart) hspeaks
    cases node with
    | literal value =>
      have hpart : .act (.write (.type id) (.type value.type)) ∈
          tree.parts id (.literal value) expectation := by simp [parts]
      rw [hat.view_of_write hpart (by simp [Cell.type])]
      rfl
    | reference name =>
      rcases hat.reference_cases with ⟨_, _, hfindings⟩ |
        ⟨entity, home, hdeclared, _, _, ⟨hrejected, _⟩ | ⟨_, hpredicate, htype⟩⟩
      · exact absurd h.findings hfindings
      · rw [h.not_rejected] at hrejected
        cases hrejected
      · rw [htype, view_entityType h.well h.prepared hdeclared, Option.isSome_map]
        exact h.entity hdeclared hpredicate
    | construct reference => exact h.construct hat
    | arrayLiteral components =>
      cases components with
      | nil =>
        obtain ⟨decl, hdecl⟩ := h.initialized id hnode
        obtain rfl := hdecl.expectation_eq h.well hleads
        obtain ⟨name, type, initializer, hvariable⟩ := hdecl.exists_variable
        obtain ⟨expected, hview, _⟩ := exists_type h.well h.prepared hvariable
          (h.typed (satisfies_iff.mpr ⟨_, hvariable, rfl⟩))
        have hpart : .act (.add (.emptyInitializer id decl)) ∈
            tree.parts id (.arrayLiteral []) (.variable decl) := by simp [parts, emptyArray, add]
        apply hrule hpart rfl rfl
        rw [Rule.effect, View.type?, hview]
        exact Rule.speaks_emptyArrayEffect _ _
      | cons first rest =>
        have hpart : .act (.add (.arrayLiteral id (first :: rest))) ∈
            tree.parts id (.arrayLiteral (first :: rest)) expectation := by simp [parts, add]
        exact hrule hpart rfl rfl (Rule.speaks_joinElements _ _ _)
    | parenthesized expression =>
      have hpart : .act (.add (.parenthesized id expression)) ∈
          tree.parts id (.parenthesized expression) expectation := by simp [parts, add]
      obtain ⟨type, hview, _⟩ := hparts expression List.mem_cons_self hfits
      apply hrule hpart rfl rfl
      rw [Rule.effect, hview]
      exact fun _ => rfl
    | fieldAccess stem name =>
      obtain ⟨type, hview, hgrounded⟩ := hparts stem List.mem_cons_self hfits
      exact h.fieldAccess hat hview hgrounded
    | arrayAccess array index =>
      have hpart : .act (.add (.arrayAccess id array)) ∈
          tree.parts id (.arrayAccess array index) expectation := by simp [parts, add]
      obtain ⟨type, hview, _⟩ := hparts array List.mem_cons_self hfits.1
      apply hrule hpart rfl rfl
      rw [Rule.effect, View.type?, hview]
      cases type with
      | array => exact fun _ => rfl
      | _ => exact fun h => by cases h
    | call function typeArgument arguments =>
      have hpart : .act (.add (.call id function typeArgument arguments)) ∈
          tree.parts id (.call function typeArgument arguments) expectation := by
        simp [parts, add]
      obtain ⟨callee, hview, _⟩ := hparts function List.mem_cons_self hfits.1
      apply hrule hpart rfl rfl
      simp only [Rule.effect, View.type?, hview, Option.bind_some, Value.type?]
      exact Rule.speaks_callEffect _ _ _ _ _ _ _
    | unary op operand =>
      have hpart : .act (.add (.unary id op operand)) ∈
          tree.parts id (.unary op operand) expectation := by simp [parts, add]
      obtain ⟨type, hview, _⟩ := hparts operand List.mem_cons_self hfits
      apply hrule hpart rfl rfl
      rw [Rule.effect, View.type?, hview]
      exact fun _ => rfl
    | binary op left right =>
      have hpart : .act (.add (.binary id op left right)) ∈
          tree.parts id (.binary op left right) expectation := by simp [parts, add]
      obtain ⟨l, hleft, _⟩ := hparts left List.mem_cons_self hfits.1
      obtain ⟨r, hright, _⟩ :=
        hparts right (List.mem_cons_of_mem _ List.mem_cons_self) hfits.2
      apply hrule hpart rfl rfl
      rw [Rule.effect, View.type?, View.type?, hleft, hright]
      exact Rule.speaks_binaryEffect _ _ _ _ _ _ _
    | assignment left right =>
      have hpart : .act (.add (.assignment id left right)) ∈
          tree.parts id (.assignment left right) expectation := by simp [parts, add]
      obtain ⟨l, hleft, _⟩ := hparts left List.mem_cons_self hfits.1
      obtain ⟨r, hright, _⟩ :=
        hparts right (List.mem_cons_of_mem _ List.mem_cons_self) hfits.2
      apply hrule hpart rfl rfl
      rw [Rule.effect, View.type?, View.type?, hleft, hright]
      exact fun _ => rfl
    | _ => cases hkind

theorem expression (h : preparation.Faultless config tree)
    (hkind : tree.satisfies id Node.isExpression) :
    (preparation.final.view (.type id)).isSome := by
  obtain ⟨node, hnode, _⟩ := satisfies_iff.mp hkind
  obtain ⟨path, expectation, hleads⟩ := h.well.exists_leads hnode
  exact h.expression_of_leads hleads (Nat.le_add_left _ _) hkind

theorem returns (h : preparation.Faultless config tree)
    (hkind : tree.satisfies id Node.isReturnContainer) :
    (preparation.final.view.returns? id).isSome := by
  obtain ⟨flag, hflag, _⟩ := tells h.well h.prepared id hkind
  exact Option.isSome_of_eq_some hflag

theorem term_of_atom (h : preparation.Faultless config tree) {atom term : NodeId}
    (hterm : term ∈ tree.atomTerms atom) : tree.satisfies term Node.isExpression := by
  unfold atomTerms atom? at hterm
  split at hterm
  next name terms hatom =>
    split at hatom
    next found hnode =>
      cases hatom
      exact h.well.fits _ _ hnode term hterm
    next => cases hatom
  next => cases hterm

theorem ready_of_term (h : preparation.Faultless config tree) {term : NodeId}
    (hterm : term ∈ tree.declaredTerms id) :
    Rule.ready (.termType term) preparation.final.view := by
  have hexpression : tree.satisfies term Node.isExpression := by
    unfold declaredTerms at hterm
    split at hterm
    next hnode => exact h.well.fits _ _ hnode term hterm
    next =>
      obtain ⟨atom, _, hatom⟩ := List.mem_flatMap.mp hterm
      exact h.term_of_atom hatom
    next => exact h.term_of_atom hterm
    next => cases hterm
  simp [Rule.ready, Rule.inputs, h.expression hexpression]

theorem ready_of_statement (h : preparation.Faultless config tree)
    (hat : At config tree preparation id expectation node) (hkind : node.isExpression = false)
    {rule : Rule} (hpart : .act (.add rule) ∈ tree.parts id node expectation) :
    rule.ready preparation.final.view := by
  have hfits := h.well.fits _ _ hat.node
  have hreturns : ∀ ids : List NodeId, ∀ cell ∈ (tree.returnContainers ids).map Cell.returns,
      (preparation.final.view cell).isSome := by
    intro ids cell hcell
    obtain ⟨part, hpart, rfl⟩ := List.mem_map.mp hcell
    exact Option.isSome_of_isSome_bind (h.returns (List.mem_filter.mp hpart).2)
  rw [Rule.ready, List.all_eq_true]
  cases does_of_part hpart with
  | construct | emptyInitializer | emptyArgument | arrayLiteral | parenthesized | fieldAccess
  | arrayIndex | arrayAccess | call | unary | binary | assignment => cases hkind
  | arrayType | fieldType | parameterType => simp [Rule.inputs, h.value hfits]
  | variableType => simp [Rule.inputs, h.value hfits.1]
  | initializer => simp [Rule.inputs, h.value hfits.1, h.expression hfits.2]
  | structType | structDeclared | templateName | returnReturns => simp [Rule.inputs]
  | blockReturns | ifReturns => exact hreturns _
  | functionType =>
    obtain ⟨_, hparameters, hreturn, _⟩ := hfits
    intro cell hcell
    simp only [Rule.inputs, List.mem_cons, List.mem_map] at hcell
    rcases hcell with rfl | ⟨parameter, hparameter, rfl⟩
    · exact h.value hreturn
    · exact h.annotated_type
        (satisfies_mono (hparameters parameter hparameter) Node.isAnnotated_of_isParameter)
  | missingReturn =>
    obtain ⟨_, _, hreturn, hbody⟩ := hfits
    have hcontainer := satisfies_mono hbody Node.isReturnContainer_of_isBlock
    simp [Rule.inputs, Option.isSome_of_isSome_bind (h.returns hcontainer), h.value hreturn]
  | ifCondition | whileCondition => simp [Rule.inputs, h.expression hfits.1]
  | forInit =>
    rcases hfits.1 with hvariable | hexpression
    · simp [Rule.inputs,
        h.annotated_type (satisfies_mono hvariable Node.isAnnotated_of_isVariable)]
    · simp [Rule.inputs, h.expression hexpression]
  | forCondition => simp [Rule.inputs, h.expression hfits.2.1]
  | forStep => simp [Rule.inputs, h.expression hfits.2.2.1]
  | factTerm hterm | clauseTerm hterm | queryTerm hterm =>
    exact List.all_eq_true.mp (h.ready_of_term hterm)

theorem ready_of_part (h : preparation.Faultless config tree)
    (hat : At config tree preparation id expectation node) {rule : Rule}
    (hpart : .act (.add rule) ∈ tree.parts id node expectation) :
    rule.ready preparation.final.view := by
  cases hkind : node.isExpression with
  | true =>
    apply h.ready_of_expression hat hkind _ hpart
    intro part _ hsat
    obtain ⟨found, hfound, _⟩ := satisfies_iff.mp hsat
    exact exists_type h.well h.prepared hfound (h.expression hsat)
  | false => exact h.ready_of_statement hat hkind hpart

theorem ready_referenceType (h : preparation.Faultless config tree) {entity : Entity}
    (hdeclared : entity.Declared tree) (hpredicate : entity.isPredicate tree = false) :
    Rule.ready (.referenceType id entity) preparation.final.view := by
  rw [Rule.ready, Rule.inputs, List.all_cons, view_entityType h.well h.prepared hdeclared,
    Option.isSome_map, h.entity hdeclared hpredicate]
  rfl

theorem ready_typeValue (h : preparation.Faultless config tree) {entity : Entity}
    (htype : entity.isType tree = true) :
    Rule.ready (.typeValue id entity) preparation.final.view := by
  rw [Rule.ready, Rule.inputs, List.all_cons, view_introduced h.well h.prepared htype,
    Option.isSome_map, h.introduced htype]
  rfl

theorem ready_of_command (h : preparation.Faultless config tree) {rule : Rule}
    (hadd : .add rule ∈ preparation.commands) : rule.ready preparation.final.view := by
  have hnone : ∀ {rule : Rule}, rule.inputs = [] → rule.ready preparation.final.view := by
    intro rule hinputs
    rw [Rule.ready, hinputs]
    rfl
  rcases (Preparation.mem_commands h.prepared).mp hadd with hbuiltin |
    ⟨binder, action, hmeets, hact⟩
  · obtain ⟨b, _, hb⟩ := List.mem_flatMap.mp hbuiltin
    rcases List.mem_cons.mp hb with hset | hset
    · cases hset
    · obtain ⟨_, _, heq⟩ := List.mem_map.mp hset
      cases heq
  · obtain ⟨id, expectation, node, hwalked, hnode, hpart⟩ :=
      (Binder.exists_meets h.well).mp ⟨binder, hmeets⟩
    cases action with
    | add found =>
      cases List.mem_singleton.mp hact
      exact h.ready_of_part ⟨h.well, h.prepared, hwalked, hnode⟩ hpart
    | useName node name =>
      simp only [Binder.act, Binder.useName] at hact
      split at hact
      next entity home hlookup =>
        simp only [Binder.bound, List.mem_cons, List.not_mem_nil, or_false, reduceCtorEq,
          false_or] at hact
        split at hact
        · cases hact
        next hpredicate =>
          cases hact
          have hdeclared := hmeets.bindsDeclared.1.lookup? hlookup
          exact h.ready_referenceType hdeclared (Bool.eq_false_iff.mpr hpredicate)
      next =>
        cases List.mem_singleton.mp hact
        exact hnone rfl
    | useType | atom =>
      cases List.mem_singleton.mp hact
      exact hnone rfl
    | placeholder node name =>
      simp only [Binder.act, List.mem_cons, List.not_mem_nil, or_false] at hact
      rcases hact with heq | heq <;> cases heq <;> exact hnone rfl
    | exit statement expression =>
      simp only [Binder.act, Binder.exits] at hact
      split at hact
      next name template parameters returnType body hfunction =>
        cases List.mem_singleton.mp hact
        obtain ⟨function, _, hfound⟩ := Option.bind_eq_some_iff.mp hfunction
        have hreturn := (h.well.fits _ _ hfound).2.2.1
        rw [Rule.ready, Rule.inputs, List.all_cons, h.value hreturn, Bool.true_and, List.all_map,
          List.all_eq_true]
        intro part hmem
        exact h.expression (exit_expression h.well hnode hpart part hmem)
      next => cases hact
    | declare name decl =>
      obtain ⟨finding, heq⟩ := Binder.report_of_declare hact
      cases heq
    | leave => cases hact
    | enterRoot | enter | locate | write => cases List.mem_singleton.mp hact

/-- No rule waits for anything. -/
theorem ready (h : preparation.Faultless config tree) {rule : Rule}
    (hrule : rule ∈ preparation.final.rules) : rule.ready preparation.final.view := by
  rcases mem_rules.mp hrule with hadd | ⟨parent, _, _, hspawned⟩
  · exact h.ready_of_command hadd
  · have hfields : ∀ {struct name fields}, preparation.setting.tree.node? struct =
        some (.structDecl name fields) →
          ∀ field ∈ fields, (preparation.final.view (.type field)).isSome := by
      intro struct name fields hnode field hfield
      rw [setting_tree h.prepared] at hnode
      exact h.annotated_type
        (satisfies_mono (h.well.fits _ _ hnode field hfield) Node.isAnnotated_of_isField)
    cases Rule.spawns_of_mem hspawned with
    | reference hlookup hpredicate =>
      rw [setting_tree h.prepared] at hpredicate
      exact h.ready_referenceType ((scopes_declared h.prepared).lookup? hlookup) hpredicate
    | typeName _ htype =>
      rw [setting_tree h.prepared] at htype
      exact h.ready_typeValue htype
    | @constructor _ _ struct name fields hnode =>
      have hstruct : tree.node? struct = some (.structDecl name fields) := by
        rw [← setting_tree h.prepared]
        exact hnode
      obtain ⟨_, hat⟩ := h.at_node hstruct rfl
      rw [Rule.ready, Rule.inputs, List.all_cons, hat.view_struct.2, Option.isSome_some,
        Bool.true_and, List.all_map, List.all_eq_true]
      exact hfields hnode
    | @field _ _ _ field _ _ _ _ hfield hnode =>
      rw [Rule.ready, Rule.inputs, List.all_cons, hfields hnode field hfield]
      rfl

end Faultless

end Preparation

/-- Nothing that is known of the nodes of a tree is missing, and no rule waits for anything. -/
structure Analysis.Complete (tree : Tree) (analysis : Analysis) : Prop where
  stalled : analysis.stalled = 0
  type : ∀ id, (tree.satisfies id fun node => node.isExpression || node.isTyped) →
    (analysis.typeOf? id).isSome
  name : ∀ id, tree.satisfies id Node.isName →
    (analysis.declOf? id).isSome ∧ (analysis.scopeOf? id).isSome
  value : ∀ id, tree.satisfies id Node.isTypeNode → (analysis.valueOf? id).isSome
  returns : ∀ id, tree.satisfies id Node.isReturnContainer → (analysis.returnsOf? id).isSome

/-- If nothing is found in a well-formed tree whose empty array literals initialize variables, then
nothing is missing. -/
theorem complete_of_isOk (config : Config) {tree : Tree} (hwell : tree.WellFormed)
    (hempty : ∀ id, tree.node? id = some (.arrayLiteral []) → ∃ decl, tree.Initializes id decl) :
    ∃ analysis, Analysis.ofTree config tree = .ok analysis ∧
      (analysis.isOk → analysis.Complete tree) := by
  obtain ⟨preparation, hprepared⟩ := Preparation.exists_ofTree hwell config
  refine ⟨_, Analysis.ofTree_eq hprepared, ?_⟩
  intro hok
  have h : preparation.Faultless config tree :=
    ⟨hwell, hprepared, List.isEmpty_iff.mp hok, hempty⟩
  refine ⟨?_, ?_, fun id => h.name, ?_, fun id => h.returns⟩
  · exact preparation.settled.stalled fun rule hrule => Rule.supplies_iff.mpr (h.ready hrule)
  · intro id hkind
    obtain ⟨node, hnode, hkind⟩ := Tree.satisfies_iff.mp hkind
    have hsome : (preparation.final.view (.type id)).isSome := by
      rcases Bool.or_eq_true_iff.mp hkind with hexpression | htyped
      · exact h.expression (Tree.satisfies_iff.mpr ⟨node, hnode, hexpression⟩)
      · exact h.typed (Tree.satisfies_iff.mpr ⟨node, hnode, htyped⟩)
    obtain ⟨type, htype, _⟩ := Preparation.exists_type hwell hprepared hnode hsome
    change (preparation.final.view.type? id).isSome
    rw [View.type?, htype]
    rfl
  · intro id hkind
    obtain ⟨node, hnode, _⟩ := Tree.satisfies_iff.mp hkind
    change (preparation.final.view.value? id).isSome
    rw [Rule.value?_of_view (Preparation.view_denoted hwell hprepared hnode)]
    exact h.denoted hkind

/-- A struct, a template, an empty array in parentheses, a constructor and a call of the
template. -/
def Tree.faultless : Tree where
  nodes := #[
    { node := .root [1, 4, 12, 17, 23] },
    { node := .structDecl "Point" [2] },
    { node := .fieldDecl "x" 3 },
    { node := .simpleType "Int" },
    { node := .funDecl "same" (some 5) [6] 8 9 },
    { node := .templateParam "T" },
    { node := .parameter "value" 7 },
    { node := .simpleType "T" },
    { node := .simpleType "T" },
    { node := .block [10] },
    { node := .returnStatement (some 11) },
    { node := .reference "value" },
    { node := .varDecl "xs" 13 15 },
    { node := .arrayType 14 },
    { node := .simpleType "Int" },
    { node := .parenthesized 16 },
    { node := .arrayLiteral [] },
    { node := .varDecl "point" 18 19 },
    { node := .simpleType "Point" },
    { node := .call 20 none [22] },
    { node := .construct 21 },
    { node := .reference "Point" },
    { node := .literal (.int 1) },
    { node := .expressionStatement 24 },
    { node := .call 25 (some 26) [27] },
    { node := .reference "same" },
    { node := .simpleType "Int" },
    { node := .fieldAccess 28 "x" },
    { node := .reference "point" }]
  root := 0

theorem complete_of_isOk_faultless : ∃ analysis, Analysis.ofTree {} Tree.faultless = .ok analysis ∧
    analysis.isOk ∧ analysis.Complete Tree.faultless := by
  have hwell : Tree.faultless.WellFormed := by decide +kernel
  have hempty : ∀ id, Tree.faultless.node? id = some (.arrayLiteral []) →
      ∃ decl, Tree.faultless.Initializes id decl := by
    intro id hnode
    have honly : ∀ id ∈ List.range Tree.faultless.size,
        Tree.faultless.node? id = some (.arrayLiteral []) → id = 16 := by decide +kernel
    rw [honly id (List.mem_range.mpr (Tree.lt_size hnode)) hnode]
    exact ⟨12, .inner rfl (.direct rfl)⟩
  obtain ⟨analysis, hanalysis, hcomplete⟩ := complete_of_isOk {} hwell hempty
  have hok : (Analysis.ofTree {} Tree.faultless).toOption.any Analysis.isOk := by decide +kernel
  rw [hanalysis] at hok
  exact ⟨analysis, hanalysis, hok, hcomplete hok⟩

end Attribution
