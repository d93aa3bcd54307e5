import Attribution.Proofs.Analysis.Cells
import Attribution.Proofs.Binding.Added
import Attribution.Proofs.Engine.Acyclic
import Attribution.Proofs.Tree.Layers
/-!
# No deadlock

No cell of a program needs itself. Values of type nodes and return flags need those of the nodes
below. Types of declarations need values, types of functions besides those of their parameters.
Types of expressions need those of the nodes below and of declarations, and an empty array that is
passed to a call needs the type of the callee, which stands beside it.
-/
namespace Attribution

open Attribution.Tree Attribution.Part

namespace Tree

variable {tree : Tree} {id : NodeId} {expectation : Expectation} {node : Node} {rule : Rule}
  {cell needed : Cell}

theorem Acyclic.induction_below (hacyclic : tree.Acyclic) (hclosed : tree.Closed)
    (holds : NodeId → Expectation → Prop)
    (hstep : ∀ path id expectation node, tree.Leads path id expectation →
      tree.node? id = some node →
      (∀ child lent, (child, lent) ∈ node.offspring id expectation → holds child lent) →
        holds id expectation)
    {path : List Nat} (h : tree.Leads path id expectation) : holds id expectation := by
  have hdepth : ∀ n path id expectation, tree.Leads path id expectation →
      tree.size ≤ path.length + n → holds id expectation := by
    intro n
    induction n with
    | zero =>
      intro path id expectation hleads hn
      have hlt := hacyclic.length_lt_size hclosed hleads
      omega
    | succ n ih =>
      intro path id expectation hleads hn
      obtain ⟨node, hnode⟩ := hclosed _ _ _ hleads
      apply hstep path id expectation node hleads hnode
      intro child lent hchild
      obtain ⟨place, hbelow⟩ := hleads.exists_child hnode hchild
      exact ih _ _ _ hbelow (by rw [List.length_cons]; omega)
  exact hdepth tree.size path id expectation h (Nat.le_add_left _ _)

theorem mem_offspring_of_children {child : NodeId} (h : child ∈ node.children) :
    ∃ lent, (child, lent) ∈ node.offspring id expectation := by
  rw [← Node.map_fst_offspring id expectation] at h
  obtain ⟨⟨found, lent⟩, hmem, rfl⟩ := List.mem_map.mp h
  exact ⟨lent, hmem⟩

/-- What a rule that a node asks for can need, by the attribute that it gives. -/
inductive Feeds (id : NodeId) (expectation : Expectation) (node : Node) : Attr → Cell → Prop
  | value {attr : Attr} {child : NodeId} : child ∈ node.children →
    Feeds id expectation node attr (.value child)
  | returns {child : NodeId} : child ∈ node.children →
    Feeds id expectation node .returns (.returns child)
  | type {child : NodeId} {lent : Expectation} : node.isExpression = true →
    (child, lent) ∈ node.offspring id expectation → Feeds id expectation node .type (.type child)
  | parameter {name : String} {template : Option NodeId} {parameters : List NodeId}
      {returnType body child : NodeId} :
    node = .funDecl name template parameters returnType body → child ∈ parameters →
      Feeds id expectation node .type (.type child)
  | initialized {decl : NodeId} : node.isExpression = true → expectation = .variable decl →
    Feeds id expectation node .type (.type decl)
  | callee {function argument : NodeId} : node.isExpression = true →
    expectation = .argument function argument → Feeds id expectation node .type (.type function)
  | index {argument : NodeId} : Feeds id expectation node .type (.index argument)

/-- The rules that a name brings about, besides those that a node asks for. -/
inductive Derives (tree : Tree) (id : NodeId) : Node → Rule → Prop
  | reference {name : String} {entity : Entity} : entity.Declared tree →
    entity.isPredicate tree = false → Derives tree id (.reference name) (.referenceType id entity)
  | simpleType {name : String} {entity : Entity} :
    Derives tree id (.simpleType name) (.typeValue id entity)
  | construct {reference struct : NodeId} {name : String} {fields : List NodeId} :
    tree.node? struct = some (.structDecl name fields) →
      Derives tree id (.construct reference) (.constructorType id struct fields)
  | fieldAccess {stem struct field : NodeId} {member name : String} {fields : List NodeId} :
    tree.node? struct = some (.structDecl name fields) → field ∈ fields →
      Derives tree id (.fieldAccess stem member) (.fieldType id field)

theorem feeds_of_asked (hpart : .act (.add rule) ∈ tree.parts id node expectation)
    (hcell : cell ∈ rule.outputs) (hneeded : needed ∈ rule.inputs) :
    Feeds id expectation node cell.attr needed := by
  cases does_of_part hpart with
  | emptyInitializer =>
    rw [List.mem_singleton.mp hcell, List.mem_singleton.mp hneeded]
    exact .initialized rfl rfl
  | emptyArgument =>
    rw [List.mem_singleton.mp hcell]
    rcases List.mem_cons.mp hneeded with rfl | hindex
    · exact .callee rfl rfl
    · rw [List.mem_singleton.mp hindex]
      exact .index
  | arrayLiteral =>
    obtain ⟨child, hchild, rfl⟩ := List.mem_map.mp hneeded
    rw [List.mem_singleton.mp hcell]
    exact .type rfl (List.mem_map_of_mem hchild)
  | parenthesized | fieldAccess | arrayAccess | unary =>
    rw [List.mem_singleton.mp hcell, List.mem_singleton.mp hneeded]
    exact .type rfl List.mem_cons_self
  | binary | assignment =>
    rw [List.mem_singleton.mp hcell]
    rcases List.mem_cons.mp hneeded with rfl | hright
    · exact .type rfl List.mem_cons_self
    · rw [List.mem_singleton.mp hright]
      exact .type rfl (List.mem_cons_of_mem _ List.mem_cons_self)
  | call =>
    rw [List.mem_singleton.mp hcell]
    simp only [Rule.inputs, List.cons_append, List.mem_cons, List.mem_append,
      List.mem_map] at hneeded
    rcases hneeded with rfl | ⟨argument, hargument, rfl⟩ | ⟨type, htype, rfl⟩
    · exact .type rfl List.mem_cons_self
    · exact .type rfl (List.mem_append_right _ (List.mem_map_of_mem hargument))
    · exact .value (List.mem_append_left _ (List.mem_cons_of_mem _ htype))
  | arrayType | variableType | fieldType | parameterType =>
    rw [List.mem_singleton.mp hneeded]
    exact .value List.mem_cons_self
  | functionType =>
    rw [List.mem_singleton.mp hcell]
    rcases List.mem_cons.mp hneeded with rfl | hparameter
    · exact .value (List.mem_append_right _ List.mem_cons_self)
    · obtain ⟨child, hchild, rfl⟩ := List.mem_map.mp hparameter
      exact .parameter rfl hchild
  | blockReturns =>
    obtain ⟨child, hchild, rfl⟩ := List.mem_map.mp hneeded
    rw [List.mem_singleton.mp hcell]
    exact .returns (List.mem_of_mem_filter hchild)
  | ifReturns =>
    obtain ⟨child, hchild, rfl⟩ := List.mem_map.mp hneeded
    rw [List.mem_singleton.mp hcell]
    exact .returns (List.mem_cons_of_mem _ (List.mem_of_mem_filter hchild))
  | structType | structDeclared | returnReturns => cases hneeded
  | _ => cases hcell

end Tree

namespace Preparation

variable {config : Config} {tree : Tree} {preparation : Preparation} {id : NodeId}
  {expectation : Expectation} {node : Node} {rule : Rule} {cell needed : Cell}

/-- A rule that needs something to write a cell is asked for by the node of the cell, or derived
from the name in it. -/
theorem exists_source (h : ofTree config tree = .ok preparation)
    (hrule : rule ∈ preparation.final.rules) (hcell : cell ∈ rule.outputs)
    (hneeded : needed ∈ rule.inputs) : ∃ path id expectation node,
      tree.Leads path id expectation ∧ tree.node? id = some node ∧ cell.subject = .node id ∧
        (.act (.add rule) ∈ tree.parts id node expectation ∨ tree.Derives id node rule) := by
  rcases mem_rules.mp hrule with hadd | ⟨parent, hadd, _, hspawned⟩
  · obtain ⟨binder, action, hmeets, hadds⟩ := (add_mem_iff h).mp hadd
    obtain ⟨id, expectation, node, hwalked, hnode, hpart⟩ := hmeets.exists_node
    obtain ⟨path, hleads⟩ := leads_of_walked hwalked
    refine ⟨path, id, expectation, node, hleads, hnode, ?_⟩
    cases hadds with
    | asked =>
      have hreach := Rule.mem_reach_of_outputs hcell
      exact ⟨subject_of_reach hpart hreach (Rule.attr_of_reach hreach), .inl hpart⟩
    | bound hlookup hpredicate =>
      cases does_of_part hpart
      rw [List.mem_singleton.mp hcell]
      exact ⟨rfl, .inr (.reference (hmeets.bindsDeclared.1.lookup? hlookup) hpredicate)⟩
    | exit => cases hcell
    | deferred | typeName | template | placeholder | atom => cases hneeded
  · obtain ⟨binder, action, hmeets, hadds⟩ := (add_mem_iff h).mp hadd
    obtain ⟨id, expectation, node, hwalked, hnode, hpart⟩ := hmeets.exists_node
    obtain ⟨path, hleads⟩ := leads_of_walked hwalked
    refine ⟨path, id, expectation, node, hleads, hnode, ?_⟩
    cases Rule.spawns_of_mem hspawned with
    | reference hlookup hpredicate =>
      rw [setting_tree h] at hpredicate
      cases hadds <;> cases does_of_part hpart
      rw [List.mem_singleton.mp hcell]
      exact ⟨rfl, .inr (.reference ((scopes_declared h).lookup? hlookup) hpredicate)⟩
    | typeName =>
      cases hadds <;> cases does_of_part hpart
      rw [List.mem_singleton.mp hcell]
      exact ⟨rfl, .inr .simpleType⟩
    | constructor hstruct =>
      rw [setting_tree h] at hstruct
      cases hadds
      cases does_of_part hpart
      rw [List.mem_singleton.mp hcell]
      exact ⟨rfl, .inr (.construct hstruct)⟩
    | field hfield hstruct =>
      rw [setting_tree h] at hstruct
      cases hadds
      cases does_of_part hpart
      rw [List.mem_singleton.mp hcell]
      exact ⟨rfl, .inr (.fieldAccess hstruct hfield)⟩

/-- The needs of the final rules, from what is needed to the cell that needs it. -/
abbrev Rank (preparation : Preparation) (needed cell : Cell) : Prop :=
  preparation.final.Needs cell needed

theorem acc_of_attr (hattr : cell.attr ≠ .type ∧ cell.attr ≠ .value ∧ cell.attr ≠ .returns) :
    Acc preparation.Rank cell := by
  constructor
  rintro needed ⟨rule, _, hcell, hneeded⟩
  obtain ⟨htype, hvalue, hreturns⟩ := hattr
  change cell ∈ rule.outputs at hcell
  change needed ∈ rule.inputs at hneeded
  cases rule with
  | structType | structDeclared | templateType | templateDeclared | returnReturns | atomArity
  | templateParameterName | resolveReference | resolveType => cases hneeded
  | construct | arrayIndex | initializer | missingReturn | control | returnStatement | termType =>
    cases hcell
  | typeValue | arrayType =>
    rw [List.mem_singleton.mp hcell] at hvalue
    exact absurd rfl hvalue
  | blockReturns | ifReturns =>
    rw [List.mem_singleton.mp hcell] at hreturns
    exact absurd rfl hreturns
  | _ =>
    rw [List.mem_singleton.mp hcell] at htype
    exact absurd rfl htype

theorem needs_cases (h : ofTree config tree = .ok preparation)
    (hneeds : preparation.Rank needed cell) : ∃ path id expectation node,
      tree.Leads path id expectation ∧ tree.node? id = some node ∧ cell.subject = .node id ∧
        (Feeds id expectation node cell.attr needed ∨ ∃ rule, tree.Derives id node rule ∧
          cell ∈ rule.outputs ∧ needed ∈ rule.inputs) := by
  obtain ⟨rule, hrule, hcell, hneeded⟩ := hneeds
  obtain ⟨path, id, expectation, node, hleads, hnode, hsubject, hsource⟩ :=
    exists_source h hrule hcell hneeded
  refine ⟨path, id, expectation, node, hleads, hnode, hsubject, ?_⟩
  rcases hsource with hpart | hderives
  · exact .inl (feeds_of_asked hpart hcell hneeded)
  · exact .inr ⟨rule, hderives, hcell, hneeded⟩

theorem acc_value (hwell : tree.WellFormed) (h : ofTree config tree = .ok preparation)
    {path : List Nat} (hleads : tree.Leads path id expectation) :
    Acc preparation.Rank (.value id) := by
  apply hwell.acyclic.induction_below hwell.closed
    (fun id _ => Acc preparation.Rank (.value id)) _ hleads
  intro path id expectation node _ hnode ih
  constructor
  intro needed hneeds
  obtain ⟨_, _, _, found, _, hfound, hsubject, hsource⟩ := needs_cases h hneeds
  cases hsubject
  cases Option.some.inj (hnode.symm.trans hfound)
  rcases hsource with hfeeds | ⟨rule, hderives, hcell, hneeded⟩
  · change Feeds _ _ _ .value needed at hfeeds
    cases hfeeds with
    | value hchild =>
      obtain ⟨lent, hlent⟩ := mem_offspring_of_children hchild
      exact ih _ _ hlent
  · cases hderives with
    | simpleType =>
      rw [List.mem_singleton.mp hneeded]
      exact acc_of_attr (by simp [Entity.declared])
    | _ => cases List.mem_singleton.mp hcell

theorem acc_returns (hwell : tree.WellFormed) (h : ofTree config tree = .ok preparation)
    {path : List Nat} (hleads : tree.Leads path id expectation) :
    Acc preparation.Rank (.returns id) := by
  apply hwell.acyclic.induction_below hwell.closed
    (fun id _ => Acc preparation.Rank (.returns id)) _ hleads
  intro path id expectation node hleads hnode ih
  constructor
  intro needed hneeds
  obtain ⟨_, _, _, found, _, hfound, hsubject, hsource⟩ := needs_cases h hneeds
  cases hsubject
  cases Option.some.inj (hnode.symm.trans hfound)
  rcases hsource with hfeeds | ⟨rule, hderives, hcell, _⟩
  · change Feeds _ _ _ .returns needed at hfeeds
    cases hfeeds with
    | value hchild =>
      obtain ⟨place, lent, hlent⟩ := hleads.exists_of_children hnode hchild
      exact acc_value hwell h hlent
    | returns hchild =>
      obtain ⟨lent, hlent⟩ := mem_offspring_of_children hchild
      exact ih _ _ hlent
  · cases hderives <;> cases List.mem_singleton.mp hcell

theorem acc_of_parameters (hwell : tree.WellFormed) (h : ofTree config tree = .ok preparation)
    (hnode : tree.node? id = some node) (hkind : node.isTyped)
    (hparameters : ∀ name template parameters returnType body,
      node = .funDecl name template parameters returnType body →
        ∀ parameter ∈ parameters, Acc preparation.Rank (.type parameter)) :
    Acc preparation.Rank (.type id) := by
  have hexpression : node.isExpression = false := by
    cases node <;> first | rfl | cases hkind
  constructor
  intro needed hneeds
  obtain ⟨path, _, _, found, hleads, hfound, hsubject, hsource⟩ := needs_cases h hneeds
  cases hsubject
  cases Option.some.inj (hnode.symm.trans hfound)
  rcases hsource with hfeeds | ⟨rule, hderives, _, _⟩
  · change Feeds _ _ _ .type needed at hfeeds
    cases hfeeds with
    | value hchild =>
      obtain ⟨place, lent, hlent⟩ := hleads.exists_of_children hnode hchild
      exact acc_value hwell h hlent
    | parameter hfunction hmem => exact hparameters _ _ _ _ _ hfunction _ hmem
    | index => exact acc_of_attr (by simp [Cell.index])
    | type hother | initialized hother | callee hother => simp [hexpression] at hother
  · cases hderives <;> cases hkind

theorem acc_annotated (hwell : tree.WellFormed) (h : ofTree config tree = .ok preparation)
    (hkind : tree.satisfies id Node.isAnnotated) : Acc preparation.Rank (.type id) := by
  obtain ⟨node, hnode, hkind⟩ := satisfies_iff.mp hkind
  apply acc_of_parameters hwell h hnode (Node.isTyped_of_isAnnotated hkind)
  rintro name template parameters returnType body rfl
  cases hkind

theorem acc_typed (hwell : tree.WellFormed) (h : ofTree config tree = .ok preparation)
    (hnode : tree.node? id = some node) (hkind : node.isTyped) :
    Acc preparation.Rank (.type id) := by
  apply acc_of_parameters hwell h hnode hkind
  rintro name template parameters returnType body rfl parameter hparameter
  obtain ⟨_, hparameters, _, _⟩ := hwell.fits _ _ hnode
  exact acc_annotated hwell h
    (satisfies_mono (hparameters parameter hparameter) Node.isAnnotated_of_isParameter)

theorem acc_entity (hwell : tree.WellFormed) (h : ofTree config tree = .ok preparation)
    {entity : Entity} (hdeclared : entity.Declared tree)
    (hpredicate : entity.isPredicate tree = false) : Acc preparation.Rank entity.type := by
  cases entity with
  | builtin b =>
    constructor
    intro needed hneeds
    obtain ⟨_, _, _, _, _, _, hsubject, _⟩ := needs_cases h hneeds
    cases hsubject
  | node id =>
    obtain ⟨node, hnode, hkind⟩ := satisfies_iff.mp hdeclared
    have hother : node.isPredicate = false := by
      rw [Entity.isPredicate, satisfies, hnode] at hpredicate
      exact hpredicate
    apply acc_typed hwell h hnode
    cases node <;> simp_all [Node.isTyped, Node.isDeclaration, Node.isPredicate]

theorem acc_callee {child : NodeId} {lent : Expectation}
    (hchild : (child, lent) ∈ node.offspring id expectation)
    (hcallee : ∀ function argument, expectation = .argument function argument →
      Acc preparation.Rank (.type function))
    (hplain : ∀ other, (other, Expectation.nothing) ∈ node.offspring id expectation →
      Acc preparation.Rank (.type other)) :
    ∀ function argument, lent = .argument function argument →
      Acc preparation.Rank (.type function) := by
  rintro function argument rfl
  cases node with
  | parenthesized expression =>
    cases List.mem_singleton.mp hchild
    exact hcallee function argument rfl
  | call called typeArgument arguments =>
    rcases List.mem_append.mp hchild with hcalled | hargument
    · obtain ⟨_, _, heq⟩ := List.mem_map.mp hcalled
      cases heq
    · obtain ⟨_, _, heq⟩ := List.mem_map.mp hargument
      cases heq
      exact hplain function List.mem_cons_self
  | varDecl name type initializer => simp [Node.offspring] at hchild
  | _ =>
    obtain ⟨_, _, heq⟩ := List.mem_map.mp hchild
    cases heq

theorem acc_type (hwell : tree.WellFormed) (h : ofTree config tree = .ok preparation)
    {path : List Nat} (hleads : tree.Leads path id expectation)
    (hcallee : ∀ function argument, expectation = .argument function argument →
      Acc preparation.Rank (.type function)) : Acc preparation.Rank (.type id) := by
  revert hcallee
  apply hwell.acyclic.induction_below hwell.closed (fun id expectation =>
    (∀ function argument, expectation = .argument function argument →
      Acc preparation.Rank (.type function)) → Acc preparation.Rank (.type id)) _ hleads
  intro path id expectation node hleads hnode ih hcallee
  have hplain : ∀ other, (other, Expectation.nothing) ∈ node.offspring id expectation →
      Acc preparation.Rank (.type other) := by
    intro other hother
    exact ih other .nothing hother (by simp)
  constructor
  intro needed hneeds
  obtain ⟨_, _, _, found, hleads', hfound, hsubject, hsource⟩ := needs_cases h hneeds
  cases hsubject
  cases hwell.expectation_unique hleads hleads'
  cases Option.some.inj (hnode.symm.trans hfound)
  rcases hsource with hfeeds | ⟨rule, hderives, _, hneeded⟩
  · change Feeds _ _ _ .type needed at hfeeds
    cases hfeeds with
    | value hchild =>
      obtain ⟨place, lent, hlent⟩ := hleads.exists_of_children hnode hchild
      exact acc_value hwell h hlent
    | type _ hchild => exact ih _ _ hchild (acc_callee hchild hcallee hplain)
    | parameter hfunction hmem =>
      subst hfunction
      obtain ⟨_, hparameters, _, _⟩ := hwell.fits _ _ hnode
      exact acc_annotated hwell h
        (satisfies_mono (hparameters _ hmem) Node.isAnnotated_of_isParameter)
    | initialized _ hdecl =>
      rcases hleads.lent_cases with hnone | ⟨decl, _, _, _, _, _, hlent, _, hfound⟩ |
        ⟨_, _, _, _, _, _, _, _, hlent, _⟩
      · rw [hdecl] at hnone
        cases hnone
      · rw [hdecl] at hlent
        cases hlent
        exact acc_annotated hwell h (satisfies_iff.mpr ⟨_, hfound, rfl⟩)
      · rw [hdecl] at hlent
        cases hlent
    | callee _ hlent => exact hcallee _ _ hlent
    | index => exact acc_of_attr (by simp [Cell.index])
  · cases hderives with
    | reference hdeclared hpredicate =>
      rw [List.mem_singleton.mp hneeded]
      exact acc_entity hwell h hdeclared hpredicate
    | simpleType =>
      rw [List.mem_singleton.mp hneeded]
      exact acc_of_attr (by simp [Entity.declared])
    | construct hstruct =>
      rcases List.mem_cons.mp hneeded with rfl | hfield
      · exact acc_of_attr (by simp [Cell.declared])
      · obtain ⟨field, hmem, rfl⟩ := List.mem_map.mp hfield
        exact acc_annotated hwell h
          (satisfies_mono (hwell.fits _ _ hstruct field hmem) Node.isAnnotated_of_isField)
    | fieldAccess hstruct hmem =>
      rw [List.mem_singleton.mp hneeded]
      exact acc_annotated hwell h
        (satisfies_mono (hwell.fits _ _ hstruct _ hmem) Node.isAnnotated_of_isField)

/-- Needs lead from no cell on forever. -/
theorem acc_needs (hwell : tree.WellFormed) (h : ofTree config tree = .ok preparation)
    (cell : Cell) : Acc preparation.Rank cell := by
  constructor
  intro needed hneeds
  obtain ⟨path, id, expectation, node, hleads, hnode, hsubject, _⟩ := needs_cases h hneeds
  have hacc : Acc preparation.Rank cell := by
    obtain ⟨subject, attr⟩ := cell
    cases hsubject
    cases attr with
    | type =>
      apply acc_type hwell h hleads
      rintro function argument rfl
      obtain ⟨_, _, call, _, _, above, _, _, heq, habove, hcall, _⟩ :=
        (hleads.lent_cases.resolve_left (by simp)).resolve_left (by simp)
      cases heq
      obtain ⟨_, hfunction⟩ := habove.exists_child hcall
        (show (function, Expectation.nothing) ∈ _ from List.mem_cons_self)
      exact acc_type hwell h hfunction (by simp)
    | value => exact acc_value hwell h hleads
    | returns => exact acc_returns hwell h hleads
    | scope | decl | declared | index => exact acc_of_attr (by simp)
  exact hacc.inv hneeds

theorem acyclic (hwell : tree.WellFormed) (h : ofTree config tree = .ok preparation) :
    preparation.final.Acyclic :=
  Engine.acyclic_of_acc (acc_needs hwell h)

end Preparation

/-- At the end of the analysis of a well-formed tree no rule is blocked by itself, be it through
other rules, and no cycle is found, whatever else is wrong with the program. -/
theorem deadlock_free (config : Config) {tree : Tree} (hwell : tree.WellFormed) :
    ∃ analysis, Analysis.ofTree config tree = .ok analysis ∧ analysis.engine.Acyclic ∧
      analysis.engine.fixpoint.cycles = [] := by
  obtain ⟨preparation, h⟩ := Preparation.exists_ofTree hwell config
  have hacyclic := Preparation.acyclic hwell h
  exact ⟨_, Analysis.ofTree_eq h, hacyclic, hacyclic.fixpoint_cycles⟩

/-- Structs of each other, and functions that call each other, one with an empty array and one with
a name that stands for nothing. -/
def Tree.entangled : Tree where
  nodes := #[
    { node := .root [1, 4, 7, 17] },
    { node := .structDecl "A" [2] },
    { node := .fieldDecl "b" 3 },
    { node := .simpleType "B" },
    { node := .structDecl "B" [5] },
    { node := .fieldDecl "a" 6 },
    { node := .simpleType "A" },
    { node := .funDecl "f" none [8] 11 12 },
    { node := .parameter "xs" 9 },
    { node := .arrayType 10 },
    { node := .simpleType "A" },
    { node := .simpleType "Int" },
    { node := .block [13] },
    { node := .returnStatement (some 14) },
    { node := .call 15 none [16] },
    { node := .reference "g" },
    { node := .arrayLiteral [] },
    { node := .funDecl "g" none [18] 21 22 },
    { node := .parameter "ys" 19 },
    { node := .arrayType 20 },
    { node := .simpleType "B" },
    { node := .simpleType "Int" },
    { node := .block [23] },
    { node := .returnStatement (some 24) },
    { node := .call 25 none [26] },
    { node := .reference "f" },
    { node := .parenthesized 27 },
    { node := .reference "unknown" }]
  root := 0

/-- The return statement is blocked by the call, and the call by its argument, but nothing by
itself. -/
theorem deadlock_free_entangled : Tree.entangled.WellFormed ∧
    ∃ analysis, Analysis.ofTree {} Tree.entangled = .ok analysis ∧ analysis.stalled = 3 ∧
      analysis.engine.Blocked 29 27 ∧ analysis.engine.Blocked 27 26 ∧ analysis.engine.Acyclic ∧
      analysis.engine.fixpoint.cycles = [] := by
  have hwell : Tree.entangled.WellFormed := by decide +kernel
  obtain ⟨analysis, hanalysis, hacyclic, hcycles⟩ := deadlock_free {} hwell
  have hsome : (Analysis.ofTree {} Tree.entangled).toOption.any (fun analysis =>
      analysis.stalled = 3 && (analysis.engine.slots[29]?.any fun slot => !slot.fired) &&
        (analysis.engine.slots[27]?.any fun slot => !slot.fired) &&
        27 ∈ analysis.engine.blockers 29 && 26 ∈ analysis.engine.blockers 27) = true := by
    decide +kernel
  rw [hanalysis] at hsome
  simp only [Except.toOption, Option.any_some, Bool.and_eq_true, decide_eq_true_eq,
    Option.any_eq_true, Bool.not_eq_true'] at hsome
  obtain ⟨⟨⟨⟨hstalled, hreturn⟩, hcall⟩, hone⟩, htwo⟩ := hsome
  exact ⟨hwell, analysis, hanalysis, hstalled, (Engine.mem_blockers hreturn).mp hone,
    (Engine.mem_blockers hcall).mp htwo, hacyclic, hcycles⟩

end Attribution
