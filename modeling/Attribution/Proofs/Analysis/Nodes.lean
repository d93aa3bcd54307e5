import Attribution.Proofs.Analysis.Cells
import Attribution.Proofs.Binding.Scopes
/-!
# The final cells of a node

What the cells of a node hold in the end follows from the kind of the node and from the cells of
the nodes that its rules read.
-/
namespace Attribution

open Attribution.Tree Attribution.Part

namespace Preparation

variable {config : Config} {tree : Tree} {preparation : Preparation} {id : NodeId}
  {expectation : Expectation} {node : Node}

structure At (config : Config) (tree : Tree) (preparation : Preparation) (id : NodeId)
    (expectation : Expectation) (node : Node) : Prop where
  well : tree.WellFormed
  prepared : ofTree config tree = .ok preparation
  walked : tree.Walked id expectation
  node : tree.node? id = some node

namespace At

theorem tree_eq (h : At config tree preparation id expectation node) :
    preparation.setting.tree = tree := setting_tree h.prepared

theorem meets (h : At config tree preparation id expectation node) {action : Action}
    (haction : .act action ∈ tree.parts id node expectation) :
    ∃ binder, Binder.Meets tree config.duplicates binder action :=
  (Binder.exists_meets h.well).mpr ⟨id, expectation, node, h.walked, h.node, haction⟩

theorem mem_commands (h : At config tree preparation id expectation node) {action : Action}
    {binder : Binder} (hmeets : Binder.Meets tree config.duplicates binder action)
    {command : Command Rule} (hcommand : command ∈ (binder.act tree config.duplicates action).2) :
    command ∈ preparation.commands :=
  (Preparation.mem_commands h.prepared).mpr (.inr ⟨binder, action, hmeets, hcommand⟩)

theorem exists_of_reach (h : At config tree preparation id expectation node) {action : Action}
    (haction : .act action ∈ tree.parts id node expectation) {cell : Cell}
    (hcell : cell ∈ action.reach) (hattr : cell.attr ≠ .index) {command : Command Rule}
    (hcommand : command ∈ preparation.commands) (hreach : cell ∈ command.reach) :
    ∃ binder, Binder.Meets tree config.duplicates binder action ∧
      command ∈ (binder.act tree config.duplicates action).2 := by
  have hsubject := subject_of_reach haction hcell hattr
  obtain ⟨binder, other, lent, found, hmeets, hact, hother, hwalked, hfound, hpart⟩ :=
    Preparation.exists_of_reach h.well h.prepared hcommand hreach hattr hsubject
  cases Option.some.inj (h.node.symm.trans hfound)
  obtain ⟨path, hpath⟩ := leads_of_walked h.walked
  obtain ⟨path', hpath'⟩ := leads_of_walked hwalked
  cases h.well.expectation_unique hpath hpath'
  cases Tree.eq_of_reach haction hpart hcell hother hattr
  exact ⟨binder, hmeets, hact⟩

/-- Where an action asks for a name, the commands that reach its cells are those of this moment. -/
theorem mem_of_reach (h : At config tree preparation id expectation node) {action : Action}
    (haction : .act action ∈ tree.parts id node expectation) (hbinds : action.binds?.isSome)
    {binder : Binder} (hmeets : Binder.Meets tree config.duplicates binder action) {cell : Cell}
    (hcell : cell ∈ action.reach) {command : Command Rule}
    (hcommand : command ∈ preparation.commands) (hreach : cell ∈ command.reach) :
    command ∈ (binder.act tree config.duplicates action).2 := by
  obtain ⟨other, hother, hact⟩ :=
    h.exists_of_reach haction hcell (Action.attr_of_binds hbinds hcell) hcommand hreach
  rw [(hmeets.unique h.well hother hbinds rfl).1] at hact
  exact hact

theorem add_mem (h : At config tree preparation id expectation node) {rule : Rule}
    (haction : .act (.add rule) ∈ tree.parts id node expectation) :
    .add rule ∈ preparation.commands := by
  obtain ⟨binder, hmeets⟩ := h.meets haction
  exact h.mem_commands hmeets List.mem_cons_self

theorem sole (h : At config tree preparation id expectation node) {rule : Rule}
    (haction : .act (.add rule) ∈ tree.parts id node expectation) {cell : Cell}
    (hcell : cell ∈ rule.reach) : preparation.Sole rule cell := by
  refine ⟨h.add_mem haction, ?_⟩
  intro command hcommand hreach
  obtain ⟨binder, _, hact⟩ :=
    h.exists_of_reach haction hcell (Rule.attr_of_reach hcell) hcommand hreach
  exact List.mem_singleton.mp hact

/-- A cell that only one rule of the node writes holds the result of this rule. -/
theorem view_of_add (h : At config tree preparation id expectation node) {rule : Rule}
    (haction : .act (.add rule) ∈ tree.parts id node expectation) {cell : Cell}
    (houtputs : rule.outputs = [cell]) (hweight : rule.weight = 1) :
    preparation.final.view cell = rule.result? preparation.setting preparation.final.view := by
  have hmem : cell ∈ rule.outputs := houtputs ▸ List.mem_cons_self
  exact (h.sole haction (Rule.mem_reach_of_outputs hmem)).view_of_weight houtputs hweight

theorem isSome_input (h : At config tree preparation id expectation node) {rule : Rule}
    (hpart : .act (.add rule) ∈ tree.parts id node expectation) {cell : Cell}
    (houtputs : rule.outputs = [cell]) (hweight : rule.weight = 1)
    (hsome : (preparation.final.view cell).isSome) :
    ∀ input ∈ rule.inputs, (preparation.final.view input).isSome := by
  rw [h.view_of_add hpart houtputs hweight, Rule.result?] at hsome
  split at hsome
  next hready => exact List.all_eq_true.mp hready
  next => cases hsome

theorem sole_of_act (h : At config tree preparation id expectation node) {action : Action}
    (haction : .act action ∈ tree.parts id node expectation) (hbinds : action.binds?.isSome)
    {binder : Binder} (hmeets : Binder.Meets tree config.duplicates binder action) {rule : Rule}
    (hact : (binder.act tree config.duplicates action).2 = [.add rule]) {cell : Cell}
    (hcell : cell ∈ action.reach) : preparation.Sole rule cell := by
  refine ⟨?_, ?_⟩
  · apply h.mem_commands hmeets
    rw [hact]
    exact List.mem_cons_self
  · intro command hcommand hreach
    have hmem := h.mem_of_reach haction hbinds hmeets hcell hcommand hreach
    rw [hact] at hmem
    exact List.mem_singleton.mp hmem

theorem view_of_write (h : At config tree preparation id expectation node) {cell : Cell}
    {value : Value} (haction : .act (.write cell value) ∈ tree.parts id node expectation)
    (hattr : cell.attr ≠ .index) : preparation.final.view cell = some value := by
  obtain ⟨binder, hmeets⟩ := h.meets haction
  apply view_of_set (h.mem_commands hmeets List.mem_cons_self)
  intro command hcommand hreach
  obtain ⟨other, _, hact⟩ :=
    h.exists_of_reach haction List.mem_cons_self hattr hcommand hreach
  exact List.mem_singleton.mp hact

theorem view_of_unreached (h : At config tree preparation id expectation node) {cell : Cell}
    (hsubject : cell.subject = .node id) (hattr : cell.attr ≠ .index)
    (hreach : ∀ action, .act action ∈ tree.parts id node expectation → cell ∉ action.reach) :
    preparation.final.view cell = none := by
  apply view_eq_none
  intro command hcommand hcell
  obtain ⟨_, action, lent, found, _, _, hactionReach, hwalked, hfound, hpart⟩ :=
    Preparation.exists_of_reach h.well h.prepared hcommand hcell hattr hsubject
  cases Option.some.inj (h.node.symm.trans hfound)
  obtain ⟨path, hpath⟩ := leads_of_walked h.walked
  obtain ⟨path', hpath'⟩ := leads_of_walked hwalked
  cases h.well.expectation_unique hpath hpath'
  exact hreach action hpart hactionReach

end At

theorem view_of_unreached (hwell : tree.WellFormed) (h : ofTree config tree = .ok preparation)
    (hnode : tree.node? id = some node) {cell : Cell} (hsubject : cell.subject = .node id)
    (hattr : cell.attr ≠ .index)
    (hreach : ∀ expectation action, .act action ∈ tree.parts id node expectation →
      cell ∉ action.reach) : preparation.final.view cell = none := by
  apply view_eq_none
  intro command hcommand hcell
  obtain ⟨_, action, expectation, found, _, _, hactionReach, _, hfound, hpart⟩ :=
    exists_of_reach hwell h hcommand hcell hattr hsubject
  cases Option.some.inj (hnode.symm.trans hfound)
  exact hreach expectation action hpart hactionReach

theorem findings_ne_nil {rule : Rule} (hadd : .add rule ∈ preparation.commands)
    (hready : rule.ready preparation.final.view) {node : NodeId} {cause : Cause}
    (heffect : Rule.effect preparation.setting rule preparation.final.view =
      Effect.find node cause) : preparation.final.findings ≠ [] := by
  apply List.ne_nil_of_mem
  apply mem_findings_of_rule hadd hready
  rw [heffect]
  exact List.mem_cons_self

theorem mem_builtins {b : Builtin} : b ∈ Builtin.all :=
  List.mem_of_getElem? (Builtin.all_position b)

theorem mem_builtin_of_reach (hwell : tree.WellFormed)
    (h : ofTree config tree = .ok preparation) {b : Builtin} {cell : Cell}
    (hsubject : cell.subject = .builtin b) (hattr : cell.attr ≠ .index)
    {command : Command Rule} (hcommand : command ∈ preparation.commands)
    (hcell : cell ∈ command.reach) : command ∈ b.commands := by
  rcases (Preparation.mem_commands h).mp hcommand with hbuiltin | ⟨binder, action, hmeets, hact⟩
  · obtain ⟨other, _, hother⟩ := List.mem_flatMap.mp hbuiltin
    have heq : other = b := by
      rcases List.mem_cons.mp hother with rfl | hdenoted
      · rw [List.mem_singleton.mp hcell] at hsubject
        exact Entity.builtin.inj hsubject
      · obtain ⟨denoted, _, rfl⟩ := List.mem_map.mp hdenoted
        rw [List.mem_singleton.mp hcell] at hsubject
        exact Entity.builtin.inj hsubject
    rw [← heq]
    exact hother
  · obtain ⟨id, expectation, node, _, _, hpart⟩ :=
      (Binder.exists_meets hwell).mp ⟨binder, hmeets⟩
    have hnode := subject_of_reach hpart (Binder.reach_act hact hcell) hattr
    rw [hsubject] at hnode
    cases hnode

theorem view_builtin_type (hwell : tree.WellFormed) (h : ofTree config tree = .ok preparation)
    (b : Builtin) :
    preparation.final.view (Entity.builtin b).type = some (.type b.valueType) := by
  apply view_of_set
  · exact (Preparation.mem_commands h).mpr
      (.inl (List.mem_flatMap.mpr ⟨b, mem_builtins, List.mem_cons_self⟩))
  · intro command hcommand hcell
    have hmem := mem_builtin_of_reach hwell h (b := b) rfl (by simp [Entity.type]) hcommand hcell
    rcases List.mem_cons.mp hmem with rfl | hdenoted
    · rfl
    · obtain ⟨denoted, _, rfl⟩ := List.mem_map.mp hdenoted
      cases List.mem_singleton.mp hcell

theorem view_builtin_declared (hwell : tree.WellFormed)
    (h : ofTree config tree = .ok preparation) (b : Builtin) :
    preparation.final.view (Entity.builtin b).declared = b.denoted?.map Value.type := by
  cases hdenoted : b.denoted? with
  | some denoted =>
    apply view_of_set
    · refine (Preparation.mem_commands h).mpr
        (.inl (List.mem_flatMap.mpr ⟨b, mem_builtins, List.mem_cons_of_mem _ ?_⟩))
      rw [hdenoted]
      exact List.mem_cons_self
    · intro command hcommand hcell
      have hmem :=
        mem_builtin_of_reach hwell h (b := b) rfl (by simp [Entity.declared]) hcommand hcell
      rcases List.mem_cons.mp hmem with rfl | hother
      · cases List.mem_singleton.mp hcell
      · rw [hdenoted] at hother
        exact List.mem_singleton.mp hother
  | none =>
    apply view_eq_none
    intro command hcommand hcell
    have hmem :=
      mem_builtin_of_reach hwell h (b := b) rfl (by simp [Entity.declared]) hcommand hcell
    rcases List.mem_cons.mp hmem with rfl | hother
    · cases List.mem_singleton.mp hcell
    · rw [hdenoted] at hother
      cases hother

namespace At

theorem view_struct {name : String} {fields : List NodeId}
    (h : At config tree preparation id expectation (.structDecl name fields)) :
    preparation.final.view (.type id) = some (.type .metatype) ∧
      preparation.final.view (.declared id) = some (.type (.struct id name)) := by
  have htype : .act (.add (.structType id)) ∈
      tree.parts id (.structDecl name fields) expectation := by simp [parts, add]
  have hdeclared : .act (.add (.structDeclared id name)) ∈
      tree.parts id (.structDecl name fields) expectation := by simp [parts, add]
  exact ⟨h.view_of_add htype rfl rfl, h.view_of_add hdeclared rfl rfl⟩

theorem view_template {held : String} {function : NodeId} {name : String}
    {parameters : List NodeId} {returnType body : NodeId} {before : Expectation}
    (h : At config tree preparation id expectation (.templateParam held))
    (hfunction : At config tree preparation function before
      (.funDecl name (some id) parameters returnType body)) :
    preparation.final.view (.type id) = some (.type .metatype) ∧
      preparation.final.view (.declared id) =
        some (.type (.generic { decl := id, function, name := held })) := by
  have hpart : .act (.placeholder id held) ∈
      tree.parts id (.templateParam held) expectation := by simp [parts]
  obtain ⟨binder, hmeets⟩ := h.meets hpart
  have howner : (binder.owner? binder.current).getD tree.root = function := by
    rw [hmeets.owner?_current h.well hfunction.node, Option.getD_some]
  have hcommands : (binder.act tree config.duplicates (.placeholder id held)).2 =
      [.add (.templateType id), .add (.templateDeclared id function held)] := by
    rw [← howner]
    rfl
  have hsole : ∀ {cell : Cell}, cell ∈ (Action.placeholder id held).reach →
      ∀ command ∈ preparation.commands, cell ∈ command.reach →
        command = .add (.templateType id) ∨
          command = .add (.templateDeclared id function held) := by
    intro cell hcell command hcommand hreach
    have hmem := h.mem_of_reach hpart rfl hmeets hcell hcommand hreach
    rw [hcommands] at hmem
    simpa using hmem
  have htype : preparation.Sole (.templateType id) (.type id) := by
    refine ⟨h.mem_commands hmeets (by rw [hcommands]; exact List.mem_cons_self), ?_⟩
    intro command hcommand hreach
    rcases hsole List.mem_cons_self command hcommand hreach with rfl | rfl
    · rfl
    · cases List.mem_singleton.mp hreach
  have hdeclared : preparation.Sole (.templateDeclared id function held) (.declared id) := by
    refine ⟨h.mem_commands hmeets ?_, ?_⟩
    · rw [hcommands]
      exact List.mem_cons_of_mem _ List.mem_cons_self
    · intro command hcommand hreach
      rcases hsole (List.mem_cons_of_mem _ List.mem_cons_self) command hcommand hreach with
        rfl | rfl
      · cases List.mem_singleton.mp hreach
      · rfl
  exact ⟨htype.view_of_weight rfl rfl, hdeclared.view_of_weight rfl rfl⟩

end At

theorem Sole.not_writes {rule : Rule} {effect : Effect Rule}
    (heffect : Rule.effect preparation.setting rule preparation.final.view = effect)
    (hwrites : effect.writes = []) (cell : Cell) (value : Value) :
    ¬ preparation.Writes rule cell value := by
  intro hwrite
  rw [Writes, Engine.cellWrites, heffect, hwrites] at hwrite
  cases hwrite

namespace At

theorem view_construct {reference decl : NodeId} {name : String} {fields : List NodeId}
    (h : At config tree preparation id expectation (.construct reference))
    (hdecl : preparation.final.view (.decl reference) = some (.decl (.node decl)))
    (hnode : tree.node? decl = some (.structDecl name fields)) :
    preparation.final.view (.type id) =
      (Rule.constructorType id decl fields).result? preparation.setting preparation.final.view := by
  have hpart : .act (.add (.construct id reference)) ∈
      tree.parts id (.construct reference) expectation := by simp [parts, add]
  have hsole : preparation.Sole (.construct id reference) (.type id) :=
    h.sole hpart List.mem_cons_self
  have heffect : Rule.effect preparation.setting (.construct id reference)
      preparation.final.view = Effect.spawn (.constructorType id decl fields) := by
    simp only [Rule.effect, View.decl?, hdecl, Option.bind_some, Value.decl?, Rule.constructEffect,
      Entity.node?, h.tree_eq, hnode, Option.map_some]
  apply hsole.view_of_spawned
  · exact fun value => Sole.not_writes heffect rfl _ value
  · simp [Rule.ready, Rule.inputs, hdecl]
  · rfl
  · rw [heffect]
    rfl

theorem view_construct_eq_none {reference : NodeId}
    (h : At config tree preparation id expectation (.construct reference))
    (hdecl : ∀ decl name fields, preparation.final.view.decl? reference = some (.node decl) →
      tree.node? decl ≠ some (.structDecl name fields)) :
    preparation.final.view (.type id) = none ∧
      ((preparation.final.view.decl? reference).isSome → preparation.final.findings ≠ []) := by
  have hpart : .act (.add (.construct id reference)) ∈
      tree.parts id (.construct reference) expectation := by simp [parts, add]
  have hsole : preparation.Sole (.construct id reference) (.type id) :=
    h.sole hpart List.mem_cons_self
  cases hview : preparation.final.view.decl? reference with
  | none =>
    refine ⟨?_, fun h => by cases h⟩
    have heffect : Rule.effect preparation.setting (.construct id reference)
        preparation.final.view = Effect.nothing := by
      simp only [Rule.effect, hview]
    apply hsole.view_eq_none
    · exact fun _ value => Sole.not_writes heffect rfl _ value
    · rw [heffect]
      intro _ rule hmem
      cases hmem
  | some entity =>
    have heffect : ∃ cause, Rule.effect preparation.setting (.construct id reference)
        preparation.final.view = Effect.find id cause := by
      simp only [Rule.effect, hview, Rule.constructEffect, h.tree_eq]
      split
      next decl name fields hfound =>
        obtain ⟨found, hentity, hnode⟩ := Option.bind_eq_some_iff.mp hfound
        obtain ⟨node, hnode, heq⟩ := Option.map_eq_some_iff.mp hnode
        cases heq
        cases entity with
        | builtin b => cases hentity
        | node decl =>
          cases hentity
          exact absurd hnode (hdecl _ _ _ hview)
      next => exact ⟨_, rfl⟩
    obtain ⟨cause, heffect⟩ := heffect
    have hready : Rule.ready (.construct id reference) preparation.final.view := by
      obtain ⟨value, hvalue, _⟩ := Option.bind_eq_some_iff.mp hview
      simp [Rule.ready, Rule.inputs, hvalue]
    exact ⟨hsole.view_of_find heffect, fun _ => findings_ne_nil hsole.added hready heffect⟩

theorem view_field {stem field : NodeId} {name : String} {type : Ty}
    (h : At config tree preparation id expectation (.fieldAccess stem name))
    (hstem : preparation.final.view (.type stem) = some (.type type))
    (heffect : Rule.fieldAccessEffect preparation.setting id name type =
      Effect.spawn (.fieldType id field)) :
    preparation.final.view (.type id) = preparation.final.view (.type field) := by
  have hpart : .act (.add (.fieldAccess id stem name)) ∈
      tree.parts id (.fieldAccess stem name) expectation := by simp [parts, add]
  have heffect : Rule.effect preparation.setting (.fieldAccess id stem name)
      preparation.final.view = Effect.spawn (.fieldType id field) := by
    simp only [Rule.effect, View.type?, hstem, Option.bind_some, Value.type?, heffect]
  have hspawned : (Rule.effect preparation.setting (.fieldAccess id stem name)
      preparation.final.view).spawned = [.fieldType id field] := by
    rw [heffect]
    rfl
  have hready : Rule.ready (.fieldAccess id stem name) preparation.final.view := by
    simp [Rule.ready, Rule.inputs, hstem]
  rw [(h.sole hpart List.mem_cons_self).view_of_spawned
    (fun value => Sole.not_writes heffect rfl _ value) hready rfl hspawned]
  exact Rule.result?_copy rfl rfl

theorem view_fieldAccess {stem : NodeId} {name : String}
    (h : At config tree preparation id expectation (.fieldAccess stem name))
    (hspawned : ∀ type, preparation.final.view.type? stem = some type →
      (Rule.fieldAccessEffect preparation.setting id name type).spawned = []) :
    preparation.final.view (.type id) =
      (Rule.fieldAccess id stem name).result? preparation.setting preparation.final.view := by
  have hpart : .act (.add (.fieldAccess id stem name)) ∈
      tree.parts id (.fieldAccess stem name) expectation := by simp [parts, add]
  apply (h.sole hpart List.mem_cons_self).view_eq rfl
  intro rule hrule
  cases hstem : preparation.final.view.type? stem with
  | none =>
    simp only [Rule.effect, hstem] at hrule
    cases hrule
  | some type =>
    simp only [Rule.effect, hstem, hspawned type hstem] at hrule
    cases hrule

end At

namespace At

theorem view_index {function : NodeId} {typeArgument : Option NodeId} {arguments : List NodeId}
    (h : At config tree preparation id expectation (.call function typeArgument arguments))
    {place : Nat} {argument : NodeId} (hplace : arguments[place]? = some argument) :
    preparation.final.view (.index argument) = some (.index place) := by
  have hpart : .act (.write (.index argument) (.index place)) ∈
      tree.parts id (.call function typeArgument arguments) expectation := by
    have hmem : .act (.write (.index argument) (.index place)) ∈
        Part.arguments function 0 arguments :=
      mem_arguments.mpr ⟨place, argument, hplace, .inl (by rw [Nat.zero_add])⟩
    simp [parts, hmem]
  obtain ⟨binder, hmeets⟩ := h.meets hpart
  apply view_of_set (h.mem_commands hmeets List.mem_cons_self)
  intro command hcommand hreach
  rcases (Preparation.mem_commands h.prepared).mp hcommand with hbuiltin |
    ⟨other, action, hother, hact⟩
  · obtain ⟨b, hb⟩ := subject_of_builtin hbuiltin hreach
    cases hb
  · obtain ⟨found, lent, node, hwalked, hfound, hpart'⟩ :=
      (Binder.exists_meets h.well).mp ⟨other, hother⟩
    obtain ⟨function', typeArgument', arguments', place', argument', rfl, hplace', hindex, rfl⟩ :=
      call_of_reach hpart' (Binder.reach_act hact hreach) rfl
    cases hindex
    obtain ⟨path, hpath⟩ := leads_of_walked h.walked
    obtain ⟨path', hpath'⟩ := leads_of_walked hwalked
    obtain ⟨rfl, heq⟩ := h.well.parent_unique hpath h.node (Node.getElem?_children_call hplace)
      hpath' hfound (Node.getElem?_children_call hplace')
    cases Option.some.inj (h.node.symm.trans hfound)
    -- an argument has one place among the children of one call
    have hsame : place' = place := by omega
    rw [hsame] at hact
    exact List.mem_singleton.mp hact

end At

end Preparation

end Attribution
