import Attribution.Proofs.Analysis.Nodes
/-!
# The final cells of names

A type name either stands for nothing, and is found fault with, or denotes what its entity
introduces. A reference besides can be found fault with although it stands for something; then it
has no type, and otherwise it has that of its entity.
-/
namespace Attribution

/-- Whether a reference is found fault with: it comes before its variable, or it uses the name of a
predicate as a value. -/
def Cause.rejectsUse : Cause → Bool
  | usedBeforeDeclaration _ | predicateAsValue _ => true
  | _ => false

/-- Whether the binder finds it on its walk. -/
def Cause.isReported : Cause → Bool
  | duplicate _ | redeclaredArity .. | predicateAsValue _ => true
  | _ => false

/-- Whether the binder makes findings of this kind. -/
def FindingKind.isReported : FindingKind → Bool
  | duplicateDeclaration | arityMismatch | typeMismatch => true
  | _ => false

theorem Cause.isReported_of_kind {cause : Cause} (h : cause.kind.isReported = false) :
    cause.isReported = false := by
  cases cause <;> first | rfl | cases h

namespace Rule

open Effect

theorem Accuses.eq_of_rejectsUse {rule : Rule} {node : NodeId} {cause : Cause}
    (h : rule.Accuses node cause) (hcause : cause.rejectsUse) :
    ∃ name scope, rule = .resolveReference node name scope := by
  cases h <;> first | exact ⟨_, _, rfl⟩ | cases hcause

theorem resolveTypeEffect_cases (setting : Setting) (node : NodeId) (name : String)
    (scope : ScopeId) :
    (∃ cause, resolveTypeEffect setting node name scope = find node cause) ∨
      ∃ entity home, setting.scopes.lookup? scope name = some (entity, home) ∧
        entity.isType setting.tree = true ∧ resolveTypeEffect setting node name scope =
          { writes := [(0, .decl entity), (1, .scope home)]
            spawned := [.typeValue node entity] } := by
  unfold resolveTypeEffect
  split
  · exact .inl ⟨_, rfl⟩
  next entity home hlookup =>
    split
    next htype => exact .inr ⟨entity, home, hlookup, htype, rfl⟩
    next => exact .inl ⟨_, rfl⟩

theorem resolveReferenceEffect_cases {setting : Setting} (node : NodeId) {name : String}
    {scope home : ScopeId} {entity : Entity}
    (h : setting.scopes.lookup? scope name = some (entity, home)) :
    (resolveReferenceEffect setting node name scope).writes =
        [(0, .decl entity), (1, .scope home)] ∧
      ((∃ cause, cause.rejectsUse = true ∧
          (resolveReferenceEffect setting node name scope).findings = [{ node, cause }] ∧
          (resolveReferenceEffect setting node name scope).spawned = []) ∨
        entity.isPredicate setting.tree = false ∧
          (resolveReferenceEffect setting node name scope).findings = [] ∧
          (resolveReferenceEffect setting node name scope).spawned =
            [.referenceType node entity]) := by
  simp only [resolveReferenceEffect, referenceEffect, h]
  refine ⟨trivial, ?_⟩
  split
  · exact .inl ⟨_, rfl, rfl, rfl⟩
  · split
    · exact .inl ⟨_, rfl, rfl, rfl⟩
    next hpredicate => exact .inr ⟨Bool.eq_false_iff.mpr hpredicate, rfl, rfl⟩

end Rule

namespace Binder

theorem eq_of_mem_bound {tree : Tree} {node : NodeId} {name : String} {entity : Entity}
    {home : ScopeId} {command : Command Rule} (h : command ∈ bound tree node name entity home) :
    (.decl node ∈ command.reach → command = .set (.decl node) (.decl entity)) ∧
      (.scope node ∈ command.reach → command = .set (.scope node) (.scope home)) ∧
      (.type node ∈ command.reach → entity.isPredicate tree = false ∧
        command = .add (.referenceType node entity)) := by
  simp only [bound, List.mem_cons, List.not_mem_nil, or_false] at h
  rcases h with rfl | rfl | rfl
  · refine ⟨fun _ => rfl, ?_, ?_⟩ <;>
      intro hreach <;> cases List.mem_singleton.mp hreach
  · refine ⟨?_, fun _ => rfl, ?_⟩ <;>
      intro hreach <;> cases List.mem_singleton.mp hreach
  · cases hpredicate : entity.isPredicate tree with
    | true => refine ⟨?_, ?_, ?_⟩ <;> intro hreach <;> cases hreach
    | false =>
      refine ⟨?_, ?_, fun _ => ⟨rfl, rfl⟩⟩ <;>
        intro hreach <;> cases List.mem_singleton.mp hreach

theorem act_useName_of_some {tree : Tree} {policy : DuplicatePolicy} {binder : Binder}
    {node : NodeId} {name : String} {entity : Entity} {home : ScopeId}
    (h : binder.scopes.lookup? binder.current name = some (entity, home)) :
    (binder.act tree policy (.useName node name)).2 = bound tree node name entity home := by
  simp only [act, useName, h]

theorem act_useName_of_none {tree : Tree} {policy : DuplicatePolicy} {binder : Binder}
    {node : NodeId} {name : String} (h : binder.scopes.lookup? binder.current name = none) :
    (binder.act tree policy (.useName node name)).2 =
      [.add (.resolveReference node name binder.current)] := by
  simp only [act, useName, h]

theorem report_cases {tree : Tree} {policy : DuplicatePolicy} {binder : Binder}
    {action : Action} {finding : Finding}
    (h : .report finding ∈ (binder.act tree policy action).2) :
    (∃ name, action = .declare name finding.node ∧ (finding.cause = .duplicate name ∨
        ∃ expected found, finding.cause = .redeclaredArity name expected found)) ∨
      ∃ name, action = .useName finding.node name ∧ finding.cause = .predicateAsValue name := by
  cases action with
  | declare name decl =>
    left
    simp only [act, declare] at h
    split at h
    · cases h
    · split at h
      · simp only [redeclared] at h
        split at h
        · split at h
          · cases h
          · cases List.mem_singleton.mp h
            exact ⟨name, rfl, .inr ⟨_, _, rfl⟩⟩
        · cases h
      · cases policy with
        | report =>
          cases List.mem_singleton.mp h
          exact ⟨name, rfl, .inl rfl⟩
        | lastWins => cases h
  | useName node name =>
    right
    simp only [act, useName] at h
    split at h
    · simp only [bound, List.mem_cons, List.not_mem_nil, or_false, reduceCtorEq, false_or] at h
      split at h
      · cases h
        exact ⟨name, rfl, rfl⟩
      · cases h
    · cases List.mem_singleton.mp h
  | exit node expression =>
    simp only [act, exits] at h
    split at h
    · cases List.mem_singleton.mp h
    · cases h
  | leave => cases h
  | placeholder node name => simp [act] at h
  | enterRoot | enter | locate | useType | atom | write | add => cases List.mem_singleton.mp h

theorem eq_of_rejectsUse {tree : Tree} {policy : DuplicatePolicy} {binder : Binder}
    {action : Action} {finding : Finding}
    (h : .report finding ∈ (binder.act tree policy action).2) (hcause : finding.cause.rejectsUse) :
    ∃ name, action = .useName finding.node name := by
  rcases report_cases h with ⟨name, _, heq | ⟨expected, found, heq⟩⟩ | ⟨name, heq, _⟩
  · rw [heq] at hcause
    cases hcause
  · rw [heq] at hcause
    cases hcause
  · exact ⟨name, heq⟩

end Binder

open Attribution.Tree Attribution.Part

namespace Preparation

variable {config : Config} {tree : Tree} {preparation : Preparation} {id : NodeId}
  {expectation : Expectation}

def rejected (preparation : Preparation) (id : NodeId) : Bool :=
  preparation.final.findings.any fun finding => finding.node = id && finding.cause.rejectsUse

theorem exists_of_report (h : ofTree config tree = .ok preparation) {finding : Finding}
    (hreport : .report finding ∈ preparation.commands) : ∃ binder action,
      Binder.Meets tree config.duplicates binder action ∧
        .report finding ∈ (binder.act tree config.duplicates action).2 := by
  refine ((mem_commands h).mp hreport).resolve_left ?_
  intro hbuiltin
  obtain ⟨b, _, hb⟩ := List.mem_flatMap.mp hbuiltin
  rcases List.mem_cons.mp hb with hset | hset
  · cases hset
  · obtain ⟨_, _, heq⟩ := List.mem_map.mp hset
    cases heq

theorem isReported_of_report (h : ofTree config tree = .ok preparation) {finding : Finding}
    (hreport : .report finding ∈ preparation.commands) : finding.cause.isReported := by
  obtain ⟨_, _, _, hact⟩ := exists_of_report h hreport
  rcases Binder.report_cases hact with ⟨_, _, heq | ⟨_, _, heq⟩⟩ | ⟨_, _, heq⟩ <;> rw [heq] <;> rfl

/-- What the binder does not report was found by a rule that was ready. -/
theorem exists_rule (h : ofTree config tree = .ok preparation) {finding : Finding}
    (hfinding : finding ∈ preparation.final.findings)
    (hcause : finding.cause.isReported = false) : ∃ rule : Rule,
      .add rule ∈ preparation.commands ∧ rule.ready preparation.final.view ∧
        finding ∈ (Rule.effect preparation.setting rule preparation.final.view).findings := by
  refine (mem_findings.mp hfinding).resolve_left ?_
  intro hreport
  have hreported := isReported_of_report h hreport
  rw [hcause] at hreported
  cases hreported

theorem exists_rule_of_kind (h : ofTree config tree = .ok preparation) {finding : Finding}
    (hfinding : finding ∈ preparation.final.findings) {kind : FindingKind}
    (hkind : finding.kind = kind) (hreported : kind.isReported = false) : ∃ rule : Rule,
      .add rule ∈ preparation.commands ∧ rule.ready preparation.final.view ∧
        finding ∈ (Rule.effect preparation.setting rule preparation.final.view).findings := by
  subst hkind
  exact exists_rule h hfinding (Cause.isReported_of_kind hreported)

theorem exists_accuser (h : ofTree config tree = .ok preparation) {finding : Finding}
    (hfinding : finding ∈ preparation.final.findings)
    (hcause : finding.cause.isReported = false) : ∃ rule : Rule,
      .add rule ∈ preparation.commands ∧ rule.ready preparation.final.view ∧
        rule.Accuses finding.node finding.cause := by
  obtain ⟨rule, hadd, hready, hmem⟩ := exists_rule h hfinding hcause
  exact ⟨rule, hadd, hready, Rule.accuses_effect _ _ _ finding hmem⟩

theorem cause_ne_stated (h : ofTree config tree = .ok preparation) {finding : Finding}
    (hfinding : finding ∈ preparation.final.findings) (kind : FindingKind) (message : String) :
    finding.cause ≠ .stated kind message := by
  intro heq
  obtain ⟨rule, _, _, haccuses⟩ := exists_accuser h hfinding (by rw [heq]; rfl)
  rw [heq] at haccuses
  cases haccuses

theorem rejected_iff : preparation.rejected id = true ↔ ∃ cause, cause.rejectsUse = true ∧
    { node := id, cause } ∈ preparation.final.findings := by
  rw [rejected, List.any_eq_true]
  constructor
  · intro ⟨⟨node, cause⟩, hfinding, hrejects⟩
    obtain ⟨hnode, hcause⟩ := Bool.and_eq_true_iff.mp hrejects
    cases of_decide_eq_true hnode
    exact ⟨cause, hcause, hfinding⟩
  · intro ⟨cause, hcause, hfinding⟩
    exact ⟨_, hfinding, by simp [hcause]⟩

theorem view_of_resolved {rule next : Rule} (houtputs : rule.outputs = [.decl id, .scope id])
    (hready : rule.ready preparation.final.view)
    (hdecl : preparation.Sole rule (.decl id)) (hscope : preparation.Sole rule (.scope id))
    {entity : Entity} {home : ScopeId}
    (hwrites : (Rule.effect preparation.setting rule preparation.final.view).writes =
      [(0, .decl entity), (1, .scope home)])
    (hspawned : ∀ other ∈ (Rule.effect preparation.setting rule preparation.final.view).spawned,
      other = next)
    (hnext : .decl id ∉ next.outputs ∧ .scope id ∉ next.outputs) :
    preparation.final.view (.decl id) = some (.decl entity) ∧
      preparation.final.view (.scope id) = some (.scope home) := by
  have hout : RuleFamily.outputs rule = [.decl id, .scope id] := houtputs
  refine ⟨?_, ?_⟩
  · apply hdecl.view_of_write hready
    · intro other hother
      rw [hspawned other hother]
      exact hnext.1
    · simp [Writes, Engine.cellWrites, hout, hwrites, Cell.decl, Cell.scope]
  · apply hscope.view_of_write hready
    · intro other hother
      rw [hspawned other hother]
      exact hnext.2
    · simp [Writes, Engine.cellWrites, hout, hwrites, Cell.decl, Cell.scope]

namespace At

theorem simpleType_lookup {name : String}
    (h : At config tree preparation id expectation (.simpleType name)) {binder : Binder}
    (hmeets : Binder.Meets tree config.duplicates binder (.useType id name)) :
    (preparation.final.view (.decl id) = none ∧ preparation.final.view (.value id) = none ∧
      preparation.final.findings ≠ []) ∨
    ∃ entity home, preparation.setting.scopes.lookup? binder.current name = some (entity, home) ∧
      entity.isType tree = true ∧
      preparation.final.view (.decl id) = some (.decl entity) ∧
      preparation.final.view (.scope id) = some (.scope home) ∧
      preparation.final.view (.value id) = preparation.final.view entity.declared := by
  have hpart : .act (.useType id name) ∈ tree.parts id (.simpleType name) expectation := by
    simp [parts]
  let rule : Rule := .resolveType id name binder.current
  have hdecl : preparation.Sole rule (.decl id) :=
    h.sole_of_act hpart rfl hmeets rfl (by simp [Action.reach])
  have hscope : preparation.Sole rule (.scope id) :=
    h.sole_of_act hpart rfl hmeets rfl (by simp [Action.reach])
  have hvalue : preparation.Sole rule (.value id) :=
    h.sole_of_act hpart rfl hmeets rfl (by simp [Action.reach])
  have hout : Cell.value id ∉ rule.outputs := by
    simp [rule, Rule.outputs, Cell.decl, Cell.scope, Cell.value]
  rcases Rule.resolveTypeEffect_cases preparation.setting id name binder.current with
    ⟨cause, heffect⟩ | ⟨entity, home, hlookup, htype, heffect⟩
  · exact .inl ⟨hdecl.view_of_find heffect, hvalue.view_of_find heffect,
      findings_ne_nil hdecl.added rfl heffect⟩
  · have heffect : Rule.effect preparation.setting rule preparation.final.view = _ := heffect
    rw [h.tree_eq] at htype
    obtain ⟨hviewDecl, hviewScope⟩ := @view_of_resolved preparation id rule (.typeValue id entity)
      rfl rfl hdecl hscope entity home (by rw [heffect]) (by simp [heffect])
      (by simp [Rule.outputs, Cell.decl, Cell.scope, Cell.value])
    refine .inr ⟨entity, home, hlookup, htype, hviewDecl, hviewScope, ?_⟩
    have hspawned : (Rule.effect preparation.setting rule preparation.final.view).spawned =
        [.typeValue id entity] := by
      rw [heffect]
    rw [hvalue.view_of_spawned (fun _ hwrite => hout (mem_outputs_of_cellWrites hwrite)) rfl rfl
      hspawned]
    exact Rule.result?_copy rfl rfl

/-- A type name stands for nothing and is found fault with, or it denotes what its entity
introduces. -/
theorem simpleType_cases {name : String}
    (h : At config tree preparation id expectation (.simpleType name)) :
    (preparation.final.view (.decl id) = none ∧ preparation.final.view (.value id) = none ∧
      preparation.final.findings ≠ []) ∨
    ∃ entity home, entity.Declared tree ∧ entity.isType tree = true ∧
      preparation.final.view (.decl id) = some (.decl entity) ∧
      preparation.final.view (.scope id) = some (.scope home) ∧
      preparation.final.view (.value id) = preparation.final.view entity.declared := by
  have hpart : .act (.useType id name) ∈ tree.parts id (.simpleType name) expectation := by
    simp [parts]
  obtain ⟨binder, hmeets⟩ := h.meets hpart
  refine (h.simpleType_lookup hmeets).imp_right ?_
  rintro ⟨entity, home, hlookup, hrest⟩
  exact ⟨entity, home, (scopes_declared h.prepared).lookup? hlookup, hrest⟩

/-- What is known of a reference in the end: it stands for an entity, and it has the type of this
unless it is rejected. -/
def Refers (tree : Tree) (preparation : Preparation) (id : NodeId) (entity : Entity)
    (home : ScopeId) : Prop :=
  preparation.final.view (.decl id) = some (.decl entity) ∧
    preparation.final.view (.scope id) = some (.scope home) ∧
    ((preparation.rejected id = true ∧ preparation.final.view (.type id) = none) ∨
      preparation.rejected id = false ∧ entity.isPredicate tree = false ∧
        preparation.final.view (.type id) = preparation.final.view entity.type)

/-- A reference is rejected when it is met, or by the rule that resolves it. -/
theorem mem_findings_iff {name : String}
    (h : At config tree preparation id expectation (.reference name)) {binder : Binder}
    (hmeets : Binder.Meets tree config.duplicates binder (.useName id name)) {cause : Cause}
    (hcause : cause.rejectsUse) : { node := id, cause } ∈ preparation.final.findings ↔
      .report { node := id, cause } ∈ (binder.act tree config.duplicates (.useName id name)).2 ∨
      ∃ held scope, .add (.resolveReference id held scope) ∈
          (binder.act tree config.duplicates (.useName id name)).2 ∧
        { node := id, cause } ∈
          (Rule.resolveReferenceEffect preparation.setting id held scope).findings := by
  rw [mem_findings]
  constructor
  · rintro (hreport | ⟨rule, hadd, _, hfinding⟩)
    · left
      obtain ⟨other, action, hother, hact⟩ := exists_of_report h.prepared hreport
      obtain ⟨held, rfl⟩ := Binder.eq_of_rejectsUse hact hcause
      obtain ⟨rfl, heq⟩ := hmeets.unique h.well hother rfl rfl
      rwa [heq] at hact
    · right
      have haccuses := Rule.accuses_effect _ rule _ _ hfinding
      obtain ⟨held, scope, rfl⟩ := haccuses.eq_of_rejectsUse hcause
      have hpart : .act (.useName id name) ∈ tree.parts id (.reference name) expectation := by
        simp [parts]
      have hcell : .decl id ∈ (Action.useName id name).reach := List.mem_cons_self
      cases haccuses <;>
        exact ⟨held, scope, h.mem_of_reach hpart rfl hmeets hcell hadd List.mem_cons_self, hfinding⟩
  · rintro (hreport | ⟨held, scope, hadd, hfinding⟩)
    · exact .inl (h.mem_commands hmeets hreport)
    · exact .inr ⟨_, h.mem_commands hmeets hadd, rfl, hfinding⟩

theorem mem_findings_of_bound {name : String}
    (h : At config tree preparation id expectation (.reference name)) {binder : Binder}
    (hmeets : Binder.Meets tree config.duplicates binder (.useName id name)) {entity : Entity}
    {home : ScopeId}
    (hlookup : binder.scopes.lookup? binder.current name = some (entity, home)) {cause : Cause}
    (hcause : cause.rejectsUse) : { node := id, cause } ∈ preparation.final.findings ↔
      entity.isPredicate tree = true ∧ cause = .predicateAsValue name := by
  rw [h.mem_findings_iff hmeets hcause, Binder.act_useName_of_some hlookup]
  cases hpredicate : entity.isPredicate tree <;> simp [Binder.bound, hpredicate]

theorem mem_findings_of_deferred {name : String}
    (h : At config tree preparation id expectation (.reference name)) {binder : Binder}
    (hmeets : Binder.Meets tree config.duplicates binder (.useName id name))
    (hlookup : binder.scopes.lookup? binder.current name = none) {cause : Cause}
    (hcause : cause.rejectsUse) :
    { node := id, cause } ∈ preparation.final.findings ↔ { node := id, cause } ∈
      (Rule.resolveReferenceEffect preparation.setting id name binder.current).findings := by
  rw [h.mem_findings_iff hmeets hcause, Binder.act_useName_of_none hlookup]
  constructor
  · rintro (hreport | ⟨held, scope, hadd, hfinding⟩)
    · cases List.mem_singleton.mp hreport
    · cases List.mem_singleton.mp hadd
      exact hfinding
  · intro hfinding
    exact .inr ⟨_, _, List.mem_cons_self, hfinding⟩

theorem refers_of_bound {name : String}
    (h : At config tree preparation id expectation (.reference name)) {binder : Binder}
    (hmeets : Binder.Meets tree config.duplicates binder (.useName id name)) {entity : Entity}
    {home : ScopeId}
    (hlookup : binder.scopes.lookup? binder.current name = some (entity, home)) :
    Refers tree preparation id entity home := by
  have hpart : .act (.useName id name) ∈ tree.parts id (.reference name) expectation := by
    simp [parts]
  have hact := @Binder.act_useName_of_some tree config.duplicates binder id name entity home hlookup
  have hbound : ∀ {cell : Cell}, cell ∈ (Action.useName id name).reach →
      ∀ command ∈ preparation.commands, cell ∈ command.reach →
        command ∈ Binder.bound tree id name entity home := by
    intro cell hcell command hcommand hreach
    rw [← hact]
    exact h.mem_of_reach hpart rfl hmeets hcell hcommand hreach
  have htold : ∀ command ∈ Binder.bound tree id name entity home,
      command ∈ preparation.commands := by
    intro command hcommand
    rw [← hact] at hcommand
    exact h.mem_commands hmeets hcommand
  have htype : .type id ∈ (Action.useName id name).reach := by simp [Action.reach]
  refine ⟨?_, ?_, ?_⟩
  · apply view_of_set (htold _ List.mem_cons_self)
    intro command hcommand hreach
    exact (Binder.eq_of_mem_bound (hbound List.mem_cons_self command hcommand hreach)).1 hreach
  · apply view_of_set (htold _ (List.mem_cons_of_mem _ List.mem_cons_self))
    intro command hcommand hreach
    have hmem := hbound (List.mem_cons_of_mem _ List.mem_cons_self) command hcommand hreach
    exact (Binder.eq_of_mem_bound hmem).2.1 hreach
  · cases hpredicate : entity.isPredicate tree with
    | true =>
      refine .inl ⟨?_, ?_⟩
      · have hfinding := (h.mem_findings_of_bound hmeets hlookup rfl).mpr ⟨hpredicate, rfl⟩
        exact rejected_iff.mpr ⟨_, rfl, hfinding⟩
      · apply view_eq_none
        intro command hcommand hreach
        have hmem := hbound htype command hcommand hreach
        rw [((Binder.eq_of_mem_bound hmem).2.2 hreach).1] at hpredicate
        cases hpredicate
    | false =>
      refine .inr ⟨?_, rfl, ?_⟩
      · rw [Bool.eq_false_iff]
        intro hrejected
        obtain ⟨cause, hcause, hfinding⟩ := rejected_iff.mp hrejected
        have hnot := ((h.mem_findings_of_bound hmeets hlookup hcause).mp hfinding).1
        rw [hpredicate] at hnot
        cases hnot
      · have hsole : preparation.Sole (.referenceType id entity) (.type id) := by
          refine ⟨htold _ (by simp [Binder.bound, hpredicate]), ?_⟩
          intro command hcommand hreach
          have hmem := hbound htype command hcommand hreach
          exact ((Binder.eq_of_mem_bound hmem).2.2 hreach).2
        rw [hsole.view_of_weight rfl rfl]
        exact Rule.result?_copy rfl rfl

theorem unresolved_of_deferred {name : String}
    (h : At config tree preparation id expectation (.reference name)) {binder : Binder}
    (hmeets : Binder.Meets tree config.duplicates binder (.useName id name))
    (hlookup : binder.scopes.lookup? binder.current name = none)
    (hfinal : preparation.setting.scopes.lookup? binder.current name = none) :
    { node := id, cause := .unresolved name } ∈ preparation.final.findings ∧
      ∀ cell ∈ (Action.useName id name).reach, preparation.final.view cell = none := by
  have hpart : .act (.useName id name) ∈ tree.parts id (.reference name) expectation := by
    simp [parts]
  have hact := @Binder.act_useName_of_none tree config.duplicates binder id name hlookup
  have heffect : Rule.effect preparation.setting (.resolveReference id name binder.current)
      preparation.final.view = Effect.find id (.unresolved name) := by
    simp only [Rule.effect, Rule.resolveReferenceEffect, hfinal]
  have hsole : ∀ cell ∈ (Action.useName id name).reach,
      preparation.Sole (.resolveReference id name binder.current) cell :=
    fun cell hcell => h.sole_of_act hpart rfl hmeets hact hcell
  refine ⟨?_, fun cell hcell => (hsole cell hcell).view_of_find heffect⟩
  apply mem_findings_of_rule (hsole _ List.mem_cons_self).added rfl
  rw [heffect]
  exact List.mem_cons_self

theorem refers_of_deferred {name : String}
    (h : At config tree preparation id expectation (.reference name)) {binder : Binder}
    (hmeets : Binder.Meets tree config.duplicates binder (.useName id name))
    (hlookup : binder.scopes.lookup? binder.current name = none) {entity : Entity}
    {home : ScopeId}
    (hfinal : preparation.setting.scopes.lookup? binder.current name = some (entity, home)) :
    Refers tree preparation id entity home := by
  have hpart : .act (.useName id name) ∈ tree.parts id (.reference name) expectation := by
    simp [parts]
  have hact := @Binder.act_useName_of_none tree config.duplicates binder id name hlookup
  obtain ⟨hwrites, hcase⟩ := Rule.resolveReferenceEffect_cases id hfinal
  rw [h.tree_eq] at hcase
  let rule : Rule := .resolveReference id name binder.current
  have hsole : ∀ cell ∈ (Action.useName id name).reach, preparation.Sole rule cell :=
    fun cell hcell => h.sole_of_act hpart rfl hmeets hact hcell
  have htype : preparation.Sole rule (.type id) := hsole _ (by simp [Action.reach])
  have hsilent : ∀ value, ¬ preparation.Writes rule (.type id) value := by
    intro value hwrite
    have hmem := mem_outputs_of_cellWrites hwrite
    simp [rule, Rule.outputs, Cell.decl, Cell.scope, Cell.type] at hmem
  have hnext : ∀ other ∈ (Rule.effect preparation.setting rule preparation.final.view).spawned,
      other = .referenceType id entity := by
    intro other hother
    change other ∈ (Rule.resolveReferenceEffect _ id name binder.current).spawned at hother
    rcases hcase with ⟨_, _, _, hspawned⟩ | ⟨_, _, hspawned⟩ <;> rw [hspawned] at hother
    · cases hother
    · exact List.mem_singleton.mp hother
  obtain ⟨hviewDecl, hviewScope⟩ := view_of_resolved rfl rfl (hsole _ List.mem_cons_self)
    (hsole _ (List.mem_cons_of_mem _ List.mem_cons_self)) hwrites hnext
    (by simp [Rule.outputs, Cell.decl, Cell.scope, Cell.type])
  refine ⟨hviewDecl, hviewScope, ?_⟩
  rcases hcase with ⟨cause, hcause, hfindings, hspawned⟩ | ⟨hpredicate, hfindings, hspawned⟩
  · refine .inl ⟨rejected_iff.mpr ⟨cause, hcause, ?_⟩, ?_⟩
    · rw [h.mem_findings_of_deferred hmeets hlookup hcause, hfindings]
      exact List.mem_cons_self
    · apply htype.view_eq_none fun _ => hsilent
      intro _ other hmem
      change other ∈ (Rule.resolveReferenceEffect _ id name binder.current).spawned at hmem
      rw [hspawned] at hmem
      cases hmem
  · refine .inr ⟨?_, hpredicate, ?_⟩
    · rw [Bool.eq_false_iff]
      intro hrejected
      obtain ⟨cause, hcause, hfinding⟩ := rejected_iff.mp hrejected
      rw [h.mem_findings_of_deferred hmeets hlookup hcause, hfindings] at hfinding
      cases hfinding
    · rw [htype.view_of_spawned hsilent rfl rfl hspawned]
      exact Rule.result?_copy rfl rfl

/-- A reference stands for nothing and is found fault with, or it stands for an entity. -/
theorem reference_cases {name : String}
    (h : At config tree preparation id expectation (.reference name)) :
    (preparation.final.view (.decl id) = none ∧ preparation.final.view (.type id) = none ∧
      preparation.final.findings ≠ []) ∨
    ∃ entity home, entity.Declared tree ∧ Refers tree preparation id entity home := by
  have hpart : .act (.useName id name) ∈ tree.parts id (.reference name) expectation := by
    simp [parts]
  obtain ⟨binder, hmeets⟩ := h.meets hpart
  cases hlookup : binder.scopes.lookup? binder.current name with
  | some found =>
    exact .inr ⟨found.1, found.2, hmeets.bindsDeclared.1.lookup? hlookup,
      h.refers_of_bound hmeets hlookup⟩
  | none =>
    cases hfinal : preparation.setting.scopes.lookup? binder.current name with
    | some found =>
      exact .inr ⟨found.1, found.2, (scopes_declared h.prepared).lookup? hfinal,
        h.refers_of_deferred hmeets hlookup hfinal⟩
    | none =>
      obtain ⟨hfinding, hnone⟩ := h.unresolved_of_deferred hmeets hlookup hfinal
      exact .inl ⟨hnone _ (by simp [Action.reach]), hnone _ (by simp [Action.reach]),
        List.ne_nil_of_mem hfinding⟩

end At

end Preparation

end Attribution
