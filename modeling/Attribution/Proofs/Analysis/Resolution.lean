import Attribution.Proofs.Analysis.Names
import Attribution.Proofs.Tree.Layers
/-!
# The resolution of references

A reference is bound while the walk goes on, or after it, by a rule. Together this comes to one rule
of scoping: the nearest scope counts that holds the name when the walk comes to the reference, and
only if there is none the nearest one that holds it in the end. A variable that is found only then
comes too late.
-/
namespace Attribution

/-- Some actions declare a node. -/
def Declares (actions : List Action) (decl : NodeId) : Prop :=
  ∃ name, .declare name decl ∈ actions

/-- What the walk has declared, and what not, when it comes to a reference after some actions. -/
structure Tree.Orders (tree : Tree) (before : List Action) (id : NodeId) : Prop where
  function : ∀ {function body returnType : NodeId} {name : String} {template : Option NodeId}
    {parameters : List NodeId},
    tree.node? function = some (.funDecl name template parameters returnType body) →
      tree.Below function id → Declares before function
  parameter : ∀ {function body returnType : NodeId} {name : String} {template : Option NodeId}
    {parameters : List NodeId},
    tree.node? function = some (.funDecl name template parameters returnType body) →
      tree.Below body id → ∀ parameter ∈ parameters, Declares before parameter
  initializer : ∀ {decl type initializer : NodeId} {name : String},
    tree.node? decl = some (.varDecl name type initializer) →
      tree.Below initializer id → ¬ Declares before decl

theorem Tree.Meets.orders {tree : Tree} {id : NodeId} {name : String} {before after : List Action}
    (h : tree.Meets id name before after) (hwell : tree.WellFormed) : tree.Orders before id where
  function hfunction hbelow := ⟨_, h.function_declared hwell hfunction hbelow⟩
  parameter hfunction hbelow parameter hmem := by
    have hkind := (hwell.fits _ _ hfunction).2.1 parameter hmem
    obtain ⟨node, hnode, hparameter⟩ := Tree.satisfies_iff.mp hkind
    cases node with
    | parameter given type =>
      exact ⟨given, h.parameter_declared hwell hfunction hbelow hmem hnode⟩
    | _ => cases hparameter
  initializer hdecl hbelow := by
    rintro ⟨other, hearlier⟩
    exact h.variable_not_declared hwell hdecl hbelow other hearlier

namespace Analysis

/-- A reference stands for an entity that the scope of an opener holds. -/
def BindsTo (analysis : Analysis) (id opener : NodeId) (entity : Entity) : Prop :=
  analysis.declOf? id = some entity ∧ ∃ scope, analysis.scopeOf? opener = some scope ∧
    analysis.scopeOf? id = some scope

/-- The scopes that openers have opened, and what they hold in the end after some actions. -/
structure Encloses (config : Config) (tree : Tree) (analysis : Analysis) (actions : List Action)
    (openers : List NodeId) (scope : ScopeId) (outer : List ScopeId) : Prop where
  scopes : List.Forall₂ (fun opener scope => analysis.scopeOf? opener = some scope) openers
    (scope :: outer)
  ancestors : analysis.scopes.ancestors scope = .ok (scope :: outer)
  held : List.Forall₂ (fun opener scope => ∀ name, tree.Stands config.duplicates name opener actions
    (analysis.scopes.held? scope name)) openers (scope :: outer)

/-- How a reference is resolved that the walk comes to after some actions and before others, inside
some openers. -/
structure Resolves (config : Config) (tree : Tree) (analysis : Analysis) (id : NodeId)
    (name : String) (before after : List Action) (openers : List NodeId) : Prop where
  walk : tree.walk = .ok (before ++ .useName id name :: after)
  around : tree.Around id openers
  encloses : ∃ scope outer, analysis.Encloses config tree (before ++ .useName id name :: after)
    openers scope outer
  early : ∀ opener entity, tree.Finds config.duplicates before name openers opener entity →
    analysis.BindsTo id opener entity
  late : (∀ opener ∈ openers, tree.Stands config.duplicates name opener before none) →
    ∀ opener entity, tree.Finds config.duplicates (before ++ .useName id name :: after) name openers
      opener entity → analysis.BindsTo id opener entity
  unresolved : (∀ opener ∈ openers, tree.Stands config.duplicates name opener
      (before ++ .useName id name :: after) none) →
    { node := id, cause := .unresolved name } ∈ analysis.findings ∧ analysis.declOf? id = none ∧
      analysis.scopeOf? id = none
  usedBefore : (∃ finding ∈ analysis.findings,
      finding.node = id ∧ finding.kind = .usedBeforeDeclaration) ↔
    ∃ decl, analysis.declOf? id = some (.node decl) ∧ tree.satisfies decl Node.isVariable ∧
      ¬ Declares before decl
  untyped : ∀ decl, analysis.declOf? id = some (.node decl) → tree.satisfies decl Node.isVariable →
    ¬ Declares before decl → analysis.typeOf? id = none

end Analysis

namespace Preparation

open Binder

variable {config : Config} {tree : Tree} {preparation : Preparation} {id : NodeId} {name : String}
  {before after : List Action} {openers : List NodeId}

theorem Scoped.view_scope {actions : List Action} (h : Scoped config tree preparation actions)
    {scope : ScopeId} {opener : NodeId}
    (howner : preparation.binder.owner? scope = some opener) :
    preparation.final.view (.scope opener) = some (.scope scope) := by
  apply view_of_set (h.set_mem howner)
  intro command hcommand hreach
  exact eq_of_reach h.unshared h.prepared (h.set_mem howner) hcommand List.mem_cons_self hreach

/-- The binder, as it comes to a reference inside some openers, in a scope within others. -/
structure Uses (config : Config) (tree : Tree) (preparation : Preparation) (id : NodeId)
    (name : String) (before after : List Action) (openers : List NodeId) (scope : ScopeId)
    (outer : List ScopeId) : Prop where
  well : tree.WellFormed
  node : tree.node? id = some (.reference name)
  around : tree.Around id openers
  located : Located config tree preparation before (.useName id name :: after) openers scope outer

theorem exists_uses (hwell : tree.WellFormed) (hprepared : ofTree config tree = .ok preparation)
    (hmeets : tree.Meets id name before after) : ∃ openers scope outer,
      Uses config tree preparation id name before after openers scope outer := by
  have hscoped : Scoped config tree preparation (before ++ .useName id name :: after) :=
    ⟨hwell.unshared, hwell.rooted, hmeets.walk, hprepared⟩
  obtain ⟨haround, hne⟩ := hscoped.around_of_binds rfl
  obtain ⟨scope, outer, hlocated⟩ := hscoped.exists_located hne
  exact ⟨_, scope, outer, hwell, hmeets.node, haround, hlocated⟩

/-- The analysis that a preparation leads to. -/
def analysis (preparation : Preparation) : Analysis where
  engine := preparation.final
  scopes := preparation.binder.scopes

namespace Uses

variable {scope : ScopeId} {outer : List ScopeId}

theorem encloses (h : Uses config tree preparation id name before after openers scope outer) :
    preparation.analysis.Encloses config tree (before ++ .useName id name :: after) openers scope
      outer where
  scopes := h.located.owners.imp fun opener scope howner => by
    change (preparation.final.view (.scope opener)).bind Value.scope? = some scope
    rw [h.located.walk.view_scope howner]
    rfl
  ancestors := h.located.final_chain.ancestors
  held := h.located.owners.imp fun opener scope howner name => by
    have hstands := h.located.whole.stands howner name
    rw [h.located.binder_eq] at hstands
    exact hstands

theorem not_declares (h : Uses config tree preparation id name before after openers scope outer)
    (hnone : ∀ opener ∈ openers, tree.Stands config.duplicates name opener before none)
    {opener decl : NodeId} (hfinds : tree.Finds config.duplicates
      (before ++ .useName id name :: after) name openers opener (.node decl)) :
    ¬ Declares before decl := by
  rintro ⟨held, hearlier⟩
  obtain ⟨hopener, hstands⟩ := hfinds.exists_stands
  obtain ⟨hmem, outer, haround⟩ := hstands.declared_of_node
  -- the walk declares a node once, so it is under this name that it did so
  have hsame : held = name := by
    have hwhole : .declare held decl ∈ before ++ .useName id name :: after := by simp [hearlier]
    obtain ⟨left, right, hsplit⟩ := List.append_of_mem hmem
    obtain ⟨left', right', hsplit'⟩ := List.append_of_mem hwhole
    have hnodup := h.located.walk.unshared.nodup_declares h.located.walk.walk
    obtain ⟨_, heq⟩ := Tree.split_unique hnodup hsplit hsplit' rfl rfl
    exact (Action.declare.inj heq).1
  rw [hsame] at hearlier
  exact absurd ((hnone opener hopener).isSome hearlier haround) (by simp)

theorem exists_at (h : Uses config tree preparation id name before after openers scope outer) :
    ∃ expectation, At config tree preparation id expectation (.reference name) := by
  obtain ⟨path, expectation, hleads⟩ := h.well.exists_leads h.node
  exact ⟨expectation, h.well, h.located.walk.prepared, h.well.walked hleads h.node rfl, h.node⟩

theorem meets (h : Uses config tree preparation id name before after openers scope outer) :
    Meets tree config.duplicates (binderAfter config tree before) (.useName id name) :=
  ⟨before, after, h.located.walk.walk, rfl⟩

theorem bindsTo_of_refers
    (h : Uses config tree preparation id name before after openers scope outer)
    {entity : Entity} {home : ScopeId} {opener : NodeId}
    (hrefers : At.Refers tree preparation id entity home)
    (howner : preparation.binder.owner? home = some opener) :
    preparation.analysis.BindsTo id opener entity := by
  refine ⟨?_, home, ?_, ?_⟩
  · change (preparation.final.view (.decl id)).bind Value.decl? = some entity
    rw [hrefers.1]
    rfl
  · change (preparation.final.view (.scope opener)).bind Value.scope? = some home
    rw [h.located.walk.view_scope howner]
    rfl
  · change (preparation.final.view (.scope id)).bind Value.scope? = some home
    rw [hrefers.2.1]
    rfl

theorem usedBefore_iff (h : Uses config tree preparation id name before after openers scope outer) :
    (∃ finding ∈ preparation.analysis.findings,
        finding.node = id ∧ finding.kind = .usedBeforeDeclaration) ↔
      ∃ held, { node := id, cause := .usedBeforeDeclaration held } ∈
        preparation.final.findings := by
  constructor
  · rintro ⟨⟨node, cause⟩, hfinding, rfl, hkind⟩
    cases cause with
    | usedBeforeDeclaration held => exact ⟨held, hfinding⟩
    | stated kind message =>
      exact absurd rfl (cause_ne_stated h.located.walk.prepared hfinding kind message)
    | _ => cases hkind
  · rintro ⟨held, hfinding⟩
    exact ⟨_, hfinding, rfl, rfl⟩

theorem resolves_of_bound
    (h : Uses config tree preparation id name before after openers scope outer)
    {entity : Entity} {home : ScopeId} {opener : NodeId}
    (hlookup : (binderAfter config tree before).scopes.lookup? scope name = some (entity, home))
    (howner : preparation.binder.owner? home = some opener)
    (hfinds : tree.Finds config.duplicates before name openers opener entity) :
    preparation.analysis.Resolves config tree id name before after openers := by
  obtain ⟨expectation, hat⟩ := h.exists_at
  rw [← h.located.current] at hlookup
  have hbinds := h.bindsTo_of_refers (hat.refers_of_bound h.meets hlookup) howner
  obtain ⟨hopener, hstands⟩ := hfinds.exists_stands
  have hdeclared : ∀ decl, preparation.analysis.declOf? id = some (.node decl) →
      Declares before decl := by
    intro decl hdecl
    rw [Option.some.inj (hbinds.1.symm.trans hdecl)] at hstands
    exact ⟨name, hstands.declared_of_node.1⟩
  refine ⟨h.located.walk.walk, h.around, ⟨scope, outer, h.encloses⟩, ?_, ?_, ?_, ?_, ?_⟩
  · intro other found hother
    obtain ⟨rfl, rfl⟩ := hfinds.unique hother
    exact hbinds
  · intro hnone
    cases hstands.unique (hnone opener hopener)
  · intro hnone
    cases (hnone opener hopener).isSome_append hstands
  · rw [h.usedBefore_iff]
    constructor
    · rintro ⟨held, hfinding⟩
      cases ((hat.mem_findings_of_bound h.meets hlookup rfl).mp hfinding).2
    · rintro ⟨decl, hdecl, _, hlater⟩
      exact absurd (hdeclared decl hdecl) hlater
  · intro decl hdecl _ hlater
    exact absurd (hdeclared decl hdecl) hlater

/-- A reference that finds its name in the final scopes comes too early just for a variable. -/
theorem usedBefore_of_deferred
    (h : Uses config tree preparation id name before after openers scope outer)
    (hlookup : (binderAfter config tree before).scopes.lookup? scope name = none)
    {entity : Entity} {home : ScopeId}
    (hfinal : preparation.setting.scopes.lookup? scope name = some (entity, home)) :
    (∃ finding ∈ preparation.analysis.findings,
      finding.node = id ∧ finding.kind = .usedBeforeDeclaration) ↔ entity.isVariable tree := by
  obtain ⟨expectation, hat⟩ := h.exists_at
  rw [← h.located.current] at hlookup hfinal
  have hfound : ∀ held, { node := id, cause := .usedBeforeDeclaration held } ∈
      preparation.final.findings ↔ { node := id, cause := .usedBeforeDeclaration held } ∈
        (Rule.resolveReferenceEffect preparation.setting id name
          (binderAfter config tree before).current).findings :=
    fun held => hat.mem_findings_of_deferred h.meets hlookup rfl
  simp only [h.usedBefore_iff, hfound, Rule.resolveReferenceEffect, Rule.referenceEffect, hfinal,
    hat.tree_eq]
  cases entity.isVariable tree with
  | true => simp [Effect.find]
  | false => cases entity.isPredicate tree <;> simp [Effect.find, Effect.spawn]

theorem resolves_of_deferred
    (h : Uses config tree preparation id name before after openers scope outer)
    (hlookup : (binderAfter config tree before).scopes.lookup? scope name = none)
    (hnone : ∀ opener ∈ openers, tree.Stands config.duplicates name opener before none)
    {entity : Entity} {home : ScopeId} {opener : NodeId}
    (hfinal : preparation.setting.scopes.lookup? scope name = some (entity, home))
    (howner : preparation.binder.owner? home = some opener)
    (hfinds : tree.Finds config.duplicates (before ++ .useName id name :: after) name openers
      opener entity) :
    preparation.analysis.Resolves config tree id name before after openers := by
  have hused := h.usedBefore_of_deferred hlookup hfinal
  obtain ⟨expectation, hat⟩ := h.exists_at
  rw [← h.located.current] at hlookup hfinal
  have hrefers := hat.refers_of_deferred h.meets hlookup hfinal
  have hbinds := h.bindsTo_of_refers hrefers howner
  have hlater : ∀ decl, preparation.analysis.declOf? id = some (.node decl) →
      entity = .node decl ∧ ¬ Declares before decl := by
    intro decl hdecl
    obtain rfl := Option.some.inj (hbinds.1.symm.trans hdecl)
    exact ⟨rfl, h.not_declares hnone hfinds⟩
  refine ⟨h.located.walk.walk, h.around, ⟨scope, outer, h.encloses⟩, ?_, ?_, ?_, ?_, ?_⟩
  · intro other found hother
    obtain ⟨hopener, hstands⟩ := hother.exists_stands
    cases hstands.unique (hnone other hopener)
  · intro _ other found hother
    obtain ⟨rfl, rfl⟩ := hfinds.unique hother
    exact hbinds
  · intro hall
    obtain ⟨hopener, hstands⟩ := hfinds.exists_stands
    cases hstands.unique (hall opener hopener)
  · rw [hused]
    constructor
    · intro hvariable
      cases entity with
      | node decl => exact ⟨decl, hbinds.1, hvariable, (hlater decl hbinds.1).2⟩
      | builtin b => cases hvariable
    · rintro ⟨decl, hdecl, hvariable, _⟩
      rw [(hlater decl hdecl).1]
      exact hvariable
  · intro decl hdecl hvariable _
    rw [(hlater decl hdecl).1] at hused
    obtain ⟨held, hfinding⟩ := h.usedBefore_iff.mp (hused.mpr hvariable)
    have hrejected := rejected_iff.mpr ⟨_, rfl, hfinding⟩
    change (preparation.final.view (.type id)).bind Value.type? = none
    rcases hrefers.2.2 with ⟨_, hnone⟩ | ⟨hnot, _⟩
    · rw [hnone]
      rfl
    · rw [hrejected] at hnot
      cases hnot

theorem resolves_of_unresolved
    (h : Uses config tree preparation id name before after openers scope outer)
    (hlookup : (binderAfter config tree before).scopes.lookup? scope name = none)
    (hnone : ∀ opener ∈ openers, tree.Stands config.duplicates name opener before none)
    (hfinal : preparation.setting.scopes.lookup? scope name = none)
    (hall : ∀ opener ∈ openers, tree.Stands config.duplicates name opener
      (before ++ .useName id name :: after) none) :
    preparation.analysis.Resolves config tree id name before after openers := by
  obtain ⟨expectation, hat⟩ := h.exists_at
  rw [← h.located.current] at hlookup hfinal
  obtain ⟨hfinding, hview⟩ := hat.unresolved_of_deferred h.meets hlookup hfinal
  have hdecl : preparation.analysis.declOf? id = none := by
    change (preparation.final.view (.decl id)).bind Value.decl? = none
    rw [hview _ (by simp [Action.reach])]
    rfl
  refine ⟨h.located.walk.walk, h.around, ⟨scope, outer, h.encloses⟩, ?_, ?_, ?_, ?_, ?_⟩
  · intro other found hother
    obtain ⟨hopener, hstands⟩ := hother.exists_stands
    cases hstands.unique (hnone other hopener)
  · intro _ other found hother
    obtain ⟨hopener, hstands⟩ := hother.exists_stands
    cases hstands.unique (hall other hopener)
  · refine fun _ => ⟨hfinding, hdecl, ?_⟩
    change (preparation.final.view (.scope id)).bind Value.scope? = none
    rw [hview _ (by simp [Action.reach])]
    rfl
  · rw [h.usedBefore_iff]
    constructor
    · rintro ⟨held, hused⟩
      rw [hat.mem_findings_of_deferred h.meets hlookup rfl] at hused
      simp only [Rule.resolveReferenceEffect, hfinal] at hused
      cases List.mem_singleton.mp hused
    · rintro ⟨decl, hfound, _⟩
      rw [hdecl] at hfound
      cases hfound
  · intro decl hfound
    rw [hdecl] at hfound
    cases hfound

theorem resolves (h : Uses config tree preparation id name before after openers scope outer) :
    preparation.analysis.Resolves config tree id name before after openers := by
  rcases h.located.lookup?_cases name with ⟨hlookup, hnone⟩ |
    ⟨entity, home, opener, hlookup, howner, hfinds⟩
  · rcases h.located.final_lookup?_cases name with ⟨hfinal, hall⟩ |
      ⟨entity, home, opener, hfinal, howner, hfinds⟩
    · exact h.resolves_of_unresolved hlookup hnone hfinal hall
    · exact h.resolves_of_deferred hlookup hnone hfinal howner hfinds
  · exact h.resolves_of_bound hlookup howner hfinds

end Uses

end Preparation

/-- Every reference of a well-formed tree is resolved by the rule of scoping. -/
theorem resolves_lexically (config : Config) {tree : Tree} (hwell : tree.WellFormed) :
    ∃ analysis, Analysis.ofTree config tree = .ok analysis ∧ ∀ id name,
      tree.node? id = some (.reference name) → ∃ before after openers,
        tree.Orders before id ∧ analysis.Resolves config tree id name before after openers := by
  obtain ⟨preparation, hprepared⟩ := Preparation.exists_ofTree hwell config
  refine ⟨_, Analysis.ofTree_eq hprepared, ?_⟩
  intro id name hnode
  obtain ⟨before, after, hmeets⟩ := Tree.Meets.exists_of hwell hnode
  obtain ⟨openers, scope, outer, huses⟩ := Preparation.exists_uses hwell hprepared hmeets
  exact ⟨before, after, openers, hmeets.orders hwell, huses.resolves⟩

/-- A variable whose initializer refers to a later one. -/
def Tree.tooEarly : Tree where
  nodes := #[
    { node := .root [1, 4] },
    { node := .varDecl "x" 2 3 },
    { node := .simpleType "Int" },
    { node := .reference "y" },
    { node := .varDecl "y" 5 6 },
    { node := .simpleType "Int" },
    { node := .literal (.int 1) }]
  root := 0

theorem resolves_lexically_tooEarly : Tree.tooEarly.WellFormed ∧
    ∃ analysis, Analysis.ofTree {} Tree.tooEarly = .ok analysis ∧
      (∃ decl, analysis.declOf? 3 = some (.node decl) ∧
        Tree.tooEarly.satisfies decl Node.isVariable) ∧
      analysis.typeOf? 3 = none := by
  have hwell : Tree.tooEarly.WellFormed := by decide +kernel
  obtain ⟨analysis, hanalysis, hresolves⟩ := resolves_lexically {} hwell
  refine ⟨hwell, analysis, hanalysis, ?_⟩
  have hfound : (Analysis.ofTree {} Tree.tooEarly).toOption.any (fun analysis =>
      analysis.findings.any fun finding =>
        finding.node = 3 && finding.kind = .usedBeforeDeclaration) := by decide +kernel
  rw [hanalysis] at hfound
  obtain ⟨finding, hmem, hfinding⟩ := List.any_eq_true.mp hfound
  obtain ⟨before, after, openers, _, h⟩ := hresolves 3 "y" rfl
  obtain ⟨decl, hdecl, hvariable, hlater⟩ :=
    h.usedBefore.mp ⟨finding, hmem, by simpa using hfinding⟩
  exact ⟨⟨decl, hdecl, hvariable⟩, h.untyped decl hdecl hvariable hlater⟩

end Attribution
