import Attribution.Proofs.Analysis.Flows
/-!
# What names stand for before the rules run

Which nodes can depend on a placeholder is settled by what the binder knows when the walk is over.
For references that is what they stand for in the end; a type name can stand for what is no type.
-/
namespace Attribution

namespace Binder

variable {tree : Tree} {policy : DuplicatePolicy} {binder : Binder} {id : NodeId}

/-- What a binder has noted of a node: what its name stands for, or where it is to be looked up. -/
def noted (binder : Binder) (id : NodeId) : Option Entity × Option ScopeId :=
  (binder.resolved.lookup id, binder.deferred.lookup id)

theorem noted_act {action : Action} (h : action.binds? ≠ some id) :
    (binder.act tree policy action).1.noted id = binder.noted id := by
  cases action with
  | declare name decl =>
    rw [act]
    rcases @declare_cases tree policy binder name decl with ⟨_, heq⟩ | heq <;> rw [heq]
    rfl
  | useName node name =>
    have hne : (id == node) = false := beq_eq_false_iff_ne.mpr fun heq => h (congrArg some heq.symm)
    simp only [act, useName]
    split <;> simp only [noted, List.lookup_cons, hne]
  | useType node name =>
    have hne : (id == node) = false := beq_eq_false_iff_ne.mpr fun heq => h (congrArg some heq.symm)
    simp only [act, noted, List.lookup_cons, hne]
  | _ => rfl

theorem noted_actAll {actions : List Action} (h : id ∉ actions.filterMap Action.binds?) :
    (binder.actAll tree policy actions).1.noted id = binder.noted id := by
  refine @actAll_induction tree policy (fun other => other.noted id = binder.noted id) actions ?_
    binder rfl
  intro other action haction hother
  rw [noted_act, hother]
  intro hbinds
  exact h (List.mem_filterMap.mpr ⟨action, haction, hbinds⟩)

end Binder

open Attribution.Tree Attribution.Part

namespace Preparation

variable {config : Config} {tree : Tree} {preparation : Preparation} {id : NodeId} {name : String}
  {binder : Binder} {action : Action}

/-- What is noted of a node is noted at the one action that asks for it. -/
theorem noted_eq (hunshared : tree.Unshared) (h : ofTree config tree = .ok preparation)
    (hmeets : Binder.Meets tree config.duplicates binder action)
    (hbinds : action.binds? = some id) : binder.noted id = (none, none) ∧
      preparation.binder.noted id = (binder.act tree config.duplicates action).1.noted id := by
  obtain ⟨before, after, hwalk, rfl⟩ := hmeets
  obtain ⟨actions, hactions, hbinder, _⟩ := ofTree_eq_ok h
  cases Except.ok.inj (hwalk.symm.trans hactions)
  have hnodup : ((before ++ action :: after).filterMap Action.binds?).Nodup :=
    hunshared.nodup_filterMap hwalk fun _ _ node => binds_actions_sublist node
  rw [List.filterMap_append, List.filterMap_cons_some hbinds] at hnodup
  obtain ⟨_, hlater, hearlier⟩ := List.nodup_append.mp hnodup
  constructor
  · rw [Binder.noted_actAll fun hmem => hearlier id hmem id List.mem_cons_self rfl]
    rfl
  · rw [hbinder, Binder.actAll_append, Binder.actAll]
    exact Binder.noted_actAll (List.nodup_cons.mp hlater).1

theorem noted_of_unwalked (h : ofTree config tree = .ok preparation)
    (hunwalked : ¬ ∃ expectation, tree.Walked id expectation) :
    preparation.binder.noted id = (none, none) := by
  obtain ⟨actions, hwalk, hbinder, _⟩ := ofTree_eq_ok h
  rw [hbinder, Binder.noted_actAll]
  · rfl
  · intro hmem
    obtain ⟨action, haction, hbinds⟩ := List.mem_filterMap.mp hmem
    obtain ⟨found, expectation, node, hwalked, _, hown⟩ := (WellFormed.mem_walk hwalk).mp haction
    have hfound : found = id := by
      rcases eq_of_binds (mem_actions.mp hown) (Option.isSome_of_eq_some hbinds) with
        ⟨_, _, rfl⟩ | ⟨_, _, rfl⟩ | ⟨_, _, rfl⟩ <;> exact Option.some.inj hbinds
    exact hunwalked ⟨expectation, hfound ▸ hwalked⟩

theorem entity?_of_unwalked (h : ofTree config tree = .ok preparation)
    (hunwalked : ¬ ∃ expectation, tree.Walked id expectation) :
    preparation.binder.entity? tree id = none ∧ preparation.final.view.decl? id = none := by
  obtain ⟨hresolved, hdeferred⟩ := Prod.mk.inj (noted_of_unwalked h hunwalked)
  refine ⟨?_, ?_⟩
  · rw [Binder.entity?, hresolved, hdeferred]
  · have hnone : preparation.final.view (.decl id) = none := by
      rw [← Option.not_isSome_iff_eq_none]
      intro hsome
      exact hunwalked (walked_of_isSome h hsome (by simp [Cell.decl]) rfl)
    rw [View.decl?, hnone]
    rfl

theorem exists_meets_of_walked (h : ofTree config tree = .ok preparation)
    {expectation : Expectation} (hwalked : tree.Walked id expectation) {node : Node}
    (hnode : tree.node? id = some node) (hpart : .act action ∈ tree.parts id node expectation) :
    ∃ binder, Binder.Meets tree config.duplicates binder action := by
  obtain ⟨actions, hwalk, _⟩ := ofTree_eq_ok h
  have hmem : action ∈ actions := (WellFormed.mem_walk hwalk).mpr
    ⟨id, expectation, node, hwalked, hnode, mem_actions.mpr hpart⟩
  obtain ⟨before, after, rfl⟩ := List.append_of_mem hmem
  exact ⟨_, before, after, hwalk, rfl⟩

/-- No command but the one that adds a rule reaches an output of this rule. -/
theorem sole_of_add (hunshared : tree.Unshared) (h : ofTree config tree = .ok preparation)
    {rule : Rule} (hadd : .add rule ∈ preparation.commands) {cell : Cell}
    (hcell : cell ∈ rule.outputs) : preparation.Sole rule cell :=
  ⟨hadd, fun _ hcommand hreach =>
    eq_of_reach hunshared h hadd hcommand (Rule.mem_reach_of_outputs hcell) hreach⟩

theorem decl?_of_bound (hunshared : tree.Unshared) (h : ofTree config tree = .ok preparation)
    (hmeets : Binder.Meets tree config.duplicates binder (.useName id name)) {entity : Entity}
    {home : ScopeId}
    (hlookup : binder.scopes.lookup? binder.current name = some (entity, home)) :
    preparation.final.view.decl? id = some entity := by
  have hset : .set (.decl id) (.decl entity) ∈ preparation.commands := by
    refine (mem_commands h).mpr (.inr ⟨binder, _, hmeets, ?_⟩)
    rw [Binder.act_useName_of_some hlookup]
    exact List.mem_cons_self
  have hview : preparation.final.view (.decl id) = some (.decl entity) :=
    view_of_set hset fun _ hcommand hreach =>
      eq_of_reach hunshared h hset hcommand List.mem_cons_self hreach
  rw [View.decl?, hview]
  rfl

theorem decl?_of_deferred (hunshared : tree.Unshared) (h : ofTree config tree = .ok preparation)
    (hmeets : Binder.Meets tree config.duplicates binder (.useName id name))
    (hlookup : binder.scopes.lookup? binder.current name = none) :
    preparation.final.view.decl? id =
      (preparation.setting.scopes.lookup? binder.current name).map Prod.fst := by
  let rule : Rule := .resolveReference id name binder.current
  have hadd : .add rule ∈ preparation.commands := by
    refine (mem_commands h).mpr (.inr ⟨binder, _, hmeets, ?_⟩)
    rw [Binder.act_useName_of_none hlookup]
    exact List.mem_cons_self
  have hdecl : preparation.Sole rule (.decl id) := sole_of_add hunshared h hadd List.mem_cons_self
  have hscope : preparation.Sole rule (.scope id) :=
    sole_of_add hunshared h hadd (List.mem_cons_of_mem _ List.mem_cons_self)
  cases hfinal : preparation.setting.scopes.lookup? binder.current name with
  | none =>
    have heffect : Rule.effect preparation.setting rule preparation.final.view =
        Effect.find id (.unresolved name) := by
      simp only [rule, Rule.effect, Rule.resolveReferenceEffect, hfinal]
    rw [View.decl?, hdecl.view_of_find heffect]
    rfl
  | some found =>
    obtain ⟨entity, home⟩ := found
    obtain ⟨hwrites, hcase⟩ := Rule.resolveReferenceEffect_cases id hfinal
    have hnext : ∀ other ∈ (Rule.effect preparation.setting rule preparation.final.view).spawned,
        other = .referenceType id entity := by
      intro other hother
      change other ∈ (Rule.resolveReferenceEffect _ id name binder.current).spawned at hother
      rcases hcase with ⟨_, _, _, hspawned⟩ | ⟨_, _, hspawned⟩ <;> rw [hspawned] at hother
      · cases hother
      · exact List.mem_singleton.mp hother
    have hview := (view_of_resolved rfl rfl hdecl hscope hwrites hnext
      (by simp [Rule.outputs, Cell.decl, Cell.scope, Cell.type])).1
    rw [View.decl?, hview]
    rfl

theorem entity?_of_reference (hunshared : tree.Unshared)
    (h : ofTree config tree = .ok preparation) (hnode : tree.node? id = some (.reference name)) :
    preparation.binder.entity? tree id = preparation.final.view.decl? id := by
  by_cases hwalked : ∃ expectation, tree.Walked id expectation
  · obtain ⟨expectation, hwalked⟩ := hwalked
    have hpart : .act (.useName id name) ∈ tree.parts id (.reference name) expectation := by
      simp [parts]
    obtain ⟨binder, hmeets⟩ := exists_meets_of_walked h hwalked hnode hpart
    obtain ⟨hbefore, hnoted⟩ := noted_eq hunshared h hmeets rfl
    obtain ⟨hresolved, hdeferred⟩ := Prod.mk.inj hnoted
    rw [Binder.entity?, hresolved, hdeferred, hnode]
    -- what is found on the walk stays, also if the scope holds something else in the end
    cases hlookup : binder.scopes.lookup? binder.current name with
    | some found =>
      rw [decl?_of_bound hunshared h hmeets hlookup]
      simp only [Binder.act, Binder.useName, hlookup, List.lookup_cons_self]
    | none =>
      obtain ⟨_, _, _, _, _, hscopes⟩ := ofTree_eq_ok h
      rw [decl?_of_deferred hunshared h hmeets hlookup, hscopes]
      simp only [Binder.act, Binder.useName, hlookup, (Prod.mk.inj hbefore).1,
        List.lookup_cons_self]
  · obtain ⟨hentity, hdecl⟩ := entity?_of_unwalked h hwalked
    rw [hentity, hdecl]

theorem decl?_of_typeName (hunshared : tree.Unshared) (h : ofTree config tree = .ok preparation)
    (hmeets : Binder.Meets tree config.duplicates binder (.useType id name)) :
    preparation.final.view.decl? id =
      ((preparation.setting.scopes.lookup? binder.current name).map Prod.fst).filter
        (·.isType tree) := by
  let rule : Rule := .resolveType id name binder.current
  have hadd : .add rule ∈ preparation.commands :=
    (mem_commands h).mpr (.inr ⟨binder, _, hmeets, List.mem_cons_self⟩)
  have hdecl : preparation.Sole rule (.decl id) := sole_of_add hunshared h hadd List.mem_cons_self
  have hscope : preparation.Sole rule (.scope id) :=
    sole_of_add hunshared h hadd (List.mem_cons_of_mem _ List.mem_cons_self)
  have heffect : Rule.effect preparation.setting rule preparation.final.view =
      Rule.resolveTypeEffect preparation.setting id name binder.current := rfl
  rw [View.decl?]
  cases hlookup : preparation.setting.scopes.lookup? binder.current name with
  | none =>
    rw [Rule.resolveTypeEffect, hlookup] at heffect
    rw [hdecl.view_of_find heffect]
    rfl
  | some found =>
    obtain ⟨entity, home⟩ := found
    simp only [Rule.resolveTypeEffect, hlookup, setting_tree h] at heffect
    rw [Option.map_some, Option.filter_some]
    split at heffect
    next htype =>
      have hnext : ∀ other ∈
          (Rule.effect preparation.setting rule preparation.final.view).spawned,
          other = .typeValue id entity := by
        rw [heffect]
        exact fun other hother => List.mem_singleton.mp hother
      have hview := (view_of_resolved rfl rfl hdecl hscope (by rw [heffect]) hnext
        (by simp [Rule.outputs, Cell.decl, Cell.scope, Cell.value])).1
      rw [hview, if_pos htype]
      rfl
    next htype =>
      rw [hdecl.view_of_find heffect, if_neg htype]
      rfl

theorem notAType_mem (h : ofTree config tree = .ok preparation)
    (hmeets : Binder.Meets tree config.duplicates binder (.useType id name)) {entity : Entity}
    {home : ScopeId}
    (hlookup : preparation.setting.scopes.lookup? binder.current name = some (entity, home))
    (htype : entity.isType tree = false) :
    { node := id, cause := .notAType name (entity.describe tree) } ∈
      preparation.final.findings := by
  have hadd : .add (.resolveType id name binder.current) ∈ preparation.commands :=
    (mem_commands h).mpr (.inr ⟨binder, _, hmeets, List.mem_cons_self⟩)
  apply mem_findings_of_rule hadd rfl
  simp only [Rule.effect, Rule.resolveTypeEffect, hlookup, setting_tree h, htype]
  exact List.mem_cons_self

/-- A type name stands for what the binder knows it to stand for if that is a type, and otherwise is
found fault with and stands for nothing. -/
theorem simpleType_entity? (hunshared : tree.Unshared) (h : ofTree config tree = .ok preparation)
    (hnode : tree.node? id = some (.simpleType name)) :
    preparation.final.view.decl? id =
        (preparation.binder.entity? tree id).filter (·.isType tree) ∧
      ∀ entity, preparation.binder.entity? tree id = some entity → entity.isType tree = false →
        { node := id, cause := .notAType name (entity.describe tree) } ∈
          preparation.final.findings := by
  by_cases hwalked : ∃ expectation, tree.Walked id expectation
  · obtain ⟨expectation, hwalked⟩ := hwalked
    have hpart : .act (.useType id name) ∈ tree.parts id (.simpleType name) expectation := by
      simp [parts]
    obtain ⟨binder, hmeets⟩ := exists_meets_of_walked h hwalked hnode hpart
    obtain ⟨hbefore, hnoted⟩ := noted_eq hunshared h hmeets rfl
    obtain ⟨hresolved, hdeferred⟩ := Prod.mk.inj hnoted
    obtain ⟨_, _, _, _, _, hscopes⟩ := ofTree_eq_ok h
    have hentity : preparation.binder.entity? tree id =
        (preparation.setting.scopes.lookup? binder.current name).map Prod.fst := by
      rw [Binder.entity?, hresolved, hdeferred, hnode, hscopes]
      simp only [Binder.act, (Prod.mk.inj hbefore).1, List.lookup_cons_self]
    rw [hentity]
    refine ⟨decl?_of_typeName hunshared h hmeets, ?_⟩
    intro entity hfound htype
    obtain ⟨⟨found, home⟩, hlookup, rfl⟩ := Option.map_eq_some_iff.mp hfound
    exact notAType_mem h hmeets hlookup htype
  · obtain ⟨hentity, hdecl⟩ := entity?_of_unwalked h hwalked
    rw [hentity, hdecl]
    exact ⟨rfl, fun _ hfound => by cases hfound⟩

theorem entity?_of_simpleType (hunshared : tree.Unshared)
    (h : ofTree config tree = .ok preparation) (hnode : tree.node? id = some (.simpleType name))
    {entity : Entity} (hdecl : preparation.final.view.decl? id = some entity) :
    preparation.binder.entity? tree id = some entity := by
  rw [(simpleType_entity? hunshared h hnode).1] at hdecl
  exact (Option.filter_eq_some_iff.mp hdecl).1

end Preparation

end Attribution
