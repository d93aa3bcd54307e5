import Mathlib.Data.List.Dedup
import Attribution.Proofs.Analysis.Flows
import Attribution.Proofs.Binding.Declarations
/-!
# Duplicate declarations

The scopes of an analysis and what it finds of duplicate declarations are those of a fold over the
declarations of each name in each scope.
-/
namespace Attribution

/-- Whether it is found that a name was declared before. -/
def Finding.isRedeclaration (finding : Finding) : Bool :=
  match finding.cause with
  | .redeclaredArity .. => true
  | cause => cause.kind = .duplicateDeclaration

/-- What is found of declarations by a command. -/
def Command.redeclarations : Command Rule → List Finding
  | report finding => [finding].filter Finding.isRedeclaration
  | _ => []

namespace Tree

/-- The declarations of a tree. -/
structure Declares (tree : Tree) (ds : List Declaration) : Prop where
  once : (ds.map Declaration.decl).Nodup
  /-- They are the nodes that the walk comes to and that introduce names, each with the scope that
  is innermost around it. -/
  mem : ∀ d, d ∈ ds ↔
    (∃ expectation node, tree.Walked d.decl expectation ∧ tree.node? d.decl = some node ∧
      tree.introduced? node = some d.name) ∧
    ∃ openers, tree.Around d.decl openers ∧ d.owner = tree.innermost openers

variable {tree : Tree} {policy : DuplicatePolicy}

theorem declares_of_walk (hproper : tree.Proper) {actions : List Action}
    (hwalk : tree.walk = .ok actions) : tree.Declares (tree.declarations [] actions) where
  once := by
    rw [map_decl_declarations]
    exact hproper.unshared.nodup_declares hwalk
  mem d := by
    rw [mem_declarations]
    constructor
    · rintro ⟨before, after, rfl, howner⟩
      obtain ⟨id, expectation, node, hwalked, hnode, haction⟩ := (WellFormed.mem_walk hwalk).mp
        (List.mem_append_right before List.mem_cons_self)
      obtain ⟨rfl, hname⟩ := declare_mem_iff.mp (mem_actions.mp haction)
      obtain ⟨found, lent, held, hfound, hpart, haround⟩ :=
        (moves_of_walk hwalk).placed before _ after rfl rfl
      obtain ⟨rfl, _⟩ := declare_mem_iff.mp hpart
      exact ⟨⟨expectation, node, hwalked, hnode, hname⟩, _, haround, howner⟩
    · rintro ⟨⟨expectation, node, hwalked, hnode, hname⟩, openers, haround, howner⟩
      have hmem : .declare d.name d.decl ∈ actions := (WellFormed.mem_walk hwalk).mpr
        ⟨d.decl, expectation, node, hwalked, hnode,
          mem_actions.mpr (declare_mem_iff.mpr ⟨rfl, hname⟩)⟩
      obtain ⟨before, after, rfl⟩ := List.append_of_mem hmem
      obtain ⟨found, lent, held, hfound, hpart, hinside⟩ :=
        (moves_of_walk hwalk).placed before _ after rfl rfl
      obtain ⟨rfl, _⟩ := declare_mem_iff.mp hpart
      have hsame := hproper.unshared.around_unique haround hinside (Option.isSome_of_eq_some hnode)
      exact ⟨before, after, rfl, hsame ▸ howner⟩

theorem declarations_of_other {openers : List NodeId} {action : Action}
    (h : ∀ name decl, action ≠ .declare name decl) :
    tree.declarations openers [action] = [] := by
  cases action with
  | declare name decl => exact absurd rfl (h name decl)
  | _ => rfl

theorem found_append (ds : List Declaration) (d : Declaration) (place : NodeId × String) :
    (tree.holding policy (ds ++ [d]) place).found = (tree.holding policy ds place).found ++
      if d.place = place then
        policy.objections tree d.name d.decl (tree.holding policy ds place).held
      else [] := by
  rw [holding_append]
  split
  next hplace =>
    subst hplace
    rfl
  next => exact (List.append_nil _).symm

theorem flatMap_ite {α β : Type} [DecidableEq α] {keys : List α} (hnodup : keys.Nodup) (key : α)
    (f : α → List β) : (keys.flatMap fun k => if key = k then f k else []) =
      if key ∈ keys then f key else [] := by
  induction keys with
  | nil => rfl
  | cons first rest ih =>
    obtain ⟨hfirst, hrest⟩ := List.nodup_cons.mp hnodup
    rw [List.flatMap_cons, ih hrest]
    by_cases hkey : key = first
    · subst hkey
      rw [if_pos rfl, if_neg hfirst, if_pos List.mem_cons_self, List.append_nil]
    · simp [hkey]

theorem perm_found_append {places : List (NodeId × String)} (hnodup : places.Nodup)
    (ds : List Declaration) {d : Declaration} (hd : d.place ∈ places) :
    (places.flatMap fun place => (tree.holding policy (ds ++ [d]) place).found).Perm
      ((places.flatMap fun place => (tree.holding policy ds place).found) ++
        policy.objections tree d.name d.decl (tree.holding policy ds d.place).held) := by
  simp only [found_append]
  refine (List.flatMap_append_perm places _ _).symm.trans (List.Perm.of_eq ?_)
  rw [flatMap_ite hnodup, if_pos hd]

end Tree

namespace DuplicatePolicy

theorem isRedeclaration_of_objections {policy : DuplicatePolicy} {tree : Tree} {name : String}
    {decl : NodeId} {held : Option Entity} :
    ∀ finding ∈ policy.objections tree name decl held, finding.isRedeclaration := by
  intro finding hfinding
  unfold objections at hfinding
  split at hfinding
  · cases hfinding
  · split at hfinding
    · dsimp only at hfinding
      split at hfinding
      · cases hfinding
      · cases List.mem_singleton.mp hfinding
        rfl
    · split at hfinding
      · cases List.mem_singleton.mp hfinding
        rfl
      · cases hfinding

end DuplicatePolicy

namespace Binder

variable {tree : Tree} {policy : DuplicatePolicy} {binder : Binder} {openers : List NodeId}
  {ds : List Declaration}

theorem Settles.held?_eq (h : binder.Settles tree policy ds) {id : ScopeId} {owner : NodeId}
    (howner : binder.owner? id = some owner) (name : String) :
    binder.scopes.held? id name = (tree.holding policy ds (owner, name)).held := by
  obtain ⟨scope, hscope, rfl⟩ := Option.map_eq_some_iff.mp howner
  rw [ScopeTree.held?, hscope, Option.bind_some, Scope.find?, h.contents id scope hscope,
    Tree.lookup_contents]

theorem redeclarations_act {action : Action} (haction : ∀ name decl, action ≠ .declare name decl) :
    (binder.act tree policy action).2.flatMap Command.redeclarations = [] := by
  apply List.flatMap_eq_nil_iff.mpr
  intro command hcommand
  cases command with
  | set | add => rfl
  | report finding =>
    rcases report_cases hcommand with ⟨name, rfl, _⟩ | ⟨name, _, hcause⟩
    · exact absurd rfl (haction _ _)
    · simp [Command.redeclarations, Finding.isRedeclaration, hcause, Cause.kind]

theorem redeclarations_declare (h : binder.Settles tree policy ds) {owner : NodeId}
    (hcurrent : binder.owner? binder.current = some owner) (name : String) {decl : NodeId}
    (hdecl : (Entity.node decl).Counted tree)
    (hheld : binder.scopes.HoldsOnly (Entity.Counted tree)) :
    (binder.declare tree policy name decl).2.flatMap Command.redeclarations =
      policy.objections tree name decl (tree.holding policy ds (owner, name)).held := by
  rw [reports_declare name hdecl hheld, h.held?_eq hcurrent, List.flatMap_map]
  refine Eq.trans (List.flatMap_congr ?_) (List.flatMap_singleton' _)
  intro finding hfinding
  have hredeclaration := DuplicatePolicy.isRedeclaration_of_objections finding hfinding
  simp [Command.redeclarations, hredeclaration]

end Binder

namespace Preparation

open Binder

variable {config : Config} {tree : Tree} {preparation : Preparation}

theorem redeclarations_perm (preparation : Preparation) :
    (preparation.final.findings.filter Finding.isRedeclaration).Perm
      (preparation.commands.flatMap Command.redeclarations) := by
  refine (preparation.findings_perm.filter _).trans (List.Perm.of_eq ?_)
  rw [List.filter_flatMap]
  apply List.flatMap_congr
  intro command _
  cases command with
  | set => rfl
  | report finding => rfl
  | add rule =>
    apply List.filter_eq_nil_iff.mpr
    intro finding hfinding hredeclaration
    simp only [Command.findings] at hfinding
    split at hfinding
    · cases hfinding
    · obtain ⟨node, cause⟩ := finding
      have haccuses := Rule.accuses_effect _ _ _ _ hfinding
      cases haccuses <;> cases hredeclaration

/-- What is found of the declarations up to any part of the walk, place by place. -/
theorem redeclarations_of_walk (hproper : tree.Proper) (h : ofTree config tree = .ok preparation)
    {places : List (NodeId × String)} (hnodup : places.Nodup) {before after : List Action}
    (hwalk : tree.walk = .ok (before ++ after))
    (hplaces : ∀ d ∈ tree.declarations [] before, d.place ∈ places) :
    (((start tree.root).actAll tree config.duplicates before).2.flatMap
      Command.redeclarations).Perm (places.flatMap fun place =>
        (tree.holding config.duplicates (tree.declarations [] before) place).found) := by
  induction before using List.reverseRecOn generalizing after with
  | nil =>
    have hnil : (places.flatMap fun place =>
        (tree.holding config.duplicates (tree.declarations [] []) place).found) = [] :=
      List.flatMap_eq_nil_iff.mpr fun _ _ => rfl
    rw [hnil]
    exact List.Perm.refl []
  | append_singleton before action ih =>
    have hbefore : tree.walk = .ok (before ++ (action :: after)) := by simpa using hwalk
    have hlast : ((binderAfter config tree before).actAll tree config.duplicates [action]).2 =
        ((binderAfter config tree before).act tree config.duplicates action).2 :=
      List.append_nil _
    rw [Tree.declarations_append, List.forall_mem_append] at hplaces
    rw [Tree.declarations_append, actAll_append, List.flatMap_append]
    refine ((ih hbefore hplaces.1).append_right _).trans ?_
    change List.Perm (_ ++ ((binderAfter config tree before).actAll _ _ [action]).2.flatMap _) _
    rw [hlast]
    by_cases hdeclare : ∃ name decl, action = .declare name decl
    · obtain ⟨name, decl, rfl⟩ := hdeclare
      have hcurrent := (@inside_of_walk tree config.duplicates before _ hbefore).owner?_current
      have hdecl := Tree.counted_of_declare hwalk (List.mem_append_right _ List.mem_cons_self)
      have hfound := redeclarations_declare (settles_of_walk hproper h hbefore) hcurrent name
        hdecl (counted_of_walk hbefore)
      refine (List.Perm.of_eq (congrArg (_ ++ ·) hfound)).trans ?_
      exact (Tree.perm_found_append hnodup _ (hplaces.2 _ List.mem_cons_self)).symm
    · have hother : ∀ name decl, action ≠ .declare name decl :=
        fun name decl heq => hdeclare ⟨name, decl, heq⟩
      rw [redeclarations_act hother, Tree.declarations_of_other hother, List.append_nil,
        List.append_nil]

end Preparation

/-- The scopes of an analysis and what it finds of declarations are those of folding over the
declarations of each name in each scope. -/
structure Analysis.Folds (config : Config) (tree : Tree) (analysis : Analysis)
    (ds : List Declaration) : Prop where
  owned : ∀ d ∈ ds, ∃ id scope, analysis.scopes.scope? id = some scope ∧ scope.owner = d.owner
  owners : ∀ id other scope found, analysis.scopes.scope? id = some scope →
    analysis.scopes.scope? other = some found → found.owner = scope.owner → other = id
  held : ∀ id scope, analysis.scopes.scope? id = some scope → ∀ name,
    scope.find? name = (tree.holding config.duplicates ds (scope.owner, name)).held
  /-- A name keeps the place of its first declaration. -/
  names : ∀ id scope, analysis.scopes.scope? id = some scope →
    scope.names.map Prod.fst = ((tree.builtins scope.owner).map Prod.fst ++
      (ds.filter fun d => d.owner = scope.owner).map Declaration.name).eraseDups
  found : (analysis.findings.filter Finding.isRedeclaration).Perm
    ((ds.map Declaration.place).dedup.flatMap fun place =>
      (tree.holding config.duplicates ds place).found)

/-- The walk meets each declaration of a tree once. What a scope holds under a name in the end, and
what is found of the declarations of this name there, comes of folding over these declarations in
the order of the walk, after the built-in of this name if the scope is that of the root. Nothing
else is found of declarations. -/
theorem duplicates_fold (config : Config) {tree : Tree} (hproper : tree.Proper) :
    ∃ actions analysis, tree.walk = .ok actions ∧ Analysis.ofTree config tree = .ok analysis ∧
      tree.Declares (tree.declarations [] actions) ∧
      analysis.Folds config tree (tree.declarations [] actions) := by
  obtain ⟨actions, hwalk⟩ := hproper.exists_walk
  obtain ⟨preparation, hprepared⟩ := Preparation.exists_of_walk hwalk config
  have hwhole : tree.walk = .ok (actions ++ []) := by rwa [List.append_nil]
  have hsettles := Preparation.settles_of_walk hproper hprepared hwhole
  rw [← Preparation.binder_of_walk hwalk hprepared] at hsettles
  refine ⟨actions, _, hwalk, Analysis.ofTree_eq hprepared, tree.declares_of_walk hproper hwalk, ?_⟩
  constructor
  · intro d hd
    obtain ⟨id, hid⟩ := hsettles.owned d hd
    obtain ⟨scope, hscope, howner⟩ := Option.map_eq_some_iff.mp hid
    exact ⟨id, scope, hscope, howner⟩
  · intro id other scope found hscope hfound howner
    exact Preparation.ownersDiffer hproper hprepared id other scope.owner
      (Option.map_eq_some_iff.mpr ⟨scope, hscope, rfl⟩)
      (Option.map_eq_some_iff.mpr ⟨found, hfound, howner⟩)
  · intro id scope hscope name
    rw [Scope.find?, hsettles.contents id scope hscope, Tree.lookup_contents]
  · intro id scope hscope
    rw [hsettles.contents id scope hscope, Tree.map_fst_contents]
  · refine preparation.redeclarations_perm.trans ?_
    obtain ⟨found, hfound, _, hcommands, _⟩ := Preparation.ofTree_eq_ok hprepared
    cases Except.ok.inj (hwalk.symm.trans hfound)
    have hbuiltin : (Builtin.all.flatMap Builtin.commands).flatMap Command.redeclarations = [] :=
      rfl
    rw [hcommands, List.flatMap_append, hbuiltin, List.nil_append]
    exact Preparation.redeclarations_of_walk hproper hprepared (List.nodup_dedup _) hwhole
      fun d hd => List.mem_dedup.mpr (List.mem_map_of_mem hd)

/-- A predicate of one term, the same with two, a struct under a built-in name and one under the
name of the predicate, and a rule for the predicate after it. -/
def Tree.repeated : Tree where
  nodes := #[
    { node := .root [1, 3, 6, 7, 8] },
    { node := .fact "p" [2] },
    { node := .literal (.term "a") },
    { node := .fact "p" [4, 5] },
    { node := .literal (.term "b") },
    { node := .literal (.term "c") },
    { node := .structDecl "Int" [] },
    { node := .structDecl "p" [] },
    { node := .clause 9 [11] },
    { node := .atom "p" [10] },
    { node := .literal (.term "d") },
    { node := .atom "q" [] }]
  root := 0

theorem duplicates_fold_repeated : Tree.repeated.Proper ∧ ∃ analysis id scope,
    Analysis.ofTree { duplicates := .lastWins } Tree.repeated = .ok analysis ∧
      analysis.scopes.scope? id = some scope ∧ scope.find? "Int" = some (.node 6) ∧
      scope.find? "p" = some (.node 8) ∧
      scope.names.map Prod.fst = Builtin.all.map Builtin.name ++ ["p"] ∧
      (analysis.findings.filter Finding.isRedeclaration).Perm
        [{ node := 3, cause := .redeclaredArity "p" 1 2 }] := by
  have hwell : Tree.repeated.WellFormed := by decide +kernel
  obtain ⟨actions, analysis, hwalk, hanalysis, _, hfolds⟩ :=
    duplicates_fold { duplicates := .lastWins } hwell.proper
  have hds : Tree.repeated.declarations [] actions =
      [⟨0, "p", 1⟩, ⟨0, "p", 3⟩, ⟨0, "Int", 6⟩, ⟨0, "p", 7⟩, ⟨0, "p", 8⟩] := by
    have hsome : Tree.repeated.walk.toOption.map (Tree.repeated.declarations []) =
        some [⟨0, "p", 1⟩, ⟨0, "p", 3⟩, ⟨0, "Int", 6⟩, ⟨0, "p", 7⟩, ⟨0, "p", 8⟩] := by
      decide +kernel
    rw [hwalk] at hsome
    exact Option.some.inj hsome
  rw [hds] at hfolds
  obtain ⟨id, scope, hscope, howner⟩ := hfolds.owned ⟨0, "p", 1⟩ List.mem_cons_self
  have hheld := hfolds.held id scope hscope
  have hnames := hfolds.names id scope hscope
  rw [howner] at hheld hnames
  refine ⟨hwell.proper, analysis, id, scope, hanalysis, hscope, ?_, ?_, ?_, hfolds.found⟩
  · rw [hheld]
    decide +kernel
  · rw [hheld]
    decide +kernel
  · rw [hnames]
    decide +kernel

end Attribution
