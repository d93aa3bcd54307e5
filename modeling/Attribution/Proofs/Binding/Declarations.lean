import Attribution.Proofs.Binding.Enclosing
import Attribution.Proofs.Tree.Proper
/-!
# Declarations of one name

A declaration is made in the scope that is innermost around it. What a scope holds under a name
comes of folding over the declarations of this name in this scope, whatever else is declared between
them, and a name keeps the place in the scope that its first declaration gave it.
-/
namespace Attribution

namespace Scope

theorem assign_self {name : String} {entity : Entity} {names : List (String × Entity)}
    (h : names.lookup name = some entity) : assign name entity names = names := by
  induction names with
  | nil => cases h
  | cons entry rest ih =>
    obtain ⟨held, old⟩ := entry
    by_cases hname : held = name
    · subst hname
      rw [List.lookup_cons_self] at h
      cases h
      exact if_pos rfl
    · rw [List.lookup_cons, beq_eq_false_iff_ne.mpr (Ne.symm hname)] at h
      rw [assign, if_neg hname, ih h]

theorem put_self {scope : Scope} {name : String} {entity : Entity}
    (h : scope.find? name = some entity) : scope.put name entity = scope := by
  rw [put, assign_self h]

end Scope

theorem eraseDups_concat {α : Type} [DecidableEq α] (as : List α) (a : α) :
    (as ++ [a]).eraseDups = if a ∈ as then as.eraseDups else as.eraseDups ++ [a] := by
  rw [List.eraseDups_append]
  by_cases ha : a ∈ as <;> simp [List.removeAll, List.eraseDups_cons, ha]

/-- A declaration, and the node that owns the scope in which it is made. -/
structure Declaration where
  owner : NodeId
  name : String
  decl : NodeId
deriving DecidableEq, Repr

/-- The scope and the name, by which declarations are told apart. -/
def Declaration.place (d : Declaration) : NodeId × String := (d.owner, d.name)

/-- The number of terms of a predicate. -/
def Entity.arity (tree : Tree) (entity : Entity) : Nat :=
  (entity.node?.bind tree.predicateArity?).getD 0

namespace DuplicatePolicy

/-- What is found of a declaration, given what its name stood for in the scope before: predicates
are held against each other, and everything else against the policy. -/
def objections (policy : DuplicatePolicy) (tree : Tree) (name : String) (decl : NodeId) :
    Option Entity → List Finding
  | none => []
  | some existing =>
    if existing.isPredicate tree && (Entity.node decl).isPredicate tree then
      let expected := existing.arity tree
      let found := (Entity.node decl).arity tree
      if expected = found then []
      else [{ node := decl, cause := .redeclaredArity name expected found }]
    else
      match policy with
      | .report => [{ node := decl, cause := .duplicate name }]
      | .lastWins => []

end DuplicatePolicy

/-- What a scope holds under a name, and what has been found of its declarations. -/
structure Holding where
  held : Option Entity
  found : List Finding := []
deriving Repr

/-- A further declaration of the name. -/
def Holding.declare (tree : Tree) (policy : DuplicatePolicy) (name : String) (holding : Holding)
    (decl : NodeId) : Holding where
  held := some (policy.choose tree decl holding.held)
  found := holding.found ++ policy.objections tree name decl holding.held

namespace Tree

/-- The node that owns the scope of what lies right inside some openers. -/
def innermost (tree : Tree) (openers : List NodeId) : NodeId :=
  (openers.head?.map tree.scopeOwner).getD tree.root

/-- The declarations that actions make, in order, where some openers have been entered before. -/
def declarations (tree : Tree) : List NodeId → List Action → List Declaration
  | _, [] => []
  | openers, action :: rest =>
    (action.declared.map fun (name, decl) => { owner := tree.innermost openers, name, decl }) ++
      tree.declarations (action.track openers) rest

/-- The names that a scope holds at first: that of the root holds the built-ins. -/
def builtins (tree : Tree) (owner : NodeId) : List (String × Entity) :=
  if owner = tree.root then Builtin.all.map fun b => (b.name, .builtin b) else []

/-- The fold over the declarations of one name in one scope. -/
def holding (tree : Tree) (policy : DuplicatePolicy) (ds : List Declaration)
    (place : NodeId × String) : Holding :=
  ((ds.filter fun d => d.place = place).map Declaration.decl).foldl
    (Holding.declare tree policy place.2) { held := (tree.builtins place.1).lookup place.2 }

/-- The names of a scope as its declarations change them one after the other. -/
def contents (tree : Tree) (policy : DuplicatePolicy) (ds : List Declaration) (owner : NodeId) :
    List (String × Entity) :=
  (ds.filter fun d => d.owner = owner).foldl
    (fun names d => Scope.assign d.name (policy.choose tree d.decl (names.lookup d.name)) names)
    (tree.builtins owner)

variable {tree : Tree} {policy : DuplicatePolicy} {openers : List NodeId}

theorem declarations_append (before after : List Action) :
    tree.declarations openers (before ++ after) = tree.declarations openers before ++
      tree.declarations (before.foldl Action.track openers) after := by
  induction before generalizing openers with
  | nil => rfl
  | cons action before ih =>
    rw [List.cons_append, declarations, ih, declarations, List.append_assoc, List.foldl_cons]

theorem mem_declarations {actions : List Action} {d : Declaration} :
    d ∈ tree.declarations openers actions ↔ ∃ before after,
      actions = before ++ .declare d.name d.decl :: after ∧
        d.owner = tree.innermost (before.foldl Action.track openers) := by
  induction actions generalizing openers with
  | nil => simp [declarations]
  | cons action rest ih =>
    rw [declarations, List.mem_append, ih]
    constructor
    · rintro (hnow | ⟨before, after, rfl, howner⟩)
      · obtain ⟨⟨name, decl⟩, hmem, rfl⟩ := List.mem_map.mp hnow
        exact ⟨[], rest, by rw [Action.mem_declared.mp hmem]; rfl, rfl⟩
      · exact ⟨action :: before, after, rfl, howner⟩
    · rintro ⟨before, after, hsplit, howner⟩
      cases before with
      | nil =>
        cases hsplit
        refine .inl (List.mem_map.mpr ⟨(d.name, d.decl), List.mem_cons_self, ?_⟩)
        change (⟨tree.innermost ([].foldl Action.track openers), d.name, d.decl⟩ : Declaration) = d
        rw [← howner]
      | cons _ before =>
        cases hsplit
        exact .inr ⟨before, after, rfl, howner⟩

theorem map_decl_declarations (actions : List Action) :
    (tree.declarations openers actions).map Declaration.decl =
      actions.filterMap Action.declares? := by
  induction actions generalizing openers with
  | nil => rfl
  | cons action rest ih =>
    rw [declarations, List.map_append, ih]
    cases action <;> rfl

theorem holding_append (ds : List Declaration) (d : Declaration) (place : NodeId × String) :
    tree.holding policy (ds ++ [d]) place =
      if d.place = place then (tree.holding policy ds place).declare tree policy place.2 d.decl
      else tree.holding policy ds place := by
  unfold holding
  rw [List.filter_append]
  by_cases hplace : d.place = place <;> simp [hplace]

theorem contents_append (ds : List Declaration) (d : Declaration) (owner : NodeId) :
    tree.contents policy (ds ++ [d]) owner =
      if d.owner = owner then
        Scope.assign d.name
          (policy.choose tree d.decl ((tree.contents policy ds owner).lookup d.name))
          (tree.contents policy ds owner)
      else tree.contents policy ds owner := by
  unfold contents
  rw [List.filter_append]
  by_cases howner : d.owner = owner <;> simp [howner]

theorem lookup_contents (ds : List Declaration) (owner : NodeId) (name : String) :
    (tree.contents policy ds owner).lookup name = (tree.holding policy ds (owner, name)).held := by
  induction ds using List.reverseRecOn with
  | nil => rfl
  | append_singleton ds d ih =>
    rw [contents_append, holding_append]
    by_cases howner : d.owner = owner
    · rw [if_pos howner, Scope.lookup_assign]
      by_cases hname : name = d.name
      · subst howner hname
        have hplace : d.place = (d.owner, d.name) := rfl
        rw [if_pos rfl, if_pos hplace, Holding.declare, ih]
      · have hplace : d.place ≠ (owner, name) := fun heq => hname (congrArg Prod.snd heq).symm
        rw [if_neg hname, if_neg hplace, ih]
    · have hplace : d.place ≠ (owner, name) := fun heq => howner (congrArg Prod.fst heq)
      rw [if_neg howner, if_neg hplace, ih]

theorem map_fst_contents (ds : List Declaration) (owner : NodeId) :
    (tree.contents policy ds owner).map Prod.fst =
      ((tree.builtins owner).map Prod.fst ++
        (ds.filter fun d => d.owner = owner).map Declaration.name).eraseDups := by
  induction ds using List.reverseRecOn with
  | nil =>
    rw [contents, List.filter_nil, List.foldl_nil, List.map_nil, List.append_nil, builtins]
    split
    · decide
    · rfl
  | append_singleton ds d ih =>
    rw [contents_append, List.filter_append, List.map_append, ← List.append_assoc]
    by_cases howner : d.owner = owner
    · have hlast : ([d].filter fun d => d.owner = owner).map Declaration.name = [d.name] := by
        simp [howner]
      rw [if_pos howner, Scope.map_fst_assign, ih, hlast, eraseDups_concat]
      simp only [List.mem_eraseDups]
    · have hlast : ([d].filter fun d => d.owner = owner).map Declaration.name = [] := by
        simp [howner]
      rw [if_neg howner, ih, hlast, List.append_nil]

end Tree

/-- If the entity is a predicate, it is known how many terms it takes. -/
def Entity.Counted (tree : Tree) (entity : Entity) : Prop :=
  entity.isPredicate tree → (entity.node?.bind tree.predicateArity?).isSome

theorem Tree.counted_of_introduced {tree : Tree} {decl : NodeId} {node : Node} {name : String}
    (hnode : tree.node? decl = some node) (h : tree.introduced? node = some name) :
    (Entity.node decl).Counted tree := by
  intro hpredicate
  obtain ⟨found, hfound, hkind⟩ := satisfies_iff.mp hpredicate
  cases Option.some.inj (hnode.symm.trans hfound)
  cases node with
  | fact => simp [Entity.node?, predicateArity?, hnode]
  | clause head body =>
    obtain ⟨atom, hatom, -⟩ := Option.map_eq_some_iff.mp h
    simp [Entity.node?, predicateArity?, hnode, hatom]
  | _ => cases hkind

theorem Tree.counted_of_declare {tree : Tree} {before after : List Action} {name : String}
    {decl : NodeId} (hwalk : tree.walk = .ok (before ++ after))
    (hmem : .declare name decl ∈ before) : (Entity.node decl).Counted tree := by
  obtain ⟨id, expectation, node, _, hnode, haction⟩ :=
    (Tree.WellFormed.mem_walk hwalk).mp (List.mem_append_left _ hmem)
  obtain ⟨rfl, hname⟩ := Tree.declare_mem_iff.mp (Tree.mem_actions.mp haction)
  exact counted_of_introduced hnode hname

namespace Binder

variable {tree : Tree} {policy : DuplicatePolicy} {binder : Binder} {openers : List NodeId}
  {ds : List Declaration}

theorem Inside.owner?_current (h : binder.Inside tree openers) :
    binder.owner? binder.current = some (tree.innermost openers) := by
  cases openers with
  | nil =>
    have hstack : binder.stack = [] := List.forall₂_nil_left_iff.mp h.owners
    rw [current, hstack]
    exact h.outermost
  | cons opener outer =>
    obtain ⟨scope, rest, howner, _, hstack⟩ := List.forall₂_cons_left_iff.mp h.owners
    rw [current, hstack]
    exact howner

theorem scope?_declare (binder : Binder) (name : String) (decl : NodeId) (id : ScopeId) :
    (binder.declare tree policy name decl).1.scopes.scope? id =
      if binder.current = id then (binder.scopes.scope? id).map fun scope =>
        scope.put name (policy.choose tree decl (scope.find? name))
      else binder.scopes.scope? id := by
  have hput : ∀ held, binder.scopes.held? binder.current name = held →
      policy.choose tree decl held = .node decl →
      (binder.scopes.put binder.current name (.node decl)).scope? id =
        if binder.current = id then (binder.scopes.scope? id).map fun scope =>
          scope.put name (policy.choose tree decl (scope.find? name))
        else binder.scopes.scope? id := by
    intro held hheld hchoose
    rw [ScopeTree.scope?_put]
    split
    next hid =>
      subst hid
      apply Option.map_congr
      intro scope hscope
      rw [ScopeTree.held?, hscope, Option.bind_some] at hheld
      rw [hheld, hchoose]
    next => rfl
  have hkeep : ∀ existing, binder.scopes.held? binder.current name = some existing →
      policy.choose tree decl (some existing) = existing →
      binder.scopes.scope? id =
        if binder.current = id then (binder.scopes.scope? id).map fun scope =>
          scope.put name (policy.choose tree decl (scope.find? name))
        else binder.scopes.scope? id := by
    intro existing hheld hchoose
    split
    next hid =>
      subst hid
      cases hscope : binder.scopes.scope? binder.current with
      | none => rfl
      | some scope =>
        rw [ScopeTree.held?, hscope, Option.bind_some] at hheld
        rw [Option.map_some, hheld, hchoose, Scope.put_self hheld]
    next => rfl
  unfold declare ScopeTree.declare
  cases hheld : binder.scopes.held? binder.current name with
  | none => exact hput none hheld rfl
  | some existing =>
    simp only
    split
    next hpredicates => exact hkeep existing hheld (if_pos hpredicates)
    next hpredicates =>
      cases policy with
      | report => exact hkeep existing hheld (if_neg hpredicates)
      | lastWins => exact hput _ hheld (if_neg hpredicates)

theorem reports_declare (name : String) {decl : NodeId} (hdecl : (Entity.node decl).Counted tree)
    (hheld : binder.scopes.HoldsOnly (Entity.Counted tree)) :
    (binder.declare tree policy name decl).2 =
      (policy.objections tree name decl
        (binder.scopes.held? binder.current name)).map Command.report := by
  unfold declare ScopeTree.declare
  cases hexisting : binder.scopes.held? binder.current name with
  | none => rfl
  | some existing =>
    simp only [DuplicatePolicy.objections]
    split
    next hpredicates =>
      obtain ⟨hold, hnew⟩ := Bool.and_eq_true_iff.mp hpredicates
      obtain ⟨expected, hexpected⟩ :=
        Option.isSome_iff_exists.mp (hheld _ _ _ hexisting hold)
      obtain ⟨found, hfound⟩ := Option.isSome_iff_exists.mp (hdecl hnew)
      have hfound' : tree.predicateArity? decl = some found := hfound
      rw [redeclared, hexpected, hfound', Entity.arity, Entity.arity, hexpected, hfound]
      simp only [Option.getD_some]
      split <;> rfl
    next =>
      cases policy <;> rfl

/-- The scopes of a binder hold what comes of folding over some declarations. -/
structure Settles (tree : Tree) (policy : DuplicatePolicy) (binder : Binder)
    (ds : List Declaration) : Prop where
  owned : ∀ d ∈ ds, ∃ id, binder.owner? id = some d.owner
  contents : ∀ id scope, binder.scopes.scope? id = some scope →
    scope.names = tree.contents policy ds scope.owner

theorem settles_start (tree : Tree) : (start tree.root).Settles tree policy [] where
  owned _ hd := nomatch hd
  contents id scope hscope := by
    simp only [start, ScopeTree.scope?, ScopeTree.pushOutermost, Array.getElem?_push] at hscope
    split at hscope
    next =>
      cases hscope
      exact (if_pos rfl).symm
    next => cases hscope

/-- No two scopes have the same owner. -/
def OwnersDiffer (binder : Binder) : Prop :=
  ∀ id other owner, binder.owner? id = some owner → binder.owner? other = some owner → other = id

theorem OwnersDiffer.of_extends {next : Binder} (hdiffer : next.OwnersDiffer)
    (h : binder.scopes.Extends next.scopes) : binder.OwnersDiffer :=
  fun id other owner hid hother =>
    hdiffer id other owner (owner?_extends h hid) (owner?_extends h hother)

namespace Settles

theorem keep (h : binder.Settles tree policy ds) {next : Binder}
    (hscopes : next.scopes = binder.scopes) : next.Settles tree policy ds where
  owned d hd := by
    obtain ⟨id, hid⟩ := h.owned d hd
    exact ⟨id, by rw [owner?, hscopes]; exact hid⟩
  contents := by
    rw [hscopes]
    exact h.contents

theorem declare (h : binder.Settles tree policy ds) {owner : NodeId}
    (hcurrent : binder.owner? binder.current = some owner) (hdiffer : binder.OwnersDiffer)
    (name : String) (decl : NodeId) :
    (binder.declare tree policy name decl).1.Settles tree policy (ds ++ [⟨owner, name, decl⟩]) := by
  have hextends := (@extends_declare tree policy binder name decl).1
  constructor
  · intro d hd
    rcases List.mem_append.mp hd with hold | hnew
    · obtain ⟨id, hid⟩ := h.owned d hold
      exact ⟨id, owner?_extends hextends hid⟩
    · cases List.mem_singleton.mp hnew
      exact ⟨_, owner?_extends hextends hcurrent⟩
  · intro id scope hscope
    rw [scope?_declare] at hscope
    rw [Tree.contents_append]
    split at hscope
    next hid =>
      subst hid
      obtain ⟨old, hold, rfl⟩ := Option.map_eq_some_iff.mp hscope
      have howner : owner = old.owner := by
        rw [owner?, hold] at hcurrent
        exact (Option.some.inj hcurrent).symm
      refine Eq.trans ?_ (if_pos howner).symm
      exact h.contents _ _ hold ▸ rfl
    next hid =>
      rw [if_neg, h.contents id scope hscope]
      -- the owner of the current scope owns no other one
      intro howner
      have hother : binder.owner? id = some owner :=
        Option.map_eq_some_iff.mpr ⟨scope, hscope, howner.symm⟩
      exact hid (hdiffer id _ _ hother hcurrent)

theorem enter (h : binder.Settles tree policy ds) (hinside : binder.Inside tree openers)
    {node : NodeId} (hdiffer : (binder.act tree policy (.enter node)).1.OwnersDiffer) :
    (binder.act tree policy (.enter node)).1.Settles tree policy ds := by
  have hextends := @extends_act tree policy binder (.enter node)
  have hnew : (binder.act tree policy (.enter node)).1.owner? binder.scopes.size = some node := by
    rw [owner?, act, ScopeTree.scope?_push_size, Option.map_some]
  have hfresh : ∀ id owner, binder.owner? id = some owner → owner ≠ node := by
    rintro id owner howner rfl
    obtain ⟨scope, hscope, _⟩ := Option.map_eq_some_iff.mp howner
    have hlt := ScopeTree.scope?_lt hscope
    exact Nat.ne_of_lt hlt (hdiffer _ _ _ hnew (owner?_extends hextends howner))
  constructor
  · intro d hd
    obtain ⟨id, hid⟩ := h.owned d hd
    exact ⟨id, owner?_extends hextends hid⟩
  · intro id scope hscope
    rcases ScopeTree.scope?_push_cases hscope with hold | ⟨rfl, rfl⟩
    · exact h.contents id scope hold
    · have hnone : ds.filter (fun d => d.owner = node) = [] := by
        apply List.filter_eq_nil_iff.mpr
        intro d hd
        obtain ⟨id, hid⟩ := h.owned d hd
        simpa using hfresh id _ hid
      have hroot : node ≠ tree.root := (hfresh _ _ hinside.outermost).symm
      rw [Tree.contents, hnone, List.foldl_nil, Tree.builtins, if_neg hroot]

theorem act (h : binder.Settles tree policy ds) (hinside : binder.Inside tree openers)
    {action : Action} (hdiffer : (binder.act tree policy action).1.OwnersDiffer) :
    (binder.act tree policy action).1.Settles tree policy
      (ds ++ tree.declarations openers [action]) := by
  cases action with
  | declare name decl =>
    exact h.declare hinside.owner?_current
      (hdiffer.of_extends (binder.extends_declare name decl).1) name decl
  | enter node => exact (List.append_nil ds).symm ▸ h.enter hinside hdiffer
  | useName node name =>
    exact (List.append_nil ds).symm ▸ h.keep (binder.extends_useName node name).1
  | _ => exact (List.append_nil ds).symm ▸ h.keep rfl

end Settles

end Binder

namespace Preparation

open Binder

variable {config : Config} {tree : Tree} {preparation : Preparation}
  {before after : List Action}

theorem ownersDiffer (hproper : tree.Proper) (h : ofTree config tree = .ok preparation) :
    preparation.binder.OwnersDiffer :=
  fun _ _ _ howner hother => scope_unique hproper.unshared hproper.root h howner hother

/-- After any part of the walk the scopes hold what comes of the declarations up to there. -/
theorem settles_of_walk (hproper : tree.Proper) (h : ofTree config tree = .ok preparation)
    (hwalk : tree.walk = .ok (before ++ after)) : (binderAfter config tree before).Settles tree
      config.duplicates (tree.declarations [] before) := by
  induction before using List.reverseRecOn generalizing after with
  | nil => exact settles_start tree
  | append_singleton before action ih =>
    have hafter : binderAfter config tree (before ++ [action]) =
        ((binderAfter config tree before).act tree config.duplicates action).1 := by
      rw [binderAfter, actAll_append]
      rfl
    have hextends := extends_of_walk hwalk h
    rw [List.append_assoc] at hwalk
    rw [Tree.declarations_append]
    rw [hafter] at hextends ⊢
    exact (ih hwalk).act (inside_of_walk hwalk) ((ownersDiffer hproper h).of_extends hextends)

theorem counted_of_walk (hwalk : tree.walk = .ok (before ++ after)) :
    (binderAfter config tree before).scopes.HoldsOnly (Entity.Counted tree) := by
  refine @actAll_induction tree config.duplicates
    (fun binder => binder.scopes.HoldsOnly (Entity.Counted tree)) before ?_ _ ?_
  · intro binder action haction hbinder
    apply holdsOnly_act hbinder
    rintro name decl rfl
    exact Tree.counted_of_declare hwalk haction
  · intro id name entity hheld hpredicate
    obtain ⟨_, b, _, rfl⟩ := held?_start hheld
    cases hpredicate

end Preparation

end Attribution
