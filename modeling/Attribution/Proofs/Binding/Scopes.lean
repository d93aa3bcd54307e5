import Mathlib.Data.List.Induction
import Attribution.Proofs.Binding.Preparation
import Attribution.Proofs.Scope.Outward
import Attribution.Proofs.Tree.Nesting
/-!
# The scopes of a walk

At every moment of the walk the binder is in the scopes of the nodes that have been entered and not
left, innermost first, each enclosed by the next. What a scope holds under a name was declared under
this name while the scope was the innermost one.
-/
namespace Attribution

theorem Builtin.eq_of_name {a b : Builtin} (h : a.name = b.name) : a = b := by
  cases a <;> cases b <;> first | rfl | simp [Builtin.name] at h

/-- What a name stands for after a declaration, given what it stood for in the scope before: the
first clause of a predicate stays. -/
def DuplicatePolicy.choose (policy : DuplicatePolicy) (tree : Tree) (decl : NodeId) :
    Option Entity → Entity
  | none => .node decl
  | some existing =>
    if existing.isPredicate tree && (Entity.node decl).isPredicate tree then existing
    else
      match policy with
      | .report => existing
      | .lastWins => .node decl

theorem DuplicatePolicy.choose_cases (policy : DuplicatePolicy) (tree : Tree) (decl : NodeId)
    (held : Option Entity) :
    policy.choose tree decl held = .node decl ∨ some (policy.choose tree decl held) = held := by
  cases held with
  | none => exact .inl rfl
  | some existing =>
    simp only [choose]
    split
    · exact .inr rfl
    · cases policy with
      | report => exact .inr rfl
      | lastWins => exact .inl rfl

namespace Binder

variable {tree : Tree} {policy : DuplicatePolicy} {binder : Binder} {openers : List NodeId}

theorem owner?_extends {next : Binder} (h : binder.scopes.Extends next.scopes) {scope : ScopeId}
    {owner : NodeId} (howner : binder.owner? scope = some owner) :
    next.owner? scope = some owner := by
  obtain ⟨found, hfound, rfl⟩ := Option.map_eq_some_iff.mp howner
  obtain ⟨kept, hkept, _, hsame⟩ := h _ _ hfound
  rw [owner?, hkept, Option.map_some, hsame]

theorem extends_declare (binder : Binder) (name : String) (decl : NodeId) :
    binder.scopes.Extends (binder.declare tree policy name decl).1.scopes ∧
      (binder.declare tree policy name decl).1.stack = binder.stack := by
  rcases @declare_cases tree policy binder name decl with ⟨_, heq⟩ | heq <;> rw [heq]
  · exact ⟨.refl _, rfl⟩
  · exact ⟨ScopeTree.extends_put _ _ _ _, rfl⟩

theorem extends_useName (binder : Binder) (node : NodeId) (name : String) :
    (binder.useName tree node name).1.scopes = binder.scopes ∧
      (binder.useName tree node name).1.stack = binder.stack := by
  unfold useName
  split <;> exact ⟨rfl, rfl⟩

theorem extends_act (binder : Binder) (action : Action) :
    binder.scopes.Extends (binder.act tree policy action).1.scopes := by
  cases action with
  | enter node => exact ScopeTree.extends_push _ _ _
  | declare name decl => exact (binder.extends_declare name decl).1
  | useName node name =>
    rw [act, (binder.extends_useName node name).1]
    exact .refl _
  | _ => exact .refl _

theorem extends_actAll (binder : Binder) (actions : List Action) :
    binder.scopes.Extends (binder.actAll tree policy actions).1.scopes :=
  @actAll_induction tree policy (fun next => binder.scopes.Extends next.scopes) actions
    (fun next action _ h => h.trans (next.extends_act action)) _ (.refl _)

theorem scope?_act {binder : Binder} {action : Action} {id : ScopeId} {scope : Scope}
    (h : (binder.act tree policy action).1.scopes.scope? id = some scope) :
    (∃ old, binder.scopes.scope? id = some old ∧ old.parent = scope.parent ∧
        old.owner = scope.owner) ∨
      ∃ node, action = .enter node ∧ id = binder.scopes.size ∧
        scope = { parent := some binder.current, owner := node } := by
  cases action with
  | enter node =>
    rcases ScopeTree.scope?_push_cases h with hold | hnew
    · exact .inl ⟨scope, hold, rfl, rfl⟩
    · exact .inr ⟨node, rfl, hnew⟩
  | declare name decl =>
    left
    rw [act] at h
    rcases @declare_cases tree policy binder name decl with ⟨_, heq⟩ | heq <;> rw [heq] at h
    · exact ⟨scope, h, rfl, rfl⟩
    · exact ScopeTree.scope?_put_cases h
  | useName node name =>
    left
    rw [act, (binder.extends_useName node name).1] at h
    exact ⟨scope, h, rfl, rfl⟩
  | _ => exact .inl ⟨scope, h, rfl, rfl⟩

/-- The binder is in the scopes of some openers, each enclosed by the next. -/
structure Nests (tree : Tree) (binder : Binder) (openers : List NodeId) : Prop where
  owners : List.Forall₂ (fun opener scope => binder.owner? scope = some opener) openers binder.stack
  chain : binder.stack = [] ∨ binder.scopes.Chain binder.stack
  outermost : ∃ scope, binder.scopes.scope? outermost = some scope ∧ scope.parent = none ∧
    scope.owner = tree.root

theorem nests_start (tree : Tree) : (start tree.root).Nests tree [] where
  owners := .nil
  chain := .inl rfl
  outermost := ⟨_, rfl, rfl, rfl⟩

theorem forall₂_tail {α β : Type} {related : α → β → Prop} {as : List α} {bs : List β}
    (h : List.Forall₂ related as bs) : List.Forall₂ related as.tail bs.tail := by
  cases h with
  | nil => exact .nil
  | cons _ hrest => exact hrest

namespace Nests

theorem keep (h : binder.Nests tree openers) {next : Binder}
    (hscopes : binder.scopes.Extends next.scopes) (hstack : next.stack = binder.stack) :
    next.Nests tree openers where
  owners := by
    rw [hstack]
    exact h.owners.imp fun _ _ howner => owner?_extends hscopes howner
  chain := by
    rw [hstack]
    exact h.chain.imp_right fun hchain => hchain.keep hscopes
  outermost := by
    obtain ⟨scope, hscope, hparent, howner⟩ := h.outermost
    obtain ⟨kept, hkept, hsame, hsame'⟩ := hscopes _ _ hscope
    exact ⟨kept, hkept, hsame.trans hparent, hsame'.trans howner⟩

theorem act (h : binder.Nests tree openers) {action : Action}
    (hroot : ∀ node, action = .enterRoot node → openers = [] ∧ node = tree.root)
    (henter : ∀ node, action = .enter node → openers ≠ []) :
    (binder.act tree policy action).1.Nests tree (action.track openers) := by
  obtain ⟨scope, hscope, hparent, howner⟩ := h.outermost
  cases action with
  | enterRoot node =>
    obtain ⟨rfl, rfl⟩ := hroot node rfl
    have hstack : binder.stack = [] := List.forall₂_nil_left_iff.mp h.owners
    refine ⟨.cons ?_ h.owners, .inr ?_, h.outermost⟩
    · exact Option.map_eq_some_iff.mpr ⟨scope, hscope, howner⟩
    · change binder.scopes.Chain (Binder.outermost :: binder.stack)
      rw [hstack]
      exact .outermost hscope hparent
  | enter node =>
    have hscopes := binder.scopes.extends_push (some binder.current) node
    have hnew := binder.scopes.scope?_push_size (some binder.current) node
    obtain ⟨opener, rest, rfl⟩ := List.exists_cons_of_ne_nil (henter node rfl)
    obtain ⟨current, outer, hcurrent, hrest, hstack⟩ := List.forall₂_cons_left_iff.mp h.owners
    have hchain : binder.scopes.Chain (current :: outer) := by
      rcases h.chain with hnil | hchain
      · rw [hstack] at hnil
        cases hnil
      · exact hstack ▸ hchain
    have hhead : binder.current = current := by rw [Binder.current, hstack, List.headD_cons]
    refine ⟨.cons ?_ ?_, .inr ?_, ?_⟩
    · exact Option.map_eq_some_iff.mpr ⟨_, hnew, rfl⟩
    · exact h.owners.imp fun _ _ howner => owner?_extends hscopes howner
    · change (binder.scopes.push _ _).Chain (binder.scopes.size :: binder.stack)
      rw [hstack]
      exact .inner hnew (congrArg some hhead) hchain.head_lt (hchain.keep hscopes)
    · obtain ⟨kept, hkept, hsame, hsame'⟩ := hscopes _ _ hscope
      exact ⟨kept, hkept, hsame.trans hparent, hsame'.trans howner⟩
  | leave =>
    refine ⟨forall₂_tail h.owners, ?_, h.outermost⟩
    change binder.stack.tail = [] ∨ binder.scopes.Chain binder.stack.tail
    rcases h.chain with hnil | hchain
    · exact .inl (by rw [hnil, List.tail_nil])
    · exact hchain.tail
  | declare name decl =>
    obtain ⟨hscopes, hstack⟩ := @extends_declare tree policy binder name decl
    exact h.keep hscopes hstack
  | useName node name =>
    obtain ⟨hscopes, hstack⟩ := @extends_useName tree binder node name
    exact h.keep (by rw [Binder.act, hscopes]; exact .refl _) hstack
  | _ => exact ⟨h.owners, h.chain, h.outermost⟩

end Nests

/-- After any part of a walk the binder is in the scopes of the nodes entered and not left. -/
theorem nests_of_walk (hunshared : tree.Unshared) (hrooted : tree.Rooted)
    {before after : List Action} (hwalk : tree.walk = .ok (before ++ after)) :
    ((start tree.root).actAll tree policy before).1.Nests tree (before.foldl Action.track []) := by
  induction before using List.reverseRecOn generalizing after with
  | nil => exact nests_start tree
  | append_singleton before action ih =>
    rw [List.append_assoc] at hwalk
    have hplaced := (Tree.moves_of_walk hwalk).placed before action after rfl
    rw [actAll_append, List.foldl_append]
    apply (ih hwalk).act
    · rintro node rfl
      obtain ⟨id, expectation, found, hnode, hpart, haround⟩ := hplaced rfl
      obtain ⟨rfl, hroot⟩ := Tree.eq_of_enterRoot hpart
      obtain ⟨path, lent, hleads⟩ := haround.exists_leads
      obtain rfl := (hrooted _ _ _ hleads).mp (Tree.satisfies_iff.mpr ⟨found, hnode, hroot⟩)
      obtain ⟨rfl, _⟩ := Tree.Leads.root.unique hleads
      exact ⟨hunshared.around_unique .root haround (Option.isSome_of_eq_some hnode), rfl⟩
    · rintro node rfl
      exact (hrooted.around_of_enter hwalk).2

theorem Meets.owner?_current (hwell : tree.WellFormed) {function template : NodeId}
    {name held : String} {parameters : List NodeId} {returnType body : NodeId}
    (hfunction : tree.node? function =
      some (.funDecl name (some template) parameters returnType body))
    (h : Meets tree policy binder (.placeholder template held)) :
    binder.owner? binder.current = some function := by
  obtain ⟨before, after, hwalk, rfl⟩ := h
  obtain ⟨id, expectation, node, _, hpart, haround⟩ :=
    (Tree.moves_of_walk hwalk).placed before _ after rfl rfl
  have hsame : id = template := by
    cases Tree.does_of_part hpart
    rfl
  subst hsame
  obtain ⟨outer, houter⟩ := hwell.exists_outer hfunction haround
  have howners := (@nests_of_walk tree policy hwell.unshared hwell.rooted before _ hwalk).owners
  rw [houter] at howners
  obtain ⟨scope, rest, howner, _, hstack⟩ := List.forall₂_cons_left_iff.mp howners
  rw [current, hstack]
  exact howner

variable {scope : ScopeId}

/-- What a scope holds changes with the declarations of its names alone. -/
theorem held?_act {binder : Binder} {action : Action} {name : String}
    (h : ∀ decl, action ≠ .declare name decl ∨ scope ≠ binder.current) :
    (binder.act tree policy action).1.scopes.held? scope name =
      binder.scopes.held? scope name := by
  cases action with
  | enter node => exact ScopeTree.held?_push ..
  | useName node used => rw [act, (binder.extends_useName node used).1]
  | declare given decl =>
    rcases @declare_cases tree policy binder given decl with ⟨_, heq⟩ | heq
    · rw [act, heq]
    · rw [act, heq, ScopeTree.held?_put, if_neg]
      rintro ⟨rfl, rfl⟩
      exact (h decl).elim (fun hne => hne rfl) fun hne => hne rfl
  | _ => rfl

theorem held?_declare {binder : Binder} {found : Scope}
    (hscope : binder.scopes.scope? binder.current = some found) (name : String) (decl : NodeId) :
    (binder.declare tree policy name decl).1.scopes.held? binder.current name =
      some (policy.choose tree decl (binder.scopes.held? binder.current name)) := by
  have hput : (binder.scopes.put binder.current name (.node decl)).held? binder.current name =
      some (.node decl) := by
    rw [ScopeTree.held?_put, if_pos ⟨rfl, rfl⟩, hscope, Option.map_some]
  unfold declare ScopeTree.declare
  cases hheld : binder.scopes.held? binder.current name with
  | none => exact hput
  | some existing =>
    simp only [DuplicatePolicy.choose]
    split
    · exact hheld
    · cases policy with
      | report => exact hheld
      | lastWins => exact hput

theorem Nests.exists_current {binder : Binder} (h : binder.Nests tree openers) :
    ∃ scope, binder.scopes.scope? binder.current = some scope := by
  cases hstack : binder.stack with
  | nil =>
    obtain ⟨scope, hscope, _⟩ := h.outermost
    exact ⟨scope, by rw [current, hstack]; exact hscope⟩
  | cons id rest =>
    have hchain := h.chain.resolve_left (by rw [hstack]; exact List.cons_ne_nil _ _)
    rw [hstack] at hchain
    rw [current, hstack]
    cases hchain with
    | outermost hscope _ => exact ⟨_, hscope⟩
    | inner hscope _ _ _ => exact ⟨_, hscope⟩

theorem owner?_act {owner : NodeId} (binder : Binder) (action : Action)
    (h : (binder.act tree policy action).1.owner? scope = some owner) :
    binder.owner? scope = some owner ∨
      .set (.scope owner) (.scope scope) ∈ (binder.act tree policy action).2 := by
  cases action with
  | enter node =>
    obtain ⟨found, hfound, rfl⟩ := Option.map_eq_some_iff.mp h
    rcases ScopeTree.scope?_push_cases hfound with hold | ⟨rfl, rfl⟩
    · exact .inl (Option.map_eq_some_iff.mpr ⟨found, hold, rfl⟩)
    · exact .inr List.mem_cons_self
  | declare name decl =>
    left
    rcases @declare_cases tree policy binder name decl with ⟨_, heq⟩ | heq
    · rwa [act, heq] at h
    · rw [act, heq, owner?_put] at h
      exact h
  | useName node name =>
    left
    rwa [act, owner?, (binder.extends_useName node name).1] at h
  | _ => exact .inl h

theorem set_of_owner? {owner : NodeId} {actions : List Action}
    (h : ((start tree.root).actAll tree policy actions).1.owner? scope = some owner) :
    scope = outermost ∧ owner = tree.root ∨
      .set (.scope owner) (.scope scope) ∈ ((start tree.root).actAll tree policy actions).2 := by
  induction actions using List.reverseRecOn with
  | nil =>
    left
    obtain ⟨found, hfound, rfl⟩ := Option.map_eq_some_iff.mp h
    simp only [actAll, start, ScopeTree.scope?, ScopeTree.pushOutermost, Array.getElem?_push]
      at hfound
    split at hfound
    next heq =>
      cases hfound
      exact ⟨heq, rfl⟩
    next => cases hfound
  | append_singleton before action ih =>
    rw [actAll_append] at h ⊢
    rcases owner?_act _ action h with hold | hnew
    · exact (ih hold).imp_right fun hset => List.mem_append_left _ hset
    · exact .inr (List.mem_append_right _ (List.mem_append_left _ hnew))

end Binder

namespace Tree

variable {tree : Tree} {policy : DuplicatePolicy} {name : String} {opener : NodeId}

/-- What a name stands for in the scope of an opener after some actions: the built-ins are in the
scope of the root, and a declaration is in the scope that is innermost around it. -/
inductive Stands (tree : Tree) (policy : DuplicatePolicy) (name : String) (opener : NodeId) :
    List Action → Option Entity → Prop
  | builtin {b : Builtin} : opener = tree.root → b.name = name →
    Stands tree policy name opener [] (some (.builtin b))
  | nothing : (opener = tree.root → ∀ b : Builtin, b.name ≠ name) →
    Stands tree policy name opener [] none
  | declared {actions before : List Action} {decl : NodeId} {outer : List NodeId}
      {held : Option Entity} : actions = before ++ [.declare name decl] →
    tree.Around decl (opener :: outer) → Stands tree policy name opener before held →
      Stands tree policy name opener actions (some (policy.choose tree decl held))
  | other {actions before : List Action} {action : Action} {held : Option Entity} :
    actions = before ++ [action] →
    (∀ decl outer, action = .declare name decl → ¬ tree.Around decl (opener :: outer)) →
      Stands tree policy name opener before held → Stands tree policy name opener actions held

/-- What a name stands for after some actions, looked up outward through the scopes of openers. -/
inductive Finds (tree : Tree) (policy : DuplicatePolicy) (actions : List Action) (name : String) :
    List NodeId → NodeId → Entity → Prop
  | here {opener : NodeId} {outer : List NodeId} {entity : Entity} :
    tree.Stands policy name opener actions (some entity) →
      Finds tree policy actions name (opener :: outer) opener entity
  | outward {inner opener : NodeId} {outer : List NodeId} {entity : Entity} :
    tree.Stands policy name inner actions none →
      Finds tree policy actions name outer opener entity →
        Finds tree policy actions name (inner :: outer) opener entity

theorem Stands.unique {actions : List Action} {held other : Option Entity}
    (h : tree.Stands policy name opener actions held)
    (h' : tree.Stands policy name opener actions other) : other = held := by
  induction h generalizing other with
  | builtin hroot hname =>
    cases h' with
    | builtin _ hname' => rw [Builtin.eq_of_name (hname'.trans hname.symm)]
    | nothing hnone => exact absurd hname (hnone hroot _)
    | declared hsplit => simp at hsplit
    | other hsplit => simp at hsplit
  | nothing hnone =>
    cases h' with
    | builtin hroot hname => exact absurd hname (hnone hroot _)
    | nothing => rfl
    | declared hsplit => simp at hsplit
    | other hsplit => simp at hsplit
  | declared hsplit haround _ ih =>
    cases h' with
    | builtin => simp at hsplit
    | nothing => simp at hsplit
    | declared hsplit' _ hstands =>
      obtain ⟨rfl, hlast⟩ := List.append_inj' (hsplit.symm.trans hsplit') rfl
      cases hlast
      rw [ih hstands]
    | other hsplit' hnot =>
      obtain ⟨rfl, hlast⟩ := List.append_inj' (hsplit.symm.trans hsplit') rfl
      exact absurd haround (hnot _ _ (List.cons.inj hlast).1.symm)
  | other hsplit hnot _ ih =>
    cases h' with
    | builtin => simp at hsplit
    | nothing => simp at hsplit
    | declared hsplit' haround =>
      obtain ⟨rfl, hlast⟩ := List.append_inj' (hsplit.symm.trans hsplit') rfl
      exact absurd haround (hnot _ _ (List.cons.inj hlast).1)
    | other hsplit' _ hstands =>
      obtain ⟨rfl, _⟩ := List.append_inj' (hsplit.symm.trans hsplit') rfl
      exact ih hstands

theorem Stands.declared_of_node {actions : List Action} {decl : NodeId}
    (h : tree.Stands policy name opener actions (some (.node decl))) :
    .declare name decl ∈ actions ∧ ∃ outer, tree.Around decl (opener :: outer) := by
  generalize hheld : some (Entity.node decl) = held at h
  induction h with
  | builtin => cases hheld
  | nothing => cases hheld
  | @declared actions before other outer held hsplit haround _ ih =>
    rcases policy.choose_cases tree other held with hnew | hold
    · rw [hnew] at hheld
      cases hheld
      exact ⟨by simp [hsplit], outer, haround⟩
    · obtain ⟨hmem, hinside⟩ := ih (hheld.trans hold)
      exact ⟨by simp [hsplit, hmem], hinside⟩
  | other hsplit _ _ ih =>
    obtain ⟨hmem, hinside⟩ := ih hheld
    exact ⟨by simp [hsplit, hmem], hinside⟩

theorem Stands.isSome {actions : List Action} {held : Option Entity}
    (h : tree.Stands policy name opener actions held) {decl : NodeId} {outer : List NodeId}
    (hmem : .declare name decl ∈ actions) (haround : tree.Around decl (opener :: outer)) :
    held.isSome := by
  induction h with
  | builtin => cases hmem
  | nothing => cases hmem
  | declared => rfl
  | other hsplit hnot _ ih =>
    rw [hsplit] at hmem
    rcases List.mem_append.mp hmem with hbefore | hlast
    · exact ih hbefore
    · exact absurd haround (hnot _ _ (List.mem_singleton.mp hlast).symm)

theorem Stands.isSome_append {before rest : List Action} {held : Option Entity}
    (h : tree.Stands policy name opener (before ++ rest) held) {entity : Entity}
    (hbefore : tree.Stands policy name opener before (some entity)) : held.isSome := by
  induction rest using List.reverseRecOn generalizing held with
  | nil =>
    rw [List.append_nil] at h
    rw [hbefore.unique h]
    rfl
  | append_singleton rest action ih =>
    rw [← List.append_assoc] at h
    generalize hactions : before ++ rest ++ [action] = actions at h
    cases h with
    | builtin => simp at hactions
    | nothing => simp at hactions
    | declared => rfl
    | other hsplit _ hstands =>
      obtain ⟨rfl, _⟩ := List.append_inj' (hactions.trans hsplit) rfl
      exact ih hstands

theorem Finds.exists_stands {actions : List Action} {openers : List NodeId} {entity : Entity}
    (h : tree.Finds policy actions name openers opener entity) :
    opener ∈ openers ∧ tree.Stands policy name opener actions (some entity) := by
  induction h with
  | here hstands => exact ⟨List.mem_cons_self, hstands⟩
  | outward _ _ ih => exact ⟨List.mem_cons_of_mem _ ih.1, ih.2⟩

theorem Finds.unique {actions : List Action} {openers : List NodeId} {entity : Entity}
    (h : tree.Finds policy actions name openers opener entity) {other : NodeId} {found : Entity}
    (h' : tree.Finds policy actions name openers other found) :
    other = opener ∧ found = entity := by
  induction h with
  | here hstands =>
    cases h' with
    | here hstands' => exact ⟨rfl, Option.some.inj (hstands.unique hstands')⟩
    | outward hnone _ => cases hstands.unique hnone
  | outward hnone _ ih =>
    cases h' with
    | here hstands => cases hnone.unique hstands
    | outward _ hfinds => exact ih hfinds

end Tree

namespace Preparation

open Binder

variable {config : Config} {tree : Tree} {preparation : Preparation} {name : String}

theorem set_scope_mem (hroot : tree.satisfies tree.root Node.isRoot)
    (h : ofTree config tree = .ok preparation) {scope : ScopeId} {opener : NodeId}
    (howner : preparation.binder.owner? scope = some opener) :
    .set (.scope opener) (.scope scope) ∈ preparation.commands := by
  obtain ⟨actions, hwalk, hbinder, hcommands, _⟩ := ofTree_eq_ok h
  rw [hbinder] at howner
  rw [hcommands]
  apply List.mem_append_right
  rcases set_of_owner? howner with ⟨rfl, rfl⟩ | hset
  · obtain ⟨root, hnode, hkind⟩ := Tree.satisfies_iff.mp hroot
    have hmem : .enterRoot tree.root ∈ actions := by
      apply Tree.mem_of_visit hwalk hnode
      cases root with
      | root => exact List.mem_cons_self
      | _ => cases hkind
    obtain ⟨before, after, rfl⟩ := List.append_of_mem hmem
    exact mem_actAll.mpr ⟨before, _, after, rfl, List.mem_cons_self⟩
  · exact hset

theorem scope_unique (hunshared : tree.Unshared) (hroot : tree.satisfies tree.root Node.isRoot)
    (h : ofTree config tree = .ok preparation) {scope other : ScopeId} {opener : NodeId}
    (howner : preparation.binder.owner? scope = some opener)
    (hother : preparation.binder.owner? other = some opener) : other = scope := by
  have hsame := eq_of_reach hunshared h (set_scope_mem hroot h howner)
    (set_scope_mem hroot h hother) List.mem_cons_self List.mem_cons_self
  injection hsame with _ hvalue
  exact Value.scope.inj hvalue

/-- The preparation of a tree in which scopes are opened as they should be. -/
structure Scoped (config : Config) (tree : Tree) (preparation : Preparation)
    (actions : List Action) : Prop where
  unshared : tree.Unshared
  rooted : tree.Rooted
  walk : tree.walk = .ok actions
  prepared : ofTree config tree = .ok preparation

/-- The binder as some actions leave it. -/
def binderAfter (config : Config) (tree : Tree) (actions : List Action) : Binder :=
  ((start tree.root).actAll tree config.duplicates actions).1

theorem binder_of_walk {actions : List Action} (hwalk : tree.walk = .ok actions)
    (h : ofTree config tree = .ok preparation) :
    preparation.binder = binderAfter config tree actions := by
  obtain ⟨found, hfound, hbinder, _⟩ := ofTree_eq_ok h
  cases Except.ok.inj (hwalk.symm.trans hfound)
  exact hbinder

theorem extends_of_walk {before after : List Action} (hwalk : tree.walk = .ok (before ++ after))
    (h : ofTree config tree = .ok preparation) :
    (binderAfter config tree before).scopes.Extends preparation.binder.scopes := by
  rw [binder_of_walk hwalk h, binderAfter, binderAfter, actAll_append]
  exact extends_actAll _ after

namespace Scoped

variable {actions before after : List Action}

theorem binder_eq (h : Scoped config tree preparation actions) :
    preparation.binder = binderAfter config tree actions := binder_of_walk h.walk h.prepared

theorem extends_final (h : Scoped config tree preparation (before ++ after)) :
    (binderAfter config tree before).scopes.Extends preparation.binder.scopes :=
  extends_of_walk h.walk h.prepared

theorem nests (h : Scoped config tree preparation (before ++ after)) :
    (binderAfter config tree before).Nests tree (before.foldl Action.track []) :=
  nests_of_walk h.unshared h.rooted h.walk

theorem set_mem (h : Scoped config tree preparation actions) {scope : ScopeId} {opener : NodeId}
    (howner : preparation.binder.owner? scope = some opener) :
    .set (.scope opener) (.scope scope) ∈ preparation.commands :=
  set_scope_mem ((h.rooted _ _ _ .root).mpr rfl) h.prepared howner

theorem eq_of_owner (h : Scoped config tree preparation actions) {scope other : ScopeId}
    {opener : NodeId} (howner : preparation.binder.owner? scope = some opener)
    (hother : preparation.binder.owner? other = some opener) : other = scope :=
  scope_unique h.unshared ((h.rooted _ _ _ .root).mpr rfl) h.prepared howner hother

theorem owner?_current {name : String} {decl : NodeId}
    (h : Scoped config tree preparation (before ++ .declare name decl :: after)) :
    ∃ opener outer, tree.Around decl (opener :: outer) ∧ (tree.node? decl).isSome ∧
      preparation.binder.owner? (binderAfter config tree before).current = some opener := by
  obtain ⟨id, expectation, node, hnode, hpart, haround⟩ :=
    (Tree.moves_of_walk h.walk).placed before _ after rfl rfl
  obtain ⟨rfl, hname⟩ := Tree.declare_mem_iff.mp hpart
  rcases h.rooted.around_ne_nil haround with rfl | hne
  · obtain ⟨root, hroot, hkind⟩ := Tree.satisfies_iff.mp ((h.rooted _ _ _ .root).mpr rfl)
    cases Option.some.inj (hnode.symm.trans hroot)
    cases node with
    | root => cases hname
    | _ => cases hkind
  · obtain ⟨opener, outer, heq⟩ := List.exists_cons_of_ne_nil hne
    have howners := h.nests.owners
    rw [heq] at haround howners
    obtain ⟨scope, stack, howner, _, hstack⟩ := List.forall₂_cons_left_iff.mp howners
    refine ⟨opener, outer, haround, Option.isSome_of_eq_some hnode,
      owner?_extends h.extends_final ?_⟩
    rw [Binder.current, hstack]
    exact howner

/-- What a scope holds is what stands for the name there. -/
theorem stands (h : Scoped config tree preparation (before ++ after)) {scope : ScopeId}
    {opener : NodeId} (howner : preparation.binder.owner? scope = some opener) (name : String) :
    tree.Stands config.duplicates name opener before
      ((binderAfter config tree before).scopes.held? scope name) := by
  induction before using List.reverseRecOn generalizing after with
  | nil =>
    have houtermost : preparation.binder.owner? outermost = some tree.root := by
      obtain ⟨root, hroot, _, hsame⟩ := h.nests.outermost
      exact owner?_extends h.extends_final (Option.map_eq_some_iff.mpr ⟨root, hroot, hsame⟩)
    cases hheld : (binderAfter config tree []).scopes.held? scope name with
    | some entity =>
      obtain ⟨rfl, b, hname, rfl⟩ := held?_start hheld
      exact .builtin (Option.some.inj (howner.symm.trans houtermost)) hname
    | none =>
      apply Tree.Stands.nothing
      rintro rfl b rfl
      cases h.eq_of_owner howner houtermost
      have hsome := isSome_held?_start tree.root b
      change ((binderAfter config tree []).scopes.held? outermost b.name).isSome at hsome
      rw [hheld] at hsome
      cases hsome
  | append_singleton before action ih =>
    have hbefore : Scoped config tree preparation (before ++ action :: after) := by simpa using h
    have hafter : binderAfter config tree (before ++ [action]) =
        ((binderAfter config tree before).act tree config.duplicates action).1 := by
      rw [binderAfter, actAll_append]
      rfl
    rw [hafter]
    by_cases hdeclare : ∃ decl outer, action = .declare name decl ∧
        tree.Around decl (opener :: outer)
    · obtain ⟨decl, outer, rfl, haround⟩ := hdeclare
      obtain ⟨found, outer', haround', hsome, hcurrent⟩ := hbefore.owner?_current
      cases h.unshared.around_unique haround haround' hsome
      cases h.eq_of_owner howner hcurrent
      obtain ⟨scope, hscope⟩ := hbefore.nests.exists_current
      rw [Binder.act, held?_declare hscope]
      exact .declared rfl haround (ih hbefore)
    · rw [held?_act]
      · exact .other rfl (fun decl outer heq haround => hdeclare ⟨decl, outer, heq, haround⟩)
          (ih hbefore)
      · intro decl
        by_contra hboth
        obtain ⟨hact, hcurrent⟩ := not_or.mp hboth
        obtain rfl := not_not.mp hact
        obtain rfl := not_not.mp hcurrent
        obtain ⟨found, outer, haround, _, hfound⟩ := hbefore.owner?_current
        cases Option.some.inj (howner.symm.trans hfound)
        exact hdeclare ⟨decl, outer, rfl, haround⟩

theorem firstHolding?_cases (h : Scoped config tree preparation (before ++ after))
    {openers : List NodeId} {scopes : List ScopeId}
    (howners : List.Forall₂ (fun opener scope => preparation.binder.owner? scope = some opener)
      openers scopes) (name : String) :
    ((binderAfter config tree before).scopes.firstHolding? name scopes = none ∧
        ∀ opener ∈ openers, tree.Stands config.duplicates name opener before none) ∨
      ∃ entity home opener, (binderAfter config tree before).scopes.firstHolding? name scopes =
          some (entity, home) ∧ preparation.binder.owner? home = some opener ∧
        tree.Finds config.duplicates before name openers opener entity := by
  induction howners with
  | nil => exact .inl ⟨rfl, fun _ hmem => nomatch hmem⟩
  | @cons opener scope openers scopes howner _ ih =>
    have hstands := h.stands howner name
    cases hheld : (binderAfter config tree before).scopes.held? scope name with
    | some entity =>
      rw [hheld] at hstands
      exact .inr ⟨entity, scope, opener, ScopeTree.firstHolding?_cons_of_some hheld, howner,
        .here hstands⟩
    | none =>
      rw [hheld] at hstands
      rw [ScopeTree.firstHolding?_cons_of_none hheld]
      rcases ih with ⟨hnone, hall⟩ | ⟨entity, home, found, hfound, hhome, hfinds⟩
      · exact .inl ⟨hnone, List.forall_mem_cons.mpr ⟨hstands, hall⟩⟩
      · exact .inr ⟨entity, home, found, hfound, hhome, .outward hstands hfinds⟩

theorem around_of_binds {action : Action}
    (h : Scoped config tree preparation (before ++ action :: after)) {id : NodeId}
    (hbinds : action.binds? = some id) : tree.Around id (before.foldl Action.track []) ∧
      before.foldl Action.track [] ≠ [] := by
  have hplaced : action.isPlaced := by
    cases action <;> first | rfl | cases hbinds
  obtain ⟨found, expectation, node, hnode, hpart, haround⟩ :=
    (Tree.moves_of_walk h.walk).placed before _ after rfl hplaced
  have hfound : found = id ∧ node.isRoot = false := by
    rcases Tree.eq_of_binds hpart (Option.isSome_of_eq_some hbinds) with ⟨_, rfl, rfl⟩ |
      ⟨_, rfl, rfl⟩ | ⟨_, rfl, rfl⟩ <;> exact ⟨Option.some.inj hbinds, rfl⟩
  obtain ⟨rfl, hkind⟩ := hfound
  refine ⟨haround, (h.rooted.around_ne_nil haround).resolve_left ?_⟩
  rintro rfl
  obtain ⟨root, hroot, hroot'⟩ := Tree.satisfies_iff.mp ((h.rooted _ _ _ .root).mpr rfl)
  cases Option.some.inj (hnode.symm.trans hroot)
  rw [hkind] at hroot'
  cases hroot'

end Scoped

/-- After some actions the binder is inside some openers, in a scope within others. -/
structure Located (config : Config) (tree : Tree) (preparation : Preparation)
    (before after : List Action) (openers : List NodeId) (scope : ScopeId)
    (outer : List ScopeId) : Prop where
  walk : Scoped config tree preparation (before ++ after)
  owners : List.Forall₂ (fun opener scope => preparation.binder.owner? scope = some opener) openers
    (scope :: outer)
  current : (binderAfter config tree before).current = scope
  chain : (binderAfter config tree before).scopes.Chain (scope :: outer)

variable {before after : List Action}

theorem Scoped.exists_located (h : Scoped config tree preparation (before ++ after))
    (hne : before.foldl Action.track [] ≠ []) : ∃ scope outer,
      Located config tree preparation before after (before.foldl Action.track []) scope outer := by
  have hnests := h.nests
  obtain ⟨opener, rest, hopeners⟩ := List.exists_cons_of_ne_nil hne
  obtain ⟨scope, outer, _, _, hstack⟩ :=
    List.forall₂_cons_left_iff.mp (hopeners ▸ hnests.owners)
  refine ⟨scope, outer, h, ?_, ?_, ?_⟩
  · rw [← hstack]
    exact hnests.owners.imp fun _ _ howner => owner?_extends h.extends_final howner
  · rw [Binder.current, hstack, List.headD_cons]
  · rw [← hstack]
    exact hnests.chain.resolve_left (by rw [hstack]; exact List.cons_ne_nil _ _)

namespace Located

variable {openers : List NodeId} {scope : ScopeId} {outer : List ScopeId}

theorem whole (h : Located config tree preparation before after openers scope outer) :
    Scoped config tree preparation ((before ++ after) ++ []) := by
  rw [List.append_nil]
  exact h.walk

theorem binder_eq (h : Located config tree preparation before after openers scope outer) :
    binderAfter config tree (before ++ after) = preparation.binder := h.walk.binder_eq.symm

theorem final_chain (h : Located config tree preparation before after openers scope outer) :
    preparation.binder.scopes.Chain (scope :: outer) := h.chain.keep h.walk.extends_final

/-- The name stands for nothing yet, or it is found in the scope of one of the openers. -/
theorem lookup?_cases (h : Located config tree preparation before after openers scope outer)
    (name : String) :
    ((binderAfter config tree before).scopes.lookup? scope name = none ∧
        ∀ opener ∈ openers, tree.Stands config.duplicates name opener before none) ∨
      ∃ entity home opener, (binderAfter config tree before).scopes.lookup? scope name =
          some (entity, home) ∧ preparation.binder.owner? home = some opener ∧
        tree.Finds config.duplicates before name openers opener entity := by
  rw [h.chain.lookup?]
  exact h.walk.firstHolding?_cases h.owners name

theorem final_lookup?_cases
    (h : Located config tree preparation before after openers scope outer) (name : String) :
    (preparation.setting.scopes.lookup? scope name = none ∧ ∀ opener ∈ openers,
        tree.Stands config.duplicates name opener (before ++ after) none) ∨
      ∃ entity home opener, preparation.setting.scopes.lookup? scope name = some (entity, home) ∧
        preparation.binder.owner? home = some opener ∧
        tree.Finds config.duplicates (before ++ after) name openers opener entity := by
  obtain ⟨_, _, _, _, _, hscopes⟩ := ofTree_eq_ok h.walk.prepared
  have hcases := h.whole.firstHolding?_cases h.owners name
  rw [h.binder_eq] at hcases
  rwa [hscopes, h.final_chain.lookup?]

end Located

end Preparation

end Attribution
