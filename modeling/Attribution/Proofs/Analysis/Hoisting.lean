import Attribution.Proofs.Analysis.Resolution
import Attribution.Proofs.Tree.Preorder
/-!
# Hoisting

Functions and structs can be used before they are declared. All uses of a name in one place mean the
same declaration, but for a reference that follows its own declaration and comes before that of the
other use: it is bound at once, and the later declaration stands nearer or takes the place of the
earlier one.
-/
namespace Attribution

/-- Whether a declaration can be used before it is made. -/
def Node.isHoisted : Node → Bool
  | funDecl .. | structDecl .. => true
  | _ => false

open Attribution.Part

namespace Tree

variable {tree : Tree} {policy : DuplicatePolicy} {id : NodeId} {name : String}
  {opener : NodeId} {openers : List NodeId} {before rest : List Action}

/-- The node at which an action asks what a reference stands for, or declares a function or a
struct. -/
def hoists? (tree : Tree) : Action → Option NodeId
  | .useName node _ => some node
  | .declare _ decl => if tree.satisfies decl Node.isHoisted then some decl else none
  | _ => none

theorem actsFirst_hoists (tree : Tree) :
    tree.ActsFirst tree.hoists? fun node => node.isReference || node.isHoisted where
  first visited id expectation node hnode := by
    have hnone : ∀ {parts : List Part}, (∀ found used, .act (.useName found used) ∉ parts) →
        (∀ given decl, .act (.declare given decl) ∈ parts → ¬ tree.satisfies decl Node.isHoisted) →
        ∀ action, .act action ∈ parts → tree.hoists? action = none := by
      intro parts huses hdeclares action haction
      cases action with
      | useName found used => exact absurd haction (huses found used)
      | declare given decl => exact if_neg (hdeclares given decl haction)
      | _ => rfl
    have hoisted : ∀ {held : Node}, node = held → held.isHoisted →
        tree.satisfies id Node.isHoisted :=
      fun heq hheld => satisfies_iff.mpr ⟨node, hnode, heq ▸ hheld⟩
    cases node with
    | reference held => rfl
    | funDecl held template parameters returnType body =>
      have hfirst : tree.hoists? (.declare held id) = some id := if_pos (hoisted rfl rfl)
      rw [parts, visits, parts, List.append_assoc, List.append_assoc, List.cons_append,
        List.flatMap_cons, entries, hfirst, List.filterMap_cons]
      refine congrArg (id :: ·) (flatMap_entries_of_none visited (hnone ?_ ?_))
      · simp [plain, add]
      · simp [plain, add]
    | structDecl held fields =>
      have hfirst : tree.hoists? (.declare held id) = some id := if_pos (hoisted rfl rfl)
      rw [parts, visits, parts, List.cons_append, List.flatMap_cons, entries, hfirst,
        List.filterMap_cons]
      refine congrArg (id :: ·) (flatMap_entries_of_none visited (hnone ?_ ?_))
      · simp [plain, add]
      · simp [plain, add]
    | _ =>
      apply flatMap_entries_of_none visited
      apply hnone
      · intro found used hmem
        cases does_of_part hmem
      · intro given decl hmem hsat
        obtain ⟨rfl, _⟩ := declare_mem_iff.mp hmem
        cases (satisfies_of_node hnode).mp hsat
  atom _ _ := rfl

/-- A node comes before another one in traversal order. -/
def Precedes (tree : Tree) (one other : NodeId) : Prop := [one, other].Sublist tree.preorder

theorem Regular.precedes (hregular : tree.Regular) {list : List Action}
    (h : tree.walk = .ok list) {first second : Action} (hsub : [first, second].Sublist list)
    {one other : NodeId} (hone : tree.hoists? first = some one)
    (hother : tree.hoists? second = some other) : tree.Precedes one other := by
  have hfilter := hsub.filterMap tree.hoists?
  rw [List.filterMap_cons_some hone, List.filterMap_cons_some hother, List.filterMap_nil,
    hregular.filterMap_walk (actsFirst_hoists tree) h] at hfilter
  exact hfilter.trans List.filter_sublist

theorem Stands.eq_or_declared {decl : NodeId}
    (h : tree.Stands policy name opener (before ++ rest) (some (.node decl)))
    {held : Option Entity} (hbefore : tree.Stands policy name opener before held) :
    held = some (.node decl) ∨ .declare name decl ∈ rest := by
  induction rest using List.reverseRecOn with
  | nil =>
    rw [List.append_nil] at h
    exact .inl (h.unique hbefore)
  | append_singleton rest action ih =>
    rw [← List.append_assoc] at h
    generalize hactions : before ++ rest ++ [action] = actions at h
    generalize hheld : some (Entity.node decl) = last at h
    cases h with
    | builtin => simp at hactions
    | nothing => simp at hactions
    | @declared _ _ other _ existing hsplit haround hstands =>
      obtain ⟨rfl, hlast⟩ := List.append_inj' (hactions.trans hsplit) rfl
      rcases policy.choose_cases tree other existing with hnew | hold
      · rw [hnew] at hheld
        cases hheld
        rw [hlast]
        exact .inr (List.mem_append_right _ List.mem_cons_self)
      · rw [← hheld.trans hold] at hstands
        rw [← hheld]
        exact (ih hstands).imp_right fun hmem => List.mem_append_left _ hmem
    | other hsplit _ hstands =>
      obtain ⟨rfl, _⟩ := List.append_inj' (hactions.trans hsplit) rfl
      rw [← hheld] at hstands ⊢
      exact (ih hstands).imp_right fun hmem => List.mem_append_left _ hmem

theorem Finds.eq_or_declared {entity : Entity}
    (h : tree.Finds policy before name openers opener entity) {other decl : NodeId}
    (hlater : tree.Finds policy (before ++ rest) name openers other (.node decl)) :
    entity = .node decl ∨ .declare name decl ∈ rest := by
  induction h with
  | here hstands =>
    cases hlater with
    | here hstands' => exact (hstands'.eq_or_declared hstands).imp_left Option.some.inj
    | outward hnone _ => cases hnone.isSome_append hstands
  | outward hnone _ ih =>
    cases hlater with
    | here hstands' => exact .inr ((hstands'.eq_or_declared hnone).resolve_left (by simp))
    | outward _ hfinds => exact ih hfinds

/-- A node uses a name, as a value or as a type. -/
def UsesName (tree : Tree) (id : NodeId) (name : String) : Prop :=
  tree.node? id = some (.reference name) ∨ tree.node? id = some (.simpleType name)

end Tree

namespace Preparation

open Binder

variable {config : Config} {tree : Tree} {preparation : Preparation} {id : NodeId} {name : String}
  {openers : List NodeId}

/-- What a name stands for was found when the walk came to a reference, or is found in the end. -/
inductive Found (config : Config) (tree : Tree) (actions : List Action) (id : NodeId)
    (name : String) (openers : List NodeId) (entity : Entity) : Prop
  | early {before after : List Action} {opener : NodeId} :
    tree.node? id = some (.reference name) → actions = before ++ .useName id name :: after →
      tree.Finds config.duplicates before name openers opener entity →
        Found config tree actions id name openers entity
  | late {opener : NodeId} : tree.Finds config.duplicates actions name openers opener entity →
    Found config tree actions id name openers entity

theorem found_of_reference (hwell : tree.WellFormed)
    (hprepared : ofTree config tree = .ok preparation) {actions : List Action}
    (hwalk : tree.walk = .ok actions)
    (hnode : tree.node? id = some (.reference name)) (haround : tree.Around id openers)
    {entity : Entity} (hdecl : preparation.analysis.declOf? id = some entity) :
    Found config tree actions id name openers entity := by
  obtain ⟨before, after, hmeets⟩ := Tree.Meets.exists_of hwell hnode
  obtain ⟨found, scope, outer, huses⟩ := exists_uses hwell hprepared hmeets
  cases Except.ok.inj (hwalk.symm.trans hmeets.walk)
  cases hwell.unshared.around_unique haround huses.around (Option.isSome_of_eq_some hnode)
  have hresolves := huses.resolves
  rcases huses.located.lookup?_cases name with ⟨_, hnone⟩ | ⟨other, _, opener, _, _, hfinds⟩
  · rcases huses.located.final_lookup?_cases name with ⟨_, hall⟩ | ⟨other, _, opener, _, _, hfinds⟩
    · rw [(hresolves.unresolved hall).2.1] at hdecl
      cases hdecl
    · obtain rfl := Option.some.inj ((hresolves.late hnone _ _ hfinds).1.symm.trans hdecl)
      exact .late hfinds
  · obtain rfl := Option.some.inj ((hresolves.early _ _ hfinds).1.symm.trans hdecl)
    exact .early hnode rfl hfinds

theorem found_of_simpleType (hwell : tree.WellFormed)
    (hprepared : ofTree config tree = .ok preparation) {actions : List Action}
    (hwalk : tree.walk = .ok actions) (hnode : tree.node? id = some (.simpleType name))
    (haround : tree.Around id openers) {entity : Entity}
    (hdecl : preparation.analysis.declOf? id = some entity) :
    Found config tree actions id name openers entity := by
  obtain ⟨path, expectation, hleads⟩ := haround.exists_leads
  have hat : At config tree preparation id expectation (.simpleType name) :=
    ⟨hwell, hprepared, hwell.walked hleads hnode rfl, hnode⟩
  have hmem : .useType id name ∈ actions := (Tree.WellFormed.mem_walk hwalk).mpr
    ⟨id, expectation, _, hat.walked, hnode, by simp [Tree.mem_actions, Tree.parts]⟩
  obtain ⟨before, after, rfl⟩ := List.append_of_mem hmem
  have hscoped : Scoped config tree preparation (before ++ .useType id name :: after) :=
    ⟨hwell.unshared, hwell.rooted, hwalk, hprepared⟩
  obtain ⟨hinside, hne⟩ := hscoped.around_of_binds rfl
  obtain ⟨scope, outer, hlocated⟩ := hscoped.exists_located hne
  rw [hwell.unshared.around_unique haround hinside (Option.isSome_of_eq_some hnode)] at hlocated
  have hmeets : Meets tree config.duplicates (binderAfter config tree before) (.useType id name) :=
    ⟨before, after, hwalk, rfl⟩
  change (preparation.final.view (.decl id)).bind Value.decl? = some entity at hdecl
  rcases hat.simpleType_lookup hmeets with ⟨hnone, _⟩ | ⟨other, home, hlookup, _, hview, _⟩
  · rw [hnone] at hdecl
    cases hdecl
  · rw [hview] at hdecl
    obtain rfl := Option.some.inj hdecl
    rw [hlocated.current] at hlookup
    rcases hlocated.final_lookup?_cases name with ⟨hnone, _⟩ | ⟨found, _, opener, hfound, _, hfinds⟩
    · rw [hnone] at hlookup
      cases hlookup
    · cases Option.some.inj (hlookup.symm.trans hfound)
      exact .late hfinds

theorem found_of_use (hwell : tree.WellFormed) (hprepared : ofTree config tree = .ok preparation)
    {actions : List Action} (hwalk : tree.walk = .ok actions) (huses : tree.UsesName id name)
    (haround : tree.Around id openers) {entity : Entity}
    (hdecl : preparation.analysis.declOf? id = some entity) :
    Found config tree actions id name openers entity := by
  rcases huses with hnode | hnode
  · exact found_of_reference hwell hprepared hwalk hnode haround hdecl
  · exact found_of_simpleType hwell hprepared hwalk hnode haround hdecl

theorem exists_opener_of_use (hwell : tree.WellFormed)
    (hprepared : ofTree config tree = .ok preparation) (huses : tree.UsesName id name)
    (haround : tree.Around id openers) {decl : NodeId}
    (hdecl : preparation.analysis.declOf? id = some (.node decl)) :
    ∃ opener ∈ openers, ∃ outer, tree.Around decl (opener :: outer) := by
  obtain ⟨actions, hwalk⟩ := hwell.exists_walk
  rcases found_of_use hwell hprepared hwalk huses haround hdecl with ⟨_, _, hfinds⟩ | hfinds
  all_goals
    obtain ⟨hopener, hstands⟩ := hfinds.exists_stands
    exact ⟨_, hopener, hstands.declared_of_node.2⟩

end Preparation

/-- A reference follows a declaration and comes before another one. -/
def Tree.Between (tree : Tree) (id decl later : NodeId) : Prop :=
  tree.satisfies id Node.isReference ∧ tree.Precedes decl id ∧ tree.Precedes id later

/-- What a reference found on the way is found later, too, or it is declared before the reference
and the other one after it. -/
theorem eq_or_between {config : Config} {tree : Tree} (hregular : tree.Regular) {id : NodeId}
    {name : String} {before rest after : List Action}
    (hwalk : tree.walk = .ok (before ++ .useName id name :: after))
    (hnode : tree.node? id = some (.reference name)) {openers : List NodeId} {decl : NodeId}
    (hdecl : tree.satisfies decl Node.isHoisted) {opener : NodeId}
    (hfinds : tree.Finds config.duplicates before name openers opener (.node decl))
    {later : NodeId} (hlater : tree.satisfies later Node.isHoisted) {other : NodeId}
    (hfinds' : tree.Finds config.duplicates (before ++ rest) name openers other (.node later))
    (hrest : rest <+: .useName id name :: after) : later = decl ∨ tree.Between id decl later := by
  rcases hfinds.eq_or_declared hfinds' with heq | hdeclared
  · exact .inl (Entity.node.inj heq).symm
  · right
    have hearlier : .declare name decl ∈ before := hfinds.exists_stands.2.declared_of_node.1
    have hafter : .declare name later ∈ after := by
      rcases List.mem_cons.mp (hrest.subset hdeclared) with heq | hmem
      · cases heq
      · exact hmem
    have hkey : ∀ {decl}, tree.satisfies decl Node.isHoisted →
        tree.hoists? (.declare name decl) = some decl := fun hsat => if_pos hsat
    refine ⟨Tree.satisfies_iff.mpr ⟨_, hnode, rfl⟩, ?_, ?_⟩
    · exact hregular.precedes hwalk ((List.singleton_sublist.mpr hearlier).append
        (List.singleton_sublist.mpr List.mem_cons_self)) (hkey hdecl) rfl
    · exact hregular.precedes hwalk (((List.singleton_sublist.mpr hafter).cons_cons _).trans
        (List.sublist_append_right _ _)) rfl (hkey hlater)

/-- Uses of a name in one scope mean the same function or struct, unless a reference comes between
the two declarations: then it means the earlier one. -/
theorem hoisted_uses_agree (config : Config) {tree : Tree} (hwell : tree.WellFormed) :
    ∃ analysis, Analysis.ofTree config tree = .ok analysis ∧
      ∀ id other name opener outer outer' decl decl', tree.UsesName id name →
        tree.UsesName other name → tree.Around id (opener :: outer) →
        tree.Around other (opener :: outer') → analysis.declOf? id = some (.node decl) →
        analysis.declOf? other = some (.node decl') → tree.satisfies decl Node.isHoisted →
        tree.satisfies decl' Node.isHoisted →
          decl' = decl ∨ tree.Between id decl decl' ∨ tree.Between other decl' decl := by
  obtain ⟨preparation, hprepared⟩ := Preparation.exists_ofTree hwell config
  obtain ⟨actions, hwalk⟩ := hwell.exists_walk
  refine ⟨_, Analysis.ofTree_eq hprepared, ?_⟩
  intro id other name opener outer outer' decl decl' huse huse' haround haround' hdecl hdecl'
    hoisted hoisted'
  obtain ⟨path, expectation, hleads⟩ := haround.outer.exists_leads
  obtain ⟨found, hfound⟩ := hwell.exists_node hleads
  cases hwell.unshared.around_unique haround.outer haround'.outer (Option.isSome_of_eq_some hfound)
  rcases Preparation.found_of_use hwell hprepared hwalk huse haround hdecl with
    ⟨hnode, rfl, hfinds⟩ | ⟨hfinds⟩
  · rcases Preparation.found_of_use hwell hprepared hwalk huse' haround' hdecl' with
      ⟨hnode', hsplit, hfinds'⟩ | ⟨hfinds'⟩
    · -- both were bound on the way, one of them first
      rcases List.append_eq_append_iff.mp hsplit with ⟨rest, rfl, hrest⟩ | ⟨rest, rfl, hrest⟩
      · exact (eq_or_between hwell.regular hwalk hnode hoisted hfinds hoisted' hfinds'
          ⟨_, hrest.symm⟩).imp_right .inl
      · rw [hsplit] at hwalk
        exact (eq_or_between hwell.regular hwalk hnode' hoisted' hfinds' hoisted hfinds
          ⟨_, hrest.symm⟩).imp Eq.symm .inr
    · exact (eq_or_between hwell.regular hwalk hnode hoisted hfinds hoisted' hfinds'
        (List.prefix_refl _)).imp_right .inl
  · rcases Preparation.found_of_use hwell hprepared hwalk huse' haround' hdecl' with
      ⟨hnode', rfl, hfinds'⟩ | ⟨hfinds'⟩
    · exact (eq_or_between hwell.regular hwalk hnode' hoisted' hfinds' hoisted hfinds
        (List.prefix_refl _)).imp Eq.symm .inr
    · exact .inl (Entity.node.inj (hfinds.unique hfinds').2)

/-- A block that refers to a function before and after it declares another one of the same name. -/
def Tree.shadowedLate : Tree where
  nodes := #[
    { node := .root [1, 4] },
    { node := .funDecl "f" none [] 2 3 },
    { node := .simpleType "Void" },
    { node := .block [] },
    { node := .block [5, 7, 10] },
    { node := .expressionStatement 6 },
    { node := .reference "f" },
    { node := .funDecl "f" none [] 8 9 },
    { node := .simpleType "Void" },
    { node := .block [] },
    { node := .expressionStatement 11 },
    { node := .reference "f" }]
  root := 0

theorem around_shadowedLate : Tree.shadowedLate.Around 6 [4, 0] ∧
    Tree.shadowedLate.Around 11 [4, 0] := by
  have hroot : Tree.shadowedLate.Around 0 [] := .root
  have hblock : Tree.shadowedLate.Around 4 [0] :=
    hroot.child rfl (List.mem_cons_of_mem 1 List.mem_cons_self)
  have hfirst : Tree.shadowedLate.Around 5 [4, 0] := hblock.child rfl List.mem_cons_self
  have hlast : Tree.shadowedLate.Around 10 [4, 0] := hblock.child rfl
    (List.mem_cons_of_mem 5 (List.mem_cons_of_mem 7 List.mem_cons_self))
  exact ⟨hfirst.child rfl List.mem_cons_self, hlast.child rfl List.mem_cons_self⟩

theorem decls_shadowedLate : (Analysis.ofTree {} Tree.shadowedLate).toOption.any (fun analysis =>
    analysis.declOf? 6 = some (.node 1) && analysis.declOf? 11 = some (.node 7)) := by
  decide +kernel

/-- The two references stand for different functions. -/
theorem hoisted_uses_differ : Tree.shadowedLate.WellFormed ∧
    Tree.shadowedLate.UsesName 6 "f" ∧ Tree.shadowedLate.UsesName 11 "f" ∧
    Tree.shadowedLate.Around 6 [4, 0] ∧ Tree.shadowedLate.Around 11 [4, 0] ∧
    Tree.shadowedLate.satisfies 1 Node.isHoisted ∧ Tree.shadowedLate.satisfies 7 Node.isHoisted ∧
    ∃ analysis, Analysis.ofTree {} Tree.shadowedLate = .ok analysis ∧
      analysis.declOf? 6 = some (.node 1) ∧ analysis.declOf? 11 = some (.node 7) := by
  obtain ⟨analysis, hanalysis, hdecls⟩ := Analysis.exists_of_any decls_shadowedLate
  simp only [Bool.and_eq_true, decide_eq_true_eq] at hdecls
  exact ⟨by decide +kernel, .inl rfl, .inl rfl, around_shadowedLate.1, around_shadowedLate.2,
    by decide, by decide, analysis, hanalysis, hdecls⟩

theorem hoisted_uses_agree_shadowedLate : Tree.shadowedLate.WellFormed ∧
    Tree.shadowedLate.Between 6 1 7 := by
  have hwell : Tree.shadowedLate.WellFormed := by decide +kernel
  obtain ⟨analysis, hanalysis, hagree⟩ := hoisted_uses_agree {} hwell
  have hdecls := decls_shadowedLate
  rw [hanalysis] at hdecls
  obtain ⟨hfirst, hlast⟩ := Bool.and_eq_true_iff.mp hdecls
  refine ⟨hwell, ?_⟩
  rcases hagree 6 11 "f" 4 [0] [0] 1 7 (.inl rfl) (.inl rfl) around_shadowedLate.1
    around_shadowedLate.2 (of_decide_eq_true hfirst) (of_decide_eq_true hlast) (by decide)
    (by decide) with heq | hbetween | hbetween
  · cases heq
  · exact hbetween
  · have hnot : ¬ [11, 1].Sublist Tree.shadowedLate.preorder := by decide +kernel
    exact absurd hbetween.2.2 hnot

end Attribution
