import Attribution.Proofs.Strict.Lookup
/-!
# Updates of scopes

Scopes are made one by one, outermost or inside a scope that exists, and names are declared or
replaced in them. Whatever the order, every scope is made after the one that encloses it and lists
no name twice, so the way outward comes to an end. To give a name to an entity in a scope changes
what the name stands for as seen from there and from the scopes inside, up to those with a nearer
scope that holds it. It changes no other answer.
-/
namespace Attribution
namespace ScopeTree

open Strict (Nested exists_chain)

variable {scopes next : ScopeTree} {place : ScopeId} {name : String} {entity : Entity}

inductive Update where
  | outermost (owner : NodeId)
  | push (parent : Option ScopeId) (owner : NodeId)
  | declare (place : ScopeId) (name : String) (entity : Entity)
  | replace (place : ScopeId) (name : String) (entity : Entity)
deriving DecidableEq, Repr

/-- The scopes after an update: a declaration that is refused leaves them as they are. -/
def update (scopes : ScopeTree) : Update → Except Fault ScopeTree
  | .outermost owner => .ok (scopes.pushOutermost owner)
  | .push parent owner => .ok (scopes.push parent owner)
  | .declare place name entity =>
    (scopes.declareIn place name entity).map fun answer => answer.toOption.getD scopes
  | .replace place name entity => (scopes.replaceIn place name entity).map Prod.fst

/-- What a new scope is made inside of exists. -/
def Update.Fits (scopes : ScopeTree) : Update → Prop
  | push (some parent) _ => parent < scopes.size
  | _ => True

instance (scopes : ScopeTree) : (change : Update) → Decidable (change.Fits scopes)
  | .push (some parent) _ => inferInstanceAs (Decidable (parent < scopes.size))
  | .push none _ | .outermost _ | .declare .. | .replace .. => inferInstanceAs (Decidable True)

/-- The scopes come of updates, one after the other. -/
inductive Built : ScopeTree → Prop
  | start : Built {}
  | update {scopes next : ScopeTree} (change : Update) : Built scopes → change.Fits scopes →
    scopes.update change = .ok next → Built next

/-- Every scope was made after the one that encloses it, and lists no name twice. -/
structure Orderly (scopes : ScopeTree) : Prop where
  nested : Nested scopes
  distinct : ∀ id scope, scopes.scope? id = some scope → (scope.names.map Prod.fst).Nodup

/-- Seen from a scope, a name stands for what it stands for in `place`, if for anything there: no
scope on the way to `place` holds it. -/
def Sees (scopes : ScopeTree) (id place : ScopeId) (name : String) : Prop :=
  ∃ nearer outer, scopes.ancestors id = .ok (nearer ++ place :: outer) ∧
    ∀ inner ∈ nearer, scopes.held? inner name = none

/-- The names of a scope, in the order in which they were first declared. -/
def listed? (scopes : ScopeTree) (id : ScopeId) : Option (List String) :=
  (scopes.scope? id).map fun scope => scope.names.map Prod.fst

/-- The name stands for the entity wherever it is looked up as far as `place`, and nothing else
changes. -/
structure Gives (scopes next : ScopeTree) (place : ScopeId) (name : String) (entity : Entity) :
    Prop where
  ancestors : ∀ id, next.ancestors id = scopes.ancestors id
  seen : ∀ id, scopes.Sees id place name → next.lookup id name = .ok (some (entity, place))
  unseen : ∀ id other, ¬ (other = name ∧ scopes.Sees id place name) →
    next.lookup id other = scopes.lookup id other

theorem scope_eq_ok_iff {scope : Scope} :
    scopes.scope place = .ok scope ↔ scopes.scope? place = some scope := by
  unfold ScopeTree.scope
  cases scopes.scope? place <;> simp

theorem declareIn_eq {scope : Scope} (h : scopes.scope? place = some scope) :
    scopes.declareIn place name entity = .ok (match scopes.held? place name with
      | some existing => .error existing
      | none => .ok (scopes.put place name entity)) := by
  rw [declareIn, scope_eq_ok_iff.mpr h]
  rfl

theorem replaceIn_eq {scope : Scope} (h : scopes.scope? place = some scope) :
    scopes.replaceIn place name entity =
      .ok (scopes.put place name entity, scopes.held? place name) := by
  rw [replaceIn, scope_eq_ok_iff.mpr h, held?, h]
  rfl

theorem exists_of_map {α : Type} {act : Scope → α} {answer : α}
    (h : (scopes.scope place).map act = .ok answer) :
    ∃ scope, scopes.scope? place = some scope := by
  cases hscope : scopes.scope place with
  | ok scope => exact ⟨scope, scope_eq_ok_iff.mp hscope⟩
  | error fault => rw [hscope] at h; cases h

theorem declareIn_error_iff {existing : Entity} :
    scopes.declareIn place name entity = .ok (.error existing) ↔
      scopes.held? place name = some existing := by
  constructor
  · intro h
    obtain ⟨scope, hscope⟩ := exists_of_map h
    rw [declareIn_eq hscope] at h
    cases hheld : scopes.held? place name with
    | some held => rw [hheld] at h; cases h; rfl
    | none => rw [hheld] at h; cases h
  · intro h
    obtain ⟨scope, hscope, _⟩ := Option.bind_eq_some_iff.mp h
    rw [declareIn_eq hscope, h]

theorem declareIn_ok_iff : scopes.declareIn place name entity = .ok (.ok next) ↔
    place < scopes.size ∧ scopes.held? place name = none ∧
      next = scopes.put place name entity := by
  constructor
  · intro h
    obtain ⟨scope, hscope⟩ := exists_of_map h
    rw [declareIn_eq hscope] at h
    cases hheld : scopes.held? place name with
    | some held => rw [hheld] at h; cases h
    | none => rw [hheld] at h; cases h; exact ⟨scope?_lt hscope, rfl, rfl⟩
  · rintro ⟨hplace, hheld, rfl⟩
    rw [declareIn_eq (Array.getElem?_eq_getElem hplace), hheld]

theorem replaceIn_ok_iff {before : Option Entity} :
    scopes.replaceIn place name entity = .ok (next, before) ↔
      place < scopes.size ∧ before = scopes.held? place name ∧
        next = scopes.put place name entity := by
  constructor
  · intro h
    obtain ⟨scope, hscope⟩ := exists_of_map h
    rw [replaceIn_eq hscope] at h
    cases h
    exact ⟨scope?_lt hscope, rfl, rfl⟩
  · rintro ⟨hplace, rfl, rfl⟩
    exact replaceIn_eq (Array.getElem?_eq_getElem hplace)

theorem update_cases {change : Update} (h : scopes.update change = .ok next) :
    (∃ owner, change = .outermost owner ∧ next = scopes.pushOutermost owner) ∨
    (∃ parent owner, change = .push parent owner ∧ next = scopes.push parent owner) ∨
    (∃ place name entity, next = scopes.put place name entity) ∨ next = scopes := by
  cases change with
  | outermost owner => exact .inl ⟨owner, rfl, (Except.ok.inj h).symm⟩
  | push parent owner => exact .inr (.inl ⟨parent, owner, rfl, (Except.ok.inj h).symm⟩)
  | declare place name entity =>
    cases hanswer : scopes.declareIn place name entity with
    | error fault => rw [update, hanswer] at h; cases h
    | ok answer =>
      rw [update, hanswer] at h
      cases answer with
      | error existing => exact .inr (.inr (.inr (Except.ok.inj h).symm))
      | ok changed =>
        obtain ⟨_, _, rfl⟩ := declareIn_ok_iff.mp hanswer
        exact .inr (.inr (.inl ⟨place, name, entity, (Except.ok.inj h).symm⟩))
  | replace place name entity =>
    cases hanswer : scopes.replaceIn place name entity with
    | error fault => rw [update, hanswer] at h; cases h
    | ok answer =>
      obtain ⟨_, _, hchanged⟩ := replaceIn_ok_iff.mp hanswer
      rw [update, hanswer] at h
      exact .inr (.inr (.inl ⟨place, name, entity, (Except.ok.inj h).symm.trans hchanged⟩))

namespace Orderly

theorem add (h : scopes.Orderly) {scope : Scope}
    (hparent : ∀ parent, scope.parent = some parent → parent < scopes.size)
    (hnames : (scope.names.map Prod.fst).Nodup) :
    Orderly { scopes := scopes.scopes.push scope } := by
  have hcases : ∀ id found, (scopes.scopes.push scope)[id]? = some found →
      scopes.scope? id = some found ∨ id = scopes.size ∧ found = scope := by
    intro id found hfound
    rw [Array.getElem?_push] at hfound
    split at hfound
    next heq => exact .inr ⟨heq, (Option.some.inj hfound).symm⟩
    next => exact .inl hfound
  constructor
  · intro id found parent hfound hinside
    rcases hcases id found hfound with hold | ⟨rfl, rfl⟩
    · exact h.nested id found parent hold hinside
    · exact hparent parent hinside
  · intro id found hfound
    rcases hcases id found hfound with hold | ⟨_, rfl⟩
    · exact h.distinct id found hold
    · exact hnames

theorem put (h : scopes.Orderly) (place : ScopeId) (name : String) (entity : Entity) :
    (scopes.put place name entity).Orderly := by
  constructor
  · intro id found parent hfound hinside
    obtain ⟨old, hold, hparent, _⟩ := scope?_put_cases hfound
    exact h.nested id old parent hold (hparent.trans hinside)
  · intro id found hfound
    rw [scope?_put] at hfound
    split at hfound
    · obtain ⟨old, hold, rfl⟩ := Option.map_eq_some_iff.mp hfound
      rw [Scope.put, Scope.map_fst_assign]
      split
      · exact h.distinct id old hold
      next hnew =>
        rw [← List.concat_eq_append]
        exact (h.distinct id old hold).concat hnew
    · exact h.distinct id found hfound

theorem update (h : scopes.Orderly) {change : Update} (hfits : change.Fits scopes)
    (hnext : scopes.update change = .ok next) : next.Orderly := by
  rcases update_cases hnext with ⟨owner, rfl, rfl⟩ | ⟨parent, owner, rfl, rfl⟩ |
    ⟨place, name, entity, rfl⟩ | rfl
  · have hnames : ((Builtin.all.map fun b => (b.name, Entity.builtin b)).map Prod.fst).Nodup := by
      decide
    exact h.add (fun _ hparent => nomatch hparent) hnames
  · refine h.add (fun outer hparent => ?_) List.nodup_nil
    cases hparent
    exact hfits
  · exact h.put place name entity
  · exact h

end Orderly

theorem Built.orderly (h : Built scopes) : scopes.Orderly := by
  induction h with
  | start => exact ⟨fun _ _ _ hscope => (nomatch hscope), fun _ _ hscope => nomatch hscope⟩
  | update change _ hfits hnext ih => exact ih.update hfits hnext

theorem size_put (scopes : ScopeTree) (place : ScopeId) (name : String) (entity : Entity) :
    (scopes.put place name entity).size = scopes.size := Array.size_modify

theorem pathWithin_put (scopes : ScopeTree) (place : ScopeId) (name : String) (entity : Entity)
    (n : Nat) (id : ScopeId) :
    (scopes.put place name entity).pathWithin n id = scopes.pathWithin n id := by
  induction n generalizing id with
  | zero => rfl
  | succ n ih =>
    simp only [pathWithin, scope?_put, ih]
    by_cases hid : place = id
    · simp only [if_pos hid]
      cases scopes.scope? id <;> rfl
    · simp only [if_neg hid]

theorem path_put (scopes : ScopeTree) (place : ScopeId) (name : String) (entity : Entity)
    (id : ScopeId) : (scopes.put place name entity).path id = scopes.path id := by
  rw [path, path, size_put, pathWithin_put]

theorem firstHolding?_put_of_free (hplace : place < scopes.size) {nearer : List ScopeId}
    (hfree : ∀ id ∈ nearer, scopes.held? id name = none) (outer : List ScopeId) :
    (scopes.put place name entity).firstHolding? name (nearer ++ place :: outer) =
      some (entity, place) := by
  have hhere : (scopes.put place name entity).held? place name = some entity := by
    rw [held?_put, if_pos ⟨rfl, rfl⟩, scope?, Array.getElem?_eq_getElem hplace, Option.map_some]
  induction nearer with
  | nil => exact firstHolding?_cons_of_some hhere
  | cons id rest ih =>
    rw [List.forall_mem_cons] at hfree
    by_cases hid : id = place
    · subst hid
      exact firstHolding?_cons_of_some hhere
    · have hnone : (scopes.put place name entity).held? id name = none := by
        rw [held?_put, if_neg fun heq => hid heq.1, hfree.1]
      exact (firstHolding?_cons_of_none hnone).trans (ih hfree.2)

theorem firstHolding?_put_of_held {ids : List ScopeId}
    (h : ∀ nearer outer, ids = nearer ++ place :: outer →
      ∃ id ∈ nearer, scopes.held? id name ≠ none) :
    (scopes.put place name entity).firstHolding? name ids = scopes.firstHolding? name ids := by
  induction ids with
  | nil => rfl
  | cons id rest ih =>
    have hne : id ≠ place := by
      rintro rfl
      obtain ⟨_, hmem, _⟩ := h [] rest rfl
      cases hmem
    have hsame : (scopes.put place name entity).held? id name = scopes.held? id name := by
      rw [held?_put, if_neg fun heq => hne heq.1]
    cases hheld : scopes.held? id name with
    | some found =>
      rw [firstHolding?_cons_of_some hheld, firstHolding?_cons_of_some (hsame.trans hheld)]
    | none =>
      rw [firstHolding?_cons_of_none hheld, firstHolding?_cons_of_none (hsame.trans hheld)]
      apply ih
      rintro nearer outer rfl
      obtain ⟨inner, hinner, hsome⟩ := h (id :: nearer) outer rfl
      rcases List.mem_cons.mp hinner with rfl | hrest
      · exact absurd hheld hsome
      · exact ⟨inner, hrest, hsome⟩

theorem lookup_congr {id : ScopeId} {other : String} (hpath : next.path id = scopes.path id)
    (h : next.lookup? id other = scopes.lookup? id other) :
    next.lookup id other = scopes.lookup id other := by
  rw [lookup, lookup, hpath, h]

theorem path_of_missing {id : ScopeId} (h : ¬ id < scopes.size) :
    scopes.path id = { scopes := [], fault := some (.missingScope id) } := by
  have hnone : scopes.scope? id = none := Array.getElem?_eq_none (Nat.le_of_not_lt h)
  simp only [path, pathWithin, hnone]

theorem Orderly.gives_put (h : scopes.Orderly) (hplace : place < scopes.size) (name : String)
    (entity : Entity) : scopes.Gives (scopes.put place name entity) place name entity where
  ancestors id := by rw [ScopeTree.ancestors, ScopeTree.ancestors, path_put]
  seen id hsees := by
    obtain ⟨nearer, outer, hancestors, hfree⟩ := hsees
    have hpath : (scopes.path id).scopes = nearer ++ place :: outer := by
      unfold ScopeTree.ancestors at hancestors
      split at hancestors
      · exact Except.ok.inj hancestors
      · cases hancestors
    rw [lookup, lookup?, path_put, hpath, firstHolding?_put_of_free hplace hfree outer]
  unseen id other hother := by
    refine lookup_congr (path_put ..) ?_
    rw [lookup?, lookup?, path_put]
    by_cases hid : id < scopes.size
    · obtain ⟨rest, hchain⟩ := exists_chain h.nested hid
      rw [hchain.path]
      by_cases hname : other = name
      · subst hname
        apply firstHolding?_put_of_held
        intro nearer outer heq
        by_contra hnone
        refine hother ⟨rfl, nearer, outer, hchain.ancestors.trans (congrArg _ heq), ?_⟩
        intro inner hinner
        by_contra hsome
        exact hnone ⟨inner, hinner, hsome⟩
      · apply firstHolding?_congr
        intro inner _
        rw [held?_put, if_neg fun heq => hname heq.2]
    · rw [path_of_missing hid]
      rfl

theorem listed?_put_of_held {held : Entity} (h : scopes.held? place name = some held)
    (entity : Entity) (id : ScopeId) :
    (scopes.put place name entity).listed? id = scopes.listed? id := by
  rw [listed?, listed?, scope?_put]
  split
  next heq =>
    subst heq
    obtain ⟨scope, hscope, hfound⟩ := Option.bind_eq_some_iff.mp h
    obtain ⟨before, after, hsplit, _⟩ := List.lookup_eq_some_iff.mp hfound
    have hmem : name ∈ scope.names.map Prod.fst :=
      List.mem_map.mpr ⟨(name, held), by rw [hsplit]; simp, rfl⟩
    simp only [hscope, Option.map_some, Scope.put, Scope.map_fst_assign, if_pos hmem]
  next => rfl

/-- Whatever updates made the scopes, the way outward from each of them comes to an end. A refused
declaration changes nothing. Any other declaration, and every replacement, gives the name to the
entity where the scope is the nearest that may hold it, and changes no other answer. -/
theorem updates_lexical (h : Built scopes) :
    (∀ id scope, scopes.scope? id = some scope →
      (∀ parent, scope.parent = some parent → parent < id) ∧
      (scope.names.map Prod.fst).Nodup ∧
      ∃ outer, scopes.Chain (id :: outer) ∧ scopes.ancestors id = .ok (id :: outer) ∧
        ∀ name, scopes.lookup id name = .ok (scopes.firstHolding? name (id :: outer))) ∧
    ∀ place name entity,
      (∀ existing, scopes.declareIn place name entity = .ok (.error existing) →
        scopes.held? place name = some existing ∧
        scopes.update (.declare place name entity) = .ok scopes) ∧
      (∀ next, scopes.declareIn place name entity = .ok (.ok next) →
        scopes.held? place name = none ∧ scopes.Gives next place name entity) ∧
      (∀ next before, scopes.replaceIn place name entity = .ok (next, before) →
        before = scopes.held? place name ∧ scopes.Gives next place name entity ∧
        (before.isSome → ∀ id, next.listed? id = scopes.listed? id)) ∧
      (place < scopes.size →
        (∃ answer, scopes.declareIn place name entity = .ok answer) ∧
        ∃ next before, scopes.replaceIn place name entity = .ok (next, before)) := by
  have horderly : scopes.Orderly := h.orderly
  constructor
  · intro id scope hscope
    refine ⟨fun parent => horderly.nested id scope parent hscope,
      horderly.distinct id scope hscope, ?_⟩
    obtain ⟨outer, hchain⟩ := exists_chain horderly.nested (scope?_lt hscope)
    refine ⟨outer, hchain, hchain.ancestors, fun name => ?_⟩
    rw [lookup, hchain.lookup?, hchain.path]
    cases scopes.firstHolding? name (id :: outer) <;> rfl
  · intro place name entity
    refine ⟨?_, ?_, ?_, ?_⟩
    · intro existing hrefused
      refine ⟨declareIn_error_iff.mp hrefused, ?_⟩
      rw [update, hrefused]
      rfl
    · intro next hdeclared
      obtain ⟨hplace, hfree, rfl⟩ := declareIn_ok_iff.mp hdeclared
      exact ⟨hfree, horderly.gives_put hplace name entity⟩
    · intro next before hreplaced
      obtain ⟨hplace, rfl, rfl⟩ := replaceIn_ok_iff.mp hreplaced
      refine ⟨rfl, horderly.gives_put hplace name entity, fun hheld => ?_⟩
      obtain ⟨held, hheld⟩ := Option.isSome_iff_exists.mp hheld
      exact listed?_put_of_held hheld entity
    · intro hplace
      have hscope : scopes.scope? place = some scopes.scopes[place] :=
        Array.getElem?_eq_getElem hplace
      exact ⟨⟨_, declareIn_eq hscope⟩, _, _, replaceIn_eq hscope⟩

/-- A built-in that is replaced is seen anew from a scope inside, and the others as before. -/
theorem updates_lexical_nested : ∃ scopes next before, Built scopes ∧
    scopes.replaceIn 0 "print" (.node 5) = .ok (next, before) ∧
    next.lookup 1 "print" = .ok (some (.node 5, 0)) ∧
    next.lookup 1 "Int" = scopes.lookup 1 "Int" ∧ next.listed? 0 = scopes.listed? 0 := by
  have houtermost : Built (({} : ScopeTree).pushOutermost 0) :=
    .update (.outermost 0) .start trivial rfl
  have hbuilt : Built ((({} : ScopeTree).pushOutermost 0).push (some 0) 1) :=
    .update (.push (some 0) 1) houtermost (by decide) rfl
  have hsees : ((({} : ScopeTree).pushOutermost 0).push (some 0) 1).Sees 1 0 "print" :=
    ⟨[1], [], by decide, by decide⟩
  obtain ⟨_, heffects⟩ := updates_lexical hbuilt
  obtain ⟨_, _, hreplace, hanswers⟩ := heffects 0 "print" (.node 5)
  obtain ⟨_, next, before, hreplaced⟩ := hanswers (by decide)
  obtain ⟨rfl, hgives, hlisted⟩ := hreplace next before hreplaced
  exact ⟨_, next, _, hbuilt, hreplaced, hgives.seen 1 hsees,
    hgives.unseen 1 "Int" fun hname => absurd hname.1 (by decide), hlisted (by decide) 0⟩

end ScopeTree
end Attribution
