import Attribution.Scope.Basic
/-!
# The way outward

Scopes that are made after the scopes that enclose them form chains, and the way outward from a
scope follows its chain to the end. New scopes and new names leave chains as they are.
-/
namespace Attribution
namespace ScopeTree

variable {scopes next last : ScopeTree}

/-- Each scope of a list was made after the next one, which encloses it. The last one is
outermost. -/
inductive Chain (scopes : ScopeTree) : List ScopeId → Prop
  | outermost {id : ScopeId} {scope : Scope} : scopes.scope? id = some scope →
    scope.parent = none → Chain scopes [id]
  | inner {id parent : ScopeId} {scope : Scope} {rest : List ScopeId} :
    scopes.scope? id = some scope → scope.parent = some parent → parent < id →
      Chain scopes (parent :: rest) → Chain scopes (id :: parent :: rest)

/-- Scopes keep their places, their parents and their owners. -/
def Extends (scopes next : ScopeTree) : Prop :=
  ∀ id scope, scopes.scope? id = some scope → ∃ kept, next.scope? id = some kept ∧
    kept.parent = scope.parent ∧ kept.owner = scope.owner

theorem Extends.refl (scopes : ScopeTree) : scopes.Extends scopes :=
  fun _ scope h => ⟨scope, h, rfl, rfl⟩

theorem Extends.trans (h : scopes.Extends next) (h' : next.Extends last) :
    scopes.Extends last := by
  intro id scope hscope
  obtain ⟨kept, hkept, hparent, howner⟩ := h id scope hscope
  obtain ⟨final, hfinal, hparent', howner'⟩ := h' id kept hkept
  exact ⟨final, hfinal, hparent'.trans hparent, howner'.trans howner⟩

theorem scope?_lt {id : ScopeId} {scope : Scope} (h : scopes.scope? id = some scope) :
    id < scopes.size := (Array.getElem?_eq_some_iff.mp h).1

theorem Extends.lt_size (h : scopes.Extends next) {id : ScopeId} (hid : id < scopes.size) :
    id < next.size := by
  obtain ⟨kept, hkept, _⟩ := h id scopes.scopes[id] (Array.getElem?_eq_getElem hid)
  exact scope?_lt hkept

theorem scope?_push_of_lt (scopes : ScopeTree) (parent : Option ScopeId) (owner : NodeId)
    {id : ScopeId} (h : id < scopes.size) :
    (scopes.push parent owner).scope? id = scopes.scope? id := by
  have hne : id ≠ scopes.scopes.size := Nat.ne_of_lt h
  rw [scope?, push, Array.getElem?_push, if_neg hne, scope?]

theorem scope?_push_size (scopes : ScopeTree) (parent : Option ScopeId) (owner : NodeId) :
    (scopes.push parent owner).scope? scopes.size = some { parent, owner } := by
  simp [scope?, push, size]

theorem scope?_push_cases {parent : Option ScopeId} {owner : NodeId} {id : ScopeId}
    {scope : Scope} (h : (scopes.push parent owner).scope? id = some scope) :
    scopes.scope? id = some scope ∨ id = scopes.size ∧ scope = { parent, owner } := by
  rw [scope?, push, Array.getElem?_push] at h
  split at h
  next heq => exact .inr ⟨heq, (Option.some.inj h).symm⟩
  next => exact .inl h

theorem extends_push (scopes : ScopeTree) (parent : Option ScopeId) (owner : NodeId) :
    scopes.Extends (scopes.push parent owner) := by
  intro id scope hscope
  exact ⟨scope, (scope?_push_of_lt scopes parent owner (scope?_lt hscope)).trans hscope, rfl, rfl⟩

theorem scope?_put (scopes : ScopeTree) (place id : ScopeId) (name : String) (entity : Entity) :
    (scopes.put place name entity).scope? id =
      if place = id then (scopes.scope? id).map fun scope => scope.put name entity
      else scopes.scope? id := Array.getElem?_modify ..

theorem extends_put (scopes : ScopeTree) (place : ScopeId) (name : String) (entity : Entity) :
    scopes.Extends (scopes.put place name entity) := by
  intro id scope hscope
  rw [scope?_put, hscope]
  split
  · exact ⟨_, rfl, rfl, rfl⟩
  · exact ⟨_, rfl, rfl, rfl⟩

theorem scope?_put_cases {scopes : ScopeTree} {place id : ScopeId} {name : String}
    {entity : Entity} {scope : Scope}
    (h : (scopes.put place name entity).scope? id = some scope) :
    ∃ old, scopes.scope? id = some old ∧ old.parent = scope.parent ∧ old.owner = scope.owner := by
  rw [scope?_put] at h
  split at h
  · obtain ⟨old, hold, rfl⟩ := Option.map_eq_some_iff.mp h
    exact ⟨old, hold, rfl, rfl⟩
  · exact ⟨scope, h, rfl, rfl⟩

theorem held?_push (scopes : ScopeTree) (parent : Option ScopeId) (owner : NodeId) (id : ScopeId)
    (name : String) : (scopes.push parent owner).held? id name = scopes.held? id name := by
  rw [held?, held?]
  rcases Nat.lt_trichotomy id scopes.size with hlt | rfl | hgt
  · rw [scope?_push_of_lt scopes parent owner hlt]
  · have hold : scopes.scope? scopes.size = none := Array.getElem?_eq_none (Nat.le_refl _)
    rw [scope?_push_size, hold]
    rfl
  · have hold : scopes.scope? id = none := Array.getElem?_eq_none (Nat.le_of_lt hgt)
    have hnew : (scopes.push parent owner).scope? id = none :=
      Array.getElem?_eq_none (Nat.le_trans (Nat.le_of_eq (Array.size_push _)) hgt)
    rw [hnew, hold]

theorem Chain.keep {ids : List ScopeId} (h : scopes.Chain ids) (hnext : scopes.Extends next) :
    next.Chain ids := by
  induction h with
  | outermost hscope hparent =>
    obtain ⟨kept, hkept, hsame, _⟩ := hnext _ _ hscope
    exact .outermost hkept (hsame.trans hparent)
  | inner hscope hparent hlt _ ih =>
    obtain ⟨kept, hkept, hsame, _⟩ := hnext _ _ hscope
    exact .inner hkept (hsame.trans hparent) hlt ih

theorem Chain.tail {ids : List ScopeId} (h : scopes.Chain ids) :
    ids.tail = [] ∨ scopes.Chain ids.tail := by
  cases h with
  | outermost => exact .inl rfl
  | inner _ _ _ hrest => exact .inr hrest

theorem Chain.head_lt {id : ScopeId} {rest : List ScopeId} (h : scopes.Chain (id :: rest)) :
    id < scopes.size := by
  cases h with
  | outermost hscope _ => exact scope?_lt hscope
  | inner hscope _ _ _ => exact scope?_lt hscope

theorem Chain.lt_size {ids : List ScopeId} (h : scopes.Chain ids) :
    ∀ id ∈ ids, id < scopes.size := by
  induction h with
  | outermost hscope =>
    rw [List.forall_mem_singleton]
    exact scope?_lt hscope
  | inner hscope _ _ _ ih => exact List.forall_mem_cons.mpr ⟨scope?_lt hscope, ih⟩

theorem Chain.pathWithin {id : ScopeId} {rest : List ScopeId} (h : scopes.Chain (id :: rest))
    {n : Nat} (hn : id < n) : scopes.pathWithin n id = { scopes := id :: rest } := by
  induction n generalizing id rest with
  | zero => exact absurd hn (Nat.not_lt_zero _)
  | succ n ih =>
    cases h with
    | outermost hscope hparent => simp only [ScopeTree.pathWithin, hscope, hparent]
    | inner hscope hparent hlt hrest =>
      simp only [ScopeTree.pathWithin, hscope, hparent]
      rw [ih hrest (Nat.lt_of_lt_of_le hlt (Nat.le_of_lt_succ hn))]

theorem Chain.path {id : ScopeId} {rest : List ScopeId} (h : scopes.Chain (id :: rest)) :
    scopes.path id = { scopes := id :: rest } := h.pathWithin (Nat.lt_succ_of_lt h.head_lt)

theorem Chain.ancestors {id : ScopeId} {rest : List ScopeId} (h : scopes.Chain (id :: rest)) :
    scopes.ancestors id = .ok (id :: rest) := by
  rw [ScopeTree.ancestors, h.path]

/-- A name is looked up along the chain of a scope. -/
theorem Chain.lookup? {id : ScopeId} {rest : List ScopeId} (h : scopes.Chain (id :: rest))
    (name : String) : scopes.lookup? id name = scopes.firstHolding? name (id :: rest) := by
  rw [ScopeTree.lookup?, h.path]

theorem firstHolding?_cons_of_some {name : String} {id : ScopeId} {ids : List ScopeId}
    {entity : Entity} (h : scopes.held? id name = some entity) :
    scopes.firstHolding? name (id :: ids) = some (entity, id) := by
  rw [firstHolding?, List.findSome?_cons, h, Option.map_some]

theorem firstHolding?_cons_of_none {name : String} {id : ScopeId} {ids : List ScopeId}
    (h : scopes.held? id name = none) :
    scopes.firstHolding? name (id :: ids) = scopes.firstHolding? name ids := by
  rw [firstHolding?, List.findSome?_cons, h, Option.map_none, firstHolding?]

theorem firstHolding?_congr {name : String} {ids : List ScopeId}
    (h : ∀ id ∈ ids, next.held? id name = scopes.held? id name) :
    next.firstHolding? name ids = scopes.firstHolding? name ids := by
  induction ids with
  | nil => rfl
  | cons id rest ih =>
    rw [List.forall_mem_cons] at h
    cases hheld : scopes.held? id name with
    | some entity =>
      rw [firstHolding?_cons_of_some hheld, firstHolding?_cons_of_some (h.1.trans hheld)]
    | none =>
      rw [firstHolding?_cons_of_none hheld, firstHolding?_cons_of_none (h.1.trans hheld), ih h.2]

end ScopeTree
end Attribution
