import Attribution.Proofs.Checker.Basic
import Attribution.Proofs.Ty.Order
/-!
# Properties that typing keeps

What holds of the types of names and is kept by the ways in which types are built holds of the types
of all expressions. It is enough that this is so for some of the nodes, with all parts of their
expressions.
-/
namespace Attribution

namespace Ty

/-- Whether the type is built of no others and names no declaration. -/
def isBasic : Ty → Bool
  | array _ | struct .. | function .. | generic _ => false
  | _ => true

theorem eq_of_same {t found : Ty} (hbasic : t.isBasic) (h : t.same found) : found = t := by
  cases t <;> cases found <;> first | rfl | cases h | cases hbasic

theorem arithmetic_cases {op : BinaryOp} {l r result : Ty}
    (h : arithmetic op l r = some result) : result = string ∨ result = int ∨ result = float := by
  unfold arithmetic at h
  split at h
  · exact .inl (Option.some.inj h).symm
  · split at h
    · exact .inr (.inl (Option.some.inj h).symm)
    · split at h
      · exact .inr (.inr (Option.some.inj h).symm)
      · cases h

end Ty

theorem elementType?_mem {elements : List Ty} {type : Ty} (h : elementType? elements = some type) :
    type ∈ elements := by
  have hfold : ∀ (rest : List Ty) (first : Ty),
      rest.foldlM Ty.commonSupertype first = some type → type ∈ first :: rest := by
    intro rest
    induction rest with
    | nil =>
      intro first hresult
      cases hresult
      exact List.mem_cons_self
    | cons second rest ih =>
      intro first hresult
      rw [List.foldlM_cons] at hresult
      obtain ⟨common, hcommon, hresult⟩ := Option.bind_eq_some_iff.mp hresult
      rcases List.mem_cons.mp (ih common hresult) with rfl | hmem
      · rcases Ty.eq_of_commonSupertype hcommon with ⟨rfl, _⟩ | ⟨rfl, _⟩
        · exact List.mem_cons_of_mem _ List.mem_cons_self
        · exact List.mem_cons_self
      · exact List.mem_cons_of_mem _ (List.mem_cons_of_mem _ hmem)
  unfold elementType? at h
  split at h
  · cases h
  next first rest hfilter =>
    have hmem := hfold rest first h
    rw [← hfilter] at hmem
    exact List.mem_of_mem_filter hmem

theorem forall_mem_of_mapM {α β : Type} {f : α → Option β} {property : β → Prop} {xs : List α}
    {ys : List β} (hmap : xs.mapM f = some ys)
    (h : ∀ x ∈ xs, ∀ y, f x = some y → property y) : ∀ y ∈ ys, property y := by
  induction xs generalizing ys with
  | nil =>
    cases hmap
    intro y hy
    cases hy
  | cons x xs ih =>
    rw [List.mapM_cons] at hmap
    obtain ⟨first, hfirst, hmap⟩ := Option.bind_eq_some_iff.mp hmap
    obtain ⟨rest, hrest, hmap⟩ := Option.bind_eq_some_iff.mp hmap
    cases hmap
    intro y hy
    rcases List.mem_cons.mp hy with rfl | hy
    · exact h x List.mem_cons_self y hfirst
    · exact ih hrest (fun x hx => h x (List.mem_cons_of_mem _ hx)) y hy

theorem exists_of_callType? {callee type : Ty} {explicit : Option Ty} {arguments : List Ty}
    (h : callType? callee explicit arguments = some type) :
    ∃ params, (instantiate callee explicit arguments).callee = .function params type := by
  unfold callType? at h
  split at h
  · split at h
    next params result heq =>
      cases h
      exact ⟨params, heq⟩
    next => cases h
  · cases h

namespace Checker

/-- A property of types that the ways to build types keep, and that holds of the types of names that
are used at nodes of a kind. -/
structure Keeps (checker : Checker) (kind : NodeId → Prop) (property : Ty → Prop) : Prop where
  child : ∀ id child node, kind id → checker.tree.node? id = some node → node.isExpression →
    child ∈ node.children → kind child
  basic : ∀ type : Ty, type.isBasic → property type
  array : ∀ component : Ty, property (.array component) ↔ property component
  param : ∀ (callee : Ty) (place : Nat) (param : Ty), property callee →
    callee.params[place]? = some param → property param
  reference : ∀ id name entity type, kind id → checker.tree.node? id = some (.reference name) →
    checker.entity? id = some entity → checker.entityType? entity = some type → property type
  construct : ∀ id reference entity type, kind id →
    checker.tree.node? id = some (.construct reference) →
    checker.entity? reference = some entity → checker.constructorType? entity = some type →
      property type
  member : ∀ name stem type, property stem → checker.memberType? name stem = some type →
    property type
  explicit : ∀ id function typeNode arguments type, kind id →
    checker.tree.node? id = some (.call function (some typeNode) arguments) →
    checker.denoted? typeNode = some type → property type
  call : ∀ callee explicit arguments type, property callee → (∀ t ∈ explicit, property t) →
    (∀ t ∈ arguments, property t) → callType? callee explicit arguments = some type →
      property type

variable {checker : Checker}

theorem binaryType?_cases {op : BinaryOp} {left right : NodeId} {l r type : Ty}
    (h : checker.binaryType? op left right l r = some type) :
    (type.isPlaceholder ∧ (type = l ∨ type = r)) ∨ type.isBasic := by
  rcases Option.or_eq_some_iff.mp h with hgeneric | ⟨_, hresult⟩
  · split at hgeneric
    · have hmem := List.mem_of_find?_eq_some hgeneric
      simp only [List.mem_cons, List.not_mem_nil, or_false] at hmem
      exact .inl ⟨List.find?_some hgeneric, hmem⟩
    · cases hgeneric
  · right
    split at hresult
    · rcases Ty.arithmetic_cases hresult with rfl | rfl | rfl <;> rfl
    all_goals
      cases hresult
      rfl

theorem Keeps.typeWithin {kind : NodeId → Prop} {property : Ty → Prop}
    (hkeeps : checker.Keeps kind property) {n : Nat} {id : NodeId} {expected : Option Ty}
    {type : Ty} (hid : kind id) (hexpected : ∀ t ∈ expected, property t)
    (h : checker.typeWithin n id expected = some type) : property type := by
  induction n generalizing id expected type with
  | zero => cases h
  | succ n ih =>
    have hpart : ∀ {node part lent type}, checker.tree.node? id = some node →
        node.isExpression → part ∈ node.children → (∀ t ∈ lent, property t) →
        checker.typeWithin n part lent = some type → property type := by
      intro node part lent type hnode hkind hmem hlent hpart
      exact ih (hkeeps.child id part node hid hnode hkind hmem) hlent hpart
    have hnone : ∀ t ∈ (none : Option Ty), property t := fun t ht => nomatch ht
    rw [Checker.typeWithin] at h
    split at h
    next value _ =>
      cases h
      apply hkeeps.basic
      cases value <;> rfl
    next name hnode =>
      split at h
      · cases h
      · obtain ⟨entity, hentity, htype⟩ := Option.bind_eq_some_iff.mp h
        exact hkeeps.reference id name entity type hid hnode hentity htype
    next reference hnode =>
      obtain ⟨entity, hentity, htype⟩ := Option.bind_eq_some_iff.mp h
      exact hkeeps.construct id reference entity type hid hnode hentity htype
    next => exact hexpected type (Option.filter_eq_some_iff.mp h).1
    next components _ hnode =>
      obtain ⟨elements, helements, h⟩ := Option.bind_eq_some_iff.mp h
      obtain ⟨element, helement, rfl⟩ := Option.map_eq_some_iff.mp h
      rw [hkeeps.array]
      refine forall_mem_of_mapM helements ?_ element (elementType?_mem helement)
      exact fun component hmem _ hcomponent => hpart hnode rfl hmem hnone hcomponent
    next expression hnode => exact hpart hnode rfl List.mem_cons_self hexpected h
    next stem name hnode =>
      obtain ⟨found, hfound, htype⟩ := Option.bind_eq_some_iff.mp h
      exact hkeeps.member name found type (hpart hnode rfl List.mem_cons_self hnone hfound) htype
    next array index hnode =>
      obtain ⟨found, hfound, h⟩ := Option.bind_eq_some_iff.mp h
      have harray := hpart hnode rfl List.mem_cons_self hnone hfound
      cases found <;> cases h
      exact (hkeeps.array _).mp harray
    next function typeArgument arguments hnode =>
      obtain ⟨callee, hcallee, h⟩ := Option.bind_eq_some_iff.mp h
      obtain ⟨given, hgiven, h⟩ := Option.bind_eq_some_iff.mp h
      obtain ⟨explicit, hexplicit, h⟩ := Option.bind_eq_some_iff.mp h
      have hfunction := hpart hnode rfl List.mem_cons_self hnone hcallee
      refine hkeeps.call callee explicit given type hfunction ?_ ?_ h
      · intro t ht
        cases ht
        cases typeArgument with
        | none => cases hexplicit
        | some typeNode =>
          obtain ⟨found, hfound, heq⟩ := Option.map_eq_some_iff.mp hexplicit
          cases heq
          exact hkeeps.explicit id function typeNode arguments _ hid hnode hfound
      · refine forall_mem_of_mapM hgiven ?_
        intro argument hargument found hfound
        have hmem : argument.1 ∈ arguments := (List.mem_zipIdx' hargument).2 ▸ List.getElem_mem _
        exact hpart hnode rfl (List.mem_append_right _ hmem)
          (fun t ht => hkeeps.param callee _ t hfunction ht) hfound
    next op _ _ =>
      obtain ⟨operand, _, rfl⟩ := Option.map_eq_some_iff.mp h
      apply hkeeps.basic
      cases op <;> rfl
    next op left right hnode =>
      obtain ⟨l, hl, h⟩ := Option.bind_eq_some_iff.mp h
      obtain ⟨r, hr, h⟩ := Option.bind_eq_some_iff.mp h
      rcases binaryType?_cases h with ⟨_, rfl | rfl⟩ | hbasic
      · exact hpart hnode rfl List.mem_cons_self hnone hl
      · exact hpart hnode rfl (List.mem_cons_of_mem _ List.mem_cons_self) hnone hr
      · exact hkeeps.basic type hbasic
    next left right hnode =>
      obtain ⟨l, hl, h⟩ := Option.bind_eq_some_iff.mp h
      obtain ⟨r, _, h⟩ := Option.bind_eq_some_iff.mp h
      cases h
      exact hpart hnode rfl List.mem_cons_self hnone hl
    next => cases h

end Checker
end Attribution
