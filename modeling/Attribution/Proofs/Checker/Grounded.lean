import Attribution.Proofs.Checker.Keeps
import Attribution.Proofs.Ty.Occurrence
/-!
# Grounded types

The structs that occur in types are structs of the tree. The recursive checker finds no other
types, so the fields of a struct can always be looked up.
-/
namespace Attribution

def Node.isStruct : Node → Bool
  | structDecl .. => true
  | _ => false

namespace Ty

mutual
/-- Every struct that occurs in a type is a struct of the tree. -/
def Grounded (tree : Tree) : Ty → Prop
  | array component => component.Grounded tree
  | struct decl _ => tree.satisfies decl Node.isStruct
  | function params result => AllGrounded tree params ∧ result.Grounded tree
  | _ => True

def AllGrounded (tree : Tree) : List Ty → Prop
  | [] => True
  | t :: ts => t.Grounded tree ∧ AllGrounded tree ts
end

variable {tree : Tree}

theorem allGrounded_iff {ts : List Ty} :
    AllGrounded tree ts ↔ ∀ t ∈ ts, t.Grounded tree := by
  induction ts with
  | nil => simp [AllGrounded]
  | cons t ts ih => simp [AllGrounded, ih]

mutual
theorem Grounded.substitute {p : Placeholder} {concrete : Ty} (hconcrete : concrete.Grounded tree)
    (t : Ty) (ht : t.Grounded tree) : (t.substitute p concrete).Grounded tree := by
  cases t with
  | generic q =>
    rw [Ty.substitute]
    split
    · exact hconcrete
    · exact ht
  | array component => exact Grounded.substitute hconcrete component ht
  | function params result =>
    exact ⟨AllGrounded.substitute hconcrete params ht.1,
      Grounded.substitute hconcrete result ht.2⟩
  | _ => exact ht

theorem AllGrounded.substitute {p : Placeholder} {concrete : Ty}
    (hconcrete : concrete.Grounded tree) (ts : List Ty) (hts : AllGrounded tree ts) :
    AllGrounded tree (substituteAll ts p concrete) := by
  cases ts with
  | nil => trivial
  | cons t ts =>
    exact ⟨Grounded.substitute hconcrete t hts.1, AllGrounded.substitute hconcrete ts hts.2⟩
end

theorem Grounded.param {t : Ty} (ht : t.Grounded tree) {place : Nat} {param : Ty}
    (hparam : t.params[place]? = some param) : param.Grounded tree := by
  cases t with
  | function params result => exact allGrounded_iff.mp ht.1 param (List.mem_of_getElem? hparam)
  | _ => cases hparam

end Ty

open Ty

variable {tree : Tree}

theorem grounded_instantiate {callee : Ty} {explicit : Option Ty} {arguments : List Ty}
    (hcallee : callee.Grounded tree) (hexplicit : ∀ t ∈ explicit, t.Grounded tree)
    (harguments : ∀ t ∈ arguments, t.Grounded tree) :
    (instantiate callee explicit arguments).callee.Grounded tree :=
  instantiate_keeps hcallee hexplicit harguments fun _ _ _ hconcrete =>
    hconcrete.substitute callee hcallee

theorem grounded_callType {callee type : Ty} {explicit : Option Ty} {arguments : List Ty}
    (hcallee : callee.Grounded tree) (hexplicit : ∀ t ∈ explicit, t.Grounded tree)
    (harguments : ∀ t ∈ arguments, t.Grounded tree)
    (h : callType? callee explicit arguments = some type) : type.Grounded tree := by
  have hinstance := grounded_instantiate hcallee hexplicit harguments
  obtain ⟨params, heq⟩ := exists_of_callType? h
  rw [heq] at hinstance
  exact hinstance.2

namespace Checker

variable {checker : Checker}

theorem grounded_introduced {entity : Entity} {type : Ty}
    (h : checker.introduced? entity = some type) : type.Grounded checker.tree := by
  cases entity with
  | builtin b => cases b <;> cases h <;> trivial
  | node id =>
    rw [introduced?] at h
    split at h
    next name fields hnode =>
      cases h
      exact Tree.satisfies_iff.mpr ⟨_, hnode, rfl⟩
    next =>
      obtain ⟨function, _, rfl⟩ := Option.map_eq_some_iff.mp h
      trivial
    next => cases h

theorem grounded_denotedWithin {n : Nat} {id : NodeId} {type : Ty}
    (h : checker.denotedWithin n id = some type) : type.Grounded checker.tree := by
  induction n generalizing id type with
  | zero => cases h
  | succ n ih =>
    rw [denotedWithin] at h
    split at h
    · obtain ⟨entity, _, hentity⟩ := Option.bind_eq_some_iff.mp h
      exact grounded_introduced hentity
    · obtain ⟨component, hcomponent, rfl⟩ := Option.map_eq_some_iff.mp h
      have hgrounded := ih hcomponent
      exact hgrounded
    · cases h

theorem grounded_annotated {id : NodeId} {type : Ty} (h : checker.annotated? id = some type) :
    type.Grounded checker.tree := by
  rw [annotated?] at h
  split at h
  · exact grounded_denotedWithin h
  · exact grounded_denotedWithin h
  · exact grounded_denotedWithin h
  · cases h

theorem grounded_declarationType {id : NodeId} {type : Ty}
    (h : checker.declarationType? id = some type) : type.Grounded checker.tree := by
  rw [declarationType?] at h
  split at h
  · exact grounded_annotated h
  · exact grounded_annotated h
  · exact grounded_annotated h
  · obtain ⟨params, hparams, h⟩ := Option.bind_eq_some_iff.mp h
    obtain ⟨result, hresult, h⟩ := Option.bind_eq_some_iff.mp h
    cases h
    refine ⟨allGrounded_iff.mpr ?_, grounded_denotedWithin hresult⟩
    exact forall_mem_of_mapM hparams fun _ _ _ => grounded_annotated
  · cases h
    trivial
  · cases h
    trivial
  · cases h

theorem grounded_entityType {entity : Entity} {type : Ty}
    (h : checker.entityType? entity = some type) : type.Grounded checker.tree := by
  cases entity with
  | builtin b => cases b <;> cases h <;> simp [Builtin.valueType, Grounded, AllGrounded]
  | node id => exact grounded_declarationType h

theorem grounded_constructorType {entity : Entity} {type : Ty}
    (h : checker.constructorType? entity = some type) : type.Grounded checker.tree := by
  cases entity with
  | builtin b => cases h
  | node id =>
    rw [constructorType?] at h
    split at h
    next name fields hnode =>
      obtain ⟨params, hparams, rfl⟩ := Option.map_eq_some_iff.mp h
      refine ⟨allGrounded_iff.mpr ?_, Tree.satisfies_iff.mpr ⟨_, hnode, rfl⟩⟩
      exact forall_mem_of_mapM hparams fun _ _ _ => grounded_annotated
    next => cases h

theorem grounded_memberType {name : String} {stem type : Ty}
    (h : checker.memberType? name stem = some type) : type.Grounded checker.tree := by
  cases stem with
  | array component =>
    rw [memberType?] at h
    split at h
    · cases h
      trivial
    · cases h
  | struct decl held =>
    obtain ⟨field, _, hfield⟩ := Option.bind_eq_some_iff.mp h
    exact grounded_annotated hfield
  | _ => cases h

theorem keeps_grounded (checker : Checker) :
    checker.Keeps (fun _ => True) (Ty.Grounded checker.tree) where
  child _ _ _ _ _ _ _ := trivial
  basic type hbasic := by cases type <;> trivial
  array _ := Iff.rfl
  param _ _ _ hcallee hparam := hcallee.param hparam
  reference _ _ _ _ _ _ _ htype := grounded_entityType htype
  construct _ _ _ _ _ _ _ htype := grounded_constructorType htype
  member _ _ _ _ htype := grounded_memberType htype
  explicit _ _ _ _ _ _ _ htype := grounded_denotedWithin htype
  call _ _ _ _ hcallee hexplicit harguments htype :=
    grounded_callType hcallee hexplicit harguments htype

/-- The checker finds grounded types. -/
theorem grounded_typeWithin {n : Nat} {id : NodeId} {expected : Option Ty} {type : Ty}
    (hexpected : ∀ t ∈ expected, t.Grounded checker.tree)
    (h : checker.typeWithin n id expected = some type) : type.Grounded checker.tree :=
  checker.keeps_grounded.typeWithin trivial hexpected h

theorem grounded_expected {expectation : Expectation} {type : Ty}
    (h : checker.expected? expectation = some type) : type.Grounded checker.tree := by
  cases expectation with
  | nothing => cases h
  | «variable» decl => exact grounded_annotated h
  | argument function argument =>
    obtain ⟨callee, hcallee, h⟩ := Option.bind_eq_some_iff.mp h
    obtain ⟨place, _, hparam⟩ := Option.bind_eq_some_iff.mp h
    refine (grounded_typeWithin ?_ hcallee).param hparam
    intro t ht
    cases ht

theorem grounded_type {id : NodeId} {expectation : Expectation} {type : Ty}
    (h : checker.type? id expectation = some type) : type.Grounded checker.tree := by
  rcases Option.or_eq_some_iff.mp h with hexpression | ⟨_, hdeclaration⟩
  · exact grounded_typeWithin (fun t ht => grounded_expected ht) hexpression
  · exact grounded_declarationType hdeclaration

end Checker
end Attribution
