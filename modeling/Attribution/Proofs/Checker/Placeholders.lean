import Attribution.Proofs.Checker.Keeps
import Attribution.Proofs.Tree.Carriers
/-!
# Where placeholders come from

The type of an expression ends in a placeholder only if a template parameter can be reached from the
expression, or if a call or a field access is among the expressions from which it takes its type.
-/
namespace Attribution

/-- Whether the type is a placeholder, or an array of such of any depth. -/
def Ty.endsInPlaceholder : Ty → Bool
  | generic _ => true
  | array component => component.endsInPlaceholder
  | _ => false

/-- The parts from which an expression takes a placeholder over as it is, or an array of it. -/
def Node.sources : Node → List NodeId
  | parenthesized part | arrayAccess part _ | assignment part _ => [part]
  | binary _ left right => [left, right]
  | arrayLiteral components => components
  | _ => []

/-- A call or a field access is among the expressions from which an expression takes its type. -/
inductive Tree.Draws (tree : Tree) : NodeId → Prop
  | call {id function : NodeId} {typeArgument : Option NodeId} {arguments : List NodeId} :
    tree.node? id = some (.call function typeArgument arguments) → Draws tree id
  | fieldAccess {id stem : NodeId} {name : String} :
    tree.node? id = some (.fieldAccess stem name) → Draws tree id
  | part {id part : NodeId} {node : Node} : tree.node? id = some node → part ∈ node.sources →
    Draws tree part → Draws tree id

namespace Tree

theorem Carries.of_source {tree : Tree} {resolve : NodeId → Option Entity} {id part : NodeId}
    {node : Node} (hnode : tree.node? id = some node) (hpart : part ∈ node.sources)
    (h : tree.Carries resolve part) : tree.Carries resolve id := by
  cases node with
  | parenthesized | arrayAccess =>
    cases List.mem_singleton.mp hpart
    exact .step (by rw [carriers, hnode]) List.mem_cons_self h
  | assignment left right =>
    cases List.mem_singleton.mp hpart
    exact .step (by rw [carriers, hnode]) List.mem_cons_self h
  | binary | arrayLiteral => exact .step (by rw [carriers, hnode]; rfl) hpart h
  | _ => cases hpart

end Tree

open Attribution.Tree

namespace Checker

variable {checker : Checker} {n : Nat} {id : NodeId} {type : Ty}

theorem carries_denotedWithin (h : checker.denotedWithin n id = some type)
    (hends : type.endsInPlaceholder) : checker.tree.Carries checker.entity? id := by
  induction n generalizing id type with
  | zero => cases h
  | succ n ih =>
    rw [denotedWithin] at h
    split at h
    next name hnode =>
      obtain ⟨entity, hentity, hintroduced⟩ := Option.bind_eq_some_iff.mp h
      cases entity with
      | builtin b => cases b <;> cases hintroduced <;> cases hends
      | node decl =>
        rw [introduced?] at hintroduced
        split at hintroduced
        next =>
          cases hintroduced
          cases hends
        next hdecl =>
          exact .step (carriers_of_name (.inr hnode) hentity hdecl rfl) List.mem_cons_self
            (.parameter (satisfies_iff.mpr ⟨_, hdecl, rfl⟩))
        next => cases hintroduced
    next component hnode =>
      obtain ⟨inner, hinner, rfl⟩ := Option.map_eq_some_iff.mp h
      exact .step (by rw [carriers, hnode]) List.mem_cons_self (ih hinner hends)
    next => cases h

theorem carries_reference {name : String} (hnode : checker.tree.node? id = some (.reference name))
    {decl : NodeId} (hentity : checker.entity? id = some (.node decl))
    (hfield : ¬ checker.tree.satisfies decl Node.isField)
    (h : checker.declarationType? decl = some type) (hends : type.endsInPlaceholder) :
    checker.tree.Carries checker.entity? id := by
  have hannotated : ∀ {node : Node} {typeNode : NodeId},
      checker.tree.node? decl = some node → node.carriesPlaceholder →
      checker.tree.carriers checker.entity? decl = .ok [typeNode] →
      checker.denoted? typeNode = some type → checker.tree.Carries checker.entity? id := by
    intro node typeNode hdecl hcarries htargets hdenoted
    exact .step (carriers_of_name (.inl hnode) hentity hdecl hcarries) List.mem_cons_self
      (.step htargets List.mem_cons_self (carries_denotedWithin hdenoted hends))
  rw [declarationType?] at h
  cases hdecl : checker.tree.node? decl with
  | none =>
    rw [hdecl] at h
    cases h
  | some node =>
    rw [hdecl] at h
    cases node with
    | varDecl name typeNode initializer =>
      simp only [annotated?, hdecl] at h
      exact hannotated hdecl rfl (by rw [carriers, hdecl]) h
    | parameter name typeNode =>
      simp only [annotated?, hdecl] at h
      exact hannotated hdecl rfl (by rw [carriers, hdecl]) h
    | fieldDecl => exact absurd (satisfies_iff.mpr ⟨_, hdecl, rfl⟩) hfield
    | funDecl =>
      obtain ⟨params, _, h⟩ := Option.bind_eq_some_iff.mp h
      obtain ⟨result, _, h⟩ := Option.bind_eq_some_iff.mp h
      cases h
      cases hends
    | structDecl | templateParam =>
      cases h
      cases hends
    | _ => cases h

/-- An expression that draws neither on a call nor on a field access takes a placeholder over from a
source or from a declaration. -/
theorem carries_typeWithin
    (hfields : ∀ id name decl, checker.tree.node? id = some (.reference name) →
      checker.entity? id = some (.node decl) → ¬ checker.tree.satisfies decl Node.isField)
    (h : checker.typeWithin n id none = some type) (hends : type.endsInPlaceholder)
    (hdraws : ¬ checker.tree.Draws id) : checker.tree.Carries checker.entity? id := by
  induction n generalizing id type with
  | zero => cases h
  | succ n ih =>
    have hsource : ∀ {node : Node} {part : NodeId} {found : Ty},
        checker.tree.node? id = some node → part ∈ node.sources →
        checker.typeWithin n part none = some found → found.endsInPlaceholder →
        checker.tree.Carries checker.entity? id := by
      intro node part found hnode hpart hfound hends
      exact (ih hfound hends fun hdrawn => hdraws (.part hnode hpart hdrawn)).of_source hnode hpart
    rw [typeWithin] at h
    split at h
    next value _ =>
      cases h
      cases value <;> cases hends
    next name hnode =>
      split at h
      · cases h
      · obtain ⟨entity, hentity, htype⟩ := Option.bind_eq_some_iff.mp h
        cases entity with
        | builtin b => cases b <;> cases htype <;> cases hends
        | node decl =>
          exact carries_reference hnode hentity (hfields _ _ _ hnode hentity) htype hends
    next =>
      obtain ⟨entity, _, htype⟩ := Option.bind_eq_some_iff.mp h
      cases entity with
      | builtin b => cases htype
      | node decl =>
        rw [constructorType?] at htype
        split at htype
        · obtain ⟨params, _, rfl⟩ := Option.map_eq_some_iff.mp htype
          cases hends
        · cases htype
    next => cases h
    next components _ hnode =>
      obtain ⟨elements, helements, h⟩ := Option.bind_eq_some_iff.mp h
      obtain ⟨element, helement, rfl⟩ := Option.map_eq_some_iff.mp h
      have hcomponents : ∀ found ∈ elements, ∃ component ∈ components,
          checker.typeWithin n component none = some found :=
        forall_mem_of_mapM helements fun component hmem _ hfound => ⟨component, hmem, hfound⟩
      obtain ⟨component, hcomponent, htype⟩ := hcomponents element (elementType?_mem helement)
      exact hsource hnode hcomponent htype hends
    next expression hnode => exact hsource hnode List.mem_cons_self h hends
    next stem name hnode => exact absurd (.fieldAccess hnode) hdraws
    next array index hnode =>
      obtain ⟨found, hfound, h⟩ := Option.bind_eq_some_iff.mp h
      cases found <;> cases h
      exact hsource hnode List.mem_cons_self hfound hends
    next function typeArgument arguments hnode => exact absurd (.call hnode) hdraws
    next op _ _ =>
      obtain ⟨operand, _, rfl⟩ := Option.map_eq_some_iff.mp h
      cases op <;> cases hends
    next op left right hnode =>
      obtain ⟨l, hl, h⟩ := Option.bind_eq_some_iff.mp h
      obtain ⟨r, hr, h⟩ := Option.bind_eq_some_iff.mp h
      rcases binaryType?_cases h with ⟨_, rfl | rfl⟩ | hbasic
      · exact hsource hnode List.mem_cons_self hl hends
      · exact hsource hnode (List.mem_cons_of_mem _ List.mem_cons_self) hr hends
      · cases type <;> contradiction
    next left right hnode =>
      obtain ⟨l, hl, h⟩ := Option.bind_eq_some_iff.mp h
      obtain ⟨r, _, h⟩ := Option.bind_eq_some_iff.mp h
      cases h
      exact hsource hnode List.mem_cons_self hl hends
    next => cases h

end Checker
end Attribution
