import Attribution.Proofs.Engine.Fixpoint
import Attribution.Rule.Spawn
/-!
# What rules read and reach

A rule reads nothing but its inputs. What it writes, and what the rule that it spawns writes, are
cells of one node, which the rule names.
-/
namespace Attribution

theorem mapM_congr {α β : Type} {f g : α → Option β} {as : List α}
    (h : ∀ a ∈ as, f a = g a) : as.mapM f = as.mapM g := by
  induction as with
  | nil => rfl
  | cons a as ih =>
    rw [List.mapM_cons, List.mapM_cons, h a List.mem_cons_self,
      ih fun other hother => h other (List.mem_cons_of_mem _ hother)]

namespace Rule

theorem effect_congr (setting : Setting) (rule : Rule) {view view' : View}
    (h : ∀ cell ∈ rule.inputs, view cell = view' cell) :
    effect setting rule view = effect setting rule view' := by
  have htype : ∀ id, .type id ∈ rule.inputs → view.type? id = view'.type? id := by
    intro id hid
    rw [View.type?, h _ hid, View.type?]
  have hvalue : ∀ id, .value id ∈ rule.inputs → view.value? id = view'.value? id := by
    intro id hid
    rw [View.value?, h _ hid, View.value?]
  have hreturns : ∀ id, .returns id ∈ rule.inputs → view.returns? id = view'.returns? id := by
    intro id hid
    rw [View.returns?, h _ hid, View.returns?]
  cases rule with
  | constructorType node struct fields =>
    have hstruct : view.declared? struct = view'.declared? struct := by
      rw [View.declared?, h _ List.mem_cons_self, View.declared?]
    have hfields : fields.mapM view.type? = fields.mapM view'.type? := mapM_congr fun id hid =>
      htype id (List.mem_cons_of_mem _ (List.mem_map_of_mem hid))
    simp only [effect, hstruct, hfields]
  | arrayLiteral node components =>
    have hcomponents := List.filterMap_congr fun id hid =>
      congrArg (Option.map fun type => (id, type)) (htype id (List.mem_map_of_mem hid))
    simp only [effect, hcomponents]
  | call node function typeArgument arguments =>
    have hfunction := htype function (by simp [inputs])
    have harguments := List.filterMap_congr fun id (hid : id ∈ arguments) =>
      htype id
        (List.mem_cons_of_mem _ (List.mem_append_left _ (List.mem_map_of_mem hid)))
    have hexplicit : typeArgument.bind view.value? = typeArgument.bind view'.value? := by
      cases typeArgument with
      | none => rfl
      | some type => exact hvalue type (by simp [inputs])
    simp only [effect, hfunction, harguments, hexplicit]
  | functionType function parameters returnType =>
    have hresult := hvalue returnType List.mem_cons_self
    have hparameters : parameters.mapM view.type? = parameters.mapM view'.type? :=
      mapM_congr fun id hid => htype id (List.mem_cons_of_mem _ (List.mem_map_of_mem hid))
    simp only [effect, hresult, hparameters]
  | blockReturns block containers =>
    have hcontainers : (containers.any fun id => view.returns? id = some true) =
        containers.any fun id => view'.returns? id = some true := by
      rw [Bool.eq_iff_iff, List.any_eq_true, List.any_eq_true]
      apply exists_congr
      intro id
      apply and_congr_right
      intro hid
      rw [hreturns id (List.mem_map_of_mem hid)]
    simp only [effect, hcontainers]
  | ifReturns node containers =>
    have hcontainers : (containers.all fun id => view.returns? id = some true) =
        containers.all fun id => view'.returns? id = some true := by
      rw [Bool.eq_iff_iff, List.all_eq_true, List.all_eq_true]
      apply forall₂_congr
      intro id hid
      rw [hreturns id (List.mem_map_of_mem hid)]
    simp only [effect, hcontainers]
  | returnStatement node returnType expression =>
    have hresult := hvalue returnType List.mem_cons_self
    cases expression with
    | none => simp only [effect, hresult]
    | some expression => simp only [effect, hresult, htype expression (by simp [inputs])]
  | _ =>
    simp only [inputs, List.mem_cons, List.not_mem_nil, or_false, forall_eq_or_imp, forall_eq] at h
    simp only [effect, View.type?, View.value?, View.decl?, View.returns?, View.index?, h]

instance : RuleFamily.Local Rule where
  fire_congr setting rule _ _ h := effect_congr setting rule h

/-- The cells that a rule may write, or the rule that it spawns. -/
def reach : Rule → List Cell
  | construct node _ => [.type node]
  | resolveReference node _ _ => [.decl node, .scope node, .type node]
  | resolveType node _ _ => [.decl node, .scope node, .value node]
  | rule => rule.outputs

theorem mem_reach_of_outputs {rule : Rule} {cell : Cell} (h : cell ∈ rule.outputs) :
    cell ∈ rule.reach := by
  cases rule with
  | construct node reference => cases h
  | resolveReference node name scope => exact List.mem_append_left [.type node] h
  | resolveType node name scope => exact List.mem_append_left [.value node] h
  | _ => exact h

theorem weight_of_spawned {setting : Setting} {rule next : Rule} {view : View}
    (h : next ∈ (effect setting rule view).spawned) : rule.weight = 2 ∧ next.weight = 1 := by
  rcases spawned_effect setting rule view with hnone | ⟨htwo, other, hone, hother⟩
  · rw [hnone] at h
    cases h
  · rw [hother] at h
    rw [List.mem_singleton.mp h]
    exact ⟨htwo, hone⟩

/-- The rules that are spawned, by whom, and why. -/
inductive Spawns (setting : Setting) (view : View) : Rule → Rule → Prop
  | reference {node : NodeId} {name : String} {scope : ScopeId} {entity : Entity} {home : ScopeId} :
    setting.scopes.lookup? scope name = some (entity, home) →
    entity.isPredicate setting.tree = false →
      Spawns setting view (.resolveReference node name scope) (.referenceType node entity)
  | typeName {node : NodeId} {name : String} {scope : ScopeId} {entity : Entity} {home : ScopeId} :
    setting.scopes.lookup? scope name = some (entity, home) → entity.isType setting.tree = true →
      Spawns setting view (.resolveType node name scope) (.typeValue node entity)
  | constructor {node reference struct : NodeId} {name : String} {fields : List NodeId} :
    setting.tree.node? struct = some (.structDecl name fields) →
    view.decl? reference = some (.node struct) →
      Spawns setting view (.construct node reference) (.constructorType node struct fields)
  | field {node stem struct field : NodeId} {member name called : String} {fields : List NodeId} :
    field ∈ fields → setting.tree.node? struct = some (.structDecl name fields) →
    view.type? stem = some (.struct struct called) →
      Spawns setting view (.fieldAccess node stem member) (.fieldType node field)

theorem spawns_of_mem {setting : Setting} {rule next : Rule} {view : View}
    (h : next ∈ (effect setting rule view).spawned) : Spawns setting view rule next := by
  have hweight : rule.weight = 2 := (weight_of_spawned h).1
  cases rule with
  | resolveReference node name scope =>
    simp only [effect, resolveReferenceEffect, referenceEffect] at h
    split at h
    · cases h
    next entity home hlookup =>
      split at h
      · cases h
      · split at h
        · cases h
        next hpredicate =>
          rw [List.mem_singleton.mp h]
          exact .reference hlookup (Bool.eq_false_iff.mpr hpredicate)
  | resolveType node name scope =>
    simp only [effect, resolveTypeEffect] at h
    split at h
    · cases h
    next entity home hlookup =>
      split at h
      next htype =>
        rw [List.mem_singleton.mp h]
        exact .typeName hlookup htype
      next => cases h
  | construct node reference =>
    simp only [effect] at h
    split at h
    next entity hentity =>
      unfold constructEffect at h
      split at h
      next struct name fields hstruct =>
        obtain ⟨found, hsubject, hnode⟩ := Option.bind_eq_some_iff.mp hstruct
        obtain ⟨_, hfound, heq⟩ := Option.map_eq_some_iff.mp hnode
        cases heq
        cases entity with
        | builtin b => cases hsubject
        | node id =>
          cases hsubject
          rw [List.mem_singleton.mp h]
          exact .constructor hfound hentity
      next => cases h
    next => cases h
  | fieldAccess node stem member =>
    simp only [effect] at h
    split at h
    next type htype =>
      unfold fieldAccessEffect at h
      split at h
      · split at h <;> cases h
      next _ struct called =>
        split at h
        next name fields hnode =>
          split at h
          next field hfield =>
            rw [List.mem_singleton.mp h]
            exact .field (List.mem_of_find?_eq_some hfield) hnode htype
          next => cases h
        next => cases h
      · cases h
    next => cases h
  | _ => cases hweight

theorem mem_reach_of_spawned {setting : Setting} {rule next : Rule} {view : View} {cell : Cell}
    (hnext : next ∈ (effect setting rule view).spawned) (h : cell ∈ next.outputs) :
    cell ∈ rule.reach := by
  cases spawns_of_mem hnext with
  | @reference node | @typeName node => exact List.mem_append_right [.decl node, .scope node] h
  | constructor | field => exact h

theorem attr_of_reach {rule : Rule} {cell : Cell} (h : cell ∈ rule.reach) :
    cell.attr ≠ .index := by
  cases rule <;>
    simp only [reach, outputs, List.mem_cons, List.not_mem_nil, or_false] at h <;>
    rcases h with rfl | rfl | rfl <;>
    simp [Cell.decl, Cell.scope, Cell.type, Cell.value, Cell.declared, Cell.returns]

end Rule
end Attribution
