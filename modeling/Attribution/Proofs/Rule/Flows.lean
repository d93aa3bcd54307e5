import Attribution.Proofs.Rule.Findings
import Attribution.Proofs.Rule.Outspoken
/-!
# Values that flow

An initializer, the right side of an assignment, an argument and a returned value each flow into a
place of its own type. The rule of such a flow finds fault with a value that does not fit there, and
with each value only once.
-/
namespace Attribution

/-- Whether the cause is that a value does not fit the place into which it flows. -/
def Cause.isMisfit : Cause → Bool
  | argument .. | initializer .. | assignment .. | assignmentTarget | returnType .. => true
  | _ => false

namespace Rule

open Effect

/-- The nodes whose values flow somewhere by a rule. -/
def flowing : Rule → List NodeId
  | initializer _ _ value => [value]
  | assignment _ _ right => [right]
  | call _ _ _ arguments => arguments
  | returnStatement _ _ expression => expression.toList
  | _ => []

/-- The node whose value a finding is about: it is the finding's own, but for assignments. -/
def source (rule : Rule) (finding : Finding) : NodeId :=
  match rule with
  | assignment _ _ right => right
  | _ => finding.node

/-- What a rule finds of values that do not fit, by the nodes of these values. -/
def misfits (setting : Setting) (rule : Rule) (view : View) : List (NodeId × Finding) :=
  ((effect setting rule view).findings.filter fun finding => finding.cause.isMisfit).map
    fun finding => (rule.source finding, finding)

variable {setting : Setting} {view : View} {rule : Rule} {id : NodeId} {finding : Finding}

theorem mem_misfits : (id, finding) ∈ rule.misfits setting view ↔
    finding ∈ (effect setting rule view).findings ∧ finding.cause.isMisfit ∧
      rule.source finding = id := by
  simp [misfits, and_assoc]

theorem Accuses.flow_cases {node : NodeId} {cause : Cause} (h : rule.Accuses node cause)
    (hcause : cause.isMisfit) :
    (∃ name type value, rule = .initializer name type value) ∨
    (∃ node left right, rule = .assignment node left right) ∨
    (∃ node function typeArgument arguments, rule = .call node function typeArgument arguments) ∨
    ∃ node returnType expression, rule = .returnStatement node returnType (some expression) := by
  cases h with
  | initializer => exact .inl ⟨_, _, _, rfl⟩
  | assignment | assignmentTarget => exact .inr (.inl ⟨_, _, _, rfl⟩)
  | argument => exact .inr (.inr (.inl ⟨_, _, _, _, rfl⟩))
  | returnType => exact .inr (.inr (.inr ⟨_, _, _, rfl⟩))
  | _ => cases hcause

theorem exists_of_argumentFindings {position : Nat} {params arguments : List Ty}
    {nodes : List NodeId} (h : finding ∈ argumentFindings position params arguments nodes) :
    ∃ (place : Nat) (param found : Ty) (argument : NodeId), params[place]? = some param ∧
      arguments[place]? = some found ∧ nodes[place]? = some argument ∧
      found.assignable param = false ∧
      finding = { node := argument, cause := .argument (position + place) param found } := by
  fun_induction argumentFindings position params arguments nodes with
  | case1 position param params argument arguments node nodes ih =>
    rcases List.mem_append.mp h with hfirst | hlater
    · rw [findingIf] at hfirst
      split at hfirst
      next hmisfit =>
        exact ⟨0, param, argument, node, rfl, rfl, rfl, by simpa using hmisfit,
          List.mem_singleton.mp hfirst⟩
      next => cases hfirst
    · obtain ⟨place, found⟩ := ih hlater
      refine ⟨place + 1, ?_⟩
      rwa [Nat.add_comm place 1, ← Nat.add_assoc, Nat.add_comm 1 place]
  | case2 => cases h

theorem argumentFindings_sublist (position : Nat) (params arguments : List Ty)
    (nodes : List NodeId) :
    ((argumentFindings position params arguments nodes).map Finding.node).Sublist nodes := by
  fun_induction argumentFindings position params arguments nodes with
  | case1 position param params argument arguments node nodes ih =>
    rw [List.map_append, findingIf]
    split
    · exact ih.cons_cons node
    · exact ih.cons node
  | case2 => exact List.nil_sublist _

theorem findings_callEffect {node function : NodeId} {nodes : List NodeId} {params : List Ty}
    {result : Ty} {explicit : Option Ty} {arguments : List Ty} :
    (callEffect setting node function nodes (.function params result) explicit
        arguments).findings =
      concatenationFindings setting node
          (instantiate (.function params result) explicit arguments).binding ++
        findingIf (params.length ≠ arguments.length) node
          (.argumentCount params.length arguments.length) ++
        argumentFindings 0 (instantiate (.function params result) explicit arguments).callee.params
          arguments nodes := by
  obtain ⟨params', result', hinstance, hlength⟩ :=
    instantiate_function params result explicit arguments
  simp only [callEffect, hinstance, hlength, Ty.params]

theorem filter_callEffect {node function : NodeId} {nodes : List NodeId} {params : List Ty}
    {result : Ty} {explicit : Option Ty} {arguments : List Ty} :
    (callEffect setting node function nodes (.function params result) explicit
        arguments).findings.filter (fun finding => finding.cause.isMisfit) =
      argumentFindings 0 (instantiate (.function params result) explicit arguments).callee.params
        arguments nodes := by
  have hshape : ∀ binding, (concatenationFindings setting node binding).filter
      (fun finding => finding.cause.isMisfit) = [] := by
    intro binding
    cases binding with
    | none => rfl
    | some binding =>
      rw [concatenationFindings, findingIf]
      split <;> rfl
  have hcount : ∀ amiss expected found,
      (findingIf amiss node (.argumentCount expected found)).filter
        (fun finding => finding.cause.isMisfit) = [] := by
    intro amiss expected found
    cases amiss <;> rfl
  have harguments : ∀ params, (argumentFindings 0 params arguments nodes).filter
      (fun finding => finding.cause.isMisfit) = argumentFindings 0 params arguments nodes := by
    intro params
    apply List.filter_eq_self.mpr
    intro finding hfinding
    obtain ⟨_, _, _, _, _, _, _, _, rfl⟩ := exists_of_argumentFindings hfinding
    rfl
  rw [findings_callEffect, List.filter_append, List.filter_append, hshape, hcount, harguments,
    List.nil_append, List.nil_append]

theorem mem_misfits_initializer {name : String} {type value : NodeId} :
    (id, finding) ∈ (initializer name type value).misfits setting view ↔
      id = value ∧ ∃ expected found, view.value? type = some expected ∧
        view.type? value = some found ∧ found.assignable expected = false ∧
          finding = { node := value, cause := .initializer name expected found } := by
  rw [mem_misfits, effect]
  cases hexpected : view.value? type with
  | none => simp [nothing]
  | some expected =>
    cases hfound : view.type? value with
    | none => simp [nothing]
    | some found =>
      cases hfits : found.assignable expected with
      | true => simp [findIf, nothing, hfits]
      | false => simp [findIf, find, hfits, source, Cause.isMisfit]; grind

theorem mem_misfits_assignment {node left right : NodeId} :
    (id, finding) ∈ (assignment node left right).misfits setting view ↔
      id = right ∧ ∃ l r, view.type? left = some l ∧ view.type? right = some r ∧
        (setting.tree.satisfies left Node.isLvalue ∧ r.assignable l = false ∧
            finding = { node, cause := .assignment l r } ∨
          setting.tree.satisfies left Node.isLvalue = false ∧
            finding = { node := left, cause := .assignmentTarget }) := by
  rw [mem_misfits, effect]
  cases hleft : view.type? left with
  | none => simp [nothing]
  | some l =>
    cases hright : view.type? right with
    | none => simp [nothing]
    | some r =>
      cases hlvalue : setting.tree.satisfies left Node.isLvalue with
      | true =>
        cases hfits : r.assignable l with
        | true => simp [assignmentEffect, Effect.finding, giveType, give, findingIf, hlvalue, hfits]
        | false =>
          simp [assignmentEffect, Effect.finding, giveType, give, findingIf, hlvalue, hfits, source,
            Cause.isMisfit]
          grind
      | false =>
        simp [assignmentEffect, Effect.finding, giveType, give, hlvalue, source, Cause.isMisfit]
        grind

theorem mem_misfits_returnStatement {node returnType expression : NodeId} :
    (id, finding) ∈ (returnStatement node returnType (some expression)).misfits setting view ↔
      id = expression ∧ ∃ expected found, view.value? returnType = some expected ∧
        view.type? expression = some found ∧ expected.isVoid = false ∧
          found.assignable expected = false ∧
            finding = { node := expression, cause := .returnType expected found } := by
  rw [mem_misfits, effect]
  cases hexpected : view.value? returnType with
  | none => simp [nothing]
  | some expected =>
    cases hfound : view.type? expression with
    | none => simp [nothing]
    | some found =>
      cases hvoid : expected.isVoid with
      | true => simp [find, hvoid]; grind [Cause.isMisfit]
      | false =>
        cases hfits : found.assignable expected with
        | true => simp [findIf, nothing, hvoid, hfits]
        | false => simp [findIf, find, hvoid, hfits, source, Cause.isMisfit]; grind

theorem mem_misfits_call {node function : NodeId} {typeArgument : Option NodeId}
    {arguments : List NodeId} :
    (id, finding) ∈ (call node function typeArgument arguments).misfits setting view ↔
      ∃ params result, view.type? function = some (.function params result) ∧
        id = finding.node ∧ finding ∈ argumentFindings 0 (instantiate (.function params result)
          (typeArgument.bind view.value?) (arguments.filterMap view.type?)).callee.params
            (arguments.filterMap view.type?) arguments := by
  rw [misfits, effect]
  cases hcallee : view.type? function with
  | none => simp [nothing]
  | some callee =>
    cases callee with
    | function params result =>
      simp only [filter_callEffect]
      simp [source]
      grind
    | _ => simp [callEffect, find, Cause.isMisfit]

/-- A rule finds fault with each value that flows once at most, and with no other value. -/
theorem misfits_sublist (setting : Setting) (rule : Rule) (view : View) :
    ((rule.misfits setting view).map Prod.fst).Sublist rule.flowing := by
  by_cases hnone : rule.misfits setting view = []
  · rw [hnone]
    exact List.nil_sublist _
  · obtain ⟨⟨value, finding⟩, hmem⟩ := List.exists_mem_of_ne_nil _ hnone
    obtain ⟨hfinding, hcause, _⟩ := mem_misfits.mp hmem
    rcases (accuses_effect setting rule view finding hfinding).flow_cases hcause with
      ⟨name, type, value, rfl⟩ | ⟨node, left, right, rfl⟩ |
      ⟨node, function, typeArgument, arguments, rfl⟩ | ⟨node, returnType, expression, rfl⟩
    · simp only [misfits, effect]
      split
      · rw [findIf]
        split
        · exact List.Sublist.refl _
        · exact List.nil_sublist _
      · exact List.nil_sublist _
    · simp only [misfits, effect]
      split
      · simp only [assignmentEffect, Effect.finding]
        split
        · rw [findingIf]
          split
          · exact List.Sublist.refl _
          · exact List.nil_sublist _
        · exact List.Sublist.refl _
      · exact List.nil_sublist _
    · simp only [misfits, effect]
      split
      next callee _ =>
        cases callee with
        | function params result =>
          rw [filter_callEffect, List.map_map]
          exact argumentFindings_sublist _ _ _ _
        | _ => exact List.nil_sublist _
      next => exact List.nil_sublist _
    · simp only [misfits, effect]
      split
      · split
        · exact List.nil_sublist _
        · rw [findIf]
          split
          · exact List.Sublist.refl _
          · exact List.nil_sublist _
      · exact List.nil_sublist _

end Rule
end Attribution
