import Attribution.Proofs.Analysis.Flows
import Attribution.Proofs.Checker.Yields
/-!
# Exactly the values that do not fit

The rules of the flows are there wherever a value flows, they fire as soon as both sides have a
type, and they find fault just as the flow does not fit.
-/
namespace Attribution

open Attribution.Tree Attribution.Binder

namespace Preparation

variable {config : Config} {tree : Tree} {preparation : Preparation} {id value : NodeId}
  {finding : Finding}

theorem around_of_exit (hproper : tree.Proper) {binder : Binder} {expression : Option NodeId}
    (hmeets : Binder.Meets tree config.duplicates binder (.exit id expression)) :
    tree.node? id = some (.returnStatement expression) ∧ ∃ openers, tree.Around id openers ∧
      binder.enclosingFunction? tree =
        openers.find? fun id => tree.satisfies id Node.isFunction := by
  obtain ⟨before, after, hwalk, rfl⟩ := hmeets
  obtain ⟨found, expectation, node, hnode, hpart, haround⟩ :=
    (moves_of_walk hwalk).placed before _ after rfl rfl
  obtain ⟨rfl, rfl⟩ := lets_of_parts hpart
  exact ⟨hnode, _, haround,
    (inside_of_walk hwalk).enclosingFunction? hproper.root⟩

/-- What is found of a value that flows is that it does not fit. -/
theorem misfit_of_mem (hproper : tree.Proper) (h : ofTree config tree = .ok preparation)
    (hmem : (value, finding) ∈ preparation.misfits) :
    tree.Misfit ⟨preparation.final, preparation.binder.scopes⟩ value finding := by
  obtain ⟨rule, hadd, hready, hmem⟩ := mem_misfits.mp hmem
  obtain ⟨binder, action, hmeets, hadds⟩ := (add_mem_iff h).mp hadd
  obtain ⟨holder, expectation, node, _, hnode, hpart⟩ := hmeets.exists_node
  have hlets := lets_of_parts hpart
  obtain ⟨hfinding, hcause, _⟩ := Rule.mem_misfits.mp hmem
  rcases (Rule.accuses_effect _ _ _ finding hfinding).flow_cases hcause with
    ⟨name, type, value, rfl⟩ | ⟨node, left, right, rfl⟩ |
    ⟨call, function, typeArgument, arguments, rfl⟩ | ⟨statement, returnType, expression, rfl⟩
  · obtain ⟨rfl, expected, found, hexpected, hfound, hfits, rfl⟩ :=
      Rule.mem_misfits_initializer.mp hmem
    cases hadds
    cases hlets
    exact .initializer hnode hexpected hfound hfits
  · obtain ⟨rfl, l, r, hl, hr, hcases⟩ := Rule.mem_misfits_assignment.mp hmem
    rw [setting_tree h] at hcases
    cases hadds
    obtain ⟨rfl, rfl⟩ := hlets
    rcases hcases with ⟨hlvalue, hfits, rfl⟩ | ⟨hlvalue, rfl⟩
    · exact .assignment hnode hlvalue hl hr hfits
    · exact .target hnode hlvalue hl hr
  · obtain ⟨params, result, hcallee, rfl, hargument⟩ := Rule.mem_misfits_call.mp hmem
    cases hadds
    obtain ⟨rfl, rfl⟩ := hlets
    obtain ⟨_, explicit, given, _, hexplicit, hgiven, hchosen, htypes⟩ :=
      exists_of_ready_call h hready
    rw [hchosen, htypes] at hargument
    obtain ⟨position, expected, found, argument, hexpected, hfound, hplace, hfits, rfl⟩ :=
      Rule.exists_of_argumentFindings hargument
    rw [Nat.zero_add]
    exact .argument hnode hcallee hexplicit hgiven hplace hexpected hfound hfits
  · obtain ⟨rfl, expected, found, hexpected, hfound, hvoid, hfits, rfl⟩ :=
      Rule.mem_misfits_returnStatement.mp hmem
    cases hadds with
    | asked => cases hlets
    | exit henclosing hfunction =>
      obtain ⟨hstatement, openers, haround, hinner⟩ := around_of_exit hproper hmeets
      exact .result hstatement haround (hinner.symm.trans henclosing) hfunction hexpected hfound
        hvoid hfits

theorem asked_of_child (hproper : tree.Proper) (h : ofTree config tree = .ok preparation)
    {node : Node} (hnode : tree.node? id = some node) (hatom : node.isAtom = false)
    {child : NodeId} (hchild : child ∈ node.children) {type : Ty}
    (htype : preparation.final.view.type? child = some type) {rule : Rule}
    (hpart : ∀ expectation, .act (.add rule) ∈ tree.parts id node expectation) :
    .add rule ∈ preparation.commands := by
  obtain ⟨binder, hmeets⟩ := add_mem_of_child hproper h hnode hatom hchild htype hpart
  exact (add_mem_iff h).mpr ⟨binder, _, hmeets, .asked rule⟩

theorem mem_of_misfit (hproper : tree.Proper) (h : ofTree config tree = .ok preparation)
    (hmisfit : tree.Misfit ⟨preparation.final, preparation.binder.scopes⟩ value finding) :
    (value, finding) ∈ preparation.misfits := by
  have hassignment : ∀ {node left right l r}, tree.node? node = some (.assignment left right) →
      preparation.final.view.type? left = some l → preparation.final.view.type? right = some r →
      .add (.assignment node left right) ∈ preparation.commands ∧
        (Rule.assignment node left right).ready preparation.final.view := by
    intro node left right l r hnode hl hr
    refine ⟨asked_of_child hproper h hnode rfl List.mem_cons_self hl fun _ => ?_, ?_⟩
    · simp [parts, Part.plain, Part.add]
    · simp [Rule.ready, Rule.inputs, isSome_type h, hl, hr]
  rw [mem_misfits]
  cases hmisfit with
  | @initializer decl type _ name expected found hnode hexpected hfound hfits =>
    refine ⟨.initializer name type value, ?_, ?_, Rule.mem_misfits_initializer.mpr
      ⟨rfl, expected, found, hexpected, hfound, hfits, rfl⟩⟩
    · apply asked_of_child hproper h hnode rfl (List.mem_cons_of_mem _ List.mem_cons_self) hfound
      simp [parts, Part.plain, Part.add]
    · simp only [Analysis.valueOf?, Analysis.typeOf?] at hexpected hfound
      simp [Rule.ready, Rule.inputs, isSome_type h, isSome_value h, hexpected, hfound]
  | @assignment node left _ l r hnode hlvalue hl hr hfits =>
    obtain ⟨hadd, hready⟩ := hassignment hnode hl hr
    refine ⟨_, hadd, hready, Rule.mem_misfits_assignment.mpr ⟨rfl, l, r, hl, hr, ?_⟩⟩
    rw [setting_tree h]
    exact .inl ⟨hlvalue, hfits, rfl⟩
  | @target node left _ l r hnode hlvalue hl hr =>
    obtain ⟨hadd, hready⟩ := hassignment hnode hl hr
    refine ⟨_, hadd, hready, Rule.mem_misfits_assignment.mpr ⟨rfl, l, r, hl, hr, ?_⟩⟩
    rw [setting_tree h]
    exact .inr ⟨hlvalue, rfl⟩
  | @argument call function _ typeArgument arguments position params given result explicit expected
      found hnode hcallee hexplicit hgiven hplace hexpected hfound hfits =>
    refine ⟨.call call function typeArgument arguments, ?_, ?_, ?_⟩
    · apply asked_of_child hproper h hnode rfl List.mem_cons_self hcallee
      simp [parts, Part.add]
    · exact (ready_call h).mpr ⟨Option.isSome_of_eq_some hcallee,
        Option.isSome_of_eq_some hexplicit, Option.isSome_of_eq_some hgiven⟩
    · refine Rule.mem_misfits_call.mpr ⟨params, result, hcallee, rfl, ?_⟩
      have hmem := Rule.mem_argumentFindings 0 hexpected hfound hplace hfits
      have hchosen : typeArgument.bind preparation.final.view.value? = explicit :=
        Rule.bind_eq_of_mapM hexplicit
      have htypes : arguments.filterMap preparation.final.view.type? = given :=
        Rule.filterMap_eq_of_mapM hgiven
      rw [Nat.zero_add] at hmem
      rwa [hchosen, htypes]
  | @result statement _ function returnType body openers name template parameters expected found
      hstatement haround hinner hfunction hexpected hfound hvoid hfits =>
    refine ⟨.returnStatement statement returnType (some value), ?_, ?_,
      Rule.mem_misfits_returnStatement.mpr
        ⟨rfl, expected, found, hexpected, hfound, hvoid, hfits, rfl⟩⟩
    · have hpart : ∀ expectation, .act (.exit statement (some value)) ∈
          tree.parts statement (.returnStatement (some value)) expectation :=
        fun _ => by simp [parts]
      obtain ⟨binder, hmeets⟩ :=
        add_mem_of_child hproper h hstatement rfl List.mem_cons_self hfound hpart
      obtain ⟨_, others, haround', hsame⟩ := around_of_exit hproper hmeets
      cases hproper.unshared.around_unique haround haround' (Option.isSome_of_eq_some hstatement)
      exact (add_mem_iff h).mpr ⟨binder, _, hmeets, .exit (hsame.trans hinner) hfunction⟩
    · simp only [Analysis.valueOf?, Analysis.typeOf?] at hexpected hfound
      simp [Rule.ready, Rule.inputs, isSome_type h, isSome_value h, hexpected, hfound]

end Preparation

theorem Tree.Misfit.kind {tree : Tree} {analysis : Analysis} {value : NodeId} {finding : Finding}
    (h : tree.Misfit analysis value finding) : finding.kind = .typeMismatch ∨
      finding.kind = .invalidAssignmentTarget ∧
        tree.satisfies finding.node Node.isLvalue = false := by
  cases h with
  | target _ hlvalue => exact .inr ⟨rfl, hlvalue⟩
  | _ => exact .inl rfl

/-- In a tree whose nodes are reached by one path each, the values that do not fit the places into
which they flow are found fault with, once each, and no other findings are about such. -/
theorem misfits_found (config : Config) {tree : Tree} (hproper : tree.Proper) :
    ∃ analysis, Analysis.ofTree config tree = .ok analysis ∧
      ∃ misfits : List (NodeId × Finding), (misfits.map Prod.fst).Nodup ∧
        (∀ value finding, (value, finding) ∈ misfits ↔ tree.Misfit analysis value finding) ∧
        (∀ value finding, (value, finding) ∈ misfits → finding.kind = .typeMismatch ∨
          finding.kind = .invalidAssignmentTarget ∧
            tree.satisfies finding.node Node.isLvalue = false) ∧
        (analysis.findings.filter fun finding => finding.cause.isMisfit).Perm
          (misfits.map Prod.snd) := by
  obtain ⟨actions, hwalk⟩ := hproper.exists_walk
  obtain ⟨preparation, hprepared⟩ := Preparation.exists_of_walk hwalk config
  refine ⟨_, Analysis.ofTree_eq hprepared, preparation.misfits, ?_, ?_, ?_, ?_⟩
  · exact Preparation.nodup_misfits hproper hprepared
  · exact fun value finding => ⟨Preparation.misfit_of_mem hproper hprepared,
      Preparation.mem_of_misfit hproper hprepared⟩
  · exact fun value finding hmem => (Preparation.misfit_of_mem hproper hprepared hmem).kind
  · exact Preparation.findings_perm_misfits hprepared

/-- A flow of each sort that does not fit, and an argument that does. -/
def Tree.flowing : Tree where
  nodes := #[
    { node := .root [1, 4, 11, 15, 19, 23] },
    { node := .varDecl "count" 2 3 },
    { node := .simpleType "Int" },
    { node := .literal (.string "none") },
    { node := .funDecl "size" none [5] 7 8 },
    { node := .parameter "text" 6 },
    { node := .simpleType "String" },
    { node := .simpleType "Int" },
    { node := .block [9] },
    { node := .returnStatement (some 10) },
    { node := .reference "text" },
    { node := .expressionStatement 12 },
    { node := .assignment 13 14 },
    { node := .reference "count" },
    { node := .reference "true" },
    { node := .expressionStatement 16 },
    { node := .assignment 17 18 },
    { node := .literal (.int 1) },
    { node := .literal (.int 2) },
    { node := .expressionStatement 20 },
    { node := .call 21 none [22] },
    { node := .reference "size" },
    { node := .literal (.int 3) },
    { node := .expressionStatement 24 },
    { node := .call 25 none [26] },
    { node := .reference "size" },
    { node := .literal (.string "four") }]
  root := 0

theorem misfits_found_flowing : Tree.flowing.Proper ∧
    ∃ analysis, Analysis.ofTree {} Tree.flowing = .ok analysis ∧
      (∀ value ∈ [3, 14, 18, 22, 10], ∃ finding, Tree.flowing.Misfit analysis value finding ∧
        finding ∈ analysis.findings) ∧
      (analysis.findings.filter fun finding => finding.cause.isMisfit).length = 5 := by
  have hproper : Tree.flowing.Proper :=
    Tree.WellFormed.proper (show Tree.flowing.WellFormed by decide +kernel)
  obtain ⟨analysis, hanalysis, htest⟩ := Analysis.exists_of_any
    (show (Analysis.ofTree {} Tree.flowing).toOption.any (fun analysis =>
      (analysis.valueOf? 2).any (fun expected =>
        (analysis.typeOf? 3).any fun found => !found.assignable expected) &&
      (analysis.typeOf? 13).any (fun expected =>
        (analysis.typeOf? 14).any fun found => !found.assignable expected) &&
      (analysis.typeOf? 17).isSome && (analysis.typeOf? 18).isSome &&
      (analysis.typeOf? 21).any (fun callee => (analysis.typeOf? 22).any fun found =>
        !callee.params.isEmpty &&
          ((instantiate callee none [found]).callee.params[0]?).any fun expected =>
            !found.assignable expected) &&
      (analysis.valueOf? 7).any (fun expected => (analysis.typeOf? 10).any fun found =>
        !expected.isVoid && !found.assignable expected) &&
      (analysis.findings.filter fun finding => finding.cause.isMisfit).length = 5) = true
      by decide +kernel)
  simp only [Bool.and_eq_true, Option.any_eq_true, Bool.not_eq_true', decide_eq_true_eq,
    Option.isSome_iff_exists] at htest
  obtain ⟨⟨⟨⟨⟨⟨⟨expected, hexpected, found, hfound, hfits⟩,
    ⟨l, hl, r, hr, hassigned⟩⟩, ⟨one, hone⟩⟩, ⟨two, htwo⟩⟩,
    ⟨callee, hcallee, given, hgiven, hfunction, param, hparam, hpassed⟩⟩,
    ⟨returned, hreturned, result, hresult, hvoid, hexit⟩⟩, hcount⟩ := htest
  obtain ⟨_, hanalysis', misfits, _, hmisfits, _, hperm⟩ := misfits_found {} hproper
  cases Except.ok.inj (hanalysis.symm.trans hanalysis')
  have hmem : ∀ {value finding}, Tree.flowing.Misfit analysis value finding →
      finding ∈ analysis.findings := fun hmisfit => List.mem_of_mem_filter
    (hperm.symm.subset (List.mem_map_of_mem (f := Prod.snd) ((hmisfits _ _).mpr hmisfit)))
  refine ⟨hproper, analysis, hanalysis, ?_, hcount⟩
  have hinitializer := Tree.Misfit.initializer (show Tree.flowing.node? 1 = _ from rfl)
    hexpected hfound hfits
  have hassignment := Tree.Misfit.assignment (show Tree.flowing.node? 12 = _ from rfl)
    (by decide) hl hr hassigned
  have htarget := Tree.Misfit.target (show Tree.flowing.node? 16 = _ from rfl)
    (by decide) hone htwo
  have hargument : ∃ finding, Tree.flowing.Misfit analysis 22 finding := by
    cases callee with
    | function params output =>
      exact ⟨_, .argument (show Tree.flowing.node? 20 = _ from rfl) hcallee rfl
        (show [22].mapM analysis.typeOf? = some [given] by simp [hgiven]) rfl hparam rfl hpassed⟩
    | _ => cases hfunction
  have haround : Tree.flowing.Around 9 [8, 4, 0] :=
    .child (.child (.child .root (show Tree.flowing.node? 0 = _ from rfl) (by decide))
      (show Tree.flowing.node? 4 = _ from rfl) (by decide))
      (show Tree.flowing.node? 8 = _ from rfl) (by decide)
  have hresult := Tree.Misfit.result (show Tree.flowing.node? 9 = _ from rfl) haround
    (show _ = some 4 by decide) rfl hreturned hresult hvoid hexit
  obtain ⟨_, hargument⟩ := hargument
  simp only [List.forall_mem_cons]
  exact ⟨⟨_, hinitializer, hmem hinitializer⟩, ⟨_, hassignment, hmem hassignment⟩,
    ⟨_, htarget, hmem htarget⟩, ⟨_, hargument, hmem hargument⟩, ⟨_, hresult, hmem hresult⟩,
    fun _ hnil => absurd hnil List.not_mem_nil⟩

end Attribution
