import Attribution.Proofs.Analysis.BodyShape
import Attribution.Proofs.Ty.Replacement
/-!
# Empty arrays as arguments

An empty array that is passed to a call takes the type that the callee declares in its place, while
the call expects the type that it has made of the declared one. So an empty array does not fit just
where the declared type mentions the placeholder for which the call puts in something else.
-/
namespace Attribution

open Ty

/-- The instance of its callee by which a call goes, once its parts have types. -/
def Analysis.instanceFor? (analysis : Analysis) (function : NodeId) (typeArgument : Option NodeId)
    (arguments : List NodeId) : Option Instance := do
  let callee ← analysis.typeOf? function
  let explicit ← typeArgument.mapM analysis.valueOf?
  let given ← arguments.mapM analysis.typeOf?
  return instantiate callee explicit given

theorem Analysis.instanceFor?_eq {analysis : Analysis} {function : NodeId}
    {typeArgument : Option NodeId} {arguments : List NodeId} {callee : Ty} {explicit : Option Ty}
    {given : List Ty} (hcallee : analysis.typeOf? function = some callee)
    (hexplicit : typeArgument.mapM analysis.valueOf? = some explicit)
    (hgiven : arguments.mapM analysis.typeOf? = some given) :
    analysis.instanceFor? function typeArgument arguments =
      some (instantiate callee explicit given) := by
  rw [instanceFor?, hcallee, hexplicit, hgiven]
  rfl

namespace Node

def isCall : Node → Bool
  | call .. => true
  | _ => false

/-- The node can be found fault with by itself for a mismatch of types. -/
def isMismatched : Node → Bool
  | reference _ | assignment .. | returnStatement _ => true
  | _ => false

end Node

namespace Tree

variable {tree : Tree} {id function : NodeId}

theorem IsEmptyArray.not_isMismatched (h : tree.IsEmptyArray id) :
    tree.satisfies id Node.isMismatched = false := by
  cases h with
  | literal hnode => rw [satisfies, hnode]; rfl
  | parenthesized hnode => rw [satisfies, hnode]; rfl

theorem WellFormed.parent_eq (hwell : tree.WellFormed) {node node' : Node} {found child : NodeId}
    (hnode : tree.node? id = some node) (hnode' : tree.node? found = some node')
    (hchild : child ∈ node.children) (hchild' : child ∈ node'.children) : found = id := by
  obtain ⟨_, _, hleads⟩ := hwell.exists_leads hnode
  obtain ⟨_, _, hleads'⟩ := hwell.exists_leads hnode'
  obtain ⟨place, hplace⟩ := List.mem_iff_getElem?.mp hchild
  obtain ⟨place', hplace'⟩ := List.mem_iff_getElem?.mp hchild'
  exact (hwell.parent_unique hleads hnode hplace hleads' hnode' hplace').1

end Tree

theorem Rule.Accuses.argument_of_mismatch {id function argument : NodeId}
    {typeArgument : Option NodeId} {arguments : List NodeId} {cause : Cause}
    (h : (Rule.call id function typeArgument arguments).Accuses argument cause)
    (hkind : cause.kind = .typeMismatch) : cause.isMisfit ∧ argument ∈ arguments := by
  cases h with
  | argument hplace => exact ⟨rfl, List.mem_of_getElem? hplace⟩
  | _ => cases hkind

open Attribution.Tree Attribution.Part

namespace Preparation

variable {config : Config} {tree : Tree} {preparation : Preparation} {id function argument : NodeId}
  {expectation : Expectation} {typeArgument : Option NodeId} {arguments : List NodeId}

theorem mismatch_cases (h : ofTree config tree = .ok preparation) {rule : Rule}
    (hadd : .add rule ∈ preparation.commands) {cause : Cause}
    (haccuses : rule.Accuses argument cause) (hkind : cause.kind = .typeMismatch) :
    (∃ id function typeArgument arguments, rule = .call id function typeArgument arguments) ∨
      tree.satisfies argument Node.isMismatched ∨
      ∃ parent node, tree.node? parent = some node ∧ argument ∈ node.children ∧
        node.isCall = false := by
  obtain ⟨binder, action, hmeets, hadds⟩ := (add_mem_iff h).mp hadd
  obtain ⟨above, lent, node, _, hnode, hpart⟩ := hmeets.exists_node
  have hdoes := does_of_part hpart
  cases haccuses with
  | argument => exact .inl ⟨_, _, _, _, rfl⟩
  | assignment =>
    cases hadds
    cases hdoes
    exact .inr (.inl (satisfies_iff.mpr ⟨_, hnode, rfl⟩))
  | initializer =>
    cases hadds
    cases hdoes
    exact .inr (.inr ⟨above, _, hnode, by simp [Node.children], rfl⟩)
  | control =>
    cases hadds
    cases hdoes <;> exact .inr (.inr ⟨above, _, hnode, by simp [Node.children], rfl⟩)
  | returnWithoutValue | returnWithValue =>
    cases hadds with
    | asked => cases hdoes
    | exit =>
      cases hdoes
      exact .inr (.inl (satisfies_iff.mpr ⟨_, hnode, rfl⟩))
  | returnType =>
    cases hadds with
    | asked => cases hdoes
    | exit =>
      cases hdoes
      exact .inr (.inr ⟨above, _, hnode, by simp [Node.children], rfl⟩)
  | predicateAsValue =>
    cases hadds with
    | asked => cases hdoes
    | deferred =>
      cases hdoes
      exact .inr (.inl (satisfies_iff.mpr ⟨_, hnode, rfl⟩))
  | _ => cases hkind

namespace At

theorem ready_of_typed
    (h : At config tree preparation id expectation (.call function typeArgument arguments))
    {type : Ty} (htype : preparation.final.view.type? id = some type) :
    (Rule.call id function typeArgument arguments).ready preparation.final.view := by
  have hpart : .act (.add (.call id function typeArgument arguments)) ∈
      tree.parts id (.call function typeArgument arguments) expectation := by simp [parts, add]
  obtain ⟨value, hview, _⟩ := Option.bind_eq_some_iff.mp htype
  rw [h.view_of_add hpart rfl rfl, Rule.result?] at hview
  split at hview
  next hready => exact hready
  next => cases hview

theorem misfit_of_mismatch
    (h : At config tree preparation id expectation (.call function typeArgument arguments))
    (hargument : argument ∈ arguments) (hempty : tree.IsEmptyArray argument) {finding : Finding}
    (hfinding : finding ∈ preparation.final.findings) (hnode : finding.node = argument)
    (hkind : finding.kind = .typeMismatch) :
    (argument, finding) ∈ (Rule.call id function typeArgument arguments).misfits
      preparation.setting preparation.final.view := by
  have hself : ¬ tree.satisfies argument Node.isMismatched := by
    rw [hempty.not_isMismatched]
    exact Bool.false_ne_true
  have hchild : argument ∈ (Node.call function typeArgument arguments).children :=
    List.mem_append_right _ hargument
  subst hnode
  rcases mem_findings.mp hfinding with hreport | ⟨rule, hadd, hready, hmem⟩
  · obtain ⟨binder, action, hmeets, hact⟩ := exists_of_report h.prepared hreport
    rcases Binder.report_cases hact with ⟨name, _, heq | ⟨_, _, heq⟩⟩ | ⟨name, rfl, _⟩
    · rw [Finding.kind, heq] at hkind
      cases hkind
    · rw [Finding.kind, heq] at hkind
      cases hkind
    · obtain ⟨above, lent, node, _, hnode, hpart⟩ := hmeets.exists_node
      cases does_of_part hpart
      exact absurd (satisfies_iff.mpr ⟨_, hnode, rfl⟩) hself
  · have haccuses := Rule.accuses_effect _ _ _ finding hmem
    rcases mismatch_cases h.prepared hadd haccuses hkind with
      ⟨other, function', typeArgument', arguments', rfl⟩ | hmismatched |
      ⟨parent, node, hparent, hbelow, hcall⟩
    · have hother := node_of_add h.well h.prepared hadd rfl
      obtain ⟨hmisfit, hpassed⟩ := haccuses.argument_of_mismatch hkind
      obtain rfl := h.well.parent_eq h.node hother hchild (List.mem_append_right _ hpassed)
      cases h.node.symm.trans hother
      exact Rule.mem_misfits.mpr ⟨hmem, hmisfit, rfl⟩
    · exact absurd hmismatched hself
    · obtain rfl := h.well.parent_eq h.node hparent hchild hbelow
      cases h.node.symm.trans hparent
      cases hcall

/-- An empty array has the type that the callee declares, and does not fit just if this cannot be
assigned to the type that the call expects. -/
theorem reports_mismatch_iff
    (h : At config tree preparation id expectation (.call function typeArgument arguments))
    {params given : List Ty} {result : Ty} {explicit : Option Ty}
    (hcallee : preparation.final.view.type? function = some (.function params result))
    (hexplicit : typeArgument.mapM preparation.final.view.value? = some explicit)
    (hgiven : arguments.mapM preparation.final.view.type? = some given) {place : Nat}
    (hplace : arguments[place]? = some argument) (hempty : tree.IsEmptyArray argument)
    {expected : Ty} (hexpected :
      (instantiate (.function params result) explicit given).callee.params[place]? =
        some expected) :
    ∃ declared, params[place]? = some declared ∧
      preparation.final.view.type? argument = some declared ∧
      (preparation.analysis.Reports argument .typeMismatch ↔
        declared.assignable expected = false) := by
  have hready : (Rule.call id function typeArgument arguments).ready preparation.final.view :=
    (ready_call h.prepared).mpr ⟨Option.isSome_of_eq_some hcallee,
      Option.isSome_of_eq_some hexplicit, Option.isSome_of_eq_some hgiven⟩
  have hchosen : typeArgument.bind preparation.final.view.value? = explicit :=
    Rule.bind_eq_of_mapM hexplicit
  have htypes : arguments.filterMap preparation.final.view.type? = given :=
    Rule.filterMap_eq_of_mapM hgiven
  obtain ⟨component, hparam⟩ := h.placed_of_ready hcallee hready place argument hplace hempty
  have hparam : params[place]? = some (.array component) := hparam
  have htype : preparation.final.view.type? argument = some (.array component) := by
    rw [Rule.type?_of_view (h.view_type_argument hcallee hplace hempty), Ty.params, hparam]
    rfl
  have hfound : given[place]? = some (.array component) := by
    rw [Rule.getElem?_of_mapM hgiven, hplace, Option.bind_some, htype]
  refine ⟨.array component, hparam, htype, ?_⟩
  constructor
  · rintro ⟨finding, hfinding, hnode, hkind⟩
    have hmisfit := h.misfit_of_mismatch (List.mem_of_getElem? hplace) hempty hfinding hnode hkind
    obtain ⟨params', result', hcallee', hself, hmem⟩ := Rule.mem_misfits_call.mp hmisfit
    cases hcallee.symm.trans hcallee'
    rw [hchosen, htypes] at hmem
    obtain ⟨other, param, found, argument', hparam', hfound', hplace', hfits, rfl⟩ :=
      Rule.exists_of_argumentFindings hmem
    -- the argument stands in one place of the call only
    obtain ⟨_, _, hleads⟩ := h.well.exists_leads h.node
    cases hself
    obtain ⟨_, hsame⟩ := h.well.parent_unique hleads h.node (Node.getElem?_children_call hplace)
      hleads h.node (Node.getElem?_children_call hplace')
    obtain rfl : other = place := Nat.add_left_cancel hsame
    cases hfound.symm.trans hfound'
    cases hexpected.symm.trans hparam'
    exact hfits
  · intro hfits
    have hmem := Rule.mem_argumentFindings 0 hexpected hfound hplace hfits
    rw [← hchosen, ← htypes] at hmem
    have hmisfit : (argument, _) ∈ (Rule.call id function typeArgument arguments).misfits
        preparation.setting preparation.final.view :=
      Rule.mem_misfits_call.mpr ⟨params, result, hcallee, rfl, hmem⟩
    exact ⟨_, mem_findings_of_rule h.call_mem hready (Rule.mem_misfits.mp hmisfit).1, rfl, rfl⟩

end At

end Preparation

/-- A parameter that can be assigned to itself once the call has made a type of it takes the type
that is declared for it, unless something else than the placeholder itself is put in. -/
theorem assignable_instance_iff {params given : List Ty} {result : Ty} {explicit : Option Ty}
    {place : Nat} {declared expected : Ty} (hdeclared : params[place]? = some declared)
    (hexpected : (instantiate (.function params result) explicit given).callee.params[place]? =
      some expected) (hvalue : expected.innermost.isVoid = false) :
    declared.assignable expected = false ↔ ∃ p concrete,
      (instantiate (.function params result) explicit given).binding = some (p, concrete) ∧
        declared.Mentions p ∧ ¬ concrete.same (.generic p) := by
  cases hbinding : (instantiate (.function params result) explicit given).binding with
  | none =>
    rw [callee_of_unbound hbinding, Ty.params, hdeclared] at hexpected
    cases hexpected
    simp [assignable_self, hvalue]
  | some bound =>
    obtain ⟨p, concrete⟩ := bound
    rw [callee_of_bound hbinding, Ty.substitute, Ty.params, substituteAll_eq_map,
      List.getElem?_map, hdeclared] at hexpected
    cases hexpected
    have hfits := @assignable_substitute_iff p concrete declared
    rw [same_substitute_iff] at hfits
    rw [← Bool.not_eq_true, hfits]
    simp only [hvalue, true_and, Classical.not_imp, Option.some.injEq, Prod.mk.injEq]
    constructor
    · rintro ⟨hmentions, hother⟩
      exact ⟨p, concrete, ⟨rfl, rfl⟩, hmentions, hother⟩
    · rintro ⟨_, _, ⟨rfl, rfl⟩, hmentions, hother⟩
      exact ⟨hmentions, hother⟩

/-- An empty array at which a call expects an array of values is found not to fit just if the type
that is declared in its place mentions the placeholder and the call puts in another type for it. -/
theorem empty_arguments_fit (config : Config) {tree : Tree} (hwell : tree.WellFormed) :
    ∃ analysis, Analysis.ofTree config tree = .ok analysis ∧
      ∀ id function typeArgument arguments type,
        tree.node? id = some (.call function typeArgument arguments) →
        analysis.typeOf? id = some type →
        ∃ params result found, analysis.typeOf? function = some (.function params result) ∧
          analysis.instanceFor? function typeArgument arguments = some found ∧
          ∀ (place : Nat) argument expected, arguments[place]? = some argument →
            tree.IsEmptyArray argument → found.callee.params[place]? = some expected →
            expected.isArray → expected.innermost.isVoid = false →
            ∃ declared, params[place]? = some declared ∧
              analysis.typeOf? argument = some declared ∧
              (analysis.Reports argument .typeMismatch ↔ ∃ p concrete,
                found.binding = some (p, concrete) ∧ declared.Mentions p ∧
                  ¬ concrete.same (.generic p)) := by
  obtain ⟨preparation, hprepared⟩ := Preparation.exists_ofTree hwell config
  refine ⟨preparation.analysis, Analysis.ofTree_eq hprepared, ?_⟩
  intro id function typeArgument arguments type hnode htype
  obtain ⟨expectation, hat⟩ := Preparation.at_of_node hwell hprepared hnode rfl
  obtain ⟨params, result, _, _, hcallee, _⟩ := hat.typed_call htype
  obtain ⟨_, explicit, given, _, hexplicit, hgiven, _⟩ :=
    Preparation.exists_of_ready_call hprepared (hat.ready_of_typed htype)
  have hfound : preparation.analysis.instanceFor? function typeArgument arguments =
      some (instantiate (.function params result) explicit given) :=
    Analysis.instanceFor?_eq hcallee hexplicit hgiven
  refine ⟨params, result, _, hcallee, hfound, ?_⟩
  intro place argument expected hplace hempty hexpected _ hvalue
  obtain ⟨declared, hdeclared, hargument, hreports⟩ :=
    hat.reports_mismatch_iff hcallee hexplicit hgiven hplace hempty hexpected
  refine ⟨declared, hdeclared, hargument, ?_⟩
  rw [hreports, assignable_instance_iff hdeclared hexpected hvalue]

/-- A template for a value and an array of such is called twice with an integer and an empty array.
The second call writes the type. -/
def Tree.gathering : Tree where
  nodes := #[
    { node := .root [1, 12, 17] },
    { node := .funDecl "f" (some 2) [3, 5] 8 9 },
    { node := .templateParam "T" },
    { node := .parameter "x" 4 },
    { node := .simpleType "T" },
    { node := .parameter "xs" 6 },
    { node := .arrayType 7 },
    { node := .simpleType "T" },
    { node := .simpleType "T" },
    { node := .block [10] },
    { node := .returnStatement (some 11) },
    { node := .reference "x" },
    { node := .expressionStatement 13 },
    { node := .call 14 none [15, 16] },
    { node := .reference "f" },
    { node := .literal (.int 1) },
    { node := .arrayLiteral [] },
    { node := .expressionStatement 18 },
    { node := .call 19 (some 20) [21, 22] },
    { node := .reference "f" },
    { node := .simpleType "Int" },
    { node := .literal (.int 1) },
    { node := .arrayLiteral [] }]
  root := 0

theorem wellFormed_gathering : Tree.gathering.WellFormed := by decide +kernel

/-- A call expects an array of integers in the second place. -/
def Analysis.expectsIntegers (analysis : Analysis) (function : NodeId)
    (typeArgument : Option NodeId) (arguments : List NodeId) : Bool :=
  (analysis.instanceFor? function typeArgument arguments).any fun found =>
    found.callee.params[1]?.any fun expected => expected.same (.array .int)

theorem calls_gathering : ∃ analysis, Analysis.ofTree {} Tree.gathering = .ok analysis ∧
    (analysis.typeOf? 13).isSome ∧ analysis.expectsIntegers 14 none [15, 16] ∧
    (analysis.typeOf? 18).isSome ∧ analysis.expectsIntegers 19 (some 20) [21, 22] ∧
    analysis.findings.map (fun finding => (finding.node, finding.kind)) =
      [(16, .typeMismatch), (22, .typeMismatch)] := by
  obtain ⟨analysis, hanalysis, htest⟩ := Analysis.exists_of_any
    (show (Analysis.ofTree {} Tree.gathering).toOption.any (fun analysis =>
      (analysis.typeOf? 13).isSome && analysis.expectsIntegers 14 none [15, 16] &&
      (analysis.typeOf? 18).isSome && analysis.expectsIntegers 19 (some 20) [21, 22] &&
      decide (analysis.findings.map (fun finding => (finding.node, finding.kind)) =
        [(16, .typeMismatch), (22, .typeMismatch)])) = true by decide +kernel)
  simp only [Bool.and_eq_true, decide_eq_true_eq] at htest
  obtain ⟨⟨⟨⟨hfirst, hexpected⟩, hsecond⟩, hexpected'⟩, hfindings⟩ := htest
  exact ⟨analysis, hanalysis, hfirst, hexpected, hsecond, hexpected', hfindings⟩

/-- The first of the two empty arrays does not fit, so the call puts in something for a placeholder
that the declared type mentions. -/
theorem empty_arguments_fit_gathering : Tree.gathering.WellFormed ∧
    ∃ analysis found declared p concrete, Analysis.ofTree {} Tree.gathering = .ok analysis ∧
      analysis.instanceFor? 14 none [15, 16] = some found ∧
      analysis.typeOf? 16 = some declared ∧ found.binding = some (p, concrete) ∧
      declared.Mentions p ∧ ¬ concrete.same (.generic p) := by
  obtain ⟨analysis, hanalysis, hcalls⟩ := empty_arguments_fit {} wellFormed_gathering
  obtain ⟨_, hanalysis', htyped, hexpects, _, _, hfindings⟩ := calls_gathering
  cases Except.ok.inj (hanalysis.symm.trans hanalysis')
  obtain ⟨type, htype⟩ := Option.isSome_iff_exists.mp htyped
  obtain ⟨_, _, found, _, hfound, hfits⟩ := hcalls 13 14 none [15, 16] type rfl htype
  rw [Analysis.expectsIntegers, hfound, Option.any_some, Option.any_eq_true] at hexpects
  obtain ⟨expected, hexpected, hsame⟩ := hexpects
  obtain ⟨component, rfl⟩ : ∃ component, expected = .array component := by
    cases expected with
    | array component => exact ⟨component, rfl⟩
    | _ => cases hsame
  have hcomponent : Ty.int.same component := (same_comm .int component).trans hsame
  cases Ty.eq_of_same rfl hcomponent
  obtain ⟨declared, _, hdeclared, hreports⟩ :=
    hfits 1 16 _ rfl (.literal rfl) hexpected rfl rfl
  have hmismatch : analysis.Reports 16 .typeMismatch := by
    rw [Analysis.reports_iff, hfindings]
    exact List.mem_cons_self
  obtain ⟨p, concrete, hbinding, hmentions, hother⟩ := hreports.mp hmismatch
  exact ⟨wellFormed_gathering, analysis, found, declared, p, concrete, hanalysis, hfound, hdeclared,
    hbinding, hmentions, hother⟩

/-- The calls expect arrays of integers, and refuse empty arrays there, whether the type is written
or not. -/
theorem empty_arguments_refused : Tree.gathering.WellFormed ∧
    ∃ analysis, Analysis.ofTree {} Tree.gathering = .ok analysis ∧
      Tree.gathering.IsEmptyArray 16 ∧ (analysis.typeOf? 13).isSome ∧
      analysis.expectsIntegers 14 none [15, 16] ∧ analysis.Reports 16 .typeMismatch ∧
      Tree.gathering.IsEmptyArray 22 ∧ (analysis.typeOf? 18).isSome ∧
      analysis.expectsIntegers 19 (some 20) [21, 22] ∧ analysis.Reports 22 .typeMismatch := by
  obtain ⟨analysis, hanalysis, hfirst, hexpected, hsecond, hexpected', hfindings⟩ := calls_gathering
  refine ⟨wellFormed_gathering, analysis, hanalysis, .literal rfl, hfirst, hexpected, ?_,
    .literal rfl, hsecond, hexpected', ?_⟩
  · rw [Analysis.reports_iff, hfindings]
    exact List.mem_cons_self
  · rw [Analysis.reports_iff, hfindings]
    exact List.mem_cons_of_mem _ List.mem_cons_self

end Attribution
