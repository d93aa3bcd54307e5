import Attribution.Proofs.Analysis.Deadlock
import Attribution.Proofs.Analysis.Flows
import Attribution.Proofs.Checker.Agreement
import Attribution.Proofs.Tree.Control
/-!
# Return flags

The flag of a statement tells exactly whether control leaves the function by each path through the
statement, whatever else is wrong with the tree. A function whose return type is not `Void` is found
fault with, once, exactly if control can fall off the end of its body.
-/
namespace Attribution

namespace Tree

variable {tree : Tree} {view : View} {id : NodeId} {ids : List NodeId}

/-- The flag of a statement, if it carries one, is there, and tells whether control cannot run
through the statement. -/
def Tells (tree : Tree) (view : View) (id : NodeId) : Prop :=
  tree.satisfies id Node.isReturnContainer →
    ∃ flag, view.returns? id = some flag ∧ (flag = true ↔ ¬ tree.FallsThrough [id])

theorem isSome_returns_of_tells (h : ∀ id ∈ ids, tree.Tells view id) :
    ((tree.returnContainers ids).map Cell.returns).all fun cell => (view cell).isSome := by
  rw [List.all_map, List.all_eq_true]
  intro id hid
  obtain ⟨hmem, hcontainer⟩ := List.mem_filter.mp hid
  obtain ⟨flag, hflag, _⟩ := h id hmem hcontainer
  exact Option.isSome_of_isSome_bind (Option.isSome_of_eq_some hflag)

theorem Tells.not_fallsThrough (h : tree.Tells view id)
    (hstatement : tree.satisfies id Node.isStatement) : ¬ tree.FallsThrough [id] ↔
      tree.satisfies id Node.isReturnContainer ∧ view.returns? id = some true := by
  cases hcontainer : tree.satisfies id Node.isReturnContainer with
  | true =>
    obtain ⟨flag, hflag, hiff⟩ := h hcontainer
    rw [← hiff, hflag]
    simp
  | false =>
    have hfalls := fallsThrough_of_statement hstatement hcontainer
    simp [hfalls]

theorem any_returns_iff (hstatements : ∀ id ∈ ids, tree.satisfies id Node.isStatement)
    (h : ∀ id ∈ ids, tree.Tells view id) :
    ((tree.returnContainers ids).any fun id => view.returns? id = some true) = true ↔
      ¬ tree.FallsThrough ids := by
  rw [fallsThrough_iff, List.any_eq_true]
  push Not
  constructor
  · intro ⟨id, hid, hflag⟩
    obtain ⟨hmem, hcontainer⟩ := List.mem_filter.mp hid
    exact ⟨id, hmem, ((h id hmem).not_fallsThrough (hstatements id hmem)).mpr
      ⟨hcontainer, of_decide_eq_true hflag⟩⟩
  · intro ⟨id, hmem, hleaves⟩
    obtain ⟨hcontainer, hflag⟩ :=
      ((h id hmem).not_fallsThrough (hstatements id hmem)).mp hleaves
    exact ⟨id, List.mem_filter.mpr ⟨hmem, hcontainer⟩, decide_eq_true hflag⟩

theorem all_returns_iff {thenBranch : NodeId} {elseBranch : Option NodeId}
    (hstatements : ∀ id ∈ thenBranch :: elseBranch.toList, tree.satisfies id Node.isStatement)
    (h : ∀ id ∈ thenBranch :: elseBranch.toList, tree.Tells view id) :
    let containers := tree.returnContainers (thenBranch :: elseBranch.toList)
    (containers.length = 2 && containers.all fun id => view.returns? id = some true) = true ↔
      ¬ (tree.FallsThrough [thenBranch] ∨ tree.FallsThrough elseBranch.toList) := by
  have hthen := (h thenBranch List.mem_cons_self).not_fallsThrough
    (hstatements thenBranch List.mem_cons_self)
  cases elseBranch with
  | none =>
    cases hfirst : tree.satisfies thenBranch Node.isReturnContainer <;>
      simp [returnContainers, hfirst, fallsThrough_nil]
  | some other =>
    have hmem : other ∈ thenBranch :: (some other).toList :=
      List.mem_cons_of_mem _ List.mem_cons_self
    have helse := (h other hmem).not_fallsThrough (hstatements other hmem)
    rw [not_or, Option.toList_some, hthen, helse]
    cases hfirst : tree.satisfies thenBranch Node.isReturnContainer <;>
      cases hsecond : tree.satisfies other Node.isReturnContainer <;>
        simp [returnContainers, hfirst, hsecond]

end Tree

open Attribution.Tree Attribution.Binder Attribution.Part

namespace Preparation

variable {config : Config} {tree : Tree} {preparation : Preparation} {id : NodeId}

theorem tells_of_view {flag : Bool}
    (hview : preparation.final.view (.returns id) = some (.flag flag))
    (h : flag = true ↔ ¬ tree.FallsThrough [id]) : tree.Tells preparation.final.view id := by
  intro _
  refine ⟨flag, ?_, h⟩
  rw [View.returns?, hview]
  rfl

/-- The flags of a statement follow from those of the statements below. -/
theorem tells (hwell : tree.WellFormed) (h : ofTree config tree = .ok preparation) (id : NodeId) :
    tree.Tells preparation.final.view id := by
  intro hkind
  obtain ⟨node, hnode, _⟩ := satisfies_iff.mp hkind
  obtain ⟨path, expectation, hleads⟩ := hwell.exists_leads hnode
  refine hwell.acyclic.induction_below hwell.closed
    (fun id _ => tree.Tells preparation.final.view id) ?_ hleads hkind
  clear hleads hnode hkind
  intro path id expectation node hleads hnode hbelow
  have hchildren : ∀ child ∈ node.children, tree.Tells preparation.final.view child := by
    intro child hchild
    obtain ⟨lent, hmem⟩ : ∃ lent, (child, lent) ∈ node.offspring id expectation :=
      mem_offspring_of_children hchild
    exact hbelow child lent hmem
  have hfits := hwell.fits _ _ hnode
  have hat := at_of_leads hwell h hleads hnode
  cases node with
  | block statements =>
    have hpart : .act (.add (.blockReturns id (tree.returnContainers statements))) ∈
        tree.parts id (.block statements) expectation := by simp [parts, add]
    have hview := (hat rfl).view_of_add hpart rfl rfl
    have hready : Rule.ready (.blockReturns id (tree.returnContainers statements))
        preparation.final.view := isSome_returns_of_tells hchildren
    rw [Rule.result?, if_pos hready] at hview
    refine tells_of_view hview ?_
    rw [fallsThrough_block hnode]
    exact any_returns_iff hfits hchildren
  | conditional condition thenBranch elseBranch =>
    have hpart : .act (.add (.ifReturns id
        (tree.returnContainers (thenBranch :: elseBranch.toList)))) ∈
        tree.parts id (.conditional condition thenBranch elseBranch) expectation := by
      simp [parts, add]
    have hview := (hat rfl).view_of_add hpart rfl rfl
    have hbranches : ∀ id ∈ thenBranch :: elseBranch.toList,
        tree.Tells preparation.final.view id :=
      fun _ hid => hchildren _ (List.mem_cons_of_mem _ hid)
    have hready : Rule.ready (.ifReturns id (tree.returnContainers
        (thenBranch :: elseBranch.toList))) preparation.final.view :=
      isSome_returns_of_tells hbranches
    rw [Rule.result?, if_pos hready] at hview
    refine tells_of_view hview ?_
    rw [fallsThrough_conditional hnode]
    exact all_returns_iff hfits.2 hbranches
  | returnStatement expression =>
    have hpart : .act (.add (.returnReturns id)) ∈
        tree.parts id (.returnStatement expression) expectation := by simp [parts, add]
    have hview := (hat rfl).view_of_add hpart rfl rfl
    have hleaves := not_fallsThrough_return hnode
    exact tells_of_view hview (iff_of_true rfl hleaves)
  | _ =>
    intro hkind
    obtain ⟨found, hfound, hkind⟩ := satisfies_iff.mp hkind
    cases hnode.symm.trans hfound
    cases hkind

end Preparation

/-- Control can fall off the end of a function that has to return something, and what is to be found
then. -/
inductive Tree.FallsOff (tree : Tree) (analysis : Analysis) : Finding → Prop
  | function {function returnType body : NodeId} {name : String} {template : Option NodeId}
      {parameters : List NodeId} {type : Ty} :
    tree.node? function = some (.funDecl name template parameters returnType body) →
    analysis.valueOf? returnType = some type → type.isVoid = false → tree.FallsThrough [body] →
      FallsOff tree analysis { node := function, cause := .missingReturn name }

namespace Rule

/-- The function whose body a rule checks. -/
def checked? : Rule → Option NodeId
  | missingReturn function _ _ => some function
  | _ => none

variable {rule : Rule} {setting : Setting} {view : View} {finding : Finding}

theorem Accuses.eq_of_missingReturn {node : NodeId} {cause : Cause} (h : rule.Accuses node cause)
    (hkind : cause.kind = .missingReturn) :
    ∃ body returnType, rule = .missingReturn node body returnType := by
  cases h with
  | missingReturn => exact ⟨_, _, rfl⟩
  | _ => cases hkind

theorem mem_missingReturn {function body returnType : NodeId} :
    finding ∈ (effect setting (.missingReturn function body returnType) view).findings ↔
      view.returns? body = some false ∧
        ∃ type, view.value? returnType = some type ∧ type.isVoid = false ∧
          finding = { node := function, cause :=
            .missingReturn ((setting.tree.declaredName? function).getD "?") } := by
  rw [effect]
  cases hreturns : view.returns? body with
  | none => simp [Effect.nothing]
  | some returns =>
    cases hvalue : view.value? returnType with
    | none => simp [Effect.nothing]
    | some type =>
      cases returns <;> cases hvoid : type.isVoid <;>
        simp [Effect.findIf, Effect.find, Effect.nothing, hvoid]

theorem missingReturn_sublist (setting : Setting) (rule : Rule) (view : View) :
    (((effect setting rule view).findings.filter fun finding =>
      finding.kind = .missingReturn).map Finding.node).Sublist rule.checked?.toList := by
  by_cases hchecks : ∃ function body returnType, rule = .missingReturn function body returnType
  · obtain ⟨function, body, returnType, rfl⟩ := hchecks
    simp only [effect]
    split
    next returns type _ _ =>
      cases h : !returns && !type.isVoid <;>
        simp [Effect.findIf, Effect.find, Effect.nothing, checked?, Finding.kind, Cause.kind]
    next => exact List.nil_sublist _
  · have hnone : ((effect setting rule view).findings.filter fun finding =>
        finding.kind = .missingReturn) = [] := by
      rw [List.filter_eq_nil_iff]
      intro finding hfinding hkind
      obtain ⟨body, returnType, hrule⟩ := (accuses_effect setting rule view finding
        hfinding).eq_of_missingReturn (of_decide_eq_true hkind)
      exact hchecks ⟨_, body, returnType, hrule⟩
    rw [hnone]
    exact List.nil_sublist _

end Rule

def Command.checked : Command Rule → List NodeId
  | add rule => rule.checked?.toList
  | _ => []

def Action.checked? : Action → Option NodeId
  | add rule => rule.checked?
  | _ => none

namespace Tree

variable {tree : Tree} {id : NodeId} {expectation : Expectation} {node : Node}

theorem function_of_checked {function body returnType : NodeId}
    (h : .act (.add (.missingReturn function body returnType)) ∈ tree.parts id node expectation) :
    function = id ∧ ∃ name template parameters,
      node = .funDecl name template parameters returnType body := by
  cases does_of_part h
  exact ⟨rfl, _, _, _, rfl⟩

theorem checked_sublist (node : Node) :
    ((tree.actions id expectation node).filterMap Action.checked?).Sublist [id] := by
  by_cases hsome : ∃ action ∈ tree.actions id expectation node, action.checked?.isSome
  · obtain ⟨action, haction, hchecked⟩ := hsome
    have hpart := mem_actions.mp haction
    cases action with
    | add rule =>
      cases rule with
      | missingReturn function body returnType =>
        obtain ⟨_, name, template, parameters, rfl⟩ := function_of_checked hpart
        have hparameters : (parameters.map plain).filterMap action? = [] := by
          rw [List.filterMap_map]
          exact List.filterMap_eq_nil_iff.mpr fun _ _ => rfl
        rw [actions, parts, List.filterMap_append, List.filterMap_append, List.filterMap_append,
          hparameters]
        cases template <;> exact List.Sublist.refl [id]
      | _ => cases hchecked
    | _ => cases hchecked
  · have hnil : (tree.actions id expectation node).filterMap Action.checked? = [] := by
      rw [List.filterMap_eq_nil_iff]
      intro action haction
      by_contra hne
      exact hsome ⟨action, haction, Option.isSome_iff_ne_none.mpr hne⟩
    rw [hnil]
    exact List.nil_sublist _

end Tree

namespace Binder

variable {tree : Tree} {policy : DuplicatePolicy}

theorem sublist_checked_act (binder : Binder) (action : Action) :
    ((binder.act tree policy action).2.flatMap Command.checked).Sublist
      action.checked?.toList := by
  cases action with
  | declare name decl =>
    rw [act, flatMap_of_declare fun _ => rfl]
    exact List.nil_sublist _
  | useName node name =>
    simp only [act, useName]
    split
    · rw [bound]
      split <;> exact List.Sublist.refl _
    · exact List.Sublist.refl _
  | exit node expression =>
    simp only [act, exits]
    split <;> exact List.Sublist.refl _
  | add rule =>
    change (rule.checked?.toList ++ []).Sublist rule.checked?.toList
    rw [List.append_nil]
  | _ => exact List.Sublist.refl _

end Binder

namespace Preparation

variable {config : Config} {tree : Tree} {preparation : Preparation} {finding : Finding}

theorem nodup_checked (hunshared : tree.Unshared) (h : ofTree config tree = .ok preparation) :
    (preparation.commands.flatMap Command.checked).Nodup := by
  obtain ⟨actions, hwalk, _, hcommands, _⟩ := ofTree_eq_ok h
  have hbuiltin : (Builtin.all.flatMap Builtin.commands).flatMap Command.checked = [] := rfl
  rw [hcommands, List.flatMap_append, hbuiltin, List.nil_append]
  refine (sublist_actAll sublist_checked_act _ _).nodup ?_
  rw [← List.filterMap_eq_flatMap_toList]
  exact hunshared.nodup_filterMap hwalk fun _ _ node => checked_sublist node

theorem kind_of_report (h : ofTree config tree = .ok preparation)
    (hreport : .report finding ∈ preparation.commands) : finding.kind ≠ .missingReturn := by
  intro hkind
  have hcause : finding.cause.isReported = false := Cause.isReported_of_kind <| by
    rw [show finding.cause.kind = .missingReturn from hkind]
    rfl
  rw [isReported_of_report h hreport] at hcause
  cases hcause

/-- A missing return is found once in a function. -/
theorem nodup_missingReturn (hunshared : tree.Unshared)
    (h : ofTree config tree = .ok preparation) :
    ((preparation.final.findings.filter fun finding =>
      finding.kind = .missingReturn).map Finding.node).Nodup := by
  rw [((preparation.findings_perm.filter _).map _).nodup_iff]
  refine List.Sublist.nodup ?_ (nodup_checked hunshared h)
  rw [List.filter_flatMap, List.map_flatMap]
  apply List.Sublist.flatMap_right
  intro command hcommand
  cases command with
  | set => exact List.nil_sublist _
  | report finding =>
    have hkind := kind_of_report h hcommand
    simp [Command.findings, hkind]
  | add rule =>
    simp only [Command.findings]
    split
    · exact List.nil_sublist _
    · exact rule.missingReturn_sublist _ _

theorem mem_findings_iff_fallsOff (hwell : tree.WellFormed)
    (h : ofTree config tree = .ok preparation) :
    finding ∈ preparation.final.findings ∧ finding.kind = .missingReturn ↔
      tree.FallsOff ⟨preparation.final, preparation.binder.scopes⟩ finding := by
  constructor
  · intro ⟨hfinding, hkind⟩
    obtain ⟨rule, hadd, hready, hmem⟩ := exists_rule_of_kind h hfinding hkind rfl
    obtain ⟨body, returnType, rfl⟩ :=
      (Rule.accuses_effect _ _ _ finding hmem).eq_of_missingReturn hkind
    obtain ⟨hreturns, type, htype, hvoid, heq⟩ := Rule.mem_missingReturn.mp hmem
    obtain ⟨binder, action, hmeets, hadds⟩ := (add_mem_iff h).mp hadd
    cases hadds
    obtain ⟨id, expectation, node, _, hnode, hpart⟩ := hmeets.exists_node
    obtain ⟨rfl, name, template, parameters, rfl⟩ := function_of_checked hpart
    have hname : preparation.setting.tree.declaredName? finding.node = some name := by
      rw [setting_tree h, declaredName?, hnode]
    obtain ⟨_, _, _, hblock⟩ := hwell.fits _ _ hnode
    obtain ⟨flag, hflag, hiff⟩ := tells hwell h body
      (satisfies_mono hblock Node.isReturnContainer_of_isBlock)
    cases Option.some.inj (hreturns.symm.trans hflag)
    rw [heq, hname]
    exact .function hnode htype hvoid (by simpa using hiff)
  · intro hfallsOff
    cases hfallsOff with
    | @function function returnType body name template parameters type hnode htype hvoid hfalls =>
      obtain ⟨_, _, _, hblock⟩ := hwell.fits _ _ hnode
      obtain ⟨flag, hflag, hiff⟩ := tells hwell h body
        (satisfies_mono hblock Node.isReturnContainer_of_isBlock)
      have hfalse : flag = false := by simpa [hfalls] using hiff
      have hreturns : preparation.final.view.returns? body = some false := hfalse ▸ hflag
      obtain ⟨expectation, hat⟩ := at_of_node hwell h hnode rfl
      have hadd : .add (.missingReturn function body returnType) ∈ preparation.commands :=
        hat.add_mem (by simp [parts, add])
      have hready : Rule.ready (.missingReturn function body returnType)
          preparation.final.view := by
        have hvalue : (preparation.final.view (.value returnType)).isSome :=
          Option.isSome_of_isSome_bind (Option.isSome_of_eq_some htype)
        have hbody : (preparation.final.view (.returns body)).isSome :=
          Option.isSome_of_isSome_bind (Option.isSome_of_eq_some hreturns)
        simp [Rule.ready, Rule.inputs, hbody, hvalue]
      have hname : preparation.setting.tree.declaredName? function = some name := by
        rw [setting_tree h, declaredName?, hnode]
      refine ⟨mem_findings_of_rule hadd hready ?_, rfl⟩
      exact Rule.mem_missingReturn.mpr ⟨hreturns, type, htype, hvoid, by rw [hname]; rfl⟩

end Preparation

/-- In a well-formed tree, whatever else is wrong with it, every block, conditional and return
statement has a flag, which is set exactly if no path through the statement falls off its end. A
return is found missing, once, exactly in the functions whose return type is known and not `Void`
and whose body has a path that falls off its end. -/
theorem returns_exact (config : Config) {tree : Tree} (hwell : tree.WellFormed) :
    ∃ analysis, Analysis.ofTree config tree = .ok analysis ∧
      (∀ id, tree.satisfies id Node.isReturnContainer → ∃ flag,
        analysis.returnsOf? id = some flag ∧
          (flag = true ↔ ¬ ∃ steps, tree.Runs [id] steps .falls)) ∧
      ((analysis.findings.filter fun finding =>
        finding.kind = .missingReturn).map Finding.node).Nodup ∧
      ∀ finding, finding ∈ analysis.findings ∧ finding.kind = .missingReturn ↔
        tree.FallsOff analysis finding := by
  obtain ⟨preparation, hprepared⟩ := Preparation.exists_ofTree hwell config
  exact ⟨_, Analysis.ofTree_eq hprepared, Preparation.tells hwell hprepared,
    Preparation.nodup_missingReturn hwell.unshared hprepared,
    fun _ => Preparation.mem_findings_iff_fallsOff hwell hprepared⟩

/-- Both branches of one function return, under a condition that stands for nothing. The other one
returns from within a loop. -/
def Tree.returning : Tree where
  nodes := #[
    { node := .root [1, 12] },
    { node := .funDecl "sign" none [] 2 3 },
    { node := .simpleType "Int" },
    { node := .block [4] },
    { node := .conditional 5 6 (some 9) },
    { node := .reference "unknown" },
    { node := .block [7] },
    { node := .returnStatement (some 8) },
    { node := .literal (.int 1) },
    { node := .block [10] },
    { node := .returnStatement (some 11) },
    { node := .literal (.int 0) },
    { node := .funDecl "search" none [] 13 14 },
    { node := .simpleType "Int" },
    { node := .block [15] },
    { node := .whileLoop 16 17 },
    { node := .reference "true" },
    { node := .block [18] },
    { node := .returnStatement (some 19) },
    { node := .literal (.int 2) }]
  root := 0

theorem returns_exact_returning : Tree.returning.WellFormed ∧
    ∃ analysis, Analysis.ofTree {} Tree.returning = .ok analysis ∧
      (¬ ∃ steps, Tree.returning.Runs [3] steps .falls) ∧
      (∃ steps, Tree.returning.Runs [14] steps .falls) ∧
      ∃ finding ∈ analysis.findings, finding.node = 12 ∧
        Tree.returning.FallsOff analysis finding := by
  have hwell : Tree.returning.WellFormed := by decide +kernel
  obtain ⟨analysis, hanalysis, htest⟩ := Analysis.exists_of_any
    (show (Analysis.ofTree {} Tree.returning).toOption.any (fun analysis =>
      analysis.returnsOf? 3 = some true && analysis.returnsOf? 14 = some false &&
      analysis.findings.any fun finding =>
        finding.node = 12 && finding.kind = .missingReturn) = true by decide +kernel)
  simp only [Bool.and_eq_true, decide_eq_true_eq, List.any_eq_true] at htest
  obtain ⟨⟨hsign, hsearch⟩, finding, hfinding, hnode, hkind⟩ := htest
  obtain ⟨_, hanalysis', hflags, _, hmissing⟩ := returns_exact {} hwell
  cases Except.ok.inj (hanalysis.symm.trans hanalysis')
  obtain ⟨_, hflag, hleaves⟩ := hflags 3 (by decide)
  cases Option.some.inj (hsign.symm.trans hflag)
  obtain ⟨_, hflag', hfalls⟩ := hflags 14 (by decide)
  cases Option.some.inj (hsearch.symm.trans hflag')
  exact ⟨hwell, analysis, hanalysis, hleaves.mp rfl, by simpa using hfalls, finding, hfinding,
    hnode, (hmissing finding).mp ⟨hfinding, hkind⟩⟩

end Attribution
