import Attribution.Proofs.Analysis.Contents
import Attribution.Proofs.Checker.Yields
import Attribution.Proofs.Rule.Outspoken
import Attribution.Proofs.Tree.Layers
import Attribution.Proofs.Ty.Order
/-!
# Array literals

An array literal joins the types of its elements one after the other, leaves void ones out and stops
at two that have no common supertype. What comes of it is the least type to which all other elements
can be assigned, whatever their order.
-/
namespace Attribution

namespace Ty

/-- All elements can be assigned to the type, but for void ones. -/
def Covers (type : Ty) (elements : List Ty) : Prop :=
  ∀ t ∈ elements, t.isVoid = false → t.assignable type

variable {first c d : Ty} {rest elements others : List Ty}

theorem covers_perm (h : elements.Perm others) : d.Covers elements ↔ d.Covers others := by
  simp only [Covers, h.mem_iff]

theorem exists_foldlM (hfirst : first.assignable d) (hrest : ∀ t ∈ rest, t.assignable d) :
    ∃ c, rest.foldlM commonSupertype first = some c ∧ c.assignable d := by
  induction rest generalizing first with
  | nil => exact ⟨first, rfl, hfirst⟩
  | cons second rest ih =>
    have hsecond := hrest second List.mem_cons_self
    obtain ⟨common, hcommon⟩ := Option.isSome_iff_exists.mp
      (isSome_commonSupertype.mpr (assignable_or_of_common hfirst hsecond))
    obtain ⟨c, hc, hle⟩ := ih (commonSupertype_le hcommon hfirst hsecond) fun t ht =>
      hrest t (List.mem_cons_of_mem _ ht)
    refine ⟨c, ?_, hle⟩
    rw [List.foldlM_cons, hcommon]
    exact hc

theorem le_foldlM (hfirst : first.innermost.isVoid = false)
    (hrest : ∀ t ∈ rest, t.innermost.isVoid = false)
    (h : rest.foldlM commonSupertype first = some c) :
    first.assignable c ∧ ∀ t ∈ rest, t.assignable c := by
  induction rest generalizing first with
  | nil =>
    cases h
    exact ⟨assignable_self_iff.mpr hfirst, fun _ ht => nomatch ht⟩
  | cons second rest ih =>
    rw [List.foldlM_cons] at h
    obtain ⟨common, hcommon, h⟩ := Option.bind_eq_some_iff.mp h
    have hsecond := hrest second List.mem_cons_self
    have hnext : common.innermost.isVoid = false := by
      rcases eq_of_commonSupertype hcommon with ⟨rfl, _⟩ | ⟨rfl, _⟩ <;> assumption
    obtain ⟨hle, hlater⟩ := ih hnext (fun t ht => hrest t (List.mem_cons_of_mem _ ht)) h
    obtain ⟨hfirstLe, hsecondLe⟩ := le_commonSupertype hfirst hsecond hcommon
    refine ⟨assignable_trans hfirstLe hle, List.forall_mem_cons.mpr ⟨?_, hlater⟩⟩
    exact assignable_trans hsecondLe hle

/-- No element is an array that holds `Void` in the end. -/
def Filled (elements : List Ty) : Prop :=
  ∀ t ∈ elements, t.isVoid = false → t.innermost.isVoid = false

theorem covers_of_elementType? (hfilled : Filled elements) (h : elementType? elements = some c) :
    c.Covers elements := by
  unfold elementType? at h
  split at h
  · cases h
  next first rest hfilter =>
    have hmem : ∀ {t}, t ∈ first :: rest ↔ t ∈ elements ∧ t.isVoid = false := by
      intro t
      rw [← hfilter, List.mem_filter, Bool.not_eq_true']
    have hvalid : ∀ t ∈ first :: rest, t.innermost.isVoid = false := by
      intro t ht
      obtain ⟨helement, hvoid⟩ := hmem.mp ht
      exact hfilled t helement hvoid
    obtain ⟨hfirst, hrest⟩ := le_foldlM (hvalid _ List.mem_cons_self)
      (fun t ht => hvalid t (List.mem_cons_of_mem _ ht)) h
    intro t ht hvoid
    rcases List.mem_cons.mp (hmem.mpr ⟨ht, hvoid⟩) with rfl | hlater
    · exact hfirst
    · exact hrest t hlater

theorem exists_elementType? (hsome : ∃ t ∈ elements, t.isVoid = false) (hd : d.Covers elements) :
    ∃ c, elementType? elements = some c ∧ c.assignable d := by
  obtain ⟨t, ht, hvoid⟩ := hsome
  unfold elementType?
  split
  next hfilter =>
    have hmem : t ∈ elements.filter fun element => !element.isVoid :=
      List.mem_filter.mpr ⟨ht, by simp [hvoid]⟩
    rw [hfilter] at hmem
    cases hmem
  next first rest hfilter =>
    have hbelow : ∀ t ∈ first :: rest, t.assignable d := by
      intro t ht
      rw [← hfilter, List.mem_filter, Bool.not_eq_true'] at ht
      exact hd t ht.1 ht.2
    exact exists_foldlM (hbelow _ List.mem_cons_self) fun t ht =>
      hbelow t (List.mem_cons_of_mem _ ht)

theorem exists_of_elementType? (h : elementType? elements = some c) :
    ∃ t ∈ elements, t.isVoid = false := by
  unfold elementType? at h
  split at h
  · cases h
  next first rest hfilter =>
    have hmem : first ∈ elements.filter fun element => !element.isVoid := by
      rw [hfilter]
      exact List.mem_cons_self
    rw [List.mem_filter, Bool.not_eq_true'] at hmem
    exact ⟨first, hmem⟩

theorem isSome_elementType? (hfilled : Filled elements) : (elementType? elements).isSome ↔
    (∃ t ∈ elements, t.isVoid = false) ∧ ∃ d : Ty, d.Covers elements := by
  constructor
  · intro hsome
    obtain ⟨c, hc⟩ := Option.isSome_iff_exists.mp hsome
    exact ⟨exists_of_elementType? hc, c, covers_of_elementType? hfilled hc⟩
  · intro ⟨hsome, d, hd⟩
    obtain ⟨c, hc, _⟩ := exists_elementType? hsome hd
    exact Option.isSome_of_eq_some hc

theorem elementType?_le (h : elementType? elements = some c) (hd : d.Covers elements) :
    c.assignable d := by
  obtain ⟨least, hleast, hle⟩ := exists_elementType? (exists_of_elementType? h) hd
  rw [h] at hleast
  cases hleast
  exact hle

theorem elementType?_perm (hfilled : Filled elements) (hperm : others.Perm elements) :
    Option.Rel (fun s t => s.same t) (elementType? elements) (elementType? others) := by
  have hother : Filled others := fun t ht => hfilled t (hperm.mem_iff.mp ht)
  have hsome : (elementType? others).isSome ↔ (elementType? elements).isSome := by
    simp only [isSome_elementType? hfilled, isSome_elementType? hother, Covers, hperm.mem_iff]
  cases h : elementType? elements with
  | none =>
    have hnone : elementType? others = none := by
      rw [← Option.not_isSome_iff_eq_none, hsome, h]
      exact Bool.false_ne_true
    rw [hnone]
    exact .none
  | some c =>
    obtain ⟨c', h'⟩ := Option.isSome_iff_exists.mp (hsome.mpr (Option.isSome_of_eq_some h))
    have hc := (covers_perm hperm).mpr (covers_of_elementType? hfilled h)
    have hc' := (covers_perm hperm).mp (covers_of_elementType? hother h')
    rw [h']
    exact .some (same_of_assignable (elementType?_le h hc') (elementType?_le h' hc))

end Ty

namespace Rule

open Effect

variable {node : NodeId} {elements : List (NodeId × Ty)}

theorem mem_joinElements {joined : Option Ty} {finding : Finding}
    (h : finding ∈ (joinElements node joined elements).findings) :
    (finding.cause = .voidElement ∧ ∃ type : Ty, (finding.node, type) ∈ elements ∧ type.isVoid) ∨
      finding.node = node ∧ finding.cause ≠ .voidElement ∧ finding.kind = .invalidArrayLiteral ∧
        joinAll joined ((elements.map Prod.snd).filter fun element : Ty => !element.isVoid) =
          none := by
  have hlonger : ∀ {element : NodeId × Ty} {rest : List (NodeId × Ty)},
      (finding.cause = .voidElement ∧ ∃ type : Ty, (finding.node, type) ∈ rest ∧ type.isVoid) →
        finding.cause = .voidElement ∧
          ∃ type : Ty, (finding.node, type) ∈ element :: rest ∧ type.isVoid := by
    rintro element rest ⟨hcause, type, hmem, hvoid⟩
    exact ⟨hcause, type, List.mem_cons_of_mem _ hmem, hvoid⟩
  fun_induction joinElements node joined elements with
  | case1 =>
    cases List.mem_singleton.mp h
    exact .inr ⟨rfl, by simp, rfl, rfl⟩
  | case2 => cases h
  | case3 joined element type rest hvoid others ih =>
    rcases List.mem_cons.mp h with rfl | hlater
    · exact .inl ⟨rfl, type, List.mem_cons_self, hvoid⟩
    · rw [List.map_cons, List.filter_cons_of_neg (by simp [hvoid])]
      exact (ih hlater).imp_left hlonger
  | case4 element type rest hvoid ih =>
    rw [List.map_cons, List.filter_cons_of_pos (by simp [hvoid])]
    exact (ih h).imp_left hlonger
  | case5 element type rest hvoid current common hcommon ih =>
    rw [List.map_cons, List.filter_cons_of_pos (by simp [hvoid])]
    simp only [joinAll, List.foldlM_cons, hcommon, Option.bind_eq_bind, Option.bind_some]
    exact (ih h).imp_left hlonger
  | case6 element type rest hvoid current hcommon =>
    cases List.mem_singleton.mp h
    refine .inr ⟨rfl, by simp, rfl, ?_⟩
    rw [List.map_cons, List.filter_cons_of_pos (by simp [hvoid])]
    simp only [joinAll, List.foldlM_cons, hcommon, Option.bind_eq_bind, Option.bind_none]

/-- The fold can stop before it comes to a void element, but not without a finding. -/
theorem joinElements_of_void {joined : Option Ty} (h : ∃ element ∈ elements, element.2.isVoid) :
    (joinElements node joined elements).findings ≠ [] := by
  fun_induction joinElements node joined elements with
  | case1 | case2 =>
    obtain ⟨_, hmem, _⟩ := h
    cases hmem
  | case3 => exact List.cons_ne_nil _ _
  | case4 element type rest hvoid ih | case5 element type rest hvoid current common _ ih =>
    apply ih
    obtain ⟨held, hheld, hheldVoid⟩ := h
    rcases List.mem_cons.mp hheld with rfl | hlater
    · exact absurd hheldVoid hvoid
    · exact ⟨held, hlater, hheldVoid⟩
  | case6 => exact List.cons_ne_nil _ _

variable {setting : Setting} {view : View} {components : List NodeId} {types : List Ty}

theorem mem_findings_arrayLiteral {finding : Finding}
    (h : finding ∈ (effect setting (.arrayLiteral node components) view).findings) :
    (finding.cause = .voidElement ∧ finding.node ∈ components ∧
      ∃ type : Ty, view.type? finding.node = some type ∧ type.isVoid) ∨
      finding.node = node ∧ finding.cause ≠ .voidElement ∧ finding.kind = .invalidArrayLiteral ∧
        ∀ types, components.mapM view.type? = some types → elementType? types = none := by
  rcases mem_joinElements h with ⟨hcause, type, hmem, hvoid⟩ | ⟨hnode, hcause, hkind, hnone⟩
  · obtain ⟨id, hid, hpair⟩ := List.mem_filterMap.mp hmem
    obtain ⟨held, hheld, heq⟩ := Option.map_eq_some_iff.mp hpair
    cases heq
    exact .inl ⟨hcause, hid, type, hheld, hvoid⟩
  · refine .inr ⟨hnode, hcause, hkind, ?_⟩
    intro types htypes
    rw [map_snd_elements htypes, joinAll_none] at hnone
    exact hnone

theorem findings_arrayLiteral_ne_nil (htypes : components.mapM view.type? = some types)
    (h : (∃ t ∈ types, t.isVoid) ∨ elementType? types = none) :
    (effect setting (.arrayLiteral node components) view).findings ≠ [] := by
  rcases h with ⟨t, ht, hvoid⟩ | hnone
  · rw [← map_snd_elements htypes] at ht
    obtain ⟨element, helement, rfl⟩ := List.mem_map.mp ht
    exact joinElements_of_void ⟨element, helement, hvoid⟩
  · intro hnil
    have hspeaks := speaks_joinElements node none _ hnil
    rw [lookup_joinElements, map_snd_elements htypes, joinAll_none, hnone] at hspeaks
    cases hspeaks

theorem Accuses.of_invalidArrayLiteral {rule : Rule} {cause : Cause} (h : rule.Accuses node cause)
    (hkind : cause.kind = .invalidArrayLiteral) :
    (∃ literal components, rule = .arrayLiteral literal components ∧ cause = .voidElement) ∨
      cause ≠ .voidElement ∧ .type node ∈ rule.outputs := by
  cases h with
  | voidElement => exact .inl ⟨_, _, rfl, rfl⟩
  | onlyVoidElements | noCommonSupertype | emptyInitializer | emptyArgument =>
    exact .inr ⟨by simp, List.mem_cons_self⟩
  | _ => cases hkind

end Rule

/-- A literal that the walk comes to, with its elements. They have types, of which none is an array
that holds `Void` in the end. -/
structure Tree.Lists (tree : Tree) (analysis : Analysis) (literal : NodeId)
    (components : List NodeId) (elements : List Ty) : Prop where
  walked : ∃ expectation, tree.Walked literal expectation
  node : tree.node? literal = some (.arrayLiteral components)
  nonempty : components ≠ []
  types : components.mapM analysis.typeOf? = some elements
  filled : Ty.Filled elements

open Attribution.Tree Attribution.Part

namespace Preparation

variable {config : Config} {tree : Tree} {preparation : Preparation} {literal : NodeId}
  {components : List NodeId} {elements : List Ty}

theorem eq_add_of_reach (h : ofTree config tree = .ok preparation)
    (hnode : tree.node? literal = some (.arrayLiteral components)) (hne : components ≠ [])
    {command : Command Rule} (hcommand : command ∈ preparation.commands)
    (hreach : .type literal ∈ command.reach) :
    command = .add (.arrayLiteral literal components) := by
  rcases (mem_commands h).mp hcommand with hbuiltin | ⟨binder, action, hmeets, hact⟩
  · obtain ⟨b, hb⟩ := subject_of_builtin hbuiltin hreach
    cases hb
  · obtain ⟨id, expectation, node, _, hfound, hpart⟩ := hmeets.exists_node
    have hsubject := subject_of_reach hpart (Binder.reach_act hact hreach) (by simp [Cell.type])
    cases hsubject
    cases Option.some.inj (hnode.symm.trans hfound)
    cases does_of_part hpart with
    | emptyInitializer | emptyArgument => exact absurd rfl hne
    | arrayLiteral => exact List.mem_singleton.mp hact

theorem sole_arrayLiteral (h : ofTree config tree = .ok preparation) {expectation : Expectation}
    (hwalked : tree.Walked literal expectation)
    (hnode : tree.node? literal = some (.arrayLiteral components)) (hne : components ≠ []) :
    preparation.Sole (.arrayLiteral literal components) (.type literal) := by
  refine ⟨?_, fun command hcommand hreach => eq_add_of_reach h hnode hne hcommand hreach⟩
  obtain ⟨actions, hwalk, _, _, _⟩ := ofTree_eq_ok h
  have hpart : .act (.add (.arrayLiteral literal components)) ∈
      tree.parts literal (.arrayLiteral components) expectation := by
    cases components with
    | nil => exact absurd rfl hne
    | cons first rest => simp [parts, add]
  have hmem := (WellFormed.mem_walk hwalk).mpr
    ⟨literal, expectation, _, hwalked, hnode, mem_actions.mpr hpart⟩
  obtain ⟨before, after, rfl⟩ := List.append_of_mem hmem
  exact (mem_commands h).mpr (.inr ⟨_, _, ⟨before, after, hwalk, rfl⟩, List.mem_cons_self⟩)

end Preparation

namespace Tree.Lists

open Preparation

variable {config : Config} {tree : Tree} {analysis : Analysis} {preparation : Preparation}
  {literal : NodeId} {components : List NodeId} {elements : List Ty}

theorem sole (h : Preparation.ofTree config tree = .ok preparation)
    (hlists : tree.Lists analysis literal components elements) :
    preparation.Sole (.arrayLiteral literal components) (.type literal) := by
  obtain ⟨expectation, hwalked⟩ := hlists.walked
  exact sole_arrayLiteral h hwalked hlists.node hlists.nonempty

/-- The type of a literal is that of the fold over the types of its elements. -/
theorem typeOf? (hanalysis : Analysis.ofTree config tree = .ok analysis)
    (hlists : tree.Lists analysis literal components elements) :
    analysis.typeOf? literal = (elementType? elements).map Ty.array := by
  obtain ⟨preparation, h, hengine, _⟩ := Analysis.exists_preparation hanalysis
  have htypes : components.mapM preparation.final.view.type? = some elements := by
    rw [← hengine]
    exact hlists.types
  rw [Analysis.typeOf?, hengine]
  apply Rule.type?_of_view
  rw [(hlists.sole h).view_of_weight rfl rfl,
    Rule.result?_arrayLiteral fun id _ => view_eq_type? h id, htypes]
  rfl

theorem mem_elements (hlists : tree.Lists analysis literal components elements) {id : NodeId}
    {type : Ty} (hid : id ∈ components) (htype : analysis.typeOf? id = some type) :
    type ∈ elements := by
  rw [← Rule.filterMap_eq_of_mapM hlists.types]
  exact List.mem_filterMap.mpr ⟨id, hid, htype⟩

theorem void_or_none_iff (hlists : tree.Lists analysis literal components elements) :
    (∃ t ∈ elements, t.isVoid) ∨ elementType? elements = none ↔
      (∃ t ∈ elements, t.isVoid) ∨ ¬ ∃ d : Ty, d.Covers elements := by
  by_cases hvoid : ∃ t ∈ elements, t.isVoid
  · simp only [hvoid, true_or]
  · have hsome : ∃ t ∈ elements, t.isVoid = false := by
      obtain ⟨id, hid⟩ := List.exists_mem_of_ne_nil _ hlists.nonempty
      have hall : (components.mapM analysis.typeOf?).isSome := Option.isSome_of_eq_some hlists.types
      rw [Rule.isSome_mapM, List.all_eq_true] at hall
      obtain ⟨t, ht⟩ := Option.isSome_iff_exists.mp (hall id hid)
      have hmem := hlists.mem_elements hid ht
      exact ⟨t, hmem, Bool.eq_false_iff.mpr fun h => hvoid ⟨t, hmem, h⟩⟩
    rw [← Option.not_isSome_iff_eq_none, Ty.isSome_elementType? hlists.filled]
    simp only [hvoid, hsome, false_or, true_and]

theorem of_mem_findings (hanalysis : Analysis.ofTree config tree = .ok analysis)
    (hlists : tree.Lists analysis literal components elements) {finding : Finding}
    (hfinding : finding ∈ analysis.findings) (hkind : finding.kind = .invalidArrayLiteral)
    (hmine : finding.node = literal ∨ finding.node ∈ components ∧ finding.cause = .voidElement) :
    (∃ t ∈ elements, t.isVoid) ∨ elementType? elements = none := by
  obtain ⟨preparation, h, hengine, _⟩ := Analysis.exists_preparation hanalysis
  have hliteral := hlists.typeOf? hanalysis
  have htypes : components.mapM preparation.final.view.type? = some elements := by
    rw [← hengine]
    exact hlists.types
  rw [Analysis.findings, hengine] at hfinding
  rw [Analysis.typeOf?, hengine] at hliteral
  obtain ⟨rule, hadd, _, hmem⟩ := exists_rule_of_kind h hfinding hkind rfl
  rcases (Rule.accuses_effect _ _ _ finding hmem).of_invalidArrayLiteral hkind with
    ⟨other, others, rfl, hcause⟩ | ⟨hcause, houtput⟩
  · obtain ⟨_, _, type, htype, hvoid⟩ :=
      (Rule.mem_findings_arrayLiteral hmem).resolve_right fun hright => hright.2.1 hcause
    rcases hmine with hnode | ⟨hcomponent, _⟩
    · -- the type of a literal is never void
      rw [hnode, hliteral] at htype
      obtain ⟨_, _, rfl⟩ := Option.map_eq_some_iff.mp htype
      cases hvoid
    · rw [← hengine] at htype
      exact .inl ⟨type, hlists.mem_elements hcomponent htype, hvoid⟩
  · have hnode := hmine.resolve_right fun hright => hcause hright.2
    rw [hnode] at houtput
    cases eq_add_of_reach h hlists.node hlists.nonempty hadd (Rule.mem_reach_of_outputs houtput)
    obtain ⟨_, _, _, hnone⟩ :=
      (Rule.mem_findings_arrayLiteral hmem).resolve_left fun hleft => hcause hleft.1
    exact .inr (hnone elements htypes)

theorem exists_finding (hanalysis : Analysis.ofTree config tree = .ok analysis)
    (hlists : tree.Lists analysis literal components elements)
    (h : (∃ t ∈ elements, t.isVoid) ∨ elementType? elements = none) :
    ∃ finding ∈ analysis.findings, finding.kind = .invalidArrayLiteral ∧
      (finding.node = literal ∨ finding.node ∈ components ∧ finding.cause = .voidElement) := by
  obtain ⟨preparation, hprepared, hengine, _⟩ := Analysis.exists_preparation hanalysis
  have htypes : components.mapM preparation.final.view.type? = some elements := by
    rw [← hengine]
    exact hlists.types
  let rule : Rule := .arrayLiteral literal components
  have hspeaks : (rule.effect preparation.setting preparation.final.view).findings ≠ [] :=
    Rule.findings_arrayLiteral_ne_nil htypes h
  obtain ⟨finding, hmem⟩ := List.exists_mem_of_ne_nil _ hspeaks
  have hready : rule.ready preparation.final.view := by
    rw [Rule.ready, Rule.inputs, Rule.all_isSome_type fun id _ => view_eq_type? hprepared id,
      htypes]
    rfl
  refine ⟨finding, ?_, ?_⟩
  · rw [Analysis.findings, hengine]
    exact mem_findings_of_rule (hlists.sole hprepared).added hready hmem
  · rcases Rule.mem_findings_arrayLiteral hmem with ⟨hcause, hcomponent, _⟩ | ⟨hnode, _, hkind, _⟩
    · exact ⟨by rw [Finding.kind, hcause]; rfl, .inr ⟨hcomponent, hcause⟩⟩
    · exact ⟨hkind, .inl hnode⟩

end Tree.Lists

/-- An array literal whose elements have types has a type of its own just if one of them is not void
and there is a type to which all that are not void can be assigned; it is an array of the least such
type then. The order of the elements does not matter for this. Something is found of the literal
just if an element is void or there is no such type. -/
theorem array_literals_least (config : Config) {tree : Tree} {actions : List Action}
    (hwalk : tree.walk = .ok actions) :
    ∃ analysis, Analysis.ofTree config tree = .ok analysis ∧
      ∀ {literal : NodeId} {components : List NodeId} {elements : List Ty},
        tree.Lists analysis literal components elements →
        ((analysis.typeOf? literal).isSome ↔
          (∃ t ∈ elements, t.isVoid = false) ∧ ∃ d : Ty, d.Covers elements) ∧
        (∀ type, analysis.typeOf? literal = some type → ∃ c, type = .array c ∧
          c.Covers elements ∧ ∀ d : Ty, d.Covers elements → c.assignable d) ∧
        (∀ {config' : Config} {tree' : Tree} {analysis' : Analysis} {literal' : NodeId}
          {components' : List NodeId} {elements' : List Ty},
          Analysis.ofTree config' tree' = .ok analysis' →
          tree'.Lists analysis' literal' components' elements' → elements'.Perm elements →
          Option.Rel (fun s t => s.same t)
            (analysis.typeOf? literal) (analysis'.typeOf? literal')) ∧
        ((∃ finding ∈ analysis.findings, finding.kind = .invalidArrayLiteral ∧
            (finding.node = literal ∨ finding.node ∈ components ∧ finding.cause = .voidElement)) ↔
          (∃ t ∈ elements, t.isVoid) ∨ ¬ ∃ d : Ty, d.Covers elements) := by
  obtain ⟨preparation, hprepared⟩ := Preparation.exists_of_walk hwalk config
  have hanalysis := Analysis.ofTree_eq hprepared
  refine ⟨_, hanalysis, ?_⟩
  intro literal components elements hlists
  have htype := hlists.typeOf? hanalysis
  have hsome := Ty.isSome_elementType? hlists.filled
  refine ⟨?_, ?_, ?_, ?_⟩
  · rw [htype, Option.isSome_map, hsome]
  · intro type hliteral
    rw [htype] at hliteral
    obtain ⟨c, hc, rfl⟩ := Option.map_eq_some_iff.mp hliteral
    exact ⟨c, rfl, Ty.covers_of_elementType? hlists.filled hc, fun d => Ty.elementType?_le hc⟩
  · intro config' tree' analysis' literal' components' elements' hanalysis' hlists' hperm
    rw [htype, hlists'.typeOf? hanalysis']
    have hrel := Ty.elementType?_perm hlists.filled hperm
    revert hrel
    generalize elementType? elements = type, elementType? elements' = other
    rintro (hsame | _)
    · exact .some hsame
    · exact .none
  · rw [← hlists.void_or_none_iff]
    constructor
    · intro ⟨finding, hfinding, hkind, hmine⟩
      exact hlists.of_mem_findings hanalysis hfinding hkind hmine
    · exact hlists.exists_finding hanalysis

/-- The same two numbers in either order, and a literal with a void element. -/
def Tree.listing : Tree where
  nodes := #[
    { node := .root [1, 4, 8, 12] },
    { node := .funDecl "f" none [] 2 3 },
    { node := .simpleType "Void" },
    { node := .block [] },
    { node := .expressionStatement 5 },
    { node := .arrayLiteral [6, 7] },
    { node := .literal (.int 1) },
    { node := .literal (.float ⟨0x4000000000000000⟩) },
    { node := .expressionStatement 9 },
    { node := .arrayLiteral [10, 11] },
    { node := .literal (.float ⟨0x4000000000000000⟩) },
    { node := .literal (.int 1) },
    { node := .expressionStatement 13 },
    { node := .arrayLiteral [14, 16] },
    { node := .call 15 none [] },
    { node := .reference "f" },
    { node := .literal (.int 1) }]
  root := 0

theorem array_literals_least_listing : ∃ analysis,
    Analysis.ofTree {} Tree.listing = .ok analysis ∧
      Tree.listing.Lists analysis 5 [6, 7] [.int, .float] ∧
      Tree.listing.Lists analysis 9 [10, 11] [.float, .int] ∧
      Tree.listing.Lists analysis 13 [14, 16] [.void, .int] ∧
      (∃ c, analysis.typeOf? 5 = some (.array c) ∧ c.Covers [.int, .float] ∧ c.assignable .float) ∧
      Option.Rel (fun s t => s.same t) (analysis.typeOf? 5) (analysis.typeOf? 9) ∧
      (analysis.typeOf? 13).isSome ∧
      ∃ finding ∈ analysis.findings, finding.kind = .invalidArrayLiteral ∧
        (finding.node = 13 ∨ finding.node ∈ [14, 16] ∧ finding.cause = .voidElement) := by
  obtain ⟨actions, hwalk⟩ :=
    Tree.WellFormed.exists_walk (show Tree.listing.WellFormed by decide +kernel)
  obtain ⟨analysis, hanalysis, hleast⟩ := array_literals_least {} hwalk
  obtain ⟨_, hanalysis', htest⟩ := Analysis.exists_of_any
    (show (Analysis.ofTree {} Tree.listing).toOption.any (fun analysis =>
      (analysis.typeOf? 6).any Ty.int.same && (analysis.typeOf? 7).any Ty.float.same &&
      (analysis.typeOf? 10).any Ty.float.same && (analysis.typeOf? 11).any Ty.int.same &&
      (analysis.typeOf? 14).any Ty.void.same && (analysis.typeOf? 16).any Ty.int.same) = true
      by decide +kernel)
  cases Except.ok.inj (hanalysis.symm.trans hanalysis')
  have htype : ∀ {id : NodeId} {t : Ty}, t ∈ [Ty.int, .float, .void] →
      (analysis.typeOf? id).any t.same → analysis.typeOf? id = some t := by
    intro id t ht hsame
    obtain ⟨found, hfound, hsame⟩ := (Option.any_eq_true _ _).mp hsame
    rw [hfound]
    simp only [List.mem_cons, List.not_mem_nil, or_false] at ht
    rcases ht with rfl | rfl | rfl <;> cases found <;> first | rfl | cases hsame
  simp only [Bool.and_eq_true] at htest
  obtain ⟨⟨⟨⟨⟨h6, h7⟩, h10⟩, h11⟩, h14⟩, h16⟩ := htest
  have hwalked : ∀ id ∈ [5, 9, 13], Tree.listing.Walked id .nothing := by
    simp only [Tree.Walked]
    decide +kernel
  have hfirst : Tree.listing.Lists analysis 5 [6, 7] [.int, .float] :=
    ⟨⟨_, hwalked 5 (by decide)⟩, rfl, by decide,
      by simp [htype (by simp) h6, htype (by simp) h7],
      by simp [Ty.Filled, Ty.innermost, Ty.isVoid]⟩
  have hsecond : Tree.listing.Lists analysis 9 [10, 11] [.float, .int] :=
    ⟨⟨_, hwalked 9 (by decide)⟩, rfl, by decide,
      by simp [htype (by simp) h10, htype (by simp) h11],
      by simp [Ty.Filled, Ty.innermost, Ty.isVoid]⟩
  have hthird : Tree.listing.Lists analysis 13 [14, 16] [.void, .int] :=
    ⟨⟨_, hwalked 13 (by decide)⟩, rfl, by decide,
      by simp [htype (by simp) h14, htype (by simp) h16],
      by simp [Ty.Filled, Ty.innermost, Ty.isVoid]⟩
  obtain ⟨hsome, hleastType, hperm, _⟩ := hleast hfirst
  obtain ⟨hthirdSome, _, _, hfindings⟩ := hleast hthird
  have hcovers : Ty.float.Covers [.int, .float] := by simp [Ty.Covers, Ty.assignable, Ty.same]
  obtain ⟨type, hliteral⟩ := Option.isSome_iff_exists.mp
    (hsome.mpr ⟨⟨.int, by simp [Ty.isVoid]⟩, _, hcovers⟩)
  obtain ⟨c, rfl, hc, hle⟩ := hleastType type hliteral
  refine ⟨analysis, hanalysis, hfirst, hsecond, hthird, ⟨c, hliteral, hc, hle _ hcovers⟩,
    hperm hanalysis hsecond (List.Perm.swap ..), hthirdSome.mpr ?_, hfindings.mpr (.inl ?_)⟩
  · exact ⟨⟨.int, by simp [Ty.isVoid]⟩, .int,
      by simp [Ty.Covers, Ty.assignable, Ty.same, Ty.isVoid]⟩
  · exact ⟨.void, by simp [Ty.isVoid]⟩

end Attribution
