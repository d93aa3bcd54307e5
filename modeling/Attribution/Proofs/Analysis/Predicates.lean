import Attribution.Proofs.Analysis.Resolution
import Attribution.Proofs.Binding.Added
import Attribution.Proofs.Checker.Agreement
/-!
# Predicates of a program without findings

A second declaration of a predicate is held against the first one when the walk comes to it, an atom
against its predicate once all scopes are complete, and a term against the type of terms when it
has a type. Where nothing was found, all of them agree.
-/
namespace Attribution

namespace Tree

variable {tree : Tree} {name : String} {opener decl : NodeId}

/-- A fact or a clause declares a name in the scope of an opener. -/
structure Predicate (tree : Tree) (name : String) (opener decl : NodeId) : Prop where
  kind : tree.satisfies decl Node.isPredicate
  named : tree.declaredName? decl = some name
  inside : ∃ outer, tree.Around decl (opener :: outer)

/-- The atom stands in the body of a clause, or it is the goal of a query. -/
inductive Premise (tree : Tree) (atom : NodeId) : Prop
  | body {clause head : NodeId} {body : List NodeId} :
    tree.node? clause = some (.clause head body) → atom ∈ body → Premise tree atom
  | goal {query : NodeId} : tree.node? query = some (.query atom) → Premise tree atom

theorem Stands.keeps {before rest : List Action} {entity : Entity} {held : Option Entity}
    (hbefore : tree.Stands .report name opener before (some entity))
    (h : tree.Stands .report name opener (before ++ rest) held) : held = some entity := by
  induction rest using List.reverseRecOn generalizing held with
  | nil =>
    rw [List.append_nil] at h
    exact hbefore.unique h
  | append_singleton rest action ih =>
    rw [← List.append_assoc] at h
    generalize hactions : before ++ rest ++ [action] = actions at h
    cases h with
    | builtin => simp at hactions
    | nothing => simp at hactions
    | @declared _ _ decl _ old hsplit _ hstands =>
      obtain ⟨rfl, _⟩ := List.append_inj' (hactions.trans hsplit) rfl
      rw [ih hstands]
      simp [DuplicatePolicy.choose]
    | other hsplit _ hstands =>
      obtain ⟨rfl, _⟩ := List.append_inj' (hactions.trans hsplit) rfl
      exact ih hstands

theorem eq_of_atom {id atom : NodeId} {expectation : Expectation} {node : Node}
    (h : .act (.atom atom) ∈ tree.parts id node expectation) : atom = id := by
  cases does_of_part h
  rfl

theorem WellFormed.exists_arity (hwell : tree.WellFormed)
    (hkind : tree.satisfies decl Node.isPredicate) :
    ∃ arity, tree.predicateArity? decl = some arity := by
  obtain ⟨node, hnode, hkind⟩ := satisfies_iff.mp hkind
  cases node with
  | fact name terms => exact ⟨terms.length, by rw [predicateArity?, hnode]⟩
  | clause head body =>
    have hhead := hwell.fits _ _ hnode head List.mem_cons_self
    obtain ⟨name, terms, hatom⟩ := exists_atom hhead
    have hfound : tree.atom? head = some (name, terms) := by rw [atom?, hatom]
    exact ⟨terms.length, by rw [predicateArity?, hnode]; simp [hfound]⟩
  | _ => cases hkind

end Tree

theorem Binder.declare_quiet {tree : Tree} {binder : Binder} {name : String} {decl : NodeId}
    (h : (binder.declare tree .report name decl).2 = []) :
    binder.scopes.held? binder.current name = none ∨
      ∃ existing, binder.scopes.held? binder.current name = some existing ∧
        existing.isPredicate tree ∧ Binder.redeclared tree name existing decl = [] := by
  unfold declare ScopeTree.declare at h
  cases hheld : binder.scopes.held? binder.current name with
  | none => exact .inl rfl
  | some existing =>
    right
    rw [hheld] at h
    simp only at h
    split at h
    next hboth => exact ⟨existing, rfl, (Bool.and_eq_true_iff.mp hboth).1, h⟩
    next => cases h

open Attribution.Tree Attribution.Binder

namespace Preparation

variable {config : Config} {tree : Tree} {preparation : Preparation} {name : String}
  {opener decl : NodeId}

theorem report_not_mem (hclean : preparation.final.findings = []) (finding : Finding) :
    .report finding ∉ preparation.commands := by
  intro hreport
  have hmem := mem_findings.mpr (.inl hreport)
  rw [hclean] at hmem
  cases hmem

/-- In a program without findings, a predicate has as many terms as the first declaration of its
name in its scope, which is one of a predicate and stays. -/
theorem stands_of_predicate (hreport : config.duplicates = .report) (hwell : tree.WellFormed)
    {actions : List Action} (h : Scoped config tree preparation actions)
    (hclean : preparation.final.findings = []) (hpredicate : tree.Predicate name opener decl) :
    ∃ first, tree.Stands .report name opener actions (some (.node first)) ∧
      tree.predicateArity? first = tree.predicateArity? decl := by
  obtain ⟨hkind, hname, outer, haround⟩ := hpredicate
  obtain ⟨node, hnode, hkind'⟩ := satisfies_iff.mp hkind
  have hintroduced : tree.introduced? node = some name := by
    rw [declaredName?, hnode] at hname
    cases node <;> first | exact hname | cases hkind'
  have hmem : .declare name decl ∈ actions := by
    obtain ⟨path, expectation, hleads⟩ := hwell.exists_leads hnode
    refine (WellFormed.mem_walk h.walk).mpr ⟨decl, expectation, node, hwell.walked hleads hnode ?_,
      hnode, mem_actions.mpr (declare_mem_iff.mpr ⟨rfl, hintroduced⟩)⟩
    cases node <;> first | rfl | cases hkind'
  obtain ⟨before, after, rfl⟩ := List.append_of_mem hmem
  obtain ⟨found, outer', haround', hsome, howner⟩ := h.owner?_current
  cases hwell.unshared.around_unique haround haround' hsome
  -- the declaration is not found fault with
  have hquiet : ((binderAfter config tree before).declare tree .report name decl).2 = [] := by
    rw [List.eq_nil_iff_forall_not_mem]
    intro command hcommand
    obtain ⟨finding, rfl⟩ := report_of_declare hcommand
    apply report_not_mem hclean finding
    refine (Preparation.mem_commands h.prepared).mpr (.inr ⟨binderAfter config tree before, _,
      ⟨before, after, h.walk, rfl⟩, ?_⟩)
    rw [hreport]
    exact hcommand
  have hheld := h.stands howner name
  rw [hreport] at hheld
  -- what it leaves in the scope is a predicate with as many terms
  obtain ⟨first, hchoose, harity⟩ : ∃ first,
      DuplicatePolicy.choose .report tree decl ((binderAfter config tree before).scopes.held?
        (binderAfter config tree before).current name) = .node first ∧
      tree.predicateArity? first = tree.predicateArity? decl := by
    rcases declare_quiet hquiet with hnone | ⟨existing, hexisting, hpredicate, hredeclared⟩
    · exact ⟨decl, by rw [hnone]; rfl, rfl⟩
    · cases existing with
      | builtin b => cases hpredicate
      | node first =>
        refine ⟨first, by rw [hexisting]; simp [DuplicatePolicy.choose], ?_⟩
        obtain ⟨expected, hexpected⟩ := hwell.exists_arity hpredicate
        obtain ⟨arity, harity⟩ := hwell.exists_arity hkind
        simp only [redeclared, Entity.node?, Option.bind_some, hexpected, harity] at hredeclared
        split at hredeclared
        next hsame => rw [hexpected, harity, hsame]
        next => cases hredeclared
  have hafter : tree.Stands .report name opener (before ++ [.declare name decl])
      (some (.node first)) := hchoose ▸ .declared rfl haround hheld
  have hfinal : tree.Stands .report name opener (before ++ [.declare name decl] ++ after)
      ((binderAfter config tree (before ++ .declare name decl :: after)).scopes.held?
        (binderAfter config tree before).current name) := by
    have hwhole :
        Scoped config tree preparation ((before ++ .declare name decl :: after) ++ []) := by
      rw [List.append_nil]
      exact h
    have hstands := hwhole.stands howner name
    rw [hreport] at hstands
    rwa [List.append_assoc]
  rw [hafter.keeps hfinal, List.append_assoc] at hfinal
  exact ⟨first, hfinal, harity⟩

theorem arity_of_predicates (hreport : config.duplicates = .report) (hwell : tree.WellFormed)
    (h : ofTree config tree = .ok preparation) (hclean : preparation.final.findings = [])
    {other : NodeId} (hdecl : tree.Predicate name opener decl)
    (hother : tree.Predicate name opener other) : ∃ arity,
      tree.predicateArity? decl = some arity ∧ tree.predicateArity? other = some arity := by
  obtain ⟨actions, hwalk⟩ := hwell.exists_walk
  have hscoped : Scoped config tree preparation actions := ⟨hwell.unshared, hwell.rooted, hwalk, h⟩
  obtain ⟨first, hfirst, harity⟩ := stands_of_predicate hreport hwell hscoped hclean hdecl
  obtain ⟨second, hsecond, harity'⟩ := stands_of_predicate hreport hwell hscoped hclean hother
  cases hfirst.unique hsecond
  obtain ⟨arity, hfound⟩ := hwell.exists_arity hdecl.kind
  exact ⟨arity, hfound, by rw [← harity', harity, hfound]⟩

theorem walked_of_premise (hwell : tree.WellFormed) {atom : NodeId} (hpremise : tree.Premise atom) :
    ∃ expectation, tree.Walked atom expectation := by
  obtain ⟨actions, hwalk⟩ := hwell.exists_walk
  have hvisits : ∃ above node, tree.node? above = some node ∧ node.isAtom = false ∧
      ∀ expectation, (atom, .nothing) ∈ tree.visits above expectation node := by
    cases hpremise with
    | @body clause head body hclause hmem =>
      refine ⟨clause, _, hclause, rfl, fun expectation => mem_visits.mpr ?_⟩
      simp [parts, Part.plain, hmem]
    | @goal query hquery =>
      exact ⟨query, _, hquery, rfl, fun expectation => mem_visits.mpr List.mem_cons_self⟩
  obtain ⟨above, node, hnode, hkind, hvisits⟩ := hvisits
  obtain ⟨path, expectation, hleads⟩ := hwell.exists_leads hnode
  have habove : tree.Walked above expectation := hwell.walked hleads hnode hkind
  exact ⟨.nothing, mem_trail_of_visits hwalk habove hnode (hvisits expectation)⟩

theorem exists_located_of_premise (hwell : tree.WellFormed)
    (h : ofTree config tree = .ok preparation) {atom : NodeId} {terms : List NodeId}
    (hatom : tree.node? atom = some (.atom name terms)) (hpremise : tree.Premise atom) :
    ∃ before after opener outer scope outers, tree.Around atom (opener :: outer) ∧
      Located config tree preparation before (.atom atom :: after) (opener :: outer) scope
        outers := by
  obtain ⟨expectation, hwalked⟩ := walked_of_premise hwell hpremise
  obtain ⟨actions, hwalk⟩ := hwell.exists_walk
  have hmem : .atom atom ∈ actions := by
    refine (WellFormed.mem_walk hwalk).mpr ⟨atom, expectation, _, hwalked, hatom, ?_⟩
    exact mem_actions.mpr (by simp [parts])
  obtain ⟨before, after, rfl⟩ := List.append_of_mem hmem
  have hscoped : Scoped config tree preparation (before ++ .atom atom :: after) :=
    ⟨hwell.unshared, hwell.rooted, hwalk, h⟩
  obtain ⟨id, lent, node, _, hpart, haround⟩ :=
    (moves_of_walk hwalk).placed before _ after rfl rfl
  cases eq_of_atom hpart
  have hne : before.foldl Action.track [] ≠ [] := by
    refine (hwell.rooted.around_ne_nil haround).resolve_left ?_
    rintro rfl
    obtain ⟨root, hroot, hkind⟩ := satisfies_iff.mp hwell.root
    cases Option.some.inj (hatom.symm.trans hroot)
    cases hkind
  obtain ⟨scope, outers, hlocated⟩ := hscoped.exists_located hne
  obtain ⟨opener, outer, hopeners⟩ := List.exists_cons_of_ne_nil hne
  rw [hopeners] at haround hlocated
  exact ⟨before, after, opener, outer, scope, outers, haround, hlocated⟩

/-- In a program without findings, an atom has as many terms as the predicate that its name stands
for, seen from the scope of the atom. -/
theorem arity_of_premise (hwell : tree.WellFormed) (h : ofTree config tree = .ok preparation)
    (hclean : preparation.final.findings = []) {atom : NodeId} {terms : List NodeId}
    (hatom : tree.node? atom = some (.atom name terms)) (hpremise : tree.Premise atom) :
    ∃ opener outer scope, tree.Around atom (opener :: outer) ∧
      preparation.final.view.scope? opener = some scope ∧ ∀ decl home,
        preparation.setting.scopes.lookup? scope name = some (.node decl, home) →
        tree.satisfies decl Node.isPredicate → tree.predicateArity? decl = some terms.length := by
  obtain ⟨before, after, opener, outer, scope, outers, haround, hlocated⟩ :=
    exists_located_of_premise hwell h hatom hpremise
  obtain ⟨howner, _⟩ := List.forall₂_cons.mp hlocated.owners
  refine ⟨opener, outer, scope, haround, ?_, ?_⟩
  · rw [View.scope?, hlocated.walk.view_scope howner]
    rfl
  intro decl home hlookup hkind
  have hadd : .add (.atomArity atom scope) ∈ preparation.commands := by
    refine (add_mem_iff h).mpr ⟨_, .atom atom, ⟨before, after, hlocated.walk.walk, rfl⟩, ?_⟩
    rw [← hlocated.current]
    exact .atom
  obtain ⟨expected, hexpected⟩ := hwell.exists_arity hkind
  have heffect : Rule.effect preparation.setting (.atomArity atom scope) preparation.final.view =
      Effect.findIf (expected ≠ terms.length) atom
        (.atomArity name expected terms.length) := by
    have hfound : tree.atom? atom = some (name, terms) := by rw [atom?, hatom]
    simp only [Rule.effect, Rule.atomArityEffect, setting_tree h, hfound, hlookup,
      Option.bind_some, Entity.node?, hexpected]
  rw [hexpected]
  by_contra hne
  rw [Option.some.injEq] at hne
  apply findings_ne_nil hadd rfl _ hclean
  · exact atom
  · exact .atomArity name expected terms.length
  · rw [heffect, Effect.findIf, if_pos (decide_eq_true hne)]

theorem type_of_term (hwell : tree.WellFormed) (h : ofTree config tree = .ok preparation)
    (hclean : preparation.final.findings = []) {id term : NodeId}
    (hterm : term ∈ tree.declaredTerms id) {type : Ty}
    (htype : preparation.final.view.type? term = some type) : type = .term := by
  have hnode : ∃ node, tree.node? id = some node ∧ node.isAtom = false ∧ ∀ expectation,
      .act (.add (.termType term)) ∈ tree.parts id node expectation := by
    have hpart : .act (.add (.termType term)) ∈ tree.termParts id :=
      List.mem_map.mpr ⟨term, hterm, rfl⟩
    unfold declaredTerms at hterm
    split at hterm
    next hfact => exact ⟨_, hfact, rfl, fun _ => List.mem_append_right _ hpart⟩
    next hclause => exact ⟨_, hclause, rfl, fun _ => List.mem_append_right _ hpart⟩
    next hquery => exact ⟨_, hquery, rfl, fun _ => List.mem_cons_of_mem _ hpart⟩
    next => cases hterm
  obtain ⟨node, hnode, hkind, hpart⟩ := hnode
  obtain ⟨expectation, hat⟩ := at_of_node hwell h hnode hkind
  obtain ⟨value, hvalue, _⟩ := Option.bind_eq_some_iff.mp htype
  have hready : Rule.ready (.termType term) preparation.final.view := by
    simp [Rule.ready, Rule.inputs, hvalue]
  have hisTerm : type.isTerm = true := by
    by_contra hne
    apply findings_ne_nil (hat.add_mem (hpart expectation)) hready _ hclean
    · exact term
    · exact .nonTerm type
    · simp only [Rule.effect, htype, Effect.findIf, Bool.eq_false_iff.mpr hne, Bool.not_false,
        if_true]
  cases type <;> first | rfl | cases hisTerm

end Preparation

/-- In a well-formed tree without findings, where second declarations are found fault with: the
facts and clauses that declare a name in one scope have equally many terms; an atom in the body of
a clause or the goal of a query has as many terms as the fact or clause that its name stands for in
the end, seen from the scope of the atom; and no term of a logic declaration has another type than
that of terms. -/
theorem predicates_agree {config : Config} (hreport : config.duplicates = .report) {tree : Tree}
    (hwell : tree.WellFormed) {analysis : Analysis}
    (h : Analysis.ofTree config tree = .ok analysis) (hok : analysis.isOk) :
    (∀ name opener decl other, tree.Predicate name opener decl →
      tree.Predicate name opener other → ∃ arity,
        tree.predicateArity? decl = some arity ∧ tree.predicateArity? other = some arity) ∧
    (∀ atom name terms, tree.node? atom = some (.atom name terms) → tree.Premise atom →
      ∃ opener outer scope, tree.Around atom (opener :: outer) ∧
        analysis.scopeOf? opener = some scope ∧ ∀ decl home,
          analysis.scopes.lookup? scope name = some (.node decl, home) →
          tree.satisfies decl Node.isPredicate →
            tree.predicateArity? decl = some terms.length) ∧
    ∀ id term type, term ∈ tree.declaredTerms id → analysis.typeOf? term = some type →
      type = .term := by
  obtain ⟨preparation, hprepared⟩ := Preparation.exists_ofTree hwell config
  rw [Analysis.ofTree_eq hprepared] at h
  cases h
  have hclean : preparation.final.findings = [] := List.isEmpty_iff.mp hok
  obtain ⟨_, _, _, _, _, hscopes⟩ := Preparation.ofTree_eq_ok hprepared
  refine ⟨?_, ?_, ?_⟩
  · intro name opener decl other hdecl hother
    exact Preparation.arity_of_predicates hreport hwell hprepared hclean hdecl hother
  · intro atom name terms hatom hpremise
    rw [← hscopes]
    exact Preparation.arity_of_premise hwell hprepared hclean hatom hpremise
  · intro id term type hterm htype
    exact Preparation.type_of_term hwell hprepared hclean hterm htype

/-- A query before the clause that it asks for, and two facts of one name. -/
def Tree.asked : Tree where
  nodes := #[
    { node := .root [1, 4, 7, 13] },
    { node := .query 2 },
    { node := .atom "happy" [3] },
    { node := .literal (.term "ann") },
    { node := .fact "likes" [5, 6] },
    { node := .literal (.term "ann") },
    { node := .literal (.term "tea") },
    { node := .clause 8 [10] },
    { node := .atom "happy" [9] },
    { node := .literal (.term "x") },
    { node := .atom "likes" [11, 12] },
    { node := .literal (.term "x") },
    { node := .literal (.term "y") },
    { node := .fact "likes" [14, 15] },
    { node := .literal (.term "bob") },
    { node := .literal (.term "ann") }]
  root := 0

theorem predicates_agree_asked : Tree.asked.WellFormed ∧
    ∃ analysis, Analysis.ofTree {} Tree.asked = .ok analysis ∧ analysis.isOk ∧
      (∃ arity, Tree.asked.predicateArity? 4 = some arity ∧
        Tree.asked.predicateArity? 13 = some arity) ∧
      analysis.scopes.lookup? 0 "happy" = some (.node 7, 0) ∧
      Tree.asked.predicateArity? 7 = some [3].length ∧
      ∃ type, analysis.typeOf? 12 = some type ∧ type = .term := by
  have hwell : Tree.asked.WellFormed := by decide +kernel
  obtain ⟨analysis, hanalysis, htest⟩ := Analysis.exists_of_any
    (show (Analysis.ofTree {} Tree.asked).toOption.any (fun analysis =>
      analysis.isOk && analysis.scopeOf? 0 = some 0 &&
        analysis.scopes.lookup? 0 "happy" = some (.node 7, 0) &&
        (analysis.typeOf? 12).isSome) = true by decide +kernel)
  simp only [Bool.and_eq_true, decide_eq_true_eq] at htest
  obtain ⟨⟨⟨hok, hroot⟩, hlookup⟩, htyped⟩ := htest
  obtain ⟨type, htype⟩ := Option.isSome_iff_exists.mp htyped
  obtain ⟨harity, hpremise, hterm⟩ := predicates_agree rfl hwell hanalysis hok
  have hnode : Tree.asked.node? 0 = some (.root [1, 4, 7, 13]) := rfl
  have hfacts : Tree.asked.Predicate "likes" 0 4 ∧ Tree.asked.Predicate "likes" 0 13 :=
    ⟨⟨by decide, by decide, [], .child .root hnode (by decide)⟩,
      ⟨by decide, by decide, [], .child .root hnode (by decide)⟩⟩
  have hquery : Tree.asked.node? 1 = some (.query 2) := rfl
  have hgoal : Tree.asked.Around 2 [0] :=
    .child (.child .root hnode (by decide)) hquery (by decide)
  obtain ⟨opener, outer, scope, haround, hscope, hall⟩ :=
    hpremise 2 "happy" [3] rfl (.goal hquery)
  cases hwell.unshared.around_unique hgoal haround rfl
  cases Option.some.inj (hroot.symm.trans hscope)
  exact ⟨hwell, analysis, hanalysis, hok, harity "likes" 0 4 13 hfacts.1 hfacts.2, hlookup,
    hall 7 0 hlookup (by decide), type, htype, hterm 7 12 type (by decide) htype⟩

end Attribution
