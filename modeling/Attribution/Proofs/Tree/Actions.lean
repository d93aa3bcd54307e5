import Attribution.Proofs.Tree.Walk
/-!
# The actions of a walk

The walk over a well-formed tree yields the actions of all nodes to which it comes, those of one
node and of what lies below it in one piece. Each node asks for what its name stands for once.
-/
namespace Attribution

/-- The node for which an action asks what a name stands for, or where it stands itself. -/
def Action.binds? : Action → Option NodeId
  | useName node _ | useType node _ | placeholder node _ => some node
  | _ => none

open Attribution.Part

namespace Tree

variable {tree : Tree} {path : List Nat} {id : NodeId} {expectation : Expectation}

theorem mem_actions {node : Node} {action : Action} :
    action ∈ tree.actions id expectation node ↔
      .act action ∈ tree.parts id node expectation := by
  rw [actions, List.mem_filterMap]
  constructor
  · rintro ⟨part, hpart, haction⟩
    cases part with
    | act a =>
      cases haction
      exact hpart
    | visit _ _ => cases haction
    | need _ => cases haction
  · intro hpart
    exact ⟨_, hpart, rfl⟩

theorem mem_visits {node : Node} {child : NodeId} {lent : Expectation} :
    (child, lent) ∈ tree.visits id expectation node ↔
      .visit child lent ∈ tree.parts id node expectation := by
  rw [visits, List.mem_filterMap]
  constructor
  · intro h
    obtain ⟨part, hpart, hchild⟩ := h
    cases part with
    | visit c e =>
      cases hchild
      exact hpart
    | act _ => cases hchild
    | need _ => cases hchild
  · intro hpart
    exact ⟨_, hpart, rfl⟩

theorem mem_arguments {function : NodeId} {start : Nat} {ids : List NodeId} {part : Part} :
    part ∈ arguments function start ids ↔ ∃ (place : Nat) (argument : NodeId),
      ids[place]? = some argument ∧
        (part = .act (.write (.index argument) (.index (start + place))) ∨
          part = .visit argument (.argument function argument)) := by
  induction ids generalizing start with
  | nil => simp [arguments]
  | cons id ids ih =>
    rw [arguments, List.mem_cons, List.mem_cons, ih]
    constructor
    · intro h
      rcases h with rfl | rfl | ⟨place, argument, hplace, hpart⟩
      · exact ⟨0, id, rfl, .inl rfl⟩
      · exact ⟨0, id, rfl, .inr rfl⟩
      · refine ⟨place + 1, argument, hplace, ?_⟩
        rw [Nat.add_comm place, ← Nat.add_assoc]
        exact hpart
    · intro h
      obtain ⟨place, argument, hplace, hpart⟩ := h
      cases place with
      | zero =>
        cases hplace
        exact hpart.elim .inl (.inr ∘ .inl)
      | succ place =>
        refine .inr (.inr ⟨place, argument, hplace, ?_⟩)
        rw [Nat.add_assoc, Nat.add_comm 1]
        exact hpart

/-- What the walk does at a node itself, before, between and after its children: all that an action
of one node can be, with what the node is then. -/
inductive Does (tree : Tree) (id : NodeId) : Expectation → Node → Action → Prop
  | literal {e : Expectation} {value : Literal} :
    Does tree id e (.literal value) (.write (.type id) (.type value.type))
  | useName {e : Expectation} {name : String} :
    Does tree id e (.reference name) (.useName id name)
  | construct {e : Expectation} {reference : NodeId} :
    Does tree id e (.construct reference) (.add (.construct id reference))
  | emptyInitializer {decl : NodeId} :
    Does tree id (.variable decl) (.arrayLiteral []) (.add (.emptyInitializer id decl))
  | emptyArgument {function argument : NodeId} : Does tree id (.argument function argument)
    (.arrayLiteral []) (.add (.emptyArgument id function argument))
  | arrayLiteral {e : Expectation} {first : NodeId} {rest : List NodeId} :
    Does tree id e (.arrayLiteral (first :: rest)) (.add (.arrayLiteral id (first :: rest)))
  | parenthesized {e : Expectation} {expression : NodeId} :
    Does tree id e (.parenthesized expression) (.add (.parenthesized id expression))
  | fieldAccess {e : Expectation} {stem : NodeId} {field : String} :
    Does tree id e (.fieldAccess stem field) (.add (.fieldAccess id stem field))
  | arrayIndex {e : Expectation} {array index : NodeId} :
    Does tree id e (.arrayAccess array index) (.add (.arrayIndex index))
  | arrayAccess {e : Expectation} {array index : NodeId} :
    Does tree id e (.arrayAccess array index) (.add (.arrayAccess id array))
  | place {e : Expectation} {function argument : NodeId} {typeArgument : Option NodeId}
      {arguments : List NodeId} {place : Nat} : arguments[place]? = some argument →
    Does tree id e (.call function typeArgument arguments)
      (.write (.index argument) (.index place))
  | call {e : Expectation} {function : NodeId} {typeArgument : Option NodeId}
      {arguments : List NodeId} : Does tree id e (.call function typeArgument arguments)
    (.add (.call id function typeArgument arguments))
  | unary {e : Expectation} {op : UnaryOp} {operand : NodeId} :
    Does tree id e (.unary op operand) (.add (.unary id op operand))
  | binary {e : Expectation} {op : BinaryOp} {left right : NodeId} :
    Does tree id e (.binary op left right) (.add (.binary id op left right))
  | assignment {e : Expectation} {left right : NodeId} :
    Does tree id e (.assignment left right) (.add (.assignment id left right))
  | useType {e : Expectation} {name : String} :
    Does tree id e (.simpleType name) (.useType id name)
  | arrayType {e : Expectation} {component : NodeId} :
    Does tree id e (.arrayType component) (.add (.arrayType id component))
  | enterRoot {e : Expectation} {statements : List NodeId} :
    Does tree id e (.root statements) (.enterRoot id)
  | leaveRoot {e : Expectation} {statements : List NodeId} :
    Does tree id e (.root statements) .leave
  | enterBlock {e : Expectation} {statements : List NodeId} :
    Does tree id e (.block statements) (.enter id)
  | blockReturns {e : Expectation} {statements : List NodeId} :
    Does tree id e (.block statements)
      (.add (.blockReturns id (tree.returnContainers statements)))
  | leaveBlock {e : Expectation} {statements : List NodeId} :
    Does tree id e (.block statements) .leave
  | declareVariable {e : Expectation} {name : String} {type initializer : NodeId} :
    Does tree id e (.varDecl name type initializer) (.declare name id)
  | locateVariable {e : Expectation} {name : String} {type initializer : NodeId} :
    Does tree id e (.varDecl name type initializer) (.locate id)
  | variableType {e : Expectation} {name : String} {type initializer : NodeId} :
    Does tree id e (.varDecl name type initializer) (.add (.declaredType id type))
  | initializer {e : Expectation} {name : String} {type initializer : NodeId} :
    Does tree id e (.varDecl name type initializer) (.add (.initializer name type initializer))
  | fieldType {e : Expectation} {name : String} {type : NodeId} :
    Does tree id e (.fieldDecl name type) (.add (.declaredType id type))
  | declareParameter {e : Expectation} {name : String} {type : NodeId} :
    Does tree id e (.parameter name type) (.declare name id)
  | locateParameter {e : Expectation} {name : String} {type : NodeId} :
    Does tree id e (.parameter name type) (.locate id)
  | parameterType {e : Expectation} {name : String} {type : NodeId} :
    Does tree id e (.parameter name type) (.add (.declaredType id type))
  | declareFunction {e : Expectation} {name : String} {template : Option NodeId}
      {parameters : List NodeId} {returnType body : NodeId} :
    Does tree id e (.funDecl name template parameters returnType body) (.declare name id)
  | enterFunction {e : Expectation} {name : String} {template : Option NodeId}
      {parameters : List NodeId} {returnType body : NodeId} :
    Does tree id e (.funDecl name template parameters returnType body) (.enter id)
  | templateName {e : Expectation} {name : String} {template : NodeId} {parameters : List NodeId}
      {returnType body : NodeId} :
    Does tree id e (.funDecl name (some template) parameters returnType body)
      (.add (.templateParameterName id template))
  | functionType {e : Expectation} {name : String} {template : Option NodeId}
      {parameters : List NodeId} {returnType body : NodeId} :
    Does tree id e (.funDecl name template parameters returnType body)
      (.add (.functionType id parameters returnType))
  | missingReturn {e : Expectation} {name : String} {template : Option NodeId}
      {parameters : List NodeId} {returnType body : NodeId} :
    Does tree id e (.funDecl name template parameters returnType body)
      (.add (.missingReturn id body returnType))
  | leaveFunction {e : Expectation} {name : String} {template : Option NodeId}
      {parameters : List NodeId} {returnType body : NodeId} :
    Does tree id e (.funDecl name template parameters returnType body) .leave
  | declareStruct {e : Expectation} {name : String} {fields : List NodeId} :
    Does tree id e (.structDecl name fields) (.declare name id)
  | structType {e : Expectation} {name : String} {fields : List NodeId} :
    Does tree id e (.structDecl name fields) (.add (.structType id))
  | structDeclared {e : Expectation} {name : String} {fields : List NodeId} :
    Does tree id e (.structDecl name fields) (.add (.structDeclared id name))
  | declareTemplate {e : Expectation} {name : String} :
    Does tree id e (.templateParam name) (.declare name id)
  | placeholder {e : Expectation} {name : String} :
    Does tree id e (.templateParam name) (.placeholder id name)
  | ifCondition {e : Expectation} {condition thenBranch : NodeId} {elseBranch : Option NodeId} :
    Does tree id e (.conditional condition thenBranch elseBranch)
      (.add (.control .ifCondition condition))
  | ifReturns {e : Expectation} {condition thenBranch : NodeId} {elseBranch : Option NodeId} :
    Does tree id e (.conditional condition thenBranch elseBranch)
      (.add (.ifReturns id (tree.returnContainers (thenBranch :: elseBranch.toList))))
  | whileCondition {e : Expectation} {condition body : NodeId} :
    Does tree id e (.whileLoop condition body) (.add (.control .whileCondition condition))
  | forInit {e : Expectation} {init condition step body : NodeId} :
    Does tree id e (.forLoop init condition step body) (.add (.control .forInit init))
  | forCondition {e : Expectation} {init condition step body : NodeId} :
    Does tree id e (.forLoop init condition step body) (.add (.control .forCondition condition))
  | forStep {e : Expectation} {init condition step body : NodeId} :
    Does tree id e (.forLoop init condition step body) (.add (.control .forStep step))
  | returnReturns {e : Expectation} {expression : Option NodeId} :
    Does tree id e (.returnStatement expression) (.add (.returnReturns id))
  | exit {e : Expectation} {expression : Option NodeId} :
    Does tree id e (.returnStatement expression) (.exit id expression)
  | declareFact {e : Expectation} {name : String} {terms : List NodeId} :
    Does tree id e (.fact name terms) (.declare name id)
  | factTerm {e : Expectation} {name : String} {terms : List NodeId} {term : NodeId} :
    term ∈ tree.declaredTerms id → Does tree id e (.fact name terms) (.add (.termType term))
  | declareClause {e : Expectation} {name : String} {head : NodeId} {terms body : List NodeId} :
    tree.atom? head = some (name, terms) → Does tree id e (.clause head body) (.declare name id)
  | clauseTerm {e : Expectation} {head : NodeId} {body : List NodeId} {term : NodeId} :
    term ∈ tree.declaredTerms id → Does tree id e (.clause head body) (.add (.termType term))
  | queryTerm {e : Expectation} {goal term : NodeId} :
    term ∈ tree.declaredTerms id → Does tree id e (.query goal) (.add (.termType term))
  | atom {e : Expectation} {name : String} {terms : List NodeId} :
    Does tree id e (.atom name terms) (.atom id)

/-- Facts on what the walk does go through the cases of `Does`, not through `parts`. -/
theorem does_of_part {node : Node} {action : Action}
    (h : .act action ∈ tree.parts id node expectation) : tree.Does id expectation node action := by
  cases node with
  | arrayLiteral components =>
    cases components with
    | nil =>
      cases expectation <;> simp [parts, emptyArray, add] at h <;> subst h <;> constructor
    | cons first rest =>
      simp [parts, plain, add] at h
      subst h
      constructor
  | call function typeArgument arguments =>
    simp [parts, plain, add, mem_arguments] at h
    rcases h with ⟨place, argument, hplace, rfl⟩ | rfl
    · exact .place hplace
    · exact .call
  | funDecl name template parameters returnType body =>
    simp [parts, plain, add] at h
    rcases h with rfl | rfl | ⟨t, rfl, rfl⟩ | rfl | rfl | rfl <;> constructor
  | clause head body =>
    cases hatom : tree.atom? head with
    | none =>
      simp [parts, plain, add, termParts, hatom] at h
      obtain ⟨term, hterm, rfl⟩ := h
      exact .clauseTerm hterm
    | some held =>
      simp [parts, plain, add, termParts, hatom] at h
      rcases h with rfl | ⟨term, hterm, rfl⟩
      · exact .declareClause hatom
      · exact .clauseTerm hterm
  | fact name terms =>
    simp [parts, plain, add, termParts] at h
    rcases h with rfl | ⟨term, hterm, rfl⟩
    · exact .declareFact
    · exact .factTerm hterm
  | query goal =>
    simp [parts, plain, add, termParts] at h
    obtain ⟨term, hterm, rfl⟩ := h
    exact .queryTerm hterm
  | _ =>
    simp [parts, plain, add, Part.control] at h
    try (rcases h with rfl | rfl | rfl | rfl) <;> constructor

theorem exists_clause_of_need {node : Node} {child : NodeId}
    (h : .need child ∈ tree.parts id node expectation) : ∃ body, node = .clause child body := by
  cases node with
  | clause head body =>
    refine ⟨body, ?_⟩
    cases hatom : tree.atom? head <;>
      simp [parts, plain, add, termParts, hatom] at h <;> rw [h]
  | arrayLiteral components =>
    cases components with
    | nil => cases expectation <;> simp [parts, emptyArray, add] at h
    | cons c cs => simp [parts, plain, add] at h
  | call function typeArgument arguments => simp [parts, plain, add, mem_arguments] at h
  | _ => simp [parts, plain, add, Part.control, termParts] at h

theorem mapM_eq_ok_iff {α β ε : Type} {f : α → Except ε β} {as : List α} {bs : List β} :
    as.mapM f = .ok bs ↔ List.Forall₂ (fun a b => f a = .ok b) as bs := by
  induction as generalizing bs with
  | nil =>
    rw [List.mapM_nil, List.forall₂_nil_left_iff]
    constructor
    · intro h
      exact (Except.ok.inj h).symm
    · intro h
      exact congrArg Except.ok h.symm
  | cons a as ih =>
    rw [List.mapM_cons, List.forall₂_cons_left_iff]
    constructor
    · intro h
      cases ha : f a with
      | error fault =>
        rw [ha] at h
        cases h
      | ok b =>
        cases has : as.mapM f with
        | error fault =>
          rw [ha, has] at h
          cases h
        | ok rest =>
          rw [ha, has] at h
          exact ⟨b, rest, rfl, ih.mp has, (Except.ok.inj h).symm⟩
    · intro ⟨b, rest, ha, has, hbs⟩
      rw [ha, ih.mpr has, hbs]
      rfl

theorem visit_eq_ok_iff {depth : Nat} {list : List Action} :
    tree.visit (depth + 1) id expectation = .ok list ↔ ∃ node, tree.node? id = some node ∧
      ∃ lists, List.Forall₂ (fun part list => tree.follow (tree.visit depth) part = .ok list)
        (tree.parts id node expectation) lists ∧ lists.flatten = list := by
  rw [visit, Tree.node]
  cases hnode : tree.node? id with
  | none =>
    constructor
    · intro h
      cases h
    · intro ⟨node, hsome, _⟩
      cases hsome
  | some node =>
    constructor
    · intro h
      cases hlists : (tree.parts id node expectation).mapM
          (tree.follow (tree.visit depth)) with
      | error fault =>
        change ((tree.parts id node expectation).mapM
          (tree.follow (tree.visit depth)) >>= _) = _ at h
        rw [hlists] at h
        cases h
      | ok lists =>
        change ((tree.parts id node expectation).mapM
          (tree.follow (tree.visit depth)) >>= _) = _ at h
        rw [hlists] at h
        exact ⟨node, rfl, lists, mapM_eq_ok_iff.mp hlists, Except.ok.inj h⟩
    · intro ⟨found, hfound, lists, hlists, hflatten⟩
      cases hfound
      change ((tree.parts id node expectation).mapM (tree.follow (tree.visit depth)) >>= _) = _
      rw [mapM_eq_ok_iff.mpr hlists, ← hflatten]
      rfl

theorem eq_nil_of_need {visit : NodeId → Expectation → Except Fault (List Action)}
    {child : NodeId} {list : List Action} (h : tree.follow visit (.need child) = .ok list) :
    list = [] := by
  rw [follow] at h
  cases hchild : tree.node child with
  | error fault =>
    rw [hchild] at h
    cases h
  | ok found =>
    rw [hchild] at h
    exact (Except.ok.inj h).symm

theorem Acyclic.exists_visit (hacyclic : tree.Acyclic) (hclosed : tree.Closed) {depth : Nat}
    (h : tree.Leads path id expectation) (hdepth : tree.size ≤ path.length + depth) :
    ∃ list, tree.visit depth id expectation = .ok list := by
  induction depth generalizing path id expectation with
  | zero =>
    have hlt := hacyclic.length_lt_size hclosed h
    omega
  | succ depth ih =>
    obtain ⟨node, hnode⟩ := hclosed _ _ _ h
    have hfollow : ∀ part ∈ tree.parts id node expectation,
        ∃ list, tree.follow (tree.visit depth) part = .ok list := by
      intro part hpart
      cases part with
      | act action => exact ⟨[action], rfl⟩
      | visit child lent =>
        obtain ⟨below, hbelow, hlonger⟩ := leads_of_visit h hnode (mem_visits.mpr hpart)
        exact ih hbelow (by omega)
      | need child =>
        obtain ⟨body, rfl⟩ := exists_clause_of_need hpart
        obtain ⟨_, _, hhead⟩ := h.exists_of_children hnode (List.mem_cons_self (a := child))
        obtain ⟨found, hfound⟩ := hclosed _ _ _ hhead
        exact ⟨[], by simp [follow, Tree.node, hfound, Except.map]⟩
    have hlists : ∀ parts : List Part, (∀ part ∈ parts,
        ∃ list, tree.follow (tree.visit depth) part = .ok list) → ∃ lists, List.Forall₂
          (fun part list => tree.follow (tree.visit depth) part = .ok list) parts lists := by
      intro parts
      induction parts with
      | nil => exact fun _ => ⟨[], .nil⟩
      | cons part parts ihparts =>
        intro hall
        obtain ⟨list, hlist⟩ := hall part List.mem_cons_self
        obtain ⟨lists, hrest⟩ := ihparts fun other hother =>
          hall other (List.mem_cons_of_mem _ hother)
        exact ⟨list :: lists, .cons hlist hrest⟩
    obtain ⟨lists, hall⟩ := hlists _ hfollow
    exact ⟨_, visit_eq_ok_iff.mpr ⟨node, hnode, lists, hall, rfl⟩⟩

def own (tree : Tree) (place : NodeId × Expectation) : List Action :=
  (tree.node? place.1).toList.flatMap (tree.actions place.1 place.2)

theorem own_eq {node : Node} (hnode : tree.node? id = some node) :
    tree.own (id, expectation) = tree.actions id expectation node := by
  rw [own, hnode, Option.toList_some, List.flatMap_singleton]

theorem mem_own {action : Action} : action ∈ tree.own (id, expectation) ↔
    ∃ node, tree.node? id = some node ∧ action ∈ tree.actions id expectation node := by
  simp [own]

/-- Up to order, a visit yields what each node on its trail asks for. -/
theorem perm_of_visit {depth : Nat} {list : List Action}
    (h : tree.visit depth id expectation = .ok list) :
    list.Perm ((tree.trail depth id expectation).flatMap tree.own) := by
  induction depth generalizing id expectation list with
  | zero => cases h
  | succ depth ih =>
    obtain ⟨node, hnode, lists, hlists, rfl⟩ := visit_eq_ok_iff.mp h
    have hparts : ∀ (parts : List Part) (lists : List (List Action)), List.Forall₂
        (fun part list => tree.follow (tree.visit depth) part = .ok list) parts lists →
        lists.flatten.Perm (parts.filterMap action? ++ (parts.filterMap visited?).flatMap
          fun child => (tree.trail depth child.1 child.2).flatMap tree.own) := by
      intro parts lists hall
      induction hall with
      | nil => exact .refl _
      | @cons part list parts lists hpart _ ihparts =>
        rw [List.flatten_cons]
        cases part with
        | act action =>
          cases hpart
          exact ihparts.cons action
        | visit child lent =>
          have hswap := (ih hpart).append ihparts
          refine hswap.trans ?_
          rw [filterMap_visited_visit, List.flatMap_cons]
          exact (List.perm_append_comm_assoc _ _ _)
        | need child =>
          rw [eq_nil_of_need hpart]
          exact ihparts
    refine (hparts _ _ hlists).trans ?_
    rw [trail, hnode, List.flatMap_cons, Option.toList_some, List.flatMap_singleton,
      List.flatMap_assoc, own, hnode, Option.toList_some, List.flatMap_singleton]
    exact .refl _

theorem exists_of_forall₂ {α β : Type} {related : α → β → Prop} {as : List α}
    {bs : List β} (h : List.Forall₂ related as bs) {a : α} (ha : a ∈ as) :
    ∃ b ∈ bs, related a b := by
  induction h with
  | nil => cases ha
  | cons hfirst _ ih =>
    rcases List.mem_cons.mp ha with rfl | hrest
    · exact ⟨_, List.mem_cons_self, hfirst⟩
    · obtain ⟨b, hb, hrelated⟩ := ih hrest
      exact ⟨b, List.mem_cons_of_mem _ hb, hrelated⟩

theorem infix_of_visit {depth : Nat} {list : List Action}
    (h : tree.visit depth id expectation = .ok list) {found : NodeId × Expectation}
    (hfound : found ∈ tree.trail depth id expectation) :
    ∃ below piece, tree.visit below found.1 found.2 = .ok piece ∧ piece <:+: list := by
  induction depth generalizing id expectation list with
  | zero => cases h
  | succ depth ih =>
    obtain ⟨node, hnode, lists, hlists, rfl⟩ := visit_eq_ok_iff.mp h
    rcases (mem_trail_succ hnode).mp hfound with rfl | ⟨child, hchild, hbelow⟩
    · exact ⟨depth + 1, _, h, List.infix_rfl⟩
    · obtain ⟨list, hlist, hfollow⟩ := exists_of_forall₂ hlists (mem_visits.mp hchild)
      obtain ⟨below, piece, hpiece, hinfix⟩ := ih hfollow hbelow
      exact ⟨below, piece, hpiece, hinfix.trans (List.infix_of_mem_flatten hlist)⟩

theorem eq_of_binds {node : Node} {action : Action}
    (h : .act action ∈ tree.parts id node expectation) (hbinds : action.binds?.isSome) :
    (∃ name, node = .reference name ∧ action = .useName id name) ∨
      (∃ name, node = .simpleType name ∧ action = .useType id name) ∨
      ∃ name, node = .templateParam name ∧ action = .placeholder id name := by
  cases does_of_part h with
  | useName => exact .inl ⟨_, rfl, rfl⟩
  | useType => exact .inr (.inl ⟨_, rfl, rfl⟩)
  | placeholder => exact .inr (.inr ⟨_, rfl, rfl⟩)
  | _ => cases hbinds

theorem binds_actions_sublist (node : Node) :
    ((tree.actions id expectation node).filterMap Action.binds?).Sublist [id] := by
  by_cases hsome : ∃ action ∈ tree.actions id expectation node, action.binds?.isSome
  · obtain ⟨action, haction, hbinds⟩ := hsome
    rcases eq_of_binds (mem_actions.mp haction) hbinds with
      ⟨name, rfl, _⟩ | ⟨name, rfl, _⟩ | ⟨name, rfl, _⟩
    · exact .refl _
    · exact .refl _
    · exact .refl _
  · have hnil : (tree.actions id expectation node).filterMap Action.binds? = [] := by
      apply List.filterMap_eq_nil_iff.mpr
      intro action haction
      cases hbinds : action.binds? with
      | none => rfl
      | some n => exact absurd ⟨action, haction, by simp [hbinds]⟩ hsome
    rw [hnil]
    exact List.nil_sublist _

theorem exists_of_visit {depth : Nat} {list : List Action}
    (h : tree.visit depth id expectation = .ok list) : ∃ node, tree.node? id = some node := by
  cases depth with
  | zero => cases h
  | succ depth =>
    obtain ⟨node, hnode, _⟩ := visit_eq_ok_iff.mp h
    exact ⟨node, hnode⟩

theorem exists_of_walked {list : List Action} (h : tree.walk = .ok list)
    (hwalked : tree.Walked id expectation) : ∃ node, tree.node? id = some node := by
  obtain ⟨depth, piece, hpiece, _⟩ := infix_of_visit h hwalked
  exact exists_of_visit hpiece

theorem exists_of_visits {list : List Action} (h : tree.walk = .ok list)
    (hwalked : tree.Walked id expectation) {node : Node} (hnode : tree.node? id = some node)
    {child : NodeId} {lent : Expectation}
    (hchild : (child, lent) ∈ tree.visits id expectation node) :
    ∃ found, tree.node? child = some found := by
  obtain ⟨depth, piece, hpiece, _⟩ := infix_of_visit h hwalked
  cases depth with
  | zero => cases hpiece
  | succ depth =>
    obtain ⟨found, hfound, lists, hlists, _⟩ := visit_eq_ok_iff.mp hpiece
    cases Option.some.inj (hnode.symm.trans hfound)
    obtain ⟨list, _, hfollow⟩ := exists_of_forall₂ hlists (mem_visits.mp hchild)
    exact exists_of_visit hfollow

theorem mem_trail_self {depth : Nat} {list : List Action}
    (h : tree.visit depth id expectation = .ok list) :
    (id, expectation) ∈ tree.trail depth id expectation := by
  cases depth with
  | zero => cases h
  | succ depth => exact List.mem_cons_self

theorem mem_trail_of_visits {depth : Nat} {list : List Action}
    (h : tree.visit depth id expectation = .ok list) {found child : NodeId × Expectation}
    (hfound : found ∈ tree.trail depth id expectation) {node : Node}
    (hnode : tree.node? found.1 = some node) (hchild : child ∈ tree.visits found.1 found.2 node) :
    child ∈ tree.trail depth id expectation := by
  induction depth generalizing id expectation list with
  | zero => cases h
  | succ depth ih =>
    obtain ⟨start, hstart, lists, hlists, _⟩ := visit_eq_ok_iff.mp h
    rw [mem_trail_succ hstart] at hfound ⊢
    right
    rcases hfound with rfl | ⟨next, hnext, hfound⟩
    · cases Option.some.inj (hstart.symm.trans hnode)
      obtain ⟨list, _, hvisit⟩ := exists_of_forall₂ hlists (mem_visits.mp hchild)
      exact ⟨child, hchild, mem_trail_self hvisit⟩
    · obtain ⟨list, _, hvisit⟩ := exists_of_forall₂ hlists (mem_visits.mp hnext)
      exact ⟨next, hnext, ih hvisit hfound⟩

/-- Clauses are headed by atoms. -/
def Headed (tree : Tree) : Prop :=
  ∀ clause head body, tree.node? clause = some (.clause head body) →
    tree.satisfies head Node.isAtom

theorem WellFormed.headed (hwell : tree.WellFormed) : tree.Headed :=
  fun _ head _ hclause => hwell.fits _ _ hclause head List.mem_cons_self

namespace Headed

theorem trail_or_head (hheaded : tree.Headed) {depth : Nat} {list : List Action}
    (h : tree.visit depth id expectation = .ok list) (hleads : tree.Leads path id expectation)
    {way : List Nat} {found : NodeId} {lent : Expectation}
    (hbelow : tree.Leads (way ++ path) found lent) :
    (found, lent) ∈ tree.trail depth id expectation ∨ ∃ clause before body,
      (clause, before) ∈ tree.trail depth id expectation ∧
        tree.node? clause = some (.clause found body) := by
  induction way generalizing found lent with
  | nil =>
    obtain ⟨rfl, rfl⟩ := hleads.unique hbelow
    exact .inl (mem_trail_self h)
  | cons place way ih =>
    cases hbelow with
    | @child _ parent before node _ _ _ hparent hnode hchild =>
      rcases ih hparent with htrail | ⟨clause, outer, body, htrail, hclause⟩
      · by_cases hclause : ∀ head body, node ≠ .clause head body
        · left
          apply mem_trail_of_visits h htrail hnode
          rw [visits_eq tree parent before hclause]
          exact List.mem_of_getElem? hchild
        · simp only [not_forall, not_not] at hclause
          obtain ⟨head, body, rfl⟩ := hclause
          obtain ⟨child, hmem, heq⟩ := List.mem_map.mp (List.mem_of_getElem? hchild)
          cases heq
          rcases List.mem_cons.mp hmem with rfl | hbody
          · exact .inr ⟨parent, before, body, htrail, hnode⟩
          · left
            apply mem_trail_of_visits h htrail hnode
            rw [visits_clause]
            exact List.mem_map.mpr ⟨_, List.mem_append_right _ hbody, rfl⟩
      · left
        obtain ⟨name, terms, hhead⟩ := exists_atom (hheaded _ _ _ hclause)
        cases Option.some.inj (hnode.symm.trans hhead)
        obtain ⟨child, hmem, heq⟩ := List.mem_map.mp (List.mem_of_getElem? hchild)
        cases heq
        apply mem_trail_of_visits h htrail hclause
        rw [visits_clause, atomTerms_eq hhead]
        exact List.mem_map.mpr ⟨_, List.mem_append_left _ hmem, rfl⟩

theorem mem_trail (hheaded : tree.Headed) {depth : Nat} {list : List Action}
    (h : tree.visit depth id expectation = .ok list) (hleads : tree.Leads path id expectation)
    {way : List Nat} {found : NodeId} {lent : Expectation}
    (hbelow : tree.Leads (way ++ path) found lent) {node : Node}
    (hnode : tree.node? found = some node) (hatom : node.isAtom = false) :
    (found, lent) ∈ tree.trail depth id expectation := by
  rcases hheaded.trail_or_head h hleads hbelow with htrail | ⟨clause, before, body, _, hclause⟩
  · exact htrail
  · obtain ⟨name, terms, hhead⟩ := exists_atom (hheaded _ _ _ hclause)
    cases Option.some.inj (hnode.symm.trans hhead)
    cases hatom

/-- A walk that succeeds comes to everything but the heads of clauses. -/
theorem walked (hheaded : tree.Headed) {list : List Action} (hwalk : tree.walk = .ok list)
    (h : tree.Leads path id expectation) {node : Node} (hnode : tree.node? id = some node)
    (hatom : node.isAtom = false) : tree.Walked id expectation :=
  hheaded.mem_trail hwalk .root ((List.append_nil path).symm ▸ h) hnode hatom

end Headed

theorem Acyclic.exists_walk (hacyclic : tree.Acyclic) (hclosed : tree.Closed) :
    ∃ list, tree.walk = .ok list :=
  hacyclic.exists_visit hclosed .root (Nat.le_add_left _ _)

theorem Unshared.nodup_walked (hunshared : tree.Unshared) {list : List Action}
    (h : tree.walk = .ok list) : ((tree.trail tree.size tree.root .nothing).map Prod.fst).Nodup :=
  hunshared.nodup_trail fun _ _ hwalked => Option.isSome_iff_exists.mpr (exists_of_walked h hwalked)

/-- If each node acts once at most in some respect, and only for itself, the walk acts once at most
for any node. -/
theorem Unshared.nodup_filterMap (hunshared : tree.Unshared) {list : List Action}
    (h : tree.walk = .ok list) {key : Action → Option NodeId}
    (hkey : ∀ id expectation node,
      ((tree.actions id expectation node).filterMap key).Sublist [id]) :
    (list.filterMap key).Nodup := by
  have hsub : ((tree.trail tree.size tree.root .nothing).flatMap fun place =>
      (tree.own place).filterMap key).Sublist
      ((tree.trail tree.size tree.root .nothing).flatMap fun place => [place.1]) := by
    apply List.Sublist.flatMap_right
    intro place _
    rw [own]
    cases hnode : tree.node? place.1 with
    | none => exact List.nil_sublist _
    | some node =>
      rw [Option.toList_some, List.flatMap_singleton]
      exact hkey _ _ _
  rw [((perm_of_visit h).filterMap _).nodup_iff, List.filterMap_flatMap]
  apply hsub.nodup
  rw [← List.map_eq_flatMap]
  exact hunshared.nodup_walked h

namespace WellFormed

theorem exists_walk (hwell : tree.WellFormed) : ∃ list, tree.walk = .ok list :=
  hwell.acyclic.exists_walk hwell.closed

theorem walked (hwell : tree.WellFormed) (h : tree.Leads path id expectation) {node : Node}
    (hnode : tree.node? id = some node) (hatom : node.isAtom = false) :
    tree.Walked id expectation := by
  obtain ⟨list, hwalk⟩ := hwell.exists_walk
  exact hwell.headed.walked hwalk h hnode hatom

theorem mem_walk {list : List Action} (h : tree.walk = .ok list) {action : Action} :
    action ∈ list ↔ ∃ id expectation node, tree.Walked id expectation ∧
      tree.node? id = some node ∧ action ∈ tree.actions id expectation node := by
  rw [(perm_of_visit h).mem_iff, List.mem_flatMap]
  constructor
  · intro ⟨⟨id, expectation⟩, hwalked, hown⟩
    obtain ⟨node, hnode, haction⟩ := mem_own.mp hown
    exact ⟨id, expectation, node, hwalked, hnode, haction⟩
  · intro ⟨id, expectation, node, hwalked, hnode, haction⟩
    exact ⟨(id, expectation), hwalked, mem_own.mpr ⟨node, hnode, haction⟩⟩

theorem nodup_binds (hwell : tree.WellFormed) {list : List Action} (h : tree.walk = .ok list) :
    (list.filterMap Action.binds?).Nodup :=
  hwell.unshared.nodup_filterMap h fun _ _ node => binds_actions_sublist node

end WellFormed

end Tree
end Attribution
