import Attribution.Proofs.Tree.Actions
/-!
# The order of a walk

A walk over a tree acts on every name and on every declaration once. It declares a function before
anything below it, parameters before the body, and a variable after its initializer.
-/
namespace Attribution

def Node.isDeclaration : Node → Bool
  | varDecl .. | parameter .. | funDecl .. | structDecl .. | templateParam _ | fact ..
  | clause .. => true
  | _ => false

namespace Action

/-- The declaration that an action introduces. -/
def declares? : Action → Option NodeId
  | declare _ decl => some decl
  | _ => none

def declared : Action → List (String × NodeId)
  | declare name decl => [(name, decl)]
  | _ => []

theorem mem_declared {action : Action} {name : String} {decl : NodeId} :
    (name, decl) ∈ action.declared ↔ action = declare name decl := by
  cases action <;> simp [declared, eq_comm]

end Action

open Attribution.Part

namespace Tree

variable {tree : Tree} {id : NodeId} {expectation : Expectation} {node : Node}

/-- The name that the walk declares at a node. -/
def introduced? (tree : Tree) : Node → Option String
  | .varDecl name .. | .parameter name _ | .funDecl name .. | .structDecl name _
  | .templateParam name | .fact name _ => some name
  | .clause head _ => (tree.atom? head).map Prod.fst
  | _ => none

theorem flatMap_declared_actions (tree : Tree) (id : NodeId) (expectation : Expectation)
    (node : Node) : (tree.actions id expectation node).flatMap Action.declared =
      (tree.introduced? node).toList.map fun name => (name, id) := by
  rw [flatMap_actions]
  cases node with
  | arrayLiteral components =>
    cases components with
    | nil => cases expectation <;> simp [parts, emptyArray, introduced?, Action.declared]
    | cons c cs => simp [parts, introduced?, Action.declared]
  | clause head body =>
    cases hatom : tree.atom? head <;> simp [parts, introduced?, hatom, Action.declared]
  | funDecl name template parameters returnType body =>
    cases template <;> simp [parts, introduced?, Action.declared]
  | _ => simp [parts, Part.control, introduced?, Action.declared]

theorem declare_mem_iff {name : String} {decl : NodeId} :
    .act (.declare name decl) ∈ tree.parts id node expectation ↔
      decl = id ∧ tree.introduced? node = some name := by
  have hmem : .act (.declare name decl) ∈ tree.parts id node expectation ↔
      (name, decl) ∈ (tree.actions id expectation node).flatMap Action.declared := by
    rw [← mem_actions, List.mem_flatMap]
    constructor
    · intro haction
      exact ⟨_, haction, Action.mem_declared.mpr rfl⟩
    · intro ⟨action, haction, hdeclared⟩
      exact Action.mem_declared.mp hdeclared ▸ haction
  rw [hmem, flatMap_declared_actions]
  cases tree.introduced? node <;> simp [and_comm, eq_comm]

theorem isDeclaration_of_introduced {name : String} (h : tree.introduced? node = some name) :
    node.isDeclaration := by
  cases node <;> first | rfl | cases h

theorem declares_actions_sublist (node : Node) :
    ((tree.actions id expectation node).filterMap Action.declares?).Sublist [id] := by
  have hlist : (tree.actions id expectation node).filterMap Action.declares? =
      ((tree.actions id expectation node).flatMap Action.declared).map Prod.snd := by
    rw [List.filterMap_eq_flatMap_toList, List.map_flatMap]
    congr 1
    funext action
    cases action <;> rfl
  rw [hlist, flatMap_declared_actions]
  cases tree.introduced? node with
  | none => exact List.nil_sublist _
  | some name => exact List.Sublist.refl _

theorem Unshared.nodup_declares (hunshared : tree.Unshared) {list : List Action}
    (h : tree.walk = .ok list) : (list.filterMap Action.declares?).Nodup :=
  hunshared.nodup_filterMap h fun _ _ node => declares_actions_sublist node

theorem split_unique {key : Action → Option NodeId}
    {actions before before' after after' : List Action} {action action' : Action}
    (hnd : (actions.filterMap key).Nodup) (h : actions = before ++ action :: after)
    (h' : actions = before' ++ action' :: after') (hsome : (key action).isSome)
    (heq : key action' = key action) : before' = before ∧ action' = action := by
  obtain ⟨node, hnode⟩ := Option.isSome_iff_exists.mp hsome
  rw [hnode] at heq
  have hfresh : ∀ {before after : List Action} {action other : Action},
      key action = some node → actions = before ++ action :: after →
        key other = some node → other ∉ before := by
    intro before after action other hb heq hother hmem
    rw [heq, List.filterMap_append, List.filterMap_cons_some hb] at hnd
    exact (List.nodup_append.mp hnd).2.2 node (List.mem_filterMap.mpr ⟨other, hmem, hother⟩) node
      List.mem_cons_self rfl
  have hbefore := hfresh hnode h heq
  have hbefore' := hfresh heq h' hnode
  rw [h] at h'
  rcases List.append_eq_append_iff.mp h' with ⟨between, rfl, hrest⟩ | ⟨between, rfl, hrest⟩
  · cases between with
    | nil =>
      cases hrest
      exact ⟨List.append_nil _, rfl⟩
    | cons first between =>
      cases hrest
      exact absurd (List.mem_append_right _ List.mem_cons_self) hbefore'
  · cases between with
    | nil =>
      cases hrest
      exact ⟨(List.append_nil _).symm, rfl⟩
    | cons first between =>
      cases hrest
      exact absurd (List.mem_append_right _ List.mem_cons_self) hbefore

/-- A node lies below another one, or is this one. -/
def Below (tree : Tree) (above id : NodeId) : Prop :=
  ∃ path way expectation lent, tree.Leads path above expectation ∧ tree.Leads (way ++ path) id lent

theorem exists_split_of_visit {depth : Nat} {list : List Action}
    (h : tree.visit (depth + 1) id expectation = .ok list) (hnode : tree.node? id = some node)
    {child : NodeId} {lent : Expectation} {front back : List Part}
    (hparts : tree.parts id node expectation = front ++ .visit child lent :: back) :
    ∃ left piece right, list = left ++ piece ++ right ∧ tree.visit depth child lent = .ok piece ∧
      (∀ action, .act action ∈ back → action ∈ right) ∧
      ∀ part ∈ front, ∃ inner, tree.follow (tree.visit depth) part = .ok inner ∧
        inner <:+: left := by
  obtain ⟨found, hfound, lists, hlists, rfl⟩ := visit_eq_ok_iff.mp h
  cases Option.some.inj (hnode.symm.trans hfound)
  rw [hparts] at hlists
  have hsplit : ∀ (front : List Part) (lists : List (List Action)),
      List.Forall₂ (fun part list => tree.follow (tree.visit depth) part = .ok list)
        (front ++ .visit child lent :: back) lists →
      ∃ left piece right, lists.flatten = left ++ piece ++ right ∧
        tree.visit depth child lent = .ok piece ∧ (∀ action, .act action ∈ back → action ∈ right) ∧
        ∀ part ∈ front, ∃ inner, tree.follow (tree.visit depth) part = .ok inner ∧
          inner <:+: left := by
    intro front
    induction front with
    | nil =>
      intro lists hall
      obtain _ | ⟨hvisit, hback⟩ := hall
      next piece rest =>
        refine ⟨[], piece, rest.flatten, rfl, hvisit, ?_, by simp⟩
        intro action haction
        obtain ⟨inner, hinner, hfollow⟩ := exists_of_forall₂ hback haction
        cases hfollow
        exact List.mem_flatten.mpr ⟨_, hinner, List.mem_cons_self⟩
    | cons part front ih =>
      intro lists hall
      obtain _ | ⟨hfirst, hrest⟩ := hall
      next first rest =>
        obtain ⟨left, piece, right, hflatten, hvisit, hback, hfront⟩ := ih rest hrest
        refine ⟨first ++ left, piece, right, by simp [hflatten], hvisit, hback, ?_⟩
        intro other hother
        rcases List.mem_cons.mp hother with rfl | hmem
        · exact ⟨first, hfirst, (List.prefix_append first left).isInfix⟩
        · obtain ⟨inner, hfollow, hinfix⟩ := hfront other hmem
          exact ⟨inner, hfollow, hinfix.trans (List.suffix_append first left).isInfix⟩
  exact hsplit front lists hlists

theorem mem_of_visit {depth : Nat} {list : List Action}
    (h : tree.visit depth id expectation = .ok list) (hnode : tree.node? id = some node)
    {action : Action} (haction : .act action ∈ tree.parts id node expectation) : action ∈ list := by
  rw [(perm_of_visit h).mem_iff]
  exact List.mem_flatMap.mpr ⟨_, mem_trail_self h, mem_own.mpr ⟨_, hnode, mem_actions.mpr haction⟩⟩

/-- The walk over a tree, divided at a node. -/
theorem exists_piece (hwell : tree.WellFormed) {list : List Action} (h : tree.walk = .ok list)
    (hnode : tree.node? id = some node) (hatom : node.isAtom = false) :
    ∃ path expectation depth front piece back, tree.Leads path id expectation ∧
      tree.visit (depth + 1) id expectation = .ok piece ∧ list = front ++ piece ++ back := by
  obtain ⟨path, expectation, hleads⟩ := hwell.exists_leads hnode
  obtain ⟨depth, piece, hpiece, front, back, heq⟩ :=
    infix_of_visit h (hwell.walked hleads hnode hatom)
  cases depth with
  | zero => cases hpiece
  | succ depth => exact ⟨path, expectation, depth, front, piece, back, hleads, hpiece, heq.symm⟩

/-- A walk, as it comes to a reference. -/
structure Meets (tree : Tree) (id : NodeId) (name : String) (before after : List Action) :
    Prop where
  node : tree.node? id = some (.reference name)
  walk : tree.walk = .ok (before ++ .useName id name :: after)

namespace Meets

variable {name : String} {before after : List Action}

theorem exists_of (hwell : tree.WellFormed) (hnode : tree.node? id = some (.reference name)) :
    ∃ before after, tree.Meets id name before after := by
  obtain ⟨list, hwalk⟩ := hwell.exists_walk
  obtain ⟨path, expectation, hleads⟩ := hwell.exists_leads hnode
  have hmem : .useName id name ∈ list := (WellFormed.mem_walk hwalk).mpr
    ⟨id, expectation, _, hwell.walked hleads hnode rfl, hnode, by simp [mem_actions, parts]⟩
  obtain ⟨before, after, rfl⟩ := List.append_of_mem hmem
  exact ⟨before, after, hnode, hwalk⟩

theorem mem_visit (h : tree.Meets id name before after) (hwell : tree.WellFormed) {depth : Nat}
    {above : NodeId} {list : List Action} (hvisit : tree.visit depth above expectation = .ok list)
    {path : List Nat} (hleads : tree.Leads path above expectation) (hbelow : tree.Below above id) :
    .useName id name ∈ list := by
  obtain ⟨other, way, outer, lent, hother, hid⟩ := hbelow
  obtain rfl := hwell.once _ _ _ _ _ hleads hother
  have htrail := hwell.headed.mem_trail hvisit hleads hid h.node rfl
  obtain ⟨below, piece, hpiece, hinfix⟩ := infix_of_visit hvisit htrail
  exact hinfix.subset (mem_of_visit hpiece h.node (by simp [parts]))

theorem eq_before (h : tree.Meets id name before after) (hwell : tree.WellFormed)
    {front middle back : List Action} (hsplit : before ++ .useName id name :: after =
      front ++ middle ++ back) (hmem : .useName id name ∈ middle) :
    ∃ rest, before = front ++ rest ∧ ∃ next, after = next ++ back := by
  obtain ⟨left, right, rfl⟩ := List.append_of_mem hmem
  have hsame : before ++ .useName id name :: after =
      (front ++ left) ++ .useName id name :: (right ++ back) := by simp [hsplit]
  have hbefore := (split_unique (hwell.nodup_binds h.walk) rfl hsame rfl rfl).1
  refine ⟨left, hbefore.symm, right, ?_⟩
  rw [hbefore] at hsame
  exact (List.cons.inj (List.append_cancel_left hsame)).2

theorem function_declared (h : tree.Meets id name before after) (hwell : tree.WellFormed)
    {function : NodeId} {held : String} {template : Option NodeId} {parameters : List NodeId}
    {returnType body : NodeId} (hfunction :
      tree.node? function = some (.funDecl held template parameters returnType body))
    (hbelow : tree.Below function id) : .declare held function ∈ before := by
  obtain ⟨path, expectation, depth, front, piece, back, hleads, hpiece, hsplit⟩ :=
    exists_piece hwell h.walk hfunction rfl
  have hmem := h.mem_visit hwell hpiece hleads hbelow
  obtain ⟨found, hfound, lists, hlists, rfl⟩ := visit_eq_ok_iff.mp hpiece
  cases Option.some.inj (hfunction.symm.trans hfound)
  obtain _ | ⟨hdeclare, hrest⟩ := hlists
  next first rest =>
    cases hdeclare
    have hinner : .useName id name ∈ rest.flatten := by simpa using hmem
    have hdivided : before ++ .useName id name :: after =
        (front ++ [.declare held function]) ++ rest.flatten ++ back := by simp [hsplit]
    obtain ⟨inner, rfl, _⟩ := h.eq_before hwell hdivided hinner
    simp

theorem parameter_declared (h : tree.Meets id name before after) (hwell : tree.WellFormed)
    {function : NodeId} {held : String} {template : Option NodeId} {parameters : List NodeId}
    {returnType body : NodeId} (hfunction :
      tree.node? function = some (.funDecl held template parameters returnType body))
    (hbelow : tree.Below body id) {parameter : NodeId} (hmem : parameter ∈ parameters)
    {given : String} {type : NodeId}
    (hparameter : tree.node? parameter = some (.parameter given type)) :
    .declare given parameter ∈ before := by
  obtain ⟨path, expectation, depth, front, piece, back, hleads, hpiece, hsplit⟩ :=
    exists_piece hwell h.walk hfunction rfl
  have hparts : tree.parts function (.funDecl held template parameters returnType body)
      expectation = ([act (.declare held function), act (.enter function)] ++
        template.toList.flatMap (fun t => [plain t, add (.templateParameterName function t)]) ++
          parameters.map plain ++ [plain returnType]) ++ .visit body .nothing ::
        [add (.functionType function parameters returnType),
          add (.missingReturn function body returnType), act .leave] := by
    simp [parts, plain]
  obtain ⟨left, middle, right, rfl, hbody, _, hfront⟩ :=
    exists_split_of_visit hpiece hfunction hparts
  obtain ⟨inner, hinner, hinfix⟩ := hfront (plain parameter)
    (List.mem_append_left _ (List.mem_append_right _ (List.mem_map_of_mem hmem)))
  have hchild : (body, Expectation.nothing) ∈ Node.offspring function expectation
      (.funDecl held template parameters returnType body) := by
    simp [Node.offspring, Node.children]
  obtain ⟨place, hinside⟩ := hleads.exists_child hfunction hchild
  have hdeclared : .declare given parameter ∈ left :=
    hinfix.subset (mem_of_visit hinner hparameter (by simp [parts]))
  have hdivided : before ++ .useName id name :: after =
      (front ++ left) ++ middle ++ (right ++ back) := by simp [hsplit]
  obtain ⟨rest, rfl, _⟩ :=
    h.eq_before hwell hdivided (h.mem_visit hwell hbody hinside hbelow)
  simp [hdeclared]

theorem variable_not_declared (h : tree.Meets id name before after) (hwell : tree.WellFormed)
    {decl : NodeId} {held : String} {type initializer : NodeId}
    (hdecl : tree.node? decl = some (.varDecl held type initializer))
    (hbelow : tree.Below initializer id) (other : String) : .declare other decl ∉ before := by
  obtain ⟨path, expectation, depth, front, piece, back, hleads, hpiece, hsplit⟩ :=
    exists_piece hwell h.walk hdecl rfl
  have hparts : tree.parts decl (.varDecl held type initializer) expectation =
      [plain type] ++ .visit initializer (.variable decl) :: [act (.declare held decl),
        act (.locate decl), add (.declaredType decl type),
          add (.initializer held type initializer)] := rfl
  obtain ⟨left, middle, right, rfl, hinitializer, hback, _⟩ :=
    exists_split_of_visit hpiece hdecl hparts
  have hchild : (initializer, Expectation.variable decl) ∈
      Node.offspring decl expectation (.varDecl held type initializer) := by simp [Node.offspring]
  obtain ⟨place, hinside⟩ := hleads.exists_child hdecl hchild
  have hdivided : before ++ .useName id name :: after =
      (front ++ left) ++ middle ++ (right ++ back) := by simp [hsplit]
  obtain ⟨rest, rfl, next, rfl⟩ :=
    h.eq_before hwell hdivided (h.mem_visit hwell hinitializer hinside hbelow)
  have hlater : .declare held decl ∈ right := hback _ (by simp)
  -- the walk declares the variable once, and it does so later
  intro hearlier
  have hnd := hwell.unshared.nodup_declares h.walk
  rw [List.filterMap_append] at hnd
  refine (List.nodup_append.mp hnd).2.2 decl (List.mem_filterMap.mpr ⟨_, hearlier, rfl⟩) decl ?_ rfl
  exact List.mem_filterMap.mpr ⟨.declare held decl, by simp [hlater], rfl⟩

end Meets

end Tree
end Attribution
