import Attribution.Proofs.Renaming.Types
import Attribution.Dependence
import Attribution.Traversal
/-!
# Renaming trees

The walk over a renamed tree is the walk over the tree, renamed: at each node it has the same parts
in the same order, and what is asked of other nodes does not depend on their names.
-/
namespace Attribution

variable {f : Renaming}

/-- The node with other names. The texts and symbols of literals are no names. -/
def Node.rename (f : Renaming) : Node → Node
  | .reference name => .reference (f name)
  | .fieldAccess stem field => .fieldAccess stem (f field)
  | .simpleType name => .simpleType (f name)
  | .varDecl name type initializer => .varDecl (f name) type initializer
  | .fieldDecl name type => .fieldDecl (f name) type
  | .parameter name type => .parameter (f name) type
  | .funDecl name template parameters returnType body =>
    .funDecl (f name) template parameters returnType body
  | .structDecl name fields => .structDecl (f name) fields
  | .templateParam name => .templateParam (f name)
  | .fact name terms => .fact (f name) terms
  | .atom name terms => .atom (f name) terms
  | node => node

def Tree.rename (f : Renaming) (tree : Tree) : Tree :=
  { tree with
    nodes := tree.nodes.map fun located => { located with node := located.node.rename f } }

namespace Tree

variable (tree : Tree) (id : NodeId)

@[simp] theorem size_rename : (tree.rename f).size = tree.size := Array.size_map

@[simp] theorem node?_rename : (tree.rename f).node? id = (tree.node? id).map (Node.rename f) := by
  simp [node?, rename, Function.comp_def]

theorem node_rename : (tree.rename f).node id = (tree.node id).map (Node.rename f) := by
  rw [node, node, node?_rename]
  cases tree.node? id <;> rfl

theorem satisfies_rename {test : Node → Bool}
    (h : ∀ node : Node, test (node.rename f) = test node) :
    (tree.rename f).satisfies id test = tree.satisfies id test := by
  rw [satisfies, satisfies, node?_rename]
  cases tree.node? id with
  | none => rfl
  | some node => exact h node

theorem atom?_rename : (tree.rename f).atom? id =
    (tree.atom? id).map fun (name, terms) => (f name, terms) := by
  rw [atom?, atom?, node?_rename]
  cases tree.node? id with
  | none => rfl
  | some node => cases node <;> rfl

theorem atomTerms_rename : (tree.rename f).atomTerms id = tree.atomTerms id := by
  rw [atomTerms, atomTerms, atom?_rename]
  cases tree.atom? id <;> rfl

theorem declaredName?_rename :
    (tree.rename f).declaredName? id = (tree.declaredName? id).map f := by
  rw [declaredName?, declaredName?, node?_rename]
  cases tree.node? id with
  | none => rfl
  | some node =>
    cases node with
    | clause head body =>
      simp only [Option.map_some, Node.rename, atom?_rename, Option.map_map]
      rfl
    | _ => rfl

theorem predicateArity?_rename :
    (tree.rename f).predicateArity? id = tree.predicateArity? id := by
  rw [predicateArity?, predicateArity?, node?_rename]
  cases tree.node? id with
  | none => rfl
  | some node =>
    cases node with
    | clause head body =>
      simp only [Option.map_some, Node.rename, atom?_rename, Option.map_map]
      rfl
    | _ => rfl

theorem declaredTerms_rename : (tree.rename f).declaredTerms id = tree.declaredTerms id := by
  rw [declaredTerms, declaredTerms, node?_rename]
  cases tree.node? id with
  | none => rfl
  | some node =>
    cases node with
    | clause head body =>
      simp only [Option.map_some, Node.rename]
      exact congrArg (head :: body).flatMap (funext fun id => tree.atomTerms_rename id)
    | query goal => exact tree.atomTerms_rename goal
    | _ => rfl

theorem returnContainers_rename (ids : List NodeId) :
    (tree.rename f).returnContainers ids = tree.returnContainers ids :=
  List.filter_congr fun id _ => tree.satisfies_rename id fun node => by cases node <;> rfl

theorem isConcatenation_rename :
    (tree.rename f).isConcatenation id = tree.isConcatenation id := by
  unfold isConcatenation
  simp only [node?_rename]
  cases tree.node? id with
  | none => rfl
  | some function =>
    cases function with
    | funDecl _ _ _ _ body =>
      simp only [Option.map_some, Node.rename]
      cases tree.node? body with
      | none => rfl
      | some block =>
        cases block with
        | block statements =>
          match statements with
          | [] | _ :: _ :: _ => rfl
          | [statement] =>
            simp only [Option.map_some, Node.rename]
            cases tree.node? statement with
            | none => rfl
            | some exit =>
              cases exit with
              | returnStatement expression =>
                cases expression with
                | none => rfl
                | some expression =>
                  simp only [Option.map_some, Node.rename]
                  cases tree.node? expression with
                  | none => rfl
                  | some sum => cases sum <;> rfl
              | _ => rfl
        | _ => rfl
    | _ => rfl

end Tree

def Rule.rename (f : Renaming) : Rule → Rule
  | .structDeclared node name => .structDeclared node (f name)
  | .templateDeclared node function name => .templateDeclared node function (f name)
  | .fieldAccess node stem field => .fieldAccess node stem (f field)
  | .initializer name type value => .initializer (f name) type value
  | .resolveReference node name scope => .resolveReference node (f name) scope
  | .resolveType node name scope => .resolveType node (f name) scope
  | rule => rule

def Action.rename (f : Renaming) : Action → Action
  | .declare name decl => .declare (f name) decl
  | .useName node name => .useName node (f name)
  | .useType node name => .useType node (f name)
  | .placeholder node name => .placeholder node (f name)
  | .write cell value => .write cell (value.rename f)
  | .add rule => .add (rule.rename f)
  | action => action

def Part.rename (f : Renaming) : Part → Part
  | .act action => .act (action.rename f)
  | part => part

namespace Part

theorem emptyArray_rename (id : NodeId) (expectation : Expectation) :
    (emptyArray id expectation).map (rename f) = emptyArray id expectation := by
  cases expectation <;> rfl

theorem arguments_rename (function : NodeId) (position : Nat) (ids : List NodeId) :
    (arguments function position ids).map (rename f) = arguments function position ids := by
  induction ids generalizing position with
  | nil => rfl
  | cons id rest ih =>
    rw [arguments, List.map_cons, List.map_cons, ih]
    rfl

theorem map_plain_rename (ids : List NodeId) :
    (ids.map plain).map (rename f) = ids.map plain := by
  rw [List.map_map]
  rfl

end Part

namespace Tree

variable (tree : Tree)

theorem termParts_rename (id : NodeId) :
    (tree.rename f).termParts id = (tree.termParts id).map (Part.rename f) := by
  rw [termParts, termParts, declaredTerms_rename, List.map_map]
  rfl

open Attribution.Part in
theorem parts_rename (id : NodeId) (node : Node) (expectation : Expectation) :
    (tree.rename f).parts id (node.rename f) expectation =
      (tree.parts id node expectation).map (Part.rename f) := by
  cases node with
  | literal value => cases value <;> rfl
  | arrayLiteral components =>
    cases components with
    | nil => exact (emptyArray_rename id expectation).symm
    | cons first rest =>
      simp only [parts, Node.rename, List.map_append, map_plain_rename]
      rfl
  | call function typeArgument args =>
    simp only [parts, Node.rename, List.map_append, List.map_cons, map_plain_rename,
      arguments_rename]
    rfl
  | root statements =>
    simp only [parts, Node.rename, List.map_append, List.map_cons, map_plain_rename]
    rfl
  | block statements =>
    simp only [parts, Node.rename, List.map_append, List.map_cons, map_plain_rename,
      returnContainers_rename]
    rfl
  | funDecl name template parameters returnType body =>
    simp only [parts, Node.rename, List.map_append, map_plain_rename, List.map_flatMap]
    rfl
  | structDecl name fields =>
    simp only [parts, Node.rename, List.map_append, map_plain_rename]
    rfl
  | conditional condition thenBranch elseBranch =>
    simp only [parts, Node.rename, List.map_append, map_plain_rename, returnContainers_rename]
    rfl
  | returnStatement expression =>
    simp only [parts, Node.rename, List.map_append, map_plain_rename]
    rfl
  | fact name terms =>
    simp only [parts, Node.rename, List.map_append, List.map_cons, map_plain_rename,
      termParts_rename]
    rfl
  | clause head body =>
    simp only [parts, Node.rename, List.map_append, List.map_cons, map_plain_rename,
      termParts_rename, atom?_rename]
    cases tree.atom? head with
    | none => rfl
    | some found =>
      simp only [Option.map_some, List.map_cons, map_plain_rename]
      rfl
  | query goal =>
    simp only [parts, Node.rename, List.map_cons, termParts_rename]
    rfl
  | atom name terms =>
    simp only [parts, Node.rename, List.map_append, map_plain_rename]
    rfl
  | _ => rfl

variable {tree}

theorem follow_rename {visit visit' : NodeId → Expectation → Except Fault (List Action)}
    (hvisit : ∀ id expectation, visit' id expectation =
      (visit id expectation).map (List.map (Action.rename f))) (part : Part) :
    (tree.rename f).follow visit' (part.rename f) =
      (tree.follow visit part).map (List.map (Action.rename f)) := by
  cases part with
  | act action => rfl
  | visit id expectation => exact hvisit id expectation
  | need id =>
    simp only [Part.rename, follow, node_rename]
    cases tree.node id <;> rfl

theorem mapM_follow_rename {visit visit' : NodeId → Expectation → Except Fault (List Action)}
    (hvisit : ∀ id expectation, visit' id expectation =
      (visit id expectation).map (List.map (Action.rename f))) (parts : List Part) :
    (parts.map (Part.rename f)).mapM ((tree.rename f).follow visit') =
      (parts.mapM (tree.follow visit)).map (List.map (List.map (Action.rename f))) := by
  induction parts with
  | nil => rfl
  | cons part rest ih =>
    rw [List.map_cons, List.mapM_cons, List.mapM_cons, ih, follow_rename hvisit]
    cases tree.follow visit part with
    | error fault => rfl
    | ok actions => cases rest.mapM (tree.follow visit) <;> rfl

theorem visit_rename (depth : Nat) (id : NodeId) (expectation : Expectation) :
    (tree.rename f).visit depth id expectation =
      (tree.visit depth id expectation).map (List.map (Action.rename f)) := by
  induction depth generalizing id expectation with
  | zero => rfl
  | succ depth ih =>
    rw [visit, visit, node_rename]
    cases tree.node id with
    | error fault => rfl
    | ok node =>
      have hparts : ((tree.rename f).parts id (node.rename f) expectation).mapM
          ((tree.rename f).follow ((tree.rename f).visit depth)) =
            ((tree.parts id node expectation).mapM (tree.follow (tree.visit depth))).map
              (List.map (List.map (Action.rename f))) := by
        rw [parts_rename]
        exact mapM_follow_rename ih _
      simp only [Except.map, bind, Except.bind] at hparts ⊢
      rw [hparts]
      cases (tree.parts id node expectation).mapM (tree.follow (tree.visit depth)) with
      | error fault => rfl
      | ok actions => exact congrArg Except.ok List.map_flatten.symm

theorem walk_rename :
    (tree.rename f).walk = tree.walk.map (List.map (Action.rename f)) := by
  rw [walk, walk, size_rename]
  exact visit_rename _ _ _

end Tree
end Attribution
