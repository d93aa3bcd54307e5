import Attribution.Proofs.Analysis.Names
/-!
# A recursive checker

The types of a program by plain recursion over its tree: type nodes denote types, declarations take
theirs from type nodes alone, and an expression takes its type from its parts. There are no cells
and no rules. What a name stands for, whether its use is rejected, and which nodes can depend on a
placeholder is given.
-/
namespace Attribution

/-- The function whose template parameter a node is. -/
def Tree.templateOwner? (tree : Tree) (id : NodeId) : Option NodeId :=
  (List.range tree.size).find? fun function =>
    match tree.node? function with
    | some (.funDecl _ template ..) => template = some id
    | _ => false

/-- The place of an argument of the call whose callee is a node. -/
def Tree.argumentPlace? (tree : Tree) (function argument : NodeId) : Option Nat :=
  (List.range tree.size).findSome? fun call =>
    match tree.node? call with
    | some (.call callee _ arguments) =>
      if callee = function then arguments.idxOf? argument else none
    | _ => none

namespace Tree.WellFormed

variable {tree : Tree}

theorem templateOwner?_eq (hwell : tree.WellFormed) {function template : NodeId} {name : String}
    {parameters : List NodeId} {returnType body : NodeId} (hfunction : tree.node? function =
      some (.funDecl name (some template) parameters returnType body)) :
    tree.templateOwner? template = some function := by
  have hsome : (tree.templateOwner? template).isSome := by
    rw [templateOwner?, List.find?_isSome]
    exact ⟨function, List.mem_range.mpr (lt_size hfunction), by simp [hfunction]⟩
  obtain ⟨found, hfound⟩ := Option.isSome_iff_exists.mp hsome
  have hkind := List.find?_some hfound
  split at hkind
  next name' template' parameters' returnType' body' hother =>
    cases of_decide_eq_true hkind
    obtain ⟨path, before, hpath⟩ := hwell.exists_leads hfunction
    obtain ⟨path', before', hpath'⟩ := hwell.exists_leads hother
    have hchild : ∀ name parameters returnType body, (Node.funDecl name (some template) parameters
        returnType body).children[0]? = some template := by
      intro name parameters returnType body
      rfl
    rw [hfound, (hwell.parent_unique hpath hfunction (hchild ..) hpath' hother (hchild ..)).1]
  next => cases hkind

theorem argumentPlace?_eq (hwell : tree.WellFormed) {function call argument : NodeId}
    {typeArgument : Option NodeId} {arguments : List NodeId} {place : Nat}
    (hcall : tree.node? call = some (.call function typeArgument arguments))
    (hplace : arguments[place]? = some argument) :
    tree.argumentPlace? function argument = some place := by
  have hsome : (tree.argumentPlace? function argument).isSome := by
    rw [argumentPlace?, List.findSome?_isSome_iff]
    refine ⟨call, List.mem_range.mpr (lt_size hcall), ?_⟩
    rw [hcall]
    simp only [if_pos]
    rw [Option.isSome_iff_ne_none, Ne, List.idxOf?_eq_none_iff]
    exact fun hnot => hnot (List.mem_of_getElem? hplace)
  obtain ⟨found, hfound⟩ := Option.isSome_iff_exists.mp hsome
  obtain ⟨other, _, hother⟩ := List.exists_of_findSome?_eq_some hfound
  split at hother
  next callee typeArgument' arguments' hcall' =>
    split at hother
    next heq =>
      subst heq
      obtain ⟨hlt, hfound', _⟩ := List.idxOf?_eq_some_iff.mp hother
      have hplace' : arguments'[found]? = some argument := by
        rw [List.getElem?_eq_getElem hlt, hfound']
      obtain ⟨path, before, hpath⟩ := hwell.exists_leads hcall
      obtain ⟨path', before', hpath'⟩ := hwell.exists_leads hcall'
      obtain ⟨heq, hsame⟩ := hwell.parent_unique hpath hcall
        (Node.getElem?_children_call hplace) hpath' hcall' (Node.getElem?_children_call hplace')
      subst heq
      cases Option.some.inj (hcall.symm.trans hcall')
      have hsame : found = place := by omega
      rw [hfound, hsame]
    next => cases hother
  next => cases hother

end Tree.WellFormed

/-- The first field of a struct that has a name. -/
def Tree.field? (tree : Tree) (struct : NodeId) (name : String) : Option NodeId :=
  match tree.node? struct with
  | some (.structDecl _ fields) => fields.find? fun id => tree.declaredName? id = some name
  | _ => none

theorem Tree.WellFormed.isField_of_field? {tree : Tree} (h : tree.WellFormed)
    {struct field : NodeId} {name : String} (hfield : tree.field? struct name = some field) :
    tree.satisfies field Node.isField := by
  rw [Tree.field?] at hfield
  split at hfield
  next held fields hnode => exact h.fits _ _ hnode field (List.mem_of_find?_eq_some hfield)
  next => cases hfield

structure Checker where
  tree : Tree
  entity? : NodeId → Option Entity
  /-- Whether the use of a name is an error although the name stands for something. -/
  rejected : NodeId → Bool
  /-- Which nodes can have a type that mentions a placeholder. -/
  dependence : Dependence

def Ty.component? : Ty → Option Ty
  | array component => some component
  | _ => none

/-- The type of the elements of an array literal; void ones do not count. -/
def elementType? (elements : List Ty) : Option Ty :=
  match elements.filter fun element => !element.isVoid with
  | [] => none
  | first :: rest => rest.foldlM Ty.commonSupertype first

/-- The type of a call: the result of its callee, with a type for the placeholder put in. -/
def callType? (callee : Ty) (explicit : Option Ty) (arguments : List Ty) : Option Ty :=
  match callee with
  | .function .. =>
    match (instantiate callee explicit arguments).callee with
    | .function _ result => some result
    | _ => none
  | _ => none

namespace Checker

variable (checker : Checker)

def introduced? : Entity → Option Ty
  | .builtin b => b.denoted?
  | .node id =>
    match checker.tree.node? id with
    | some (.structDecl name _) => some (.struct id name)
    | some (.templateParam name) =>
      (checker.tree.templateOwner? id).map fun function => .generic { decl := id, function, name }
    | _ => none

/-- The type that a type node denotes which is at most `n` nodes deep. -/
def denotedWithin : Nat → NodeId → Option Ty
  | 0, _ => none
  | n + 1, id =>
    match checker.tree.node? id with
    | some (.simpleType _) => (checker.entity? id).bind checker.introduced?
    | some (.arrayType component) => (denotedWithin n component).map .array
    | _ => none

def denoted? (id : NodeId) : Option Ty := checker.denotedWithin checker.tree.size id

def annotated? (id : NodeId) : Option Ty :=
  match checker.tree.node? id with
  | some (.varDecl _ type _) | some (.parameter _ type) | some (.fieldDecl _ type) =>
    checker.denoted? type
  | _ => none

def declarationType? (id : NodeId) : Option Ty :=
  match checker.tree.node? id with
  | some (.varDecl ..) | some (.parameter ..) | some (.fieldDecl ..) => checker.annotated? id
  | some (.funDecl _ _ parameters returnType _) => do
    let params ← parameters.mapM checker.annotated?
    let result ← checker.denoted? returnType
    return .function params result
  | some (.structDecl ..) | some (.templateParam _) => some .metatype
  | _ => none

def entityType? : Entity → Option Ty
  | .builtin b => some b.valueType
  | .node id => checker.declarationType? id

/-- A constructor is a function from the fields of a struct to the struct. -/
def constructorType? : Entity → Option Ty
  | .builtin _ => none
  | .node id =>
    match checker.tree.node? id with
    | some (.structDecl name fields) =>
      (fields.mapM checker.annotated?).map fun params => .function params (.struct id name)
    | _ => none

def memberType? (name : String) : Ty → Option Ty
  | .array _ => if name = "length" then some .int else none
  | .struct struct _ => (checker.tree.field? struct name).bind checker.annotated?
  | _ => none

/-- The type of a binary operation. An operand that can mention a placeholder lets the operator
pass, and the result is the placeholder. -/
def binaryType? (op : BinaryOp) (left right : NodeId) (l r : Ty) : Option Ty :=
  let generic := if checker.dependence.holds left || checker.dependence.holds right then
    [l, r].find? Ty.isPlaceholder else none
  generic.or <| match op.kind with
    | .arithmetic => Ty.arithmetic op l r
    | .comparison | .equality | .logic => some .bool

/-- The type of an expression that is at most `n` nodes deep. An empty array literal takes over the
type that is expected in its place, if that is an array. -/
def typeWithin : Nat → NodeId → Option Ty → Option Ty
  | 0, _, _ => none
  | n + 1, id, expected =>
    match checker.tree.node? id with
    | some (.literal value) => some value.type
    | some (.reference _) =>
      if checker.rejected id then none else (checker.entity? id).bind checker.entityType?
    | some (.construct reference) => (checker.entity? reference).bind checker.constructorType?
    | some (.arrayLiteral []) => expected.filter Ty.isArray
    | some (.arrayLiteral components) => do
      let elements ← components.mapM fun component => typeWithin n component none
      (elementType? elements).map .array
    | some (.parenthesized expression) => typeWithin n expression expected
    | some (.fieldAccess stem name) => (typeWithin n stem none).bind (checker.memberType? name)
    | some (.arrayAccess array _) => (typeWithin n array none).bind Ty.component?
    | some (.call function typeArgument arguments) => do
      let callee ← typeWithin n function none
      let given ← arguments.zipIdx.mapM fun argument =>
        typeWithin n argument.1 callee.params[argument.2]?
      let explicit ← typeArgument.mapM checker.denoted?
      callType? callee explicit given
    | some (.unary op operand) => (typeWithin n operand none).map fun _ => op.type
    | some (.binary op left right) => do
      let l ← typeWithin n left none
      let r ← typeWithin n right none
      checker.binaryType? op left right l r
    | some (.assignment left right) => do
      let l ← typeWithin n left none
      let _ ← typeWithin n right none
      return l
    | _ => none

def expected? : Expectation → Option Ty
  | .nothing => none
  | .variable decl => checker.annotated? decl
  | .argument function argument => do
    let callee ← checker.typeWithin checker.tree.size function none
    let place ← checker.tree.argumentPlace? function argument
    callee.params[place]?

/-- The type of an expression or a declaration. -/
def type? (id : NodeId) (expectation : Expectation) : Option Ty :=
  (checker.typeWithin checker.tree.size id (checker.expected? expectation)).or
    (checker.declarationType? id)

variable {checker} {id : NodeId} {node : Node}

theorem typeWithin_eq_none (hnode : checker.tree.node? id = some node)
    (hkind : node.isExpression = false) (n : Nat) (expected : Option Ty) :
    checker.typeWithin n id expected = none := by
  cases n with
  | zero => rfl
  | succ n =>
    rw [typeWithin, hnode]
    cases node with
    | literal | reference | construct | arrayLiteral | parenthesized | fieldAccess | arrayAccess
    | call | unary | binary | assignment => cases hkind
    | _ => rfl

theorem declarationType?_eq_none (hnode : checker.tree.node? id = some node)
    (hkind : node.isExpression = true) : checker.declarationType? id = none := by
  rw [declarationType?, hnode]
  cases node with
  | literal | reference | construct | arrayLiteral | parenthesized | fieldAccess | arrayAccess
  | call | unary | binary | assignment => rfl
  | _ => cases hkind

end Checker

/-- The checker that goes by the names that an analysis has bound. -/
def Analysis.checker (analysis : Analysis) (tree : Tree) (dependence : Dependence) : Checker where
  tree
  entity? := analysis.declOf?
  rejected id :=
    analysis.findings.any fun finding => finding.node = id && finding.cause.rejectsUse
  dependence

end Attribution
