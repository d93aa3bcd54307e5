import Attribution.Proofs.Rule.Findings
import Attribution.Proofs.Strict.Lookup
import Attribution.Proofs.Tree.Actions
/-!
# Nodes of rules

The nodes that a rule or an action of the walk is about are all reached from the root, and so are
those with which a rule finds fault.
-/
namespace Attribution

/-- The nodes that a rule is about. -/
def Rule.nodes : Rule → List NodeId
  | structType node | structDeclared node _ | templateType node | returnReturns node
  | arrayIndex node | control _ node | termType node | atomArity node _
  | resolveReference node _ _ | resolveType node _ _ => [node]
  | referenceType node entity | typeValue node entity => node :: entity.node?.toList
  | templateDeclared first second _ | fieldType first second | parenthesized first second
  | declaredType first second | construct first second | emptyInitializer first second
  | fieldAccess first second _ | arrayAccess first second | unary first _ second
  | arrayType first second | initializer _ first second | templateParameterName first second =>
    [first, second]
  | emptyArgument first second third | binary first _ second third | assignment first second third
  | missingReturn first second third => [first, second, third]
  | constructorType node struct fields => node :: struct :: fields
  | arrayLiteral node parts | blockReturns node parts | ifReturns node parts => node :: parts
  | call node function typeArgument arguments =>
    node :: function :: typeArgument.toList ++ arguments
  | functionType node parameters returnType => node :: returnType :: parameters
  | returnStatement node returnType expression => node :: returnType :: expression.toList

/-- The scope from which a rule looks a name up. -/
def Rule.scope? : Rule → Option ScopeId
  | atomArity _ scope | resolveReference _ _ scope | resolveType _ _ scope => some scope
  | _ => none

/-- The nodes that an action is about. -/
def Action.nodes : Action → List NodeId
  | enterRoot node | enter node | declare _ node | locate node | useName node _ | useType node _
  | placeholder node _ | atom node => [node]
  | leave => []
  | exit node expression => node :: expression.toList
  | write cell _ => cell.subject.node?.toList
  | add rule => rule.nodes

def Expectation.nodes : Expectation → List NodeId
  | .nothing => []
  | .variable decl => [decl]
  | .argument function passed => [function, passed]

theorem Rule.Accuses.mem_nodes {rule : Rule} {node : NodeId} {cause : Cause}
    (h : rule.Accuses node cause) : node ∈ rule.nodes := by
  cases h with
  | voidElement helement => exact List.mem_cons_of_mem _ helement
  | argument hargument =>
    simp only [nodes, List.cons_append, List.mem_cons, List.mem_append]
    exact .inr (.inr (.inr (List.mem_of_getElem? hargument)))
  | comparisonOperand hside | logicOperand hside => rcases hside with rfl | rfl <;> simp [nodes]
  | _ => simp [nodes]

open Attribution.Part

namespace Tree

variable {tree : Tree} {id : NodeId} {expectation : Expectation} {path : List Nat}

/-- The nodes of actions are the node at which they stand, its children, the terms of a declaration
and the nodes from which a type is expected. -/
theorem nodes_of_parts {node : Node} (hnode : tree.node? id = some node) {action : Action}
    (h : .act action ∈ tree.parts id node expectation) :
    ∀ found ∈ action.nodes, found = id ∨ found ∈ node.children ∨ found ∈ tree.declaredTerms id ∨
      found ∈ expectation.nodes := by
  cases does_of_part h with
  | emptyInitializer | emptyArgument => simp [Action.nodes, Rule.nodes, Expectation.nodes]
  | place hplace =>
    have hmem := List.mem_of_getElem? hplace
    simp [Action.nodes, Cell.index, Entity.node?, Node.children, hmem]
  | literal => simp [Action.nodes, Cell.type, Entity.node?]
  | factTerm hterm | clauseTerm hterm | queryTerm hterm =>
    grind [Action.nodes, Rule.nodes]
  | _ => grind [Action.nodes, Rule.nodes, Node.children, Tree.returnContainers]

theorem scope?_of_asked {node : Node} {rule : Rule}
    (h : .act (.add rule) ∈ tree.parts id node expectation) : rule.scope? = none := by
  cases does_of_part h <;> rfl

theorem Reaches.declaredTerms (h : tree.Reaches id) :
    ∀ term ∈ tree.declaredTerms id, tree.Reaches term := by
  have hterms : ∀ atom, tree.Reaches atom → ∀ term ∈ tree.atomTerms atom, tree.Reaches term := by
    intro atom hatom term hterm
    obtain ⟨name, terms, hfound, hmem⟩ := exists_of_atomTerms hterm
    exact hatom.child hfound hmem
  intro term hterm
  unfold Tree.declaredTerms at hterm
  split at hterm
  next hfact => exact h.child hfact hterm
  next hclause =>
    obtain ⟨atom, hatom, hterm⟩ := List.mem_flatMap.mp hterm
    exact hterms atom (h.child hclause hatom) term hterm
  next goal hquery => exact hterms goal (h.child hquery List.mem_cons_self) term hterm
  next => cases hterm

theorem Leads.expected (h : tree.Leads path id expectation) :
    ∀ found ∈ expectation.nodes, tree.Reaches found := by
  intro found hfound
  rcases h.lent_cases with rfl | ⟨decl, name, type, initializer, above, before, rfl, hdecl, _⟩ |
    ⟨function, argument, call, typeArgument, arguments, above, before, place, rfl, hcall, hnode,
      hplace⟩
  · cases hfound
  · cases List.mem_singleton.mp hfound
    exact ⟨above, before, hdecl⟩
  · have hreaches : tree.Reaches call := ⟨above, before, hcall⟩
    have hargument : argument ∈ (Node.call function typeArgument arguments).children :=
      List.mem_append_right _ (List.mem_of_getElem? hplace)
    rcases List.mem_cons.mp hfound with rfl | hlast
    · exact hreaches.child hnode List.mem_cons_self
    · cases List.mem_singleton.mp hlast
      exact hreaches.child hnode hargument

theorem Leads.acted (h : tree.Leads path id expectation) {node : Node}
    (hnode : tree.node? id = some node) {action : Action}
    (hpart : .act action ∈ tree.parts id node expectation) :
    ∀ found ∈ action.nodes, tree.Reaches found := by
  have hreaches : tree.Reaches id := ⟨path, expectation, h⟩
  intro found hfound
  rcases nodes_of_parts hnode hpart found hfound with rfl | hchild | hterm | hexpected
  · exact hreaches
  · exact hreaches.child hnode hchild
  · exact hreaches.declaredTerms found hterm
  · exact h.expected found hexpected

theorem nodes_of_walk {list : List Action} (hwalk : tree.walk = .ok list) {action : Action}
    (h : action ∈ list) : ∀ found ∈ action.nodes, tree.Reaches found := by
  obtain ⟨id, expectation, node, hwalked, hnode, hmem⟩ := (WellFormed.mem_walk hwalk).mp h
  obtain ⟨path, hleads⟩ := leads_of_walked hwalked
  exact hleads.acted hnode (mem_actions.mp hmem)

end Tree
end Attribution
