import Attribution.Tree.Node
/-!
# Faults

An input can break the promises on which an answer rests: an id that names nothing, a part that
contains itself, a span that ends before it starts. There is then no answer, only the fault.
-/
namespace Attribution

/-- The position of a scope among all scopes. -/
abbrev ScopeId := Nat

inductive Fault where
  | missingNode (id : NodeId)
  | missingScope (id : ScopeId)
  /-- The node is nested deeper than the arena is large, so it contains itself. -/
  | cyclicNode (id : NodeId)
  | cyclicScope (id : ScopeId)
  /-- The span starts after its end. -/
  | invertedSpan (start stop : Nat)
deriving DecidableEq, Repr

end Attribution
