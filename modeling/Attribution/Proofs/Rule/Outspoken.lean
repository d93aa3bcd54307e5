import Attribution.Proofs.Rule.Result
/-!
# Outspoken rules

The rules of most expressions give a type or find something amiss, so that a type is never missing
without a reason.
-/
namespace Attribution

/-- Where nothing is found, the first output is written. -/
def Effect.Speaks {ρ : Type} (effect : Effect ρ) : Prop :=
  effect.findings = [] → (effect.writes.lookup 0).isSome

namespace Rule

open Effect

theorem speaks_joinElements (node : NodeId) (joined : Option Ty) (elements : List (NodeId × Ty)) :
    Speaks (joinElements node joined elements) := by
  fun_induction joinElements node joined elements with
  | case1 => exact fun h => by cases h
  | case2 => exact fun _ => rfl
  | case3 joined element type rest _ others ih => exact fun h => by cases h
  | case4 element type rest _ ih => exact ih
  | case5 element type rest _ current common _ ih => exact ih
  | case6 => exact fun h => by cases h

theorem speaks_emptyArrayEffect (node : NodeId) (expected : Ty) :
    Speaks (emptyArrayEffect node expected) := by
  unfold emptyArrayEffect
  split
  · exact fun _ => rfl
  · exact fun h => by cases h

theorem length_substituteAll (types : List Ty) (p : Placeholder) (concrete : Ty) :
    (Ty.substituteAll types p concrete).length = types.length := by
  rw [Ty.substituteAll_eq_map, List.length_map]

theorem instantiate_function (params : List Ty) (result : Ty) (explicit : Option Ty)
    (arguments : List Ty) : ∃ params' result',
      (instantiate (.function params result) explicit arguments).callee =
        .function params' result' ∧ params'.length = params.length := by
  unfold instantiate
  split
  · exact ⟨params, result, rfl, rfl⟩
  · split
    · exact ⟨params, result, rfl, rfl⟩
    · exact ⟨_, _, rfl, length_substituteAll params _ _⟩

theorem speaks_callEffect (setting : Setting) (node function : NodeId) (nodes : List NodeId)
    (callee : Ty) (explicit : Option Ty) (arguments : List Ty) :
    Speaks (callEffect setting node function nodes callee explicit arguments) := by
  cases callee with
  | function params result =>
    obtain ⟨params', result', hinstance, _⟩ :=
      instantiate_function params result explicit arguments
    rw [callEffect]
    simp only [hinstance]
    exact fun _ => rfl
  | _ => exact fun h => by cases h

theorem speaks_binaryEffect (setting : Setting) (node : NodeId) (op : BinaryOp)
    (left right : NodeId) (l r : Ty) :
    Speaks (binaryEffect setting node op left right l r) := by
  unfold binaryEffect
  split
  · exact fun _ => rfl
  · split
    · split
      · exact fun _ => rfl
      · exact fun h => by cases h
    all_goals exact fun _ => rfl

end Rule
end Attribution
