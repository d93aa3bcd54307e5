import Attribution.Proofs.Rule.Locality
/-!
# Results of rules

A rule writes each of its outputs once at most. The result of a rule is what it writes to the first
one, if all its inputs hold values.
-/
namespace Attribution
namespace Rule

open Effect

/-- Nothing is written, or one value to the first output, or one to each of two. -/
def WritesOnce (writes : List (Nat × Value)) : Prop :=
  writes = [] ∨ (∃ value, writes = [(0, value)]) ∨
    ∃ first second, writes = [(0, first), (1, second)]

theorem writesOnce_nil : WritesOnce [] := .inl rfl

theorem writesOnce_single (value : Value) : WritesOnce [(0, value)] := .inr (.inl ⟨value, rfl⟩)

theorem writesOnce_copy (value : Option Value) : WritesOnce (copy value : Effect Rule).writes := by
  cases value with
  | none => exact writesOnce_nil
  | some value => exact writesOnce_single value

theorem writesOnce_findIf (amiss : Bool) (node : NodeId) (cause : Cause) :
    WritesOnce (findIf amiss node cause : Effect Rule).writes := by
  cases amiss <;> exact writesOnce_nil

theorem writesOnce_joinElements (node : NodeId) (joined : Option Ty)
    (elements : List (NodeId × Ty)) :
    WritesOnce (joinElements node joined elements).writes := by
  fun_induction joinElements node joined elements with
  | case1 => exact writesOnce_nil
  | case2 => exact writesOnce_single _
  | case3 joined element type rest _ others ih => exact ih
  | case4 element type rest _ ih => exact ih
  | case5 element type rest _ current common _ ih => exact ih
  | case6 => exact writesOnce_nil

theorem writesOnce_emptyArrayEffect (node : NodeId) (expected : Ty) :
    WritesOnce (emptyArrayEffect node expected).writes := by
  unfold emptyArrayEffect
  split
  · exact writesOnce_single _
  · exact writesOnce_nil

theorem writesOnce_effect (setting : Setting) (rule : Rule) (view : View) :
    WritesOnce (effect setting rule view).writes := by
  cases rule with
  | referenceType | typeValue | fieldType | parenthesized | declaredType =>
    exact writesOnce_copy _
  | arrayLiteral => exact writesOnce_joinElements _ _ _
  | resolveReference node name scope =>
    simp only [effect, resolveReferenceEffect]
    split
    · exact writesOnce_nil
    · exact .inr (.inr ⟨_, _, rfl⟩)
  | resolveType node name scope =>
    simp only [effect, resolveTypeEffect]
    split
    · exact writesOnce_nil
    · split
      · exact .inr (.inr ⟨_, _, rfl⟩)
      · exact writesOnce_nil
  | emptyInitializer =>
    simp only [effect]
    split
    · exact writesOnce_emptyArrayEffect _ _
    · exact writesOnce_nil
  | emptyArgument =>
    simp only [effect]
    split
    · split
      · exact writesOnce_emptyArrayEffect _ _
      · exact writesOnce_nil
    · exact writesOnce_nil
  | arrayIndex | initializer | missingReturn | control | termType | templateParameterName =>
    simp only [effect]
    split
    · exact writesOnce_findIf _ _ _
    · exact writesOnce_nil
  | returnStatement node returnType expression =>
    cases expression <;> simp only [effect] <;> split
    · exact writesOnce_findIf _ _ _
    · exact writesOnce_nil
    · split
      · exact writesOnce_nil
      · exact writesOnce_findIf _ _ _
    · exact writesOnce_nil
  | atomArity =>
    simp only [effect, atomArityEffect]
    split
    · exact writesOnce_nil
    · split
      · exact writesOnce_nil
      · split
        · exact writesOnce_nil
        · exact writesOnce_findIf _ _ _
  | call =>
    simp only [effect]
    split
    · unfold callEffect
      split
      · dsimp only
        split
        · exact writesOnce_single _
        · exact writesOnce_nil
      · exact writesOnce_nil
    · exact writesOnce_nil
  | binary =>
    simp only [effect]
    split
    · unfold binaryEffect
      split
      · exact writesOnce_single _
      · split
        · split
          · exact writesOnce_single _
          · exact writesOnce_nil
        all_goals exact writesOnce_single _
    · exact writesOnce_nil
  | fieldAccess =>
    simp only [effect]
    split
    · unfold fieldAccessEffect
      split
      · split
        · exact writesOnce_single _
        · exact writesOnce_nil
      · split
        · split <;> exact writesOnce_nil
        · exact writesOnce_nil
      · exact writesOnce_nil
    · exact writesOnce_nil
  | construct =>
    simp only [effect]
    split
    · unfold constructEffect
      split <;> exact writesOnce_nil
    · exact writesOnce_nil
  | arrayAccess =>
    simp only [effect]
    split
    · exact writesOnce_single _
    · exact writesOnce_nil
    · exact writesOnce_nil
  | constructorType | unary | assignment | arrayType | functionType =>
    simp only [effect]
    split
    · exact writesOnce_single _
    · exact writesOnce_nil
  | structType | structDeclared | templateType | templateDeclared | returnReturns | blockReturns
  | ifReturns => exact writesOnce_single _

def ready (rule : Rule) (view : View) : Bool := rule.inputs.all fun cell => (view cell).isSome

/-- What a rule writes to its first output, if all that it waits for is there. -/
def result? (setting : Setting) (rule : Rule) (view : View) : Option Value :=
  if rule.ready view then (effect setting rule view).writes.lookup 0 else none

theorem supplies_iff {engine : Engine Rule} {rule : Rule} :
    engine.Supplies rule ↔ rule.ready engine.view = true := by
  rw [ready, List.all_eq_true]
  rfl

theorem lookup_zero_iff {writes : List (Nat × Value)} (h : WritesOnce writes) {value : Value} :
    writes.lookup 0 = some value ↔ (0, value) ∈ writes := by
  rcases h with rfl | ⟨held, rfl⟩ | ⟨first, second, rfl⟩
  · simp
  · simp [eq_comm]
  · simp [eq_comm]

theorem mem_cellWrites_iff {setting : Setting} {rule : Rule} {view : View} {cell : Cell}
    (houtputs : rule.outputs = [cell]) {value : Value} :
    (cell, value) ∈ Engine.cellWrites rule (effect setting rule view) ↔
      (effect setting rule view).writes.lookup 0 = some value := by
  have hout : RuleFamily.outputs rule = [cell] := houtputs
  rw [lookup_zero_iff (writesOnce_effect setting rule view)]
  rcases writesOnce_effect setting rule view with h | ⟨held, h⟩ | ⟨first, second, h⟩ <;>
    simp [Engine.cellWrites, h, hout]

theorem result?_copy {setting : Setting} {rule : Rule} {view : View} {cell : Cell}
    (hinputs : rule.inputs = [cell]) (heffect : effect setting rule view = copy (view cell)) :
    rule.result? setting view = view cell := by
  rw [result?, ready, hinputs, heffect]
  cases h : view cell with
  | none => simp [h]
  | some value => simp [h, copy, give]

end Rule
end Attribution
