import Attribution.Rule.Effect
/-!
# What rules spawn

Few rules spawn another one, and no spawned rule does. So the weights of rules bound how many of
them can fire.
-/
namespace Attribution
namespace Rule

open Effect

theorem spawned_copy (value : Option Value) : (copy value : Effect Rule).spawned = [] := by
  cases value <;> rfl

theorem spawned_findIf (amiss : Bool) (node : NodeId) (cause : Cause) :
    (findIf amiss node cause : Effect Rule).spawned = [] := by
  cases amiss <;> rfl

theorem spawned_joinElements (node : NodeId) (joined : Option Ty)
    (elements : List (NodeId × Ty)) : (joinElements node joined elements).spawned = [] := by
  fun_induction joinElements node joined elements with
  | case1 => rfl
  | case2 => rfl
  | case3 joined element type rest _ others ih => exact ih
  | case4 element type rest _ ih => exact ih
  | case5 element type rest _ current common _ ih => exact ih
  | case6 => rfl

theorem spawned_emptyArrayEffect (node : NodeId) (expected : Ty) :
    (emptyArrayEffect node expected).spawned = [] := by
  unfold emptyArrayEffect
  split <;> rfl

theorem spawned_callEffect (setting : Setting) (node function : NodeId) (nodes : List NodeId)
    (callee : Ty) (explicit : Option Ty) (arguments : List Ty) :
    (callEffect setting node function nodes callee explicit arguments).spawned = [] := by
  cases callee with
  | function params result =>
    simp only [callEffect]
    split <;> rfl
  | _ => rfl

theorem spawned_binaryEffect (setting : Setting) (node : NodeId) (op : BinaryOp)
    (left right : NodeId) (l r : Ty) :
    (binaryEffect setting node op left right l r).spawned = [] := by
  unfold binaryEffect
  split
  · rfl
  · split
    · split <;> rfl
    all_goals rfl

theorem spawned_atomArityEffect (setting : Setting) (atom : NodeId) (scope : ScopeId) :
    (atomArityEffect setting atom scope).spawned = [] := by
  unfold atomArityEffect
  split
  · rfl
  · split
    · rfl
    · split
      · rfl
      · exact spawned_findIf _ _ _

/-- The rules that a rule spawns are at most one, of a kind that spawns none. -/
theorem spawned_effect (setting : Setting) (rule : Rule) (view : View) :
    (effect setting rule view).spawned = [] ∨
      rule.weight = 2 ∧ ∃ next : Rule, next.weight = 1 ∧
        (effect setting rule view).spawned = [next] := by
  cases rule with
  | construct node reference =>
    simp only [effect]
    split
    · unfold constructEffect
      split
      · exact .inr ⟨rfl, _, rfl, rfl⟩
      · exact .inl rfl
    · exact .inl rfl
  | fieldAccess node stem field =>
    simp only [effect]
    split
    · unfold fieldAccessEffect
      split
      · split <;> exact .inl rfl
      · split
        · split
          · exact .inr ⟨rfl, _, rfl, rfl⟩
          · exact .inl rfl
        · exact .inl rfl
      · exact .inl rfl
    · exact .inl rfl
  | resolveReference node name scope =>
    simp only [effect, resolveReferenceEffect, referenceEffect]
    split
    · exact .inl rfl
    · split
      · exact .inl rfl
      · split
        · exact .inl rfl
        · exact .inr ⟨rfl, _, rfl, rfl⟩
  | resolveType node name scope =>
    simp only [effect, resolveTypeEffect]
    split
    · exact .inl rfl
    · split
      · exact .inr ⟨rfl, _, rfl, rfl⟩
      · exact .inl rfl
  | returnStatement node returnType expression =>
    left
    cases expression <;> simp only [effect] <;> split
    · exact spawned_findIf _ _ _
    · rfl
    · split
      · rfl
      · exact spawned_findIf _ _ _
    · rfl
  | referenceType | typeValue | fieldType | parenthesized | declaredType =>
    exact .inl (spawned_copy _)
  | arrayLiteral => exact .inl (spawned_joinElements _ _ _)
  | atomArity => exact .inl (spawned_atomArityEffect _ _ _)
  | emptyInitializer =>
    left
    simp only [effect]
    split
    · exact spawned_emptyArrayEffect _ _
    · rfl
  | emptyArgument =>
    left
    simp only [effect]
    split
    · split
      · exact spawned_emptyArrayEffect _ _
      · rfl
    · rfl
  | call =>
    left
    simp only [effect]
    split
    · exact spawned_callEffect _ _ _ _ _ _ _
    · rfl
  | binary =>
    left
    simp only [effect]
    split
    · exact spawned_binaryEffect _ _ _ _ _ _ _
    · rfl
  | structType | structDeclared | templateType | templateDeclared | returnReturns | blockReturns
  | ifReturns => exact .inl rfl
  | constructorType | arrayAccess | unary | assignment | arrayType | functionType =>
    left
    simp only [effect]
    split <;> rfl
  | arrayIndex | initializer | missingReturn | control | termType | templateParameterName =>
    left
    simp only [effect]
    split
    · exact spawned_findIf _ _ _
    · rfl

theorem weight_pos (rule : Rule) : 0 < rule.weight := by
  cases rule <;> exact Nat.succ_pos _

theorem weight_le_two (rule : Rule) : rule.weight ≤ 2 := by
  unfold weight
  split <;> decide

instance : RuleFamily.Bounded Rule where
  spawned_lt setting rule view := by
    change total ((effect setting rule view).spawned.map weight) < rule.weight
    rcases spawned_effect setting rule view with none | ⟨two, next, one, single⟩
    · rw [none]
      exact rule.weight_pos
    · rw [single, two, List.map_singleton, total_cons, one]
      exact Nat.one_lt_two

end Rule
end Attribution
