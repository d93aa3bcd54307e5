import Attribution.Proofs.Ty.Occurrence
/-!
# Nodes that types name

A type names the declarations of the structs and placeholders that occur in it, and the functions to
which these placeholders belong. No type that is put together from others names any more nodes.
-/
namespace Attribution
namespace Ty

mutual
def names : Ty → List NodeId
  | array component => component.names
  | struct decl _ => [decl]
  | function params result => namesIn params ++ result.names
  | generic p => [p.decl, p.function]
  | _ => []

def namesIn : List Ty → List NodeId
  | [] => []
  | t :: ts => t.names ++ namesIn ts
end

/-- The nodes that a type names are known. -/
def Names (known : NodeId → Prop) (t : Ty) : Prop := ∀ id ∈ t.names, known id

variable {known : NodeId → Prop} {p : Placeholder} {concrete : Ty}

theorem mem_namesIn {ts : List Ty} {id : NodeId} : id ∈ namesIn ts ↔ ∃ t ∈ ts, id ∈ t.names := by
  induction ts with
  | nil => simp [namesIn]
  | cons t ts ih => simp [namesIn, ih]

mutual
theorem function_mem_names (t : Ty) (h : t.placeholder? = some p) : p.function ∈ t.names := by
  cases t with
  | generic q =>
    cases h
    exact List.mem_cons_of_mem _ List.mem_cons_self
  | array component => exact function_mem_names component h
  | function params result =>
    rcases Option.or_eq_some_iff.mp h with hfirst | ⟨_, hlast⟩
    · exact List.mem_append_left _ (function_mem_namesIn params hfirst)
    · exact List.mem_append_right _ (function_mem_names result hlast)
  | _ => cases h

theorem function_mem_namesIn (ts : List Ty) (h : firstPlaceholder? ts = some p) :
    p.function ∈ namesIn ts := by
  cases ts with
  | nil => cases h
  | cons t ts =>
    rcases Option.or_eq_some_iff.mp h with hfirst | ⟨_, hlater⟩
    · exact List.mem_append_left _ (function_mem_names t hfirst)
    · exact List.mem_append_right _ (function_mem_namesIn ts hlater)
end

mutual
theorem names_substitute (t : Ty) :
    (t.substitute p concrete).names ⊆ t.names ++ concrete.names := by
  cases t with
  | generic q =>
    rw [substitute]
    split
    · exact List.subset_append_right _ _
    · exact List.subset_append_left _ _
  | array component => exact names_substitute component
  | function params result =>
    rw [substitute, names, names]
    intro id hid
    rcases List.mem_append.mp hid with hparams | hresult
    · have := namesIn_substituteAll params hparams
      grind
    · have := names_substitute result hresult
      grind
  | _ => exact List.subset_append_left _ _

theorem namesIn_substituteAll (ts : List Ty) :
    namesIn (substituteAll ts p concrete) ⊆ namesIn ts ++ concrete.names := by
  cases ts with
  | nil => exact List.nil_subset _
  | cons t ts =>
    rw [substituteAll, namesIn, namesIn]
    intro id hid
    rcases List.mem_append.mp hid with hfirst | hlater
    · have := names_substitute t hfirst
      grind
    · have := namesIn_substituteAll ts hlater
      grind
end

/-- A call names nothing but what the callee and the types that it can put in name. -/
theorem Names.instantiate {callee : Ty} {explicit : Option Ty} {arguments : List Ty}
    (hcallee : Names known callee) (hexplicit : ∀ t ∈ explicit, Names known t)
    (harguments : ∀ t ∈ arguments, Names known t) :
    Names known (instantiate callee explicit arguments).callee := by
  apply instantiate_keeps hcallee hexplicit harguments
  intro p concrete _ hconcrete id hid
  rcases List.mem_append.mp (names_substitute callee hid) with hold | hnew
  · exact hcallee id hold
  · exact hconcrete id hnew

theorem function_of_binding {callee : Ty} {explicit : Option Ty} {arguments : List Ty}
    (h : (instantiate callee explicit arguments).binding = some (p, concrete)) :
    p.function ∈ callee.names :=
  function_mem_names callee (instantiate_binding.mp h).1

end Ty
end Attribution
