import Attribution.Proofs.Ty.Replacement
/-!
# Reading types in messages

A message shows a type without brackets around the component of an array, so the mark of an array
of functions stands behind the result of the function, and the text is that of a function with an
array for its result. Nothing else is lost: types with one text are the same once the marks are
moved inward in this way.
-/
namespace Attribution
namespace Ty

/-- The array of a type as it is read from the text: its mark belongs to the last result. -/
def mark : Ty → Ty
  | function params result => function params result.mark
  | t => array t

mutual
/-- The type as it is read from its text. -/
def inward : Ty → Ty
  | array component => component.inward.mark
  | function params result => function (inwardAll params) result.inward
  | t => t

def inwardAll : List Ty → List Ty
  | [] => []
  | t :: ts => t.inward :: inwardAll ts
end

mutual
/-- The structs and placeholders in a type, from left to right. -/
def nominals : Ty → List Ty
  | array component => component.nominals
  | function params result => nominalsIn params ++ result.nominals
  | struct decl name => [struct decl name]
  | generic p => [generic p]
  | _ => []

def nominalsIn : List Ty → List Ty
  | [] => []
  | t :: ts => t.nominals ++ nominalsIn ts
end

/-- The types that are built in. -/
def basics : List Ty := [int, float, bool, string, void, null, term, metatype]

/-- The characters with which the text around a name goes on. -/
def delimiters : List Char := ['(', ')', '[', ',']

/-- The name is there and is no text of several parts. -/
def IsPlain (name : String) : Prop := name.toList ≠ [] ∧ ∀ c ∈ name.toList, c ∉ delimiters

instance (name : String) : Decidable (IsPlain name) :=
  -- not by the instance for statements on all characters, which goes through each of them
  @instDecidableAnd (name.toList ≠ []) _ inferInstance (List.decidableBAll _ name.toList)

/-- Declarations have plain names, each its own, and none has the name of a built-in type. -/
structure WellNamed (a b : Ty) : Prop where
  plain : ∀ t ∈ a.nominals ++ b.nominals, IsPlain t.display
  distinct : ∀ t ∈ a.nominals ++ b.nominals, ∀ u ∈ a.nominals ++ b.nominals,
    t.display = u.display → t.same u
  foreign : ∀ t ∈ a.nominals ++ b.nominals, ∀ basic ∈ basics, t.display ≠ basic.display

/-- No array in the type has functions for its components. -/
def ListsNoFunctions (t : Ty) : Prop :=
  ∀ way params result, t.at? way ≠ some (array (function params result))

variable {a b t : Ty}

theorem display_mark (t : Ty) : t.mark.display = t.display ++ "[]" := by
  induction t using mark.induct with
  | case1 params result ih => rw [mark, display, ih, display, ← String.append_assoc]
  | case2 t h => rw [mark, display]; exact h

mutual
theorem display_inward (t : Ty) : t.inward.display = t.display := by
  cases t with
  | array component => rw [inward, display_mark, display_inward component, display]
  | function params result =>
    rw [inward, display, display, names_inwardAll params, display_inward result]
  | _ => rfl

theorem names_inwardAll (ts : List Ty) : display.names (inwardAll ts) = display.names ts := by
  cases ts with
  | nil => rfl
  | cons t ts =>
    rw [inwardAll, display.names, display.names, display_inward t, names_inwardAll ts]
end

theorem mark_congr (a b : Ty) (h : a.same b) : a.mark.same b.mark := by
  cases a with
  | function ps r =>
    cases b with
    | function qs s =>
      obtain ⟨hparams, hresult⟩ := Bool.and_eq_true_iff.mp h
      exact Bool.and_eq_true_iff.mpr ⟨hparams, mark_congr r s hresult⟩
    | _ => cases h
  | _ => cases b <;> exact h

theorem iterate_mark_congr (k : Nat) (h : a.same b) :
    (Nat.iterate mark k a).same (Nat.iterate mark k b) := by
  induction k generalizing a b with
  | zero => exact h
  | succ k ih => exact ih (mark_congr a b h)

theorem iterate_mark_function (k : Nat) (params : List Ty) (result : Ty) :
    Nat.iterate mark k (function params result) = function params (Nat.iterate mark k result) := by
  induction k generalizing result with
  | zero => rfl
  | succ k ih => exact ih result.mark

mutual
theorem inward_eq_self (t : Ty) (h : t.ListsNoFunctions) : t.inward = t := by
  cases t with
  | array component =>
    rw [inward, inward_eq_self component fun way => h (.component :: way)]
    cases component with
    | function params result => exact absurd rfl (h [] params result)
    | _ => rfl
  | function params result =>
    have hparams := inwardAll_eq_self params fun place t ht way ps r heq =>
      h (.param place :: way) ps r (at?_cons.mpr ⟨t, ht, heq⟩)
    rw [inward, hparams, inward_eq_self result fun way => h (.result :: way)]
  | _ => rfl

theorem inwardAll_eq_self (ts : List Ty)
    (h : ∀ (place : Nat) (t : Ty), ts[place]? = some t → t.ListsNoFunctions) :
    inwardAll ts = ts := by
  cases ts with
  | nil => rfl
  | cons t ts =>
    rw [inwardAll, inward_eq_self t (h 0 t rfl), inwardAll_eq_self ts fun place => h (place + 1)]
end

/-- The marks of an array of arrays, as many deep. -/
def marks : Nat → List Char
  | 0 => []
  | k + 1 => '[' :: ']' :: marks k

/-- The text behind a parameter of a function, up to the bracket. -/
def following : List Ty → List Char
  | [] => [')']
  | t :: ts => ',' :: ' ' :: (t.display.toList ++ following ts)

/-- The text of parameters, up to the bracket. -/
def listing : List Ty → List Char
  | [] => [')']
  | t :: ts => t.display.toList ++ following ts

theorem toList_names (ts : List Ty) :
    (", ".intercalate (display.names ts)).toList ++ [')'] = listing ts := by
  cases ts with
  | nil => rfl
  | cons t ts =>
    induction ts generalizing t with
    | nil => rw [display.names, display.names, String.intercalate_singleton]; rfl
    | cons u us ih =>
      have hrest := ih u
      rw [display.names] at hrest
      rw [display.names, display.names, String.intercalate_cons_cons, String.toList_append,
        String.toList_append, List.append_assoc, List.append_assoc, hrest]
      rfl

theorem toList_function (params : List Ty) (result : Ty) :
    (function params result).display.toList =
      '(' :: (listing params ++ (" -> ".toList ++ result.display.toList)) := by
  have harrow : ") -> ".toList = [')'] ++ " -> ".toList := by decide
  rw [display, ← toList_names]
  simp only [String.toList_append, harrow, List.append_assoc]
  rfl

theorem toList_array (component : Ty) (k : Nat) (rest : List Char) :
    (array component).display.toList ++ marks k ++ rest =
      component.display.toList ++ marks (k + 1) ++ rest := by
  rw [display, String.toList_append, marks]
  simp

/-- The text goes on with a delimiter, if it goes on. -/
def Stops (text : List Char) : Prop := ∀ c ∈ text.head?, c ∈ delimiters

/-- The text goes on behind a parameter or a list of them, if it goes on. -/
def Closes (text : List Char) : Prop := ∀ c ∈ text.head?, c = ',' ∨ c = ')'

variable {text other : List Char}

theorem stops_marks (h : Closes text) (k : Nat) : Stops (marks k ++ text) := by
  cases k with
  | zero =>
    intro c hc
    rcases h c hc with rfl | rfl <;> decide
  | succ k =>
    intro c hc
    cases hc
    decide

theorem closes_following (ts : List Ty) (text : List Char) : Closes (following ts ++ text) := by
  intro c hc
  cases ts with
  | nil =>
    cases hc
    exact .inr rfl
  | cons t ts =>
    cases hc
    exact .inl rfl

theorem takeWhile_of_plain {name : String} (h : IsPlain name) (hstops : Stops text) :
    (name.toList ++ text).takeWhile (fun c => decide (c ∉ delimiters)) = name.toList := by
  rw [List.takeWhile_append_of_pos fun c hc => decide_eq_true (h.2 c hc)]
  cases text with
  | nil => simp
  | cons c text =>
    have hc : c ∈ delimiters := hstops c rfl
    simp [hc]

theorem name_unique {name name' : String} (h : IsPlain name) (h' : IsPlain name')
    (hstops : Stops text) (hstops' : Stops other)
    (heq : name.toList ++ text = name'.toList ++ other) : name = name' ∧ text = other := by
  have hname : name.toList = name'.toList := by
    rw [← takeWhile_of_plain h hstops, heq, takeWhile_of_plain h' hstops']
  rw [hname] at heq
  exact ⟨String.toList_inj.mp hname, List.append_cancel_left heq⟩

theorem marks_unique (h : Closes text) (h' : Closes other) {k m : Nat}
    (heq : marks k ++ text = marks m ++ other) : k = m ∧ text = other := by
  induction k generalizing m with
  | zero =>
    cases m with
    | zero => exact ⟨rfl, heq⟩
    | succ m =>
      have hmark : text = '[' :: ']' :: (marks m ++ other) := heq
      rw [hmark] at h
      rcases h '[' rfl with hc | hc <;> cases hc
  | succ k ih =>
    cases m with
    | zero =>
      have hmark : '[' :: ']' :: (marks k ++ text) = other := heq
      rw [← hmark] at h'
      rcases h' '[' rfl with hc | hc <;> cases hc
    | succ m =>
      obtain ⟨rfl, hrest⟩ := ih (List.cons.inj (List.cons.inj heq).2).2
      exact ⟨rfl, hrest⟩

/-- The names of the types, with the built-in ones among them, can be told apart. -/
structure Legible (types : List Ty) : Prop where
  basics : basics ⊆ types
  plain : ∀ t ∈ types, IsPlain t.display
  distinct : ∀ t ∈ types, ∀ u ∈ types, t.display = u.display → t.same u

/-- The type is no array and no function. -/
def IsNamed : Ty → Prop
  | array _ | function .. => False
  | _ => True

theorem shape_cases (t : Ty) :
    (∃ component, t = array component) ∨ (∃ params result, t = function params result) ∨
      t.IsNamed := by
  cases t with
  | array component => exact .inl ⟨component, rfl⟩
  | function params result => exact .inr (.inl ⟨params, result, rfl⟩)
  | _ => exact .inr (.inr trivial)

theorem IsNamed.inward (h : t.IsNamed) : t.inward = t := by
  cases t <;> first | rfl | cases h

section Reading

variable {types : List Ty}

theorem IsNamed.mem (h : t.IsNamed) (hlegible : Legible types) (ht : t.nominals ⊆ types) :
    t ∈ types := by
  cases t with
  | array component => cases h
  | function params result => cases h
  | struct decl name => exact ht (List.mem_singleton_self _)
  | generic p => exact ht (List.mem_singleton_self _)
  | _ => exact hlegible.basics (by simp [Ty.basics])

theorem exists_head (hlegible : Legible types) (t : Ty) (ht : t.nominals ⊆ types) :
    ∃ c rest, t.display.toList = c :: rest ∧ c ≠ ')' ∧ (t.IsNamed → c ≠ '(') := by
  rcases shape_cases t with ⟨component, rfl⟩ | ⟨params, result, rfl⟩ | hnamed
  · obtain ⟨c, rest, hhead, hc, _⟩ := exists_head hlegible component ht
    exact ⟨c, _, by rw [display, String.toList_append, hhead]; rfl, hc, fun h => h.elim⟩
  · exact ⟨'(', _, toList_function params result, by decide, fun h => h.elim⟩
  · obtain ⟨hsome, hplain⟩ := hlegible.plain t (hnamed.mem hlegible ht)
    obtain ⟨c, rest, hhead⟩ := List.exists_cons_of_ne_nil hsome
    have hc : c ∉ delimiters := hplain c (by rw [hhead]; exact List.mem_cons_self)
    refine ⟨c, rest, hhead, ?_, fun _ => ?_⟩
    · rintro rfl
      exact hc (by decide)
    · rintro rfl
      exact hc (by decide)

theorem named_unique (hlegible : Legible types) {a b : Ty} (ha : a.nominals ⊆ types)
    (hb : b.nominals ⊆ types) (hnamed : a.IsNamed) (hnamed' : b.IsNamed) {k m : Nat}
    (h : Closes text) (h' : Closes other)
    (heq : a.display.toList ++ marks k ++ text = b.display.toList ++ marks m ++ other) :
    (Nat.iterate mark k a.inward).same (Nat.iterate mark m b.inward) ∧ text = other := by
  have hmem := hnamed.mem hlegible ha
  have hmem' := hnamed'.mem hlegible hb
  rw [List.append_assoc, List.append_assoc] at heq
  obtain ⟨hname, hmarks⟩ := name_unique (hlegible.plain a hmem) (hlegible.plain b hmem')
    (stops_marks h k) (stops_marks h' m) heq
  obtain ⟨rfl, hrest⟩ := marks_unique h h' hmarks
  rw [hnamed.inward, hnamed'.inward]
  exact ⟨iterate_mark_congr k (hlegible.distinct a hmem b hmem' hname), hrest⟩

theorem named_ne_function (hlegible : Legible types) (ht : t.nominals ⊆ types)
    (hnamed : t.IsNamed) {params : List Ty} {result : Ty}
    (heq : t.display.toList ++ text = (function params result).display.toList ++ other) :
    False := by
  obtain ⟨c, rest, hhead, _, hc⟩ := exists_head hlegible t ht
  rw [hhead, toList_function] at heq
  exact hc hnamed (List.cons.inj heq).1

theorem listing_ne_end (hlegible : Legible types) (t : Ty) (ht : t.nominals ⊆ types)
    {ts : List Ty} (heq : listing (t :: ts) ++ text = listing [] ++ other) : False := by
  obtain ⟨c, rest, hhead, hc, _⟩ := exists_head hlegible t ht
  simp only [listing, hhead, List.cons_append] at heq
  exact hc (List.cons.inj heq).1

theorem listing_of_following {as bs : List Ty}
    (heq : following as ++ text = following bs ++ other) :
    listing as ++ text = listing bs ++ other := by
  cases as with
  | nil =>
    cases bs with
    | nil => exact heq
    | cons b bs => cases (List.cons.inj heq).1
  | cons a as =>
    cases bs with
    | nil => cases (List.cons.inj heq).1
    | cons b bs => exact (List.cons.inj (List.cons.inj heq).2).2

mutual
/-- Two types with marks behind them are read back from a text that goes on with neither. -/
theorem readable (hlegible : Legible types) (a b : Ty) (ha : a.nominals ⊆ types)
    (hb : b.nominals ⊆ types) (k m : Nat) {text other : List Char} (h : Closes text)
    (h' : Closes other)
    (heq : a.display.toList ++ marks k ++ text = b.display.toList ++ marks m ++ other) :
    (Nat.iterate mark k a.inward).same (Nat.iterate mark m b.inward) ∧ text = other := by
  rcases shape_cases a with ⟨component, rfl⟩ | ⟨params, result, rfl⟩ | hnamed
  · rw [toList_array] at heq
    exact readable hlegible component b ha hb (k + 1) m h h' heq
  · rcases shape_cases b with ⟨component, rfl⟩ | ⟨params', result', rfl⟩ | hnamed'
    · rw [toList_array component m] at heq
      exact readable hlegible (function params result) component ha hb k (m + 1) h h' heq
    · rw [nominals, List.append_subset] at ha hb
      simp only [toList_function, List.cons_append, List.append_assoc, List.cons.injEq,
        true_and] at heq
      obtain ⟨hparams, harrow⟩ := readableAll hlegible params params' ha.1 hb.1 heq
      have hresult := List.append_cancel_left harrow
      rw [← List.append_assoc, ← List.append_assoc] at hresult
      obtain ⟨hresult, hrest⟩ := readable hlegible result result' ha.2 hb.2 k m h h' hresult
      rw [inward, inward, iterate_mark_function, iterate_mark_function]
      exact ⟨Bool.and_eq_true_iff.mpr ⟨hparams, hresult⟩, hrest⟩
    · rw [List.append_assoc, List.append_assoc] at heq
      exact (named_ne_function hlegible hb hnamed' heq.symm).elim
  · rcases shape_cases b with ⟨component, rfl⟩ | ⟨params', result', rfl⟩ | hnamed'
    · rw [toList_array component m] at heq
      exact readable hlegible a component ha hb k (m + 1) h h' heq
    · rw [List.append_assoc, List.append_assoc] at heq
      exact (named_ne_function hlegible ha hnamed heq).elim
    · exact named_unique hlegible ha hb hnamed hnamed' h h' heq
termination_by sizeOf a + sizeOf b

theorem readableAll (hlegible : Legible types) (as bs : List Ty) (ha : nominalsIn as ⊆ types)
    (hb : nominalsIn bs ⊆ types) {text other : List Char}
    (heq : listing as ++ text = listing bs ++ other) :
    sameAll (inwardAll as) (inwardAll bs) ∧ text = other := by
  cases as with
  | nil =>
    cases bs with
    | nil => exact ⟨rfl, (List.cons.inj heq).2⟩
    | cons b bs => exact (listing_ne_end hlegible b (List.append_subset.mp hb).1 heq.symm).elim
  | cons a as =>
    cases bs with
    | nil => exact (listing_ne_end hlegible a (List.append_subset.mp ha).1 heq).elim
    | cons b bs =>
      rw [nominalsIn, List.append_subset] at ha hb
      rw [listing, listing, List.append_assoc, List.append_assoc] at heq
      obtain ⟨hfirst, hlater⟩ := readable hlegible a b ha.1 hb.1 0 0 (closes_following as text)
        (closes_following bs other) (by simpa [marks] using heq)
      obtain ⟨hrest, hend⟩ :=
        readableAll hlegible as bs ha.2 hb.2 (listing_of_following hlater)
      exact ⟨Bool.and_eq_true_iff.mpr ⟨hfirst, hrest⟩, hend⟩
termination_by sizeOf as + sizeOf bs
end

end Reading

theorem WellNamed.legible (h : WellNamed a b) :
    Legible (basics ++ (a.nominals ++ b.nominals)) where
  basics := List.subset_append_left _ _
  plain t ht := by
    rcases List.mem_append.mp ht with hbasic | hnominal
    · have hplain : ∀ t ∈ basics, IsPlain t.display := by decide
      exact hplain t hbasic
    · exact h.plain t hnominal
  distinct t ht u hu hname := by
    rcases List.mem_append.mp ht with hbasic | hnominal
    · rcases List.mem_append.mp hu with hbasic' | hnominal'
      · have hdistinct : ∀ t ∈ basics, ∀ u ∈ basics, t.display = u.display → t.same u := by decide
        exact hdistinct t hbasic u hbasic' hname
      · exact absurd hname.symm (h.foreign u hnominal' t hbasic)
    · rcases List.mem_append.mp hu with hbasic' | hnominal'
      · exact absurd hname (h.foreign t hnominal u hbasic')
      · exact h.distinct t hnominal u hnominal' hname

/-- Types with one text are the same as they are read from it. So they are the same types unless an
array in them lists functions: the text of such an array is that of another type. -/
theorem display_tells_apart (h : WellNamed a b) :
    (a.inward = b.inward → a.display = b.display) ∧
      (a.display = b.display → a.inward.same b.inward) ∧
      (a.display = b.display → a.ListsNoFunctions → b.ListsNoFunctions → a.same b) := by
  have hread : a.display = b.display → a.inward.same b.inward := by
    intro htext
    have heq : a.display.toList ++ marks 0 ++ [] = b.display.toList ++ marks 0 ++ [] := by
      rw [htext]
    have hends : Closes [] := fun c hc => nomatch hc
    have ha : a.nominals ⊆ basics ++ (a.nominals ++ b.nominals) :=
      List.Subset.trans (List.subset_append_left _ _) (List.subset_append_right _ _)
    have hb : b.nominals ⊆ basics ++ (a.nominals ++ b.nominals) :=
      List.Subset.trans (List.subset_append_right _ _) (List.subset_append_right _ _)
    exact (readable h.legible a b ha hb 0 0 hends hends heq).1
  refine ⟨fun hinward => ?_, hread, fun htext ha hb => ?_⟩
  · rw [← display_inward a, hinward, display_inward]
  · rw [← inward_eq_self a ha, ← inward_eq_self b hb]
    exact hread htext

/-- The text of an array of functions is read as that of a function whose result is an array. -/
theorem display_tells_apart_result :
    WellNamed (array (function [struct 1 "Box"] int)) (function [struct 1 "Box"] (array int)) ∧
      (array (function [struct 1 "Box"] int)).inward.same
        (function [struct 1 "Box"] (array int)).inward := by
  have hnamed : WellNamed (array (function [struct 1 "Box"] int))
      (function [struct 1 "Box"] (array int)) := ⟨by decide, by decide, by decide⟩
  exact ⟨hnamed, (display_tells_apart hnamed).2.1 (by decide)⟩

/-- Two types that are not the same, and of which one has functions for its components and the other
arrays for its results, have one text. -/
theorem display_ambiguous :
    WellNamed (array (function [string] string)) (function [string] (array string)) ∧
      (array (function [string] string)).display =
        (function [string] (array string)).display ∧
      (array (function [string] string)).same (function [string] (array string)) = false :=
  ⟨⟨by decide, by decide, by decide⟩, by decide, rfl⟩

end Ty
end Attribution
