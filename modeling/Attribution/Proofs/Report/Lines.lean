import Mathlib.Data.List.Basic
import Attribution.Report.Source
/-!
# Offsets and lines

An offset that stands in front of a character is found in the line of this character, and the offset
behind the last character in the last line. What is needed of lines is said of numbered chunks of
text; the lines of a source are such chunks, and nothing is lost in them.
-/
namespace Attribution

variable {start offset place : Nat} {chunks above below : List (List Char)} {chars : List Char}
  {line : Line}

theorem getElem?_locateLines (start : Nat) (chunks : List (List Char)) (place : Nat) :
    (locateLines start chunks)[place]? = chunks[place]?.map fun chars =>
      { start := start + (chunks.take place).flatten.length, chars } := by
  induction chunks generalizing start place with
  | nil => rfl
  | cons chars rest ih =>
    cases place with
    | zero => rfl
    | succ place =>
      rw [locateLines, List.getElem?_cons_succ, ih]
      simp [Nat.add_assoc]

theorem length_locateLines (start : Nat) (chunks : List (List Char)) :
    (locateLines start chunks).length = chunks.length := by
  induction chunks generalizing start with
  | nil => rfl
  | cons chars rest ih => simp [locateLines, ih]

theorem mem_locateLines (h : line ∈ locateLines start chunks) :
    start ≤ line.start ∧ line.stop ≤ start + chunks.flatten.length := by
  induction chunks generalizing start with
  | nil => cases h
  | cons chars rest ih =>
    rw [List.flatten_cons, List.length_append]
    rcases List.mem_cons.mp h with rfl | h
    · exact ⟨Nat.le_refl _, by simp only [Line.stop, Line.length]; omega⟩
    · obtain ⟨hlow, hhigh⟩ := ih h
      omega

theorem length_filter_locateLines (hlow : start + above.flatten.length ≤ offset)
    (hhigh : offset < start + above.flatten.length + chars.length) :
    ((locateLines start (above ++ chars :: below)).filter fun line =>
      line.start ≤ offset).length = above.length + 1 := by
  induction above generalizing start with
  | nil =>
    have hbelow : ((locateLines (start + chars.length) below).filter fun line =>
        line.start ≤ offset) = [] := by
      apply List.filter_eq_nil_iff.mpr
      intro line hline
      have hstart := (mem_locateLines hline).1
      simp only [List.flatten_nil, List.length_nil, Nat.add_zero] at hhigh
      simp only [decide_eq_true_eq]
      omega
    simp only [List.flatten_nil, List.length_nil, Nat.add_zero] at hlow
    simp [locateLines, hlow, hbelow]
  | cons first rest ih =>
    rw [List.flatten_cons, List.length_append] at hlow hhigh
    have hfirst : start ≤ offset := by omega
    simp only [List.cons_append, locateLines, List.filter_cons, hfirst, decide_true, if_true,
      List.length_cons]
    rw [ih (by omega) (by omega)]

/-- An offset within a line is found there. -/
theorem lineAt?_of_split (hlow : start + above.flatten.length ≤ offset)
    (hhigh : offset < start + above.flatten.length + chars.length) :
    lineAt? (locateLines start (above ++ chars :: below)) offset = some above.length := by
  have hmem : (⟨start + above.flatten.length, chars⟩ : Line) ∈
      locateLines start (above ++ chars :: below) := by
    apply List.mem_of_getElem? (i := above.length)
    rw [getElem?_locateLines]
    simp
  rw [lineAt?, if_neg, length_filter_locateLines hlow hhigh, Nat.add_sub_cancel]
  intro hall
  have hstop := of_decide_eq_true (List.all_eq_true.mp hall _ hmem)
  simp only [Line.stop, Line.length] at hstop
  omega

theorem exists_last (start : Nat) (hne : chunks ≠ []) : ∃ line,
    (locateLines start chunks)[chunks.length - 1]? = some line ∧
      line.stop = start + chunks.flatten.length := by
  have hlast : chunks[chunks.length - 1]? = some (chunks.getLast hne) := by
    rw [← List.getLast?_eq_getElem?, List.getLast?_eq_some_getLast hne]
  have htotal : (chunks.take (chunks.length - 1)).flatten.length + (chunks.getLast hne).length =
      chunks.flatten.length := by
    rw [← List.length_append, ← List.flatten_concat, ← List.dropLast_eq_take,
      List.dropLast_concat_getLast]
  refine ⟨_, by rw [getElem?_locateLines, hlast]; rfl, ?_⟩
  simp only [Line.stop, Line.length]
  omega

theorem lineAt?_end (hne : chunks ≠ []) :
    lineAt? (locateLines start chunks) (start + chunks.flatten.length) =
      some (chunks.length - 1) := by
  have hall : (locateLines start chunks).filter (fun line =>
      line.start ≤ start + chunks.flatten.length) = locateLines start chunks := by
    apply List.filter_eq_self.mpr
    intro line hline
    have hstop := (mem_locateLines hline).2
    simp only [Line.stop] at hstop
    exact decide_eq_true (by omega)
  obtain ⟨last, hlast, hstop⟩ := exists_last start hne
  rw [lineAt?, if_neg, hall, length_locateLines]
  intro hbehind
  have hlt := of_decide_eq_true (List.all_eq_true.mp hbehind _ (List.mem_of_getElem? hlast))
  omega

theorem lineAt?_eq_none (h : start + chunks.flatten.length < offset) :
    lineAt? (locateLines start chunks) offset = none := by
  rw [lineAt?, if_pos]
  apply List.all_eq_true.mpr
  intro line hline
  have hstop := (mem_locateLines hline).2
  exact decide_eq_true (by omega)

theorem lineAt?_mono {lines : List Line} {first last other : Nat} (hle : offset ≤ other)
    (hfirst : lineAt? lines offset = some first) (hlast : lineAt? lines other = some last) :
    first ≤ last := by
  have hsublist : (lines.filter fun line => line.start ≤ offset).Sublist
      (lines.filter fun line => line.start ≤ other) := by
    apply List.monotone_filter_right
    intro line hline
    exact decide_eq_true (Nat.le_trans (of_decide_eq_true hline) hle)
  unfold lineAt? at hfirst hlast
  split at hfirst
  · cases hfirst
  · split at hlast
    · cases hlast
    · cases hfirst
      cases hlast
      exact Nat.sub_le_sub_right hsublist.length_le 1

theorem exists_split_of_lt (h : offset < chunks.flatten.length) : ∃ above here right below,
    chunks = above ++ (here ++ right) :: below ∧ right ≠ [] ∧
      (above.flatten ++ here).length = offset := by
  induction chunks generalizing offset with
  | nil => cases h
  | cons chars rest ih =>
    rw [List.flatten_cons, List.length_append] at h
    by_cases hchars : offset < chars.length
    · refine ⟨[], chars.take offset, chars.drop offset, rest, by simp, ?_, ?_⟩
      · simp only [ne_eq, List.drop_eq_nil_iff]
        omega
      · simp only [List.flatten_nil, List.nil_append, List.length_take]
        omega
    · have hrest : offset - chars.length < rest.flatten.length := by omega
      obtain ⟨above, here, right, below, rfl, hright, hlength⟩ := ih hrest
      refine ⟨chars :: above, here, right, below, rfl, hright, ?_⟩
      simp only [List.flatten_cons, List.append_assoc, List.length_append] at hlength ⊢
      omega

/-- The line in which an offset is found holds it, before its end if the offset is not the end of
the text. -/
theorem exists_line (hne : chunks ≠ []) (h : offset ≤ chunks.flatten.length) :
    ∃ place line, lineAt? (locateLines 0 chunks) offset = some place ∧
      (locateLines 0 chunks)[place]? = some line ∧ line.start ≤ offset ∧ offset ≤ line.stop ∧
        (offset < chunks.flatten.length → offset < line.stop) := by
  rcases Nat.lt_or_eq_of_le h with hlt | rfl
  · obtain ⟨above, here, right, below, rfl, hright, hlength⟩ := exists_split_of_lt hlt
    have hpos : 0 < right.length := List.length_pos_of_ne_nil hright
    rw [List.length_append] at hlength
    refine ⟨above.length, ⟨above.flatten.length, here ++ right⟩,
      lineAt?_of_split (by omega) (by rw [List.length_append]; omega), ?_, ?_⟩
    · rw [getElem?_locateLines]
      simp
    · simp only [Line.stop, Line.length, List.length_append]
      omega
  · obtain ⟨last, hlast, hstop⟩ := exists_last 0 hne
    have hend : lineAt? (locateLines 0 chunks) (0 + chunks.flatten.length) =
        some (chunks.length - 1) := lineAt?_end hne
    rw [Nat.zero_add] at hend hstop
    refine ⟨_, last, hend, hlast, ?_, Nat.le_of_eq hstop.symm,
      fun hlt => absurd hlt (Nat.lt_irrefl _)⟩
    simp only [Line.stop] at hstop
    omega

theorem exists_chunks (source : String) : ∃ chunks : List (List Char), chunks ≠ [] ∧
    sourceLines source = locateLines 0 chunks ∧ chunks.flatten = source.toList ∧
      (source.toList ≠ [] → chunks = cutLines source.toList) := by
  have hflatten := flatten_cutLines source.toList
  cases hcut : cutLines source.toList with
  | nil =>
    rw [hcut] at hflatten
    refine ⟨[[]], by simp, by rw [sourceLines, hcut]; rfl, hflatten, ?_⟩
    exact fun hne => absurd hflatten.symm hne
  | cons first rest =>
    rw [hcut] at hflatten
    exact ⟨first :: rest, by simp, by rw [sourceLines, hcut], hflatten, fun _ => rfl⟩

end Attribution
