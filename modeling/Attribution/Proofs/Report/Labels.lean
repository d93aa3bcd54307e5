import Attribution.Proofs.Report.Heading
/-!
# The row of the message

The marks of a span leave out the message where the end of the span is not found in a line. For a
source of ASCII characters, a span that is cut off at the bytes is cut off at the characters, so
both of its ends are found, and the message stands behind the arm that leads to it. This arm starts
at a corner, and there is no other corner around it: the lines of the source, their numbers and the
rest of the marks have none.
-/
namespace Attribution

theorem mem_of_mem_trimmed {line : Line} {c : Char} (h : c ∈ line.trimmed) : c ∈ line.chars := by
  rw [Line.trimmed, List.mem_reverse] at h
  exact List.mem_reverse.mp ((List.dropWhile_sublist _).subset h)

theorem mem_text {line : Line} {c : Char} (h : c ∈ line.text.toList) :
    c = ' ' ∨ c ∈ line.chars := by
  rw [Line.text, String.toList_ofList, List.mem_flatten] at h
  obtain ⟨shown, hshown, hc⟩ := h
  obtain ⟨⟨d, column⟩, hd, rfl⟩ := List.mem_map.mp hshown
  dsimp only at hc
  split at hc
  · exact .inl (List.eq_of_mem_replicate hc)
  · split at hc
    · exact .inl (List.mem_singleton.mp hc)
    · cases List.mem_singleton.mp hc
      exact .inr (mem_of_mem_trimmed (List.mem_of_getElem? (List.mem_zipIdx_iff_getElem?.mp hd)))

theorem mem_source_of_mem_line {source : String} {line : Line} {c : Char}
    (hline : line ∈ sourceLines source) (h : c ∈ line.chars) : c ∈ source.toList := by
  obtain ⟨chunks, _, hlines, hflatten, _⟩ := exists_chunks source
  rw [hlines] at hline
  obtain ⟨place, hplace⟩ := List.mem_iff_getElem?.mp hline
  rw [getElem?_locateLines] at hplace
  obtain ⟨chars, hchars, rfl⟩ := Option.map_eq_some_iff.mp hplace
  rw [← hflatten]
  exact List.mem_flatten.mpr ⟨chars, List.mem_of_getElem? hchars, h⟩

namespace Report

/-- The row of the message: behind the margin, an arm with a corner leads to it. -/
def labelRow (indent before arm : Nat) (message : String) : String :=
  row [repeated indent ' ', "│ ", repeated before ' ', "╰", repeated arm '─', " ", message]

/-- Text without the corner in which the arm to a message starts. -/
def Cornerless (text : String) : Prop := '╰' ∉ text.toList

instance (text : String) : Decidable (Cornerless text) :=
  inferInstanceAs (Decidable ('╰' ∉ text.toList))

/-- A text has one row with a label, and its message. -/
def Labelled (text message : String) : Prop :=
  ∃ (above below : String) (indent before arm : Nat),
    text = above ++ "\n" ++ labelRow indent before arm message ++ below ∧
      Cornerless above ∧ Cornerless below

variable {text more message source : String} {line : Line} {margin : Margin} {lines : List Line}
  {first last start stop : Nat}

@[simp]
theorem cornerless_append : Cornerless (text ++ more) ↔ Cornerless text ∧ Cornerless more := by
  simp only [Cornerless, String.toList_append, List.mem_append, not_or]

@[simp]
theorem cornerless_row {parts : List String} :
    Cornerless (row parts) ↔ ∀ part ∈ parts, Cornerless part := by
  simp [Cornerless, toList_row]

theorem cornerless_repeated {c : Char} (h : c ≠ '╰') (n : Nat) : Cornerless (repeated n c) := by
  rw [Cornerless, toList_repeated]
  exact fun hmem => h (List.eq_of_mem_replicate hmem).symm

@[simp]
theorem cornerless_repr (n : Nat) : Cornerless n.repr := by
  intro hmem
  exact absurd (isDigit_of_mem_toString hmem) (by decide)

@[simp]
theorem cornerless_blank (margin : Margin) : Cornerless margin.blank :=
  cornerless_repeated (by decide) _

@[simp]
theorem cornerless_number (margin : Margin) (place : Nat) : Cornerless (margin.number place) := by
  simp +decide [Margin.number, cornerless_repeated]

theorem cornerless_text (h : '╰' ∉ line.chars) : Cornerless line.text := by
  intro hmem
  rcases mem_text hmem with heq | hmem
  · exact absurd heq (by decide)
  · exact h hmem

theorem mem_columns {count : Nat} {shown : Nat → Char × Char} {c : Char}
    (h : c ∈ (columns line count shown).toList) :
    ∃ column < count, c = (shown column).1 ∨ c = (shown column).2 := by
  rw [columns, String.toList_ofList, List.mem_flatMap] at h
  obtain ⟨column, hcolumn, hc⟩ := h
  refine ⟨column, List.mem_range.mp hcolumn, ?_⟩
  rcases List.mem_cons.mp hc with rfl | hc
  · exact .inl rfl
  · exact .inr (List.eq_of_mem_replicate hc)

theorem toList_columns_succ (line : Line) (count : Nat) (shown : Nat → Char × Char) :
    (columns line (count + 1) shown).toList = (columns line count shown).toList ++
      (shown count).1 :: List.replicate (line.width count - 1) (shown count).2 := by
  simp [columns, List.range_succ]

theorem exists_stroke {count : Nat} {shown : Nat → Char × Char} {c : Char}
    (h : ∀ column < count, shown column = (c, c)) :
    ∃ n, columns line count shown = repeated n c := by
  refine ⟨(columns line count shown).toList.length, ?_⟩
  rw [← String.toList_inj, toList_repeated]
  apply List.eq_replicate_of_mem
  intro d hd
  obtain ⟨column, hcolumn, heq⟩ := mem_columns hd
  rw [h column hcolumn] at heq
  exact heq.elim id id

theorem cornerless_underline (line : Line) (count start stop pivot : Nat) :
    Cornerless (columns line count (underline line start stop pivot)) := by
  intro hmem
  obtain ⟨column, _, heq⟩ := mem_columns hmem
  revert heq
  dsimp only [underline]
  split <;> split <;> decide

theorem exists_arm (line : Line) {pivot count : Nat} (h : pivot < count) : ∃ before stroke,
    columns line count (arm pivot) = repeated before ' ' ++ "╰" ++ repeated stroke '─' := by
  induction count with
  | zero => cases h
  | succ count ih =>
    by_cases hcorner : pivot = count
    · obtain ⟨before, hbefore⟩ : ∃ n, columns line count (arm pivot) = repeated n ' ' :=
        exists_stroke fun column hcolumn => if_pos (by omega)
      refine ⟨before, line.width count - 1, ?_⟩
      rw [← String.toList_inj, toList_columns_succ, hbefore, hcorner]
      simp [arm, toList_repeated]
    · obtain ⟨before, stroke, hcolumns⟩ := ih (by omega)
      refine ⟨before, stroke + (1 + (line.width count - 1)), ?_⟩
      have hshown : arm pivot count = ('─', '─') := by
        rw [arm, if_neg (by omega), if_neg (by omega)]
      rw [← String.toList_inj, toList_columns_succ, hcolumns, hshown]
      simp [toList_repeated, List.replicate_add]

theorem Labelled.append (h : Labelled text message) (hmore : Cornerless more) :
    Labelled (text ++ more) message := by
  obtain ⟨above, below, indent, before, stroke, rfl, habove, hbelow⟩ := h
  exact ⟨above, below ++ more, indent, before, stroke, by simp only [String.append_assoc], habove,
    cornerless_append.mpr ⟨hbelow, hmore⟩⟩

theorem Labelled.append_left (h : Labelled text message) (hmore : Cornerless more) :
    Labelled (more ++ text) message := by
  obtain ⟨above, below, indent, before, stroke, rfl, habove, hbelow⟩ := h
  exact ⟨more ++ above, below, indent, before, stroke, by simp only [String.append_assoc],
    cornerless_append.mpr ⟨hmore, habove⟩, hbelow⟩

theorem labelled_row {parts : List String} (h : ∀ part ∈ parts, Cornerless part)
    (indent before stroke : Nat) (message : String) :
    Labelled (row parts ++ labelRow indent before stroke message) message := by
  refine ⟨String.join parts, "", indent, before, stroke, ?_, ?_, by decide⟩
  · simp [row]
  · exact (cornerless_append.mp (cornerless_row.mpr h)).1

theorem labelled_inlineMarks (hline : lines[first]? = some line) (hplain : '╰' ∉ line.chars)
    (hle : start ≤ stop) (hwithin : stop ≤ line.stop) (hbegin : line.start ≤ start) :
    Labelled (inlineMarks margin lines first start stop message) message := by
  obtain ⟨before, stroke, harm⟩ := exists_arm line
    (show (start + stop) / 2 - line.start < stop - line.start + 2 by omega)
  have hlabel : row [margin.blank, "│ ", columns line (stop - line.start + 2)
      (arm ((start + stop) / 2 - line.start)), " ", message] =
        labelRow (margin.digits + 2) before stroke message := by
    rw [harm]
    simp [row, labelRow, Margin.blank, String.append_assoc]
  simp only [inlineMarks, hline, if_pos hwithin, hlabel, String.append_assoc]
  apply Labelled.append_left
  · apply labelled_row
    simp +decide [cornerless_underline]
  · simp +decide [cornerless_text hplain]

theorem labelled_blockMarks {found : Nat × Line} (hplain : ∀ line ∈ lines, '╰' ∉ line.chars)
    (hfound : endLine? lines first last stop = some found) :
    Labelled (blockMarks margin lines first last stop message) message := by
  obtain ⟨place, line⟩ := found
  have hline : line ∈ lines := by
    obtain ⟨⟨other, index⟩, hother, heq⟩ := Option.map_eq_some_iff.mp hfound
    cases heq
    exact List.mem_of_getElem?
      (List.mem_zipIdx_iff_getElem?.mp (List.mem_of_find?_eq_some hother))
  obtain ⟨stroke, hstroke⟩ : ∃ n,
      columns line (line.length + 2) (fun _ => ('─', '─')) = repeated n '─' :=
    exists_stroke fun _ _ => rfl
  obtain ⟨gap, hgap⟩ : ∃ n, columns line (line.length + 2) (fun _ => (' ', ' ')) = repeated n ' ' :=
    exists_stroke fun _ _ => rfl
  have hlabel : row [margin.blank, "│ ╰───", columns line (line.length + 2) fun _ => ('─', '─'),
      " ", message] = labelRow (margin.digits + 2) 0 (3 + stroke) message := by
    rw [hstroke, ← String.toList_inj]
    simp [labelRow, toList_row, Margin.blank, toList_repeated, List.replicate_add]
  simp only [blockMarks, hfound, hlabel, String.append_assoc]
  apply Labelled.append_left
  · apply Labelled.append_left
    · apply Labelled.append_left
      · apply labelled_row
        simp +decide [hgap, cornerless_repeated]
      · simp +decide [cornerless_text (hplain line hline)]
    · split
      · decide
      · simp +decide
  · split
    · decide
    next opening hopening =>
      simp +decide [cornerless_text (hplain opening (List.mem_of_getElem? hopening))]

/-- The message has its row if the span, counted in characters, lies within a text that has no
corners. -/
theorem labelled_body (hsource : Cornerless source) (hle : start ≤ stop)
    (hstop : stop ≤ source.length) : Labelled (body source start stop message) message := by
  have hplain : ∀ line ∈ sourceLines source, '╰' ∉ line.chars :=
    fun line hline hmem => hsource (mem_source_of_mem_line hline hmem)
  obtain ⟨first, last, line, hextends, hline, hbegin, _, _, hinline, hblock⟩ :=
    exists_marked hle hstop
  obtain ⟨margin, hbody⟩ := body_of_extends hextends hline message
  rw [hbody]
  apply Labelled.append
  · apply Labelled.append_left
    · split
      next hsame =>
        exact labelled_inlineMarks hline (hplain line (List.mem_of_getElem? hline)) hle
          (hinline hsame) hbegin
      next hother =>
        obtain ⟨found, hfound⟩ := hblock hother
        exact labelled_blockMarks hplain hfound
    · simp +decide
  · simp +decide [cornerless_repeated]

end Report

theorem FindingKind.cornerless_title (kind : FindingKind) : Report.Cornerless kind.title := by
  cases kind <;> decide

/-- Text of ASCII characters. -/
def Ascii (text : String) : Prop := ∀ c ∈ text.toList, c.toNat < 128

instance (text : String) : Decidable (Ascii text) :=
  List.decidableBAll (fun c : Char => c.toNat < 128) text.toList

theorem Ascii.utf8ByteSize_eq {text : String} (h : Ascii text) :
    text.utf8ByteSize = text.length := by
  have hsize : ∀ c ∈ text.toList, c.utf8Size = 1 := by
    intro c hc
    have hlt : c.val.toNat < 128 := h c hc
    exact Char.utf8Size_eq_one_iff.mpr (UInt32.le_iff_toNat_le.mpr (Nat.le_of_lt_succ hlt))
  rw [← String.length_toList, ← utf8Len_eq_length_iff.mpr hsize, ← String.utf8ByteSize_ofList,
    String.ofList_toList]

theorem Ascii.cornerless {text : String} (h : Ascii text) : Report.Cornerless text := by
  intro hmem
  exact absurd (h _ hmem) (by decide)

open Report in
/-- For a source of ASCII characters and a span that may reach behind it, there is a report. Its
heading names a line of the source, the one in which the span starts once it is cut off, and the
column there, and it has one row with a label, which carries the message. -/
theorem message_labelled (finding : Finding) (span : Span) {source : String} (hascii : Ascii source)
    (hle : span.start ≤ span.stop) :
    ∃ text place line, finding.report source span = .ok text ∧
      (sourceLines source)[place]? = some line ∧ line.start ≤ min span.start source.length ∧
      min span.start source.length ≤ line.stop ∧
      (span.start < source.length → span.start < line.stop) ∧
      Shows text (place + 1) (min span.start source.length - line.start + 1) ∧
      Labelled text finding.message := by
  have hmin : min span.start source.length ≤ min span.stop source.length := by omega
  have hreport : finding.report source span = .ok (row ["Error: ", finding.kind.title] ++
      body source (min span.start source.length) (min span.stop source.length)
        finding.message) := by
    rw [Finding.report, hascii.utf8ByteSize_eq, if_neg (Nat.not_lt.mpr hmin)]
  obtain ⟨first, last, line, hextends, hline, hbegin, hend, hwithin, _⟩ :=
    exists_marked hmin (Nat.min_le_right _ _)
  refine ⟨_, first, line, hreport, hline, hbegin, hend, ?_,
    shows_of_extends _ _ hextends hline, ?_⟩
  · intro hlt
    rw [Nat.min_eq_left (Nat.le_of_lt hlt)] at hwithin
    exact hwithin hlt
  · apply (labelled_body hascii.cornerless hmin (Nat.min_le_right _ _)).append_left
    simp +decide [finding.kind.cornerless_title]

/-- The second of two lines, and all that would follow it. -/
theorem message_labelled_behind : Ascii "a\r\nb\x0c" ∧ ∃ text,
    ({ node := 0, cause := .unresolved "b" } : Finding).report "a\r\nb\x0c" ⟨3, 99⟩ = .ok text ∧
      Report.Shows text 2 1 ∧ Report.Labelled text "could not resolve: b" := by
  have hascii : Ascii "a\r\nb\x0c" := by decide
  have hlines : sourceLines "a\r\nb\x0c" = [⟨0, ['a', '\r', '\n']⟩, ⟨3, ['b', '\x0c']⟩] := by
    decide
  obtain ⟨text, place, line, hreport, hline, _, _, hwithin, hshows, hlabelled⟩ :=
    message_labelled { node := 0, cause := .unresolved "b" } ⟨3, 99⟩ hascii (by decide)
  rw [hlines] at hline
  obtain _ | _ | place := place
  · cases hline
    exact absurd (hwithin (by decide)) (by decide)
  · cases hline
    exact ⟨hascii, text, hreport, hshows, hlabelled⟩
  · simp at hline

end Attribution
