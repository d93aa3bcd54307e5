import Mathlib.Data.String.Basic
import Std.Data.String.ToNat
import Attribution.Proofs.Report.Lines
import Attribution.Report.Layout
/-!
# Where reports point

A report counts the offsets of a span in characters, whereas spans count bytes. So its heading names
the place of an error just if no character before the error takes more than one byte, and the end of
the span does not lie far behind the text when it is counted in characters. The message is there if
this end lies within the text.
-/
namespace Attribution

/-- The characters at the front of a text, and the line and column of the character behind them,
both counted from 1. -/
def StandsAt (source : String) (before : List Char) (line column : Nat) : Prop :=
  ∃ above here right below, cutLines source.toList = above ++ (here ++ right) :: below ∧
    right ≠ [] ∧ before = above.flatten ++ here ∧ line = above.length + 1 ∧
      column = here.length + 1

namespace Report

theorem toList_row (parts : List String) :
    (row parts).toList = parts.flatMap String.toList ++ ['\n'] := by
  simp [row, String.toList_join]

theorem toList_repeated (n : Nat) (c : Char) : (repeated n c).toList = List.replicate n c := by
  simp [repeated]

/-- A report names a place: it has a heading, and then a row with this line and column. -/
def Shows (text : String) (line column : Nat) : Prop :=
  ∃ (title : String) (indent : Nat) (rest : String), '\n' ∉ title.toList ∧
    text = row ["Error: ", title] ++
      (row [repeated indent ' ', "╭─[ <unknown>:", toString line, ":", toString column, " ]"] ++
        rest)

variable {text title : String} {line line' column column' : Nat}

theorem isDigit_of_mem_toString {n : Nat} {c : Char} (h : c ∈ (toString n).toList) : c.isDigit := by
  change c ∈ n.repr.toList at h
  rw [Nat.toList_repr] at h
  exact Nat.isDigit_of_mem_toDigits (by decide) (by decide) h

theorem eq_of_append_cons {first first' rest rest' : List Char} {c : Char} (h : c ∉ first)
    (h' : c ∉ first') (heq : first ++ c :: rest = first' ++ c :: rest') :
    first = first' ∧ rest = rest' := by
  rcases List.append_eq_append_iff.mp heq with ⟨more, rfl, hmore⟩ | ⟨more, rfl, hmore⟩
  all_goals
    cases more with
    | nil => simpa [eq_comm] using hmore
    | cons d more =>
      cases hmore
      simp at h h'

theorem Shows.rest_eq (htitle : '\n' ∉ title.toList) {rest : String}
    (h : Shows (row ["Error: ", title] ++ rest) line column) : ∃ (indent : Nat) (more : String),
      rest = row [repeated indent ' ', "╭─[ <unknown>:", toString line, ":", toString column,
        " ]"] ++ more := by
  obtain ⟨other, indent, more, hother, h⟩ := h
  rw [← String.toList_inj] at h
  simp only [String.toList_append, toList_row, List.flatMap_cons, List.flatMap_nil,
    List.append_nil, List.append_assoc, List.append_cancel_left_eq, List.singleton_append] at h
  refine ⟨indent, more, ?_⟩
  rw [← String.toList_inj]
  simpa [toList_row] using (eq_of_append_cons htitle hother h).2

theorem Shows.unique (h : Shows text line column) (h' : Shows text line' column') :
    line' = line ∧ column' = column := by
  obtain ⟨title, indent, rest, htitle, rfl⟩ := h
  obtain ⟨indent', rest', heq⟩ := h'.rest_eq htitle
  have hblank : ∀ n : Nat, '╭' ∉ (repeated n ' ').toList := by
    intro n hmem
    rw [toList_repeated] at hmem
    cases List.eq_of_mem_replicate hmem
  have hdigits : ∀ {n : Nat} {c : Char}, c.isDigit = false → c ∉ (toString n).toList := by
    intro n c hc hmem
    rw [isDigit_of_mem_toString hmem] at hc
    cases hc
  have hmark : "╭─[ <unknown>:".toList = '╭' :: "─[ <unknown>:".toList := by simp
  have hcolon : ":".toList = [':'] := by simp
  have hend : " ]".toList = [' ', ']'] := by simp
  rw [← String.toList_inj] at heq
  simp only [String.toList_append, toList_row, List.flatMap_cons, List.flatMap_nil,
    List.append_nil, List.append_assoc, hmark, hcolon, hend, List.cons_append,
    List.nil_append] at heq
  -- cut off the blanks, then the line, then the column
  obtain ⟨_, heq⟩ := eq_of_append_cons (hblank indent) (hblank indent') heq
  obtain ⟨hline, heq⟩ := eq_of_append_cons (hdigits (by decide)) (hdigits (by decide))
    (List.append_cancel_left heq)
  obtain ⟨hcolumn, _⟩ := eq_of_append_cons (hdigits (by decide)) (hdigits (by decide)) heq
  exact ⟨(Nat.repr_inj.mp (String.toList_inj.mp hline)).symm,
    (Nat.repr_inj.mp (String.toList_inj.mp hcolumn)).symm⟩

theorem not_shows (htitle : '\n' ∉ title.toList) :
    ¬ Shows (row ["Error: ", title] ++ "") line column := by
  intro h
  obtain ⟨indent, more, heq⟩ := h.rest_eq htitle
  rw [← String.toList_inj] at heq
  simp [toList_row] at heq

variable {source message : String} {start stop first last : Nat} {place : Line}
  {margin : Margin} {lines : List Line}

theorem infix_append {part : List Char} {text : String} (h : part <:+: text.toList)
    (more : String) : part <:+: (text ++ more).toList := by
  rw [String.toList_append]
  exact h.trans (List.prefix_append _ _).isInfix

theorem infix_append_right {part : List Char} {text : String} (h : part <:+: text.toList)
    (more : String) : part <:+: (more ++ text).toList := by
  rw [String.toList_append]
  exact h.trans (List.suffix_append _ _).isInfix

theorem infix_row {part : String} {parts : List String} (h : part ∈ parts) :
    part.toList <:+: (row parts).toList := by
  obtain ⟨front, back, rfl⟩ := List.append_of_mem h
  rw [toList_row]
  exact ⟨front.flatMap String.toList, back.flatMap String.toList ++ ['\n'], by simp⟩

theorem infix_inlineMarks (hline : lines[first]? = some place) (h : stop ≤ place.stop) :
    message.toList <:+: (inlineMarks margin lines first start stop message).toList := by
  simp only [inlineMarks, hline, if_pos h]
  exact infix_append_right (infix_row (by simp)) _

theorem infix_blockMarks {found : Nat × Line} (h : endLine? lines first last stop = some found) :
    message.toList <:+: (blockMarks margin lines first last stop message).toList := by
  simp only [blockMarks, h]
  exact infix_append_right (infix_append_right (infix_row (by simp)) _) _

/-- The lines in which a span starts and in which it ends: where it has a last character, this
counts. -/
structure Extends (source : String) (start stop first last : Nat) : Prop where
  first : lineAt? (sourceLines source) start = some first
  last : lineAt? (sourceLines source) (if start = stop then start else stop - 1) = some last

theorem body_of_extends (h : Extends source start stop first last)
    (hline : (sourceLines source)[first]? = some place) (message : String) :
    ∃ margin : Margin, body source start stop message =
      row [margin.blank, "╭─[ <unknown>:", toString (first + 1), ":",
          toString (start - place.start + 1), " ]"] ++
        row [margin.blank, "│"] ++
        (if first = last then inlineMarks margin (sourceLines source) first start stop message
          else blockMarks margin (sourceLines source) first last stop message) ++
        row [repeated (margin.digits + 2) '─', "╯"] := by
  refine ⟨{ digits := (toString (last + 1)).length }, ?_⟩
  have hlast := h.last
  by_cases heq : start = stop
  · rw [if_pos heq] at hlast
    cases h.first.symm.trans hlast
    simp only [body, if_pos heq, h.first, hline, Option.map_some, Option.getD_some]
  · rw [if_neg heq] at hlast
    simp only [body, if_neg heq, h.first, hlast, hline, Option.map_some, Option.getD_some]

theorem extends_of_body (h : body source start stop message ≠ "") :
    ∃ first last, Extends source start stop first last := by
  unfold body at h
  by_cases heq : start = stop
  · cases hfirst : lineAt? (sourceLines source) start with
    | none => simp [hfirst] at h
    | some first => exact ⟨first, first, hfirst, by rw [if_pos heq, hfirst]⟩
  · cases hfirst : lineAt? (sourceLines source) start with
    | none => simp [hfirst] at h
    | some first =>
      cases hlast : lineAt? (sourceLines source) (stop - 1) with
      | none => simp [hfirst, hlast, heq] at h
      | some last => exact ⟨first, last, hfirst, by rw [if_neg heq, hlast]⟩

/-- Where a span starts and ends is found if it lies within the text, and may even be if it ends one
character behind the text. -/
theorem extends_iff : (∃ first last, Extends source start stop first last) ↔
    start ≤ source.length ∧ stop ≤ source.length + 1 := by
  obtain ⟨chunks, hne, hlines, hflatten, _⟩ := exists_chunks source
  have hlength : chunks.flatten.length = source.length := by
    rw [hflatten, String.length_toList]
  have hfound : ∀ offset, (∃ place, lineAt? (sourceLines source) offset = some place) ↔
      offset ≤ source.length := by
    intro offset
    rw [hlines, ← hlength]
    refine ⟨?_, fun h => ?_⟩
    · intro ⟨place, hplace⟩
      by_contra hlt
      rw [lineAt?_eq_none (by omega)] at hplace
      cases hplace
    · obtain ⟨place, _, hplace, _⟩ := exists_line hne h
      exact ⟨place, hplace⟩
  constructor
  · intro ⟨first, last, hfirst, hlast⟩
    have hstart := (hfound start).mp ⟨first, hfirst⟩
    have hstop := (hfound _).mp ⟨last, hlast⟩
    split at hstop <;> omega
  · intro ⟨hstart, hstop⟩
    obtain ⟨first, hfirst⟩ := (hfound start).mpr hstart
    obtain ⟨last, hlast⟩ := (hfound (if start = stop then start else stop - 1)).mpr (by
      split <;> omega)
    exact ⟨first, last, hfirst, hlast⟩

theorem exists_marked (hle : start ≤ stop) (hstop : stop ≤ source.length) :
    ∃ first last line, Extends source start stop first last ∧
      (sourceLines source)[first]? = some line ∧ line.start ≤ start ∧ start ≤ line.stop ∧
      (start < source.length → start < line.stop) ∧ (first = last → stop ≤ line.stop) ∧
      (first ≠ last → ∃ found, endLine? (sourceLines source) first last stop = some found) := by
  obtain ⟨chunks, hne, hlines, hflatten, _⟩ := exists_chunks source
  have hlength : chunks.flatten.length = source.length := by
    rw [hflatten, String.length_toList]
  obtain ⟨first, line, hfirst, hline, hbegin, hend, hwithin⟩ := exists_line hne
    (show start ≤ chunks.flatten.length by omega)
  obtain ⟨last, final, hlast, hfinal, hlow, hhigh, hinside⟩ := exists_line hne
    (show (if start = stop then start else stop - 1) ≤ chunks.flatten.length by split <;> omega)
  rw [← hlines] at hfirst hline hlast hfinal
  refine ⟨first, last, line, ⟨hfirst, hlast⟩, hline, hbegin, hend, hlength ▸ hwithin, ?_, ?_⟩
  · -- one line holds the whole span
    rintro rfl
    cases hline.symm.trans hfinal
    split at hinside <;> omega
  · -- the last character stands in a line behind the first one
    intro hother
    have hdiffer : start ≠ stop := by
      intro heq
      rw [if_pos heq, hfirst] at hlast
      exact hother (Option.some.inj hlast)
    rw [if_neg hdiffer] at hlast hlow hhigh hinside
    have hbehind := lineAt?_mono (by omega) hfirst hlast
    have hsome : (endLine? (sourceLines source) first last stop).isSome := by
      rw [endLine?, Option.isSome_map, List.find?_isSome]
      refine ⟨(final, last), List.mem_zipIdx_iff_getElem?.mpr hfinal, ?_⟩
      simp only [Bool.and_eq_true, decide_eq_true_eq]
      omega
    exact Option.isSome_iff_exists.mp hsome

theorem infix_body (hle : start ≤ stop) (hstop : stop ≤ source.length) :
    message.toList <:+: (body source start stop message).toList := by
  obtain ⟨first, last, line, hextends, hline, _, _, _, hinline, hblock⟩ := exists_marked hle hstop
  obtain ⟨margin, hbody⟩ := body_of_extends hextends hline message
  rw [hbody]
  apply infix_append
  apply infix_append_right
  split
  next hsame => exact infix_inlineMarks hline (hinline hsame)
  next hother =>
    obtain ⟨found, hfound⟩ := hblock hother
    exact infix_blockMarks hfound

end Report

theorem FindingKind.newline_not_mem_title (kind : FindingKind) : '\n' ∉ kind.title.toList := by
  cases kind <;> decide

theorem StandsAt.append_eq {source : String} {before : List Char} {line column : Nat}
    (h : StandsAt source before line column) : ∃ after, source.toList = before ++ after := by
  obtain ⟨above, here, right, below, hcut, _, rfl, _⟩ := h
  refine ⟨right ++ below.flatten, ?_⟩
  rw [← flatten_cutLines source.toList, hcut]
  simp

theorem StandsAt.unique {source : String} {before : List Char} {line line' column column' : Nat}
    (h : StandsAt source before line column) (h' : StandsAt source before line' column') :
    line' = line ∧ column' = column := by
  obtain ⟨above, here, right, below, hcut, hright, hbefore, rfl, rfl⟩ := h
  obtain ⟨above', here', right', below', hcut', hright', hbefore', rfl, rfl⟩ := h'
  have hat : ∀ {above here right below},
      cutLines source.toList = above ++ (here ++ right) :: below →
      right ≠ [] → before = above.flatten ++ here →
        lineAt? (locateLines 0 (cutLines source.toList)) before.length = some above.length := by
    intro above here right below hcut hright hbefore
    have hpos := List.length_pos_of_ne_nil hright
    rw [hcut, hbefore, List.length_append, lineAt?_of_split (by omega)]
    rw [List.length_append]
    omega
  have hlength : above'.length = above.length :=
    Option.some.inj ((hat hcut' hright' hbefore').symm.trans (hat hcut hright hbefore))
  obtain rfl : above' = above := (List.append_inj (hcut'.symm.trans hcut) hlength).1
  cases List.append_cancel_left (hbefore'.symm.trans hbefore)
  exact ⟨rfl, rfl⟩

theorem eq_of_utf8Len {before before' after after' : List Char}
    (h : before ++ after = before' ++ after')
    (hbytes : String.utf8Len before = String.utf8Len before') : before = before' := by
  rcases List.append_eq_append_iff.mp h with ⟨more, rfl, _⟩ | ⟨more, rfl, _⟩
  all_goals
    rw [String.utf8Len_append] at hbytes
    rw [String.utf8Len_eq_zero.mp (by omega : String.utf8Len more = 0), List.append_nil]

theorem exists_standsAt {source : String} {before after : List Char}
    (h : source.toList = before ++ after) (hne : after ≠ []) :
    ∃ line column, StandsAt source before line column := by
  have hflatten := flatten_cutLines source.toList
  have hlt : before.length < (cutLines source.toList).flatten.length := by
    rw [hflatten, h, List.length_append]
    have := List.length_pos_of_ne_nil hne
    omega
  obtain ⟨above, here, right, below, hcut, hright, hlength⟩ := exists_split_of_lt hlt
  refine ⟨_, _, above, here, right, below, hcut, hright, ?_, rfl, rfl⟩
  have hprefix : (above.flatten ++ here) ++ (right ++ below.flatten) = before ++ after := by
    rw [← h, ← hflatten, hcut]
    simp
  exact (List.append_inj_left hprefix hlength).symm

theorem utf8Len_eq_length_iff {chars : List Char} :
    String.utf8Len chars = chars.length ↔ ∀ c ∈ chars, c.utf8Size = 1 := by
  have hle : ∀ chars : List Char, chars.length ≤ String.utf8Len chars := by
    intro chars
    induction chars with
    | nil => exact Nat.le_refl 0
    | cons c chars ih =>
      have := c.utf8Size_pos
      simp only [String.utf8Len_cons, List.length_cons]
      omega
  induction chars with
  | nil => simp
  | cons c chars ih =>
    have := c.utf8Size_pos
    have := hle chars
    rw [List.forall_mem_cons, String.utf8Len_cons, List.length_cons]
    constructor
    · intro h
      exact ⟨by omega, ih.mp (by omega)⟩
    · intro ⟨hone, hrest⟩
      have := ih.mpr hrest
      omega

namespace Report

variable {source : String} {before : List Char} {line column start stop : Nat}

theorem shows_of_extends (kind : FindingKind) (message : String) {first last : Nat} {place : Line}
    (h : Extends source start stop first last)
    (hline : (sourceLines source)[first]? = some place) :
    Shows (row ["Error: ", kind.title] ++ body source start stop message) (first + 1)
      (start - place.start + 1) := by
  obtain ⟨margin, hbody⟩ := body_of_extends h hline message
  rw [hbody, Margin.blank, String.append_assoc, String.append_assoc]
  exact ⟨kind.title, margin.digits + 2, _, kind.newline_not_mem_title, rfl⟩

/-- A report on characters of a text names the place of some character just if it starts there and
both ends are found. -/
theorem shows_iff (kind : FindingKind) (message : String)
    (h : StandsAt source before line column) :
    Shows (row ["Error: ", kind.title] ++ body source start stop message) line column ↔
      start = before.length ∧ stop ≤ source.length + 1 := by
  obtain ⟨chunks, hne, hlines, hflatten, hcut⟩ := exists_chunks source
  have hlength : chunks.flatten.length = source.length := by
    rw [hflatten, String.length_toList]
  obtain ⟨above, here, right, below, hsplit, hright, rfl, rfl, rfl⟩ := h
  rw [← hcut (by
    rintro heq
    rw [heq] at hsplit
    simp [cutLines] at hsplit)] at hsplit
  have hpos := List.length_pos_of_ne_nil hright
  have hplace : (sourceLines source)[above.length]? =
      some ⟨above.flatten.length, here ++ right⟩ := by
    rw [hlines, getElem?_locateLines, hsplit]
    simp
  have htotal : chunks.flatten.length =
      above.flatten.length + here.length + right.length + below.flatten.length := by
    rw [hsplit]
    simp only [List.flatten_append, List.flatten_cons, List.length_append]
    omega
  constructor
  · intro hshows
    have hbody : body source start stop message ≠ "" := by
      intro hempty
      rw [hempty] at hshows
      exact not_shows kind.newline_not_mem_title hshows
    obtain ⟨first, last, hextends⟩ := extends_of_body hbody
    have hends := extends_iff.mp ⟨first, last, hextends⟩
    obtain ⟨found, place, hfound, hline, hstart, _⟩ := exists_line hne (hlength ▸ hends.1)
    rw [← hlines] at hfound hline
    cases hfound.symm.trans hextends.first
    obtain ⟨hfirst, hcolumn⟩ := hshows.unique (shows_of_extends kind message hextends hline)
    cases Nat.succ.inj hfirst
    cases hplace.symm.trans hline
    refine ⟨?_, hends.2⟩
    rw [List.length_append]
    simp only at hstart hcolumn
    omega
  · rintro ⟨rfl, hstop⟩
    rw [List.length_append] at *
    obtain ⟨first, last, hextends⟩ := extends_iff.mpr
      (⟨by omega, hstop⟩ : above.flatten.length + here.length ≤ source.length ∧ _)
    have hfirst := hextends.first
    rw [hlines, hsplit, lineAt?_of_split (by omega) (by rw [List.length_append]; omega)] at hfirst
    cases hfirst
    have hshows := shows_of_extends kind message hextends hplace
    rwa [Nat.add_sub_cancel_left] at hshows

end Report

theorem Finding.report_eq {source : String} {span : Span} (finding : Finding)
    (hle : span.start ≤ span.stop) (hstop : span.stop ≤ source.utf8ByteSize) :
    finding.report source span = .ok (Report.row ["Error: ", finding.kind.title] ++
      Report.body source span.start span.stop finding.message) := by
  rw [report, Nat.min_eq_left (Nat.le_trans hle hstop), Nat.min_eq_left hstop,
    if_neg (Nat.not_lt.mpr hle)]

open Report in
/-- Take a span in bytes that starts at a character of the source and ends within the source. The
heading of a report names the line and column of this character just if no character before it takes
more than one byte, and the span does not end more than one character behind the text when its bytes
are counted as characters; the message is there if it ends within the text so counted. -/
theorem heading_points_at (finding : Finding) {source : String} {span : Span}
    (hstart : (⟨span.start⟩ : String.Pos.Raw).IsValid source) (hle : span.start ≤ span.stop)
    (hstop : span.stop ≤ source.utf8ByteSize) (hlt : span.start < source.utf8ByteSize) :
    ∃ text before line column, finding.report source span = .ok text ∧
      StandsAt source before line column ∧ String.utf8Len before = span.start ∧
      (Shows text line column ↔
        (∀ c ∈ before, c.utf8Size = 1) ∧ span.stop ≤ source.length + 1) ∧
      (span.stop ≤ source.length → finding.message.toList <:+: text.toList) := by
  obtain ⟨front, back, rfl, hoffset⟩ := String.Pos.Raw.isValid_iff_exists_append.mp hstart
  have hbytes : String.utf8Len front.toList = span.start := by
    rw [← String.utf8ByteSize_ofList, String.ofList_toList]
    exact (congrArg String.Pos.Raw.byteIdx hoffset).symm
  have hback : back.toList ≠ [] := by
    intro hempty
    rw [String.utf8ByteSize_append, ← String.ofList_toList (s := back), hempty,
      ← String.ofList_toList (s := front), String.utf8ByteSize_ofList, hbytes] at hlt
    exact absurd hlt (by simp)
  obtain ⟨line, column, hstands⟩ := exists_standsAt String.toList_append hback
  refine ⟨_, front.toList, line, column, finding.report_eq hle hstop, hstands, hbytes, ?_, ?_⟩
  · rw [shows_iff finding.kind finding.message hstands, ← utf8Len_eq_length_iff, hbytes]
  · exact fun hwithin => infix_append_right (infix_body hle hwithin) _

/-- A name in the second line, which starts before the first character of two bytes. -/
theorem heading_points_at_second_line : ∃ text,
    ({ node := 0, cause := .unresolved "né" } : Finding).report "a\nné + 1" ⟨2, 5⟩ = .ok text ∧
      Report.Shows text 2 1 ∧ "could not resolve: né".toList <:+: text.toList := by
  have hvalid : (⟨(⟨2, 5⟩ : Span).start⟩ : String.Pos.Raw).IsValid "a\nné + 1" :=
    String.Pos.Raw.isValid_iff_exists_append.mpr ⟨"a\n", "né + 1", by decide, by decide⟩
  have hplace : StandsAt "a\nné + 1" ['a', '\n'] 2 1 :=
    ⟨[['a', '\n']], [], "né + 1".toList, [], by decide, by decide, by decide, by decide, by decide⟩
  obtain ⟨text, before, line, column, htext, hstands, hbytes, hshows, hmessage⟩ :=
    heading_points_at { node := 0, cause := .unresolved "né" } hvalid
      (by decide) (by decide) (by decide)
  obtain ⟨after, hafter⟩ := hstands.append_eq
  obtain ⟨after', hafter'⟩ := hplace.append_eq
  obtain rfl := eq_of_utf8Len (hafter.symm.trans hafter') hbytes
  obtain ⟨rfl, rfl⟩ := hplace.unique hstands
  exact ⟨text, htext, hshows.mpr ⟨utf8Len_eq_length_iff.mp hbytes, by decide⟩, hmessage (by decide)⟩

open Report in
/-- Behind a character of two bytes, a report on the last character does not name its place, and
lacks the message. -/
theorem heading_points_behind : ∃ text,
    ({ node := 0, cause := .unresolved "y" } : Finding).report "\"é\" + y" ⟨7, 8⟩ = .ok text ∧
      StandsAt "\"é\" + y" "\"é\" + ".toList 1 7 ∧ String.utf8Len "\"é\" + ".toList = 7 ∧
        ¬ Shows text 1 7 ∧ ¬ "could not resolve: y".toList <:+: text.toList := by
  have hplace : StandsAt "\"é\" + y" "\"é\" + ".toList 1 7 :=
    ⟨[], "\"é\" + ".toList, ['y'], [], by decide, by decide, by decide, by decide, by decide⟩
  refine ⟨_, Finding.report_eq _ (by decide) (by decide), hplace, by decide, ?_, ?_⟩
  · rw [shows_iff _ _ hplace]
    decide
  · decide +kernel

end Attribution
