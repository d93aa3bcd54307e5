import Attribution.Report.Source
import Attribution.Finding
/-!
# Reports

A finding is reported as a heading, the place in the source, and the source line with a mark under
the span that carries the message. A span over several lines is marked at its first and last line.

The analysis itself decides on little of this, all of it in `Finding.report` and
`Finding.reportAll`: it cuts spans off at the length of the source in bytes, picks the title and the
message, and puts reports one after the other. Everything in the namespace `Report` (`body`,
`inlineMarks`, `blockMarks` and what they are made of) follows ariadne, the renderer to which the
source and the span are handed, as it prints one label without colors.
-/
namespace Attribution

namespace Report

def row (parts : List String) : String := String.join parts ++ "\n"

def repeated (n : Nat) (c : Char) : String := String.ofList (List.replicate n c)

/-- The margin beside the source: line numbers right-aligned in `digits` places. -/
structure Margin where
  digits : Nat

namespace Margin

def blank (margin : Margin) : String := repeated (margin.digits + 2) ' '

def number (margin : Margin) (line : Nat) : String :=
  let digits := toString (line + 1)
  " " ++ repeated (margin.digits - digits.length) ' ' ++ digits ++ " "

end Margin

/-- Columns of a line on paper: each is as wide as in the line and shows one character, then
another one up to its width. -/
def columns (line : Line) (count : Nat) (shown : Nat → Char × Char) : String :=
  String.ofList <| (List.range count).flatMap fun column =>
    (shown column).1 :: List.replicate (line.width column - 1) (shown column).2

/-- What stands under a column of the marked line: the span is underlined, and from the column at
`pivot` a stroke leads down. -/
def underline (line : Line) (start stop pivot column : Nat) : Char × Char :=
  let inside := start ≤ line.start + column && line.start + column < stop
  if column = pivot then
    if inside then ('┬', '─') else ('│', ' ')
  else if inside then ('─', '─')
  else (' ', ' ')

/-- What stands in the row of the message: an arm from the pivot to the message. -/
def arm (pivot column : Nat) : Char × Char :=
  if column < pivot then (' ', ' ')
  else if column = pivot then ('╰', '─')
  else ('─', '─')

/-- The marks of a span within one line. A span that reaches behind its line is not marked. -/
def inlineMarks (margin : Margin) (lines : List Line) (first start stop : Nat)
    (message : String) : String :=
  match lines[first]? with
  | none => ""
  | some line =>
    if stop ≤ line.stop then
      let pivot := (start + stop) / 2 - line.start
      let count := stop - line.start + 2
      row [margin.number first, "│ ", line.text] ++
        row [margin.blank, "│ ", columns line count (underline line start stop pivot)] ++
        row [margin.blank, "│ ", columns line count (arm pivot), " ", message]
    else row [margin.blank, "│ "]

/-- The line after the first one in which the last character of a span lies. -/
def endLine? (lines : List Line) (first last stop : Nat) : Option (Nat × Line) :=
  (lines.zipIdx.find? fun (line, place) =>
    first < place && place ≤ last && line.start ≤ stop - 1 && stop - 1 < line.stop).map
      fun (line, place) => (place, line)

/-- The marks of a span over several lines. The lines between are left out. -/
def blockMarks (margin : Margin) (lines : List Line) (first last stop : Nat)
    (message : String) : String :=
  let opening := match lines[first]? with
    | none => ""
    | some line => row [margin.number first, "│ ╭─▶ ", line.text]
  let ending := endLine? lines first last stop
  let gap := if ending.any fun found => found.1 = first + 1 then ""
    else row [margin.blank, "┆ ┆   "]
  let closing := match ending with
    | none => ""
    | some (place, line) =>
      row [margin.number place, "│ ├─▶ ", line.text] ++
        row [margin.blank, "│ │   ", columns line (line.length + 2) fun _ => (' ', ' ')] ++
        row [margin.blank, "│ ╰───", columns line (line.length + 2) fun _ => ('─', '─'), " ",
          message]
  opening ++ gap ++ closing

/-- The place of a span and its marks. Offsets count characters; a span that starts behind the
text, or ends more than one character behind it, has no place. -/
def body (source : String) (start stop : Nat) (message : String) : String :=
  let lines := sourceLines source
  let last := if start = stop then lineAt? lines start else lineAt? lines (stop - 1)
  match lineAt? lines start, last with
  | some first, some last =>
    let margin : Margin := { digits := (toString (last + 1)).length }
    let column := start - ((lines[first]?.map Line.start).getD 0)
    row [margin.blank, "╭─[ <unknown>:", toString (first + 1), ":", toString (column + 1), " ]"] ++
      row [margin.blank, "│"] ++
      (if first = last then inlineMarks margin lines first start stop message
        else blockMarks margin lines first last stop message) ++
      row [repeated (margin.digits + 2) '─', "╯"]
  | _, _ => ""

end Report

/-- The report of a finding on a span. The span is cut off at the length of the source in bytes,
and from there on its offsets count characters. -/
def Finding.report (source : String) (span : Span) (finding : Finding) : Except Fault String :=
  let start := min span.start source.utf8ByteSize
  let stop := min span.stop source.utf8ByteSize
  if stop < start then .error (.invertedSpan start stop)
  else
    .ok (Report.row ["Error: ", finding.kind.title] ++
      Report.body source start stop finding.message)

/-- The reports of all findings about the nodes of a tree, one after the other. -/
def Finding.reportAll (source : String) (tree : Tree) (findings : List Finding) :
    Except Fault String := do
  let reports ← findings.mapM fun finding => do
    finding.report source (← tree.span finding.node)
  return "\n".intercalate reports

end Attribution
