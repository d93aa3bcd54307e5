/-!
# Source text in lines

A source is cut into lines behind each terminator. The lines together are the whole text, and an
offset is found in the last line that starts at or before it. How lines are cut and put on paper
follows the renderer to which a report is handed.
-/
namespace Attribution

/-- White space in the sense of Unicode. -/
def isBlank (c : Char) : Bool :=
  let n := c.toNat
  (0x09 ≤ n && n ≤ 0x0D) || n == 0x20 || n == 0x85 || n == 0xA0 || n == 0x1680 ||
    (0x2000 ≤ n && n ≤ 0x200A) || n == 0x2028 || n == 0x2029 || n == 0x202F || n == 0x205F ||
    n == 0x3000

/-- The characters that end a line. A carriage return takes a following line feed with it. -/
def isTerminator (c : Char) : Bool :=
  let n := c.toNat
  (0x0A ≤ n && n ≤ 0x0D) || n == 0x85 || n == 0x2028 || n == 0x2029

/-- Cut text behind each terminator. There is no line behind a terminator that ends the text. -/
def cutLines : List Char → List (List Char)
  | [] => []
  | '\r' :: '\n' :: rest => ['\r', '\n'] :: cutLines rest
  | c :: rest =>
    if isTerminator c then [c] :: cutLines rest
    else
      match cutLines rest with
      | [] => [[c]]
      | line :: lines => (c :: line) :: lines

/-- Cutting loses nothing. -/
theorem flatten_cutLines (cs : List Char) : (cutLines cs).flatten = cs := by
  fun_induction cutLines cs with
  | case1 => rfl
  | case2 rest ih => simp [ih]
  | case3 c rest _ _ ih => simp [ih]
  | case4 c rest _ _ h ih =>
    rw [h] at ih
    simp [← ih]
  | case5 c rest _ _ line lines h ih =>
    rw [h] at ih
    simp [← ih]

/-- A line with its terminator, and the number of characters before it. -/
structure Line where
  start : Nat
  chars : List Char
deriving DecidableEq, Repr

namespace Line

def length (line : Line) : Nat := line.chars.length

def stop (line : Line) : Nat := line.start + line.length

/-- The line without white space at its end. -/
def trimmed (line : Line) : List Char := (line.chars.reverse.dropWhile isBlank).reverse

/-- The width of a tab that stands in a column: tab stops are four columns apart. -/
def tabWidth (column : Nat) : Nat := 4 - column % 4

/-- The width of a column on paper. Columns behind the trimmed line have width one. So has every
character but a tab, where the renderer goes by the width that Unicode gives to it: its rows of
marks may have other lengths below wide and combining characters. Headings and messages do not
depend on widths. -/
def width (line : Line) (column : Nat) : Nat :=
  if line.trimmed[column]? = some '\t' then tabWidth column else 1

/-- The trimmed line on paper, where white space is blank and tabs are filled up. -/
def text (line : Line) : String :=
  String.ofList <| (line.trimmed.zipIdx.map fun (c, column) =>
    if c = '\t' then List.replicate (tabWidth column) ' '
    else if isBlank c then [' ']
    else [c]).flatten

end Line

/-- Number lines by where they start. -/
def locateLines : Nat → List (List Char) → List Line
  | _, [] => []
  | start, chars :: rest => { start, chars } :: locateLines (start + chars.length) rest

/-- The lines of a source; an empty source is one empty line. -/
def sourceLines (source : String) : List Line :=
  match cutLines source.toList with
  | [] => [{ start := 0, chars := [] }]
  | lines => locateLines 0 lines

/-- The place of the last line that starts at or before an offset, unless the offset lies behind
the text. -/
def lineAt? (lines : List Line) (offset : Nat) : Option Nat :=
  if lines.all fun line => line.stop < offset then none
  else some ((lines.filter fun line => line.start ≤ offset).length - 1)

end Attribution
