import BranchMarkup.Diagnostic
import BranchMarkup.Text.Blank
import BranchMarkup.Text.Bytes
import BranchMarkup.Text.Width
/-! A diagnostic laid out over the lines of its source, with its message under the marked range.
Places count characters here: offsets that were counted in bytes are right only in a source of
one-byte characters. -/
namespace BranchMarkup.Sheet

structure SourceLine where
  /-- The first line is number one. -/
  number : Nat
  /-- Characters before the line. -/
  offset : Nat
  chars : List Char
deriving Repr

def endsLine (c : Char) : Bool :=
  c = '\n' || c = '\r' || c = '\x0b' || c = '\x0c' || c = '\u0085' || c = '\u2028' || c = '\u2029'

def cutLines : List Char → List (List Char)
  | [] => []
  | '\r' :: '\n' :: cs => ['\r', '\n'] :: cutLines cs
  | c :: cs =>
    if endsLine c then [c] :: cutLines cs
    else
      match cutLines cs with
      | [] => [[c]]
      | line :: lines => (c :: line) :: lines

def numberLines (number offset : Nat) : List (List Char) → List SourceLine
  | [] => []
  | line :: lines => ⟨number, offset, line⟩ :: numberLines (number + 1) (offset + line.length) lines

def linesOf (source : List Char) : List SourceLine := numberLines 1 0 (cutLines source)

/-- The line that holds a place; the place after the last character is on the last line. -/
def lineAt? (source : List Char) (place : Nat) : Option SourceLine :=
  if place ≤ source.length then (linesOf source).findRev? (·.offset ≤ place) else none

namespace SourceLine

def text (l : SourceLine) : List Char := Text.trimEnd l.chars

def stop (l : SourceLine) : Nat := l.offset + l.chars.length

/-- Columns of the character at an index; places past the end take one. A tab reaches to the next
multiple of four characters. -/
def columns (l : SourceLine) (index : Nat) : Nat :=
  match l.text[index]? with
  | none => 1
  | some c => if c = '\t' then 4 - index % 4 else if Text.isBlank c then 1 else Text.width c

def shown (l : SourceLine) : String :=
  String.ofList <| l.text.zipIdx.flatMap fun (c, i) =>
    if Text.isBlank c then List.replicate (l.columns i) ' ' else [c]

end SourceLine

def spaces (n : Nat) : String := String.ofList (List.replicate n ' ')

def rule (n : Nat) : String := String.ofList (List.replicate n '─')

def cell (sign tail : Char) : Nat → String
  | 0 => ""
  | n + 1 => String.ofList (sign :: List.replicate n tail)

/-- The marked range, in characters, and the line on which it begins and the one on which it
ends. -/
structure Label where
  message : String
  start : Nat
  stop : Nat
  first : SourceLine
  last : SourceLine

def Label.isInline (l : Label) : Bool := l.first.number = l.last.number

def Label.gutter (l : Label) : Nat := (Nat.toDigits 10 l.last.number).length

def margin (gutter : Nat) (bar : String) : String := spaces (gutter + 2) ++ bar ++ " "

def numbered (gutter : Nat) (l : SourceLine) : String :=
  let digits := toString l.number
  spaces (1 + gutter - digits.length) ++ digits ++ " │ "

namespace Label

/-- The message's stem leaves the range in its middle. -/
def stem (l : Label) : Nat := max ((l.start + l.stop) / 2) l.start - l.first.offset

def isMarked (l : Label) (index : Nat) : Bool :=
  l.start ≤ l.first.offset + index && l.first.offset + index < l.stop

def underline (l : Label) (index : Nat) : String :=
  let width := l.first.columns index
  if index = l.stem then if l.isMarked index then cell '┬' '─' width else cell '│' ' ' width
  else if l.isMarked index then rule width
  else spaces width

def arrow (l : Label) (index : Nat) : String :=
  let width := l.first.columns index
  if index = l.stem then cell '╰' '─' width
  else if l.stem < index then rule width
  else spaces width

/-- The rows of a range on one line. They are left out where the range does not fit the line. -/
def inlineRows (l : Label) : List String :=
  let margin := margin l.gutter "│"
  if l.first.offset ≤ l.start && l.stop ≤ l.first.stop then
    let indices := List.range (l.stop - l.first.offset + 2)
    [numbered l.gutter l.first ++ l.first.shown,
      margin ++ String.join (indices.map l.underline),
      margin ++ String.join (indices.map l.arrow) ++ " " ++ l.message]
  else [margin]

/-- Whether the range ends inside the source. One that ends past the last character, where byte
offsets can lead, has no last row. -/
def isClosed (l : Label) : Bool := l.stop ≤ l.last.stop

def closingRows (l : Label) : List String :=
  let width := (List.range (l.last.chars.length + 2)).foldl (· + l.last.columns ·) 0
  [numbered l.gutter l.last ++ "├─▶ " ++ l.last.shown,
    margin l.gutter "│" ++ "│   " ++ spaces width,
    margin l.gutter "│" ++ "╰───" ++ rule width ++ " " ++ l.message]

/-- The rows of a range over several lines: the first and the last of them, and a sign for all other
lines. -/
def spreadRows (l : Label) : List String :=
  [numbered l.gutter l.first ++ "╭─▶ " ++ l.first.shown] ++
    (if l.isClosed && l.last.number = l.first.number + 1 then []
      else [margin l.gutter "┆" ++ "┆   "]) ++
    if l.isClosed then l.closingRows else []

def rows (l : Label) : List String := if l.isInline then l.inlineRows else l.spreadRows

/-- The margin of help and notes. A range over several lines has a column of its own, in which its
bar is drawn if the range begins where the second line does. -/
def noteMargin (l : Label) (source : List Char) : String :=
  let bar :=
    if l.isInline then ""
    else if ((linesOf source).head?.any fun f => f.chars.length = l.start) then "│   "
    else "    "
  margin l.gutter "│" ++ bar

end Label

def range (d : Diagnostic) (size : Nat) : Nat × Nat :=
  let start := min d.span.start.toNat size
  (start, max start (min d.span.stop.toNat size))

/-- There is no label where either end has no line. -/
def label? (d : Diagnostic) (source : List Char) : Option Label := do
  let (start, stop) := range d (Text.byteLength source)
  let first ← lineAt? source start
  let last ← if start < stop then lineAt? source (stop - 1) else some first
  return ⟨d.message, start, stop, first, last⟩

def kind : Severity → String
  | .error => "Error"
  | .warning => "Warning"

/-- The rows of a diagnostic. Of its notes the last is printed. -/
def rows (d : Diagnostic) (file : String) (source : List Char) : List String :=
  (kind d.severity ++ ": " ++ d.message) ::
    match label? d source with
    | none => []
    | some l =>
      let note := l.noteMargin source
      let told (name text : String) := [note, note ++ name ++ ": " ++ text]
      [spaces (l.gutter + 2) ++ "╭─[" ++ file ++ ":" ++ toString l.first.number ++ ":" ++
          toString (l.start - l.first.offset + 1) ++ "]",
        spaces (l.gutter + 2) ++ "│"] ++
      l.rows ++ (d.help.elim [] (told "Help")) ++ (d.notes.getLast?.elim [] (told "Note")) ++
      [rule (l.gutter + 2) ++ "╯"]

def render (d : Diagnostic) (file source : String) : String :=
  String.join ((rows d file source.toList).map (· ++ "\n"))

end BranchMarkup.Sheet
