import BranchMarkup.Printer.Piece
/-! Putting pieces together: comments are filled in, each at most once, and the byte range of every
node that stands for a branch is noted when the node ends. -/
namespace BranchMarkup

structure Mapping where
  start : Nat
  stop : Nat
  original : Span
  kind : MappingKind
  branch : Branch
deriving DecidableEq, Repr

structure Print where
  text : String
  /-- Where the marked nodes begin that have not ended yet, the innermost first. -/
  opened : List Nat
  /-- Comments not printed yet. -/
  comments : List (Spanned String)
  mappings : List Mapping

namespace Print

def ofComments (comments : List (Spanned String)) : Print := ⟨"", [], comments, []⟩

def isLineComment (c : String) : Bool := c.toList.take 2 = ['/', '/']

def endsLine (s : String) : Bool := s.toList.getLast? = some '\n'

/-- A line comment is followed by a line break, or it would swallow what comes next. -/
def heldComment (c : String) : String := if isLineComment c then c ++ "\n" else c

/-- Comments inside braces, a blank between two on one line. -/
def heldText : List String → String
  | [] => ""
  | c :: cs =>
    cs.foldl (fun s d => (if endsLine s then s else s ++ " ") ++ heldComment d) (heldComment c)

def linesText (cs : List String) : String := String.join (cs.map (· ++ "\n"))

/-- Prints those comments that `chosen` picks, as `written` puts it. -/
def takeComments (chosen : Span → Bool) (written : List String → String) (p : Print) : Print :=
  let (taken, left) := p.comments.partition (chosen ·.span)
  { p with text := p.text ++ written (taken.map (·.val)), comments := left }

def add (p : Print) : Piece → Print
  | .text s => { p with text := p.text ++ s }
  | .heldComments container => p.takeComments container.encloses heldText
  | .leadingComments start stop =>
    p.takeComments (fun s => start ≤ s.start && s.start < stop) linesText
  | .trailingComments start => p.takeComments (fun s => start ≤ s.start) linesText
  | .opens => { p with opened := p.text.utf8ByteSize :: p.opened }
  | .closes kind provenance =>
    match p.opened with
    | [] => p
    | start :: opened =>
      { p with
        opened := opened
        mappings := p.mappings ++
          [⟨start, p.text.utf8ByteSize, provenance.origin, kind, provenance.branch⟩] }

def addAll (p : Print) (ps : List Piece) : Print := ps.foldl add p

/-- Of a text read backwards: at most one line break at the front. -/
def dropExtraBreaks : List Char → List Char
  | '\n' :: '\n' :: cs => dropExtraBreaks ('\n' :: cs)
  | cs => cs

/-- A text that is not empty ends with exactly one line break. -/
def finish (s : String) : String :=
  match dropExtraBreaks s.toList.reverse with
  | [] => ""
  | '\n' :: cs => String.ofList ('\n' :: cs).reverse
  | cs => String.ofList ('\n' :: cs).reverse

end Print

def Piece.plain (ps : List Piece) : String := ((Print.ofComments []).addAll ps).text

namespace Program

def print (p : Program) : Print := (Print.ofComments p.comments).addAll p.pieces

/-- The printed program and its mappings, in the order in which the nodes end. -/
def formatWithMap (p : Program) : String × List Mapping :=
  let out := p.print
  (Print.finish out.text, out.mappings)

def format (p : Program) : String := p.formatWithMap.1

end Program
end BranchMarkup
