/-! Text between tags as it shows. Line breaks and the blanks around them stand for one space, as
long as text follows. -/
namespace BranchMarkup.Text

/-- Holds more than spaces, tabs and carriage returns. -/
def isInked (line : List Char) : Bool := line.any fun c => c ≠ ' ' && c ≠ '\t' && c ≠ '\r'

def tabsToSpaces (line : List Char) : List Char := line.map fun c => if c = '\t' then ' ' else c

def dropSpaces (line : List Char) : List Char := line.dropWhile (· = ' ')

def dropEndSpaces (line : List Char) : List Char :=
  (line.reverse.dropWhile fun c => c = ' ' || c = '\r').reverse

/-- The start of the first line and the end of the last touch a tag, and are kept. -/
def tidyLine (isFirst isLast : Bool) (line : List Char) : List Char :=
  let line := tabsToSpaces line
  let line := if isFirst then line else dropSpaces line
  if isLast then line else dropEndSpaces line

/-- A line that is left is followed by a space, unless it is the last one with ink. -/
def tidyLines (isFirst : Bool) : List (List Char) → List Char
  | [] => []
  | line :: rest =>
    match tidyLine isFirst rest.isEmpty line with
    | [] => tidyLines false rest
    | kept =>
      kept ++ (if isInked line && !rest.any isInked then [] else [' ']) ++ tidyLines false rest

/-- Nothing where no line is left. -/
def tidy? (cs : List Char) : Option (List Char) :=
  match tidyLines true (cs.splitOn '\n') with
  | [] => none
  | kept => some kept

end BranchMarkup.Text
