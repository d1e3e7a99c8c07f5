import BranchMarkup.Number.Write
import BranchMarkup.Text.Bytes
import BranchMarkup.Text.Printable
/-! Why a JSON text is refused, and where. -/
namespace BranchMarkup.Json

inductive Part where
  | value
  | object
  | list
  | string
deriving DecidableEq, Repr

def Part.describe : Part → String
  | value => "a value"
  | object => "an object"
  | list => "a list"
  | string => "a string"

inductive Found where
  | null
  | bool (b : Bool)
  | integer (n : Int)
  | float (x : Float)
  | text (cs : List Char)
  | list
  | object
  /-- The bare name of a variant. -/
  | bare

def Found.describe : Found → String
  | null => "null"
  | bool b => "boolean `" ++ (if b then "true" else "false") ++ "`"
  | integer n => "integer `" ++ toString n ++ "`"
  | float x => "floating point `" ++ Number.scientificText x ++ "`"
  | text cs => "string " ++ String.ofList (Text.shown cs)
  | list => "sequence"
  | object => "map"
  | bare => "unit variant"

inductive Fault where
  | unfinished (part : Part)
  | expectedValue
  | expectedWord
  | expectedColon
  | expectedCommaOrBrace
  | expectedCommaOrBracket
  | keyNotString
  | trailingComma
  | trailingCharacters
  | invalidNumber
  | numberTooLarge
  | invalidEscape
  /-- A leading surrogate without another escape after it. -/
  | brokenPair
  /-- A surrogate that does not pair with the one beside it. -/
  | loneSurrogate
  | controlCharacter
  | tooDeep
  | wrongType (found : Found) (wanted : String)
  | outOfRange (n : Int) (wanted : String)
  | wrongLength (found : Nat) (wanted : String) (count : Nat)
  | unknownVariant (name : String) (known : List String)
  | missingField (name : String)
  | duplicateField (name : String)

def quoted (name : String) : String := "`" ++ name ++ "`"

def choices : List String → String
  | [] => "there are no variants"
  | [a] => "expected " ++ quoted a
  | [a, b] => "expected " ++ quoted a ++ " or " ++ quoted b
  | names => "expected one of " ++ ", ".intercalate (names.map quoted)

def Fault.message : Fault → String
  | unfinished part => "EOF while parsing " ++ part.describe
  | expectedValue => "expected value"
  | expectedWord => "expected ident"
  | expectedColon => "expected `:`"
  | expectedCommaOrBrace => "expected `,` or `\x7d`"
  | expectedCommaOrBracket => "expected `,` or `]`"
  | keyNotString => "key must be a string"
  | trailingComma => "trailing comma"
  | trailingCharacters => "trailing characters"
  | invalidNumber => "invalid number"
  | numberTooLarge => "number out of range"
  | invalidEscape => "invalid escape"
  | brokenPair => "unexpected end of hex escape"
  | loneSurrogate => "lone leading surrogate in hex escape"
  | controlCharacter => "control character (\\u0000-\\u001F) found while parsing a string"
  | tooDeep => "recursion limit exceeded"
  | wrongType found wanted => "invalid type: " ++ found.describe ++ ", expected " ++ wanted
  | outOfRange n wanted =>
    "invalid value: integer " ++ quoted (toString n) ++ ", expected " ++ wanted
  | wrongLength found wanted count =>
    "invalid length " ++ toString found ++ ", expected " ++ wanted ++ " with " ++ toString count ++
      (if count = 1 then " element" else " elements")
  | unknownVariant name known => "unknown variant " ++ quoted name ++ ", " ++ choices known
  | missingField name => "missing field " ++ quoted name
  | duplicateField name => "duplicate field " ++ quoted name

/-- How reading ends early. A place is given by the number of bytes after it. -/
inductive Stop where
  | at (fault : Fault) (left : Nat)
  /-- A fault of a record as a whole: its place is where the record, or the one around it,
  closes. -/
  | pending (fault : Fault) (rest : List Char)

abbrev Reader (α : Type) := List Char → Except Stop (α × List Char)

def failAt {α : Type} (fault : Fault) (cs : List Char) : Except Stop α :=
  .error (.at fault (Text.byteLength cs))

/-- Blames the first byte of `cs`, which counts as read. -/
def failOn {α : Type} (fault : Fault) (cs : List Char) : Except Stop α :=
  .error (.at fault (Text.byteLength cs - 1))

/-- Line and column after the first `n` bytes: lines count from one, and a column counts the bytes
since the last line break. -/
def lineColumn : Nat → List Char → Nat × Nat
  | n, cs => go n cs 1 0
where
  go : Nat → List Char → Nat → Nat → Nat × Nat
  | _, [], line, column => (line, column)
  | n, c :: cs, line, column =>
    if n < c.utf8Size then (line, column + n)
    else if c = '\n' then go (n - 1) cs (line + 1) 0
    else go (n - c.utf8Size) cs line (column + c.utf8Size)

end BranchMarkup.Json
