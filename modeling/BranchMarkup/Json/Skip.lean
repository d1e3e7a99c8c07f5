import BranchMarkup.Json.Scan
/-! Passing over a value that nothing asks for. It has to be well formed, but may be nested as deep
as it likes, and a comma that closes a list is blamed on the value that is missing after it. -/
namespace BranchMarkup.Json

def expectColon (cs : List Char) : Except Stop (List Char) :=
  match skipBlanks cs with
  | ':' :: cs => .ok cs
  | [] => failAt (.unfinished .object) []
  | cs => failOn .expectedColon cs

inductive Bracket where
  | list
  | object
deriving DecidableEq, Repr

namespace Bracket

def closer : Bracket → Char
  | list => ']'
  | object => '\x7d'

def part : Bracket → Part
  | list => .list
  | object => .object

def commaFault : Bracket → Fault
  | list => .expectedCommaOrBracket
  | object => .expectedCommaOrBrace

def startItem (cs : List Char) : Bracket → Except Stop (List Char)
  | list => .ok cs
  | object =>
    match skipBlanks cs with
    | '"' :: cs => skipText cs >>= expectColon
    | [] => failAt (.unfinished .object) []
    | cs => failOn .keyNotString cs

def closedAtOnce? (cs : List Char) (b : Bracket) : Option (List Char) :=
  match skipBlanks cs with
  | [] => none
  | c :: cs => if c = b.closer then some cs else none

end Bracket

def skipScalar : List Char → Except Stop (List Char)
  | [] => failAt (.unfinished .value) []
  | 'n' :: cs => expectWord ['u', 'l', 'l'] cs
  | 't' :: cs => expectWord ['r', 'u', 'e'] cs
  | 'f' :: cs => expectWord ['a', 'l', 's', 'e'] cs
  | '-' :: cs => skipNumeral cs
  | '"' :: cs => skipText cs
  | c :: cs => if c.isDigit then skipNumeral (c :: cs) else failOn .expectedValue (c :: cs)

/-- After a value: closes brackets up to a comma. What is left open is given with the text after the
comma; nothing is left where the outermost value has ended. -/
def skipClosers : List Bracket → List Char → Except Stop (List Bracket × List Char)
  | [], cs => .ok ([], cs)
  | b :: opened, cs =>
    match skipBlanks cs with
    | [] => failAt (.unfinished b.part) []
    | ',' :: cs => .ok (b :: opened, cs)
    | c :: cs => if c = b.closer then skipClosers opened cs else failOn b.commaFault (c :: cs)

def bracket? : List Char → Option (Bracket × List Char)
  | '[' :: cs => some (.list, cs)
  | '\x7b' :: cs => some (.object, cs)
  | _ => none

/-- Passes over values until none of `opened` is open. `fuel` bounds the number of values. -/
def skipOpened : Nat → List Bracket → List Char → Except Stop (List Char)
  | 0, _, cs => failOn .expectedValue cs
  | fuel + 1, opened, cs => do
    let cs := skipBlanks cs
    match bracket? cs with
    | none => goOn fuel opened (← skipScalar cs)
    | some (b, rest) =>
      match b.closedAtOnce? rest with
      | some rest => goOn fuel opened rest
      | none =>
        if (skipBlanks rest).isEmpty then failAt (.unfinished b.part) []
        else skipOpened fuel (b :: opened) (← b.startItem rest)
where
  goOn (fuel : Nat) (opened : List Bracket) (cs : List Char) : Except Stop (List Char) := do
    match ← skipClosers opened cs with
    | ([], rest) => return rest
    | (b :: opened, rest) => skipOpened fuel (b :: opened) (← b.startItem rest)

def skipValue (cs : List Char) : Except Stop (List Char) := skipOpened (cs.length + 1) [] cs

end BranchMarkup.Json
