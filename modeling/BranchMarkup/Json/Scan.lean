import BranchMarkup.Json.Fault
/-! The smallest parts of a JSON text: blanks, words, strings and numbers. -/
namespace BranchMarkup.Json

def isBlank (c : Char) : Bool := c = ' ' || c = '\n' || c = '\t' || c = '\r'

def skipBlanks (cs : List Char) : List Char := cs.dropWhile isBlank

def expectWord : List Char → List Char → Except Stop (List Char)
  | [], cs => .ok cs
  | _ :: _, [] => failAt (.unfinished .value) []
  | w :: ws, c :: cs => if c = w then expectWord ws cs else failOn .expectedWord (c :: cs)

/-! Strings, from after the opening quote -/

def escaped? : Char → Option Char
  | '"' => some '"'
  | '\\' => some '\\'
  | '/' => some '/'
  | 'b' => some '\x08'
  | 'f' => some '\x0c'
  | 'n' => some '\n'
  | 'r' => some '\r'
  | 't' => some '\t'
  | _ => none

def hexValue? (c : Char) : Option Nat :=
  if '0' ≤ c && c ≤ '9' then some (c.toNat - '0'.toNat)
  else if 'a' ≤ c && c ≤ 'f' then some (c.toNat - 'a'.toNat + 10)
  else if 'A' ≤ c && c ≤ 'F' then some (c.toNat - 'A'.toNat + 10)
  else none

def hexUnit? (a b c d : Char) : Option Nat := do
  return ((← hexValue? a) * 16 + (← hexValue? b)) * 256 + ((← hexValue? c) * 16 + (← hexValue? d))

/-- What follows is no unit of four digits: four bytes are read all the same. -/
def badUnit {α : Type} (cs : List Char) : Except Stop α :=
  let left := Text.byteLength cs
  if left < 4 then .error (.at (.unfinished .string) 0) else .error (.at .invalidEscape (left - 4))

def isLeading (unit : Nat) : Bool := 0xD800 ≤ unit && unit ≤ 0xDBFF

def isTrailing (unit : Nat) : Bool := 0xDC00 ≤ unit && unit ≤ 0xDFFF

def pairOf (leading trailing : Nat) : Char :=
  Char.ofNat ((leading - 0xD800) * 0x400 + (trailing - 0xDC00) + 0x10000)

def noTrailing {α : Type} : List Char → Except Stop α
  | [] | ['\\'] => failAt (.unfinished .string) []
  | '\\' :: 'u' :: cs => badUnit cs
  | '\\' :: cs => failOn .brokenPair cs
  | cs => failOn .brokenPair cs

def push (c : Char) (r : Except Stop (List Char × List Char)) :
    Except Stop (List Char × List Char) :=
  r.map fun (s, rest) => (c :: s, rest)

def readText : Reader (List Char)
  | [] | ['\\'] => failAt (.unfinished .string) []
  | '"' :: cs => .ok ([], cs)
  | '\\' :: 'u' :: a :: b :: c :: d :: cs =>
    match hexUnit? a b c d with
    | none => badUnit (a :: b :: c :: d :: cs)
    | some unit =>
      if isTrailing unit then failAt .loneSurrogate cs
      else if isLeading unit then
        match cs with
        | '\\' :: 'u' :: a :: b :: c :: d :: cs =>
          match hexUnit? a b c d with
          | none => badUnit (a :: b :: c :: d :: cs)
          | some next =>
            if isTrailing next then push (pairOf unit next) (readText cs)
            else failAt .loneSurrogate cs
        | cs => noTrailing cs
      else push (Char.ofNat unit) (readText cs)
  | '\\' :: 'u' :: cs => badUnit cs
  | '\\' :: c :: cs =>
    match escaped? c with
    | some e => push e (readText cs)
    | none => failOn .invalidEscape (c :: cs)
  | c :: cs => if c.toNat < 0x20 then failOn .controlCharacter (c :: cs) else push c (readText cs)

/-- A string whose value is not wanted. Surrogates need not pair here. -/
def skipText : List Char → Except Stop (List Char)
  | [] | ['\\'] => failAt (.unfinished .string) []
  | '"' :: cs => .ok cs
  | '\\' :: 'u' :: a :: b :: c :: d :: cs =>
    if (hexUnit? a b c d).isSome then skipText cs else badUnit (a :: b :: c :: d :: cs)
  | '\\' :: 'u' :: cs => badUnit cs
  | '\\' :: c :: cs => if (escaped? c).isSome then skipText cs else failOn .invalidEscape (c :: cs)
  | c :: cs => if c.toNat < 0x20 then failAt .controlCharacter (c :: cs) else skipText cs

/-! Numbers, from after the sign -/

inductive Numeral where
  | integer (n : Int)
  | float (x : Float)

def Numeral.found : Numeral → Found
  | integer n => .integer n
  | float x => .float x

def digit (c : Char) : Nat := c.toNat - '0'.toNat

def startsWithDigit : List Char → Bool
  | [] => false
  | c :: _ => c.isDigit

def digitsBelow (bound : Nat) (acc : Nat) : List Char → Nat × Nat × List Char
  | [] => (acc, 0, [])
  | c :: cs =>
    if c.isDigit && acc * 10 + digit c < bound then
      let (n, count, rest) := digitsBelow bound (acc * 10 + digit c) cs
      (n, count + 1, rest)
    else (acc, 0, c :: cs)

def powerOfTen (n : Nat) : Float := Float.ofScientific 1 false n

/-- `x · 10 ^ e` in one step of multiplication or division; where `e` is too low for that, 10^308 is
divided out first, which takes any 64-bit number to zero in two steps. -/
def scale : Nat → Float → Int → Option Float
  | 0, x, _ => some x
  | steps + 1, x, e =>
    if e.natAbs ≤ 308 then
      if 0 ≤ e then
        let y := x * powerOfTen e.natAbs
        if y.isInf then none else some y
      else some (x / powerOfTen e.natAbs)
    else if x == 0 then some x
    else if 0 ≤ e then none
    else scale steps (x / powerOfTen 308) (e + 308)

def signed (negative : Bool) (x : Float) : Numeral := .float (if negative then -x else x)

def readParts (negative : Bool) (n : Nat) (e : Int) (cs : List Char) :
    Except Stop (Numeral × List Char) :=
  match scale 4 (Float.ofNat n) e with
  | some x => .ok (signed negative x, cs)
  | none => failAt .numberTooLarge cs

def readExponent (negative : Bool) (n : Nat) (e : Int) (cs : List Char) :
    Except Stop (Numeral × List Char) :=
  let (down, cs) :=
    match cs with
    | '+' :: cs => (false, cs)
    | '-' :: cs => (true, cs)
    | cs => (false, cs)
  match cs with
  | [] => failAt (.unfinished .value) []
  | c :: _ =>
    if c.isDigit then
      match digitsBelow (Number.twoTo 31) 0 cs with
      | (power, _, rest) =>
        if startsWithDigit rest then
          if n ≠ 0 && !down then failOn .numberTooLarge rest
          else .ok (signed negative 0, rest.dropWhile Char.isDigit)
        else readParts negative n (if down then e - power else e + power) rest
    else failOn .invalidNumber cs

def isExponentMark (c : Char) : Bool := c = 'e' || c = 'E'

/-- Decimal places, from after the point. Places past the 64th bit do not count. -/
def readPlaces (negative : Bool) (n : Nat) (e : Int) (cs : List Char) :
    Except Stop (Numeral × List Char) :=
  match digitsBelow (Number.twoTo 64) n cs with
  | (n, count, rest) =>
    if count = 0 && !startsWithDigit rest then
      match rest with
      | [] => failAt (.unfinished .value) []
      | rest => failOn .invalidNumber rest
    else
      match rest.dropWhile Char.isDigit with
      | c :: cs =>
        if isExponentMark c then readExponent negative n (e - count) cs
        else readParts negative n (e - count) (c :: cs)
      | [] => readParts negative n (e - count) []

/-- Minus zero, and whole numbers that take more than 64 bits, are doubles. -/
def wholeNumeral (negative : Bool) (n : Nat) : Numeral :=
  if negative then
    if 1 ≤ n && n ≤ Number.twoTo 63 then .integer (-n) else .float (-(Float.ofNat n))
  else .integer n

def readTail (negative : Bool) (n dropped : Nat) : Reader Numeral
  | '.' :: cs => readPlaces negative n dropped cs
  | cs =>
    match cs with
    | c :: rest =>
      if isExponentMark c then readExponent negative n dropped rest
      else whole cs
    | [] => whole []
where
  whole (cs : List Char) : Except Stop (Numeral × List Char) :=
    if dropped = 0 then .ok (wholeNumeral negative n, cs) else readParts negative n dropped cs

def readNumeral (negative : Bool) : Reader Numeral
  | [] => failAt (.unfinished .value) []
  | '0' :: cs => if startsWithDigit cs then failOn .invalidNumber cs else readTail negative 0 0 cs
  | c :: cs =>
    if c.isDigit then
      match digitsBelow (Number.twoTo 64) 0 (c :: cs) with
      | (n, _, rest) =>
        readTail negative n (rest.takeWhile Char.isDigit).length (rest.dropWhile Char.isDigit)
    else failOn .invalidNumber (c :: cs)

/-! Numbers whose value is not wanted -/

def skipExponent (cs : List Char) : Except Stop (List Char) :=
  let cs := match cs with
    | '+' :: cs | '-' :: cs => cs
    | cs => cs
  match cs with
  | [] => failAt .invalidNumber []
  | c :: rest => if c.isDigit then .ok (rest.dropWhile Char.isDigit) else failOn .invalidNumber cs

def skipAfterDigits : List Char → Except Stop (List Char)
  | [] => .ok []
  | c :: cs => if isExponentMark c then skipExponent cs else .ok (c :: cs)

def skipTail : List Char → Except Stop (List Char)
  | '.' :: cs =>
    if startsWithDigit cs then skipAfterDigits (cs.dropWhile Char.isDigit)
    else failOn .invalidNumber cs
  | cs => skipAfterDigits cs

def skipNumeral : List Char → Except Stop (List Char)
  | [] => failAt .invalidNumber []
  | '0' :: cs => if startsWithDigit cs then failOn .invalidNumber cs else skipTail cs
  | c :: cs =>
    if c.isDigit then skipTail (cs.dropWhile Char.isDigit) else failOn .invalidNumber (c :: cs)

end BranchMarkup.Json
