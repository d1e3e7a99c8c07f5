import BranchMarkup.Json.Shape
import BranchMarkup.Json.Skip
/-! Reading JSON text of a given shape. What is read has every field of a record, in the order of
the layout, and the bare name of every variant that holds nothing. -/
namespace BranchMarkup.Json

/-- Something else than `wanted` begins at `cs`: it is read as far as needed to say what it is. -/
def mismatch {α : Type} (wanted : String) (cs : List Char) : Except Stop α :=
  let wrong (found : Found) (rest : List Char) : Except Stop α :=
    failAt (.wrongType found wanted) rest
  match cs with
  | 'n' :: rest => do wrong .null (← expectWord ['u', 'l', 'l'] rest)
  | 't' :: rest => do wrong (.bool true) (← expectWord ['r', 'u', 'e'] rest)
  | 'f' :: rest => do wrong (.bool false) (← expectWord ['a', 'l', 's', 'e'] rest)
  | '-' :: rest => do
    let (n, rest) ← readNumeral true rest
    wrong n.found rest
  | '"' :: rest => do
    let (s, rest) ← readText rest
    wrong (.text s) rest
  | '[' :: _ => wrong .list cs
  | '\x7b' :: _ => wrong .object cs
  | c :: _ =>
    if c.isDigit then do
      let (n, rest) ← readNumeral false cs
      wrong n.found rest
    else failOn .expectedValue cs
  | [] => failAt (.unfinished .value) []

def wordName (bits : Nat) : String := "u" ++ toString bits

def asWord (bits : Nat) : Numeral × List Char → Except Stop (Json × List Char)
  | (.float x, rest) => failAt (.wrongType (.float x) (wordName bits)) rest
  | (.integer n, rest) =>
    if 0 ≤ n && n < (Number.twoTo bits : Nat) then .ok (.number n.toNat, rest)
    else failAt (.outOfRange n (wordName bits)) rest

def readWord (bits : Nat) : Reader Json
  | '-' :: cs => readNumeral true cs >>= asWord bits
  | cs =>
    if startsWithDigit cs then readNumeral false cs >>= asWord bits else mismatch (wordName bits) cs

def listEnd (cs : List Char) : List Char :=
  match skipBlanks cs with
  | ']' :: cs => cs
  | ',' :: cs => skipBlanks cs
  | cs => cs

def objectEnd (cs : List Char) : List Char :=
  match skipBlanks cs with
  | '\x7d' :: cs => cs
  | cs => cs

def closeList (cs : List Char) : Except Stop (List Char) :=
  match skipBlanks cs with
  | ']' :: cs => .ok cs
  | ',' :: cs =>
    match skipBlanks cs with
    | ']' :: cs => failOn .trailingComma (']' :: cs)
    | cs => failOn .trailingCharacters cs
  | [] => failAt (.unfinished .list) []
  | cs => failOn .trailingCharacters cs

def closeObject (cs : List Char) : Except Stop (List Char) :=
  match skipBlanks cs with
  | '\x7d' :: cs => .ok cs
  | ',' :: cs => failOn .trailingComma (',' :: cs)
  | [] => failAt (.unfinished .object) []
  | cs => failOn .trailingCharacters cs

/-- Closes what `inside` was read from. A fault without a place gets the place that closing
reaches. -/
def closing {α : Type} (close : List Char → Except Stop (List Char)) (reach : List Char → List Char)
    (inside : Except Stop (α × List Char)) : Except Stop (α × List Char) :=
  match inside with
  | .ok (a, rest) => (close rest).map fun rest => (a, rest)
  | .error (.pending fault rest) => failAt fault (reach rest)
  | .error stop => .error stop

/-- The next item of a list: `none` at its closing bracket, else the text where it begins. -/
def nextItem (first : Bool) (cs : List Char) : Except Stop (Option (List Char)) :=
  match skipBlanks cs with
  | [] => failAt (.unfinished .list) []
  | ']' :: _ => .ok none
  | c :: cs =>
    if first then .ok (some (c :: cs))
    else if c = ',' then
      match skipBlanks cs with
      | [] => failAt (.unfinished .value) []
      | ']' :: cs => failOn .trailingComma (']' :: cs)
      | cs => .ok (some cs)
    else failOn .expectedCommaOrBracket (c :: cs)

def nextKey (first : Bool) (cs : List Char) : Except Stop (Option (List Char)) :=
  match skipBlanks cs with
  | [] => failAt (.unfinished .object) []
  | '\x7d' :: _ => .ok none
  | c :: cs =>
    if first then
      if c = '"' then .ok (some cs) else failOn .keyNotString (c :: cs)
    else if c = ',' then
      match skipBlanks cs with
      | [] => failAt (.unfinished .value) []
      | '"' :: cs => .ok (some cs)
      | '\x7d' :: cs => failOn .trailingComma ('\x7d' :: cs)
      | cs => failOn .keyNotString cs
    else failOn .expectedCommaOrBrace (c :: cs)

def readItems (item : Reader Json) : Nat → Bool → Reader (List Json)
  | 0, _, cs => failOn .expectedValue cs
  | fuel + 1, first, cs => do
    match ← nextItem first cs with
    | none => return ([], cs)
    | some cs =>
      let (j, rest) ← item cs
      let (js, rest) ← readItems item fuel false rest
      return (j :: js, rest)

section Records

variable {κ : Type}

def readField (value : Shape κ → Reader Json) (f : RecordField κ) (cs : List Char) :
    Except Stop (Json × List Char) :=
  if f.presence = .nullable then
    match skipBlanks cs with
    | 'n' :: rest => (expectWord ['u', 'l', 'l'] rest).map fun rest => (.null, rest)
    | cs => value f.shape cs
  else value f.shape cs

/-- The members of a record, in the order of the text. Those that the layout does not know are
passed over. `fuel` bounds their number. -/
def readMembers (value : Shape κ → Reader Json) (fields : List (RecordField κ)) :
    Nat → List (String × Json) → Bool → Reader (List (String × Json))
  | 0, _, _, cs => failOn .expectedValue cs
  | fuel + 1, seen, first, cs => do
    match ← nextKey first cs with
    | none => return (seen, cs)
    | some cs =>
      let (key, rest) ← readText cs
      match fields.find? (·.name = String.ofList key) with
      | none =>
        let rest ← skipValue (← expectColon rest)
        readMembers value fields fuel seen false rest
      | some f =>
        if (seen.lookup f.name).isSome then throw (.pending (.duplicateField f.name) rest)
        let (j, rest) ← readField value f (← expectColon rest)
        readMembers value fields fuel (seen ++ [(f.name, j)]) false rest

/-- All fields in the order of the layout. The first one that is missing and required is blamed. -/
def complete (seen : List (String × Json)) (rest : List Char) :
    List (RecordField κ) → Except Stop (List (String × Json))
  | [] => .ok []
  | f :: fs =>
    match (seen.lookup f.name).or f.presence.missing? with
    | none => .error (.pending (.missingField f.name) rest)
    | some j => (complete seen rest fs).map ((f.name, j) :: ·)

/-- A record as an array. `wrongLength` makes the fault of an array that ends too early. -/
def readInOrder (value : Shape κ → Reader Json) (wrongLength : Nat → Fault) :
    Nat → List (RecordField κ) → Reader (List (String × Json))
  | _, [], cs => .ok ([], cs)
  | index, f :: fs, cs => do
    let (j, rest) ← (do
      match ← nextItem (index = 0) cs with
      | some cs => readField value f cs
      | none =>
        match f.presence.short? with
        | some j => return (j, cs)
        | none => throw (.pending (wrongLength index) cs))
    let (ms, rest) ← readInOrder value wrongLength (index + 1) fs rest
    return ((f.name, j) :: ms, rest)

def readVariant (variants : List (String × Content κ)) (cs : List Char) :
    Except Stop ((String × Content κ) × List Char) := do
  let (name, rest) ← readText cs
  match variants.find? (·.1 = String.ofList name) with
  | some v => return (v, rest)
  | none => failAt (.unknownVariant (String.ofList name) (variants.map (·.1))) rest

def readBare (variants : List (String × Content κ)) (cs : List Char) :
    Except Stop (Json × List Char) := do
  let ((name, content), rest) ← readVariant variants cs
  let wrong (wanted : String) : Except Stop (Json × List Char) :=
    .error (.pending (.wrongType .bare wanted) rest)
  match content with
  | .nothing => return (.string name, rest)
  | .value _ => wrong "newtype variant"
  | .fields _ => wrong "struct variant"

def expectKey (cs : List Char) : Except Stop (List Char) :=
  match skipBlanks cs with
  | '"' :: cs => .ok cs
  | [] => failAt (.unfinished .object) []
  | '\x7d' :: cs => failOn .expectedValue ('\x7d' :: cs)
  | cs => failOn .keyNotString cs

def readTagged (value : Shape κ → Reader Json) (variants : List (String × Content κ))
    (cs : List Char) : Except Stop (Json × List Char) := do
  let ((name, content), rest) ← readVariant variants (← expectKey cs)
  let rest ← expectColon rest
  let (j, rest) ← match content with
    | .nothing => (value .null rest).map fun (_, rest) => (Json.string name, rest)
    | .value shape => (value shape rest).map fun (j, rest) => (.object [(name, j)], rest)
    | .fields k => (value (.named k) rest).map fun (j, rest) => (.object [(name, j)], rest)
  match skipBlanks rest with
  | '\x7d' :: rest => return (j, rest)
  | [] => failAt (.unfinished .object) []
  | rest => failAt .expectedValue rest

/-- Reads a value of a shape, in which at most `depth` lists and objects are open at a time. -/
def read (layout : κ → Layout κ) (depth : Nat) (shape : Shape κ) (cs : List Char) :
    Except Stop (Json × List Char) :=
  match skipBlanks cs with
  | [] => failAt (.unfinished .value) []
  | cs =>
    match shape with
    | .null =>
      match cs with
      | 'n' :: rest => (expectWord ['u', 'l', 'l'] rest).map fun rest => (.null, rest)
      | cs => mismatch "unit" cs
    | .flag =>
      match cs with
      | 't' :: rest => (expectWord ['r', 'u', 'e'] rest).map fun rest => (.bool true, rest)
      | 'f' :: rest => (expectWord ['a', 'l', 's', 'e'] rest).map fun rest => (.bool false, rest)
      | cs => mismatch "a boolean" cs
    | .text =>
      match cs with
      | '"' :: rest => (readText rest).map fun (s, rest) => (.string (String.ofList s), rest)
      | cs => mismatch "a string" cs
    | .word bits => readWord bits cs
    | .list item =>
      match cs, depth with
      | '[' :: _, 0 => failOn .tooDeep cs
      | '[' :: rest, depth + 1 =>
        (closing closeList listEnd
          (readItems (read layout depth item) (rest.length + 1) true rest)).map
            fun (js, rest) => (.array js, rest)
      | cs, _ => mismatch "a sequence" cs
    | .named name =>
      match layout name with
      | .record title fields =>
        match cs, depth with
        | '[' :: _, 0 => failOn .tooDeep cs
        | '\x7b' :: _, 0 => failOn .tooDeep cs
        | '[' :: rest, depth + 1 =>
          (closing closeList listEnd
            (readInOrder (read layout depth) (.wrongLength · title fields.length) 0 fields
              rest)).map fun (ms, rest) => (.object ms, rest)
        | '\x7b' :: rest, depth + 1 =>
          (closing closeObject objectEnd (do
            let (seen, rest) ← readMembers (read layout depth) fields (rest.length + 1) [] true rest
            return (← complete seen rest fields, rest))).map fun (ms, rest) => (.object ms, rest)
        | cs, _ => mismatch title cs
      | .choice variants =>
        match cs, depth with
        | '"' :: rest, _ => readBare variants rest
        | '\x7b' :: _, 0 => failOn .tooDeep cs
        | '\x7b' :: rest, depth + 1 => readTagged (read layout depth) variants rest
        | cs, _ => failOn .expectedValue cs

def maxDepth : Nat := 127

def readAll (layout : κ → Layout κ) (shape : Shape κ) (cs : List Char) : Except Stop Json := do
  let (j, rest) ← read layout maxDepth shape cs
  match skipBlanks rest with
  | [] => return j
  | rest => failOn .trailingCharacters rest

end Records
end BranchMarkup.Json
