import BranchMarkup.Token.Scanner
/-! One token of lookahead over a scanner. The token after the current one is cut only when the
current one is taken, because only then is it known in which mode. -/
namespace BranchMarkup

structure Parser where
  scanner : Scanner
  token : Spanned Token
  /-- Where the token taken last stood. -/
  last : Span
  faults : List (Spanned Fault)
  depth : Nat

abbrev Parse := StateM Parser

namespace Parser

def ofText (source : List Char) : Parser :=
  let (token, scanner) := (Scanner.ofText source).next .script
  ⟨scanner, token, .zero, [], 0⟩

/-- Takes the current token; the end of the file stays. -/
def bump (mode : Mode) (p : Parser) : Parser :=
  if p.token.val = .endOfFile then p
  else
    let (token, scanner) := p.scanner.next mode
    { p with scanner := scanner, token := token, last := p.token.span }

/-- Every fault found, those of the scanner first. -/
def allFaults (p : Parser) : List (Spanned Fault) := p.scanner.faults ++ p.faults

end Parser

namespace Parse

def token : Parse Token := return (← get).token.val

def kind : Parse Token.Kind := return (← get).token.val.kind

def here : Parse Span := return (← get).token.span

def last : Parse Span := return (← get).last

def sees (k : Token.Kind) : Parse Bool := return (← kind) = k

def bump (mode : Mode) : Parse Unit := modify (·.bump mode)

def faultAt (f : Fault) (span : Span) : Parse Unit :=
  modify fun p => { p with faults := p.faults ++ [⟨f, span⟩] }

def fault (f : Fault) : Parse Unit := do faultAt f (← here)

def missing (wanted : Wanted) : Parse Unit := do fault (.expected wanted (← kind))

def eat (k : Token.Kind) (mode : Mode) : Parse Bool := do
  if ← sees k then
    bump mode
    return true
  else return false

/-- Takes a token of kind `k`, or notes that it is missing and takes nothing. -/
def expect (k : Token.Kind) (mode : Mode) : Parse Unit := do
  unless ← eat k mode do missing (.token k)

/-- One level deeper, or `fallback` with a fault where no level is left. -/
def nested {α : Type} (fallback : α) (inner : Parse α) : Parse α := do
  if (← get).depth < maxNesting then
    modify fun p => { p with depth := p.depth + 1 }
    let a ← inner
    modify fun p => { p with depth := p.depth - 1 }
    return a
  else
    fault .tooDeep
    return fallback

def noName : Parse (Spanned String) := return ⟨"_error_", ← here⟩

def ident? : Parse (Option (Spanned String)) := do
  match ← token with
  | .ident name =>
    let span ← here
    bump .script
    return some ⟨name, span⟩
  | _ => return none

def ident : Parse (Spanned String) := do
  match ← ident? with
  | some name => return name
  | none =>
    missing (.token .ident)
    noName

/-- Where only a name can stand, keywords are names too. -/
def name : Parse (Spanned String) := do
  match ← token with
  | .keyword k =>
    let span ← here
    bump .script
    return ⟨k.text, span⟩
  | _ => ident

def string? : Parse (Option (Spanned String)) := do
  match ← token with
  | .string s =>
    let span ← here
    bump .script
    return some ⟨s, span⟩
  | _ => return none

def string : Parse (Spanned String) := do
  match ← string? with
  | some s => return s
  | none =>
    missing (.token .string)
    return ⟨"", ← here⟩

def tagIdent : Parse (Spanned String) := do
  match ← token with
  | .ident name =>
    let span ← here
    bump .tag
    return ⟨name, span⟩
  | _ =>
    missing .tagName
    noName

def tagNamePart (name : Spanned String) (joint : String) : Parse (Spanned String) := do
  bump .tag
  let part ← tagIdent
  return ⟨name.val ++ joint ++ part.val, name.span.merge part.span⟩

def tagNameRest : Nat → Spanned String → Parse (Spanned String)
  | 0, name => return name
  | fuel + 1, name => do
    match ← token with
    | .symbol .dot => tagNameRest fuel (← tagNamePart name ".")
    | .symbol .colon => tagNameRest fuel (← tagNamePart name ":")
    | _ => return name

/-- `div`, `my-widget`, `Foo.Bar`, `svg:rect`; empty where the tag ends at once. -/
def tagName (fuel : Nat) : Parse (Spanned String) := do
  if ← sees (.symbol .gt) then return ⟨"", ← here⟩
  else tagNameRest fuel (← tagIdent)

end Parse
end BranchMarkup
