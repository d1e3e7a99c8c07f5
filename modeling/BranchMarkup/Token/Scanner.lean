import BranchMarkup.Fault
import BranchMarkup.Text.Bytes
/-! Cutting tokens off a text, one at a time. What counts as a token depends on where the reader
stands, so each request names a mode. Comments are set aside and faults noted on the way. -/
namespace BranchMarkup

open Text (byteLength)

inductive Mode where
  | script
  /-- Inside `<tag ...>`: names may hold `-`, strings have no escapes, `>` never joins with `=`. -/
  | tag
  /-- Between tags: raw text up to the next `<` or brace. -/
  | child
deriving DecidableEq, Repr

namespace Scanner

/-- A text cut in two. -/
structure Cut where
  taken : List Char
  rest : List Char

def isSpace (c : Char) : Bool := c = ' ' || c = '\t' || c = '\n' || c = '\x0c' || c = '\r'

/-- Every character outside ASCII may stand in a name. -/
def isNameStart (c : Char) : Bool := c.isAlpha || c = '_' || c = '$' || 0x80 ≤ c.toNat

def isNamePart (c : Char) : Bool := isNameStart c || c.isDigit

def isHexDigit (c : Char) : Bool :=
  c.isDigit || ('a' ≤ c && c ≤ 'f') || ('A' ≤ c && c ≤ 'F')

def hexValue (c : Char) : Nat :=
  if c.isDigit then c.toNat - '0'.toNat
  else if 'a' ≤ c then c.toNat - 'a'.toNat + 10
  else c.toNat - 'A'.toNat + 10

def hexNumber (cs : List Char) : Nat := cs.foldl (fun n c => 16 * n + hexValue c) 0

/-- Surrogates are no characters. -/
def charOfCode? (n : Nat) : Option Char :=
  if h : n.isValidChar then some (Char.ofNatAux n h) else none

def cutWhile (p : Char → Bool) (cs : List Char) : Cut := ⟨cs.takeWhile p, cs.dropWhile p⟩

def word (mode : Mode) (cs : List Char) : Cut :=
  cutWhile (fun c => isNamePart c || (mode = .tag && c = '-')) cs

/-! Numbers -/

def fraction (cs : List Char) : Cut :=
  match cs with
  | '.' :: d :: r =>
    if d.isDigit then ⟨'.' :: d :: r.takeWhile Char.isDigit, r.dropWhile Char.isDigit⟩ else ⟨[], cs⟩
  | _ => ⟨[], cs⟩

def sign (cs : List Char) : Cut :=
  match cs with
  | '+' :: r => ⟨['+'], r⟩
  | '-' :: r => ⟨['-'], r⟩
  | _ => ⟨[], cs⟩

def exponent (cs : List Char) : Cut :=
  match cs with
  | [] => ⟨[], cs⟩
  | e :: r =>
    let s := sign r
    let digits := cutWhile Char.isDigit s.rest
    if (e = 'e' || e = 'E') && !digits.taken.isEmpty then
      ⟨e :: (s.taken ++ digits.taken), digits.rest⟩
    else ⟨[], cs⟩

/-- Digits, then a fraction and an exponent if they are whole. -/
def number (cs : List Char) : Cut :=
  let whole := cutWhile Char.isDigit cs
  let frac := fraction whole.rest
  let exp := exponent frac.rest
  ⟨whole.taken ++ frac.taken ++ exp.taken, exp.rest⟩

/-! Comments -/

structure Comment where
  taken : List Char
  rest : List Char
  closed : Bool

/-- The text up to and with the first `*/`. -/
def blockBody : List Char → Comment
  | '*' :: '/' :: r => ⟨['*', '/'], r, true⟩
  | c :: r => let b := blockBody r; ⟨c :: b.taken, b.rest, b.closed⟩
  | [] => ⟨[], [], false⟩

def comment? : List Char → Option Comment
  | '/' :: '/' :: r =>
    some ⟨'/' :: '/' :: r.takeWhile (· != '\n'), r.dropWhile (· != '\n'), true⟩
  | '/' :: '*' :: r => let b := blockBody r; some ⟨'/' :: '*' :: b.taken, b.rest, b.closed⟩
  | _ => none

theorem blockBody_append (cs : List Char) : (blockBody cs).taken ++ (blockBody cs).rest = cs := by
  fun_induction blockBody cs with
  | case1 => rfl
  | case2 c r _ b ih => exact congrArg (c :: ·) ih
  | case3 => rfl

theorem append_of_comment? {cs : List Char} {c : Comment} (h : comment? cs = some c) :
    c.taken ++ c.rest = cs := by
  unfold comment? at h
  split at h
  · cases h; simp
  · cases h; simp [blockBody_append]
  · contradiction

theorem taken_ne_nil_of_comment? {cs : List Char} {c : Comment} (h : comment? cs = some c) :
    c.taken ≠ [] := by
  unfold comment? at h
  split at h
  · cases h; simp
  · cases h; simp
  · contradiction

/-! Strings -/

inductive Escaped where
  | nothing
  | char (c : Char)
  | invalid

structure Escape where
  value : Escaped
  taken : List Char
  rest : List Char

/-- What follows a backslash. A letter without a meaning of its own stands for itself. -/
def escape : List Char → Escape
  | [] => ⟨.nothing, [], []⟩
  | 'n' :: r => ⟨.char '\n', ['n'], r⟩
  | 't' :: r => ⟨.char '\t', ['t'], r⟩
  | 'r' :: r => ⟨.char '\r', ['r'], r⟩
  | '0' :: r => ⟨.char '\x00', ['0'], r⟩
  | 'u' :: r =>
    let hex := (r.take 4).takeWhile isHexDigit
    let value := if hex.length = 4 then charOfCode? (hexNumber hex) else none
    ⟨value.elim .invalid .char, 'u' :: hex, r.drop hex.length⟩
  | c :: r => ⟨.char c, [c], r⟩

theorem escape_append (cs : List Char) : (escape cs).taken ++ (escape cs).rest = cs := by
  unfold escape
  split <;> simp
  next r =>
    exact List.prefix_iff_eq_append.1
      ((List.takeWhile_prefix isHexDigit).trans (List.take_prefix 4 r))

structure Quoted where
  value : List Char
  rest : List Char
  /-- Where `rest` begins. -/
  offset : Nat
  faults : List (Spanned Fault)

/-- The rest of a script string opened at `start`. A line break ends it. -/
def scriptString (quote : Char) (start : Nat) (cs : List Char) (offset : Nat) : Quoted :=
  match cs with
  | [] => ⟨[], [], offset, [⟨.unterminatedString quote, .ofOffsets start offset⟩]⟩
  | c :: r =>
    if c = quote then ⟨[], r, offset + c.utf8Size, []⟩
    else if c = '\n' then
      ⟨[], r, offset + 1, [⟨.lineBreakInString, .ofOffsets start (offset + 1)⟩]⟩
    else if c = '\\' then
      let e := escape r
      let next := offset + 1 + byteLength e.taken
      let q := scriptString quote start e.rest next
      match e.value with
      | .nothing => q
      | .char d => { q with value := d :: q.value }
      | .invalid => { q with faults := ⟨.invalidEscape, .ofOffsets offset next⟩ :: q.faults }
    else
      let q := scriptString quote start r (offset + c.utf8Size)
      { q with value := c :: q.value }
termination_by cs.length
decreasing_by
  · have h := congrArg List.length (escape_append r)
    simp only [List.length_append] at h
    simp only [List.length_cons]
    omega
  · simp

/-- The rest of an attribute string: everything up to the same quote. -/
def tagString (quote : Char) (start : Nat) (cs : List Char) (offset : Nat) : Quoted :=
  let body := cutWhile (· != quote) cs
  let stop := offset + byteLength body.taken
  match body.rest with
  | [] => ⟨body.taken, [], stop, [⟨.unterminatedString quote, .ofOffsets start stop⟩]⟩
  | _ :: r => ⟨body.taken, r, stop + 1, []⟩

/-! Symbols: the longest that fits -/

def symbol? (mode : Mode) : List Char → Option (Symbol × List Char)
  | '(' :: r => some (.lparen, r)
  | ')' :: r => some (.rparen, r)
  | '\x7b' :: r => some (.lbrace, r)
  | '\x7d' :: r => some (.rbrace, r)
  | ',' :: r => some (.comma, r)
  | ':' :: r => some (.colon, r)
  | ';' :: r => some (.semicolon, r)
  | '.' :: r => some (.dot, r)
  | '?' :: r => some (.question, r)
  | '+' :: r => some (.plus, r)
  | '-' :: r => some (.minus, r)
  | '*' :: r => some (.star, r)
  | '/' :: r => some (.slash, r)
  | '%' :: r => some (.percent, r)
  | '=' :: '=' :: '=' :: r => some (.eqEqEq, r)
  | '=' :: '=' :: r => some (.eqEq, r)
  | '=' :: r => some (.eq, r)
  | '!' :: '=' :: '=' :: r => some (.bangEqEq, r)
  | '!' :: '=' :: r => some (.bangEq, r)
  | '!' :: r => some (.bang, r)
  | '<' :: '=' :: r => if mode = .script then some (.ltEq, r) else some (.lt, '=' :: r)
  | '<' :: r => some (.lt, r)
  | '>' :: '=' :: r => if mode = .script then some (.gtEq, r) else some (.gt, '=' :: r)
  | '>' :: r => some (.gt, r)
  | '&' :: '&' :: r => some (.ampAmp, r)
  | '|' :: '|' :: r => some (.pipePipe, r)
  | _ => none

theorem append_of_symbol? {mode : Mode} {cs r : List Char} {s : Symbol}
    (h : symbol? mode cs = some (s, r)) : s.text.toList ++ r = cs := by
  unfold symbol? at h
  split at h <;> first
    | (simp only [Option.some.injEq, Prod.mk.injEq] at h; obtain ⟨rfl, rfl⟩ := h; rfl)
    | (split at h <;>
        (simp only [Option.some.injEq, Prod.mk.injEq] at h; obtain ⟨rfl, rfl⟩ := h; rfl))
    | contradiction

end Scanner

/-- A text being read: what is left of it, from which byte, and what was found on the way. -/
structure Scanner where
  rest : List Char
  offset : Nat
  comments : List (Spanned String)
  faults : List (Spanned Fault)

namespace Scanner

def ofText (source : List Char) : Scanner := ⟨source, 0, [], []⟩

/-- Moves on by `taken`, which stands before `rest`. -/
def advance (s : Scanner) (taken rest : List Char) : Scanner :=
  { s with rest := rest, offset := s.offset + byteLength taken }

def skipSpace (s : Scanner) : Scanner :=
  let c := cutWhile isSpace s.rest
  s.advance c.taken c.rest

def setAside (s : Scanner) (c : Comment) : Scanner :=
  let t := s.advance c.taken c.rest
  let span := Span.ofOffsets s.offset t.offset
  { t with
    comments := s.comments ++ [⟨String.ofList c.taken, span⟩]
    faults := if c.closed then s.faults else s.faults ++ [⟨.unterminatedComment, span⟩] }

theorem length_skipSpace_le (s : Scanner) : s.skipSpace.rest.length ≤ s.rest.length :=
  (List.dropWhile_sublist _).length_le

theorem length_setAside_lt {s : Scanner} {c : Comment} (h : comment? s.rest = some c) :
    (s.setAside c).rest.length < s.rest.length := by
  have h1 := congrArg List.length (append_of_comment? h)
  have h2 := List.length_pos_iff.2 (taken_ne_nil_of_comment? h)
  simp only [List.length_append] at h1
  simp only [setAside, advance]
  omega

def skipTrivia (s : Scanner) : Scanner :=
  match _h : comment? s.skipSpace.rest with
  | none => s.skipSpace
  | some c => skipTrivia (s.skipSpace.setAside c)
termination_by s.rest.length
decreasing_by exact Nat.lt_of_lt_of_le (length_setAside_lt _h) (length_skipSpace_le s)

theorem length_skipTrivia_le (s : Scanner) : s.skipTrivia.rest.length ≤ s.rest.length := by
  fun_induction skipTrivia s with
  | case1 s h => exact length_skipSpace_le s
  | case2 s c h ih =>
    have h1 := length_setAside_lt h
    have h2 := length_skipSpace_le s
    omega

/-- Ends a token that began at `s` and runs up to `t`. -/
def emit (s t : Scanner) (token : Token) : Spanned Token × Scanner :=
  (⟨token, .ofOffsets s.offset t.offset⟩, t)

def quoted (s : Scanner) (q : Quoted) : Spanned Token × Scanner :=
  s.emit { s with rest := q.rest, offset := q.offset, faults := s.faults ++ q.faults }
    (.string (String.ofList q.value))

/-- The next token of a script or tag. A character that begins none is a fault, and is passed
over. -/
def nextToken (mode : Mode) (s : Scanner) : Spanned Token × Scanner :=
  match _h : s.skipTrivia.rest with
  | [] => s.skipTrivia.emit s.skipTrivia .endOfFile
  | c :: r =>
    let t := s.skipTrivia
    if isNameStart c then
      let w := word mode (c :: r)
      let name := String.ofList w.taken
      t.emit (t.advance w.taken w.rest) (if mode = .tag then .ident name else .ofWord name)
    else if c.isDigit && mode = .script then
      let n := number (c :: r)
      t.emit (t.advance n.taken n.rest) (.number (String.ofList n.taken))
    else if c = '"' || c = '\'' then
      if mode = .script then t.quoted (scriptString c t.offset r (t.offset + 1))
      else t.quoted (tagString c t.offset r (t.offset + 1))
    else
      match symbol? mode (c :: r) with
      | some (sym, rest) => t.emit (t.advance sym.text.toList rest) (.symbol sym)
      | none =>
        let u := t.advance [c] r
        nextToken mode
          { u with faults := t.faults ++ [⟨.unexpectedChar c, .ofOffsets t.offset u.offset⟩] }
termination_by s.rest.length
decreasing_by
  have h1 := length_skipTrivia_le s
  rw [_h] at h1
  simp only [List.length_cons] at h1
  simp only [advance]
  omega

/-- The next token between tags. -/
def nextChild (s : Scanner) : Spanned Token × Scanner :=
  match s.rest with
  | [] => s.emit s .endOfFile
  | '<' :: r => s.emit (s.advance ['<'] r) (.symbol .lt)
  | '\x7b' :: r => s.emit (s.advance ['\x7b'] r) (.symbol .lbrace)
  | cs =>
    let t := cutWhile (fun c => c != '<' && c != '\x7b') cs
    s.emit (s.advance t.taken t.rest) (.text (String.ofList t.taken))

def next (mode : Mode) (s : Scanner) : Spanned Token × Scanner :=
  match mode with
  | .child => s.nextChild
  | _ => s.nextToken mode

end Scanner
end BranchMarkup
