import BranchMarkup.Proofs.Reading.Goes
import BranchMarkup.Proofs.Reading.Written
/-! A text as a row of lexemes. What a reader takes of a text it can read, with the comments that are set
aside, is all of the text but blanks: nothing is passed over, nothing taken twice, and no blank is lost
where it would be raw text. -/
namespace BranchMarkup

open Text (byteLength byteLength_append byteLength_cons byteLength_pos)

/-- A part of a text that is not blank, from that byte on: a token and the mode it was asked for in, or
else a comment. -/
structure Lexeme where
  start : Nat
  text : List Char
  token : Option (Mode × Token)

namespace Lexeme

def stop (l : Lexeme) : Nat := l.start + byteLength l.text

def span (l : Lexeme) : Span := .ofOffsets l.start l.stop

/-- The token as a reader sees it. -/
def asked? (l : Lexeme) : Option (Mode × Spanned Token) := l.token.map fun t => (t.1, ⟨t.2, l.span⟩)

/-- The comment as a scanner sets it aside. -/
def comment? (l : Lexeme) : Option (Spanned String) :=
  if l.token.isNone then some ⟨String.ofList l.text, l.span⟩ else none

/-- It was asked for between tags, where blanks are text. -/
def IsChild (l : Lexeme) : Prop := ∃ t, l.token = some (.child, t)

def IsText (l : Lexeme) : Prop := ∃ mode raw, l.token = some (mode, .text raw)

/-- Behind it raw text may stand. -/
def Closes (l : Lexeme) : Prop :=
  ∃ mode, l.token = some (mode, .symbol .gt) ∨ l.token = some (mode, .symbol .rbrace)

/-- Before it raw text may stand. -/
def Opens (l : Lexeme) : Prop :=
  l.token = some (.child, .symbol .lt) ∨ l.token = some (.child, .symbol .lbrace)

end Lexeme

/-- The text from byte `a` on, cut up: lexemes, and blanks where no child is next. -/
inductive Lexes : Nat → List Char → List Lexeme → Prop where
  | nil {a} : Lexes a [] []
  | blank {a c cs ls} : Scanner.isSpace c = true → (∀ l ∈ ls.head?, ¬ l.IsChild) →
      Lexes (a + 1) cs ls → Lexes a (c :: cs) ls
  | comment {a cs c ls} : Scanner.comment? cs = some c → c.closed = true →
      (∀ l ∈ ls.head?, ¬ l.IsChild) → Lexes (a + byteLength c.taken) c.rest ls →
      Lexes a cs (⟨a, c.taken, none⟩ :: ls)
  | token {a mode t x cs ls} : t.Written mode x → x ≠ [] → Lexes (a + byteLength x) cs ls →
      Lexes a (x ++ cs) (⟨a, x, some (mode, t)⟩ :: ls)

/-- Raw text stands right behind a tag or a brace, and right before one. -/
def Framed : Option Lexeme → List Lexeme → Prop
  | _, [] => True
  | prev, l :: ls =>
    (l.IsText → (∃ b ∈ prev, b.Closes) ∧ ∃ m ∈ ls.head?, m.Opens) ∧ Framed (some l) ls

theorem Scanner.utf8Size_of_isSpace {c : Char} (h : isSpace c = true) : c.utf8Size = 1 := by
  simp only [isSpace, Bool.or_eq_true, decide_eq_true_eq, or_assoc] at h
  rcases h with rfl | rfl | rfl | rfl | rfl <;> rfl

namespace Lexes

variable {a : Nat} {source cs : List Char} {l m : Lexeme} {ls : List Lexeme}

theorem start_le (h : Lexes a cs ls) (hl : l ∈ ls) : a ≤ l.start := by
  induction h with
  | nil => cases hl
  | blank _ _ _ ih => exact Nat.le_trans (Nat.le_add_right ..) (ih hl)
  | comment _ _ _ _ ih | token _ _ _ ih =>
    rcases List.mem_cons.1 hl with rfl | hl
    · exact Nat.le_refl _
    · exact Nat.le_trans (Nat.le_add_right ..) (ih hl)

theorem pairwise (h : Lexes a cs ls) : ls.Pairwise fun l m => l.stop ≤ m.start := by
  induction h with
  | nil => exact .nil
  | blank _ _ _ ih => exact ih
  | comment _ _ _ h ih | token _ _ h ih => exact .cons (fun _ => h.start_le) ih

theorem stands (h : Lexes a cs ls) (hl : l ∈ ls) : l.text ≠ [] ∧
    (∃ before after, cs = before ++ (l.text ++ after) ∧ l.start = a + byteLength before) ∧
    ∀ mode t, l.token = some (mode, t) → t.Written mode l.text := by
  induction h with
  | nil => cases hl
  | @blank a c cs ls hc _ _ ih =>
    obtain ⟨hne, ⟨before, after, rfl, hstart⟩, hwritten⟩ := ih hl
    refine ⟨hne, ⟨c :: before, after, rfl, ?_⟩, hwritten⟩
    rw [hstart, byteLength_cons, Scanner.utf8Size_of_isSpace hc, Nat.add_assoc]
  | @comment a cs c ls hc _ _ _ ih =>
    have happend := Scanner.append_of_comment? hc
    rcases List.mem_cons.1 hl with rfl | hl
    · exact ⟨Scanner.taken_ne_nil_of_comment? hc, ⟨[], c.rest, happend.symm, rfl⟩, nofun⟩
    · obtain ⟨hne, ⟨before, after, hrest, hstart⟩, hwritten⟩ := ih hl
      refine ⟨hne, ⟨c.taken ++ before, after, ?_, ?_⟩, hwritten⟩
      · rw [← happend, hrest, List.append_assoc]
      · rw [hstart, byteLength_append, Nat.add_assoc]
  | @token a mode t x cs ls hx hne _ ih =>
    rcases List.mem_cons.1 hl with rfl | hl
    · refine ⟨hne, ⟨[], cs, rfl, rfl⟩, ?_⟩
      rintro _ _ ⟨⟩
      exact hx
    · obtain ⟨hne, ⟨before, after, rfl, hstart⟩, hwritten⟩ := ih hl
      refine ⟨hne, ⟨x ++ before, after, (List.append_assoc ..).symm, ?_⟩, hwritten⟩
      rw [hstart, byteLength_append, Nat.add_assoc]

theorem covers (h : Lexes a cs ls) {before after : List Char} {c : Char}
    (hsplit : cs = before ++ c :: after) : Scanner.isSpace c = true ∨
      ∃ l ∈ ls, l.start ≤ a + byteLength before ∧ a + byteLength before + c.utf8Size ≤ l.stop := by
  -- What is cut off next holds the character, or it stands before it.
  have cut {x rest : List Char} {start : Nat} {token : Option (Mode × Token)} {ls : List Lexeme}
      {before : List Char} (hsplit : x ++ rest = before ++ c :: after)
      (hrest : ∀ inside, rest = inside ++ c :: after → Scanner.isSpace c = true ∨
        ∃ l ∈ ls, l.start ≤ start + byteLength x + byteLength inside ∧
          start + byteLength x + byteLength inside + c.utf8Size ≤ l.stop) :
      Scanner.isSpace c = true ∨ ∃ l ∈ (⟨start, x, token⟩ :: ls : List Lexeme),
        l.start ≤ start + byteLength before ∧ start + byteLength before + c.utf8Size ≤ l.stop := by
    rcases List.append_eq_append_iff.1 hsplit with ⟨inside, rfl, h⟩ | ⟨inside, rfl, h⟩
    · refine (hrest inside h).imp id fun ⟨l, hl, hbounds⟩ => ⟨l, List.mem_cons_of_mem _ hl, ?_⟩
      rwa [byteLength_append, ← Nat.add_assoc]
    · rcases List.cons_eq_append_iff.1 h with ⟨rfl, hnext⟩ | ⟨inside, rfl, -⟩
      · refine (hrest [] hnext).imp id fun ⟨l, hl, hbounds⟩ => ⟨l, List.mem_cons_of_mem _ hl, ?_⟩
        simpa using hbounds
      · refine .inr ⟨_, List.mem_cons_self, Nat.le_add_right .., ?_⟩
        simp only [Lexeme.stop, byteLength_append, byteLength_cons]
        omega
  induction h generalizing before with
  | nil => simp at hsplit
  | @blank a d cs ls hd _ _ ih =>
    rcases List.cons_eq_append_iff.1 hsplit with ⟨rfl, h⟩ | ⟨before, rfl, h⟩
    · obtain ⟨rfl, -⟩ := List.cons.inj h
      exact .inl hd
    · have hsize := Scanner.utf8Size_of_isSpace hd
      simpa only [byteLength_cons, hsize, Nat.add_assoc] using ih h
  | comment hc _ _ _ ih =>
    rw [← Scanner.append_of_comment? hc] at hsplit
    exact cut hsplit fun inside h => ih h
  | token _ _ _ ih => exact cut hsplit fun inside h => ih h

theorem tight (h : Lexes a cs ls) {before after : List Lexeme} (hsplit : ls = before ++ l :: m :: after)
    (hm : m.IsChild) : l.stop = m.start := by
  -- Behind a lexeme the first one starts there unless blanks come first, and then it is no child.
  have first {a cs ls} (h : Lexes a cs ls) (hm : m ∈ ls.head?) : a = m.start := by
    cases h with
    | nil => cases hm
    | blank _ hnot _ => exact absurd ‹m.IsChild› (hnot m hm)
    | comment | token =>
      cases hm
      rfl
  induction h generalizing before with
  | nil => simp at hsplit
  | blank _ _ _ ih => exact ih hsplit
  | comment _ _ _ h ih | token _ _ h ih =>
    rcases List.cons_eq_append_iff.1 hsplit with ⟨rfl, hls⟩ | ⟨before, rfl, hls⟩
    · obtain ⟨rfl, rfl⟩ := List.cons.inj hls
      exact first h rfl
    · exact ih hls

theorem blanks {x : List Char} (hx : ∀ c ∈ x, Scanner.isSpace c = true)
    (hnot : ∀ l ∈ ls.head?, ¬ l.IsChild) (h : Lexes (a + byteLength x) cs ls) :
    Lexes a (x ++ cs) ls := by
  induction x generalizing a with
  | nil => exact h
  | cons c x ih =>
    have hc := hx c List.mem_cons_self
    refine .blank hc hnot (ih (fun d hd => hx d (List.mem_cons_of_mem _ hd)) ?_)
    rwa [byteLength_cons, Scanner.utf8Size_of_isSpace hc, ← Nat.add_assoc] at h

end Lexes

namespace Scanner

theorem Cuts.mode_of_text {mode : Mode} {cs rest : List Char} {raw : String}
    (h : Cuts mode cs (.text raw) rest) : mode = .child := by
  generalize ht : Token.text raw = t at h
  cases h with
  | text => rfl
  | scriptWord => rcases Token.ofWord_cases _ with ⟨_, _, hk⟩ | ⟨_, hk⟩ <;> cases ht.trans hk
  | _ => cases ht

variable {s : Scanner} {ls : List Lexeme}

end Scanner

namespace Parse

/-- The tokens that a run takes, each with the mode it was asked for in; the first was asked for in that
mode. -/
def consumed : Mode → Parser → List Step → List (Mode × Spanned Token)
  | _, _, [] => []
  | mode, p, .take next :: ss =>
    if p.token.val = .endOfFile then consumed mode p ss
    else (mode, p.token) :: consumed next (p.bump next) ss
  | mode, p, s :: ss => consumed mode (s.run p) ss

/-- These lexemes are what a run takes, and what is set aside on the way, from the token on that it begins
with, which was asked for in that mode and looked for from `t` on. -/
structure Covers (mode : Mode) (t : Scanner) (p : Parser) (ss : List Step) (ls : List Lexeme) :
    Prop where
  lexes : Lexes t.offset t.rest ls
  head : ∀ l ∈ ls.head?, l.token = some (mode, p.token.val)
  ended : ls = [] → p.token.val = .endOfFile
  tokens : ls.filterMap Lexeme.asked? = consumed mode p ss
  comments : (runAll ss p).scanner.comments = t.comments ++ ls.filterMap Lexeme.comment?
  framed : ∀ prev, ((∃ raw, p.token.val = .text raw) → ∃ b ∈ prev, Lexeme.Closes b) → Framed prev ls

theorem cut_bump (p : Parser) (mode : Mode) : (p.bump mode).cursor.Cut mode :=
  cursor_bump p mode ▸ p.cursor.cut_bump mode

end Parse
end BranchMarkup
