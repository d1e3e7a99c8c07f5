import Mathlib.Data.List.Forall2
import BranchMarkup.Printer.Piece
import BranchMarkup.Proofs.Reading.Quote
import BranchMarkup.Proofs.Reading.Stands
/-! Where a cursor stands in a text: before some characters, off which the token it is at was cut.
What a text spells is read token by token along such places, and what is passed on the way is kept
account of. -/
namespace BranchMarkup

open Scanner (Begins Trivia)

/-- The piece is a place for comments between these two. -/
inductive Piece.Between (s : Span) (t : Spanned Token) : Piece → Prop where
  | held : Between s t (.heldComments (s.merge t.span))
  | leading : Between s t (.leadingComments s.stop t.span.start)
  | trailing : t.val = .endOfFile → Between s t (.trailingComments s.stop)

namespace Cursor

/-- A cursor that reading has come to, and the comments set aside when it was at the token before. -/
inductive Gap (start : Cursor) : Cursor → List (Spanned String) → Prop where
  | first : Gap start start []
  | bump {c} (mode : Mode) : start.Leads c → c.token.val ≠ .endOfFile →
      Gap start (c.bump mode) c.scanner.comments

theorem Gap.leads {start c : Cursor} {before : List (Spanned String)} (h : Gap start c before) :
    start.Leads c := by
  cases h with
  | first => exact .refl
  | bump mode h _ => exact h.bump mode

/-- Reading has passed such a place, and these were the comments there. -/
def Slot (start c : Cursor) (piece : Piece) (cs : List String) : Prop :=
  ∃ d before, Gap start d before ∧ d.Leads c ∧ piece.Between d.last d.token ∧
    d.scanner.comments.map (·.val) = before.map (·.val) ++ cs

theorem Slot.leads {start c d : Cursor} {piece : Piece} {cs : List String}
    (h : Slot start c piece cs) (hd : c.Leads d) : Slot start d piece cs := by
  obtain ⟨e, before, hgap, he, hrest⟩ := h
  exact ⟨e, before, hgap, he.trans hd, hrest⟩

end Cursor

/-- The text that is read, and what has been passed of it: places for comments, and the comments that
stood there. -/
structure Page where
  length : Nat
  start : Cursor
  /-- Comments from before the first of these places. -/
  base : List String
  slots : List Piece
  groups : List (List String)

namespace Page

def add (pg : Page) (slots : List Piece) (groups : List (List String)) : Page :=
  { pg with slots := pg.slots ++ slots, groups := pg.groups ++ groups }

@[simp] theorem add_nil (pg : Page) : pg.add [] [] = pg := by simp [add]

@[simp] theorem add_add (pg : Page) (ps qs : List Piece) (gs hs : List (List String)) :
    (pg.add ps gs).add qs hs = pg.add (ps ++ qs) (gs ++ hs) := by
  simp [add, List.append_assoc]

def passed (pg : Page) : List String := pg.base ++ pg.groups.flatten

theorem passed_add (pg : Page) (ps : List Piece) (gs : List (List String)) :
    (pg.add ps gs).passed = pg.passed ++ gs.flatten := by
  simp [passed, add, List.append_assoc]

/-- The page with more comments passed, and no place noted for any. -/
def behind (pg : Page) (cs : List String) : Page := ⟨pg.length, pg.start, pg.passed ++ cs, [], []⟩

theorem passed_behind (pg : Page) (cs : List String) : (pg.behind cs).passed = pg.passed ++ cs :=
  List.append_nil _

end Page

/-- No fault has been found, and the text is read up to these characters. -/
structure Scanner.Left (pg : Page) (cs : List Char) (s : Scanner) : Prop where
  rest_eq : s.rest = cs
  extent_eq : s.extent = pg.length
  faults_eq : s.faults = []
  comments_eq : s.comments.map (·.val) = pg.passed

theorem Scanner.Left.offset_eq {pg : Page} {cs : List Char} {s : Scanner} (h : s.Left pg cs) :
    s.offset + Text.byteLength cs = pg.length := by
  rw [← h.rest_eq]
  exact h.extent_eq

/-- The token here was cut, in that mode, off these characters. -/
structure Cursor.Before (pg : Page) (mode : Mode) (cs : List Char) (c : Cursor) : Prop where
  leads : pg.start.Leads c
  slots : List.Forall₂ (Slot pg.start c) pg.slots pg.groups
  scanner : ∃ s : Scanner, s.Left pg cs ∧ c.token = (s.next mode).1 ∧ c.scanner = (s.next mode).2

namespace Cursor

def Fresh (pg : Page) (c : Cursor) : Prop := c.scanner.comments.map (·.val) = pg.passed

section
variable {pg : Page} {mode : Mode} {cs rest : List Char} {t : Token} {c : Cursor}

theorem Before.val (h : c.Before pg mode cs) (hb : Begins mode cs t rest) : c.token.val = t := by
  obtain ⟨s, hs, htoken, -⟩ := h.scanner
  rw [htoken]
  exact (hb s hs.rest_eq).1

theorem Before.kind (h : c.Before pg mode cs) (hb : Begins mode cs t rest) : c.kind = t.kind := by
  rw [Cursor.kind, h.val hb]

theorem Before.scanner_left (h : c.Before pg mode cs) (hb : Begins mode cs t rest) :
    c.scanner.Left pg rest := by
  obtain ⟨s, hs, -, hscanner⟩ := h.scanner
  obtain ⟨-, hrest, hfaults, hcomments, -⟩ := hb s hs.rest_eq
  rw [hscanner]
  exact ⟨hrest, (Scanner.steps_next mode s).extent_eq.trans hs.extent_eq,
    hfaults.trans hs.faults_eq, (congrArg _ hcomments).trans hs.comments_eq⟩

theorem Before.fresh (h : c.Before pg mode cs) (hb : Begins mode cs t rest) : c.Fresh pg :=
  (h.scanner_left hb).comments_eq

/-- Where the token stands, in a text of any length. -/
theorem Before.span_eq (h : c.Before pg mode cs) (hb : Begins mode cs t rest) {a b : Nat}
    (ha : a + Text.byteLength cs = pg.length) (hb' : b + Text.byteLength rest = pg.length) :
    c.token.span = .ofOffsets a b := by
  have hstop := (h.scanner_left hb).offset_eq
  obtain ⟨s, hs, htoken, hscanner⟩ := h.scanner
  have hstart := hs.offset_eq
  obtain ⟨-, -, -, -, hspan⟩ := hb s hs.rest_eq
  rw [htoken, hspan, ← hscanner, show s.offset = a by omega, show c.scanner.offset = b by omega]

/-- Tokens alike in length that stand as many bytes apart as a place can count have one place. -/
theorem Before.span_eq_of_apart {pg' : Page} {mode' : Mode} {ds rest' : List Char} {t' : Token}
    {d : Cursor} (hc : c.Before pg mode cs) (hcb : Begins mode cs t rest)
    (hd : d.Before pg' mode' ds) (hdb : Begins mode' ds t' rest') (hpage : pg'.length = pg.length)
    (hstart : Text.byteLength cs = Text.byteLength ds + UInt32.size)
    (hstop : Text.byteLength rest = Text.byteLength rest' + UInt32.size) :
    d.token.span = c.token.span := by
  have hstop' := (hc.scanner_left hcb).offset_eq
  obtain ⟨s, hs, -⟩ := hc.scanner
  have hstart' := hs.offset_eq
  rw [hc.span_eq hcb hstart' hstop', hd.span_eq hdb (a := s.offset + UInt32.size)
    (b := c.scanner.offset + UInt32.size) (by omega) (by omega), Span.ofOffsets_add_size]

theorem Before.bump (h : c.Before pg mode cs) (hb : Begins mode cs t rest) (ht : t ≠ .endOfFile)
    (after : Mode) : (c.bump after).Before pg after rest := by
  have htoken : c.token.val ≠ .endOfFile := by rwa [h.val hb]
  refine ⟨h.leads.bump after, h.slots.imp fun _ _ hs => hs.leads (leads_bump c after), ?_⟩
  rw [Cursor.bump, if_neg htoken]
  exact ⟨c.scanner, h.scanner_left hb, rfl, rfl⟩

theorem Before.exists_after {ks : List String} {w : List Char} (h : c.Before pg mode (w ++ cs))
    (hmode : mode ≠ .child) (hw : Trivia ks w) : ∃ u : Scanner, u.rest = cs ∧
      u.extent = pg.length ∧ u.faults = [] ∧ u.comments.map (·.val) = pg.passed ++ ks ∧
        c.token = (u.next mode).1 ∧ c.scanner = (u.next mode).2 := by
  obtain ⟨s, hs, htoken, hscanner⟩ := h.scanner
  obtain ⟨u, hrest, hextent, hfaults, hcomments, hskip⟩ := Scanner.exists_after_trivia hw hs.rest_eq
  have hnext : s.next mode = u.next mode := by
    rw [Scanner.next_eq hmode, Scanner.next_eq hmode, Scanner.nextToken_congr hskip]
  refine ⟨u, hrest, hextent.trans hs.extent_eq, hfaults.trans hs.faults_eq, ?_, ?_, ?_⟩
  · rw [hcomments, hs.comments_eq]
  · rw [htoken, hnext]
  · rw [hscanner, hnext]

theorem Before.of_blank {w : List Char} (h : c.Before pg mode (w ++ cs)) (hmode : mode ≠ .child)
    (hw : Trivia [] w) : c.Before pg mode cs := by
  obtain ⟨u, hrest, hextent, hfaults, hcomments, hnext⟩ := h.exists_after hmode hw
  rw [List.append_nil] at hcomments
  exact ⟨h.leads, h.slots, u, ⟨hrest, hextent, hfaults, hcomments⟩, hnext⟩

theorem Before.of_space {r : List Char} (h : c.Before pg mode (' ' :: r)) (hmode : mode ≠ .child) :
    c.Before pg mode r :=
  Before.of_blank (w := [' ']) h hmode (.space rfl .nil)

/-- A cursor before comments is one before what follows these, with the comments passed and no place
noted for them. -/
theorem Before.of_trivia {ks : List String} {w : List Char} (h : c.Before pg mode (w ++ cs))
    (hmode : mode ≠ .child) (hw : Trivia ks w) :
    c.Before (pg.behind ks) mode cs := by
  obtain ⟨u, hrest, hextent, hfaults, hcomments, hnext⟩ := h.exists_after hmode hw
  refine ⟨h.leads, .nil, u, ⟨hrest, hextent, hfaults, ?_⟩, hnext⟩
  rw [hcomments, Page.passed_behind]

/-- If nothing else than these comments stood between the tokens, the place for them can be noted. -/
theorem Before.of_slot {ks : List String} {w : List Char} {piece : Piece}
    {before : List (Spanned String)} (h : c.Before pg mode (w ++ cs)) (hmode : mode ≠ .child)
    (hw : Trivia ks w) (hfresh : c.Fresh (pg.behind ks))
    (hgap : Gap pg.start c before) (hbefore : before.map (·.val) = pg.passed)
    (hpiece : piece.Between c.last c.token) : c.Before (pg.add [piece] [ks]) mode cs := by
  obtain ⟨u, hrest, hextent, hfaults, hcomments, hnext⟩ := h.exists_after hmode hw
  refine ⟨h.leads, List.rel_append h.slots (.cons ?_ .nil), u, ⟨hrest, hextent, hfaults, ?_⟩, hnext⟩
  · refine ⟨c, before, hgap, .refl, hpiece, ?_⟩
    rw [hbefore, hfresh, Page.passed_behind]
  · rw [hcomments, Page.passed_add, List.flatten_singleton]

/-! A place before a symbol -/

theorem Before.symbol {d : Char} {r : List Char} {sym : Symbol} (h : c.Before pg mode (d :: r))
    (hmode : mode ≠ .child) (hsym : Scanner.symbol? mode (d :: r) = some (sym, rest))
    (hslash : d ≠ '/' ∨ ∀ x ∈ r.head?, x ≠ '/' ∧ x ≠ '*') :
    c.token.val = .symbol sym ∧ ∀ after, (c.bump after).Before pg after rest := by
  have hbegins := Scanner.begins_symbol hmode hsym hslash
  exact ⟨h.val hbegins, h.bump hbegins (by simp)⟩

theorem Before.fresh_symbol {d : Char} {r : List Char} {sym : Symbol} (h : c.Before pg mode (d :: r))
    (hmode : mode ≠ .child) (hsym : Scanner.symbol? mode (d :: r) = some (sym, rest))
    (hslash : d ≠ '/' ∨ ∀ x ∈ r.head?, x ≠ '/' ∧ x ≠ '*') : c.Fresh pg :=
  h.fresh (Scanner.begins_symbol hmode hsym hslash)

theorem Before.tagWord {w : String} {r : List Char} (hw : Scanner.IsWord .tag w.toList)
    (h : c.Before pg .tag (w.toList ++ ' ' :: r)) :
    c.token.val = .ident w ∧ (c.bump .tag).Before pg .tag r := by
  have hbegins : Scanner.Begins .tag (w.toList ++ ' ' :: r) _ (' ' :: r) :=
    Scanner.begins_tagWord hw (by rintro _ ⟨⟩; decide)
  rw [String.ofList_toList] at hbegins
  exact ⟨h.val hbegins, (h.bump hbegins (by simp) .tag).of_space (by decide)⟩

end

theorem Before.left_eq_zero {pg : Page} {mode : Mode} {cs : List Char} {c : Cursor}
    (h : c.Before pg mode cs) (hc : c.token.val = .endOfFile) : c.left = 0 := by
  obtain ⟨s, -, htoken, hscanner⟩ := h.scanner
  rcases Scanner.next_cases mode s with ⟨-, hr⟩ | ⟨ds, -, hcut⟩
  · rw [left, if_pos hc, hscanner, hr]
    rfl
  · rw [← htoken] at hcut
    exact absurd hc hcut.ne_endOfFile

theorem Before.span_ne {pg pg' : Page} {mode mode' : Mode} {cs ds : List Char} {c d : Cursor}
    (hc : c.Before pg mode cs) (hd : d.Before pg' mode' ds) (hpage : pg'.length = pg.length)
    (hsuffix : ds <:+ cs) (hn : pg.length < UInt32.size)
    (hlt : d.left < c.left) : d.token.span ≠ c.token.span := by
  have hopen : c.token.val ≠ .endOfFile := by
    intro h
    rw [hc.left_eq_zero h] at hlt
    exact absurd hlt (Nat.not_lt_zero _)
  obtain ⟨s, hs, hs1, hs2⟩ := hc.scanner
  obtain ⟨u, hu, hu1, hu2⟩ := hd.scanner
  obtain ⟨hsn, a, ha, -, hale, haend⟩ := Scanner.steps_next mode s
  obtain ⟨hun, b, hb, -, hble, hbend⟩ := Scanner.steps_next mode' u
  rw [← hs1, ← hs2] at ha haend
  rw [← hu1, ← hu2] at hb hbend
  rw [← hs2, hs.extent_eq, Scanner.extent] at hsn
  rw [← hu2, hu.extent_eq, hpage, Scanner.extent] at hun
  rw [← hs2] at hale
  rw [← hu2] at hble
  intro heq
  obtain ⟨hstart, hstop⟩ : b = a ∧ d.scanner.offset = c.scanner.offset := by
    rw [ha, hb] at heq
    simp only [Span.ofOffsets, Span.mk.injEq, true_and, ← UInt32.toNat_inj, UInt32.toNat_ofNat'] at heq
    rw [UInt32.size] at hn
    omega
  -- Both texts that are left are ends of one text, so the shorter one has fewer bytes.
  have hcrest : c.scanner.rest <:+ cs := by
    rw [hs2, ← hs.rest_eq]
    exact Scanner.next_suffix mode s
  have hdrest : d.scanner.rest <:+ cs := by
    rw [hu2]
    exact (Scanner.next_suffix mode' u).trans (hu.rest_eq ▸ hsuffix)
  by_cases hend : d.token.val = .endOfFile
  · have hb' := hbend.1 hend
    exact hopen (haend.2 (by omega))
  · simp only [left, hopen, hend, ↓reduceIte] at hlt
    have hrest := List.suffix_of_suffix_length_le hdrest hcrest (by omega)
    have := Text.byteLength_lt_of_suffix hrest (by omega)
    omega

/-- A text of which nothing has been passed yet. -/
def firstPage (source : List Char) : Page :=
  ⟨Text.byteLength source, (Parser.ofText source).cursor, [], [], []⟩

theorem before_ofText (source : List Char) :
    (Parser.ofText source).cursor.Before (firstPage source) .script source :=
  ⟨.refl, .nil, Scanner.ofText source, ⟨rfl, Nat.zero_add _, rfl, rfl⟩, rfl, rfl⟩

theorem Before.faults_eq {pg : Page} {mode : Mode} {cs rest : List Char} {t : Token} {c : Cursor}
    (h : c.Before pg mode cs) (hb : Begins mode cs t rest) : c.scanner.faults = [] :=
  (h.scanner_left hb).faults_eq

end Cursor
end BranchMarkup
