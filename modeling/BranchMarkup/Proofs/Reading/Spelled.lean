import BranchMarkup.Proofs.Reading.Stands
import BranchMarkup.Proofs.Reading.Unmarked
import BranchMarkup.Proofs.Reading.Written
/-! What is read is spelled in the text. A reader that finds no fault makes nothing up: every name,
literal and text of a tree stands in the text where its span says, as it is written, and every fragment
has its brackets there. -/
namespace BranchMarkup

open Text (byteLength byteLength_append byteLength_cons)

/-! Tokens as they stand in a text -/

/-- The token stands in the text as it is written, right before `rest`. -/
def Token.StandsBefore (source rest : List Char) (mode : Mode) (t : Token) (s : Span) : Prop :=
  ∃ before x, source = before ++ (x ++ rest) ∧ t.Written mode x ∧
    s = .ofOffsets (byteLength before) (byteLength (before ++ x))

def Token.StandsIn (source : List Char) (mode : Mode) (t : Token) (s : Span) : Prop :=
  ∃ rest, t.StandsBefore source rest mode s

def Literal.token : Literal → Token
  | null => .keyword .kwNull
  | bool true => .keyword .kwTrue
  | bool false => .keyword .kwFalse
  | number digits => .number digits
  | string s => .string s

def WordSpelled (source : List Char) (name : Spanned String) : Prop :=
  (Token.ident name.val).StandsIn source .script name.span ∨
    ∃ k : Keyword, k.text = name.val ∧ (Token.keyword k).StandsIn source .script name.span

def IdentSpelled (source : List Char) (name : Spanned String) : Prop :=
  (Token.ident name.val).StandsIn source .script name.span

/-- A tag name, right before `rest`. Its parts stand one after another, with joints between them. -/
inductive TagSpelled (source : List Char) : List Char → Spanned String → Prop where
  | word {rest name s} : (Token.ident name).StandsBefore source rest .tag s →
      TagSpelled source rest ⟨name, s⟩
  | part {rest rest' name gap gap' part s} {joint : Symbol} : TagSpelled source rest name →
      joint = .dot ∨ joint = .colon →
      rest = gap ++ (joint.text.toList ++ (gap' ++ (part.toList ++ rest'))) →
      (Token.ident part).StandsBefore source rest' .tag s →
      TagSpelled source rest' ⟨name.val ++ joint.text ++ part, name.span.merge s⟩

/-- An opening and a closing bracket, as far apart as the span says. -/
def BracesSpelled (source : List Char) (s : Span) : Prop :=
  ∃ opening closing inside after,
    (Token.symbol .lbrace).StandsBefore source (inside ++ '\x7d' :: after) .script opening ∧
      (Token.symbol .rbrace).StandsBefore source after .script closing ∧ s = opening.merge closing

/-- A fragment with all of its brackets. If it is empty there is nothing inside. -/
def Fragment.Spelled (source : List Char) (f : Fragment) : Prop :=
  ∃ opening closing g₁ inside g₂ g₃ after,
    (Token.symbol .lt).StandsBefore source
      (g₁ ++ '>' :: (inside ++ '<' :: (g₂ ++ '/' :: (g₃ ++ '>' :: after)))) .script opening ∧
    (Token.symbol .gt).StandsBefore source after .script closing ∧ f.span = opening.merge closing ∧
    (f.children = [] → inside = [])

/-- Of a node alone: it stands in the text as it is written. -/
def TreeNode.Spelled (source : List Char) : TreeNode → Prop
  | expr (.literal v s) => v.token.StandsIn source .script s
  | expr (.ident name s) => IdentSpelled source ⟨name, s⟩
  | expr (.member _ property _) => WordSpelled source property
  | element e => ∃ rest, TagSpelled source rest e.name
  | fragment f => f.Spelled source
  | attr a => ∃ rest, TagSpelled source rest a.name
  | value (.text t s) => (Token.string t).StandsIn source .tag s
  | value (.container none s) => BracesSpelled source s
  | child (.text t s) => (Token.text t).StandsIn source .child s
  | child (.container none s) => BracesSpelled source s
  | _ => True

/-! Where a scanner is -/

namespace Scanner

/-- The scanner is in the text where its offset says. -/
def In (source : List Char) (s : Scanner) : Prop :=
  ∃ before, source = before ++ s.rest ∧ s.offset = byteLength before

theorem In.of_suffix {source : List Char} {s t : Scanner} (h : s.In source)
    (hrest : t.rest <:+ s.rest) (hextent : t.extent = s.extent) : t.In source := by
  obtain ⟨before, hsource, hoffset⟩ := h
  obtain ⟨skipped, hskipped⟩ := hrest
  refine ⟨before ++ skipped, ?_, ?_⟩
  · rw [hsource, ← hskipped, List.append_assoc]
  · rw [extent, extent, ← hskipped, byteLength_append] at hextent
    rw [byteLength_append]
    omega

theorem In.next {source : List Char} {s : Scanner} (h : s.In source) (mode : Mode) :
    (s.next mode).2.In source :=
  h.of_suffix (s.next_suffix mode) (steps_next mode s).extent_eq

theorem In.skipTo {source : List Char} {s : Scanner} (h : s.In source) (mode : Mode) :
    (s.skipTo mode).In source := by
  by_cases hmode : mode = .child
  · subst hmode
    exact h
  · rw [skipTo_of_ne_child hmode]
    exact h.of_suffix s.skipTrivia_suffix s.extent_skipTrivia

theorem skipTo_suffix (mode : Mode) (s : Scanner) : (s.skipTo mode).rest <:+ s.rest := by
  cases mode with
  | child => exact List.suffix_rfl
  | script | tag => exact s.skipTrivia_suffix

end Scanner

namespace Cursor

variable {source : List Char} {c d : Cursor} {mode mode' : Mode}

def Clean (c : Cursor) : Prop := c.scanner.faults = []

theorem Clean.of_bump (h : (c.bump mode).Clean) : c.Clean := by
  by_cases hend : c.token.val = .endOfFile
  · rwa [bump, if_pos hend] at h
  · rw [Clean, bump, if_neg hend] at h
    exact List.prefix_nil.1 (h ▸ c.scanner.next_faults_prefix mode)

theorem Leads.clean (h : c.Leads d) (hd : d.Clean) : c.Clean := by
  induction h with
  | refl => exact hd
  | bump mode _ ih => exact ih hd.of_bump

theorem Leads.suffix (h : c.Leads d) : d.scanner.rest <:+ c.scanner.rest := by
  induction h with
  | refl => exact List.suffix_rfl
  | @bump d mode _ ih =>
    refine List.IsSuffix.trans ?_ ih
    unfold Cursor.bump
    split
    · exact List.suffix_rfl
    · exact Scanner.next_suffix mode _

theorem leads_past (before : Span) (c : Cursor) : c.Leads (c.past before) := by
  unfold past
  split
  · exact leads_bump ..
  · exact .refl

/-- The cursor is in the text, and its token, asked for in that mode, stands there as it is written unless
the scanner noted something. -/
structure Shows (source : List Char) (mode : Mode) (c : Cursor) : Prop where
  scanner : c.scanner.In source
  token : c.Clean → c.token.val ≠ .endOfFile →
    c.token.val.StandsBefore source c.scanner.rest mode c.token.span

/-- What a request leaves behind it of what was left, where nothing is noted: the token as it is written,
after what was passed over. -/
theorem exists_gap (hopen : c.token.val ≠ .endOfFile) (hclean : (c.bump mode).Clean)
    (hend : (c.bump mode).token.val ≠ .endOfFile) :
    ∃ gap x, c.scanner.rest = gap ++ (x ++ (c.bump mode).scanner.rest) ∧
      (c.bump mode).token.val.Written mode x ∧ (mode = .child → gap = []) := by
  have hbefore : c.Clean := hclean.of_bump
  rw [bump, if_neg hopen] at hclean hend ⊢
  obtain ⟨-, hanswers⟩ := Scanner.answers_next (hclean.trans hbefore.symm)
  obtain ⟨gap, hgap⟩ := Scanner.skipTo_suffix mode c.scanner
  have htight : mode = .child → gap = [] := by
    rintro rfl
    exact List.append_left_eq_self.1 hgap
  dsimp only at hend ⊢
  generalize c.scanner.next mode = r at hanswers hend
  cases hanswers with
  | ended => exact absurd rfl hend
  | token hwritten _ hrest => exact ⟨gap, _, by rw [← hgap, hrest]; rfl, hwritten, htight⟩

theorem shows_next {s : Scanner} (h : s.In source) (mode : Mode) (last : Span) :
    (Cursor.mk (s.next mode).2 (s.next mode).1 last).Shows source mode := by
  refine ⟨h.next mode, fun hclean hend => ?_⟩
  have hbefore : s.faults = [] := List.prefix_nil.1 (hclean ▸ s.next_faults_prefix mode)
  obtain ⟨-, hanswers⟩ := Scanner.answers_next (hclean.trans hbefore.symm)
  obtain ⟨before, hsource, hoffset⟩ := h.skipTo mode
  dsimp only at hend ⊢
  generalize s.next mode = r at hanswers hend
  cases hanswers with
  | ended => exact absurd rfl hend
  | @token t x r hwritten _ hrest =>
    refine ⟨before, x, by rw [hsource, hrest]; rfl, hwritten, ?_⟩
    simp only [Scanner.emit, Scanner.advance, hoffset, byteLength_append]

theorem shows_bump (h : c.scanner.In source) (mode : Mode) : (c.bump mode).Shows source mode := by
  by_cases hopen : c.token.val = .endOfFile
  · rw [Cursor.bump, if_pos hopen]
    exact ⟨h, fun _ hend => absurd hopen hend⟩
  · rw [Cursor.bump, if_neg hopen]
    exact shows_next h mode _

theorem shows_ofText (source : List Char) : (Parser.ofText source).cursor.Shows source .script :=
  shows_next (s := .ofText source) ⟨[], rfl, rfl⟩ .script .zero

theorem Leads.in (h : c.Leads d) (hc : c.scanner.In source) : d.scanner.In source := by
  induction h with
  | refl => exact hc
  | @bump d mode _ ih =>
    rw [Cursor.bump]
    split
    · exact ih
    · exact ih.next mode

theorem Shows.bump (h : c.Shows source mode') (mode : Mode) : (c.bump mode).Shows source mode :=
  shows_bump h.scanner mode

theorem Leads.shows_bump (h : c.Leads d) (hc : c.Shows source mode') (mode : Mode) :
    (d.bump mode).Shows source mode :=
  Cursor.shows_bump (h.in hc.scanner) mode

theorem Shows.standsIn (h : c.Shows source mode) (hclean : c.Clean) {t : Token}
    (ht : c.token.val = t) (hopen : t ≠ .endOfFile) : t.StandsIn source mode c.token.span :=
  ⟨_, ht ▸ h.token hclean (ht ▸ hopen)⟩

theorem Shows.symbol (h : c.Shows source mode) (hclean : c.Clean) {sym : Symbol}
    (hk : c.kind = .symbol sym) (mode' : Mode) :
    (Token.symbol sym).StandsBefore source c.scanner.rest mode' c.token.span := by
  have ht := kind_symbol.1 hk
  obtain ⟨before, x, hsource, hwritten, hspan⟩ := h.token hclean (by simp [ht])
  rw [ht] at hwritten
  exact ⟨before, x, hsource, hwritten, hspan⟩

theorem Shows.wordSpelled (h : c.Shows source .script) (hclean : c.Clean) {name : String}
    (hw : c.word? = some name) : WordSpelled source ⟨name, c.token.span⟩ := by
  unfold word? at hw
  split at hw
  · next k hk =>
    cases hw
    exact .inr ⟨k, rfl, h.standsIn hclean hk (by simp)⟩
  · next w hw' =>
    cases hw
    exact .inl (h.standsIn hclean hw' (by simp))
  · cases hw

theorem exists_gap_symbol (hopen : c.token.val ≠ .endOfFile) (hclean : (c.bump mode).Clean)
    {sym : Symbol} (hk : (c.bump mode).kind = .symbol sym) :
    ∃ gap, c.scanner.rest = gap ++ (sym.text.toList ++ (c.bump mode).scanner.rest) ∧
      (mode = .child → gap = []) := by
  have ht := kind_symbol.1 hk
  obtain ⟨gap, x, hrest, hwritten, htight⟩ := exists_gap hopen hclean (by simp [ht])
  rw [ht] at hwritten
  obtain rfl : x = sym.text.toList := hwritten
  exact ⟨gap, hrest, htight⟩

theorem Leads.exists_gap {m : Mode} (h : (c.bump m).Leads d) (hopen : c.token.val ≠ .endOfFile)
    (hclean : d.Clean) {sym : Symbol} (hk : d.kind = .symbol sym) :
    ∃ inside, c.scanner.rest = inside ++ (sym.text.toList ++ d.scanner.rest) := by
  cases h with
  | refl =>
    obtain ⟨gap, hrest, -⟩ := exists_gap_symbol hopen hclean hk
    exact ⟨gap, hrest⟩
  | @bump e mode h =>
    have hend : e.token.val ≠ .endOfFile := by
      intro hend
      rw [Cursor.bump, if_pos hend, kind_symbol, hend] at hk
      cases hk
    obtain ⟨gap, hrest, -⟩ := exists_gap_symbol hend hclean hk
    obtain ⟨passed, hpassed⟩ := h.after.suffix
    exact ⟨passed ++ gap, by rw [← hpassed, hrest, List.append_assoc]⟩

end Cursor

namespace Parse

open Cursor (Leads Shows Clean)
open TreeNode (throughout_iff)

variable {source : List Char}

/-! Names and brackets -/

theorem ReadsTagRest.spelled {c name name' c'} (h : ReadsTagRest c name name' c') {d : Cursor}
    (hd : c = d.bump .tag) (hin : d.scanner.In source) (hopen : d.token.val ≠ .endOfFile)
    (hname : TagSpelled source d.scanner.rest name) (hclean : c'.Clean) :
    (∃ rest, TagSpelled source rest name') ∧ c'.Shows source .tag := by
  induction h generalizing d with
  | done => exact ⟨⟨_, hname⟩, hd ▸ Cursor.shows_bump hin .tag⟩
  | @part c joint text part c' name name' hj htext hpart h ih =>
    subst hd
    have hin₁ : (d.bump .tag).scanner.In source := (Cursor.shows_bump hin .tag).scanner
    have hshows := Cursor.shows_bump hin₁ .tag
    have hclean₂ := h.leads.after.clean hclean
    obtain ⟨gap, hgap, -⟩ := Cursor.exists_gap_symbol hopen hclean₂.of_bump (Cursor.kind_symbol.2 hj)
    have hopen₁ : (d.bump .tag).token.val ≠ .endOfFile := by simp [hj]
    obtain ⟨gap', x, hgap', hwritten, -⟩ := Cursor.exists_gap hopen₁ hclean₂ (by simp [hpart])
    rw [hpart] at hwritten
    obtain ⟨-, rfl⟩ := hwritten
    have hstands := hshows.token hclean₂ (by simp [hpart])
    rw [hpart] at hstands
    have htag := hname.part (htext.imp And.left And.left) (hgap.trans (by rw [hgap'])) hstands
    have hjoint : joint.text = text := by rcases htext with ⟨rfl, rfl⟩ | ⟨rfl, rfl⟩ <;> rfl
    rw [hjoint] at htag
    exact ih rfl hshows.scanner (by simp [hpart]) htag hclean

theorem ReadsTag.spelled {c name c'} (h : ReadsTag c name c') (hc : c.Shows source .tag)
    (hgt : c.kind ≠ .symbol .gt) (hclean : c'.Clean) :
    (∃ rest, TagSpelled source rest name) ∧ c'.Shows source .tag := by
  cases h with
  | empty h => exact absurd h hgt
  | name hfirst h =>
    have hstands := hc.token (h.leads.after.clean hclean) (by simp [hfirst])
    rw [hfirst] at hstands
    exact h.spelled rfl hc.scanner (by simp [hfirst]) (.word hstands) hclean

/-- Where children end: at a `<`, right at the start if there are none. -/
theorem ReadsChildren.closing {c h cs c'} : ReadsChildren c h cs c' →
    ∃ d, c.Leads d ∧ d.kind = .symbol .lt ∧ (d.bump .tag).kind = .symbol .slash ∧
      c' = (d.bump .tag).bump .tag ∧ (cs = [] → d = c)
  | .text _ h => by
    obtain ⟨d, hleads, hlt, hslash, hd, -⟩ := h.closing
    exact ⟨d, hleads.after, hlt, hslash, hd, fun h => absurd h (List.cons_ne_nil _ _)⟩
  | .container _ h _ h' => by
    obtain ⟨d, hleads, hlt, hslash, hd, -⟩ := h'.closing
    exact ⟨d, h.leads.after.trans hleads.after, hlt, hslash, hd, fun h => absurd h (List.cons_ne_nil _ _)⟩
  | .markup _ _ h h' => by
    obtain ⟨d, hleads, hlt, hslash, hd, -⟩ := h'.closing
    exact ⟨d, h.leads.after.trans hleads, hlt, hslash, hd, fun h => absurd h (List.cons_ne_nil _ _)⟩
  | .close hlt hslash => ⟨_, .refl, hlt, hslash, rfl, fun _ => rfl⟩

/-- Markup begins there: the `<` that was taken stands at the span. -/
def Opened (source : List Char) (start : Span) (c : Cursor) : Prop :=
  ∃ (d : Cursor) (mode : Mode), d.Shows source mode ∧ d.kind = .symbol .lt ∧ start = d.token.span ∧
    c = d.bump .tag

theorem Opened.shows {start : Span} {c : Cursor} (h : Opened source start c) :
    c.Shows source .tag := by
  obtain ⟨d, mode, hd, -, -, rfl⟩ := h
  exact hd.bump .tag

theorem spelled_fragment {start : Span} {c c' : Cursor} {h : Nat} {cs : List Child}
    (hopened : Opened source start c) (hgt : c.kind = .symbol .gt)
    (hcs : ReadsChildren (c.bump .child) h cs c') (hclose : c'.kind = .symbol .gt) (hclean : c'.Clean) :
    Fragment.Spelled source ⟨cs, none, start.merge c'.token.span⟩ := by
  obtain ⟨d, mode, hd, hlt, rfl, rfl⟩ := hopened
  obtain ⟨e, hleads, he, hslash, rfl, hempty⟩ := hcs.closing
  have hopen {c : Cursor} {sym : Symbol} (h : c.kind = .symbol sym) : c.token.val ≠ .endOfFile := by
    rw [Cursor.kind_symbol.1 h]
    simp
  have he' := hclean.of_bump.of_bump
  have hc : (d.bump .tag).Clean := (hleads.clean he').of_bump
  obtain ⟨g₁, h₁, -⟩ := Cursor.exists_gap_symbol (hopen hlt) hc hgt
  obtain ⟨g₂, h₂, -⟩ := Cursor.exists_gap_symbol (hopen he) hclean.of_bump hslash
  obtain ⟨g₃, h₃, -⟩ := Cursor.exists_gap_symbol (hopen hslash) hclean hclose
  have hinside : ∃ inside, (d.bump .tag).scanner.rest =
      inside ++ (Symbol.lt.text.toList ++ e.scanner.rest) ∧ (cs = [] → inside = []) := by
    by_cases hcs : cs = []
    · obtain rfl := hempty hcs
      obtain ⟨gap, hgap, htight⟩ := Cursor.exists_gap_symbol (hopen hgt) he' he
      exact ⟨gap, hgap, fun _ => htight rfl⟩
    · obtain ⟨inside, hinside⟩ := hleads.exists_gap (hopen hgt) he' he
      exact ⟨inside, hinside, fun h => absurd h hcs⟩
  obtain ⟨inside, h₄, htight⟩ := hinside
  have hend : ((e.bump .tag).bump .tag).Shows source .tag :=
    (Leads.bump .tag hleads.after.after).shows_bump hd .tag
  refine ⟨d.token.span, _, g₁, inside, g₂, g₃, _, ?_, hend.symbol hclean hclose .script, rfl, htight⟩
  have hstart := hd.symbol hc.of_bump hlt .script
  rw [h₁, h₄, h₂, h₃] at hstart
  exact hstart

/-! Expressions and markup -/

theorem spelled_toExpr {m : Markup} (h : m.node.Throughout (TreeNode.Spelled source)) :
    (TreeNode.expr m.toExpr).Throughout (TreeNode.Spelled source) := by
  cases m <;> exact throughout_iff.2 ⟨trivial, List.forall_mem_singleton.2 h⟩

theorem spelled_toChild {m : Markup} (h : m.node.Throughout (TreeNode.Spelled source)) :
    (TreeNode.child m.toChild).Throughout (TreeNode.Spelled source) := by
  cases m <;> exact throughout_iff.2 ⟨trivial, List.forall_mem_singleton.2 h⟩

theorem spelled_of_atom {c : Cursor} {e : Expr} (hc : c.Shows source .script) (hclean : c.Clean)
    (h : atom? c.token = some e) : (TreeNode.expr e).Throughout (TreeNode.Spelled source) := by
  have leaf {t : Token} (ht : c.token.val = t) (hopen : t ≠ .endOfFile) :=
    hc.standsIn hclean ht hopen
  unfold atom? at h
  split at h <;> cases h <;> refine throughout_iff.2 ⟨leaf ‹_› (by rintro ⟨⟩), List.forall_mem_nil _⟩

theorem spelled_container {c c' : Cursor} {m : Mode} {h : Nat} {inner : Option Expr}
    (hc : c.Shows source m) (hbrace : c.kind = .symbol .lbrace)
    (hinner : ReadsContainer (c.bump .script) h inner c') (hclose : c'.kind = .symbol .rbrace)
    (hclean : c'.Clean)
    (hparts : ∀ e ∈ inner.toList, (TreeNode.expr e).Throughout (TreeNode.Spelled source)) :
    (TreeNode.value (.container inner (c.token.span.merge c'.token.span))).Throughout
        (TreeNode.Spelled source) ∧
      (TreeNode.child (.container inner (c.token.span.merge c'.token.span))).Throughout
        (TreeNode.Spelled source) := by
  have hparts := List.forall_mem_map.2 hparts
  cases hinner with
  | expr => exact ⟨throughout_iff.2 ⟨trivial, hparts⟩, throughout_iff.2 ⟨trivial, hparts⟩⟩
  | empty =>
    have hopen : c.token.val ≠ .endOfFile := by simp [Cursor.kind_symbol.1 hbrace]
    obtain ⟨gap, hgap, -⟩ := Cursor.exists_gap_symbol hopen hclean hclose
    have hstart := hc.symbol hclean.of_bump hbrace .script
    rw [hgap] at hstart
    have hbraces : BracesSpelled source (c.token.span.merge (c.bump .script).token.span) :=
      ⟨_, _, gap, _, hstart, (hc.bump .script).symbol hclean hclose .script, rfl⟩
    exact ⟨throughout_iff.2 ⟨hbraces, hparts⟩, throughout_iff.2 ⟨hbraces, hparts⟩⟩

mutual

theorem ReadsExpr.spelled {c h e c'} : ReadsExpr c h e c' → c.Shows source .script → c'.Clean →
    (TreeNode.expr e).Throughout (TreeNode.Spelled source) ∧ c'.Shows source .script
  | .plain h _, hc, hclean => h.spelled hc hclean
  | .conditional h _ h' _ h'', hc, hclean => by
    have hclean₂ := h''.leads.after.clean hclean
    have ht := h.spelled hc (h'.leads.after.clean hclean₂)
    have hx := h'.spelled (ht.2.bump .script) hclean₂
    have hy := h''.spelled (hx.2.bump .script) hclean
    refine ⟨throughout_iff.2 ⟨trivial, ?_⟩, hy.2⟩
    simp only [TreeNode.parts, List.forall_mem_cons]
    exact ⟨ht.1, hx.1, hy.1, List.forall_mem_nil _⟩

theorem ReadsBinary.spelled {power c h e c'} : ReadsBinary power c h e c' →
    c.Shows source .script → c'.Clean →
      (TreeNode.expr e).Throughout (TreeNode.Spelled source) ∧ c'.Shows source .script
  | .mk h h', hc, hclean =>
    have hl := h.spelled hc (h'.leads.clean hclean)
    h'.spelled hl.2 hl.1 hclean

theorem ReadsBinaryRest.spelled {power c h lhs e c'} : ReadsBinaryRest power c h lhs e c' →
    c.Shows source .script → (TreeNode.expr lhs).Throughout (TreeNode.Spelled source) → c'.Clean →
      (TreeNode.expr e).Throughout (TreeNode.Spelled source) ∧ c'.Shows source .script
  | .done _, hc, hl, _ => ⟨hl, hc⟩
  | .more _ _ h h', hc, hl, hclean => by
    have hr := h.spelled (hc.bump .script) (h'.leads.clean hclean)
    refine h'.spelled hr.2 (throughout_iff.2 ⟨trivial, ?_⟩) hclean
    simp only [TreeNode.parts, List.forall_mem_cons]
    exact ⟨hl, hr.1, List.forall_mem_nil _⟩

theorem ReadsUnary.spelled {c h e c'} : ReadsUnary c h e c' → c.Shows source .script → c'.Clean →
    (TreeNode.expr e).Throughout (TreeNode.Spelled source) ∧ c'.Shows source .script
  | .operator _ h, hc, hclean =>
    have ho := h.spelled (hc.bump .script) hclean
    ⟨throughout_iff.2 ⟨trivial, List.forall_mem_singleton.2 ho.1⟩, ho.2⟩
  | .trailing _ h h', hc, hclean =>
    have hp := h.spelled hc (h'.leads.clean hclean)
    h'.spelled hp.2 hp.1 hclean

theorem ReadsTrailing.spelled {c h e e' c'} : ReadsTrailing c h e e' c' →
    c.Shows source .script → (TreeNode.expr e).Throughout (TreeNode.Spelled source) → c'.Clean →
      (TreeNode.expr e').Throughout (TreeNode.Spelled source) ∧ c'.Shows source .script
  | .done _ _, hc, he, _ => ⟨he, hc⟩
  | .member _ hw h, hc, he, hclean =>
    have hc₁ := hc.bump .script
    have hproperty := hc₁.wordSpelled (h.leads.after.clean hclean) hw
    h.spelled (hc₁.bump .script)
      (throughout_iff.2 ⟨hproperty, List.forall_mem_singleton.2 he⟩) hclean
  | .call _ h _ h', hc, he, hclean =>
    have hargs := h.spelled (hc.bump .script) (h'.leads.after.clean hclean)
    h'.spelled (h.leads.after.shows_bump hc .script)
      (throughout_iff.2 ⟨trivial, List.forall_mem_cons.2 ⟨he, List.forall_mem_map.2 hargs⟩⟩) hclean

theorem ReadsArguments.spelled {c h es c'} : ReadsArguments c h es c' → c.Shows source .script →
    c'.Clean → ∀ e ∈ es, (TreeNode.expr e).Throughout (TreeNode.Spelled source)
  | .none _, _, _ => List.forall_mem_nil _
  | .last _ h _, hc, hclean => List.forall_mem_singleton.2 (h.spelled hc hclean).1
  | .more _ h _ h', hc, hclean =>
    have he := h.spelled hc (h'.leads.after.clean hclean)
    List.forall_mem_cons.2 ⟨he.1, h'.spelled (he.2.bump .script) hclean⟩

theorem ReadsPrimary.spelled {c h e c'} : ReadsPrimary c h e c' → c.Shows source .script → c'.Clean →
    (TreeNode.expr e).Throughout (TreeNode.Spelled source) ∧ c'.Shows source .script
  | .atom h, hc, hclean => ⟨spelled_of_atom hc hclean.of_bump h, hc.bump .script⟩
  | .parenthesized _ h _, hc, hclean =>
    have he := h.spelled (hc.bump .script) hclean.of_bump
    ⟨he.1, he.2.bump .script⟩
  | .markup hlt h, hc, hclean =>
    have hm := h.spelled ⟨c, .script, hc, hlt, rfl, rfl⟩ hclean
    ⟨spelled_toExpr hm.1, hm.2⟩

theorem ReadsMarkup.spelled {start after c h m c'} : ReadsMarkup start after c h m c' →
    Opened source start c → c'.Clean →
      m.node.Throughout (TreeNode.Spelled source) ∧ c'.Shows source after
  | .fragment hgt h hclose, hopened, hclean => by
    have hcs := h.spelled (hopened.shows.bump .child) hclean.of_bump
    refine ⟨throughout_iff.2 ⟨?_, List.forall_mem_map.2 hcs⟩,
      h.leads.after.shows_bump hopened.shows after⟩
    rw [Cursor.last_bump (ne_endOfFile_of_kind hclose (by decide))]
    exact spelled_fragment hopened hgt h hclose hclean.of_bump
  | .selfClosing hgt h h' _ _, hopened, hclean => by
    have hclean₂ := hclean.of_bump.of_bump
    have hname := h.spelled hopened.shows hgt (h'.leads.clean hclean₂)
    have hattrs := h'.spelled hname.2 hclean₂
    refine ⟨throughout_iff.2 ⟨hname.1, ?_⟩, (hattrs.2.bump .tag).bump after⟩
    rw [Markup.node, TreeNode.parts, List.map_nil, List.append_nil]
    exact List.forall_mem_map.2 hattrs.1
  | .element hgt h h' _ h'' hclose _ _, hopened, hclean => by
    have hclean₃ := hclose.leads.clean hclean.of_bump
    have hclean₂ := h''.leads.after.clean hclean₃
    have hname := h.spelled hopened.shows hgt (h'.leads.clean hclean₂)
    have hattrs := h'.spelled hname.2 hclean₂
    have hcs := h''.spelled (hattrs.2.bump .child) hclean₃
    refine ⟨throughout_iff.2 ⟨hname.1, ?_⟩,
      (h''.leads.trans hclose.leads).shows_bump (hattrs.2.bump .child) after⟩
    rw [Markup.node, TreeNode.parts, List.forall_mem_append]
    exact ⟨List.forall_mem_map.2 hattrs.1, List.forall_mem_map.2 hcs⟩

theorem ReadsChildren.spelled {c h cs c'} : ReadsChildren c h cs c' → c.Shows source .child →
    c'.Clean → ∀ x ∈ cs, (TreeNode.child x).Throughout (TreeNode.Spelled source)
  | .close _ _, _, _ => List.forall_mem_nil _
  | .text hraw h, hc, hclean =>
    have htext := hc.standsIn (h.leads.after.clean hclean) hraw (by simp)
    List.forall_mem_cons.2 ⟨throughout_iff.2 ⟨htext, List.forall_mem_nil _⟩,
      h.spelled (hc.bump .child) hclean⟩
  | .container hbrace h hclose h', hc, hclean => by
    have hclean₁ := h'.leads.after.clean hclean
    have hinner := h.spelled (hc.bump .script) hclean₁
    rw [Cursor.last_bump (ne_endOfFile_of_kind hclose (by decide))]
    exact List.forall_mem_cons.2 ⟨(spelled_container hc hbrace h hclose hclean₁ hinner).2,
      h'.spelled (h.leads.after.shows_bump hc .child) hclean⟩
  | .markup hlt _ h h', hc, hclean =>
    have hm := h.spelled ⟨c, .child, hc, hlt, rfl, rfl⟩ (h'.leads.clean hclean)
    List.forall_mem_cons.2 ⟨spelled_toChild hm.1, h'.spelled hm.2 hclean⟩

theorem ReadsContainer.spelled {c h inner c'} : ReadsContainer c h inner c' →
    c.Shows source .script → c'.Clean →
      ∀ e ∈ inner.toList, (TreeNode.expr e).Throughout (TreeNode.Spelled source)
  | .empty _, _, _ => List.forall_mem_nil _
  | .expr _ h, hc, hclean => List.forall_mem_singleton.2 (h.spelled hc hclean).1

theorem ReadsAttributes.spelled {c h as c'} : ReadsAttributes c h as c' → c.Shows source .tag →
    c'.Clean → (∀ a ∈ as, (TreeNode.attr a).Throughout (TreeNode.Spelled source)) ∧
      c'.Shows source .tag
  | .done _ _, hc, _ => ⟨List.forall_mem_nil _, hc⟩
  | .more hident h h' h'', hc, hclean =>
    have hclean₂ := h''.leads.clean hclean
    have hname := h.spelled hc (by simp [hident]) (h'.leads.clean hclean₂)
    have hvalue := h'.spelled hname.2 hclean₂
    have hrest := h''.spelled hvalue.2 hclean
    ⟨List.forall_mem_cons.2
      ⟨throughout_iff.2 ⟨hname.1, List.forall_mem_map.2 hvalue.1⟩, hrest.1⟩, hrest.2⟩

theorem ReadsAttrValue.spelled {c h v c'} : ReadsAttrValue c h v c' → c.Shows source .tag →
    c'.Clean → (∀ x ∈ v.toList, (TreeNode.value x).Throughout (TreeNode.Spelled source)) ∧
      c'.Shows source .tag
  | .bare _, hc, _ => ⟨List.forall_mem_nil _, hc⟩
  | .text _ hs, hc, hclean =>
    have hc₁ := hc.bump .tag
    have htext := hc₁.standsIn hclean.of_bump hs (by simp)
    ⟨List.forall_mem_singleton.2 (throughout_iff.2 ⟨htext, List.forall_mem_nil _⟩), hc₁.bump .tag⟩
  | .container _ hbrace h hclose, hc, hclean => by
    have hc₁ := hc.bump .tag
    have hinner := h.spelled (hc₁.bump .script) hclean.of_bump
    rw [Cursor.last_bump (ne_endOfFile_of_kind hclose (by decide))]
    exact ⟨List.forall_mem_singleton.2
      (spelled_container hc₁ hbrace h hclose hclean.of_bump hinner).1,
      h.leads.after.shows_bump hc₁ .tag⟩
  | .element _ hlt h, hc, hclean =>
    have hm := h.spelled ⟨_, .tag, hc.bump .tag, hlt, rfl, rfl⟩ hclean
    ⟨List.forall_mem_singleton.2 (throughout_iff.2 ⟨trivial, List.forall_mem_singleton.2 hm.1⟩), hm.2⟩

end

/-! Statements -/

end Parse

def ImportSpecifier.Spelled (source : List Char) (s : ImportSpecifier) : Prop :=
  WordSpelled source s.imported ∧ ∀ l ∈ s.localName, IdentSpelled source l

def ImportDecl.Spelled (source : List Char) (d : ImportDecl) : Prop :=
  (∀ n ∈ d.default, IdentSpelled source n) ∧ (∀ n ∈ d.namespaceName, IdentSpelled source n) ∧
    (∀ s ∈ d.named, s.Spelled source) ∧
    (Token.string d.source.val).StandsIn source .script d.source.span

/-- What the statement itself has of the text, and all of its expression. -/
def Statement.Spelled (source : List Char) (s : Statement) : Prop :=
  (match s with
    | imports d => d.Spelled source
    | binding _ name _ => IdentSpelled source name
    | exportDefault _ | expr _ => True) ∧
  ∀ e, s.expr? = some e → (TreeNode.expr e).Throughout (TreeNode.Spelled source)

namespace Parse

theorem identSpelled_bump {c : Cursor} {m : Mode} {name : String} (hc : c.Shows source m)
    (hclean : (c.bump .script).Clean) (h : (c.bump .script).token.val = .ident name) :
    IdentSpelled source ⟨name, (c.bump .script).token.span⟩ :=
  (hc.bump .script).standsIn hclean h (by simp)

theorem ReadsSpecifier.spelled {c s c'} (h : ReadsSpecifier c s c') (hc : c.Shows source .script)
    (hclean : c'.Clean) : s.Spelled source ∧ c'.Shows source .script := by
  cases h with
  | plain hw _ => exact ⟨⟨hc.wordSpelled hclean.of_bump hw, nofun⟩, hc.bump .script⟩
  | renamed hw _ hl =>
    have hc₁ := hc.bump .script
    have hclean₂ := hclean.of_bump
    refine ⟨⟨hc.wordSpelled hclean₂.of_bump.of_bump hw, ?_⟩, (hc₁.bump .script).bump .script⟩
    rintro l ⟨⟩
    exact identSpelled_bump hc₁ hclean₂ hl

theorem ReadsSpecifiers.spelled {c ss c'} (h : ReadsSpecifiers c ss c') :
    c.Shows source .script → c'.Clean → ∀ s ∈ ss, s.Spelled source := by
  induction h with
  | none => exact fun _ _ => List.forall_mem_nil _
  | last _ h _ => exact fun hc hclean => List.forall_mem_singleton.2 (h.spelled hc hclean).1
  | more _ h _ h' ih =>
    intro hc hclean
    have hs := h.spelled hc (h'.leads.after.clean hclean)
    exact List.forall_mem_cons.2 ⟨hs.1, ih (hs.2.bump .script) hclean⟩

theorem ReadsSource.spelled {c s c'} (h : ReadsSource c s c') {m : Mode} (hc : c.Shows source m)
    (hclean : c'.Clean) :
    (Token.string s.val).StandsIn source .script s.span ∧ c'.Shows source .script := by
  cases h with
  | mk _ hs =>
    have hc₁ := hc.bump .script
    exact ⟨hc₁.standsIn hclean.of_bump hs (by simp), hc₁.bump .script⟩

theorem ReadsClause.spelled {default c d c'} (h : ReadsClause default c d c') {m : Mode}
    (hc : c.Shows source m) (hclean : c'.Clean) (hn : ∀ n ∈ default, IdentSpelled source n) :
    d.Spelled source ∧ c'.Shows source .script := by
  have hc₁ := hc.bump .script
  cases h with
  | all _ _ hname h =>
    have hc₃ := (hc₁.bump .script).bump .script
    have hsource := h.spelled hc₃ hclean
    refine ⟨⟨hn, ?_, nofun, hsource.1⟩, hsource.2⟩
    rintro n ⟨⟩
    exact identSpelled_bump hc₁ (h.leads.after.clean hclean) hname
  | named _ hss _ h =>
    have hclean₁ := h.leads.after.clean hclean
    have hsource := h.spelled (hss.leads.shows_bump hc₁ .script) hclean
    exact ⟨⟨hn, nofun, hss.spelled hc₁ hclean₁, hsource.1⟩, hsource.2⟩

theorem ReadsImport.spelled {c d c'} (h : ReadsImport c d c') {m : Mode} (hc : c.Shows source m)
    (hclean : c'.Clean) : d.Spelled source ∧ c'.Shows source .script := by
  have hc₁ := hc.bump .script
  have hc₂ := hc₁.bump .script
  cases h with
  | sideEffect _ hs =>
    exact ⟨⟨nofun, nofun, nofun, hc₁.standsIn hclean.of_bump hs (by simp)⟩, hc₂⟩
  | clause _ _ _ h => exact h.spelled hc₁ hclean nofun
  | default _ hname _ h =>
    have hsource := h.spelled hc₂ hclean
    refine ⟨⟨?_, nofun, nofun, hsource.1⟩, hsource.2⟩
    rintro n ⟨⟩
    exact identSpelled_bump hc (h.leads.after.clean hclean) hname
  | both _ hname _ h =>
    refine h.spelled (hc₂.bump .script) hclean ?_
    rintro n ⟨⟩
    exact identSpelled_bump hc (h.leads.after.after.clean hclean) hname

theorem ReadsBody.spelled {c h s c'} (hs : ReadsBody c h s c') (hc : c.Shows source .script)
    (hclean : c'.Clean) : s.Spelled source ∧ c'.Shows source .script := by
  have hc₁ := hc.bump .script
  have hc₂ := hc₁.bump .script
  cases hs with
  | imports h =>
    have hd := h.spelled hc hclean
    exact ⟨⟨hd.1, nofun⟩, hd.2⟩
  | binding _ hname _ h =>
    have he := h.spelled (hc₂.bump .script) hclean
    refine ⟨⟨identSpelled_bump hc (h.leads.after.after.clean hclean) hname, ?_⟩, he.2⟩
    rintro e ⟨⟩
    exact he.1
  | exportDefault _ _ h =>
    have he := h.spelled hc₂ hclean
    refine ⟨⟨trivial, ?_⟩, he.2⟩
    rintro e ⟨⟩
    exact he.1
  | expr _ h =>
    have he := h.spelled hc hclean
    refine ⟨⟨trivial, ?_⟩, he.2⟩
    rintro e ⟨⟩
    exact he.1

theorem ReadsStatement.spelled {c h s c'} (hs : ReadsStatement c h s c') (hc : c.Shows source .script)
    (hclean : c'.Clean) : s.val.Spelled source ∧ c'.Shows source .script := by
  cases hs with
  | closed h _ =>
    have hbody := h.spelled hc hclean.of_bump
    exact ⟨hbody.1, hbody.2.bump .script⟩
  | bare h _ => exact h.spelled hc hclean

theorem ReadsStatements.leads {c h ss c'} (hss : ReadsStatements c h ss c') : c.Leads c' := by
  induction hss with
  | none => exact .refl
  | more _ h _ ih => exact h.leads.trans ((Cursor.leads_past ..).trans ih)

theorem ReadsStatements.spelled {c h ss c'} (hss : ReadsStatements c h ss c') :
    c.Shows source .script → c'.Clean → ∀ s ∈ ss, s.val.Spelled source := by
  induction hss with
  | none => exact fun _ _ => List.forall_mem_nil _
  | more _ h h' ih =>
    intro hc hclean
    have hs := h.spelled hc ((Cursor.leads_past ..).clean (h'.leads.clean hclean))
    refine List.forall_mem_cons.2 ⟨hs.1, ih ?_ hclean⟩
    unfold Cursor.past
    split
    · exact hs.2.bump .script
    · exact hs.2

end Parse
end BranchMarkup
