import BranchMarkup.Proofs.Reading.Extent
import BranchMarkup.Proofs.Reading.Grammar
/-! Tokens and comments stand one after another. A reader goes from one cursor to another by taking
tokens, and what it comes by lies between. In a text too long for the words that spans are stored in
this says nothing. -/
namespace BranchMarkup

namespace Span

def lower (s : Span) : Nat := s.start.toNat

def upper (s : Span) : Nat := s.stop.toNat

theorem lower_ofOffsets {a b : Nat} (h : a < UInt32.size) : (ofOffsets a b).lower = a :=
  Nat.mod_eq_of_lt h

theorem upper_ofOffsets {a b : Nat} (h : b < UInt32.size) : (ofOffsets a b).upper = b :=
  Nat.mod_eq_of_lt h

/-- Offsets that far apart are stored alike. -/
theorem ofOffsets_add_size (a b : Nat) :
    ofOffsets (a + UInt32.size) (b + UInt32.size) = ofOffsets a b := by
  have h (n : Nat) : UInt32.ofNat (n + UInt32.size) = UInt32.ofNat n := by
    rw [← UInt32.toNat_inj, UInt32.toNat_ofNat', UInt32.toNat_ofNat']
    exact Nat.add_mod_right ..
  rw [ofOffsets, ofOffsets, h, h]

theorem lower_merge (a b : Span) : (a.merge b).lower = min a.lower b.lower := by
  simp only [merge, lower, Nat.min_def, ← UInt32.le_iff_toNat_le]
  unfold min instMinUInt32 minOfLe
  simp only
  split <;> rfl

theorem upper_merge (a b : Span) : (a.merge b).upper = max a.upper b.upper := by
  simp only [merge, upper, Nat.max_def, ← UInt32.le_iff_toNat_le]
  unfold max instMaxUInt32 maxOfLe
  simp only
  split <;> rfl

def InOrder (a b : Nat) : List Span → Prop
  | [] => a ≤ b
  | s :: ss => a ≤ s.lower ∧ s.lower < s.upper ∧ InOrder s.upper b ss

section
variable {a b c d : Nat} {s : Span} {ss ts : List Span}

theorem inOrder_singleton : InOrder a b [s] ↔ a ≤ s.lower ∧ s.lower < s.upper ∧ s.upper ≤ b := Iff.rfl

theorem InOrder.le (h : InOrder a b ss) : a ≤ b := by
  induction ss generalizing a with
  | nil => exact h
  | cons s ss ih =>
    obtain ⟨hlower, hlt, hss⟩ := h
    have := ih hss
    omega

theorem InOrder.mono (h : InOrder a b ss) (hca : c ≤ a) (hbd : b ≤ d) : InOrder c d ss := by
  induction ss generalizing a c with
  | nil => exact Nat.le_trans hca (Nat.le_trans h hbd)
  | cons s ss ih => exact ⟨Nat.le_trans hca h.1, h.2.1, ih h.2.2 (Nat.le_refl _)⟩

theorem InOrder.append (h : InOrder a b ss) (h' : InOrder b c ts) : InOrder a c (ss ++ ts) := by
  induction ss generalizing a with
  | nil => exact h'.mono h (Nat.le_refl _)
  | cons s ss ih => exact ⟨h.1, h.2.1, ih h.2.2⟩

theorem InOrder.sublist (h : InOrder a b ts) (hss : ss.Sublist ts) : InOrder a b ss := by
  induction hss generalizing a with
  | slnil => exact h
  | cons t _ ih => exact (ih h.2.2).mono (Nat.le_trans h.1 (Nat.le_of_lt h.2.1)) (Nat.le_refl _)
  | cons_cons t _ ih => exact ⟨h.1, h.2.1, ih h.2.2⟩

theorem InOrder.bounds (h : InOrder a b ss) :
    ∀ s ∈ ss, a ≤ s.lower ∧ s.lower < s.upper ∧ s.upper ≤ b := by
  induction ss generalizing a with
  | nil => nofun
  | cons s ss ih =>
    obtain ⟨hlower, hlt, hss⟩ := h
    refine List.forall_mem_cons.2 ⟨⟨hlower, hlt, hss.le⟩, ?_⟩
    intro t ht
    have := ih hss t ht
    omega

theorem InOrder.pairwise (h : InOrder a b ss) : ss.Pairwise fun s t => s.upper ≤ t.lower := by
  induction ss generalizing a with
  | nil => exact .nil
  | cons s ss ih => exact .cons (fun t ht => (h.2.2.bounds t ht).1) (ih h.2.2)

end

end Span

open BranchMarkup.Span (InOrder)

/-! Comments -/

namespace Scanner

/-- Comments set aside since then, between the two offsets. -/
def Gathers (before : List (Spanned String)) (a b : Nat) (s : Scanner) : Prop :=
  ∃ new, s.comments = before ++ new ∧ InOrder a b (new.map (·.span))

theorem gathers_none {s t : Scanner} (h : t.comments = s.comments) {a b : Nat} (hab : a ≤ b) :
    Gathers s.comments a b t :=
  ⟨[], by rw [h, List.append_nil], hab⟩

theorem Gathers.trans {before : List (Spanned String)} {a b c : Nat} {s t : Scanner}
    (h : Gathers before a b s) (h' : Gathers s.comments b c t) : Gathers before a c t := by
  obtain ⟨new, hs, hnew⟩ := h
  obtain ⟨new', ht, hnew'⟩ := h'
  refine ⟨new ++ new', ?_, ?_⟩
  · rw [ht, hs, List.append_assoc]
  · rw [List.map_append]
    exact hnew.append hnew'

theorem Gathers.mono {before : List (Spanned String)} {a b c : Nat} {s : Scanner}
    (h : Gathers before a b s) (hca : c ≤ a) : Gathers before c b s := by
  obtain ⟨new, hs, hnew⟩ := h
  exact ⟨new, hs, hnew.mono hca (Nat.le_refl _)⟩

theorem gathers_setAside {s : Scanner} {c : Comment} (h : comment? s.rest = some c)
    (hs : s.extent < UInt32.size) :
    Gathers s.comments s.offset (s.setAside c).offset (s.setAside c) := by
  have hpos := Text.byteLength_pos (taken_ne_nil_of_comment? h)
  have hextent := extent_setAside h
  have hle : (s.setAside c).offset ≤ s.extent := by
    rw [← hextent, extent]
    exact Nat.le_add_right ..
  have hoffset : (s.setAside c).offset = s.offset + Text.byteLength c.taken := rfl
  have hlower := Span.lower_ofOffsets (a := s.offset) (b := (s.setAside c).offset) (by omega)
  have hupper := Span.upper_ofOffsets (a := s.offset) (b := (s.setAside c).offset) (by omega)
  refine ⟨[_], rfl, ?_⟩
  rw [List.map_singleton, Span.inOrder_singleton]
  dsimp only
  change s.offset ≤ (Span.ofOffsets s.offset (s.setAside c).offset).lower ∧
    (Span.ofOffsets s.offset (s.setAside c).offset).lower <
      (Span.ofOffsets s.offset (s.setAside c).offset).upper ∧
    (Span.ofOffsets s.offset (s.setAside c).offset).upper ≤ _
  omega

theorem gathers_skipTrivia (s : Scanner) (hs : s.extent < UInt32.size) :
    Gathers s.comments s.offset s.skipTrivia.offset s.skipTrivia := by
  fun_induction skipTrivia s with
  | case1 s h => exact gathers_none rfl s.offset_skipSpace_le
  | case2 s c h ih =>
    have hspace : s.skipSpace.extent < UInt32.size := by rwa [extent_skipSpace]
    have hset : (s.skipSpace.setAside c).extent < UInt32.size := by rwa [extent_setAside h]
    have hfirst : Gathers s.comments s.offset s.skipSpace.offset s.skipSpace :=
      gathers_none rfl s.offset_skipSpace_le
    exact (hfirst.trans (gathers_setAside h hspace)).trans (ih hset)

/-- What is set aside on the way to a token stands before it. -/
theorem gathers_next (mode : Mode) (s : Scanner) (hs : s.extent < UInt32.size) :
    Gathers s.comments s.offset (s.next mode).1.span.lower (s.next mode).2 := by
  have hend {t u : Scanner} {token : Token} (ht : t.extent < UInt32.size) :
      (t.emit u token).1.span.lower = t.offset := by
    apply Span.lower_ofOffsets
    have : t.offset ≤ t.extent := Nat.le_add_right ..
    omega
  have htoken (mode : Mode) :
      Gathers s.comments s.offset (s.nextToken mode).1.span.lower (s.nextToken mode).2 := by
    fun_induction nextToken mode s with
    | case1 s h | case2 s c r h | case3 s c r h | case6 s c r h =>
      have hskip : s.skipTrivia.extent < UInt32.size := by rwa [extent_skipTrivia]
      rw [hend hskip]
      exact gathers_skipTrivia s hs
    | case4 s c r h | case5 s c r h =>
      have hskip : s.skipTrivia.extent < UInt32.size := by rwa [extent_skipTrivia]
      rw [quoted, hend hskip]
      exact gathers_skipTrivia s hs
    | case7 s c r h t hc hd hq hsym u ih =>
      have hskip : t.extent < UInt32.size := by rwa [extent_skipTrivia]
      have hu : u.extent = t.extent := extent_advance (by rw [h]; rfl)
      refine (gathers_skipTrivia s hs).trans ?_
      have hpast := ih (by rw [← hu] at hskip; exact hskip)
      obtain ⟨new, hcomments, hnew⟩ := hpast
      exact ⟨new, hcomments, hnew.mono (Nat.le_add_right t.offset _) (Nat.le_refl _)⟩
  cases mode with
  | script | tag => exact htoken _
  | child =>
    simp only [next]
    rw [nextChild]
    split <;> (rw [hend hs]; exact gathers_none rfl (Nat.le_refl _))

end Scanner

/-! Cursors -/

namespace Cursor

/-- In a text of so many bytes the token here stands after the one before it, and the text is read up
to its end. -/
structure Stands (n : Nat) (c : Cursor) : Prop where
  extent_eq : c.scanner.extent = n
  last_le : c.last.upper ≤ c.token.span.lower
  lower_le : c.token.span.lower ≤ c.token.span.upper
  lower_lt : c.token.val ≠ .endOfFile → c.token.span.lower < c.token.span.upper
  upper_eq : c.token.span.upper = c.scanner.offset

variable {n : Nat} {c : Cursor}

theorem stands_next {s : Scanner} (mode : Mode) {last : Span} (hs : s.extent = n)
    (hn : n < UInt32.size) (hlast : last.upper ≤ s.offset) :
    Cursor.Stands n ⟨(s.next mode).2, (s.next mode).1, last⟩ := by
  obtain ⟨hextent, start, hspan, hle, hle', hend⟩ := Scanner.steps_next mode s
  have hoffset : (s.next mode).2.offset ≤ n := by
    rw [← hs, ← hextent, Scanner.extent]
    exact Nat.le_add_right ..
  have hlower : (s.next mode).1.span.lower = start := by
    rw [hspan, Span.lower_ofOffsets (by omega)]
  have hupper : (s.next mode).1.span.upper = (s.next mode).2.offset := by
    rw [hspan, Span.upper_ofOffsets (by omega)]
  refine ⟨hextent.trans hs, ?_, ?_, ?_, hupper⟩
  · simp only
    omega
  · simp only
    omega
  · intro hopen
    have := mt hend.2 hopen
    simp only
    omega

theorem last_bump (h : c.token.val ≠ .endOfFile) (mode : Mode) :
    (c.bump mode).last = c.token.span := by
  rw [bump, if_neg h]

theorem Stands.bump (h : c.Stands n) (hn : n < UInt32.size) (mode : Mode) : (c.bump mode).Stands n := by
  by_cases hend : c.token.val = .endOfFile
  · rwa [Cursor.bump, if_pos hend]
  · rw [Cursor.bump, if_neg hend]
    exact stands_next mode h.extent_eq hn (Nat.le_of_eq h.upper_eq)

theorem Stands.bump_lower (h : c.Stands n) (hn : n < UInt32.size) (hopen : c.token.val ≠ .endOfFile)
    (mode : Mode) : c.token.span.upper ≤ (c.bump mode).token.span.lower := by
  have := (h.bump hn mode).last_le
  rwa [last_bump hopen] at this

theorem stands_ofText {source : List Char} (h : Text.byteLength source < UInt32.size) :
    (Parser.ofText source).cursor.Stands (Text.byteLength source) :=
  stands_next .script (Nat.zero_add _) h (Nat.zero_le _)

/-- Taking tokens leads from one cursor to another. -/
inductive Leads (c : Cursor) : Cursor → Prop where
  | refl : Leads c c
  | bump {d} (mode : Mode) : Leads c d → Leads c (d.bump mode)

theorem Leads.trans {c d e : Cursor} (h : c.Leads d) (h' : d.Leads e) : c.Leads e := by
  induction h' with
  | refl => exact h
  | bump mode _ ih => exact .bump mode ih

theorem leads_bump (c : Cursor) (mode : Mode) : c.Leads (c.bump mode) := .bump mode .refl

theorem Leads.after {c d : Cursor} {mode : Mode} (h : (c.bump mode).Leads d) : c.Leads d :=
  (leads_bump c mode).trans h

theorem Leads.stands {c d : Cursor} (h : c.Leads d) (hn : n < UInt32.size) (hc : c.Stands n) :
    d.Stands n := by
  induction h with
  | refl => exact hc
  | bump mode _ ih => exact ih.bump hn mode

/-- If any token was taken, the last of them stood no earlier than the first. -/
theorem Leads.last {c d : Cursor} (h : c.Leads d) (hn : n < UInt32.size) (hc : c.Stands n) :
    d = c ∨ c.token.span.lower ≤ d.last.lower ∧ c.token.span.upper ≤ d.last.upper := by
  induction h with
  | refl => exact .inl rfl
  | @bump d mode h ih =>
    by_cases hend : d.token.val = .endOfFile
    · rwa [Cursor.bump, if_pos hend]
    · right
      rw [last_bump hend]
      have h1 := (h.stands hn hc).last_le
      have h2 := (h.stands hn hc).lower_le
      have h3 := hc.lower_le
      have h4 := hc.last_le
      rcases ih with rfl | ⟨h5, h6⟩
      · exact ⟨Nat.le_refl _, Nat.le_refl _⟩
      · exact ⟨by omega, by omega⟩

theorem Stands.gathers_bump {c : Cursor} (h : c.Stands n) (hn : n < UInt32.size)
    (hopen : c.token.val ≠ .endOfFile) (mode : Mode) :
    Scanner.Gathers c.scanner.comments c.token.span.upper (c.bump mode).token.span.lower
      (c.bump mode).scanner := by
  rw [Cursor.bump, if_neg hopen, h.upper_eq]
  exact Scanner.gathers_next mode c.scanner (h.extent_eq.symm ▸ hn)

/-- Comments that are met on the way stand between the tokens. -/
theorem Leads.gathers {c d : Cursor} (h : c.Leads d) (hn : n < UInt32.size) (hc : c.Stands n) :
    d = c ∨ Scanner.Gathers c.scanner.comments c.token.span.upper d.token.span.lower d.scanner := by
  induction h with
  | refl => exact .inl rfl
  | @bump d mode h ih =>
    by_cases hend : d.token.val = .endOfFile
    · rwa [Cursor.bump, if_pos hend]
    · have hd := h.stands hn hc
      have hnext := hd.gathers_bump hn hend mode
      rcases ih with rfl | hgathers
      · exact .inr hnext
      · exact .inr (hgathers.trans (hnext.mono hd.lower_le))

end Cursor

/-! All that is read is read by taking tokens -/

namespace Parse

open Cursor (Leads)

theorem ReadsTagRest.leads {c name name' c'} (h : ReadsTagRest c name name' c') : c.Leads c' := by
  induction h with
  | done => exact .refl
  | part _ _ _ _ ih => exact ih.after.after

theorem ReadsTag.leads {c name c'} (h : ReadsTag c name c') : c.Leads c' := by
  cases h with
  | empty => exact .refl
  | name _ h => exact h.leads.after

mutual

theorem ReadsExpr.leads {c h e c'} : ReadsExpr c h e c' → c.Leads c'
  | .plain h _ => h.leads
  | .conditional h _ h' _ h'' => h.leads.trans (h'.leads.after.trans h''.leads.after)

theorem ReadsBinary.leads {power c h e c'} : ReadsBinary power c h e c' → c.Leads c'
  | .mk h h' => h.leads.trans h'.leads

theorem ReadsBinaryRest.leads {power c h lhs e c'} : ReadsBinaryRest power c h lhs e c' → c.Leads c'
  | .done _ => .refl
  | .more _ _ h h' => h.leads.after.trans h'.leads

theorem ReadsUnary.leads {c h e c'} : ReadsUnary c h e c' → c.Leads c'
  | .operator _ h => h.leads.after
  | .trailing _ h h' => h.leads.trans h'.leads

theorem ReadsTrailing.leads {c h e e' c'} : ReadsTrailing c h e e' c' → c.Leads c'
  | .done _ _ => .refl
  | .member _ _ h => h.leads.after.after
  | .call _ h _ h' => h.leads.after.trans h'.leads.after

theorem ReadsArguments.leads {c h es c'} : ReadsArguments c h es c' → c.Leads c'
  | .none _ => .refl
  | .last _ h _ => h.leads
  | .more _ h _ h' => h.leads.trans h'.leads.after

theorem ReadsPrimary.leads {c h e c'} : ReadsPrimary c h e c' → c.Leads c'
  | .atom _ => Cursor.leads_bump ..
  | .parenthesized _ h _ => h.leads.after.trans (Cursor.leads_bump ..)
  | .markup _ h => h.leads.after

theorem ReadsMarkup.leads {start after c h m c'} : ReadsMarkup start after c h m c' → c.Leads c'
  | .fragment _ h _ => h.leads.after.trans (Cursor.leads_bump ..)
  | .selfClosing _ h h' _ _ =>
    (h.leads.trans h'.leads).trans ((Cursor.leads_bump ..).trans (Cursor.leads_bump ..))
  | .element _ h h' _ h'' hclose _ _ =>
    (h.leads.trans h'.leads).trans
      (h''.leads.after.trans (hclose.leads.trans (Cursor.leads_bump ..)))

theorem ReadsChildren.leads {c h cs c'} : ReadsChildren c h cs c' → c.Leads c'
  | .close _ _ => (Cursor.leads_bump ..).trans (Cursor.leads_bump ..)
  | .text _ h => h.leads.after
  | .container _ h _ h' => h.leads.after.trans h'.leads.after
  | .markup _ _ h h' => h.leads.after.trans h'.leads

theorem ReadsContainer.leads {c h e c'} : ReadsContainer c h e c' → c.Leads c'
  | .empty _ => .refl
  | .expr _ h => h.leads

theorem ReadsAttributes.leads {c h as c'} : ReadsAttributes c h as c' → c.Leads c'
  | .done _ _ => .refl
  | .more _ h h' h'' => h.leads.trans (h'.leads.trans h''.leads)

theorem ReadsAttrValue.leads {c h v c'} : ReadsAttrValue c h v c' → c.Leads c'
  | .bare _ => .refl
  | .text _ _ => (Cursor.leads_bump ..).trans (Cursor.leads_bump ..)
  | .container _ _ h _ => h.leads.after.after.trans (Cursor.leads_bump ..)
  | .element _ _ h => h.leads.after.after

end

theorem ReadsSpecifier.leads {c s c'} (h : ReadsSpecifier c s c') : c.Leads c' := by
  cases h with
  | plain => exact Cursor.leads_bump ..
  | renamed => exact ((Cursor.leads_bump ..).trans (Cursor.leads_bump ..)).trans (Cursor.leads_bump ..)

theorem ReadsSpecifiers.leads {c ss c'} (h : ReadsSpecifiers c ss c') : c.Leads c' := by
  induction h with
  | none => exact .refl
  | last _ h _ => exact h.leads
  | more _ h _ _ ih => exact h.leads.trans ih.after

theorem ReadsSource.leads {c s c'} (h : ReadsSource c s c') : c.Leads c' := by
  cases h
  exact (Cursor.leads_bump ..).trans (Cursor.leads_bump ..)

theorem ReadsClause.leads {default c d c'} (h : ReadsClause default c d c') : c.Leads c' := by
  cases h with
  | all _ _ _ h => exact h.leads.after.after.after
  | named _ h _ h' => exact h.leads.after.trans h'.leads.after

theorem ReadsImport.leads {c d c'} (h : ReadsImport c d c') : c.Leads c' := by
  cases h with
  | sideEffect => exact (Cursor.leads_bump ..).trans (Cursor.leads_bump ..)
  | clause _ _ _ h => exact h.leads.after
  | default _ _ _ h => exact h.leads.after.after
  | both _ _ _ h => exact h.leads.after.after.after

theorem ReadsBody.leads {c h s c'} (h : ReadsBody c h s c') : c.Leads c' := by
  cases h with
  | imports h => exact h.leads
  | binding _ _ _ h => exact h.leads.after.after.after
  | exportDefault _ _ h => exact h.leads.after.after
  | expr _ h => exact h.leads

theorem ReadsStatement.leads {c h s c'} (h : ReadsStatement c h s c') : c.Leads c' := by
  cases h with
  | closed h _ => exact h.leads.trans (Cursor.leads_bump ..)
  | bare h _ => exact h.leads

end Parse

end BranchMarkup
