import Mathlib.Order.MinMax
import BranchMarkup.Proofs.Reading.Stands
/-! Spans as parts of the text they come from. Both ends of a span are borders between characters, and
what a symbol covers is how it is spelled. -/
namespace BranchMarkup

open Text (byteLength byteLength_append)

/-- A byte offset that is no place inside a character. -/
def Text.IsBorder (source : List Char) (n : Nat) : Prop :=
  ∃ before after, source = before ++ after ∧ byteLength before = n

theorem Text.IsBorder.le {source : List Char} {n : Nat} (h : IsBorder source n) :
    n ≤ byteLength source := by
  obtain ⟨before, after, rfl, rfl⟩ := h
  rw [byteLength_append]
  exact Nat.le_add_right ..

theorem Text.isBorder_zero (source : List Char) : IsBorder source 0 := ⟨[], source, rfl, rfl⟩

namespace Span

structure Sound (source : List Char) (s : Span) : Prop where
  le : s.lower ≤ s.upper
  lower : Text.IsBorder source s.lower
  upper : Text.IsBorder source s.upper

/-- The span covers these characters of the text. -/
def Spells (source : List Char) (s : Span) (text : List Char) : Prop :=
  ∃ before after, source = before ++ (text ++ after) ∧ s.lower = byteLength before ∧
    s.upper = s.lower + byteLength text

variable {source : List Char} {s t : Span}

theorem Sound.merge (hs : s.Sound source) (ht : t.Sound source) : (s.merge t).Sound source := by
  have hle := hs.le
  refine ⟨?_, ?_, ?_⟩
  · rw [lower_merge, upper_merge]
    omega
  · rw [lower_merge]
    rcases min_choice s.lower t.lower with h | h <;> rw [h]
    · exact hs.lower
    · exact ht.lower
  · rw [upper_merge]
    rcases max_choice s.upper t.upper with h | h <;> rw [h]
    · exact hs.upper
    · exact ht.upper

theorem sound_zero (source : List Char) : Span.zero.Sound source :=
  ⟨Nat.le_refl _, Text.isBorder_zero source, Text.isBorder_zero source⟩

theorem sound_ofOffsets {a b : Nat} (hsource : byteLength source < UInt32.size)
    (ha : Text.IsBorder source a) (hb : Text.IsBorder source b) (hab : a ≤ b) :
    (ofOffsets a b).Sound source := by
  have h1 := ha.le
  have h2 := hb.le
  refine ⟨?_, ?_, ?_⟩
  · rwa [lower_ofOffsets (by omega), upper_ofOffsets (by omega)]
  · rwa [lower_ofOffsets (by omega)]
  · rwa [upper_ofOffsets (by omega)]

theorem Spells.lower_lt {x : List Char} (h : s.Spells source x) (hx : x ≠ []) : s.lower < s.upper := by
  obtain ⟨-, -, -, -, hupper⟩ := h
  have := Text.byteLength_pos hx
  omega

end Span

theorem Token.ofWord_ne_symbol (s : String) (sym : Symbol) : Token.ofWord s ≠ .symbol sym := by
  unfold ofWord
  cases Keyword.ofText? s <;> simp

namespace Scanner

def At (source rest : List Char) (offset : Nat) : Prop :=
  ∃ before, source = before ++ rest ∧ byteLength before = offset

/-- What a scanner has come by are parts of the text. -/
structure Sound (source : List Char) (s : Scanner) : Prop where
  place : At source s.rest s.offset
  comments : ∀ c ∈ s.comments, c.span.Sound source
  faults : ∀ f ∈ s.faults, f.span.Sound source

structure Yields (source : List Char) (t : Spanned Token) (s : Scanner) : Prop where
  scanner : s.Sound source
  span : t.span.Sound source
  spells : ∀ sym, t.val = .symbol sym → t.span.Spells source sym.text.toList

section
variable {source : List Char}

theorem At.border {rest : List Char} {offset : Nat} (h : At source rest offset) :
    Text.IsBorder source offset := by
  obtain ⟨before, hsource, hoffset⟩ := h
  exact ⟨before, rest, hsource, hoffset⟩

theorem At.advance {taken rest : List Char} {offset : Nat} (h : At source (taken ++ rest) offset) :
    At source rest (offset + byteLength taken) := by
  obtain ⟨before, hsource, hoffset⟩ := h
  exact ⟨before ++ taken, by rw [hsource, List.append_assoc], by rw [byteLength_append, hoffset]⟩

theorem At.tail {c : Char} {rest : List Char} {offset : Nat} (h : At source (c :: rest) offset) :
    At source rest (offset + c.utf8Size) := by
  have hcut : At source ([c] ++ rest) offset := h
  exact hcut.advance

theorem Sound.advance {s : Scanner} (h : s.Sound source) {taken rest : List Char}
    (htaken : taken ++ rest = s.rest) : (s.advance taken rest).Sound source :=
  ⟨(htaken ▸ h.place).advance, h.comments, h.faults⟩

theorem sound_ofText (source : List Char) : (ofText source).Sound source :=
  ⟨⟨[], rfl, rfl⟩, List.forall_mem_nil _, List.forall_mem_nil _⟩

end

section
variable {source : List Char} (hsource : byteLength source < UInt32.size)
include hsource

theorem Sound.setAside {s : Scanner} (h : s.Sound source) {c : Comment} (hc : comment? s.rest = some c) :
    (s.setAside c).Sound source := by
  have hnext := h.advance (append_of_comment? hc)
  have hspan : (Span.ofOffsets s.offset (s.advance c.taken c.rest).offset).Sound source :=
    Span.sound_ofOffsets hsource h.place.border hnext.place.border (Nat.le_add_right ..)
  refine ⟨hnext.place, ?_, ?_⟩
  · exact List.forall_mem_append.2 ⟨h.comments, List.forall_mem_singleton.2 hspan⟩
  · simp only [Scanner.setAside]
    split
    · exact h.faults
    · exact List.forall_mem_append.2 ⟨h.faults, List.forall_mem_singleton.2 hspan⟩

theorem Sound.skipTrivia {s : Scanner} (h : s.Sound source) : s.skipTrivia.Sound source := by
  fun_induction Scanner.skipTrivia s with
  | case1 s _ => exact h.advance (cutWhile_append isSpace s.rest)
  | case2 s c hc ih => exact ih ((h.advance (cutWhile_append isSpace s.rest)).setAside hsource hc)

theorem sound_scriptString {quote : Char} {start : Nat} {cs : List Char} {offset : Nat}
    (hstart : Text.IsBorder source start) (hle : start ≤ offset) (h : At source cs offset) :
    At source (scriptString quote start cs offset).rest (scriptString quote start cs offset).offset ∧
      ∀ f ∈ (scriptString quote start cs offset).faults, f.span.Sound source := by
  have escaped {offset : Nat} {r : List Char} (h : At source ('\\' :: r) offset) :
      At source (escape r).rest (offset + 1 + byteLength (escape r).taken) := by
    have htail : At source r (offset + 1) := h.tail
    rw [← escape_append r] at htail
    exact htail.advance
  fun_induction scriptString quote start cs offset with
  | case1 offset =>
    exact ⟨h, List.forall_mem_singleton.2 (Span.sound_ofOffsets hsource hstart h.border hle)⟩
  | case2 offset r => exact ⟨h.tail, List.forall_mem_nil _⟩
  | case3 offset r =>
    have htail : At source r (offset + 1) := h.tail
    exact ⟨htail, List.forall_mem_singleton.2
      (Span.sound_ofOffsets hsource hstart htail.border (Nat.le_succ_of_le hle))⟩
  | case4 offset r _ _ e next q _ ih => exact ih (by omega) (escaped h)
  | case5 offset r _ _ e next q _ _ ih => exact ih (by omega) (escaped h)
  | case6 offset r _ _ e next q _ ih =>
    have hescape := escaped h
    obtain ⟨hrest, hfaults⟩ := ih (by omega) hescape
    refine ⟨hrest, List.forall_mem_cons.2 ⟨?_, hfaults⟩⟩
    exact Span.sound_ofOffsets hsource h.border hescape.border (by omega)
  | case7 offset c r _ _ _ q ih => exact ih (by omega) h.tail

theorem sound_tagString {quote : Char} (hquote : quote.utf8Size = 1) {start : Nat} {cs : List Char}
    {offset : Nat} (hstart : Text.IsBorder source start) (hle : start ≤ offset)
    (h : At source cs offset) :
    At source (tagString quote start cs offset).rest (tagString quote start cs offset).offset ∧
      ∀ f ∈ (tagString quote start cs offset).faults, f.span.Sound source := by
  have hbody : At source (cutWhile (· != quote) cs).rest
      (offset + byteLength (cutWhile (· != quote) cs).taken) := by
    rw [← cutWhile_append (· != quote) cs] at h
    exact h.advance
  have hhead : ∀ c ∈ (cutWhile (· != quote) cs).rest.head?, c = quote := by
    intro c hc
    have hnot := List.head?_dropWhile_not (· != quote) cs
    rw [cutWhile, Option.mem_def] at hc
    rw [hc] at hnot
    simpa using hnot
  simp only [tagString]
  split
  · next hnil =>
    rw [hnil] at hbody
    exact ⟨hbody, List.forall_mem_singleton.2
      (Span.sound_ofOffsets hsource hstart hbody.border (by omega))⟩
  · next c r hrest =>
    obtain rfl := hhead c (by simp [hrest])
    rw [hrest] at hbody
    have htail := hbody.tail
    rw [hquote] at htail
    exact ⟨htail, List.forall_mem_nil _⟩

theorem yields_emit {s t : Scanner} {token : Token} (hs : s.Sound source) (ht : t.Sound source)
    (hle : s.offset ≤ t.offset) (hspells : ∀ sym, token = .symbol sym →
      (Span.ofOffsets s.offset t.offset).Spells source sym.text.toList) :
    Yields source (s.emit t token).1 (s.emit t token).2 :=
  ⟨ht, Span.sound_ofOffsets hsource hs.place.border ht.place.border hle, hspells⟩

theorem yields_quoted {s : Scanner} {q : Quoted} (hs : s.Sound source) (hle : s.offset ≤ q.offset)
    (hq : At source q.rest q.offset ∧ ∀ f ∈ q.faults, f.span.Sound source) :
    Yields source (s.quoted q).1 (s.quoted q).2 :=
  yields_emit hsource hs ⟨hq.1, hs.comments, List.forall_mem_append.2 ⟨hs.faults, hq.2⟩⟩ hle (by simp)

theorem yields_symbol {s : Scanner} (hs : s.Sound source) (sym : Symbol) {rest : List Char}
    (hrest : sym.text.toList ++ rest = s.rest) :
    Yields source (s.emit (s.advance sym.text.toList rest) (.symbol sym)).1
      (s.advance sym.text.toList rest) := by
  have hnext := hs.advance hrest
  refine yields_emit hsource hs hnext (Nat.le_add_right ..) ?_
  rintro _ ⟨⟩
  obtain ⟨before, hbefore, hoffset⟩ := hs.place
  have h1 := hs.place.border.le
  have h2 := hnext.place.border.le
  have h3 : (s.advance sym.text.toList rest).offset = s.offset + byteLength sym.text.toList := rfl
  refine ⟨before, rest, by rw [hrest, hbefore], ?_, ?_⟩
  · rw [Span.lower_ofOffsets (by omega), hoffset]
  · rw [Span.lower_ofOffsets (by omega), Span.upper_ofOffsets (by omega), h3]

theorem yields_nextToken {mode : Mode} {s : Scanner} (h : s.Sound source) :
    Yields source (s.nextToken mode).1 (s.nextToken mode).2 := by
  have opened {t : Scanner} {c : Char} {r : List Char} (ht : t.Sound source) (hrest : t.rest = c :: r)
      (hq : (c = '"' || c = '\'') = true) : c.utf8Size = 1 ∧ At source r (t.offset + 1) := by
    have hsize : c.utf8Size = 1 := by
      rcases (by simpa using hq : c = '"' ∨ c = '\'') with rfl | rfl <;> rfl
    have hplace := ht.place
    rw [hrest] at hplace
    exact ⟨hsize, hsize ▸ hplace.tail⟩
  fun_induction nextToken mode s with
  | case1 s hrest =>
    have ht := h.skipTrivia hsource
    exact yields_emit hsource ht ht (Nat.le_refl _) (by simp)
  | case2 s c r hrest t hc w name =>
    have ht := h.skipTrivia hsource
    refine yields_emit hsource ht (ht.advance ?_) (Nat.le_add_right ..) ?_
    · rw [hrest]
      exact cutWhile_append ..
    · intro sym hsym
      split at hsym
      · cases hsym
      · exact absurd hsym (Token.ofWord_ne_symbol name sym)
  | case3 s c r hrest t hc hd n =>
    have ht := h.skipTrivia hsource
    refine yields_emit hsource ht (ht.advance ?_) (Nat.le_add_right ..) (by simp)
    rw [hrest]
    exact number_append _
  | case4 s c r hrest t hc hd hq hs =>
    have ht := h.skipTrivia hsource
    obtain ⟨hsize, htail⟩ := opened ht hrest hq
    have hle := Text.byteLength_le_of_suffix (scriptString_suffix c t.offset r (t.offset + 1))
    have hextent := scriptString_extent c t.offset r (t.offset + 1)
    exact yields_quoted hsource ht (by omega)
      (sound_scriptString hsource ht.place.border (Nat.le_succ _) htail)
  | case5 s c r hrest t hc hd hq hs =>
    have ht := h.skipTrivia hsource
    obtain ⟨hsize, htail⟩ := opened ht hrest hq
    have hle := Text.byteLength_le_of_suffix (tagString_suffix c t.offset r (t.offset + 1))
    have hextent := tagString_extent hsize t.offset r (t.offset + 1)
    exact yields_quoted hsource ht (by omega)
      (sound_tagString hsource hsize ht.place.border (Nat.le_succ _) htail)
  | case6 s c r hrest t hc hd hq sym rest hsym =>
    have ht := h.skipTrivia hsource
    exact yields_symbol hsource ht sym (hrest ▸ append_of_symbol? hsym)
  | case7 s c r hrest t hc hd hq hsym u ih =>
    have ht := h.skipTrivia hsource
    have hu : u.Sound source := ht.advance (by rw [hrest]; rfl)
    have hspan := Span.sound_ofOffsets hsource ht.place.border hu.place.border (Nat.le_add_right ..)
    exact ih ⟨hu.place, hu.comments,
      List.forall_mem_append.2 ⟨ht.faults, List.forall_mem_singleton.2 hspan⟩⟩

/-- Whatever is asked for, what the scanner answers with are parts of the text. -/
theorem yields_next (mode : Mode) {s : Scanner} (h : s.Sound source) :
    Yields source (s.next mode).1 (s.next mode).2 := by
  cases mode with
  | script | tag => exact yields_nextToken hsource h
  | child =>
    simp only [next]
    rw [nextChild]
    split
    · exact yields_emit hsource h h (Nat.le_refl _) (by simp)
    · next r hrest => exact yields_symbol hsource h .lt (by rw [hrest]; rfl)
    · next r hrest => exact yields_symbol hsource h .lbrace (by rw [hrest]; rfl)
    · exact yields_emit hsource h (h.advance (cutWhile_append ..)) (Nat.le_add_right ..) (by simp)

end

end Scanner
end BranchMarkup
