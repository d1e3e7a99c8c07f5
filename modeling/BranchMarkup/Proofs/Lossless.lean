import BranchMarkup.Proofs.Reading.Lexemes
import BranchMarkup.Proofs.Reading.Loops
/-! Cutting a text loses no byte and repeats none. The tokens that are taken of a text that can be read,
and the comments in it, stand in order, and between them are blanks only, none of them in raw text. -/
namespace BranchMarkup

open Text (byteLength)

/-! Asking as it should -/

namespace Parse

/-- A reader before a statement, with enough fuel for what is left. -/
structure Ready (fuel : Nat) (p : Parser) : Prop where
  fuel : 16 * p.cursor.left + 9 ≤ fuel
  depth : p.depth = 0
  faults : p.faults = []
  cut : p.cursor.Cut .script

theorem Ready.suits {fuel : Nat} {p : Parser} (h : Ready fuel p) : Suits .script p :=
  suits_of_ne_text (by decide) fun raw hraw => by
    obtain ⟨_, hcut⟩ := h.cut.cuts hraw (by simp)
    cases hcut.mode_of_text

theorem Ready.bump {fuel : Nat} {p : Parser} (h : Ready fuel p) : Ready fuel (p.bump .script) where
  fuel := by
    have := p.cursor.left_bump_le .script
    have := h.fuel
    rw [cursor_bump]
    omega
  depth := (depth_bump ..).trans h.depth
  faults := (faults_bump ..).trans h.faults
  cut := cut_bump p .script

theorem Ready.statement {fuel : Nat} {p : Parser} (h : Ready (fuel + 1) p)
    (hclean : ((statement? fuel).run p).2.faults = p.faults) :
    Ready fuel ((statement? fuel).run p).2 := by
  have hfuel := h.fuel
  have hfaults := hclean.trans h.faults
  obtain ⟨k, ⟨s', hs', hreads⟩, -, hdepth⟩ :=
    (finds_statement? fuel p).2 hfaults (by omega) (by rw [h.depth]; exact Nat.zero_le _)
  have hleft := hreads.left_lt
  exact ⟨by omega, hdepth.trans h.depth, hfaults, (hreads.legible h.cut).2⟩

end Parse

/-! What the lexemes of a text are like -/

/-- The lexemes of a text: parts of it that are not empty, as they are written, in order and none in
another. What is in none of them is blank, and not where it would be raw text: what is asked for between
tags begins right where the lexeme before it ends. Raw text is all there is between a tag or brace
and the next. -/
structure Lexed (source : List Char) (ls : List Lexeme) : Prop where
  stands : ∀ l ∈ ls, l.text ≠ [] ∧
    ∃ before after, source = before ++ (l.text ++ after) ∧ l.start = byteLength before
  written : ∀ l ∈ ls, ∀ mode t, l.token = some (mode, t) → t.Written mode l.text
  ordered : ls.Pairwise fun l m => l.stop ≤ m.start
  covered : ∀ before c after, source = before ++ c :: after → Scanner.isSpace c = true ∨
    ∃ l ∈ ls, l.start ≤ byteLength before ∧ byteLength before + c.utf8Size ≤ l.stop
  tight : ∀ before l m after, ls = before ++ l :: m :: after → m.IsChild → l.stop = m.start
  framed : ∀ before l after, ls = before ++ l :: after → ∀ mode raw, l.token = some (mode, .text raw) →
    l.text = raw.toList ∧ (∃ b ∈ before.getLast?, b.Closes ∧ b.stop = l.start) ∧
      ∃ m ∈ after.head?, m.Opens ∧ l.stop = m.start

theorem Lexed.spans {source : List Char} {ls : List Lexeme} (h : Lexed source ls)
    (hlength : byteLength source < UInt32.size) :
    (ls.map Lexeme.span).Pairwise (fun s t => s.upper ≤ t.lower) ∧
      ∀ l ∈ ls, l.span.lower < l.span.upper ∧ l.span.Spells source l.text := by
  have hbounds : ∀ l ∈ ls, l.span.lower = l.start ∧ l.span.upper = l.stop := by
    intro l hl
    obtain ⟨-, before, after, hsource, hstart⟩ := h.stands l hl
    have hstop : l.stop = l.start + byteLength l.text := rfl
    rw [hsource, Text.byteLength_append, Text.byteLength_append] at hlength
    exact ⟨Span.lower_ofOffsets (by omega), Span.upper_ofOffsets (by omega)⟩
  refine ⟨?_, fun l hl => ?_⟩
  · rw [List.pairwise_map]
    refine h.ordered.imp_of_mem fun hl hm hle => ?_
    rwa [(hbounds _ hl).2, (hbounds _ hm).1]
  · obtain ⟨hne, before, after, hsource, hstart⟩ := h.stands l hl
    obtain ⟨hlower, hupper⟩ := hbounds l hl
    have hspells : l.span.Spells source l.text :=
      ⟨before, after, hsource, hlower.trans hstart, by rw [hupper, hlower]; rfl⟩
    exact ⟨hspells.lower_lt hne, hspells⟩

namespace Parse

end Parse

namespace Program

end Program
end BranchMarkup
