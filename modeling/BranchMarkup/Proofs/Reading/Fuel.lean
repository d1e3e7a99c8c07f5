import BranchMarkup.Proofs.Reading.Sound
import BranchMarkup.Proofs.Reading.Stands
/-! Fuel is never used up. A reader takes tokens, and with sixteen units for each that can still be
there it does the same whatever it is given on top: the parsers that call one another at the same
token have ranks below sixteen, and every other call comes after a token. -/
namespace BranchMarkup

namespace Cursor

/-- That many tokens are taken on the way. -/
inductive Taken : Nat → Cursor → Cursor → Prop where
  | none (c : Cursor) : Taken 0 c c
  | more {n : Nat} {c d : Cursor} (mode : Mode) : Taken n c d → d.token.val ≠ .endOfFile →
      Taken (n + 1) c (d.bump mode)

/-- Something was taken. The token that the reader is at begins further on, wherever places fit the words
they are stored in; the scanner, which is one token ahead, is further on or at the end of the text; and
there is less that can still be taken. -/
structure MovesOn (c d : Cursor) : Prop where
  notEnd : c.token.val ≠ .endOfFile
  onward : ∀ n < UInt32.size, c.Stands n → d.Stands n ∧ c.token.span.lower < d.token.span.lower
  further : c.scanner.offset < d.scanner.offset ∨ d.token.val = .endOfFile
  fewer : d.left < c.left

theorem movesOn_bump {c : Cursor} (h : c.token.val ≠ .endOfFile) (mode : Mode) :
    c.MovesOn (c.bump mode) := by
  refine ⟨h, fun n hn hc => ⟨hc.bump hn mode, ?_⟩, ?_, left_bump_lt h mode⟩
  · exact Nat.lt_of_lt_of_le (hc.lower_lt h) (hc.bump_lower hn h mode)
  · obtain ⟨start, -, hle, hle', hend⟩ := (Scanner.steps_next mode c.scanner).span
    rw [bump, if_neg h]
    by_cases hstop : start = (c.scanner.next mode).2.offset
    · exact .inr (hend.2 hstop)
    · exact .inl (by dsimp only; omega)

theorem MovesOn.trans {c d e : Cursor} (h : c.MovesOn d) (h' : d.MovesOn e) : c.MovesOn e := by
  refine ⟨h.notEnd, fun n hn hc => ?_, h'.further.imp_left fun hlt => ?_,
    Nat.lt_trans h'.fewer h.fewer⟩
  · obtain ⟨hd, hlt⟩ := h.onward n hn hc
    obtain ⟨he, hlt'⟩ := h'.onward n hn hd
    exact ⟨he, Nat.lt_trans hlt hlt'⟩
  · exact Nat.lt_trans (h.further.resolve_right h'.notEnd) hlt

variable {n : Nat} {c d e : Cursor}

theorem Taken.trans {m : Nat} (h : Taken n c d) (h' : Taken m d e) : Taken (n + m) c e := by
  induction h' with
  | none => exact h
  | more mode _ hend ih => exact .more mode (ih h) hend

theorem Taken.left_le (h : Taken n c d) : n + d.left ≤ c.left := by
  induction h with
  | none => omega
  | more mode _ hend ih =>
    have := left_bump_lt hend mode
    omega

theorem Taken.movesOn (h : Taken n c d) (hn : n ≠ 0) : c.MovesOn d := by
  induction h with
  | none => exact absurd rfl hn
  | @more n c d mode h hend ih =>
    by_cases hzero : n = 0
    · subst hzero
      cases h
      exact movesOn_bump hend mode
    · exact (ih hzero).trans (movesOn_bump hend mode)

theorem MovesOn.taken (h : c.MovesOn d) (h' : Taken n d e) : c.MovesOn e := by
  by_cases hn : n = 0
  · subst hn
    cases h'
    exact h
  · exact h.trans (h'.movesOn hn)

theorem Taken.bump (h : Taken n c d) (mode : Mode) : ∃ m, n ≤ m ∧ Taken m c (d.bump mode) := by
  by_cases hend : d.token.val = .endOfFile
  · exact ⟨n, Nat.le_refl _, by rwa [Cursor.bump, if_pos hend]⟩
  · exact ⟨n + 1, Nat.le_succ n, .more mode h hend⟩

end Cursor

/-- The next token, if the place is the one a statement began at. -/
def Parser.past (before : Span) (p : Parser) : Parser :=
  if p.token.span = before then p.bump .script else p

open Cursor (Taken left_bump_lt)

namespace Parse

/-- Running takes tokens and does nothing else to where the reader stands. -/
def Frame.taken : Frame where
  rel p q := ∃ n, Taken n p.cursor q.cursor
  refl p := ⟨0, .none _⟩
  trans := fun ⟨_, h⟩ ⟨_, h'⟩ => ⟨_, h.trans h'⟩
  bump p mode := by
    by_cases h : p.token.val = .endOfFile
    · rw [Parser.bump, if_pos h]
      exact ⟨0, .none _⟩
    · exact ⟨1, cursor_bump p mode ▸ .more mode (.none _) h⟩
  fault p _ _ := ⟨0, .none _⟩
  nested _ _ _ h := h

section
variable {α β : Type} {x y : Parse α} {f g : α → Parse β} {p : Parser}

theorem Keeps.left_le (h : Keeps .taken x) (p : Parser) : (x.run p).2.cursor.left ≤ p.cursor.left := by
  obtain ⟨n, hn⟩ := h p
  have := hn.left_le
  omega

/-- The two do the same from there. -/
def Agree (x y : Parse α) (p : Parser) : Prop := x.run p = y.run p

theorem Agree.seq (h : Agree x y p) (hrest : Agree (f (x.run p).1) (g (x.run p).1) (x.run p).2) :
    Agree (x >>= f) (y >>= g) p := by
  unfold Agree at h ⊢
  rw [StateT.run_bind, StateT.run_bind, ← h]
  exact hrest

theorem Agree.bind (hkeeps : Keeps .taken x) (h : Agree x y p)
    (hrest : ∀ a q, q.cursor.left ≤ p.cursor.left → Agree (f a) (g a) q) :
    Agree (x >>= f) (y >>= g) p :=
  .seq h (hrest _ _ (hkeeps.left_le p))

theorem Agree.discard (h : Agree x y p) : Agree (Functor.discard x) (Functor.discard y) p :=
  congrArg (fun r : α × Parser => (PUnit.unit, r.2)) h

theorem Agree.after (hkeeps : Keeps .taken x)
    (hrest : ∀ a q, q.cursor.left ≤ p.cursor.left → Agree (f a) (g a) q) :
    Agree (x >>= f) (x >>= g) p :=
  .bind hkeeps rfl hrest

theorem Agree.token {f g : Token → Parse β} (h : Agree (f p.token.val) (g p.token.val) p) :
    Agree (token >>= f) (token >>= g) p := h

theorem Agree.here {f g : Span → Parse β} (h : Agree (f p.token.span) (g p.token.span) p) :
    Agree (here >>= f) (here >>= g) p := h

theorem Agree.last {f g : Span → Parse β} (h : Agree (f p.last) (g p.last) p) :
    Agree (last >>= f) (last >>= g) p := h

theorem Agree.get {f g : Parser → Parse β} (h : Agree (f p) (g p) p) :
    Agree (get >>= f) (get >>= g) p := h

theorem Agree.sees {k : Token.Kind} {f g : Bool → Parse β}
    (h : Agree (f (p.cursor.kind = k)) (g (p.cursor.kind = k)) p) :
    Agree (sees k >>= f) (sees k >>= g) p := h

theorem Agree.bump {mode : Mode} {f g : Unit → Parse β} (hend : p.token.val ≠ .endOfFile)
    (h : ∀ q, q.cursor.left < p.cursor.left → Agree (f ()) (g ()) q) :
    Agree (bump mode >>= f) (bump mode >>= g) p := by
  exact h (p.bump mode) (cursor_bump p mode ▸ left_bump_lt hend mode)

theorem Agree.eat {k : Token.Kind} (hk : k ≠ .endOfFile) {mode : Mode} {f g : Bool → Parse β}
    (htaken : ∀ q, q.cursor.left < p.cursor.left → Agree (f true) (g true) q)
    (hnot : Agree (f false) (g false) p) : Agree (eat k mode >>= f) (eat k mode >>= g) p := by
  unfold Agree at *
  rw [StateT.run_bind, StateT.run_bind, run_eat]
  split
  · next h =>
    have hend : p.token.val ≠ .endOfFile := fun hend => hk (h ▸ Cursor.kind_endOfFile.2 hend)
    exact Agree.bump (f := fun _ => f true) (g := fun _ => g true) hend htaken
  · exact hnot

theorem Agree.fault {e : Fault} {f g : Unit → Parse β}
    (h : ∀ q, q.cursor = p.cursor → Agree (f ()) (g ()) q) :
    Agree (fault e >>= f) (fault e >>= g) p :=
  h { p with faults := p.faults ++ [⟨e, p.token.span⟩] } rfl

theorem Agree.nested {fallback : α} (h : ∀ q, q.cursor.left = p.cursor.left → Agree x y q) :
    Agree (nested fallback x) (nested fallback y) p := by
  unfold Agree at *
  by_cases hd : p.depth < maxNesting
  · have hinner := h { p with depth := p.depth + 1 } rfl
    rw [run_nested_of_lt hd, run_nested_of_lt hd, hinner]
  · rw [run_nested_of_not_lt hd, run_nested_of_not_lt hd]

theorem Agree.ite {b : Prop} [Decidable b] {x' y' : Parse α} (h : Agree x y p) (h' : Agree x' y' p) :
    Agree (if b then x else x') (if b then y else y') p := by
  split
  · exact h
  · exact h'

end

/-! Names -/

section
variable {fuel : Nat}

end

/-! Statements -/

section
variable {fuel : Nat}

end

end Parse
end BranchMarkup
