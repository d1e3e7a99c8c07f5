import BranchMarkup.Proofs.Reading.Fuel
/-! Every loop of the reader, cut into rounds. A round either leaves the loop or goes on with something
taken, so that there are no more rounds than tokens and one. -/
namespace BranchMarkup

/-- What one round of a loop comes to: its result, or where it goes on and what it adds to the result
from there. -/
inductive Round (σ α : Type) where
  | leaves (result : α)
  | goesOn (next : σ) (complete : α → α)

/-- The rest of the loop after a round. -/
def Round.proceed {σ α : Type} (again : σ → Parse α) : Round σ α → Parse α
  | leaves a => pure a
  | goesOn next complete => complete <$> again next

/-- The round goes the way of the loop if it does so after its first step. -/
theorem Round.bind_proceed {σ α β : Type} {x : Parse β} {f : β → Parse α}
    {g : β → Parse (Round σ α)} {again : σ → Parse α}
    (h : ∀ b, f b = g b >>= Round.proceed again) : x >>= f = x >>= g >>= Round.proceed again := by
  rw [bind_assoc]
  exact bind_congr h

/-- A loop with fuel, and the rounds that it consists of. -/
structure Loop (σ α : Type) where
  run : Nat → σ → Parse α
  round : Nat → σ → Parse (Round σ α)
  run_succ (fuel : Nat) (s : σ) : run (fuel + 1) s = round fuel s >>= Round.proceed (run fuel)

namespace Loop

variable {σ α : Type}

/-- No round goes on where it was. -/
def Advances (L : Loop σ α) : Prop :=
  ∀ fuel s p next complete q, (L.round fuel s).run p = (.goesOn next complete, q) →
    p.cursor.MovesOn q.cursor

/-- The loop is left of its own accord in that many rounds, and not because there is no fuel. -/
inductive Ends (L : Loop σ α) : Nat → Nat → σ → Parser → α → Parser → Prop where
  | leaves {fuel s p a q} : (L.round fuel s).run p = (.leaves a, q) → Ends L (fuel + 1) 1 s p a q
  | goesOn {fuel n s p next complete q a r} : (L.round fuel s).run p = (.goesOn next complete, q) →
      Ends L fuel n next q a r → Ends L (fuel + 1) (n + 1) s p (complete a) r

variable {L : Loop σ α}

theorem Ends.run_eq {fuel n : Nat} {s : σ} {p q : Parser} {a : α} (h : L.Ends fuel n s p a q) :
    (L.run fuel s).run p = (a, q) := by
  induction h with
  | leaves h =>
    rw [L.run_succ, StateT.run_bind, h]
    rfl
  | goesOn h _ ih =>
    rw [L.run_succ, StateT.run_bind, h]
    change (_ <$> L.run _ _).run _ = _
    rw [StateT.run_map, ih]
    rfl

theorem Advances.ends (h : L.Advances) (fuel : Nat) (s : σ) (p : Parser) (hfuel : p.cursor.left < fuel) :
    ∃ n a q, n ≤ p.cursor.left + 1 ∧ L.Ends fuel n s p a q := by
  induction fuel generalizing s p with
  | zero => omega
  | succ fuel ih =>
    rcases hround : (L.round fuel s).run p with ⟨round, q⟩
    cases round with
    | leaves a => exact ⟨1, a, q, by omega, .leaves hround⟩
    | goesOn next complete =>
      have hfewer := (h _ _ _ _ _ _ hround).fewer
      obtain ⟨n, a, r, hn, hends⟩ := ih next q (by omega)
      exact ⟨n + 1, complete a, r, by omega, .goesOn hround hends⟩

end Loop

namespace Scanner

end Scanner

open Cursor (Taken)

namespace Parse

section
variable {σ α β : Type} {c : Cursor} {p : Parser}

/-- If the round goes on, then further on than `c`. -/
def Advancing (c : Cursor) (x : Parse (Round σ α)) (p : Parser) : Prop :=
  ∀ next complete q, x.run p = (.goesOn next complete, q) → c.MovesOn q.cursor

theorem Advancing.leaves (a : α) : Advancing (σ := σ) c (pure (.leaves a)) p := by
  intro next complete q h
  cases h

theorem Advancing.of_keeps {x : Parse (Round σ α)} (hmoves : c.MovesOn p.cursor)
    (hkeeps : Keeps .taken x) : Advancing c x p := by
  intro next complete q h
  obtain ⟨n, hn⟩ := hkeeps p
  rw [h] at hn
  exact hmoves.taken hn

theorem Advancing.bind {x : Parse β} {f : β → Parse (Round σ α)} (hkeeps : Keeps .taken x)
    (h : ∀ b n q, Taken n p.cursor q.cursor → Advancing c (f b) q) : Advancing c (x >>= f) p := by
  obtain ⟨n, hn⟩ := hkeeps p
  exact h _ n _ hn

theorem Advancing.token {f : Token → Parse (Round σ α)} (h : Advancing c (f p.token.val) p) :
    Advancing c (Parse.token >>= f) p := h

theorem Advancing.here {f : Span → Parse (Round σ α)} (h : Advancing c (f p.token.span) p) :
    Advancing c (Parse.here >>= f) p := h

theorem Advancing.sees {k : Token.Kind} {f : Bool → Parse (Round σ α)}
    (h : Advancing c (f (p.cursor.kind = k)) p) : Advancing c (Parse.sees k >>= f) p := h

theorem Advancing.fault {e : Fault} {f : Unit → Parse (Round σ α)}
    (h : Advancing c (f ()) { p with faults := p.faults ++ [⟨e, p.token.span⟩] }) :
    Advancing c (Parse.fault e >>= f) p := h

theorem Advancing.ite {b : Prop} [Decidable b] {x y : Parse (Round σ α)} (hx : b → Advancing c x p)
    (hy : ¬b → Advancing c y p) : Advancing c (if b then x else y) p := by
  split
  · next h => exact hx h
  · next h => exact hy h

/-- A token is taken, and the rest of the round takes no step back. -/
theorem Advancing.bump {mode : Mode} {f : Unit → Parse (Round σ α)} {n : Nat}
    (hn : Taken n c p.cursor) (hend : p.token.val ≠ .endOfFile) (hkeeps : Keeps .taken (f ())) :
    Advancing c (Parse.bump mode >>= f) p := by
  have hmoves : c.MovesOn (p.bump mode).cursor := by
    rw [cursor_bump]
    exact (Taken.more mode hn hend).movesOn (Nat.succ_ne_zero n)
  exact Advancing.of_keeps (x := f ()) hmoves hkeeps

theorem Advancing.eat {k : Token.Kind} (hk : k ≠ .endOfFile) {mode : Mode}
    {f : Bool → Parse (Round σ α)} {n : Nat} (hn : Taken n c p.cursor) (hkeeps : Keeps .taken (f true))
    (hnot : Advancing c (f false) p) : Advancing c (Parse.eat k mode >>= f) p := by
  unfold Advancing
  rw [StateT.run_bind, run_eat]
  split
  · next h =>
    have hend : p.token.val ≠ .endOfFile := fun hend => hk (h ▸ Cursor.kind_endOfFile.2 hend)
    exact Advancing.bump (f := fun _ => f true) hn hend hkeeps
  · exact hnot

end

/-! The loops of a name and of an expression -/

def statementLoop : Loop Unit (List (Spanned Statement)) where
  run fuel _ := statements fuel
  round fuel _ := do
    if ← sees .endOfFile then return .leaves []
    else
      let before ← here
      let found ← statement? fuel
      if found.isNone then recover fuel
      if (← here) = before then bump .script
      return .goesOn () (found.toList ++ ·)
  run_succ fuel _ := by
    have next (before : Span) (found : Option (Spanned Statement)) :
        (do if (← here) = before then bump .script
            return found.toList ++ (← statements fuel)) =
        (do if (← here) = before then bump .script
            return Round.goesOn () (found.toList ++ ·)) >>=
          Round.proceed fun _ => statements fuel := by
      refine Round.bind_proceed fun place => ?_
      split <;> simp [Round.proceed]
    rw [statements]
    refine Round.bind_proceed fun ends => ?_
    split
    · simp [Round.proceed]
    · refine Round.bind_proceed fun before => ?_
      refine Round.bind_proceed fun found => ?_
      split
      · exact Round.bind_proceed fun _ => next before found
      · exact next before found

end Parse
end BranchMarkup
