import BranchMarkup.Printer
import BranchMarkup.Proofs.Reading.Tokens
/-! What pieces spell: their texts one after another, with comments at the places for these. Which
comments go to which place is left open, and is all that is left open. -/
namespace BranchMarkup

open Scanner (IsComment)

/-- If there is anything in it, the text ends with one line break. -/
def EndsOnce (t : List Char) : Prop := t = [] ∨ ∃ u d, t = u ++ [d, '\n'] ∧ d ≠ '\n'

theorem EndsOnce.append {t u : List Char} (ht : EndsOnce t) (hu : EndsOnce u) :
    EndsOnce (t ++ u) := by
  rcases hu with rfl | ⟨v, d, rfl, hd⟩
  · rwa [List.append_nil]
  · exact .inr ⟨t ++ v, d, (List.append_assoc ..).symm, hd⟩

/-- Comments as they are written in braces. -/
def WritesHeld (cs : List String) (t : List Char) : Prop :=
  (∀ c ∈ cs, IsComment c.toList) ∧ t = (Print.heldText cs).toList

/-- Comments as they are written on lines of their own. -/
def WritesLines (cs : List String) (t : List Char) : Prop :=
  (∀ c ∈ cs, IsComment c.toList) ∧ t = (Print.linesText cs).toList

/-- What one piece adds to the text, if these are the comments for each place in it. -/
def Piece.Writes : Piece → List (List String) → List Char → Prop
  | .text s, gs, t => gs = [] ∧ t = s.toList
  | .heldComments _, gs, t => ∃ cs, gs = [cs] ∧ WritesHeld cs t
  | .leadingComments .., gs, t | .trailingComments _, gs, t => ∃ cs, gs = [cs] ∧ WritesLines cs t
  | .opens, gs, t | .closes .., gs, t => gs = [] ∧ t = []

/-- What pieces write, with a list of comments for each place. -/
def Spells : List Piece → List (List String) → List Char → Prop
  | [], gs, t => gs = [] ∧ t = []
  | p :: ps, gs, t => ∃ u v g h, p.Writes g u ∧ Spells ps h v ∧ gs = g ++ h ∧ t = u ++ v

section
variable {ps qs : List Piece} {gs : List (List String)} {t : List Char}

theorem spells_nil : Spells [] gs t ↔ gs = [] ∧ t = [] := Iff.rfl

theorem spells_append : Spells (ps ++ qs) gs t ↔
    ∃ u v g h, Spells ps g u ∧ Spells qs h v ∧ gs = g ++ h ∧ t = u ++ v := by
  induction ps generalizing gs t with
  | nil =>
    constructor
    · exact fun h => ⟨[], t, [], gs, ⟨rfl, rfl⟩, h, rfl, rfl⟩
    · rintro ⟨_, _, _, _, ⟨rfl, rfl⟩, h, rfl, rfl⟩
      exact h
  | cons p ps ih =>
    simp only [List.cons_append, Spells, ih]
    constructor
    · rintro ⟨u, _, g, _, hu, ⟨v, w, h, k, hv, hw, rfl, rfl⟩, rfl, rfl⟩
      exact ⟨u ++ v, w, g ++ h, k, ⟨u, v, g, h, hu, hv, rfl, rfl⟩, hw, (List.append_assoc ..).symm,
        (List.append_assoc ..).symm⟩
    · rintro ⟨_, w, _, k, ⟨u, v, g, h, hu, hv, rfl, rfl⟩, hw, rfl, rfl⟩
      exact ⟨u, v ++ w, g, h ++ k, hu, ⟨v, w, h, k, hv, hw, rfl, rfl⟩, List.append_assoc ..,
        List.append_assoc ..⟩

theorem spells_text {s : String} :
    Spells (.text s :: ps) gs t ↔ ∃ u, Spells ps gs u ∧ t = s.toList ++ u := by
  constructor
  · rintro ⟨_, u, _, _, ⟨rfl, rfl⟩, hu, rfl, rfl⟩
    exact ⟨u, hu, rfl⟩
  · rintro ⟨u, hu, rfl⟩
    exact ⟨_, u, [], gs, ⟨rfl, rfl⟩, hu, rfl, rfl⟩

theorem spells_held {container : Span} : Spells (.heldComments container :: ps) gs t ↔
    ∃ w u cs h, WritesHeld cs w ∧ Spells ps h u ∧ gs = cs :: h ∧ t = w ++ u := by
  constructor
  · rintro ⟨w, u, _, h, ⟨cs, rfl, hw⟩, hu, rfl, rfl⟩
    exact ⟨w, u, cs, h, hw, hu, rfl, rfl⟩
  · rintro ⟨w, u, cs, h, hw, hu, rfl, rfl⟩
    exact ⟨w, u, [cs], h, ⟨cs, rfl, hw⟩, hu, rfl, rfl⟩

theorem spells_leading {start stop : UInt32} : Spells (.leadingComments start stop :: ps) gs t ↔
    ∃ w u cs h, WritesLines cs w ∧ Spells ps h u ∧ gs = cs :: h ∧ t = w ++ u := by
  constructor
  · rintro ⟨w, u, _, h, ⟨cs, rfl, hw⟩, hu, rfl, rfl⟩
    exact ⟨w, u, cs, h, hw, hu, rfl, rfl⟩
  · rintro ⟨w, u, cs, h, hw, hu, rfl, rfl⟩
    exact ⟨w, u, [cs], h, ⟨cs, rfl, hw⟩, hu, rfl, rfl⟩

theorem spells_trailing {start : UInt32} : Spells (.trailingComments start :: ps) gs t ↔
    ∃ w u cs h, WritesLines cs w ∧ Spells ps h u ∧ gs = cs :: h ∧ t = w ++ u :=
  @spells_leading ps gs t start start

/-- Where a node begins and ends for a map shows nowhere in the text. -/
theorem spells_marked {kind : MappingKind} {provenance : Option Provenance} :
    Spells (Piece.marked kind provenance ps) gs t ↔ Spells ps gs t := by
  have hend {p : Piece} (hp : ∀ g u, p.Writes g u ↔ g = [] ∧ u = []) {qs : List Piece}
      {gs : List (List String)} {t : List Char} : Spells (p :: qs) gs t ↔ Spells qs gs t := by
    simp only [Spells, hp]
    constructor
    · rintro ⟨_, _, _, _, ⟨rfl, rfl⟩, h, rfl, rfl⟩
      exact h
    · exact fun h => ⟨[], t, [], gs, ⟨rfl, rfl⟩, h, rfl, rfl⟩
  cases provenance with
  | none => exact Iff.rfl
  | some p =>
    rw [Piece.marked, hend fun _ _ => Iff.rfl, spells_append]
    simp only [hend (p := .closes kind p) fun _ _ => Iff.rfl, spells_nil]
    constructor
    · rintro ⟨u, _, g, _, h, ⟨rfl, rfl⟩, rfl, rfl⟩
      rwa [List.append_nil, List.append_nil]
    · exact fun h => ⟨t, [], gs, [], h, ⟨rfl, rfl⟩, (List.append_nil _).symm, (List.append_nil _).symm⟩

end

/-! Places for comments -/

namespace Piece

def isSlot : Piece → Bool
  | heldComments _ | leadingComments .. | trailingComments _ => true
  | text _ | opens | closes .. => false

def slots (ps : List Piece) : List Piece := ps.filter isSlot

@[simp] theorem slots_nil : slots [] = [] := rfl

@[simp] theorem slots_append (ps qs : List Piece) : slots (ps ++ qs) = slots ps ++ slots qs :=
  List.filter_append ..

@[simp] theorem slots_text (s : String) (ps : List Piece) : slots (text s :: ps) = slots ps := rfl

@[simp] theorem slots_held (s : Span) (ps : List Piece) :
    slots (heldComments s :: ps) = heldComments s :: slots ps := rfl

@[simp] theorem slots_leading (a b : UInt32) (ps : List Piece) :
    slots (leadingComments a b :: ps) = leadingComments a b :: slots ps := rfl

@[simp] theorem slots_trailing (a : UInt32) (ps : List Piece) :
    slots (trailingComments a :: ps) = trailingComments a :: slots ps := rfl

@[simp] theorem slots_parenthesized (needed : Bool) (ps : List Piece) :
    slots (parenthesized needed ps) = slots ps := by
  cases needed <;> simp [parenthesized]

@[simp] theorem slots_marked (kind : MappingKind) (provenance : Option Provenance)
    (ps : List Piece) : slots (marked kind provenance ps) = slots ps := by
  cases provenance <;> simp [marked, slots, isSlot]

end Piece

end BranchMarkup
