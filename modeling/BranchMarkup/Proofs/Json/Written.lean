import BranchMarkup.Proofs.Json.Scalars
/-! The two written forms are one, up to the blanks between the parts of a text. -/
namespace BranchMarkup.Json

/-- The blanks of a written form. -/
structure Spacing where
  /-- What stands before an item or member of a level, and before the bracket that closes it. -/
  margin (level : Nat) : List Char
  /-- What stands after a colon. -/
  gap : List Char
  margin_blank : ∀ level, ∀ c ∈ margin level, isBlank c = true
  gap_blank : ∀ c ∈ gap, isBlank c = true

namespace Spacing

def tight : Spacing := ⟨fun _ => [], [], nofun, nofun⟩

def wide : Spacing where
  margin := newline
  gap := [' ']
  margin_blank level := by
    intro c hc
    unfold newline at hc
    rw [List.mem_cons, List.mem_replicate] at hc
    rcases hc with rfl | ⟨-, rfl⟩ <;> rfl
  gap_blank := by simp [isBlank]

def of (indented : Bool) : Spacing := if indented then wide else tight

end Spacing

section
variable (w : Spacing)

mutual

def written (level : Nat) : Json → List Char
  | null => "null".toList
  | bool b => (if b then "true" else "false").toList
  | number n => Nat.toDigits 10 n
  | string s => quote s
  | array [] => ['[', ']']
  | array (j :: js) =>
    '[' :: (w.margin (level + 1) ++ (j.written (level + 1) ++
      (writtenItems (level + 1) js ++ (w.margin level ++ [']']))))
  | object [] => ['\x7b', '\x7d']
  | object ((k, j) :: ms) =>
    '\x7b' :: (w.margin (level + 1) ++ (quote k ++ ':' :: (w.gap ++ (j.written (level + 1) ++
      (writtenMembers (level + 1) ms ++ (w.margin level ++ ['\x7d']))))))

def writtenItems (level : Nat) : List Json → List Char
  | [] => []
  | j :: js => ',' :: (w.margin level ++ (j.written level ++ writtenItems level js))

def writtenMembers (level : Nat) : List (String × Json) → List Char
  | [] => []
  | (k, j) :: ms =>
    ',' :: (w.margin level ++ (quote k ++ ':' :: (w.gap ++ (j.written level ++
      writtenMembers level ms))))

end

end

mutual

theorem compact_eq (level : Nat) : ∀ j : Json, j.compact = j.written .tight level
  | null | bool _ | number _ | string _ | array [] | object [] => rfl
  | array (j :: js) => by
    simp only [compact, compactItems_eq (level + 1) j js, written, Spacing.tight, List.nil_append,
      List.append_assoc]
  | object ((k, j) :: ms) => by
    simp only [compact, compactMembers_eq (level + 1) k j ms, written, Spacing.tight, List.nil_append,
      List.append_assoc, List.cons_append]
termination_by j => sizeOf j

theorem compactItems_eq (level : Nat) : ∀ (j : Json) (js : List Json),
    compactItems (j :: js) = j.written .tight level ++ writtenItems .tight level js
  | j, [] => by simp only [compactItems, compact_eq level j, writtenItems, List.append_nil]
  | j, j' :: js => by
    simp only [compactItems, compact_eq level j, compactItems_eq level j' js, writtenItems,
      Spacing.tight, List.nil_append]
termination_by j js => sizeOf j + sizeOf js

theorem compactMembers_eq (level : Nat) : ∀ (k : String) (j : Json) (ms : List (String × Json)),
    compactMembers ((k, j) :: ms) =
      quote k ++ ':' :: (j.written .tight level ++ writtenMembers .tight level ms)
  | k, j, [] => by simp only [compactMembers, compact_eq level j, writtenMembers, List.append_nil]
  | k, j, (k', j') :: ms => by
    simp only [compactMembers, compact_eq level j, compactMembers_eq level k' j' ms,
      writtenMembers, Spacing.tight, List.nil_append]
termination_by _ j ms => sizeOf j + sizeOf ms

end

mutual

theorem pretty_eq (level : Nat) : ∀ j : Json, j.pretty level = j.written .wide level
  | null | bool _ | number _ | string _ | array [] | object [] => rfl
  | array (j :: js) => by
    simp only [pretty, prettyItems_eq (level + 1) j js, written, Spacing.wide, List.append_assoc]
  | object ((k, j) :: ms) => by
    simp only [pretty, prettyMembers_eq (level + 1) k j ms, written, Spacing.wide, List.append_assoc,
      List.cons_append, List.nil_append]
termination_by j => sizeOf j

theorem prettyItems_eq (level : Nat) : ∀ (j : Json) (js : List Json),
    prettyItems level (j :: js) = j.written .wide level ++ writtenItems .wide level js
  | j, [] => by simp only [prettyItems, pretty_eq level j, writtenItems, List.append_nil]
  | j, j' :: js => by
    simp only [prettyItems, pretty_eq level j, prettyItems_eq level j' js, writtenItems,
      Spacing.wide]
termination_by j js => sizeOf j + sizeOf js

theorem prettyMembers_eq (level : Nat) : ∀ (k : String) (j : Json) (ms : List (String × Json)),
    prettyMembers level ((k, j) :: ms) =
      quote k ++ ':' :: ' ' :: (j.written .wide level ++ writtenMembers .wide level ms)
  | k, j, [] => by simp only [prettyMembers, pretty_eq level j, writtenMembers, List.append_nil]
  | k, j, (k', j') :: ms => by
    simp only [prettyMembers, pretty_eq level j, prettyMembers_eq level k' j' ms, writtenMembers,
      Spacing.wide, List.cons_append, List.nil_append]
termination_by _ j ms => sizeOf j + sizeOf ms

end

theorem toList_text (indented : Bool) (j : Json) :
    (j.text indented).toList = j.written (.of indented) 0 := by
  unfold text Spacing.of
  rw [String.toList_ofList]
  cases indented with
  | true => exact pretty_eq 0 j
  | false => exact compact_eq 0 j

/-! How deep lists and objects stand in each other -/

mutual

/-- How many lists and objects are open at a time, at most. -/
def depth : Json → Nat
  | array items => depthItems items + 1
  | object members => depthMembers members + 1
  | _ => 0

def depthItems : List Json → Nat
  | [] => 0
  | j :: js => max j.depth (depthItems js)

def depthMembers : List (String × Json) → Nat
  | [] => 0
  | (_, j) :: ms => max j.depth (depthMembers ms)

end

end BranchMarkup.Json
