import BranchMarkup.Proofs.Printing.Comments
import BranchMarkup.Proofs.Printing.Statement
import BranchMarkup.Proofs.Reading.Complete
import BranchMarkup.Proofs.Reading.Legible
/-! A printed program read back as a whole. Nothing but the levels can stop the reader, and it then
finds the program again. -/
namespace BranchMarkup

open Scanner (IsComment)

theorem Parse.comments_whole {name source : String} {p : Program}
    (h : Program.parse name source = .ok p) : ∀ c ∈ p.comments, IsComment c.val.toList := by
  have hfirst := Scanner.passes_next .script (Scanner.ofText source.toList)
  have hkeeps : Scanner.Passes _ (readAll source.toList).2.scanner :=
    keeps_statements Frame.comments (Program.parseFuel source.toList) (Parser.ofText source.toList)
  have hwhole := hfirst.trans hkeeps
  rw [parse_eq] at h
  split at h
  · next hfaults =>
    cases h
    simp only [Parser.allFaults, List.isEmpty_iff, List.append_eq_nil_iff] at hfaults
    exact hwhole.comments hfaults.1 (by simp [Scanner.CommentsWhole, Scanner.ofText])
  · cases h

/-! The printed text -/

theorem Print.finish_eq {s : String} (h : EndsOnce s.toList) : Print.finish s = s := by
  unfold finish
  rcases h with h | ⟨u, d, h, hd⟩
  · rw [h]
    exact (String.toList_eq_nil_iff.1 h).symm
  · have hreverse : s.toList.reverse = '\n' :: d :: u.reverse := by rw [h]; simp
    have hdrop : dropExtraBreaks ('\n' :: d :: u.reverse) = '\n' :: d :: u.reverse := by
      unfold dropExtraBreaks
      split
      · next heq =>
        cases heq
        exact absurd rfl hd
      · rfl
    rw [hreverse, hdrop]
    simp only
    rw [← hreverse, List.reverse_reverse, String.ofList_toList]

theorem endsOnce_pieces {ss : List (Spanned Statement)} {cursor : UInt32} {after : Bool}
    {gs : List (List String)} {t : List Char}
    (ht : Spells (Program.piecesFrom cursor after ss) gs t) : EndsOnce t := by
  induction ss generalizing cursor after gs t with
  | nil =>
    simp only [Program.piecesFrom, spells_trailing, spells_nil] at ht
    obtain ⟨w, _, _, _, hw, ⟨rfl, rfl⟩, rfl, rfl⟩ := ht
    rw [List.append_nil]
    exact (Print.trivia_of_writesLines hw).2
  | cons s ss ih =>
    simp only [Program.piecesFrom, spells_append, spells_leading, spells_text] at ht
    obtain ⟨l, _, _, _, -, ⟨w, _, _, _, -, ⟨u, _, _, _, -, ⟨v, hv, rfl⟩, -, rfl⟩, -, rfl⟩, -, rfl⟩ := ht
    have hend : EndsOnce (l ++ w ++ u ++ ";\n".toList) := .inr ⟨l ++ w ++ u, ';', rfl, by decide⟩
    have := hend.append (ih hv)
    rwa [List.append_assoc, List.append_assoc, List.append_assoc] at this

namespace Program

/-- The comments of a program, one list for each place at which some may be printed. -/
def groups (p : Program) : List (List String) := (Print.ofComments p.comments).taken p.pieces

theorem spells_print {p : Program} (hp : ∀ c ∈ p.comments, IsComment c.val.toList) :
    Spells p.pieces p.groups p.print.text.toList := by
  obtain ⟨t, ht, htext⟩ := Print.spells_addAll p.pieces (p := Print.ofComments p.comments) hp
  have htext : p.print.text.toList = t := htext
  rwa [htext]

theorem format_eq {p : Program} (hp : ∀ c ∈ p.comments, IsComment c.val.toList) :
    p.format = p.print.text :=
  Print.finish_eq (endsOnce_pieces (spells_print hp))

theorem spells_format {p : Program} (hp : ∀ c ∈ p.comments, IsComment c.val.toList) :
    Spells p.pieces p.groups p.format.toList := by
  rw [format_eq hp]
  exact spells_print hp

/-- What can be printed so that it can be read back. -/
structure Printable (p : Program) : Prop where
  comments : ∀ c ∈ p.comments, IsComment c.val.toList
  statements : ∀ s ∈ p.statements, s.val.Legible

theorem printable_of_parse {name source : String} {p : Program} (h : parse name source = .ok p) :
    p.Printable :=
  ⟨Parse.comments_whole h, Parse.legible_of_parse h⟩

/-- The statements of a printed text are those it was printed from, and between them the comments
stand at the places at which they were printed. -/
theorem readsBack_format {p : Program} (hp : p.Printable)
    (hlength : p.format.utf8ByteSize < UInt32.size) :
    ∃ xs d, xs.map (·.val.bare) = p.statements.map (·.val.bare) ∧
      Parse.ReadsStatements (Parser.ofText p.format.toList).cursor p.levels xs d ∧
        d.scanner.faults = [] ∧ d.scanner.comments.map (·.val) = p.groups.flatten ∧
          List.Forall₂ ((Parser.ofText p.format.toList).cursor.Slot d)
            (Piece.slots (piecesFrom 0 false xs)) p.groups := by
  rw [← Text.byteLength_toList] at hlength
  obtain ⟨xs, d, hbare, hreads, hd⟩ := @readsBack_statements (Cursor.firstPage p.format.toList) _
    hlength (Cursor.stands_ofText hlength) _ hp.statements _ _ _ (spells_format hp.comments) _
    (Cursor.before_ofText p.format.toList) _ .first rfl
  have hbegins := @Scanner.begins_end .script (by decide)
  exact ⟨xs, d, hbare, hreads, (hd false).faults_eq hbegins, (hd false).fresh hbegins,
    (hd false).slots⟩

/-- What is printed is read back as the program it was printed from, if it does not go deeper than a
reader does, and otherwise a fault says that it does. -/
theorem parse_format {p : Program} (hp : p.Printable) (hlength : p.format.utf8ByteSize < UInt32.size)
    (name : String) :
    (p.levels ≤ maxNesting → ∃ q, parse name p.format = .ok q ∧ q.name = name ∧ q.bare = p.bare) ∧
      (maxNesting < p.levels → ∃ fs, parse name p.format = .error fs ∧
        ∃ f ∈ fs, f.val = .tooDeep) := by
  obtain ⟨xs, d, hbare, hreads, hfaults, -⟩ := readsBack_format hp hlength
  constructor
  · intro hlevels
    refine ⟨⟨name, xs, d.scanner.comments⟩, ?_, rfl, hbare⟩
    exact Parse.parse_eq_ok_iff.2 ⟨p.levels, d, hreads, hlevels, rfl, hfaults⟩
  · exact fun hlevels => Parse.parse_tooDeep hreads hlevels

end Program
end BranchMarkup
