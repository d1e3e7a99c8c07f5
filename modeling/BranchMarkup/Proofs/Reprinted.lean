import BranchMarkup.Proofs.Beyond
import BranchMarkup.Proofs.Printing.Bare
import BranchMarkup.Proofs.Printing.Program
import BranchMarkup.Proofs.Printing.Slots
/-! A printed text, read and printed again, comes out as it was. The comments in it are those that
have a place in the tree it was printed from, and each is found at the same place again. -/
namespace BranchMarkup

open BranchMarkup.Span (InOrder)
open Piece (InTurn)

/-! What a place picks that lies between two tokens -/

section
variable {s k : Span} {t : Spanned Token} {piece : Piece} (h : piece.Between s t)
  (hst : s.upper ≤ t.span.lower) (hk : k.lower < k.upper)
include h hst hk

theorem Piece.Between.picks (hs : s.lower ≤ s.upper) (ht : t.span.lower ≤ t.span.upper)
    (hbehind : s.upper ≤ k.lower) (hbefore : k.upper ≤ t.span.lower) : piece.picks k = true := by
  have hstop : s.stop.toNat = s.upper := rfl
  have hstart : t.span.start.toNat = t.span.lower := rfl
  cases h with
  | held =>
    rw [picks_held, Span.lower_merge, Span.upper_merge]
    omega
  | leading =>
    rw [picks_leading]
    omega
  | trailing => exact picks_trailing.2 hbehind

theorem Piece.Between.not_picks_before (hs : s.lower ≤ s.upper) (hbefore : k.upper ≤ s.lower) :
    ¬ piece.picks k = true := by
  have hstop : s.stop.toNat = s.upper := rfl
  cases h with
  | held =>
    rw [picks_held, Span.lower_merge]
    omega
  | leading =>
    rw [picks_leading]
    omega
  | trailing =>
    rw [picks_trailing]
    omega

theorem Piece.Between.not_picks_behind (ht : t.span.lower ≤ t.span.upper)
    (hopen : t.val ≠ .endOfFile) (hbehind : t.span.upper ≤ k.lower) : ¬ piece.picks k = true := by
  have hstart : t.span.start.toNat = t.span.lower := rfl
  cases h with
  | held =>
    rw [picks_held, Span.upper_merge]
    omega
  | leading =>
    rw [picks_leading]
    omega
  | trailing hend => exact absurd hend hopen

end

/-! Comments at a place that was passed -/

namespace Cursor

theorem Leads.eq_of_endOfFile {c d : Cursor} (h : c.Leads d) (hc : c.token.val = .endOfFile) :
    d = c := by
  induction h with
  | refl => rfl
  | bump mode _ ih => rw [ih, Cursor.bump, if_pos hc]

section
variable {source : List Char} (hn : Text.byteLength source < UInt32.size)
include hn

theorem Leads.gathers_ofText {c : Cursor} (h : (Parser.ofText source).cursor.Leads c) :
    InOrder 0 c.token.span.lower (c.scanner.comments.map (·.span)) := by
  have hextent : (Scanner.ofText source).extent < UInt32.size := by
    rwa [Scanner.extent, Scanner.ofText, Nat.zero_add]
  obtain ⟨first, hfirst, hinOrder⟩ := Scanner.gathers_next .script (Scanner.ofText source) hextent
  rcases h.gathers hn (stands_ofText hn) with rfl | ⟨new, hnew, hinOrder'⟩
  · exact hfirst ▸ hinOrder
  · have hlower := (stands_ofText hn).lower_le
    have hfirst : (Parser.ofText source).cursor.scanner.comments = first := hfirst
    rw [hnew, hfirst, List.map_append]
    exact hinOrder.append (hinOrder'.mono hlower (Nat.le_refl _))

theorem Gap.gathers {c : Cursor} {before : List (Spanned String)}
    (h : Gap (Parser.ofText source).cursor c before) : ∃ here,
      c.scanner.comments = before ++ here ∧ InOrder 0 c.last.lower (before.map (·.span)) ∧
        c.last.lower ≤ c.last.upper ∧
          InOrder c.last.upper c.token.span.lower (here.map (·.span)) := by
  cases h with
  | first => exact ⟨_, rfl, Nat.le_refl _, Nat.le_refl _, Leads.gathers_ofText hn .refl⟩
  | @bump c mode hleads hopen =>
    have hc := hleads.stands hn (stands_ofText hn)
    obtain ⟨here, hcomments, hinOrder⟩ := hc.gathers_bump hn hopen mode
    rw [last_bump hopen]
    exact ⟨here, hcomments, hleads.gathers_ofText hn, hc.lower_le, hinOrder⟩

omit hn in
theorem Leads.later {n : Nat} (hn : n < UInt32.size) {c d : Cursor} (h : c.Leads d)
    (hc : c.Stands n) : ∃ later, d.scanner.comments = c.scanner.comments ++ later ∧ ∀ k ∈ later,
      c.token.val ≠ .endOfFile ∧ c.token.span.upper ≤ k.span.lower ∧ k.span.lower < k.span.upper := by
  by_cases hend : c.token.val = .endOfFile
  · rw [h.eq_of_endOfFile hend]
    exact ⟨[], (List.append_nil _).symm, nofun⟩
  · rcases h.gathers hn hc with rfl | ⟨later, hlater, hinOrder⟩
    · exact ⟨[], (List.append_nil _).symm, nofun⟩
    · refine ⟨later, hlater, fun k hk => ⟨hend, ?_⟩⟩
      obtain ⟨hlower, hlt, -⟩ := hinOrder.bounds _ (List.mem_map_of_mem hk)
      exact ⟨hlower, hlt⟩

theorem Slot.filter_eq {d : Cursor} {piece : Piece} {cs : List String}
    (h : Slot (Parser.ofText source).cursor d piece cs) :
    (d.scanner.comments.filter (piece.picks ·.span)).map (·.val) = cs := by
  obtain ⟨c, before, hgap, hleads, hpiece, hvals⟩ := h
  have hc := hgap.leads.stands hn (stands_ofText hn)
  obtain ⟨here, hcomments, hbefore, hlast, hhere⟩ := hgap.gathers hn
  obtain ⟨later, hlater, hlater'⟩ := hleads.later hn hc
  have hnone : ∀ k ∈ before, ¬ piece.picks k.span = true := by
    intro k hk
    obtain ⟨-, hlt, hle⟩ := hbefore.bounds _ (List.mem_map_of_mem hk)
    exact hpiece.not_picks_before hc.last_le hlt hlast hle
  have hall : ∀ k ∈ here, piece.picks k.span = true := by
    intro k hk
    obtain ⟨hlower, hlt, hle⟩ := hhere.bounds _ (List.mem_map_of_mem hk)
    exact hpiece.picks hc.last_le hlt hlast hc.lower_le hlower hle
  have hbehind : ∀ k ∈ later, ¬ piece.picks k.span = true := by
    intro k hk
    obtain ⟨hopen, hlower, hlt⟩ := hlater' k hk
    exact hpiece.not_picks_behind hc.last_le hlt hc.lower_le hopen hlower
  rw [hlater, hcomments, List.filter_append, List.filter_append, List.filter_eq_nil_iff.2 hnone,
    List.filter_eq_self.2 hall, List.filter_eq_nil_iff.2 hbehind, List.nil_append, List.append_nil]
  rw [hcomments, List.map_append] at hvals
  exact List.append_cancel_left hvals

end
end Cursor

/-! Comments that have a place -/

section
variable {a b : Nat} {ss : List (Spanned Statement)} {cs : List (Spanned String)}

theorem Laid.inOrder (h : Laid b a ss cs) : InOrder a b (cs.map (·.span)) := by
  induction ss generalizing a cs with
  | nil => exact h
  | cons s ss ih =>
    obtain ⟨-, -, before, inside, after, rfl, hbefore, hinside, hss⟩ := h
    rw [List.map_append, List.map_append]
    exact hbefore.append (hinside.append (ih hss))

theorem Laid.le_emptyContainer (h : Laid b a ss cs) :
    ∀ s ∈ ss, ∀ e ∈ s.val.emptyContainers, a ≤ e.lower := by
  intro s hs e he
  obtain ⟨hholds, hle, hlt⟩ := h.holds s hs
  exact hle.trans ((hholds.inOrder_emptyContainers hlt).bounds e he).1

end

def Span.apart (s t : Span) : Bool := s.stop ≤ t.start || t.stop ≤ s.start

theorem Span.apart_iff {s t : Span} : s.apart t = true ↔ s.upper ≤ t.lower ∨ t.upper ≤ s.lower := by
  simp [apart, lower, upper, UInt32.le_iff_toNat_le]

/-- A comment is printed if it stands before a statement or behind all of them, or in an empty
container. -/
theorem Laid.picked_iff {b : Nat} {a : UInt32} {ss : List (Spanned Statement)}
    {cs : List (Spanned String)} (h : Laid b a.toNat ss cs) (after : Bool) : ∀ c ∈ cs,
      (∃ x ∈ Piece.slots (Program.piecesFrom a after ss), x.picks c.span = true) ↔
        (∀ s ∈ ss, c.span.apart s.span = true) ∨
          ∃ s ∈ ss, ∃ e ∈ s.val.emptyContainers, e.encloses c.span = true := by
  induction ss generalizing a cs after with
  | nil =>
    intro c hc
    have hlower := (InOrder.bounds h c.span (List.mem_map_of_mem hc)).1
    have hpick := Piece.picks_trailing.2 hlower
    exact iff_of_true ⟨_, List.mem_singleton_self _, hpick⟩ (.inl nofun)
  | cons s ss ih =>
    intro c hc
    obtain ⟨hs, hlt, before, inside, rest, rfl, hbefore, hinside, hss⟩ := h
    have hheld := (hs.inOrder_emptyContainers hlt).bounds
    rw [slots_piecesFrom_cons, Statement.slots_pieces]
    simp only [List.mem_cons, List.mem_append, List.mem_map, or_and_right, exists_or,
      exists_eq_left, forall_eq_or_imp, exists_exists_and_eq_and, Piece.picks_leading,
      Piece.picks_held, ← Span.encloses_iff]
    have hstart : s.span.start.toNat = s.span.lower := rfl
    rw [List.mem_append, List.mem_append] at hc
    rcases hc with hc | hc | hc
    · obtain ⟨hlower, hlt', hupper⟩ := hbefore.bounds _ (List.mem_map_of_mem hc)
      refine iff_of_true (.inl ⟨hlower, by omega⟩) (.inl ⟨Span.apart_iff.2 (.inl hupper), ?_⟩)
      intro t ht
      have hle := (hss.holds t ht).2.1
      exact Span.apart_iff.2 (.inl (by omega))
    · obtain ⟨hlower, hlt', hupper⟩ := hinside.bounds _ (List.mem_map_of_mem hc)
      have hleading : ¬ (a.toNat ≤ c.span.lower ∧ c.span.lower < s.span.start.toNat) := by omega
      have hapart : ¬ c.span.apart s.span = true := by
        rw [Span.apart_iff]
        omega
      -- Nothing that follows the statement reaches back into it.
      have hplaces : ¬ ∃ x, x ∈ Piece.slots (Program.piecesFrom s.span.stop s.val.isImport ss) ∧
          x.picks c.span = true := by
        rintro ⟨x, hx, hpick⟩
        have hle := ((hss.inTurn _).bounds x hx c.span hlt' hpick).1
        have hstop : s.span.stop.toNat = s.span.upper := rfl
        omega
      have hheld' : ¬ ∃ t, t ∈ ss ∧ ∃ e, e ∈ t.val.emptyContainers ∧ e.encloses c.span = true := by
        rintro ⟨t, ht, e, he, hin⟩
        have hle := hss.le_emptyContainer t ht e he
        have := (Span.encloses_iff.1 hin).1
        omega
      simp only [hleading, hapart, hplaces, hheld', Bool.false_eq_true, false_or, or_false, false_and]
    · obtain ⟨hlower, hlt', -⟩ := hss.inOrder.bounds _ (List.mem_map_of_mem hc)
      have hleading : ¬ (a.toNat ≤ c.span.lower ∧ c.span.lower < s.span.start.toNat) := by omega
      have hapart : c.span.apart s.span = true := Span.apart_iff.2 (.inr hlower)
      have hheld' : ¬ ∃ e, e ∈ s.val.emptyContainers ∧ e.encloses c.span = true := by
        rintro ⟨e, he, hin⟩
        have hle := (hheld e he).2.2
        have := (Span.encloses_iff.1 hin).2
        omega
      simp only [hleading, hapart, hheld', false_or, true_and]
      exact ih hss _ c hc

namespace Program

/-- What stands there is outside all statements, or in braces that have no expression in them. -/
def keeps (p : Program) (s : Span) : Bool :=
  p.statements.all (fun t => s.apart t.span) ||
    p.statements.any fun t => t.val.emptyContainers.any (·.encloses s)

variable {file name text : String} {p q : Program}

theorem keeps_iff {s : Span} : p.keeps s = true ↔
    (∀ t ∈ p.statements, s.apart t.span = true) ∨
      ∃ t ∈ p.statements, ∃ e ∈ t.val.emptyContainers, e.encloses s = true := by
  rw [keeps, Bool.or_eq_true, List.all_eq_true, List.any_eq_true]
  simp only [List.any_eq_true]

theorem inTurn_of_parse (h : parse file text = .ok p) (hlength : text.utf8ByteSize < UInt32.size) :
    InTurn 0 UInt32.size (Piece.slots p.pieces) :=
  Laid.inTurn (a := 0) (laid_of_parse h hlength) false

/-- At each place of a program that was read the comments are printed that it picks. -/
theorem groups_of_parse (h : parse file text = .ok p) (hlength : text.utf8ByteSize < UInt32.size) :
    p.groups = (Piece.slots p.pieces).map fun x =>
      (p.comments.filter (x.picks ·.span)).map (·.val) := by
  refine Print.taken_eq (inTurn_of_parse h hlength) fun c hc => ?_
  exact ((laid_of_parse h hlength).inOrder.bounds _ (List.mem_map_of_mem hc)).2.1

theorem flatten_groups (h : parse file text = .ok p) (hlength : text.utf8ByteSize < UInt32.size) :
    p.groups.flatten = (p.comments.filter (p.keeps ·.span)).map (·.val) := by
  have hlaid := laid_of_parse h hlength
  have hspans : ∀ c ∈ p.comments, c.span.lower < c.span.upper := fun c hc =>
    (hlaid.inOrder.bounds _ (List.mem_map_of_mem hc)).2.1
  have hpairwise := hlaid.inOrder.pairwise
  rw [List.pairwise_map] at hpairwise
  have hrising : p.comments.Pairwise (·.span.lower < ·.span.lower) :=
    hpairwise.imp_of_mem fun hc _ hle => Nat.lt_of_lt_of_le (hspans _ hc) hle
  have hpicked : p.comments.filter (p.keeps ·.span) =
      p.comments.filter fun c => (Piece.slots p.pieces).any (·.picks c.span) := by
    refine List.filter_congr fun c hc => ?_
    rw [Bool.eq_iff_iff, keeps_iff, List.any_eq_true]
    exact (Laid.picked_iff (a := 0) hlaid false c hc).symm
  rw [groups_of_parse h hlength, hpicked, ← flatMap_picks (inTurn_of_parse h hlength) hspans hrising,
    List.map_flatMap, List.flatMap_def]

/-- A printed text that is read is printed as it is, and the comments in it are those of the program
it was printed from that stand outside all statements or in an empty container. Places are bytes
counted in 32 bits, and a comment that is farther behind is taken for one that comes first. -/
theorem format_of_parse_format (hp : parse file text = .ok p) (hq : parse name p.format = .ok q)
    (hlength : text.utf8ByteSize < UInt32.size)
    (hlength' : p.format.utf8ByteSize < UInt32.size) : q.format = p.format ∧
      q.comments.map (·.val) = (p.comments.filter (p.keeps ·.span)).map (·.val) := by
  have hprintable := printable_of_parse hp
  obtain ⟨xs, d, hbare, hreads, hfaults, hcomments, hslots⟩ := readsBack_format hprintable hlength'
  have hlevels : p.levels ≤ maxNesting := by
    by_contra hdeep
    obtain ⟨fs, hfs, -⟩ := (parse_format hprintable hlength' name).2 (Nat.lt_of_not_le hdeep)
    rw [hq] at hfs
    cases hfs
  have hread : parse name p.format = .ok ⟨name, xs, d.scanner.comments⟩ :=
    Parse.parse_eq_ok_iff.2 ⟨p.levels, d, hreads, hlevels, rfl, hfaults⟩
  obtain rfl : q = ⟨name, xs, d.scanner.comments⟩ := by
    rw [hq] at hread
    exact Except.ok.inj hread
  -- At each place the same comments are found again, and no more of a place shows in the text.
  have hgroups : groups ⟨name, xs, d.scanner.comments⟩ = p.groups := by
    rw [groups_of_parse hq hlength', ← List.forall₂_eq_eq_eq, List.forall₂_map_left_iff]
    rw [← Text.byteLength_toList] at hlength'
    exact hslots.imp fun _ _ hslot => hslot.filter_eq hlength'
  constructor
  · have hspells := (spells_format (printable_of_parse hq).comments).bare
    rw [hgroups, pieces, bare_piecesFrom hbare 0 0 false] at hspells
    exact String.toList_inj.1 (hspells.unique (spells_format hprintable.comments).bare)
  · rw [hcomments, flatten_groups hp hlength]

/-- A comment before a statement, behind one, in an empty container, elsewhere in a statement, and at
the end. -/
def commentsSample : String :=
  "// a\nimport x from \"m\"; /* b */\nlet y = <p>\x7b// c\n\x7d</p> + /* d */ 1;\n/* e */"

theorem commentsSample_parse : ∃ p q, parse "a.jsx" commentsSample = .ok p ∧
    parse "a.jsx" p.format = .ok q ∧ p.format.utf8ByteSize < UInt32.size ∧
    p.comments.map (·.val) = ["// a", "/* b */", "// c", "/* d */", "/* e */"] ∧
    p.groups.flatten = ["// a", "/* b */", "// c", "/* e */"] := by
  have h : (parse "a.jsx" commentsSample).toOption.any (fun p =>
      p.print.text.utf8ByteSize < UInt32.size && p.levels ≤ maxNesting &&
        p.comments.map (·.val) = ["// a", "/* b */", "// c", "/* d */", "/* e */"] &&
          p.groups.flatten = ["// a", "/* b */", "// c", "/* e */"]) = true := by
    decide +kernel
  obtain ⟨p, hp, h⟩ := exists_ok_of_any h
  have hprintable := printable_of_parse hp
  simp only [Bool.and_eq_true, decide_eq_true_eq, ← format_eq hprintable.comments] at h
  obtain ⟨⟨⟨hlength, hlevels⟩, hcomments⟩, hgroups⟩ := h
  obtain ⟨q, hq, -⟩ := (parse_format hprintable hlength "a.jsx").1 hlevels
  exact ⟨p, q, hp, hq, hlength, hcomments, hgroups⟩

theorem format_of_parse_format_comments : ∃ p q, parse "a.jsx" commentsSample = .ok p ∧
    parse "a.jsx" p.format = .ok q ∧ q.format = p.format ∧
    p.comments.map (·.val) = ["// a", "/* b */", "// c", "/* d */", "/* e */"] ∧
    q.comments.map (·.val) = ["// a", "/* b */", "// c", "/* e */"] := by
  obtain ⟨p, q, hp, hq, hlength, hcomments, hgroups⟩ := commentsSample_parse
  have hsample : commentsSample.utf8ByteSize < UInt32.size := by decide
  obtain ⟨hformat, hkept⟩ := format_of_parse_format hp hq hsample hlength
  rw [flatten_groups hp hsample] at hgroups
  exact ⟨p, q, hp, hq, hformat, hcomments, hkept.trans hgroups⟩

/-- Beyond the bound for the text that is read comments can change places, and beyond the bound for
the printed one a comment can be lost. -/
theorem format_of_parse_format_displaced :
    (∃ p q, parse "a.jsx" (farComment (UInt32.size - 11)) = .ok p ∧
      p.format.utf8ByteSize < UInt32.size ∧ parse "a.jsx" p.format = .ok q ∧
      (p.comments.filter (p.keeps ·.span)).map (·.val) = ["/*1*/", "//2"] ∧
      q.comments.map (·.val) = ["//2", "/*1*/"]) ∧
    (quotedText '\'' (List.replicate 2147483646 '"')).utf8ByteSize < UInt32.size ∧
      ∃ p q, parse "a.jsx" (quotedText '\'' (List.replicate 2147483646 '"')) = .ok p ∧
        parse "a.jsx" p.format = .ok q ∧ q.format ≠ p.format := by
  refine ⟨?_, exists_parse_quoted rfl⟩
  have hprinted : (farProgram "a.jsx" (UInt32.size - 11)).format.utf8ByteSize < UInt32.size ∧
      (parse "a.jsx" (farProgram "a.jsx" (UInt32.size - 11)).format).toOption.any
        (fun q => q.comments.map (·.val) = ["//2", "/*1*/"]) = true := by
    rw [farProgram_eq]
    decide +kernel
  obtain ⟨hlength, hread⟩ := hprinted
  obtain ⟨q, hq, hcomments⟩ := exists_ok_of_any hread
  refine ⟨_, q, parse_farComment _ _, hlength, hq, ?_, of_decide_eq_true hcomments⟩
  rw [farProgram_eq]
  decide +kernel

end Program
end BranchMarkup
