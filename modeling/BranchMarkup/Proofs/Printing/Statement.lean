import BranchMarkup.Proofs.Printing.Imports
import BranchMarkup.Proofs.Printing.Tree
import BranchMarkup.Proofs.Reading.Layout
/-! Statements read back, one after another, with the comments that are printed between them. -/
namespace BranchMarkup

open Scanner (Stops Trivia symbol?)
open Parse (ReadsBody ReadsStatement ReadsStatements opensStatement)

variable {pg : Page} {gs : List (List String)} {rest : List Char}

theorem opensStatement_of_beginsExpr {k : Token.Kind} (h : Parse.beginsExpr k = true) :
    opensStatement k = false := by
  cases hk : opensStatement k with
  | false => rfl
  | true =>
    simp only [opensStatement, Bool.or_eq_true, decide_eq_true_eq] at hk
    obtain ((rfl | rfl) | rfl) | rfl := hk <;> cases h

/-- A statement is read up to the semicolon behind it. -/
theorem readsBack_body {s : Statement} (hs : s.Legible) {t : List Char} (ht : Spells s.pieces gs t)
    {c : Cursor} (hc : c.Before pg .script (t ++ ';' :: rest)) : c.Fresh pg ∧ ∃ x d,
      x.bare = s.bare ∧ ReadsBody c s.levels x d ∧ d.kind = .symbol .semicolon ∧
        d.Fresh (pg.add (Piece.slots x.pieces) gs) ∧
          (d.bump .script).Before (pg.add (Piece.slots x.pieces) gs) .script rest := by
  have hstops : Stops (';' :: rest) := stops_cons rfl (by decide)
  have close {e : Expr} (he : e.Legible) {gs : List (List String)} {t : List Char}
      (ht : Spells e.pieces gs t) {c : Cursor} (hc : c.Before pg .script (t ++ ';' :: rest)) :
      c.Fresh pg ∧ ∃ x d, x.bare = e.bare ∧ Parse.ReadsExpr c e.levels x d ∧
        d.kind = .symbol .semicolon ∧ d.Fresh (pg.add (Piece.slots x.pieces) gs) ∧
          (d.bump .script).Before (pg.add (Piece.slots x.pieces) gs) .script rest := by
    obtain ⟨hfresh, x, d, hbare, hread, hval, hlast, hnext⟩ :=
      (e.readsBack he).closed ht .nil hstops hc rfl rfl
    exact ⟨hfresh, x, d, hbare, hread, Cursor.kind_symbol.2 hval, hlast, hnext .script⟩
  cases s with
  | imports d =>
    simp only [Statement.pieces, spells_text, spells_nil] at ht
    obtain ⟨_, ⟨rfl, rfl⟩, rfl⟩ := ht
    rw [List.append_nil] at hc
    obtain ⟨hfresh, x, c', hbare, hread, hc'⟩ := readsBack_import hs hc
    obtain ⟨hval, hnext⟩ := hc'.symbol (by decide) rfl (.inl (by decide))
    refine ⟨hfresh, .imports x, c', ?_, .imports hread, Cursor.kind_symbol.2 hval, ?_, ?_⟩
    · rw [Statement.bare, Statement.bare, hbare]
    · simpa [Statement.pieces] using hc'.fresh_symbol (by decide) rfl (.inl (by decide))
    · simpa [Statement.pieces] using hnext .script
  | binding kind name init =>
    simp only [Statement.pieces, spells_text] at ht
    obtain ⟨u, hu, rfl⟩ := ht
    have hkeyword : kind.text = kind.keyword.text := by cases kind <;> rfl
    have hc : c.Before pg .script ((kind.keyword.text ++ " ").toList ++
        (name.val.toList ++ ' ' :: '=' :: ' ' :: (u ++ ';' :: rest))) := by
      simpa [hkeyword] using hc
    obtain ⟨hkind, hnext⟩ := Cursor.Before.keyword rfl hc
    obtain ⟨hident, hnext⟩ := hnext.ident hs.1 (by rintro d ⟨⟩; decide)
    obtain ⟨hval, hnext⟩ := (hnext.of_space (by decide)).symbol (by decide) rfl (.inl (by decide))
    obtain ⟨-, x, d, hbare, hread, hend⟩ := close hs.2 hu ((hnext .script).of_space (by decide))
    refine ⟨Cursor.Before.fresh_keyword rfl hc, .binding kind ⟨name.val, _⟩ x, d, ?_,
      .binding hkind hident (Cursor.kind_symbol.2 hval) hread, hend⟩
    simp [Statement.bare, hbare, Spanned.bare]
  | exportDefault e =>
    simp only [Statement.pieces, spells_text] at ht
    obtain ⟨u, hu, rfl⟩ := ht
    rw [List.append_assoc] at hc
    have hc : c.Before pg .script ("export ".toList ++ ("default ".toList ++ (u ++ ';' :: rest))) := by
      simpa using hc
    obtain ⟨hexport, hnext⟩ := Cursor.Before.keyword (k := .kwExport) rfl hc
    obtain ⟨hdefault, hnext⟩ := Cursor.Before.keyword (k := .kwDefault) rfl hnext
    obtain ⟨-, x, d, hbare, hread, hend⟩ := close hs hu hnext
    refine ⟨Cursor.Before.fresh_keyword (k := .kwExport) rfl hc, .exportDefault x, d, ?_,
      .exportDefault hexport hdefault hread, hend⟩
    rw [Statement.bare, Statement.bare, hbare]
  | expr e =>
    obtain ⟨hfresh, x, d, hbare, hread, hend⟩ := close hs ht hc
    refine ⟨hfresh, .expr x, d, ?_, .expr (opensStatement_of_beginsExpr hread.beginsExpr) hread,
      hend⟩
    rw [Statement.bare, Statement.bare, hbare]

theorem slots_piecesFrom_cons {cursor : UInt32} {after : Bool} {s : Spanned Statement}
    {ss : List (Spanned Statement)} : Piece.slots (Program.piecesFrom cursor after (s :: ss)) =
      .leadingComments cursor s.span.start :: (Piece.slots s.val.pieces ++
        Piece.slots (Program.piecesFrom s.span.stop s.val.isImport ss)) := by
  rw [Program.piecesFrom]
  split <;> simp

/-- Statements, up to the end of the text. -/
theorem readsBack_statements (hn : pg.length < UInt32.size) (hstart : pg.start.Stands pg.length)
    {ss : List (Spanned Statement)} (hss : ∀ s ∈ ss, s.val.Legible) {cursor : UInt32}
    {after : Bool} {t : List Char} (ht : Spells (Program.piecesFrom cursor after ss) gs t)
    {c : Cursor} (hc : c.Before pg .script t) {before : List (Spanned String)}
    (hgap : Cursor.Gap pg.start c before) (hbefore : before.map (·.val) = pg.passed) :
    ∃ xs d, xs.map (·.val.bare) = ss.map (·.val.bare) ∧
      ReadsStatements c (ss.foldr (fun s n => max s.val.levels n) 0) xs d ∧ ∀ after,
        d.Before (pg.add (Piece.slots (Program.piecesFrom c.last.stop after xs)) gs) .script [] := by
  induction ss generalizing pg gs cursor after t c before with
  | nil =>
    simp only [Program.piecesFrom, spells_trailing, spells_nil] at ht
    obtain ⟨w, _, ks, _, hw, ⟨rfl, rfl⟩, rfl, rfl⟩ := ht
    have hw := (Print.trivia_of_writesLines hw).1
    have hbegins := @Scanner.begins_end .script (by decide)
    have hend := hc.of_trivia (by decide) hw
    have hval := hend.val hbegins
    exact ⟨[], c, rfl, .none (Cursor.kind_endOfFile.2 hval),
      fun _ => hc.of_slot (by decide) hw (hend.fresh hbegins) hgap hbefore (.trailing hval)⟩
  | cons s ss ih =>
    rw [List.forall_mem_cons] at hss
    simp only [Program.piecesFrom, spells_append, spells_leading, spells_text] at ht
    obtain ⟨l, _, gl, _, hl, ⟨w, _, ks, _, hw, ⟨u, _, g, h, hu, ⟨v, hv, rfl⟩, rfl, rfl⟩, rfl, rfl⟩,
      rfl, rfl⟩ := ht
    have hw := (Print.trivia_of_writesLines hw).1
    obtain ⟨rfl, hbreak⟩ : gl = [] ∧ Trivia [] l := by
      split at hl
      · obtain ⟨_, ⟨rfl, rfl⟩, rfl⟩ := spells_text.1 hl
        exact ⟨rfl, .space rfl .nil⟩
      · obtain ⟨rfl, rfl⟩ := spells_nil.1 hl
        exact ⟨rfl, .nil⟩
    have hc : c.Before pg .script (w ++ (u ++ ';' :: '\n' :: v)) := hc.of_blank (by decide) hbreak
    -- The statement begins right behind the comments, so all of them belong to the place before it.
    have hfresh := (readsBack_body hss.1 hu (hc.of_trivia (by decide) hw)).1
    have hbegin := hc.of_slot (by decide) hw hfresh hgap hbefore .leading
    obtain ⟨-, x, d, hbare, hread, hsemicolon, hlast, hd⟩ := readsBack_body hss.1 hu hbegin
    have hstatement := ReadsStatement.closed hread hsemicolon
    have hlt := hstatement.left_lt
    -- The next statement begins at a place of its own, so no token is passed over for it.
    have hpast : (d.bump .script).past c.token.span = d.bump .script := by
      have hsuffix : '\n' :: v <:+ u ++ ';' :: '\n' :: v := ⟨u ++ [';'], by simp⟩
      exact if_neg (hbegin.span_ne hd rfl hsuffix hn hlt)
    have hopen : c.kind ≠ .endOfFile := by
      intro hend
      rw [hc.left_eq_zero (Cursor.kind_endOfFile.1 hend)] at hlt
      exact absurd hlt (Nat.not_lt_zero _)
    obtain ⟨hlower, hupper, -⟩ := hstatement.extent hn (hgap.leads.stands hn hstart)
    have hgap' := Cursor.Gap.bump .script (hgap.leads.trans hread.leads)
      (Parse.ne_endOfFile_of_kind hsemicolon (by decide))
    have hd := Cursor.Before.of_blank (w := ['\n']) hd (by decide) (.space rfl .nil)
    obtain ⟨xs, d', hbares, hreads, hd'⟩ :=
      @ih ((pg.add _ _).add _ _) h hn hstart hss.2 _ _ _ hv _ hd _ hgap' hlast
    refine ⟨⟨x, _⟩ :: xs, d', ?_, .more hopen hstatement (hpast.symm ▸ hreads), fun _ => ?_⟩
    · rw [List.map_cons, List.map_cons, hbares, hbare]
    · rw [slots_piecesFrom_cons, UInt32.toNat_inj.1 hlower, UInt32.toNat_inj.1 hupper]
      simpa using hd' x.isImport

end BranchMarkup
