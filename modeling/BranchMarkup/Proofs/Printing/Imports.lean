import BranchMarkup.Proofs.Printing.Expr
/-! Declarations of imports read back, in each form that has a text of its own. -/
namespace BranchMarkup

open Scanner (Stops IsWord Begins)
open Parse (ReadsSpecifier ReadsSpecifiers ReadsSource ReadsClause ReadsImport)

variable {pg : Page} {rest : List Char} {c : Cursor}

theorem Cursor.Before.keyword {k : Keyword} {w : String} (hw : w = k.text ++ " ")
    (hc : c.Before pg .script (w.toList ++ rest)) :
    c.kind = .keyword k ∧ (c.bump .script).Before pg .script rest := by
  have hbegins := begins_keyword k (stops_cons (r := rest) rfl (by decide : ' ' ≠ '.'))
  have hc : c.Before pg .script (k.text.toList ++ ' ' :: rest) := by simpa [hw] using hc
  exact ⟨hc.kind hbegins, (hc.bump hbegins (by simp) .script).of_space (by decide)⟩

theorem Cursor.Before.fresh_keyword {k : Keyword} {w : String} (hw : w = k.text ++ " ")
    (hc : c.Before pg .script (w.toList ++ rest)) : c.Fresh pg := by
  have hbegins := begins_keyword k (stops_cons (r := rest) rfl (by decide : ' ' ≠ '.'))
  have hc : c.Before pg .script (k.text.toList ++ ' ' :: rest) := by simpa [hw] using hc
  exact hc.fresh hbegins

theorem Cursor.Before.ident {name : String} (h : IsIdent name)
    (hrest : ∀ d ∈ rest.head?, Scanner.isNamePart d = false)
    (hc : c.Before pg .script (name.toList ++ rest)) :
    c.token.val = .ident name ∧ (c.bump .script).Before pg .script rest := by
  have hbegins := begins_ident h hrest
  exact ⟨hc.val hbegins, hc.bump hbegins (by simp) .script⟩

theorem readsBack_source {s : String}
    (hc : c.Before pg .script ("from ".toList ++ ((quoteString s).toList ++ rest))) :
    ∃ x d, x.val = s ∧ ReadsSource c x d ∧ d.Before pg .script rest := by
  obtain ⟨hfrom, hnext⟩ := Cursor.Before.keyword (k := .kwFrom) rfl hc
  have hbegins := Scanner.begins_string s rest
  exact ⟨_, _, rfl, .mk hfrom (hnext.val hbegins), hnext.bump hbegins (by simp) .script⟩

/-! Names in braces -/

/-- What ends a name in braces. -/
def EndsSpecifier (rest : List Char) : Prop := ∃ r, rest = ',' :: r ∨ rest = ' ' :: '\x7d' :: r

theorem EndsSpecifier.stops (h : EndsSpecifier rest) : Stops rest := by
  obtain ⟨r, rfl | rfl⟩ := h <;> exact stops_cons rfl (by decide)

theorem EndsSpecifier.kind (h : EndsSpecifier rest) (hc : c.Before pg .script rest) :
    c.kind ≠ .keyword .kwAs := by
  obtain ⟨r, rfl | rfl⟩ := h
  · have hval := (hc.symbol (by decide) rfl (.inl (by decide))).1
    simp [Cursor.kind, hval, Token.kind]
  · have hval := ((hc.of_space (by decide)).symbol (by decide) rfl (.inl (by decide))).1
    simp [Cursor.kind, hval, Token.kind]

theorem reads_word {w : String} (hw : IsWord .script w.toList) (hrest : Stops rest)
    (hc : c.Before pg .script (w.toList ++ rest)) :
    c.word? = some w ∧ c.kind ≠ .symbol .rbrace ∧ (c.bump .script).Before pg .script rest := by
  have hbegins := Scanner.begins_word hw fun d hd => (hrest d hd).1
  rw [String.ofList_toList] at hbegins
  have hword := word?_of_val (hc.val hbegins)
  refine ⟨hword, fun hkind => ?_, hc.bump hbegins (Token.ofWord_ne_endOfFile _) .script⟩
  simp [Cursor.word?, Cursor.kind_symbol.1 hkind] at hword

theorem readsBack_specifier {s : ImportSpecifier} (hs : s.Legible) (hrest : EndsSpecifier rest)
    (hc : c.Before pg .script (s.text.toList ++ rest)) : c.kind ≠ .symbol .rbrace ∧
      ∃ x d, x.bare = s.bare ∧ ReadsSpecifier c x d ∧ d.Before pg .script rest := by
  obtain ⟨himported, hlocal⟩ := hs
  have plain (htext : s.text = s.imported.val) (hbare : s.bare = ⟨s.imported.bare, none⟩) :
      c.kind ≠ .symbol .rbrace ∧
        ∃ x d, x.bare = s.bare ∧ ReadsSpecifier c x d ∧ d.Before pg .script rest := by
    rw [htext] at hc
    obtain ⟨hword, hopen, hnext⟩ := reads_word himported hrest.stops hc
    exact ⟨hopen, ⟨⟨s.imported.val, c.token.span⟩, none⟩, _, by rw [hbare]; rfl,
      .plain hword (hrest.kind hnext), hnext⟩
  obtain ⟨imported, localName⟩ := s
  cases localName with
  | none => exact plain rfl rfl
  | some l =>
    by_cases hl : l.val = imported.val
    · apply plain
      · simp [ImportSpecifier.text, hl]
      · simp [ImportSpecifier.bare, hl]
    · have hc : c.Before pg .script (imported.val.toList ++
          ' ' :: ("as ".toList ++ (l.val.toList ++ rest))) := by
        simpa [ImportSpecifier.text, hl] using hc
      obtain ⟨hword, hopen, hnext⟩ := reads_word himported (stops_cons rfl (by decide)) hc
      obtain ⟨has, hnext'⟩ :=
        Cursor.Before.keyword (k := .kwAs) rfl (hnext.of_space (by decide))
      obtain ⟨hident, hnext''⟩ := hnext'.ident (hlocal l rfl) fun d hd => (hrest.stops d hd).1
      refine ⟨hopen, ⟨⟨imported.val, c.token.span⟩, some ⟨l.val, _⟩⟩, _, ?_,
        .renamed hword has hident, hnext''⟩
      simp [ImportSpecifier.bare, Spanned.bare, Option.filter, hl]

theorem readsBack_specifiers {ss : List ImportSpecifier} (hss : ∀ s ∈ ss, s.Legible) (hne : ss ≠ [])
    (hc : c.Before pg .script
      ((", ".intercalate (ss.map ImportSpecifier.text)).toList ++ ' ' :: '\x7d' :: rest)) :
    ∃ xs d, xs.map ImportSpecifier.bare = ss.map ImportSpecifier.bare ∧ ReadsSpecifiers c xs d ∧
      d.kind = .symbol .rbrace ∧ (d.bump .script).Before pg .script rest := by
  induction ss generalizing c with
  | nil => exact absurd rfl hne
  | cons s ss ih =>
    rw [List.forall_mem_cons] at hss
    cases ss with
    | nil =>
      rw [List.map_singleton, String.intercalate_singleton] at hc
      obtain ⟨hopen, x, d, hx, hread, hd⟩ := readsBack_specifier hss.1 ⟨rest, .inr rfl⟩ hc
      obtain ⟨hval, hnext⟩ := (hd.of_space (by decide)).symbol (by decide) rfl (.inl (by decide))
      have hclose := Cursor.kind_symbol.2 hval
      exact ⟨[x], d, by simp [hx], .last hopen hread (by simp [hclose]), hclose, hnext .script⟩
    | cons t ss =>
      rw [List.map_cons, List.map_cons, String.intercalate_cons_cons, ← List.map_cons] at hc
      have hc : c.Before pg .script (s.text.toList ++ ',' :: ' ' ::
          ((", ".intercalate ((t :: ss).map ImportSpecifier.text)).toList ++
            ' ' :: '\x7d' :: rest)) := by simpa using hc
      obtain ⟨hopen, x, d, hx, hread, hd⟩ := readsBack_specifier hss.1 ⟨_, .inl rfl⟩ hc
      obtain ⟨hval, hnext⟩ := hd.symbol (by decide) rfl (.inl (by decide))
      obtain ⟨xs, d', hxs, hreads, hclose⟩ :=
        ih hss.2 (by simp) ((hnext .script).of_space (by decide))
      refine ⟨x :: xs, d', ?_, .more hopen hread (Cursor.kind_symbol.2 hval) hreads, hclose⟩
      rw [List.map_cons, List.map_cons, hx, hxs]

/-! What stands before the source -/

abbrev fromText (source : String) (rest : List Char) : List Char :=
  ' ' :: ("from ".toList ++ ((quoteString source).toList ++ rest))

theorem reads_star {default : Option (Spanned String)} {name source : String} (hname : IsIdent name)
    (hc : c.Before pg .script ('*' :: ' ' :: ("as ".toList ++ (name.toList ++ fromText source rest)))) :
    c.kind = .symbol .star ∧ ∃ x y d, x.val = name ∧ y.val = source ∧
      ReadsClause default c ⟨default, some x, [], y⟩ d ∧ d.Before pg .script rest := by
  obtain ⟨hval, hnext⟩ := hc.symbol (by decide) rfl (.inl (by decide))
  have hstar := Cursor.kind_symbol.2 hval
  obtain ⟨has, hnext'⟩ := Cursor.Before.keyword (k := .kwAs) rfl
    ((hnext .script).of_space (by decide))
  obtain ⟨hident, hnext''⟩ := hnext'.ident hname (by rintro d ⟨⟩; decide)
  obtain ⟨y, d, hy, hsource, hd⟩ := readsBack_source (hnext''.of_space (by decide))
  exact ⟨hstar, ⟨name, _⟩, y, d, rfl, hy, .all hstar has hident hsource, hd⟩

theorem reads_braces {default : Option (Spanned String)} {ss : List ImportSpecifier}
    (hss : ∀ s ∈ ss, s.Legible) (hne : ss ≠ []) {source : String}
    (hc : c.Before pg .script ('\x7b' :: ' ' ::
      ((", ".intercalate (ss.map ImportSpecifier.text)).toList ++
        ' ' :: '\x7d' :: fromText source rest))) :
    c.kind = .symbol .lbrace ∧ ∃ xs y d, xs.map ImportSpecifier.bare = ss.map ImportSpecifier.bare ∧
      y.val = source ∧ ReadsClause default c ⟨default, none, xs, y⟩ d ∧ d.Before pg .script rest := by
  obtain ⟨hval, hnext⟩ := hc.symbol (by decide) rfl (.inl (by decide))
  have hopen := Cursor.kind_symbol.2 hval
  obtain ⟨xs, d, hxs, hread, hclose, hd⟩ :=
    readsBack_specifiers hss hne ((hnext .script).of_space (by decide))
  obtain ⟨y, d', hy, hsource, hd'⟩ := readsBack_source (hd.of_space (by decide))
  exact ⟨hopen, xs, y, d', hxs, hy, .named hopen hread hclose hsource, hd'⟩

/-- The text of a declaration behind its keyword. -/
def ImportDecl.body (d : ImportDecl) : String :=
  if d.isSideEffect then quoteString d.source.val
  else ", ".intercalate d.clauses ++ " from " ++ quoteString d.source.val

theorem ImportDecl.text_eq (d : ImportDecl) : d.text = "import " ++ d.body := by
  unfold text body
  split <;> simp [String.append_assoc]

theorem readsBack_import {d : ImportDecl} (hd : d.Legible)
    (hc : c.Before pg .script (d.text.toList ++ rest)) : c.Fresh pg ∧
    ∃ x c', x.bare = d.bare ∧ ReadsImport c x c' ∧ c'.Before pg .script rest := by
  rw [ImportDecl.text_eq, String.toList_append, List.append_assoc] at hc
  refine ⟨Cursor.Before.fresh_keyword (k := .kwImport) rfl hc, ?_⟩
  obtain ⟨himport, hc⟩ := Cursor.Before.keyword (k := .kwImport) rfl hc
  obtain ⟨default, space, named, source⟩ := d
  obtain ⟨hdefault, hspace, hnamed, hone⟩ := hd
  simp only at hdefault hspace hnamed hone
  cases default with
  | none =>
    simp only [ImportDecl.body, ImportDecl.isSideEffect, ImportDecl.clauses, Option.isNone_none,
      Bool.true_and, Option.map_none, Option.toList_none, List.nil_append] at hc
    cases space with
    | none =>
      cases named with
      | nil =>
        have hbegins := Scanner.begins_string source.val rest
        exact ⟨⟨none, none, [], ⟨source.val, (c.bump .script).token.span⟩⟩, _, rfl,
          .sideEffect himport (hc.val hbegins), hc.bump hbegins (by simp) .script⟩
      | cons s ss =>
        obtain ⟨hopen, xs, y, d, hxs, hy, hread, hd⟩ := @reads_braces pg rest (c.bump .script) none
          (s :: ss) hnamed (by simp) source.val (by simpa [fromText] using hc)
        refine ⟨_, d, ?_, .clause himport (by simp [hopen]) (by simp [hopen]) hread, hd⟩
        simp [ImportDecl.bare, hxs, Spanned.bare, hy]
    | some x =>
      obtain rfl : named = [] := hone.resolve_left (by simp)
      obtain ⟨hstar, z, y, d, hz, hy, hread, hd⟩ := @reads_star pg rest (c.bump .script) none x.val
        source.val (hspace x rfl) (by simpa [fromText] using hc)
      refine ⟨_, d, ?_, .clause himport (by simp [hstar]) (by simp [hstar]) hread, hd⟩
      simp [ImportDecl.bare, hz, Spanned.bare, hy]
  | some x =>
    have hx := hdefault x rfl
    simp only [ImportDecl.body, ImportDecl.isSideEffect, ImportDecl.clauses, Option.isNone_some,
      Bool.false_and, Bool.false_eq_true, ↓reduceIte, Option.map_some, Option.toList_some,
      List.singleton_append] at hc
    -- What follows the name is either the source or a comma and another clause.
    have more {r : List Char} (hc : (c.bump .script).Before pg .script
        (x.val.toList ++ ',' :: ' ' :: r)) : (c.bump .script).token.val = .ident x.val ∧
          ((c.bump .script).bump .script).kind = .symbol .comma ∧
            (((c.bump .script).bump .script).bump .script).Before pg .script r := by
      obtain ⟨hident, hnext⟩ := hc.ident hx (by rintro d ⟨⟩; decide)
      obtain ⟨hval, hnext'⟩ := hnext.symbol (by decide) rfl (.inl (by decide))
      exact ⟨hident, Cursor.kind_symbol.2 hval, (hnext' .script).of_space (by decide)⟩
    cases space with
    | none =>
      cases named with
      | nil =>
        have hc : (c.bump .script).Before pg .script (x.val.toList ++ fromText source.val rest) := by
          simpa [fromText] using hc
        obtain ⟨hident, hnext⟩ := hc.ident hx (by rintro d ⟨⟩; decide)
        obtain ⟨y, d, hy, hread, hd⟩ := readsBack_source (hnext.of_space (by decide))
        have hfrom : ((c.bump .script).bump .script).kind = .keyword .kwFrom := by
          cases hread
          assumption
        refine ⟨_, d, ?_, .default himport hident (by simp [hfrom]) hread, hd⟩
        simp [ImportDecl.bare, Spanned.bare, hy]
      | cons s ss =>
        obtain ⟨hident, hcomma, hnext⟩ := more (by simpa using hc)
        obtain ⟨hopen, xs, y, d, hxs, hy, hread, hd⟩ := @reads_braces pg rest _ (some ⟨x.val, _⟩)
          (s :: ss) hnamed (by simp) source.val (by simpa [fromText] using hnext)
        refine ⟨_, d, ?_, .both himport hident hcomma hread, hd⟩
        simp [ImportDecl.bare, hxs, Spanned.bare, hy]
    | some z =>
      obtain rfl : named = [] := hone.resolve_left (by simp)
      obtain ⟨hident, hcomma, hnext⟩ := more (by simpa using hc)
      obtain ⟨hstar, w, y, d, hw, hy, hread, hd⟩ := reads_star (hspace z rfl)
        (by simpa [fromText] using hnext)
      refine ⟨_, d, ?_, .both himport hident hcomma hread, hd⟩
      simp [ImportDecl.bare, hw, Spanned.bare, hy]

end BranchMarkup
