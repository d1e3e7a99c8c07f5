import BranchMarkup.Proofs.Printing.Expr
/-! Markup read back: tags, their attributes, and the children between them. -/
namespace BranchMarkup

open Scanner (IsWord IsTagName Begins Trivia symbol? isWordPart)
open Parse (ReadsExpr ReadsTag ReadsTagRest ReadsMarkup ReadsChildren ReadsContainer ReadsAttributes
  ReadsAttrValue)

namespace Markup

def bare : Markup → Markup
  | element e => element e.bare
  | fragment f => fragment f.bare

theorem bare_toExpr (m : Markup) : m.toExpr.bare = m.bare.toExpr := by cases m <;> rfl

theorem bare_toChild (m : Markup) : m.toChild.bare = m.bare.toChild := by cases m <;> rfl

/-- After the `<` that the printed form begins with, a reader takes the rest of it for the markup,
up to spans, and goes on right behind it. The comments in it are those of the places that were
passed. -/
def ReadsBack (m : Markup) : Prop :=
  ∀ ⦃gs t⦄, Spells m.toExpr.pieces gs t → ∃ d u, t = '<' :: d :: u ∧ d ≠ '=' ∧
    ∀ ⦃pg rest c⦄, Cursor.Before pg .tag (d :: (u ++ rest)) c → c.kind ≠ .symbol .slash ∧
      ∀ start after, ∃ x c', x.bare = m.bare ∧ ReadsMarkup start after c m.toExpr.levels x c' ∧
        c'.Before (pg.add (Piece.slots x.toExpr.pieces) gs) after rest

end Markup

theorem Markup.ReadsBack.expr {m : Markup} (hm : m.ReadsBack) : m.toExpr.ReadsBack := by
  intro pg gs t rest c ht _ hc
  obtain ⟨d, u, rfl, hd, hread⟩ := hm ht
  have halone : ∀ x ∈ (d :: (u ++ rest)).head?, x ≠ '=' := by simpa using hd
  obtain ⟨hval, hnext⟩ :=
    hc.symbol (by decide) (Scanner.symbol?_alone halone).2.2 (.inl (by decide))
  obtain ⟨x, c', hbare, hread, hc'⟩ := (hread (hnext .tag)).2 c.token.span .script
  refine ⟨hc.fresh_symbol (by decide) (Scanner.symbol?_alone halone).2.2 (.inl (by decide)),
    x.toExpr, c', hc', ?_, .of_primary ?_ (.markup (Cursor.kind_symbol.2 hval) hread)⟩
  · rw [bare_toExpr, bare_toExpr, hbare]
  · rw [hval]
    rfl

/-! Tag names -/

section
variable {pg : Page} {gs : List (List String)} {rest : List Char}

abbrev partsText (parts : List (Char × List Char)) : List Char := parts.flatMap fun p => p.1 :: p.2

theorem parts_stop {parts : List (Char × List Char)}
    (hparts : ∀ p ∈ parts, (p.1 = '.' ∨ p.1 = ':') ∧ IsWord .tag p.2)
    (hrest : ∀ d ∈ rest.head?, isWordPart .tag d = false) :
    ∀ d ∈ (partsText parts ++ rest).head?, isWordPart .tag d = false := by
  cases parts with
  | nil => exact hrest
  | cons p parts =>
    rintro d ⟨⟩
    rcases (hparts p List.mem_cons_self).1 with h | h <;> rw [h] <;> decide

theorem readsTagRest {parts : List (Char × List Char)}
    (hparts : ∀ p ∈ parts, (p.1 = '.' ∨ p.1 = ':') ∧ IsWord .tag p.2)
    (hrest : ∀ d ∈ rest.head?, isWordPart .tag d = false) {c : Cursor}
    (hc : c.Before pg .tag (partsText parts ++ rest)) (name : Spanned String) :
    ∃ x c', x.val = name.val ++ String.ofList (partsText parts) ∧ c'.Before pg .tag rest ∧
      (c'.kind ≠ .symbol .dot → c'.kind ≠ .symbol .colon → ReadsTagRest c name x c') := by
  induction parts generalizing c name with
  | nil => exact ⟨name, c, by simp, hc, .done⟩
  | cons p parts ih =>
    obtain ⟨joint, part⟩ := p
    rw [List.forall_mem_cons] at hparts
    obtain ⟨⟨hjoint, hpart⟩, hparts⟩ := hparts
    have hc : c.Before pg .tag (joint :: (part ++ (partsText parts ++ rest))) := by simpa using hc
    obtain ⟨s, text, htext, hs, hval, hnext⟩ : ∃ s text, text = String.ofList [joint] ∧
        (s = .dot ∧ text = "." ∨ s = .colon ∧ text = ":") ∧ c.token.val = .symbol s ∧
          ∀ after, (c.bump after).Before pg after (part ++ (partsText parts ++ rest)) := by
      rcases hjoint with rfl | rfl
      · exact ⟨.dot, ".", rfl, .inl ⟨rfl, rfl⟩, hc.symbol (by decide) rfl (.inl (by decide))⟩
      · exact ⟨.colon, ":", rfl, .inr ⟨rfl, rfl⟩, hc.symbol (by decide) rfl (.inl (by decide))⟩
    have hword := Scanner.begins_tagWord hpart (parts_stop hparts hrest)
    have hident := (hnext .tag).val hword
    obtain ⟨x, c', hx, hc', hread⟩ := ih hparts ((hnext .tag).bump hword (by simp) .tag)
      ⟨name.val ++ text ++ String.ofList part, name.span.merge (c.bump .tag).token.span⟩
    refine ⟨x, c', ?_, hc', fun hdot hcolon => .part hval hs hident (hread hdot hcolon)⟩
    rw [hx, htext, ← String.toList_inj]
    simp

/-- A tag name is read up to what cannot belong to it. -/
theorem readsTag {name : String} (hname : IsTagName name.toList)
    (hrest : ∀ d ∈ rest.head?, isWordPart .tag d = false) {c : Cursor}
    (hc : c.Before pg .tag (name.toList ++ rest)) :
    c.kind = .ident ∧ ∃ x c', x.val = name ∧ c'.Before pg .tag rest ∧
      (c'.kind ≠ .symbol .dot → c'.kind ≠ .symbol .colon → ReadsTag c x c') := by
  obtain ⟨first, parts, heq, hfirst, hparts⟩ := hname
  rw [heq, List.append_assoc] at hc
  have hword := Scanner.begins_tagWord hfirst (parts_stop hparts hrest)
  have hident := hc.val hword
  obtain ⟨x, c', hx, hc', hread⟩ := readsTagRest hparts hrest (hc.bump hword (by simp) .tag)
    ⟨String.ofList first, c.token.span⟩
  refine ⟨Cursor.kind_ident.2 ⟨_, hident⟩, x, c', ?_, hc', fun hdot hcolon =>
    .name hident (hread hdot hcolon)⟩
  rw [hx, ← String.ofList_append, ← heq, String.ofList_toList]

/-! Braces -/

theorem readsBack_container {inner : Option Expr} (he : ∀ e ∈ inner, e.ReadsBack) {span : Span}
    {t : List Char} (ht : Spells (Child.container inner span).pieces gs t) : ∃ u, t = '\x7b' :: u ∧
      ∀ ⦃pg mode r c⦄, Cursor.Before pg mode ('\x7b' :: (u ++ r)) c →
        Begins mode ('\x7b' :: (u ++ r)) (.symbol .lbrace) (u ++ r) →
        ∃ x d, x.map Expr.bare = inner.map Expr.bare ∧
          ReadsContainer (c.bump .script) (Child.container inner span).levels x d ∧
          d.token.val = .symbol .rbrace ∧ ∀ after, (d.bump after).Before (pg.add (Piece.slots
            (Child.container x (c.token.span.merge (d.bump after).last)).pieces) gs) after r := by
  cases inner with
  | none =>
    simp only [Child.pieces, spells_text, spells_held, spells_nil] at ht
    obtain ⟨_, ⟨w, _, ks, _, hw, ⟨_, ⟨rfl, rfl⟩, rfl⟩, rfl, rfl⟩, rfl⟩ := ht
    refine ⟨w ++ ['\x7d'], by simp, fun pg mode r c hc hbegins => ?_⟩
    rw [List.append_assoc] at hc hbegins
    have hopen : c.token.val ≠ .endOfFile := by simp [hc.val hbegins]
    have hin := hc.bump hbegins (by simp) .script
    have hw := Print.trivia_of_writesHeld hw
    -- The brace that closes stands right behind the comments, so all of them belong to the place.
    have hfresh := (hin.of_trivia (by decide) hw).fresh_symbol (by decide) rfl (.inl (by decide))
    have hgap := Cursor.Gap.bump .script hc.leads hopen
    have hclose := hin.of_slot (by decide) hw hfresh hgap (hc.fresh hbegins) .held
    obtain ⟨hval, hnext⟩ := hclose.symbol (by decide) rfl (.inl (by decide))
    refine ⟨none, c.bump .script, rfl, .empty (Cursor.kind_symbol.2 hval), hval, fun after => ?_⟩
    have hlast := Cursor.last_bump (by simp [hval] : (c.bump .script).token.val ≠ .endOfFile) after
    rw [hlast, ← Cursor.last_bump hopen .script]
    exact hnext after
  | some e =>
    simp only [Child.pieces, spells_append, spells_text, spells_nil] at ht
    obtain ⟨_, ⟨u, _, gs, _, hu, ⟨_, ⟨rfl, rfl⟩, rfl⟩, rfl, rfl⟩, rfl⟩ := ht
    refine ⟨u ++ ['\x7d'], by simp, fun pg mode r c hc hbegins => ?_⟩
    have hin := hc.bump hbegins (by simp) .script
    rw [List.append_assoc] at hin
    obtain ⟨-, x, d, hbare, hread, hval, -, hnext⟩ :=
      (he e rfl).closed hu .nil (stops_cons rfl (by decide)) hin rfl rfl
    refine ⟨some x, d, ?_, .expr (ne_of_beginsExpr hread.beginsExpr rfl) hread, hval, fun after => ?_⟩
    · rw [Option.map_some, Option.map_some, hbare]
    · simpa [Child.pieces] using hnext after

/-! Attributes -/

/-- What can follow a name or a value inside a tag. -/
inductive TagRest : List Char → Prop where
  | close {r} : TagRest ('>' :: r)
  | closeSelf {r} : TagRest (' ' :: '/' :: '>' :: r)
  | attr {name r} : IsTagName name → (∀ d ∈ r.head?, isWordPart .tag d = false) →
      TagRest (' ' :: (name ++ r))

theorem TagRest.stop (h : TagRest rest) : ∀ d ∈ rest.head?, isWordPart .tag d = false := by
  cases h <;>
  · rintro d ⟨⟩
    decide

theorem TagRest.kind (h : TagRest rest) {c : Cursor} (hc : c.Before pg .tag rest) :
    c.kind = .ident ∨ c.kind = .symbol .gt ∨ c.kind = .symbol .slash := by
  cases h with
  | @close r =>
    have hval := hc.symbol (by decide) (Scanner.symbol?_angle r).2 (.inl (by decide))
    exact .inr (.inl (Cursor.kind_symbol.2 hval.1))
  | closeSelf =>
    have hval := (hc.of_space (by decide)).symbol (by decide) rfl (.inr (by simp))
    exact .inr (.inr (Cursor.kind_symbol.2 hval.1))
  | @attr name r hname hr =>
    rw [← @String.toList_ofList name] at hname hc
    exact .inl (readsTag hname hr (hc.of_space (by decide))).1

def AttrValue.ReadsBack : AttrValue → Prop
  | .text s _ => IsQuotable s
  | .container e _ => ∀ x ∈ e, x.ReadsBack
  | .element e => (Markup.element e).ReadsBack

def Attribute.ReadsBack (a : Attribute) : Prop :=
  IsTagName a.name.val.toList ∧ ∀ v ∈ a.value, v.ReadsBack

theorem quoteAttribute_cons (s : String) : ∃ q r, (quoteAttribute s).toList = q :: r ∧ q ≠ '=' := by
  unfold quoteAttribute
  split
  · exact ⟨'\'', s.toList ++ ['\''], by simp, by decide⟩
  · exact ⟨'"', s.toList ++ ['"'], by simp, by decide⟩

theorem readsBack_value {v : AttrValue} (hv : v.ReadsBack) {t : List Char}
    (ht : Spells v.pieces gs t) {c : Cursor} (hc : c.Before pg .tag ('=' :: (t ++ rest))) :
    c.kind = .symbol .eq ∧ ∃ x d, x.bare = v.bare ∧ ReadsAttrValue c v.levels (some x) d ∧
      d.Before (pg.add (Piece.slots x.pieces) gs) .tag rest := by
  have equals {q : Char} {r : List Char} (hq : q ≠ '=') (hc : c.Before pg .tag ('=' :: q :: r)) :
      c.kind = .symbol .eq ∧ (c.bump .tag).Before pg .tag (q :: r) := by
    have halone : ∀ d ∈ (q :: r).head?, d ≠ '=' := by simpa using hq
    obtain ⟨hval, hnext⟩ :=
      hc.symbol (by decide) (Scanner.symbol?_alone halone).2.1 (.inl (by decide))
    exact ⟨Cursor.kind_symbol.2 hval, hnext .tag⟩
  cases v with
  | text s span =>
    simp only [AttrValue.pieces, spells_text, spells_nil] at ht
    obtain ⟨_, ⟨rfl, rfl⟩, rfl⟩ := ht
    rw [List.append_nil] at hc
    have hbegins := Scanner.begins_tagString hv rest
    obtain ⟨q, r, hq, hne⟩ := quoteAttribute_cons s
    rw [hq] at hc hbegins
    obtain ⟨hkind, hvalue⟩ := equals hne hc
    refine ⟨hkind, .text s (c.bump .tag).token.span, (c.bump .tag).bump .tag, rfl,
      .text hkind (hvalue.val hbegins), ?_⟩
    simpa [AttrValue.pieces] using hvalue.bump hbegins (by simp) .tag
  | container inner span =>
    have hpieces (x : Option Expr) (s : Span) :
        (AttrValue.container x s).pieces = (Child.container x s).pieces := by
      cases x <;> rfl
    have hlevels : (AttrValue.container inner span).levels = (Child.container inner span).levels := by
      cases inner <;> rfl
    rw [hpieces] at ht
    obtain ⟨u, rfl, hread⟩ := readsBack_container hv ht
    obtain ⟨hkind, hvalue⟩ := equals (by decide) hc
    have hbegins : Begins .tag ('\x7b' :: (u ++ rest)) (.symbol .lbrace) (u ++ rest) :=
      Scanner.begins_symbol (by decide) rfl (.inl (by decide))
    obtain ⟨x, d, hbare, hread, hclose, hout⟩ := hread hvalue hbegins
    refine ⟨hkind, .container x ((c.bump .tag).token.span.merge (d.bump .tag).last), d.bump .tag, ?_,
      ?_, ?_⟩
    · cases x <;> cases inner <;> simp_all [AttrValue.bare]
    · rw [hlevels]
      exact .container hkind (Cursor.kind_symbol.2 (hvalue.val hbegins)) hread
        (Cursor.kind_symbol.2 hclose)
    · rw [hpieces]
      exact hout .tag
  | element e =>
    obtain ⟨d, u, rfl, -, hread⟩ := hv ht
    obtain ⟨hkind, hvalue⟩ := equals (by decide) hc
    obtain ⟨hopen, hin⟩ := hvalue.symbol (by decide) (Scanner.symbol?_angle _).1 (.inl (by decide))
    obtain ⟨x, d', hbare, hread, hd'⟩ := (hread (hin .tag)).2 (c.bump .tag).token.span .tag
    cases x with
    | element x =>
      refine ⟨hkind, .element x, d', ?_, .element hkind (Cursor.kind_symbol.2 hopen) hread, hd'⟩
      rw [AttrValue.bare, AttrValue.bare, Markup.element.inj hbare]
    | fragment x => cases hbare

theorem tagRest_attributes {as : List Attribute} (has : ∀ a ∈ as, a.ReadsBack) {t : List Char}
    (ht : Spells (Attribute.piecesAll as) gs t) (hrest : TagRest rest) : TagRest (t ++ rest) := by
  induction as generalizing gs t with
  | nil =>
    obtain ⟨rfl, rfl⟩ := spells_nil.1 ht
    exact hrest
  | cons a as ih =>
    rw [List.forall_mem_cons] at has
    obtain ⟨name, value, span⟩ := a
    simp only [Attribute.piecesAll, spells_append] at ht
    obtain ⟨u, v, g, h, hu, hv, rfl, rfl⟩ := ht
    cases value with
    | none =>
      simp only [Attribute.pieces, spells_text, spells_nil] at hu
      obtain ⟨_, ⟨rfl, rfl⟩, rfl⟩ := hu
      have hname := TagRest.attr has.1.1 (ih has.2 hv).stop
      simpa using hname
    | some value =>
      simp only [Attribute.pieces, spells_text] at hu
      obtain ⟨w, -, rfl⟩ := hu
      have hname := @TagRest.attr _ ('=' :: (w ++ (v ++ rest))) has.1.1 (by rintro d ⟨⟩; decide)
      simpa using hname

theorem readsBack_attributes {as : List Attribute} (has : ∀ a ∈ as, a.ReadsBack) {t : List Char}
    (ht : Spells (Attribute.piecesAll as) gs t) (hrest : TagRest rest) {c : Cursor}
    (hc : c.Before pg .tag (t ++ rest)) : ∃ xs d, Attribute.bareAll xs = Attribute.bareAll as ∧
      d.Before (pg.add (Piece.slots (Attribute.piecesAll xs)) gs) .tag rest ∧
      (d.kind ≠ .ident → ReadsAttributes c (Attribute.levelsAll as) xs d) := by
  induction as generalizing pg gs t c with
  | nil =>
    obtain ⟨rfl, rfl⟩ := spells_nil.1 ht
    refine ⟨[], c, rfl, by simpa [Attribute.piecesAll] using hc, fun hident => .done hident ?_⟩
    rcases hrest.kind hc with h | h | h <;> simp [h]
  | cons a as ih =>
    rw [List.forall_mem_cons] at has
    obtain ⟨⟨hname, hvalue⟩, has⟩ := has
    obtain ⟨name, value, span⟩ := a
    simp only [Attribute.piecesAll, spells_append] at ht
    obtain ⟨u, v, g, h, hu, hv, rfl, rfl⟩ := ht
    have hnext := tagRest_attributes has hv hrest
    cases value with
    | none =>
      simp only [Attribute.pieces, spells_text, spells_nil] at hu
      obtain ⟨_, ⟨rfl, rfl⟩, rfl⟩ := hu
      have hc : c.Before pg .tag (' ' :: (name.val.toList ++ (v ++ rest))) := by simpa using hc
      obtain ⟨hkind, x, d, hx, hd, hread⟩ := readsTag hname hnext.stop (hc.of_space (by decide))
      have hplain : d.kind ≠ .symbol .dot ∧ d.kind ≠ .symbol .colon ∧ d.kind ≠ .symbol .eq := by
        rcases hnext.kind hd with h | h | h <;> simp [h]
      obtain ⟨xs, d', hbares, hd', hreads⟩ := ih has hv hd
      refine ⟨⟨x, none, x.span.merge d.last⟩ :: xs, d', ?_, ?_, fun hident => ?_⟩
      · simp [Attribute.bareAll, hbares, Spanned.bare, hx]
      · simpa [Attribute.piecesAll, Attribute.pieces] using hd'
      · have hmore := ReadsAttributes.more hkind (hread hplain.1 hplain.2.1) (.bare hplain.2.2)
          (hreads hident)
        rwa [Nat.zero_max] at hmore
    | some value =>
      simp only [Attribute.pieces, spells_text] at hu
      obtain ⟨w, hw, rfl⟩ := hu
      have hc : c.Before pg .tag (' ' :: (name.val.toList ++ '=' :: (w ++ (v ++ rest)))) := by
        simpa using hc
      obtain ⟨hkind, x, d, hx, hd, hread⟩ :=
        readsTag hname (by rintro d ⟨⟩; decide) (hc.of_space (by decide))
      obtain ⟨hequals, y, d', hy, hread', hd'⟩ := readsBack_value (hvalue value rfl) hw hd
      obtain ⟨xs, d'', hbares, hd'', hreads⟩ := ih has hv hd'
      refine ⟨⟨x, some y, x.span.merge d'.last⟩ :: xs, d'', ?_, ?_, fun hident => ?_⟩
      · simp [Attribute.bareAll, hbares, Spanned.bare, hx, hy]
      · simpa [Attribute.piecesAll, Attribute.pieces] using hd''
      · exact .more hkind (hread (by simp [hequals]) (by simp [hequals])) hread' (hreads hident)

/-! Children -/

def Child.ReadsBack : Child → Prop
  | .text s _ => IsRawText s
  | .container e _ => ∀ x ∈ e, x.ReadsBack
  | .element e => (Markup.element e).ReadsBack
  | .fragment f => (Markup.fragment f).ReadsBack

/-- What is not text begins with a sign that ends text. -/
theorem head_child {c : Child} (hc : c.ReadsBack) (htext : c.isText = false) {t : List Char}
    (ht : Spells c.pieces gs t) : ∃ d r, t = d :: r ∧ (d = '<' ∨ d = '\x7b') := by
  cases c with
  | text => cases htext
  | container inner span =>
    obtain ⟨u, rfl, -⟩ := readsBack_container hc ht
    exact ⟨_, u, rfl, .inr rfl⟩
  | element e | fragment e =>
    obtain ⟨d, u, rfl, -⟩ := hc ht
    exact ⟨_, _, rfl, .inl rfl⟩

theorem reads_markupChild {m : Markup} (hm : m.ReadsBack) {t : List Char}
    (ht : Spells m.toExpr.pieces gs t) {c : Cursor} (hc : c.Before pg .child (t ++ rest)) :
    ∃ x d, x.bare = m.bare ∧ c.kind = .symbol .lt ∧ (c.bump .tag).kind ≠ .symbol .slash ∧
      ReadsMarkup c.token.span .child (c.bump .tag) m.toExpr.levels x d ∧
        d.Before (pg.add (Piece.slots x.toChild.pieces) gs) .child rest := by
  obtain ⟨d, u, rfl, -, hread⟩ := hm ht
  have hbegins := Scanner.begins_childOpen (d :: (u ++ rest))
  obtain ⟨hslash, hread⟩ := hread (hc.bump hbegins (by simp) .tag)
  obtain ⟨x, c', hbare, hread, hc'⟩ := hread c.token.span .child
  have hpieces : x.toChild.pieces = x.toExpr.pieces := by cases x <;> rfl
  exact ⟨x, c', hbare, Cursor.kind_symbol.2 (hc.val hbegins), hslash, hread, hpieces ▸ hc'⟩

/-- Children, up to the end of the `</` behind them. -/
theorem readsBack_children {cs : List Child} (hcs : ∀ c ∈ cs, c.ReadsBack)
    (hadjacent : Chain.adjacentText? cs = none) {t : List Char}
    (ht : Spells (Child.piecesAll cs) gs t) (hrest : ∀ d ∈ rest.head?, d ≠ '/' ∧ d ≠ '*') {c : Cursor}
    (hc : c.Before pg .child (t ++ '<' :: '/' :: rest)) :
    ∃ xs d, Child.bareAll xs = Child.bareAll cs ∧ ReadsChildren c (Child.levelsAll cs) xs d ∧
      d.Before (pg.add (Piece.slots (Child.piecesAll xs)) gs) .tag rest := by
  induction cs generalizing pg gs t c with
  | nil =>
    obtain ⟨rfl, rfl⟩ := spells_nil.1 ht
    have hbegins := Scanner.begins_childOpen ('/' :: rest)
    obtain ⟨hval, hnext⟩ :=
      (hc.bump hbegins (by simp) .tag).symbol (by decide) rfl (.inr hrest)
    refine ⟨[], (c.bump .tag).bump .tag, rfl,
      .close (Cursor.kind_symbol.2 (hc.val hbegins)) (Cursor.kind_symbol.2 hval), ?_⟩
    simpa [Child.piecesAll] using hnext .tag
  | cons child cs ih =>
    rw [List.forall_mem_cons] at hcs
    rw [Chain.adjacentText?_cons_eq_none] at hadjacent
    obtain ⟨htouch, hadjacent⟩ := hadjacent
    simp only [Child.piecesAll, spells_append] at ht
    obtain ⟨u, v, g, h, hu, hv, rfl, rfl⟩ := ht
    rw [List.append_assoc] at hc
    cases child with
    | text s span =>
      simp only [Child.pieces, spells_text, spells_nil] at hu
      obtain ⟨_, ⟨rfl, rfl⟩, rfl⟩ := hu
      rw [List.append_nil] at hc
      have hstop : ∀ d ∈ (v ++ '<' :: '/' :: rest).head?, d = '<' ∨ d = '\x7b' := by
        cases cs with
        | nil =>
          obtain ⟨rfl, rfl⟩ := spells_nil.1 hv
          rintro d ⟨⟩
          exact .inl rfl
        | cons d ds =>
          simp only [Child.piecesAll, spells_append] at hv
          obtain ⟨w, w', _, _, hw, -, rfl, rfl⟩ := hv
          obtain ⟨e, r, rfl, he⟩ :=
            head_child (hcs.2 d List.mem_cons_self) (htouch rfl d rfl) hw
          rintro _ ⟨⟩
          exact he
      have hbegins := Scanner.begins_text hcs.1 hstop
      obtain ⟨xs, d, hbares, hreads, hd⟩ := ih hcs.2 hadjacent hv (hc.bump hbegins (by simp) .child)
      refine ⟨.text s c.token.span :: xs, d, ?_, ?_, ?_⟩
      · simp [Child.bareAll, Child.bare, hbares]
      · rw [Child.levelsAll, Child.levels, Nat.zero_max]
        exact .text (hc.val hbegins) hreads
      · simpa [Child.piecesAll, Child.pieces] using hd
    | container inner span =>
      obtain ⟨w, rfl, hread⟩ := readsBack_container hcs.1 hu
      have hbegins := Scanner.begins_childBrace (w ++ (v ++ '<' :: '/' :: rest))
      obtain ⟨x, d, hbare, hread, hclose, hout⟩ := hread hc hbegins
      obtain ⟨xs, d', hbares, hreads, hd'⟩ := ih hcs.2 hadjacent hv (hout .child)
      refine ⟨.container x (c.token.span.merge (d.bump .child).last) :: xs, d', ?_, ?_, ?_⟩
      · cases x <;> cases inner <;> simp_all [Child.bareAll, Child.bare]
      · exact .container (Cursor.kind_symbol.2 (hc.val hbegins)) hread (Cursor.kind_symbol.2 hclose)
          hreads
      · rw [Child.piecesAll, Piece.slots_append, ← Page.add_add]
        exact hd'
    | element e | fragment e =>
      obtain ⟨x, d, hbare, hopen, hslash, hread, hd⟩ := reads_markupChild hcs.1 hu hc
      obtain ⟨xs, d', hbares, hreads, hd'⟩ := ih hcs.2 hadjacent hv hd
      refine ⟨x.toChild :: xs, d', ?_, .markup hopen hslash hread hreads, ?_⟩
      · rw [Child.bareAll, Child.bareAll, Markup.bare_toChild, hbare, hbares]
        rfl
      · rw [Child.piecesAll, Piece.slots_append, ← Page.add_add]
        exact hd'

end

/-! Elements and fragments -/

/-- A tag name begins a word, so neither a tag that ends nor a sign that joins with its angle. -/
theorem tagName_cons {cs : List Char} (h : IsTagName cs) :
    ∃ d r, cs = d :: r ∧ d ≠ '=' ∧ d ≠ '/' ∧ d ≠ '*' := by
  obtain ⟨first, parts, rfl, ⟨d, r, rfl, hd, -⟩, -⟩ := h
  refine ⟨d, _, rfl, ?_, ?_, ?_⟩ <;>
  · rintro rfl
    simp [Scanner.isNameStart] at hd

theorem readsBack_fragment {f : Fragment} (hadjacent : Chain.adjacentText? f.children = none)
    (hcs : ∀ c ∈ f.children, c.ReadsBack) : (Markup.fragment f).ReadsBack := by
  intro gs t ht
  obtain ⟨children, provenance, span⟩ := f
  simp only [Markup.toExpr, Expr.pieces, Fragment.pieces, spells_marked, spells_text, spells_append,
    spells_nil] at ht
  obtain ⟨_, ⟨u, _, gs, _, hu, ⟨_, ⟨rfl, rfl⟩, rfl⟩, rfl, rfl⟩, rfl⟩ := ht
  refine ⟨'>', u ++ ['<', '/', '>'], by simp, by decide, fun pg rest c hc => ?_⟩
  have hc : c.Before pg .tag ('>' :: (u ++ '<' :: '/' :: '>' :: rest)) := by simpa using hc
  obtain ⟨hval, hnext⟩ := hc.symbol (by decide) (Scanner.symbol?_angle _).2 (.inl (by decide))
  have hkind := Cursor.kind_symbol.2 hval
  refine ⟨by simp [hkind], fun start after => ?_⟩
  obtain ⟨xs, d, hbares, hreads, hd⟩ :=
    readsBack_children hcs hadjacent hu (by simp) (hnext .child)
  obtain ⟨hval', hnext'⟩ := hd.symbol (by decide) (Scanner.symbol?_angle _).2 (.inl (by decide))
  refine ⟨.fragment ⟨xs, none, start.merge (d.bump after).last⟩, d.bump after, ?_,
    .fragment hkind hreads (Cursor.kind_symbol.2 hval'), ?_⟩
  · simp [Markup.bare, Fragment.bare, hbares]
  · simpa [Markup.toExpr, Expr.pieces, Fragment.pieces] using hnext' after

/-- The name and the attributes of a tag, up to its end. -/
theorem readsBack_opening {name : String} (hname : IsTagName name.toList) {as : List Attribute}
    (has : ∀ a ∈ as, a.ReadsBack) {gs : List (List String)} {t : List Char}
    (ht : Spells (Attribute.piecesAll as) gs t) {pg : Page} {rest : List Char} (hrest : TagRest rest)
    {c : Cursor}
    (hc : c.Before pg .tag (name.toList ++ (t ++ rest))) :
    c.kind = .ident ∧ ∃ x xs c₁ c₂, x.val = name ∧ Attribute.bareAll xs = Attribute.bareAll as ∧
      c₂.Before (pg.add (Piece.slots (Attribute.piecesAll xs)) gs) .tag rest ∧ ReadsTag c x c₁ ∧
      (c₂.kind ≠ .ident → ReadsAttributes c₁ (Attribute.levelsAll as) xs c₂) := by
  have hnext := tagRest_attributes has ht hrest
  obtain ⟨hkind, x, c₁, hx, hc₁, hread⟩ := readsTag hname hnext.stop hc
  have hplain : c₁.kind ≠ .symbol .dot ∧ c₁.kind ≠ .symbol .colon := by
    rcases hnext.kind hc₁ with h | h | h <;> simp [h]
  obtain ⟨xs, c₂, hbares, hc₂, hreads⟩ := readsBack_attributes has ht hrest hc₁
  exact ⟨hkind, x, xs, c₁, c₂, hx, hbares, hc₂, hread hplain.1 hplain.2, hreads⟩

theorem readsBack_element {e : Element} (hname : IsTagName e.name.val.toList)
    (hself : e.selfClosing = true → e.children = [])
    (hadjacent : Chain.adjacentText? e.children = none) (has : ∀ a ∈ e.attrs, a.ReadsBack)
    (hcs : ∀ c ∈ e.children, c.ReadsBack) : (Markup.element e).ReadsBack := by
  intro gs t ht
  obtain ⟨name, attrs, children, selfClosing, span⟩ := e
  obtain ⟨d, r, hcons, hequals, hslash, hstar⟩ := tagName_cons hname
  simp only [Markup.toExpr, Expr.pieces, Element.pieces, spells_text, spells_append] at ht
  obtain ⟨_, ⟨u, v, g, h, hu, hv, rfl, rfl⟩, rfl⟩ := ht
  refine ⟨d, r ++ (u ++ v), by simp [hcons], hequals, fun pg rest c hc => ?_⟩
  have hc : c.Before pg .tag (name.val.toList ++ (u ++ (v ++ rest))) := by simpa [hcons] using hc
  cases selfClosing with
  | true =>
    obtain rfl : children = [] := hself rfl
    simp only [List.isEmpty_nil, Bool.and_self, ↓reduceIte, spells_text, spells_nil] at hv
    obtain ⟨_, ⟨rfl, rfl⟩, rfl⟩ := hv
    obtain ⟨hkind, x, xs, c₁, c₂, hx, hbares, hc₂, hread, hreads⟩ :=
      readsBack_opening hname has hu ((@TagRest.closeSelf rest)) hc
    refine ⟨by simp [hkind], fun start after => ?_⟩
    obtain ⟨hval, hnext⟩ := (hc₂.of_space (by decide)).symbol (by decide) rfl (.inr (by simp))
    obtain ⟨hval', hnext'⟩ :=
      (hnext .tag).symbol (by decide) (Scanner.symbol?_angle _).2 (.inl (by decide))
    have hslash := Cursor.kind_symbol.2 hval
    simp only [Markup.toExpr, Expr.levels, Element.levels, Child.levelsAll, Nat.max_zero]
    refine ⟨.element ⟨x, xs, [], true, start.merge ((c₂.bump .tag).bump after).last⟩,
      (c₂.bump .tag).bump after, ?_, .selfClosing (by simp [hkind]) hread
        (hreads (by simp [hslash])) hslash (Cursor.kind_symbol.2 hval'), ?_⟩
    · simp [Markup.bare, Element.bare, hbares, Spanned.bare, hx]
    · simpa [Expr.pieces, Element.pieces] using hnext' after
  | false =>
    simp only [Bool.false_and, Bool.false_eq_true, ↓reduceIte, spells_text, spells_append,
      spells_nil] at hv
    obtain ⟨_, ⟨w, _, h, _, hw, ⟨_, ⟨rfl, rfl⟩, rfl⟩, rfl, rfl⟩, rfl⟩ := hv
    have hc : c.Before pg .tag (name.val.toList ++ (u ++
        '>' :: (w ++ '<' :: '/' :: (name.val.toList ++ '>' :: rest)))) := by simpa using hc
    obtain ⟨hkind, x, xs, c₁, c₂, hx, hbares, hc₂, hread, hreads⟩ :=
      readsBack_opening hname has hu .close hc
    refine ⟨by simp [hkind], fun start after => ?_⟩
    obtain ⟨hval, hnext⟩ := hc₂.symbol (by decide) (Scanner.symbol?_angle _).2 (.inl (by decide))
    have hgt := Cursor.kind_symbol.2 hval
    obtain ⟨ys, c₃, hbares', hreads', hc₃⟩ := readsBack_children hcs hadjacent hw
      (by simp [hcons, hslash, hstar]) (hnext .child)
    obtain ⟨-, y, c₄, hy, hc₄, hread'⟩ := readsTag hname (by rintro d ⟨⟩; decide) hc₃
    obtain ⟨hval', hnext'⟩ := hc₄.symbol (by decide) (Scanner.symbol?_angle _).2 (.inl (by decide))
    have hclose := Cursor.kind_symbol.2 hval'
    refine ⟨.element ⟨x, xs, ys, false, start.merge (c₄.bump after).last⟩, c₄.bump after, ?_,
      .element (by simp [hkind]) hread (hreads (by simp [hgt])) hgt hreads'
        (hread' (by simp [hclose]) (by simp [hclose])) (hy.trans hx.symm) hclose, ?_⟩
    · simp [Markup.bare, Element.bare, hbares, hbares', Spanned.bare, hx]
    · simpa [Markup.toExpr, Expr.pieces, Element.pieces] using hnext' after

end BranchMarkup
