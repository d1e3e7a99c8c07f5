import BranchMarkup.Proofs.Printing.Operand
import BranchMarkup.Proofs.Reading.Legible
/-! Expressions read back, one kind after another: where the parts of a printed expression read back,
the expression does. -/
namespace BranchMarkup

open Scanner (Stops IsWord IsNumber Begins Trivia symbol?)
open Parse (ReadsAt ReadsExpr ReadsArguments atom? closes_of_symbol)

/-- Whatever the pieces spell, a reader takes it for the expression, up to spans, as one of
precedence `p` and `h` levels deep, and goes on right behind it. The comments in it are those of the
places that were passed, and the first token is right here. -/
def ReadsBackAt (p h : Nat) (ps : List Piece) (e : Expr) : Prop :=
  ∀ ⦃pg gs t rest c⦄, Spells ps gs t → Stops rest → Cursor.Before pg .script (t ++ rest) c →
    c.Fresh pg ∧ ∃ x d, Cursor.Before (pg.add (Piece.slots x.pieces) gs) .script rest d ∧
      x.bare = e.bare ∧ ReadsAt p h c x d

def Expr.ReadsBack (e : Expr) : Prop := ReadsBackAt e.precedence e.levels e.pieces e

theorem stops_cons {c : Char} {r : List Char} (h : Scanner.isNamePart c = false) (hdot : c ≠ '.') :
    Stops (c :: r) := by
  rintro d ⟨⟩
  exact ⟨h, fun heq => absurd heq hdot⟩

theorem ne_of_beginsExpr {j k : Token.Kind} (h : Parse.beginsExpr j = true)
    (hk : Parse.beginsExpr k = false) : j ≠ k := by
  rintro rfl
  rw [h] at hk
  cases hk

/-! Expressions that are a token -/

theorem plain_of_atom? {t : Token} {span : Span} {e : Expr} (h : atom? ⟨t, span⟩ = some e) :
    UnaryOp.ofToken? t = none ∧ t ≠ .endOfFile := by
  unfold atom? at h
  split at h <;> first
    | cases h; done
    | (next ht =>
        obtain rfl : t = _ := ht
        exact ⟨rfl, by simp⟩)

theorem slots_of_atom? {t : Spanned Token} {e : Expr} (h : atom? t = some e) :
    Piece.slots e.pieces = [] := by
  unfold atom? at h
  split at h <;> cases h <;> rfl

theorem readsBackAt_atom {p : Nat} {s : String} {t : Token} {e : Expr}
    (hbegins : ∀ rest, Stops rest → Begins .script (s.toList ++ rest) t rest)
    (hatom : ∀ span, ∃ x, atom? ⟨t, span⟩ = some x ∧ x.bare = e.bare) :
    ReadsBackAt p 0 [.text s] e := by
  intro pg gs u rest c hu hrest hc
  obtain ⟨_, ⟨rfl, rfl⟩, rfl⟩ := spells_text.1 hu
  rw [List.append_nil] at hc
  have hbegins := hbegins rest hrest
  obtain ⟨x, hx, hbare⟩ := hatom c.token.span
  obtain ⟨hop, hend⟩ := plain_of_atom? hx
  have hval := hc.val hbegins
  refine ⟨hc.fresh hbegins, x, c.bump .script, ?_, hbare, .of_primary ?_ (.atom ?_)⟩
  · rw [slots_of_atom? hx, Page.add_nil]
    exact hc.bump hbegins hend _
  · rw [hval, hop]
  · rw [← hx, ← hval]

theorem begins_keyword (k : Keyword) {rest : List Char} (hrest : Stops rest) :
    Begins .script (k.text.toList ++ rest) (.keyword k) rest := by
  have hword : IsWord .script k.text.toList := by
    cases k <;> exact ⟨_, _, rfl, by decide, List.all_eq_true.1 (by decide)⟩
  have hbegins := Scanner.begins_word hword fun c hc => (hrest c hc).1
  rwa [String.ofList_toList, Token.ofWord, Keyword.ofText?_text] at hbegins

theorem begins_ident {name : String} (h : IsIdent name) {rest : List Char}
    (hrest : ∀ c ∈ rest.head?, Scanner.isNamePart c = false) :
    Begins .script (name.toList ++ rest) (.ident name) rest := by
  have hbegins := Scanner.begins_word h.1 hrest
  rwa [String.ofList_toList, Token.ofWord, h.2] at hbegins

theorem Expr.readsBack_literal {value : Literal} {span : Span}
    (h : (Expr.literal value span).Legible) : (Expr.literal value span).ReadsBack := by
  cases value with
  | null => exact readsBackAt_atom (fun _ => begins_keyword .kwNull) fun _ => ⟨_, rfl, rfl⟩
  | bool b =>
    cases b with
    | true => exact readsBackAt_atom (fun _ => begins_keyword .kwTrue) fun _ => ⟨_, rfl, rfl⟩
    | false => exact readsBackAt_atom (fun _ => begins_keyword .kwFalse) fun _ => ⟨_, rfl, rfl⟩
  | number digits =>
    have hbegins : ∀ rest, Stops rest →
        Begins .script (digits.toList ++ rest) (.number digits) rest := by
      intro rest hrest
      have hbegins := Scanner.begins_number (legible_number.1 h) hrest
      rwa [String.ofList_toList] at hbegins
    exact readsBackAt_atom hbegins fun _ => ⟨_, rfl, rfl⟩
  | string s =>
    exact readsBackAt_atom (fun rest _ => Scanner.begins_string s rest) fun _ => ⟨_, rfl, rfl⟩

theorem Expr.readsBack_ident {name : String} {span : Span} (h : IsIdent name) :
    (Expr.ident name span).ReadsBack :=
  readsBackAt_atom (fun _ hrest => begins_ident h fun c hc => (hrest c hc).1) fun _ => ⟨_, rfl, rfl⟩

/-! Operands -/

/-- Where it binds too loosely, an expression is read from inside parentheses. -/
theorem Expr.ReadsBack.operand {e : Expr} (he : e.ReadsBack) (m : Nat) :
    ReadsBackAt m (Piece.groupLevels (e.precedence < m) e.levels)
      (Piece.parenthesized (e.precedence < m) e.pieces) e := by
  intro pg gs t rest c ht hrest hc
  by_cases hm : e.precedence < m
  · simp only [hm, decide_true, Piece.parenthesized, Piece.groupLevels, ↓reduceIte, spells_text,
      spells_append, spells_nil] at ht ⊢
    obtain ⟨_, ⟨u, _, gs, _, hu, ⟨_, ⟨rfl, rfl⟩, rfl⟩, rfl, rfl⟩, rfl⟩ := ht
    have hc : c.Before pg .script ('(' :: (u ++ ')' :: rest)) := by simpa using hc
    obtain ⟨hopen, hin⟩ := hc.symbol (by decide) rfl (.inl (by decide))
    obtain ⟨-, x, d, hd, hbare, hread⟩ := he hu (stops_cons rfl (by decide)) (hin .script)
    obtain ⟨hclose, hout⟩ := hd.symbol (by decide) rfl (.inl (by decide))
    rw [List.append_nil]
    exact ⟨hc.fresh_symbol (by decide) rfl (.inl (by decide)), x, d.bump .script, hout .script, hbare,
      hread.parenthesized hopen hclose⟩
  · simp only [hm, decide_false, Piece.parenthesized, Piece.groupLevels, Bool.false_eq_true,
      ↓reduceIte] at ht ⊢
    obtain ⟨hfresh, x, d, hd, hbare, hread⟩ := he ht hrest hc
    exact ⟨hfresh, x, d, hd, hbare, hread.mono (Nat.le_of_not_lt hm)⟩

theorem symbol?_equals (r : List Char) : ∃ s r', symbol? .script ('=' :: r) = some (s, r') ∧
    Parse.beginsExpr (.symbol s) = false := by
  unfold symbol?
  split <;> first
    | (next heq =>
        cases heq
        done)
    | (next heq =>
        cases heq
        exact ⟨_, _, rfl, by rfl⟩)
    | simp_all

/-- An equals sign begins no expression, whatever it is joined with. -/
theorem beginsExpr_equals {pg : Page} {c : Cursor} {r : List Char}
    (hc : c.Before pg .script ('=' :: r)) : Parse.beginsExpr c.kind = false := by
  obtain ⟨s, r', hs, hno⟩ := symbol?_equals r
  rw [Cursor.kind_symbol.2 (hc.symbol (by decide) hs (.inl (by decide))).1, hno]

/-- So a sign before an expression takes nothing of it in. -/
theorem ReadsBackAt.head_ne {p h : Nat} {ps : List Piece} {e : Expr} (he : ReadsBackAt p h ps e)
    {gs : List (List String)} {t rest : List Char} (ht : Spells ps gs t) (hrest : Stops rest) :
    ∀ d ∈ (t ++ rest).head?, d ≠ '=' := by
  rintro d hd rfl
  obtain ⟨c, hc⟩ : ∃ c, Cursor.Before (Cursor.firstPage (t ++ rest)) .script (t ++ rest) c :=
    ⟨_, Cursor.before_ofText _⟩
  obtain ⟨-, x, d, -, -, hread⟩ := he ht hrest hc
  have hbegins := hread.begins
  cases heq : t ++ rest with
  | nil => simp [heq] at hd
  | cons d r =>
    rw [heq] at hd hc
    cases hd
    rw [beginsExpr_equals hc] at hbegins
    cases hbegins

/-! Members and calls -/

theorem word?_of_val {c : Cursor} {s : String} (h : c.token.val = .ofWord s) : c.word? = some s := by
  unfold Cursor.word?
  rcases Token.ofWord_cases s with ⟨k, hk, ht⟩ | ⟨-, ht⟩
  · rw [h, ht, ← hk]
  · rw [h, ht]

theorem stops_dot {w rest : List Char} (h : IsWord .script w) : Stops ('.' :: (w ++ rest)) := by
  obtain ⟨c, r, rfl, hc, -⟩ := h
  rintro d ⟨⟩
  refine ⟨rfl, fun _ e he => ?_⟩
  cases he
  by_contra hdigit
  rw [Bool.not_eq_false] at hdigit
  rw [Scanner.not_isNameStart_of_isDigit hdigit] at hc
  cases hc

theorem Expr.readsBack_member {object : Expr} {property : Spanned String} {span : Span}
    (ho : object.ReadsBack) (hp : IsWord .script property.val.toList) :
    (Expr.member object property span).ReadsBack := by
  intro pg gs t rest c ht hrest hc
  simp only [pieces, spells_append, spells_text, spells_nil] at ht
  obtain ⟨u, _, gs, _, hu, ⟨_, ⟨rfl, rfl⟩, rfl⟩, rfl, rfl⟩ := ht
  have hc : c.Before pg .script (u ++ '.' :: (property.val.toList ++ rest)) := by simpa using hc
  obtain ⟨hfresh, x, d, hd, hbare, hread⟩ := ho.operand 15 hu (stops_dot hp) hc
  obtain ⟨hdot, hname⟩ := hd.symbol (by decide) rfl (.inl (by decide))
  have hword := Scanner.begins_word hp fun c hc => (hrest c hc).1
  rw [String.ofList_toList] at hword
  have hrest' := (hname .script).bump hword (Token.ofWord_ne_endOfFile _) .script
  have hval := word?_of_val ((hname .script).val hword)
  refine ⟨hfresh, .member x ⟨property.val, (d.bump .script).token.span⟩
    (x.span.merge (d.bump .script).token.span), (d.bump .script).bump .script, ?_, ?_,
    .of_trailing hread.begins ?_⟩
  · simpa [pieces] using hrest'
  · simp [bare, hbare, Spanned.bare]
  · intro k out last hmore
    exact hread.trailing (Nat.le_refl 15) (.member (Cursor.kind_symbol.2 hdot) hval hmore)

/-- Before a symbol that ends it, perhaps after a blank, an expression is read as a whole. -/
theorem ReadsBackAt.closed {p h : Nat} {ps : List Piece} {e : Expr} (he : ReadsBackAt p h ps e)
    {pg : Page} {gs : List (List String)} {t w r r' : List Char} {d : Char} {s : Symbol} {c : Cursor}
    (ht : Spells ps gs t) (hw : Trivia [] w) (hstops : Stops (w ++ d :: r))
    (hc : c.Before pg .script (t ++ (w ++ d :: r)))
    (hs : symbol? .script (d :: r) = some (s, r')) (hend : Parse.endsExpr s = true) :
    c.Fresh pg ∧ ∃ x c', x.bare = e.bare ∧ ReadsExpr c h x c' ∧ c'.token.val = .symbol s ∧
      c'.Fresh (pg.add (Piece.slots x.pieces) gs) ∧
      ∀ after, (c'.bump after).Before (pg.add (Piece.slots x.pieces) gs) after r' := by
  obtain ⟨hfresh, x, c', hc', hbare, hread⟩ := he ht hstops hc
  have hslash : d ≠ '/' := by
    rintro rfl
    cases hs
    cases hend
  have hc' := hc'.of_blank (by decide) hw
  obtain ⟨hval, hnext⟩ := hc'.symbol (by decide) hs (.inl hslash)
  exact ⟨hfresh, x, c', hbare, hread.expr (closes_of_symbol hval hend), hval,
    hc'.fresh_symbol (by decide) hs (.inl hslash), hnext⟩

theorem Expr.slots_argumentPieces_cons (e : Expr) (es : List Expr) :
    Piece.slots (Expr.argumentPieces (e :: es)) =
      Piece.slots e.pieces ++ Piece.slots (Expr.argumentPieces es) := by
  cases es <;> simp [Expr.argumentPieces]

/-- Arguments, up to the parenthesis that ends them. -/
theorem readsBack_arguments {es : List Expr} (hes : ∀ e ∈ es, e.ReadsBack) {pg : Page}
    {gs : List (List String)} {t rest : List Char} {c : Cursor}
    (ht : Spells (Expr.argumentPieces es) gs t) (hc : c.Before pg .script (t ++ ')' :: rest)) :
    ∃ xs d, Expr.bareAll xs = Expr.bareAll es ∧ ReadsArguments c (Expr.levelsAll es) xs d ∧
      d.token.val = .symbol .rparen ∧ ∀ after,
        (d.bump after).Before (pg.add (Piece.slots (Expr.argumentPieces xs)) gs) after rest := by
  have hstops : Stops (')' :: rest) := stops_cons rfl (by decide)
  induction es generalizing pg gs t c with
  | nil =>
    obtain ⟨rfl, rfl⟩ := spells_nil.1 ht
    obtain ⟨hval, hnext⟩ := hc.symbol (by decide) rfl (.inl (by decide))
    exact ⟨[], c, rfl, .none (Cursor.kind_symbol.2 hval), hval, by simpa [Expr.argumentPieces]⟩
  | cons e es ih =>
    rw [List.forall_mem_cons] at hes
    cases es with
    | nil =>
      obtain ⟨-, x, d, hbare, hread, hval, -, hnext⟩ := hes.1.closed ht .nil hstops hc rfl rfl
      refine ⟨[x], d, ?_, ?_, hval, hnext⟩
      · simp [Expr.bareAll, hbare]
      · rw [Expr.levelsAll, Expr.levelsAll, Nat.max_zero]
        exact .last (ne_of_beginsExpr hread.beginsExpr rfl) hread (by simp [Cursor.kind_symbol, hval])
    | cons f es =>
      simp only [Expr.argumentPieces, spells_append, spells_text] at ht
      obtain ⟨u, _, gs, hs, hu, ⟨v, hv, rfl⟩, rfl, rfl⟩ := ht
      have hc : c.Before pg .script (u ++ ',' :: ' ' :: (v ++ ')' :: rest)) := by simpa using hc
      obtain ⟨-, x, d, hbare, hread, hval, -, hnext⟩ :=
        hes.1.closed hu .nil (stops_cons rfl (by decide)) hc rfl rfl
      obtain ⟨xs, d', hbares, hreads, hclose, hend⟩ :=
        ih hes.2 hv ((hnext .script).of_space (by decide))
      refine ⟨x :: xs, d', ?_, ?_, hclose, fun after => ?_⟩
      · simp [Expr.bareAll, hbare, hbares]
      · exact .more (ne_of_beginsExpr hread.beginsExpr rfl) hread (Cursor.kind_symbol.2 hval) hreads
      · rw [Expr.slots_argumentPieces_cons, ← Page.add_add]
        exact hend after

theorem Expr.readsBack_call {callee : Expr} {args : List Expr} {span : Span}
    (hcallee : callee.ReadsBack) (hargs : ∀ e ∈ args, e.ReadsBack) :
    (Expr.call callee args span).ReadsBack := by
  intro pg gs t rest c ht hrest hc
  simp only [pieces, spells_append, spells_text, spells_nil] at ht
  obtain ⟨u, _, gs, _, hu, ⟨_, ⟨v, _, hs, _, hv, ⟨_, ⟨rfl, rfl⟩, rfl⟩, rfl, rfl⟩, rfl⟩, rfl, rfl⟩ := ht
  have hc : c.Before pg .script (u ++ '(' :: (v ++ ')' :: rest)) := by simpa using hc
  obtain ⟨hfresh, x, d, hd, hbare, hread⟩ :=
    hcallee.operand 15 hu (stops_cons rfl (by decide)) hc
  obtain ⟨hopen, hin⟩ := hd.symbol (by decide) rfl (.inl (by decide))
  obtain ⟨xs, d', hbares, hreads, hclose, hout⟩ := readsBack_arguments hargs hv (hin .script)
  refine ⟨hfresh, .call x xs (x.span.merge (d'.bump .script).last), d'.bump .script, ?_, ?_,
    .of_trailing hread.begins ?_⟩
  · simpa [pieces] using hout .script
  · simp [bare, hbare, hbares]
  · intro k out last hmore
    have hcall := hread.trailing (Nat.le_refl 15)
      (.call (Cursor.kind_symbol.2 hopen) hreads (Cursor.kind_symbol.2 hclose) hmore)
    rwa [← Nat.max_assoc] at hcall

/-! Operators -/

theorem Expr.readsBack_unary {op : UnaryOp} {operand : Expr} {span : Span}
    (ho : operand.ReadsBack) : (Expr.unary op operand span).ReadsBack := by
  intro pg gs t rest c ht hrest hc
  simp only [pieces, spells_append, spells_text] at ht
  obtain ⟨_, ⟨w, v, g, gs, hw, hv, rfl, rfl⟩, rfl⟩ := ht
  obtain ⟨rfl, hblank⟩ : g = [] ∧ (w = [] ∨ w = [' ']) := by
    split at hw
    · obtain ⟨_, ⟨rfl, rfl⟩, rfl⟩ := spells_text.1 hw
      exact ⟨rfl, .inr rfl⟩
    · exact (spells_nil.1 hw).imp_right .inl
  have htrivia : Trivia [] w := by
    rcases hblank with rfl | rfl
    · exact .nil
    · exact .space rfl .nil
  obtain ⟨s, hs, hop, hbegins⟩ : ∃ s, symbol? .script (op.text.toList ++ (w ++ (v ++ rest))) =
      some (s, w ++ (v ++ rest)) ∧ UnaryOp.ofToken? (.symbol s) = some op ∧
        Parse.beginsExpr (.symbol s) = true := by
    cases op with
    | neg => exact ⟨.minus, rfl, rfl, rfl⟩
    | not =>
      refine ⟨.bang, (Scanner.symbol?_alone ?_).1, rfl, rfl⟩
      have hhead := (ho.operand 14).head_ne hv hrest
      rcases hblank with rfl | rfl
      · exact hhead
      · simp
  have hc : c.Before pg .script (op.text.toList ++ (w ++ (v ++ rest))) := by simpa using hc
  obtain ⟨hfresh, hval, hnext⟩ : c.Fresh pg ∧ c.token.val = .symbol s ∧
      ∀ after, (c.bump after).Before pg after (w ++ (v ++ rest)) := by
    cases op with
    | neg | not =>
      exact ⟨hc.fresh_symbol (by decide) hs (.inl (by decide)),
        hc.symbol (by decide) hs (.inl (by decide))⟩
  obtain ⟨-, x, d, hd, hbare, hread⟩ :=
    ho.operand 14 hv hrest ((hnext .script).of_blank (by decide) htrivia)
  rw [← hval] at hop
  rw [← Cursor.kind_symbol.2 hval] at hbegins
  refine ⟨hfresh, .unary op x (c.token.span.merge x.span), d, ?_, ?_,
    .of_unary (Nat.lt_succ_self 14) hbegins fun hlast => ?_⟩
  · have hblank : Piece.slots (if op = .neg && x.startsWithMinus then [.text " "] else []) = [] := by
      split <;> rfl
    rw [pieces, Piece.slots_text, Piece.slots_append, hblank, Piece.slots_parenthesized]
    exact hd
  · simp [bare, hbare]
  · exact .operator hop (hread.unary (Nat.le_refl 14) hlast)

theorem begins_binaryOp (op : BinaryOp) (r : List Char) : ∃ s,
    Begins .script (op.text.toList ++ ' ' :: r) (.symbol s) (' ' :: r) ∧
      BinaryOp.ofToken? (.symbol s) = some op := by
  cases op with
  | div => exact ⟨.slash, Scanner.begins_symbol (by decide) rfl (.inr (by simp)), rfl⟩
  | _ => exact ⟨_, Scanner.begins_symbol (by decide) rfl (.inl (by decide)), rfl⟩

theorem Expr.readsBack_binary {op : BinaryOp} {lhs rhs : Expr} {span : Span}
    (hl : lhs.ReadsBack) (hr : rhs.ReadsBack) : (Expr.binary op lhs rhs span).ReadsBack := by
  intro pg gs t rest c ht hrest hc
  simp only [pieces, spells_append, spells_text] at ht
  obtain ⟨u, _, gs, hs, hu, ⟨v, hv, rfl⟩, rfl, rfl⟩ := ht
  have hc : c.Before pg .script (u ++ ' ' :: (op.text.toList ++ ' ' :: (v ++ rest))) := by
    simpa using hc
  obtain ⟨s, hbegins, hop⟩ := begins_binaryOp op (v ++ rest)
  obtain ⟨hfresh, x, d, hd, hbare, hread⟩ :=
    hl.operand op.power hu (stops_cons rfl (by decide)) hc
  have hd := hd.of_space (by decide)
  have hval := hd.val hbegins
  obtain ⟨-, y, d', hd', hbare', hread'⟩ := hr.operand op.rightPower hv hrest
    ((hd.bump hbegins (by simp) .script).of_space (by decide))
  have huntrailed : Parse.Untrailed d := by
    constructor
    all_goals
      rw [Cursor.kind_symbol.2 hval]
      rintro ⟨⟩
      cases hop
  have hpower : 2 ≤ op.power ∧ op.power < 14 := by cases op <;> decide
  rw [← hval] at hop
  refine ⟨hfresh, .binary op x y (x.span.merge y.span), d', ?_, ?_,
    .of_binary hpower.2 hread.begins fun hlast hnext => ?_⟩
  · simpa [pieces] using hd'
  · simp [bare, hbare, hbare']
  · intro power k out last hle hmore
    have hright := hread'.binary (Nat.le_succ_of_le hpower.1) hlast
      (fun op' h => Nat.le_succ_of_le (hnext op' h)) (Nat.le_refl _)
      (.done fun op' h => Nat.lt_succ_of_le (hnext op' h))
    rw [Nat.max_zero] at hright
    have hwhole := hread.binary hpower.1 huntrailed
      (fun op' h => by rw [hop] at h; cases h; exact Nat.le_refl _) hle
      (.more hop hle hright hmore)
    rwa [← Nat.max_assoc] at hwhole

theorem Expr.readsBack_conditional {test consequent alternate : Expr}
    {provenance : Option Provenance} {span : Span} (ht : test.ReadsBack)
    (hx : consequent.ReadsBack) (hy : alternate.ReadsBack) :
    (Expr.conditional test consequent alternate provenance span).ReadsBack := by
  intro pg gs t rest c hpieces hrest hc
  simp only [pieces, spells_marked, spells_append, spells_text] at hpieces
  obtain ⟨u, _, gs, _, hu, ⟨_, ⟨v, _, hs, is, hv, ⟨w, hw, rfl⟩, rfl, rfl⟩, rfl⟩, rfl, rfl⟩ := hpieces
  have hc : c.Before pg .script
      (u ++ ' ' :: '?' :: ' ' :: (v ++ ' ' :: ':' :: ' ' :: (w ++ rest))) := by simpa using hc
  have hblank : Stops (' ' :: '?' :: ' ' :: (v ++ ' ' :: ':' :: ' ' :: (w ++ rest))) :=
    stops_cons rfl (by decide)
  obtain ⟨hfresh, x, d, hd, hbare, hread⟩ := ht.operand 2 hu hblank hc
  obtain ⟨hval, hnext⟩ := (hd.of_space (by decide)).symbol (by decide) rfl (.inl (by decide))
  have hquestion := Cursor.kind_symbol.2 hval
  obtain ⟨-, y, d', hbare', hread', hval', -, hnext'⟩ := (hx.operand 2).closed hv (.space rfl .nil)
    (stops_cons rfl (by decide)) ((hnext .script).of_space (by decide)) rfl rfl
  obtain ⟨-, z, d'', hd'', hbare'', hread''⟩ :=
    (hy.operand 2) hw hrest ((hnext' .script).of_space (by decide))
  have htest := hread.binary (Nat.le_refl 2) (by simp [Parse.Untrailed, hquestion])
    (by simp [hval, BinaryOp.ofToken?]) (Nat.zero_le 2)
    (.done (by simp [hval, BinaryOp.ofToken?]))
  rw [Nat.max_zero] at htest
  refine ⟨hfresh, .conditional x y z none (x.span.merge z.span), d'', ?_, ?_,
    .of_expr hread.begins fun hlast => ?_⟩
  · simpa [pieces, Piece.marked] using hd''
  · simp [bare, hbare, hbare', hbare'']
  · exact .conditional htest hquestion hread' (Cursor.kind_symbol.2 hval') (hread''.expr hlast)

end BranchMarkup
