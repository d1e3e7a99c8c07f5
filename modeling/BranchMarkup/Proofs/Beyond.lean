import BranchMarkup.Proofs.Tower
/-! What the bound on a text's length keeps out. Places are stored in 32 bits, so what is as far apart
as they count stands in one place. -/
namespace BranchMarkup

open Parse (ReadsAttributes ReadsChildren ReadsMarkup ReadsPrimary ReadsStatement ReadsStatements
  ReadsUnary opensStatement)
open Rewrite (Tower Cascade Walks)
open Text (byteLength byteLength_append byteLength_cons byteLength_nil)

/-! A program without comments -/

theorem Print.flatten_taken {p : Print} (h : p.comments = []) (ps : List Piece) :
    (p.taken ps).flatten = [] := by
  induction ps generalizing p with
  | nil => rfl
  | cons piece ps ih =>
    have hadd : (p.add piece).comments = [] := by rw [comments_add, h, List.filter_nil]
    rw [taken, List.flatten_append, ih hadd, h]
    cases piece <;> rfl

theorem spells_statement_of_none {cursor : UInt32} {s : Spanned Statement}
    {ss : List (Spanned Statement)} {gs : List (List String)} {t : List Char} (hgs : gs.flatten = [])
    (h : Spells (Program.piecesFrom cursor false (s :: ss)) gs t) :
    ∃ g u gs' v, gs'.flatten = [] ∧ Spells s.val.pieces g u ∧
      Spells (Program.piecesFrom s.span.stop s.val.isImport ss) gs' v ∧
      t = u ++ ';' :: '\n' :: v := by
  obtain ⟨_, t', cs, hs, ⟨-, rfl⟩, ht', rfl, rfl⟩ := spells_leading.1 h
  obtain ⟨rfl, hnone⟩ := List.append_eq_nil_iff.1 hgs
  obtain ⟨u, w, g, gs', hu, hw, hhs, rfl⟩ := spells_append.1 ht'
  obtain ⟨v, hv, rfl⟩ := spells_text.1 hw
  rw [hhs, List.flatten_append, List.append_eq_nil_iff] at hnone
  exact ⟨g, u, gs', v, hnone.2, hu, hv, rfl⟩

theorem Program.exists_spells_format (name : String) (e f : Expr) (s t : Span) :
    ∃ g h u v, Spells e.pieces g u ∧ Spells f.pieces h v ∧
      (Program.format ⟨name, [⟨.expr e, s⟩, ⟨.expr f, t⟩], []⟩).toList =
        u ++ ';' :: '\n' :: (v ++ [';', '\n']) := by
  have hspells := spells_format (p := ⟨name, [⟨.expr e, s⟩, ⟨.expr f, t⟩], []⟩) nofun
  have hgroups := Print.flatten_taken (p := Print.ofComments []) rfl
    (pieces ⟨name, [⟨.expr e, s⟩, ⟨.expr f, t⟩], []⟩)
  obtain ⟨g, u, gs, w, hgs, hu, hw, htext⟩ := spells_statement_of_none hgroups hspells
  obtain ⟨h, v, hs, w', hhs, hv, hw', rfl⟩ := spells_statement_of_none hgs hw
  obtain ⟨_, _, cs, _, ⟨-, rfl⟩, ⟨rfl, rfl⟩, rfl, rfl⟩ := spells_trailing.1 hw'
  obtain ⟨rfl, -⟩ := List.append_eq_nil_iff.1 hhs
  exact ⟨g, h, u, v, hu, hv, htext⟩

/-! Quotes, each of which takes two bytes once it is escaped -/

def quotes (m : Nat) : String := String.ofList (List.replicate m '"')

theorem quotes_bytes (m : Nat) : (quotes m).utf8ByteSize = m := by
  rw [← Text.byteLength_toList, quotes, String.toList_ofList, Text.byteLength_replicate]
  exact Nat.mul_one m

theorem flatMap_quoteChar_bytes (m : Nat) :
    byteLength ((List.replicate m '"').flatMap quoteChar) = 2 * m := by
  induction m with
  | zero => rfl
  | succ m ih =>
    have hone : byteLength (quoteChar '"') = 2 := by decide
    rw [List.replicate_succ, List.flatMap_cons, byteLength_append, ih, hone]
    omega

theorem quoteString_quotes_bytes (m : Nat) : byteLength (quoteString (quotes m)).toList = 2 * m + 2 := by
  have hquote : '"'.utf8Size = 1 := by decide
  rw [quoteString, quotes, String.toList_ofList, String.toList_ofList, byteLength_cons,
    byteLength_append, flatMap_quoteChar_bytes, byteLength_cons, byteLength_nil, hquote]
  omega

theorem isRawText_quotes {m : Nat} (hm : 0 < m) : IsRawText (quotes m) := by
  obtain ⟨m, rfl⟩ := Nat.exists_eq_add_one.2 hm
  refine ⟨fun h => ?_, fun c hc => ?_⟩
  · have := quotes_bytes (m + 1)
    rw [h] at this
    cases this
  · rw [quotes, String.toList_ofList] at hc
    rw [(List.mem_replicate.1 hc).2]
    decide

theorem isSignificant_quotes {m : Nat} (hm : 0 < m) {s : Span} :
    (Child.text (quotes m) s).isSignificant = true := by
  obtain ⟨m, rfl⟩ := Nat.exists_eq_add_one.2 hm
  have hquote : Text.isBlank '"' = false := by decide
  rw [Child.isSignificant, quotes, String.toList_ofList, List.replicate_succ, List.all_cons, hquote]
  rfl

/-! The text of conditionals in each other -/

theorem spells_conditional {c : Expr} {s t span : Span} {origin : Option Provenance}
    {gs : List (List String)} {w : List Char}
    (h : Spells (Expr.conditional (.literal (.bool true) s) c (.nullAt t) origin span).pieces gs w) :
    ∃ u, Spells (Piece.parenthesized (c.precedence < 2) c.pieces) gs u ∧
      w = "true ? ".toList ++ (u ++ " : null".toList) := by
  rw [Expr.pieces, spells_marked] at h
  obtain ⟨x, y, g, g', hx, hy, rfl, rfl⟩ := spells_append.1 h
  obtain ⟨_, ⟨rfl, rfl⟩, rfl⟩ := spells_text.1 hx
  obtain ⟨y, hy', rfl⟩ := spells_text.1 hy
  obtain ⟨u, z, g, g', hu, hz, rfl, rfl⟩ := spells_append.1 hy'
  obtain ⟨z, hz', rfl⟩ := spells_text.1 hz
  obtain ⟨_, ⟨rfl, rfl⟩, rfl⟩ := spells_text.1 hz'
  refine ⟨u, by rwa [List.append_nil], rfl⟩

theorem isRaw_parenthesized {ps : List Piece} {needed : Bool}
    (h : ∀ gs t, Spells ps gs t → t.all (fun d => d != '<' && d != '\x7b') = true)
    {gs : List (List String)} {t : List Char} (ht : Spells (Piece.parenthesized needed ps) gs t) :
    t.all (fun d => d != '<' && d != '\x7b') = true := by
  cases needed with
  | false => exact h _ _ ht
  | true =>
    obtain ⟨_, hw, rfl⟩ := spells_text.1 ht
    obtain ⟨u, _, g, g', hu, hclose, rfl, rfl⟩ := spells_append.1 hw
    obtain ⟨_, ⟨rfl, rfl⟩, rfl⟩ := spells_text.1 hclose
    rw [List.all_append, List.all_append, h _ _ hu]
    rfl

namespace Rewrite

theorem Cascade.isRaw {n : Nat} {c : Expr} (hc : Cascade .null n c) {gs : List (List String)}
    {t : List Char} (ht : Spells c.pieces gs t) :
    t.all (fun d => d != '<' && d != '\x7b') = true := by
  induction hc generalizing gs t with
  | top =>
    obtain ⟨_, ⟨rfl, rfl⟩, rfl⟩ := spells_text.1 ht
    rfl
  | @arm n c _ _ _ _ _ ih =>
    obtain ⟨u, hu, rfl⟩ := spells_conditional ht
    rw [List.all_append, List.all_append, isRaw_parenthesized (fun _ _ => ih) hu]
    rfl

end Rewrite

/-! A comparison that looks like an element behind its first token -/

inductive Expr.Tagged (P : Expr → Prop) : Expr → Prop where
  | mk {e s₁ s₂ s₃ s₄ s₅ s₆} : P e → Tagged P
      (.binary .gt (.binary .lt (.literal (.bool true) s₁) (.ident "b" s₂) s₃)
        (.binary .add e (.literal (.string "</b>//") s₄) s₅) s₆)

/-- The text behind the `<`, where `s` stands as the child of an element would. -/
def taggedText (s : String) : List Char :=
  "b".toList ++ ' ' :: '>' ::
    (s.toList ++ '<' :: '/' :: ("b".toList ++ '>' :: '/' :: '/' :: ['"', ';', '\n']))

theorem Expr.Tagged.exists_text {n : Nat} {f : Expr} (hf : f.Tagged (Cascade .null n))
    {gs : List (List String)} {t : List Char} (ht : Spells f.pieces gs t) :
    ∃ s, IsRawText s ∧ t ++ [';', '\n'] = "true".toList ++ ' ' :: '<' :: ' ' :: taggedText s := by
  cases hf with
  | @mk e _ _ _ _ _ _ he =>
    obtain ⟨lhs, w, g, g', hlhs, hw, rfl, rfl⟩ := spells_append.1 ht
    obtain ⟨x, y, h, h', hx, hy, rfl, rfl⟩ := spells_append.1 hlhs
    obtain ⟨_, ⟨rfl, rfl⟩, rfl⟩ := spells_text.1 hx
    obtain ⟨y, hname, rfl⟩ := spells_text.1 hy
    obtain ⟨_, ⟨rfl, rfl⟩, rfl⟩ := spells_text.1 hname
    obtain ⟨w, hrhs, rfl⟩ := spells_text.1 hw
    obtain ⟨u, v, k, k', hu, hv, rfl, rfl⟩ := spells_append.1 hrhs
    obtain ⟨v, hstring, rfl⟩ := spells_text.1 hv
    obtain ⟨_, ⟨rfl, rfl⟩, rfl⟩ := spells_text.1 hstring
    have hraw := isRaw_parenthesized (fun _ _ => he.isRaw) hu
    refine ⟨String.ofList (' ' :: (u ++ [' ', '+', ' ', '"'])), ⟨by simp, ?_⟩, ?_⟩
    · have hall : (' ' :: (u ++ [' ', '+', ' ', '"'])).all (fun d => d != '<' && d != '\x7b') = true := by
        rw [List.all_cons, List.all_append, hraw]
        rfl
      rw [String.toList_ofList]
      simpa using List.all_eq_true.1 hall
    · have hlt : (" " ++ BinaryOp.lt.text ++ " ").toList = [' ', '<', ' '] := rfl
      have hgt : (" " ++ BinaryOp.gt.text ++ " ").toList = [' ', '>', ' '] := rfl
      have hadd : (" " ++ BinaryOp.add.text ++ " ").toList = [' ', '+', ' '] := rfl
      have hstring : (Literal.string "</b>//").text.toList =
        '"' :: '<' :: '/' :: ("b".toList ++ ['>', '/', '/', '"']) := rfl
      have htext := String.toList_ofList (l := ' ' :: (u ++ [' ', '+', ' ', '"']))
      rw [hlt, hgt, hadd, hstring, taggedText, htext]
      simp only [List.append_assoc, List.cons_append, List.nil_append]
      rfl

theorem Expr.Tagged.walks [NestingLimit] {top : Literal} {n : Nat} {f : Expr}
    (hf : f.Tagged (Tower top n)) (hn : ∀ k ≤ 2 * n, NestingLimit.Admits k) :
    ∃ k f', Walks 0 f k f' ∧ f'.Tagged (Cascade top n) := by
  cases hf with
  | mk he =>
    obtain ⟨k, e, hw, he⟩ := he.walks (d := 0) (by rwa [Nat.zero_add])
    exact ⟨_, _, .binary (.binary .literal .ident) (.binary hw .literal), .mk he⟩

theorem reads_tagged {pg : Page} {c : Cursor} {s : String} (hs : IsRawText s)
    (hc : c.Before pg .script ('<' :: ' ' :: taggedText s)) :
    ∃ e span c', ReadsStatement c 1 ⟨.expr (.element e), span⟩ c' ∧ c'.kind = .endOfFile ∧
      c'.scanner.faults = [] := by
  have hword : Scanner.IsWord .tag "b".toList := ⟨'b', [], rfl, by decide, List.forall_mem_nil _⟩
  obtain ⟨hlt, hc₁⟩ := hc.symbol (by decide) rfl (.inl (by decide))
  obtain ⟨hname, hc₂⟩ := ((hc₁ .tag).of_space (by decide)).tagWord hword
  obtain ⟨hgt, hc₃⟩ := hc₂.symbol (by decide) (Scanner.symbol?_angle _).2 (.inl (by decide))
  have htext : Scanner.Begins .child
      (s.toList ++ '<' :: '/' :: ("b".toList ++ '>' :: '/' :: '/' :: ['"', ';', '\n'])) (.text s) _ :=
    Scanner.begins_text hs (by rintro _ ⟨⟩; exact .inl rfl)
  have hc₄ := (hc₃ .child).bump htext (by simp) .child
  have hopen := Scanner.begins_childOpen ('/' :: ("b".toList ++ '>' :: '/' :: '/' :: ['"', ';', '\n']))
  obtain ⟨hslash, hc₅⟩ := (hc₄.bump hopen (by simp) .tag).symbol (by decide) rfl
    (.inr (by rintro _ ⟨⟩; decide))
  have hclosing : Scanner.Begins .tag ("b".toList ++ '>' :: '/' :: '/' :: ['"', ';', '\n'])
      (.ident (String.ofList "b".toList)) _ :=
    Scanner.begins_tagWord hword (by rintro _ ⟨⟩; decide)
  have hc₆ := (hc₅ .tag).bump hclosing (by simp) .tag
  obtain ⟨hgt', hc₇⟩ := hc₆.symbol (by decide) (Scanner.symbol?_angle _).2 (.inl (by decide))
  have hline : Scanner.Trivia _ ('/' :: '/' :: (['"', ';'] ++ '\n' :: [])) :=
    .line (by simp) .nil
  have hc₈ : Cursor.Before _ .script [] _ := (hc₇ .script).of_trivia (by decide) hline
  have hend := Cursor.kind_endOfFile.2 (hc₈.val (Scanner.begins_end (by decide)))
  have hlt := Cursor.kind_symbol.2 hlt
  have hgt := Cursor.kind_symbol.2 hgt
  have hgt' := Cursor.kind_symbol.2 hgt'
  have hchildren := ReadsChildren.text (hc₃ .child |>.val htext)
    (.close (Cursor.kind_symbol.2 (hc₄.val hopen)) (Cursor.kind_symbol.2 hslash))
  have hmarkup : ReadsMarkup c.token.span .script _ _ _ _ := .element
    (by simp [Cursor.kind_ident.2 ⟨_, hname⟩])
    (.name hname (.done (by simp [hgt]) (by simp [hgt])))
    (.done (by simp [hgt]) (by simp [hgt])) hgt hchildren
    (.name ((hc₅ .tag).val hclosing) (.done (by simp [hgt']) (by simp [hgt']))) (by simp) hgt'
  have hexpr := ((ReadsPrimary.markup hlt hmarkup).readsUnary (.inr hend)).readsExpr (.inr hend)
  have hopens : opensStatement c.kind = false := by rw [hlt]; rfl
  exact ⟨_, _, _, .bare (.expr hopens hexpr) (by simp [hend]), hend,
    hc₈.faults_eq (Scanner.begins_end (by decide))⟩

theorem Rewrite.Cascade.string {value : String} {e : Expr} (h : Cascade (.string value) 1 e) :
    e.Legible ∧ e.levels = 1 ∧ ∀ gs u, Spells e.pieces gs u →
      u = "true".toList ++ ' ' :: ("? ".toList ++ ((quoteString value).toList ++ " : null".toList)) := by
  cases h with
  | arm htop =>
    cases htop with
    | top =>
      refine ⟨by simp, rfl, fun gs u hu => ?_⟩
      obtain ⟨v, hv, rfl⟩ := spells_conditional hu
      obtain ⟨_, ⟨rfl, rfl⟩, rfl⟩ := spells_text.1 hv
      rw [List.append_nil]
      rfl

/-- Statements that begin with one word, the second of them as far behind the first as a place can
count: the word is not read again. -/
theorem readsStatements_skipped {pg : Page} {c : Cursor} {e : Expr} (he : e.Legible)
    {gs : List (List String)} {k u r : List Char} (hu : Spells e.pieces gs u)
    (hk : Scanner.IsWord .script k) (hfirst : u = k ++ ' ' :: r)
    (hsize : byteLength u + 2 = UInt32.size) {child : String} (hchild : IsRawText child)
    (hc : c.Before pg .script
      (u ++ ';' :: '\n' :: (k ++ ' ' :: '<' :: ' ' :: taggedText child))) :
    ∃ x elem s t c', ReadsStatements c (max e.levels 1)
      [⟨.expr x, s⟩, ⟨.expr (.element elem), t⟩] c' ∧ c'.scanner.faults = [] := by
  have hbegins (r : List Char) : Scanner.Begins .script (k ++ ' ' :: r)
      (.ofWord (String.ofList k)) (' ' :: r) := Scanner.begins_word hk (by rintro _ ⟨⟩; decide)
  have hword := Token.ofWord_ne_endOfFile (String.ofList k)
  obtain ⟨-, x, d, hbare, hread, hsemicolon, -, hd⟩ := readsBack_body (s := .expr e) he hu hc
  obtain ⟨x, rfl, -⟩ := Statement.eq_of_bare_expr hbare
  have hd : (d.bump .script).Before _ .script (k ++ ' ' :: '<' :: ' ' :: taggedText child) :=
    Cursor.Before.of_blank (w := ['\n']) hd (by decide) (.space rfl .nil)
  subst hfirst
  rw [List.append_assoc, List.cons_append] at hc
  have hspan : (d.bump .script).token.span = c.token.span := by
    have hbreak : ';'.utf8Size = 1 ∧ '\n'.utf8Size = 1 := by decide
    refine hc.span_eq_of_apart (hbegins _) hd (hbegins _) rfl ?_ ?_ <;>
    · simp only [byteLength_append, byteLength_cons] at hsize ⊢
      omega
  have hnext := (hd.bump (hbegins _) hword .script).of_space (by decide)
  have hlt := hnext.kind (Scanner.begins_symbol (by decide) rfl (.inl (by decide)))
  obtain ⟨elem, t, c', hskipped, hend, hfaults⟩ := reads_tagged hchild hnext
  have hpast : (d.bump .script).past c.token.span = (d.bump .script).bump .script := if_pos hspan
  have hopen : c.kind ≠ .endOfFile := by
    rw [Ne, Cursor.kind_endOfFile, hc.val (hbegins _)]
    exact hword
  exact ⟨x, elem, _, t, c', .more hopen (.closed hread hsemicolon)
    (hpast ▸ .last (by simp [hlt, Token.kind]) hskipped hend), hfaults⟩

namespace Program

/-- A statement, and behind it a comparison of that kind. -/
inductive Veils (P Q : Expr → Prop) : Program → Prop where
  | mk {name e f s t} : P e → f.Tagged Q → Veils P Q ⟨name, [⟨.expr e, s⟩, ⟨.expr f, t⟩], []⟩

theorem Veils.parse_skipped {v : Program} {m n : Nat}
    (hv : v.Veils (Cascade (.string (quotes m)) 1) (Cascade .null n))
    (hm : 2 * m + 18 = UInt32.size) (name : String) :
    ∃ q, parse name v.format = .ok q ∧ q.bare ≠ v.bare := by
  cases hv with
  | @mk name' e f s t he hf =>
    obtain ⟨hlegible, hlevels, htext⟩ := he.string
    obtain ⟨g, h, u, w, hu, hw, hformat⟩ := exists_spells_format name' e f s t
    obtain ⟨child, hchild, hw⟩ := hf.exists_text hw
    have hc := Cursor.before_ofText (format ⟨name', [⟨.expr e, s⟩, ⟨.expr f, t⟩], []⟩).toList
    have hsize : byteLength u + 2 = UInt32.size := by
      have hrest : byteLength "true".toList = 4 ∧ ' '.utf8Size = 1 ∧ byteLength "? ".toList = 2 ∧
        byteLength " : null".toList = 7 := by decide
      rw [htext g u hu, byteLength_append, byteLength_cons, byteLength_append, byteLength_append,
        quoteString_quotes_bytes]
      omega
    rw [hformat, hw] at hc
    have hword : Scanner.IsWord .script "true".toList :=
      ⟨'t', "rue".toList, rfl, by decide, List.all_eq_true.1 rfl⟩
    obtain ⟨x, elem, s', t', c', hreads, hfaults⟩ :=
      readsStatements_skipped hlegible hu hword (htext g u hu) hsize hchild hc
    rw [← hw, ← hformat] at hreads
    refine ⟨⟨name, _, c'.scanner.comments⟩,
      Parse.parse_eq_ok_iff.2 ⟨_, c', hreads, ?_, rfl, hfaults⟩, ?_⟩
    · rw [hlevels]
      decide
    · cases hf with
      | mk => exact fun h => nomatch (List.cons.inj (List.cons.inj h).2).1

theorem parse_format_of_none {p : Program} (hp : p.Printable) (hcomments : p.comments = [])
    (hlength : p.format.utf8ByteSize < UInt32.size) (hlevels : p.levels ≤ maxNesting)
    (name : String) :
    ∃ xs, parse name p.format = .ok ⟨name, xs, []⟩ ∧ xs.map (·.val.bare) = p.bare := by
  obtain ⟨xs, d, hbare, hreads, hfaults, hread, -⟩ := readsBack_format hp hlength
  have hnone : d.scanner.comments = [] := by
    rw [groups, Print.flatten_taken hcomments] at hread
    exact List.map_eq_nil_iff.1 hread
  exact ⟨xs, Parse.parse_eq_ok_iff.2 ⟨p.levels, d, hreads, hlevels, by rw [hnone], hfaults⟩, hbare⟩

def veiledSample (m n : Nat) : Program :=
  ⟨"a.jsx", [⟨.expr (.element (branchSample [.text (quotes m) .zero])), .zero⟩,
    ⟨.expr (.binary .gt (.binary .lt (.literal (.bool true) .zero) (.ident "b" .zero) .zero)
      (.binary .add (.element (towerSample n)) (.literal (.string "</b>//") .zero) .zero) .zero),
      .zero⟩], []⟩

section
variable {m n : Nat}

theorem veiledSample_printable (hm : 0 < m) : (veiledSample m n).Printable := by
  have hfirst : (branchSample [.text (quotes m) .zero]).Legible := by
    refine branchSample_legible (fun c hc => ?_) rfl
    rw [List.mem_singleton.1 hc]
    exact Child.legible_text.2 (isRawText_quotes hm)
  have hname : Scanner.IsWord .script "b".toList := ⟨'b', [], rfl, by decide, List.forall_mem_nil _⟩
  have hsecond : ∀ s t, (Expr.binary .add (.element (towerSample n))
      (.literal (.string "</b>//") s) t).Legible := by
    simp [towerSample_legible]
  refine ⟨List.forall_mem_nil _,
    List.forall_mem_cons.2 ⟨Expr.legible_element.2 hfirst, List.forall_mem_singleton.2 ?_⟩⟩
  exact Expr.legible_binary.2 ⟨Expr.legible_binary.2 ⟨Expr.legible_bool, Expr.legible_ident.2 ⟨hname, by decide⟩⟩,
    hsecond _ _⟩

theorem veiledSample_size : (veiledSample m n).format.utf8ByteSize = m + 19 * (n + 1) + 45 := by
  have hsecond : (Expr.pieces (.binary .gt (.binary .lt (.literal (.bool true) .zero)
      (.ident "b" .zero) .zero) (.binary .add (.element (towerSample n))
        (.literal (.string "</b>//") .zero) .zero) .zero)) =
      [.text "true", .text (" " ++ BinaryOp.lt.text ++ " "), .text "b",
        .text (" " ++ BinaryOp.gt.text ++ " ")] ++ (towerSample n).pieces ++
        [.text (" " ++ BinaryOp.add.text ++ " "), .text (quoteString "</b>//")] := rfl
  have hbefore : ([.text "true", .text (" " ++ BinaryOp.lt.text ++ " "), .text "b",
      .text (" " ++ BinaryOp.gt.text ++ " ")].map Piece.bytes).sum = 11 := by decide
  have hafter : ([.text (" " ++ BinaryOp.add.text ++ " "),
      .text (quoteString "</b>//")].map Piece.bytes).sum = 11 := by decide
  have hend : Piece.bytes (.text ";\n") = 2 := by decide
  have hslot (a b : UInt32) : Piece.bytes (.leadingComments a b) = 0 := rfl
  have hlast (a : UInt32) : Piece.bytes (.trailingComments a) = 0 := rfl
  have htext : Piece.bytes (.text (quotes m)) = m := quotes_bytes m
  rw [utf8ByteSize_format rfl]
  simp only [veiledSample, pieces, piecesFrom, Statement.pieces, hsecond]
  simp only [Expr.pieces, Child.piecesAll, Child.pieces, branchSample_bytes, towerSample_bytes,
    Statement.isImport, Bool.false_and, Bool.false_eq_true, ↓reduceIte, List.nil_append, List.append_nil, List.map_cons,
    List.map_append, List.sum_cons, List.sum_append, List.map_nil, List.sum_nil, hend, hslot, hlast,
    htext] at hbefore hafter ⊢
  omega

theorem veiledSample_levels : (veiledSample m n).levels = n + 1 := by
  have hfirst : (branchSample [.text (quotes m) .zero]).levels = 1 := branchSample_levels _
  have hlevels : (veiledSample m n).levels = max (branchSample [.text (quotes m) .zero]).levels
      (max (max 0 (max (towerSample n).levels 0)) 0) := rfl
  rw [hlevels, hfirst, towerSample_levels]
  omega

end

theorem exists_parse_veiled {m n : Nat} (hm : 0 < m) (hsize : m + 19 * (n + 1) + 45 < UInt32.size)
    (hn : n < maxNesting) : ∃ p, parse "a.jsx" (veiledSample m n).format = .ok p ∧
      p.Veils (Tower (.string (quotes m)) 1) (Tower .null (n + 1)) := by
  have hlength : (veiledSample m n).format.utf8ByteSize < UInt32.size := by rwa [veiledSample_size]
  have hlevels : (veiledSample m n).levels ≤ maxNesting := by rwa [veiledSample_levels]
  obtain ⟨xs, hp, hbare⟩ :=
    parse_format_of_none (veiledSample_printable hm) rfl hlength hlevels "a.jsx"
  refine ⟨_, hp, ?_⟩
  obtain - | ⟨⟨x, s⟩, - | ⟨⟨y, t⟩, - | _⟩⟩ := xs
  · cases hbare
  · cases (List.cons.inj hbare).2
  · obtain ⟨hx, hy⟩ := List.cons.inj hbare
    obtain ⟨f, rfl, hf⟩ := Statement.eq_of_bare_expr hx
    obtain ⟨e, rfl, he⟩ := Expr.eq_of_bare_element hf
    obtain ⟨f, rfl, hf⟩ := Statement.eq_of_bare_expr (List.cons.inj hy).1
    obtain ⟨lhs, rhs, _, rfl, hlhs, hrhs⟩ := Expr.eq_of_bare_binary hf
    obtain ⟨y, z, _, rfl, hy', hz⟩ := Expr.eq_of_bare_binary hlhs
    obtain ⟨_, rfl⟩ := Expr.eq_of_bare_literal hy'
    obtain ⟨_, rfl⟩ := Expr.eq_of_bare_ident hz
    obtain ⟨y, z, _, rfl, hy', hz⟩ := Expr.eq_of_bare_binary hrhs
    obtain ⟨tower, rfl, htower⟩ := Expr.eq_of_bare_element hy'
    obtain ⟨_, rfl⟩ := Expr.eq_of_bare_literal hz
    exact .mk (Rewrite.tower_of_bare_text he (isSignificant_quotes hm))
      (.mk (Rewrite.tower_of_bare htower))
  · cases (List.cons.inj (List.cons.inj hbare).2).2

theorem admits_of_le_two {k : Nat} (hk : k ≤ 2) : NestingLimit.Admits k := by
  have hlimit : 2 ≤ maxNesting := by decide
  exact Nat.le_trans hk hlimit

theorem rewrite_pair [NestingLimit] {e e' f f' : Expr} {k l : Stats} (he : Walks 0 e k e')
    (hf : Walks 0 f l f') (name : String) (s t : Span) (comments : List (Spanned String)) :
    rewrite ⟨name, [⟨.expr e, s⟩, ⟨.expr f, t⟩], comments⟩ =
      .ok (⟨name, [⟨.expr e', s⟩, ⟨.expr f', t⟩], comments⟩, k + (l + 0)) :=
  rewrite_eq_ok_iff.2 ⟨rfl, .kept rfl (.expr he) (.kept rfl (.expr hf) .nil)⟩

theorem Veils.rewritten [NestingLimit] {p : Program} {outer inner : Literal} {m n : Nat}
    (hp : p.Veils (Tower outer m) (Tower inner n)) (hm : ∀ k ≤ 2 * m, NestingLimit.Admits k)
    (hn : ∀ k ≤ 2 * n, NestingLimit.Admits k) : ∃ v counted, p.rewrite = .ok (v, counted) ∧
      v.Veils (Cascade outer m) (Cascade inner n) := by
  cases hp with
  | @mk name _ _ s t he hf =>
    obtain ⟨k, e, hw, he⟩ := he.walks (d := 0) (by rwa [Nat.zero_add])
    obtain ⟨l, f, hw', hf⟩ := hf.walks hn
    exact ⟨_, _, rewrite_pair hw hw' name s t [], .mk he hf⟩

end Program

/-! Two branches in one place -/

/-- A branch that holds nothing, at that place. -/
def Element.IsHollow (place : Span) (e : Element) : Prop :=
  ∃ name attr whole, e = ⟨⟨"If", name⟩, [⟨⟨"condition", attr⟩, none, whole⟩], [], true, place⟩

theorem Element.IsHollow.tower {place : Span} {e : Element} (he : e.IsHollow place) :
    Tower .null 1 (.element e) := by
  obtain ⟨_, _, _, rfl⟩ := he
  exact .branch rfl rfl rfl .top

/-- The text of such a branch behind its `<`. -/
def hollowText : List Char := "If".toList ++ ' ' :: ("condition".toList ++ ' ' :: ['/', '>'])

theorem hollowText_bytes : byteLength hollowText = 15 := by decide

theorem reads_hollow {pg : Page} {rest : List Char} {c : Cursor}
    (hc : c.Before pg .script ('<' :: (hollowText ++ rest))) {a : Nat}
    (ha : a + 16 + byteLength rest = pg.length) :
    ∃ e c', e.IsHollow ((Span.ofOffsets a (a + 1)).merge (.ofOffsets (a + 15) (a + 16))) ∧
      ReadsPrimary c 1 (.element e) c' ∧ c'.Before pg .script rest := by
  have hlt : Scanner.Begins .script ('<' :: (hollowText ++ rest)) (.symbol .lt)
      (hollowText ++ rest) := Scanner.begins_symbol (by decide) rfl (.inl (by decide))
  have hgt : Scanner.Begins .tag ('>' :: rest) (.symbol .gt) rest :=
    Scanner.begins_symbol (by decide) (Scanner.symbol?_angle rest).2 (.inl (by decide))
  obtain ⟨hname, hc₁⟩ := Cursor.Before.tagWord (w := "If")
    (r := "condition".toList ++ ' ' :: '/' :: '>' :: rest)
    ⟨'I', ['f'], rfl, by decide, List.all_eq_true.1 rfl⟩ (hc.bump hlt (by simp) .tag)
  obtain ⟨hattr, hc₂⟩ := hc₁.tagWord ⟨'c', "ondition".toList, rfl, by decide, List.all_eq_true.1 rfl⟩
  obtain ⟨hslash, hc₃⟩ := hc₂.symbol (by decide) (show Scanner.symbol? .tag ('/' :: '>' :: rest) = _
    from rfl) (.inr (by rintro _ ⟨⟩; decide))
  have hslash := Cursor.kind_symbol.2 hslash
  have hclose := Cursor.kind_symbol.2 ((hc₃ .tag).val hgt)
  have hident := Cursor.kind_ident.2 ⟨_, hattr⟩
  have hattrs := ReadsAttributes.more hident
    (.name hattr (.done (by simp [hslash]) (by simp [hslash])))
    (.bare (by simp [hslash])) (.done (by simp [hslash]) (by simp [hslash]))
  have hmarkup : ReadsMarkup c.token.span .script _ _ _ _ := .selfClosing
    (by simp [Cursor.kind_ident.2 ⟨_, hname⟩])
    (.name hname (.done (by simp [hident]) (by simp [hident]))) hattrs hslash hclose
  have hprimary := ReadsPrimary.markup (Cursor.kind_symbol.2 (hc.val hlt)) hmarkup
  have hangle : '<'.utf8Size = 1 ∧ '>'.utf8Size = 1 := by decide
  have hopens : c.token.span = .ofOffsets a (a + 1) := by
    refine hc.span_eq hlt ?_ ?_ <;>
    · simp only [byteLength_cons, byteLength_append, hollowText_bytes]
      omega
  have hcloses : ((((c.bump .tag).bump .tag).bump .tag).bump .tag).token.span =
      .ofOffsets (a + 15) (a + 16) := by
    refine (hc₃ .tag).span_eq hgt ?_ ha
    rw [byteLength_cons]
    omega
  rw [Cursor.last_bump (Parse.ne_endOfFile_of_kind hclose (by decide)), hcloses, hopens] at hprimary
  exact ⟨_, _, ⟨_, _, _, rfl⟩, hprimary, (hc₃ .tag).bump hgt (by simp) .script⟩

/-- Two branches with blanks between them. An operator before the first keeps the second from being
passed over. -/
def distantText (n : Nat) : List Char :=
  '!' :: '<' :: (hollowText ++ ';' :: (List.replicate n ' ' ++ '<' :: (hollowText ++ [])))

theorem distantText_bytes (n : Nat) : byteLength (distantText n) = n + 34 := by
  have hsizes : '!'.utf8Size = 1 ∧ '<'.utf8Size = 1 ∧ ';'.utf8Size = 1 ∧ ' '.utf8Size = 1 := by decide
  simp only [distantText, byteLength_append, byteLength_cons, byteLength_nil, hollowText_bytes,
    Text.byteLength_replicate, hsizes]
  omega

/-- With that many blanks the second branch has the place of the first. -/
theorem reads_distant {n : Nat} (hn : n + 17 = UInt32.size) {pg : Page} {c : Cursor}
    (hlength : pg.length = n + 34) (hc : c.Before pg .script (distantText n)) :
    ∃ (e f : Element) (s t u : Span) (c' : Cursor), e.IsHollow ⟨0, 1, 17⟩ ∧ f.IsHollow ⟨0, 1, 17⟩ ∧
      ReadsStatements c 2 [⟨.expr (.unary .not (.element e) s), t⟩, ⟨.expr (.element f), u⟩] c' ∧
      c'.Before pg .script [] := by
  have hsizes : '!'.utf8Size = 1 ∧ '<'.utf8Size = 1 ∧ ';'.utf8Size = 1 ∧ ' '.utf8Size = 1 := by decide
  have hbytes := distantText_bytes n
  rw [distantText] at hc hbytes
  have hbang : Scanner.Begins .script ('!' :: '<' :: (hollowText ++ ';' ::
      (List.replicate n ' ' ++ '<' :: (hollowText ++ [])))) (.symbol .bang) _ :=
    Scanner.begins_symbol (by decide) (Scanner.symbol?_alone (by rintro _ ⟨⟩; decide)).1
      (.inl (by decide))
  obtain ⟨e, d, he, hfirst, hd⟩ := reads_hollow (hc.bump hbang (by simp) .script) (a := 1) (by
    simp only [byteLength_append, byteLength_cons, hollowText_bytes] at hbytes ⊢
    omega)
  obtain ⟨hsemicolon, hnext⟩ := hd.symbol (by decide) rfl (.inl (by decide))
  have hsemicolon := Cursor.kind_symbol.2 hsemicolon
  have hd := (hnext .script).of_blank (by decide) (Scanner.trivia_blanks n)
  obtain ⟨f, c', hf, hsecond, hc'⟩ := reads_hollow hd (a := 1 + UInt32.size) (by
    rw [byteLength_nil]
    omega)
  have hend := Cursor.kind_endOfFile.2 (hc'.val (Scanner.begins_end (by decide)))
  have hbegins : Scanner.Begins .script ('<' :: (hollowText ++ [])) (.symbol .lt) (hollowText ++ []) :=
    Scanner.begins_symbol (by decide) rfl (.inl (by decide))
  have hlt := hd.kind hbegins
  have hval := hc.val hbang
  have hunary : ReadsUnary c 2 (.unary .not (.element e) _) d :=
    .operator (by rw [hval]; rfl) (hfirst.readsUnary (.inl hsemicolon))
  have hstatement := ReadsStatement.closed (.expr (by simp [Cursor.kind_symbol.2 hval, opensStatement])
    (hunary.readsExpr (.inl hsemicolon))) hsemicolon
  have hlast := ReadsStatement.bare (.expr (by simp [hlt, Token.kind, opensStatement])
    ((hsecond.readsUnary (.inr hend)).readsExpr (.inr hend))) (by simp [hend])
  have hpast : (d.bump .script).past c.token.span = d.bump .script := by
    have hopens := hc.span_eq hbang (a := 0) (b := 1) (by omega) (by
      rw [byteLength_cons] at hbytes
      omega)
    have hreopens := hd.span_eq hbegins (a := 1 + UInt32.size) (b := 2 + UInt32.size)
      (by simp only [byteLength_append, byteLength_cons, byteLength_nil, hollowText_bytes]; omega)
      (by simp only [byteLength_append, byteLength_nil, hollowText_bytes]; omega)
    rw [Span.ofOffsets_add_size] at hreopens
    refine if_neg ?_
    rw [hopens, hreopens]
    decide
  have hrest := ReadsStatements.last (by simp [hlt, Token.kind]) hlast hend
  exact ⟨e, f, _, _, _, c', he, hf,
    .more (by simp [Cursor.kind_symbol.2 hval]) hstatement (by rwa [hpast]), hc'⟩

theorem exists_parse_distant {n : Nat} (hn : n + 17 = UInt32.size) (name : String) :
    ∃ (e f : Element) (s t u : Span) (comments : List (Spanned String)),
      e.IsHollow ⟨0, 1, 17⟩ ∧ f.IsHollow ⟨0, 1, 17⟩ ∧
      Program.parse name (String.ofList (distantText n)) =
        .ok ⟨name, [⟨.expr (.unary .not (.element e) s), t⟩, ⟨.expr (.element f), u⟩], comments⟩ := by
  have htext := String.toList_ofList (l := distantText n)
  generalize String.ofList (distantText n) = source at htext
  have hlength : (Cursor.firstPage source.toList).length = n + 34 := by
    rw [Cursor.firstPage, htext]
    exact distantText_bytes n
  have hc : (Parser.ofText source.toList).cursor.Before (Cursor.firstPage source.toList) .script
      (distantText n) := by
    have hc := Cursor.before_ofText source.toList
    rwa [htext] at hc ⊢
  obtain ⟨e, f, s, t, u, c', he, hf, hreads, hc'⟩ := reads_distant hn hlength hc
  have hfaults := hc'.faults_eq (Scanner.begins_end (by decide))
  exact ⟨e, f, s, t, u, c'.scanner.comments, he, hf,
    Parse.parse_eq_ok_iff.2 ⟨2, c', hreads, by decide, rfl, hfaults⟩⟩

/-! Comments far behind a statement -/

namespace Program

theorem parse_atom {source : String} {t : Spanned Token} {e : Expr} {rest : List Char} {n k : Nat}
    {comments : List (Spanned String)}
    (hfirst : (Parser.ofText source.toList).cursor = ⟨⟨';' :: rest, n, [], []⟩, t, .zero⟩)
    (hatom : Parse.atom? t = some e)
    (hrest : Scanner.skipTrivia ⟨rest, n + 1, [], []⟩ = ⟨[], k, comments, []⟩) (name : String) :
    parse name source =
      .ok ⟨name, [⟨.expr e, t.span.merge (.ofOffsets n (n + 1))⟩], comments⟩ := by
  have hopen : t.val ≠ .endOfFile := by
    rintro hend
    rw [Parse.atom?, hend] at hatom
    cases hatom
  have hsecond : Cursor.bump .script ⟨⟨';' :: rest, n, [], []⟩, t, .zero⟩ =
      ⟨⟨rest, n + 1, [], []⟩, ⟨.symbol .semicolon, .ofOffsets n (n + 1)⟩, t.span⟩ := by
    rw [Cursor.bump, if_neg hopen, Scanner.next_script,
      Scanner.nextToken_of_cons rfl (Scanner.skipTrivia_of_cons rfl rfl (.inl (by decide)))]
    rfl
  have hthird : Cursor.bump .script
        ⟨⟨rest, n + 1, [], []⟩, ⟨.symbol .semicolon, .ofOffsets n (n + 1)⟩, t.span⟩ =
      ⟨⟨[], k, comments, []⟩, ⟨.endOfFile, .ofOffsets k k⟩, .ofOffsets n (n + 1)⟩ := by
    rw [Cursor.bump, if_neg (by simp), Scanner.next_script, Scanner.nextToken.eq_def, hrest]
    rfl
  have hkind : (Cursor.bump .script ⟨⟨';' :: rest, n, [], []⟩, t, .zero⟩).kind =
      .symbol .semicolon := by
    rw [hsecond]
    rfl
  have hprimary : ReadsPrimary ⟨⟨';' :: rest, n, [], []⟩, t, .zero⟩ 0 e _ := .atom hatom
  have hexpr := (hprimary.readsUnary (.inl hkind)).readsExpr (.inl hkind)
  have hopens := opensStatement_of_beginsExpr hexpr.beginsExpr
  have hstatement := ReadsStatement.closed (.expr hopens hexpr) hkind
  rw [hsecond, hthird] at hstatement
  have hreads : ReadsStatements (Parser.ofText source.toList).cursor 0
      [⟨.expr e, t.span.merge (.ofOffsets n (n + 1))⟩]
      ⟨⟨[], k, comments, []⟩, ⟨.endOfFile, .ofOffsets k k⟩, .ofOffsets n (n + 1)⟩ := by
    rw [hfirst]
    exact .last (mt Cursor.kind_endOfFile.1 hopen) hstatement rfl
  exact Parse.parse_eq_ok_iff.2 ⟨0, _, hreads, Nat.zero_le _, rfl, rfl⟩

/-- What stands behind the statement: a comment, and far behind that another. -/
def farComments (n : Nat) : List Char :=
  ['/', '*', '1', '*', '/'] ++ (List.replicate n ' ' ++ ['/', '/', '2'])

def farComment (n : Nat) : String :=
  String.ofList (List.replicate 4 ' ' ++ 'a' :: ';' :: farComments n)

def farProgram (name : String) (n : Nat) : Program :=
  ⟨name, [⟨.expr (.ident "a" ⟨0, 4, 5⟩), ⟨0, 4, 6⟩⟩],
    [⟨"/*1*/", ⟨0, 6, 11⟩⟩, ⟨"//2", .ofOffsets (11 + n) (14 + n)⟩]⟩

theorem parse_farComment (name : String) (n : Nat) :
    parse name (farComment n) = .ok (farProgram name n) := by
  have hfirst : (Parser.ofText (farComment n).toList).cursor =
      ⟨⟨';' :: farComments n, 5, [], []⟩, ⟨.ident "a", ⟨0, 4, 5⟩⟩, .zero⟩ := by
    rw [farComment, String.toList_ofList, Parser.cursor, Parser.ofText, Scanner.next_script,
      Scanner.nextToken_congr (Scanner.skipTrivia_of_blanks (n := 4) rfl),
      Scanner.nextToken_of_cons rfl (Scanner.skipTrivia_of_cons rfl rfl (.inl (by decide)))]
    rfl
  refine parse_atom (k := 14 + n) hfirst rfl ?_ name
  rw [Scanner.skipTrivia_of_comment (c := ⟨['/', '*', '1', '*', '/'], _, true⟩) rfl,
    Scanner.skipTrivia_of_blanks (n := n) (r := ['/', '/', '2']) rfl,
    Scanner.skipTrivia_of_comment (c := ⟨['/', '/', '2'], [], true⟩) rfl,
    Scanner.skipTrivia_eq_self (by rintro _ ⟨⟩) rfl]
  have hsize : 11 + n + 3 = 14 + n := by omega
  exact congrArg (fun k => Scanner.mk [] k [⟨"/*1*/", ⟨0, 6, 11⟩⟩, ⟨"//2", .ofOffsets (11 + n) k⟩] [])
    hsize

/-- As far behind as a place can count the second comment has the place of the first byte. -/
theorem farProgram_eq (name : String) : farProgram name (UInt32.size - 11) =
    ⟨name, [⟨.expr (.ident "a" ⟨0, 4, 5⟩), ⟨0, 4, 6⟩⟩],
      [⟨"/*1*/", ⟨0, 6, 11⟩⟩, ⟨"//2", ⟨0, 0, 3⟩⟩]⟩ := by
  rw [farProgram]
  rfl

/-- A string for a statement, and a comment on the next line. -/
def quotedText (quote : Char) (body : List Char) : String :=
  String.ofList (quote :: (body ++ quote :: ';' :: '\n' :: ['/', '/', '2', '\n']))

def quotedProgram (name : String) (n : Nat) (s : String) : Program :=
  ⟨name, [⟨.expr (.literal (.string s) (.ofOffsets 0 (n + 2))),
      (Span.ofOffsets 0 (n + 2)).merge (.ofOffsets (n + 2) (n + 3))⟩],
    [⟨"//2", .ofOffsets (n + 4) (n + 7)⟩]⟩

theorem parse_quotedText {quote : Char} {body ds : List Char} (h : Scanner.Unescapes quote body ds)
    (hquote : quote = '"' ∨ quote = '\'') (name : String) :
    parse name (quotedText quote body) =
      .ok (quotedProgram name (byteLength body) (String.ofList ds)) := by
  set n := byteLength body
  have hsize : byteLength (quote :: (body ++ [quote])) = n + 2 := by
    have hone : quote.utf8Size = 1 := by rcases hquote with rfl | rfl <;> rfl
    rw [byteLength_cons, byteLength_append, byteLength_cons, byteLength_nil, hone]
    omega
  have hfirst : (Parser.ofText (quotedText quote body).toList).cursor =
      ⟨⟨';' :: '\n' :: ['/', '/', '2', '\n'], n + 2, [], []⟩,
        ⟨.string (String.ofList ds), .ofOffsets 0 (n + 2)⟩, .zero⟩ := by
    rw [quotedText, String.toList_ofList, Parser.cursor, Parser.ofText,
      Scanner.next_of_unescapes h hquote rfl]
    simp [Scanner.advance, Scanner.ofText, hsize]
  refine parse_atom (k := n + 8) hfirst rfl ?_ name
  rw [Scanner.skipTrivia_of_space rfl rfl,
    Scanner.skipTrivia_of_comment (c := ⟨['/', '/', '2'], ['\n'], true⟩) rfl,
    Scanner.skipTrivia_of_space rfl rfl, Scanner.skipTrivia_eq_self (by rintro _ ⟨⟩) rfl]
  rfl

/-- The comment is printed if it is noted that it stands behind the statement. -/
theorem format_quoted (name s : String) (a : Span) {b d : Span} (hb : b.start = 0) :
    format ⟨name, [⟨.expr (.literal (.string s) a), b⟩], [⟨"//2", d⟩]⟩ =
      quoteString s ++ ";\n" ++ if b.stop ≤ d.start then "//2\n" else "" := by
  have hcomment : Scanner.IsComment ('/' :: '/' :: ['2']) := .line (by simp)
  rw [format_eq (by simpa using hcomment)]
  by_cases h : b.stop ≤ d.start <;>
    simp [print, pieces, piecesFrom, Statement.pieces, Statement.isImport, Expr.pieces, Literal.text,
      Print.addAll, Print.add, Print.takeComments, Print.ofComments, Print.linesText, String.join,
      hb, h]

theorem unescapes_replicate (m : Nat) :
    Scanner.Unescapes '\'' (List.replicate m '"') (List.replicate m '"') := by
  induction m with
  | zero => exact .nil
  | succ m ih => exact .plain (by decide) (by decide) (by decide) ih

theorem quotedText_quoteString (s : String) :
    quotedText '"' (s.toList.flatMap quoteChar) = quoteString s ++ ";\n" ++ "//2\n" := by
  rw [← String.toList_inj]
  simp [quotedText, quoteString]

/-- The comment stands behind the string in the text. In what is printed the string is twice as long,
and the comment has the place of the first byte. -/
theorem exists_parse_quoted {m : Nat} (hm : m + 2 = 2147483648) :
    (quotedText '\'' (List.replicate m '"')).utf8ByteSize < UInt32.size ∧
      ∃ p q, parse "a.jsx" (quotedText '\'' (List.replicate m '"')) = .ok p ∧
        parse "a.jsx" p.format = .ok q ∧ q.format ≠ p.format := by
  have hquotes : byteLength (List.replicate m '"') = m :=
    (Text.byteLength_replicate ..).trans (Nat.mul_one m)
  have hnear (s : String) : (quotedProgram "a.jsx" m s).format =
      quoteString s ++ ";\n" ++ "//2\n" := by
    obtain rfl : m = 2147483646 := by omega
    exact (format_quoted _ s _ rfl).trans (congrArg _ (if_pos (by decide)))
  have hfar (s : String) : (quotedProgram "a.jsx" (2 * m) s).format =
      quoteString s ++ ";\n" ++ "" := by
    obtain rfl : m = 2147483646 := by omega
    exact (format_quoted _ s _ rfl).trans (congrArg _ (if_neg (by decide)))
  have hp := parse_quotedText (unescapes_replicate m) (.inr rfl) "a.jsx"
  have hq := parse_quotedText (Scanner.unescapes_quoteChar (List.replicate m '"')) (.inl rfl) "a.jsx"
  have htext := quotedText_quoteString (quotes m)
  rw [quotes, String.toList_ofList] at htext
  rw [hquotes] at hp
  rw [htext, flatMap_quoteChar_bytes, ← hnear] at hq
  refine ⟨?_, _, _, hp, hq, ?_⟩
  · have hsizes : '\''.utf8Size = 1 ∧ byteLength (';' :: '\n' :: ['/', '/', '2', '\n']) = 6 ∧
      UInt32.size = 2147483648 + 2147483648 := by decide
    rw [← Text.byteLength_toList, quotedText, String.toList_ofList, byteLength_cons,
      byteLength_append, byteLength_cons, hquotes]
    omega
  · rw [hnear, hfar]
    exact fun h => by simpa using congrArg String.toList h

end Program
end BranchMarkup
