import BranchMarkup.Proofs.Reading.Frame
import BranchMarkup.Proofs.Reading.Grammar
/-! A reader that finds no fault has made a derivation, unless its fuel ran out; and it does not,
as long as there are sixteen units for every token that can still be there. -/
namespace BranchMarkup
namespace Parse

/-- Faults are only added, and where none is found the result is as said. -/
def Finds {α : Type} (x : Parse α) (p : Parser) (Q : α → Parser → Prop) : Prop :=
  p.faults <+: (x.run p).2.faults ∧ ((x.run p).2.faults = [] → Q (x.run p).1 (x.run p).2)

section
variable {α β : Type} {p : Parser} {Q : α → Parser → Prop} {E : β → Parser → Prop} {x : Parse α}

theorem Finds.pure {a : α} (h : Q a p) : Finds (Pure.pure a) p Q := ⟨List.prefix_rfl, fun _ => h⟩

theorem Finds.bind {f : α → Parse β} (hx : Finds x p Q)
    (hf : ∀ a q, Finds (f a) q fun b r => Q a q → E b r) : Finds (x >>= f) p E := by
  obtain ⟨hfaults, hpost⟩ := hf (x.run p).1 (x.run p).2
  refine ⟨hx.1.trans hfaults, fun hnil => hpost hnil (hx.2 ?_)⟩
  exact List.prefix_nil.1 (hnil ▸ hfaults)

theorem Finds.mono {Q' : α → Parser → Prop} (hx : Finds x p Q) (h : ∀ a q, Q a q → Q' a q) :
    Finds x p Q' :=
  ⟨hx.1, fun hnil => h _ _ (hx.2 hnil)⟩

theorem Finds.of_keeps (h : Keeps Frame.faults x) (hp : p.faults ≠ []) : Finds x p Q := by
  refine ⟨(h p).1, fun hnil => absurd (List.prefix_nil.1 ?_) hp⟩
  exact hnil ▸ (h p).1

theorem Finds.faultAt {f : Fault} {span : Span} {g : Unit → Parse β}
    (h : Keeps Frame.faults (g ())) : Finds (faultAt f span >>= g) p E := by
  have hg : Finds (g ()) { p with faults := p.faults ++ [⟨f, span⟩] } E :=
    .of_keeps h (by simp)
  exact ⟨(List.prefix_append ..).trans hg.1, hg.2⟩

theorem Finds.fault {f : Fault} {g : Unit → Parse β} (h : Keeps Frame.faults (g ())) :
    Finds (fault f >>= g) p E :=
  have key : Finds (Parse.faultAt f p.cursor.token.span >>= g) p E := .faultAt h
  key

theorem Finds.missing {wanted : Wanted} {g : Unit → Parse β} (h : Keeps Frame.faults (g ())) :
    Finds (missing wanted >>= g) p E :=
  Finds.fault (f := .expected wanted p.cursor.kind) h

theorem Finds.token {f : Token → Parse β} (h : Finds (f p.cursor.token.val) p E) :
    Finds (token >>= f) p E := h

theorem Finds.here {f : Span → Parse β} (h : Finds (f p.cursor.token.span) p E) :
    Finds (here >>= f) p E := h

theorem Finds.last {f : Span → Parse β} (h : Finds (f p.cursor.last) p E) : Finds (last >>= f) p E := h

theorem Finds.get {f : Parser → Parse β} (h : Finds (f p) p E) : Finds (get >>= f) p E := h

theorem Finds.sees {k : Token.Kind} {f : Bool → Parse β}
    (h : Finds (f (p.cursor.kind = k)) p E) : Finds (sees k >>= f) p E := h

theorem Finds.bump {mode : Mode} {f : Unit → Parse β} (h : Finds (f ()) (p.bump mode) E) :
    Finds (bump mode >>= f) p E :=
  ⟨faults_bump p mode ▸ h.1, h.2⟩

theorem Finds.eat {k : Token.Kind} {mode : Mode} {f : Bool → Parse β}
    (heaten : p.cursor.kind = k → Finds (f true) (p.bump mode) E)
    (hleft : p.cursor.kind ≠ k → Finds (f false) p E) : Finds (eat k mode >>= f) p E := by
  unfold Finds
  rw [StateT.run_bind, run_eat]
  by_cases h : p.cursor.kind = k
  · rw [if_pos h, ← faults_bump p mode]
    exact heaten h
  · rw [if_neg h]
    exact hleft h

theorem Finds.expect {k : Token.Kind} {mode : Mode} :
    Finds (expect k mode) p fun _ q => p.cursor.kind = k ∧ q = p.bump mode := by
  refine .eat (fun h => .pure ?_) fun h => ?_
  · exact ⟨h, rfl⟩
  · exact Finds.missing (g := fun _ => Pure.pure ()) (.pure _)

theorem Finds.discard_eat {k : Token.Kind} {mode : Mode} :
    Finds (Functor.discard (Parse.eat k mode)) p fun _ q =>
      p.cursor.kind = k ∧ q = p.bump mode ∨ p.cursor.kind ≠ k ∧ q = p := by
  have h : Finds (Parse.eat k mode >>= fun _ => Pure.pure ()) p fun _ q =>
      p.cursor.kind = k ∧ q = p.bump mode ∨ p.cursor.kind ≠ k ∧ q = p :=
    Finds.eat (fun h => .pure (.inl ⟨h, rfl⟩)) fun h => .pure (.inr ⟨h, rfl⟩)
  exact h

theorem Finds.nested {fallback : β} {x : Parse β}
    (h : p.depth < maxNesting →
      Finds x { p with depth := p.depth + 1 } fun b q => E b { q with depth := q.depth - 1 }) :
    Finds (nested fallback x) p E := by
  by_cases hd : p.depth < maxNesting
  · unfold Finds
    rw [run_nested_of_lt hd]
    exact h hd
  · unfold Finds
    rw [run_nested_of_not_lt hd]
    exact Finds.fault (g := fun _ => Pure.pure fallback) (.pure _)

end

/-- With that much fuel for what is left, a derivation between the cursors, within the levels that
are left. -/
def Spans {α : Type} (D : Cursor → Nat → α → Cursor → Prop) (rank fuel : Nat) (p : Parser) (a : α)
    (q : Parser) : Prop :=
  16 * p.cursor.left + rank ≤ fuel → p.depth ≤ maxNesting →
    ∃ h, D p.cursor h a q.cursor ∧ p.depth + h ≤ maxNesting ∧ q.depth = p.depth

/-! Names -/

theorem finds_ident? {p : Parser} :
    Finds ident? p fun n q =>
      (∃ w, p.cursor.token.val = .ident w ∧ n = some ⟨w, p.cursor.token.span⟩ ∧ q = p.bump .script) ∨
        (p.cursor.token.val.kind ≠ .ident ∧ n = none ∧ q = p) := by
  refine .token ?_
  split
  · next w hw => exact .here (.bump (.pure (.inl ⟨w, hw, rfl, rfl⟩)))
  · next h =>
    refine .pure (.inr ⟨?_, rfl, rfl⟩)
    cases ht : p.cursor.token.val with
    | ident w => exact absurd ht (h w)
    | _ => simp [Token.kind]

theorem finds_ident {p : Parser} :
    Finds ident p fun n q =>
      ∃ w, p.cursor.token.val = .ident w ∧ n = ⟨w, p.cursor.token.span⟩ ∧ q = p.bump .script := by
  refine .bind finds_ident? fun n q => ?_
  split
  · next n =>
    refine .pure ?_
    rintro (⟨w, hw, hn, rfl⟩ | ⟨_, hn, _⟩)
    · exact ⟨w, hw, Option.some.inj hn, rfl⟩
    · cases hn
  · exact .missing .noName

theorem finds_name {p : Parser} :
    Finds name p fun n q =>
      ∃ w, p.cursor.word? = some w ∧ n = ⟨w, p.cursor.token.span⟩ ∧ q = p.bump .script := by
  refine .token ?_
  split
  · next k hk => exact .here (.bump (.pure ⟨k.text, by simp [Cursor.word?, hk], rfl, rfl⟩))
  · refine finds_ident.mono ?_
    rintro n q ⟨w, hw, hn, hq⟩
    exact ⟨w, by simp [Cursor.word?, hw], hn, hq⟩

theorem finds_tagIdent {p : Parser} :
    Finds tagIdent p fun n q =>
      ∃ w, p.cursor.token.val = .ident w ∧ n = ⟨w, p.cursor.token.span⟩ ∧ q = p.bump .tag := by
  refine .token ?_
  split
  · next w hw => exact .here (.bump (.pure ⟨w, hw, rfl, rfl⟩))
  · exact .missing .noName

theorem finds_tagNamePart (name : Spanned String) (joint : String) (p : Parser) :
    Finds (tagNamePart name joint) p fun name' q =>
      ∃ w, (p.bump .tag).cursor.token.val = .ident w ∧
        name' = ⟨name.val ++ joint ++ w,
          name.span.merge (p.bump .tag).cursor.token.span⟩ ∧ q = (p.bump .tag).bump .tag := by
  refine .bump (.bind finds_tagIdent fun part p₁ => .pure ?_)
  rintro ⟨w, hw, rfl, rfl⟩
  exact ⟨w, hw, rfl, rfl⟩

theorem finds_tagNameRest (fuel : Nat) (name : Spanned String) (p : Parser) :
    Finds (tagNameRest fuel name) p fun name' q =>
      16 * p.cursor.left + 1 ≤ fuel →
        ReadsTagRest p.cursor name name' q.cursor ∧ q.depth = p.depth := by
  induction fuel generalizing name p with
  | zero =>
    rw [tagNameRest]
    exact .pure fun h => absurd h (by omega)
  | succ fuel ih =>
    have part {joint : Symbol} {text : String} (hj : p.cursor.token.val = .symbol joint)
        (htext : joint = .dot ∧ text = "." ∨ joint = .colon ∧ text = ":") :
        Finds (tagNamePart name text >>= tagNameRest fuel) p fun name' q =>
          16 * p.cursor.left + 1 ≤ fuel + 1 →
            ReadsTagRest p.cursor name name' q.cursor ∧ q.depth = p.depth := by
      refine .bind (finds_tagNamePart name text p) fun grown p₁ => (ih _ p₁).mono ?_
      rintro name' q hq ⟨w, hw, rfl, rfl⟩ hfuel
      have hlt : (p.cursor.bump .tag).left < p.cursor.left := Cursor.left_bump_lt (by simp [hj]) _
      have hle := (p.cursor.bump .tag).left_bump_le .tag
      simp only [cursor_bump, depth_bump] at hq hw
      obtain ⟨hrest, hd⟩ := hq (by omega)
      exact ⟨.part hj htext hw hrest, hd⟩
    rw [tagNameRest]
    refine .token ?_
    split
    · next h => exact part h (.inl ⟨rfl, rfl⟩)
    · next h => exact part h (.inr ⟨rfl, rfl⟩)
    · next hdot hcolon =>
      exact .pure fun _ => ⟨.done (mt Cursor.kind_symbol.1 hdot) (mt Cursor.kind_symbol.1 hcolon), rfl⟩

theorem finds_tagName (fuel : Nat) (p : Parser) :
    Finds (tagName fuel) p fun name q =>
      16 * p.cursor.left ≤ fuel → ReadsTag p.cursor name q.cursor ∧ q.depth = p.depth := by
  refine .sees ?_
  split
  · next h => exact .here (.pure fun _ => ⟨.empty (of_decide_eq_true h), rfl⟩)
  · refine .bind finds_tagIdent fun first p₁ => (finds_tagNameRest fuel _ p₁).mono ?_
    rintro name q hq ⟨w, hw, rfl, rfl⟩ hfuel
    have hlt : (p.cursor.bump .tag).left < p.cursor.left := Cursor.left_bump_lt (by simp [hw]) _
    simp only [cursor_bump, depth_bump] at hq
    obtain ⟨hrest, hd⟩ := hq (by omega)
    exact ⟨.name hw hrest, hd⟩

theorem finds_closeElement (fuel : Nat) (name : Spanned String) (after : Mode)
    (found : Option (List Child)) (p : Parser) :
    Finds (closeElement fuel name after found) p fun cs q =>
      ∀ cs', found = some cs' → cs = cs' ∧
        (16 * p.cursor.left ≤ fuel → ∃ name' c', ReadsTag p.cursor name' c' ∧
          name'.val = name.val ∧ c'.kind = .symbol .gt ∧ q.cursor = c'.bump after ∧
          q.depth = p.depth) := by
  cases found with
  | none => exact .pure nofun
  | some cs =>
    refine .bind (finds_tagName fuel p) fun name' p₁ => ?_
    split
    · exact .faultAt (.bind (.expect _ _) fun _ => .pure _)
    · next hname =>
      refine .bind .expect fun _ p₂ => .pure ?_
      rintro ⟨hgt, rfl⟩ htag cs' hcs
      refine ⟨Option.some.inj hcs, fun hfuel => ?_⟩
      obtain ⟨htag, hd⟩ := htag hfuel
      exact ⟨name', p₁.cursor, htag, not_not.1 hname, hgt, cursor_bump .., by simp [hd]⟩

theorem finds_closeFragment (fuel : Nat) (after : Mode) (found : Option (List Child))
    (p : Parser) :
    Finds (closeFragment fuel after found) p fun cs q =>
      ∀ cs', found = some cs' →
        cs = cs' ∧ p.cursor.kind = .symbol .gt ∧ q = p.bump after := by
  cases found with
  | none => exact .pure nofun
  | some cs =>
    refine .sees ?_
    split
    · refine .bind .expect fun _ p₁ => .pure ?_
      rintro ⟨hgt, rfl⟩ cs' hcs
      exact ⟨Option.some.inj hcs, hgt, rfl⟩
    · refine .bind (finds_tagName fuel p) fun name' p₁ => ?_
      exact .faultAt (.bind (.expect _ _) fun _ => .pure _)

/-! Expressions and markup -/

/-- All of expressions and markup is derived, with that much fuel. The ranks put the parsers that call
one another at the same token in order. -/
structure SoundAt (fuel : Nat) : Prop where
  expr : ∀ p, Finds (expr fuel) p (Spans ReadsExpr 7 fuel p)
  binary : ∀ power p, Finds (binary fuel power) p (Spans (ReadsBinary power) 6 fuel p)
  binaryRest : ∀ power lhs p, Finds (binaryRest fuel power lhs) p
    (Spans (fun c h e c' => ReadsBinaryRest power c h lhs e c') 1 fuel p)
  unary : ∀ p, Finds (unary fuel) p (Spans ReadsUnary 5 fuel p)
  trailing : ∀ e p, Finds (trailing fuel e) p
    (Spans (fun c h e' c' => ReadsTrailing c h e e' c') 1 fuel p)
  arguments : ∀ p, Finds (arguments fuel) p
    (Spans (fun c h es c' => c'.kind = .symbol .rparen → ReadsArguments c h es c') 8 fuel p)
  primary : ∀ p, Finds (primary fuel) p (Spans ReadsPrimary 4 fuel p)
  markup : ∀ after p, Finds (markup fuel after) p
    (Spans (fun c h m c' => c.kind = .symbol .lt ∧
      ReadsMarkup c.token.span after (c.bump .tag) h m c') 3 fuel p)
  markupRest : ∀ start after p, Finds (markupRest fuel start after) p
    (Spans (ReadsMarkup start after) 2 fuel p)
  children : ∀ unclosed opened p, Finds (children fuel unclosed opened) p
    (Spans (fun c h found c' => ∃ cs, found = some cs ∧ ReadsChildren c h cs c') 1 fuel p)
  container : ∀ p, Finds (container fuel) p (Spans ReadsContainer 8 fuel p)
  attributes : ∀ p, Finds (attributes fuel) p (Spans ReadsAttributes 1 fuel p)
  attrValue : ∀ p, Finds (attrValue fuel) p (Spans ReadsAttrValue 1 fuel p)

theorem Spans.of_zero {α : Type} {D : Cursor → Nat → α → Cursor → Prop} {rank : Nat} {p q : Parser}
    {a : α} (hrank : 0 < rank) : Spans D rank 0 p a q :=
  fun h => absurd h (by omega)

section

variable {fuel : Nat}

theorem sound_expr (ih : SoundAt fuel) (p : Parser) :
    Finds (expr (fuel + 1)) p (Spans ReadsExpr 7 (fuel + 1) p) := by
  refine .bind (ih.binary 0 p) fun test p₁ => .eat (fun hk => .nested fun hd => ?_) fun hk => ?_
  · refine .bind (ih.expr _) fun consequent p₂ => .bind .expect fun _ p₃ => ?_
    refine .bind (ih.expr p₃) fun alternate p₄ => .pure ?_
    rintro halternate ⟨hcolon, rfl⟩ hconsequent htest hfuel hdepth
    obtain ⟨h, htest, hle, hd₁⟩ := htest (by omega) hdepth
    simp only [Spans, cursor_depth, cursor_bump, depth_bump] at hconsequent halternate hd ⊢
    have h1 := htest.left_lt
    have b1 := p₁.cursor.left_bump_le .script
    obtain ⟨k, hconsequent, hle', hd₂⟩ := hconsequent (by omega) (by omega)
    have h2 := hconsequent.left_lt
    have b2 := p₂.cursor.left_bump_le .script
    obtain ⟨l, halternate, hle'', hd₃⟩ := halternate (by omega) (by omega)
    exact ⟨_, .conditional htest hk hconsequent hcolon halternate, by omega, by omega⟩
  · refine .pure fun htest hfuel hdepth => ?_
    obtain ⟨h, htest, hle, hd⟩ := htest (by omega) hdepth
    exact ⟨h, .plain htest hk, hle, hd⟩

theorem sound_binary (ih : SoundAt fuel) (power : Nat) (p : Parser) :
    Finds (binary (fuel + 1) power) p (Spans (ReadsBinary power) 6 (fuel + 1) p) := by
  refine .bind (ih.unary p) fun lhs p₁ => (ih.binaryRest power lhs p₁).mono ?_
  intro e q hrest hlhs hfuel hdepth
  obtain ⟨h, hlhs, hle, hd⟩ := hlhs (by omega) hdepth
  have hlt := hlhs.left_lt
  obtain ⟨k, hrest, hle', hd'⟩ := hrest (by omega) (by omega)
  exact ⟨_, .mk hlhs hrest, by omega, by omega⟩

theorem sound_binaryRest (ih : SoundAt fuel) (power : Nat) (lhs : Expr) (p : Parser) :
    Finds (binaryRest (fuel + 1) power lhs) p
      (Spans (fun c h e c' => ReadsBinaryRest power c h lhs e c') 1 (fuel + 1) p) := by
  refine .token ?_
  split
  · next hop =>
    refine .pure fun _ hdepth => ⟨0, .done ?_, by omega, rfl⟩
    intro op hop'
    simp [hop] at hop'
  · next op hop =>
    split
    · next hlt =>
      refine .pure fun _ hdepth => ⟨0, .done ?_, by omega, rfl⟩
      intro op' hop'
      cases hop.symm.trans hop'
      exact hlt
    · next hge =>
      refine .bump (.bind (ih.binary _ _) fun rhs p₁ => (ih.binaryRest power _ p₁).mono ?_)
      intro e q hrest hrhs hfuel hdepth
      simp only [Spans, cursor_bump, depth_bump] at hrhs
      have b := left_bump_lt_of_binaryOp hop .script
      obtain ⟨h, hrhs, hle, hd⟩ := hrhs (by omega) hdepth
      have hlt := hrhs.left_lt
      obtain ⟨k, hrest, hle', hd'⟩ := hrest (by omega) (by omega)
      exact ⟨_, .more hop (by omega) hrhs hrest, by omega, by omega⟩

theorem sound_unary (ih : SoundAt fuel) (p : Parser) :
    Finds (unary (fuel + 1)) p (Spans ReadsUnary 5 (fuel + 1) p) := by
  refine .token ?_
  split
  · next hop =>
    refine .bind (ih.primary p) fun e p₁ => (ih.trailing e p₁).mono ?_
    intro e' q htrailing hprimary hfuel hdepth
    obtain ⟨h, hprimary, hle, hd⟩ := hprimary (by omega) hdepth
    have hlt := hprimary.left_lt
    obtain ⟨k, htrailing, hle', hd'⟩ := htrailing (by omega) (by omega)
    exact ⟨_, .trailing hop hprimary htrailing, by omega, by omega⟩
  · next op hop =>
    refine .here (.bump (.nested fun hd => .bind (ih.unary _) fun operand p₁ => .pure ?_))
    intro hoperand hfuel hdepth
    simp only [Spans, cursor_depth, cursor_bump, depth_bump] at hoperand hd ⊢
    have b := left_bump_lt_of_unaryOp hop .script
    obtain ⟨h, hoperand, hle, hd'⟩ := hoperand (by omega) (by omega)
    exact ⟨_, .operator hop hoperand, by omega, by omega⟩

theorem sound_trailing (ih : SoundAt fuel) (e : Expr) (p : Parser) :
    Finds (trailing (fuel + 1) e) p (Spans (fun c h e' c' => ReadsTrailing c h e e' c') 1 (fuel + 1) p) := by
  refine .eat (fun hk => ?_) fun hk => .eat (fun hk' => ?_) fun hk' => ?_
  · refine .bind finds_name fun property p₁ => (ih.trailing _ p₁).mono ?_
    rintro e' q htrailing ⟨w, hw, rfl, rfl⟩ hfuel hdepth
    simp only [Spans, cursor_bump, depth_bump] at htrailing hw
    have b := left_bump_lt_of_kind hk (by decide) .script
    have b' := (p.cursor.bump .script).left_bump_le .script
    obtain ⟨h, htrailing, hle, hd⟩ := htrailing (by omega) hdepth
    exact ⟨h, .member hk hw htrailing, hle, hd⟩
  · refine .bind (ih.arguments _) fun args p₁ => .bind .expect fun _ p₂ => .last ?_
    refine (ih.trailing _ p₂).mono ?_
    rintro e' q htrailing ⟨hparen, rfl⟩ hargs hfuel hdepth
    simp only [Spans, cursor_bump, depth_bump] at hargs htrailing
    have b := left_bump_lt_of_kind hk' (by decide) .script
    obtain ⟨h, hargs, hle, hd⟩ := hargs (by omega) hdepth
    have h1 := (hargs hparen).left_le
    have b' := p₁.cursor.left_bump_le .script
    obtain ⟨k, htrailing, hle', hd'⟩ := htrailing (by omega) (by omega)
    exact ⟨_, .call hk' (hargs hparen) hparen htrailing, by omega, by omega⟩
  · exact .pure fun _ hdepth => ⟨0, .done hk hk', by omega, rfl⟩

theorem sound_arguments (ih : SoundAt fuel) (p : Parser) :
    Finds (arguments (fuel + 1)) p
      (Spans (fun c h es c' => c'.kind = .symbol .rparen → ReadsArguments c h es c') 8 (fuel + 1) p) := by
  refine .sees (.sees ?_)
  split
  · next hend =>
    exact .pure fun _ hdepth => ⟨0, fun h => .none h, by omega, rfl⟩
  · next hend =>
    have hparen : p.cursor.kind ≠ .symbol .rparen := by
      rintro h
      simp [h] at hend
    refine .bind (ih.expr p) fun e p₁ => .eat (fun hk => ?_) fun hk => ?_
    · refine .bind (ih.arguments _) fun es p₂ => .pure ?_
      intro hes he hfuel hdepth
      simp only [Spans, cursor_bump, depth_bump] at hes
      obtain ⟨h, he, hle, hd⟩ := he (by omega) hdepth
      have h1 := he.left_lt
      have b := p₁.cursor.left_bump_le .script
      obtain ⟨k, hes, hle', hd'⟩ := hes (by omega) (by omega)
      exact ⟨_, fun hclosed => .more hparen he hk (hes hclosed), by omega, by omega⟩
    · refine .pure fun he hfuel hdepth => ?_
      obtain ⟨h, he, hle, hd⟩ := he (by omega) hdepth
      exact ⟨h, fun _ => .last hparen he hk, hle, hd⟩

theorem sound_primary (ih : SoundAt fuel) (p : Parser) :
    Finds (primary (fuel + 1)) p (Spans ReadsPrimary 4 (fuel + 1) p) := by
  have atom {e : Expr} (he : atom? p.cursor.token = some e) :
      Finds (Parse.bump .script >>= fun _ => pure e) p (Spans ReadsPrimary 4 (fuel + 1) p) := by
    refine .bump (.pure fun _ hdepth => ⟨0, ?_, by omega, depth_bump ..⟩)
    rw [cursor_bump]
    exact .atom he
  refine .here (.token ?_)
  split
  case h_7 hk =>
    refine .bump (.nested fun hd => .bind (ih.expr _) fun e p₁ => .bind .expect fun _ p₂ => ?_)
    refine .pure ?_
    rintro ⟨hparen, rfl⟩ he hfuel hdepth
    simp only [Spans, cursor_depth, cursor_bump, depth_bump] at he hd ⊢
    have b := Cursor.left_bump_lt (c := p.cursor) (by simp [hk]) .script
    obtain ⟨h, he, hle, hd'⟩ := he (by omega) (by omega)
    exact ⟨_, .parenthesized (Cursor.kind_symbol.2 hk) he hparen, by omega, by omega⟩
  case h_8 hk =>
    refine .bind (ih.markup .script p) fun m p₁ => .pure fun hm hfuel hdepth => ?_
    obtain ⟨h, ⟨hlt, hm⟩, hle, hd⟩ := hm (by omega) hdepth
    exact ⟨h, .markup hlt hm, hle, hd⟩
  case h_9 => exact .missing (.pure _)
  all_goals
    next h => exact atom (by simp [atom?, h])

theorem sound_markup (ih : SoundAt fuel) (after : Mode) (p : Parser) :
    Finds (markup (fuel + 1) after) p
      (Spans (fun c h m c' => c.kind = .symbol .lt ∧
        ReadsMarkup c.token.span after (c.bump .tag) h m c') 3 (fuel + 1) p) := by
  refine .here (.bind .expect fun _ p₁ => (ih.markupRest _ after p₁).mono ?_)
  rintro m q hm ⟨hlt, rfl⟩ hfuel hdepth
  simp only [Spans, cursor_bump, depth_bump] at hm
  have b := p.cursor.left_bump_le .tag
  obtain ⟨h, hm, hle, hd⟩ := hm (by omega) hdepth
  exact ⟨h, ⟨hlt, hm⟩, hle, hd⟩

theorem sound_markupRest (ih : SoundAt fuel) (start : Span) (after : Mode) (p : Parser) :
    Finds (markupRest (fuel + 1) start after) p (Spans (ReadsMarkup start after) 2 (fuel + 1) p) := by
  refine .nested fun hd => .sees ?_
  split
  · next hgt =>
    refine .bind .expect fun _ p₁ => .bind (ih.children _ _ p₁) fun found p₂ => ?_
    refine .bind (finds_closeFragment fuel after found p₂) fun cs p₃ => .last (.pure ?_)
    rintro hclose hchildren ⟨hgt, rfl⟩ hfuel hdepth
    simp only [Spans, cursor_depth, cursor_bump, depth_bump] at hchildren hgt hd ⊢
    have b := left_bump_lt_of_kind hgt (by decide) .child
    obtain ⟨h, ⟨cs', rfl, hcs⟩, hle, hd'⟩ := hchildren (by omega) (by omega)
    obtain ⟨rfl, hgt', rfl⟩ := hclose cs' rfl
    simp only [cursor_bump, depth_bump]
    exact ⟨_, .fragment hgt hcs hgt', by omega, by omega⟩
  · next hgt =>
    have hgt : p.cursor.kind ≠ .symbol .gt := fun h => hgt (decide_eq_true h)
    refine .bind (finds_tagName fuel _) fun name p₁ => .bind (ih.attributes p₁) fun attrs p₂ => ?_
    refine .eat (fun hk => ?_) fun hk => ?_
    · refine .bind .expect fun _ p₃ => .last (.pure ?_)
      rintro ⟨hclose, rfl⟩ hattrs hname hfuel hdepth
      simp only [cursor_depth, cursor_bump, depth_bump] at hname hclose hd ⊢
      obtain ⟨hname, hd₁⟩ := hname (by omega)
      have h1 := hname.left_lt hgt
      obtain ⟨h, hattrs, hle, hd₂⟩ := hattrs (by omega) (by omega)
      exact ⟨_, .selfClosing hgt hname hattrs hk hclose, by omega, by omega⟩
    · refine .bind .expect fun _ p₃ => .bind (ih.children _ _ p₃) fun found p₄ => ?_
      refine .bind (finds_closeElement fuel name after found p₄) fun cs p₅ => .last (.pure ?_)
      rintro hclose hchildren ⟨hopen, rfl⟩ hattrs hname hfuel hdepth
      simp only [Spans, cursor_depth, cursor_bump, depth_bump] at hname hchildren hd ⊢
      obtain ⟨hname, hd₁⟩ := hname (by omega)
      have h1 := hname.left_lt hgt
      obtain ⟨h, hattrs, hle, hd₂⟩ := hattrs (by omega) (by omega)
      have h2 := hattrs.left_le
      have b := p₂.cursor.left_bump_le .child
      obtain ⟨k, ⟨cs', rfl, hcs⟩, hle', hd₃⟩ := hchildren (by omega) (by omega)
      have h3 := hcs.left_lt
      obtain ⟨rfl, hclosed⟩ := hclose cs' rfl
      obtain ⟨name', c', hname', heq, hgt', hq, hd₄⟩ := hclosed (by omega)
      rw [hq]
      exact ⟨_, .element hgt hname hattrs hopen hcs hname' heq hgt', by omega, by omega⟩

theorem sound_children (ih : SoundAt fuel) (unclosed : Fault) (opened : Span) (p : Parser) :
    Finds (children (fuel + 1) unclosed opened) p
      (Spans (fun c h found c' => ∃ cs, found = some cs ∧ ReadsChildren c h cs c') 1 (fuel + 1) p) := by
  refine .here (.token ?_)
  split
  · next raw hk =>
    refine .bump (.bind (ih.children _ _ _) fun found p₁ => .pure fun hfound hfuel hdepth => ?_)
    simp only [Spans, cursor_bump, depth_bump] at hfound
    have b := Cursor.left_bump_lt (c := p.cursor) (by simp [hk]) .child
    obtain ⟨h, ⟨cs, rfl, hcs⟩, hle, hd⟩ := hfound (by omega) hdepth
    exact ⟨h, ⟨_, rfl, .text hk hcs⟩, hle, hd⟩
  · next hk =>
    refine .bump (.bind (ih.container _) fun inner p₁ => .bind .expect fun _ p₂ => .last ?_)
    refine .bind (ih.children _ _ p₂) fun found p₃ => .pure ?_
    rintro hfound ⟨hbrace, rfl⟩ hinner hfuel hdepth
    simp only [Spans, cursor_bump, depth_bump] at hinner hfound ⊢
    have b := Cursor.left_bump_lt (c := p.cursor) (by simp [hk]) .script
    obtain ⟨h, hinner, hle, hd⟩ := hinner (by omega) hdepth
    have h1 := hinner.left_le
    have b' := p₁.cursor.left_bump_le .child
    obtain ⟨k, ⟨cs, rfl, hcs⟩, hle', hd'⟩ := hfound (by omega) (by omega)
    exact ⟨_, ⟨_, rfl, .container (Cursor.kind_symbol.2 hk) hinner hbrace hcs⟩, by omega,
      by omega⟩
  · next hk =>
    have hlt := Cursor.kind_symbol.2 hk
    have b := left_bump_lt_of_kind hlt (by decide) .tag
    refine .bump (.eat (fun hslash => .pure fun hfuel hdepth => ?_) fun hslash => ?_)
    · simp only [cursor_bump, depth_bump] at hslash ⊢
      exact ⟨0, ⟨_, rfl, .close hlt hslash⟩, by omega, trivial⟩
    · refine .bind (ih.markupRest _ _ _) fun m p₁ => .bind (ih.children _ _ p₁) fun found p₂ => ?_
      refine .pure fun hfound hm hfuel hdepth => ?_
      simp only [Spans, cursor_bump, depth_bump] at hm hslash
      obtain ⟨h, hm, hle, hd⟩ := hm (by omega) hdepth
      have h1 := hm.left_lt
      obtain ⟨k, ⟨cs, rfl, hcs⟩, hle', hd'⟩ := hfound (by omega) (by omega)
      exact ⟨_, ⟨_, rfl, .markup hlt hslash hm hcs⟩, by omega, by omega⟩
  · exact .faultAt (.pure _)
  · exact .fault (.bind (.bump _) fun _ => (keepsAt _ _).children _ _)

theorem sound_container (ih : SoundAt fuel) (p : Parser) :
    Finds (container (fuel + 1)) p (Spans ReadsContainer 8 (fuel + 1) p) := by
  refine .sees ?_
  split
  · next h =>
    exact .pure fun _ hdepth => ⟨0, .empty (of_decide_eq_true h), by omega, rfl⟩
  · next h =>
    refine .bind (ih.expr p) fun e p₁ => .pure fun he hfuel hdepth => ?_
    obtain ⟨k, he, hle, hd⟩ := he (by omega) hdepth
    exact ⟨k, .expr (fun h' => h (decide_eq_true h')) he, hle, hd⟩

theorem sound_attributes (ih : SoundAt fuel) (p : Parser) :
    Finds (attributes (fuel + 1)) p (Spans ReadsAttributes 1 (fuel + 1) p) := by
  refine .token ?_
  split
  · next w hk =>
    refine .bind (finds_tagName fuel p) fun name p₁ => .bind (ih.attrValue p₁) fun value p₂ => ?_
    refine .last (.bind (ih.attributes p₂) fun attrs p₃ => .pure ?_)
    intro hattrs hvalue hname hfuel hdepth
    have hident : p.cursor.kind = .ident := Cursor.kind_ident.2 ⟨w, hk⟩
    obtain ⟨hname, hd₁⟩ := hname (by omega)
    have h1 := hname.left_lt (by simp [hident])
    obtain ⟨h, hvalue, hle, hd₂⟩ := hvalue (by omega) (by omega)
    have h2 := hvalue.left_le
    obtain ⟨k, hattrs, hle', hd₃⟩ := hattrs (by omega) (by omega)
    exact ⟨_, .more hident hname hvalue hattrs, by omega, by omega⟩
  · refine .fault (.bind (.bump _) fun _ => .bind (.discard (keepsAt _ _).container) fun _ => ?_)
    exact .bind (.expect _ _) fun _ => (keepsAt _ _).attributes
  · next hident hbrace =>
    refine .pure fun _ hdepth => ⟨0, .done ?_ (mt Cursor.kind_symbol.1 hbrace), by omega, rfl⟩
    intro h
    obtain ⟨w, hw⟩ := Cursor.kind_ident.1 h
    exact hident w hw

theorem sound_attrValue (ih : SoundAt fuel) (p : Parser) :
    Finds (attrValue (fuel + 1)) p (Spans ReadsAttrValue 1 (fuel + 1) p) := by
  refine .eat (fun heq => .here (.token ?_)) fun heq => ?_
  · have b := left_bump_lt_of_kind heq (by decide) .tag
    have b' (mode : Mode) := (p.cursor.bump .tag).left_bump_le mode
    split
    · next s hs =>
      simp only [cursor_bump] at hs
      refine .bump (.pure fun _ hdepth => ?_)
      simp only [cursor_bump, depth_bump]
      exact ⟨0, .text heq hs, by omega, trivial⟩
    · next hbrace =>
      simp only [cursor_bump] at hbrace
      refine .bump (.bind (ih.container _) fun inner p₁ => .bind .expect fun _ p₂ => .last ?_)
      refine .pure ?_
      rintro ⟨hclose, rfl⟩ hinner hfuel hdepth
      simp only [Spans, cursor_bump, depth_bump] at hinner ⊢
      have b'' := b' .script
      obtain ⟨h, hinner, hle, hd⟩ := hinner (by omega) hdepth
      exact ⟨h, .container heq (Cursor.kind_symbol.2 hbrace) hinner hclose, hle, hd⟩
    · refine .bind (ih.markup .tag _) fun m p₁ => ?_
      split
      · refine .pure fun hm hfuel hdepth => ?_
        simp only [Spans, cursor_bump, depth_bump] at hm
        obtain ⟨h, ⟨hlt, hm⟩, hle, hd⟩ := hm (by omega) hdepth
        exact ⟨h, .element heq hlt hm, hle, hd⟩
      · exact .faultAt (.pure _)
    · exact .missing (.pure _)
  · exact .pure fun _ hdepth => ⟨0, .bare heq, by omega, rfl⟩

end

theorem soundAt (fuel : Nat) : SoundAt fuel := by
  induction fuel with
  | zero =>
    constructor
    case expr | unary | primary => exact fun p => .here (.pure (.of_zero (by decide)))
    case binary => exact fun power p => .here (.pure (.of_zero (by decide)))
    case markup => exact fun after p => .here (.pure (.of_zero (by decide)))
    case arguments | container | attributes | attrValue =>
      exact fun p => .pure (.of_zero (by decide))
    case trailing => exact fun e p => .pure (.of_zero (by decide))
    case binaryRest | markupRest | children => exact fun _ _ p => .pure (.of_zero (by decide))
  | succ fuel ih =>
    exact ⟨sound_expr ih, sound_binary ih, sound_binaryRest ih, sound_unary ih, sound_trailing ih,
      sound_arguments ih, sound_primary ih, sound_markup ih, sound_markupRest ih, sound_children ih,
      sound_container ih, sound_attributes ih, sound_attrValue ih⟩

/-! Statements -/

theorem finds_string? {p : Parser} :
    Finds string? p fun s q =>
      (∃ w, p.cursor.token.val = .string w ∧ s = some ⟨w, p.cursor.token.span⟩ ∧
        q = p.bump .script) ∨
        (p.cursor.kind ≠ .string ∧ s = none ∧ q = p) := by
  refine .token ?_
  split
  · next w hw => exact .here (.bump (.pure (.inl ⟨w, hw, rfl, rfl⟩)))
  · next h =>
    refine .pure (.inr ⟨?_, rfl, rfl⟩)
    unfold Cursor.kind
    cases ht : p.cursor.token.val with
    | string w => exact absurd ht (h w)
    | _ => simp [Token.kind]

theorem finds_string {p : Parser} :
    Finds string p fun s q =>
      ∃ w, p.cursor.token.val = .string w ∧ s = ⟨w, p.cursor.token.span⟩ ∧ q = p.bump .script := by
  refine .bind finds_string? fun s q => ?_
  split
  · refine .pure ?_
    rintro (⟨w, hw, hs, rfl⟩ | ⟨_, hs, _⟩)
    · exact ⟨w, hw, Option.some.inj hs, rfl⟩
    · cases hs
  · exact .missing (.bind .here fun _ => .pure _)

theorem finds_importSource {p : Parser} :
    Finds importSource p fun s q =>
      ReadsSource p.cursor s q.cursor ∧ q.depth = p.depth := by
  refine .bind .expect fun _ p₁ => finds_string.mono ?_
  rintro s q ⟨w, hw, rfl, rfl⟩ ⟨hfrom, rfl⟩
  simp only [cursor_bump, depth_bump] at hw ⊢
  exact ⟨.mk hfrom hw, trivial⟩

theorem finds_importSpecifiers (fuel : Nat) (p : Parser) :
    Finds (importSpecifiers fuel) p fun ss q =>
      16 * p.cursor.left + 1 ≤ fuel → q.cursor.kind = .symbol .rbrace →
        ReadsSpecifiers p.cursor ss q.cursor ∧ q.depth = p.depth := by
  induction fuel generalizing p with
  | zero => exact .pure fun h => absurd h (by omega)
  | succ fuel ih =>
    refine .sees (.sees ?_)
    split
    · next hend => exact .pure fun _ h => ⟨.none h, rfl⟩
    · next hend =>
      have hbrace : p.cursor.kind ≠ .symbol .rbrace := by
        intro h
        simp [h] at hend
      have specifier (imported : Spanned String) (localName : Option (Spanned String))
          (p₁ : Parser) : Finds (do
            if ← eat (.symbol .comma) .script then
              return ⟨imported, localName⟩ :: (← importSpecifiers fuel)
            else return [⟨imported, localName⟩]) p₁ fun ss q =>
          ReadsSpecifier p.cursor ⟨imported, localName⟩ p₁.cursor → p₁.depth = p.depth →
            16 * p.cursor.left + 1 ≤ fuel + 1 → q.cursor.kind = .symbol .rbrace →
              ReadsSpecifiers p.cursor ss q.cursor ∧ q.depth = p.depth := by
        refine .eat (fun hk => .bind (ih _) fun ss q => .pure ?_) fun hk => .pure ?_
        · intro hss hs hd hfuel hclose
          have h1 := hs.left_lt
          have b := p₁.cursor.left_bump_le .script
          simp only [cursor_bump, depth_bump] at hss
          obtain ⟨hss, hd'⟩ := hss (by omega) hclose
          exact ⟨.more hbrace hs hk hss, hd'.trans hd⟩
        · exact fun hs hd _ _ => ⟨.last hbrace hs hk, hd⟩
      refine .bind finds_name fun imported p₁ => .eat (fun hk => ?_) fun hk => ?_
      · refine .bind (Q := fun l q => ∃ w, p₁.cursor.kind = .keyword .kwAs ∧
          (p₁.cursor.bump .script).token.val = .ident w ∧
          l = some ⟨w, (p₁.cursor.bump .script).token.span⟩ ∧
          q = (p₁.bump .script).bump .script) ?_ fun l p₂ => (specifier imported l p₂).mono ?_
        · refine .bind finds_ident fun l q => .pure ?_
          rintro ⟨w, hw, rfl, rfl⟩
          simp only [cursor_bump] at hw
          exact ⟨w, hk, hw, by simp, rfl⟩
        · rintro ss q hss ⟨l, has, hl, rfl, rfl⟩ ⟨w, hw, rfl, rfl⟩
          simp only [cursor_bump, depth_bump] at hss has hl
          exact hss (.renamed hw has hl) trivial
      · refine (specifier imported none p₁).mono ?_
        rintro ss q hss ⟨w, hw, rfl, rfl⟩
        simp only [cursor_bump, depth_bump] at hss hk
        exact hss (.plain hw hk) trivial

theorem finds_importClause (fuel : Nat) (default : Option (Spanned String)) (p : Parser) :
    Finds (importClause fuel default) p fun d q =>
      16 * p.cursor.left + 1 ≤ fuel → ReadsClause default p.cursor d q.cursor ∧ q.depth = p.depth := by
  refine .eat (fun hk => ?_) fun hk => .eat (fun hk' => ?_) fun hk' => ?_
  · refine .bind .expect fun _ p₁ => .bind finds_ident fun space p₂ => ?_
    refine .bind finds_importSource fun source p₃ => .pure ?_
    rintro ⟨hsource, hd⟩ ⟨w, hw, rfl, rfl⟩ ⟨has, rfl⟩ _
    simp only [cursor_bump, depth_bump] at hsource hd hw has ⊢
    exact ⟨.all hk has hw hsource, hd⟩
  · refine .bind (finds_importSpecifiers fuel _) fun named p₁ => .bind .expect fun _ p₂ => ?_
    refine .bind finds_importSource fun source p₃ => .pure ?_
    rintro ⟨hsource, hd⟩ ⟨hclose, rfl⟩ hnamed hfuel
    simp only [cursor_bump, depth_bump] at hsource hd hnamed
    have b := p.cursor.left_bump_le .script
    obtain ⟨hnamed, hd'⟩ := hnamed (by omega) hclose
    exact ⟨.named hk' hnamed hclose hsource, hd.trans hd'⟩
  · exact .missing (.bind (.bind (.expect _ _) fun _ => .string) fun _ => .pure _)

theorem finds_importDecl (fuel : Nat) (p : Parser) :
    Finds (importDecl fuel) p fun d q =>
      16 * p.cursor.left + 1 ≤ fuel → ReadsImport p.cursor d q.cursor ∧ q.depth = p.depth := by
  refine .bind .expect fun _ p₁ => .bind finds_string? fun s p₂ => ?_
  split
  · refine .pure ?_
    rintro (⟨w, hw, hs, rfl⟩ | ⟨_, hs, _⟩) ⟨himport, rfl⟩ _
    · cases hs
      simp only [cursor_bump, depth_bump] at hw ⊢
      exact ⟨.sideEffect himport hw, trivial⟩
    · cases hs
  · refine .bind finds_ident? fun n p₃ => ?_
    split
    · refine (finds_importClause fuel none p₃).mono ?_
      rintro d q hd (⟨w, _, hn, _⟩ | ⟨hident, _, rfl⟩) (⟨w, _, hs, _⟩ | ⟨hstring, _, rfl⟩)
        ⟨himport, rfl⟩ hfuel <;> try contradiction
      simp only [cursor_bump, depth_bump] at hd hident hstring
      have b := p.cursor.left_bump_le .script
      obtain ⟨hd, hdepth⟩ := hd (by omega)
      exact ⟨.clause himport hstring hident hd, hdepth⟩
    · next n =>
      refine .eat (fun hk => (finds_importClause fuel (some n) _).mono ?_) fun hk => ?_
      · rintro d q hd (⟨w, hw, hn, rfl⟩ | ⟨_, hn, _⟩) (⟨w', _, hs, _⟩ | ⟨_, _, rfl⟩)
          ⟨himport, rfl⟩ hfuel <;> try contradiction
        cases hn
        simp only [cursor_bump, depth_bump] at hd hk hw
        have b := (((p.cursor.bump .script).bump .script).left_bump_le .script).trans
          (((p.cursor.bump .script).left_bump_le .script).trans (p.cursor.left_bump_le .script))
        obtain ⟨hd, hdepth⟩ := hd (by omega)
        exact ⟨.both himport hw hk hd, hdepth⟩
      · refine .bind finds_importSource fun source p₄ => .pure ?_
        rintro ⟨hsource, hd⟩ (⟨w, hw, hn, rfl⟩ | ⟨_, hn, _⟩) (⟨w', _, hs, _⟩ | ⟨_, _, rfl⟩)
          ⟨himport, rfl⟩ hfuel <;> try contradiction
        cases hn
        simp only [cursor_bump, depth_bump] at hsource hd hk hw ⊢
        exact ⟨.default himport hw hk hsource, hd⟩

theorem finds_binding {fuel : Nat} {kind : BindingKind} {p : Parser}
    (hk : p.cursor.kind = .keyword kind.keyword) :
    Finds (binding fuel kind) p (Spans ReadsBody 7 fuel p) := by
  refine .bump (.bind finds_ident fun name p₁ => .bind .expect fun _ p₂ => ?_)
  refine .bind ((soundAt fuel).expr p₂) fun e p₃ => .pure ?_
  rintro he ⟨heq, rfl⟩ ⟨w, hw, rfl, rfl⟩ hfuel hdepth
  simp only [Spans, cursor_bump, depth_bump] at he heq hw ⊢
  have b := (((p.cursor.bump .script).bump .script).left_bump_le .script).trans
    (((p.cursor.bump .script).left_bump_le .script).trans (p.cursor.left_bump_le .script))
  obtain ⟨h, he, hle, hd⟩ := he (by omega) hdepth
  exact ⟨h, .binding hk hw heq he, hle, hd⟩

theorem finds_statementBody (fuel : Nat) (p : Parser) :
    Finds (statementBody fuel) p (Spans ReadsBody 7 fuel p) := by
  refine .token ?_
  split
  · refine .bind (finds_importDecl fuel p) fun d p₁ => .pure fun hd hfuel hdepth => ?_
    obtain ⟨hd, hdepth'⟩ := hd (by omega)
    exact ⟨0, .imports hd, by omega, hdepth'⟩
  · next hk => exact finds_binding (Cursor.kind_keyword.2 hk)
  · next hk => exact finds_binding (Cursor.kind_keyword.2 hk)
  · next hk =>
    refine .bump (.bind .expect fun _ p₁ => .bind ((soundAt fuel).expr p₁) fun e p₂ => .pure ?_)
    rintro he ⟨hdefault, rfl⟩ hfuel hdepth
    simp only [Spans, cursor_bump, depth_bump] at he hdefault
    have b := ((p.cursor.bump .script).left_bump_le .script).trans (p.cursor.left_bump_le .script)
    obtain ⟨h, he, hle, hd⟩ := he (by omega) hdepth
    exact ⟨h, .exportDefault (Cursor.kind_keyword.2 hk) hdefault he, hle, hd⟩
  · next h1 h2 h3 h4 =>
    refine .bind ((soundAt fuel).expr p) fun e p₁ => .pure fun he hfuel hdepth => ?_
    obtain ⟨h, he, hle, hd⟩ := he hfuel hdepth
    refine ⟨h, .expr ?_ he, hle, hd⟩
    simp only [opensStatement, Bool.or_eq_false_iff, decide_eq_false_iff_not, Cursor.kind_keyword]
    exact ⟨⟨⟨h1, h2⟩, h3⟩, h4⟩

theorem finds_statement? (fuel : Nat) (p : Parser) :
    Finds (statement? fuel) p
      (Spans (fun c h found c' => ∃ s, found = some s ∧ ReadsStatement c h s c') 7 fuel p) := by
  refine .here (.get (.bind (finds_statementBody fuel p) fun s p₁ => .bind .discard_eat ?_))
  intro _ p₂
  refine .get ?_
  split
  · next h => exact .of_keeps (.pure _) (by rintro hnil; simp [hnil] at h)
  · refine .last (.pure ?_)
    rintro (⟨hk, rfl⟩ | ⟨hk, rfl⟩) hs hfuel hdepth
    · obtain ⟨h, hs, hle, hd⟩ := hs hfuel hdepth
      simp only [cursor_bump, depth_bump]
      exact ⟨h, ⟨_, rfl, .closed hs hk⟩, hle, hd⟩
    · obtain ⟨h, hs, hle, hd⟩ := hs hfuel hdepth
      exact ⟨h, ⟨_, rfl, .bare hs hk⟩, hle, hd⟩

theorem finds_statements (fuel : Nat) (p : Parser) :
    Finds (statements fuel) p fun ss q =>
      16 * p.cursor.left + 8 ≤ fuel → p.depth = 0 →
        ∃ h, ReadsStatements p.cursor h ss q.cursor ∧ h ≤ maxNesting := by
  induction fuel generalizing p with
  | zero => exact .pure fun h => absurd h (by omega)
  | succ fuel ih =>
    refine .sees ?_
    split
    · next h => exact .pure fun _ _ => ⟨0, .none (of_decide_eq_true h), by decide⟩
    · next heof =>
      have heof : p.cursor.kind ≠ .endOfFile := fun h => heof (decide_eq_true h)
      have rest (found : Option (Spanned Statement)) (p₁ : Parser) : Finds (do
            if (← here) = p.cursor.token.span then bump .script
            return found.toList ++ (← statements fuel)) p₁ fun ss q =>
          ∃ ss', ss = found.toList ++ ss' ∧
            (16 * p₁.cursor.left + 8 ≤ fuel → p₁.depth = 0 →
              ∃ h, ReadsStatements (p₁.cursor.past p.cursor.token.span) h ss' q.cursor ∧
                h ≤ maxNesting) := by
        have tail (p₂ : Parser) (hp₂ : p₂.cursor = p₁.cursor.past p.cursor.token.span)
            (hd₂ : p₂.depth = p₁.depth) :
            Finds (statements fuel >>= fun ss => pure (found.toList ++ ss)) p₂ fun ss q =>
              ∃ ss', ss = found.toList ++ ss' ∧
                (16 * p₁.cursor.left + 8 ≤ fuel → p₁.depth = 0 →
                  ∃ h, ReadsStatements (p₁.cursor.past p.cursor.token.span) h ss' q.cursor ∧
                    h ≤ maxNesting) := by
          refine .bind (ih p₂) fun ss p₃ => .pure fun hss => ⟨ss, rfl, fun hfuel hdepth => ?_⟩
          have b := Cursor.left_past_le p.cursor.token.span p₁.cursor
          rw [hp₂] at hss
          exact hss (by omega) (by omega)
        refine .here ?_
        split
        · next h => exact .bump (tail _ (by simp [Cursor.past, h]) (depth_bump ..))
        · next h => exact tail _ (by simp [Cursor.past, h]) rfl
      refine .here (.bind (finds_statement? fuel p) fun found p₁ => ?_)
      cases found with
      | none =>
        refine .bind (Q := fun _ _ => True) ⟨(keeps_recover .faults fuel p₁).1, fun _ => trivial⟩
          fun _ p₂ => (rest none p₂).mono fun ss q _ _ hs hfuel hdepth => ?_
        obtain ⟨h, ⟨s, hs, _⟩, _⟩ := hs (by omega) (by omega)
        cases hs
      | some s =>
        refine (rest (some s) p₁).mono ?_
        rintro ss q ⟨ss', rfl, hss⟩ hs hfuel hdepth
        obtain ⟨h, ⟨s', hs', hread⟩, hle, hd⟩ := hs (by omega) (by omega)
        cases hs'
        have h1 := hread.left_lt
        obtain ⟨k, hss, hle'⟩ := hss (by omega) (by omega)
        exact ⟨_, .more heof hread hss, by omega⟩

/-- The reader that has gone through a whole text, and the statements it has found. -/
def readAll (source : List Char) : List (Spanned Statement) × Parser :=
  (statements (Program.parseFuel source)).run (Parser.ofText source)

theorem parse_eq (name source : String) :
    Program.parse name source =
      if (readAll source.toList).2.allFaults.isEmpty then
        .ok ⟨name, (readAll source.toList).1, (readAll source.toList).2.scanner.comments⟩
      else .error (readAll source.toList).2.allFaults :=
  rfl

/-- What is read as a program is a derivation from its first token to the end of the text, and no
fault was found on the way. -/
theorem readsStatements_of_parse {name source : String} {p : Program}
    (h : Program.parse name source = .ok p) :
    ∃ k c, ReadsStatements (Parser.ofText source.toList).cursor k p.statements c ∧
      k ≤ maxNesting ∧ p = ⟨name, p.statements, c.scanner.comments⟩ ∧ c.scanner.faults = [] := by
  have hfinds := finds_statements (Program.parseFuel source.toList) (Parser.ofText source.toList)
  rw [parse_eq] at h
  by_cases hfaults : (readAll source.toList).2.allFaults.isEmpty
  · rw [if_pos hfaults] at h
    cases h
    simp only [Parser.allFaults, List.isEmpty_iff, List.append_eq_nil_iff] at hfaults
    have hleft := Cursor.left_ofText_le source.toList
    obtain ⟨k, hreads, hk⟩ := hfinds.2 hfaults.2 (by simp only [Program.parseFuel]; omega) rfl
    exact ⟨k, _, hreads, hk, rfl, hfaults.1⟩
  · rw [if_neg hfaults] at h
    cases h

end Parse
end BranchMarkup
