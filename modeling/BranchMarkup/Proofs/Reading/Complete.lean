import BranchMarkup.Proofs.Reading.Sound
/-! What can be derived is found, with as much fuel as the text is long: a derivation that fits into
the levels that are left is what the reader does, and where one does not fit the reader says so. -/
namespace BranchMarkup
namespace Parse

/-- Running `x` at a cursor, some levels deep, gives a value at another cursor, without a fault and
on the same level. -/
def Runs {α : Type} (x : Parse α) (d : Nat) (c : Cursor) (a : α) (c' : Cursor) : Prop :=
  x.run (c.parser d) = (a, c'.parser d)

section
variable {α β : Type} {d : Nat} {c c' : Cursor} {b : β}

theorem Runs.pure (a : α) : Runs (Pure.pure a) d c a c := rfl

theorem Runs.bind {x : Parse α} {f : α → Parse β} {a : α} {c₁ : Cursor} (hx : Runs x d c a c₁)
    (hf : Runs (f a) d c₁ b c') : Runs (x >>= f) d c b c' := by
  unfold Runs at hx
  rw [Runs, StateT.run_bind, hx]
  exact hf

theorem Runs.token {f : Token → Parse β} (h : Runs (f c.token.val) d c b c') :
    Runs (token >>= f) d c b c' := h

theorem Runs.here {f : Span → Parse β} (h : Runs (f c.token.span) d c b c') :
    Runs (here >>= f) d c b c' := h

theorem Runs.last {f : Span → Parse β} (h : Runs (f c.last) d c b c') :
    Runs (last >>= f) d c b c' := h

theorem Runs.sees {k : Token.Kind} {f : Bool → Parse β} (h : Runs (f (c.kind = k)) d c b c') :
    Runs (sees k >>= f) d c b c' := h

theorem Runs.bump {mode : Mode} {f : Unit → Parse β} (h : Runs (f ()) d (c.bump mode) b c') :
    Runs (bump mode >>= f) d c b c' := by
  rw [Runs, ← Cursor.parser_bump] at *
  exact h

theorem runs_eat {k : Token.Kind} {mode : Mode} (hk : c.kind = k) :
    Runs (eat k mode) d c true (c.bump mode) := by
  rw [Runs, run_eat, if_pos (show (c.parser d).cursor.kind = k from hk), Cursor.parser_bump]

theorem runs_leave {k : Token.Kind} {mode : Mode} (hk : c.kind ≠ k) :
    Runs (eat k mode) d c false c := by
  rw [Runs, run_eat, if_neg (show (c.parser d).cursor.kind ≠ k from hk)]

theorem Runs.eat {k : Token.Kind} {mode : Mode} {f : Bool → Parse β} (hk : c.kind = k)
    (h : Runs (f true) d (c.bump mode) b c') : Runs (eat k mode >>= f) d c b c' :=
  .bind (runs_eat hk) h

theorem Runs.leave {k : Token.Kind} {mode : Mode} {f : Bool → Parse β} (hk : c.kind ≠ k)
    (h : Runs (f false) d c b c') : Runs (Parse.eat k mode >>= f) d c b c' :=
  .bind (runs_leave hk) h

theorem Runs.expect {k : Token.Kind} {mode : Mode} (hk : c.kind = k) :
    Runs (expect k mode) d c () (c.bump mode) :=
  .eat hk (.pure ())

theorem Runs.nested {fallback : α} {x : Parse α} {a : α} (hd : d < maxNesting)
    (h : Runs x (d + 1) c a c') : Runs (nested fallback x) d c a c' := by
  unfold Runs at h
  rw [Runs, run_nested_of_lt hd]
  simp only [Cursor.parser] at h ⊢
  rw [h]
  rfl

end

/-! Levels -/

/-- Running `x` at a cursor, some levels deep, finds that no level is left for what stands there. -/
def Exceeds {α : Type} (x : Parse α) (d : Nat) (c : Cursor) : Prop :=
  ∃ f ∈ (x.run (c.parser d)).2.faults, f.val = .tooDeep

/-- What stands at a cursor takes `n` levels: where that many are left `x` runs, and where they are
not it finds that. -/
def Takes {α : Type} (x : Parse α) (d n : Nat) (c : Cursor) (a : α) (c' : Cursor) : Prop :=
  (d + n ≤ maxNesting → Runs x d c a c') ∧ (d ≤ maxNesting → maxNesting < d + n → Exceeds x d c)

section
variable {α β : Type} {d n : Nat} {c c₁ c' : Cursor} {a : α} {b : β}

theorem Exceeds.bind {x : Parse α} {f : α → Parse β} (h : Exceeds x d c)
    (hkeep : ∀ a, Keeps .faults (f a)) : Exceeds (x >>= f) d c := by
  obtain ⟨y, hy, hdeep⟩ := h
  exact ⟨y, (hkeep _ _).1.subset hy, hdeep⟩

theorem Runs.exceeds {x : Parse α} {f : α → Parse β} (hx : Runs x d c a c₁)
    (hf : Exceeds (f a) d c₁) : Exceeds (x >>= f) d c := by
  unfold Runs at hx
  rw [Exceeds, StateT.run_bind, hx]
  exact hf

theorem Takes.of_runs {x : Parse α} (h : Runs x d c a c') : Takes x d 0 c a c' :=
  ⟨fun _ => h, fun hd hn => absurd hd (Nat.not_le.2 hn)⟩

theorem Takes.pure (a : α) : Takes (Pure.pure a) d 0 c a c := .of_runs (.pure a)

theorem Takes.after {x : Parse α} {f : α → Parse β} (hx : Runs x d c a c₁)
    (hf : Takes (f a) d n c₁ b c') : Takes (x >>= f) d n c b c' :=
  ⟨fun h => hx.bind (hf.1 h), fun hd hn => hx.exceeds (hf.2 hd hn)⟩

theorem Takes.bind {m : Nat} {x : Parse α} {f : α → Parse β} (hx : Takes x d n c a c₁)
    (hkeep : ∀ a, Keeps .faults (f a)) (hf : Takes (f a) d m c₁ b c') :
    Takes (x >>= f) d (max n m) c b c' := by
  constructor
  · exact fun h => (hx.1 (by omega)).bind (hf.1 (by omega))
  · intro hd h
    by_cases hn : d + n ≤ maxNesting
    · exact (hx.1 hn).exceeds (hf.2 hd (by omega))
    · exact (hx.2 hd (by omega)).bind hkeep

theorem Takes.before {x : Parse α} {f : α → Parse β} (hx : Takes x d n c a c₁)
    (hkeep : ∀ a, Keeps .faults (f a)) (hf : Runs (f a) d c₁ b c') : Takes (x >>= f) d n c b c' :=
  ⟨fun h => (hx.1 h).bind hf, fun hd hn => (hx.2 hd hn).bind hkeep⟩

theorem Takes.map {x : Parse α} (hx : Takes x d n c a c') (g : α → β) :
    Takes (x >>= fun a => Pure.pure (g a)) d n c (g a) c' :=
  hx.before (fun _ => .pure _) (.pure _)

theorem Takes.token {f : Token → Parse β} (h : Takes (f c.token.val) d n c b c') :
    Takes (token >>= f) d n c b c' := h

theorem Takes.here {f : Span → Parse β} (h : Takes (f c.token.span) d n c b c') :
    Takes (here >>= f) d n c b c' := h

theorem Takes.last {f : Span → Parse β} (h : Takes (f c.last) d n c b c') :
    Takes (last >>= f) d n c b c' := h

theorem Takes.sees {k : Token.Kind} {f : Bool → Parse β} (h : Takes (f (c.kind = k)) d n c b c') :
    Takes (sees k >>= f) d n c b c' := h

theorem Takes.get {f : Parser → Parse β} (h : Takes (f (c.parser d)) d n c b c') :
    Takes (get >>= f) d n c b c' := h

theorem Takes.bump {mode : Mode} {f : Unit → Parse β} (h : Takes (f ()) d n (c.bump mode) b c') :
    Takes (bump mode >>= f) d n c b c' :=
  .after (.bump (.pure ())) h

theorem Takes.eat {k : Token.Kind} {mode : Mode} {f : Bool → Parse β} (hk : c.kind = k)
    (h : Takes (f true) d n (c.bump mode) b c') : Takes (eat k mode >>= f) d n c b c' :=
  .after (runs_eat hk) h

theorem Takes.leave {k : Token.Kind} {mode : Mode} {f : Bool → Parse β} (hk : c.kind ≠ k)
    (h : Takes (f false) d n c b c') : Takes (Parse.eat k mode >>= f) d n c b c' :=
  .after (runs_leave hk) h

theorem Takes.expect {k : Token.Kind} {mode : Mode} {f : Unit → Parse β} (hk : c.kind = k)
    (h : Takes (f ()) d n (c.bump mode) b c') : Takes (expect k mode >>= f) d n c b c' :=
  .after (.expect hk) h

theorem Takes.nested {fallback : α} {x : Parse α} (h : Takes x (d + 1) n c a c') :
    Takes (nested fallback x) d (n + 1) c a c' := by
  constructor
  · exact fun hd => .nested (by omega) (h.1 (by omega))
  · intro hd hn
    by_cases hlt : d < maxNesting
    · obtain ⟨f, hf, hdeep⟩ := h.2 hlt (by omega)
      rw [Exceeds, run_nested_of_lt hlt]
      exact ⟨f, hf, hdeep⟩
    · rw [Exceeds, run_nested_of_not_lt hlt]
      exact ⟨⟨.tooDeep, c.token.span⟩, List.mem_append_right _ (List.mem_singleton_self _), rfl⟩

end

/-! Names -/

theorem kind_string {c : Cursor} {s : String} (h : c.token.val = .string s) : c.kind = .string := by
  rw [Cursor.kind, h]
  rfl

theorem kind_ident {c : Cursor} {name : String} (h : c.token.val = .ident name) :
    c.kind = .ident :=
  Cursor.kind_ident.2 ⟨name, h⟩

theorem runs_ident {c : Cursor} {d : Nat} {w : String} (h : c.token.val = .ident w) :
    Runs ident d c ⟨w, c.token.span⟩ (c.bump .script) := by
  refine .bind (a := some ⟨w, c.token.span⟩) ?_ (.pure _)
  refine .token ?_
  rw [h]
  exact .here (.bump (.pure _))

theorem runs_name {c : Cursor} {d : Nat} {w : String} (h : c.word? = some w) :
    Runs name d c ⟨w, c.token.span⟩ (c.bump .script) := by
  refine .token ?_
  unfold Cursor.word? at h
  split at h
  · next k hk =>
    cases h
    rw [hk]
    exact .here (.bump (.pure _))
  · next w hw =>
    cases h
    rw [hw]
    exact runs_ident hw
  · cases h

theorem runs_tagIdent {c : Cursor} {d : Nat} {w : String} (h : c.token.val = .ident w) :
    Runs tagIdent d c ⟨w, c.token.span⟩ (c.bump .tag) := by
  refine .token ?_
  rw [h]
  exact .here (.bump (.pure _))

theorem ReadsTagRest.runs {c name name' c'} (h : ReadsTagRest c name name' c') :
    ∀ {fuel d}, 16 * c.left + 1 ≤ fuel → Runs (tagNameRest fuel name) d c name' c' := by
  induction h with
  | done hdot hcolon =>
    intro fuel d hf
    obtain _ | fuel := fuel
    · omega
    refine .token ?_
    split
    · next h => exact absurd (Cursor.kind_symbol.2 h) hdot
    · next h => exact absurd (Cursor.kind_symbol.2 h) hcolon
    · exact .pure _
  | @part c joint text part c' name name' hj hcases hpart h ih =>
    intro fuel d hf
    obtain _ | fuel := fuel
    · omega
    have hlt : (c.bump .tag).left < c.left := Cursor.left_bump_lt (by simp [hj]) _
    have hle := (c.bump .tag).left_bump_le .tag
    have hgrown : Runs (tagNamePart name text) d c _ _ :=
      .bump (.bind (runs_tagIdent hpart) (.pure _))
    refine .token ?_
    rw [hj]
    rcases hcases with ⟨rfl, rfl⟩ | ⟨rfl, rfl⟩ <;> exact .bind hgrown (ih (by omega))

theorem ReadsTag.runs {c name c'} (h : ReadsTag c name c') {fuel d : Nat}
    (hf : 16 * c.left ≤ fuel) : Runs (tagName fuel) d c name c' := by
  refine .sees ?_
  cases h with
  | empty hgt =>
    simp only [hgt, decide_true, ↓reduceIte]
    exact .here (.pure _)
  | name hfirst h =>
    have hlt : (c.bump .tag).left < c.left := Cursor.left_bump_lt (by simp [hfirst]) _
    have hgt : c.kind ≠ .symbol .gt := by
      rw [kind_ident hfirst]
      decide
    simp only [hgt, decide_false, Bool.false_eq_true, ↓reduceIte]
    exact .bind (runs_tagIdent hfirst) (h.runs (by omega))

theorem runs_closeElement {c name name' c' after cs} (h : ReadsTag c name' c')
    (hname : name'.val = name.val) (hgt : c'.kind = .symbol .gt) {fuel d : Nat}
    (hf : 16 * c.left ≤ fuel) :
    Runs (closeElement fuel name after (some cs)) d c cs (c'.bump after) := by
  refine .bind (h.runs hf) ?_
  simp only [hname, ne_eq, not_true_eq_false, ↓reduceIte]
  exact .bind (.expect hgt) (.pure _)

theorem runs_closeFragment {c after cs} (hgt : c.kind = .symbol .gt) {fuel d : Nat} :
    Runs (closeFragment fuel after (some cs)) d c cs (c.bump after) := by
  refine .sees ?_
  simp only [hgt, decide_true, ↓reduceIte]
  exact .bind (.expect hgt) (.pure _)

/-! Expressions and markup -/

theorem runs_primary_atom {c : Cursor} {e : Expr} (h : atom? c.token = some e) (fuel d : Nat) :
    Runs (primary (fuel + 1)) d c e (c.bump .script) := by
  rw [primary]
  refine .here (.token ?_)
  unfold atom? at h
  split at h <;> cases h
  all_goals
    next ht =>
      rw [ht]
      exact .bump (.pure _)

theorem ne_endOfFile_of_beginsExpr {k : Token.Kind} (h : beginsExpr k = true) :
    k ≠ .endOfFile := by
  rintro rfl
  cases h

mutual

theorem ReadsExpr.takes {c h e c'} : ReadsExpr c h e c' → ∀ {fuel d}, 16 * c.left + 7 ≤ fuel →
    Takes (expr fuel) d h c e c'
  | .plain h hq, fuel, d, hf => by
    obtain _ | fuel := fuel
    · omega
    rw [expr]
    exact .before (h.takes (by omega)) (keepsAt .faults fuel).branches (.leave hq (.pure _))
  | .conditional h hq h' hcolon h'', fuel, d, hf => by
    obtain _ | fuel := fuel
    · omega
    have h1 := h.left_lt
    have h2 := h'.left_lt
    have b1 := Cursor.left_bump_le _ .script |>.trans_lt h1
    have b2 := left_bump_lt_of_kind hcolon (by decide) .script
    have b3 := left_bump_lt_of_kind hq (by decide) .script
    rw [expr]
    refine .bind (h.takes (by omega)) (keepsAt .faults fuel).branches (.eat hq (.nested ?_))
    refine .bind (h'.takes (by omega)) (fun _ => .bind (.expect _ _) fun _ => ?_)
      (.expect hcolon (.map (h''.takes (by omega)) _))
    exact .bind (keepsAt .faults fuel).expr fun _ => .pure _
termination_by structural h => h

theorem ReadsBinary.takes {power c h e c'} : ReadsBinary power c h e c' → ∀ {fuel d},
    16 * c.left + 6 ≤ fuel → Takes (binary fuel power) d h c e c'
  | .mk h h', fuel, d, hf => by
    obtain _ | fuel := fuel
    · omega
    have h1 := h.left_lt
    rw [binary]
    exact .bind (h.takes (by omega)) (fun _ => (keepsAt .faults fuel).binaryRest _ _)
      (h'.takes (by omega))
termination_by structural h => h

theorem ReadsBinaryRest.takes {power c h lhs e c'} : ReadsBinaryRest power c h lhs e c' →
    ∀ {fuel d}, 16 * c.left + 1 ≤ fuel → Takes (binaryRest fuel power lhs) d h c e c'
  | .done hnone, fuel, d, hf => by
    obtain _ | fuel := fuel
    · omega
    rw [binaryRest]
    refine .token ?_
    split
    · exact .pure _
    · next op hop =>
      rw [if_pos (hnone op hop)]
      exact .pure _
  | .more hop hle h h', fuel, d, hf => by
    obtain _ | fuel := fuel
    · omega
    have h1 := h.left_lt
    have b1 := left_bump_lt_of_binaryOp hop .script
    rw [binaryRest]
    refine .token ?_
    simp only [hop, Nat.not_lt.2 hle, ↓reduceIte]
    exact .bump (.bind (h.takes (by omega)) (fun _ => (keepsAt .faults fuel).binaryRest _ _)
      (h'.takes (by omega)))
termination_by structural h => h

theorem ReadsUnary.takes {c h e c'} : ReadsUnary c h e c' → ∀ {fuel d}, 16 * c.left + 5 ≤ fuel →
    Takes (unary fuel) d h c e c'
  | .operator hop h, fuel, d, hf => by
    obtain _ | fuel := fuel
    · omega
    have b1 := left_bump_lt_of_unaryOp hop .script
    rw [unary]
    refine .token ?_
    simp only [hop]
    exact .here (.bump (.nested (.map (h.takes (by omega)) _)))
  | .trailing hnone h h', fuel, d, hf => by
    obtain _ | fuel := fuel
    · omega
    have h1 := h.left_lt
    rw [unary]
    refine .token ?_
    simp only [hnone]
    exact .bind (h.takes (by omega)) (fun _ => (keepsAt .faults fuel).trailing _)
      (h'.takes (by omega))
termination_by structural h => h

theorem ReadsTrailing.takes {c h e e' c'} : ReadsTrailing c h e e' c' → ∀ {fuel d},
    16 * c.left + 1 ≤ fuel → Takes (trailing fuel e) d h c e' c'
  | .done hdot hparen, fuel, d, hf => by
    obtain _ | fuel := fuel
    · omega
    rw [trailing]
    exact .leave hdot (.leave hparen (.pure _))
  | .member hdot hw h, fuel, d, hf => by
    obtain _ | fuel := fuel
    · omega
    have b1 := left_bump_lt_of_kind hdot (by decide) .script
    have b2 := Cursor.left_bump_le _ .script |>.trans_lt b1
    rw [trailing]
    exact .eat hdot (.after (runs_name hw) (h.takes (by omega)))
  | .call hparen h hclose h', fuel, d, hf => by
    obtain _ | fuel := fuel
    · omega
    have b1 := left_bump_lt_of_kind hparen (by decide) .script
    have h1 := h.left_le
    have b2 := left_bump_lt_of_kind hclose (by decide) .script
    rw [trailing]
    refine .leave (by rw [hparen]; decide) (.eat hparen ?_)
    refine .bind (h.takes (by omega)) (fun _ => ?_) (.expect hclose (.last (h'.takes (by omega))))
    exact .bind (.expect _ _) fun _ => .bind .last fun _ => (keepsAt .faults fuel).trailing _
termination_by structural h => h

theorem ReadsArguments.takes {c h es c'} : ReadsArguments c h es c' → ∀ {fuel d},
    16 * c.left + 8 ≤ fuel → Takes (arguments fuel) d h c es c'
  | .none hr, fuel, d, hf => by
    obtain _ | fuel := fuel
    · omega
    rw [arguments]
    refine .sees (.sees ?_)
    simp only [hr, decide_true, Bool.true_or, ↓reduceIte]
    exact .pure _
  | .last hr h hno, fuel, d, hf => by
    obtain _ | fuel := fuel
    · omega
    rw [arguments]
    refine .sees (.sees ?_)
    simp only [hr, ne_endOfFile_of_beginsExpr h.beginsExpr, decide_false, Bool.or_false,
      Bool.false_eq_true, ↓reduceIte]
    refine .before (h.takes (by omega)) (fun _ => .bind (.eat _ _) fun _ => ?_)
      (.leave hno (.pure _))
    exact .ite (.bind (keepsAt .faults fuel).arguments fun _ => .pure _) (.pure _)
  | .more hr h hcomma h', fuel, d, hf => by
    obtain _ | fuel := fuel
    · omega
    have h1 := h.left_lt
    have b1 := left_bump_lt_of_kind hcomma (by decide) .script
    rw [arguments]
    refine .sees (.sees ?_)
    simp only [hr, ne_endOfFile_of_beginsExpr h.beginsExpr, decide_false, Bool.or_false,
      Bool.false_eq_true, ↓reduceIte]
    refine .bind (h.takes (by omega)) (fun _ => .bind (.eat _ _) fun _ => ?_)
      (.eat hcomma (.map (h'.takes (by omega)) _))
    exact .ite (.bind (keepsAt .faults fuel).arguments fun _ => .pure _) (.pure _)
termination_by structural h => h

theorem ReadsPrimary.takes {c h e c'} : ReadsPrimary c h e c' → ∀ {fuel d},
    16 * c.left + 4 ≤ fuel → Takes (primary fuel) d h c e c'
  | .atom h, fuel, d, hf => by
    obtain _ | fuel := fuel
    · omega
    exact .of_runs (runs_primary_atom h fuel d)
  | .parenthesized hparen h hclose, fuel, d, hf => by
    obtain _ | fuel := fuel
    · omega
    have b1 := left_bump_lt_of_kind hparen (by decide) .script
    rw [primary]
    refine .here (.token ?_)
    rw [Cursor.kind_symbol.1 hparen]
    exact .bump (.nested (.before (h.takes (by omega))
      (fun _ => .bind (.expect _ _) fun _ => .pure _) (.bind (.expect hclose) (.pure _))))
  | .markup hlt h, fuel, d, hf => by
    obtain _ | fuel := fuel
    · omega
    obtain _ | fuel := fuel
    · omega
    have b1 := left_bump_lt_of_kind hlt (by decide) .tag
    rw [primary]
    refine .here (.token ?_)
    rw [Cursor.kind_symbol.1 hlt, markup]
    exact .map (.here (.expect hlt (h.takes (by omega)))) _
termination_by structural h => h

theorem ReadsMarkup.takes {start after c h m c'} : ReadsMarkup start after c h m c' →
    ∀ {fuel d}, 16 * c.left + 2 ≤ fuel → Takes (markupRest fuel start after) d h c m c'
  | .fragment hgt h hclose, fuel, d, hf => by
    obtain _ | fuel := fuel
    · omega
    have b1 := left_bump_lt_of_kind hgt (by decide) .child
    rw [markupRest]
    refine .nested (.sees ?_)
    simp only [hgt, decide_true, ↓reduceIte]
    refine .expect hgt (.before (h.takes (by omega)) (fun _ => ?_)
      (.bind (runs_closeFragment hclose) (.last (.pure _))))
    exact .bind (.closeFragment _ _ _) fun _ => .bind .last fun _ => .pure _
  | .selfClosing hgt h h' hslash hclose, fuel, d, hf => by
    obtain _ | fuel := fuel
    · omega
    have h1 := h.left_lt hgt
    rw [markupRest]
    refine .nested (.sees ?_)
    simp only [hgt, decide_false, Bool.false_eq_true, ↓reduceIte]
    exact .after (h.runs (by omega)) (.before (h'.takes (by omega))
      ((keepsAt .faults fuel).elementRest _ _ _) (.eat hslash (.bind (.expect hclose) (.last (.pure _)))))
  | .element hgt h h' hgt' h'' hclose hname hclose', fuel, d, hf => by
    obtain _ | fuel := fuel
    · omega
    have h1 := h.left_lt hgt
    have h2 := h'.left_le
    have h3 := h''.left_lt
    have b1 := left_bump_lt_of_kind hgt' (by decide) .child
    rw [markupRest]
    refine .nested (.sees ?_)
    simp only [hgt, decide_false, Bool.false_eq_true, ↓reduceIte]
    refine .after (h.runs (by omega)) (.bind (h'.takes (by omega))
      ((keepsAt .faults fuel).elementRest _ _ _) (.leave (by rw [hgt']; decide) (.expect hgt' ?_)))
    refine .before (h''.takes (by omega)) (fun _ => ?_)
      (.bind (runs_closeElement hclose hname hclose' (by omega)) (.last (.pure _)))
    exact .bind (.closeElement _ _ _ _) fun _ => .bind .last fun _ => .pure _
termination_by structural h => h

theorem ReadsChildren.takes {c h cs c'} : ReadsChildren c h cs c' →
    ∀ {fuel d unclosed opened}, 16 * c.left + 1 ≤ fuel →
      Takes (children fuel unclosed opened) d h c (some cs) c'
  | .close hlt hslash, fuel, d, unclosed, opened, hf => by
    obtain _ | fuel := fuel
    · omega
    rw [children]
    refine .here (.token ?_)
    rw [Cursor.kind_symbol.1 hlt]
    exact .bump (.eat hslash (.pure _))
  | .text htext h, fuel, d, unclosed, opened, hf => by
    obtain _ | fuel := fuel
    · omega
    have b1 := Cursor.left_bump_lt (c := _) (by rw [htext]; simp) .child
    rw [children]
    refine .here (.token ?_)
    rw [htext]
    exact .bump (.map (h.takes (by omega)) _)
  | .container hbrace h hclose h', fuel, d, unclosed, opened, hf => by
    obtain _ | fuel := fuel
    · omega
    have b1 := left_bump_lt_of_kind hbrace (by decide) .script
    have h1 := h.left_le
    have b2 := left_bump_lt_of_kind hclose (by decide) .child
    rw [children]
    refine .here (.token ?_)
    rw [Cursor.kind_symbol.1 hbrace]
    refine .bump (.bind (h.takes (by omega)) (fun _ => .bind (.expect _ _) fun _ => ?_)
      (.expect hclose (.last (.map (h'.takes (by omega)) _))))
    exact .bind .last fun _ => .bind ((keepsAt .faults fuel).children _ _) fun _ => .pure _
  | .markup hlt hslash h h', fuel, d, unclosed, opened, hf => by
    obtain _ | fuel := fuel
    · omega
    have b1 := left_bump_lt_of_kind hlt (by decide) .tag
    have h1 := h.left_lt
    rw [children]
    refine .here (.token ?_)
    rw [Cursor.kind_symbol.1 hlt]
    refine .bump (.leave hslash (.bind (h.takes (by omega)) (fun _ => ?_) (.map (h'.takes (by omega)) _)))
    exact .bind ((keepsAt .faults fuel).children _ _) fun _ => .pure _
termination_by structural h => h

theorem ReadsContainer.takes {c h inner c'} : ReadsContainer c h inner c' →
    ∀ {fuel d}, 16 * c.left + 8 ≤ fuel → Takes (container fuel) d h c inner c'
  | .empty hr, fuel, d, hf => by
    obtain _ | fuel := fuel
    · omega
    rw [container]
    refine .sees ?_
    simp only [hr, decide_true, ↓reduceIte]
    exact .pure _
  | .expr hr h, fuel, d, hf => by
    obtain _ | fuel := fuel
    · omega
    rw [container]
    refine .sees ?_
    simp only [hr, decide_false, Bool.false_eq_true, ↓reduceIte]
    exact .map (h.takes (by omega)) _
termination_by structural h => h

theorem ReadsAttributes.takes {c h as c'} : ReadsAttributes c h as c' →
    ∀ {fuel d}, 16 * c.left + 1 ≤ fuel → Takes (attributes fuel) d h c as c'
  | .done hident hbrace, fuel, d, hf => by
    obtain _ | fuel := fuel
    · omega
    rw [attributes]
    refine .token ?_
    split
    · next name h => exact absurd (kind_ident h) hident
    · next h => exact absurd (Cursor.kind_symbol.2 h) hbrace
    · exact .pure _
  | .more hident h h' h'', fuel, d, hf => by
    obtain _ | fuel := fuel
    · omega
    have h1 := h.left_lt (by rw [hident]; decide)
    have h2 := h'.left_le
    obtain ⟨first, hfirst⟩ := Cursor.kind_ident.1 hident
    rw [attributes]
    refine .token ?_
    rw [hfirst]
    refine .after (h.runs (by omega)) (.bind (h'.takes (by omega)) (fun _ => .bind .last fun _ => ?_)
      (.last (.map (h''.takes (by omega)) _)))
    exact .bind (keepsAt .faults fuel).attributes fun _ => .pure _
termination_by structural h => h

theorem ReadsAttrValue.takes {c h v c'} : ReadsAttrValue c h v c' →
    ∀ {fuel d}, 16 * c.left + 1 ≤ fuel → Takes (attrValue fuel) d h c v c'
  | .bare heq, fuel, d, hf => by
    obtain _ | fuel := fuel
    · omega
    rw [attrValue]
    exact .leave heq (.pure _)
  | .text heq hs, fuel, d, hf => by
    obtain _ | fuel := fuel
    · omega
    rw [attrValue]
    refine .eat heq (.here (.token ?_))
    rw [hs]
    exact .bump (.pure _)
  | .container heq hbrace h hclose, fuel, d, hf => by
    obtain _ | fuel := fuel
    · omega
    have b1 := left_bump_lt_of_kind heq (by decide) .tag
    have b2 := left_bump_lt_of_kind hbrace (by decide) .script
    rw [attrValue]
    refine .eat heq (.here (.token ?_))
    rw [Cursor.kind_symbol.1 hbrace]
    refine .bump (.before (h.takes (by omega)) (fun _ => .bind (.expect _ _) fun _ => ?_)
      (.bind (.expect hclose) (.last (.pure _))))
    exact .bind .last fun _ => .pure _
  | .element heq hlt h, fuel, d, hf => by
    obtain _ | fuel := fuel
    · omega
    have b1 := left_bump_lt_of_kind heq (by decide) .tag
    have b2 := left_bump_lt_of_kind hlt (by decide) .tag
    obtain _ | fuel := fuel
    · omega
    rw [attrValue]
    refine .eat heq (.here (.token ?_))
    rw [Cursor.kind_symbol.1 hlt, markup]
    refine .before (.here (.expect hlt (h.takes (by omega)))) (fun m => ?_) (.pure _)
    cases m with
    | element => exact .pure _
    | fragment => exact .bind (.faultAt _ _) fun _ => .pure _
termination_by structural h => h

end

/-! Statements -/

theorem Runs.get {β : Type} {d : Nat} {c c' : Cursor} {b : β} {f : Parser → Parse β}
    (h : Runs (f (c.parser d)) d c b c') : Runs (get >>= f) d c b c' := h

theorem runs_string? {c : Cursor} {d : Nat} {w : String} (h : c.token.val = .string w) :
    Runs string? d c (some ⟨w, c.token.span⟩) (c.bump .script) := by
  refine .token ?_
  rw [h]
  exact .here (.bump (.pure _))

theorem runs_no_string {c : Cursor} {d : Nat} (h : c.kind ≠ .string) : Runs string? d c none c := by
  refine .token ?_
  split
  · next w hw => exact absurd (kind_string hw) h
  · exact .pure _

theorem runs_ident? {c : Cursor} {d : Nat} {w : String} (h : c.token.val = .ident w) :
    Runs ident? d c (some ⟨w, c.token.span⟩) (c.bump .script) := by
  refine .token ?_
  rw [h]
  exact .here (.bump (.pure _))

theorem runs_no_ident {c : Cursor} {d : Nat} (h : c.kind ≠ .ident) : Runs ident? d c none c := by
  refine .token ?_
  split
  · next w hw => exact absurd (kind_ident hw) h
  · exact .pure _

theorem ReadsSpecifier.ne_endOfFile {c s c'} (h : ReadsSpecifier c s c') :
    c.kind ≠ .endOfFile := by
  intro he
  rw [Cursor.kind_endOfFile] at he
  cases h with
  | plain hw | renamed hw => simp [Cursor.word?, he] at hw

theorem ReadsSource.runs {c s c'} (h : ReadsSource c s c') {d : Nat} :
    Runs importSource d c s c' := by
  cases h with
  | mk hfrom hs => exact .bind (.expect hfrom) (.bind (runs_string? hs) (.pure _))

theorem Runs.map {α β : Type} {d : Nat} {c c' : Cursor} {x : Parse α} {a : α} {g : α → β}
    (hx : Runs x d c a c') : Runs (g <$> x) d c (g a) c' := by
  unfold Runs at hx
  rw [Runs, StateT.run_map, hx]
  rfl

theorem Runs.discard {α : Type} {d : Nat} {c c' : Cursor} {x : Parse α} {a : α}
    (hx : Runs x d c a c') : Runs (Functor.discard x) d c () c' :=
  hx.map

theorem ReadsSpecifier.runs {β : Type} {c s c₁} (h : ReadsSpecifier c s c₁) {d : Nat} {b : β}
    {c' : Cursor} {f : Spanned String → Option (Spanned String) → Parse β}
    (hf : Runs (f s.imported s.localName) d c₁ b c') :
    Runs (name >>= fun imported => eat (.keyword .kwAs) .script >>= fun renamed =>
      if renamed then some <$> ident >>= f imported else pure none >>= f imported) d c b c' := by
  cases h with
  | plain hw has => exact .bind (runs_name hw) (.leave has (.bind (.pure none) hf))
  | renamed hw has hl => exact .bind (runs_name hw) (.eat has (.bind (.map (runs_ident hl)) hf))

theorem ReadsSpecifiers.runs {c ss c'} (h : ReadsSpecifiers c ss c') :
    ∀ {fuel d}, 16 * c.left + 1 ≤ fuel → Runs (importSpecifiers fuel) d c ss c' := by
  induction h with
  | none hr =>
    intro fuel d hf
    obtain _ | fuel := fuel
    · omega
    refine .sees (.sees ?_)
    simp only [hr, decide_true, Bool.true_or, ↓reduceIte]
    exact .pure _
  | last hr h hno =>
    intro fuel d hf
    obtain _ | fuel := fuel
    · omega
    refine .sees (.sees ?_)
    simp only [hr, h.ne_endOfFile, decide_false, Bool.or_false, Bool.false_eq_true, ↓reduceIte]
    exact h.runs (.leave hno (.pure _))
  | more hr h hcomma _ ih =>
    intro fuel d hf
    obtain _ | fuel := fuel
    · omega
    have h1 := h.left_lt
    have b1 := left_bump_lt_of_kind hcomma (by decide) .script
    refine .sees (.sees ?_)
    simp only [hr, h.ne_endOfFile, decide_false, Bool.or_false, Bool.false_eq_true, ↓reduceIte]
    exact h.runs (.eat hcomma (.bind (ih (by omega)) (.pure _)))

theorem ReadsClause.runs {default c d c'} (h : ReadsClause default c d c') {fuel n : Nat}
    (hf : 16 * c.left + 1 ≤ fuel) : Runs (importClause fuel default) n c d c' := by
  cases h with
  | all hstar has hname h =>
    refine .eat hstar (.bind (.expect has) (.bind (runs_ident hname) ?_))
    exact .bind h.runs (.pure _)
  | named hbrace hss hclose h =>
    have b := c.left_bump_le .script
    refine .leave (by rw [hbrace]; decide) (.eat hbrace (.bind (hss.runs (by omega)) ?_))
    exact .bind (.expect hclose) (.bind h.runs (.pure _))

theorem ReadsImport.kind {c d c'} (h : ReadsImport c d c') : c.kind = .keyword .kwImport := by
  cases h <;> assumption

theorem ReadsImport.runs {c d c'} (h : ReadsImport c d c') {fuel n : Nat}
    (hf : 16 * c.left + 1 ≤ fuel) : Runs (importDecl fuel) n c d c' := by
  have b := c.left_bump_le .script
  cases h with
  | sideEffect himport hs => exact .bind (.expect himport) (.bind (runs_string? hs) (.pure _))
  | clause himport hstring hident h =>
    refine .bind (.expect himport) (.bind (runs_no_string hstring) ?_)
    exact .bind (runs_no_ident hident) (h.runs (by omega))
  | default himport hname hno h =>
    refine .bind (.expect himport) (.bind (runs_no_string (by rw [kind_ident hname]; decide)) ?_)
    exact .bind (runs_ident? hname) (.leave hno (.bind h.runs (.pure _)))
  | both himport hname hcomma h =>
    have b' := (((c.bump .script).bump .script).left_bump_le .script).trans
      ((c.bump .script).left_bump_le .script)
    refine .bind (.expect himport) (.bind (runs_no_string (by rw [kind_ident hname]; decide)) ?_)
    exact .bind (runs_ident? hname) (.eat hcomma (h.runs (by omega)))

theorem takes_binding {c : Cursor} {kind : BindingKind} {name : String} {k fuel d : Nat} {e : Expr}
    {c' : Cursor} (hname : (c.bump .script).token.val = .ident name)
    (heq : ((c.bump .script).bump .script).kind = .symbol .eq)
    (h : ReadsExpr (((c.bump .script).bump .script).bump .script) k e c')
    (hf : 16 * c.left + 7 ≤ fuel) :
    Takes (binding fuel kind) d k c (.binding kind ⟨name, (c.bump .script).token.span⟩ e) c' := by
  have b := (((c.bump .script).bump .script).left_bump_le .script).trans
    (((c.bump .script).left_bump_le .script).trans (c.left_bump_le .script))
  exact .bump (.after (runs_ident hname) (.expect heq (.map (h.takes (by omega)) _)))

theorem ReadsBody.takes {c k s c'} (hs : ReadsBody c k s c') {fuel d : Nat}
    (hf : 16 * c.left + 7 ≤ fuel) : Takes (statementBody fuel) d k c s c' := by
  refine .token ?_
  cases hs with
  | imports h =>
    rw [Cursor.kind_keyword.1 h.kind]
    exact .of_runs (.bind (h.runs (by omega)) (.pure _))
  | @binding _ kind _ _ _ hk hname heq h =>
    cases kind <;> rw [Cursor.kind_keyword.1 hk] <;> exact takes_binding hname heq h hf
  | exportDefault hk hdefault h =>
    have b := ((c.bump .script).left_bump_le .script).trans (c.left_bump_le .script)
    rw [Cursor.kind_keyword.1 hk]
    exact .bump (.expect hdefault (.map (h.takes (by omega)) _))
  | expr hno h =>
    simp only [opensStatement, Bool.or_eq_false_iff, decide_eq_false_iff_not,
      Cursor.kind_keyword] at hno
    split
    · next hk => exact absurd hk hno.1.1.1
    · next hk => exact absurd hk hno.1.1.2
    · next hk => exact absurd hk hno.1.2
    · next hk => exact absurd hk hno.2
    · exact .map (h.takes hf) _

theorem ReadsStatement.takes {c k s c'} (hs : ReadsStatement c k s c') {fuel d : Nat}
    (hf : 16 * c.left + 7 ≤ fuel) : Takes (statement? fuel) d k c (some s) c' := by
  refine .here (.get ?_)
  cases hs with
  | closed h hsemi =>
    refine .before (h.takes hf) (fun _ => .bind (.discard (.eat _ _)) fun _ => ?_)
      (.bind (.discard (runs_eat hsemi)) (.get (.last (.pure _))))
    exact .bind .get fun _ => .ite (.pure _) (.bind .last fun _ => .pure _)
  | bare h hno =>
    refine .before (h.takes hf) (fun _ => .bind (.discard (.eat _ _)) fun _ => ?_)
      (.bind (.discard (runs_leave hno)) (.get (.last (.pure _))))
    exact .bind .get fun _ => .ite (.pure _) (.bind .last fun _ => .pure _)

theorem ReadsStatements.takes {c k ss c'} (hss : ReadsStatements c k ss c') :
    ∀ {fuel}, 16 * c.left + 8 ≤ fuel → Takes (statements fuel) 0 k c ss c' := by
  induction hss with
  | none he =>
    intro fuel hf
    obtain _ | fuel := fuel
    · omega
    refine .sees ?_
    simp only [he, decide_true, ↓reduceIte]
    exact .pure _
  | @more c h k s ss c₁ c' hne hs hss ih =>
    intro fuel hf
    obtain _ | fuel := fuel
    · omega
    have h1 := hs.left_lt
    have b := Cursor.left_past_le c.token.span c₁
    have tail := @ih fuel (by omega)
    refine .sees ?_
    simp only [hne, decide_false, Bool.false_eq_true, ↓reduceIte]
    refine .here (.bind (hs.takes (by omega))
      (keeps_statementsRest _ fuel (keeps_statements _ fuel) _) ?_)
    simp only [Option.isNone_some, Bool.false_eq_true, ↓reduceIte]
    refine .here ?_
    unfold Cursor.past at tail
    split
    · next h =>
      rw [if_pos h] at tail
      exact .bump (.map tail _)
    · next h =>
      rw [if_neg h] at tail
      exact .map tail _

theorem takes_readAll {source : List Char} {k : Nat} {ss : List (Spanned Statement)} {c : Cursor}
    (h : ReadsStatements (Parser.ofText source).cursor k ss c) :
    Takes (statements (Program.parseFuel source)) 0 k (Parser.ofText source).cursor ss c := by
  have hleft := Cursor.left_ofText_le source
  exact h.takes (by simp only [Program.parseFuel]; omega)

/-- A text is read as a program exactly where a derivation from its first token to its end fits into
the levels there are, and the scanner found no fault. -/
theorem parse_eq_ok_iff {name source : String} {p : Program} :
    Program.parse name source = .ok p ↔
      ∃ k c, ReadsStatements (Parser.ofText source.toList).cursor k p.statements c ∧
        k ≤ maxNesting ∧ p = ⟨name, p.statements, c.scanner.comments⟩ ∧ c.scanner.faults = [] := by
  constructor
  · exact readsStatements_of_parse
  · rintro ⟨k, c, hreads, hk, hp, hfaults⟩
    have hruns : readAll source.toList = (p.statements, c.parser 0) :=
      (takes_readAll hreads).1 (by omega)
    have hnone : (c.parser 0).allFaults = [] := by simp [Parser.allFaults, Cursor.parser, hfaults]
    rw [parse_eq, hruns, if_pos (by rw [hnone]; rfl)]
    exact congrArg _ hp.symm

/-- Where a derivation does not fit into the levels there are, one of the faults says so. -/
theorem parse_tooDeep {name source : String} {k : Nat} {ss : List (Spanned Statement)} {c : Cursor}
    (h : ReadsStatements (Parser.ofText source.toList).cursor k ss c) (hk : maxNesting < k) :
    ∃ fs, Program.parse name source = .error fs ∧ ∃ f ∈ fs, f.val = .tooDeep := by
  obtain ⟨f, hf, hdeep⟩ := (takes_readAll h).2 (Nat.zero_le _) (by omega)
  have hmem : f ∈ (readAll source.toList).2.allFaults := List.mem_append_right _ hf
  refine ⟨_, ?_, f, hmem, hdeep⟩
  rw [parse_eq, if_neg]
  rw [List.isEmpty_iff]
  exact List.ne_nil_of_mem hmem

end Parse
end BranchMarkup
