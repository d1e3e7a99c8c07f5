import BranchMarkup.Proofs.Reading.Steps
/-! Every parser runs in balanced steps, and what it asks the scanner for suits the token it takes: raw text
is asked for behind tags, braces and raw text, and nothing else is asked for behind raw text. -/
namespace BranchMarkup
namespace Parse

/-- The request goes with the token it takes: raw text is asked for only behind a tag or a brace, or where
one raw text ends; and behind raw text nothing else is, nor has the text ended there. -/
structure Suits (mode : Mode) (p : Parser) : Prop where
  child : mode = .child →
    p.token.val = .symbol .gt ∨ p.token.val = .symbol .rbrace ∨ ∃ raw, p.token.val = .text raw
  text : ∀ raw, p.token.val = .text raw → mode = .child ∧ (p.bump .child).token.val ≠ .endOfFile

def Suited : Parser → List Step → Prop
  | _, [] => True
  | p, .take mode :: ss => (p.token.val ≠ .endOfFile → Suits mode p) ∧ Suited (p.bump mode) ss
  | p, s :: ss => Suited (s.run p) ss

theorem Suited.append {p : Parser} {ss ts : List Step} (h : Suited p ss)
    (h' : Suited (runAll ss p) ts) : Suited p (ss ++ ts) := by
  induction ss generalizing p with
  | nil => exact h'
  | cons s ss ih =>
    cases s with
    | take mode => exact ⟨h.1, ih h.2 h'⟩
    | _ => exact ih (p := Step.run _ p) h h'

/-- A run in balanced steps. Given enough fuel, every request suits its token or a fault is noted. -/
def Goes {α : Type} (enough : Prop) (x : Parse α) (p : Parser) : Prop :=
  ∃ ss, Does x p ss ∧ Balanced p.depth ss ∧ (enough → notes ss ≠ [] ∨ Suited p ss)

section
variable {α β : Type} {e e' : Prop} {x : Parse α} {f : α → Parse β} {p : Parser}

theorem Goes.mono (h : Goes e x p) (he : e' → e) : Goes e' x p := by
  obtain ⟨ss, hdoes, hbalanced, hsuited⟩ := h
  exact ⟨ss, hdoes, hbalanced, fun h => hsuited (he h)⟩

theorem Goes.pure (a : α) : Goes e (Pure.pure a) p := ⟨[], .pure a p, .nil, fun _ => .inr trivial⟩

theorem Goes.left_le (h : Goes e x p) : (x.run p).2.cursor.left ≤ p.cursor.left := by
  obtain ⟨ss, hdoes, -⟩ := h
  rw [hdoes.run_eq]
  exact left_runAll_le ss p

/-- Two parts of a run, one after the other. What the second asks for matters only where the first notes
nothing. -/
theorem steps_append {ss ts : List Step} (hbalanced : Balanced p.depth ss)
    (hsuited : e → notes ss ≠ [] ∨ Suited p ss) (hbalanced' : Balanced (runAll ss p).depth ts)
    (hsuited' : e → notes ss = [] → notes ts ≠ [] ∨ Suited (runAll ss p) ts) :
    Balanced p.depth (ss ++ ts) ∧ (e → notes (ss ++ ts) ≠ [] ∨ Suited p (ss ++ ts)) := by
  rw [hbalanced.depth_eq rfl] at hbalanced'
  refine ⟨hbalanced.append hbalanced', fun he => ?_⟩
  by_cases hn : notes ss = []
  · rcases hsuited' he hn with h' | h'
    · exact .inl (by simp [h'])
    · exact (hsuited he).imp (fun h => absurd hn h) fun h => h.append h'
  · exact .inl (by simp [hn])

theorem Goes.seq_clean (h : Goes e x p) (hf : Goes e' (f (x.run p).1) (x.run p).2)
    (he : e → (x.run p).2.faults = p.faults → e') : Goes e (x >>= f) p := by
  obtain ⟨ss, hss, hbalanced, hsuited⟩ := h
  obtain ⟨ts, hts, hbalanced', hsuited'⟩ := hf
  refine ⟨ss ++ ts, hss.seq hts, ?_⟩
  rw [hss.run_eq] at hbalanced' hsuited' he
  refine steps_append hbalanced hsuited hbalanced' fun h hn => hsuited' (he h ?_)
  rw [faults_runAll, hn, List.append_nil]

theorem Goes.seq (h : Goes e x p) (hf : Goes e (f (x.run p).1) (x.run p).2) : Goes e (x >>= f) p :=
  h.seq_clean hf fun h _ => h

theorem Goes.bind (h : Goes e x p)
    (hf : ∀ a q, q.cursor.left ≤ p.cursor.left → Goes e (f a) q) : Goes e (x >>= f) p :=
  h.seq (hf _ _ h.left_le)

theorem Goes.ite {b : Prop} [Decidable b] {y : Parse α} (hx : Goes e x p) (hy : Goes e y p) :
    Goes e (if b then x else y) p := by
  split
  · exact hx
  · exact hy

theorem Goes.token {f : Token → Parse β} (h : Goes e (f p.token.val) p) :
    Goes e (token >>= f) p := by
  obtain ⟨ss, hdoes, h⟩ := h
  exact ⟨ss, .token hdoes, h⟩

theorem Goes.kind {f : Token.Kind → Parse β} (h : Goes e (f p.cursor.kind) p) :
    Goes e (kind >>= f) p := by
  obtain ⟨ss, hdoes, h⟩ := h
  exact ⟨ss, .kind hdoes, h⟩

theorem Goes.here {f : Span → Parse β} (h : Goes e (f p.token.span) p) :
    Goes e (here >>= f) p := by
  obtain ⟨ss, hdoes, h⟩ := h
  exact ⟨ss, .here hdoes, h⟩

theorem Goes.last {f : Span → Parse β} (h : Goes e (f p.last) p) : Goes e (last >>= f) p := by
  obtain ⟨ss, hdoes, h⟩ := h
  exact ⟨ss, .last hdoes, h⟩

theorem Goes.sees {k : Token.Kind} {f : Bool → Parse β} (h : Goes e (f (p.cursor.kind = k)) p) :
    Goes e (sees k >>= f) p := by
  obtain ⟨ss, hdoes, h⟩ := h
  exact ⟨ss, .sees hdoes, h⟩

theorem Goes.checked {f : α → Bool → Parse β} (h : Goes e x p)
    (hf : ∀ a b q, q.cursor.left ≤ p.cursor.left → Goes e (f a b) q) : Goes e (checked x f) p := by
  have hle := h.left_le
  obtain ⟨ss, hss, hbalanced, hsuited⟩ := h
  obtain ⟨ts, hts, hbalanced', hsuited'⟩ :=
    hf (x.run p).1 (p.faults.length < (x.run p).2.faults.length) (x.run p).2 hle
  refine ⟨ss ++ ts, hss.checked hts, ?_⟩
  rw [hss.run_eq] at hbalanced' hsuited'
  exact steps_append hbalanced hsuited hbalanced' fun h _ => hsuited' h

theorem Goes.bump {mode : Mode} {f : Unit → Parse β} (h : e → Suits mode p)
    (hf : Goes e (f ()) (p.bump mode)) : Goes e (bump mode >>= f) p :=
  .seq ⟨[.take mode], .step (.take mode) p, .take mode, fun he => .inr ⟨fun _ => h he, trivial⟩⟩ hf

theorem Goes.faultAt {g : Fault} {span : Span} {f : Unit → Parse β}
    (h : ∀ q, q.cursor = p.cursor → Goes False (f ()) q) : Goes e (faultAt g span >>= f) p := by
  obtain ⟨ts, hts, hbalanced, -⟩ := h ((Step.note g span).run p) rfl
  exact ⟨_, .seq (.step (.note g span) p) hts, .append (.note g span) hbalanced,
    fun _ => .inl (by simp [notes, Step.fault?])⟩

theorem Goes.fault {g : Fault} {f : Unit → Parse β}
    (h : ∀ q, q.cursor = p.cursor → Goes False (f ()) q) : Goes e (fault g >>= f) p := by
  have hseq : Goes e (Parse.here >>= fun span => Parse.faultAt g span >>= f) p := .here (.faultAt h)
  exact hseq

theorem Goes.missing {wanted : Wanted} {f : Unit → Parse β}
    (h : ∀ q, q.cursor = p.cursor → Goes False (f ()) q) : Goes e (missing wanted >>= f) p := by
  have hseq : Goes e (Parse.kind >>= fun k => Parse.fault (.expected wanted k) >>= f) p :=
    .kind (.fault h)
  exact hseq

theorem suits_of_ne_text {mode : Mode} (hmode : mode ≠ .child) (h : ∀ raw, p.token.val ≠ .text raw) :
    Suits mode p :=
  ⟨fun hchild => absurd hchild hmode, fun raw hraw => absurd hraw (h raw)⟩

theorem Goes.nested {fallback : α} (h : ∀ q, q.cursor.left = p.cursor.left → Goes e x q) :
    Goes e (nested fallback x) p := by
  let inside : Parse α := do
    modify Step.enter.run
    let a ← x
    modify Step.leave.run
    return a
  let beyond : Parse α := do
    Parse.fault .tooDeep
    return fallback
  have look {ss} (hss : Does (if p.depth < maxNesting then inside else beyond) p ss) :
      Does (Parse.nested fallback x) p ss :=
    .look (fun _ d => if d < maxNesting then inside else beyond) hss
  by_cases hd : p.depth < maxNesting
  · obtain ⟨ss, hdoes, hbalanced, hsuited⟩ := h (Step.enter.run p) rfl
    have hinside : Does inside p ([.enter] ++ (ss ++ ([.leave] ++ []))) :=
      .seq (.step .enter p) (.seq hdoes (.seq (.step .leave _) (.pure ..)))
    refine ⟨_, look (by rwa [if_pos hd]), .nested hd hbalanced, fun he => ?_⟩
    rcases hsuited he with hn | hs
    · exact .inl (by simpa [notes_cons, Step.fault?] using hn)
    · exact .inr (hs.append trivial)
  · have hbeyond : Does beyond p ([.note .tooDeep p.token.span] ++ []) :=
      .look (fun c _ => Parse.faultAt .tooDeep c.token.span >>= fun _ => Pure.pure fallback)
        (.seq (.step (.note .tooDeep p.token.span) p) (.pure ..))
    exact ⟨_, look (by rwa [if_neg hd]), .note .., fun _ => .inl (by simp [notes_cons, Step.fault?])⟩

/-- A kind of token that a request of that mode may stand behind. -/
def Allows (k : Token.Kind) (mode : Mode) : Prop :=
  k ≠ .text ∧ k ≠ .endOfFile ∧ (mode = .child → k = .symbol .gt ∨ k = .symbol .rbrace)

instance (k : Token.Kind) (mode : Mode) : Decidable (Allows k mode) := by
  unfold Allows
  infer_instance

theorem allows_gt (mode : Mode) : Allows (.symbol .gt) mode := by cases mode <;> decide

theorem Allows.suits {k : Token.Kind} {mode : Mode} (hk : Allows k mode) (h : p.cursor.kind = k) :
    Suits mode p := by
  refine ⟨fun hchild => ?_, fun raw hraw => absurd (h.symm.trans ?_) hk.1⟩
  · exact (hk.2.2 hchild).imp (fun hgt => Cursor.kind_symbol.1 (h.trans hgt))
      fun hbrace => .inl (Cursor.kind_symbol.1 (h.trans hbrace))
  · exact congrArg Token.kind hraw

theorem Goes.eat {k : Token.Kind} {mode : Mode} (hk : Allows k mode) {f : Bool → Parse β}
    (htaken : ∀ q, q.cursor.left < p.cursor.left → Goes e (f true) q) (hnot : Goes e (f false) p) :
    Goes e (eat k mode >>= f) p := by
  have hsees : Goes e (Parse.sees k >>= fun b => (if b then do
      Parse.bump mode
      return true
    else return false) >>= f) p := by
    refine .sees ?_
    by_cases h : p.cursor.kind = k
    · rw [if_pos (by simpa using h)]
      have hend : p.cursor.token.val ≠ .endOfFile :=
        fun hend => hk.2.1 (h ▸ Cursor.kind_endOfFile.2 hend)
      refine .bump (f := fun _ => f true) (fun _ => hk.suits h) (htaken _ ?_)
      exact cursor_bump p mode ▸ Cursor.left_bump_lt hend mode
    · rw [if_neg (by simpa using h)]
      exact hnot
  exact hsees

theorem Goes.expect {k : Token.Kind} {mode : Mode} (hk : Allows k mode) : Goes e (expect k mode) p :=
  .eat hk (fun _ _ => .pure _) (.missing (f := Pure.pure) fun _ _ => .pure _)

theorem goes_noName : Goes e noName p := .here (.pure _)

theorem goes_ident? : Goes e ident? p := by
  refine .token ?_
  split
  · next w hw => exact .here (.bump (fun _ => suits_of_ne_text (by decide) (by simp [hw])) (.pure _))
  · exact .pure _

theorem goes_ident : Goes e ident p := by
  refine .bind goes_ident? fun n _ _ => ?_
  split
  · exact .pure _
  · exact .missing fun _ _ => goes_noName

theorem goes_name : Goes e name p := by
  refine .token ?_
  split
  · next k hk => exact .here (.bump (fun _ => suits_of_ne_text (by decide) (by simp [hk])) (.pure _))
  · exact goes_ident

theorem goes_string? : Goes e string? p := by
  refine .token ?_
  split
  · next w hw => exact .here (.bump (fun _ => suits_of_ne_text (by decide) (by simp [hw])) (.pure _))
  · exact .pure _

theorem goes_string : Goes e string p := by
  refine .bind goes_string? fun s _ _ => ?_
  split
  · exact .pure _
  · exact .missing fun _ _ => .here (.pure _)

theorem goes_tagIdent : Goes e tagIdent p := by
  refine .token ?_
  split
  · next w hw => exact .here (.bump (fun _ => suits_of_ne_text (by decide) (by simp [hw])) (.pure _))
  · exact .missing fun _ _ => goes_noName

theorem goes_tagNamePart (h : e → ∃ s, p.token.val = .symbol s) (name : Spanned String)
    (joint : String) : Goes e (tagNamePart name joint) p := by
  refine .bump (fun he => ?_) (.bind goes_tagIdent fun _ _ _ => .pure _)
  obtain ⟨s, hs⟩ := h he
  exact suits_of_ne_text (by decide) (by simp [hs])

theorem goes_tagNameRest (fuel : Nat) (name : Spanned String) : Goes e (tagNameRest fuel name) p := by
  induction fuel generalizing name p with
  | zero =>
    rw [tagNameRest]
    exact .pure _
  | succ fuel ih =>
    rw [tagNameRest]
    refine .token ?_
    split
    · next h => exact .bind (goes_tagNamePart (fun _ => ⟨_, h⟩) _ _) fun _ _ _ => ih _
    · next h => exact .bind (goes_tagNamePart (fun _ => ⟨_, h⟩) _ _) fun _ _ _ => ih _
    · exact .pure _

theorem goes_tagName (fuel : Nat) : Goes e (tagName fuel) p :=
  .sees (.ite (.here (.pure _)) (.bind goes_tagIdent fun _ _ _ => goes_tagNameRest fuel _))

theorem left_tagName_lt {w : String} (h : p.token.val = .ident w) (fuel : Nat) :
    ((tagName fuel).run p).2.cursor.left < p.cursor.left := by
  have hrun : (tagName fuel).run p = (tagNameRest fuel ⟨w, p.token.span⟩).run (p.bump .tag) := by
    simp [tagName, Parse.sees, Parse.kind, tagIdent, h, Parse.token, Parse.here, Parse.bump, Token.kind]
  have hend : p.cursor.token.val ≠ .endOfFile := by
    rw [show p.cursor.token.val = _ from h]
    simp
  have hrest := (goes_tagNameRest (e := False) (p := p.bump .tag) fuel ⟨w, p.token.span⟩).left_le
  have hlt := Cursor.left_bump_lt hend .tag
  rw [cursor_bump] at hrest
  rw [hrun]
  omega

theorem goes_closeElement (fuel : Nat) (name : Spanned String) (after : Mode)
    (found : Option (List Child)) : Goes e (closeElement fuel name after found) p := by
  have close {q : Parser} {e : Prop} (cs : List Child) :
      Goes e (Parse.expect (.symbol .gt) after >>= fun _ => Pure.pure cs) q :=
    .bind (.expect (allows_gt after)) fun _ _ _ => .pure _
  cases found with
  | none => exact .pure _
  | some cs =>
    refine .bind (goes_tagName fuel) fun closing q _ => ?_
    exact .ite (.faultAt fun _ _ => close cs) (close cs)

theorem goes_closeFragment (fuel : Nat) (after : Mode) (found : Option (List Child)) :
    Goes e (closeFragment fuel after found) p := by
  have close {q : Parser} {e : Prop} (cs : List Child) :
      Goes e (Parse.expect (.symbol .gt) after >>= fun _ => Pure.pure cs) q :=
    .bind (.expect (allows_gt after)) fun _ _ _ => .pure _
  cases found with
  | none => exact .pure _
  | some cs =>
    refine .sees (.ite (close cs) ?_)
    exact .bind (goes_tagName fuel) fun _ _ _ => .faultAt fun _ _ => close cs

end

/-! Expressions and markup -/

/-- All of expressions and markup runs in balanced steps, and asks as it should with enough fuel for what is
left. -/
structure GoesAt (fuel : Nat) : Prop where
  expr : ∀ p, Goes (16 * p.cursor.left + 8 ≤ fuel) (expr fuel) p
  binary : ∀ power p, Goes (16 * p.cursor.left + 7 ≤ fuel) (binary fuel power) p
  binaryRest : ∀ power lhs p, Goes (16 * p.cursor.left + 1 ≤ fuel) (binaryRest fuel power lhs) p
  unary : ∀ p, Goes (16 * p.cursor.left + 6 ≤ fuel) (unary fuel) p
  trailing : ∀ e p, Goes (16 * p.cursor.left + 1 ≤ fuel) (trailing fuel e) p
  arguments : ∀ p, Goes (16 * p.cursor.left + 9 ≤ fuel) (arguments fuel) p
  primary : ∀ p, Goes (16 * p.cursor.left + 5 ≤ fuel) (primary fuel) p
  markup : ∀ after p, Goes (16 * p.cursor.left + 4 ≤ fuel) (markup fuel after) p
  markupRest : ∀ start after p, Goes (16 * p.cursor.left + 3 ≤ fuel) (markupRest fuel start after) p
  children : ∀ unclosed opened p,
    Goes (16 * p.cursor.left + 1 ≤ fuel) (children fuel unclosed opened) p
  container : ∀ p, Goes (16 * p.cursor.left + 9 ≤ fuel) (container fuel) p
  attributes : ∀ p, Goes (16 * p.cursor.left + 2 ≤ fuel) (attributes fuel) p
  attrValue : ∀ p, Goes (16 * p.cursor.left + 1 ≤ fuel) (attrValue fuel) p

section
variable {fuel : Nat}

theorem goes_expr (ih : GoesAt fuel) (p : Parser) :
    Goes (16 * p.cursor.left + 8 ≤ fuel + 1) (expr (fuel + 1)) p := by
  rw [expr]
  refine .bind ((ih.binary 0 p).mono (by omega)) fun test q hq => ?_
  refine .eat (by decide) (fun r hr => .nested fun s hs => ?_) (.pure _)
  refine .bind ((ih.expr s).mono (by omega)) fun _ t ht => ?_
  refine .bind (.expect (by decide)) fun _ u hu => ?_
  exact .bind ((ih.expr u).mono (by omega)) fun _ _ _ => .pure _

theorem goes_binary (ih : GoesAt fuel) (power : Nat) (p : Parser) :
    Goes (16 * p.cursor.left + 7 ≤ fuel + 1) (binary (fuel + 1) power) p := by
  rw [binary]
  refine .bind ((ih.unary p).mono (by omega)) fun lhs q hq => ?_
  exact (ih.binaryRest power lhs q).mono (by omega)

theorem Goes.bump_symbol {e : Prop} {β : Type} {f : Unit → Parse β} {p : Parser} {mode : Mode}
    (hmode : mode ≠ .child) (h : ∃ s, p.token.val = .symbol s)
    (hf : ∀ q, q.cursor.left < p.cursor.left → Goes e (f ()) q) : Goes e (Parse.bump mode >>= f) p := by
  obtain ⟨s, hs⟩ := h
  have hend : p.cursor.token.val ≠ .endOfFile := by
    rw [show p.cursor.token.val = _ from hs]
    simp
  refine .bump (fun _ => suits_of_ne_text hmode (by simp [hs])) (hf _ ?_)
  rw [cursor_bump]
  exact Cursor.left_bump_lt hend mode

theorem goes_binaryRest (ih : GoesAt fuel) (power : Nat) (lhs : Expr) (p : Parser) :
    Goes (16 * p.cursor.left + 1 ≤ fuel + 1) (binaryRest (fuel + 1) power lhs) p := by
  rw [binaryRest]
  refine .token ?_
  split
  · exact .pure _
  · next op hop =>
    have hsymbol : ∃ s, p.token.val = .symbol s := by
      cases ht : p.token.val with
      | symbol s => exact ⟨s, rfl⟩
      | _ => simp [ht, BinaryOp.ofToken?] at hop
    refine .ite (.pure _) (.bump_symbol (by decide) hsymbol fun q hq => ?_)
    refine .bind ((ih.binary _ q).mono (by omega)) fun rhs r hr => ?_
    exact (ih.binaryRest power _ r).mono (by omega)

theorem goes_unary (ih : GoesAt fuel) (p : Parser) :
    Goes (16 * p.cursor.left + 6 ≤ fuel + 1) (unary (fuel + 1)) p := by
  rw [unary]
  refine .token ?_
  split
  · refine .bind ((ih.primary p).mono (by omega)) fun e q hq => ?_
    exact (ih.trailing e q).mono (by omega)
  · next op hop =>
    have hsymbol : ∃ s, p.token.val = .symbol s := by
      cases ht : p.token.val with
      | symbol s => exact ⟨s, rfl⟩
      | _ => simp [ht, UnaryOp.ofToken?] at hop
    refine .here (.bump_symbol (by decide) hsymbol fun q hq => .nested fun r hr => ?_)
    exact .bind ((ih.unary r).mono (by omega)) fun _ _ _ => .pure _

theorem goes_trailing (ih : GoesAt fuel) (e : Expr) (p : Parser) :
    Goes (16 * p.cursor.left + 1 ≤ fuel + 1) (trailing (fuel + 1) e) p := by
  rw [trailing]
  refine .eat (by decide) (fun q hq => ?_) (.eat (by decide) (fun q hq => ?_) (.pure _))
  · exact .bind goes_name fun _ r hr => (ih.trailing _ r).mono (by omega)
  · refine .bind ((ih.arguments q).mono (by omega)) fun args r hr => ?_
    refine .bind (.expect (by decide)) fun _ s hs => .last ?_
    exact (ih.trailing _ s).mono (by omega)

theorem goes_arguments (ih : GoesAt fuel) (p : Parser) :
    Goes (16 * p.cursor.left + 9 ≤ fuel + 1) (arguments (fuel + 1)) p := by
  rw [arguments]
  refine .sees (.sees (.ite (.pure _) ?_))
  refine .bind ((ih.expr p).mono (by omega)) fun arg q hq => ?_
  refine .eat (by decide) (fun r hr => ?_) (.pure _)
  exact .bind ((ih.arguments r).mono (by omega)) fun _ _ _ => .pure _

theorem goes_primary (ih : GoesAt fuel) (p : Parser) :
    Goes (16 * p.cursor.left + 5 ≤ fuel + 1) (primary (fuel + 1)) p := by
  rw [primary]
  refine .here (.token ?_)
  split
  case h_7 ht =>
    refine .bump_symbol (by decide) ⟨_, ht⟩ fun q hq => .nested fun r hr => ?_
    refine .bind ((ih.expr r).mono (by omega)) fun _ _ _ => ?_
    exact .bind (.expect (by decide)) fun _ _ _ => .pure _
  case h_8 => exact .bind ((ih.markup _ p).mono (by omega)) fun _ _ _ => .pure _
  case h_9 => exact .missing fun _ _ => .pure _
  all_goals
    next ht => exact .bump (fun _ => suits_of_ne_text (by decide) (by simp [ht])) (.pure _)

theorem goes_markup (ih : GoesAt fuel) (after : Mode) (p : Parser) :
    Goes (16 * p.cursor.left + 4 ≤ fuel + 1) (markup (fuel + 1) after) p := by
  rw [markup]
  exact .here (.bind (.expect (by decide)) fun _ q hq => (ih.markupRest _ after q).mono (by omega))

theorem goes_markupRest (ih : GoesAt fuel) (start : Span) (after : Mode) (p : Parser) :
    Goes (16 * p.cursor.left + 3 ≤ fuel + 1) (markupRest (fuel + 1) start after) p := by
  rw [markupRest]
  refine .nested fun q hq => .sees (.ite ?_ ?_)
  · refine .bind (.expect (by decide)) fun _ r hr => ?_
    refine .bind ((ih.children _ _ r).mono (by omega)) fun found s hs => ?_
    exact .bind (goes_closeFragment ..) fun _ _ _ => .last (.pure _)
  · refine .bind (goes_tagName fuel) fun name r hr => ?_
    refine .bind ((ih.attributes r).mono (by omega)) fun attrs s hs => ?_
    refine .eat (by decide) (fun _ _ => ?_) (.bind (.expect (by decide)) fun _ t ht => ?_)
    · exact .bind (.expect (allows_gt after)) fun _ _ _ => .last (.pure _)
    · refine .bind ((ih.children _ _ t).mono (by omega)) fun found u hu => ?_
      exact .bind (goes_closeElement ..) fun _ _ _ => .last (.pure _)

theorem does_children_end {p : Parser} (h : p.token.val = .endOfFile) (unclosed : Fault) (opened : Span) :
    Does (children (fuel + 1) unclosed opened) p [.note unclosed opened] := by
  rw [children]
  refine .here (.token ?_)
  rw [h]
  exact .seq (.step (.note unclosed opened) p) (.pure ..)

theorem goes_children (ih : GoesAt fuel) (unclosed : Fault) (opened : Span) (p : Parser) :
    Goes (16 * p.cursor.left + 1 ≤ fuel + 1) (children (fuel + 1) unclosed opened) p := by
  have next (g : Option (List Child) → Option (List Child)) (q : Parser)
      (hq : q.cursor.left < p.cursor.left) : Goes (16 * p.cursor.left + 1 ≤ fuel + 1)
        (children fuel unclosed opened >>= fun found => Pure.pure (g found)) q :=
    .bind ((ih.children _ _ q).mono (by omega)) fun _ _ _ => .pure _
  rw [children]
  refine .here (.token ?_)
  split
  · next raw ht =>
    have hend : p.cursor.token.val ≠ .endOfFile := by
      rw [show p.cursor.token.val = _ from ht]
      simp
    have hlt := Cursor.left_bump_lt hend .child
    rw [← cursor_bump] at hlt
    by_cases hlast : (p.bump .child).token.val = .endOfFile
    · obtain _ | fuel := fuel
      · exact (Goes.bump (e := False) nofun ((next _ _ hlt).mono nofun)).mono (by omega)
      · have hdoes : Does (Parse.bump .child >>= fun _ => children (fuel + 1) unclosed opened >>=
            fun found => Pure.pure (found.map (Child.text raw p.token.span :: ·))) p
              ([.take .child] ++ ([.note unclosed opened] ++ [])) :=
          .seq (.step (.take .child) p) (.seq (does_children_end hlast unclosed opened) (.pure ..))
        refine ⟨_, hdoes, .append (.take _) (.append (.note ..) .nil), fun _ => .inl ?_⟩
        simp [notes_cons, Step.fault?]
    · refine .bump (fun _ => ⟨fun _ => .inr (.inr ⟨raw, ht⟩), fun _ _ => ⟨rfl, hlast⟩⟩) ?_
      exact next _ _ hlt
  · next ht =>
    refine .bump_symbol (by decide) ⟨_, ht⟩ fun q hq => ?_
    refine .bind ((ih.container q).mono (by omega)) fun inner r hr => ?_
    refine .bind (.expect (by decide)) fun _ s hs => .last ?_
    exact next _ s (by omega)
  · next ht =>
    refine .bump_symbol (by decide) ⟨_, ht⟩ fun q hq => .eat (by decide) (fun _ _ => .pure _) ?_
    refine .bind ((ih.markupRest _ _ q).mono (by omega)) fun found r hr => ?_
    exact next _ r (by omega)
  · exact .faultAt fun _ _ => .pure _
  · exact .fault fun q _ => .bump nofun ((ih.children _ _ _).mono nofun)

theorem goes_container (ih : GoesAt fuel) (p : Parser) :
    Goes (16 * p.cursor.left + 9 ≤ fuel + 1) (container (fuel + 1)) p := by
  rw [container]
  exact .sees (.ite (.pure _) (.bind ((ih.expr p).mono (by omega)) fun _ _ _ => .pure _))

theorem Goes.discard {e : Prop} {α : Type} {x : Parse α} {p : Parser} (h : Goes e x p) :
    Goes e (Functor.discard x) p := by
  have hseq : Goes e (x >>= fun _ => Pure.pure PUnit.unit) p := .bind h fun _ _ _ => .pure _
  exact hseq

theorem goes_attributes (ih : GoesAt fuel) (p : Parser) :
    Goes (16 * p.cursor.left + 2 ≤ fuel + 1) (attributes (fuel + 1)) p := by
  rw [attributes]
  refine .token ?_
  split
  · next ht =>
    have hlt := left_tagName_lt ht fuel
    refine .seq (goes_tagName fuel) ?_
    refine .bind ((ih.attrValue _).mono (by omega)) fun value r hr => .last ?_
    exact .bind ((ih.attributes r).mono (by omega)) fun _ _ _ => .pure _
  · refine .fault fun q _ => .bump nofun (.bind (.discard ((ih.container _).mono nofun)) fun _ s _ => ?_)
    exact .bind (.expect (by decide)) fun _ t _ => (ih.attributes t).mono nofun
  · exact .pure _

theorem goes_attrValue (ih : GoesAt fuel) (p : Parser) :
    Goes (16 * p.cursor.left + 1 ≤ fuel + 1) (attrValue (fuel + 1)) p := by
  rw [attrValue]
  refine .eat (by decide) (fun q hq => .here (.token ?_)) (.pure _)
  split
  · next ht => exact .bump (fun _ => suits_of_ne_text (by decide) (by simp [ht])) (.pure _)
  · next ht =>
    refine .bump_symbol (by decide) ⟨_, ht⟩ fun r hr => ?_
    refine .bind ((ih.container r).mono (by omega)) fun _ _ _ => ?_
    exact .bind (.expect (by decide)) fun _ _ _ => .last (.pure _)
  · refine .bind ((ih.markup _ q).mono (by omega)) fun m _ _ => ?_
    split
    · exact .pure _
    · exact .faultAt fun _ _ => .pure _
  · exact .missing fun _ _ => .pure _

theorem goesAt (fuel : Nat) : GoesAt fuel := by
  induction fuel with
  | zero =>
    constructor
    case expr | unary | primary => exact fun _ => .here (.pure _)
    case binary | markup => exact fun _ _ => .here (.pure _)
    case arguments | container | attributes | attrValue => exact fun _ => .pure _
    case trailing => exact fun _ _ => .pure _
    case binaryRest | markupRest | children => exact fun _ _ _ => .pure _
  | succ fuel ih =>
    exact {
      expr := goes_expr ih
      binary := goes_binary ih
      binaryRest := goes_binaryRest ih
      unary := goes_unary ih
      trailing := goes_trailing ih
      arguments := goes_arguments ih
      primary := goes_primary ih
      markup := goes_markup ih
      markupRest := goes_markupRest ih
      children := goes_children ih
      container := goes_container ih
      attributes := goes_attributes ih
      attrValue := goes_attrValue ih }

end

/-! Statements -/

section
variable {e : Prop} {p : Parser}

theorem goes_importSpecifiers (fuel : Nat) : Goes e (importSpecifiers fuel) p := by
  induction fuel generalizing p with
  | zero => exact .pure _
  | succ fuel ih =>
    have next (imported : Spanned String) (localName : Option (Spanned String)) (q : Parser) :
        Goes e (do
          if ← Parse.eat (.symbol .comma) .script then
            return ⟨imported, localName⟩ :: (← importSpecifiers fuel)
          else return [⟨imported, localName⟩]) q :=
      .eat (by decide) (fun _ _ => .bind ih fun _ _ _ => .pure _) (.pure _)
    rw [importSpecifiers]
    refine .sees (.sees (.ite (.pure _) (.bind goes_name fun imported q _ => ?_)))
    refine .eat (by decide) (fun r _ => .bind ?_ fun _ s _ => next imported _ s) (next imported _ q)
    exact .bind goes_ident fun _ _ _ => .pure _

theorem goes_importSource : Goes e importSource p :=
  .bind (.expect (by decide)) fun _ _ _ => goes_string

theorem goes_importClause (fuel : Nat) (default : Option (Spanned String)) :
    Goes e (importClause fuel default) p := by
  have source {e : Prop} {q : Parser} {d : Spanned String → ImportDecl} :
      Goes e (importSource >>= fun s => Pure.pure (d s)) q :=
    .bind goes_importSource fun _ _ _ => .pure _
  refine .eat (by decide) (fun q _ => ?_) (.eat (by decide) (fun q _ => ?_) ?_)
  · exact .bind (.expect (by decide)) fun _ _ _ => .bind goes_ident fun _ _ _ => source
  · refine .bind (goes_importSpecifiers fuel) fun _ _ _ => ?_
    exact .bind (.expect (by decide)) fun _ _ _ => source
  · exact .missing fun _ _ => source

theorem goes_importDecl (fuel : Nat) : Goes e (importDecl fuel) p := by
  refine .bind (.expect (by decide)) fun _ q _ => .bind goes_string? fun s r _ => ?_
  split
  · exact .pure _
  · refine .bind goes_ident? fun name t _ => ?_
    split
    · exact goes_importClause fuel _
    · refine .eat (by decide) (fun _ _ => goes_importClause fuel _) ?_
      exact .bind goes_importSource fun _ _ _ => .pure _

theorem goes_binding {fuel : Nat} (k : BindingKind) (he : e → 16 * p.cursor.left + 8 ≤ fuel)
    (h : e → ∃ w, p.token.val = .keyword w) : Goes e (binding fuel k) p := by
  have hlt := p.cursor.left_bump_le .script
  rw [← cursor_bump] at hlt
  refine .bump (fun hp => ?_) ?_
  · obtain ⟨w, hw⟩ := h hp
    exact suits_of_ne_text (by decide) (by simp [hw])
  · refine .bind goes_ident fun _ q hq => .bind (.expect (by decide)) fun _ r hr => ?_
    exact .bind (((goesAt fuel).expr r).mono fun hp => by have := he hp; omega) fun _ _ _ => .pure _

theorem goes_statementBody (fuel : Nat) (p : Parser) :
    Goes (16 * p.cursor.left + 8 ≤ fuel) (statementBody fuel) p := by
  refine .token ?_
  split
  · exact .bind (goes_importDecl fuel) fun _ _ _ => .pure _
  · next h => exact goes_binding .const id fun _ => ⟨_, h⟩
  · next h => exact goes_binding .mutable id fun _ => ⟨_, h⟩
  · next h =>
    have hlt := p.cursor.left_bump_le .script
    rw [← cursor_bump] at hlt
    refine .bump (fun _ => suits_of_ne_text (by decide) (by simp [h])) ?_
    refine .bind (.expect (by decide)) fun _ q hq => ?_
    exact .bind (((goesAt fuel).expr q).mono (by omega)) fun _ _ _ => .pure _
  · exact .bind ((goesAt fuel).expr p) fun _ _ _ => .pure _

/-- A statement with the semicolon after it. -/
def closedBody (fuel : Nat) : Parse Statement := do
  let body ← statementBody fuel
  discard (eat (.symbol .semicolon) .script)
  return body

theorem goes_closedBody (fuel : Nat) (p : Parser) :
    Goes (16 * p.cursor.left + 8 ≤ fuel) (closedBody fuel) p := by
  have heat (q : Parser) : Goes (16 * p.cursor.left + 8 ≤ fuel)
      (Parse.eat (.symbol .semicolon) .script >>= Pure.pure) q :=
    .eat (by decide) (fun _ _ => .pure _) (.pure _)
  exact .bind (goes_statementBody fuel p) fun _ q _ => .bind (.discard (heat q)) fun _ _ _ => .pure _

theorem statement?_eq (fuel : Nat) :
    statement? fuel = (here >>= fun start => checked (closedBody fuel) fun body found =>
      if found then return none else return some ⟨body, start.merge (← last)⟩) := by
  unfold statement? checked closedBody
  simp only [decide_eq_true_eq, bind_assoc, pure_bind]

theorem goes_statement? (fuel : Nat) (p : Parser) :
    Goes (16 * p.cursor.left + 8 ≤ fuel) (statement? fuel) p := by
  rw [statement?_eq]
  refine .here (.checked (goes_closedBody fuel p) fun body found q _ => ?_)
  exact .ite (.pure _) (.last (.pure _))

theorem goes_recover (fuel : Nat) (p : Parser) : Goes False (recover fuel) p := by
  induction fuel generalizing p with
  | zero => exact .pure _
  | succ fuel ih =>
    rw [recover]
    refine .token ?_
    split
    case h_6 => exact .bump (f := fun _ => Pure.pure _) nofun (.pure _)
    case h_7 => exact .bump nofun (ih _)
    all_goals exact .pure _

theorem goes_statements (fuel : Nat) (p : Parser) : Goes False (statements fuel) p := by
  induction fuel generalizing p with
  | zero => exact .pure _
  | succ fuel ih =>
    have tail (found : Option (Spanned Statement)) (q : Parser) :
        Goes False (statements fuel >>= fun ss => Pure.pure (found.toList ++ ss)) q :=
      .bind (ih q) fun _ _ _ => .pure _
    have next (before : Span) (found : Option (Spanned Statement)) (q : Parser) : Goes False (do
        if (← Parse.here) = before then Parse.bump .script
        return found.toList ++ (← statements fuel)) q :=
      .here (.ite (.bump nofun (tail found _)) (tail found q))
    rw [statements]
    refine .sees (.ite (.pure _) (.here (.bind ((goes_statement? fuel p).mono nofun) ?_)))
    intro found q _
    exact .ite (.bind (goes_recover fuel q) fun _ r _ => next _ found r) (next _ found q)

end

end Parse
end BranchMarkup
