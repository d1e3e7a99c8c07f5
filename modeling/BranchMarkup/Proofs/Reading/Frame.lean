import BranchMarkup.Proofs.Reading.Goes
/-! What every step of a reader goes along with, whatever the text: a relation that the three basic
steps keep is kept by all of reading. -/
namespace BranchMarkup
namespace Parse

/-! What the steps with a choice do. -/

theorem run_eat (k : Token.Kind) (mode : Mode) (p : Parser) :
    (eat k mode).run p = if p.cursor.kind = k then (true, p.bump mode) else (false, p) := by
  by_cases h : p.cursor.kind = k
  · have hk : p.token.val.kind = k := h
    simp only [eat, sees, kind, bump, h, ↓reduceIte]
    simp [hk]
    rfl
  · have hk : p.token.val.kind ≠ k := h
    simp only [eat, sees, kind, h, ↓reduceIte]
    simp [hk]
    rfl

theorem run_nested_of_lt {α : Type} {fallback : α} {inner : Parse α} {p : Parser}
    (h : p.depth < maxNesting) :
    (nested fallback inner).run p =
      ((inner.run { p with depth := p.depth + 1 }).1,
        { (inner.run { p with depth := p.depth + 1 }).2 with
          depth := (inner.run { p with depth := p.depth + 1 }).2.depth - 1 }) := by
  simp [nested, h]
  rfl

theorem run_nested_of_not_lt {α : Type} {fallback : α} {inner : Parse α} {p : Parser}
    (h : ¬p.depth < maxNesting) :
    (nested fallback inner).run p = (fallback, ((fault .tooDeep).run p).2) := by
  simp [nested, h]
  rfl

/-- A relation between the states before and after. A level is entered and left again around what
is inside it. -/
structure Frame where
  rel : Parser → Parser → Prop
  refl : ∀ p, rel p p
  trans : ∀ {p q r}, rel p q → rel q r → rel p r
  bump : ∀ p mode, rel p (p.bump mode)
  fault : ∀ p f span, rel p { p with faults := p.faults ++ [⟨f, span⟩] }
  nested : ∀ p q, p.depth < maxNesting → rel { p with depth := p.depth + 1 } q →
    rel p { q with depth := q.depth - 1 }

/-- Running `x` goes along the relation. -/
def Keeps (R : Frame) {α : Type} (x : Parse α) : Prop := ∀ p, R.rel p (x.run p).2

section
variable {R : Frame} {α β : Type}

theorem Keeps.pure (a : α) : Keeps R (Pure.pure a) := fun p => R.refl p

theorem Keeps.bind {x : Parse α} {f : α → Parse β} (hx : Keeps R x) (hf : ∀ a, Keeps R (f a)) :
    Keeps R (x >>= f) := fun p => R.trans (hx p) (hf _ _)

theorem Keeps.ite {b : Prop} [Decidable b] {x y : Parse α} (hx : Keeps R x) (hy : Keeps R y) :
    Keeps R (if b then x else y) := by
  split
  · exact hx
  · exact hy

theorem Keeps.map {x : Parse α} (f : α → β) (hx : Keeps R x) : Keeps R (f <$> x) := fun p => hx p

theorem Keeps.discard {x : Parse α} (hx : Keeps R x) : Keeps R (Functor.discard x) := fun p => hx p

theorem Keeps.get : Keeps R MonadState.get := fun p => R.refl p

theorem Keeps.kind : Keeps R kind := fun p => R.refl p

theorem Keeps.here : Keeps R here := fun p => R.refl p

theorem Keeps.last : Keeps R last := fun p => R.refl p

theorem Keeps.sees (k : Token.Kind) : Keeps R (sees k) := fun p => R.refl p

theorem Keeps.bump (mode : Mode) : Keeps R (bump mode) := fun p => R.bump p mode

theorem Keeps.faultAt (f : Fault) (span : Span) : Keeps R (faultAt f span) := fun p => R.fault p f span

theorem Keeps.fault (f : Fault) : Keeps R (fault f) := .bind .here fun _ => .faultAt f _

theorem Keeps.missing (wanted : Wanted) : Keeps R (missing wanted) := .bind .kind fun _ => .fault _

theorem Keeps.eat (k : Token.Kind) (mode : Mode) : Keeps R (eat k mode) :=
  .bind (.sees k) fun _ => .ite (.bind (.bump mode) fun _ => .pure _) (.pure _)

theorem Keeps.expect (k : Token.Kind) (mode : Mode) : Keeps R (expect k mode) :=
  .bind (.eat k mode) fun _ => .ite (.pure _) (.missing _)

theorem Keeps.nested {fallback : α} {inner : Parse α} (h : Keeps R inner) :
    Keeps R (nested fallback inner) := by
  intro p
  by_cases hd : p.depth < maxNesting
  · rw [run_nested_of_lt hd]
    exact R.nested p _ hd (h _)
  · rw [run_nested_of_not_lt hd]
    exact Keeps.fault .tooDeep p

/-- A run in balanced steps goes along the relation, since each of its steps does. -/
theorem Balanced.keeps {d : Nat} {ss : List Step} (h : Balanced d ss) {p : Parser} (hp : p.depth = d) :
    R.rel p (runAll ss p) := by
  induction h generalizing p with
  | nil => exact R.refl p
  | take mode => exact R.bump p mode
  | note f span => exact R.fault p f span
  | append hss _ ih ih' =>
    rw [runAll_append]
    exact R.trans (ih hp) (ih' (hss.depth_eq hp))
  | nested hlt _ ih =>
    rw [runAll_cons, runAll_append]
    exact R.nested p _ (hp ▸ hlt) (ih (p := Step.enter.run p) (congrArg (· + 1) hp))

theorem Keeps.of_goes {e : Parser → Prop} {x : Parse α} (h : ∀ p, Goes (e p) x p) : Keeps R x := by
  intro p
  obtain ⟨ss, hdoes, hbalanced, -⟩ := h p
  rw [hdoes.run_eq]
  exact hbalanced.keeps rfl

theorem Keeps.of_all {x : Parse α} (h : ∀ {e : Prop} {p : Parser}, Goes e x p) : Keeps R x :=
  .of_goes (e := fun _ => False) fun _ => h

theorem Keeps.noName : Keeps R noName := .of_all goes_noName

theorem Keeps.ident? : Keeps R ident? := .of_all goes_ident?

theorem Keeps.ident : Keeps R ident := .of_all goes_ident

theorem Keeps.name : Keeps R name := .of_all goes_name

theorem Keeps.string? : Keeps R string? := .of_all goes_string?

theorem Keeps.string : Keeps R string := .of_all goes_string

theorem Keeps.tagIdent : Keeps R tagIdent := .of_all goes_tagIdent

theorem Keeps.tagNameRest (fuel : Nat) (name : Spanned String) : Keeps R (tagNameRest fuel name) :=
  .of_all (goes_tagNameRest fuel name)

theorem Keeps.tagName (fuel : Nat) : Keeps R (tagName fuel) :=
  .of_all (goes_tagName fuel)

theorem Keeps.closeElement (fuel : Nat) (name : Spanned String) (after : Mode)
    (children : Option (List Child)) : Keeps R (closeElement fuel name after children) :=
  .of_all (goes_closeElement fuel name after children)

theorem Keeps.closeFragment (fuel : Nat) (after : Mode) (children : Option (List Child)) :
    Keeps R (closeFragment fuel after children) :=
  .of_all (goes_closeFragment fuel after children)

/-- All of expressions and markup keeps the relation, with that much fuel. -/
structure KeepsAt (R : Frame) (fuel : Nat) : Prop where
  expr : Keeps R (expr fuel)
  binary : ∀ power, Keeps R (binary fuel power)
  binaryRest : ∀ power lhs, Keeps R (binaryRest fuel power lhs)
  unary : Keeps R (unary fuel)
  trailing : ∀ e, Keeps R (trailing fuel e)
  arguments : Keeps R (arguments fuel)
  primary : Keeps R (primary fuel)
  markup : ∀ after, Keeps R (markup fuel after)
  markupRest : ∀ start after, Keeps R (markupRest fuel start after)
  children : ∀ unclosed opened, Keeps R (children fuel unclosed opened)
  container : Keeps R (container fuel)
  attributes : Keeps R (attributes fuel)
  attrValue : Keeps R (attrValue fuel)

/-- After the test of what may be a conditional. -/
theorem KeepsAt.branches {fuel : Nat} (h : KeepsAt R fuel) (test : Expr) : Keeps R (do
    if ← eat (.symbol .question) .script then
      nested test do
        let consequent ← Parse.expr fuel
        expect (.symbol .colon) .script
        let alternate ← Parse.expr fuel
        return .conditional test consequent alternate none (test.span.merge alternate.span)
    else return test) := by
  refine .bind (.eat _ _) fun _ => .ite (.nested ?_) (.pure _)
  exact .bind h.expr fun _ => .bind (.expect _ _) fun _ => .bind h.expr fun _ => .pure _

/-- After the attributes of an element. -/
theorem KeepsAt.elementRest {fuel : Nat} (h : KeepsAt R fuel) (start : Span) (after : Mode)
    (name : Spanned String) (attrs : List Attribute) : Keeps R (do
      if ← eat (.symbol .slash) .tag then
        expect (.symbol .gt) after
        return Markup.element ⟨name, attrs, [], true, start.merge (← last)⟩
      else
        expect (.symbol .gt) .child
        let found ← Parse.children fuel (.unclosedElement name.val) start
        let inside ← Parse.closeElement fuel name after found
        return .element ⟨name, attrs, inside, false, start.merge (← last)⟩) := by
  refine .bind (.eat _ _) fun _ => .ite ?_ ?_
  · exact .bind (.expect _ _) fun _ => .bind .last fun _ => .pure _
  · refine .bind (.expect _ _) fun _ => .bind (h.children _ _) fun _ => ?_
    exact .bind (.closeElement _ _ _ _) fun _ => .bind .last fun _ => .pure _

theorem keepsAt (R : Frame) (fuel : Nat) : KeepsAt R fuel where
  expr := .of_goes (goesAt fuel).expr
  binary power := .of_goes ((goesAt fuel).binary power)
  binaryRest power lhs := .of_goes ((goesAt fuel).binaryRest power lhs)
  unary := .of_goes (goesAt fuel).unary
  trailing e := .of_goes ((goesAt fuel).trailing e)
  arguments := .of_goes (goesAt fuel).arguments
  primary := .of_goes (goesAt fuel).primary
  markup after := .of_goes ((goesAt fuel).markup after)
  markupRest start after := .of_goes ((goesAt fuel).markupRest start after)
  children unclosed opened := .of_goes ((goesAt fuel).children unclosed opened)
  container := .of_goes (goesAt fuel).container
  attributes := .of_goes (goesAt fuel).attributes
  attrValue := .of_goes (goesAt fuel).attrValue

end

/-! Statements -/

section
variable (R : Frame) (fuel : Nat)

theorem keeps_statement? : Keeps R (statement? fuel) :=
  .of_goes (goes_statement? fuel)

theorem keeps_recover : Keeps R (recover fuel) := .of_goes (goes_recover fuel)

theorem keeps_statements : Keeps R (statements fuel) := .of_goes (goes_statements fuel)

/-- After a statement, or what should have been one. -/
theorem keeps_statementsRest (h : Keeps R (statements fuel)) (before : Span)
    (found : Option (Spanned Statement)) : Keeps R (do
      if found.isNone then recover fuel
      if (← here) = before then Parse.bump .script
      return found.toList ++ (← statements fuel)) := by
  have tail : Keeps R (statements fuel >>= fun ss => Pure.pure (found.toList ++ ss)) :=
    .bind h fun _ => .pure _
  have next : Keeps R (do
      if (← here) = before then Parse.bump .script
      return found.toList ++ (← statements fuel)) :=
    .bind .here fun _ => .ite (.bind (.bump _) fun _ => tail) tail
  exact .ite (.bind (keeps_recover R fuel) fun _ => next) next

end

/-- Faults are only ever added, by the reader and by the scanner under it. -/
def Frame.faults : Frame where
  rel p q := p.faults <+: q.faults ∧ p.scanner.faults <+: q.scanner.faults
  refl p := ⟨List.prefix_rfl, List.prefix_rfl⟩
  trans h h' := ⟨h.1.trans h'.1, h.2.trans h'.2⟩
  bump p mode := by
    unfold Parser.bump
    split
    · exact ⟨List.prefix_rfl, List.prefix_rfl⟩
    · exact ⟨List.prefix_rfl, Scanner.next_faults_prefix ..⟩
  fault p f span := ⟨List.prefix_append .., List.prefix_rfl⟩
  nested p q _ h := h

/-- The level is the same before and after. -/
def Frame.depth : Frame where
  rel p q := q.depth = p.depth
  refl p := rfl
  trans h h' := h'.trans h
  bump p mode := by
    unfold Parser.bump
    split <;> rfl
  fault p f span := rfl
  nested p q _ h := by
    have : q.depth = p.depth + 1 := h
    simp [this]

end Parse
end BranchMarkup
