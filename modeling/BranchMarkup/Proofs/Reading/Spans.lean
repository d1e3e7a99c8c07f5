import BranchMarkup.Proofs.Reading.Borders
import BranchMarkup.Proofs.Reading.Nested
/-! All spans that a reader gives out are parts of the text, those of its faults among them: they are
those of tokens, and the least spans over such. -/
namespace BranchMarkup

open Text (byteLength)

namespace TreeNode

/-- Where the names in the node stand that are no nodes themselves. -/
def names : TreeNode → List Span
  | expr (.member _ property _) => [property.span]
  | element e => [e.name.span]
  | attr a => [a.name.span]
  | _ => []

/-- The node and the names in it are parts of the text. -/
def Sound (source : List Char) (n : TreeNode) : Prop :=
  n.span.Sound source ∧ ∀ s ∈ n.names, s.Sound source

abbrev Whole (source : List Char) (n : TreeNode) : Prop := n.Throughout (Sound source)

theorem Whole.span {source : List Char} {n : TreeNode} (h : n.Whole source) : n.span.Sound source :=
  h.self.1

theorem whole_mk {source : List Char} {n : TreeNode} (hspan : n.span.Sound source)
    (hnames : ∀ s ∈ n.names, s.Sound source) (hparts : ∀ l ∈ n.parts Element.attrs, l.Whole source) :
    n.Whole source :=
  throughout_iff.2 ⟨⟨hspan, hnames⟩, hparts⟩

end TreeNode

def ImportSpecifier.names (s : ImportSpecifier) : List Span :=
  s.imported.span :: s.localName.toList.map (·.span)

def ImportDecl.names (d : ImportDecl) : List Span :=
  d.default.toList.map (·.span) ++ (d.namespaceName.toList.map (·.span) ++
    (d.named.flatMap ImportSpecifier.names ++ [d.source.span]))

/-- Where the names in the statement stand. -/
def Statement.names : Statement → List Span
  | imports d => d.names
  | binding _ name _ => [name.span]
  | _ => []

def Statement.Whole (source : List Char) (s : Statement) : Prop :=
  (∀ t ∈ s.names, t.Sound source) ∧ ∀ e, s.expr? = some e → (TreeNode.expr e).Whole source

/-- A reader that has come by nothing but parts of the text. -/
structure Parser.Sound (source : List Char) (p : Parser) : Prop where
  short : byteLength source < UInt32.size
  scanner : p.scanner.Sound source
  token : p.token.span.Sound source
  last : p.last.Sound source
  faults : ∀ f ∈ p.faults, f.span.Sound source

theorem Parser.Sound.bump {source : List Char} {p : Parser} (h : p.Sound source) (mode : Mode) :
    (p.bump mode).Sound source := by
  unfold Parser.bump
  split
  · exact h
  · have hnext := Scanner.yields_next h.short mode h.scanner
    exact ⟨h.short, hnext.scanner, hnext.span, h.token, h.faults⟩

theorem Parser.sound_ofText {source : List Char} (hsource : byteLength source < UInt32.size) :
    (Parser.ofText source).Sound source := by
  have hfirst := Scanner.yields_next hsource .script (Scanner.sound_ofText source)
  exact ⟨hsource, hfirst.scanner, hfirst.span, Span.sound_zero source, List.forall_mem_nil _⟩

namespace Parse

/-- From parts of the text the reader comes by such only, and gives out what is so. -/
def Gives (source : List Char) {α : Type} (Q : α → Prop) (x : Parse α) : Prop :=
  ∀ p : Parser, p.Sound source → (x.run p).2.Sound source ∧ Q (x.run p).1

section
variable {source : List Char} {α β : Type} {P : α → Prop} {Q : β → Prop}

theorem Gives.pure {a : α} (h : P a) : Gives source P (Pure.pure a) := fun _ hp => ⟨hp, h⟩

theorem Gives.none : Gives source (fun found => ∀ a ∈ found, P a) (Pure.pure none) :=
  .pure (by simp)

theorem Gives.some {a : α} (h : P a) :
    Gives source (fun found => ∀ a ∈ found, P a) (Pure.pure (some a)) :=
  .pure (by simpa using h)

theorem Gives.bind {x : Parse α} {f : α → Parse β} (hx : Gives source P x)
    (hf : ∀ a, P a → Gives source Q (f a)) : Gives source Q (x >>= f) :=
  fun p hp => hf _ (hx p hp).2 _ (hx p hp).1

theorem Gives.ite {b : Prop} [Decidable b] {x y : Parse α} (hx : Gives source P x)
    (hy : Gives source P y) : Gives source P (if b then x else y) := by
  split
  · exact hx
  · exact hy

theorem Gives.discard {x : Parse α} (hx : Gives source P x) :
    Gives source (fun _ => True) (Functor.discard x) :=
  fun p hp => ⟨(hx p hp).1, trivial⟩

theorem Gives.get : Gives source (fun _ => True) MonadState.get := fun _ hp => ⟨hp, trivial⟩

theorem Gives.token : Gives source (fun _ => True) token := fun _ hp => ⟨hp, trivial⟩

theorem Gives.kind : Gives source (fun _ => True) kind := fun _ hp => ⟨hp, trivial⟩

theorem Gives.sees (k : Token.Kind) : Gives source (fun _ => True) (sees k) :=
  fun _ hp => ⟨hp, trivial⟩

theorem Gives.here : Gives source (Span.Sound source) here := fun _ hp => ⟨hp, hp.token⟩

theorem Gives.last : Gives source (Span.Sound source) last := fun _ hp => ⟨hp, hp.last⟩

theorem Gives.bump (mode : Mode) : Gives source (fun _ => True) (bump mode) :=
  fun _ hp => ⟨hp.bump mode, trivial⟩

theorem Gives.faultAt (f : Fault) {span : Span} (h : span.Sound source) :
    Gives source (fun _ => True) (faultAt f span) := fun _ hp =>
  ⟨⟨hp.short, hp.scanner, hp.token, hp.last,
    List.forall_mem_append.2 ⟨hp.faults, List.forall_mem_singleton.2 h⟩⟩, trivial⟩

theorem Gives.fault (f : Fault) : Gives source (fun _ => True) (fault f) :=
  .bind .here fun _ h => .faultAt f h

theorem Gives.missing (wanted : Wanted) : Gives source (fun _ => True) (missing wanted) :=
  .bind .kind fun _ _ => .fault _

theorem Gives.eat (k : Token.Kind) (mode : Mode) : Gives source (fun _ => True) (eat k mode) :=
  .bind (.sees k) fun _ _ => .ite (.bind (.bump mode) fun _ _ => .pure trivial) (.pure trivial)

theorem Gives.expect (k : Token.Kind) (mode : Mode) : Gives source (fun _ => True) (expect k mode) :=
  .bind (.eat k mode) fun _ _ => .ite (.pure trivial) (.missing _)

theorem Gives.nested {fallback : α} {inner : Parse α} (hfallback : P fallback)
    (h : Gives source P inner) : Gives source P (nested fallback inner) := by
  intro p hp
  by_cases hd : p.depth < maxNesting
  · have hinner := h { p with depth := p.depth + 1 }
      ⟨hp.short, hp.scanner, hp.token, hp.last, hp.faults⟩
    rw [run_nested_of_lt hd]
    exact ⟨⟨hp.short, hinner.1.scanner, hinner.1.token, hinner.1.last, hinner.1.faults⟩, hinner.2⟩
  · rw [run_nested_of_not_lt hd]
    exact ⟨(Gives.fault .tooDeep p hp).1, hfallback⟩

end

section
variable {source : List Char}

/-! Names -/

abbrev SoundName (source : List Char) (name : Spanned String) : Prop := name.span.Sound source

theorem Gives.noName : Gives source (SoundName source) noName := .bind .here fun _ h => .pure h

theorem Gives.ident? : Gives source (fun name => ∀ n ∈ name, SoundName source n) ident? := by
  refine .bind .token fun t _ => ?_
  split
  · exact .bind .here fun _ h => .bind (.bump _) fun _ _ => .some h
  · exact .none

theorem Gives.ident : Gives source (SoundName source) ident := by
  refine .bind .ident? fun n hn => ?_
  split
  · exact .pure (hn _ rfl)
  · exact .bind (.missing _) fun _ _ => noName

theorem Gives.name : Gives source (SoundName source) name := by
  refine .bind .token fun t _ => ?_
  split
  · exact .bind .here fun _ h => .bind (.bump _) fun _ _ => .pure h
  · exact ident

theorem Gives.string? : Gives source (fun s => ∀ n ∈ s, SoundName source n) string? := by
  refine .bind .token fun t _ => ?_
  split
  · exact .bind .here fun _ h => .bind (.bump _) fun _ _ => .some h
  · exact .none

theorem Gives.string : Gives source (SoundName source) string := by
  refine .bind .string? fun s hs => ?_
  split
  · exact .pure (hs _ rfl)
  · exact .bind (.missing _) fun _ _ => .bind .here fun _ h => .pure h

theorem Gives.tagIdent : Gives source (SoundName source) tagIdent := by
  refine .bind .token fun t _ => ?_
  split
  · exact .bind .here fun _ h => .bind (.bump _) fun _ _ => .pure h
  · exact .bind (.missing _) fun _ _ => noName

theorem Gives.tagNamePart {name : Spanned String} (hname : SoundName source name) (joint : String) :
    Gives source (SoundName source) (tagNamePart name joint) :=
  .bind (.bump _) fun _ _ => .bind .tagIdent fun _ h => .pure (hname.merge h)

theorem Gives.tagNameRest (fuel : Nat) {name : Spanned String} (hname : SoundName source name) :
    Gives source (SoundName source) (tagNameRest fuel name) := by
  induction fuel generalizing name with
  | zero =>
    rw [Parse.tagNameRest]
    exact .pure hname
  | succ fuel ih =>
    rw [Parse.tagNameRest]
    refine .bind .token fun t _ => ?_
    split
    case h_3 => exact .pure hname
    all_goals exact .bind (.tagNamePart hname _) fun _ h => ih h

theorem Gives.tagName (fuel : Nat) : Gives source (SoundName source) (tagName fuel) :=
  .bind (.sees _) fun _ _ => .ite (.bind .here fun _ h => .pure h)
    (.bind .tagIdent fun _ h => .tagNameRest fuel h)

/-! Expressions and markup -/

abbrev SoundChildren (source : List Char) (cs : List Child) : Prop :=
  ∀ c ∈ cs, (TreeNode.child c).Whole source

theorem Gives.closeElement (fuel : Nat) (name : Spanned String) (after : Mode)
    {found : Option (List Child)} (hfound : ∀ cs ∈ found, SoundChildren source cs) :
    Gives source (SoundChildren source) (closeElement fuel name after found) := by
  cases found with
  | none => exact .pure (List.forall_mem_nil _)
  | some cs =>
    have close : Gives source (SoundChildren source)
        (Parse.expect (.symbol .gt) after >>= fun _ => Pure.pure cs) :=
      .bind (.expect _ _) fun _ _ => .pure (hfound cs rfl)
    refine .bind (.tagName fuel) fun closing h => ?_
    exact .ite (.bind (.faultAt _ h) fun _ _ => close) close

theorem Gives.closeFragment (fuel : Nat) (after : Mode) {found : Option (List Child)}
    (hfound : ∀ cs ∈ found, SoundChildren source cs) :
    Gives source (SoundChildren source) (closeFragment fuel after found) := by
  cases found with
  | none => exact .pure (List.forall_mem_nil _)
  | some cs =>
    have close : Gives source (SoundChildren source)
        (Parse.expect (.symbol .gt) after >>= fun _ => Pure.pure cs) :=
      .bind (.expect _ _) fun _ _ => .pure (hfound cs rfl)
    refine .bind (.sees _) fun seen _ => .ite close ?_
    exact .bind (.tagName fuel) fun _ h => .bind (.faultAt _ h) fun _ _ => close

/-- All of expressions and markup gives out parts of the text, with that much fuel. -/
structure GivesAt (source : List Char) (fuel : Nat) : Prop where
  expr : Gives source (fun e => (TreeNode.expr e).Whole source) (expr fuel)
  binary : ∀ power, Gives source (fun e => (TreeNode.expr e).Whole source) (binary fuel power)
  binaryRest : ∀ power lhs, (TreeNode.expr lhs).Whole source →
    Gives source (fun e => (TreeNode.expr e).Whole source) (binaryRest fuel power lhs)
  unary : Gives source (fun e => (TreeNode.expr e).Whole source) (unary fuel)
  trailing : ∀ e, (TreeNode.expr e).Whole source →
    Gives source (fun e => (TreeNode.expr e).Whole source) (trailing fuel e)
  arguments : Gives source (fun es => ∀ e ∈ es, (TreeNode.expr e).Whole source) (arguments fuel)
  primary : Gives source (fun e => (TreeNode.expr e).Whole source) (primary fuel)
  markup : ∀ after, Gives source (fun m => m.node.Whole source) (markup fuel after)
  markupRest : ∀ start after, start.Sound source →
    Gives source (fun m => m.node.Whole source) (markupRest fuel start after)
  children : ∀ unclosed opened, opened.Sound source →
    Gives source (fun found => ∀ cs ∈ found, SoundChildren source cs) (children fuel unclosed opened)
  container : Gives source (fun inner => ∀ e ∈ inner, (TreeNode.expr e).Whole source) (container fuel)
  attributes : Gives source (fun as => ∀ a ∈ as, (TreeNode.attr a).Whole source) (attributes fuel)
  attrValue : Gives source (fun value => ∀ v ∈ value, (TreeNode.value v).Whole source) (attrValue fuel)

end

end Parse

namespace TreeNode

section
variable {source : List Char}

theorem whole_leaf {n : TreeNode} (h : n.span.Sound source) (hnames : n.names = [])
    (hparts : n.parts Element.attrs = []) : n.Whole source :=
  whole_mk h (by rw [hnames]; exact List.forall_mem_nil _) (by rw [hparts]; exact List.forall_mem_nil _)

theorem whole_fragment {start last : Span} {cs : List Child} (hstart : start.Sound source)
    (hlast : last.Sound source) (hcs : ∀ c ∈ cs, (child c).Whole source) :
    (fragment ⟨cs, none, start.merge last⟩).Whole source :=
  whole_mk (hstart.merge hlast) (List.forall_mem_nil _) (List.forall_mem_map.2 hcs)

theorem whole_element {start last : Span} {name : Spanned String} {attrs : List Attribute}
    {cs : List Child} {closing : Bool} (hstart : start.Sound source) (hlast : last.Sound source)
    (hname : name.span.Sound source) (hattrs : ∀ a ∈ attrs, (attr a).Whole source)
    (hcs : ∀ c ∈ cs, (child c).Whole source) :
    (element ⟨name, attrs, cs, closing, start.merge last⟩).Whole source :=
  whole_mk (hstart.merge hlast) (List.forall_mem_singleton.2 hname)
    (List.forall_mem_append.2 ⟨List.forall_mem_map.2 hattrs, List.forall_mem_map.2 hcs⟩)

theorem whole_toExpr {m : Markup} (h : m.node.Whole source) : (expr m.toExpr).Whole source := by
  cases m <;> exact whole_mk h.span (List.forall_mem_nil _) (List.forall_mem_singleton.2 h)

theorem whole_toChild {m : Markup} (h : m.node.Whole source) : (child m.toChild).Whole source := by
  cases m <;> exact whole_mk h.span (List.forall_mem_nil _) (List.forall_mem_singleton.2 h)

theorem forall_mem_parts_container {inner : Option Expr} (h : ∀ e ∈ inner, (expr e).Whole source) :
    ∀ l ∈ inner.toList.map expr, l.Whole source := by
  cases inner with
  | none => exact List.forall_mem_nil _
  | some e => exact List.forall_mem_singleton.2 (h e rfl)

end

end TreeNode

namespace Parse

open TreeNode (whole_mk whole_leaf whole_fragment whole_element whole_toExpr whole_toChild)

section
variable {source : List Char} {fuel : Nat}

theorem gives_expr (ih : GivesAt source fuel) :
    Gives source (fun e => (TreeNode.expr e).Whole source) (expr (fuel + 1)) := by
  refine .bind (ih.binary 0) fun test htest => .bind (.eat _ _) fun _ _ => ?_
  refine .ite (.nested htest ?_) (.pure htest)
  refine .bind ih.expr fun consequent hconsequent => .bind (.expect _ _) fun _ _ => ?_
  refine .bind ih.expr fun alternate halternate => .pure ?_
  refine whole_mk (htest.span.merge halternate.span) (List.forall_mem_nil _) ?_
  simp only [TreeNode.parts, List.forall_mem_cons]
  exact ⟨htest, hconsequent, halternate, List.forall_mem_nil _⟩

theorem gives_binaryRest (ih : GivesAt source fuel) (power : Nat) {lhs : Expr}
    (hlhs : (TreeNode.expr lhs).Whole source) :
    Gives source (fun e => (TreeNode.expr e).Whole source) (binaryRest (fuel + 1) power lhs) := by
  refine .bind .token fun t _ => ?_
  split
  · exact .pure hlhs
  · refine .ite (.pure hlhs) (.bind (.bump _) fun _ _ => .bind (ih.binary _) fun rhs hrhs => ?_)
    refine ih.binaryRest power _ (whole_mk (hlhs.span.merge hrhs.span) (List.forall_mem_nil _) ?_)
    simp only [TreeNode.parts, List.forall_mem_cons]
    exact ⟨hlhs, hrhs, List.forall_mem_nil _⟩

theorem gives_unary (ih : GivesAt source fuel) :
    Gives source (fun e => (TreeNode.expr e).Whole source) (unary (fuel + 1)) := by
  refine .bind .token fun t _ => ?_
  split
  · exact .bind ih.primary fun e he => ih.trailing e he
  · refine .bind .here fun start hstart => .bind (.bump _) fun _ _ => ?_
    refine .nested (whole_leaf hstart rfl rfl) (.bind ih.unary fun operand hoperand => .pure ?_)
    exact whole_mk (hstart.merge hoperand.span) (List.forall_mem_nil _)
      (List.forall_mem_singleton.2 hoperand)

theorem gives_trailing (ih : GivesAt source fuel) {e : Expr} (he : (TreeNode.expr e).Whole source) :
    Gives source (fun e => (TreeNode.expr e).Whole source) (trailing (fuel + 1) e) := by
  refine .bind (.eat _ _) fun _ _ => .ite (.bind .name fun property hproperty => ?_) ?_
  · exact ih.trailing _ (whole_mk (he.span.merge hproperty) (List.forall_mem_singleton.2 hproperty)
      (List.forall_mem_singleton.2 he))
  · refine .bind (.eat _ _) fun _ _ => .ite ?_ (.pure he)
    refine .bind ih.arguments fun args hargs => .bind (.expect _ _) fun _ _ => .bind .last fun s hs => ?_
    exact ih.trailing _ (whole_mk (he.span.merge hs) (List.forall_mem_nil _)
      (List.forall_mem_cons.2 ⟨he, List.forall_mem_map.2 hargs⟩))

theorem gives_arguments (ih : GivesAt source fuel) :
    Gives source (fun es => ∀ e ∈ es, (TreeNode.expr e).Whole source) (arguments (fuel + 1)) := by
  refine .bind (.sees _) fun _ _ => .bind (.sees _) fun _ _ => .ite (.pure (List.forall_mem_nil _)) ?_
  refine .bind ih.expr fun arg harg => .bind (.eat _ _) fun _ _ => .ite ?_ ?_
  · exact .bind ih.arguments fun args hargs => .pure (List.forall_mem_cons.2 ⟨harg, hargs⟩)
  · exact .pure (List.forall_mem_singleton.2 harg)

theorem gives_primary (ih : GivesAt source fuel) :
    Gives source (fun e => (TreeNode.expr e).Whole source) (primary (fuel + 1)) := by
  refine .bind .here fun start hstart => .bind .token fun t _ => ?_
  split
  case h_7 =>
    refine .bind (.bump _) fun _ _ => .nested (whole_leaf hstart rfl rfl) ?_
    exact .bind ih.expr fun inner hinner => .bind (.expect _ _) fun _ _ => .pure hinner
  case h_8 => exact .bind (ih.markup _) fun m hm => .pure (whole_toExpr hm)
  case h_9 => exact .bind (.missing _) fun _ _ => .pure (whole_leaf hstart rfl rfl)
  all_goals exact .bind (.bump _) fun _ _ => .pure (whole_leaf hstart rfl rfl)

theorem gives_markupRest (ih : GivesAt source fuel) {start : Span} (after : Mode)
    (hstart : start.Sound source) :
    Gives source (fun m => m.node.Whole source) (markupRest (fuel + 1) start after) := by
  refine .nested (whole_leaf hstart rfl rfl) (.bind (.sees _) fun _ _ => .ite ?_ ?_)
  · refine .bind (.expect _ _) fun _ _ => .bind (ih.children _ _ hstart) fun found hfound => ?_
    refine .bind (.closeFragment _ _ hfound) fun cs hcs => .bind .last fun s hs => .pure ?_
    exact whole_fragment hstart hs hcs
  · refine .bind (.tagName _) fun name hname => .bind ih.attributes fun attrs hattrs => ?_
    refine .bind (.eat _ _) fun _ _ => .ite (.bind (.expect _ _) fun _ _ => ?_) ?_
    · exact .bind .last fun s hs =>
        .pure (whole_element hstart hs hname hattrs (List.forall_mem_nil _))
    · refine .bind (.expect _ _) fun _ _ => .bind (ih.children _ _ hstart) fun found hfound => ?_
      refine .bind (.closeElement _ _ _ hfound) fun cs hcs => .bind .last fun s hs => .pure ?_
      exact whole_element hstart hs hname hattrs hcs

theorem gives_children (ih : GivesAt source fuel) (unclosed : Fault) {opened : Span}
    (hopened : opened.Sound source) :
    Gives source (fun found => ∀ cs ∈ found, SoundChildren source cs)
      (children (fuel + 1) unclosed opened) := by
  have next {c : Child} (hc : (TreeNode.child c).Whole source) :
      Gives source (fun found => ∀ cs ∈ found, SoundChildren source cs)
        (Parse.children fuel unclosed opened >>= fun found => Pure.pure (found.map (c :: ·))) := by
    refine .bind (ih.children _ _ hopened) fun found hfound => .pure ?_
    intro cs hcs
    obtain ⟨cs', hcs', rfl⟩ := Option.map_eq_some_iff.1 hcs
    exact List.forall_mem_cons.2 ⟨hc, hfound cs' hcs'⟩
  refine .bind .here fun start hstart => .bind .token fun t _ => ?_
  split
  · exact .bind (.bump _) fun _ _ => next (whole_leaf hstart rfl rfl)
  · refine .bind (.bump _) fun _ _ => .bind ih.container fun inner hinner => ?_
    refine .bind (.expect _ _) fun _ _ => .bind .last fun s hs => ?_
    exact next (whole_mk (hstart.merge hs) (List.forall_mem_nil _)
      (TreeNode.forall_mem_parts_container hinner))
  · refine .bind (.bump _) fun _ _ => .bind (.eat _ _) fun _ _ => .ite (.pure ?_) ?_
    · rintro cs ⟨⟩
      exact List.forall_mem_nil _
    · exact .bind (ih.markupRest _ _ hstart) fun m hm => next (whole_toChild hm)
  · exact .bind (.faultAt _ hopened) fun _ _ => .none
  · exact .bind (.fault _) fun _ _ => .bind (.bump _) fun _ _ => ih.children _ _ hopened

theorem gives_attributes (ih : GivesAt source fuel) :
    Gives source (fun as => ∀ a ∈ as, (TreeNode.attr a).Whole source) (attributes (fuel + 1)) := by
  refine .bind .token fun t _ => ?_
  split
  · refine .bind (.tagName _) fun name hname => .bind ih.attrValue fun value hvalue => ?_
    refine .bind .last fun s hs => .bind ih.attributes fun as has => .pure ?_
    refine List.forall_mem_cons.2 ⟨whole_mk (hname.merge hs) (List.forall_mem_singleton.2 hname) ?_, has⟩
    cases value with
    | none => exact List.forall_mem_nil _
    | some v => exact List.forall_mem_singleton.2 (hvalue v rfl)
  · refine .bind (.fault _) fun _ _ => .bind (.bump _) fun _ _ => ?_
    exact .bind (.discard ih.container) fun _ _ => .bind (.expect _ _) fun _ _ => ih.attributes
  · exact .pure (List.forall_mem_nil _)

theorem gives_attrValue (ih : GivesAt source fuel) :
    Gives source (fun value => ∀ v ∈ value, (TreeNode.value v).Whole source) (attrValue (fuel + 1)) := by
  refine .bind (.eat _ _) fun _ _ => .ite ?_ .none
  refine .bind .here fun start hstart => .bind .token fun t _ => ?_
  split
  · exact .bind (.bump _) fun _ _ => .some (whole_leaf hstart rfl rfl)
  · refine .bind (.bump _) fun _ _ => .bind ih.container fun inner hinner => ?_
    refine .bind (.expect _ _) fun _ _ => .bind .last fun s hs => ?_
    exact .some (whole_mk (hstart.merge hs) (List.forall_mem_nil _)
      (TreeNode.forall_mem_parts_container hinner))
  · refine .bind (ih.markup _) fun m hm => ?_
    split
    · exact .some (whole_mk hm.span (List.forall_mem_nil _) (List.forall_mem_singleton.2 hm))
    · exact .bind (.faultAt _ hm.span) fun _ _ => .some (whole_leaf hm.span rfl rfl)
  · exact .bind (.missing _) fun _ _ => .some (whole_leaf hstart rfl rfl)

end

theorem givesAt (source : List Char) (fuel : Nat) : GivesAt source fuel := by
  have placeholder : Gives source (fun e => (TreeNode.expr e).Whole source)
      (do return .nullAt (← here)) :=
    .bind .here fun _ h => .pure (whole_leaf h rfl rfl)
  induction fuel with
  | zero =>
    constructor
    case expr | unary | primary => exact placeholder
    case binary => exact fun _ => placeholder
    case binaryRest => exact fun _ _ h => .pure h
    case trailing => exact fun _ h => .pure h
    case markup => exact fun _ => .bind .here fun _ h => .pure (whole_leaf h rfl rfl)
    case markupRest => exact fun _ _ h => .pure (whole_leaf h rfl rfl)
    case children => exact fun _ _ _ => .none
    case container | attrValue => exact .none
    case arguments | attributes => exact .pure (List.forall_mem_nil _)
  | succ fuel ih =>
    exact {
      expr := gives_expr ih
      binary := fun power => .bind ih.unary fun e he => ih.binaryRest power e he
      binaryRest := fun power _ h => gives_binaryRest ih power h
      unary := gives_unary ih
      trailing := fun _ h => gives_trailing ih h
      arguments := gives_arguments ih
      primary := gives_primary ih
      markup := fun after => .bind .here fun _ h => .bind (.expect _ _) fun _ _ =>
        ih.markupRest _ after h
      markupRest := fun _ after h => gives_markupRest ih after h
      children := fun unclosed _ h => gives_children ih unclosed h
      container := .bind (.sees _) fun _ _ => .ite .none (.bind ih.expr fun _ he => .some he)
      attributes := gives_attributes ih
      attrValue := gives_attrValue ih }

/-! Statements -/

section
variable {source : List Char} (fuel : Nat)

theorem gives_importSpecifiers :
    Gives source (fun ss => ∀ s ∈ ss, ∀ t ∈ s.names, t.Sound source) (importSpecifiers fuel) := by
  induction fuel with
  | zero => exact .pure (List.forall_mem_nil _)
  | succ fuel ih =>
    have next {imported : Spanned String} {localName : Option (Spanned String)}
        (himported : SoundName source imported) (hlocal : ∀ n ∈ localName, SoundName source n) :
        Gives source (fun ss => ∀ s ∈ ss, ∀ t ∈ s.names, t.Sound source) (do
          if ← eat (.symbol .comma) .script then
            return ⟨imported, localName⟩ :: (← importSpecifiers fuel)
          else return [⟨imported, localName⟩]) := by
      have hnames : ∀ t ∈ (ImportSpecifier.mk imported localName).names, t.Sound source :=
        List.forall_mem_cons.2 ⟨himported, by simpa using hlocal⟩
      refine .bind (.eat _ _) fun _ _ => .ite (.bind ih fun ss hss => .pure ?_) (.pure ?_)
      · exact List.forall_mem_cons.2 ⟨hnames, hss⟩
      · exact List.forall_mem_singleton.2 hnames
    rw [importSpecifiers]
    refine .bind (.sees _) fun _ _ => .bind (.sees _) fun _ _ => .ite (.pure (List.forall_mem_nil _)) ?_
    refine .bind .name fun imported himported => .bind (.eat _ _) fun _ _ => .ite ?_ ?_
    · have renamed : Gives source (fun name => ∀ n ∈ name, SoundName source n) (some <$> ident) :=
        fun p hp => ⟨(Gives.ident p hp).1, by rintro _ ⟨⟩; exact (Gives.ident p hp).2⟩
      exact .bind renamed fun _ hlocal => next himported hlocal
    · exact .bind (P := fun name => ∀ n ∈ name, SoundName source n) .none fun _ hlocal =>
        next himported hlocal

theorem gives_importSource : Gives source (SoundName source) importSource :=
  .bind (.expect _ _) fun _ _ => .string

theorem gives_importClause {default : Option (Spanned String)}
    (hdefault : ∀ n ∈ default, SoundName source n) :
    Gives source (fun d => ∀ t ∈ d.names, t.Sound source) (importClause fuel default) := by
  have whole {space : Option (Spanned String)} {named : List ImportSpecifier}
      (hspace : ∀ n ∈ space, SoundName source n)
      (hnamed : ∀ s ∈ named, ∀ t ∈ s.names, t.Sound source) :
      Gives source (fun d => ∀ t ∈ ImportDecl.names d, t.Sound source)
        (importSource >>= fun s => Pure.pure ⟨default, space, named, s⟩) := by
    refine .bind gives_importSource fun s hs => .pure ?_
    simp only [ImportDecl.names, List.forall_mem_append, List.forall_mem_map, List.forall_mem_flatMap,
      Option.mem_toList]
    exact ⟨hdefault, hspace, hnamed, List.forall_mem_singleton.2 hs⟩
  refine .bind (.eat _ _) fun _ _ => .ite ?_ (.bind (.eat _ _) fun _ _ => .ite ?_ ?_)
  · refine .bind (.expect _ _) fun _ _ => .bind .ident fun space hspace => ?_
    exact whole (by simpa using hspace) (List.forall_mem_nil _)
  · refine .bind (gives_importSpecifiers fuel) fun named hnamed => .bind (.expect _ _) fun _ _ => ?_
    exact whole (by simp) hnamed
  · exact .bind (.missing _) fun _ _ => whole (by simp) (List.forall_mem_nil _)

theorem gives_importDecl : Gives source (fun d => ∀ t ∈ d.names, t.Sound source) (importDecl fuel) := by
  refine .bind (.expect _ _) fun _ _ => .bind .string? fun s hs => ?_
  split
  · exact .pure (List.forall_mem_singleton.2 (hs _ rfl))
  · refine .bind .ident? fun name hname => ?_
    split
    · exact gives_importClause fuel (by simp)
    · refine .bind (.eat _ _) fun _ _ => .ite (gives_importClause fuel hname) ?_
      refine .bind gives_importSource fun s hs => .pure ?_
      exact List.forall_mem_cons.2 ⟨hname _ rfl, List.forall_mem_singleton.2 hs⟩

theorem gives_statementBody : Gives source (Statement.Whole source) (statementBody fuel) := by
  have binding (kind : BindingKind) : Gives source (Statement.Whole source) (binding fuel kind) := by
    refine .bind (.bump _) fun _ _ => .bind .ident fun name hname => .bind (.expect _ _) fun _ _ => ?_
    refine .bind (givesAt source fuel).expr fun e he => .pure ⟨List.forall_mem_singleton.2 hname, ?_⟩
    rintro _ ⟨⟩
    exact he
  have expr {s : Expr → Statement} (hs : ∀ e, (s e).names = [] ∧ (s e).expr? = some e) :
      Gives source (Statement.Whole source) (Parse.expr fuel >>= fun e => Pure.pure (s e)) := by
    refine .bind (givesAt source fuel).expr fun e he => .pure ⟨?_, ?_⟩
    · rw [(hs e).1]
      exact List.forall_mem_nil _
    · rw [(hs e).2]
      rintro _ ⟨⟩
      exact he
  refine .bind .token fun t _ => ?_
  split
  · exact .bind (gives_importDecl fuel) fun d hd => .pure ⟨hd, by simp [Statement.expr?]⟩
  · exact binding .const
  · exact binding .mutable
  · exact .bind (.bump _) fun _ _ => .bind (.expect _ _) fun _ _ => expr fun _ => ⟨rfl, rfl⟩
  · exact expr fun _ => ⟨rfl, rfl⟩

abbrev SoundStatement (source : List Char) (s : Spanned Statement) : Prop :=
  s.span.Sound source ∧ s.val.Whole source

theorem gives_statement? :
    Gives source (fun found => ∀ s ∈ found, SoundStatement source s) (statement? fuel) := by
  refine .bind .here fun start hstart => .bind .get fun _ _ => ?_
  refine .bind (gives_statementBody fuel) fun body hbody => .bind (.discard (.eat _ _)) fun _ _ => ?_
  refine .bind .get fun _ _ => .ite .none (.bind .last fun s hs => ?_)
  exact .some ⟨hstart.merge hs, hbody⟩

theorem gives_recover : Gives source (fun _ => True) (recover fuel) := by
  induction fuel with
  | zero => exact .pure trivial
  | succ fuel ih =>
    refine .bind .token fun t _ => ?_
    split
    case h_6 => exact .bump _
    case h_7 => exact .bind (.bump _) fun _ _ => ih
    all_goals exact .pure trivial

theorem gives_statements :
    Gives source (fun ss => ∀ s ∈ ss, SoundStatement source s) (statements fuel) := by
  induction fuel with
  | zero => exact .pure (List.forall_mem_nil _)
  | succ fuel ih =>
    have next (before : Span) {found : Option (Spanned Statement)}
        (hfound : ∀ s ∈ found, SoundStatement source s) :
        Gives source (fun ss => ∀ s ∈ ss, SoundStatement source s) (do
          if (← here) = before then Parse.bump .script
          return found.toList ++ (← statements fuel)) := by
      have tail : Gives source (fun ss => ∀ s ∈ ss, SoundStatement source s)
          (statements fuel >>= fun ss => Pure.pure (found.toList ++ ss)) :=
        .bind ih fun ss hss => .pure (List.forall_mem_append.2 ⟨by simpa using hfound, hss⟩)
      exact .bind .here fun _ _ => .ite (.bind (.bump _) fun _ _ => tail) tail
    rw [statements]
    refine .bind (.sees _) fun _ _ => .ite (.pure (List.forall_mem_nil _)) ?_
    refine .bind .here fun before _ => ?_
    refine .bind (gives_statement? fuel) fun found hfound => .ite ?_ (next before hfound)
    exact .bind (gives_recover fuel) fun _ _ => next before hfound

end

end Parse
end BranchMarkup
