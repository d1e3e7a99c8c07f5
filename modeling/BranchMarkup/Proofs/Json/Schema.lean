import BranchMarkup.Proofs.Json.Fits
import BranchMarkup.Tree.Read
/-! A tree's JSON fits the layout that trees are read by, and is decoded to the tree. -/
namespace BranchMarkup

open Json (Fits FitsAll FitsField FitsFields Shape)
open NodeKind (layout node placedString)

theorem NodeKind.distinct_layout : Json.Distinct layout := by
  intro k title fields h
  cases k with
  | placed k =>
    cases h
    exact show ["node", "span"].Nodup by decide
  | _ => cases h <;> decide

/-! Every tree fits -/

theorem Span.fits (s : Span) : Fits layout (.named .span) s.encode := by
  refine .record rfl (.cons (.value (.word (by decide) ?_)) (.cons (.value (.word (by decide) ?_))
    (.cons (.value (.word (by decide) ?_)) .nil)))
  · exact s.fileId.toNat_lt
  · exact s.start.toNat_lt
  · exact s.stop.toNat_lt

theorem Json.fits_placed {k : NodeKind} {j : Json} (h : Fits layout (.named k) j) (s : Span) :
    Fits layout (node k) (.placed j s) :=
  .record rfl (.cons (.value h) (.cons (.value s.fits) .nil))

theorem Spanned.fits (s : Spanned String) : Fits layout placedString s.encode :=
  .record rfl (.cons (.value .text) (.cons (.value s.span.fits) .nil))

theorem Branch.fits (b : Branch) : Fits layout (.named .branch) b.encode := by
  cases b <;> exact .bare rfl rfl

theorem Provenance.fits (p : Provenance) : Fits layout (.named .provenance) p.encode :=
  .record rfl (.cons (.value p.origin.fits) (.cons (.value p.branch.fits) .nil))

theorem Literal.fits (l : Literal) : Fits layout (.named .literal) l.encode := by
  cases l with
  | null => exact .bare rfl rfl
  | bool b => exact .value rfl rfl .flag
  | number digits => exact .value rfl rfl .text
  | string s => exact .value rfl rfl .text

theorem UnaryOp.fits (op : UnaryOp) : Fits layout (.named .unaryOp) op.encode := by
  cases op <;> exact .bare rfl rfl

theorem BinaryOp.fits (op : BinaryOp) : Fits layout (.named .binaryOp) op.encode := by
  cases op <;> exact .bare rfl rfl

/-- What may be left out is null, or fits. -/
theorem Json.fits_optional {α : Type} {encode : α → Json} {f : Json.RecordField NodeKind}
    (hf : f.presence = .nullable) (h : ∀ a, Fits layout f.shape (encode a)) (a : Option α) :
    FitsField layout f (.optional encode a) := by
  cases a with
  | none => exact .null hf
  | some a => exact .value (h a)

mutual

theorem Expr.fits : ∀ e : Expr, Fits layout (node .expr) e.encode
  | .literal v s => Json.fits_placed (.value rfl rfl v.fits) s
  | .ident n s => Json.fits_placed (.value rfl rfl .text) s
  | .member o p s => by
    refine Json.fits_placed (.fields rfl rfl (.record rfl ?_)) s
    exact .cons (.value o.fits) (.cons (.value p.fits) .nil)
  | .call c as s => by
    refine Json.fits_placed (.fields rfl rfl (.record rfl ?_)) s
    exact .cons (.value c.fits) (.cons (.value (.list (Expr.fitsAll as))) .nil)
  | .unary op o s => by
    refine Json.fits_placed (.fields rfl rfl (.record rfl ?_)) s
    exact .cons (.value op.fits) (.cons (.value o.fits) .nil)
  | .binary op x y s => by
    refine Json.fits_placed (.fields rfl rfl (.record rfl ?_)) s
    exact .cons (.value op.fits) (.cons (.value x.fits) (.cons (.value y.fits) .nil))
  | .conditional t c a p s => by
    refine Json.fits_placed (.fields rfl rfl (.record rfl ?_)) s
    exact .cons (.value t.fits) (.cons (.value c.fits) (.cons (.value a.fits)
      (.cons (Json.fits_optional rfl Provenance.fits p) .nil)))
  | .element e => Json.fits_placed (.value rfl rfl e.fits) e.span
  | .fragment f => Json.fits_placed (.value rfl rfl f.fits) f.span

theorem Expr.fitsAll : ∀ es : List Expr, FitsAll layout (node .expr) (Expr.encodeAll es)
  | [] => .nil
  | e :: es => .cons e.fits (Expr.fitsAll es)

theorem Expr.fits_container : ∀ e : Option Expr,
    Fits layout (.named .container) (Expr.encodeContainer e)
  | none => .record rfl (.cons (.null rfl) .nil)
  | some e => .record rfl (.cons (.value e.fits) .nil)

theorem Element.fits : ∀ e : Element, Fits layout (.named .element) e.encode
  | ⟨name, attrs, children, _, _⟩ =>
    .record rfl (.cons (.value name.fits) (.cons (.value (.list (Attribute.fitsAll attrs)))
      (.cons (.value (.list (Child.fitsAll children))) (.cons (.value .flag) .nil))))

theorem Fragment.fits : ∀ f : Fragment, Fits layout (.named .fragment) f.encode
  | ⟨children, p, _⟩ =>
    .record rfl (.cons (.value (.list (Child.fitsAll children)))
      (.cons (Json.fits_optional rfl Provenance.fits p) .nil))

theorem Attribute.fits : ∀ a : Attribute, Fits layout (node .attr) a.encode
  | ⟨name, none, s⟩ => by
    refine Json.fits_placed (.record rfl ?_) s
    exact .cons (.value name.fits) (.cons (.null rfl) .nil)
  | ⟨name, some v, s⟩ => by
    refine Json.fits_placed (.record rfl ?_) s
    exact .cons (.value name.fits) (.cons (.value v.fits) .nil)

theorem Attribute.fitsAll : ∀ as : List Attribute,
    FitsAll layout (node .attr) (Attribute.encodeAll as)
  | [] => .nil
  | a :: as => .cons a.fits (Attribute.fitsAll as)

theorem AttrValue.fits : ∀ v : AttrValue, Fits layout (node .attrValue) v.encode
  | .text _ s => Json.fits_placed (.value rfl rfl .text) s
  | .container e s => Json.fits_placed (.value rfl rfl (Expr.fits_container e)) s
  | .element e => Json.fits_placed (.value rfl rfl e.fits) e.span

theorem Child.fits : ∀ c : Child, Fits layout (node .child) c.encode
  | .text _ s => Json.fits_placed (.value rfl rfl .text) s
  | .container e s => Json.fits_placed (.value rfl rfl (Expr.fits_container e)) s
  | .element e => Json.fits_placed (.value rfl rfl e.fits) e.span
  | .fragment f => Json.fits_placed (.value rfl rfl f.fits) f.span

theorem Child.fitsAll : ∀ cs : List Child, FitsAll layout (node .child) (Child.encodeAll cs)
  | [] => .nil
  | c :: cs => .cons c.fits (Child.fitsAll cs)

end

theorem Json.fitsAll_map {α : Type} {encode : α → Json} {shape : Shape NodeKind}
    (h : ∀ a, Fits layout shape (encode a)) (as : List α) :
    FitsAll layout shape (as.map encode) := by
  induction as with
  | nil => exact .nil
  | cons a as ih => exact .cons (h a) ih

theorem ImportSpecifier.fits (s : ImportSpecifier) :
    Fits layout (.named .importSpecifier) s.encode :=
  .record rfl (.cons (.value s.imported.fits)
    (.cons (Json.fits_optional rfl Spanned.fits s.localName) .nil))

theorem ImportDecl.fits (d : ImportDecl) : Fits layout (.named .importDecl) d.encode :=
  .record rfl (.cons (Json.fits_optional rfl Spanned.fits d.default)
    (.cons (Json.fits_optional rfl Spanned.fits d.namespaceName)
      (.cons (.value (.list (Json.fitsAll_map ImportSpecifier.fits d.named)))
        (.cons (.value d.source.fits) .nil))))

theorem BindingKind.fits (k : BindingKind) : Fits layout (.named .bindingKind) k.encode := by
  cases k <;> exact .bare rfl rfl

theorem Statement.fits (s : Statement) : Fits layout (.named .statement) s.encode := by
  cases s with
  | imports d => exact .value rfl rfl d.fits
  | binding kind name init =>
    exact .fields rfl rfl (.record rfl (.cons (.value kind.fits) (.cons (.value name.fits)
      (.cons (.value init.fits) .nil))))
  | exportDefault e => exact .value rfl rfl e.fits
  | expr e => exact .value rfl rfl e.fits

theorem Program.fits (p : Program) : Fits layout (.named .program) p.encode :=
  .record rfl (.cons (.value .text)
    (.cons (.value (.list (Json.fitsAll_map (fun s => Json.fits_placed s.val.fits s.span)
      p.statements)))
      (.cons (.value (.list (Json.fitsAll_map Spanned.fits p.comments))) .nil)))

/-! What is encoded is decoded -/

theorem Span.decode_encode (s : Span) : Span.decode s.encode = some s := by
  cases s
  simp [Span.encode, Span.decode]

theorem Spanned.decode_encode (s : Spanned String) : Spanned.decode s.encode = some s := by
  simp [Spanned.encode, Json.placed, Spanned.decode, Span.decode_encode]

theorem Branch.decode_encode (b : Branch) : Branch.decode b.encode = some b := by
  cases b <;> rfl

theorem Provenance.decode_encode (p : Provenance) : Provenance.decode p.encode = some p := by
  simp [Provenance.encode, Provenance.decode, Span.decode_encode, Branch.decode_encode]

theorem Literal.decode_encode (l : Literal) : Literal.decode l.encode = some l := by
  cases l <;> rfl

theorem UnaryOp.decode_encode (op : UnaryOp) : UnaryOp.decode op.encode = some op := by
  cases op <;> rfl

theorem BinaryOp.decode_encode (op : BinaryOp) : BinaryOp.decode op.encode = some op := by
  cases op <;> rfl

theorem Json.decodeOptional_optional {α : Type} {encode : α → Json} {decode : Json → Option α}
    (h : ∀ a, decode (encode a) = some a) (hnull : ∀ a, encode a ≠ .null) (a : Option α) :
    decodeOptional decode (optional encode a) = some a := by
  cases a with
  | none => rfl
  | some a =>
    unfold optional decodeOptional
    split
    · next heq => exact absurd heq (hnull a)
    · rw [h a]
      rfl

theorem Provenance.decodeOptional_encode (p : Option Provenance) :
    Json.decodeOptional Provenance.decode (.optional Provenance.encode p) = some p :=
  Json.decodeOptional_optional Provenance.decode_encode nofun p

theorem Spanned.decodeOptional_encode (s : Option (Spanned String)) :
    Json.decodeOptional Spanned.decode (.optional Spanned.encode s) = some s :=
  Json.decodeOptional_optional Spanned.decode_encode nofun s

mutual

theorem Expr.decode_encode : ∀ e : Expr, Expr.decode e.encode = some e
  | .literal v s => by
    simp [Expr.encode, Json.placed, Json.variant, Expr.decode, Literal.decode_encode,
      Span.decode_encode]
  | .ident n s => by
    simp [Expr.encode, Json.placed, Json.variant, Expr.decode, Span.decode_encode]
  | .member o p s => by
    simp [Expr.encode, Json.placed, Json.variant, Expr.decode, o.decode_encode,
      Spanned.decode_encode, Span.decode_encode]
  | .call c as s => by
    simp [Expr.encode, Json.placed, Json.variant, Expr.decode, c.decode_encode,
      Expr.decodeAll_encodeAll as, Span.decode_encode]
  | .unary op o s => by
    simp [Expr.encode, Json.placed, Json.variant, Expr.decode, o.decode_encode,
      UnaryOp.decode_encode, Span.decode_encode]
  | .binary op x y s => by
    simp [Expr.encode, Json.placed, Json.variant, Expr.decode, x.decode_encode, y.decode_encode,
      BinaryOp.decode_encode, Span.decode_encode]
  | .conditional t c a p s => by
    simp [Expr.encode, Json.placed, Json.variant, Expr.decode, t.decode_encode, c.decode_encode,
      a.decode_encode, Provenance.decodeOptional_encode, Span.decode_encode]
  | .element e => by
    simp [Expr.encode, Json.placed, Json.variant, Expr.decode, e.decode_encode, Span.decode_encode]
  | .fragment f => by
    simp [Expr.encode, Json.placed, Json.variant, Expr.decode, f.decode_encode, Span.decode_encode]

theorem Expr.decodeAll_encodeAll : ∀ es : List Expr, Expr.decodeAll (Expr.encodeAll es) = some es
  | [] => rfl
  | e :: es => by
    simp [Expr.encodeAll, Expr.decodeAll, e.decode_encode, Expr.decodeAll_encodeAll es]

theorem Expr.decodeContainer_encodeContainer : ∀ e : Option Expr,
    Expr.decodeContainer (Expr.encodeContainer e) = some e
  | none => rfl
  | some e => by
    have hne : e.encode ≠ .null := e.fits.ne_null
    rw [Expr.encodeContainer, Expr.decodeContainer, e.decode_encode]
    · rfl
    · exact hne

theorem Element.decode_encode : ∀ e : Element, Element.decode e.span e.encode = some e
  | ⟨name, attrs, children, c, s⟩ => by
    simp [Element.encode, Element.decode, Spanned.decode_encode,
      Attribute.decodeAll_encodeAll attrs, Child.decodeAll_encodeAll children]

theorem Fragment.decode_encode : ∀ f : Fragment, Fragment.decode f.span f.encode = some f
  | ⟨children, p, s⟩ => by
    simp [Fragment.encode, Fragment.decode, Child.decodeAll_encodeAll children,
      Provenance.decodeOptional_encode]

theorem Attribute.decode_encode : ∀ a : Attribute, Attribute.decode a.encode = some a
  | ⟨name, none, s⟩ => by
    simp [Attribute.encode, Json.placed, Attribute.decode, Spanned.decode_encode,
      Span.decode_encode]
  | ⟨name, some v, s⟩ => by
    have hne : v.encode ≠ .null := v.fits.ne_null
    simp [Attribute.encode, Json.placed, Attribute.decode, Spanned.decode_encode, v.decode_encode,
      Span.decode_encode]

theorem Attribute.decodeAll_encodeAll : ∀ as : List Attribute,
    Attribute.decodeAll (Attribute.encodeAll as) = some as
  | [] => rfl
  | a :: as => by
    simp [Attribute.encodeAll, Attribute.decodeAll, a.decode_encode,
      Attribute.decodeAll_encodeAll as]

theorem AttrValue.decode_encode : ∀ v : AttrValue, AttrValue.decode v.encode = some v
  | .text t s => by
    simp [AttrValue.encode, Json.placed, Json.variant, AttrValue.decode, Span.decode_encode]
  | .container e s => by
    simp [AttrValue.encode, Json.placed, Json.variant, AttrValue.decode,
      Expr.decodeContainer_encodeContainer e, Span.decode_encode]
  | .element e => by
    simp [AttrValue.encode, Json.placed, Json.variant, AttrValue.decode, e.decode_encode,
      Span.decode_encode]

theorem Child.decode_encode : ∀ c : Child, Child.decode c.encode = some c
  | .text t s => by
    simp [Child.encode, Json.placed, Json.variant, Child.decode, Span.decode_encode]
  | .container e s => by
    simp [Child.encode, Json.placed, Json.variant, Child.decode,
      Expr.decodeContainer_encodeContainer e, Span.decode_encode]
  | .element e => by
    simp [Child.encode, Json.placed, Json.variant, Child.decode, e.decode_encode,
      Span.decode_encode]
  | .fragment f => by
    simp [Child.encode, Json.placed, Json.variant, Child.decode, f.decode_encode,
      Span.decode_encode]

theorem Child.decodeAll_encodeAll : ∀ cs : List Child,
    Child.decodeAll (Child.encodeAll cs) = some cs
  | [] => rfl
  | c :: cs => by
    simp [Child.encodeAll, Child.decodeAll, c.decode_encode, Child.decodeAll_encodeAll cs]

end

theorem allSome_map {α β : Type} {f : α → β} {g : β → Option α} (h : ∀ a, g (f a) = some a)
    (as : List α) : allSome ((as.map f).map g) = some as := by
  induction as with
  | nil => rfl
  | cons a as ih => simp only [List.map_cons, h, allSome, ih, Option.map_some]

theorem ImportSpecifier.decode_encode (s : ImportSpecifier) :
    ImportSpecifier.decode s.encode = some s := by
  simp [ImportSpecifier.encode, ImportSpecifier.decode, Spanned.decode_encode,
    Spanned.decodeOptional_encode]

theorem ImportDecl.decode_encode (d : ImportDecl) : ImportDecl.decode d.encode = some d := by
  simp only [ImportDecl.encode, ImportDecl.decode, Spanned.decodeOptional_encode,
    allSome_map ImportSpecifier.decode_encode, Spanned.decode_encode]
  rfl

theorem BindingKind.decode_encode (k : BindingKind) : BindingKind.decode k.encode = some k := by
  cases k <;> rfl

theorem Statement.decode_encode (s : Statement) : Statement.decode s.encode = some s := by
  cases s <;> simp [Statement.encode, Json.variant, Statement.decode, ImportDecl.decode_encode,
    BindingKind.decode_encode, Spanned.decode_encode, Expr.decode_encode]

theorem Statement.decodePlaced_encode (s : Spanned Statement) :
    Statement.decodePlaced (.placed s.val.encode s.span) = some s := by
  simp [Json.placed, Statement.decodePlaced, Statement.decode_encode, Span.decode_encode]

theorem Program.decode_encode (p : Program) : Program.decode p.encode = some p := by
  simp only [Program.encode, Program.decode, allSome_map Statement.decodePlaced_encode,
    allSome_map Spanned.decode_encode]
  rfl

end BranchMarkup
