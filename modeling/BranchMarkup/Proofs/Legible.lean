import Mathlib.Data.List.TakeWhile
import BranchMarkup.Chain.Shape
import BranchMarkup.Parser.State
import BranchMarkup.Tree.Parts
/-! Trees whose text can be read back: names are words, numbers are numbers, an attribute's text
leaves a quote to put around it, and child lists are such as reading makes them. -/
namespace BranchMarkup
namespace Scanner

/-- A character inside a word. -/
def isWordPart (mode : Mode) (c : Char) : Bool := isNamePart c || (mode = .tag && c = '-')

theorem word_eq (mode : Mode) (cs : List Char) : word mode cs = cutWhile (isWordPart mode) cs := rfl

theorem isWordPart_of_isNameStart {mode : Mode} {c : Char} (h : isNameStart c = true) :
    isWordPart mode c = true := by
  simp [isWordPart, isNamePart, h]

/-- A whole word. -/
def IsWord (mode : Mode) (cs : List Char) : Prop :=
  ∃ c r, cs = c :: r ∧ isNameStart c = true ∧ ∀ d ∈ r, isWordPart mode d = true

theorem isWord_taken {mode : Mode} {c : Char} {r : List Char} (h : isNameStart c = true) :
    IsWord mode (word mode (c :: r)).taken := by
  rw [word_eq, cutWhile, List.takeWhile_cons_of_pos (isWordPart_of_isNameStart h)]
  exact ⟨c, _, rfl, h, fun d hd => List.mem_takeWhile_imp hd⟩

/-- Words with points and colons between them. -/
def IsTagName (cs : List Char) : Prop :=
  ∃ (first : List Char) (parts : List (Char × List Char)),
    cs = first ++ parts.flatMap (fun p => p.1 :: p.2) ∧ IsWord .tag first ∧
      ∀ p ∈ parts, (p.1 = '.' ∨ p.1 = ':') ∧ IsWord .tag p.2

theorem IsTagName.of_word {cs : List Char} (h : IsWord .tag cs) : IsTagName cs :=
  ⟨cs, [], by simp, h, nofun⟩

theorem IsTagName.append {cs part : List Char} {joint : Char} (h : IsTagName cs)
    (hj : joint = '.' ∨ joint = ':') (hp : IsWord .tag part) : IsTagName (cs ++ joint :: part) := by
  obtain ⟨first, parts, rfl, hfirst, hparts⟩ := h
  refine ⟨first, parts ++ [(joint, part)], by simp, hfirst, ?_⟩
  intro p hmem
  rcases List.mem_append.1 hmem with hmem | hmem
  · exact hparts p hmem
  · obtain rfl := List.mem_singleton.1 hmem
    exact ⟨hj, hp⟩

theorem IsTagName.ne_nil {cs : List Char} (h : IsTagName cs) : cs ≠ [] := by
  obtain ⟨first, parts, rfl, ⟨c, r, rfl, -⟩, -⟩ := h
  simp

def IsDigits (cs : List Char) : Prop := cs ≠ [] ∧ ∀ c ∈ cs, c.isDigit = true

/-- Digits, then a fraction and an exponent if there are any. -/
def IsNumber (cs : List Char) : Prop :=
  ∃ whole frac exp, cs = whole ++ frac ++ exp ∧ IsDigits whole ∧
    (frac = [] ∨ ∃ ds, frac = '.' :: ds ∧ IsDigits ds) ∧
    (exp = [] ∨ ∃ e sign ds, exp = e :: (sign ++ ds) ∧ (e = 'e' ∨ e = 'E') ∧
      (sign = [] ∨ sign = ['+'] ∨ sign = ['-']) ∧ IsDigits ds)

theorem isDigits_takeWhile {cs : List Char} (h : cs.takeWhile Char.isDigit ≠ []) :
    IsDigits (cs.takeWhile Char.isDigit) :=
  ⟨h, fun _ hc => List.mem_takeWhile_imp hc⟩

theorem isNumber_taken {c : Char} {r : List Char} (h : c.isDigit = true) :
    IsNumber (number (c :: r)).taken := by
  refine ⟨_, _, _, rfl, ?_, ?_, ?_⟩
  · exact isDigits_takeWhile (by simp [List.takeWhile_cons_of_pos h])
  · generalize (cutWhile Char.isDigit (c :: r)).rest = cs
    unfold fraction
    split
    · next d r' =>
      split
      · next hd =>
        refine .inr ⟨_, rfl, by simp, ?_⟩
        intro x hx
        rcases List.mem_cons.1 hx with rfl | hx
        · exact hd
        · exact List.mem_takeWhile_imp hx
      · exact .inl rfl
    · exact .inl rfl
  · generalize (fraction (cutWhile Char.isDigit (c :: r)).rest).rest = cs
    unfold exponent
    split
    · exact .inl rfl
    · next e r' =>
      dsimp only
      split
      · next he =>
        simp only [Bool.and_eq_true, Bool.or_eq_true, decide_eq_true_eq, Bool.not_eq_true',
          List.isEmpty_eq_false_iff] at he
        refine .inr ⟨e, _, _, rfl, he.1, ?_, isDigits_takeWhile he.2⟩
        unfold sign
        split
        · exact .inr (.inl rfl)
        · exact .inr (.inr rfl)
        · exact .inl rfl
      · exact .inl rfl

end Scanner

open Scanner (IsWord IsTagName IsNumber)

/-- A word that is no keyword. -/
def IsIdent (name : String) : Prop := IsWord .script name.toList ∧ Keyword.ofText? name = none

/-- The quotes around an attribute's text are such as do not occur in it. -/
def IsQuotable (s : String) : Prop := '"' ∉ s.toList ∨ '\'' ∉ s.toList

/-- Text between tags. -/
def IsRawText (s : String) : Prop := s ≠ "" ∧ ∀ c ∈ s.toList, c ≠ '<' ∧ c ≠ '\x7b'

def Child.isText : Child → Bool
  | .text .. => true
  | _ => false

theorem Chain.adjacentText?_cons_eq_none {c : Child} {cs : List Child} :
    adjacentText? (c :: cs) = none ↔
      (c.isText = true → ∀ d ∈ cs.head?, d.isText = false) ∧ adjacentText? cs = none := by
  cases c <;> cases cs <;> simp [adjacentText?, Child.isText]
  next d cs => cases d <;> simp [adjacentText?]

/-- What can be read back, of a node alone. -/
def TreeNode.Legible : TreeNode → Prop
  | expr (.literal (.number digits) _) => IsNumber digits.toList
  | expr (.ident name _) => IsIdent name
  | expr (.member _ property _) => IsWord .script property.val.toList
  | element e => IsTagName e.name.val.toList ∧ (e.selfClosing = true → e.children = []) ∧
      Chain.adjacentText? e.children = none
  | fragment f => Chain.adjacentText? f.children = none
  | attr a => IsTagName a.name.val.toList
  | value (.text s _) => IsQuotable s
  | child (.text s _) => IsRawText s
  | _ => True

/-! What can be read back as a whole -/

def Expr.Legible (e : Expr) : Prop := (TreeNode.expr e).Throughout TreeNode.Legible

def Element.Legible (e : Element) : Prop := (TreeNode.element e).Throughout TreeNode.Legible

def Fragment.Legible (f : Fragment) : Prop := (TreeNode.fragment f).Throughout TreeNode.Legible

def Attribute.Legible (a : Attribute) : Prop := (TreeNode.attr a).Throughout TreeNode.Legible

def AttrValue.Legible (v : AttrValue) : Prop := (TreeNode.value v).Throughout TreeNode.Legible

def Child.Legible (c : Child) : Prop := (TreeNode.child c).Throughout TreeNode.Legible

open TreeNode (throughout_iff)

section
attribute [local simp] TreeNode.Legible TreeNode.parts

variable {span : Span}

@[simp] theorem Expr.legible_number {digits : String} :
    (Expr.literal (.number digits) span).Legible ↔ IsNumber digits.toList := by
  simp [Expr.Legible, throughout_iff (n := .expr _)]

@[simp] theorem Expr.legible_string {s : String} : (Expr.literal (.string s) span).Legible := by
  simp [Expr.Legible, throughout_iff (n := .expr _)]

@[simp] theorem Expr.legible_bool {b : Bool} : (Expr.literal (.bool b) span).Legible := by
  simp [Expr.Legible, throughout_iff (n := .expr _)]

@[simp] theorem Expr.legible_null : (Expr.nullAt span).Legible := by
  simp [Expr.Legible, Expr.nullAt, throughout_iff (n := .expr _)]

@[simp] theorem Expr.legible_ident {name : String} :
    (Expr.ident name span).Legible ↔ IsIdent name := by
  simp [Expr.Legible, throughout_iff (n := .expr _)]

@[simp] theorem Expr.legible_member {object : Expr} {property : Spanned String} :
    (Expr.member object property span).Legible ↔
      IsWord .script property.val.toList ∧ object.Legible := by
  simp [Expr.Legible, throughout_iff (n := .expr (.member ..))]

@[simp] theorem Expr.legible_call {callee : Expr} {args : List Expr} :
    (Expr.call callee args span).Legible ↔ callee.Legible ∧ ∀ e ∈ args, e.Legible := by
  simp [Expr.Legible, throughout_iff (n := .expr (.call ..))]

@[simp] theorem Expr.legible_unary {op : UnaryOp} {operand : Expr} :
    (Expr.unary op operand span).Legible ↔ operand.Legible := by
  simp [Expr.Legible, throughout_iff (n := .expr (.unary ..))]

@[simp] theorem Expr.legible_binary {op : BinaryOp} {lhs rhs : Expr} :
    (Expr.binary op lhs rhs span).Legible ↔ lhs.Legible ∧ rhs.Legible := by
  simp [Expr.Legible, throughout_iff (n := .expr (.binary ..))]

@[simp] theorem Expr.legible_conditional {test consequent alternate : Expr}
    {provenance : Option Provenance} :
    (Expr.conditional test consequent alternate provenance span).Legible ↔
      test.Legible ∧ consequent.Legible ∧ alternate.Legible := by
  simp [Expr.Legible, throughout_iff (n := .expr (.conditional ..))]

@[simp] theorem Expr.legible_element {e : Element} : (Expr.element e).Legible ↔ e.Legible := by
  simp [Expr.Legible, Element.Legible, throughout_iff (n := .expr (.element ..))]

@[simp] theorem Expr.legible_fragment {f : Fragment} :
    (Expr.fragment f).Legible ↔ f.Legible := by
  simp [Expr.Legible, Fragment.Legible, throughout_iff (n := .expr (.fragment ..))]

theorem Element.legible_iff {e : Element} :
    e.Legible ↔ (IsTagName e.name.val.toList ∧ (e.selfClosing = true → e.children = []) ∧
      Chain.adjacentText? e.children = none) ∧
        (∀ a ∈ e.attrs, a.Legible) ∧ ∀ c ∈ e.children, c.Legible := by
  simp [Element.Legible, Attribute.Legible, Child.Legible, throughout_iff (n := .element e), or_imp,
    forall_and]

theorem Fragment.legible_iff {f : Fragment} :
    f.Legible ↔ Chain.adjacentText? f.children = none ∧ ∀ c ∈ f.children, c.Legible := by
  simp [Fragment.Legible, Child.Legible, throughout_iff (n := .fragment f)]

theorem Attribute.legible_iff {a : Attribute} :
    a.Legible ↔ IsTagName a.name.val.toList ∧ ∀ v ∈ a.value, v.Legible := by
  simp [Attribute.Legible, AttrValue.Legible, throughout_iff (n := .attr a)]

@[simp] theorem AttrValue.legible_text {s : String} :
    (AttrValue.text s span).Legible ↔ IsQuotable s := by
  simp [AttrValue.Legible, throughout_iff (n := .value _)]

@[simp] theorem AttrValue.legible_container {e : Option Expr} :
    (AttrValue.container e span).Legible ↔ ∀ x ∈ e, x.Legible := by
  simp [AttrValue.Legible, Expr.Legible, throughout_iff (n := .value (.container ..))]

@[simp] theorem AttrValue.legible_element {e : Element} :
    (AttrValue.element e).Legible ↔ e.Legible := by
  simp [AttrValue.Legible, Element.Legible, throughout_iff (n := .value (.element ..))]

@[simp] theorem Child.legible_text {s : String} : (Child.text s span).Legible ↔ IsRawText s := by
  simp [Child.Legible, throughout_iff (n := .child _)]

@[simp] theorem Child.legible_container {e : Option Expr} :
    (Child.container e span).Legible ↔ ∀ x ∈ e, x.Legible := by
  simp [Child.Legible, Expr.Legible, throughout_iff (n := .child (.container ..))]

@[simp] theorem Child.legible_element {e : Element} : (Child.element e).Legible ↔ e.Legible := by
  simp [Child.Legible, Element.Legible, throughout_iff (n := .child (.element ..))]

@[simp] theorem Child.legible_fragment {f : Fragment} :
    (Child.fragment f).Legible ↔ f.Legible := by
  simp [Child.Legible, Fragment.Legible, throughout_iff (n := .child (.fragment ..))]

end

/-! Statements -/

def ImportSpecifier.Legible (s : ImportSpecifier) : Prop :=
  IsWord .script s.imported.val.toList ∧ ∀ l ∈ s.localName, IsIdent l.val

/-- No form of an import has both a namespace and names in braces. -/
def ImportDecl.Legible (d : ImportDecl) : Prop :=
  (∀ n ∈ d.default, IsIdent n.val) ∧ (∀ n ∈ d.namespaceName, IsIdent n.val) ∧
    (∀ s ∈ d.named, s.Legible) ∧ (d.namespaceName = none ∨ d.named = [])

def Statement.Legible : Statement → Prop
  | imports d => d.Legible
  | binding _ name e => IsIdent name.val ∧ e.Legible
  | exportDefault e | expr e => e.Legible

theorem Statement.Legible.expr {s : Statement} (h : s.Legible) {e : Expr} (he : s.expr? = some e) :
    e.Legible := by
  cases s with
  | imports => cases he
  | binding =>
    cases he
    exact h.2
  | exportDefault | expr =>
    cases he
    exact h

end BranchMarkup
