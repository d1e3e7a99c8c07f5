import BranchMarkup.Parser.State
import BranchMarkup.Tree
/-! Reading expressions and markup, by recursive descent. Each function takes a bound on the depth
of its calls; a bound of sixteen per character is never used up, since no call chain is that
long without taking a token. -/
namespace BranchMarkup

def UnaryOp.ofToken? : Token → Option UnaryOp
  | .symbol .bang => some .not
  | .symbol .minus => some .neg
  | _ => none

def BinaryOp.ofToken? : Token → Option BinaryOp
  | .symbol .eqEqEq => some .strictEq
  | .symbol .bangEqEq => some .strictNe
  | .symbol .eqEq => some .looseEq
  | .symbol .bangEq => some .looseNe
  | .symbol .lt => some .lt
  | .symbol .gt => some .gt
  | .symbol .ltEq => some .le
  | .symbol .gtEq => some .ge
  | .symbol .ampAmp => some .and
  | .symbol .pipePipe => some .or
  | .symbol .plus => some .add
  | .symbol .minus => some .sub
  | .symbol .star => some .mul
  | .symbol .slash => some .div
  | .symbol .percent => some .rem
  | _ => none

inductive Markup where
  | element (elem : Element)
  | fragment (frag : Fragment)

namespace Markup

def toExpr : Markup → Expr
  | element e => .element e
  | fragment f => .fragment f

def toChild : Markup → Child
  | element e => .element e
  | fragment f => .fragment f

end Markup

namespace Parse

/-- An element that ran into the end of the file has no children. -/
def closeElement (fuel : Nat) (name : Spanned String) (after : Mode)
    (children : Option (List Child)) : Parse (List Child) := do
  match children with
  | none => return []
  | some cs =>
    let closing ← tagName fuel
    if closing.val ≠ name.val then faultAt (.elementClosedBy name.val closing.val) closing.span
    expect (.symbol .gt) after
    return cs

def closeFragment (fuel : Nat) (after : Mode) (children : Option (List Child)) :
    Parse (List Child) := do
  match children with
  | none => return []
  | some cs =>
    unless ← sees (.symbol .gt) do
      let closing ← tagName fuel
      faultAt (.fragmentClosedBy closing.val) closing.span
    expect (.symbol .gt) after
    return cs

mutual

/-- Conditionals group to the right: `a ? b : c ? d : e`. -/
def expr : Nat → Parse Expr
  | 0 => return .nullAt (← here)
  | fuel + 1 => do
    let test ← binary fuel 0
    if ← eat (.symbol .question) .script then
      nested test do
        let consequent ← expr fuel
        expect (.symbol .colon) .script
        let alternate ← expr fuel
        return .conditional test consequent alternate none (test.span.merge alternate.span)
    else return test

def binary : Nat → Nat → Parse Expr
  | 0, _ => return .nullAt (← here)
  | fuel + 1, power => do binaryRest fuel power (← unary fuel)

def binaryRest : Nat → Nat → Expr → Parse Expr
  | 0, _, lhs => return lhs
  | fuel + 1, power, lhs => do
    match BinaryOp.ofToken? (← token) with
    | none => return lhs
    | some op =>
      if op.power < power then return lhs
      else
        bump .script
        let rhs ← binary fuel op.rightPower
        binaryRest fuel power (.binary op lhs rhs (lhs.span.merge rhs.span))

def unary : Nat → Parse Expr
  | 0 => return .nullAt (← here)
  | fuel + 1 => do
    match UnaryOp.ofToken? (← token) with
    | none => trailing fuel (← primary fuel)
    | some op =>
      let start ← here
      bump .script
      nested (.nullAt start) do
        let operand ← unary fuel
        return .unary op operand (start.merge operand.span)

def trailing : Nat → Expr → Parse Expr
  | 0, e => return e
  | fuel + 1, e => do
    if ← eat (.symbol .dot) .script then
      let property ← name
      trailing fuel (.member e property (e.span.merge property.span))
    else if ← eat (.symbol .lparen) .script then
      let args ← arguments fuel
      expect (.symbol .rparen) .script
      trailing fuel (.call e args (e.span.merge (← last)))
    else return e

def arguments : Nat → Parse (List Expr)
  | 0 => return []
  | fuel + 1 => do
    if (← sees (.symbol .rparen)) || (← sees .endOfFile) then return []
    else
      let arg ← expr fuel
      if ← eat (.symbol .comma) .script then return arg :: (← arguments fuel)
      else return [arg]

/-- Parentheses leave no trace: the span is that of what they hold. -/
def primary : Nat → Parse Expr
  | 0 => return .nullAt (← here)
  | fuel + 1 => do
    let start ← here
    match ← token with
    | .number digits =>
      bump .script
      return .literal (.number digits) start
    | .string s =>
      bump .script
      return .literal (.string s) start
    | .keyword .kwTrue =>
      bump .script
      return .literal (.bool true) start
    | .keyword .kwFalse =>
      bump .script
      return .literal (.bool false) start
    | .keyword .kwNull =>
      bump .script
      return .nullAt start
    | .ident name =>
      bump .script
      return .ident name start
    | .symbol .lparen =>
      bump .script
      nested (.nullAt start) do
        let inner ← expr fuel
        expect (.symbol .rparen) .script
        return inner
    | .symbol .lt => return (← markup fuel .script).toExpr
    | _ =>
      missing .expression
      return .nullAt start

/-- An element or fragment; `after` is the mode for what follows it. -/
def markup : Nat → Mode → Parse Markup
  | 0, _ => return .fragment ⟨[], none, ← here⟩
  | fuel + 1, after => do
    let start ← here
    expect (.symbol .lt) .tag
    markupRest fuel start after

def markupRest : Nat → Span → Mode → Parse Markup
  | 0, start, _ => return .fragment ⟨[], none, start⟩
  | fuel + 1, start, after =>
    nested (.fragment ⟨[], none, start⟩) do
      if ← sees (.symbol .gt) then
        expect (.symbol .gt) .child
        let found ← children fuel .unclosedFragment start
        let inside ← closeFragment fuel after found
        return .fragment ⟨inside, none, start.merge (← last)⟩
      else
        let name ← tagName fuel
        let attrs ← attributes fuel
        if ← eat (.symbol .slash) .tag then
          expect (.symbol .gt) after
          return .element ⟨name, attrs, [], true, start.merge (← last)⟩
        else
          expect (.symbol .gt) .child
          let found ← children fuel (.unclosedElement name.val) start
          let inside ← closeElement fuel name after found
          return .element ⟨name, attrs, inside, false, start.merge (← last)⟩

/-- Children up to and with the `</` that ends them; none where the file ends first. -/
def children : Nat → Fault → Span → Parse (Option (List Child))
  | 0, _, _ => return none
  | fuel + 1, unclosed, opened => do
    let start ← here
    match ← token with
    | .text raw =>
      bump .child
      return (← children fuel unclosed opened).map (.text raw start :: ·)
    | .symbol .lbrace =>
      bump .script
      let inner ← container fuel
      expect (.symbol .rbrace) .child
      let span := start.merge (← last)
      return (← children fuel unclosed opened).map (.container inner span :: ·)
    | .symbol .lt =>
      bump .tag
      if ← eat (.symbol .slash) .tag then return some []
      else
        let found ← markupRest fuel start .child
        return (← children fuel unclosed opened).map (found.toChild :: ·)
    | .endOfFile =>
      faultAt unclosed opened
      return none
    | other =>
      fault (.unexpectedChild other.kind)
      bump .child
      children fuel unclosed opened

def container : Nat → Parse (Option Expr)
  | 0 => return none
  | fuel + 1 => do
    if ← sees (.symbol .rbrace) then return none
    else return some (← expr fuel)

def attributes : Nat → Parse (List Attribute)
  | 0 => return []
  | fuel + 1 => do
    match ← token with
    | .ident _ =>
      let name ← tagName fuel
      let value ← attrValue fuel
      let span := name.span.merge (← last)
      return ⟨name, value, span⟩ :: (← attributes fuel)
    | .symbol .lbrace =>
      fault .spreadAttribute
      bump .script
      discard (container fuel)
      expect (.symbol .rbrace) .tag
      attributes fuel
    | _ => return []

def attrValue : Nat → Parse (Option AttrValue)
  | 0 => return none
  | fuel + 1 => do
    if ← eat (.symbol .eq) .tag then
      let start ← here
      match ← token with
      | .string s =>
        bump .tag
        return some (.text s start)
      | .symbol .lbrace =>
        bump .script
        let inner ← container fuel
        expect (.symbol .rbrace) .tag
        return some (.container inner (start.merge (← last)))
      | .symbol .lt =>
        match ← markup fuel .tag with
        | .element e => return some (.element e)
        | .fragment f =>
          faultAt .fragmentValue f.span
          return some (.container none f.span)
      | _ =>
        missing .attributeValue
        return some (.text "" start)
    else return none

end

end Parse
end BranchMarkup
