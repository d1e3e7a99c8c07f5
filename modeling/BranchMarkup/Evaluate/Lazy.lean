import BranchMarkup.Chain.Shape
import BranchMarkup.Evaluate
/-! What a program means in which branch elements still stand. A chain is evaluated in place: its
conditions from left to right up to the first that holds, then the body of that link and of no
other. Everything else is evaluated as ever. -/
namespace BranchMarkup

inductive Item where
  | text (raw : String)
  | value (v : Value)
  /-- A container that holds nothing. -/
  | nothing

namespace Item

/-- Every text is tidied on its own. -/
def apart : List Item → List Value
  | [] => []
  | text raw :: is =>
    ((Text.tidy? raw.toList).map fun cs => .string (String.ofList cs)).toList ++ apart is
  | value v :: is => v :: apart is
  | nothing :: is => apart is

/-- Puts an item before others; two texts that touch become one. -/
def join : Item → List Item → List Item
  | text a, text b :: is => text (a ++ b) :: is
  | i, is => i :: is

def joinAll (is : List Item) : List Item := is.foldr join []

def joined (is : List Item) : List Value := apart (joinAll is)

end Item

namespace Eval

def choose (condition chosen otherwise : Eval Value) : Eval Value := do
  if (← condition).truthy then chosen else otherwise

/-- An element without siblings: a chain of one, if it opens a chain. -/
def lone (e : Element) (plain condition body : Eval Value) : Eval Value :=
  match e.branch? with
  | none => plain
  | some .when => choose condition body (return .null)
  | some b => fail (.unrewritten b) e.span

end Eval

section
variable (host : Host) (texts : List Item → List Value)

mutual

/-- The lazy value; `texts` says how the texts of a child list are tidied. -/
def Expr.lazy : Expr → Eval Value
  | .literal value _ => return value.value
  | .ident name span =>
    if name = "undefined" then return .undefined else Eval.lookup (.ident name span)
  | .member object property span => Eval.lookup (.member object property span)
  | .call callee args span => do
    match callee.path? with
    | none => Eval.fail .calleeNotNamed callee.span
    | some name => Eval.call host name (← Expr.lazyAll args) span
  | .unary op operand _ => return op.apply (← operand.lazy)
  | .binary op lhs rhs _ => do
    let left ← lhs.lazy
    if op.isDecidedBy left then return left
    return op.apply left (← rhs.lazy)
  | .conditional test consequent alternate _ _ =>
    Eval.choose test.lazy consequent.lazy alternate.lazy
  | .element e => Eval.lone e e.lazyPlain e.lazyCondition e.lazyBody
  | .fragment f => f.lazy

def Expr.lazyAll : List Expr → Eval (List Value)
  | [] => return []
  | e :: es => do
    let v ← e.lazy
    return v :: (← Expr.lazyAll es)

def Element.lazyPlain : Element → Eval Value
  | ⟨name, attrs, children, _, span⟩ => do
    let props ← Attribute.lazyAll attrs
    Eval.element host name.val span props (texts (← Child.items false false children))

def Element.lazyCondition : Element → Eval Value
  | ⟨_, attrs, _, _, _⟩ => Attribute.lazyCondition attrs

/-- What a selected branch comes to: nothing is null, one child that counts is itself, and more are
a fragment of those that count. -/
def Element.lazyBody : Element → Eval Value
  | ⟨_, _, children, _, _⟩ =>
    match children.countP Child.isSignificant with
    | 0 => return .null
    | 1 => Child.lazyOnly children
    | _ => return .fragment (texts (← Child.items true false children))

def Fragment.lazy : Fragment → Eval Value
  | ⟨children, _, _⟩ => return .fragment (texts (← Child.items false false children))

def Attribute.lazy : Attribute → Eval (String × Value)
  | ⟨name, none, _⟩ => return (name.val, .bool true)
  | ⟨name, some value, _⟩ => return (name.val, ← value.lazy)

def Attribute.lazyAll : List Attribute → Eval (List (String × Value))
  | [] => return []
  | a :: as => do
    let p ← a.lazy
    return p :: (← Attribute.lazyAll as)

/-- The first condition decides, and no other attribute is looked at. -/
def Attribute.lazyCondition : List Attribute → Eval Value
  | [] => return .undefined
  | ⟨name, value, _⟩ :: as =>
    if name.val = conditionName then
      match value with
      | none => return .bool true
      | some v => v.lazy
    else Attribute.lazyCondition as

def AttrValue.lazy : AttrValue → Eval Value
  | .text s _ => return .string s
  | .container none _ => return .undefined
  | .container (some e) _ => e.lazy
  | .element e => Eval.lone e e.lazyPlain e.lazyCondition e.lazyBody

/-- The first child that counts, as an expression: its text is not tidied. -/
def Child.lazyOnly : List Child → Eval Value
  | [] => return .null
  | .text s span :: cs =>
    if (Child.text s span).isSignificant then return .string s else Child.lazyOnly cs
  | .container none _ :: cs => Child.lazyOnly cs
  | .container (some e) _ :: _ => e.lazy
  | .element e :: _ => Eval.lone e e.lazyPlain e.lazyCondition e.lazyBody
  | .fragment f :: _ => f.lazy

/-- What a chain goes on to where no condition has held yet. -/
def Child.lazyNext : List Child → Eval Value
  | [] => return .null
  | .element e :: cs =>
    match e.branch? with
    | some .elseWhen => Eval.choose e.lazyCondition e.lazyBody (Child.lazyNext cs)
    | some .otherwise => e.lazyBody
    | _ => return .null
  | .text s span :: cs =>
    if (Child.text s span).isSignificant then return .null else Child.lazyNext cs
  | .container none _ :: cs => Child.lazyNext cs
  | .container (some _) _ :: _ | .fragment _ :: _ => return .null

/-- The items of a child list. A chain is one value, at the place of its first link; `inChain` says
whether the list goes on with links of a chain that has been evaluated, and `bare` leaves out the
children that do not count. -/
def Child.items (bare inChain : Bool) : List Child → Eval (List Item)
  | [] => return []
  | .text s span :: cs => do
    let ignorable := !(Child.text s span).isSignificant
    let is ← Child.items bare (inChain && ignorable) cs
    return if bare && ignorable then is else .text s :: is
  | .container none _ :: cs => do
    let is ← Child.items bare inChain cs
    return if bare then is else .nothing :: is
  | .container (some e) _ :: cs => do
    let v ← e.lazy
    return .value v :: (← Child.items bare false cs)
  | .fragment f :: cs => do
    let v ← f.lazy
    return .value v :: (← Child.items bare false cs)
  | .element e :: cs =>
    match e.branch? with
    | none => do
      let v ← e.lazyPlain
      return .value v :: (← Child.items bare false cs)
    | some .when => do
      let v ← Eval.choose e.lazyCondition e.lazyBody (Child.lazyNext cs)
      return .value v :: (← Child.items bare true cs)
    | some b =>
      if inChain then Child.items bare b.tests cs else Eval.fail (.unrewritten b) e.span

end

def Statement.lazy (shown : Program.Shown) : Statement → Eval Program.Shown
  | imports _ => return shown
  | binding _ name init => do
    let v ← init.lazy host texts
    modify (·.bind name.val v)
    return shown
  | exportDefault e => return { shown with exported := some (← e.lazy host texts) }
  | expr e => return { shown with last := ← e.lazy host texts }

def Program.lazy (p : Program) : Eval Value := do
  let shown ← p.statements.foldlM (fun shown s => s.val.lazy host texts shown) ⟨none, .undefined⟩
  return shown.value

end
end BranchMarkup
