import BranchMarkup.Diagnostic
import BranchMarkup.Text.Tidy
import BranchMarkup.Tree.Branches
import BranchMarkup.Value
/-! Evaluating programs. A session keeps what was bound and logs every call of a host function.
Branch elements are no elements of the output: either a rewrite has removed them, or they decide
for themselves, after all they hold has been evaluated. -/
namespace BranchMarkup

inductive BranchPolicy where
  /-- It is a fault. -/
  | refused
  /-- It shows its children if its condition holds, and a warning is logged. -/
  | fallback
deriving DecidableEq, Repr

/-- What a program is evaluated in. Functions are found by their dotted names. -/
structure Host where
  function? : String → Option (List Value → Value)
  branches : BranchPolicy

structure Session where
  /-- By dotted name, the latest first. -/
  bindings : List (String × Value)
  calls : List String
  warnings : List String

namespace Session

def empty : Session := ⟨[], [], []⟩

def bind (s : Session) (name : String) (value : Value) : Session :=
  { s with bindings := (name, value) :: s.bindings }

def lookup (s : Session) (name : String) : Option Value := s.bindings.lookup name

@[simp] theorem lookup_bind_self (s : Session) (name : String) (value : Value) :
    (s.bind name value).lookup name = some value := by
  simp [bind, lookup]

def logCall (s : Session) (name : String) (args : List Value) : Session :=
  { s with calls := s.calls ++ [name ++ "(" ++ ", ".intercalate (args.map Value.shown) ++ ")"] }

def warn (s : Session) (warning : String) : Session :=
  { s with warnings := s.warnings ++ [warning] }

end Session

inductive EvalCause where
  | calleeNotNamed
  | notFunction (name : String)
  | unrewritten (branch : Branch)
deriving DecidableEq, Repr

def EvalCause.message : EvalCause → String
  | calleeNotNamed => "callee is not a function"
  | notFunction name => name ++ " is not a function"
  | unrewritten branch => branch.shown ++ " reached the renderer untransformed"

structure EvalError where
  cause : EvalCause
  span : Span
deriving DecidableEq, Repr

def EvalError.message (e : EvalError) : String := e.cause.message

def EvalError.diagnostic (e : EvalError) : Diagnostic := .error e.message e.span

/-- What an evaluation that fails has bound and logged before stays. -/
abbrev Eval := ExceptT EvalError (StateM Session)

def Expr.path? : Expr → Option String
  | .ident name _ => some name
  | .member object property _ => object.path?.map (· ++ "." ++ property.val)
  | _ => none

def Literal.value : Literal → Value
  | null => .null
  | bool b => .bool b
  | number digits => .number ((Number.read? digits.toList).getD Number.nan)
  | string s => .string s

def UnaryOp.apply (v : Value) : UnaryOp → Value
  | not => .bool !v.truthy
  | neg => .number (-v.toNumber)

namespace BinaryOp

def isDecidedBy (left : Value) : BinaryOp → Bool
  | and => !left.truthy
  | or => left.truthy
  | _ => false

/-- A text on either side makes the sum a text. -/
def sum : Value → Value → Value
  | .string s, b => .string (s ++ b.shown)
  | a, .string t => .string (a.shown ++ t)
  | a, b => .number (a.toNumber + b.toNumber)

def apply (a b : Value) : BinaryOp → Value
  | strictEq => .bool (a.strictEq b)
  | strictNe => .bool !(a.strictEq b)
  | looseEq => .bool (a.looseEq b)
  | looseNe => .bool !(a.looseEq b)
  | lt => .bool ((a.compare? b).any Ordering.isLT)
  | gt => .bool ((a.compare? b).any Ordering.isGT)
  | le => .bool ((a.compare? b).any Ordering.isLE)
  | ge => .bool ((a.compare? b).any Ordering.isGE)
  | and | or => b
  | add => sum a b
  | sub => .number (a.toNumber - b.toNumber)
  | mul => .number (a.toNumber * b.toNumber)
  | div => .number (a.toNumber / b.toNumber)
  | rem => .number (Number.remainder a.toNumber b.toNumber)

end BinaryOp

namespace Eval

def fail {α : Type} (cause : EvalCause) (span : Span) : Eval α := throw ⟨cause, span⟩

def lookup (e : Expr) : Eval Value := do
  let s ← get
  return (e.path?.bind s.lookup).getD .undefined

def call (host : Host) (name : String) (args : List Value) (span : Span) : Eval Value := do
  match host.function? name with
  | none => fail (.notFunction name) span
  | some f =>
    modify (·.logCall name args)
    return f args

def fallbackWarning (b : Branch) : String :=
  "<" ++ b.tag ++ " /> is a special component which is expected to be removed by " ++
    "transform at compile-time. If you're seeing this message then the transform wasn't successful"

/-- The first property that holds the condition decides. -/
def isShown (props : List (String × Value)) (b : Branch) : Bool :=
  !b.tests || (props.lookup "condition").any Value.truthy

def element (host : Host) (name : String) (span : Span) (props : List (String × Value))
    (children : List Value) : Eval Value := do
  match Branch.ofTag? name with
  | none => return .element name props children
  | some b =>
    match host.branches with
    | .refused => fail (.unrewritten b) span
    | .fallback =>
      modify (·.warn (fallbackWarning b))
      return if isShown props b then .fragment children else .null

end Eval

mutual

def Expr.eval (host : Host) : Expr → Eval Value
  | .literal value _ => return value.value
  | .ident name span =>
    if name = "undefined" then return .undefined else Eval.lookup (.ident name span)
  | .member object property span => Eval.lookup (.member object property span)
  | .call callee args span => do
    match callee.path? with
    | none => Eval.fail .calleeNotNamed callee.span
    | some name => Eval.call host name (← Expr.evalAll host args) span
  | .unary op operand _ => return op.apply (← operand.eval host)
  | .binary op lhs rhs _ => do
    let left ← lhs.eval host
    if op.isDecidedBy left then return left
    return op.apply left (← rhs.eval host)
  | .conditional test consequent alternate _ _ => do
    if (← test.eval host).truthy then consequent.eval host else alternate.eval host
  | .element e => e.eval host
  | .fragment f => f.eval host

def Expr.evalAll (host : Host) : List Expr → Eval (List Value)
  | [] => return []
  | e :: es => do
    let v ← e.eval host
    return v :: (← Expr.evalAll host es)

def Element.eval (host : Host) : Element → Eval Value
  | ⟨name, attrs, children, _, span⟩ => do
    let props ← Attribute.evalAll host attrs
    Eval.element host name.val span props (← Child.evalAll host children)

def Fragment.eval (host : Host) : Fragment → Eval Value
  | ⟨children, _, _⟩ => return .fragment (← Child.evalAll host children)

/-- A bare attribute is true. -/
def Attribute.eval (host : Host) : Attribute → Eval (String × Value)
  | ⟨name, none, _⟩ => return (name.val, .bool true)
  | ⟨name, some value, _⟩ => return (name.val, ← value.eval host)

def Attribute.evalAll (host : Host) : List Attribute → Eval (List (String × Value))
  | [] => return []
  | a :: as => do
    let p ← a.eval host
    return p :: (← Attribute.evalAll host as)

def AttrValue.eval (host : Host) : AttrValue → Eval Value
  | .text s _ => return .string s
  | .container none _ => return .undefined
  | .container (some e) _ => e.eval host
  | .element e => e.eval host

/-- What a child comes to: nothing for text that does not show and for empty containers. -/
def Child.eval (host : Host) : Child → Eval (Option Value)
  | .text s _ => return (Text.tidy? s.toList).map fun cs => .string (String.ofList cs)
  | .container none _ => return none
  | .container (some e) _ => return some (← e.eval host)
  | .element e => return some (← e.eval host)
  | .fragment f => return some (← f.eval host)

def Child.evalAll (host : Host) : List Child → Eval (List Value)
  | [] => return []
  | c :: cs => do
    let v ← c.eval host
    return v.toList ++ (← Child.evalAll host cs)

end

/-- The value exported last, if any, and that of the last expression. -/
structure Program.Shown where
  exported : Option Value
  last : Value

def Program.Shown.value (s : Program.Shown) : Value := s.exported.getD s.last

def Statement.eval (host : Host) (shown : Program.Shown) : Statement → Eval Program.Shown
  | imports _ => return shown
  | binding _ name init => do
    let v ← init.eval host
    modify (·.bind name.val v)
    return shown
  | exportDefault e => return { shown with exported := some (← e.eval host) }
  | expr e => return { shown with last := ← e.eval host }

def Program.eval (host : Host) (p : Program) : Eval Value := do
  let shown ← p.statements.foldlM (fun shown s => s.val.eval host shown) ⟨none, .undefined⟩
  return shown.value

end BranchMarkup
