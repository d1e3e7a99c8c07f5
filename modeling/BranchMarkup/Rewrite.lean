import BranchMarkup.Chain.Weight
/-! Replacing every chain of a program by the conditional it stands for. One walk from the top:
where a chain is met its conditional is built, and the walk goes on inside that. `depth` is the
nesting the printed result has at the node, counted the way the parser counts. -/
namespace BranchMarkup

structure Stats where
  /-- Elements that opened a chain. -/
  chains : Nat
  /-- Links that continued one. -/
  branches : Nat
  importsRemoved : Nat
deriving DecidableEq, Repr

def Stats.zero : Stats := ⟨0, 0, 0⟩

abbrev Rewrite := StateT Stats (Except RewriteError)

namespace Child

/-- Puts a child before others; two texts that touch become one. -/
def joinText : Child → List Child → List Child
  | .text a s, .text b t :: cs => .text (a ++ b) (s.merge t) :: cs
  | c, cs => c :: cs

end Child

namespace Rewrite

def enter [NestingLimit] (depth : Nat) (span : Span) : Rewrite Nat :=
  if NestingLimit.Admits (depth + 1) then return depth + 1
  else throw ⟨.tooDeep, span, none, none⟩

def countChain (links : Nat) : Rewrite Unit :=
  modify fun s => { s with chains := s.chains + 1, branches := s.branches + links }

def orphan (b : Branch) (e : Element) : RewriteError :=
  ⟨.orphaned b, e.span, some e.excerpt, none⟩

/-- A conditional in an arm of another is printed in parentheses, which are a level of their own. An
`If` there will become one. -/
def isParenthesizedArm : Expr → Bool
  | .conditional .. => true
  | .element e => e.branch? = some .when
  | _ => false

def armDepth [NestingLimit] (depth : Nat) (arm : Expr) : Rewrite Nat :=
  if isParenthesizedArm arm then enter depth arm.span else return depth

variable [NestingLimit]

mutual

def walk (depth : Nat) (e : Expr) : Rewrite Expr :=
  match e with
  | .literal value span => return .literal value span
  | .ident name span => return .ident name span
  | .member object property span => return .member (← walk depth object) property span
  | .call callee args span => return .call (← walk depth callee) (← walkAll depth args) span
  | .unary op operand span => return .unary op (← walk depth operand) span
  | .binary op lhs rhs span => return .binary op (← walk depth lhs) (← walk depth rhs) span
  | .conditional test consequent alternate provenance span => do
    let test ← walk depth test
    let inner ← enter depth span
    let consequent ← walk (← armDepth inner consequent) consequent
    let alternate ← walk (← armDepth inner alternate) alternate
    return .conditional test consequent alternate provenance span
  | .element elem =>
    match elem.branch? with
    | none => return .element (← walkElement depth elem)
    | some .when => walkStandalone depth elem
    | some b => throw (orphan b elem)
  | .fragment frag => return .fragment (← walkFragment depth frag)
termination_by 2 * e.weight
decreasing_by all_goals simp only [Expr.weight]; omega

def walkAll (depth : Nat) (es : List Expr) : Rewrite (List Expr) :=
  match es with
  | [] => return []
  | e :: es => return (← walk depth e) :: (← walkAll depth es)
termination_by 2 * Expr.weightAll es
decreasing_by all_goals simp only [Expr.weightAll]; omega

/-- A chain of one: an `If` that has no siblings. -/
def walkStandalone (depth : Nat) (elem : Element) : Rewrite Expr :=
  match _h : (Chain.build (depth + 1) elem []).result with
  | .error x => throw x
  | .ok built => do
    countChain 0
    walk depth built
termination_by 2 * elem.weight + 1
decreasing_by
  have := Chain.weight_build_le _h
  simp only [Element.weightSum] at this
  omega

def walkElement (depth : Nat) (elem : Element) : Rewrite Element :=
  match elem with
  | ⟨name, attrs, children, selfClosing, span⟩ => do
    (Chain.checkElement ⟨name, attrs, children, selfClosing, span⟩ : Except _ _)
    let inner ← enter depth span
    let attrs ← walkAttributes inner attrs
    (Chain.check none children : Except _ _)
    let children ← walkChildren inner children
    return ⟨name, attrs, children, selfClosing, span⟩
termination_by 2 * elem.weight
decreasing_by all_goals simp only [Element.weight]; omega

def walkFragment (depth : Nat) (frag : Fragment) : Rewrite Fragment :=
  match frag with
  | ⟨children, provenance, span⟩ => do
    (Chain.checkFragment ⟨children, provenance, span⟩ : Except _ _)
    let inner ← enter depth span
    (Chain.check none children : Except _ _)
    let children ← walkChildren inner children
    return ⟨children, provenance, span⟩
termination_by 2 * frag.weight
decreasing_by all_goals simp only [Fragment.weight]; omega

def walkAttributes (depth : Nat) (attrs : List Attribute) : Rewrite (List Attribute) :=
  match attrs with
  | [] => return []
  | ⟨name, none, span⟩ :: rest => return ⟨name, none, span⟩ :: (← walkAttributes depth rest)
  | ⟨name, some value, span⟩ :: rest => do
    let value ← walkValue depth value
    return ⟨name, some value, span⟩ :: (← walkAttributes depth rest)
termination_by 2 * Attribute.weightAll attrs
decreasing_by all_goals simp only [Attribute.weightAll, Attribute.weight]; omega

def walkValue (depth : Nat) (value : AttrValue) : Rewrite AttrValue :=
  match value with
  | .text s span => return .text s span
  | .container none span => return .container none span
  | .container (some e) span => return .container (some (← walk depth e)) span
  | .element elem =>
    match elem.branch? with
    | none => return .element (← walkElement depth elem)
    | some .when => return .container (some (← walkStandalone depth elem)) elem.span
    | some b => throw (orphan b elem)
termination_by 2 * value.weight
decreasing_by all_goals simp only [AttrValue.weight]; omega

/-- Each chain becomes a container at the place of the element that opens it. -/
def walkChildren (depth : Nat) (children : List Child) : Rewrite (List Child) :=
  match children with
  | [] => return []
  | .text s span :: rest => return Child.joinText (.text s span) (← walkChildren depth rest)
  | .container none span :: rest => return .container none span :: (← walkChildren depth rest)
  | .container (some e) span :: rest => do
    let e ← walk depth e
    return .container (some e) span :: (← walkChildren depth rest)
  | .fragment frag :: rest => do
    let frag ← walkFragment depth frag
    return .fragment frag :: (← walkChildren depth rest)
  | .element elem :: rest =>
    match elem.branch? with
    | none => do
      let elem ← walkElement depth elem
      return .element elem :: (← walkChildren depth rest)
    | some .when =>
      match _h : (Chain.build (depth + 1) elem (Chain.takeLinks rest).1).result with
      | .error x => throw x
      | .ok built => do
        countChain (Chain.takeLinks rest).1.length
        let e ← walk depth built
        return .container (some e) elem.span :: (← walkChildren depth (Chain.takeLinks rest).2)
    | some b => throw (orphan b elem)
termination_by 2 * Child.weightAll children
decreasing_by
  all_goals simp only [Child.weightAll, Child.weight]
  all_goals first
    | omega
    | (have hb := Chain.weight_build_le _h; have ht := Chain.weight_takeLinks rest; omega)

end

def walkStatement : Statement → Rewrite Statement
  | .imports d => return .imports d
  | .binding kind name init => return .binding kind name (← walk 0 init)
  | .exportDefault e => return .exportDefault (← walk 0 e)
  | .expr e => return .expr (← walk 0 e)

end Rewrite

/-- Imports of this module serve tools that check programs; nothing of it is there at run time. -/
def sentinelModule : String := "jsx-conditionals"

def Statement.isSentinelImport : Statement → Bool
  | imports d => d.source.val = sentinelModule
  | _ => false

namespace Rewrite

def walkStatements [NestingLimit] : List (Spanned Statement) → Rewrite (List (Spanned Statement))
  | [] => return []
  | s :: ss => do
    if s.val.isSentinelImport then
      modify fun st => { st with importsRemoved := st.importsRemoved + 1 }
      walkStatements ss
    else
      let val ← walkStatement s.val
      return ⟨val, s.span⟩ :: (← walkStatements ss)

end Rewrite

/-- The whole program or none of it. -/
def Program.rewrite [NestingLimit] (p : Program) : Except RewriteError (Program × Stats) := do
  let (statements, stats) ← (Rewrite.walkStatements p.statements).run .zero
  return ({ p with statements := statements }, stats)

end BranchMarkup
