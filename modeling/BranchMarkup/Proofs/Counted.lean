import BranchMarkup.Proofs.Reading.Depth
import BranchMarkup.Proofs.Walk
/-! The walk with its level in a counter that is raised and lowered by hand, as against a level that is
handed down. The two do the same, and the counter never goes wrong: it is back where it was after every
call that succeeds, never lowered at zero, never above the limit. -/
namespace BranchMarkup

namespace Chain

/-- Building, with no outcome where a link would be looked at more than two levels past the limit. -/
def buildWithin (depth : Nat) (e : Element) (links : List Element) : Option Built :=
  if maxNesting + 2 < depth then none
  else
    match arm depth e, links with
    | .error x, _ => some ⟨0, .error x⟩
    | .ok (test, consequent), [] =>
      some ⟨0, .ok (conditional e test consequent (.nullAt e.span.after))⟩
    | .ok (test, consequent), link :: links => do
      let alternate ←
        if link.branch? = some .elseWhen then buildWithin (depth + 2) link links
        else some ⟨0, lastArm link⟩
      return ⟨alternate.reached + 1, alternate.result.map (conditional e test consequent)⟩

theorem le_of_arm_ok {depth : Nat} {e : Element} {r : Expr × Expr} (h : arm depth e = .ok r) :
    depth ≤ maxNesting := by
  by_contra hlt
  have hno : ¬ NestingLimit.Admits depth := hlt
  rw [arm, if_pos hno] at h
  cases h

theorem buildWithin_eq {depth : Nat} (e : Element) (links : List Element)
    (h : depth ≤ maxNesting + 2) : buildWithin depth e links = some (build depth e links) := by
  induction links generalizing depth e with
  | nil =>
    rw [buildWithin.eq_def, build.eq_def, if_neg (by omega)]
    cases arm depth e <;> rfl
  | cons link links ih =>
    rw [buildWithin.eq_def, build.eq_def, if_neg (by omega)]
    cases harm : arm depth e with
    | error x => rfl
    | ok r =>
      have hle := le_of_arm_ok harm
      by_cases hlink : link.branch? = some .elseWhen
      · simp only [hlink, ↓reduceIte, ih link (show depth + 2 ≤ maxNesting + 2 by omega)]
        rfl
      · simp only [hlink, ↓reduceIte]
        rfl

theorem eq_build_of_buildWithin {depth : Nat} {e : Element} {links : List Element} {b : Built}
    (h : buildWithin depth e links = some b) : b = build depth e links := by
  by_cases hle : depth ≤ maxNesting + 2
  · rw [buildWithin_eq e links hle] at h
    exact (Option.some.inj h).symm
  · rw [buildWithin.eq_def, if_pos (by omega)] at h
    cases h

end Chain

namespace Rewrite

/-- A walk that keeps its level in a counter. It has no outcome where that goes wrong. -/
abbrev Counted := StateT Nat (StateT Stats (ExceptT RewriteError Option))

namespace Counted

def stuck {α : Type} : Counted α := fun _ _ => none

def ofExcept {α : Type} : Except RewriteError α → Counted α
  | .ok a => return a
  | .error x => throw x

/-- The counter one up, where it is below the limit. -/
def raise (span : Span) : Counted Unit := do
  let depth ← get
  if depth < maxNesting then set (depth + 1)
  else if depth = maxNesting then throw ⟨.tooDeep, span, none, none⟩
  else stuck

/-- The counter one down, where it is above zero. -/
def lower : Counted Unit := do
  match ← get with
  | 0 => stuck
  | depth + 1 => set depth

def countChain (links : Nat) : Counted Unit :=
  modifyThe Stats fun s => { s with chains := s.chains + 1, branches := s.branches + links }

mutual

def walk (e : Expr) : Counted Expr :=
  match e with
  | .literal value span => return .literal value span
  | .ident name span => return .ident name span
  | .member object property span => return .member (← walk object) property span
  | .call callee args span => return .call (← walk callee) (← walkAll args) span
  | .unary op operand span => return .unary op (← walk operand) span
  | .binary op lhs rhs span => return .binary op (← walk lhs) (← walk rhs) span
  | .conditional test consequent alternate provenance span => do
    let test ← walk test
    raise span
    let consequent ← walkArm consequent
    let alternate ← walkArm alternate
    lower
    return .conditional test consequent alternate provenance span
  | .element elem =>
    match elem.branch? with
    | none => return .element (← walkElement elem)
    | some .when => walkStandalone elem
    | some b => throw (orphan b elem)
  | .fragment frag => return .fragment (← walkFragment frag)
termination_by 2 * e.weight
decreasing_by all_goals simp only [Expr.weight]; omega

def walkArm (arm : Expr) : Counted Expr :=
  if isParenthesizedArm arm then do
    raise arm.span
    let arm ← walk arm
    lower
    return arm
  else walk arm
termination_by 2 * arm.weight + 1

def walkAll (es : List Expr) : Counted (List Expr) :=
  match es with
  | [] => return []
  | e :: es => return (← walk e) :: (← walkAll es)
termination_by 2 * Expr.weightAll es
decreasing_by all_goals simp only [Expr.weightAll]; omega

def walkStandalone (elem : Element) : Counted Expr := do
  let depth ← get
  match _h : Chain.buildWithin (depth + 1) elem [] with
  | none => stuck
  | some ⟨_, .error x⟩ => throw x
  | some ⟨_, .ok built⟩ => do
    countChain 0
    walk built
termination_by 2 * elem.weight + 1
decreasing_by
  have := Chain.weight_build_le (congrArg Chain.Built.result (Chain.eq_build_of_buildWithin _h)).symm
  simp only [Element.weightSum] at this
  omega

def walkElement (elem : Element) : Counted Element :=
  match elem with
  | ⟨name, attrs, children, selfClosing, span⟩ => do
    ofExcept (Chain.checkElement ⟨name, attrs, children, selfClosing, span⟩)
    raise span
    let attrs ← walkAttributes attrs
    ofExcept (Chain.check none children)
    let children ← walkChildren children
    lower
    return ⟨name, attrs, children, selfClosing, span⟩
termination_by 2 * elem.weight
decreasing_by all_goals simp only [Element.weight]; omega

def walkFragment (frag : Fragment) : Counted Fragment :=
  match frag with
  | ⟨children, provenance, span⟩ => do
    ofExcept (Chain.checkFragment ⟨children, provenance, span⟩)
    raise span
    ofExcept (Chain.check none children)
    let children ← walkChildren children
    lower
    return ⟨children, provenance, span⟩
termination_by 2 * frag.weight
decreasing_by all_goals simp only [Fragment.weight]; omega

def walkAttributes (attrs : List Attribute) : Counted (List Attribute) :=
  match attrs with
  | [] => return []
  | ⟨name, none, span⟩ :: rest => return ⟨name, none, span⟩ :: (← walkAttributes rest)
  | ⟨name, some value, span⟩ :: rest => do
    let value ← walkValue value
    return ⟨name, some value, span⟩ :: (← walkAttributes rest)
termination_by 2 * Attribute.weightAll attrs
decreasing_by all_goals simp only [Attribute.weightAll, Attribute.weight]; omega

def walkValue (value : AttrValue) : Counted AttrValue :=
  match value with
  | .text s span => return .text s span
  | .container none span => return .container none span
  | .container (some e) span => return .container (some (← walk e)) span
  | .element elem =>
    match elem.branch? with
    | none => return .element (← walkElement elem)
    | some .when => return .container (some (← walkStandalone elem)) elem.span
    | some b => throw (orphan b elem)
termination_by 2 * value.weight
decreasing_by all_goals simp only [AttrValue.weight]; omega

def walkChildren (children : List Child) : Counted (List Child) :=
  match children with
  | [] => return []
  | .text s span :: rest => return Child.joinText (.text s span) (← walkChildren rest)
  | .container none span :: rest => return .container none span :: (← walkChildren rest)
  | .container (some e) span :: rest => do
    let e ← walk e
    return .container (some e) span :: (← walkChildren rest)
  | .fragment frag :: rest => do
    let frag ← walkFragment frag
    return .fragment frag :: (← walkChildren rest)
  | .element elem :: rest =>
    match elem.branch? with
    | none => do
      let elem ← walkElement elem
      return .element elem :: (← walkChildren rest)
    | some .when => do
      let depth ← get
      match _h : Chain.buildWithin (depth + 1) elem (Chain.takeLinks rest).1 with
      | none => stuck
      | some ⟨_, .error x⟩ => throw x
      | some ⟨_, .ok built⟩ => do
        countChain (Chain.takeLinks rest).1.length
        let e ← walk built
        return .container (some e) elem.span :: (← walkChildren (Chain.takeLinks rest).2)
    | some b => throw (orphan b elem)
termination_by 2 * Child.weightAll children
decreasing_by
  all_goals simp only [Child.weightAll, Child.weight]
  all_goals first
    | omega
    | (have hb := Chain.weight_build_le
        (congrArg Chain.Built.result (Chain.eq_build_of_buildWithin _h)).symm
       have ht := Chain.weight_takeLinks rest
       omega)

end

def walkStatement : Statement → Counted Statement
  | .imports d => return .imports d
  | .binding kind name init => return .binding kind name (← walk init)
  | .exportDefault e => return .exportDefault (← walk e)
  | .expr e => return .expr (← walk e)

def walkStatements : List (Spanned Statement) → Counted (List (Spanned Statement))
  | [] => return []
  | s :: ss => do
    if s.val.isSentinelImport then
      modifyThe Stats fun st => { st with importsRemoved := st.importsRemoved + 1 }
      walkStatements ss
    else
      let val ← walkStatement s.val
      return ⟨val, s.span⟩ :: (← walkStatements ss)

/-! The two walks agree. -/

/-- With the counter at `before`, `x` does what `y` does and has an outcome; where it succeeds the counter
is at `after`. -/
def Follows {α : Type} (x : Counted α) (before after : Nat) (y : Rewrite α) : Prop :=
  ∀ s, x before s = some ((y s).map fun r => ((r.1, after), r.2))

section
variable {α β : Type} {x : Counted α} {y : Rewrite α} {a b c depth : Nat}

theorem bind_of_ok {f : α → Counted β} {s t : Stats} {v : α} (h : x a s = some (.ok ((v, b), t))) :
    (x >>= f) a s = f v b t := by
  simp only [bind, StateT.bind, ExceptT.bind, ExceptT.mk, Option.bind, h]
  rfl

theorem bind_of_error {f : α → Counted β} {s : Stats} {e : RewriteError}
    (h : x a s = some (.error e)) : (x >>= f) a s = some (.error e) := by
  simp only [bind, StateT.bind, ExceptT.bind, ExceptT.mk, Option.bind, h]
  rfl

theorem Follows.pure (v : α) : Follows (Pure.pure v) a a (Pure.pure v) := fun _ => rfl

theorem Follows.bind {f : α → Counted β} {g : α → Rewrite β} (h : Follows x a b y)
    (hf : ∀ v, Follows (f v) b c (g v)) : Follows (x >>= f) a c (y >>= g) := by
  intro s
  have hx := h s
  change _ = some (((y s).bind fun r => g r.1 r.2).map _)
  cases hy : y s with
  | error e =>
    rw [hy] at hx
    exact bind_of_error hx
  | ok r =>
    rw [hy] at hx
    exact (bind_of_ok hx).trans (hf r.1 r.2)

theorem Follows.throw (e : RewriteError) : Follows (throw e : Counted α) a b (throw e) := fun _ => rfl

theorem follows_ofExcept (r : Except RewriteError α) : Follows (ofExcept r) a a (liftM r) := by
  cases r with
  | ok v => exact .pure v
  | error e => exact .throw e

theorem follows_countChain (links : Nat) : Follows (countChain links) a a (Rewrite.countChain links) :=
  fun _ => rfl

theorem Follows.raise {y : Nat → Rewrite α} {span : Span} (hdepth : depth ≤ maxNesting)
    (h : depth + 1 ≤ maxNesting → Follows x (depth + 1) c (y (depth + 1))) :
    Follows (do raise span; x) depth c (do let inner ← enter depth span; y inner) := by
  intro s
  by_cases hlt : depth < maxNesting
  · have hraise : Counted.raise span depth s = some (.ok (((), depth + 1), s)) := by
      change (if depth < maxNesting then set (depth + 1) else _ : Counted Unit) depth s = _
      rw [if_pos hlt]
      rfl
    have hadmits : NestingLimit.Admits (depth + 1) := hlt
    rw [enter, if_pos hadmits, pure_bind]
    exact (bind_of_ok hraise).trans (h hlt s)
  · obtain rfl : depth = maxNesting := by omega
    have hraise : Counted.raise span maxNesting s = some (.error ⟨.tooDeep, span, none, none⟩) := rfl
    exact bind_of_error hraise

theorem Follows.lower (h : Follows x depth c y) : Follows (do lower; x) (depth + 1) c y :=
  fun s => (bind_of_ok (s := s) rfl).trans (h s)

/-- An arm of a conditional is walked a level deeper if it is in parentheses. -/
theorem Follows.arm {arm : Expr} {f : Expr → Counted β} {g : Expr → Rewrite β}
    (h : Follows (walkArm arm) a a (do Rewrite.walk (← armDepth a arm) arm))
    (hf : ∀ v, Follows (f v) a c (g v)) :
    Follows (walkArm arm >>= f) a c (do g (← Rewrite.walk (← armDepth a arm) arm)) := by
  have hassoc := h.bind hf
  rwa [bind_assoc] at hassoc

theorem run_walkStandalone (hdepth : depth ≤ maxNesting) (elem : Element) (s : Stats) :
    walkStandalone elem depth s =
      (match (Chain.build (depth + 1) elem []).result with
        | .error x => throw x
        | .ok built => countChain 0 >>= fun _ => walk built : Counted Expr) depth s := by
  have hbuild := Chain.buildWithin_eq elem [] (show depth + 1 ≤ maxNesting + 2 by omega)
  rw [walkStandalone]
  refine (bind_of_ok (x := get) (v := depth) (b := depth) (t := s) rfl).trans ?_
  rw [hbuild]
  rcases Chain.build (depth + 1) elem [] with ⟨_, _ | _⟩ <;> rfl

theorem follows_chain {links : List Element} {f : Expr → Counted β} {g : Expr → Rewrite β}
    {elem : Element} {n : Nat}
    (h : ∀ built, (Chain.build (depth + 1) elem links).result = .ok built →
      Follows (walk built) depth depth (Rewrite.walk depth built))
    (hf : ∀ v, Follows (f v) depth c (g v)) :
    Follows
      (match (Chain.build (depth + 1) elem links).result with
        | .error x => throw x
        | .ok built => do countChain n; f (← walk built)) depth c
      (match (Chain.build (depth + 1) elem links).result with
        | .error x => throw x
        | .ok built => do Rewrite.countChain n; g (← Rewrite.walk depth built)) := by
  cases hb : (Chain.build (depth + 1) elem links).result with
  | error x => exact .throw x
  | ok built => exact (follows_countChain n).bind fun _ => (h built hb).bind hf

theorem run_walkChildren (hdepth : depth ≤ maxNesting) {elem : Element}
    (hwhen : elem.branch? = some .when) (rest : List Child) (s : Stats) :
    walkChildren (.element elem :: rest) depth s =
      (match (Chain.build (depth + 1) elem (Chain.takeLinks rest).1).result with
        | .error x => throw x
        | .ok built => do
          countChain (Chain.takeLinks rest).1.length
          let e ← walk built
          return .container (some e) elem.span :: (← walkChildren (Chain.takeLinks rest).2) :
        Counted (List Child)) depth s := by
  have hbuild := Chain.buildWithin_eq elem (Chain.takeLinks rest).1
    (show depth + 1 ≤ maxNesting + 2 by omega)
  rw [walkChildren]
  simp only [hwhen]
  refine (bind_of_ok (x := get) (v := depth) (b := depth) (t := s) rfl).trans ?_
  rw [hbuild]
  rcases Chain.build (depth + 1) elem (Chain.takeLinks rest).1 with ⟨_, _ | _⟩ <;> rfl

end

mutual

theorem follows_walk {depth : Nat} (hd : depth ≤ maxNesting) (e : Expr) :
    Follows (walk e) depth depth (Rewrite.walk depth e) := by
  match e with
  | .literal .. | .ident .. =>
    rw [walk, Rewrite.walk]
    exact .pure _
  | .member object .. =>
    rw [walk, Rewrite.walk]
    exact (follows_walk hd object).bind fun _ => .pure _
  | .call callee args _ =>
    rw [walk, Rewrite.walk]
    exact (follows_walk hd callee).bind fun _ => (follows_walkAll hd args).bind fun _ => .pure _
  | .unary _ operand _ =>
    rw [walk, Rewrite.walk]
    exact (follows_walk hd operand).bind fun _ => .pure _
  | .binary _ lhs rhs _ =>
    rw [walk, Rewrite.walk]
    exact (follows_walk hd lhs).bind fun _ => (follows_walk hd rhs).bind fun _ => .pure _
  | .conditional test consequent alternate _ _ =>
    rw [walk, Rewrite.walk]
    refine (follows_walk hd test).bind fun _ => .raise hd fun hinner => ?_
    refine .arm (follows_walkArm hinner consequent) fun _ => ?_
    exact .arm (follows_walkArm hinner alternate) fun _ => .lower (.pure _)
  | .element elem =>
    rw [walk, Rewrite.walk]
    cases hb : elem.branch? with
    | none => exact (follows_walkElement hd elem).bind fun _ => .pure _
    | some b =>
      cases b with
      | when => exact follows_walkStandalone hd elem
      | elseWhen => exact .throw _
      | otherwise => exact .throw _
  | .fragment frag =>
    rw [walk, Rewrite.walk]
    exact (follows_walkFragment hd frag).bind fun _ => .pure _
termination_by 2 * e.weight
decreasing_by all_goals simp only [Expr.weight]; omega

theorem follows_walkArm {depth : Nat} (hd : depth ≤ maxNesting) (arm : Expr) :
    Follows (walkArm arm) depth depth (do Rewrite.walk (← armDepth depth arm) arm) := by
  rw [walkArm]
  unfold armDepth
  by_cases hp : isParenthesizedArm arm
  · rw [if_pos hp, if_pos hp]
    refine .raise (y := fun inner => Rewrite.walk inner arm) hd fun hinner => ?_
    rw [← bind_pure (Rewrite.walk (depth + 1) arm)]
    exact (follows_walk hinner arm).bind fun _ => .lower (.pure _)
  · rw [if_neg hp, if_neg hp, pure_bind]
    exact follows_walk hd arm
termination_by 2 * arm.weight + 1

theorem follows_walkAll {depth : Nat} (hd : depth ≤ maxNesting) (es : List Expr) :
    Follows (walkAll es) depth depth (Rewrite.walkAll depth es) := by
  match es with
  | [] =>
    rw [walkAll, Rewrite.walkAll]
    exact .pure _
  | e :: es =>
    rw [walkAll, Rewrite.walkAll]
    exact (follows_walk hd e).bind fun _ => (follows_walkAll hd es).bind fun _ => .pure _
termination_by 2 * Expr.weightAll es
decreasing_by all_goals simp only [Expr.weightAll]; omega

theorem follows_walkStandalone {depth : Nat} (hd : depth ≤ maxNesting) (elem : Element) :
    Follows (walkStandalone elem) depth depth (Rewrite.walkStandalone depth elem) := by
  intro s
  rw [run_walkStandalone hd, walkStandalone_eq]
  cases hb : (Chain.build (depth + 1) elem []).result with
  | error x => rfl
  | ok built =>
    have := Chain.weight_build_le hb
    exact ((follows_countChain 0).bind fun _ => follows_walk hd built) s
termination_by 2 * elem.weight + 1
decreasing_by
  simp only [Element.weightSum] at this
  omega

theorem follows_walkElement {depth : Nat} (hd : depth ≤ maxNesting) (elem : Element) :
    Follows (walkElement elem) depth depth (Rewrite.walkElement depth elem) := by
  match elem with
  | ⟨name, attrs, children, selfClosing, span⟩ =>
    rw [walkElement, Rewrite.walkElement]
    refine (follows_ofExcept _).bind fun _ => .raise hd fun hinner => ?_
    refine (follows_walkAttributes hinner attrs).bind fun _ => (follows_ofExcept _).bind fun _ => ?_
    exact (follows_walkChildren hinner children).bind fun _ => .lower (.pure _)
termination_by 2 * elem.weight
decreasing_by all_goals simp only [Element.weight]; omega

theorem follows_walkFragment {depth : Nat} (hd : depth ≤ maxNesting) (frag : Fragment) :
    Follows (walkFragment frag) depth depth (Rewrite.walkFragment depth frag) := by
  match frag with
  | ⟨children, provenance, span⟩ =>
    rw [walkFragment, Rewrite.walkFragment]
    refine (follows_ofExcept _).bind fun _ => .raise hd fun hinner => ?_
    refine (follows_ofExcept _).bind fun _ => ?_
    exact (follows_walkChildren hinner children).bind fun _ => .lower (.pure _)
termination_by 2 * frag.weight
decreasing_by all_goals simp only [Fragment.weight]; omega

theorem follows_walkAttributes {depth : Nat} (hd : depth ≤ maxNesting) (attrs : List Attribute) :
    Follows (walkAttributes attrs) depth depth (Rewrite.walkAttributes depth attrs) := by
  match attrs with
  | [] =>
    rw [walkAttributes, Rewrite.walkAttributes]
    exact .pure _
  | ⟨name, none, span⟩ :: rest =>
    rw [walkAttributes, Rewrite.walkAttributes]
    exact (follows_walkAttributes hd rest).bind fun _ => .pure _
  | ⟨name, some value, span⟩ :: rest =>
    rw [walkAttributes, Rewrite.walkAttributes]
    refine (follows_walkValue hd value).bind fun _ => ?_
    exact (follows_walkAttributes hd rest).bind fun _ => .pure _
termination_by 2 * Attribute.weightAll attrs
decreasing_by all_goals simp only [Attribute.weightAll, Attribute.weight]; omega

theorem follows_walkValue {depth : Nat} (hd : depth ≤ maxNesting) (value : AttrValue) :
    Follows (walkValue value) depth depth (Rewrite.walkValue depth value) := by
  match value with
  | .text .. | .container none _ =>
    rw [walkValue, Rewrite.walkValue]
    exact .pure _
  | .container (some e) _ =>
    rw [walkValue, Rewrite.walkValue]
    exact (follows_walk hd e).bind fun _ => .pure _
  | .element elem =>
    rw [walkValue, Rewrite.walkValue]
    cases hb : elem.branch? with
    | none => exact (follows_walkElement hd elem).bind fun _ => .pure _
    | some b =>
      cases b with
      | when => exact (follows_walkStandalone hd elem).bind fun _ => .pure _
      | elseWhen => exact .throw _
      | otherwise => exact .throw _
termination_by 2 * value.weight
decreasing_by all_goals simp only [AttrValue.weight]; omega

theorem follows_walkChildren {depth : Nat} (hd : depth ≤ maxNesting) (children : List Child) :
    Follows (walkChildren children) depth depth (Rewrite.walkChildren depth children) := by
  match children with
  | [] =>
    rw [walkChildren, Rewrite.walkChildren]
    exact .pure _
  | .text .. :: rest | .container none _ :: rest =>
    rw [walkChildren, Rewrite.walkChildren]
    exact (follows_walkChildren hd rest).bind fun _ => .pure _
  | .container (some e) _ :: rest =>
    rw [walkChildren, Rewrite.walkChildren]
    exact (follows_walk hd e).bind fun _ => (follows_walkChildren hd rest).bind fun _ => .pure _
  | .fragment frag :: rest =>
    rw [walkChildren, Rewrite.walkChildren]
    refine (follows_walkFragment hd frag).bind fun _ => ?_
    exact (follows_walkChildren hd rest).bind fun _ => .pure _
  | .element elem :: rest =>
    cases hb : elem.branch? with
    | none =>
      rw [walkChildren, Rewrite.walkChildren, hb]
      refine (follows_walkElement hd elem).bind fun _ => ?_
      exact (follows_walkChildren hd rest).bind fun _ => .pure _
    | some b =>
      cases b with
      | when =>
        intro s
        rw [run_walkChildren hd hb, walkChildren_chain depth hb]
        have htake := Chain.weight_takeLinks rest
        refine follows_chain (fun built hbuilt => ?_) (fun _ => ?_) s
        · have := Chain.weight_build_le hbuilt
          exact follows_walk hd built
        · exact (follows_walkChildren hd (Chain.takeLinks rest).2).bind fun _ => .pure _
      | elseWhen | otherwise =>
        rw [walkChildren, Rewrite.walkChildren, hb]
        exact .throw _
termination_by 2 * Child.weightAll children
decreasing_by
  all_goals simp only [Child.weightAll, Child.weight]
  all_goals omega

end

/-- With the counter at that level, which is within the limit, every walk does what the one with the
level handed down does. It has an outcome, so that on the way the counter is not raised past the limit
nor lowered at zero, and no link is built more than two levels past the limit; and where it succeeds the
counter is back at the level. -/
structure AllFollow (depth : Nat) : Prop where
  walk : ∀ e, Follows (walk e) depth depth (Rewrite.walk depth e)
  walkArm : ∀ arm, Follows (walkArm arm) depth depth (do Rewrite.walk (← armDepth depth arm) arm)
  walkAll : ∀ es, Follows (walkAll es) depth depth (Rewrite.walkAll depth es)
  walkStandalone : ∀ elem,
    Follows (walkStandalone elem) depth depth (Rewrite.walkStandalone depth elem)
  walkElement : ∀ elem, Follows (walkElement elem) depth depth (Rewrite.walkElement depth elem)
  walkFragment : ∀ frag, Follows (walkFragment frag) depth depth (Rewrite.walkFragment depth frag)
  walkAttributes : ∀ attrs,
    Follows (walkAttributes attrs) depth depth (Rewrite.walkAttributes depth attrs)
  walkValue : ∀ value, Follows (walkValue value) depth depth (Rewrite.walkValue depth value)
  walkChildren : ∀ children,
    Follows (walkChildren children) depth depth (Rewrite.walkChildren depth children)

theorem allFollow {depth : Nat} (hd : depth ≤ maxNesting) : AllFollow depth where
  walk := follows_walk hd
  walkArm := follows_walkArm hd
  walkAll := follows_walkAll hd
  walkStandalone := follows_walkStandalone hd
  walkElement := follows_walkElement hd
  walkFragment := follows_walkFragment hd
  walkAttributes := follows_walkAttributes hd
  walkValue := follows_walkValue hd
  walkChildren := follows_walkChildren hd

theorem follows_walkStatement (s : Statement) :
    Follows (walkStatement s) 0 0 (Rewrite.walkStatement s) := by
  have hd : 0 ≤ maxNesting := Nat.zero_le _
  cases s with
  | imports => exact .pure _
  | binding _ _ init => exact (follows_walk hd init).bind fun _ => .pure _
  | exportDefault e => exact (follows_walk hd e).bind fun _ => .pure _
  | expr e => exact (follows_walk hd e).bind fun _ => .pure _

/-- One counter serves all statements, and is at zero between them. -/
theorem follows_walkStatements (ss : List (Spanned Statement)) :
    Follows (walkStatements ss) 0 0 (Rewrite.walkStatements ss) := by
  induction ss with
  | nil => exact .pure _
  | cons s ss ih =>
    rw [walkStatements, Rewrite.walkStatements]
    by_cases h : s.val.isSentinelImport
    · rw [if_pos h, if_pos h]
      exact Follows.bind (fun _ => rfl) fun _ => ih
    · rw [if_neg h, if_neg h]
      exact (follows_walkStatement s.val).bind fun _ => ih.bind fun _ => .pure _

end Counted
end Rewrite

/-- The levels are balanced in reading and in the walk. Whatever the text, every parser ends at the level
it starts at and stays within the limit on the way; every statement begins at none, and is read as if
nothing had been noted about those before it. A walk that counts its level by hand is never stuck, from
any level within the limit, and on success has its counter back where it was, over one statement as over
all. -/
theorem levels_balanced :
    Parse.AllLeveled ∧
      (∀ source fuel p, Parse.statementLoop.Reaches (Program.parseFuel source) ()
          (Parser.ofText source) fuel () p →
        p.depth = 0 ∧ (Parse.statement? fuel).run p =
          (((Parse.statement? fuel).run (p.cursor.parser 0)).1,
            { ((Parse.statement? fuel).run (p.cursor.parser 0)).2 with
              faults := p.faults ++ ((Parse.statement? fuel).run (p.cursor.parser 0)).2.faults })) ∧
      (∀ depth, depth ≤ maxNesting → Rewrite.Counted.AllFollow depth) ∧
      ∀ ss, Rewrite.Counted.Follows (Rewrite.Counted.walkStatements ss) 0 0
        (Rewrite.walkStatements ss) :=
  ⟨Parse.allLeveled, fun _ _ _ => Parse.statement_begins, fun _ => Rewrite.Counted.allFollow,
    Rewrite.Counted.follows_walkStatements⟩

/-- Where the reader is after the first statement of a text. -/
def afterFirst (source : List Char) : Round Unit (List (Spanned Statement)) × Parser :=
  (Parse.statementLoop.round (Program.parseFuel source - 1) ()).run (Parser.ofText source)

theorem reaches_afterFirst {source : List Char} (h : (afterFirst source).1.proceeds = true) :
    Parse.statementLoop.Reaches (Program.parseFuel source) () (Parser.ofText source)
      (Program.parseFuel source - 1) () (afterFirst source).2 := by
  obtain ⟨fuel, hfuel⟩ : ∃ fuel, Program.parseFuel source = fuel + 1 :=
    Nat.exists_eq_succ_of_ne_zero (by simp [Program.parseFuel])
  unfold afterFirst at h ⊢
  rw [hfuel] at h ⊢
  change ((Parse.statementLoop.round fuel ()).run _).1.proceeds = true at h
  cases hround : (Parse.statementLoop.round fuel ()).run (Parser.ofText source) with
  | mk r q =>
    rw [hround] at h
    cases r with
    | leaves => cases h
    | goesOn next complete =>
      change Parse.statementLoop.Reaches _ _ _ fuel () ((Parse.statementLoop.round fuel ()).run _).2
      rw [hround]
      exact .round hround (.here ..)

/-- After a statement that is refused the next begins at no level, and a walk at the limit is stuck
nowhere. -/
theorem levels_balanced_refused :
    (afterFirst "<a\nb".toList).2.faults ≠ [] ∧ (afterFirst "<a\nb".toList).2.depth = 0 ∧
      Rewrite.Counted.AllFollow maxNesting := by
  obtain ⟨-, hstatements, hfollow, -⟩ := levels_balanced
  refine ⟨by decide +kernel, ?_, hfollow maxNesting (Nat.le_refl _)⟩
  exact (hstatements _ _ _ (reaches_afterFirst (by decide +kernel))).1

end BranchMarkup
