import Mathlib
import BranchMarkup.Proofs.Printing.Program
import BranchMarkup.Proofs.Reading.Unmarked
/-! The way down a tree, and what it enters. A reader counts elements, fragments, arms and operands, and
lets no text pass in which they go deeper than it does; the arguments of calls it does not count, and
they go as deep as one likes. -/
namespace BranchMarkup

inductive Level where
  | element
  | fragment
  /-- Either arm of a conditional. -/
  | arm
  /-- The operand of an operator that stands before it. -/
  | operand
  /-- The arguments of a call. -/
  | arguments
deriving DecidableEq, Repr

namespace TreeNode

def level? : TreeNode → Option Level
  | element _ => some .element
  | fragment _ => some .fragment
  | _ => none

/-- The nodes right below a node, each with what the step to it enters. -/
def steps : TreeNode → List (Option Level × TreeNode)
  | expr (.conditional test consequent alternate _ _) =>
    [(none, expr test), (some .arm, expr consequent), (some .arm, expr alternate)]
  | expr (.unary _ operand _) => [(some .operand, expr operand)]
  | expr (.call callee args _) => (none, expr callee) :: args.map fun a => (some .arguments, expr a)
  | n => (n.parts Element.attrs).map fun m => (m.level?, m)

/-- There is a way from one node down to another that enters these levels, the outermost first. -/
inductive Descends : TreeNode → List Level → TreeNode → Prop where
  | here {n : TreeNode} : Descends n [] n
  | down {l m n : TreeNode} {entered : Option Level} {levels : List Level} : (entered, m) ∈ n.steps →
      Descends m levels l → Descends n (entered.toList ++ levels) l

/-- No way down enters more levels than that, arguments aside. -/
def Bounded (limit : Nat) (n : TreeNode) : Prop :=
  ∀ levels m, n.Descends levels m → levels.countP (· ≠ .arguments) ≤ limit

theorem Bounded.mono {k limit : Nat} {n : TreeNode} (h : n.Bounded k) (hk : k ≤ limit) : n.Bounded limit :=
  fun levels m hm => (h levels m hm).trans hk

theorem bounded_of_steps {limit : Nat} {n : TreeNode}
    (h : ∀ s ∈ n.steps, ∃ k, k + s.1.toList.countP (· ≠ .arguments) ≤ limit ∧ s.2.Bounded k) :
    n.Bounded limit := by
  intro levels m hm
  cases hm with
  | here => exact Nat.zero_le _
  | down hs hm =>
    obtain ⟨k, hk, hbounded⟩ := h _ hs
    rw [List.countP_append]
    exact (Nat.add_le_add_left (hbounded _ _ hm) _).trans ((Nat.add_comm ..).trans_le hk)

theorem bounded_of_parts {limit : Nat} {n : TreeNode}
    (hsteps : n.steps = (n.parts Element.attrs).map fun m => (none, m))
    (h : ∀ m ∈ n.parts Element.attrs, m.Bounded limit) : n.Bounded limit := by
  refine bounded_of_steps fun s hs => ?_
  rw [hsteps, List.mem_map] at hs
  obtain ⟨m, hm, rfl⟩ := hs
  exact ⟨limit, le_rfl, h m hm⟩

end TreeNode

open TreeNode (bounded_of_steps bounded_of_parts)

/-- Markup enters itself wherever it stands. -/
theorem Markup.bounded_of_node {k : Nat} {m : Markup} (h : m.node.Bounded k) :
    (TreeNode.expr m.toExpr).Bounded (k + 1) ∧ (TreeNode.child m.toChild).Bounded (k + 1) := by
  cases m with
  | element e =>
    exact ⟨bounded_of_steps (List.forall_mem_singleton.2 ⟨k, le_rfl, h⟩),
      bounded_of_steps (List.forall_mem_singleton.2 ⟨k, le_rfl, h⟩)⟩
  | fragment f =>
    exact ⟨bounded_of_steps (List.forall_mem_singleton.2 ⟨k, le_rfl, h⟩),
      bounded_of_steps (List.forall_mem_singleton.2 ⟨k, le_rfl, h⟩)⟩

namespace Parse

theorem bounded_of_atom {t : Spanned Token} {e : Expr} (h : atom? t = some e) :
    (TreeNode.expr e).Bounded 0 := by
  unfold atom? at h
  split at h <;> cases h <;> exact bounded_of_parts rfl (List.forall_mem_nil _)

theorem bounded_element {h k : Nat} {name : Spanned String} {attrs : List Attribute} {cs : List Child}
    {selfClosing : Bool} {span : Span} (ha : ∀ a ∈ attrs, (TreeNode.attr a).Bounded h)
    (hc : ∀ c ∈ cs, (TreeNode.child c).Bounded k) :
    (TreeNode.element ⟨name, attrs, cs, selfClosing, span⟩).Bounded (max h k) := by
  refine bounded_of_parts (List.map_congr_left ?_) ?_
  · rw [TreeNode.parts, List.forall_mem_append, List.forall_mem_map, List.forall_mem_map]
    exact ⟨fun _ _ => rfl, fun _ _ => rfl⟩
  · rw [TreeNode.parts, List.forall_mem_append, List.forall_mem_map, List.forall_mem_map]
    exact ⟨fun a hm => (ha a hm).mono (le_max_left ..), fun c hm => (hc c hm).mono (le_max_right ..)⟩

theorem bounded_container {h : Nat} {inner : Option Expr} {span : Span}
    (hinner : ∀ e ∈ inner, (TreeNode.expr e).Bounded h) :
    (TreeNode.value (.container inner span)).Bounded h ∧
      (TreeNode.child (.container inner span)).Bounded h := by
  cases inner with
  | none =>
    exact ⟨bounded_of_parts rfl (List.forall_mem_nil _), bounded_of_parts rfl (List.forall_mem_nil _)⟩
  | some e =>
    have he := List.forall_mem_singleton.2 (hinner e rfl)
    exact ⟨bounded_of_parts rfl he, bounded_of_parts rfl he⟩

mutual

theorem ReadsExpr.bounded {c h e c'} : ReadsExpr c h e c' → (TreeNode.expr e).Bounded h
  | .plain h _ => h.bounded
  | @ReadsExpr.conditional _ h k l _ _ _ _ _ _ ht _ hc _ ha => by
    apply bounded_of_steps
    simp only [TreeNode.steps, List.forall_mem_cons]
    refine ⟨⟨h, le_max_left .., ht.bounded⟩, ⟨max k l, ?_, hc.bounded.mono (le_max_left ..)⟩,
      ⟨max k l, ?_, ha.bounded.mono (le_max_right ..)⟩, List.forall_mem_nil _⟩
    · exact le_max_right ..
    · exact le_max_right ..

theorem ReadsBinary.bounded {power c h e c'} : ReadsBinary power c h e c' → (TreeNode.expr e).Bounded h
  | .mk h h' => h'.bounded h.bounded

theorem ReadsBinaryRest.bounded {power c h k lhs e c'} : ReadsBinaryRest power c k lhs e c' →
    (TreeNode.expr lhs).Bounded h → (TreeNode.expr e).Bounded (max h k)
  | .done _, hl => hl.mono (le_max_left ..)
  | @ReadsBinaryRest.more _ _ k l _ _ _ _ _ _ _ _ hr h', hl => by
    refine (h'.bounded (h := max h k) (bounded_of_parts rfl ?_)).mono (max_assoc ..).le
    simp only [TreeNode.parts, List.forall_mem_cons]
    exact ⟨hl.mono (le_max_left ..), hr.bounded.mono (le_max_right ..), List.forall_mem_nil _⟩

theorem ReadsUnary.bounded {c h e c'} : ReadsUnary c h e c' → (TreeNode.expr e).Bounded h
  | .operator _ h => bounded_of_steps (List.forall_mem_singleton.2 ⟨_, le_rfl, h.bounded⟩)
  | .trailing _ h h' => h'.bounded h.bounded

theorem ReadsTrailing.bounded {c h k e e' c'} : ReadsTrailing c k e e' c' →
    (TreeNode.expr e).Bounded h → (TreeNode.expr e').Bounded (max h k)
  | .done _ _, he => he.mono (le_max_left ..)
  | .member _ _ h, he => h.bounded (bounded_of_parts rfl (List.forall_mem_singleton.2 he))
  | @ReadsTrailing.call _ k l _ _ _ _ _ _ hargs _ h', he => by
    refine (h'.bounded (h := max h k) (bounded_of_steps ?_)).mono (max_assoc ..).le
    rw [TreeNode.steps, List.forall_mem_cons, List.forall_mem_map]
    exact ⟨⟨h, le_max_left .., he⟩, fun a ha => ⟨k, le_max_right .., hargs.bounded a ha⟩⟩

theorem ReadsArguments.bounded {c h es c'} :
    ReadsArguments c h es c' → ∀ e ∈ es, (TreeNode.expr e).Bounded h
  | .none _ => List.forall_mem_nil _
  | .last _ h _ => List.forall_mem_singleton.2 h.bounded
  | .more _ h _ h' => List.forall_mem_cons.2
    ⟨h.bounded.mono (le_max_left ..), fun e he => (h'.bounded e he).mono (le_max_right ..)⟩

theorem ReadsPrimary.bounded {c h e c'} : ReadsPrimary c h e c' → (TreeNode.expr e).Bounded h
  | .atom h => bounded_of_atom h
  | .parenthesized _ h _ => h.bounded.mono (Nat.le_succ _)
  | .markup _ h => by
    obtain ⟨k, rfl, hm⟩ := h.bounded
    exact (Markup.bounded_of_node hm).1

theorem ReadsMarkup.bounded {start after c h m c'} :
    ReadsMarkup start after c h m c' → ∃ k, h = k + 1 ∧ m.node.Bounded k
  | .fragment _ h _ => by
    refine ⟨_, rfl, bounded_of_parts (List.map_congr_left ?_) (List.forall_mem_map.2 h.bounded)⟩
    exact List.forall_mem_map.2 fun _ _ => rfl
  | @ReadsMarkup.selfClosing _ _ _ h _ _ _ _ _ _ ha _ _ => by
    refine ⟨h, rfl, (bounded_element (k := h) ha.bounded (List.forall_mem_nil _)).mono (max_self _).le⟩
  | .element _ _ ha _ hc _ _ _ => ⟨_, rfl, bounded_element ha.bounded hc.bounded⟩

theorem ReadsChildren.bounded {c h cs c'} :
    ReadsChildren c h cs c' → ∀ x ∈ cs, (TreeNode.child x).Bounded h
  | .close _ _ => List.forall_mem_nil _
  | .text _ h => List.forall_mem_cons.2 ⟨bounded_of_parts rfl (List.forall_mem_nil _), h.bounded⟩
  | .container _ h _ h' => List.forall_mem_cons.2
    ⟨(bounded_container h.bounded).2.mono (le_max_left ..),
      fun x hx => (h'.bounded x hx).mono (le_max_right ..)⟩
  | .markup _ _ h h' => by
    obtain ⟨k, rfl, hm⟩ := h.bounded
    exact List.forall_mem_cons.2 ⟨(Markup.bounded_of_node hm).2.mono (le_max_left ..),
      fun x hx => (h'.bounded x hx).mono (le_max_right ..)⟩

theorem ReadsContainer.bounded {c h inner c'} :
    ReadsContainer c h inner c' → ∀ e ∈ inner, (TreeNode.expr e).Bounded h
  | .empty _ => by
    rintro e ⟨⟩
  | .expr _ h => by
    rintro e ⟨⟩
    exact h.bounded

theorem ReadsAttributes.bounded {c h as c'} :
    ReadsAttributes c h as c' → ∀ a ∈ as, (TreeNode.attr a).Bounded h
  | .done _ _ => List.forall_mem_nil _
  | @ReadsAttributes.more _ h k name value _ _ _ _ _ _ hv hs => by
    have hattr (span : Span) : (TreeNode.attr ⟨name, value, span⟩).Bounded h := by
      refine bounded_of_parts (List.map_congr_left ?_) ?_
      · exact List.forall_mem_map.2 fun _ _ => rfl
      · rw [TreeNode.parts, List.forall_mem_map]
        exact fun v hmem => hv.bounded v (Option.mem_toList.1 hmem)
    exact List.forall_mem_cons.2 ⟨(hattr _).mono (le_max_left ..),
      fun a ha => (hs.bounded a ha).mono (le_max_right ..)⟩

theorem ReadsAttrValue.bounded {c h v c'} :
    ReadsAttrValue c h v c' → ∀ x ∈ v, (TreeNode.value x).Bounded h
  | .bare _ => by
    rintro x ⟨⟩
  | .text _ _ => by
    rintro x ⟨⟩
    exact bounded_of_parts rfl (List.forall_mem_nil _)
  | .container _ _ h _ => by
    rintro x ⟨⟩
    exact (bounded_container h.bounded).1
  | .element _ _ h => by
    rintro x ⟨⟩
    obtain ⟨k, rfl, hm⟩ := h.bounded
    exact bounded_of_steps (List.forall_mem_singleton.2 ⟨k, le_rfl, hm⟩)

end

theorem ReadsStatements.bounded {c h ss c'} (hss : ReadsStatements c h ss c') :
    ∀ s ∈ ss, ∀ e, s.val.expr? = some e → (TreeNode.expr e).Bounded h := by
  have hbody {c h s c'} (hs : ReadsBody c h s c') :
      ∀ e, s.expr? = some e → (TreeNode.expr e).Bounded h := by
    cases hs with
    | imports =>
      rintro e ⟨⟩
    | binding _ _ _ h | exportDefault _ _ h | expr _ h =>
      rintro e ⟨⟩
      exact h.bounded
  induction hss with
  | none => exact List.forall_mem_nil _
  | more _ h _ ih =>
    refine List.forall_mem_cons.2 ⟨fun e he => ?_, fun s hs e he => (ih s hs e he).mono (le_max_right ..)⟩
    cases h with
    | closed h _ | bare h _ => exact (hbody h e he).mono (le_max_left ..)

theorem exists_parse_of_legible {e : Expr} (he : e.Legible) (hle : e.levels ≤ maxNesting) {t : List Char}
    (ht : Spells e.pieces [] t) (name : String) :
    ∃ p x span, Program.parse name (String.ofList (t ++ [';'])) = .ok p ∧
      p.statements = [⟨.expr x, span⟩] ∧ x.bare = e.bare := by
  have hc := Cursor.before_ofText (t ++ [';'])
  obtain ⟨-, y, d, hbare, hread, hsemicolon, -, hend⟩ := readsBack_body (s := .expr e) he ht hc
  have hbegins := @Scanner.begins_end .script (by decide)
  have hval := hend.val hbegins
  have hstatement := ReadsStatement.closed hread hsemicolon
  have hopen : (Parser.ofText (t ++ [';'])).cursor.kind ≠ .endOfFile := by
    intro hnone
    have hlt := hstatement.left_lt
    rw [hc.left_eq_zero (Cursor.kind_endOfFile.1 hnone)] at hlt
    exact absurd hlt (Nat.not_lt_zero _)
  have hpast (before : Span) : (d.bump .script).past before = d.bump .script := by
    have hbump : (d.bump .script).bump .script = d.bump .script := if_pos hval
    rw [Cursor.past, hbump, ite_self]
  have hreads := ReadsStatements.more hopen hstatement
    (.none (by rw [hpast]; exact Cursor.kind_endOfFile.2 hval))
  rw [hpast, Nat.max_zero] at hreads
  cases y with
  | expr x =>
    rw [← String.toList_ofList (l := t ++ [';'])] at hreads
    have hparse := parse_eq_ok_iff (p := ⟨name, _, (d.bump .script).scanner.comments⟩) |>.2
      ⟨_, _, hreads, hle, rfl, hend.faults_eq hbegins⟩
    exact ⟨_, x, _, hparse, rfl, Statement.expr.inj hbare⟩
  | imports | binding | exportDefault => cases hbare

end Parse

/-! Calls in the arguments of calls -/

def callsSample : Nat → Expr
  | 0 => .ident "f" .zero
  | n + 1 => .call (.ident "f" .zero) [callsSample n] .zero

def callsText : Nat → List Char
  | 0 => ['f']
  | n + 1 => 'f' :: '(' :: (callsText n ++ [')'])

theorem callsSample_legible (n : Nat) : (callsSample n).Legible := by
  have hf : (Expr.ident "f" .zero).Legible :=
    Expr.legible_ident.2 ⟨⟨'f', [], rfl, by decide, List.forall_mem_nil _⟩, by decide⟩
  induction n with
  | zero => exact hf
  | succ n ih => exact Expr.legible_call.2 ⟨hf, List.forall_mem_singleton.2 ih⟩

theorem callsSample_levels (n : Nat) : (callsSample n).levels = 0 := by
  induction n with
  | zero => rfl
  | succ n ih => simp [callsSample, Expr.levels, Expr.levelsAll, Expr.precedence, Piece.groupLevels, ih]

theorem spells_callsSample (n : Nat) : Spells (callsSample n).pieces [] (callsText n) := by
  induction n with
  | zero => exact spells_text.2 ⟨[], spells_nil.2 ⟨rfl, rfl⟩, rfl⟩
  | succ n ih =>
    have hclose : Spells ((callsSample n).pieces ++ [.text ")"]) [] (callsText n ++ [')']) :=
      spells_append.2 ⟨_, _, [], [], ih, spells_text.2 ⟨[], spells_nil.2 ⟨rfl, rfl⟩, rfl⟩, rfl, rfl⟩
    exact spells_text.2 ⟨_, spells_text.2 ⟨_, hclose, rfl⟩, rfl⟩

theorem descends_of_bare_callsSample {n : Nat} {e : Expr} (h : e.bare = (callsSample n).bare) :
    ∃ span, (TreeNode.expr e).Descends (List.replicate n .arguments) (.expr (.ident "f" span)) := by
  induction n generalizing e with
  | zero =>
    cases e with
    | ident name span =>
      obtain ⟨rfl, -⟩ := Expr.ident.inj h
      exact ⟨span, .here⟩
    | _ => simp [callsSample, Expr.bare] at h
  | succ n ih =>
    cases e with
    | call callee args span =>
      obtain ⟨-, hargs, -⟩ := Expr.call.inj h
      obtain - | ⟨a, - | _⟩ := args
      · cases hargs
      · obtain ⟨leaf, hleaf⟩ := ih (List.cons.inj hargs).1
        have harg : (some .arguments, .expr a) ∈ (TreeNode.expr (.call callee [a] span)).steps :=
          List.mem_cons_of_mem _ List.mem_cons_self
        have hdown := TreeNode.Descends.down harg hleaf
        exact ⟨leaf, hdown⟩
      · cases (List.cons.inj hargs).2
    | _ => simp [callsSample, Expr.bare] at h

namespace Program

/-- A way down from the expression of a statement passes these levels. -/
def Passes (p : Program) (levels : List Level) : Prop :=
  ∃ s ∈ p.statements, ∃ e, s.val.expr? = some e ∧ ∃ n, (TreeNode.expr e).Descends levels n

theorem exists_passes_calls (name : String) (n : Nat) :
    ∃ p, parse name (String.ofList (callsText n ++ [';'])) = .ok p ∧
      p.Passes (List.replicate n .arguments) := by
  obtain ⟨p, x, span, hparse, hstatements, hbare⟩ := Parse.exists_parse_of_legible
    (callsSample_legible n) ((callsSample_levels n).trans_le (Nat.zero_le _)) (spells_callsSample n) name
  obtain ⟨leaf, hdown⟩ := descends_of_bare_callsSample hbare
  exact ⟨p, hparse, _, by rw [hstatements]; exact List.mem_singleton_self _, x, rfl, _, hdown⟩

/-- On any way down, what is read enters no more elements, fragments, arms and operands than a reader lets
pass. The arguments of calls come on top: every way stays within that limit exactly if on each of them
they are at most as many as the counted levels leave over. -/
theorem levels_of_parse {name source : String} {p : Program} (h : parse name source = .ok p) :
    (∀ levels, p.Passes levels → levels.countP (· ≠ .arguments) ≤ maxNesting) ∧
      ((∀ levels, p.Passes levels → levels.length ≤ maxNesting) ↔
        ∀ levels, p.Passes levels →
          levels.count .arguments ≤ maxNesting - levels.countP (· ≠ .arguments)) := by
  have hcounted : ∀ levels, p.Passes levels → levels.countP (· ≠ .arguments) ≤ maxNesting := by
    rintro levels ⟨s, hs, e, he, n, hdown⟩
    obtain ⟨k, c, hreads, hk, -⟩ := Parse.readsStatements_of_parse h
    exact (hreads.bounded s hs e he).mono hk levels n hdown
  refine ⟨hcounted, forall₂_congr fun levels hpasses => ?_⟩
  have hlength : levels.length = levels.count .arguments + levels.countP (· ≠ .arguments) := by
    rw [List.length_eq_countP_add_countP (· == .arguments), List.count]
    simp
  rw [hlength, Nat.le_sub_iff_add_le (hcounted levels hpasses)]

/-- One call more than there are levels to a reader. -/
theorem levels_of_parse_calls : ∃ p, parse "a.jsx" (String.ofList (callsText 257 ++ [';'])) = .ok p ∧
    (∀ levels, p.Passes levels → levels.countP (· ≠ .arguments) ≤ maxNesting) ∧
      ¬ ∀ levels, p.Passes levels → levels.length ≤ maxNesting := by
  obtain ⟨p, hparse, hpasses⟩ := exists_passes_calls "a.jsx" 257
  obtain ⟨hcounted, hlimit⟩ := levels_of_parse hparse
  refine ⟨p, hparse, hcounted, fun hall => ?_⟩
  have hfew := hlimit.1 hall _ hpasses
  rw [List.count_replicate_self] at hfew
  exact absurd (hfew.trans (Nat.sub_le ..)) (by decide)

end Program
end BranchMarkup
