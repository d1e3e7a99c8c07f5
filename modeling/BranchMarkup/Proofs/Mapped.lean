import BranchMarkup.Proofs.Printing.Slots
import BranchMarkup.Proofs.Roundtrip
/-! The map of a printed program. Pieces of a tree are nested like its nodes, so what is open when a
node begins is open again when it ends, and the range that is noted then is that of the text printed
for this node. -/
namespace BranchMarkup

namespace Print

def size (p : Print) : Nat := p.text.utf8ByteSize

def written (p : Print) (ps : List Piece) : String := ((ofComments p.comments).addAll ps).text

theorem addAll_append (p : Print) (ps qs : List Piece) :
    p.addAll (ps ++ qs) = (p.addAll ps).addAll qs := List.foldl_append

theorem addAll_cons (p : Print) (piece : Piece) (ps : List Piece) :
    p.addAll (piece :: ps) = (p.add piece).addAll ps := rfl

theorem add_alike {p q : Print} (h : p.comments = q.comments) (piece : Piece) :
    ∃ t, (p.add piece).text = p.text ++ t ∧ (q.add piece).text = q.text ++ t ∧
      (p.add piece).comments = (q.add piece).comments := by
  cases piece with
  | text s => exact ⟨s, rfl, rfl, h⟩
  | heldComments | leadingComments | trailingComments =>
    simp only [add, takeComments, h, and_true]
    exact ⟨_, rfl, rfl⟩
  | opens => exact ⟨"", (String.append_empty).symm, (String.append_empty).symm, h⟩
  | closes kind provenance =>
    have hcloses (r : Print) : (r.add (.closes kind provenance)).text = r.text ++ "" ∧
        (r.add (.closes kind provenance)).comments = r.comments := by
      rw [add, String.append_empty]
      split <;> exact ⟨rfl, rfl⟩
    refine ⟨"", (hcloses p).1, (hcloses q).1, ?_⟩
    rw [(hcloses p).2, (hcloses q).2, h]

theorem addAll_alike {p q : Print} (h : p.comments = q.comments) (ps : List Piece) :
    ∃ t, (p.addAll ps).text = p.text ++ t ∧ (q.addAll ps).text = q.text ++ t := by
  induction ps generalizing p q with
  | nil => exact ⟨"", (String.append_empty).symm, (String.append_empty).symm⟩
  | cons piece ps ih =>
    obtain ⟨t, hp, hq, hcomments⟩ := add_alike h piece
    obtain ⟨u, hp', hq'⟩ := ih hcomments
    refine ⟨t ++ u, ?_, ?_⟩
    · rw [addAll_cons, hp', hp, String.append_assoc]
    · rw [addAll_cons, hq', hq, String.append_assoc]

theorem text_addAll (p : Print) (ps : List Piece) : (p.addAll ps).text = p.text ++ p.written ps := by
  obtain ⟨t, hp, hq⟩ := addAll_alike (p := p) (q := ofComments p.comments) rfl ps
  rw [hp, written, hq, ofComments, String.empty_append]

theorem size_le_addAll (p : Print) (ps : List Piece) : p.size ≤ (p.addAll ps).size := by
  rw [size, size, text_addAll, String.utf8ByteSize_append]
  exact Nat.le_add_right ..

end Print

/-! Nesting -/

namespace TreeNode

def marked (n : TreeNode) : List TreeNode := n.all.filter (·.mark?.isSome)

theorem marked_eq (n : TreeNode) : n.marked =
    (if n.mark?.isSome then [n] else []) ++ (n.parts Element.attrs).flatMap marked := by
  unfold marked
  rw [all_eq, List.filter_cons, List.filter_flatMap]
  split <;> rfl

end TreeNode

/-- Pieces, and the marked nodes that these are the pieces of, in the order in which they end. Every
such node has a text of its own beside its parts. -/
inductive Grouped : List Piece → List TreeNode → Prop where
  | nil : Grouped [] []
  | piece {piece ps ns} : piece ≠ .opens → (∀ kind origin, piece ≠ .closes kind origin) →
      Grouped ps ns → Grouped (piece :: ps) ns
  | node {n kind origin s ps qs rest ns ms ls} : n.mark? = some (kind, origin) →
      n.pieces = .opens :: (ps ++ .text s :: (qs ++ [.closes kind origin])) → s ≠ "" →
      Grouped ps ns → Grouped qs ms → Grouped rest ls →
      Grouped (n.pieces ++ rest) (ns ++ (ms ++ n :: ls))

theorem Grouped.append {ps qs : List Piece} {ns ms : List TreeNode} (h : Grouped ps ns)
    (h' : Grouped qs ms) : Grouped (ps ++ qs) (ns ++ ms) := by
  induction h with
  | nil => exact h'
  | piece hopens hcloses _ ih => exact .piece hopens hcloses ih
  | node hmark hpieces hs hps hqs _ _ _ ih =>
    rw [List.append_assoc, List.append_assoc, List.append_assoc, List.cons_append]
    exact .node hmark hpieces hs hps hqs ih

/-- The pieces hold the marked nodes of these trees, and each once. -/
def Covers (ps : List Piece) (ls : List TreeNode) : Prop :=
  ∃ ns, Grouped ps ns ∧ ns.Perm (ls.flatMap TreeNode.marked)

section
variable {n : TreeNode} {s : String} {ps qs : List Piece} {ls ms : List TreeNode}

theorem Covers.nil : Covers [] [] := ⟨[], .nil, .nil⟩

theorem Covers.append (h : Covers ps ls) (h' : Covers qs ms) : Covers (ps ++ qs) (ls ++ ms) := by
  obtain ⟨ns, hps, hns⟩ := h
  obtain ⟨ns', hqs, hns'⟩ := h'
  refine ⟨ns ++ ns', hps.append hqs, ?_⟩
  rw [List.flatMap_append]
  exact hns.append hns'

theorem Covers.text (h : Covers ps ls) : Covers (.text s :: ps) ls := by
  obtain ⟨ns, hps, hns⟩ := h
  exact ⟨ns, .piece nofun nofun hps, hns⟩

theorem Covers.held {container : Span} (h : Covers ps ls) :
    Covers (.heldComments container :: ps) ls := by
  obtain ⟨ns, hps, hns⟩ := h
  exact ⟨ns, .piece nofun nofun hps, hns⟩

theorem Covers.before (h : Covers ps ls) : Covers (ps ++ [.text s]) ls := by
  have := h.append (Covers.text (s := s) .nil)
  rwa [List.append_nil] at this

theorem Covers.parenthesized (h : Covers ps ls) {b : Bool} :
    Covers (Piece.parenthesized b ps) ls := by
  cases b with
  | false => exact h
  | true => exact h.before.text

theorem Covers.node (hmark : n.mark? = none) (h : Covers n.pieces (n.parts Element.attrs)) :
    Covers n.pieces [n] := by
  obtain ⟨ns, hps, hns⟩ := h
  refine ⟨ns, hps, ?_⟩
  rw [List.flatMap_singleton, TreeNode.marked_eq, hmark]
  exact hns

theorem covers_marked (kind : MappingKind) {origin : Option Provenance}
    (hmark : n.mark? = origin.map (kind, ·))
    (hpieces : n.pieces = Piece.marked kind origin (ps ++ .text s :: qs)) (hs : s ≠ "")
    (hparts : n.parts Element.attrs = ls ++ ms) (h : Covers ps ls) (h' : Covers qs ms) :
    Covers n.pieces [n] := by
  cases origin with
  | none =>
    apply Covers.node hmark
    rw [hpieces, hparts]
    exact h.append h'.text
  | some o =>
    obtain ⟨ns, hps, hns⟩ := h
    obtain ⟨ns', hqs, hns'⟩ := h'
    have hsplit : n.pieces = .opens :: (ps ++ .text s :: (qs ++ [.closes kind o])) := by
      rw [hpieces, Piece.marked, List.append_assoc, List.cons_append]
    have hgrouped := Grouped.node hmark hsplit hs hps hqs .nil
    rw [List.append_nil] at hgrouped
    refine ⟨_, hgrouped, ?_⟩
    have hsome : n.mark?.isSome = true := by rw [hmark]; rfl
    rw [List.flatMap_singleton, TreeNode.marked_eq, if_pos hsome, hparts, List.flatMap_append,
      ← List.append_assoc]
    exact ((hns.append hns').append_right [n]).trans (List.perm_append_singleton ..)

end

mutual

theorem Expr.covers : (e : Expr) → Covers (TreeNode.expr e).pieces [.expr e]
  | .literal .. => .node rfl (.text .nil)
  | .ident .. => .node rfl (.text .nil)
  | .member object _ _ => .node rfl object.covers.parenthesized.before
  | .call callee args _ =>
    .node rfl (callee.covers.parenthesized.append (Expr.coversAll args).before.text)
  | .unary op operand _ => .node rfl (by
      have h := operand.covers.parenthesized (b := operand.precedence < 14)
      rw [TreeNode.pieces, Expr.pieces]
      split
      · exact h.text.text
      · exact h.text)
  | .binary _ lhs rhs _ =>
    .node rfl (lhs.covers.parenthesized.append rhs.covers.parenthesized.text)
  | .conditional test consequent alternate origin _ =>
    covers_marked .conditional rfl rfl (by decide) rfl test.covers.parenthesized
      (consequent.covers.parenthesized.append alternate.covers.parenthesized.text)
  | .element e => .node rfl e.covers
  | .fragment f => .node rfl f.covers

theorem Expr.coversAll : (es : List Expr) → Covers (Expr.argumentPieces es) (es.map .expr)
  | [] => .nil
  | [e] => e.covers
  | e :: e' :: es => e.covers.append (Expr.coversAll (e' :: es)).text

theorem Element.covers : (e : Element) → Covers (TreeNode.element e).pieces [.element e]
  | ⟨name, attrs, children, selfClosing, span⟩ => .node rfl (by
      have has := Attribute.coversAll attrs
      have hcs := Child.coversAll children
      rw [TreeNode.pieces, Element.pieces]
      split
      · next h =>
        rw [Bool.and_eq_true, List.isEmpty_iff] at h
        rw [h.2] at hcs ⊢
        exact (has.append (.text .nil)).text
      · exact (has.append hcs.before.text).text)

theorem Fragment.covers : (f : Fragment) → Covers (TreeNode.fragment f).pieces [.fragment f]
  | ⟨children, _, _⟩ =>
    @covers_marked _ _ [] _ [] _ .fragment _ rfl rfl (by decide) rfl .nil
      (Child.coversAll children).before

theorem Attribute.covers : (a : Attribute) → Covers (TreeNode.attr a).pieces [.attr a]
  | ⟨_, none, _⟩ => .node rfl (.text .nil)
  | ⟨_, some value, _⟩ => .node rfl value.covers.text

theorem Attribute.coversAll : (as : List Attribute) → Covers (Attribute.piecesAll as) (as.map .attr)
  | [] => .nil
  | a :: as => a.covers.append (Attribute.coversAll as)

theorem AttrValue.covers : (v : AttrValue) → Covers (TreeNode.value v).pieces [.value v]
  | .text .. => .node rfl (.text .nil)
  | .container none _ => .node rfl (.text (.held (.text .nil)))
  | .container (some e) _ => .node rfl e.covers.before.text
  | .element e => .node rfl e.covers

theorem Child.covers : (c : Child) → Covers (TreeNode.child c).pieces [.child c]
  | .text .. => .node rfl (.text .nil)
  | .container none _ => .node rfl (.text (.held (.text .nil)))
  | .container (some e) _ => .node rfl e.covers.before.text
  | .element e => .node rfl e.covers
  | .fragment f => .node rfl f.covers

theorem Child.coversAll : (cs : List Child) → Covers (Child.piecesAll cs) (cs.map .child)
  | [] => .nil
  | c :: cs => c.covers.append (Child.coversAll cs)

end

theorem Statement.covers (s : Statement) : Covers s.pieces (s.expr?.toList.map .expr) := by
  cases s with
  | imports => exact .text .nil
  | binding _ _ e | exportDefault e => exact e.covers.text
  | expr e => exact e.covers

theorem Program.covers (p : Program) : Covers p.pieces p.roots := by
  unfold pieces roots
  generalize (0 : UInt32) = cursor, false = after
  induction p.statements generalizing cursor after with
  | nil => exact ⟨[], .piece nofun nofun .nil, .nil⟩
  | cons s ss ih =>
    obtain ⟨ns, hps, hns⟩ := s.val.covers.append (ih s.span.stop s.val.isImport).text
    have hbreak : Grouped (if after && !s.val.isImport then [.text "\n"] else []) [] := by
      split
      · exact .piece nofun nofun .nil
      · exact .nil
    exact ⟨ns, hbreak.append (.piece nofun nofun hps), hns⟩

/-! Ranges -/

/-- Of two ranges: the first ends before the second starts, or is a part of it. -/
def Mapping.Settles (a b : Mapping) : Prop :=
  a.stop ≤ b.start ∨ b.start ≤ a.start ∧ a.stop ≤ b.stop ∧ a.stop - a.start < b.stop - b.start

/-- The mapping is that of a node which is printed somewhere among the pieces. -/
def Maps (p : Print) (ps : List Piece) (n : TreeNode) (m : Mapping) : Prop :=
  n.mark? = some (m.kind, ⟨m.original, m.branch⟩) ∧ m.start < m.stop ∧
    ∃ before after, ps = before ++ (n.pieces ++ after) ∧ m.start = (p.addAll before).size ∧
      m.stop = (p.addAll (before ++ n.pieces)).size

section
variable {p : Print} {ps qs : List Piece} {n : TreeNode} {m : Mapping} {ns : List TreeNode}
  {ms : List Mapping}

theorem Maps.bounds (h : Maps p ps n m) :
    p.size ≤ m.start ∧ m.start < m.stop ∧ m.stop ≤ (p.addAll ps).size := by
  obtain ⟨-, hlt, before, after, rfl, hstart, hstop⟩ := h
  refine ⟨hstart ▸ p.size_le_addAll before, hlt, ?_⟩
  rw [hstop, ← List.append_assoc, Print.addAll_append p (before ++ n.pieces)]
  exact Print.size_le_addAll ..

theorem Maps.append_right (h : Maps p ps n m) : Maps p (ps ++ qs) n m := by
  obtain ⟨hmark, hlt, before, after, rfl, hstart, hstop⟩ := h
  exact ⟨hmark, hlt, before, after ++ qs, by simp, hstart, hstop⟩

theorem Maps.append_left {ps : List Piece} (h : Maps (p.addAll ps) qs n m) : Maps p (ps ++ qs) n m := by
  obtain ⟨hmark, hlt, before, after, rfl, hstart, hstop⟩ := h
  refine ⟨hmark, hlt, ps ++ before, after, by simp, ?_, ?_⟩
  · rw [hstart, Print.addAll_append]
  · rw [hstop, List.append_assoc, Print.addAll_append p ps]

theorem bounds_of_maps (h : List.Forall₂ (Maps p ps) ns ms) :
    ∀ m ∈ ms, p.size ≤ m.start ∧ m.start < m.stop ∧ m.stop ≤ (p.addAll ps).size := by
  induction h with
  | nil => nofun
  | cons hm _ ih => exact List.forall_mem_cons.2 ⟨hm.bounds, ih⟩

/-- The text between the ends of a mapping is what was printed for its node. -/
theorem Maps.slice (h : Maps p ps n m) : ∃ before after, ps = before ++ (n.pieces ++ after) ∧
    m.start = (p.addAll before).size ∧
    Text.slice? m.start m.stop (p.addAll ps).text.toList =
      some ((p.addAll before).written n.pieces).toList := by
  obtain ⟨-, -, before, after, rfl, hstart, hstop⟩ := h
  refine ⟨before, after, rfl, hstart, ?_⟩
  rw [Print.addAll_append, Print.addAll_append, Print.text_addAll (Print.addAll _ n.pieces),
    Print.text_addAll (p.addAll before), String.append_assoc, String.toList_append,
    String.toList_append]
  rw [Print.addAll_append, Print.size, Print.text_addAll (p.addAll before),
    String.utf8ByteSize_append] at hstop
  rw [Print.size] at hstart
  rw [hstop, hstart, ← Text.byteLength_toList, ← Text.byteLength_toList]
  exact Text.slice?_byteLength ..

end

/-- A run over pieces that leaves no node open, and what it notes of the nodes as they end. -/
structure Runs (p : Print) (ps : List Piece) (ns : List TreeNode) (ms : List Mapping) : Prop where
  opened : (p.addAll ps).opened = p.opened
  mappings : (p.addAll ps).mappings = p.mappings ++ ms
  maps : List.Forall₂ (Maps p ps) ns ms
  settles : ms.Pairwise Mapping.Settles

section
variable {p : Print} {ps qs : List Piece} {ns ns' : List TreeNode} {ms ms' : List Mapping}

theorem Runs.piece (piece : Piece) (hopens : piece ≠ .opens)
    (hcloses : ∀ kind origin, piece ≠ .closes kind origin) : Runs p [piece] [] [] := by
  cases piece with
  | opens => exact absurd rfl hopens
  | closes kind origin => exact absurd rfl (hcloses kind origin)
  | _ => exact ⟨rfl, (List.append_nil _).symm, .nil, .nil⟩

theorem Runs.append (h : Runs p ps ns ms) (h' : Runs (p.addAll ps) qs ns' ms') :
    Runs p (ps ++ qs) (ns ++ ns') (ms ++ ms') := by
  constructor
  · rw [Print.addAll_append, h'.opened, h.opened]
  · rw [Print.addAll_append, h'.mappings, h.mappings, List.append_assoc]
  · exact List.rel_append (h.maps.imp fun _ _ hm => hm.append_right)
      (h'.maps.imp fun _ _ hm => hm.append_left)
  · refine List.pairwise_append.2 ⟨h.settles, h'.settles, fun a ha b hb => .inl ?_⟩
    have hafter := (bounds_of_maps h'.maps b hb).1
    exact Nat.le_trans (bounds_of_maps h.maps a ha).2.2 hafter

theorem Print.add_closes (start : Nat) (opened : List Nat) {kind : MappingKind} {o : Provenance}
    (h : p.opened = start :: opened) : p.add (.closes kind o) =
      ⟨p.text, opened, p.comments, p.mappings ++ [⟨start, p.size, o.origin, kind, o.branch⟩]⟩ := by
  unfold add
  rw [h]
  rfl

/-- The range of a node is noted last, and is longer than those in it for the text of its own. -/
theorem Runs.node {n : TreeNode} {kind : MappingKind} {o : Provenance} {s : String}
    (hmark : n.mark? = some (kind, o))
    (hpieces : n.pieces = .opens :: (ps ++ .text s :: (qs ++ [.closes kind o]))) (hs : s ≠ "")
    (h : Runs (p.add .opens) ps ns ms)
    (h' : Runs (((p.add .opens).addAll ps).add (.text s)) qs ns' ms') :
    ∃ m, Runs p n.pieces (ns ++ (ns' ++ [n])) (ms ++ (ms' ++ [m])) := by
  have hinside : Runs (p.add .opens) (ps ++ .text s :: qs) (ns ++ ns') (ms ++ ms') :=
    h.append ((Runs.piece (.text s) nofun nofun).append h')
  have hsplit : n.pieces = [.opens] ++ ((ps ++ .text s :: qs) ++ [.closes kind o]) := by
    rw [hpieces, List.append_assoc]
    rfl
  have hrun : p.addAll n.pieces = ((p.add .opens).addAll (ps ++ .text s :: qs)).add (.closes kind o) := by
    rw [hsplit, Print.addAll_append, Print.addAll_append]
    rfl
  rw [Print.add_closes p.size p.opened hinside.opened] at hrun
  have hown : ((p.add .opens).addAll ps).size < (((p.add .opens).addAll ps).add (.text s)).size := by
    have : s.utf8ByteSize ≠ 0 := mt String.utf8ByteSize_eq_zero_iff.1 hs
    rw [Print.size, Print.size, Print.add, String.utf8ByteSize_append]
    omega
  have hlow : p.size ≤ ((p.add .opens).addAll ps).size := Print.size_le_addAll (p.add .opens) ps
  have hhigh := Print.size_le_addAll (((p.add .opens).addAll ps).add (.text s)) qs
  have hsize : ((p.add .opens).addAll (ps ++ .text s :: qs)).size =
      ((((p.add .opens).addAll ps).add (.text s)).addAll qs).size := by
    rw [Print.addAll_append]
    rfl
  refine ⟨⟨p.size, ((p.add .opens).addAll (ps ++ .text s :: qs)).size, o.origin, kind, o.branch⟩,
    ?_, ?_, ?_, ?_⟩
  · rw [hrun]
  · have hopens : (p.add .opens).mappings = p.mappings := rfl
    rw [hrun, hinside.mappings, hopens]
    simp only [List.append_assoc]
  · rw [← List.append_assoc, ← List.append_assoc]
    refine List.rel_append ?_ (.cons ⟨hmark, by dsimp only; omega, [], [], ?_, rfl, ?_⟩ .nil)
    · rw [hsplit]
      exact hinside.maps.imp fun _ _ hm => @Maps.append_left _ _ _ _ [.opens] hm.append_right
    · rw [List.append_nil, List.nil_append]
    · rw [List.nil_append, hrun]
      rfl
  · rw [← List.append_assoc]
    refine List.pairwise_append.2 ⟨hinside.settles, List.pairwise_singleton .., ?_⟩
    intro a ha b hb
    obtain rfl := List.mem_singleton.1 hb
    right
    dsimp only
    have hopen : (p.add .opens).size = p.size := rfl
    rcases List.mem_append.1 ha with ha | ha
    · have := bounds_of_maps h.maps a ha
      omega
    · have := bounds_of_maps h'.maps a ha
      omega

end

theorem Grouped.runs {ps : List Piece} {ns : List TreeNode} (h : Grouped ps ns) (p : Print) :
    ∃ ms, Runs p ps ns ms := by
  induction h generalizing p with
  | nil => exact ⟨[], rfl, (List.append_nil _).symm, .nil, .nil⟩
  | piece hopens hcloses _ ih =>
    obtain ⟨ms, hms⟩ := ih (p.add _)
    exact ⟨ms, .append (.piece _ hopens hcloses) hms⟩
  | @node n _ _ _ _ _ _ ns ms ls hmark hpieces hs _ _ _ ihps ihqs ihrest =>
    obtain ⟨ms₁, h₁⟩ := ihps (p.add .opens)
    obtain ⟨ms₂, h₂⟩ := ihqs _
    obtain ⟨ms₃, h₃⟩ := ihrest (p.addAll n.pieces)
    obtain ⟨m, hnode⟩ := Runs.node hmark hpieces hs h₁ h₂
    have hnodes : ns ++ (ms ++ n :: ls) = ns ++ (ms ++ [n]) ++ ls := by simp
    exact ⟨_, hnodes ▸ hnode.append h₃⟩

/-! Programs -/

def Mapping.mark (m : Mapping) : MappingKind × Provenance := (m.kind, ⟨m.original, m.branch⟩)

namespace Program

/-- The mapping has the range of what was printed for the node, and names the branch that the node
stands for. -/
def Shows (p : Program) (n : TreeNode) (m : Mapping) : Prop :=
  n.mark? = some m.mark ∧ m.start < m.stop ∧
    ∃ before after, p.pieces = before ++ (n.pieces ++ after) ∧
      m.start = ((Print.ofComments p.comments).addAll before).size ∧
      Text.slice? m.start m.stop p.formatWithMap.1.toList =
        some (((Print.ofComments p.comments).addAll before).written n.pieces).toList

/-- Every node that stands for a branch has its mapping, and these are listed as the nodes end. -/
theorem shows_formatWithMap {p : Program} (hp : p.Printable) :
    (∃ ns : List TreeNode, ns.Perm (p.roots.flatMap TreeNode.marked) ∧
      List.Forall₂ p.Shows ns p.formatWithMap.2) ∧ p.formatWithMap.2.Pairwise Mapping.Settles := by
  obtain ⟨ns, hgrouped, hns⟩ := p.covers
  obtain ⟨ms, hruns⟩ := hgrouped.runs (Print.ofComments p.comments)
  have hmappings : p.formatWithMap.2 = ms := hruns.mappings
  have hcode : p.formatWithMap.1 = p.print.text := format_eq hp.comments
  rw [hmappings]
  refine ⟨⟨ns, hns, hruns.maps.imp fun n m hm => ?_⟩, hruns.settles⟩
  rw [Shows, hcode]
  exact ⟨hm.1, hm.2.1, hm.slice⟩

theorem marks_formatWithMap {p : Program} (hp : p.Printable) :
    (p.formatWithMap.2.map Mapping.mark).Perm p.marks := by
  obtain ⟨⟨ns, hns, hshows⟩, -⟩ := shows_formatWithMap hp
  have hmarks : p.formatWithMap.2.map Mapping.mark = ns.filterMap TreeNode.mark? := by
    clear hns
    generalize p.formatWithMap.2 = ms at hshows
    induction hshows with
    | nil => rfl
    | cons hm _ ih => rw [List.map_cons, List.filterMap_cons_some hm.1, ih]
  have hall : (p.roots.flatMap TreeNode.marked).filterMap TreeNode.mark? = p.marks := by
    unfold TreeNode.marked marks
    rw [← List.filter_flatMap, List.filterMap_filter]
    congr 1
    funext n
    cases n.mark? <;> rfl
  rw [hmarks, ← hall]
  exact hns.filterMap _

theorem mem_branches_of_has {p : Program} {e : Element} {b : Branch}
    (he : p.Has Element.attrs (.element e)) (hb : e.branch? = some b) : e.span ∈ p.branches := by
  obtain ⟨s, hs, x, hx, hw⟩ := he
  refine List.mem_flatMap.2 ⟨s, hs, ?_⟩
  rw [hx]
  apply TreeNode.ownBranch_subset_of_within hw
  rw [TreeNode.ownBranch, hb]
  exact List.mem_singleton_self _

theorem exists_of_mem_links {p : Program} {o : Provenance} (ho : o ∈ p.links) :
    ∃ e, p.Has Element.attrs (.element e) ∧ e.branch? = some o.branch ∧ e.span = o.origin := by
  obtain ⟨n, hn, ho⟩ := List.mem_filterMap.1 ho
  obtain ⟨r, hr, hn⟩ := List.mem_flatMap.1 hn
  have hhas : p.Has Element.attrs n :=
    (has_iff.2 ⟨r, hr, TreeNode.mem_nodes.1 hn⟩).mono Element.liveAttrs_subset
  cases n with
  | element e =>
    obtain ⟨b, hb, rfl⟩ := Option.map_eq_some_iff.1 ho
    exact ⟨e, hhas, hb, rfl⟩
  | _ => cases ho

/-- Every conditional leads to a branch that carries a condition, and to each such branch one does. -/
theorem conditionals_perm {p q : Program} {counted : Stats} {file text : String}
    (hp : parse file text = .ok p) (hr : p.rewrite = .ok (q, counted)) :
    ((q.formatWithMap.2.filter (·.kind = .conditional)).map (·.mark.2)).Perm
      (p.links.filter (·.branch.tests)) := by
  have hmarks := marks_formatWithMap ((printable_of_parse hp).rewrite hr)
  have h := ((hmarks.filter (·.1 = .conditional)).trans
    (marks_of_rewrite_unmarked hr (unmarked_of_parse hp)).1).map Prod.snd
  have hsnd (os : List Provenance) :
      os.map (Prod.snd ∘ (MappingKind.conditional, ·)) = os := List.map_id os
  rw [List.filter_map, List.map_map, List.map_map, hsnd] at h
  exact h

theorem originals_perm {p q : Program} {counted : Stats} {file text : String}
    (hp : parse file text = .ok p) (hr : p.rewrite = .ok (q, counted)) :
    ((q.formatWithMap.2.filter (·.kind = .conditional)).map (·.original)).Perm
      ((p.links.filter (·.branch.tests)).map (·.origin)) := by
  have h := (conditionals_perm hp hr).map (·.origin)
  rwa [List.map_map] at h

/-- The map of a rewritten program. A mapping has the range of one node that the rewrite made and
leads to the branch element this node stands for. Of two ranges the first ends before the second, or
is a part of it. No two conditionals lead to the same element, and as many lead to an element that
opens a chain as the rewrite has counted. Places are bytes counted in 32 bits, and beyond that two
elements can have one place. -/
theorem formatWithMap_of_rewrite {file text : String} {p q : Program} {counted : Stats}
    (hp : parse file text = .ok p) (hr : p.rewrite = .ok (q, counted)) :
    (∃ ns : List TreeNode, ns.Perm (q.roots.flatMap TreeNode.marked) ∧
      List.Forall₂ q.Shows ns q.formatWithMap.2) ∧
    q.formatWithMap.2.Pairwise Mapping.Settles ∧
    (∀ m ∈ q.formatWithMap.2, m.original ∈ p.branches ∧ ∃ e, p.Has Element.attrs (.element e) ∧
      e.branch? = some m.branch ∧ e.span = m.original) ∧
    (text.utf8ByteSize < UInt32.size →
      ((q.formatWithMap.2.filter (·.kind = .conditional)).map (·.original)).Nodup) ∧
    ((q.formatWithMap.2.filter (·.kind = .conditional)).map (·.mark.2)).Perm
      (p.links.filter (·.branch.tests)) ∧
    q.formatWithMap.2.countP (fun m => m.kind = .conditional ∧ m.branch = .when) =
      counted.chains := by
  have hprintable := (printable_of_parse hp).rewrite hr
  have hmem := (marks_of_rewrite_unmarked hr (unmarked_of_parse hp)).2
  have hmarks := marks_formatWithMap hprintable
  have hlinks := conditionals_perm hp hr
  obtain ⟨hshows, hsettles⟩ := shows_formatWithMap hprintable
  refine ⟨hshows, hsettles, ?_, ?_, hlinks, ?_⟩
  · intro m hm
    have hm' := hmem m.mark (hmarks.subset (List.mem_map_of_mem hm))
    obtain ⟨e, he, hb, hspan⟩ := exists_of_mem_links hm'
    have horigin : e.span = m.original := hspan
    exact ⟨horigin ▸ mem_branches_of_has he hb, e, he, hb, hspan⟩
  · intro hlength
    have hnodup := nodup_links hp hlength
    exact (originals_perm hp hr).nodup_iff.2 (hnodup.sublist (List.filter_sublist.map _))
  · have hcount := hlinks.countP_eq (·.branch = .when)
    rw [List.countP_map, List.countP_filter, List.countP_filter] at hcount
    rw [(counted_of_rewrite hr).1]
    refine Eq.trans (List.countP_congr fun m _ => ?_) (hcount.trans (List.countP_congr fun o _ => ?_))
    · simp [Mapping.mark, and_comm]
    · cases o.branch <;> simp [Branch.tests]

/-- Two chains, one in a body of the other. -/
def chainsSample : String :=
  "<div><If condition=\x7ba\x7d><p /><If condition=\x7bb\x7d>é</If></If><Else>d</Else></div>"

theorem chainsSample_rewrite : ∃ p q counted, parse "a.jsx" chainsSample = .ok p ∧
    p.rewrite = .ok (q, counted) ∧ counted.chains = 2 := by
  have h : (parse "a.jsx" chainsSample).toOption.any (fun p =>
      p.rewrite.toOption.any fun r => r.2.chains = 2) = true := by
    decide +kernel
  obtain ⟨p, hp, h⟩ := exists_ok_of_any h
  obtain ⟨r, hr, hchains⟩ := exists_ok_of_any h
  exact ⟨p, r.1, r.2, hp, hr, of_decide_eq_true hchains⟩

theorem formatWithMap_of_rewrite_chains : ∃ p q counted, parse "a.jsx" chainsSample = .ok p ∧
    p.rewrite = .ok (q, counted) ∧ q.formatWithMap.2.Pairwise Mapping.Settles ∧
    ((q.formatWithMap.2.filter (·.kind = .conditional)).map (·.original)).Nodup ∧
    q.formatWithMap.2.countP (fun m => m.kind = .conditional ∧ m.branch = .when) = 2 := by
  obtain ⟨p, q, counted, hp, hr, hchains⟩ := chainsSample_rewrite
  obtain ⟨-, hsettles, -, hnodup, -, hcount⟩ := formatWithMap_of_rewrite hp hr
  exact ⟨p, q, counted, hp, hr, hsettles, hnodup (by decide), hcount.trans hchains⟩

/-- Beyond the bound two branches can have one place, and the conditionals they become lead to it
both. -/
theorem formatWithMap_of_rewrite_distant : ∃ p q counted,
    parse "a.jsx" (String.ofList (distantText (UInt32.size - 17))) = .ok p ∧
      p.rewrite = .ok (q, counted) ∧
      ¬ ((q.formatWithMap.2.filter (·.kind = .conditional)).map (·.original)).Nodup := by
  have hn : UInt32.size - 17 + 17 = UInt32.size := by decide
  generalize UInt32.size - 17 = n at hn
  obtain ⟨e, f, s, t, u, comments, he, hf, hp⟩ := exists_parse_distant hn "a.jsx"
  obtain ⟨k, e', hw, -⟩ := he.tower.walks (d := 0) fun _ => admits_of_le_two
  obtain ⟨l, f', hw', -⟩ := hf.tower.walks (d := 0) fun _ => admits_of_le_two
  have hunary : Rewrite.Walks 0 (.unary .not (.element e) s) k (.unary .not e' s) := .unary hw
  have hr := rewrite_pair hunary hw' "a.jsx" t u comments
  refine ⟨_, _, _, hp, hr, fun hnodup => ?_⟩
  have horigins := (originals_perm hp hr).nodup_iff.1 hnodup
  obtain ⟨_, _, _, rfl⟩ := he
  obtain ⟨_, _, _, rfl⟩ := hf
  simp [links, roots, Statement.expr?, TreeNode.live_eq, TreeNode.parts, List.filterMap_cons,
    TreeNode.link?, Element.liveAttrs, Element.branch?, Branch.ofTag?, Branch.tests,
    Element.find?, conditionName] at horigins

end Program
end BranchMarkup
