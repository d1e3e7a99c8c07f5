import BranchMarkup.Proofs.Printing.Spells
import BranchMarkup.Proofs.Reading.Frame
/-! Comments that a reader sets aside are whole, and wherever they are printed a reader passes over
them again. -/
namespace BranchMarkup

open Scanner (Trivia IsComment)

namespace Scanner

theorem last_of_blockBody {body : List Char}
    (h : blockBody body = ⟨body, [], true⟩) : ∃ u, body = u ++ ['/'] := by
  fun_induction blockBody body with
  | case1 r =>
    cases h
    exact ⟨['*'], rfl⟩
  | case2 c r hne b ih =>
    simp only [Comment.mk.injEq, List.cons.injEq, true_and] at h
    obtain ⟨u, hu⟩ := ih (by cases hb : blockBody r; simp_all [b])
    exact ⟨c :: u, by simp [hu]⟩
  | case3 => cases h

theorem last_of_isComment {c : List Char} (h : IsComment c) : ∃ u d, c = u ++ [d] ∧ d ≠ '\n' := by
  cases h with
  | @line body hbody =>
    rcases List.eq_nil_or_concat body with rfl | ⟨u, d, rfl⟩
    · exact ⟨['/'], '/', rfl, by decide⟩
    · exact ⟨'/' :: '/' :: u, d, by simp, hbody d (by simp)⟩
  | @block body hbody =>
    obtain ⟨u, hu⟩ := last_of_blockBody hbody
    exact ⟨'/' :: '*' :: u, '/', by simp [hu], by decide⟩

def CommentsWhole (s : Scanner) : Prop := ∀ c ∈ s.comments, IsComment c.val.toList

/-- From one scanner to a later one: what comments there are stays whole if no fault is found. -/
structure Passes (s t : Scanner) : Prop where
  faults : s.faults <+: t.faults
  comments : t.faults = [] → s.CommentsWhole → t.CommentsWhole

theorem Passes.of_eq {s t : Scanner} (hfaults : s.faults <+: t.faults)
    (hcomments : t.comments = s.comments) : Passes s t := by
  refine ⟨hfaults, fun _ h => ?_⟩
  unfold CommentsWhole
  rwa [hcomments]

theorem Passes.trans {s t u : Scanner} (h : Passes s t) (h' : Passes t u) : Passes s u := by
  refine ⟨h.faults.trans h'.faults, fun hu hs => h'.comments hu (h.comments ?_ hs)⟩
  exact List.prefix_nil.1 (hu ▸ h'.faults)

theorem passes_setAside {s : Scanner} {c : Comment} (h : comment? s.rest = some c) :
    Passes s (s.setAside c) := by
  constructor
  · unfold setAside
    dsimp only
    split
    · exact List.prefix_rfl
    · exact List.prefix_append ..
  · intro hfaults hs d hd
    have hclosed : c.closed = true := by
      by_contra hopen
      simp [setAside, hopen] at hfaults
    rcases List.mem_append.1 hd with hd | hd
    · exact hs d hd
    · obtain rfl := List.mem_singleton.1 hd
      simpa using isComment_of_comment? h hclosed

theorem passes_skipTrivia (s : Scanner) : Passes s s.skipTrivia := by
  fun_induction skipTrivia s with
  | case1 s h => exact .of_eq List.prefix_rfl rfl
  | case2 s c h ih =>
    have hspace : Passes s s.skipSpace := .of_eq List.prefix_rfl rfl
    exact (hspace.trans (passes_setAside h)).trans ih

theorem passes_next (mode : Mode) (s : Scanner) : Passes s (s.next mode).2 := by
  have token (mode : Mode) : Passes s (s.nextToken mode).2 := by
    fun_induction nextToken mode s with
    | case1 s | case2 s | case3 s | case6 s =>
      exact s.passes_skipTrivia.trans (.of_eq List.prefix_rfl rfl)
    | case4 s | case5 s =>
      exact s.passes_skipTrivia.trans (.of_eq (List.prefix_append ..) rfl)
    | case7 s c r h t hc hd hq hsym u ih =>
      have hfault (f : Spanned Fault) : Passes t { u with faults := t.faults ++ [f] } :=
        .of_eq (List.prefix_append ..) rfl
      exact (s.passes_skipTrivia.trans (hfault _)).trans ih
  cases mode with
  | script | tag => exact token _
  | child =>
    simp only [next]
    rw [nextChild]
    split <;> exact .of_eq List.prefix_rfl rfl

end Scanner

namespace Parse

/-- Comments stay whole through all of reading. -/
def Frame.comments : Frame where
  rel p q := Scanner.Passes p.scanner q.scanner
  refl p := .of_eq List.prefix_rfl rfl
  trans h h' := h.trans h'
  bump p mode := by
    unfold Parser.bump
    split
    · exact .of_eq List.prefix_rfl rfl
    · exact Scanner.passes_next ..
  fault p f span := .of_eq List.prefix_rfl rfl
  nested p q _ h := h

end Parse

/-! Printing comments -/

namespace Print

theorem trivia_heldComment {c : String} (h : IsComment c.toList) :
    Trivia [c] (heldComment c).toList := by
  unfold heldComment isLineComment
  rw [← String.ofList_toList (s := c)]
  generalize c.toList = cs at h
  cases h with
  | line hbody => simpa using Trivia.line hbody .nil
  | @block body hbody => simpa using Trivia.block hbody .nil

theorem trivia_line {c : String} (h : IsComment c.toList) : Trivia [c] (c.toList ++ ['\n']) := by
  rw [← String.ofList_toList (s := c), String.toList_ofList]
  generalize c.toList = cs at h
  cases h with
  | line hbody => exact .line hbody .nil
  | block hbody => exact .block hbody (.space rfl .nil)

theorem trivia_of_writesHeld {cs : List String} {t : List Char} (h : WritesHeld cs t) :
    Trivia cs t := by
  obtain ⟨h, rfl⟩ := h
  cases cs with
  | nil => exact .nil
  | cons c cs =>
    rw [List.forall_mem_cons] at h
    have hfold {ks : List String} (s : String) (hs : Trivia ks s.toList) :
        Trivia (ks ++ cs) (cs.foldl (fun s d =>
          (if endsLine s then s else s ++ " ") ++ heldComment d) s).toList := by
      obtain ⟨-, h⟩ := h
      induction cs generalizing s ks with
      | nil => rwa [List.append_nil]
      | cons d ds ih =>
        rw [List.forall_mem_cons] at h
        have hblank : Trivia ks (if endsLine s then s else s ++ " ").toList := by
          split
          · exact hs
          · rw [String.toList_append, ← List.append_nil ks]
            exact hs.append (.space rfl .nil)
        have hnext := hblank.append (trivia_heldComment h.1)
        rw [← String.toList_append] at hnext
        have := ih _ hnext h.2
        rwa [List.append_assoc] at this
    exact hfold _ (trivia_heldComment h.1)

theorem trivia_of_writesLines {cs : List String} {t : List Char} (h : WritesLines cs t) :
    Trivia cs t ∧ EndsOnce t := by
  obtain ⟨h, rfl⟩ := h
  have hlines : (linesText cs).toList = cs.flatMap fun c => c.toList ++ ['\n'] := by
    simp [linesText, String.toList_join, List.flatMap_map]
  rw [hlines]
  clear hlines
  induction cs with
  | nil => exact ⟨.nil, .inl rfl⟩
  | cons c cs ih =>
    rw [List.forall_mem_cons] at h
    rw [List.flatMap_cons]
    obtain ⟨htrivia, hends⟩ := ih h.2
    obtain ⟨u, d, hc, hd⟩ := Scanner.last_of_isComment h.1
    have hline : EndsOnce (c.toList ++ ['\n']) := .inr ⟨u, d, by simp [hc], hd⟩
    exact ⟨(trivia_line h.1).append htrivia, hline.append hends⟩

end Print

/-! What a run takes -/

namespace Piece

def picks : Piece → Span → Bool
  | heldComments container, s => container.encloses s
  | leadingComments start stop, s => start ≤ s.start && s.start < stop
  | trailingComments start, s => start ≤ s.start
  | text _, _ | opens, _ | closes .., _ => false

def groups (cs : List (Spanned String)) (p : Piece) : List (List String) :=
  if p.isSlot then [(cs.filter (p.picks ·.span)).map (·.val)] else []

end Piece

namespace Print

/-- The comments for each place, as a run over the pieces finds them there. -/
def taken : Print → List Piece → List (List String)
  | _, [] => []
  | p, piece :: ps => piece.groups p.comments ++ (p.add piece).taken ps

theorem comments_add (p : Print) (piece : Piece) :
    (p.add piece).comments = p.comments.filter fun c => !piece.picks c.span := by
  cases piece with
  | heldComments | leadingComments | trailingComments =>
    simp only [add, takeComments, List.partition_eq_filter_filter]
    rfl
  | text | opens => exact (List.filter_eq_self.2 fun _ _ => rfl).symm
  | closes kind provenance =>
    refine Eq.trans ?_ (List.filter_eq_self.2 fun _ _ => rfl).symm
    rw [add]
    split <;> rfl

theorem writes_add {p : Print} (hp : ∀ c ∈ p.comments, IsComment c.val.toList) (piece : Piece) :
    ∃ u, piece.Writes (piece.groups p.comments) u ∧
      (p.add piece).text.toList = p.text.toList ++ u := by
  have hwhole : ∀ c ∈ (p.comments.filter (piece.picks ·.span)).map (·.val), IsComment c.toList := by
    intro c hc
    obtain ⟨d, hd, rfl⟩ := List.mem_map.1 hc
    exact hp d (List.mem_filter.1 hd).1
  cases piece with
  | text s => exact ⟨_, ⟨rfl, rfl⟩, String.toList_append ..⟩
  | heldComments | leadingComments | trailingComments =>
    refine ⟨_, ⟨_, rfl, hwhole, rfl⟩, ?_⟩
    simp only [add, takeComments, List.partition_eq_filter_filter, String.toList_append]
    rfl
  | opens => exact ⟨[], ⟨rfl, rfl⟩, (List.append_nil _).symm⟩
  | closes kind provenance =>
    refine ⟨[], ⟨rfl, rfl⟩, ?_⟩
    rw [add]
    split <;> exact (List.append_nil _).symm

/-- What a run over pieces adds to the text is what they spell with the comments that are taken. -/
theorem spells_addAll (ps : List Piece) {p : Print}
    (hp : ∀ c ∈ p.comments, IsComment c.val.toList) :
    ∃ t, Spells ps (p.taken ps) t ∧ (p.addAll ps).text.toList = p.text.toList ++ t := by
  induction ps generalizing p with
  | nil => exact ⟨[], ⟨rfl, rfl⟩, (List.append_nil _).symm⟩
  | cons piece ps ih =>
    obtain ⟨u, hu, htext⟩ := writes_add hp piece
    have hcomments : ∀ c ∈ (p.add piece).comments, IsComment c.val.toList := by
      rw [comments_add]
      exact fun c hc => hp c (List.mem_filter.1 hc).1
    obtain ⟨v, hv, htext'⟩ := ih hcomments
    refine ⟨u ++ v, ⟨u, v, _, _, hu, hv, rfl, rfl⟩, ?_⟩
    rw [addAll, List.foldl_cons, ← addAll, htext', htext, List.append_assoc]

end Print
end BranchMarkup
