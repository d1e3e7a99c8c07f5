import Mathlib.Data.List.TakeWhile
import BranchMarkup.Disk.Tree
/-! How a tree of files changes under the steps of a disk: directories stay directories and files
stay files, so a path that leads somewhere keeps leading there. -/
namespace BranchMarkup
namespace FileTree

/-! Nodes -/

theorem lookup_filter_ne {nodes : List (Location × Node)} {k l : Location} :
    (nodes.filter (·.1 ≠ k)).lookup l = if l = k then none else nodes.lookup l := by
  induction nodes with
  | nil => simp
  | cons node nodes ih =>
    obtain ⟨m, n⟩ := node
    by_cases hm : m = k
    · rw [List.filter_cons_of_neg (by simpa using hm), ih, List.lookup_cons]
      split
      · rfl
      · next hl =>
        have hlm : (l == m) = false := by simpa [hm] using hl
        rw [hlm]
    · rw [List.filter_cons_of_pos (by simpa using hm), List.lookup_cons, List.lookup_cons, ih]
      by_cases hl : l = m
      · simp [hl, hm]
      · have hlm : (l == m) = false := by simpa using hl
        rw [hlm]

@[simp] theorem node?_root (t : FileTree) : t.node? [] = some .directory := rfl

theorem node?_put {t : FileTree} {k : Location} (hk : k ≠ []) (n : Node) (l : Location) :
    (t.put k n).node? l = if l = k then some n else t.node? l := by
  cases l with
  | nil => simp [hk.symm]
  | cons name l =>
    simp only [node?, put, List.lookup_append, lookup_filter_ne]
    split
    · next hl => simp [hl]
    · next hl =>
      have hlk : ((name :: l) == k) = false := by simpa using hl
      simp [List.lookup_cons, hlk]

theorem node?_put_self {t : FileTree} {k : Location} (hk : k ≠ []) (n : Node) :
    (t.put k n).node? k = some n := by
  rw [node?_put hk, if_pos rfl]

/-- What stood at a place of `t` still stands there in `u`: a directory, or a file whose content may
be another. -/
structure Grows (t u : FileTree) : Prop where
  start_eq : u.start = t.start
  directory : ∀ l, t.node? l = some .directory → u.node? l = some .directory
  file : ∀ l c, t.node? l = some (.file c) → ∃ c', u.node? l = some (.file c')

namespace Grows

variable {t u v : FileTree}

theorem refl (t : FileTree) : t.Grows t := ⟨rfl, fun _ h => h, fun _ c h => ⟨c, h⟩⟩

theorem trans (h : t.Grows u) (h' : u.Grows v) : t.Grows v where
  start_eq := h'.start_eq.trans h.start_eq
  directory l hl := h'.directory l (h.directory l hl)
  file l c hl := by
    obtain ⟨c', hc'⟩ := h.file l c hl
    exact h'.file l c' hc'

theorem isDirectory (h : t.Grows u) {l : Location} (hl : t.isDirectory l = true) :
    u.isDirectory l = true := by
  simp only [FileTree.isDirectory, decide_eq_true_eq] at hl ⊢
  exact h.directory l hl

theorem isSome (h : t.Grows u) {l : Location} (hl : (t.node? l).isSome = true) :
    (u.node? l).isSome = true := by
  cases hn : t.node? l with
  | none => simp [hn] at hl
  | some n =>
    cases n with
    | directory => simp [h.directory l hn]
    | file c =>
      obtain ⟨c', hc'⟩ := h.file l c hn
      simp [hc']

theorem not_isDirectory (h : t.Grows u) {l : Location} {c : Option String}
    (hl : t.node? l = some (.file c)) : u.isDirectory l = false := by
  obtain ⟨c', hc'⟩ := h.file l c hl
  simp [FileTree.isDirectory, hc']

theorem put_directory {k : Location} (hk : t.node? k = none) : t.Grows (t.put k .directory) := by
  have hroot : k ≠ [] := by
    rintro rfl
    simp at hk
  refine ⟨rfl, fun l hl => ?_, fun l c hl => ⟨c, ?_⟩⟩ <;> rw [node?_put hroot]
  · split
    · rfl
    · exact hl
  · rw [if_neg, hl]
    rintro rfl
    rw [hk] at hl
    cases hl

theorem put_file {k : Location} (hk : t.isDirectory k = false) (s : Option String) :
    t.Grows (t.put k (.file s)) := by
  have hroot : k ≠ [] := by
    rintro rfl
    simp [FileTree.isDirectory] at hk
  refine ⟨rfl, fun l hl => ?_, fun l c hl => ?_⟩ <;> rw [node?_put hroot]
  · rw [if_neg, hl]
    rintro rfl
    simp [FileTree.isDirectory, hl] at hk
  · split
    · exact ⟨s, rfl⟩
    · exact ⟨c, hl⟩

end Grows

/-! Where a path leads -/

def move (l : Location) (s : Path.Segment) : Location :=
  if Path.Segment.isBlank s then l
  else if s = ['.', '.'] then l.dropLast
  else l ++ [String.ofList s]

/-- Where a path leads if it leads anywhere. -/
def spot (t : FileTree) (p : Path) : Location :=
  (p.text.toList.splitOn '/').foldl move (t.base p)

theorem Grows.base_eq {t u : FileTree} (h : t.Grows u) (p : Path) : u.base p = t.base p := by
  unfold base
  rw [h.start_eq]

theorem Grows.spot_eq {t u : FileTree} (h : t.Grows u) (p : Path) : u.spot p = t.spot p := by
  unfold spot
  rw [h.base_eq]

section
variable {t u : FileTree} {l l' : Location} {s : Path.Segment} {ss : List Path.Segment}

theorem follow_cons_eq_ok : t.follow l (s :: ss) = .ok l' ↔
    t.isDirectory l = true ∧ t.follow (move l s) ss = .ok l' ∧
      (Path.Segment.isBlank s = true ∨ s = ['.', '.'] ∨
        isTooLong s = false ∧ (t.node? (move l s)).isSome = true) := by
  rw [follow]
  unfold move
  by_cases hl : t.isDirectory l = true
  · by_cases hblank : Path.Segment.isBlank s = true
    · simp [hl, hblank]
    · by_cases hup : s = ['.', '.']
      · subst hup
        simp [hl, hblank]
      · cases hlong : isTooLong s <;>
          by_cases hn : (t.node? (l ++ [String.ofList s])).isSome = true <;>
            simp [hl, hblank, hup, hn]
  · simp [hl]

theorem follow_eq_ok (h : t.follow l ss = .ok l') : l' = ss.foldl move l := by
  induction ss generalizing l with
  | nil => exact (Except.ok.inj h).symm
  | cons s ss ih => exact ih (follow_cons_eq_ok.1 h).2.1

theorem Grows.follow (hg : t.Grows u) (h : t.follow l ss = .ok l') : u.follow l ss = .ok l' := by
  induction ss generalizing l with
  | nil => exact h
  | cons s ss ih =>
    obtain ⟨hl, hrest, hs⟩ := follow_cons_eq_ok.1 h
    exact follow_cons_eq_ok.2 ⟨hg.isDirectory hl, ih hrest,
      hs.imp_right (Or.imp_right (And.imp_right hg.isSome))⟩

theorem follow_append {ss' : List Path.Segment} :
    t.follow l (ss ++ ss') = (t.follow l ss).bind fun l' => t.follow l' ss' := by
  induction ss generalizing l with
  | nil => rfl
  | cons s ss ih =>
    rw [List.cons_append, FileTree.follow, FileTree.follow]
    repeat' split
    all_goals first
      | rfl
      | exact ih

theorem Grows.locate (hg : t.Grows u) {p : Path} (h : t.locate p = .ok l) : u.locate p = .ok l := by
  unfold FileTree.locate at h ⊢
  split at h
  · cases h
  · rw [hg.base_eq]
    exact hg.follow h

theorem locate_eq_ok {p : Path} (h : t.locate p = .ok l) : l = t.spot p := by
  unfold locate at h
  split at h
  · cases h
  · exact follow_eq_ok h

end

/-! Where something can be made -/

/-- A name that a directory can hold. -/
def IsName (name : String) : Prop :=
  '/' ∉ name.toList ∧ Path.Segment.isBlank name.toList = false ∧ name.toList ≠ ['.', '.']

instance (name : String) : Decidable (IsName name) := inferInstanceAs (Decidable (_ ∧ _ ∧ _))

theorem move_eq_append {l : Location} {s : Path.Segment} (hs : Path.Segment.isBlank s = false)
    (hup : s ≠ ['.', '.']) : move l s = l ++ [String.ofList s] := by
  unfold move
  rw [if_neg (by simp [hs]), if_neg hup]

theorem move_name {l : Location} {name : String} (h : IsName name) :
    move l name.toList = l ++ [name] := by
  rw [move_eq_append h.2.1 h.2.2, String.ofList_toList]

theorem foldl_move_blanks {ss : List Path.Segment} (h : ∀ s ∈ ss, s = []) (l : Location) :
    ss.foldl move l = l := by
  induction ss with
  | nil => rfl
  | cons s ss ih =>
    rw [List.forall_mem_cons] at h
    rw [List.foldl_cons, h.1]
    exact ih h.2

end FileTree

namespace Path

/-- The segments of a path without the slashes at its end. -/
def kept (p : Path) : List Segment := ((p.text.toList.splitOn '/').reverse.dropWhile (· = [])).reverse

theorem splitOn_eq_kept (p : Path) :
    ∃ blanks, p.text.toList.splitOn '/' = p.kept ++ blanks ∧ ∀ s ∈ blanks, s = [] := by
  refine ⟨((p.text.toList.splitOn '/').reverse.takeWhile (· = [])).reverse, ?_, ?_⟩
  · rw [kept, ← List.reverse_append, List.takeWhile_append_dropWhile, List.reverse_reverse]
  · intro s hs
    simpa using List.mem_takeWhile_imp (List.mem_reverse.1 hs)

theorem last_kept_ne {p : Path} {before : List Segment} {last : Segment}
    (h : p.kept = before ++ [last]) : last ≠ [] := by
  unfold kept at h
  have hdrop : (p.text.toList.splitOn '/').reverse.dropWhile (· = []) = last :: before.reverse := by
    rw [← List.reverse_inj, h]
    simp
  intro hlast
  have hhead := List.head?_dropWhile_not (p := (· = ([] : Segment)))
    (p.text.toList.splitOn '/').reverse
  rw [hdrop] at hhead
  simp [hlast] at hhead

end Path

namespace FileTree

/-- What `place` finds at the end of a path, by that end. -/
inductive Places (t : FileTree) (p : Path) : Place → Prop where
  | root : p.kept = [] → Places t p .unnamed
  | dots {before last l} : p.kept = before ++ [last] → t.follow (t.base p) before = .ok l →
      t.isDirectory l = true → (last = ['.'] ∨ last = ['.', '.']) → Places t p .unnamed
  | named {before last l} : p.kept = before ++ [last] → t.follow (t.base p) before = .ok l →
      t.isDirectory l = true → last ≠ ['.'] → last ≠ ['.', '.'] → isTooLong last = false →
      Places t p (.named (l ++ [String.ofList last])
        (decide (p.kept.length < (p.text.toList.splitOn '/').length)))

theorem places_of_place {t : FileTree} {p : Path} {x : Place} (h : t.place p = .ok x) :
    pathFault? p = none ∧ t.Places p x := by
  have hkept : ((p.text.toList.splitOn '/').reverse.dropWhile (· = [])).reverse = p.kept := rfl
  unfold place at h
  cases hf : pathFault? p with
  | some f => simp [hf, throw, throwThe, MonadExceptOf.throw, bind, Except.bind] at h
  | none =>
    refine ⟨rfl, ?_⟩
    simp only [hf, hkept] at h
    rcases List.eq_nil_or_concat p.kept with hk | ⟨before, last, hk⟩
    · simp only [hk, List.getLast?_nil, pure, Except.pure, Except.ok.injEq] at h
      exact h ▸ .root hk
    · rw [List.concat_eq_append] at hk
      have hlast : p.kept.getLast? = some last := by simp [hk]
      have hbefore : p.kept.dropLast = before := by simp [hk]
      simp only [hlast, hbefore] at h
      cases hl : t.follow (t.base p) before with
      | error f => simp [hl, bind, Except.bind] at h
      | ok l =>
        cases hd : t.isDirectory l with
        | false => simp [hl, hd, throw, throwThe, MonadExceptOf.throw, bind, Except.bind] at h
        | true =>
          by_cases hdots : last = ['.'] ∨ last = ['.', '.']
          · simp [hl, hd, hdots, bind, Except.bind, pure, Except.pure] at h
            exact h ▸ .dots hk hl hd hdots
          · cases hlong : isTooLong last with
            | true =>
              simp [hl, hd, hdots, hlong, throw, throwThe, MonadExceptOf.throw, bind, Except.bind] at h
            | false =>
              simp [hl, hd, hdots, hlong, bind, Except.bind, pure, Except.pure] at h
              rw [not_or] at hdots
              exact h ▸ .named hk hl hd hdots.1 hdots.2 hlong

theorem Places.place_eq {t : FileTree} {p : Path} {x : Place} (hf : pathFault? p = none)
    (h : t.Places p x) : t.place p = .ok x := by
  have hkept : ((p.text.toList.splitOn '/').reverse.dropWhile (· = [])).reverse = p.kept := rfl
  unfold place
  simp only [hf, hkept]
  cases h with
  | root hk => simp [hk, pure, Except.pure]
  | dots hk hl hd hdots => 
    rcases hdots with rfl | rfl <;> simp [hk, hl, hd, bind, Except.bind, pure, Except.pure]
  | named hk hl hd hdot hup hlong =>
    simp [hk, hl, hd, hdot, hup, hlong, bind, Except.bind, pure, Except.pure]

theorem Grows.place {t u : FileTree} (hg : t.Grows u) {p : Path} {x : Place}
    (h : t.place p = .ok x) : u.place p = .ok x := by
  obtain ⟨hf, hp⟩ := places_of_place h
  refine Places.place_eq hf ?_
  cases hp with
  | root hk => exact .root hk
  | dots hk hl hd hdots =>
    exact .dots hk (hg.base_eq p ▸ hg.follow hl) (hg.isDirectory hd) hdots
  | named hk hl hd hdot hup hlong =>
    exact .named hk (hg.base_eq p ▸ hg.follow hl) (hg.isDirectory hd) hdot hup hlong

theorem place_eq_named {t : FileTree} {p : Path} {l : Location} {slash : Bool}
    (h : t.place p = .ok (.named l slash)) :
    l = t.spot p ∧ ∃ d name, IsName name ∧ l = d ++ [name] ∧ t.isDirectory d = true := by
  obtain ⟨hf, hp⟩ := places_of_place h
  cases hp with
  | @named before last d hk hl hd hdot hup hlong =>
    obtain ⟨blanks, hsplit, hblanks⟩ := p.splitOn_eq_kept
    have hmem : last ∈ p.text.toList.splitOn '/' := by simp [hsplit, hk]
    have hname : IsName (String.ofList last) := by
      have hne := Path.last_kept_ne hk
      simpa [IsName, Path.Segment.isBlank, hne, hdot, hup] using Text.not_mem_of_mem_splitOn _ hmem
    refine ⟨?_, d, _, hname, rfl, hd⟩
    have hmove := move_name (l := d) hname
    rw [String.toList_ofList] at hmove
    rw [spot, hsplit, List.foldl_append, foldl_move_blanks hblanks, hk, List.foldl_append,
      ← follow_eq_ok hl, List.foldl_cons, List.foldl_nil, hmove]

theorem not_isDirectory_of_readText {t : FileTree} {p : Path} {s : String}
    (h : t.readText p = .ok s) : t.isDirectory (t.spot p) = false := by
  unfold readText at h
  cases hl : t.locate p with
  | error fault => simp [hl, bind, Except.bind] at h
  | ok l =>
    rw [← locate_eq_ok hl]
    cases hn : t.node? l with
    | none => simp [isDirectory, hn]
    | some n =>
      cases n with
      | directory =>
        simp [hl, hn, bind, Except.bind, throw, throwThe, MonadExceptOf.throw] at h
      | file c => simp [isDirectory, hn]

/-! What is made -/

theorem makeDirectory_eq_ok {t t' : FileTree} {p : Path} :
    t.makeDirectory p = .ok t' ↔ ∃ l slash, t.place p = .ok (.named l slash) ∧ t.node? l = none ∧
      t' = t.put l .directory := by
  unfold makeDirectory
  cases t.place p with
  | error f => simp [bind, Except.bind]
  | ok x =>
    cases x with
    | unnamed => simp [bind, Except.bind, throw, throwThe, MonadExceptOf.throw]
    | named l slash =>
      cases hn : t.node? l with
      | none => simp [bind, Except.bind, pure, Except.pure, hn, eq_comm]
      | some n => simp [bind, Except.bind, throw, throwThe, MonadExceptOf.throw, hn]

theorem writeText_eq_ok {t t' : FileTree} {p : Path} {s : String} :
    t.writeText p s = .ok t' ↔ ∃ l, t.place p = .ok (.named l false) ∧ t.isDirectory l = false ∧
      t' = t.put l (.file (some s)) := by
  unfold writeText
  cases t.place p with
  | error f => simp [bind, Except.bind]
  | ok x =>
    cases x with
    | unnamed => simp [bind, Except.bind, throw, throwThe, MonadExceptOf.throw]
    | named l slash =>
      cases slash with
      | true => simp [bind, Except.bind, throw, throwThe, MonadExceptOf.throw]
      | false =>
        cases hd : t.isDirectory l with
        | true =>
          simp only [bind, Except.bind, throw, throwThe, MonadExceptOf.throw, hd, Bool.or_true,
            if_true, reduceCtorEq, false_iff, not_exists, not_and]
          rintro _ ⟨⟩ hl
          exact absurd (hd.symm.trans hl) Bool.noConfusion
        | false =>
          simp only [bind, Except.bind, pure, Except.pure, hd, Bool.or_false, Bool.false_eq_true,
            if_false, Except.ok.injEq]
          constructor
          · rintro rfl
            exact ⟨l, rfl, hd, rfl⟩
          · rintro ⟨_, ⟨⟩, _, rfl⟩
            rfl

theorem kind?_eq_directory {t : FileTree} {p : Path} :
    t.kind? p = some .directory ↔ ∃ l, t.locate p = .ok l ∧ t.isDirectory l = true := by
  unfold kind?
  cases t.locate p with
  | error f => simp
  | ok l =>
    simp only [isDirectory]
    cases hn : t.node? l with
    | none => simp [hn]
    | some n => cases n <;> simp [hn]

theorem Grows.kind?_eq_directory {t u : FileTree} (hg : t.Grows u) {p : Path}
    (h : t.kind? p = some .directory) : u.kind? p = some .directory := by
  obtain ⟨l, hl, hd⟩ := FileTree.kind?_eq_directory.1 h
  exact FileTree.kind?_eq_directory.2 ⟨l, hg.locate hl, hg.isDirectory hd⟩

theorem follow_blanks {t : FileTree} {l : Location} (hl : t.isDirectory l = true)
    {blanks : List Path.Segment} (h : ∀ s ∈ blanks, s = []) : t.follow l blanks = .ok l := by
  induction blanks with
  | nil => rfl
  | cons s blanks ih =>
    rw [List.forall_mem_cons] at h
    rw [h.1]
    exact follow_cons_eq_ok.2 ⟨hl, ih h.2, .inl rfl⟩

theorem locate_eq_follow {t : FileTree} {p : Path} (hf : pathFault? p = none) :
    t.locate p = t.follow (t.base p) (p.text.toList.splitOn '/') := by
  unfold locate
  rw [hf]

theorem kind?_put_directory {t : FileTree} {p : Path} {l : Location} {slash : Bool}
    (h : t.place p = .ok (.named l slash)) (hl : t.node? l = none) :
    (t.put l .directory).kind? p = some .directory := by
  have hg := Grows.put_directory hl
  have hroot : l ≠ [] := by
    rintro rfl
    simp at hl
  have hdir : (t.put l .directory).isDirectory l = true := by simp [isDirectory, node?_put_self hroot]
  obtain ⟨hf, hp⟩ := places_of_place h
  cases hp with
  | @named before last d hk hb hd hdot hup hlong =>
    obtain ⟨blanks, hsplit, hblanks⟩ := p.splitOn_eq_kept
    have hblank : Path.Segment.isBlank last = false := by
      simp [Path.Segment.isBlank, Path.last_kept_ne hk, hdot]
    refine kind?_eq_directory.2 ⟨_, ?_, hdir⟩
    rw [locate_eq_follow hf, hsplit, hk, List.append_assoc, follow_append, hg.base_eq, hg.follow hb]
    refine follow_cons_eq_ok.2 ⟨hg.isDirectory hd, ?_, .inr (.inr ⟨hlong, ?_⟩)⟩
    · rw [move_eq_append hblank hup]
      exact follow_blanks hdir hblanks
    · rw [move_eq_append hblank hup, node?_put_self hroot]
      rfl

theorem makeDirectory_of_kind? {t : FileTree} {p : Path} (h : t.kind? p = some .directory) :
    t.makeDirectory p = .error .alreadyThere := by
  obtain ⟨l, hl, hd⟩ := kind?_eq_directory.1 h
  have hf : pathFault? p = none := by
    unfold locate at hl
    split at hl
    · cases hl
    · assumption
  rw [locate_eq_follow hf] at hl
  obtain ⟨blanks, hsplit, hblanks⟩ := p.splitOn_eq_kept
  rcases List.eq_nil_or_concat p.kept with hk | ⟨before, last, hk⟩
  · simp [makeDirectory, Places.place_eq hf (.root hk), bind, Except.bind, throw, throwThe,
      MonadExceptOf.throw]
  · rw [List.concat_eq_append] at hk
    rw [hsplit, hk, List.append_assoc, follow_append] at hl
    cases hb : t.follow (t.base p) before with
    | error f => simp [hb, Except.bind] at hl
    | ok d =>
      rw [hb] at hl
      obtain ⟨hd, -, hlast⟩ := follow_cons_eq_ok.1 hl
      by_cases hdots : last = ['.'] ∨ last = ['.', '.']
      · simp [makeDirectory, Places.place_eq hf (.dots hk hb hd hdots), bind, Except.bind, throw,
          throwThe, MonadExceptOf.throw]
      · rw [not_or] at hdots
        have hblank : Path.Segment.isBlank last = false := by
          simp [Path.Segment.isBlank, Path.last_kept_ne hk, hdots.1]
        obtain ⟨hlong, hn⟩ := (hlast.resolve_left (by simp [hblank])).resolve_left hdots.2
        rw [move_eq_append hblank hdots.2] at hn
        simp [makeDirectory, Places.place_eq hf (.named hk hb hd hdots.1 hdots.2 hlong), hn, bind,
          Except.bind, throw, throwThe, MonadExceptOf.throw]

end FileTree
end BranchMarkup
