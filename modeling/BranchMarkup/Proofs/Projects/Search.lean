import BranchMarkup.Proofs.Projects.Repeats
/-! Which files a search for sources finds: it depends on the directories that are there and on the
places at which sources are looked for, and on nothing else that a tree holds. -/
namespace BranchMarkup

namespace Path

open FileTree

variable {p q : Path} {name : String}

/-! A name joined to a path -/

theorem isAbsolute_iff : p.isAbsolute = true ↔ p.text.toList.head? = some '/' := by
  unfold isAbsolute split
  cases hcs : p.text.toList with
  | nil => simp
  | cons c cs =>
    obtain ⟨first, rest, hsplit⟩ := List.exists_cons_of_ne_nil (List.splitOn_ne_nil '/' cs)
    rw [List.splitOn_cons_eq_if_modifyHead, hsplit]
    by_cases hc : c = '/'
    · simp [hc]
    · have : (c == '/') = false := by simpa using hc
      simp only [this, List.modifyHead_cons, List.head?_cons, Option.some.injEq, hc, iff_false,
        Bool.false_eq_true, if_false, List.cons_ne_nil, decide_false, Bool.false_and,
        decide_eq_true_eq]
      split <;> simp

theorem splitOn_name (h : IsName name) : name.toList.splitOn '/' = [name.toList] := by
  have := List.splitOn_intercalate '/' (List.forall_mem_singleton.2 h.1) (List.cons_ne_nil _ _)
  rwa [List.intercalate_singleton] at this

theorem isAbsolute_name (h : IsName name) : (⟨name⟩ : Path).isAbsolute = false := by
  rw [← Bool.not_eq_true, isAbsolute_iff]
  exact fun hhead => h.1 (List.mem_of_mem_head? hhead)

theorem joinText_toList (h : IsName name) : (p.joinText name).text.toList =
    if p.text = "" || p.text.toList.getLast? = some '/' then p.text.toList ++ name.toList
    else p.text.toList ++ '/' :: name.toList := by
  unfold joinText join
  rw [isAbsolute_name h, if_neg Bool.false_ne_true]
  split <;> simp

theorem splitOn_joinText (hp : p.text ≠ "") (h : IsName name) :
    ∃ body, (p.text.toList.splitOn '/' = body ∨ p.text.toList.splitOn '/' = body ++ [[]]) ∧
      (p.joinText name).text.toList.splitOn '/' = body ++ [name.toList] := by
  rw [joinText_toList h]
  split
  · next hend =>
    have hlast : p.text.toList.getLast? = some '/' := by simpa [hp] using hend
    obtain ⟨cs, hcs⟩ := List.getLast?_eq_some_iff.1 hlast
    refine ⟨cs.splitOn '/', .inr ?_, ?_⟩
    · rw [hcs, List.splitOn_append_cons_self]
      rfl
    · rw [hcs, List.append_assoc, List.singleton_append, List.splitOn_append_cons_self, splitOn_name h]
  · exact ⟨_, .inl rfl, by rw [List.splitOn_append_cons_self, splitOn_name h]⟩

theorem isAbsolute_joinText (hp : p.text ≠ "") (h : IsName name) :
    (p.joinText name).isAbsolute = p.isAbsolute := by
  have hne : p.text.toList ≠ [] := by simpa using hp
  rw [Bool.eq_iff_iff, isAbsolute_iff, isAbsolute_iff, joinText_toList h]
  obtain ⟨c, cs, hcs⟩ := List.exists_cons_of_ne_nil hne
  rw [hcs]
  split <;> rfl

theorem fileName?_of_splitOn {body : List Segment}
    (hsplit : p.text.toList.splitOn '/' = body ++ [name.toList]) (h : IsName name) :
    p.fileName? = some name := by
  have hstep : Segment.step? name.toList = some (.name name.toList) := by
    simp [Segment.step?, h.2.1, h.2.2]
  have hlast : p.steps.getLast? = some (.name name.toList) := by
    unfold steps split
    rw [hsplit]
    cases body with
    | nil =>
      have hblank := h.2.1
      simp only [Segment.isBlank, Bool.or_eq_false_iff, decide_eq_false_iff_not] at hblank
      simp [hblank, hstep]
    | cons first body =>
      simp only [List.cons_append]
      split
      · simp [hstep]
      · split <;> simp [hstep]
  simp [fileName?, hlast]

theorem fileName?_joinText (hp : p.text ≠ "") (h : IsName name) :
    (p.joinText name).fileName? = some name := by
  obtain ⟨body, -, hjoin⟩ := splitOn_joinText hp h
  exact fileName?_of_splitOn hjoin h

theorem accepts_joinText (hp : p.text ≠ "") (h : IsName name) (project : Project) :
    project.accepts (p.joinText name) = project.accepts ⟨name⟩ := by
  have hname : (⟨name⟩ : Path).fileName? = some name :=
    @fileName?_of_splitOn ⟨name⟩ name [] (splitOn_name h) h
  unfold Project.accepts extension?
  rw [fileName?_joinText hp h, hname]

end Path

namespace FileTree

/-! Nodes in directories -/

def WellFormed (t : FileTree) : Prop :=
  ∀ x ∈ t.nodes, ∃ d name, x.1 = d ++ [name] ∧ IsName name ∧ t.isDirectory d = true

theorem wellFormed_iff {t : FileTree} : t.WellFormed ↔
    ∀ x ∈ t.nodes, x.1.getLast?.any (IsName ·) = true ∧ t.isDirectory x.1.dropLast = true := by
  refine forall₂_congr fun x _ => ⟨?_, ?_⟩
  · rintro ⟨d, name, heq, hname, hd⟩
    simp [heq, hname, hd]
  · rintro ⟨hname, hd⟩
    obtain ⟨name, hlast, hname⟩ := (Option.any_eq_true ..).1 hname
    obtain ⟨d, heq⟩ := List.getLast?_eq_some_iff.1 hlast
    rw [heq, List.dropLast_concat] at hd
    exact ⟨d, name, heq, of_decide_eq_true hname, hd⟩

instance (t : FileTree) : Decidable t.WellFormed := decidable_of_iff _ wellFormed_iff.symm

section
variable {t u : FileTree} {d : Location} {name : String} {n : Node}
  {steps : List (Location × Node)}

theorem mem_nodes_of_node? (h : t.node? (d ++ [name]) = some n) : (d ++ [name], n) ∈ t.nodes := by
  cases hl : d ++ [name] with
  | nil => simp at hl
  | cons first rest =>
    rw [hl] at h
    obtain ⟨before, after, hsplit, -⟩ := List.lookup_eq_some_iff.1 h
    rw [hsplit]
    exact List.mem_append_right _ List.mem_cons_self

theorem WellFormed.isDirectory (h : t.WellFormed) (hn : (t.node? (d ++ [name])).isSome = true) :
    t.isDirectory d = true := by
  obtain ⟨n, hn⟩ := Option.isSome_iff_exists.1 hn
  obtain ⟨d', name', heq, -, hd⟩ := h _ (mem_nodes_of_node? hn)
  obtain ⟨rfl, -⟩ := List.append_inj' heq rfl
  exact hd

theorem WellFormed.put (h : t.WellFormed) (hname : IsName name) (hd : t.isDirectory d = true)
    (hg : t.Grows (t.put (d ++ [name]) n)) : (t.put (d ++ [name]) n).WellFormed := by
  intro x hx
  rcases List.mem_append.1 hx with hx | hx
  · obtain ⟨d', name', heq, hname', hd'⟩ := h x (List.mem_filter.1 hx).1
    exact ⟨d', name', heq, hname', hg.isDirectory hd'⟩
  · rw [List.mem_singleton.1 hx]
    exact ⟨d, name, rfl, hname, hg.isDirectory hd⟩

theorem Builds.wellFormed (h : t.Builds steps) (ht : t.WellFormed) : (t.puts steps).WellFormed := by
  induction h with
  | nil => exact ht
  | directory hd hname hn _ ih => exact ih (ht.put hname hd (.put_directory hn))
  | file hd hname hn _ ih => exact ih (ht.put hname hd (.put_file hn _))

end

/-! Where a joined path leads -/

section
variable {t u : FileTree} {p : Path} {l : Location} {name : String}

theorem text_ne_of_locate (h : t.locate p = .ok l) : p.text ≠ "" := by
  intro hp
  simp [locate, pathFault?, hp] at h

theorem spot_joinText (hp : p.text ≠ "") (h : IsName name) :
    t.spot (p.joinText name) = t.spot p ++ [name] := by
  obtain ⟨body, hbody, hjoin⟩ := Path.splitOn_joinText hp h
  have hspot : t.spot p = body.foldl move (t.base p) := by
    rcases hbody with hbody | hbody
    · rw [spot, hbody]
    · rw [spot, hbody, List.foldl_append, foldl_move_blanks (by simp)]
  have hbase : t.base (p.joinText name) = t.base p := by
    unfold base
    rw [Path.isAbsolute_joinText hp h]
  rw [hspot, spot, hbase, hjoin, List.foldl_append, List.foldl_cons, List.foldl_nil, move_name h]

def joinFault? (p : Path) (name : String) : Option DiskFault :=
  (pathFault? (p.joinText name)).or (if isTooLong name.toList then some .nameTooLong else none)

theorem locate_joinText (hl : t.locate p = .ok l) (hd : t.isDirectory l = true) (h : IsName name) :
    t.locate (p.joinText name) =
      match joinFault? p name with
      | some fault => .error fault
      | none => if (t.node? (l ++ [name])).isSome then .ok (l ++ [name]) else .error .notFound := by
  have hp := text_ne_of_locate hl
  obtain ⟨body, hbody, hjoin⟩ := Path.splitOn_joinText hp h
  have hbase : t.base (p.joinText name) = t.base p := by
    unfold base
    rw [Path.isAbsolute_joinText hp h]
  have hfollow : t.follow (t.base p) body = .ok l := by
    unfold locate at hl
    split at hl
    · cases hl
    · rcases hbody with hbody | hbody
      · rwa [hbody] at hl
      · rw [hbody, follow_append] at hl
        cases hb : t.follow (t.base p) body with
        | error fault => simp [hb, Except.bind] at hl
        | ok l' =>
          rw [hb] at hl
          obtain ⟨-, hl, -⟩ := follow_cons_eq_ok.1 hl
          exact hl
  unfold joinFault? locate
  cases pathFault? (p.joinText name) with
  | some fault => rfl
  | none =>
    simp only [Option.none_or, hjoin, hbase, follow_append, hfollow, Except.bind, follow, hd,
      Bool.not_true, Bool.false_eq_true, if_false, h.2.1, h.2.2, String.ofList_toList]
    split <;> rfl

/-! Two trees that hold the same at a place show the same there. -/

theorem locate_joinText_congr (hg : t.Grows u) (hl : t.locate p = .ok l)
    (hd : t.isDirectory l = true) (h : IsName name)
    (hn : u.node? (l ++ [name]) = t.node? (l ++ [name])) :
    u.locate (p.joinText name) = t.locate (p.joinText name) := by
  rw [locate_joinText hl hd h, locate_joinText (hg.locate hl) (hg.isDirectory hd) h, hn]

theorem locate_joinText_eq (hl : t.locate p = .ok l) (h : IsName name) {k : Location}
    (hk : t.locate (p.joinText name) = .ok k) : k = l ++ [name] := by
  rw [locate_eq_ok hk, spot_joinText (text_ne_of_locate hl) h, ← locate_eq_ok hl]

theorem kind?_joinText_congr (hg : t.Grows u) (hl : t.locate p = .ok l)
    (hd : t.isDirectory l = true) (h : IsName name)
    (hn : u.node? (l ++ [name]) = t.node? (l ++ [name])) :
    u.kind? (p.joinText name) = t.kind? (p.joinText name) := by
  unfold kind?
  rw [locate_joinText_congr hg hl hd h hn]
  cases hk : t.locate (p.joinText name) with
  | error fault => rfl
  | ok k =>
    obtain rfl := locate_joinText_eq hl h hk
    simp only [hn]

theorem readText_joinText_congr (hg : t.Grows u) (hl : t.locate p = .ok l)
    (hd : t.isDirectory l = true) (h : IsName name)
    (hn : u.node? (l ++ [name]) = t.node? (l ++ [name])) :
    u.readText (p.joinText name) = t.readText (p.joinText name) := by
  unfold readText
  rw [locate_joinText_congr hg hl hd h hn]
  cases hk : t.locate (p.joinText name) with
  | error fault => rfl
  | ok k =>
    obtain rfl := locate_joinText_eq hl h hk
    simp only [bind, Except.bind, hn]

end

/-! What a run leaves alone -/

/-- A tree that grew, and holds at the places of `P` what it held. -/
structure Keeps (P : Location → Bool) (t u : FileTree) : Prop where
  grows : t.Grows u
  wellFormed : u.WellFormed
  nodes_eq : u.nodes.filter (P ·.1) = t.nodes.filter (P ·.1)

namespace Keeps

variable {P : Location → Bool} {t u : FileTree} {l : Location} {steps : List (Location × Node)}

theorem refl (h : t.WellFormed) : Keeps P t t := ⟨.refl t, h, rfl⟩

theorem filter_put (hl : P l = false) (n : Node) :
    (t.put l n).nodes.filter (P ·.1) = t.nodes.filter (P ·.1) := by
  simp only [put, List.filter_append, List.filter_filter]
  rw [List.filter_cons_of_neg (by simp [hl]), List.filter_nil, List.append_nil]
  refine List.filter_congr fun x _ => ?_
  by_cases hx : x.1 = l <;> simp [hx, hl]

theorem puts (h : Keeps P t u) (hbuilds : u.Builds steps) (hP : ∀ step ∈ steps, P step.1 = false) :
    Keeps P t (u.puts steps) where
  grows := h.grows.trans hbuilds.grows
  wellFormed := hbuilds.wellFormed h.wellFormed
  nodes_eq := by
    refine Eq.trans ?_ h.nodes_eq
    clear hbuilds h
    induction steps generalizing u with
    | nil => rfl
    | cons step steps ih =>
      obtain ⟨hstep, hsteps⟩ := List.forall_mem_cons.1 hP
      rw [puts_cons, ih hsteps, filter_put hstep]

theorem lookup_filter {nodes : List (Location × Node)} (h : P l = true) :
    (nodes.filter (P ·.1)).lookup l = nodes.lookup l := by
  induction nodes with
  | nil => rfl
  | cons x nodes ih =>
    obtain ⟨k, n⟩ := x
    by_cases hl : l = k
    · subst hl
      simp [h]
    · have hlk : (l == k) = false := by simpa using hl
      rw [List.lookup_cons, hlk, ← ih, List.filter_cons]
      split
      · rw [List.lookup_cons, hlk]
      · rfl

theorem node?_eq (h : Keeps P t u) (hl : P l = true) : u.node? l = t.node? l := by
  cases l with
  | nil => rfl
  | cons name l =>
    show u.nodes.lookup _ = t.nodes.lookup _
    rw [← lookup_filter hl, h.nodes_eq, lookup_filter hl]

end Keeps

end FileTree

namespace Project

open FileTree

/-! A search in a tree -/

variable (accepts : Path → Bool) (t : FileTree)

def hits (search : Path → List Path) (q : Path) : List Path :=
  if t.kind? q = some .directory then search q else if accepts q then [q] else []

/-- What a search finds in a tree, which it leaves as it is. -/
def found : Nat → Path → List Path
  | 0 => fun _ => []
  | levels + 1 => fun p =>
    ((t.entries p).filter (!isSkipped ·)).flatMap fun name =>
      hits accepts t (found levels) (p.joinText name)

theorem found_succ (levels : Nat) (p : Path) : found accepts t (levels + 1) p =
    ((t.entries p).filter (!isSkipped ·)).flatMap fun name =>
      hits accepts t (found accepts t levels) (p.joinText name) := rfl

theorem run_mapM {α β : Type} {f : α → StateM FileTree β} {g : α → β} {xs : List α}
    (h : ∀ x, (f x).run t = (g x, t)) : (xs.mapM f).run t = (xs.map g, t) := by
  induction xs with
  | nil => rfl
  | cons x xs ih =>
    rw [List.mapM_cons, run_bind_of_run (h x), run_bind_of_run ih]
    rfl

theorem run_collect (levels : Nat) (p : Path) :
    (collect accepts levels p : StateM FileTree _).run t = (found accepts t levels p, t) := by
  induction levels generalizing p with
  | zero => rfl
  | succ levels ih =>
    have hchild (name : String) :
        ((do
          let q := p.joinText name
          if ← Disk.isDirectory q then collect accepts levels q
          else return if accepts q then [q] else []) : StateM FileTree (List Path)).run t =
        (hits accepts t (found accepts t levels) (p.joinText name), t) := by
      unfold hits
      show (Disk.isDirectory (p.joinText name) >>= _ : StateM FileTree (List Path)).run t = _
      rw [run_bind_of_run Disk.run_isDirectory]
      by_cases hk : t.kind? (p.joinText name) = some .directory
      · simp only [hk, decide_true, if_true]
        exact ih _
      · simp only [hk, decide_false]
        rfl
    show (Disk.entries p >>= _ : StateM FileTree (List Path)).run t = _
    rw [run_bind_of_run (rfl : (Disk.entries p : StateM FileTree _).run t = (t.entries p, t)),
      run_bind_of_run (run_mapM t hchild), found_succ, List.flatMap_def]
    rfl

/-- What a node adds to the search of a directory. -/
def share (search : Path → List Path) (p : Path) (l k : Location) : List Path :=
  match k.getLast? with
  | some name => if k.dropLast = l ∧ isSkipped name = false then
      hits accepts t search (p.joinText name) else []
  | none => []

variable {accepts t}

theorem found_succ_eq {p : Path} {l : Location} (hl : t.locate p = .ok l)
    (hd : t.isDirectory l = true) (levels : Nat) : found accepts t (levels + 1) p =
      t.nodes.flatMap fun x => share accepts t (found accepts t levels) p l x.1 := by
  have hentries : t.entries p = t.namesIn l := by
    unfold entries
    rw [hl]
    simp only [hd, if_true]
  rw [found_succ, hentries, namesIn]
  generalize found accepts t levels = search
  induction t.nodes with
  | nil => rfl
  | cons x nodes ih =>
    obtain ⟨k, n⟩ := x
    rw [List.flatMap_cons, ← ih, List.filterMap_cons]
    unfold share
    by_cases hk : k.dropLast = l
    · simp only [hk, if_true, true_and]
      cases k.getLast? with
      | none => rfl
      | some name => cases hs : isSkipped name <;> simp [hs]
    · simp only [hk, if_false, false_and]
      cases k.getLast? <;> rfl

theorem share_append {search : Path → List Path} {p : Path} {d l : Location} {name : String} :
    share accepts t search p l (d ++ [name]) =
      if d = l ∧ isSkipped name = false then hits accepts t search (p.joinText name) else [] := by
  simp [share]

/-! Where sources are looked for -/

/-- Below a root, over names that are not skipped. -/
def Reaches (root l : Location) : Prop :=
  ∃ names, l = root ++ names ∧ ∀ name ∈ names, isSkipped name = false

/-- A place at which a source is looked for: below the root, over names that are not skipped, the
last of which is accepted. -/
def Seeks (p : Project) (root l : Location) : Prop :=
  ∃ d name, l = d ++ [name] ∧ Reaches root d ∧ isSkipped name = false ∧ p.accepts ⟨name⟩ = true

theorem seeks_iff {p : Project} {root l : Location} : p.Seeks root l ↔
    root <+: l ∧ (l.drop root.length).all (!isSkipped ·) = true ∧
      (l.drop root.length).getLast?.any (p.accepts ⟨·⟩) = true := by
  constructor
  · rintro ⟨d, name, rfl, ⟨names, rfl, hnames⟩, hskip, haccepts⟩
    rw [List.append_assoc, List.drop_left]
    refine ⟨List.prefix_append _ _, ?_, by simpa using haccepts⟩
    simpa [List.all_append, hskip] using hnames
  · rintro ⟨⟨rest, rfl⟩, hall, hlast⟩
    rw [List.drop_left] at hall hlast
    obtain ⟨name, hlast, haccepts⟩ := (Option.any_eq_true ..).1 hlast
    obtain ⟨names, rfl⟩ := List.getLast?_eq_some_iff.1 hlast
    simp only [List.all_append, Bool.and_eq_true, List.all_eq_true, Bool.not_eq_true'] at hall
    exact ⟨root ++ names, name, (List.append_assoc ..).symm, ⟨names, rfl, hall.1⟩,
      hall.2 name (List.mem_singleton.2 rfl), haccepts⟩

instance (p : Project) (root l : Location) : Decidable (p.Seeks root l) :=
  decidable_of_iff _ seeks_iff.symm

theorem Reaches.append {root l : Location} {name : String} (h : Reaches root l)
    (hname : isSkipped name = false) : Reaches root (l ++ [name]) := by
  obtain ⟨names, rfl, hnames⟩ := h
  refine ⟨names ++ [name], List.append_assoc .., fun n hn => ?_⟩
  rcases List.mem_append.1 hn with hn | hn
  · exact hnames n hn
  · exact List.mem_singleton.1 hn ▸ hname

/-- Places that matter to a search: directories that are there, and places of sources. -/
structure Watches (p : Project) (root : Location) (t : FileTree) (P : Location → Bool) : Prop where
  directory : ∀ l, t.isDirectory l = true → P l = true
  source : ∀ l, p.Seeks root l → P l = true

section
variable {project : Project} {root : Location} {P : Location → Bool} {t u : FileTree}

theorem Watches.not_isDirectory (hw : project.Watches root t P) {l : Location} (hP : P l = false) :
    t.isDirectory l = false := by
  rw [← Bool.not_eq_true]
  intro hd
  rw [hw.directory l hd] at hP
  cases hP

/-- A node at another place adds nothing, if directories that were not there add nothing. -/
theorem Watches.hits_eq_nil (hw : project.Watches root t P) {search : Path → List Path} {p : Path}
    {l : Location} {name : String}
    (hnew : ∀ q l, u.locate q = .ok l → u.isDirectory l = true → t.isDirectory l = false →
      Reaches root l → search q = [])
    (hl : u.locate p = .ok l) (hreach : Reaches root l) (hname : IsName name)
    (hskip : isSkipped name = false) (hP : P (l ++ [name]) = false) :
    hits project.accepts u search (p.joinText name) = [] := by
  unfold hits
  split
  · next hk =>
    obtain ⟨k, hlocate, hdir⟩ := kind?_eq_directory.1 hk
    obtain rfl := locate_joinText_eq hl hname hlocate
    exact hnew _ _ hlocate hdir (hw.not_isDirectory hP) (hreach.append hskip)
  · rw [if_neg]
    intro haccepts
    rw [Path.accepts_joinText (text_ne_of_locate hl) hname] at haccepts
    rw [hw.source _ ⟨l, name, rfl, hreach, hskip, haccepts⟩] at hP
    cases hP

theorem found_eq_nil (hw : project.Watches root t P) (hk : Keeps P t u) (ht : t.WellFormed)
    {levels : Nat} {p : Path} {l : Location} (hl : u.locate p = .ok l)
    (hd : u.isDirectory l = true) (hnew : t.isDirectory l = false) (hreach : Reaches root l) :
    found project.accepts u levels p = [] := by
  induction levels generalizing p l with
  | zero => rfl
  | succ levels ih =>
    rw [found_succ_eq hl hd, List.flatMap_eq_nil_iff]
    intro x hx
    obtain ⟨d, name, heq, hname, -⟩ := hk.wellFormed x hx
    rw [heq, share_append]
    split
    · next h =>
      obtain ⟨rfl, hskip⟩ := h
      refine hw.hits_eq_nil (fun q l hl hd hnew => ih hl hd hnew) hl hreach hname hskip ?_
      -- What is kept was there before, and so was the directory it is in.
      by_contra hP
      have hmem : x ∈ u.nodes.filter (P ·.1) :=
        List.mem_filter.2 ⟨hx, by rw [heq]; exact Bool.of_not_eq_false hP⟩
      rw [hk.nodes_eq] at hmem
      obtain ⟨d', name', heq', -, hd'⟩ := ht x (List.mem_filter.1 hmem).1
      obtain ⟨rfl, -⟩ := List.append_inj' (heq.symm.trans heq') rfl
      rw [hnew] at hd'
      cases hd'
    · rfl

theorem flatMap_filter {α β : Type} {f : α → List β} {p : α → Bool} {xs : List α}
    (h : ∀ x ∈ xs, p x = false → f x = []) : (xs.filter p).flatMap f = xs.flatMap f := by
  induction xs with
  | nil => rfl
  | cons x xs ih =>
    obtain ⟨hx, hxs⟩ := List.forall_mem_cons.1 h
    rw [List.flatMap_cons, ← ih hxs]
    cases hp : p x with
    | true => rw [List.filter_cons_of_pos hp, List.flatMap_cons]
    | false => rw [List.filter_cons_of_neg (by simp [hp]), hx hp, List.nil_append]

theorem found_succ_eq_filter (hw : project.Watches root t P) (hk : Keeps P t u) (ht : t.WellFormed)
    (levels : Nat) {p : Path} {l : Location} (hl : u.locate p = .ok l) (hd : u.isDirectory l = true)
    (hreach : Reaches root l) : found project.accepts u (levels + 1) p =
      (u.nodes.filter (P ·.1)).flatMap fun x =>
        share project.accepts u (found project.accepts u levels) p l x.1 := by
  rw [found_succ_eq hl hd]
  refine (flatMap_filter fun x hx hP => ?_).symm
  obtain ⟨d, name, heq, hname, -⟩ := hk.wellFormed x hx
  rw [heq] at hP ⊢
  rw [share_append]
  split
  · next h =>
    obtain ⟨rfl, hskip⟩ := h
    exact hw.hits_eq_nil (fun q l => found_eq_nil hw hk ht) hl hreach hname hskip hP
  · rfl

theorem found_eq (hw : project.Watches root t P) (hk : Keeps P t u) (ht : t.WellFormed)
    {levels : Nat} {p : Path} {l : Location} (hl : t.locate p = .ok l)
    (hd : t.isDirectory l = true) (hreach : Reaches root l) :
    found project.accepts u levels p = found project.accepts t levels p := by
  induction levels generalizing p l with
  | zero => rfl
  | succ levels ih =>
    rw [found_succ_eq_filter hw hk ht levels (hk.grows.locate hl) (hk.grows.isDirectory hd) hreach,
      found_succ_eq_filter hw (.refl ht) ht levels hl hd hreach, hk.nodes_eq, List.flatMap_def,
      List.flatMap_def]
    refine congrArg _ (List.map_congr_left fun x hx => ?_)
    obtain ⟨hx, hP⟩ := List.mem_filter.1 hx
    obtain ⟨d, name, heq, hname, -⟩ := ht x hx
    rw [heq] at hP ⊢
    rw [share_append, share_append]
    split
    · next h =>
      obtain ⟨rfl, hskip⟩ := h
      unfold hits
      rw [kind?_joinText_congr hk.grows hl hd hname (hk.node?_eq hP)]
      split
      · next hkind =>
        obtain ⟨k, hlocate, hdir⟩ := kind?_eq_directory.1 hkind
        obtain rfl := locate_joinText_eq hl hname hlocate
        exact ih hlocate hdir (hreach.append hskip)
      · rfl
    · rfl

/-- What a search finds stands at the places where it looks. -/
theorem mem_found (ht : t.WellFormed) {levels : Nat} {p q : Path} {l : Location}
    (hl : t.locate p = .ok l) (hd : t.isDirectory l = true) (hreach : Reaches root l)
    (hq : q ∈ found project.accepts t levels p) :
    ∃ d name p, q = p.joinText name ∧ IsName name ∧ t.locate p = .ok d ∧ t.isDirectory d = true ∧
      project.Seeks root (d ++ [name]) := by
  induction levels generalizing p l with
  | zero => cases hq
  | succ levels ih =>
    rw [found_succ_eq hl hd] at hq
    obtain ⟨x, hx, hshare⟩ := List.mem_flatMap.1 hq
    obtain ⟨d, name, heq, hname, -⟩ := ht x hx
    rw [heq, share_append] at hshare
    split at hshare
    · next h =>
      obtain ⟨rfl, hskip⟩ := h
      unfold hits at hshare
      split at hshare
      · next hkind =>
        obtain ⟨k, hlocate, hdir⟩ := kind?_eq_directory.1 hkind
        obtain rfl := locate_joinText_eq hl hname hlocate
        exact ih hlocate hdir (hreach.append hskip) hshare
      · split at hshare
        · next haccepts =>
          rw [Path.accepts_joinText (text_ne_of_locate hl) hname] at haccepts
          exact ⟨d, name, p, List.mem_singleton.1 hshare, hname, hl, hd,
            d, name, rfl, hreach, hskip, haccepts⟩
        · cases hshare
    · cases hshare

end

end Project
end BranchMarkup
