import BranchMarkup.Command
import BranchMarkup.Proofs.Projects.Growth
/-! What is written can be written again: a run that made directories and wrote files finds the
directories there the next time and writes the same files, and leaves what the first one left. -/
namespace BranchMarkup
namespace FileTree

/-! Nodes put one after another -/

def puts (t : FileTree) (steps : List (Location × Node)) : FileTree :=
  steps.foldl (fun t step => t.put step.1 step.2) t

/-- Each step makes a directory where nothing is, or a file where no directory is, in a directory
that is there. -/
inductive Builds : FileTree → List (Location × Node) → Prop where
  | nil {t} : Builds t []
  | directory {t d name steps} : t.isDirectory d = true → IsName name →
      t.node? (d ++ [name]) = none → Builds (t.put (d ++ [name]) .directory) steps →
      Builds t ((d ++ [name], .directory) :: steps)
  | file {t d name s steps} : t.isDirectory d = true → IsName name →
      t.isDirectory (d ++ [name]) = false → Builds (t.put (d ++ [name]) (.file (some s))) steps →
      Builds t ((d ++ [name], .file (some s)) :: steps)

def written (steps : List (Location × Node)) : List (Location × Node) :=
  steps.filter (·.2 ≠ .directory)

section
variable {t u : FileTree} {steps more : List (Location × Node)}

theorem puts_cons {step : Location × Node} :
    t.puts (step :: steps) = (t.put step.1 step.2).puts steps := rfl

theorem puts_append : t.puts (steps ++ more) = (t.puts steps).puts more := List.foldl_append

theorem written_append : written (steps ++ more) = written steps ++ written more :=
  List.filter_append ..

theorem written_cons_file {l : Location} {c : Option String} :
    written ((l, .file c) :: steps) = (l, .file c) :: written steps :=
  List.filter_cons_of_pos rfl

theorem Builds.grows (h : t.Builds steps) : t.Grows (t.puts steps) := by
  induction h with
  | nil => exact .refl _
  | directory _ _ hn _ ih => exact (Grows.put_directory hn).trans ih
  | file _ _ hn _ ih => exact (Grows.put_file hn _).trans ih

theorem Builds.append (h : t.Builds steps) (h' : (t.puts steps).Builds more) :
    t.Builds (steps ++ more) := by
  induction h with
  | nil => exact h'
  | directory hd hname hn _ ih => exact .directory hd hname hn (ih h')
  | file hd hname hn _ ih => exact .file hd hname hn (ih h')

theorem Builds.ne_nil (h : t.Builds steps) : ∀ step ∈ steps, step.1 ≠ [] := by
  induction h with
  | nil => simp
  | directory _ _ _ _ ih => exact List.forall_mem_cons.2 ⟨by simp, ih⟩
  | file _ _ _ _ ih => exact List.forall_mem_cons.2 ⟨by simp, ih⟩

theorem Builds.not_isDirectory (h : t.Builds steps) :
    ∀ step ∈ steps, t.isDirectory step.1 = false := by
  induction h with
  | nil => simp
  | @directory t d name steps _ _ hn _ ih =>
    refine List.forall_mem_cons.2 ⟨by simp [isDirectory, hn], fun step hstep => ?_⟩
    by_contra hdir
    have := (Grows.put_directory hn).isDirectory (Bool.of_not_eq_false hdir)
    rw [ih step hstep] at this
    cases this
  | @file t d name s steps _ _ hn _ ih =>
    refine List.forall_mem_cons.2 ⟨hn, fun step hstep => ?_⟩
    by_contra hdir
    have := (Grows.put_file hn (some s)).isDirectory (Bool.of_not_eq_false hdir)
    rw [ih step hstep] at this
    cases this

theorem Builds.file_of_written (h : t.Builds steps) :
    ∀ step ∈ written steps, ∃ s, step.2 = .file (some s) ∧
      ∃ c, (t.puts steps).node? step.1 = some (.file c) := by
  induction h with
  | nil => simp [written]
  | directory _ _ _ _ ih => exact ih
  | @file t d name s steps _ _ hn hrest ih =>
    have hfile : (t.put (d ++ [name]) (.file (some s))).node? (d ++ [name]) =
        some (.file (some s)) := node?_put_self (by simp) _
    rw [written_cons_file]
    exact List.forall_mem_cons.2 ⟨⟨s, rfl, hrest.grows.file _ _ hfile⟩, ih⟩

theorem Builds.again (h : t.Builds steps) (hg : (t.puts steps).Grows u) :
    u.Builds (written steps) := by
  induction h generalizing u with
  | nil => exact .nil
  | directory _ _ _ _ ih => exact ih hg
  | @file t d name s steps hd hname hn hrest ih =>
    have hfirst : (t.put (d ++ [name]) (.file (some s))).Grows u := hrest.grows.trans hg
    have hnot := hfirst.not_isDirectory (node?_put_self (by simp) _)
    rw [written_cons_file]
    exact .file (hfirst.isDirectory ((Grows.put_file hn _).isDirectory hd)) hname hnot
      (ih (hg.trans (.put_file hnot _)))

theorem node?_puts (h : ∀ step ∈ steps, step.1 ≠ []) (l : Location) :
    (t.puts steps).node? l = (steps.reverse.lookup l).or (t.node? l) := by
  induction steps generalizing t with
  | nil => rfl
  | cons step steps ih =>
    obtain ⟨hne, hrest⟩ := List.forall_mem_cons.1 h
    obtain ⟨k, n⟩ := step
    rw [puts_cons, ih hrest, node?_put hne, List.reverse_cons, List.lookup_append, Option.or_assoc,
      List.lookup_cons, List.lookup_nil]
    congr 1
    by_cases hl : l = k
    · simp [hl]
    · have : (l == k) = false := by simpa using hl
      simp [hl, this]

theorem Builds.node?_again (h : t.Builds steps) (hu : ∀ l, u.node? l = (t.puts steps).node? l)
    (l : Location) : (u.puts (written steps)).node? l = (t.puts steps).node? l := by
  have hsub : ∀ step ∈ written steps, step ∈ steps := fun step hstep => (List.mem_filter.1 hstep).1
  rw [node?_puts (fun step hstep => h.ne_nil step (hsub step hstep)), hu]
  cases hagain : (written steps).reverse.lookup l with
  | none => rfl
  | some n =>
    have hmem : (l, n) ∈ written steps := by
      obtain ⟨before, after, hsplit, -⟩ := List.lookup_eq_some_iff.1 hagain
      exact List.mem_reverse.1 (hsplit ▸ by simp)
    obtain ⟨s, rfl : n = _, c, hc⟩ := h.file_of_written _ hmem
    -- The last step at the place wrote a file too, so it is the last of those that did.
    rw [node?_puts h.ne_nil] at hc ⊢
    cases hlast : steps.reverse.lookup l with
    | none => exact absurd (List.lookup_eq_none_iff.1 hlast _ (List.mem_reverse.2 (hsub _ hmem))) (by simp)
    | some n' =>
      obtain rfl : n' = .file c := by simpa [hlast] using hc
      obtain ⟨before, after, hsplit, hbefore⟩ := List.lookup_eq_some_iff.1 hlast
      have : (written steps).reverse.lookup l = some (.file c) := by
        rw [written, ← List.filter_reverse, hsplit, List.filter_append, List.filter_cons_of_pos (by simp)]
        refine List.lookup_eq_some_iff.2 ⟨_, _, rfl, fun p hp => hbefore p (List.mem_filter.1 hp).1⟩
      rw [hagain] at this
      simpa using this

end

/-! Runs that can be repeated -/

variable {α β : Type}

/-- Steps at places that are named by these paths. -/
def StepsAt (t : FileTree) (steps : List (Location × Node)) (ps : List Path) : Prop :=
  ∀ step ∈ steps, ∃ p ∈ ps, step.1 = t.spot p

section
variable {t : FileTree} {steps more : List (Location × Node)} {ps qs : List Path}

theorem StepsAt.append (h : t.StepsAt steps ps) (h' : t.StepsAt more qs) :
    t.StepsAt (steps ++ more) (ps ++ qs) := by
  intro step hstep
  rcases List.mem_append.1 hstep with hstep | hstep
  · obtain ⟨p, hp, heq⟩ := h step hstep
    exact ⟨p, List.mem_append_left _ hp, heq⟩
  · obtain ⟨p, hp, heq⟩ := h' step hstep
    exact ⟨p, List.mem_append_right _ hp, heq⟩

theorem StepsAt.mono (h : t.StepsAt steps ps) (hsub : ps ⊆ qs) : t.StepsAt steps qs := by
  intro step hstep
  obtain ⟨p, hp, heq⟩ := h step hstep
  exact ⟨p, hsub hp, heq⟩

theorem StepsAt.of_grows {u : FileTree} (hg : t.Grows u) (h : u.StepsAt steps ps) :
    t.StepsAt steps ps := by
  intro step hstep
  obtain ⟨p, hp, heq⟩ := h step hstep
  exact ⟨p, hp, heq.trans (hg.spot_eq p)⟩

end

/-- A run that changed a tree by these steps, at places that are named by these paths. On any tree
that grew out of what it left it says the same, and only writes its files again. -/
structure Repeats (m : StateM FileTree α) (ps : List Path) (t : FileTree) (a : α)
    (steps : List (Location × Node)) : Prop where
  run_eq : m.run t = (a, t.puts steps)
  builds : t.Builds steps
  stepsAt : t.StepsAt steps ps
  again : ∀ u, (t.puts steps).Grows u → m.run u = (a, u.puts (written steps))

theorem run_bind_of_run {m : StateM FileTree α} {f : α → StateM FileTree β} {t u : FileTree} {a : α}
    (h : m.run t = (a, u)) : (m >>= f).run t = (f a).run u :=
  congrArg (fun r : α × FileTree => (f r.1).run r.2) h

theorem run_bind {m : StateM FileTree α} {f : α → StateM FileTree β} {t t' : FileTree} {b : β}
    (h : (m >>= f).run t = (b, t')) :
    ∃ a u, m.run t = (a, u) ∧ (f a).run u = (b, t') :=
  ⟨(m.run t).1, (m.run t).2, rfl, h⟩

namespace Repeats

variable {t : FileTree} {m : StateM FileTree α} {a : α} {b : β} {ps qs : List Path}
  {steps more : List (Location × Node)}

theorem tree_eq {t' : FileTree} (h : Repeats m ps t a steps) (ht : m.run t = (a, t')) :
    t' = t.puts steps :=
  congrArg Prod.snd (ht.symm.trans h.run_eq)

theorem mono (h : Repeats m ps t a steps) (hsub : ps ⊆ qs) : Repeats m qs t a steps :=
  ⟨h.run_eq, h.builds, h.stepsAt.mono hsub, h.again⟩

theorem pure (a : α) (t : FileTree) : Repeats (Pure.pure a) [] t a [] :=
  ⟨rfl, .nil, by simp [StepsAt], fun _ _ => rfl⟩

theorem bind {f : α → StateM FileTree β} (hm : Repeats m ps t a steps)
    (hf : Repeats (f a) qs (t.puts steps) b more) :
    Repeats (m >>= f) (ps ++ qs) t b (steps ++ more) where
  run_eq := by
    rw [puts_append]
    exact (run_bind_of_run hm.run_eq).trans hf.run_eq
  builds := hm.builds.append hf.builds
  stepsAt := hm.stepsAt.append (hf.stepsAt.of_grows hm.builds.grows)
  again u hu := by
    rw [puts_append] at hu
    have hfirst := hm.again u (hf.builds.grows.trans hu)
    have hgrown := (hm.builds.again (hf.builds.grows.trans hu)).grows
    rw [written_append, puts_append, ← hf.again _ (hu.trans hgrown)]
    exact run_bind_of_run hfirst

theorem bind_pure {f : α → StateM FileTree β} (hm : Repeats m ps t a steps)
    (hf : f a = Pure.pure b) : Repeats (m >>= f) ps t b steps := by
  have := hm.bind (f := f) (hf ▸ pure b (t.puts steps))
  rwa [List.append_nil, List.append_nil] at this

end Repeats

theorem run_attempt {step : FileTree → Except DiskFault FileTree} {t : FileTree} :
    (attempt step).run t =
      match step t with
      | .ok t' => (.ok (), t')
      | .error fault => (.error fault, t) := by
  unfold attempt
  simp only [StateT.run_bind, StateT.run_get, pure_bind]
  cases step t <;> rfl

end FileTree

namespace Disk

open FileTree

/-! What a disk in memory does -/

section
variable {t t' : FileTree} {p : Path}

theorem run_makeDirectory_ok (h : t.makeDirectory p = .ok t') :
    (makeDirectory p : StateM FileTree _).run t = (.ok (), t') := by
  show (attempt (·.makeDirectory p)).run t = _
  rw [run_attempt, h]

theorem run_makeDirectory_error {fault : DiskFault} (h : t.makeDirectory p = .error fault) :
    (makeDirectory p : StateM FileTree _).run t = (.error fault, t) := by
  show (attempt (·.makeDirectory p)).run t = _
  rw [run_attempt, h]

theorem repeats_writeText {s : String} (h : (writeText p s : StateM FileTree _).run t = (.ok (), t')) :
    ∃ steps, Repeats (writeText p s) [p] t (.ok ()) steps := by
  change (attempt (·.writeText p s)).run t = _ at h
  rw [run_attempt] at h
  cases hw : t.writeText p s with
  | error fault =>
    rw [hw] at h
    cases h
  | ok u =>
    rw [hw] at h
    cases h
    obtain ⟨l, hl, hfile, rfl⟩ := writeText_eq_ok.1 hw
    obtain ⟨hspot, d, name, hname, rfl, hd⟩ := place_eq_named hl
    have hput := Grows.put_file hfile (some s)
    refine ⟨[(d ++ [name], .file (some s))], ?_, .file hd hname hfile .nil,
      by simpa [StepsAt] using hspot, fun u hu => ?_⟩
    · show (attempt (·.writeText p s)).run t = _
      rw [run_attempt, hw]
      rfl
    · have hnode : (t.put (d ++ [name]) (.file (some s))).node? (d ++ [name]) =
          some (.file (some s)) := node?_put_self (by simp) _
      have hagain : u.writeText p s = .ok (u.put (d ++ [name]) (.file (some s))) :=
        writeText_eq_ok.2 ⟨_, (hput.trans hu).place hl, hu.not_isDirectory hnode, rfl⟩
      show (attempt (·.writeText p s)).run u = _
      rw [run_attempt, hagain]
      rfl

theorem run_isDirectory :
    (isDirectory p : StateM FileTree _).run t = (decide (t.kind? p = some .directory), t) := rfl

theorem run_makeNested_of_kind? {outer : List Path}
    (h : p.text = "" ∨ t.kind? p = some .directory) :
    (makeNested (p :: outer) : StateM FileTree _).run t = (.ok (), t) := by
  unfold makeNested
  split
  · rfl
  · next hp =>
    have hk := h.resolve_left hp
    rw [run_bind_of_run (run_makeDirectory_error (makeDirectory_of_kind? hk))]
    show StateT.run (isDirectory p >>= _) t = _
    rw [run_bind_of_run run_isDirectory, hk]
    rfl

/-- A directory that could not be made may be there. -/
theorem run_again {fault : DiskFault}
    (h : (isDirectory p >>= fun there => if there = true then pure (.ok ()) else
      pure (.error fault) : StateM FileTree (Except DiskFault Unit)).run t = (.ok (), t')) :
    t' = t ∧ t'.kind? p = some .directory := by
  rw [run_bind_of_run run_isDirectory] at h
  by_cases hk : t.kind? p = some .directory
  · simp only [hk, decide_true, if_true] at h
    cases h
    exact ⟨rfl, hk⟩
  · simp only [hk, decide_false] at h
    cases h

/-- Steps that make directories, at places that are named by these paths. -/
structure Makes (t : FileTree) (ps : List Path) (steps : List (Location × Node)) : Prop where
  builds : t.Builds steps
  stepsAt : t.StepsAt steps ps
  written_eq : written steps = []

theorem Makes.nil {ps : List Path} : Makes t ps [] := ⟨.nil, by simp [StepsAt], rfl⟩

theorem Makes.mono {ps qs : List Path} {steps : List (Location × Node)} (h : Makes t ps steps)
    (hsub : ps ⊆ qs) : Makes t qs steps :=
  ⟨h.builds, h.stepsAt.mono hsub, h.written_eq⟩

theorem Makes.makeDirectory {ps : List Path} {steps : List (Location × Node)} (h : Makes t ps steps)
    (hp : p ∈ ps) (hmade : (t.puts steps).makeDirectory p = .ok t') :
    ∃ steps', t' = t.puts steps' ∧ Makes t ps steps' ∧ t'.kind? p = some .directory := by
  obtain ⟨l, slash, hl, hn, rfl⟩ := makeDirectory_eq_ok.1 hmade
  obtain ⟨hspot, d, name, hname, rfl, hd⟩ := place_eq_named hl
  rw [h.builds.grows.spot_eq] at hspot
  refine ⟨steps ++ [(d ++ [name], .directory)], by rw [puts_append]; rfl,
    ⟨h.builds.append (.directory hd hname hn .nil), ?_, by rw [written_append, h.written_eq]; rfl⟩,
    kind?_put_directory hl hn⟩
  intro step hstep
  rcases List.mem_append.1 hstep with hstep | hstep
  · exact h.stepsAt step hstep
  · obtain rfl := List.mem_singleton.1 hstep
    exact ⟨p, hp, hspot⟩

/-- Directories are made inside each other until the innermost is there. -/
theorem makes_of_run_makeNested {ps : List Path}
    (h : (makeNested ps : StateM FileTree _).run t = (.ok (), t')) :
    ∃ steps, t' = t.puts steps ∧ Makes t ps steps ∧
      ∃ p outer, ps = p :: outer ∧ (p.text = "" ∨ t'.kind? p = some .directory) := by
  induction ps generalizing t t' with
  | nil => cases h
  | cons p outer ih =>
    suffices hmain : ∃ steps, t' = t.puts steps ∧ Makes t (p :: outer) steps ∧
        (p.text = "" ∨ t'.kind? p = some .directory) by
      obtain ⟨steps, ht, hmakes, hk⟩ := hmain
      exact ⟨steps, ht, hmakes, p, outer, rfl, hk⟩
    unfold makeNested at h
    split at h
    · next hp =>
      cases h
      exact ⟨[], rfl, .nil, .inl hp⟩
    · cases hfirst : t.makeDirectory p with
      | ok u =>
        rw [run_bind_of_run (run_makeDirectory_ok hfirst)] at h
        cases h
        obtain ⟨steps, ht, hmakes, hk⟩ := Makes.nil.makeDirectory List.mem_cons_self hfirst
        exact ⟨steps, ht, hmakes, .inr hk⟩
      | error fault =>
        rw [run_bind_of_run (run_makeDirectory_error hfirst)] at h
        by_cases hfault : fault = .notFound
        · subst hfault
          obtain ⟨inner, u, hinner, h⟩ := run_bind h
          cases inner with
          | error fault => cases h
          | ok =>
            obtain ⟨steps, rfl, hmakes, -⟩ := ih hinner
            have hmakes := hmakes.mono (List.subset_cons_self p outer)
            cases hsecond : (t.puts steps).makeDirectory p with
            | ok v =>
              rw [run_bind_of_run (run_makeDirectory_ok hsecond)] at h
              cases h
              obtain ⟨steps', ht, hmakes, hk⟩ := hmakes.makeDirectory List.mem_cons_self hsecond
              exact ⟨steps', ht, hmakes, .inr hk⟩
            | error fault =>
              rw [run_bind_of_run (run_makeDirectory_error hsecond)] at h
              obtain ⟨rfl, hk⟩ := run_again h
              exact ⟨steps, rfl, hmakes, .inr hk⟩
        · have hrun : (isDirectory p >>= fun there => if there = true then pure (.ok ()) else
              pure (.error fault) : StateM FileTree (Except DiskFault Unit)).run t =
              (.ok (), t') := by
            cases fault <;> first | exact absurd rfl hfault | exact h
          obtain ⟨rfl, hk⟩ := run_again hrun
          exact ⟨[], rfl, .nil, .inr hk⟩

theorem repeats_makeDirectories
    (h : (makeDirectories p : StateM FileTree _).run t = (.ok (), t')) :
    ∃ steps, Repeats (makeDirectories p) p.ancestors t (.ok ()) steps := by
  obtain ⟨steps, rfl, hmakes, q, outer, hq, hk⟩ := makes_of_run_makeNested h
  refine ⟨steps, h, hmakes.builds, hmakes.stepsAt, fun u hu => ?_⟩
  rw [hmakes.written_eq]
  show StateT.run (makeNested p.ancestors) u = _
  rw [hq]
  exact run_makeNested_of_kind? (hk.imp_right hu.kind?_eq_directory)

end

end Disk

/-! Writing outcomes -/

namespace Outcome

open FileTree

/-- The paths at which something may be made when an output is written, with or without a map. -/
def places (target : Path) (maps : Bool) : List Path :=
  (target.parent?.map Path.ancestors).getD [] ++ target ::
    if maps then [Project.mapFor target] else []

def orFail (step : StateM FileTree (Except DiskFault Unit)) (p : Path)
    (rest : StateM FileTree (Except Diagnostic Unit)) :
    StateM FileTree (Except Diagnostic Unit) := do
  match ← step with
  | .error fault => return .error (cannotWrite p fault)
  | _ => rest

def writeMap (o : Outcome) (output : Output) : StateM FileTree (Except Diagnostic Unit) :=
  match output.map with
  | some map => orFail (Disk.writeText (Project.mapFor o.target) map) (Project.mapFor o.target)
      (pure (.ok ()))
  | none => pure (.ok ())

theorem write_eq {o : Outcome} {output : Output} (h : o.result = .ok output) :
    o.write = match o.target.parent? with
      | some parent => orFail (Disk.makeDirectories parent) parent
          (orFail (Disk.writeText o.target output.code) o.target (o.writeMap output))
      | none => orFail (Disk.writeText o.target output.code) o.target (o.writeMap output) := by
  unfold write writeMap
  simp only [h]
  cases o.target.parent? <;> cases output.map <;> rfl

section
variable {o : Outcome} {output : Output} {maps : Bool} {t t' : FileTree}

theorem repeats_orFail {step : StateM FileTree (Except DiskFault Unit)} {p : Path}
    {rest : StateM FileTree (Except Diagnostic Unit)} {ps qs : List Path}
    (hstep : ∀ u, step.run t = (.ok (), u) → ∃ steps, Repeats step ps t (.ok ()) steps)
    (hrest : ∀ u, rest.run u = (.ok (), t') → ∃ steps, Repeats rest qs u (.ok ()) steps)
    (h : (orFail step p rest).run t = (.ok (), t')) :
    ∃ steps, Repeats (orFail step p rest) (ps ++ qs) t (.ok ()) steps := by
  obtain ⟨r, u, hr, h⟩ := run_bind h
  cases r with
  | error fault => cases h
  | ok =>
    obtain ⟨steps, hs⟩ := hstep u hr
    obtain ⟨more, hm⟩ := hrest u h
    rw [hs.tree_eq hr] at hm
    exact ⟨_, hs.bind hm⟩

theorem repeats_nothing (ps : List Path) (t : FileTree) : ∃ steps,
    Repeats (pure (.ok ()) : StateM FileTree (Except Diagnostic Unit)) ps t (.ok ()) steps :=
  ⟨[], (Repeats.pure _ _).mono (List.nil_subset _)⟩

theorem repeats_writeMap (hmaps : output.map.isSome = true → maps = true)
    (h : (o.writeMap output).run t = (.ok (), t')) : ∃ steps,
      Repeats (o.writeMap output) (if maps then [Project.mapFor o.target] else []) t (.ok ()) steps := by
  unfold writeMap at h ⊢
  cases hm : output.map with
  | none => exact repeats_nothing _ _
  | some map =>
    simp only [hm] at h ⊢
    rw [if_pos (hmaps (by simp [hm]))]
    exact repeats_orFail (fun _ => Disk.repeats_writeText) (fun u _ => repeats_nothing [] u) h

theorem repeats_write (hr : o.result = .ok output) (hmaps : output.map.isSome = true → maps = true)
    (h : (o.write : StateM FileTree _).run t = (.ok (), t')) :
    ∃ steps, Repeats o.write (places o.target maps) t (.ok ()) steps := by
  have hcode (u : FileTree) (h : (orFail (Disk.writeText o.target output.code) o.target
      (o.writeMap output)).run u = (.ok (), t')) :=
    repeats_orFail (fun _ => Disk.repeats_writeText) (fun _ => repeats_writeMap hmaps) h
  rw [write_eq hr] at h ⊢
  unfold places
  cases hp : o.target.parent? with
  | none =>
    simp only [hp] at h
    exact hcode t h
  | some parent =>
    simp only [hp] at h
    exact repeats_orFail (fun _ => Disk.repeats_makeDirectories) hcode h

end

end Outcome

/-! Telling about outcomes -/

namespace Command

open FileTree

theorem result_of_finish {verbose : Bool} {o : Outcome} {t t' : FileTree} {r : Report}
    (h : (finish verbose o : StateM FileTree _).run t = (r, t')) (hexit : r.exit = 0) :
    ∃ output, o.result = .ok output := by
  unfold finish at h
  cases hr : o.result with
  | error ds =>
    rw [hr] at h
    cases h
    cases hexit
  | ok output => exact ⟨output, rfl⟩

theorem repeats_finish {verbose maps : Bool} {o : Outcome} {t t' : FileTree} {r : Report}
    (hmaps : ∀ output, o.result = .ok output → output.map.isSome = true → maps = true)
    (h : (finish verbose o : StateM FileTree _).run t = (r, t')) (hexit : r.exit = 0) :
    ∃ steps, Repeats (finish verbose o) (Outcome.places o.target maps) t r steps := by
  obtain ⟨output, hr⟩ := result_of_finish h hexit
  unfold finish at h ⊢
  rw [hr] at h ⊢
  obtain ⟨w, u, hw, h⟩ := run_bind h
  cases w with
  | error d =>
    cases h
    cases hexit
  | ok =>
    cases h
    obtain ⟨steps, hs⟩ := Outcome.repeats_write hr (hmaps output hr) hw
    exact ⟨steps, hs.bind_pure rfl⟩

theorem result_of_mapM_finish {verbose : Bool} {os : List Outcome} {t t' : FileTree}
    {rs : List Report} (h : (os.mapM (finish verbose) : StateM FileTree _).run t = (rs, t'))
    (hexit : ∀ r ∈ rs, r.exit = 0) : ∀ o ∈ os, ∃ output, o.result = .ok output := by
  induction os generalizing t rs with
  | nil => simp
  | cons o os ih =>
    rw [List.mapM_cons] at h
    obtain ⟨r, u, hr, h⟩ := run_bind h
    obtain ⟨rest, v, hrest, h⟩ := run_bind h
    cases h
    obtain ⟨hexit, hexits⟩ := List.forall_mem_cons.1 hexit
    exact List.forall_mem_cons.2 ⟨result_of_finish hr hexit, ih hrest hexits⟩

theorem repeats_mapM_finish {verbose : Bool} {maps : Outcome → Bool} {os : List Outcome}
    {t t' : FileTree} {rs : List Report}
    (hmaps : ∀ o ∈ os, ∀ output, o.result = .ok output → output.map.isSome = true → maps o = true)
    (h : (os.mapM (finish verbose) : StateM FileTree _).run t = (rs, t'))
    (hexit : ∀ r ∈ rs, r.exit = 0) :
    ∃ steps, Repeats (os.mapM (finish verbose)) (os.flatMap fun o => Outcome.places o.target (maps o)) t rs steps := by
  induction os generalizing t rs with
  | nil =>
    cases h
    exact ⟨[], .pure _ _⟩
  | cons o os ih =>
    rw [List.mapM_cons] at h ⊢
    obtain ⟨r, u, hr, h⟩ := run_bind h
    obtain ⟨rest, v, hrest, h⟩ := run_bind h
    cases h
    obtain ⟨hexit, hexits⟩ := List.forall_mem_cons.1 hexit
    obtain ⟨hmap, hmaps⟩ := List.forall_mem_cons.1 hmaps
    obtain ⟨steps, hs⟩ := repeats_finish hmap hr hexit
    rw [hs.tree_eq hr] at hrest
    obtain ⟨more, hm⟩ := ih hmaps hrest hexits
    exact ⟨_, hs.bind (hm.bind_pure rfl)⟩

end Command
end BranchMarkup
