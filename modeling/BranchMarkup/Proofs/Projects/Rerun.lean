import BranchMarkup.Proofs.Projects.Search
/-! A project run again after a run that succeeded. Where the outputs are apart from the places at
which sources are looked for, the next run reads the same sources and leaves what the first one left;
where they are not, it takes outputs for sources. -/
namespace BranchMarkup

open FileTree

/-! What a run reads -/

namespace Project

def withOutputs (p : Project) (output : Option Path) : Project :=
  { p with outputs := output.getD p.outputs }

def sourcesIn (p : Project) (t : FileTree) : List Path :=
  (found p.accepts t maxLevels p.sources).mergeSort Path.le

theorem sourcesIn_withOutputs (p : Project) (output : Option Path) (t : FileTree) :
    (p.withOutputs output).sourcesIn t = p.sourcesIn t := rfl

theorem run_sourceFiles (p : Project) (t : FileTree) :
    (p.sourceFiles : StateM FileTree _).run t = (p.sourcesIn t, t) := by
  unfold sourceFiles
  rw [run_bind_of_run (run_collect _ _ _ _)]
  rfl

end Project

theorem Form.map_of_transform {form : Form} {file text : String} {wantsMap : Bool} {output : Output}
    (h : form.transform file text wantsMap = .ok output) (hmap : output.map.isSome = true) :
    (wantsMap && form.mapped) = true := by
  unfold transform at h
  cases hmapped : form.mapped with
  | true =>
    rw [if_pos hmapped] at h
    cases hread : form.read file text with
    | error ds => simp [hread, bind, Except.bind] at h
    | ok p =>
      cases hrewrite : (p.rewriteIn file).mapError ([·]) with
      | error ds => simp [hread, hrewrite, bind, Except.bind] at h
      | ok q =>
        simp only [hread, hrewrite, bind, Except.bind, pure, Except.pure, Except.ok.injEq] at h
        subst h
        cases wantsMap with
        | true => rfl
        | false => cases hmap
  | false =>
    rw [if_neg (by simp [hmapped])] at h
    cases hrun : form.run file text with
    | error ds => simp [hrun, bind, Except.bind] at h
    | ok q =>
      simp only [hrun, bind, Except.bind, pure, Except.pure, Except.ok.injEq] at h
      subst h
      cases hmap

namespace Outcome

def inTree (t : FileTree) (source target : Path) (wantsMap : Bool) : Outcome :=
  match t.readText source with
  | .error fault => ⟨source, target, "", .error [Project.cannotRead source fault]⟩
  | .ok text => ⟨source, target, text, (Form.ofPath source).transform source.text text wantsMap⟩

theorem run_ofFile (t : FileTree) (source target : Path) (wantsMap : Bool) :
    (ofFile source target wantsMap : StateM FileTree _).run t =
      (inTree t source target wantsMap, t) := by
  unfold ofFile inTree
  rw [run_bind_of_run (rfl : (Disk.readText source : StateM FileTree _).run t = (t.readText source, t))]
  cases t.readText source <;> rfl

theorem readText_of_inTree {t : FileTree} {source target : Path} {wantsMap : Bool} {output : Output}
    (h : (inTree t source target wantsMap).result = .ok output) :
    ∃ text, t.readText source = .ok text := by
  unfold inTree at h
  split at h
  · cases h
  · next text htext => exact ⟨text, htext⟩

def allIn (t : FileTree) (p : Project) (wantsMap : Bool) : List Outcome :=
  (p.sourcesIn t).map fun source => inTree t source (p.outputFor source) wantsMap

theorem run_ofProject (t : FileTree) (p : Project) (wantsMap : Bool) :
    (ofProject p wantsMap : StateM FileTree _).run t = (allIn t p wantsMap, t) := by
  unfold ofProject
  rw [run_bind_of_run (p.run_sourceFiles t)]
  exact Project.run_mapM t fun source => run_ofFile t source _ wantsMap

@[simp] theorem inTree_source (t : FileTree) (source target : Path) (wantsMap : Bool) :
    (inTree t source target wantsMap).source = source := by
  unfold inTree
  split <;> rfl

@[simp] theorem inTree_target (t : FileTree) (source target : Path) (wantsMap : Bool) :
    (inTree t source target wantsMap).target = target := by
  unfold inTree
  split <;> rfl

theorem map_of_inTree {t : FileTree} {source target : Path} {wantsMap : Bool} {output : Output}
    (h : (inTree t source target wantsMap).result = .ok output) (hmap : output.map.isSome = true) :
    (wantsMap && (Form.ofPath source).mapped) = true := by
  unfold inTree at h
  split at h
  · cases h
  · exact Form.map_of_transform h hmap

end Outcome

namespace Command

variable {t u : FileTree}

/-- What is told about the files of a project, given how many of them failed. -/
def summary (count : Nat) (reports : List Report) (failures : Nat) : Report :=
  if failures = 0 then Report.join reports
  else (Report.join reports).followedBy
    (.failed (toString failures ++ " of " ++ toString count ++ " file(s) failed"))

def failuresIn (reports : List Report) : Nat := (reports.filter (·.exit ≠ 0)).length

theorem exit_of_summary {count : Nat} {reports : List Report}
    (h : (summary count reports (failuresIn reports)).exit = 0) : ∀ r ∈ reports, r.exit = 0 := by
  unfold summary at h
  split at h
  · next hnone =>
    intro r hr
    simpa using List.filter_eq_nil_iff.1 (List.length_eq_zero_iff.1 hnone) r hr
  · simp [Report.followedBy, Report.failed] at h

theorem run_transformProject_nil {verbose wantsMap : Bool} {p : Project} (h : p.sourcesIn t = []) :
    (transformProject verbose p wantsMap : StateM FileTree _).run t = (noSources p.sources, t) := by
  unfold transformProject
  rw [run_bind_of_run (Outcome.run_ofProject t p wantsMap), Outcome.allIn, h]
  rfl

theorem run_transformProject {verbose wantsMap : Bool} {p : Project} {reports : List Report}
    (hs : p.sourcesIn t ≠ [])
    (h : ((Outcome.allIn t p wantsMap).mapM (finish verbose) : StateM FileTree _).run t =
      (reports, u)) :
    (transformProject verbose p wantsMap : StateM FileTree _).run t =
      (summary (Outcome.allIn t p wantsMap).length reports (failuresIn reports), u) := by
  have hne : (Outcome.allIn t p wantsMap).isEmpty = false := by
    simpa [Outcome.allIn] using hs
  unfold transformProject
  rw [run_bind_of_run (Outcome.run_ofProject t p wantsMap), hne, if_neg Bool.false_ne_true,
    run_bind_of_run h]
  show StateT.run (if failuresIn reports = 0 then _ else _) u = _
  unfold summary
  split <;> rfl

/-! The project of a directory -/

theorem isName_configName : IsName Project.configName := by
  unfold IsName Project.configName
  decide

def loaded (config : Path) (content : Except DiskFault String) : Except Report Project :=
  match content with
  | .error fault => .error (.failed (Project.cannotRead config fault).message)
  | .ok content =>
    (Project.parse content (config.parent?.getD ⟨"."⟩)).mapError fun d => .failed d.message

theorem run_loadProject (config : Path) (t : FileTree) :
    (loadProject config : StateM FileTree _).run t = (loaded config (t.readText config), t) := by
  unfold loadProject Project.load loaded
  rw [bind_assoc,
    run_bind_of_run (rfl : (Disk.readText config : StateM FileTree _).run t = (t.readText config, t))]
  cases t.readText config <;> rfl

/-- What a directory is resolved to, by what is at the place of its configuration. -/
def resolved (input : Path) (kind : Option EntryKind) (content : Except DiskFault String) :
    Except Report Target :=
  if kind.isSome then (loaded (input.joinText Project.configName) content).map .project
  else .ok (.project { Project.withDefaults (input.fileName?.getD "project") input with
    sources := input })

theorem run_resolve {input : Path} (h : t.kind? input = some .directory) :
    (resolve input : StateM FileTree _).run t =
      (resolved input (t.kind? (input.joinText Project.configName))
        (t.readText (input.joinText Project.configName)), t) := by
  unfold resolve resolved
  rw [run_bind_of_run Disk.run_isDirectory, h]
  simp only [decide_true, if_true]
  rw [run_bind_of_run (rfl : (Disk.isThere _ : StateM FileTree _).run t = ((t.kind? _).isSome, t))]
  split
  · exact run_bind_of_run (run_loadProject _ t)
  · rfl

theorem kind?_of_run_resolve {input : Path} {p : Project}
    (h : (resolve input : StateM FileTree _).run t = (.ok (.project p), u)) :
    t.kind? input = some .directory := by
  by_contra hk
  unfold resolve at h
  rw [run_bind_of_run Disk.run_isDirectory] at h
  simp only [hk, decide_false, Bool.false_eq_true, if_false] at h
  rw [run_bind_of_run (rfl : (Disk.isFile _ : StateM FileTree _).run t =
    (decide (t.kind? _ = some .file), t))] at h
  split at h
  · cases h
  · obtain ⟨config, v, -, h⟩ := run_bind h
    cases config with
    | none => cases h
    | some config =>
      rw [run_bind_of_run (run_loadProject config v)] at h
      cases hl : loaded config (v.readText config) <;> rw [hl] at h <;> cases h

theorem run_runTransform {input : Path} {output : Option Path} {wantsMap verbose : Bool} {p : Project}
    (h : (resolve input : StateM FileTree _).run t = (.ok (.project p), t)) :
    (runTransform input output wantsMap verbose : StateM FileTree _).run t =
      (transformProject verbose (p.withOutputs output) (wantsMap || p.maps) : StateM FileTree _).run
        t := by
  unfold runTransform
  exact run_bind_of_run h

/-! The same run again -/

/-- The tree after as many runs. -/
def rerun {α : Type} (m : StateM FileTree α) (t : FileTree) : Nat → FileTree
  | 0 => t
  | n + 1 => (m.run (rerun m t n)).2

section
variable {verbose wantsMap : Bool} {p : Project} {P : Location → Bool} {r : Report} {t₁ : FileTree}

theorem locate_of_sourcesIn (h : p.sourcesIn t ≠ []) :
    ∃ l, t.locate p.sources = .ok l ∧ t.isDirectory l = true := by
  by_contra hno
  have hentries : t.entries p.sources = [] := by
    unfold entries
    cases hl : t.locate p.sources with
    | error fault => rfl
    | ok l =>
      simp only
      rw [if_neg fun hd => hno ⟨l, hl, hd⟩]
  refine h ?_
  rw [Project.sourcesIn, Project.maxLevels, Project.found_succ, hentries, List.filter_nil,
    List.flatMap_nil, List.mergeSort_nil]

theorem mem_sourcesIn (ht : t.WellFormed) {source : Path} (h : source ∈ p.sourcesIn t) :
    ∃ d name q, source = q.joinText name ∧ IsName name ∧ t.locate q = .ok d ∧
      t.isDirectory d = true ∧ p.Seeks (t.spot p.sources) (d ++ [name]) := by
  obtain ⟨l, hl, hd⟩ := locate_of_sourcesIn (List.ne_nil_of_mem h)
  exact Project.mem_found ht hl hd ⟨[], by rw [List.append_nil, locate_eq_ok hl], by simp⟩
    (List.mem_mergeSort.1 h)

theorem seeks_of_mem_sourcesIn (ht : t.WellFormed) {source : Path} (h : source ∈ p.sourcesIn t) :
    p.Seeks (t.spot p.sources) (t.spot source) := by
  obtain ⟨d, name, q, rfl, hname, hq, -, hseeks⟩ := mem_sourcesIn ht h
  rwa [spot_joinText (text_ne_of_locate hq) hname, ← locate_eq_ok hq]

theorem sourcesIn_eq (ht : t.WellFormed) (hw : p.Watches (t.spot p.sources) t P) (hk : Keeps P t u)
    (hs : p.sourcesIn t ≠ []) : p.sourcesIn u = p.sourcesIn t := by
  obtain ⟨l, hl, hd⟩ := locate_of_sourcesIn hs
  unfold Project.sourcesIn
  rw [Project.found_eq hw hk ht hl hd ⟨[], by rw [List.append_nil, locate_eq_ok hl], by simp⟩]

theorem allIn_eq (ht : t.WellFormed) (hw : p.Watches (t.spot p.sources) t P) (hk : Keeps P t u)
    (hs : p.sourcesIn t ≠ []) : Outcome.allIn u p wantsMap = Outcome.allIn t p wantsMap := by
  unfold Outcome.allIn
  rw [sourcesIn_eq ht hw hk hs]
  refine List.map_congr_left fun source hsource => ?_
  obtain ⟨d, name, q, rfl, hname, hq, hdir, hseeks⟩ := mem_sourcesIn ht hsource
  unfold Outcome.inTree
  rw [readText_joinText_congr hk.grows hq hdir hname (hk.node?_eq (hw.source _ hseeks))]

theorem reports_of_run (hs : p.sourcesIn t ≠ [])
    (hrun : (transformProject verbose p wantsMap : StateM FileTree _).run t = (r, t₁))
    (hexit : r.exit = 0) : ∃ reports,
      ((Outcome.allIn t p wantsMap).mapM (finish verbose) : StateM FileTree _).run t =
        (reports, t₁) ∧ (∀ r ∈ reports, r.exit = 0) ∧
      r = summary (Outcome.allIn t p wantsMap).length reports (failuresIn reports) := by
  obtain ⟨reports, u, hm⟩ : ∃ reports u,
      ((Outcome.allIn t p wantsMap).mapM (finish verbose) : StateM FileTree _).run t = (reports, u) :=
    ⟨_, _, rfl⟩
  rw [run_transformProject hs hm] at hrun
  cases hrun
  exact ⟨reports, hm, exit_of_summary hexit, rfl⟩

theorem not_isDirectory_source
    (hrun : (transformProject verbose p wantsMap : StateM FileTree _).run t = (r, t₁))
    (hexit : r.exit = 0) {source : Path} (h : source ∈ p.sourcesIn t) :
    t.isDirectory (t.spot source) = false := by
  obtain ⟨reports, hm, hexits, -⟩ := reports_of_run (List.ne_nil_of_mem h) hrun hexit
  obtain ⟨output, ho⟩ := result_of_mapM_finish hm hexits _ (List.mem_map_of_mem h)
  obtain ⟨text, htext⟩ := Outcome.readText_of_inTree ho
  exact not_isDirectory_of_readText htext

/-- A run that succeeded can be repeated on any tree in which what it looks at is as it was. -/
theorem transformProject_again (ht : t.WellFormed) (hw : p.Watches (t.spot p.sources) t P)
    (hs : p.sourcesIn t ≠ [])
    (hapart : ∀ source ∈ p.sourcesIn t, ∀ q ∈ Outcome.places (p.outputFor source)
      (wantsMap && (Form.ofPath source).mapped),
      t.isDirectory (t.spot q) = true ∨ P (t.spot q) = false)
    (hrun : (transformProject verbose p wantsMap : StateM FileTree _).run t = (r, t₁))
    (hexit : r.exit = 0) :
    ∃ steps, t₁ = t.puts steps ∧ t.Builds steps ∧ (∀ step ∈ steps, P step.1 = false) ∧
      ∀ u, Keeps P t u → t₁.Grows u →
        (transformProject verbose p wantsMap : StateM FileTree _).run u =
          (r, u.puts (written steps)) := by
  obtain ⟨reports, hm, hexits, rfl⟩ := reports_of_run hs hrun hexit
  have hmaps : ∀ o ∈ Outcome.allIn t p wantsMap, ∀ output, o.result = .ok output →
      output.map.isSome = true → (wantsMap && (Form.ofPath o.source).mapped) = true := by
    intro o ho output houtput
    obtain ⟨source, -, rfl⟩ := List.mem_map.1 ho
    rw [Outcome.inTree_source]
    exact Outcome.map_of_inTree houtput
  obtain ⟨steps, hrepeats⟩ := repeats_mapM_finish hmaps hm hexits
  obtain rfl := hrepeats.tree_eq hm
  refine ⟨steps, rfl, hrepeats.builds, fun step hstep => ?_, ?_⟩
  · obtain ⟨q, hq, heq⟩ := hrepeats.stepsAt step hstep
    obtain ⟨o, ho, hq⟩ := List.mem_flatMap.1 hq
    obtain ⟨source, hsource, rfl⟩ := List.mem_map.1 ho
    rw [Outcome.inTree_source, Outcome.inTree_target] at hq
    rw [heq]
    refine (hapart source hsource q hq).resolve_left ?_
    rw [← heq, hrepeats.builds.not_isDirectory step hstep]
    exact Bool.false_ne_true
  · intro v hk hg
    have hagain := hrepeats.again v hg
    have hs' : p.sourcesIn v ≠ [] := by
      rw [sourcesIn_eq ht hw hk hs]
      exact hs
    rw [← allIn_eq ht hw hk hs] at hagain ⊢
    exact run_transformProject hs' hagain

end

section
variable {input : Path} {p : Project}

theorem run_resolve_eq {P : Location → Bool}
    (hp : (resolve input : StateM FileTree _).run t = (.ok (.project p), t)) (hk : Keeps P t u)
    (hP : P (t.spot (input.joinText Project.configName)) = true) :
    (resolve input : StateM FileTree _).run u = (.ok (.project p), u) := by
  have hkind := kind?_of_run_resolve hp
  obtain ⟨l, hl, hd⟩ := kind?_eq_directory.1 hkind
  rw [spot_joinText (text_ne_of_locate hl) isName_configName, ← locate_eq_ok hl] at hP
  have hn := hk.node?_eq hP
  rw [run_resolve hkind] at hp
  rw [run_resolve (hk.grows.kind?_eq_directory hkind),
    kind?_joinText_congr hk.grows hl hd isName_configName hn,
    readText_joinText_congr hk.grows hl hd isName_configName hn]
  exact congrArg (fun r : Except Report Target × FileTree => (r.1, u)) hp

end

/-- Nothing that is made at this path is at a place at which a run looks: at that of the
configuration, or at one of those at which sources are looked for. -/
def Apart (p : Project) (input : Path) (t : FileTree) (q : Path) : Prop :=
  t.isDirectory (t.spot q) = true ∨
    t.spot q ≠ t.spot (input.joinText Project.configName) ∧ ¬ p.Seeks (t.spot p.sources) (t.spot q)

instance (p : Project) (input : Path) (t : FileTree) (q : Path) : Decidable (Apart p input t q) :=
  inferInstanceAs (Decidable (_ ∨ _))

/-- A directory is rewritten once and for all, if what is made is apart from what is looked at. Every
later run finds the same project and the same sources, says the same, and leaves at every place what
the first one left there; and nothing that is made takes the place of a source. -/
theorem runTransform_again {t t₁ : FileTree} {input : Path} {output : Option Path}
    {wantsMap verbose : Bool} {p : Project} {sources : List Path} {r : Report}
    (ht : t.WellFormed)
    (hp : (resolve input : StateM FileTree _).run t = (.ok (.project p), t))
    (hs : (p.sourceFiles : StateM FileTree _).run t = (sources, t))
    (hrun : (runTransform input output wantsMap verbose : StateM FileTree _).run t = (r, t₁))
    (hexit : r.exit = 0)
    (hapart : ∀ source ∈ sources, ∀ q ∈ Outcome.places ((p.withOutputs output).outputFor source)
      ((wantsMap || p.maps) && (Form.ofPath source).mapped), Apart p input t q) (n : Nat) :
    let run : StateM FileTree Report := runTransform input output wantsMap verbose
    let u := rerun run t₁ n
    (∀ l, u.node? l = t₁.node? l) ∧
    (resolve input : StateM FileTree _).run u = (.ok (.project p), u) ∧
    (p.sourceFiles : StateM FileTree _).run u = (sources, u) ∧
    (run.run u).1 = r ∧
    ∀ source ∈ sources, ∀ made ∈ sources,
      ∀ q ∈ Outcome.places ((p.withOutputs output).outputFor made)
        ((wantsMap || p.maps) && (Form.ofPath made).mapped), t.spot q ≠ t.spot source := by
  intro run
  obtain rfl : p.sourcesIn t = sources := congrArg Prod.fst ((p.run_sourceFiles t).symm.trans hs)
  have hproject : run.run t = _ := run_runTransform hp
  by_cases hnone : p.sourcesIn t = []
  · -- Without sources a run changes nothing.
    have hsame : run.run t = (noSources p.sources, t) :=
      hproject.trans (run_transformProject_nil hnone)
    obtain ⟨rfl, rfl⟩ : r = noSources p.sources ∧ t₁ = t := Prod.mk.inj (hrun.symm.trans hsame)
    have hn : rerun run t₁ n = t₁ := by
      induction n with
      | zero => rfl
      | succ n ih =>
        show (run.run (rerun run t₁ n)).2 = t₁
        rw [ih, hsame]
    simp only [hn, implies_true, true_and]
    exact ⟨hp, hs, congrArg Prod.fst hsame, by simp [hnone]⟩
  · let P : Location → Bool := fun l => decide (t.isDirectory l = true ∨
      l = t.spot (input.joinText Project.configName) ∨ p.Seeks (t.spot p.sources) l)
    have hw : (p.withOutputs output).Watches (t.spot p.sources) t P :=
      ⟨fun l hl => decide_eq_true (.inl hl), fun l hl => decide_eq_true (.inr (.inr hl))⟩
    have hmade : ∀ source ∈ p.sourcesIn t,
        ∀ q ∈ Outcome.places ((p.withOutputs output).outputFor source)
          ((wantsMap || p.maps) && (Form.ofPath source).mapped),
        t.isDirectory (t.spot q) = true ∨ P (t.spot q) = false := by
      intro source hsource q hq
      by_cases hd : t.isDirectory (t.spot q) = true
      · exact .inl hd
      · obtain ⟨hconfig, hseeks⟩ := (hapart source hsource q hq).resolve_left hd
        exact .inr (decide_eq_false (not_or.2 ⟨hd, not_or.2 ⟨hconfig, hseeks⟩⟩))
    rw [hproject] at hrun
    obtain ⟨steps, rfl, hbuilds, hP, hagain⟩ :=
      transformProject_again ht hw hnone hmade hrun hexit
    have hresolve {u : FileTree} (hk : Keeps P t u) :=
      run_resolve_eq hp hk (decide_eq_true (.inr (.inl rfl)))
    -- What a tree between the runs is like.
    have hbetween (n : Nat) : Keeps P t (rerun run (t.puts steps) n) ∧
        (t.puts steps).Grows (rerun run (t.puts steps) n) ∧
        ∀ l, (rerun run (t.puts steps) n).node? l = (t.puts steps).node? l := by
      induction n with
      | zero => exact ⟨(Keeps.refl ht).puts hbuilds hP, .refl _, fun _ => rfl⟩
      | succ n ih =>
        obtain ⟨hk, hg, hnode⟩ := ih
        have hbuilds' := hbuilds.again hg
        have hstep : rerun run (t.puts steps) (n + 1) =
            (rerun run (t.puts steps) n).puts (written steps) := by
          show (run.run _).2 = _
          rw [run_runTransform (hresolve hk), hagain _ hk hg]
        rw [hstep]
        exact ⟨hk.puts hbuilds' fun step hstep => hP step (List.mem_filter.1 hstep).1,
          hg.trans hbuilds'.grows, hbuilds.node?_again hnode⟩
    obtain ⟨hk, hg, hnode⟩ := hbetween n
    have hsources := sourcesIn_eq ht hw hk hnone
    simp only [Project.sourcesIn_withOutputs] at hsources
    refine ⟨hnode, hresolve hk, (p.run_sourceFiles _).trans (congrArg (·, _) hsources), ?_, ?_⟩
    · show (run.run _).1 = r
      rw [run_runTransform (hresolve hk), hagain _ hk hg]
    · intro source hsource made hmade' q hq heq
      have hfile := not_isDirectory_source hrun hexit hsource
      rw [← heq] at hfile
      refine ((hapart made hmade' q hq).resolve_left (by simp [hfile])).2 ?_
      rw [heq]
      exact seeks_of_mem_sourcesIn ht hsource

/-- The sources are in one directory, and the outputs in another. -/
def apartTree : FileTree := ofFiles ["w"]
  [(⟨"conditionals.toml"⟩, some "[project]\nname = \"p\"\n"),
    (⟨"src/a.jsx"⟩, some "<If condition=\x7ba\x7d>\x7bb\x7d</If>;\n")]

def apartProject : Project := ⟨"p", ⟨"."⟩, ⟨"./src"⟩, ⟨"./dist"⟩, ["jsx", "tsx"], true⟩

theorem runTransform_again_apart :
    let run : StateM FileTree Report := runTransform ⟨"."⟩ none false false
    let t₁ := (run.run apartTree).2
    (run.run apartTree).1.exit = 0 ∧
      t₁.node? ["w", "dist", "a.jsx"] = some (.file (some "a ? b : null;\n")) ∧
      (run.run (rerun run t₁ 1)).1 = (run.run apartTree).1 ∧
      (rerun run t₁ 1).node? ["w", "dist", "a.jsx"] = some (.file (some "a ? b : null;\n")) := by
  intro run t₁
  have hexit : (run.run apartTree).1.exit = 0 := by decide +kernel
  have hwritten : t₁.node? ["w", "dist", "a.jsx"] = some (.file (some "a ? b : null;\n")) := by
    decide +kernel
  have hin : apartTree.kind? ⟨"."⟩ = some .directory := by decide +kernel
  have hconfig : (apartTree.kind? ((⟨"."⟩ : Path).joinText Project.configName)).isSome = true := by
    decide +kernel
  have hloaded : loaded ((⟨"."⟩ : Path).joinText Project.configName)
      (apartTree.readText ((⟨"."⟩ : Path).joinText Project.configName)) = .ok apartProject := by
    decide +kernel
  have hp : (resolve ⟨"."⟩ : StateM FileTree _).run apartTree =
      (.ok (.project apartProject), apartTree) := by
    rw [run_resolve hin, resolved, if_pos hconfig, hloaded]
    rfl
  have hsources : apartProject.sourcesIn apartTree = [⟨"./src/a.jsx"⟩] := by decide +kernel
  have hs : (apartProject.sourceFiles : StateM FileTree _).run apartTree =
      ([⟨"./src/a.jsx"⟩], apartTree) := by
    rw [Project.run_sourceFiles, hsources]
  obtain ⟨hnode, -, -, hreport, -⟩ := runTransform_again (by decide +kernel) hp hs
    (rfl : run.run apartTree = ((run.run apartTree).1, t₁)) hexit (by decide +kernel) 1
  exact ⟨hexit, hwritten, hreport, (hnode _).trans hwritten⟩

/-- Without a configuration a directory is its own source directory, and its outputs are in it. -/
def nestedTree : FileTree := ofFiles ["w"] [(⟨"a.jsx"⟩, some "a;\n")]

def nestedProject : Project := ⟨"project", ⟨"."⟩, ⟨"."⟩, ⟨"./dist"⟩, ["jsx", "tsx"], true⟩

theorem runTransform_finds_outputs :
    let run : StateM FileTree Report := runTransform ⟨"."⟩ none false false
    let t₁ := (run.run nestedTree).2
    (run.run nestedTree).1.exit = 0 ∧
      (nestedProject.sourceFiles : StateM FileTree _).run nestedTree = ([⟨"./a.jsx"⟩], nestedTree) ∧
      (nestedProject.sourceFiles : StateM FileTree _).run t₁ =
        ([⟨"./a.jsx"⟩, ⟨"./dist/a.jsx"⟩], t₁) ∧
      t₁.node? ["w", "dist", "dist"] = none ∧
      (run.run t₁).2.node? ["w", "dist", "dist"] = some .directory := by
  intro run t₁
  have hexit : (run.run nestedTree).1.exit = 0 := by decide +kernel
  have hbefore : nestedProject.sourcesIn nestedTree = [⟨"./a.jsx"⟩] := by decide +kernel
  have hafter : nestedProject.sourcesIn t₁ = [⟨"./a.jsx"⟩, ⟨"./dist/a.jsx"⟩] := by
    have hfound : Project.found nestedProject.accepts t₁ Project.maxLevels nestedProject.sources =
        [⟨"./a.jsx"⟩, ⟨"./dist/a.jsx"⟩] := by
      decide +kernel
    rw [Project.sourcesIn, hfound]
    exact List.mergeSort_of_pairwise (by decide +kernel)
  have hp : (resolve ⟨"."⟩ : StateM FileTree _).run t₁ = (.ok (.project nestedProject), t₁) := by
    rw [run_resolve (by decide +kernel), resolved, if_neg (by decide +kernel)]
    rfl
  have hsecond : (run.run t₁).2 =
      (((Outcome.allIn t₁ nestedProject true).mapM (finish false) : StateM FileTree _).run t₁).2 := by
    rw [run_runTransform hp]
    refine congrArg Prod.snd (run_transformProject ?_ rfl)
    rw [Project.sourcesIn_withOutputs, hafter]
    exact List.cons_ne_nil _ _
  refine ⟨hexit, by rw [Project.run_sourceFiles, hbefore], by rw [Project.run_sourceFiles, hafter],
    by decide +kernel, ?_⟩
  rw [hsecond, Outcome.allIn, hafter]
  decide +kernel

end Command
end BranchMarkup
