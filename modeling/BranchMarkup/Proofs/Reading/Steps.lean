import BranchMarkup.Parser
import BranchMarkup.Proofs.Reading.Cursor
/-! What a reader does, step by step. A run takes tokens, notes faults, and enters and leaves levels;
everything else in it is looking. The steps of a run are balanced, whatever the text. -/
namespace BranchMarkup
namespace Parse

inductive Step where
  | take (mode : Mode)
  | note (f : Fault) (span : Span)
  | enter
  | leave

namespace Step

def run : Step → Parser → Parser
  | take mode, p => p.bump mode
  | note f span, p => { p with faults := p.faults ++ [⟨f, span⟩] }
  | enter, p => { p with depth := p.depth + 1 }
  | leave, p => { p with depth := p.depth - 1 }

def fault? : Step → Option (Spanned Fault)
  | note f span => some ⟨f, span⟩
  | _ => none

end Step

def runAll (ss : List Step) (p : Parser) : Parser := ss.foldl (fun p s => s.run p) p

def notes (ss : List Step) : List (Spanned Fault) := ss.filterMap Step.fault?

/-- Does `x` and goes on with its result and whether a fault was noted in it. -/
def checked {α β : Type} (x : Parse α) (f : α → Bool → Parse β) : Parse β := do
  let before := (← get).faults.length
  let a ← x
  let after := (← get).faults.length
  f a (before < after)

theorem run_checked {α β : Type} (x : Parse α) (f : α → Bool → Parse β) (p : Parser) :
    (checked x f).run p =
      (f (x.run p).1 (p.faults.length < (x.run p).2.faults.length)).run (x.run p).2 := rfl

/-- From that state `x` does these steps, one after another. In between it may look at where it stands
and how deep, and whether a part of it has noted a fault. -/
inductive Does : {α : Type} → Parse α → Parser → List Step → Prop where
  | pure {α} (a : α) (p) : Does (Pure.pure a) p []
  | look {α p ss} (f : Cursor → Nat → Parse α) : Does (f p.cursor p.depth) p ss →
      Does (get >>= fun p => f p.cursor p.depth) p ss
  | step (s : Step) (p) : Does (modify s.run) p [s]
  | seq {α β p ss ts} {x : Parse α} {f : α → Parse β} : Does x p ss →
      Does (f (x.run p).1) (x.run p).2 ts → Does (x >>= f) p (ss ++ ts)
  | checked {α β p ss ts} {x : Parse α} {f : α → Bool → Parse β} : Does x p ss →
      Does (f (x.run p).1 (p.faults.length < (x.run p).2.faults.length)) (x.run p).2 ts →
      Does (checked x f) p (ss ++ ts)

/-- Steps at a level that enter only where a level is left, and leave every level they enter. -/
inductive Balanced : Nat → List Step → Prop where
  | nil {d} : Balanced d []
  | take {d} (mode : Mode) : Balanced d [.take mode]
  | note {d} (f : Fault) (span : Span) : Balanced d [.note f span]
  | append {d ss ts} : Balanced d ss → Balanced d ts → Balanced d (ss ++ ts)
  | nested {d ss} : d < maxNesting → Balanced (d + 1) ss → Balanced d (.enter :: (ss ++ [.leave]))

@[simp] theorem runAll_nil (p : Parser) : runAll [] p = p := rfl

@[simp] theorem runAll_cons (s : Step) (ss : List Step) (p : Parser) :
    runAll (s :: ss) p = runAll ss (s.run p) := rfl

@[simp] theorem runAll_append (ss ts : List Step) (p : Parser) :
    runAll (ss ++ ts) p = runAll ts (runAll ss p) := List.foldl_append

@[simp] theorem notes_nil : notes [] = [] := rfl

theorem notes_cons (s : Step) (ss : List Step) : notes (s :: ss) = s.fault?.toList ++ notes ss := by
  cases s <;> rfl

@[simp] theorem notes_append (ss ts : List Step) : notes (ss ++ ts) = notes ss ++ notes ts :=
  List.filterMap_append

theorem faults_bump (p : Parser) (mode : Mode) : (p.bump mode).faults = p.faults := by
  unfold Parser.bump
  split <;> rfl

@[simp] theorem depth_bump (p : Parser) (mode : Mode) : (p.bump mode).depth = p.depth := by
  unfold Parser.bump
  split <;> rfl

@[simp] theorem cursor_depth (p : Parser) (depth : Nat) :
    ({ p with depth := depth } : Parser).cursor = p.cursor := rfl

@[simp] theorem cursor_bump (p : Parser) (mode : Mode) : (p.bump mode).cursor = p.cursor.bump mode := by
  unfold Parser.bump Cursor.bump Parser.cursor
  split <;> rfl

theorem faults_run (s : Step) (p : Parser) : (s.run p).faults = p.faults ++ s.fault?.toList := by
  cases s with
  | take mode => simp [Step.run, Step.fault?, faults_bump]
  | _ => simp [Step.run, Step.fault?]

theorem faults_runAll (ss : List Step) (p : Parser) : (runAll ss p).faults = p.faults ++ notes ss := by
  induction ss generalizing p with
  | nil => simp
  | cons s ss ih =>
    rw [runAll_cons, ih, faults_run, notes_cons, List.append_assoc]

theorem left_run_le (s : Step) (p : Parser) : (s.run p).cursor.left ≤ p.cursor.left := by
  cases s with
  | take mode =>
    rw [Step.run, cursor_bump]
    exact p.cursor.left_bump_le mode
  | _ => exact Nat.le_refl _

theorem left_runAll_le (ss : List Step) (p : Parser) : (runAll ss p).cursor.left ≤ p.cursor.left := by
  induction ss generalizing p with
  | nil => exact Nat.le_refl _
  | cons s ss ih => exact Nat.le_trans (ih _) (left_run_le s p)

section
variable {α β : Type} {x : Parse α} {p : Parser} {ss : List Step} {d : Nat}

theorem Does.run_eq (h : Does x p ss) : (x.run p).2 = runAll ss p := by
  induction h with
  | pure => rfl
  | look f _ ih => exact ih
  | step => rfl
  | seq _ _ ihx ihf =>
    rw [StateT.run_bind, runAll_append, ← ihx, ← ihf]
    rfl
  | checked _ _ ihx ihf =>
    rw [runAll_append, ← ihx, ← ihf]
    rfl

section
variable {β : Type}

theorem Does.token {f : Token → Parse β} (h : Does (f p.token.val) p ss) :
    Does (token >>= f) p ss := .look (fun c _ => f c.token.val) h

theorem Does.kind {f : Token.Kind → Parse β} (h : Does (f p.cursor.kind) p ss) :
    Does (kind >>= f) p ss := .look (fun c _ => f c.kind) h

theorem Does.here {f : Span → Parse β} (h : Does (f p.token.span) p ss) :
    Does (here >>= f) p ss := .look (fun c _ => f c.token.span) h

theorem Does.last {f : Span → Parse β} (h : Does (f p.last) p ss) :
    Does (last >>= f) p ss := .look (fun c _ => f c.last) h

theorem Does.sees {k : Token.Kind} {f : Bool → Parse β} (h : Does (f (p.cursor.kind = k)) p ss) :
    Does (sees k >>= f) p ss := .look (fun c _ => f (c.kind = k)) h

end

theorem run_faults (s : Step) (p : Parser) (fs : List (Spanned Fault)) :
    s.run { p with faults := fs } = { s.run p with faults := fs ++ s.fault?.toList } := by
  cases s with
  | take mode =>
    unfold Step.run Parser.bump
    dsimp only
    split <;> simp [Step.fault?]
  | _ => simp [Step.run, Step.fault?]

/-- What was noted before a run has no part in it: another reader at the same place and as deep does the
same and notes the same. -/
theorem Does.blind (h : Does x p ss) (fs : List (Spanned Fault)) :
    x.run { p with faults := fs } =
      ((x.run p).1, { (x.run p).2 with faults := fs ++ notes ss }) := by
  induction h generalizing fs with
  | pure a p =>
    rw [notes_nil, List.append_nil]
    rfl
  | look f _ ih => exact ih fs
  | step s p =>
    rw [notes_cons, notes_nil, List.append_nil]
    exact congrArg (Prod.mk PUnit.unit) (run_faults s p fs)
  | @seq α β p ss ts x f _ _ ihx ihf =>
    have hrun (q : Parser) : (x >>= f).run q = (f (x.run q).1).run (x.run q).2 := rfl
    rw [hrun, hrun, ihx]
    dsimp only
    rw [ihf, notes_append, List.append_assoc]
  | @checked α β p ss ts x f hx _ ihx ihf =>
    have hlength : (x.run p).2.faults.length = p.faults.length + (notes ss).length := by
      rw [hx.run_eq, faults_runAll, List.length_append]
    have hcheck : decide (fs.length < (fs ++ notes ss).length) =
        decide (p.faults.length < (x.run p).2.faults.length) := by
      rw [hlength, List.length_append]
      congr 1
      simp
    rw [run_checked, run_checked, ihx]
    dsimp only
    rw [hcheck, ihf, notes_append, List.append_assoc]

theorem Balanced.depth_eq (h : Balanced d ss) (hp : p.depth = d) : (runAll ss p).depth = d := by
  induction h generalizing p with
  | nil => exact hp
  | take mode => exact (depth_bump p mode).trans hp
  | note => exact hp
  | append _ _ ih ih' =>
    rw [runAll_append]
    exact ih' (ih hp)
  | @nested d ss _ _ ih =>
    have hinner : (runAll ss (Step.enter.run p)).depth = d + 1 := ih (congrArg (· + 1) hp)
    rw [runAll_cons, runAll_append, runAll_cons, runAll_nil]
    change (runAll ss (Step.enter.run p)).depth - 1 = d
    omega

theorem between_singleton {s : Step} (hs : (s.run p).depth = d) (hleave : s ≠ .leave) (hp : p.depth = d)
    (hd : d ≤ maxNesting) {before after : List Step} (hsplit : [s] = before ++ after) :
    d ≤ (runAll before p).depth ∧ (runAll before p).depth ≤ maxNesting ∧
      (after.head? = some .leave → d < (runAll before p).depth) := by
  rcases List.append_eq_cons_iff.1 hsplit.symm with ⟨rfl, rfl⟩ | ⟨before, rfl, h⟩
  · exact ⟨Nat.le_of_eq hp.symm, hp ▸ hd, fun h => absurd (Option.some.inj h) hleave⟩
  · obtain ⟨rfl, rfl⟩ := List.append_eq_nil_iff.1 h.symm
    exact ⟨Nat.le_of_eq hs.symm, hs ▸ hd, by simp⟩

/-- In between the level is never below that of the start nor above the limit, and a level is left only
where one has been entered. -/
theorem Balanced.between (h : Balanced d ss) (hp : p.depth = d) (hd : d ≤ maxNesting)
    {before after : List Step} (hsplit : ss = before ++ after) :
    d ≤ (runAll before p).depth ∧ (runAll before p).depth ≤ maxNesting ∧
      (after.head? = some .leave → d < (runAll before p).depth) := by
  induction h generalizing p before after with
  | @nil d =>
    obtain ⟨rfl, rfl⟩ := List.append_eq_nil_iff.1 hsplit.symm
    exact ⟨Nat.le_of_eq hp.symm, hp ▸ hd, by simp⟩
  | take mode =>
    exact between_singleton (s := .take mode) ((depth_bump p mode).trans hp) (by simp) hp hd hsplit
  | note f span => exact between_singleton (s := .note f span) hp (by simp) hp hd hsplit
  | @append d ss ts hss hts ih ih' =>
    have beyond {rest : List Step} (h : ts = rest ++ after) :
        d ≤ (runAll (ss ++ rest) p).depth ∧ (runAll (ss ++ rest) p).depth ≤ maxNesting ∧
          (after.head? = some .leave → d < (runAll (ss ++ rest) p).depth) := by
      rw [runAll_append]
      exact ih' (hss.depth_eq hp) hd h
    rcases List.append_eq_append_iff.1 hsplit with ⟨rest, rfl, h⟩ | ⟨rest, h, hafter⟩
    · exact beyond h
    · cases rest with
      | nil =>
        rw [List.append_nil] at h
        rw [← h, ← List.append_nil ss]
        exact beyond hafter.symm
      | cons s rest =>
        obtain ⟨hlow, hhigh, hleave⟩ := ih hp hd h
        refine ⟨hlow, hhigh, fun hhead => hleave ?_⟩
        rwa [hafter] at hhead
  | @nested d ss hlt hss ih =>
    have hinside : (Step.enter.run p).depth = d + 1 := congrArg (· + 1) hp
    rcases List.append_eq_cons_iff.1 hsplit.symm with ⟨rfl, rfl⟩ | ⟨inside, rfl, h⟩
    · exact ⟨Nat.le_of_eq hp.symm, hp ▸ hd, by simp⟩
    · rw [runAll_cons]
      rcases List.append_eq_append_iff.1 h with ⟨rest, rfl, hlast⟩ | ⟨rest, hss', rfl⟩
      · rcases List.append_eq_cons_iff.1 hlast.symm with ⟨rfl, rfl⟩ | ⟨rest, rfl, hnil⟩
        · have hdepth := hss.depth_eq hinside
          rw [List.append_nil]
          omega
        · obtain ⟨rfl, rfl⟩ := List.append_eq_nil_iff.1 hnil.symm
          have hdepth := hss.depth_eq hinside
          rw [runAll_append, runAll_cons, runAll_nil]
          change d ≤ (runAll ss _).depth - 1 ∧ (runAll ss _).depth - 1 ≤ maxNesting ∧ _
          refine ⟨by omega, by omega, by simp⟩
      · cases rest with
        | nil =>
          have hdepth := hss.depth_eq hinside
          rw [List.append_nil] at hss'
          rw [← hss']
          omega
        | cons s rest =>
          obtain ⟨hlow, hhigh, hleave⟩ := ih hinside hlt hss'
          refine ⟨by omega, hhigh, fun hhead => ?_⟩
          have := hleave hhead
          omega

end

end Parse
end BranchMarkup
