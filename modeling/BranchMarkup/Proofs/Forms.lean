import BranchMarkup.Form
import BranchMarkup.Proofs.Json.Schema
import BranchMarkup.Proofs.Reading.Complete
/-! A program is rewritten alike whether it comes in as source text or as JSON, as far as a reader of
JSON goes: it takes only so many open lists and objects at a time, which source text does not have to
keep to. -/
namespace BranchMarkup

open NodeKind (layout)

/-- A text in JSON is refused for its levels, at some place. -/
def Json.RefusedAsTooDeep (text : String) (ds : List Diagnostic) : Prop :=
  ∃ stop : Json.Stop, stop.fault = .tooDeep ∧ ds = [stop.diagnostic text.toList]

namespace Program

theorem reads_ofJsonChars (p : Program) (indented : Bool) :
    Json.Reads Json.maxDepth p.encode.depth p (ofJsonChars (Json.text indented p.encode).toList) := by
  have hend : Json.EndsNumber [] := nofun
  have hread := p.fits.reads NodeKind.distinct_layout (.of indented) 0 Json.maxDepth hend
  rw [List.append_nil, ← Json.toList_text] at hread
  refine Json.Reads.bind_ok (hread.bind_ok rfl) ?_
  rw [p.decode_encode]
  rfl

theorem name_of_parse {file text : String} {p : Program} (h : parse file text = .ok p) :
    p.name = file := by
  obtain ⟨k, c, -, -, hp, -⟩ := Parse.parse_eq_ok_iff.1 h
  rw [hp]

end Program

namespace Form

variable {p q : Program} {file text code : String} {counted : Stats}

theorem read_json (p : Program) (indented wanted : Bool) (file : String) :
    if p.encode.depth ≤ Json.maxDepth then
      (json wanted).read file ((json indented).write p) =
        .ok (if p.name = "" then { p with name := file } else p)
    else ∃ ds, (json wanted).read file ((json indented).write p) = .error ds ∧
      Json.RefusedAsTooDeep ((json indented).write p) ds := by
  have hread := p.reads_ofJsonChars indented
  unfold read write Program.ofJsonText
  rcases hread with ⟨hdepth, heq⟩ | ⟨hdepth, left, heq⟩
  · rw [if_pos hdepth, heq]
    rfl
  · rw [if_neg (Nat.not_le.2 hdepth), heq]
    exact ⟨_, rfl, _, rfl, rfl⟩

/-- What was written is read, in either layout, exactly if a reader takes its levels, and it is read as
the program it was, to the last span, mark, comment and character. A program without a name takes the
name that it is read under. -/
theorem read_write_json {p q : Program} {indented wanted : Bool} {file : String} :
    (json wanted).read file ((json indented).write p) = .ok q ↔
      p.encode.depth ≤ Json.maxDepth ∧ q = if p.name = "" then { p with name := file } else p := by
  have hread := read_json p indented wanted file
  split at hread
  · next hdepth => rw [hread, Except.ok.injEq, and_iff_right hdepth, eq_comm]
  · next hdepth =>
    obtain ⟨ds, hds, -⟩ := hread
    rw [hds]
    exact iff_of_false nofun fun h => hdepth h.1

theorem run_source_eq_ok_iff : source.run file text = .ok (code, counted) ↔
    ∃ p q, Program.parse file text = .ok p ∧ p.rewrite = .ok (q, counted) ∧ q.format = code := by
  unfold run read Program.rewriteIn
  cases Program.parse file text with
  | error => simp [bind, Except.bind, Except.mapError]
  | ok p =>
    cases h : p.rewrite with
    | error => simp [bind, Except.bind, Except.mapError, h]
    | ok r =>
      obtain ⟨q, stats⟩ := r
      simp only [bind, Except.bind, Except.mapError, pure, Except.pure, h, write, Except.ok.injEq,
        Prod.mk.injEq]
      constructor
      · rintro ⟨hcode, hcounted⟩
        exact ⟨p, q, rfl, hcounted ▸ h, hcode⟩
      · rintro ⟨_, q', rfl, hr, hcode⟩
        rw [h] at hr
        cases hr
        exact ⟨hcode, rfl⟩

theorem format_named (p : Program) (name : String) : { p with name }.format = p.format := rfl

/-- Wherever source text is rewritten, the JSON of the program it holds is rewritten to the JSON of
the same result, counted alike, and that is read as a program that prints as the same code. Each of
the two JSON texts has to be read for that, which fails exactly if its levels are too many. -/
theorem run_json_of_run_source (h : source.run file text = .ok (code, counted)) :
    ∃ p q, Program.parse file text = .ok p ∧ p.rewrite = .ok (q, counted) ∧ q.format = code ∧
      ∀ indented wanted : Bool,
        (if p.encode.depth ≤ Json.maxDepth then
          (json wanted).run file ((json indented).write p) = .ok ((json wanted).write q, counted)
        else ∃ ds, (json wanted).run file ((json indented).write p) = .error ds ∧
          Json.RefusedAsTooDeep ((json indented).write p) ds) ∧
        ∀ other, if q.encode.depth ≤ Json.maxDepth then
          ∃ r, (json wanted).read other ((json wanted).write q) = .ok r ∧ r.format = code
        else ∃ ds, (json wanted).read other ((json wanted).write q) = .error ds ∧
          Json.RefusedAsTooDeep ((json wanted).write q) ds := by
  obtain ⟨p, q, hp, hq, hcode⟩ := run_source_eq_ok_iff.1 h
  refine ⟨p, q, hp, hq, hcode, ?_⟩
  intro indented wanted
  constructor
  · have hread := read_json p indented wanted file
    have hname : (if p.name = "" then { p with name := file } else p) = p := by
      rw [← Program.name_of_parse hp, ite_self]
    unfold run
    split at hread
    · next hdepth =>
      rw [if_pos hdepth, hread, hname]
      simp only [bind, Except.bind, Program.rewriteIn, hq, Except.mapError, pure, Except.pure]
    · next hdepth =>
      obtain ⟨ds, hread, hds⟩ := hread
      rw [if_neg hdepth, hread]
      exact ⟨ds, rfl, hds⟩
  · intro other
    have hread := read_json q wanted wanted other
    split at hread
    · next hdepth =>
      rw [if_pos hdepth]
      refine ⟨_, hread, ?_⟩
      split
      · rw [format_named, hcode]
      · exact hcode
    · next hdepth =>
      rw [if_neg hdepth]
      exact hread

/-- So many elements, each in the one before. -/
def nestedSample (n : Nat) : String :=
  String.ofList ((List.replicate n "<a>".toList).flatten ++
    (List.replicate n "</a>".toList).flatten)

theorem exists_of_depth {file text : String}
    (h : (Program.parse file text).toOption.any (fun p =>
      p.rewrite.toOption.isSome && Json.maxDepth < p.encode.depth) = true) :
    ∃ p code counted, Program.parse file text = .ok p ∧
      source.run file text = .ok (code, counted) ∧ Json.maxDepth < p.encode.depth := by
  obtain ⟨p, hp, h⟩ := exists_ok_of_any h
  rw [Bool.and_eq_true, decide_eq_true_eq] at h
  obtain ⟨hrun, hdepth⟩ := h
  cases hr : p.rewrite with
  | error => simp [hr, Except.toOption] at hrun
  | ok r => exact ⟨p, _, _, hp, run_source_eq_ok_iff.2 ⟨p, r.1, hp, hr, rfl⟩, hdepth⟩

theorem nestedSample_depth : ∃ p code counted,
    Program.parse "a.jsx" (nestedSample 31) = .ok p ∧
      source.run "a.jsx" (nestedSample 31) = .ok (code, counted) ∧
      Json.maxDepth < p.encode.depth :=
  exists_of_depth (by decide +kernel)

/-- Source text takes more of them than JSON does. -/
theorem run_json_of_run_source_nested : ∃ p code counted,
    Program.parse "a.jsx" (nestedSample 31) = .ok p ∧
      source.run "a.jsx" (nestedSample 31) = .ok (code, counted) ∧
      ∃ ds, (json true).run "a.jsx" ((json true).write p) = .error ds ∧
        Json.RefusedAsTooDeep ((json true).write p) ds := by
  obtain ⟨p, code, counted, hp, hrun, hdepth⟩ := nestedSample_depth
  obtain ⟨p', q, hp', -, -, hforms⟩ := run_json_of_run_source hrun
  obtain rfl : p = p' := Except.ok.inj (hp.symm.trans hp')
  have hjson := (hforms true true).1
  rw [if_neg (Nat.not_le.2 hdepth)] at hjson
  exact ⟨p, code, counted, hp, hrun, hjson⟩

end Form
end BranchMarkup
