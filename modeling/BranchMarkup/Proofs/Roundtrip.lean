import BranchMarkup.Proofs.Beyond
/-! Reading undoes printing, for what was read from a text and for what a rewrite made of that. The
levels of the printed text can be too many, and then nothing else is wrong with it. -/
namespace BranchMarkup
namespace Program

theorem Printable.rewrite [NestingLimit] {p q : Program} {counted : Stats} (hp : p.Printable)
    (h : p.rewrite = .ok (q, counted)) : q.Printable := by
  obtain ⟨hq, hw⟩ := walksStatements_of_rewrite h
  have hcomments : q.comments = p.comments := by rw [hq]
  exact ⟨hcomments ▸ hp.comments, hw.legible hp.statements⟩

/-- What is printed is read again as the program it was printed from, except for its places, its
comments and the marks of a rewrite. Where that fails the printed text has too many levels, and one
of the diagnostics says so. Places are bytes counted in 32 bits, and beyond that two statements can
have one place, which the reader takes for no progress. -/
theorem parse_format_of_parse {file text : String} {p v : Program} (hp : parse file text = .ok p)
    (hv : v = p ∨ ∃ counted, p.rewrite = .ok (v, counted))
    (hlength : v.format.utf8ByteSize < UInt32.size) (name : String) :
    if v.levels ≤ maxNesting then ∃ q, parse name v.format = .ok q ∧ q.name = name ∧ q.bare = v.bare
    else ∃ fs, parse name v.format = .error fs ∧
      ∃ f ∈ fs, (Fault.diagnostic f).message = nestingMessage := by
  have hprintable : v.Printable := by
    rcases hv with rfl | ⟨counted, h⟩
    · exact printable_of_parse hp
    · exact (printable_of_parse hp).rewrite h
  obtain ⟨hread, hdeep⟩ := parse_format hprintable hlength name
  split
  · next hlevels => exact hread hlevels
  · next hlevels =>
    obtain ⟨fs, hfs, f, hf, htooDeep⟩ := hdeep (Nat.lt_of_not_le hlevels)
    refine ⟨fs, hfs, f, hf, ?_⟩
    rw [Fault.diagnostic, htooDeep]
    rfl

/-- One conditional in another, and `n` operators in the inner one. Each arm is one level for the
reader of this text; in the text of its rewrite the inner conditional stands in parentheses as
well. -/
def operatorSample (n : Nat) : String :=
  "<If condition=\x7ba\x7d><If condition=\x7bb\x7d>\x7b" ++
    String.ofList (List.replicate n '!') ++ "c\x7d</If></If>"

/-- Texts are measured as pieces, which needs no printing. -/
theorem exists_of_measures {name source : String}
    (h : (parse name source).toOption.any (fun p =>
      (p.print.text.utf8ByteSize < UInt32.size && p.levels ≤ maxNesting) &&
        p.rewrite.toOption.any fun r =>
          r.1.print.text.utf8ByteSize < UInt32.size && maxNesting < r.1.levels) = true) :
    ∃ p q counted, parse name source = .ok p ∧ p.rewrite = .ok (q, counted) ∧
      (p.format.utf8ByteSize < UInt32.size ∧ p.levels ≤ maxNesting) ∧
      q.format.utf8ByteSize < UInt32.size ∧ maxNesting < q.levels := by
  obtain ⟨p, hp, h⟩ := exists_ok_of_any h
  obtain ⟨hread, hrun⟩ := Bool.and_eq_true_iff.1 h
  obtain ⟨⟨q, counted⟩, hr, hprinted⟩ := exists_ok_of_any hrun
  have hprintable := printable_of_parse hp
  simp only [Bool.and_eq_true, decide_eq_true_eq, ← format_eq hprintable.comments,
    ← format_eq (hprintable.rewrite hr).comments] at hread hprinted
  exact ⟨p, q, counted, hp, hr, hread, hprinted⟩

/-- With as many operators as a reader takes there the text can be read, and that of its rewrite
cannot. -/
theorem operatorSample_levels : ∃ p q counted, parse "a.jsx" (operatorSample 254) = .ok p ∧
    p.rewrite = .ok (q, counted) ∧
    (p.format.utf8ByteSize < UInt32.size ∧ p.levels ≤ maxNesting) ∧
    q.format.utf8ByteSize < UInt32.size ∧ maxNesting < q.levels :=
  exists_of_measures (by decide +kernel)

theorem parse_format_of_parse_operators :
    ∃ p q counted, parse "a.jsx" (operatorSample 254) = .ok p ∧ p.rewrite = .ok (q, counted) ∧
      (∃ r, parse "a.jsx" p.format = .ok r ∧ r.bare = p.bare) ∧
      ∃ fs, parse "a.jsx" q.format = .error fs ∧
        ∃ f ∈ fs, (Fault.diagnostic f).message = nestingMessage := by
  obtain ⟨p, q, counted, hp, hr, ⟨hlength, hlevels⟩, hlength', hdeep⟩ := operatorSample_levels
  have hread := parse_format_of_parse hp (.inl rfl) hlength "a.jsx"
  have hfails := parse_format_of_parse hp (.inr ⟨counted, hr⟩) hlength' "a.jsx"
  rw [if_pos hlevels] at hread
  rw [if_neg (Nat.not_le.2 hdeep)] at hfails
  obtain ⟨r, hr', -, hbare⟩ := hread
  exact ⟨p, q, counted, hp, hr, ⟨r, hr', hbare⟩, hfails⟩

/-- Beyond the bound a rewritten text can be read as another program: its first statement, a string
of quotes, is so long that its second stands where it does itself. -/
theorem parse_format_of_parse_skipped : ∃ p v counted q,
    parse "a.jsx" (veiledSample ((UInt32.size - 18) / 2) 0).format = .ok p ∧
      p.rewrite = .ok (v, counted) ∧ parse "a.jsx" v.format = .ok q ∧ q.bare ≠ v.bare := by
  have hm : 2 * ((UInt32.size - 18) / 2) + 18 = UInt32.size := by decide
  generalize (UInt32.size - 18) / 2 = m at hm
  have hsize : UInt32.size = 4294967296 := rfl
  obtain ⟨p, hp, hveils⟩ := exists_parse_veiled (m := m) (n := 0) (by omega) (by omega) (by decide)
  obtain ⟨v, counted, hr, hv⟩ :=
    hveils.rewritten (fun _ => admits_of_le_two) fun _ => admits_of_le_two
  obtain ⟨q, hq, hbare⟩ := hv.parse_skipped hm "a.jsx"
  exact ⟨p, v, counted, q, hp, hr, hq, hbare⟩

end Program
end BranchMarkup
