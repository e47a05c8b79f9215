import BranchExclusion.Layout.Body
import BranchExclusion.Proofs.Source.Nested

/-!
# Folding nested bodies

A nested body goes into the text of the statement around it, or into the file. Where a statement
goes into the file, or into a further statement, itself, both ways give the same file.

* `Printer.mem_inside`, `Printer.length_inside`: the nested bodies that lie in a stretch;
* `Printer.fold`: a stretch of source with the nested bodies in it becomes one nested body;
* `Printer.exists_fold`: one fold leaves the file as it is;
* `Printer.splice_folded`: so do folds of stretches that nest.
-/

namespace BranchExclusion

namespace ByteRange

variable {r s : ByteRange}

theorem isEmpty_eq_false (h : r.start < r.stop) : r.isEmpty = false := by
  rw [Bool.eq_false_iff, Ne, isEmpty_iff]
  omega

theorem isEmpty_eq_false_of_contains (hs : s.start < s.stop) (h : r.contains s = true) :
    r.isEmpty = false := by
  obtain ⟨hlo, hhi⟩ := contains_iff.1 h
  exact isEmpty_eq_false (by omega)

end ByteRange

namespace Layout.Printer

variable {source output : List Char} {p : Printer} {r : ByteRange} {ranges : List ByteRange}
  {e f : Edit}

/-! ### The nested bodies in a stretch -/

theorem inside_eq (hr : r.isEmpty = false) : p.inside r =
    (p.nested.filter fun e => r.contains e.range).map fun e => e.relativeTo r.start := by
  rw [inside, hr]
  rfl

theorem mem_inside : f ∈ p.inside r ↔ r.isEmpty = false ∧ ∃ e ∈ p.nested,
    r.contains e.range = true ∧ f = e.relativeTo r.start := by
  cases hr : r.isEmpty with
  | true => simp [inside, hr]
  | false =>
    rw [inside_eq hr, List.mem_map]
    simp only [List.mem_filter, and_assoc, eq_comm (a := f), true_and]

theorem mem_inside_of_contains (he : e ∈ p.nested) (hne : e.range.start < e.range.stop)
    (hin : r.contains e.range = true) : e.relativeTo r.start ∈ p.inside r :=
  mem_inside.2 ⟨ByteRange.isEmpty_eq_false_of_contains hne hin, e, he, hin, rfl⟩

theorem length_inside (hne : ∀ e ∈ p.nested, e.range.start < e.range.stop) (r : ByteRange) :
    (p.inside r).length = p.nested.countP fun e => r.contains e.range := by
  cases hr : r.isEmpty with
  | true =>
    have hnone : p.nested.countP (fun e => r.contains e.range) = 0 := by
      refine List.countP_eq_zero.2 fun e he hin => ?_
      rw [ByteRange.isEmpty_eq_false_of_contains (hne e he) hin] at hr
      cases hr
    rw [hnone, inside, hr]
    rfl
  | false => rw [inside_eq hr, List.length_map, List.countP_eq_length_filter]

/-! ### Folds -/

/-- The nested bodies that lie in the stretch are exchanged in its text, which becomes a nested body
itself. -/
def fold (source : List Char) (p : Printer) (r : ByteRange) : Except EditError Printer := do
  let text ← splice (Text.slice source r.start r.stop) (p.inside r)
  return { p with
    nested := ⟨r, String.ofList text⟩ :: p.nested.filter fun e => !r.contains e.range }

/-- One stretch: the file stays the same, and the nested bodies still have different starts. -/
theorem exists_fold (hr : r.Fits source)
    (hstarts : p.nested.Pairwise fun e f => e.range.start ≠ f.range.start)
    (hrespects : ∀ e ∈ p.nested, e.Respects r) (h : splice source p.nested = .ok output) :
    ∃ text, splice (Text.slice source r.start r.stop) (p.inside r) = .ok text ∧
      p.fold source r = .ok { p with
        nested := ⟨r, String.ofList text⟩ :: p.nested.filter fun e => !r.contains e.range } ∧
      ((⟨r, String.ofList text⟩ :: p.nested.filter fun e => !r.contains e.range).Pairwise
        fun e f => e.range.start ≠ f.range.start) ∧
      splice source (⟨r, String.ofList text⟩ :: p.nested.filter fun e => !r.contains e.range) =
        .ok output := by
  obtain ⟨text, htext, hstarts', hsplice⟩ := exists_splice_within hr hstarts hrespects h
  rw [← inside_eq (ByteRange.isEmpty_eq_false hr.nonempty)] at htext
  refine ⟨text, htext, ?_, hstarts', hsplice⟩
  rw [fold, htext]
  rfl

/-- **Folding agrees with the file.** Let the stretches nest, inner ones first, and let every nested
body lie within each of them or apart from it. When the nested bodies can be exchanged in the source,
they can be folded into one stretch after the other: each stretch becomes a nested body with the text
in which the nested bodies that lie in it by then are exchanged. What is left of them in the end, in
whatever order, gives the same file. -/
theorem splice_folded (hranges : ∀ r ∈ ranges, r.Fits source)
    (hnest : ranges.Pairwise fun r s => r.Disjoint s ∨ s.contains r = true)
    (hstarts : p.nested.Pairwise fun e f => e.range.start ≠ f.range.start)
    (hrespects : ∀ r ∈ ranges, ∀ e ∈ p.nested, e.Respects r)
    (hsplice : splice source p.nested = .ok output) :
    ∃ q, ranges.foldlM (fold source) p = .ok q ∧
      (∀ before r after, ranges = before ++ r :: after → ∃ here text,
        before.foldlM (fold source) p = .ok here ∧
        splice (Text.slice source r.start r.stop) (here.inside r) = .ok text ∧
        after.foldlM (fold source) { here with
          nested := ⟨r, String.ofList text⟩ :: here.nested.filter fun e => !r.contains e.range } =
            .ok q) ∧
      ∀ edits, edits.Perm q.nested → splice source edits = .ok output := by
  induction ranges generalizing p with
  | nil =>
    refine ⟨p, rfl, fun before r after hsplit => ?_, fun edits hperm =>
      (splice_congr hstarts hperm).trans hsplice⟩
    cases before <;> cases hsplit
  | cons r ranges ih =>
    obtain ⟨hlater, hnest⟩ := List.pairwise_cons.1 hnest
    have hr := hranges r List.mem_cons_self
    obtain ⟨text, htext, hfold, hstarts', hsplice'⟩ :=
      exists_fold hr hstarts (hrespects r List.mem_cons_self) hsplice
    let folded : Printer := { p with
      nested := ⟨r, String.ofList text⟩ :: p.nested.filter fun e => !r.contains e.range }
    have hrespects' : ∀ s ∈ ranges, ∀ e ∈ folded.nested, e.Respects s := by
      intro s hs e he
      rcases List.mem_cons.1 he with rfl | he
      · -- the stretch itself, which the later ones contain or avoid
        rcases hlater s hs with hdisjoint | hin
        · exact .inr ⟨hr.nonempty, hdisjoint.symm⟩
        · exact .inl hin
      · exact hrespects s (List.mem_cons_of_mem r hs) e (List.mem_filter.1 he).1
    obtain ⟨q, hq, hsteps, hall⟩ := ih (p := folded)
      (fun s hs => hranges s (List.mem_cons_of_mem r hs)) hnest hstarts' hrespects' hsplice'
    refine ⟨q, by rw [List.foldlM_cons, hfold]; exact hq, fun before s after hsplit => ?_, hall⟩
    cases before with
    | nil =>
      cases hsplit
      exact ⟨p, text, rfl, htext, hq⟩
    | cons first before =>
      cases hsplit
      obtain ⟨here, inner, hhere, hinner, hafter⟩ := hsteps before s after rfl
      exact ⟨here, inner, by rw [List.foldlM_cons, hfold]; exact hhere, hinner, hafter⟩

/-- Two nested bodies in a stretch, the second of them empty and at its end, and one on either side of
a stretch around that. -/
def twofoldPrinter : Printer :=
  ⟨⟨#[]⟩, [], [], [⟨⟨2, 4⟩, "(é)"⟩, ⟨⟨0, 1⟩, ""⟩, ⟨⟨6, 6⟩, "+"⟩, ⟨⟨7, 8⟩, "y"⟩]⟩

theorem splice_twofold : splice "abécdefg".toList twofoldPrinter.nested = .ok "b(é)cd+eyg".toList := by
  have horder : descending twofoldPrinter.nested =
      [⟨⟨7, 8⟩, "y"⟩, ⟨⟨6, 6⟩, "+"⟩, ⟨⟨2, 4⟩, "(é)"⟩, ⟨⟨0, 1⟩, ""⟩] := by cbv
  rw [splice_of_inOrder (by rw [horder]; decide), horder]
  decide

/-- Both stretches can be folded, the inner one first, and the file is the same. -/
theorem splice_folded_twofold :
    ∃ q, [(⟨2, 6⟩ : ByteRange), ⟨1, 7⟩].foldlM (fold "abécdefg".toList) twofoldPrinter = .ok q ∧
      ∀ edits, edits.Perm q.nested → splice "abécdefg".toList edits = .ok "b(é)cd+eyg".toList := by
  have hfits : ∀ r ∈ [(⟨2, 6⟩ : ByteRange), ⟨1, 7⟩], r.Fits "abécdefg".toList := by decide
  obtain ⟨q, hq, -, hall⟩ := splice_folded hfits (by decide) (p := twofoldPrinter) (by decide)
    (by decide) splice_twofold
  exact ⟨q, hq, hall⟩

end Layout.Printer

end BranchExclusion
