import BranchExclusion.Proofs.Source.Stretch

/-!
# Edits in any order

Edits are applied by descending start, whatever order they are given in.

* `applyEdits_eq_error`: the edit that stops the run, and why;
* `exists_applyEdits_takeBytes`: what was already edited lies behind all that is still to come;
* `descending_congr`: edits with different starts are applied in one order only;
* `splice_exchanges`: when edits can be applied, what they make of the source, and what is reported
  otherwise.
-/

namespace BranchExclusion

variable {source output tail : List Char} {limit : ℕ} {e : Edit}
  {done edits edits' order rest : List Edit}

/-! ### The order -/

/-- Edits with different starts are applied in one order only. -/
theorem descending_eq (hperm : order.Perm edits)
    (h : order.Pairwise fun e f => f.range.start < e.range.start) : descending edits = order := by
  refine List.Perm.eq_of_pairwise ?_ (arranged_descending edits).descends
    (h.imp Nat.le_of_lt) ((arranged_descending edits).perm.trans hperm.symm)
  intro a b ha hb hle hle'
  by_contra hne
  have hsymm : Std.Symm fun e f : Edit => e.range.start ≠ f.range.start := ⟨fun _ _ h => h.symm⟩
  have ha' := hperm.symm.mem_iff.1 (mem_descending.1 ha)
  exact (h.imp fun hlt => Nat.ne_of_gt hlt).forall ha' hb hne (Nat.le_antisymm hle' hle)

theorem pairwise_descending_lt (hstarts : edits.Pairwise fun e f => e.range.start ≠ f.range.start) :
    (descending edits).Pairwise fun e f => f.range.start < e.range.start := by
  obtain ⟨hperm, hdescends, -⟩ := arranged_descending edits
  have hne : (descending edits).Pairwise fun e f => e.range.start ≠ f.range.start :=
    (hperm.pairwise_iff fun h => Ne.symm h).2 hstarts
  exact (hdescends.and hne).imp fun h => Nat.lt_of_le_of_ne h.1 (Ne.symm h.2)

theorem descending_congr (hstarts : edits.Pairwise fun e f => e.range.start ≠ f.range.start)
    (hperm : edits'.Perm edits) : descending edits' = descending edits :=
  descending_eq ((arranged_descending edits).perm.trans hperm.symm) (pairwise_descending_lt hstarts)

theorem splice_congr (hstarts : edits.Pairwise fun e f => e.range.start ≠ f.range.start)
    (hperm : edits'.Perm edits) : splice source edits' = splice source edits := by
  rw [splice, splice, descending_congr hstarts hperm]

/-! ### One run -/

/-- Edits succeed when each is in order, on whatever text they are applied. -/
theorem exists_applyEdits_iff :
    (∃ r, applyEdits source output limit edits = .ok r) ↔ InOrder source limit edits := by
  induction edits generalizing output limit with
  | nil => simp
  | cons e rest ih =>
    rw [applyEdits_cons, inOrder_cons]
    by_cases he : e.Applies source limit
    · rw [if_pos he, ih, and_iff_right he]
    · rw [if_neg he]
      simp [he]

/-- The first edit that is not in order stops the run. -/
theorem applyEdits_eq_error {fault : EditError}
    (h : applyEdits source output limit edits = .error fault) :
    ∃ done e rest, edits = done ++ e :: rest ∧ InOrder source limit done ∧
      ¬ e.Applies source (reach limit done) ∧ fault = e.refusal (reach limit done) := by
  induction edits generalizing output limit with
  | nil => cases h
  | cons e rest ih =>
    rw [applyEdits_cons] at h
    by_cases he : e.Applies source limit
    · rw [if_pos he] at h
      obtain ⟨done, f, later, rfl, hdone, hf, hfault⟩ := ih h
      refine ⟨e :: done, f, later, rfl, inOrder_cons.2 ⟨he, hdone⟩, ?_, ?_⟩
      · rwa [reach_cons]
      · rwa [reach_cons]
    · rw [if_neg he] at h
      cases h
      exact ⟨[], e, rest, rfl, inOrder_nil, he, rfl⟩

/-- A run goes on with the text that its first part leaves. -/
theorem applyEdits_append {edited : List Char}
    (h : applyEdits source output limit done = .ok edited) :
    applyEdits source output limit (done ++ rest) =
      applyEdits source edited (reach limit done) rest := by
  induction done generalizing output limit with
  | nil =>
    cases h
    rfl
  | cons e done ih =>
    rw [applyEdits_cons] at h
    by_cases he : e.Applies source limit
    · rw [if_pos he] at h
      rw [List.cons_append, applyEdits_cons, if_pos he, ih h, reach_cons]
    · rw [if_neg he] at h
      cases h

/-- Up to the start of the last edit the text is still that of the source. -/
theorem exists_applyEdits_takeBytes (tail : List Char) (hlimit : Text.isBoundary source limit = true)
    (h : InOrder source limit done) : Text.isBoundary source (reach limit done) = true ∧
      ∃ tail', applyEdits source (Text.takeBytes limit source ++ tail) limit done =
        .ok (Text.takeBytes (reach limit done) source ++ tail') := by
  induction done generalizing limit tail with
  | nil => exact ⟨hlimit, tail, rfl⟩
  | cons e done ih =>
    obtain ⟨he, hdone⟩ := inOrder_cons.1 h
    rw [applyEdits_cons, if_pos he, Text.replace_takeBytes hlimit he.stop he.ordered he.within,
      reach_cons]
    exact ih _ he.start hdone

/-- Where an edit meets the text that those before it leave, it cuts no character. -/
theorem exists_applyEdits_step
    (h : InOrder source (Text.byteLength source) (done ++ [e])) :
    ∃ edited, applyEdits source source (Text.byteLength source) done = .ok edited ∧
      e.range.start ≤ e.range.stop ∧ e.range.stop ≤ Text.byteLength edited ∧
      Text.isBoundary edited e.range.start = true ∧
      Text.isBoundary edited e.range.stop = true ∧
      applyEdits source source (Text.byteLength source) (done ++ [e]) =
        .ok (Text.replace edited e.range.start e.range.stop e.text.toList) := by
  obtain ⟨hdone, he⟩ := inOrder_append.1 h
  obtain ⟨he, -⟩ := inOrder_cons.1 he
  obtain ⟨hreach, tail, hpartial⟩ :=
    exists_applyEdits_takeBytes [] (Text.isBoundary_byteLength source) hdone
  rw [Text.takeBytes_byteLength, List.append_nil] at hpartial
  have hbound : ∀ {n}, Text.isBoundary source n = true → n ≤ reach (Text.byteLength source) done →
      Text.isBoundary (Text.takeBytes (reach (Text.byteLength source) done) source ++ tail) n =
        true := fun hn hle => Text.isBoundary_append_left (Text.isBoundary_takeBytes hn hle) tail
  have hstop := hbound he.stop he.within
  refine ⟨_, hpartial, he.ordered, Text.le_byteLength_of_isBoundary hstop,
    hbound he.start (he.ordered.trans he.within), hstop, ?_⟩
  rw [applyEdits_append hpartial, applyEdits_cons, if_pos he, applyEdits_nil]

/-! ### The result -/

/-- **Edits exchange stretches of the source.** They are applied by descending start. That succeeds
when each ends no earlier than it starts and no later than the one before it starts, and cuts no
character. The result is the source, from its start to its end, with the stretches of the edits
exchanged. Otherwise the first edit that is not in order is reported. No edit cuts a character of the
text that it meets. Edits with different starts can be given in any order. -/
theorem splice_exchanges (source : List Char) (edits : List Edit) :
    let order := descending edits
    let length := Text.byteLength source
    Arranged edits order ∧
    ((∃ output, splice source edits = .ok output) ↔ InOrder source length order) ∧
    (∀ output, splice source edits = .ok output → output = patch source 0 length order.reverse) ∧
    (∀ fault, splice source edits = .error fault → ∃ (done : List Edit) (e : Edit) (rest : List Edit),
      order = done ++ e :: rest ∧ InOrder source length done ∧
      ¬ e.Applies source (reach length done) ∧ fault = e.refusal (reach length done)) ∧
    (∀ (done : List Edit) (e : Edit) (rest : List Edit), order = done ++ e :: rest →
      InOrder source length (done ++ [e]) →
      ∃ output, applyEdits source source length done = .ok output ∧
        e.range.start ≤ e.range.stop ∧ e.range.stop ≤ Text.byteLength output ∧
        Text.isBoundary output e.range.start = true ∧
        Text.isBoundary output e.range.stop = true ∧
        applyEdits source source length (done ++ [e]) =
          .ok (Text.replace output e.range.start e.range.stop e.text.toList)) ∧
    ((edits.Pairwise fun e f => e.range.start ≠ f.range.start) →
      ∀ edits', edits'.Perm edits → splice source edits' = splice source edits) := by
  intro order length
  have hiff : (∃ output, splice source edits = .ok output) ↔ InOrder source length order :=
    exists_applyEdits_iff
  refine ⟨arranged_descending edits, hiff, ?_, fun fault h => applyEdits_eq_error h,
    fun done e rest _ h => exists_applyEdits_step h, ?_⟩
  · intro output houtput
    have hpatch := splice_of_inOrder (hiff.1 ⟨output, houtput⟩)
    exact Except.ok.inj (houtput.symm.trans hpatch)
  · exact fun hstarts edits' hperm => splice_congr hstarts hperm

/-- Two edits that start at the same place, the second of them empty, and one that touches the first. -/
def touchingEdits : List Edit := [⟨⟨1, 3⟩, "x y"⟩, ⟨⟨1, 1⟩, "(é"⟩, ⟨⟨3, 4⟩, ""⟩]

theorem descending_touchingEdits :
    descending touchingEdits = [⟨⟨3, 4⟩, ""⟩, ⟨⟨1, 3⟩, "x y"⟩, ⟨⟨1, 1⟩, "(é"⟩] := by
  cbv

/-- The touching edits can be applied, and the empty one stands in front. Two edits that cut a
character cannot be applied, and of these the later one is reported, whatever their order. -/
theorem splice_exchanges_touching :
    splice "aéb".toList touchingEdits = .ok "a(éx y".toList ∧
      (let cut : List Edit := [⟨⟨0, 2⟩, "x"⟩, ⟨⟨2, 3⟩, "y"⟩]
      splice "aéb".toList cut = .error (.offBoundary ⟨2, 3⟩) ∧
        splice "aéb".toList cut.reverse = .error (.offBoundary ⟨2, 3⟩)) := by
  refine ⟨?_, ?_⟩
  · obtain ⟨-, hiff, hpatch, -⟩ := splice_exchanges "aéb".toList touchingEdits
    rw [descending_touchingEdits] at hiff hpatch
    obtain ⟨output, houtput⟩ := hiff.2 (by decide)
    rw [houtput, hpatch output houtput]
    decide
  · intro cut
    obtain ⟨-, hiff, -, hfault, -, hperm⟩ := splice_exchanges "aéb".toList cut
    have hdescending : descending cut = [⟨⟨2, 3⟩, "y"⟩, ⟨⟨0, 2⟩, "x"⟩] := by cbv
    rw [hdescending] at hiff hfault
    have hcut : splice "aéb".toList cut = .error (.offBoundary ⟨2, 3⟩) := by
      cases hsplice : splice "aéb".toList cut with
      | ok output => exact absurd (hiff.1 ⟨output, hsplice⟩) (by decide)
      | error fault =>
        obtain ⟨done, e, rest, horder, hdone, -, rfl⟩ := hfault fault hsplice
        cases done with
        | nil =>
          obtain ⟨rfl, -⟩ := List.cons.inj horder
          decide
        | cons d done =>
          -- the first of the two is not in order, so it is not among those done
          obtain ⟨rfl, -⟩ := List.cons.inj horder
          exact absurd (inOrder_cons.1 hdone).1 (by decide)
    exact ⟨hcut, (hperm (by decide) cut.reverse (List.reverse_perm cut)).trans hcut⟩

end BranchExclusion
