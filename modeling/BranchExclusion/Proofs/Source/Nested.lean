import BranchExclusion.Proofs.Source.Ordered

/-!
# Edits within a stretch of source

Edits that lie within a stretch can be applied to the text of the stretch first, which then replaces
the stretch. The source comes out the same.

* `Edit.relativeTo`: an edit with offsets that are counted from another place;
* `Edit.Respects`: an edit lies within a stretch, or apart from it;
* `patch_cut`: a text is put together from two parts;
* `patch_slice`: a stretch of a patched text is the patched stretch;
* `exists_splice_within`: the two ways to apply edits agree.
-/

namespace BranchExclusion

variable {source output : List Char} {lo mid hi limit : ℕ} {r : ByteRange} {e : Edit}
  {edits before within behind xs ys : List Edit}

/-- The edit with offsets counted from `origin`. -/
def Edit.relativeTo (e : Edit) (origin : ℕ) : Edit :=
  { e with range := e.range.relativeTo origin }

/-- The edit lies within the stretch, or it is not empty and lies apart from it. -/
def Edit.Respects (r : ByteRange) (e : Edit) : Prop :=
  r.contains e.range = true ∨ e.range.start < e.range.stop ∧ r.Disjoint e.range

instance (r : ByteRange) (e : Edit) : Decidable (e.Respects r) :=
  inferInstanceAs (Decidable (_ ∨ _))

/-! ### Patches -/

/-- A text is put together up to some place, and from there on. -/
theorem patch_cut (hlo : Text.isBoundary source lo = true) (hmid : Text.isBoundary source mid = true)
    (hle : lo ≤ mid) (hle' : mid ≤ hi)
    (hbefore : ∀ e ∈ xs, e.range.stop ≤ mid ∧ Text.isBoundary source e.range.stop = true)
    (hbehind : ∀ e ∈ ys, mid ≤ e.range.start) :
    patch source lo hi (xs ++ ys) = patch source lo mid xs ++ patch source mid hi ys := by
  induction xs generalizing lo with
  | nil =>
    cases ys with
    | nil => exact Text.slice_append hle hle' hlo hmid
    | cons e ys =>
      rw [List.nil_append, patch, patch, patch,
        Text.slice_append hle (hbehind e List.mem_cons_self) hlo hmid]
      simp only [List.append_assoc]
  | cons e xs ih =>
    obtain ⟨hstop, hbound⟩ := hbefore e List.mem_cons_self
    rw [List.cons_append, patch, patch,
      ih hbound hstop fun f hf => hbefore f (List.mem_cons_of_mem e hf)]
    simp only [List.append_assoc]

/-- Edits within a stretch can be applied to its text, and patch it as they patch the source. -/
theorem patch_slice (hr : Text.isBoundary source r.start = true)
    (hhi : Text.isBoundary source hi = true) (hle : r.start ≤ hi) (hle' : hi ≤ r.stop)
    (hin : ∀ e ∈ edits, r.start ≤ e.range.start) (h : InOrder source hi edits) :
    InOrder (Text.slice source r.start r.stop) (hi - r.start)
        (edits.map fun e => e.relativeTo r.start) ∧
      patch (Text.slice source r.start r.stop) 0 (hi - r.start)
          (edits.map fun e => e.relativeTo r.start).reverse =
        patch source r.start hi edits.reverse := by
  induction edits generalizing hi with
  | nil =>
    have hwhole := Text.slice_slice (Nat.le_refl r.start) hle hle' hr hr
    rw [Nat.sub_self] at hwhole
    exact ⟨inOrder_nil, hwhole⟩
  | cons e rest ih =>
    obtain ⟨he, hrest⟩ := inOrder_cons.1 h
    have hstart : r.start ≤ e.range.start := hin e List.mem_cons_self
    have hordered := he.ordered
    have hwithin := he.within
    obtain ⟨horder, hpatch⟩ := ih he.start hstart (by omega)
      (fun f hf => hin f (List.mem_cons_of_mem e hf)) hrest
    have hfirst : (e.relativeTo r.start).Applies (Text.slice source r.start r.stop) (hi - r.start) :=
      { ordered := Nat.sub_le_sub_right hordered r.start
        within := Nat.sub_le_sub_right hwithin r.start
        start := Text.isBoundary_slice hstart (by omega) hr he.start
        stop := Text.isBoundary_slice (by omega) (by omega) hr he.stop }
    have hlast : Text.slice (Text.slice source r.start r.stop) (e.range.stop - r.start)
        (hi - r.start) = Text.slice source e.range.stop hi :=
      Text.slice_slice (by omega) hwithin hle' hr he.stop
    refine ⟨inOrder_cons.2 ⟨hfirst, horder⟩, ?_⟩
    rw [List.map_cons, List.reverse_cons, List.reverse_cons, patch_append, patch_append, ← hpatch,
      ← hlast]
    rfl

/-! ### The order of the edits -/

theorem descending_append (hstarts : (xs ++ ys).Pairwise fun e f => e.range.start ≠ f.range.start)
    (h : ∀ e ∈ xs, ∀ f ∈ ys, f.range.start ≤ e.range.start) :
    descending (xs ++ ys) = descending xs ++ descending ys := by
  obtain ⟨hxs, hys, hcross⟩ := List.pairwise_append.1 hstarts
  refine descending_eq ((arranged_descending xs).perm.append (arranged_descending ys).perm)
    (List.pairwise_append.2 ⟨pairwise_descending_lt hxs, pairwise_descending_lt hys,
      fun e he f hf => ?_⟩)
  have he' := mem_descending.1 he
  have hf' := mem_descending.1 hf
  exact Nat.lt_of_le_of_ne (h e he' f hf') (Ne.symm (hcross e he' f hf'))

theorem descending_relativeTo (hstarts : edits.Pairwise fun e f => e.range.start ≠ f.range.start)
    (hin : ∀ e ∈ edits, lo ≤ e.range.start) :
    descending (edits.map fun e => e.relativeTo lo) =
      (descending edits).map fun e => e.relativeTo lo := by
  refine descending_eq ((arranged_descending edits).perm.map _) (List.pairwise_map.2 ?_)
  refine (pairwise_descending_lt hstarts).imp_of_mem fun {e f} _ hf hlt => ?_
  exact Nat.sub_lt_sub_right (hin f (mem_descending.1 hf)) hlt

theorem le_reach (hlimit : lo ≤ limit) (h : ∀ e ∈ edits, lo ≤ e.range.start) :
    lo ≤ reach limit edits := by
  induction edits generalizing limit with
  | nil => exact hlimit
  | cons e rest ih =>
    rw [reach_cons]
    exact ih (h e List.mem_cons_self) fun f hf => h f (List.mem_cons_of_mem e hf)

theorem InOrder.exists_applies (h : InOrder source limit edits) (he : e ∈ edits) :
    ∃ bound, e.Applies source bound := by
  obtain ⟨done, rest, rfl⟩ := List.append_of_mem he
  exact ⟨_, h done e rest rfl⟩

/-! ### Three groups of edits -/

/-- Edits behind a stretch, within it and before it, with different starts. -/
structure Around (r : ByteRange) (behind within before : List Edit) : Prop where
  of_behind : ∀ e ∈ behind, r.stop ≤ e.range.start
  of_within : ∀ e ∈ within, r.start ≤ e.range.start ∧ e.range.start ≤ e.range.stop ∧
    e.range.stop ≤ r.stop
  of_before : ∀ e ∈ before, e.range.start < e.range.stop ∧ e.range.stop ≤ r.start
  starts : (behind ++ (within ++ before)).Pairwise fun e f => e.range.start ≠ f.range.start

namespace Around

variable (h : Around r behind within before)
include h

/-- An edit of the whole stretch takes the place of those within it. -/
theorem whole (hlt : r.start < r.stop) (text : String) : Around r behind [⟨r, text⟩] before where
  of_behind := h.of_behind
  of_within e he := by
    obtain rfl := List.mem_singleton.1 he
    exact ⟨Nat.le_refl _, hlt.le, Nat.le_refl _⟩
  of_before := h.of_before
  starts := by
    obtain ⟨hbehind, hrest, hcross⟩ := List.pairwise_append.1 h.starts
    obtain ⟨-, hbefore, -⟩ := List.pairwise_append.1 hrest
    refine List.pairwise_append.2 ⟨hbehind, List.pairwise_cons.2 ⟨fun e he => ?_, hbefore⟩, ?_⟩
    · have := h.of_before e he
      show r.start ≠ e.range.start
      omega
    · intro e he f hf
      rcases List.mem_cons.1 hf with rfl | hf
      · have := h.of_behind e he
        show e.range.start ≠ r.start
        omega
      · exact hcross e he f (List.mem_append_right within hf)

variable (hr : r.Fits source)
include hr

/-- The edits of the three groups are applied one group after the other. -/
theorem descending_eq : descending (behind ++ (within ++ before)) =
    descending behind ++ (descending within ++ descending before) := by
  have hlt := hr.nonempty
  rw [descending_append h.starts ?_, descending_append (List.pairwise_append.1 h.starts).2.1 ?_]
  · intro e he f hf
    have := h.of_within e he
    have := h.of_before f hf
    omega
  · intro e he f hf
    have := h.of_behind e he
    rcases List.mem_append.1 hf with hf | hf
    · have := h.of_within f hf
      omega
    · have := h.of_before f hf
      omega

/-- The edits within the stretch meet its end first, those before it meet its start. -/
theorem inOrder_iff :
    InOrder source (Text.byteLength source) (descending (behind ++ (within ++ before))) ↔
      InOrder source (Text.byteLength source) (descending behind) ∧
        InOrder source r.stop (descending within) ∧
        InOrder source r.start (descending before) := by
  have hlt := hr.nonempty
  have hreach : r.stop ≤ reach (Text.byteLength source) (descending behind) :=
    le_reach hr.inside fun e he => h.of_behind e (mem_descending.1 he)
  have hreach' : r.start ≤ reach (reach (Text.byteLength source) (descending behind))
      (descending within) := le_reach (by omega) fun e he => (h.of_within e (mem_descending.1 he)).1
  rw [h.descending_eq hr, inOrder_append, inOrder_append]
  refine and_congr_right fun _ => and_congr ⟨fun hw => hw.mono fun e he => ?_, fun hw =>
    hw.mono fun e he => ?_⟩ ⟨fun ha => ha.mono fun e he => ?_, fun ha => ha.mono fun e he => ?_⟩
  · exact (h.of_within e (mem_descending.1 he)).2.2
  · exact (h.of_within e (mem_descending.1 he)).2.2.trans hreach
  · exact (h.of_before e (mem_descending.1 he)).2
  · exact (h.of_before e (mem_descending.1 he)).2.trans hreach'

/-- The source is put together from what stands before the stretch, the stretch and what stands
behind it. -/
theorem splice_eq
    (horder : InOrder source (Text.byteLength source) (descending (behind ++ (within ++ before)))) :
    splice source (behind ++ (within ++ before)) =
      .ok (patch source 0 r.start (descending before).reverse ++
        (patch source r.start r.stop (descending within).reverse ++
          patch source r.stop (Text.byteLength source) (descending behind).reverse)) := by
  have hlt := hr.nonempty
  have hinside := hr.inside
  obtain ⟨-, hwithin, hbefore⟩ := (h.inOrder_iff hr).1 horder
  have hzero : Text.isBoundary source 0 = true := by simp [Text.isBoundary]
  rw [splice_of_inOrder horder, h.descending_eq hr, List.reverse_append, List.reverse_append,
    List.append_assoc, patch_cut hzero hr.start (Nat.zero_le _) (by omega) ?_ ?_,
    patch_cut hr.start hr.stop hlt.le hinside ?_ ?_]
  · intro e he
    have he' := List.mem_reverse.1 he
    obtain ⟨bound, happlies⟩ := hwithin.exists_applies he'
    exact ⟨(h.of_within e (mem_descending.1 he')).2.2, happlies.stop⟩
  · exact fun e he => h.of_behind e (mem_descending.1 (List.mem_reverse.1 he))
  · intro e he
    have he' := List.mem_reverse.1 he
    obtain ⟨bound, happlies⟩ := hbefore.exists_applies he'
    exact ⟨(h.of_before e (mem_descending.1 he')).2, happlies.stop⟩
  · intro e he
    rcases List.mem_append.1 he with he | he
    · exact (h.of_within e (mem_descending.1 (List.mem_reverse.1 he))).1
    · have := h.of_behind e (mem_descending.1 (List.mem_reverse.1 he))
      omega

/-- The stretch can be replaced by its text with the edits within it. -/
theorem exists_splice
    (horder : InOrder source (Text.byteLength source) (descending (behind ++ (within ++ before)))) :
    ∃ text,
      splice (Text.slice source r.start r.stop) (within.map fun e => e.relativeTo r.start) =
        .ok text ∧
      splice source (behind ++ ([⟨r, String.ofList text⟩] ++ before)) =
        splice source (behind ++ (within ++ before)) := by
  obtain ⟨hbehind, hwithin, hbefore⟩ := (h.inOrder_iff hr).1 horder
  have hlt := hr.nonempty
  have hstarts := (List.pairwise_append.1 (List.pairwise_append.1 h.starts).2.1).1
  have hshift := descending_relativeTo hstarts fun e he => (h.of_within e he).1
  have hlength : Text.byteLength (Text.slice source r.start r.stop) = r.stop - r.start :=
    Text.byteLength_slice hlt.le hr.start hr.stop
  obtain ⟨hslice, hpatch⟩ := patch_slice hr.start hr.stop hlt.le (Nat.le_refl _)
    (fun e he => (h.of_within e (mem_descending.1 he)).1) hwithin
  refine ⟨patch source r.start r.stop (descending within).reverse, ?_, ?_⟩
  · rw [splice_of_inOrder (by rw [hshift, hlength]; exact hslice), hshift, hlength, hpatch]
  · have hwhole := h.whole hlt
      (String.ofList (patch source r.start r.stop (descending within).reverse))
    have hone : descending [(⟨r, String.ofList
        (patch source r.start r.stop (descending within).reverse)⟩ : Edit)] = [_] :=
      BranchExclusion.descending_eq (List.Perm.refl _) (List.pairwise_singleton _ _)
    have horder' := (hwhole.inOrder_iff hr).2 ⟨hbehind, by
      rw [hone]
      exact inOrder_cons.2 ⟨⟨hlt.le, Nat.le_refl _, hr.start, hr.stop⟩, inOrder_nil⟩, hbefore⟩
    rw [h.splice_eq hr horder, hwhole.splice_eq hr horder', hone, List.reverse_singleton, patch,
      patch, Text.slice_self, Text.slice_self, List.nil_append, List.append_nil,
      String.toList_ofList]

end Around

/-! ### One stretch -/

/-- The edits that lie within the stretch become part of its text. -/
theorem exists_splice_within (hr : r.Fits source)
    (hstarts : edits.Pairwise fun e f => e.range.start ≠ f.range.start)
    (hrespects : ∀ e ∈ edits, e.Respects r) (h : splice source edits = .ok output) :
    ∃ text, splice (Text.slice source r.start r.stop)
        ((edits.filter fun e => r.contains e.range).map fun e => e.relativeTo r.start) = .ok text ∧
      ((⟨r, String.ofList text⟩ :: edits.filter fun e => !r.contains e.range).Pairwise
        fun e f => e.range.start ≠ f.range.start) ∧
      splice source (⟨r, String.ofList text⟩ :: edits.filter fun e => !r.contains e.range) =
        .ok output := by
  set outside := edits.filter fun e => !r.contains e.range with houtside
  set within := edits.filter fun e => r.contains e.range with hwithin
  set behind := outside.filter fun e => decide (r.stop ≤ e.range.start) with hbehind
  set before := outside.filter fun e => !decide (r.stop ≤ e.range.start) with hbefore
  have hsides : (behind ++ before).Perm outside := List.filter_append_perm _ _
  have hall : (behind ++ (within ++ before)).Perm edits :=
    (List.perm_append_comm_assoc behind within before).trans
      ((hsides.append_left within).trans (List.filter_append_perm _ _))
  have hstarts' : (behind ++ (within ++ before)).Pairwise fun e f => e.range.start ≠ f.range.start :=
    (hall.pairwise_iff fun h => Ne.symm h).2 hstarts
  have horder : InOrder source (Text.byteLength source)
      (descending (behind ++ (within ++ before))) := by
    rw [descending_congr hstarts hall]
    exact exists_applyEdits_iff.1 ⟨output, h⟩
  -- what does not lie within the stretch is not empty, and lies on one side of it
  have hout : ∀ e ∈ outside, e.range.start < e.range.stop ∧ r.Disjoint e.range := by
    intro e he
    obtain ⟨he, hnot⟩ := List.mem_filter.1 he
    exact (hrespects e he).resolve_left (by simpa using hnot)
  have haround : Around r behind within before :=
    { of_behind := fun e he => of_decide_eq_true (List.mem_filter.1 he).2
      of_within := fun e he => by
        obtain ⟨he', hin⟩ := List.mem_filter.1 he
        obtain ⟨hlo, hhi⟩ := ByteRange.contains_iff.1 hin
        obtain ⟨bound, happlies⟩ := horder.exists_applies
          (mem_descending.2 (List.mem_append_right _ (List.mem_append_left _ he)))
        exact ⟨hlo, happlies.ordered, hhi⟩
      of_before := fun e he => by
        obtain ⟨he, hnot⟩ := List.mem_filter.1 he
        obtain ⟨hne, hdisjoint⟩ := hout e he
        exact ⟨hne, hdisjoint.resolve_left (by simpa using hnot)⟩
      starts := hstarts' }
  obtain ⟨text, htext, hsplice⟩ := haround.exists_splice hr horder
  have hwhole := haround.whole hr.nonempty (String.ofList text)
  have hfolded : (⟨r, String.ofList text⟩ :: outside).Perm
      (behind ++ ([⟨r, String.ofList text⟩] ++ before)) :=
    ((hsides.symm.cons _).trans List.perm_middle.symm)
  refine ⟨text, htext, (hfolded.pairwise_iff fun h => Ne.symm h).2 hwhole.starts, ?_⟩
  rw [splice_congr hwhole.starts hfolded, hsplice, splice_congr hstarts hall, h]

end BranchExclusion
