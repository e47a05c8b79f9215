import BranchExclusion.Proofs.Transform.Layouts

/-!
# Laying out the methods of a file

* `SourceUnit.Laminar`: bodies that nest;
* `Instrumentation.calls`: the bodies that are laid out;
* `Instrumentation.PlacedOnce`: where each of them goes;
* `Instrumentation.placedOnce`: this holds of every file with bodies that nest, whichever of them
  can be laid out.
-/

namespace BranchExclusion

/-- The bodies of the file hold characters of its source. No two are the same, and of two that share
a byte one lies in the other. -/
structure SourceUnit.Laminar (u : SourceUnit) : Prop where
  fits : ∀ m ∈ u.methods, m.bodyRange.Fits u.source.toList
  distinct : (u.methods.map Method.bodyRange).Nodup
  nests : (u.methods.map Method.bodyRange).Pairwise ByteRange.Nests

instance (u : SourceUnit) : Decidable u.Laminar :=
  decidable_of_iff ((∀ m ∈ u.methods, m.bodyRange.Fits u.source.toList) ∧
    (u.methods.map Method.bodyRange).Nodup ∧
      (u.methods.map Method.bodyRange).Pairwise ByteRange.Nests)
    ⟨fun h => ⟨h.1, h.2.1, h.2.2⟩, fun h => ⟨h.fits, h.distinct, h.nests⟩⟩

/-- Files with the same source whose bodies stand at the same places. -/
theorem SourceUnit.Laminar.congr {u v : SourceUnit} (h : u.Laminar) (hsource : v.source = u.source)
    (hranges : v.methods.map Method.bodyRange = u.methods.map Method.bodyRange) : v.Laminar where
  fits m hm := by
    have hmem : m.bodyRange ∈ u.methods.map Method.bodyRange := by
      rw [← hranges]
      exact List.mem_map_of_mem hm
    obtain ⟨m', hm', heq⟩ := List.mem_map.1 hmem
    rw [hsource, ← heq]
    exact h.fits m' hm'
  distinct := hranges ▸ h.distinct
  nests := hranges ▸ h.nests

namespace Instrumentation

/-- The instrumented methods. -/
def methods (i : Instrumentation) : List Method :=
  i.instrumented.filterMap fun index => i.unit.methods[index]?

/-- The bodies that are laid out. -/
def calls (i : Instrumentation) (render : Renderer) : List LayoutCall :=
  Layouts.empty.calls render i.unit.path (byLength i.methods)

/-- The bodies for which that succeeds, as edits of the file. -/
def laidOut (i : Instrumentation) (render : Renderer) : List Edit :=
  (i.calls render).filterMap LayoutCall.edit?

/-- Every instrumented method is laid out once. Where that succeeds, the result is an edit of the
file, or part of the smallest body around it that is laid out. Where it fails, that is reported. The
edits of the file can be applied. -/
structure PlacedOnce (i : Instrumentation) (render : Renderer) : Prop where
  called : ((i.calls render).map LayoutCall.method).Perm i.methods
  rendered : ∀ c ∈ i.calls render, c.result = render c.method c.inner
  disjoint : (i.layouts render).edits.Pairwise fun e f => e.range.Disjoint f.range
  outermost : ∀ e, e ∈ (i.layouts render).edits ↔ e ∈ i.laidOut render ∧
    ∀ f ∈ i.laidOut render, f.range.contains e.range = true → f = e
  passed : ∀ e ∈ i.laidOut render, e ∉ (i.layouts render).edits →
    ((i.calls render).flatMap LayoutCall.passed).count e = 1 ∧
      ∃ c ∈ i.calls render, ∃ outer, c.edit? = some outer ∧ e ∈ c.inner ∧ outer ≠ e ∧
        outer.range.contains e.range = true ∧ ∀ g ∈ i.laidOut render, g ≠ e →
          g.range.contains e.range = true → g.range.contains outer.range = true
  errors : (i.layouts render).errors =
    (i.calls render).filterMap (LayoutCall.error? i.unit.path)
  spliced : splice i.unit.source.toList (i.layouts render).edits =
    .ok (patch i.unit.source.toList 0 (Text.byteLength i.unit.source.toList)
      (ascending (i.layouts render).edits))

variable {i : Instrumentation}

theorem perm_byLength (methods : List Method) : (byLength methods).Perm methods :=
  List.mergeSort_perm ..

theorem mem_unit_of_mem_methods {m : Method} (h : m ∈ i.methods) : m ∈ i.unit.methods := by
  obtain ⟨index, -, hm⟩ := List.mem_filterMap.1 h
  exact List.mem_of_getElem? hm

/-- The instrumented methods nest as those of the file do. -/
theorem pairwise_methods (hunit : i.unit.Laminar) (hi : i.instrumented.Nodup) :
    i.methods.Pairwise fun m m' =>
      m.bodyRange.Nests m'.bodyRange ∧ m.bodyRange ≠ m'.bodyRange := by
  have hall : i.unit.methods.Pairwise fun m m' =>
      m.bodyRange.Nests m'.bodyRange ∧ m.bodyRange ≠ m'.bodyRange :=
    (List.pairwise_map.1 hunit.nests).and (List.pairwise_map.1 hunit.distinct)
  rw [methods, List.pairwise_filterMap]
  refine hi.imp fun {a b} hab m hm m' hm' => ?_
  obtain ⟨ha, rfl⟩ := List.getElem?_eq_some_iff.1 hm
  obtain ⟨hb, rfl⟩ := List.getElem?_eq_some_iff.1 hm'
  rw [List.pairwise_iff_getElem] at hall
  rcases Nat.lt_or_gt_of_ne hab with hlt | hlt
  · exact hall a b ha hb hlt
  · obtain ⟨hnests, hne⟩ := hall b a hb ha hlt
    exact ⟨hnests.symm, hne.symm⟩

/-- A shorter body precedes a longer one. -/
theorem pairwise_byLength (hunit : i.unit.Laminar) (hi : i.instrumented.Nodup) :
    (byLength i.methods).Pairwise fun m m' => m.bodyRange.Precedes m'.bodyRange := by
  have hperm := perm_byLength i.methods
  have hsorted : (byLength i.methods).Pairwise fun m m' =>
      decide (m.bodyRange.length ≤ m'.bodyRange.length) = true := by
    unfold byLength
    exact List.pairwise_mergeSort (by intro a b c; simp; omega) (by intro a b; simp; omega) _
  have hnests : (byLength i.methods).Pairwise fun m m' =>
      m.bodyRange.Nests m'.bodyRange ∧ m.bodyRange ≠ m'.bodyRange :=
    (hperm.pairwise_iff fun h => ⟨h.1.symm, h.2.symm⟩).2 (pairwise_methods hunit hi)
  refine (hsorted.and hnests).imp_of_mem fun {m m'} hm _ h => ?_
  have hfits := hunit.fits m (mem_unit_of_mem_methods (hperm.mem_iff.1 hm))
  exact h.2.1.precedes hfits.nonempty h.2.2 (by simpa using h.1)

/-- **Laying out nested bodies.** Whatever the renderer makes of each of them, every instrumented
body of a file whose bodies nest is placed once. -/
theorem placedOnce (hunit : i.unit.Laminar) (hi : i.instrumented.Nodup) (render : Renderer) :
    i.PlacedOnce render := by
  have hperm := perm_byLength i.methods
  have hms := pairwise_byLength hunit hi
  have hfits : ∀ m ∈ byLength i.methods, m.bodyRange.Fits i.unit.source.toList := fun m hm =>
    hunit.fits m (mem_unit_of_mem_methods (hperm.mem_iff.1 hm))
  have hne : ∀ m ∈ byLength i.methods, m.bodyRange.start < m.bodyRange.stop := fun m hm =>
    (hfits m hm).nonempty
  have hlayouts : i.layouts render =
      (byLength i.methods).foldl (Layouts.add render i.unit.path) .empty := rfl
  have hout : (i.layouts render).Outermost (i.laidOut render) :=
    Layouts.Outermost.empty.foldl render i.unit.path (by simp) hms hne
  have hrange : ∀ e ∈ i.laidOut render, e.range.Fits i.unit.source.toList := by
    intro e he
    obtain ⟨c, hc, hedit⟩ := List.mem_filterMap.1 he
    rw [LayoutCall.range_eq hedit]
    apply hfits
    rw [← Layouts.map_method_calls render i.unit.path .empty (byLength i.methods)]
    exact List.mem_map_of_mem hc
  exact {
    called := by
      rw [calls, Layouts.map_method_calls]
      exact hperm
    rendered := fun c hc => Layouts.result_of_mem_calls render _ hc
    disjoint := hout.disjoint
    outermost := hout.mem_iff
    passed := fun e he hedits => by
      have hcount : (i.laidOut render).count e = (i.layouts render).edits.count e +
          ((i.calls render).flatMap LayoutCall.passed).count e := by
        rw [← List.count_append]
        exact (Layouts.perm_calls render i.unit.path .empty (byLength i.methods)).count_eq e
      have hone : (i.laidOut render).count e = 1 :=
        List.count_eq_one_of_mem (Layouts.nodup_edits hms hne) he
      obtain ⟨f, hf, hin, hfe⟩ : ∃ f ∈ i.laidOut render,
          f.range.contains e.range = true ∧ f ≠ e := by
        by_contra hnone
        refine hedits ((hout.mem_iff e).2 ⟨he, fun f hf hin => ?_⟩)
        by_contra hfe
        exact hnone ⟨f, hf, hin, hfe⟩
      rw [List.count_eq_zero_of_not_mem hedits] at hcount
      exact ⟨by omega, Layouts.exists_encloser hms hne he hf hfe hin⟩
    errors := by
      rw [hlayouts, Layouts.errors_foldl]
      rfl
    spliced := splice_eq_patch (fun e he => hrange e ((hout.mem_iff e).1 he).1) hout.disjoint }

/-- The file has edits when some body was laid out. -/
theorem edits_eq_nil_iff (render : Renderer) :
    (i.layouts render).edits = [] ↔ i.laidOut render = [] := by
  have go : ∀ (ms : List Method) (l : Layouts),
      (ms.foldl (Layouts.add render i.unit.path) l).edits = [] ↔
        l.edits = [] ∧ (l.calls render i.unit.path ms).filterMap LayoutCall.edit? = [] := by
    intro ms
    induction ms with
    | nil => simp [Layouts.calls]
    | cons m rest ih =>
      intro l
      have hnil : l.apart m.bodyRange ++ l.within m.bodyRange = [] ↔ l.edits = [] := by
        rw [← List.length_eq_zero_iff, ← (l.perm_within_apart m.bodyRange).length_eq,
          List.length_eq_zero_iff]
      rw [List.foldl_cons, ih, Layouts.filterMap_edit_cons, Layouts.edits_add]
      cases (l.call render m).edit? with
      | none =>
        rw [Option.map_none, Option.getD_none, hnil, Option.toList_none, List.nil_append]
      | some e => simp
  exact (go (byLength i.methods) .empty).trans (and_iff_right rfl)

end Instrumentation

end BranchExclusion
