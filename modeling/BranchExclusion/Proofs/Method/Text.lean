import BranchExclusion.Proofs.Chain.Instrument
import BranchExclusion.Proofs.Java.Stretches
import BranchExclusion.Proofs.Layout.Folding

/-!
# The source text of a method

Discovery and instrumentation leave the source text of a body alone, and the layout moves its lines.

* `Body.KeptBy`: every statement of a body stands in another one with the same source text;
* `Body.KeptBy.recurs`: what a statement shows recurs in the text of the body;
* `Body.KeptBy.survives_nested`: so does the text of a body that is nested in a statement.
-/

namespace BranchExclusion

open Layout
open Text (Recurs Survives slice trim rows isBoundary)

namespace Statement

theorem Filled.texts_eq {New : BlockId → Prop} {s t : Statement} (h : Statement.Filled New s t) :
    t.texts = s.texts := by
  cases h <;> rfl

theorem Filled.verbatims_eq {New : BlockId → Prop} {s t : Statement}
    (h : Statement.Filled New s t) : t.verbatims = s.verbatims := by
  cases h <;> rfl

end Statement

namespace Body

/-- Every statement of the body stands in `after` too, with the same source text. -/
def KeptBy (body after : Body) : Prop :=
  ∀ ⦃id : BlockId⦄ ⦃b : Block⦄ ⦃s : Statement⦄, body.Reaches root id → body.block id = .ok b →
    s ∈ b.statements → after.Reaches root id ∧ ∃ b' s', after.block id = .ok b' ∧
      s' ∈ b'.statements ∧ s'.texts = s.texts ∧ s'.verbatims = s.verbatims

variable {body after last placed : Body}

theorem KeptBy.refl (body : Body) : body.KeptBy body := fun _ _ s hr hb hs =>
  ⟨hr, _, s, hb, hs, rfl, rfl⟩

theorem KeptBy.trans (h : body.KeptBy after) (h' : after.KeptBy last) : body.KeptBy last := by
  intro id b s hr hb hs
  obtain ⟨hr, b', s', hb', hs', htexts, hverbatims⟩ := h hr hb hs
  obtain ⟨hr, b'', s'', hb'', hs'', htexts', hverbatims'⟩ := h' hr hb' hs'
  exact ⟨hr, b'', s'', hb'', hs'', htexts'.trans htexts, hverbatims'.trans hverbatims⟩

theorem Filled.keptBy (h : body.Filled after) : body.KeptBy after := by
  intro id b s hr hb hs
  obtain ⟨b', hb', hfilled, -⟩ := h.old hb
  obtain ⟨s', hs', hsame⟩ := forall₂_exists_right hfilled hs
  exact ⟨h.reaches hr, b', s', hb', hs', hsame.texts_eq, hsame.verbatims_eq⟩

theorem Woven.keptBy {d a e : BlockId → List Statement} (h : body.Woven placed d a e) :
    body.KeptBy placed := by
  intro id b s hr hb hs
  exact ⟨h.reaches hr, _, s, h.block_eq hb, Block.mem_weave.2 (.inl hs), rfl, rfl⟩

/-! ### Texts that are kept as a whole -/

section Whole

variable {source out : List Char} {v : Verbatim} {p : Printer} {e : Edit} {r : ByteRange}
  (hout : splice v.text.toList (p.inside v.range) = .ok out)
include hout

/-- The bodies in the text are exchanged. -/
theorem text_infix_of_inside (he : e ∈ p.nested) (hne : e.range.start < e.range.stop)
    (hin : v.range.contains e.range = true) : e.text.toList <:+: out := by
  exact (splice_keeps hout).1 (e.relativeTo v.range.start)
    (Printer.mem_inside_of_contains he hne hin)

/-- The rest of the text stays. -/
theorem slice_infix_of_inside
    (htext : v.text.toList = slice source v.range.start v.range.stop)
    (hstart : isBoundary source v.range.start = true) (hin : v.range.contains r = true)
    (hfits : r.Fits source) (hapart : ∀ e ∈ p.nested, e.range.Disjoint r) :
    slice source r.start r.stop <:+: out := by
  obtain ⟨hlo, hhi⟩ := ByteRange.contains_iff.1 hin
  have hlt := hfits.nonempty
  have hstart' : isBoundary v.text.toList (r.start - v.range.start) = true := by
    rw [htext]
    exact Text.isBoundary_slice hlo (by omega) hstart hfits.start
  have hstop' : isBoundary v.text.toList (r.stop - v.range.start) = true := by
    rw [htext]
    exact Text.isBoundary_slice (by omega) hhi hstart hfits.stop
  have hkept := (splice_keeps hout).2 (r.start - v.range.start) (r.stop - v.range.start) (by omega)
    (Text.le_byteLength_of_isBoundary hstop') hstart' hstop' ?_
  · rwa [htext, Text.slice_slice hlo (by omega) hhi hstart hfits.start] at hkept
  · intro e he
    obtain ⟨-, f, hf, hinside, rfl⟩ := Printer.mem_inside.1 he
    obtain ⟨hlo', hhi'⟩ := ByteRange.contains_iff.1 hinside
    show f.range.stop - v.range.start ≤ r.start - v.range.start ∨
      r.stop - v.range.start ≤ f.range.start - v.range.start
    rcases hapart f hf with h | h <;> omega

end Whole

/-! ### The text of a body -/

namespace KeptBy

variable {source : List Char} {unit base text : String} {nested : List Edit} {k r : ByteRange}
  (h : body.KeptBy after) (hread : body.ReadFrom source) (hbase : Indent base.toList)
  (hunit : Indent unit.toList) (hrender : renderBody after unit base nested = .ok text)
include h hread hbase hunit hrender

/-- **A stretch that a statement shows recurs in the text of the body**, when no nested body touches
it. -/
theorem recurs {id : BlockId} {b : Block} {s : Statement} (hr : body.Reaches root id)
    (hb : body.block id = .ok b) (hs : s ∈ b.statements) (hk : s.Keeps source k)
    (hin : k.contains r = true) (hfits : r.Fits source)
    (hrows : rows (trim (slice source r.start r.stop)) = rows (slice source r.start r.stop))
    (hapart : ∀ e ∈ nested, e.range.Disjoint r) :
    Recurs (slice source r.start r.stop) text.toList := by
  obtain ⟨hr', b', s', hb', hs', htexts, hverbatims⟩ := h hr hb hs
  obtain ⟨hshown, hwhole⟩ := survives_of_renderBody hbase hunit hrender hr' hb' hs'
  rcases hk with ⟨v, hv, rfl, hstart⟩ | ⟨t, ht, hpieces⟩
  · obtain ⟨out, hout, hsurvives⟩ := hwhole v (hverbatims ▸ hv)
    have hmem : v ∈ body.verbatims :=
      List.mem_flatMap.2 ⟨b, Array.mem_toList_iff.2 (Array.mem_of_getElem? (block_eq_ok.1 hb)),
        List.mem_flatMap.2 ⟨s, hs, hv⟩⟩
    exact hsurvives _
      (slice_infix_of_inside hout (hread.text v hmem) hstart hin hfits hapart)
  · exact (hshown t (htexts ▸ ht) _ (hpieces r hin hfits)).congr hrows

/-- The text of a nested body survives, where a statement holds it. -/
theorem survives_nested {e : Edit} {v : Verbatim} (hv : v ∈ body.verbatims) (he : e ∈ nested)
    (hne : e.range.start < e.range.stop) (hin : v.range.contains e.range = true) :
    Survives e.text.toList text.toList := by
  obtain ⟨b, hb, hv⟩ := List.mem_flatMap.1 hv
  obtain ⟨s, hs, hv⟩ := List.mem_flatMap.1 hv
  obtain ⟨id, hid⟩ := List.mem_iff_getElem?.1 hb
  rw [Array.getElem?_toList] at hid
  have hblock := block_eq_ok.2 hid
  have hr := hread.reaches id (lt_size_of_block_eq_ok hblock)
  obtain ⟨hr', b', s', hb', hs', -, hverbatims⟩ := h hr hblock hs
  obtain ⟨out, hout, hsurvives⟩ :=
    (survives_of_renderBody hbase hunit hrender hr' hb' hs').2 v (hverbatims ▸ hv)
  exact hsurvives.anti (text_infix_of_inside hout he hne hin)

end KeptBy

end Body

end BranchExclusion
