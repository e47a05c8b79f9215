import BranchExclusion.Proofs.Java.Places
import BranchExclusion.Proofs.Java.Reading
import BranchExclusion.Proofs.Layout.Reflow
import BranchExclusion.Proofs.Transform.File
import BranchExclusion.Proofs.Transform.Woven

/-!
# Bodies within bodies

The bodies of a file nest, and each that is laid out was read at a place of the file.

* `Java.laminar_readUnit`: the bodies of a file with a well-formed tree nest;
* `LayoutCall.Reads`: a body that is laid out, at the place where it was read;
* `Instrumentation.Reads`: all bodies that are laid out;
* `Java.exists_transformed`: a file without syntax errors is transformed.
-/

namespace BranchExclusion

open Layout (Indent)
open Java (BodySite Place Tree)

/-! ### The bodies of a source -/

namespace Java

variable {source : List Char}

theorem Tree.stands_of_mem_sites {s : BodySite} (hs : s ∈ (ofSource source).sites source) :
    s.body.Stands (Place.Between source) :=
  forall_sites (fun _ h => h.parts) (stands_ofSource source) s hs

theorem Tree.fits_of_mem_sites (hw : (ofSource source).WellFormed) {s : BodySite}
    (hs : s ∈ (ofSource source).sites source) : s.body.extent.range.Fits source := by
  have hplaces := stands_of_mem_sites hs
  exact ⟨((sited_sites hw).within s hs).2.1, Text.le_byteLength_of_isBoundary hplaces.stop.1,
    hplaces.start.1, hplaces.stop.1⟩

theorem methods_readUnit (path source : String) : (readUnit path source).methods =
    ((Tree.ofSource source.toList).sites source.toList).map (BodySite.method source.toList) := rfl

/-- A file without syntax errors has a well-formed tree. -/
theorem wellFormed_of_readUnit {path source : String} (h : (readUnit path source).faults = []) :
    (Tree.ofSource source.toList).WellFormed := by
  exact Tree.wellFormed_ofSource (List.map_eq_nil_iff.1 h)

/-- The bodies of a file nest, when its tree is well formed. -/
theorem laminar_readUnit (path : String) {source : String}
    (hw : (Tree.ofSource source.toList).WellFormed) : (readUnit path source).Laminar := by
  have hsited : Tree.Sited source.toList _ _ _ := Tree.sited_sites hw
  have hranges : (readUnit path source).methods.map Method.bodyRange =
      ((Tree.ofSource source.toList).sites source.toList).map fun s => s.body.extent.range := by
    rw [methods_readUnit, List.map_map]
    rfl
  constructor
  · intro m hm
    rw [methods_readUnit] at hm
    obtain ⟨s, hs, rfl⟩ := List.mem_map.1 hm
    exact Tree.fits_of_mem_sites hw hs
  · rw [hranges, List.Nodup, List.pairwise_map]
    refine hsited.ordered.imp fun {s s'} h heq => ?_
    have hstart : s.start = s'.start := congrArg ByteRange.start heq
    exact absurd h.1 (hstart ▸ Nat.lt_irrefl _)
  · rw [hranges, List.pairwise_map]
    refine hsited.ordered.imp fun {s s'} h => ?_
    rcases h.2 with hbehind | ⟨hin, -⟩
    · exact .inl (.inl hbehind)
    · exact .inr (.inl (ByteRange.contains_iff.2 ⟨Nat.le_of_lt h.1, hin⟩))

theorem indent_lineIndent (source : List Char) (offset : ℕ) :
    Indent (lineIndent source offset).toList := by
  rw [lineIndent, String.toList_ofList]
  exact fun c hc => List.mem_takeWhile_imp hc

end Java

theorem Settings.indent_of_validate {s : Settings} (h : s.validate = .ok ()) :
    Indent s.indent.toList := by
  have hcheck : s.checkIndent = .ok () := by
    unfold validate at h
    obtain ⟨-, -, h⟩ := bind_eq_ok.1 h
    obtain ⟨-, -, h⟩ := bind_eq_ok.1 h
    obtain ⟨-, -, h⟩ := bind_eq_ok.1 h
    exact h
  unfold checkIndent at hcheck
  split at hcheck
  · next hindent =>
    rw [isIndentation, Bool.and_eq_true, List.all_eq_true] at hindent
    exact hindent.2
  · cases hcheck

/-! ### Bodies that are laid out -/

/-- The body that is laid out is what became of the one that was read at this place. -/
structure LayoutCall.Reads (s : Settings) (source : List Char) (c : LayoutCall) (site : BodySite) :
    Prop where
  mem : site ∈ (Tree.ofSource source).sites source
  settles : ∃ r, (site.method source).Settles s r ∧ r.method = c.method
  rendered : ∀ text, c.result = .ok text →
    Layout.renderBody c.method.body s.indent c.method.indent c.inner = .ok text

namespace LayoutCall.Reads

variable {s : Settings} {source : List Char} {c : LayoutCall} {site : BodySite}
  (h : c.Reads s source site)
include h

theorem exists_body : ∃ placed, c.method = { site.method source with body := placed } := by
  obtain ⟨r, hsettles, hr⟩ := h.settles
  obtain ⟨_, placed, _, _, _, -, -, -, hmethod, -⟩ :=
    hsettles.exists_woven (Tree.treeShaped_bodyIn source site.body)
  exact ⟨placed, hr ▸ hmethod⟩

theorem range : c.method.bodyRange = site.body.extent.range := by
  obtain ⟨placed, hplaced⟩ := h.exists_body
  rw [hplaced]
  rfl

theorem indent : Indent c.method.indent.toList := by
  obtain ⟨placed, hplaced⟩ := h.exists_body
  rw [hplaced]
  exact Java.indent_lineIndent source site.body.extent.start.offset

end LayoutCall.Reads

/-- The bodies that are laid out nest, and each was read somewhere in the source. -/
structure Instrumentation.Reads (s : Settings) (source : List Char) (i : Instrumentation) : Prop where
  wellFormed : (Tree.ofSource source).WellFormed
  laminar : i.unit.Laminar
  nodup : i.instrumented.Nodup
  indent : Indent s.indent.toList
  calls : ∀ c ∈ i.calls (.standard s.indent), ∃ site, c.Reads s source site

namespace Instrumentation

theorem exists_reads {i : Instrumentation} {s : Settings} {path source : String}
    {results : List Settled}
    (hresults : List.Forall₂ (Method.Settles s) (Java.readUnit path source).methods results)
    (hcollects : i.Collects (Java.readUnit path source) results) {c : LayoutCall}
    (hc : c ∈ i.calls (.standard s.indent)) : ∃ site, c.Reads s source.toList site := by
  have hmethod : c.method ∈ i.unit.methods := by
    apply mem_unit_of_mem_methods
    rw [← (perm_byLength i.methods).mem_iff,
      ← Layouts.map_method_calls (.standard s.indent) i.unit.path .empty (byLength i.methods)]
    exact List.mem_map_of_mem hc
  rw [hcollects.unit] at hmethod
  obtain ⟨r, hr, hrm⟩ := List.mem_map.1 hmethod
  obtain ⟨m, hm, hsettles⟩ := forall₂_exists_left hresults hr
  obtain ⟨site, hsite, rfl⟩ := List.mem_map.1 hm
  have hresult := Layouts.result_of_mem_calls (.standard s.indent) _ hc
  refine ⟨site, hsite, ⟨r, hsettles, hrm⟩, fun text htext => ?_⟩
  rw [hresult, Renderer.standard] at htext
  cases hrender : Layout.renderBody c.method.body s.indent c.method.indent c.inner with
  | error e =>
    rw [hrender] at htext
    cases htext
  | ok out =>
    rw [hrender] at htext
    exact congrArg Except.ok (Except.ok.inj htext)

namespace Reads

variable {i : Instrumentation} {s : Settings} {source : List Char} {e : Edit} (h : i.Reads s source)
include h

theorem nonempty_methods : ∀ m ∈ byLength i.methods, m.bodyRange.start < m.bodyRange.stop :=
  fun m hm => (h.laminar.fits m
    (mem_unit_of_mem_methods ((perm_byLength i.methods).mem_iff.1 hm))).nonempty

theorem of_mem_inner {c : LayoutCall} (hc : c ∈ i.calls (.standard s.indent)) (he : e ∈ c.inner) :
    e ∈ i.laidOut (.standard s.indent) ∧ c.method.bodyRange.contains e.range = true ∧
      e.range.contains c.method.bodyRange = false :=
  Layouts.of_mem_inner (pairwise_byLength h.laminar h.nodup) h.nonempty_methods hc he

theorem disjoint_inner {c : LayoutCall} (hc : c ∈ i.calls (.standard s.indent)) :
    c.inner.Pairwise fun e f => e.range.Disjoint f.range :=
  Layouts.disjoint_inner (pairwise_byLength h.laminar h.nodup) h.nonempty_methods hc

theorem exists_site (he : e ∈ i.laidOut (.standard s.indent)) : ∃ c ∈ i.calls (.standard s.indent),
    c.result = .ok e.text ∧ ∃ site, c.Reads s source site ∧ e.range = site.body.extent.range := by
  obtain ⟨c, hc, hedit⟩ := List.mem_filterMap.1 he
  obtain ⟨hrange, hresult⟩ := LayoutCall.edit?_eq_some.1 hedit
  obtain ⟨site, hs⟩ := h.calls c hc
  exact ⟨c, hc, hresult, site, hs, hrange.trans hs.range⟩

/-- What a body is given is laid out, and was read in its statements. -/
theorem exists_nested {c : LayoutCall} (hc : c ∈ i.calls (.standard s.indent)) {site : BodySite}
    (hs : c.Reads s source site) (he : e ∈ c.inner) : ∃ site' ∈ site.nested source,
      site' ∈ (Tree.ofSource source).sites source ∧ e.range = site'.body.extent.range ∧
        e ∈ i.laidOut (.standard s.indent) ∧ site.body.extent.range.contains e.range = true ∧
          e.range.contains site.body.extent.range = false := by
  obtain ⟨hmem, hin, hnot⟩ := h.of_mem_inner hc he
  obtain ⟨_, -, -, site', hs', hrange⟩ := h.exists_site hmem
  rw [hs.range] at hin hnot
  have hsited : Tree.Sited source _ _ _ := Tree.sited_sites h.wellFormed
  have hbounds := hin
  rw [hrange] at hbounds
  obtain ⟨hlo, hhi⟩ := ByteRange.contains_iff.1 hbounds
  refine ⟨site', hsited.mem_nested hs.mem hs'.mem (fun heq => ?_) hlo hhi, hs'.mem, hrange, hmem, hin,
    hnot⟩
  rw [hrange, heq, ByteRange.contains_self] at hnot
  cases hnot

end Reads

end Instrumentation

/-! ### Files -/

/-- **A file without syntax errors is transformed**, whatever the settings. -/
theorem Java.exists_transformed (s : Settings) (path source : String) (hs : s.validate = .ok ())
    (hfaults : (readUnit path source).faults = []) : ∃ i r,
      (readUnit path source).instrument s = .ok i ∧ (transformText s path source).result = .ok r ∧
        i.Reads s source.toList ∧
          splice source.toList (i.layouts (.standard s.indent)).edits = .ok r.output.toList := by
  have hw := wellFormed_of_readUnit hfaults
  have htrees := treeShaped_readUnit path source
  obtain ⟨i, results, hi, hresults, hcollects⟩ := (readUnit path source).exists_collects s htrees
  obtain ⟨i', hi', -, hsource, hranges, hnodup⟩ := (readUnit path source).exists_instrument s htrees
  obtain rfl : i = i' := Except.ok.inj (hi.symm.trans hi')
  have hlaminar := (laminar_readUnit path hw).congr hsource hranges
  have hplaced := Instrumentation.placedOnce hlaminar hnodup (.standard s.indent)
  obtain ⟨r, hr, houtput, -⟩ := result_transformText hs hi hplaced.spliced
  refine ⟨i, r, hi, hr, ⟨hw, hlaminar, hnodup, Settings.indent_of_validate hs,
    fun c hc => Instrumentation.exists_reads hresults hcollects hc⟩, ?_⟩
  have hsource' : i.unit.source = source := hsource
  rw [houtput, String.toList_ofList, ← hsource']
  exact hplaced.spliced

end BranchExclusion
