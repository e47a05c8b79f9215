import BranchExclusion.Proofs.Java.Filed
import BranchExclusion.Proofs.Transform.Legible
import BranchExclusion.Proofs.Transform.Nested

/-!
# Syntax errors of a laid out file

Headers and conditions are kept as they stand in the source, and the layout puts the brace of their
block behind them on the same line. So a file without syntax errors has none when it was transformed,
unless a comment takes such a brace, or a label has lost the statement behind it.

* `Instrumentation.Reads.accepts`: the text of every body that is laid out is read;
* `faults_transformText`: the file is read again;
* `commented_not_readable`, `labeled_not_readable`: files whose output cannot be read, since a header
  ends with a comment, or a comment stands behind a label.
-/

namespace BranchExclusion

open Java
open Java (BodySite Tree)

/-! ### Bodies that are laid out are read -/

/-- The text is read where the tree stands. -/
def Java.Tree.Accepts (t : Tree) (text : List Char) : Prop :=
  ∃ kind, t.kind? = some kind ∧ Readable kind text

theorem Java.Tree.Has.hosts {t u : Tree} {e : Edit} (h : t.Has u) (hrange : e.range = u.extent.range)
    (haccepts : u.Accepts e.text.toList) : t.Hosts e := by
  obtain ⟨kind, hkind, hreadable⟩ := haccepts
  cases u with
  | leaf => cases hkind
  | node k extent parts =>
    cases hkind
    exact ⟨_, extent, parts, h, hrange, hreadable⟩

namespace Instrumentation.Reads

variable {i : Instrumentation} {s : Settings} {source : List Char} {e : Edit} (h : i.Reads s source)
  (hfaults : (Tree.ofSource source).faults = [])
include h hfaults

/-- The bodies that are given to a body get new texts there. -/
theorem renewal_inner {c : LayoutCall} (hc : c ∈ i.calls (.standard s.indent)) {site : BodySite}
    (hs : c.Reads s source site)
    (haccepts : ∀ e ∈ c.inner, ∀ site' ∈ (Tree.ofSource source).sites source,
      e.range = site'.body.extent.range → site'.body.Accepts e.text.toList) :
    Renewal source site.body c.inner where
  tidy := tidy_of_faults hfaults
  wellFormed := (Tree.sited_sites h.wellFormed).wellFormed site hs.mem
  derived hhas _ := hhas.of_hereditary (fun _ ht => ht.forall_parts)
    (Tree.of_mem_sites hfaults hs.mem).2.derived
  stands := Tree.stands_of_mem_sites hs.mem
  disjoint := h.disjoint_inner hc
  hosts e he := by
    obtain ⟨site', hnested, hmem, hrange, -⟩ := h.exists_nested hc hs he
    obtain ⟨hhas, -⟩ := (Tree.of_mem_sites hfaults hs.mem).2.of_mem_nested hnested
    exact hhas.hosts hrange (haccepts e he site' hmem hrange)

/-- A body that is laid out is read, when the bodies that are given to it are. -/
theorem accepts_of_inner {c : LayoutCall} (hc : c ∈ i.calls (.standard s.indent)) {site : BodySite}
    (hs : c.Reads s source site) (hstyle : s.flagStyle = .standard) {text : String}
    (htext : c.result = .ok text) (hclosed : (site.body.bodyIn source).Closed)
    (haccepts : ∀ e ∈ c.inner, ∀ site' ∈ (Tree.ofSource source).sites source,
      e.range = site'.body.extent.range → site'.body.Accepts e.text.toList) :
    site.body.Accepts text.toList := by
  have hrenewal := h.renewal_inner hfaults hc hs haccepts
  obtain ⟨kind, place, ps, cs, rest, hbody, hbraced, hinside⟩ :=
    (Tree.of_mem_sites hfaults hs.mem).2.exists_parts
  obtain ⟨r, hsettles, hr⟩ := hs.settles
  have htree := Tree.treeShaped_bodyIn source site.body
  let p : Layout.Printer := ⟨c.method.body, c.method.indent.toList, s.indent.toList, c.inner⟩
  have hread : LegibleBlocks kind p (site.method source).body :=
    hrenewal.legibleBlocks_bodyIn rfl hbraced hinside hbody hclosed
  have hblocks : LegibleBlocks kind p c.method.body := hr ▸ hsettles.legibleBlocks htree hstyle hread
  have hplaced : c.method.body.TreeShaped := hr ▸ hsettles.treeShaped htree
  have hindent : ∀ depth, Layout.Indent (p.indent depth) := fun depth =>
    Layout.forall_mem_indentation hs.indent h.indent depth
  exact ⟨kind, by rw [hbody]; rfl,
    readable_renderBody hbraced ⟨hblocks, hindent, hplaced⟩ (hs.rendered text htext)⟩

/-- **The text of every body that is laid out is read**, when the statements of all these bodies are
closed. -/
theorem accepts (hstyle : s.flagStyle = .standard)
    (hclosed : ∀ site ∈ (Tree.ofSource source).sites source,
      (∃ e ∈ i.laidOut (.standard s.indent), e.range = site.body.extent.range) →
        (site.body.bodyIn source).Closed) :
    ∀ e ∈ i.laidOut (.standard s.indent), ∀ site ∈ (Tree.ofSource source).sites source,
      e.range = site.body.extent.range → site.body.Accepts e.text.toList := by
  intro e he site hsite hrange
  -- the bodies that are given to a body are shorter
  induction hlength : e.range.length using Nat.strong_induction_on generalizing e site with
  | _ n ih =>
    obtain ⟨c, hc, hresult, site', hread, hrange'⟩ := h.exists_site he
    have hsited : Tree.Sited source _ _ _ := Tree.sited_sites h.wellFormed
    obtain rfl : site = site' := hsited.eq_of_start_eq hsite hread.mem
      (congrArg ByteRange.start (hrange.symm.trans hrange'))
    refine h.accepts_of_inner hfaults hc hread hstyle hresult (hclosed site hsite ⟨e, he, hrange⟩)
      fun f hf site' hsite' hrange'' => ?_
    obtain ⟨-, -, -, -, hmem, hin, hnot⟩ := h.exists_nested hc hread hf
    refine ih _ ?_ f hmem site' hsite' hrange'' rfl
    have hfits := Tree.fits_of_mem_sites h.wellFormed hsite
    have hfits' := Tree.fits_of_mem_sites h.wellFormed hsite'
    rw [← hrange''] at hfits'
    have hlt := hfits.nonempty
    have hlt' := hfits'.nonempty
    obtain ⟨hlo, hhi⟩ := ByteRange.contains_iff.1 hin
    rw [Bool.eq_false_iff, Ne, ByteRange.contains_iff] at hnot
    rw [← hlength, hrange]
    simp only [ByteRange.length]
    omega

/-- The bodies that are laid out and lie in no other one get new texts in the file. -/
theorem renewal_file (haccepts : ∀ e ∈ i.laidOut (.standard s.indent),
      ∀ site ∈ (Tree.ofSource source).sites source, e.range = site.body.extent.range →
        site.body.Accepts e.text.toList) :
    Renewal source (Tree.ofSource source) (i.layouts (.standard s.indent)).edits where
  tidy := tidy_of_faults hfaults
  wellFormed := h.wellFormed
  derived hhas hbraced := hhas.derived hfaults hbraced
  stands := Tree.stands_ofSource source
  disjoint := (placedOnce h.laminar h.nodup (.standard s.indent)).disjoint
  hosts e he := by
    have hlaid := (((placedOnce h.laminar h.nodup (.standard s.indent)).outermost e).1 he).1
    obtain ⟨_, -, -, site, hread, hrange⟩ := h.exists_site hlaid
    exact (Tree.of_mem_sites hfaults hread.mem).1.hosts hrange (haccepts e hlaid site hread.mem hrange)

end Instrumentation.Reads

/-! ### Files -/

/-- **The output has no syntax errors.** A file without syntax errors is transformed, whatever the
settings. With the standard flags the output has no syntax errors either, when the statements of all
bodies that are laid out are closed. -/
theorem faults_transformText (s : Settings) (path source : String) (hs : s.validate = .ok ())
    (hstyle : s.flagStyle = .standard) (hfaults : (readUnit path source).faults = []) :
    ∃ i r, (readUnit path source).instrument s = .ok i ∧
      (transformText s path source).result = .ok r ∧
      ((∀ m ∈ (readUnit path source).methods,
          (∃ e ∈ i.laidOut (.standard s.indent), e.range = m.bodyRange) → m.body.Closed) →
        (readUnit path r.output).faults = []) := by
  obtain ⟨i, r, hi, hr, hreads, hsplice⟩ := exists_transformed s path source hs hfaults
  refine ⟨i, r, hi, hr, fun hclosed => ?_⟩
  have htree : (Tree.ofSource source.toList).faults = [] := List.map_eq_nil_iff.1 hfaults
  have haccepts := hreads.accepts htree hstyle fun site hsite hlaid =>
    hclosed _ (List.mem_map_of_mem hsite) hlaid
  have hout := (hreads.renewal_file htree haccepts).faults_splice htree hsplice
  exact List.map_eq_nil_iff.2 hout

/-- A loop whose header ends with a comment that is closed, and two conditionals. -/
def closedSource : String :=
  "class A\x7bvoid f()\x7bwhile(a)/*w*/\x7bx();\x7d//k\nif(a)\x7by();\x7d\nif(b)\x7bz();\x7d\x7d\x7d"

/-- The result can be read. -/
theorem faults_transformText_closed :
    Settings.standard.validate = .ok () ∧ Settings.standard.flagStyle = .standard ∧
      (readUnit "A.java" closedSource).faults = [] ∧
      (∀ m ∈ (readUnit "A.java" closedSource).methods, m.body.Closed) ∧
      ∃ r, (transformText .standard "A.java" closedSource).result = .ok r ∧
        (readUnit "A.java" r.output).faults = [] := by
  have hread : (readUnit "A.java" closedSource).faults = [] ∧
      ∀ m ∈ (readUnit "A.java" closedSource).methods, m.body.Closed := by
    decide +kernel
  obtain ⟨i, r, -, hr, hfaults⟩ := faults_transformText .standard "A.java" closedSource rfl rfl hread.1
  exact ⟨rfl, rfl, hread.1, hread.2, r, hr, hfaults fun m hm _ => hread.2 m hm⟩

/-! ### A comment before a brace -/

/-- A loop whose header ends with a comment, and two conditionals. -/
def commentedSource : String :=
  "class A\x7bvoid f()\x7bwhile(a)//w\n\x7bx();\x7dif(a)\x7by();\x7d\nif(b)\x7bz();\x7d\x7d\x7d"

/-- The body of its method. -/
def commentedBody : Body where
  blocks := #[
    ⟨[.compound ⟨.whileLoop, "while(a)//w", 1, none, ⟨1, 17, 2, 6⟩⟩,
      .conditional ⟨2, .source "a", some 2, none, ⟨2, 6, 2, 17⟩⟩,
      .conditional ⟨3, .source "b", some 3, none, ⟨3, 0, 3, 11⟩⟩],
      ⟨1, 16, 3, 12⟩, true, false, false⟩,
    ⟨[.other ⟨"x();", ⟨30, 34⟩, ⟨2, 1, 2, 5⟩⟩], ⟨2, 0, 2, 6⟩, true, false, false⟩,
    ⟨[.other ⟨"y();", ⟨41, 45⟩, ⟨2, 12, 2, 16⟩⟩], ⟨2, 11, 2, 17⟩, true, false, false⟩,
    ⟨[.other ⟨"z();", ⟨53, 57⟩, ⟨3, 6, 3, 10⟩⟩], ⟨3, 5, 3, 11⟩, true, false, false⟩]

/-- The file as it is read. -/
def commentedUnit : SourceUnit :=
  ⟨"A.java", commentedSource, [⟨"A", "f", ⟨1, 8, 3, 12⟩, ⟨16, 59⟩, "", commentedBody⟩], []⟩

/-- The text of the file with its chain of two flags. The comment has taken a brace. -/
def commentedOutput : String :=
  "class A\x7bvoid f()\x7b\n    boolean branch2 = false;\n    boolean branch3 = false;\n" ++
  "    while(a)//w \x7b\n        x();\n    \x7d\n    if (a) \x7b\n        branch2 = true;\n" ++
  "        y();\n    \x7d\n    if (b) \x7b\n        branch3 = true;\n        z();\n    \x7d\n" ++
  "    assert branch2 ^ branch3;\n\x7d\x7d"

/-- The file is read without a syntax error and transformed, and the result cannot be read. -/
theorem commented_not_readable :
    (readUnit "A.java" commentedSource).faults = [] ∧ Settings.standard.validate = .ok () ∧
      ∃ r, (transformText .standard "A.java" commentedSource).result = .ok r ∧
        r.output = commentedOutput ∧
        (readUnit "A.java" r.output).faults = [⟨"Unexpected syntax", ⟨8, 22, 9, 12⟩⟩,
          ⟨"Unexpected syntax", ⟨12, 22, 13, 12⟩⟩, ⟨"Unexpected syntax", ⟨16, 1, 16, 2⟩⟩] := by
  have hread : readUnit "A.java" commentedSource = commentedUnit := by decide +kernel
  have houtput : (transformText .standard "A.java" commentedSource).result.toOption.map
      FileResult.output = some commentedOutput := by
    unfold transformText
    rw [hread]
    decide +kernel
  have hfaults : (readUnit "A.java" commentedOutput).faults =
      [⟨"Unexpected syntax", ⟨8, 22, 9, 12⟩⟩, ⟨"Unexpected syntax", ⟨12, 22, 13, 12⟩⟩,
        ⟨"Unexpected syntax", ⟨16, 1, 16, 2⟩⟩] := by
    decide +kernel
  obtain ⟨r, hr, hr'⟩ := exists_of_output houtput
  exact ⟨by rw [hread]; rfl, rfl, r, hr, hr', hr' ▸ hfaults⟩

/-! ### A comment behind a label -/

/-- A label with a comment before its empty statement, and two conditionals. -/
def labeledSource : String :=
  "class A\x7bvoid f()\x7bif(a)\x7bc:/*d*/;\x7d\nif(b)\x7by();\x7d\x7d\x7d"

/-- The body of its method, where the comment is the statement behind the label. -/
def labeledBody : Body where
  blocks := #[
    ⟨[.conditional ⟨1, .source "a", some 1, none, ⟨1, 17, 1, 32⟩⟩,
      .conditional ⟨2, .source "b", some 2, none, ⟨2, 0, 2, 11⟩⟩],
      ⟨1, 16, 2, 12⟩, true, false, false⟩,
    ⟨[.labeled "c" (.comment "/*d*/" ⟨1, 25, 1, 30⟩) ⟨1, 23, 1, 31⟩], ⟨1, 22, 1, 32⟩, true, false,
      false⟩,
    ⟨[.other ⟨"y();", ⟨39, 43⟩, ⟨2, 6, 2, 10⟩⟩], ⟨2, 5, 2, 11⟩, true, false, false⟩]

/-- The file as it is read. -/
def labeledUnit : SourceUnit :=
  ⟨"A.java", labeledSource, [⟨"A", "f", ⟨1, 8, 2, 12⟩, ⟨16, 45⟩, "", labeledBody⟩], []⟩

/-- The text of the file with its chain of two flags. The label has lost its statement. -/
def labeledOutput : String :=
  "class A\x7bvoid f()\x7b\n    boolean branch1 = false;\n    boolean branch2 = false;\n" ++
  "    if (a) \x7b\n        branch1 = true;\n        c: /*d*/\n    \x7d\n" ++
  "    if (b) \x7b\n        branch2 = true;\n        y();\n    \x7d\n" ++
  "    assert branch1 ^ branch2;\n\x7d\x7d"

/-- The file is read without a syntax error and transformed, and the result cannot be read. -/
theorem labeled_not_readable :
    (readUnit "A.java" labeledSource).faults = [] ∧
      ∃ r, (transformText .standard "A.java" labeledSource).result = .ok r ∧
        r.output = labeledOutput ∧
        (readUnit "A.java" r.output).faults = [⟨"Missing \"statement\"", ⟨6, 10, 6, 10⟩⟩] := by
  have hread : readUnit "A.java" labeledSource = labeledUnit := by decide +kernel
  have houtput : (transformText .standard "A.java" labeledSource).result.toOption.map
      FileResult.output = some labeledOutput := by
    unfold transformText
    rw [hread]
    decide +kernel
  have hfaults : (readUnit "A.java" labeledOutput).faults =
      [⟨"Missing \"statement\"", ⟨6, 10, 6, 10⟩⟩] := by
    decide +kernel
  obtain ⟨r, hr, hr'⟩ := exists_of_output houtput
  exact ⟨by rw [hread]; rfl, r, hr, hr', hr' ▸ hfaults⟩

end BranchExclusion
