import BranchExclusion.Proofs.Method.Text
import BranchExclusion.Proofs.Transform.Nested

/-!
# Comments of a laid out file

A body is laid out from its statements, and becomes part of the statement around it that is kept as
text. So its text survives all the way up to the file.

* `Instrumentation.survives`: the text of every body that is laid out survives in the file;
* `comments_recur`: so does a comment that a statement of its body shows.
-/

namespace BranchExclusion

open Java (BodySite Token Tree)
open Text (Recurs Survives byteLength)

/-- A comment in a stretch of source that a statement of the body shows. -/
structure Java.BodySite.ShowsComment (source : List Char) (s : BodySite) (t : Token) : Prop where
  token : t ∈ Java.tokens source
  isComment : t.isComment = true
  shown : ∃ k ∈ Tree.stretchesOfStatements source s.body.parts,
    k.contains t.extent.range = true

/-- What becomes of a method keeps its source text. -/
theorem Method.Settles.keptBy {s : Settings} {m : Method} {r : Settled} (h : m.Settles s r)
    (tree : m.body.TreeShaped) :
    ∃ after, r.method = { m with body := after } ∧ m.body.KeptBy after := by
  obtain ⟨after, placed, d, a, e, hf, -, hw, hmethod, -⟩ := h.exists_woven tree
  exact ⟨placed, hmethod, hf.keptBy.trans hw.keptBy⟩

/-- The source text of a body that is laid out is that of the one that was read. -/
theorem LayoutCall.Reads.kept {s : Settings} {source : List Char} {c : LayoutCall} {site : BodySite}
    (h : c.Reads s source site) : (site.body.bodyIn source).KeptBy c.method.body := by
  obtain ⟨r, hsettles, hr⟩ := h.settles
  obtain ⟨after, hmethod, hkept⟩ := hsettles.keptBy (Tree.treeShaped_bodyIn source site.body)
  rw [← hr, hmethod]
  exact hkept

namespace Instrumentation.Reads

variable {i : Instrumentation} {s : Settings} {source : List Char} {e : Edit} (h : i.Reads s source)
include h

/-- The text of a body survives in that of the body it is given to. -/
theorem survives_inner {c : LayoutCall} (hc : c ∈ i.calls (.standard s.indent)) {text : String}
    (htext : c.result = .ok text) (he : e ∈ c.inner) : Survives e.text.toList text.toList := by
  obtain ⟨site, hs⟩ := h.calls c hc
  obtain ⟨site', hnested, hmem, hrange, -⟩ := h.exists_nested hc hs he
  have hsited : Tree.Sited source _ _ _ := Tree.sited_sites h.wellFormed
  have hwithin := (hsited.within site' hmem).2.1
  have hw := hsited.wellFormed site hs.mem
  -- a statement of the body around it is kept as text, and holds it
  obtain ⟨v, hv, hvin⟩ : ∃ v ∈ (site.body.bodyIn source).verbatims,
      v.range.contains site'.body.extent.range = true := by
    rw [← List.countP_pos_iff, Tree.countP_verbatims hw hnested hwithin]
    exact Nat.one_pos
  exact hs.kept.survives_nested (Tree.readFrom_bodyIn hw) hs.indent h.indent (hs.rendered text htext)
    hv he (hrange ▸ hwithin) (hrange ▸ hvin)

/-- **The text of every body that is laid out survives in the file.** It is an edit of the file, or
part of the text of a longer body, for which the same holds. -/
theorem survives {output : List Char}
    (hsplice : splice source (i.layouts (.standard s.indent)).edits = .ok output)
    (he : e ∈ i.laidOut (.standard s.indent)) : Survives e.text.toList output := by
  have hplaced := placedOnce h.laminar h.nodup (.standard s.indent)
  -- the induction is on what the body leaves of the source
  induction hlength : byteLength source - e.range.length using Nat.strong_induction_on
    generalizing e with
  | _ n ih =>
    by_cases hedit : e ∈ (i.layouts (.standard s.indent)).edits
    · exact .of_isInfix ((splice_keeps hsplice).1 e hedit)
    · obtain ⟨-, c, hc, outer, houter, hinner, -, hin, -⟩ := hplaced.passed e he hedit
      have hlaid : outer ∈ i.laidOut (.standard s.indent) := List.mem_filterMap.2 ⟨c, hc, houter⟩
      obtain ⟨hrange, hresult⟩ := LayoutCall.edit?_eq_some.1 houter
      obtain ⟨_, -, -, site, hs, hs'⟩ := h.exists_site hlaid
      have hfits := Java.Tree.fits_of_mem_sites h.wellFormed hs.mem
      obtain ⟨-, -, hnot⟩ := h.of_mem_inner hc hinner
      rw [← hrange] at hnot
      have hlonger : byteLength source - outer.range.length < n := by
        rw [← hs'] at hfits
        have hinside := hfits.inside
        have hlt := hfits.nonempty
        obtain ⟨hlo, hhi⟩ := ByteRange.contains_iff.1 hin
        rw [Bool.eq_false_iff, Ne, ByteRange.contains_iff] at hnot
        simp only [ByteRange.length] at hlength ⊢
        omega
      exact (h.survives_inner hc hresult hinner).trans (ih _ hlonger hlaid rfl)

/-- What a statement shows of the source recurs in the text of the body, when nothing that is laid
out stands around it within the body. -/
theorem recurs {site : BodySite} {t : Token} (hsite : site.ShowsComment source t)
    {c : LayoutCall} (hc : c ∈ i.calls (.standard s.indent)) {text : String}
    (htext : c.result = .ok text) (hread : c.Reads s source site)
    (hinnermost : ∀ f ∈ i.laidOut (.standard s.indent), f.range.contains t.extent.range = true →
      f.range.contains site.body.extent.range = true) : Recurs t.text.toList text.toList := by
  obtain ⟨hslice, hfits⟩ := Java.text_of_mem_tokens hsite.token
  obtain ⟨k, hk, hin⟩ := hsite.shown
  have hsited : Tree.Sited source _ _ _ := Tree.sited_sites h.wellFormed
  have hw := hsited.wellFormed site hread.mem
  obtain ⟨id, b, t', hr, hb, ht', hkeeps⟩ :=
    Tree.exists_keeps hw (Java.Tree.stands_of_mem_sites hread.mem) hk
  have hrows := Java.rows_trim_of_isComment hsite.token hsite.isComment
  rw [hslice] at hrows ⊢
  refine hread.kept.recurs (Tree.readFrom_bodyIn hw) hread.indent h.indent
    (hread.rendered text htext) hr hb ht' hkeeps hin hfits hrows fun e he => ?_
  obtain ⟨site', -, hs', hrange, hmem, -, hnot⟩ := h.exists_nested hc hread he
  have hplaces := Java.Tree.stands_of_mem_sites hs'
  rcases hplaces.start.contains_or_disjoint hplaces.stop hsite.token with haround | hapart
  · rw [hinnermost e hmem (hrange ▸ haround)] at hnot
    cases hnot
  · exact hrange ▸ hapart

end Instrumentation.Reads

/-! ### Files -/

/-- **Comments that a body shows recur in the file.** Whatever the settings, a file without syntax
errors is transformed. A comment of a body that is laid out recurs in the output, with the same
lines up to white space at their ends, when the innermost body around it that is laid out shows the
stretch of source in which it stands. -/
theorem comments_recur (s : Settings) (path source : String) (hs : s.validate = .ok ())
    (hfaults : (Java.readUnit path source).faults = []) :
    ∃ i r, (Java.readUnit path source).instrument s = .ok i ∧
      (transformText s path source).result = .ok r ∧
      ∀ site ∈ (Tree.ofSource source.toList).sites source.toList,
        ∀ e ∈ i.laidOut (.standard s.indent), e.range = site.body.extent.range →
          ∀ t, site.ShowsComment source.toList t →
            (∀ f ∈ i.laidOut (.standard s.indent), f.range.contains t.extent.range = true →
              f.range.contains e.range = true) → Recurs t.text.toList r.output.toList := by
  obtain ⟨i, r, hi, hr, hreads, hsplice⟩ := Java.exists_transformed s path source hs hfaults
  refine ⟨i, r, hi, hr, fun site hsite e he hrange t ht hinnermost => ?_⟩
  obtain ⟨c, hc, hresult, site', hread, hrange'⟩ := hreads.exists_site he
  have hsited : Tree.Sited source.toList _ _ _ := Tree.sited_sites hreads.wellFormed
  obtain rfl : site = site' := hsited.eq_of_start_eq hsite hread.mem
    (congrArg ByteRange.start (hrange.symm.trans hrange'))
  rw [hrange] at hinnermost
  exact (hreads.survives hsplice he).recurs (hreads.recurs ht hc hresult hread hinnermost)

/-! ### A comment before a branch -/

/-- Two conditionals, with a comment before the branch of the first one and a comment between the
two. -/
def besideSource : String :=
  "class A\x7bvoid f()\x7bif(a)/*w*/\x7bx();\x7d//k\nif(b)\x7by();\x7d\x7d\x7d"

/-- The body of its method, where the first comment is missing. -/
def besideBody : Body where
  blocks := #[
    ⟨[.conditional ⟨1, .source "a", some 1, none, ⟨1, 17, 1, 33⟩⟩,
      .comment "//k" ⟨1, 33, 1, 36⟩,
      .conditional ⟨2, .source "b", some 2, none, ⟨2, 0, 2, 11⟩⟩],
      ⟨1, 16, 2, 12⟩, true, false, false⟩,
    ⟨[.other ⟨"x();", ⟨28, 32⟩, ⟨1, 28, 1, 32⟩⟩], ⟨1, 27, 1, 33⟩, true, false, false⟩,
    ⟨[.other ⟨"y();", ⟨43, 47⟩, ⟨2, 6, 2, 10⟩⟩], ⟨2, 5, 2, 11⟩, true, false, false⟩]

/-- The file as it is read. -/
def besideUnit : SourceUnit :=
  ⟨"A.java", besideSource, [⟨"A", "f", ⟨1, 8, 2, 12⟩, ⟨16, 49⟩, "", besideBody⟩], []⟩

/-- The comments and the stretches of statements in the file. -/
theorem readUnit_besideSource :
    Java.readUnit "A.java" besideSource = besideUnit ∧
      ⟨.comment, "/*w*/", ⟨⟨22, 1, 22⟩, ⟨27, 1, 27⟩⟩⟩ ∈ Java.tokens besideSource.toList ∧
      ⟨.comment, "//k", ⟨⟨33, 1, 33⟩, ⟨36, 1, 36⟩⟩⟩ ∈ Java.tokens besideSource.toList ∧
      (((Tree.ofSource besideSource.toList).sites besideSource.toList).map fun s =>
        (s.body.extent.range, Tree.stretchesOfStatements besideSource.toList s.body.parts)) =
          [(⟨16, 49⟩, [⟨20, 21⟩, ⟨28, 32⟩, ⟨33, 36⟩, ⟨40, 41⟩, ⟨43, 47⟩])] := by
  decide +kernel

theorem faults_besideSource : (Java.readUnit "A.java" besideSource).faults = [] := by
  rw [readUnit_besideSource.1]
  rfl

/-- The text of the file with its chain of two flags. -/
def besideOutput : String :=
  "class A\x7bvoid f()\x7b\n    boolean branch1 = false;\n    boolean branch2 = false;\n" ++
  "    if (a) \x7b\n        branch1 = true;\n        x();\n    \x7d\n    //k\n" ++
  "    if (b) \x7b\n        branch2 = true;\n        y();\n    \x7d\n" ++
  "    assert branch1 ^ branch2;\n\x7d\x7d"

/-- The body is laid out, and the text does not hold the first comment. -/
theorem output_besideSource :
    (transformText .standard "A.java" besideSource).result.toOption.map FileResult.output =
        some besideOutput ∧
      (((Java.readUnit "A.java" besideSource).instrument .standard).toOption.map fun i =>
        (i.laidOut (.standard Settings.standard.indent)).map Edit.range) = some [⟨16, 49⟩] ∧
      ¬ "/*w*/".toList <:+: besideOutput.toList := by
  unfold transformText
  rw [readUnit_besideSource.1]
  decide +kernel

theorem laidOut_besideSource {i : Instrumentation}
    (hi : (Java.readUnit "A.java" besideSource).instrument .standard = .ok i) :
    ∃ e, i.laidOut (.standard Settings.standard.indent) = [e] ∧ e.range = ⟨16, 49⟩ := by
  have hall := output_besideSource.2.1
  rw [hi] at hall
  exact List.map_eq_singleton_iff.1 (Option.some.inj hall)

/-- The comment between the conditionals recurs. -/
theorem comments_recur_between :
    Settings.standard.validate = .ok () ∧ (Java.readUnit "A.java" besideSource).faults = [] ∧
      ∃ r, (transformText .standard "A.java" besideSource).result = .ok r ∧
        Recurs "//k".toList r.output.toList := by
  obtain ⟨i, r, hi, hr, hrecurs⟩ :=
    comments_recur .standard "A.java" besideSource rfl faults_besideSource
  obtain ⟨e, hlaid, he⟩ := laidOut_besideSource hi
  obtain ⟨-, -, hcomment, hsites⟩ := readUnit_besideSource
  obtain ⟨site, hsite, hshows⟩ := List.map_eq_singleton_iff.1 hsites
  obtain ⟨hrange, hstretches⟩ := Prod.mk.inj hshows
  have hshown : site.ShowsComment besideSource.toList
      ⟨.comment, "//k", ⟨⟨33, 1, 33⟩, ⟨36, 1, 36⟩⟩⟩ := by
    refine ⟨hcomment, rfl, ⟨33, 36⟩, ?_, rfl⟩
    rw [hstretches]
    decide
  refine ⟨rfl, faults_besideSource, r, hr,
    hrecurs site ?_ e ?_ (he.trans hrange.symm) _ hshown fun f hf _ => ?_⟩
  · rw [hsite]
    exact List.mem_singleton.2 rfl
  · rw [hlaid]
    exact List.mem_singleton.2 rfl
  · rw [hlaid, List.mem_singleton] at hf
    rw [hf, ByteRange.contains_self]

/-- The comment before the branch is lost. The file is read without a syntax error, its body is laid
out, and the comment stands in it. -/
theorem comment_lost :
    (Java.readUnit "A.java" besideSource).faults = [] ∧ Settings.standard.validate = .ok () ∧
      ∃ i r, (Java.readUnit "A.java" besideSource).instrument .standard = .ok i ∧
        (transformText .standard "A.java" besideSource).result = .ok r ∧
        ∃ e ∈ i.laidOut (.standard Settings.standard.indent), ∃ t ∈ Java.tokens besideSource.toList,
          t.isComment = true ∧ e.range.contains t.extent.range = true ∧
            ¬ Recurs t.text.toList r.output.toList := by
  obtain ⟨i, hi, -⟩ := (Java.readUnit "A.java" besideSource).exists_instrument .standard
    (Java.treeShaped_readUnit "A.java" besideSource)
  obtain ⟨e, hlaid, he⟩ := laidOut_besideSource hi
  have hsolid : Text.Solid "/*w*/".toList := ⟨rfl, rfl⟩
  have hlost : ¬ Recurs "/*w*/".toList besideOutput.toList := by
    rw [hsolid.recurs_iff (by decide)]
    exact output_besideSource.2.2
  obtain ⟨r, hresult, hr⟩ := exists_of_output output_besideSource.1
  refine ⟨faults_besideSource, rfl, i, r, hi, hresult, e, ?_,
    ⟨.comment, "/*w*/", ⟨⟨22, 1, 22⟩, ⟨27, 1, 27⟩⟩⟩, readUnit_besideSource.2.1, rfl, ?_, hr ▸ hlost⟩
  · rw [hlaid]
    exact List.mem_singleton.2 rfl
  · rw [he]
    decide

end BranchExclusion
