import BranchExclusion.Proofs.Source.Splice
import BranchExclusion.Transform.File

/-!
# Laying out nested bodies

Bodies are laid out one after the other, a body before those around it. The ones that succeed become
edits, which wait until a body around them is laid out or the file is put together.

* `ByteRange.Precedes`: the order in which ranges that nest are met;
* `LayoutCall`, `Layouts.calls`: the bodies that are laid out, with what they are given;
* `Layouts.perm_calls`: what was laid out waits still or was passed on once;
* `Layouts.Outermost`: what waits are the bodies that lie in no other one;
* `Layouts.exists_encloser`: any other body is passed on to the smallest one around it.
-/

namespace BranchExclusion

/-! ### Nested ranges -/

namespace ByteRange

variable {r s t : ByteRange}

/-- The ranges have no common byte, or one lies in the other. -/
def Nests (r s : ByteRange) : Prop :=
  r.Disjoint s ∨ r.contains s = true ∨ s.contains r = true

instance (r s : ByteRange) : Decidable (r.Nests s) :=
  inferInstanceAs (Decidable (r.Disjoint s ∨ r.contains s = true ∨ s.contains r = true))

/-- The ranges have no common byte, or the later one holds the earlier one and more. -/
def Precedes (r s : ByteRange) : Prop :=
  r.Disjoint s ∨ (s.contains r = true ∧ r.contains s = false)

theorem Nests.symm (h : r.Nests s) : s.Nests r := by
  rcases h with h | h | h
  · exact .inl h.symm
  · exact .inr (.inr h)
  · exact .inr (.inl h)

/-- A range that is not longer precedes the other. -/
theorem Nests.precedes (h : r.Nests s) (hr : r.start < r.stop) (hne : r ≠ s)
    (hle : r.length ≤ s.length) : r.Precedes s := by
  have hfalse : r.contains s = false := by
    rw [Bool.eq_false_iff]
    intro hin
    obtain ⟨hlo, hhi⟩ := contains_iff.1 hin
    obtain ⟨rlo, rhi⟩ := r
    obtain ⟨slo, shi⟩ := s
    simp only [length] at *
    exact hne (by congr 1 <;> omega)
  rcases h with h | h | h
  · exact .inl h
  · rw [hfalse] at h
    cases h
  · exact .inr ⟨h, hfalse⟩

theorem not_disjoint (ht : t.start < t.stop) (hr : r.contains t = true) (hs : s.contains t = true) :
    ¬ r.Disjoint s := by
  obtain ⟨hrlo, hrhi⟩ := contains_iff.1 hr
  obtain ⟨hslo, hshi⟩ := contains_iff.1 hs
  rintro (h | h) <;> omega

@[simp] theorem contains_self (r : ByteRange) : r.contains r = true := by simp [contains]

/-- Of two ranges around a third one, the later one holds the earlier one. -/
theorem Precedes.contains (h : r.Precedes s) (ht : t.start < t.stop) (hr : r.contains t = true)
    (hs : s.contains t = true) : s.contains r = true := by
  rcases h with h | h
  · exact absurd h (not_disjoint ht hr hs)
  · exact h.1

/-- No range holds a later one. -/
theorem Precedes.contains_eq_false (h : r.Precedes s) (hs : s.start < s.stop) :
    r.contains s = false := by
  rcases h with h | h
  · rw [Bool.eq_false_iff]
    exact fun hin => not_disjoint hs hin s.contains_self h
  · exact h.2

end ByteRange

/-! ### Bodies that are laid out -/

/-- A body that is laid out. -/
structure LayoutCall where
  method : Method
  /-- The edits within the body, which are placed in its text. -/
  inner : List Edit
  result : Except String String

namespace LayoutCall

/-- The body as an edit of the file. -/
def edit? (c : LayoutCall) : Option Edit :=
  match c.result with
  | .ok text => some ⟨c.method.bodyRange, text⟩
  | .error _ => none

/-- What is reported when the body cannot be laid out. -/
def error? (path : String) (c : LayoutCall) : Option String :=
  match c.result with
  | .ok _ => none
  | .error reason => some (path ++ ": " ++ c.method.qualifiedName ++ ": " ++ reason)

/-- The edits that are now part of the text of the body. -/
def passed (c : LayoutCall) : List Edit := if c.edit?.isSome then c.inner else []

theorem edit?_eq_some {c : LayoutCall} {e : Edit} :
    c.edit? = some e ↔ e.range = c.method.bodyRange ∧ c.result = .ok e.text := by
  obtain ⟨range, text⟩ := e
  unfold edit?
  cases c.result with
  | error => simp
  | ok result => simp [eq_comm]

theorem range_eq {c : LayoutCall} {e : Edit} (h : c.edit? = some e) :
    e.range = c.method.bodyRange := (edit?_eq_some.1 h).1

end LayoutCall

namespace Layouts

variable (render : Renderer) (path : String)

/-- The edits within a range. -/
def within (l : Layouts) (r : ByteRange) : List Edit := l.edits.filter fun e => r.contains e.range

/-- The other edits. -/
def apart (l : Layouts) (r : ByteRange) : List Edit := l.edits.filter fun e => !r.contains e.range

/-- How the body of a method is laid out next. -/
def call (l : Layouts) (m : Method) : LayoutCall :=
  ⟨m, l.within m.bodyRange, render m (l.within m.bodyRange)⟩

/-- The bodies that are laid out, one after the other. -/
def calls (l : Layouts) : List Method → List LayoutCall
  | [] => []
  | m :: rest => l.call render m :: calls (l.add render path m) rest

theorem method_call (l : Layouts) (m : Method) : (l.call render m).method = m := rfl

theorem map_method_calls (l : Layouts) (ms : List Method) :
    (l.calls render path ms).map LayoutCall.method = ms := by
  induction ms generalizing l with
  | nil => rfl
  | cons m rest ih => rw [calls, List.map_cons, ih, method_call]

theorem result_of_mem_calls {l : Layouts} {ms : List Method} {c : LayoutCall}
    (hc : c ∈ l.calls render path ms) : c.result = render c.method c.inner := by
  induction ms generalizing l with
  | nil => cases hc
  | cons m rest ih =>
    rcases List.mem_cons.1 hc with rfl | hc
    · rfl
    · exact ih hc

/-- One more body takes the place of the edits within it, when it can be laid out. -/
theorem edits_add (l : Layouts) (m : Method) : (l.add render path m).edits =
    l.apart m.bodyRange ++
      ((l.call render m).edit?.map fun e => [e]).getD (l.within m.bodyRange) := by
  unfold add LayoutCall.edit? call within apart
  dsimp only
  split <;> simp [*]

theorem errors_add (l : Layouts) (m : Method) : (l.add render path m).errors =
    l.errors ++ ((l.call render m).error? path).toList := by
  unfold add LayoutCall.error? call within
  dsimp only
  split <;> simp [*]

/-- Each body that cannot be laid out is reported. -/
theorem errors_foldl (l : Layouts) (ms : List Method) :
    (ms.foldl (add render path) l).errors =
      l.errors ++ (l.calls render path ms).filterMap (LayoutCall.error? path) := by
  induction ms generalizing l with
  | nil => simp [calls]
  | cons m rest ih =>
    rw [List.foldl_cons, ih, errors_add, calls, List.append_assoc]
    cases h : (l.call render m).error? path <;> simp [h]

theorem perm_within_apart (l : Layouts) (r : ByteRange) :
    l.edits.Perm (l.apart r ++ l.within r) :=
  (List.filter_append_perm _ l.edits).symm.trans List.perm_append_comm

theorem perm_call (l : Layouts) (m : Method) :
    (l.edits ++ (l.call render m).edit?.toList).Perm
      ((l.add render path m).edits ++ (l.call render m).passed) := by
  have hparts := l.perm_within_apart m.bodyRange
  rw [edits_add, LayoutCall.passed]
  cases h : (l.call render m).edit? with
  | none => simpa using hparts
  | some e =>
    have hinner : (l.call render m).inner = l.within m.bodyRange := rfl
    simp only [Option.toList_some, Option.map_some, Option.getD_some, Option.isSome_some, if_true,
      hinner]
    refine (hparts.append_right [e]).trans ?_
    rw [List.append_assoc, List.append_assoc]
    exact List.perm_append_comm.append_left _

theorem filterMap_edit_cons (l : Layouts) (m : Method) (rest : List Method) :
    (l.calls render path (m :: rest)).filterMap LayoutCall.edit? = (l.call render m).edit?.toList ++
      ((l.add render path m).calls render path rest).filterMap LayoutCall.edit? := by
  rw [calls]
  cases h : (l.call render m).edit? <;> simp [h]

/-- Every body that was laid out waits as an edit, or is part of exactly one other one. -/
theorem perm_calls (l : Layouts) (ms : List Method) :
    (l.edits ++ (l.calls render path ms).filterMap LayoutCall.edit?).Perm
      ((ms.foldl (add render path) l).edits ++
        (l.calls render path ms).flatMap LayoutCall.passed) := by
  induction ms generalizing l with
  | nil => simp [calls]
  | cons m rest ih =>
    have hfirst := perm_call render path l m
    have hrest := ih (l.add render path m)
    rw [filterMap_edit_cons, List.foldl_cons, calls, List.flatMap_cons, ← List.append_assoc]
    refine (hfirst.append_right _).trans ?_
    refine (List.perm_append_comm.append_right _).trans ?_
    rw [List.append_assoc]
    exact (hrest.append_left _).trans (List.perm_append_comm_assoc ..)

/-! ### Bodies that lie in no other one -/

/-- The edits are those of `done` that lie in no other one, and they do not overlap. -/
structure Outermost (l : Layouts) (done : List Edit) : Prop where
  mem_iff : ∀ e, e ∈ l.edits ↔
    e ∈ done ∧ ∀ f ∈ done, f.range.contains e.range = true → f = e
  disjoint : l.edits.Pairwise fun e f => e.range.Disjoint f.range

namespace Outermost

variable {l : Layouts} {done : List Edit} {m : Method}

theorem empty : Layouts.empty.Outermost [] := ⟨by simp [Layouts.empty], .nil⟩

/-- One more body, which lies in none of those before. -/
theorem add (h : l.Outermost done) (hdone : ∀ e ∈ done, e.range.Precedes m.bodyRange)
    (hm : m.bodyRange.start < m.bodyRange.stop) :
    (l.add render path m).Outermost (done ++ (l.call render m).edit?.toList) := by
  cases hedit : (l.call render m).edit? with
  | none =>
    have hperm : (l.add render path m).edits.Perm l.edits := by
      rw [edits_add, hedit]
      exact (l.perm_within_apart m.bodyRange).symm
    rw [Option.toList_none, List.append_nil]
    exact ⟨fun e => hperm.mem_iff.trans (h.mem_iff e),
      (hperm.pairwise_iff fun h => h.symm).2 h.disjoint⟩
  | some new =>
    have hrange : new.range = m.bodyRange := LayoutCall.range_eq hedit
    have hedits : (l.add render path m).edits = l.apart m.bodyRange ++ [new] := by
      rw [edits_add, hedit]
      rfl
    have hapart : ∀ e, e ∈ l.apart m.bodyRange ↔
        e ∈ l.edits ∧ m.bodyRange.contains e.range = false := by simp [apart]
    refine ⟨fun e => ?_, ?_⟩
    · rw [hedits, Option.toList_some, List.mem_append, List.mem_append, List.mem_singleton, hapart,
        h.mem_iff e]
      constructor
      · rintro (⟨⟨he, hout⟩, hnot⟩ | rfl)
        · refine ⟨.inl he, fun f hf hin => ?_⟩
          rcases List.mem_append.1 hf with hf | hf
          · exact hout f hf hin
          · rw [List.mem_singleton.1 hf, hrange, hnot] at hin
            cases hin
        · refine ⟨.inr rfl, fun f hf hin => ?_⟩
          rcases List.mem_append.1 hf with hf | hf
          · rw [hrange, (hdone f hf).contains_eq_false hm] at hin
            cases hin
          · exact List.mem_singleton.1 hf
      · rintro ⟨he, hout⟩
        by_cases hnew : e = new
        · exact .inr hnew
        have hmem : e ∈ done := he.resolve_right hnew
        refine .inl ⟨⟨hmem, fun f hf => hout f (List.mem_append_left _ hf)⟩, ?_⟩
        rw [Bool.eq_false_iff]
        intro hin
        exact hnew (hout new (by simp) (hrange ▸ hin)).symm
    · rw [hedits]
      refine List.pairwise_append.2 ⟨h.disjoint.filter _, List.pairwise_singleton .., ?_⟩
      intro e he f hf
      rw [List.mem_singleton.1 hf, hrange]
      obtain ⟨he, hnot⟩ := (hapart e).1 he
      rcases hdone e ((h.mem_iff e).1 he).1 with hd | hd
      · exact hd
      · rw [hnot] at hd
        cases hd.1

/-- The bodies of a whole run, each of which lies in none of those before. -/
theorem foldl {ms : List Method} (h : l.Outermost done)
    (hdone : ∀ e ∈ done, ∀ m ∈ ms, e.range.Precedes m.bodyRange)
    (hms : ms.Pairwise fun m m' => m.bodyRange.Precedes m'.bodyRange)
    (hne : ∀ m ∈ ms, m.bodyRange.start < m.bodyRange.stop) :
    (ms.foldl (Layouts.add render path) l).Outermost
      (done ++ (l.calls render path ms).filterMap LayoutCall.edit?) := by
  induction ms generalizing l done with
  | nil => simpa [calls] using h
  | cons m rest ih =>
    obtain ⟨hm, hrest⟩ := List.pairwise_cons.1 hms
    have hnext := h.add render path (fun e he => hdone e he m (List.mem_cons_self ..))
      (hne m (List.mem_cons_self ..))
    rw [filterMap_edit_cons, ← List.append_assoc]
    refine ih hnext (fun e he m' hm' => ?_) hrest fun m hm => hne m (List.mem_cons_of_mem _ hm)
    rcases List.mem_append.1 he with he | he
    · exact hdone e he m' (List.mem_cons_of_mem _ hm')
    · rw [LayoutCall.range_eq (Option.mem_toList.1 he)]
      exact hm m' hm'

end Outermost

/-- What stands before a call is the run that leads to it. -/
theorem exists_of_calls_eq_append {l : Layouts} {ms : List Method} {pre post : List LayoutCall}
    {c : LayoutCall} (h : l.calls render path ms = pre ++ c :: post) :
    ∃ ms₁ m ms₂, ms = ms₁ ++ m :: ms₂ ∧ pre = l.calls render path ms₁ ∧
      c = (ms₁.foldl (add render path) l).call render m := by
  induction ms generalizing l pre with
  | nil => simp [calls] at h
  | cons m rest ih =>
    rw [calls] at h
    cases pre with
    | nil =>
      cases h
      exact ⟨[], m, rest, rfl, rfl, rfl⟩
    | cons d pre =>
      obtain ⟨rfl, htail⟩ := List.cons.inj h
      obtain ⟨ms₁, m', ms₂, rfl, rfl, rfl⟩ := ih htail
      exact ⟨m :: ms₁, m', ms₂, rfl, rfl, rfl⟩

section Runs

variable {render path} {ms : List Method}
  (hms : ms.Pairwise fun m m' => m.bodyRange.Precedes m'.bodyRange)
  (hne : ∀ m ∈ ms, m.bodyRange.start < m.bodyRange.stop)
include hms hne

/-- Before a call wait the bodies before it that lie in no other one. -/
theorem exists_outermost {pre post : List LayoutCall} {c : LayoutCall}
    (h : empty.calls render path ms = pre ++ c :: post) :
    ∃ (l : Layouts) (m : Method),
      l.Outermost (pre.filterMap LayoutCall.edit?) ∧ c = l.call render m := by
  obtain ⟨ms₁, m, ms₂, rfl, rfl, rfl⟩ := exists_of_calls_eq_append render path h
  obtain ⟨hms₁, -, -⟩ := List.pairwise_append.1 hms
  have hout := Outermost.empty.foldl render path (by simp) hms₁
    fun m hm => hne m (List.mem_append_left _ hm)
  rw [List.nil_append] at hout
  exact ⟨_, m, hout, rfl⟩

/-- A call is given the bodies before it that lie in its own and in no other one before it. -/
theorem mem_inner {pre post : List LayoutCall} {c : LayoutCall}
    (h : empty.calls render path ms = pre ++ c :: post) (e : Edit) :
    e ∈ c.inner ↔ (e ∈ pre.filterMap LayoutCall.edit? ∧
      ∀ f ∈ pre.filterMap LayoutCall.edit?, f.range.contains e.range = true → f = e) ∧
        c.method.bodyRange.contains e.range = true := by
  obtain ⟨l, m, hout, rfl⟩ := exists_outermost hms hne h
  rw [call, within, List.mem_filter, hout.mem_iff e]

/-- What a call is given was laid out before, and lies in its body. -/
theorem of_mem_inner {c : LayoutCall} (hc : c ∈ empty.calls render path ms) {e : Edit}
    (he : e ∈ c.inner) : e ∈ (empty.calls render path ms).filterMap LayoutCall.edit? ∧
      c.method.bodyRange.contains e.range = true ∧
        e.range.contains c.method.bodyRange = false := by
  obtain ⟨pre, post, hsplit⟩ := List.append_of_mem hc
  obtain ⟨⟨hpre, -⟩, hin⟩ := (mem_inner hms hne hsplit e).1 he
  obtain ⟨d, hd, hedit⟩ := List.mem_filterMap.1 hpre
  refine ⟨?_, hin, ?_⟩
  · rw [hsplit]
    exact List.mem_filterMap.2 ⟨d, List.mem_append_left _ hd, hedit⟩
  · rw [← map_method_calls render path empty ms] at hms hne
    have hprecedes : d.method.bodyRange.Precedes c.method.bodyRange := by
      rw [hsplit, List.map_append, List.map_cons] at hms
      exact (List.pairwise_append.1 hms).2.2 _ (List.mem_map_of_mem hd) _ (List.mem_cons_self ..)
    rw [LayoutCall.range_eq hedit]
    exact hprecedes.contains_eq_false (hne _ (List.mem_map_of_mem hc))

/-- What a call is given does not overlap. -/
theorem disjoint_inner {c : LayoutCall} (hc : c ∈ empty.calls render path ms) :
    c.inner.Pairwise fun e f => e.range.Disjoint f.range := by
  obtain ⟨pre, post, hsplit⟩ := List.append_of_mem hc
  obtain ⟨l, m, hout, rfl⟩ := exists_outermost hms hne hsplit
  exact hout.disjoint.filter _

omit hne in
/-- The bodies that are laid out nest in this order. -/
theorem pairwise_edits : ((empty.calls render path ms).filterMap LayoutCall.edit?).Pairwise
    fun e f => e.range.Precedes f.range := by
  have hcalls : (empty.calls render path ms).Pairwise fun c d =>
      c.method.bodyRange.Precedes d.method.bodyRange := by
    rw [← map_method_calls render path empty ms, List.pairwise_map] at hms
    exact hms
  rw [List.pairwise_filterMap]
  refine hcalls.imp fun {c d} h e he f hf => ?_
  rw [LayoutCall.range_eq he, LayoutCall.range_eq hf]
  exact h

omit hms in
theorem nonempty_of_mem {e : Edit}
    (he : e ∈ (empty.calls render path ms).filterMap LayoutCall.edit?) :
    e.range.start < e.range.stop := by
  obtain ⟨c, hc, hedit⟩ := List.mem_filterMap.1 he
  rw [LayoutCall.range_eq hedit]
  apply hne
  rw [← map_method_calls render path empty ms]
  exact List.mem_map_of_mem hc

theorem nodup_edits : ((empty.calls render path ms).filterMap LayoutCall.edit?).Nodup := by
  refine (pairwise_edits hms).imp_of_mem fun {e f} he hf h heq => ?_
  subst heq
  have hfalse := h.contains_eq_false (nonempty_of_mem hne hf)
  rw [e.range.contains_self] at hfalse
  cases hfalse

/-- A body around which others were laid out became part of the smallest of them. -/
theorem exists_encloser {e f : Edit}
    (he : e ∈ (empty.calls render path ms).filterMap LayoutCall.edit?)
    (hf : f ∈ (empty.calls render path ms).filterMap LayoutCall.edit?) (hfe : f ≠ e)
    (hin : f.range.contains e.range = true) :
    ∃ c ∈ empty.calls render path ms, ∃ outer, c.edit? = some outer ∧ e ∈ c.inner ∧ outer ≠ e ∧
      outer.range.contains e.range = true ∧
      ∀ g ∈ (empty.calls render path ms).filterMap LayoutCall.edit?, g ≠ e →
        g.range.contains e.range = true → g.range.contains outer.range = true := by
  have hpos := nonempty_of_mem hne he
  -- the first body around it that was laid out
  let around : LayoutCall → Bool := fun c =>
    c.edit?.any fun g => g ≠ e && g.range.contains e.range
  have hsome : ((empty.calls render path ms).find? around).isSome := by
    obtain ⟨c, hc, hedit⟩ := List.mem_filterMap.1 hf
    rw [List.find?_isSome]
    exact ⟨c, hc, by simp [around, hedit, hfe, hin]⟩
  obtain ⟨c, hfind⟩ := Option.isSome_iff_exists.1 hsome
  obtain ⟨haround, pre, post, hsplit, hpre⟩ := List.find?_eq_some_iff_append.1 hfind
  obtain ⟨outer, hedit, houter⟩ := (Option.any_eq_true _ _).1 haround
  obtain ⟨hne_outer, hin_outer⟩ : outer ≠ e ∧ outer.range.contains e.range = true := by
    simpa using houter
  have hbefore : ∀ g ∈ pre.filterMap LayoutCall.edit?, g.range.contains e.range = true → g = e := by
    intro g hg hgin
    obtain ⟨d, hd, hdedit⟩ := List.mem_filterMap.1 hg
    by_contra hge
    have := hpre d hd
    simp [around, hdedit, hge, hgin] at this
  have hdone : (empty.calls render path ms).filterMap LayoutCall.edit? =
      pre.filterMap LayoutCall.edit? ++ outer :: post.filterMap LayoutCall.edit? := by
    rw [hsplit, List.filterMap_append, List.filterMap_cons_some hedit]
  have hlater : ∀ g ∈ post.filterMap LayoutCall.edit?, outer.range.Precedes g.range := by
    have hpair : ((empty.calls render path ms).filterMap LayoutCall.edit?).Pairwise _ :=
      pairwise_edits hms
    rw [hdone] at hpair
    exact (List.pairwise_cons.1 (List.pairwise_append.1 hpair).2.1).1
  refine ⟨c, ?_, outer, hedit, ?_, hne_outer, hin_outer, fun g hg hge hgin => ?_⟩
  · rw [hsplit]
    exact List.mem_append_right _ (List.mem_cons_self ..)
  · rw [mem_inner hms hne hsplit e, ← LayoutCall.range_eq hedit]
    refine ⟨⟨?_, hbefore⟩, hin_outer⟩
    rw [hdone, List.mem_append, List.mem_cons] at he
    rcases he with he | rfl | he
    · exact he
    · exact absurd rfl hne_outer
    · -- a later body does not lie in an earlier one
      rw [(hlater e he).contains_eq_false hpos] at hin_outer
      cases hin_outer
  · rw [hdone, List.mem_append, List.mem_cons] at hg
    rcases hg with hg | rfl | hg
    · exact absurd (hbefore g hg hgin) hge
    · exact g.range.contains_self
    · exact (hlater g hg).contains hpos hin_outer hgin

end Runs

end Layouts

/-- A file is modified only when some body was instrumented. -/
theorem Instrumentation.modified_of_finish {i : Instrumentation} {unit : String} {r : FileResult}
    (h : (i.finish unit).result = .ok r) (hr : r.modified = true) : i.modified = true := by
  by_contra hnone
  have hempty : i.instrumented = [] := by simpa [modified] using hnone
  have hlayouts : i.layouts (.standard unit) = .empty := by
    rw [layouts, hempty]
    simp [byLength]
  unfold finish at h
  rw [hlayouts] at h
  dsimp only at h
  split at h
  · cases h
  · cases h
    cases hr
end BranchExclusion
