import BranchExclusion.Text.Basic
import Mathlib.Data.List.DropRight
import Mathlib.Tactic

/-!
# Texts that recur line by line

* `rows`: the lines of a text, each without white space at its ends;
* `Recurs`: some stretch of a text has the same rows as a piece;
* `Survives`: every stretch of a text recurs in another one;
* `mirrors_of_trim_eq`: where two lines are equal up to the white space at their ends, every part of
  the one recurs in the other, a start as a start and an end as an end.
-/

namespace BranchExclusion.Text

/-- White space and nothing else. -/
def Blank (cs : List Char) : Prop := ∀ c ∈ cs, isBlank c = true

variable {a b r s t u v w : List Char}

/-! ### White space at the ends -/

theorem Blank.nil : Blank [] := fun _ h => absurd h List.not_mem_nil

theorem blank_append : Blank (u ++ v) ↔ Blank u ∧ Blank v := List.forall_mem_append

theorem Blank.reverse (h : Blank v) : Blank v.reverse := fun c hc => h c (List.mem_reverse.1 hc)

theorem trimStart_append (h : Blank v) (s : List Char) : trimStart (v ++ s) = trimStart s := by
  induction v with
  | nil => rfl
  | cons c v ih =>
    have hc : isBlank c = true := h c List.mem_cons_self
    rw [trimStart, List.cons_append, List.dropWhile_cons_of_pos hc]
    exact ih fun d hd => h d (List.mem_cons_of_mem c hd)

theorem trimEnd_append (h : Blank w) (s : List Char) : trimEnd (s ++ w) = trimEnd s := by
  have hstart := trimStart_append h.reverse s.reverse
  rw [trimStart, trimStart] at hstart
  rw [trimEnd, List.reverse_append, hstart, trimEnd]

theorem Blank.trimStart_eq (h : Blank v) : trimStart v = [] := by
  have := trimStart_append h []
  rwa [List.append_nil] at this

theorem Blank.trim_eq (h : Blank v) : trim v = [] := by
  rw [trim, h.trimStart_eq, trimEnd_nil]

/-- The text is empty, or white space stands neither at its start nor at its end. -/
def Solid (t : List Char) : Prop := trimStart t = t ∧ trimEnd t = t

theorem trim_append_append (hv : Blank v) (ht : Solid t) (hw : Blank w) :
    trim (v ++ t ++ w) = t := by
  rw [trim, List.append_assoc, trimStart_append hv]
  rcases List.eq_nil_or_concat' t with rfl | ⟨t', c, rfl⟩
  · rw [List.nil_append, hw.trimStart_eq, trimEnd_nil]
  · have hstart : trimStart (t' ++ [c] ++ w) = t' ++ [c] ++ w := by
      have hhead := ht.1
      cases hcons : t' ++ [c] with
      | nil => simp at hcons
      | cons d rest =>
        rw [hcons, trimStart, List.dropWhile_eq_self_iff] at hhead
        rw [trimStart, List.cons_append, List.dropWhile_eq_self_iff]
        exact fun hl => hhead (by simp)
    rw [hstart, trimEnd_append hw, ht.2]

/-- What `trimStart` cuts off. -/
theorem exists_trimStart (s : List Char) : ∃ v, Blank v ∧ s = v ++ trimStart s :=
  ⟨s.takeWhile isBlank, fun _ hc => List.mem_takeWhile_imp hc,
    (List.takeWhile_append_dropWhile).symm⟩

/-- What `trimEnd` cuts off. -/
theorem exists_trimEnd (s : List Char) : ∃ w, Blank w ∧ s = trimEnd s ++ w := by
  obtain ⟨v, hv, hs⟩ := exists_trimStart s.reverse
  refine ⟨v.reverse, hv.reverse, ?_⟩
  rw [trimEnd, ← trimStart, ← List.reverse_append, ← hs, List.reverse_reverse]

theorem trimStart_trimStart (s : List Char) : trimStart (trimStart s) = trimStart s :=
  List.dropWhile_idempotent ..

theorem trimEnd_trimEnd (s : List Char) : trimEnd (trimEnd s) = trimEnd s := by
  obtain ⟨w, hw, hs⟩ := exists_trimEnd s
  conv_rhs => rw [hs, trimEnd_append hw]

theorem trimStart_cons_eq_self {c : Char} : trimStart (c :: t) = c :: t ↔ isBlank c = false := by
  rw [trimStart, List.dropWhile_eq_self_iff]
  simp

/-- A text between two characters that are no white space. -/
theorem solid_cons_concat {c d : Char} (hc : isBlank c = false) (hd : isBlank d = false)
    (t : List Char) : Solid (c :: (t ++ [d])) := by
  refine ⟨trimStart_cons_eq_self.2 hc, ?_⟩
  have hstart : trimStart (d :: (t.reverse ++ [c])) = d :: (t.reverse ++ [c]) :=
    trimStart_cons_eq_self.2 hd
  have hreverse : (c :: (t ++ [d])).reverse = d :: (t.reverse ++ [c]) := by simp
  rw [trimEnd, hreverse, ← trimStart, hstart, ← hreverse, List.reverse_reverse]

theorem solid_trim (s : List Char) : Solid (trim s) := by
  refine ⟨?_, trimEnd_trimEnd _⟩
  obtain ⟨w, hw, hs⟩ := exists_trimEnd (trimStart s)
  have hstart := trimStart_trimStart s
  rw [trim]
  -- the first character is that of the text before its end is cut
  cases hcons : trimEnd (trimStart s) with
  | nil => rfl
  | cons c t =>
    rw [hs, hcons, List.cons_append, trimStart_cons_eq_self] at hstart
    exact trimStart_cons_eq_self.2 hstart

/-- White space around the rest. -/
theorem exists_trim (s : List Char) : ∃ v w, Blank v ∧ Blank w ∧ s = v ++ trim s ++ w := by
  obtain ⟨v, hv, hs⟩ := exists_trimStart s
  obtain ⟨w, hw, hstart⟩ := exists_trimEnd (trimStart s)
  refine ⟨v, w, hv, hw, ?_⟩
  rw [trim, List.append_assoc, ← hstart, ← hs]

theorem Solid.reverse (h : Solid t) : Solid t.reverse := by
  constructor
  · have hend := congrArg List.reverse h.2
    rwa [trimEnd, List.reverse_reverse] at hend
  · rw [trimEnd, List.reverse_reverse]
    exact congrArg List.reverse h.1

theorem trim_reverse (s : List Char) : trim s.reverse = (trim s).reverse := by
  obtain ⟨v, w, hv, hw, hs⟩ := exists_trim s
  conv_lhs => rw [hs]
  rw [List.reverse_append, List.reverse_append, ← List.append_assoc]
  exact trim_append_append hw.reverse (solid_trim s).reverse hv.reverse

theorem trim_append_left (hv : Blank v) (s : List Char) : trim (v ++ s) = trim s := by
  rw [trim, trimStart_append hv, trim]

theorem trim_append_right (hw : Blank w) (s : List Char) : trim (s ++ w) = trim s := by
  have h := trim_append_left hw.reverse s.reverse
  rw [← List.reverse_append, trim_reverse, trim_reverse] at h
  exact List.reverse_injective h

/-! ### Parts of lines -/

/-- Every part of `r` has a part of `r'` that is equal up to white space at its ends, a start for a
start and an end for an end. -/
def Mirrors (r r' : List Char) : Prop :=
  ∀ a x b, r = a ++ x ++ b → ∃ a' x' b', r' = a' ++ x' ++ b' ∧ trim x' = trim x ∧
    (a = [] → a' = []) ∧ (b = [] → b' = [])

theorem Mirrors.trans (h : Mirrors r s) (h' : Mirrors s t) : Mirrors r t := by
  intro a x b hr
  obtain ⟨a', x', b', hs, hx, ha, hb⟩ := h a x b hr
  obtain ⟨a'', x'', b'', ht, hx', ha', hb'⟩ := h' a' x' b' hs
  exact ⟨a'', x'', b'', ht, hx'.trans hx, fun h => ha' (ha h), fun h => hb' (hb h)⟩

theorem Mirrors.reverse (h : Mirrors r s) : Mirrors r.reverse s.reverse := by
  intro a x b hr
  have hr' : r = b.reverse ++ x.reverse ++ a.reverse := by
    rw [← List.reverse_reverse r, hr]
    simp
  obtain ⟨a', x', b', hs, hx, ha, hb⟩ := h _ _ _ hr'
  refine ⟨b'.reverse, x'.reverse, a'.reverse, by rw [hs]; simp, ?_, ?_, ?_⟩
  · rw [trim_reverse, hx, trim_reverse, List.reverse_reverse]
  · rintro rfl
    rw [hb rfl, List.reverse_nil]
  · rintro rfl
    rw [ha rfl, List.reverse_nil]

/-- Other white space before a line. -/
theorem mirrors_left (hv : Blank v) (hu : Blank u) (s : List Char) :
    Mirrors (v ++ s) (u ++ s) := by
  intro a x b h
  rw [List.append_assoc, List.append_eq_append_iff] at h
  rcases h with ⟨v₂, rfl, rfl⟩ | ⟨v₂, rfl, h⟩
  · by_cases ha : v ++ v₂ = []
    · obtain ⟨-, rfl⟩ := List.append_eq_nil_iff.1 ha
      exact ⟨[], u ++ x, b, by simp, trim_append_left hu x, fun _ => rfl, id⟩
    · exact ⟨u ++ v₂, x, b, by simp, rfl, fun h => absurd h ha, id⟩
  · -- the part starts in the white space
    obtain ⟨-, hv₂⟩ := blank_append.1 hv
    rcases List.append_eq_append_iff.1 h with ⟨x₂, rfl, rfl⟩ | ⟨x₂, rfl, rfl⟩
    · have hx : Blank x := (blank_append.1 hv₂).1
      by_cases hb : x₂ ++ s = []
      · obtain ⟨-, rfl⟩ := List.append_eq_nil_iff.1 hb
        refine ⟨[], u, [], by simp, ?_, fun _ => rfl, fun _ => rfl⟩
        rw [hu.trim_eq, hx.trim_eq]
      · exact ⟨[], [], u ++ s, by simp, by rw [hx.trim_eq]; rfl, fun _ => rfl,
          fun h => absurd h hb⟩
    · refine ⟨[], u ++ x₂, b, by simp, ?_, fun _ => rfl, id⟩
      rw [trim_append_left hu, trim_append_left hv₂]

theorem mirrors_right (hv : Blank v) (hu : Blank u) (s : List Char) :
    Mirrors (s ++ v) (s ++ u) := by
  have h := (mirrors_left hv.reverse hu.reverse s.reverse).reverse
  simpa using h

/-- Lines that are equal up to the white space at their ends. -/
theorem mirrors_of_trim_eq (h : trim r = trim s) : Mirrors r s := by
  obtain ⟨v, w, hv, hw, hr⟩ := exists_trim r
  obtain ⟨v', w', hv', hw', hs⟩ := exists_trim s
  rw [hr, hs, ← h, List.append_assoc, List.append_assoc]
  refine (mirrors_left hv hv' _).trans ?_
  rw [← List.append_assoc, ← List.append_assoc]
  exact mirrors_right hw hw' _

/-! ### Texts of several lines -/

/-- The lines of a text, each without white space at its ends. -/
def rows (cs : List Char) : List (List Char) := (cs.splitOn '\n').map trim

theorem rows_of_not_mem (h : '\n' ∉ r) : rows r = [trim r] := by
  rw [rows, List.splitOn_eq_singleton h, List.map_singleton]

theorem rows_append_newline (r s : List Char) : rows (r ++ '\n' :: s) = rows r ++ rows s := by
  rw [rows, List.splitOn_append_cons_self, List.map_append, rows, rows]

/-- Some stretch of the text has the same rows as the piece. -/
def Recurs (piece text : List Char) : Prop := ∃ found, found <:+: text ∧ rows found = rows piece

namespace Recurs

variable {piece piece' text text' : List Char}

theorem of_isInfix (h : piece <:+: text) : Recurs piece text := ⟨piece, h, rfl⟩

theorem mono (h : Recurs piece text) (hin : text <:+: text') : Recurs piece text' := by
  obtain ⟨found, hfound, hrows⟩ := h
  exact ⟨found, hfound.trans hin, hrows⟩

theorem congr (h : Recurs piece text) (hrows : rows piece = rows piece') : Recurs piece' text := by
  obtain ⟨found, hfound, heq⟩ := h
  exact ⟨found, hfound, heq.trans hrows⟩

end Recurs

/-- Every stretch of the text recurs in `out`. -/
def Survives (text out : List Char) : Prop := ∀ piece, piece <:+: text → Recurs piece out

namespace Survives

variable {piece text text' out out' : List Char}

theorem of_isInfix (h : text <:+: out) : Survives text out := fun _ hpiece =>
  .of_isInfix (hpiece.trans h)

theorem mono (h : Survives text out) (hin : out <:+: out') : Survives text out' :=
  fun piece hpiece => (h piece hpiece).mono hin

theorem anti (h : Survives text out) (hin : text' <:+: text) : Survives text' out :=
  fun piece hpiece => h piece (hpiece.trans hin)

theorem recurs (h : Survives text out) (hpiece : Recurs piece text) : Recurs piece out := by
  obtain ⟨found, hfound, hrows⟩ := hpiece
  exact (h found hfound).congr hrows

theorem trans (h : Survives text out) (h' : Survives out out') : Survives text out' :=
  fun piece hpiece => h'.recurs (h piece hpiece)

end Survives

/-- `s` is `r` with the white space at the ends of its lines changed. -/
inductive Reflows : List Char → List Char → Prop
  | line {r s : List Char} : '\n' ∉ r → '\n' ∉ s → trim r = trim s → Reflows r s
  | more {r s t u : List Char} : '\n' ∉ r → '\n' ∉ s → trim r = trim s → Reflows t u →
      Reflows (r ++ '\n' :: t) (s ++ '\n' :: u)

namespace Reflows

variable {piece : List Char}

/-- A part of one line. -/
theorem exists_part (hr : '\n' ∉ a ++ piece ++ b) (hs : '\n' ∉ s)
    (htrim : trim (a ++ piece ++ b) = trim s) : ∃ a' found b', s = a' ++ found ++ b' ∧
      rows found = rows piece ∧ (a = [] → a' = []) ∧ (b = [] → b' = []) := by
  obtain ⟨a', found, b', hsplit, hfound, ha, hb⟩ := mirrors_of_trim_eq htrim a piece b rfl
  have hpiece : '\n' ∉ piece := fun h => hr (by simp [h])
  have hnot : '\n' ∉ found := fun h => hs (by simp [hsplit, h])
  exact ⟨a', found, b', hsplit, by rw [rows_of_not_mem hnot, rows_of_not_mem hpiece, hfound], ha, hb⟩

/-- What the text starts with has its rows at the start of the other one. -/
theorem exists_start (h : Reflows r s) (hpiece : piece <+: r) :
    ∃ found, found <+: s ∧ rows found = rows piece := by
  induction h generalizing piece with
  | @line r s hr hs htrim =>
    obtain ⟨b, rfl⟩ := hpiece
    obtain ⟨a', found, b', rfl, hrows, ha, -⟩ := exists_part (a := []) hr hs htrim
    rw [ha rfl]
    exact ⟨found, List.prefix_append found b', hrows⟩
  | @more r s t u hr hs htrim _ ih =>
    obtain ⟨b, hb⟩ := hpiece
    rcases List.append_eq_append_iff.1 hb with ⟨as, rfl, -⟩ | ⟨bs, rfl, hbs⟩
    · obtain ⟨a', found, b', rfl, hrows, ha, -⟩ := exists_part (a := []) hr hs htrim
      rw [ha rfl]
      exact ⟨found, ⟨b' ++ '\n' :: u, by simp⟩, hrows⟩
    · cases bs with
      | nil =>
        refine ⟨s, List.prefix_append s _, ?_⟩
        rw [List.append_nil, rows_of_not_mem hr, rows_of_not_mem hs, htrim]
      | cons c bs =>
        obtain ⟨rfl, rfl⟩ := List.cons.inj hbs
        obtain ⟨found, ⟨rest, rfl⟩, hrows⟩ := ih (List.prefix_append bs b)
        refine ⟨s ++ '\n' :: found, ⟨rest, by simp⟩, ?_⟩
        rw [rows_append_newline, rows_append_newline, hrows, rows_of_not_mem hr,
          rows_of_not_mem hs, htrim]

/-- A piece that starts on the first line recurs there. -/
theorem recurs_of_first (hr : '\n' ∉ a ++ v) (hs : '\n' ∉ s) (htrim : trim (a ++ v) = trim s)
    (h : Reflows t u) (hsplit : piece ++ b = v ++ '\n' :: t) : Recurs piece (s ++ '\n' :: u) := by
  rcases List.append_eq_append_iff.1 hsplit with ⟨rest, rfl, -⟩ | ⟨more, rfl, hmore⟩
  · rw [← List.append_assoc] at hr htrim
    obtain ⟨a', found, b', rfl, hrows, -⟩ := exists_part hr hs htrim
    exact ⟨found, ⟨a', b' ++ '\n' :: u, by simp⟩, hrows⟩
  · rw [← List.append_nil (a ++ v)] at hr htrim
    obtain ⟨a', found, b', rfl, hrows, -, hb'⟩ := exists_part hr hs htrim
    obtain rfl := hb' rfl
    cases more with
    | nil => exact ⟨found, ⟨a', '\n' :: u, by simp⟩, by rw [hrows, List.append_nil]⟩
    | cons c more =>
      obtain ⟨rfl, rfl⟩ := List.cons.inj hmore
      obtain ⟨start, ⟨rest, rfl⟩, hstart⟩ := h.exists_start (List.prefix_append more b)
      refine ⟨found ++ '\n' :: start, ⟨a', rest, by simp⟩, ?_⟩
      rw [rows_append_newline, rows_append_newline, hrows, hstart]

/-- A text recurs when the white space around it is changed line by line. -/
theorem survives (h : Reflows r s) : Survives r s := by
  intro piece hpiece
  induction h generalizing piece with
  | line hr hs htrim =>
    obtain ⟨a, b, rfl⟩ := hpiece
    obtain ⟨a', found, b', rfl, hrows, -⟩ := exists_part hr hs htrim
    exact ⟨found, ⟨a', b', rfl⟩, hrows⟩
  | @more r s t u hr hs htrim htu ih =>
    obtain ⟨a, b, hab⟩ := hpiece
    rw [List.append_assoc] at hab
    rcases List.append_eq_append_iff.1 hab with ⟨as, rfl, hrest⟩ | ⟨bs, rfl, hbs⟩
    · exact recurs_of_first hr hs htrim htu hrest
    · cases bs with
      | nil =>
        rw [← List.append_nil r] at hr htrim
        exact recurs_of_first hr hs htrim htu hbs.symm
      | cons c bs =>
        obtain ⟨rfl, rfl⟩ := List.cons.inj hbs
        have hlater := ih piece ⟨bs, b, by simp⟩
        exact hlater.mono ⟨s ++ ['\n'], [], by simp⟩

end Reflows

/-! ### Trimmed texts -/

theorem Solid.trim_eq (h : Solid t) : trim t = t := by
  have := trim_append_append Blank.nil h Blank.nil
  rwa [List.nil_append, List.append_nil] at this

theorem trim_isInfix (s : List Char) : trim s <:+: s := by
  obtain ⟨v, w, -, -, hs⟩ := exists_trim s
  exact ⟨v, w, hs.symm⟩

/-- What a part of a text has between the white space at its ends is not trimmed off. -/
theorem trim_infix_trim (h : r <:+: s) : trim r <:+: trim s := by
  obtain ⟨a, b, rfl⟩ := h
  have hmirrors := mirrors_of_trim_eq (solid_trim (a ++ r ++ b)).trim_eq.symm
  obtain ⟨a', x, b', hsplit, hx, -⟩ := hmirrors a r b rfl
  rw [← hx]
  exact (trim_isInfix x).trans ⟨a', b', hsplit.symm⟩

theorem rows_ne_nil (s : List Char) : rows s ≠ [] := by
  by_cases h : '\n' ∈ s
  · obtain ⟨r, t, rfl, hr⟩ := List.eq_append_cons_of_mem h
    simp [rows_append_newline, rows_of_not_mem hr]
  · simp [rows_of_not_mem h]

/-- A single line without white space at its ends recurs just where it stands. -/
theorem Solid.recurs_iff {piece text : List Char} (h : Solid piece) (hline : '\n' ∉ piece) :
    Recurs piece text ↔ piece <:+: text := by
  refine ⟨fun ⟨found, hfound, hrows⟩ => ?_, .of_isInfix⟩
  rw [rows_of_not_mem hline, h.trim_eq] at hrows
  have hsingle : '\n' ∉ found := by
    intro hmem
    obtain ⟨r, t, rfl, hr⟩ := List.eq_append_cons_of_mem hmem
    rw [rows_append_newline, rows_of_not_mem hr, List.singleton_append] at hrows
    exact rows_ne_nil t (List.cons.inj hrows).2
  rw [rows_of_not_mem hsingle] at hrows
  obtain rfl : trim found = piece := (List.cons.inj hrows).1
  exact (trim_isInfix found).trans hfound

end BranchExclusion.Text
