import BranchExclusion.Source.Edit
import Mathlib.Tactic

/-!
# Edits that do not overlap

Edits are applied from the end of the text backwards. When they do not overlap, the result is the
text with its edited stretches exchanged and everything between them kept.

* `Text.takeBytes_append`, `Text.dropBytes_append`: cutting two texts that stand behind each other;
* `ByteRange.Disjoint`: ranges without a common byte;
* `ByteRange.Fits`: a stretch of the source that is not empty;
* `patch`: the text put together from the start to the end;
* `Arranged`: the order in which edits are applied;
* `InOrder`: edits of which each ends before the start of the one in front of it;
* `splice_eq_patch`: applying edits in any order gives the patched text.
-/

namespace BranchExclusion

/-! ### Cutting -/

namespace Text

variable {n m : ℕ} {xs ys cs : List Char}

@[simp] theorem takeBytes_zero (cs : List Char) : takeBytes 0 cs = [] := by
  cases cs with
  | nil => rfl
  | cons c cs =>
    have := c.utf8Size_pos
    rw [takeBytes, if_neg (by omega)]

@[simp] theorem dropBytes_zero (cs : List Char) : dropBytes 0 cs = cs := by
  cases cs with
  | nil => rfl
  | cons c cs =>
    have := c.utf8Size_pos
    rw [dropBytes, if_neg (by omega)]

/-- An offset within the first text cuts only that. -/
theorem takeBytes_append (h : n ≤ byteLength xs) : takeBytes n (xs ++ ys) = takeBytes n xs := by
  induction xs generalizing n with
  | nil =>
    obtain rfl : n = 0 := Nat.le_zero.1 h
    simp
  | cons c xs ih =>
    rw [byteLength_cons] at h
    rw [List.cons_append, takeBytes, takeBytes]
    split
    · rw [ih (by omega)]
    · rfl

theorem dropBytes_append (h : n ≤ byteLength xs) :
    dropBytes n (xs ++ ys) = dropBytes n xs ++ ys := by
  induction xs generalizing n with
  | nil =>
    obtain rfl : n = 0 := Nat.le_zero.1 h
    rw [List.nil_append, dropBytes_zero]
    rfl
  | cons c xs ih =>
    rw [byteLength_cons] at h
    rw [List.cons_append, dropBytes, dropBytes]
    split
    · rw [ih (by omega)]
    · rfl

theorem takeBytes_takeBytes (h : n ≤ m) : takeBytes n (takeBytes m cs) = takeBytes n cs := by
  induction cs generalizing n m with
  | nil => rfl
  | cons c cs ih =>
    rw [takeBytes]
    split
    · rw [takeBytes, takeBytes]
      split
      · rw [ih (by omega)]
      · rfl
    · rw [takeBytes, takeBytes, if_neg (by omega)]

theorem dropBytes_takeBytes (hb : isBoundary cs n = true) (h : n ≤ m) :
    dropBytes n (takeBytes m cs) = slice cs n m := by
  induction cs generalizing n m with
  | nil => rfl
  | cons c cs ih =>
    have hc := c.utf8Size_pos
    cases n with
    | zero => rw [slice, dropBytes_zero, dropBytes_zero, Nat.sub_zero]
    | succ n =>
      simp only [isBoundary, Bool.and_eq_true, decide_eq_true_eq] at hb
      rw [slice, takeBytes, if_pos (by omega), dropBytes, if_pos hb.1, dropBytes, if_pos hb.1,
        ih hb.2 (by omega), slice]
      congr 1
      omega

theorem takeBytes_byteLength (cs : List Char) : takeBytes (byteLength cs) cs = cs := by
  induction cs with
  | nil => rfl
  | cons c cs ih => rw [byteLength_cons, takeBytes, if_pos (by omega), Nat.add_sub_cancel_left, ih]

theorem dropBytes_byteLength (cs : List Char) : dropBytes (byteLength cs) cs = [] := by
  have hsplit := takeBytes_append_dropBytes (byteLength cs) cs
  rw [takeBytes_byteLength] at hsplit
  exact List.append_right_eq_self.1 hsplit

theorem isBoundary_byteLength (cs : List Char) : isBoundary cs (byteLength cs) = true := by
  induction cs with
  | nil => rfl
  | cons c cs ih =>
    have hc := c.utf8Size_pos
    obtain ⟨n, hn⟩ := Nat.exists_eq_add_one_of_ne_zero (n := byteLength (c :: cs)) (by simp; omega)
    rw [hn, isBoundary, ← hn, byteLength_cons, Nat.add_sub_cancel_left, ih]
    simp

/-- A stretch before `m` is replaced in a text that agrees with the source up to `m`. -/
theorem replace_takeBytes {start stop : ℕ} {new tail : List Char}
    (hm : isBoundary cs m = true) (hstop : isBoundary cs stop = true) (hle : start ≤ stop)
    (hlem : stop ≤ m) : replace (takeBytes m cs ++ tail) start stop new =
      takeBytes start cs ++ (new ++ slice cs stop m ++ tail) := by
  have hlength := byteLength_takeBytes_of_isBoundary hm
  rw [replace, takeBytes_append (by omega), dropBytes_append (by omega),
    takeBytes_takeBytes (by omega), dropBytes_takeBytes hstop hlem]
  simp

end Text

/-! ### Patches -/

/-- No byte lies in both ranges. -/
def ByteRange.Disjoint (r s : ByteRange) : Prop := r.stop ≤ s.start ∨ s.stop ≤ r.start

instance (r s : ByteRange) : Decidable (r.Disjoint s) :=
  inferInstanceAs (Decidable (r.stop ≤ s.start ∨ s.stop ≤ r.start))

theorem ByteRange.Disjoint.symm {r s : ByteRange} (h : r.Disjoint s) : s.Disjoint r := Or.symm h

/-- The range holds whole characters of the source, and at least one. -/
structure ByteRange.Fits (source : List Char) (r : ByteRange) : Prop where
  nonempty : r.start < r.stop
  inside : r.stop ≤ Text.byteLength source
  start : Text.isBoundary source r.start = true
  stop : Text.isBoundary source r.stop = true

instance (source : List Char) (r : ByteRange) : Decidable (r.Fits source) :=
  decidable_of_iff ((r.start < r.stop ∧ r.stop ≤ Text.byteLength source) ∧
    Text.isBoundary source r.start = true ∧ Text.isBoundary source r.stop = true)
    ⟨fun h => ⟨h.1.1, h.1.2, h.2.1, h.2.2⟩, fun h => ⟨⟨h.nonempty, h.inside⟩, h.start, h.stop⟩⟩

/-- The source between two offsets with the stretches of the edits, in this order, exchanged and all
between them kept. -/
def patch (source : List Char) (lo hi : ℕ) : List Edit → List Char
  | [] => Text.slice source lo hi
  | e :: rest =>
    Text.slice source lo e.range.start ++ e.text.toList ++ patch source e.range.stop hi rest

theorem patch_append (source : List Char) (lo hi : ℕ) (edits : List Edit) (e : Edit) :
    patch source lo hi (edits ++ [e]) = patch source lo e.range.start edits ++ e.text.toList ++
      Text.slice source e.range.stop hi := by
  induction edits generalizing lo with
  | nil => rfl
  | cons f rest ih => simp only [List.cons_append, patch, ih, List.append_assoc]

/-! ### Edits one behind the other -/

/-- The edit ends no earlier than it starts and no later than at `limit`, and it cuts no character. -/
structure Edit.Applies (source : List Char) (limit : ℕ) (e : Edit) : Prop where
  ordered : e.range.start ≤ e.range.stop
  within : e.range.stop ≤ limit
  start : Text.isBoundary source e.range.start = true
  stop : Text.isBoundary source e.range.stop = true

instance (source : List Char) (limit : ℕ) (e : Edit) : Decidable (e.Applies source limit) :=
  decidable_of_iff ((e.range.start ≤ e.range.stop ∧ e.range.stop ≤ limit) ∧
    Text.isBoundary source e.range.start = true ∧ Text.isBoundary source e.range.stop = true)
    ⟨fun h => ⟨h.1.1, h.1.2, h.2.1, h.2.2⟩, fun h => ⟨⟨h.ordered, h.within⟩, h.start, h.stop⟩⟩

/-- Why an edit cannot be applied: it lies in a wrong place, or it cuts a character. -/
def Edit.refusal (limit : ℕ) (e : Edit) : EditError :=
  if e.range.start ≤ e.range.stop ∧ e.range.stop ≤ limit then .offBoundary e.range
  else .overlap e.range

/-- Where the last of the edits starts, or `limit` when there is none. Up to there the text is still
that of the source. -/
def reach (limit : ℕ) (done : List Edit) : ℕ :=
  (done.getLast?.map fun e => e.range.start).getD limit

/-- Each edit can be applied before the start of the one in front of it, the first before `limit`. -/
def InOrder (source : List Char) (limit : ℕ) (edits : List Edit) : Prop :=
  ∀ done e rest, edits = done ++ e :: rest → e.Applies source (reach limit done)

section InOrder

variable {source output tail : List Char} {limit bound : ℕ} {e : Edit} {done edits rest : List Edit}

@[simp] theorem reach_nil : reach limit [] = limit := rfl

@[simp] theorem reach_cons : reach limit (e :: done) = reach e.range.start done := by
  cases done with
  | nil => rfl
  | cons f done => simp [reach, List.getLast?_cons]

@[simp] theorem inOrder_nil : InOrder source limit [] := fun done e rest h => by simp at h

theorem inOrder_cons :
    InOrder source limit (e :: rest) ↔ e.Applies source limit ∧ InOrder source e.range.start rest := by
  constructor
  · intro h
    refine ⟨h [] e rest rfl, fun done f later hrest => ?_⟩
    simpa using h (e :: done) f later (by rw [hrest, List.cons_append])
  · rintro ⟨he, hrest⟩ done f later h
    cases done with
    | nil =>
      obtain ⟨rfl, -⟩ := List.cons.inj h
      exact he
    | cons d done =>
      obtain ⟨rfl, heq⟩ := List.cons.inj h
      simpa using hrest done f later heq

instance decidableInOrder (source : List Char) :
    (limit : ℕ) → (edits : List Edit) → Decidable (InOrder source limit edits)
  | _, [] => .isTrue inOrder_nil
  | limit, e :: rest =>
    have := decidableInOrder source e.range.start rest
    decidable_of_iff (e.Applies source limit ∧ InOrder source e.range.start rest) inOrder_cons.symm

theorem inOrder_append :
    InOrder source limit (done ++ rest) ↔
      InOrder source limit done ∧ InOrder source (reach limit done) rest := by
  induction done generalizing limit with
  | nil => simp
  | cons e done ih => rw [List.cons_append, inOrder_cons, inOrder_cons, ih, reach_cons, and_assoc]

/-- Only the first edit meets the limit. -/
theorem InOrder.mono (h : InOrder source limit edits) (hbound : ∀ e ∈ edits, e.range.stop ≤ bound) :
    InOrder source bound edits := by
  cases edits with
  | nil => exact inOrder_nil
  | cons e rest =>
    obtain ⟨he, hrest⟩ := inOrder_cons.1 h
    exact inOrder_cons.2 ⟨⟨he.ordered, hbound e List.mem_cons_self, he.start, he.stop⟩, hrest⟩

/-- Stretches that are not empty, each before the one in front of it. -/
theorem inOrder_of_pairwise (hfits : ∀ e ∈ edits, e.range.Fits source)
    (hle : ∀ e ∈ edits, e.range.stop ≤ limit)
    (horder : edits.Pairwise fun e f => f.range.stop ≤ e.range.start) :
    InOrder source limit edits := by
  induction edits generalizing limit with
  | nil => exact inOrder_nil
  | cons e rest ih =>
    have he := hfits e List.mem_cons_self
    obtain ⟨hbefore, hrest⟩ := List.pairwise_cons.1 horder
    refine inOrder_cons.2 ⟨⟨he.nonempty.le, hle e List.mem_cons_self, he.start, he.stop⟩, ?_⟩
    exact ih (fun f hf => hfits f (List.mem_cons_of_mem e hf)) hbefore hrest

theorem applyEdits_cons : applyEdits source output limit (e :: rest) =
    if e.Applies source limit then
      applyEdits source (Text.replace output e.range.start e.range.stop e.text.toList)
        e.range.start rest
    else .error (e.refusal limit) := by
  rw [applyEdits]
  by_cases hplace : e.range.start ≤ e.range.stop ∧ e.range.stop ≤ limit
  · rw [if_neg (by simp; omega)]
    by_cases hcut : Text.isBoundary source e.range.start = true ∧
        Text.isBoundary source e.range.stop = true
    · rw [if_neg (by simp [hcut]), if_pos ⟨hplace.1, hplace.2, hcut.1, hcut.2⟩]
    · rw [if_pos (by simpa [← Bool.not_eq_true, ← not_and_or] using hcut),
        if_neg fun h => hcut ⟨h.start, h.stop⟩, Edit.refusal, if_pos hplace]
  · rw [if_pos (by simp; omega), if_neg fun h => hplace ⟨h.ordered, h.within⟩, Edit.refusal,
      if_neg hplace]

/-- Edits from the last to the first give the text patched from the first to the last. -/
theorem applyEdits_eq_patch (hlimit : Text.isBoundary source limit = true)
    (h : InOrder source limit edits) :
    applyEdits source (Text.takeBytes limit source ++ tail) limit edits =
      .ok (patch source 0 limit edits.reverse ++ tail) := by
  induction edits generalizing limit tail with
  | nil =>
    rw [applyEdits_nil, List.reverse_nil, patch, Text.slice, Text.dropBytes_zero, Nat.sub_zero]
  | cons e rest ih =>
    obtain ⟨he, hrest⟩ := inOrder_cons.1 h
    rw [applyEdits_cons, if_pos he, Text.replace_takeBytes hlimit he.stop he.ordered he.within,
      ih he.start hrest, List.reverse_cons, patch_append]
    simp only [List.append_assoc]

theorem splice_nil (source : List Char) : splice source [] = .ok source := by
  rw [splice, descending, List.mergeSort_nil, applyEdits_nil]

theorem splice_of_inOrder (h : InOrder source (Text.byteLength source) (descending edits)) :
    splice source edits =
      .ok (patch source 0 (Text.byteLength source) (descending edits).reverse) := by
  have happly : applyEdits source (Text.takeBytes (Text.byteLength source) source ++ [])
      (Text.byteLength source) (descending edits) =
        .ok (patch source 0 (Text.byteLength source) (descending edits).reverse ++ []) :=
    applyEdits_eq_patch (Text.isBoundary_byteLength source) h
  rwa [Text.takeBytes_byteLength, List.append_nil, List.append_nil] at happly

end InOrder

/-! ### The order of the edits -/

/-- `order` holds the edits from the last start to the first, those with equal starts as they were
given. -/
structure Arranged (edits order : List Edit) : Prop where
  perm : order.Perm edits
  descends : order.Pairwise fun e f => f.range.start ≤ e.range.start
  stable : ∀ start, (order.filter fun e => e.range.start == start) =
    edits.filter fun e => e.range.start == start

theorem arranged_descending (edits : List Edit) : Arranged edits (descending edits) := by
  have htrans : ∀ a b c : Edit, decide (b.range.start ≤ a.range.start) = true →
      decide (c.range.start ≤ b.range.start) = true →
      decide (c.range.start ≤ a.range.start) = true := by
    intro a b c
    simp only [decide_eq_true_eq]
    omega
  have htotal : ∀ a b : Edit, (decide (b.range.start ≤ a.range.start) ||
      decide (a.range.start ≤ b.range.start)) = true := by
    intro a b
    simp only [Bool.or_eq_true, decide_eq_true_eq]
    omega
  have hperm : (descending edits).Perm edits := List.mergeSort_perm ..
  refine ⟨hperm, ?_, fun start => ?_⟩
  · exact (List.pairwise_mergeSort htrans htotal edits).imp of_decide_eq_true
  · -- those with this start are in order as they were given, and sorting keeps such a sublist
    have hsame : (edits.filter fun e => e.range.start == start).Pairwise fun a b =>
        decide (b.range.start ≤ a.range.start) = true := by
      refine List.pairwise_of_forall_mem_list fun a ha b hb => ?_
      have ha' := (List.mem_filter.1 ha).2
      have hb' := (List.mem_filter.1 hb).2
      simp only [beq_iff_eq] at ha' hb'
      simp [ha', hb']
    have hsub : (edits.filter fun e => e.range.start == start).Sublist (descending edits) :=
      List.sublist_mergeSort htrans htotal hsame List.filter_sublist
    have hfilter := hsub.filter fun e => e.range.start == start
    rw [List.filter_filter] at hfilter
    simp only [Bool.and_self] at hfilter
    exact (hfilter.eq_of_length (hperm.filter _).length_eq.symm).symm

@[simp] theorem mem_descending {e : Edit} {edits : List Edit} : e ∈ descending edits ↔ e ∈ edits :=
  (arranged_descending edits).perm.mem_iff

/-- The edits from the first start to the last. -/
def ascending (edits : List Edit) : List Edit := (descending edits).reverse

theorem pairwise_descending {edits : List Edit} (hne : ∀ e ∈ edits, e.range.start < e.range.stop)
    (h : edits.Pairwise fun e f => e.range.Disjoint f.range) :
    (descending edits).Pairwise fun e f => f.range.stop ≤ e.range.start := by
  obtain ⟨hperm, hsorted, -⟩ := arranged_descending edits
  have hdisjoint : (descending edits).Pairwise fun e f => e.range.Disjoint f.range :=
    (hperm.pairwise_iff fun h => h.symm).2 h
  refine (hsorted.and hdisjoint).imp_of_mem fun {e f} he hf hef => ?_
  have hfe := hne e (mem_descending.1 he)
  have hff := hne f (mem_descending.1 hf)
  have hle : f.range.start ≤ e.range.start := hef.1
  rcases hef.2 with hbefore | hbehind
  · omega
  · exact hbehind

/-- **Edits that do not overlap.** They can be applied, in whatever order they are given, and the
text around them is kept. -/
theorem splice_eq_patch {source : List Char} {edits : List Edit}
    (hfits : ∀ e ∈ edits, e.range.Fits source)
    (h : edits.Pairwise fun e f => e.range.Disjoint f.range) :
    splice source edits =
      .ok (patch source 0 (Text.byteLength source) (ascending edits)) := by
  have hmem : ∀ e ∈ descending edits, e.range.Fits source := fun e he => hfits e (mem_descending.1 he)
  refine splice_of_inOrder (inOrder_of_pairwise hmem (fun e he => (hmem e he).inside) ?_)
  exact pairwise_descending (fun e he => (hfits e he).nonempty) h

end BranchExclusion
