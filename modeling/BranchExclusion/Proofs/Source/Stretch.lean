import BranchExclusion.Proofs.Source.Splice

/-!
# Stretches of an edited text

* `Text.slice_append`, `Text.slice_slice`: stretches of stretches;
* `applyEdits_keeps`: the texts of the edits, and all stretches that no edit touches, stand in the
  edited text.
-/

namespace BranchExclusion

namespace Text

variable {n m a b c d : ℕ} {cs xs : List Char}

theorem isBoundary_append_left (h : isBoundary xs n = true) (ys : List Char) :
    isBoundary (xs ++ ys) n = true := by
  induction xs generalizing n with
  | nil =>
    cases n with
    | zero => rw [isBoundary]
    | succ n => cases h
  | cons x xs ih =>
    cases n with
    | zero => rw [isBoundary]
    | succ n =>
      simp only [isBoundary, Bool.and_eq_true, decide_eq_true_eq] at h
      rw [List.cons_append, isBoundary, ih h.2]
      simpa using h.1

theorem isBoundary_append (xs ys : List Char) : isBoundary (xs ++ ys) (byteLength xs) = true :=
  isBoundary_append_left (isBoundary_byteLength xs) ys

theorem le_byteLength_of_isBoundary (h : isBoundary cs n = true) : n ≤ byteLength cs := by
  have hsplit := congrArg byteLength (takeBytes_append_dropBytes n cs)
  rw [byteLength_append, byteLength_takeBytes_of_isBoundary h] at hsplit
  omega

/-- An offset between two characters cuts a text in two. -/
theorem cut_add (h : isBoundary cs n = true) (m : ℕ) :
    dropBytes (n + m) cs = dropBytes m (dropBytes n cs) ∧
      takeBytes (n + m) cs = takeBytes n cs ++ takeBytes m (dropBytes n cs) ∧
      isBoundary cs (n + m) = isBoundary (dropBytes n cs) m := by
  induction cs generalizing n with
  | nil =>
    cases n with
    | zero => simp
    | succ n => cases h
  | cons x cs ih =>
    cases n with
    | zero => simp
    | succ n =>
      simp only [isBoundary, Bool.and_eq_true, decide_eq_true_eq] at h
      obtain ⟨hdrop, htake, hbound⟩ := ih h.2
      have hsub : n + 1 + m - x.utf8Size = n + 1 - x.utf8Size + m := by omega
      have hle : x.utf8Size ≤ n + 1 + m := by omega
      refine ⟨?_, ?_, ?_⟩
      · rw [dropBytes, if_pos hle, dropBytes, if_pos h.1, hsub, hdrop]
      · rw [takeBytes, if_pos hle, takeBytes, if_pos h.1, dropBytes, if_pos h.1, hsub, htake,
          List.cons_append]
      · obtain ⟨k, hk⟩ : ∃ k, n + 1 + m = k + 1 := ⟨n + m, by omega⟩
        rw [dropBytes, if_pos h.1, ← hbound, ← hsub, hk, isBoundary, ← hk]
        simp [hle]

@[simp] theorem slice_self (cs : List Char) (n : ℕ) : slice cs n n = [] := by
  rw [slice, Nat.sub_self, takeBytes_zero]

theorem slice_append (hab : a ≤ b) (hbc : b ≤ c) (ha : isBoundary cs a = true)
    (hb : isBoundary cs b = true) : slice cs a c = slice cs a b ++ slice cs b c := by
  obtain ⟨n, rfl⟩ := Nat.exists_eq_add_of_le hab
  obtain ⟨m, rfl⟩ := Nat.exists_eq_add_of_le hbc
  obtain ⟨hdrop, -, hbound⟩ := cut_add ha n
  rw [hbound] at hb
  obtain ⟨-, htake, -⟩ := cut_add hb m
  have hsub : a + n + m - a = n + m := by omega
  rw [slice, slice, slice, hsub, Nat.add_sub_cancel_left, Nat.add_sub_cancel_left, htake, hdrop]

theorem slice_isInfix (hab : a ≤ b) (hbc : b ≤ c) (hcd : c ≤ d) (ha : isBoundary cs a = true)
    (hb : isBoundary cs b = true) (hc : isBoundary cs c = true) :
    slice cs b c <:+: slice cs a d := by
  rw [slice_append hab (hbc.trans hcd) ha hb, slice_append hbc hcd hb hc]
  exact ⟨slice cs a b, slice cs c d, by simp⟩

theorem isBoundary_takeBytes (h : isBoundary cs n = true) (hle : n ≤ m) :
    isBoundary (takeBytes m cs) n = true := by
  induction cs generalizing n m with
  | nil => exact h
  | cons x cs ih =>
    cases n with
    | zero => simp [isBoundary]
    | succ n =>
      simp only [isBoundary, Bool.and_eq_true, decide_eq_true_eq] at h
      rw [takeBytes, if_pos (h.1.trans hle), isBoundary, ih h.2 (by omega)]
      simp [h.1]

theorem isBoundary_slice (hab : a ≤ b) (hbd : b ≤ d) (ha : isBoundary cs a = true)
    (hb : isBoundary cs b = true) : isBoundary (slice cs a d) (b - a) = true := by
  obtain ⟨n, rfl⟩ := Nat.exists_eq_add_of_le hab
  rw [(cut_add ha n).2.2] at hb
  rw [Nat.add_sub_cancel_left]
  exact isBoundary_takeBytes hb (by omega)

theorem byteLength_slice (hab : a ≤ b) (ha : isBoundary cs a = true)
    (hb : isBoundary cs b = true) : byteLength (slice cs a b) = b - a := by
  obtain ⟨n, rfl⟩ := Nat.exists_eq_add_of_le hab
  rw [(cut_add ha n).2.2] at hb
  rw [slice, Nat.add_sub_cancel_left]
  exact byteLength_takeBytes_of_isBoundary hb

theorem slice_ne_nil (hab : a < b) (ha : isBoundary cs a = true) (hb : isBoundary cs b = true) :
    slice cs a b ≠ [] := by
  intro h
  have hlength := byteLength_slice (Nat.le_of_lt hab) ha hb
  rw [h, byteLength_nil] at hlength
  omega

/-- A stretch of a stretch, by offsets from its start. -/
theorem slice_slice (hab : a ≤ b) (hbc : b ≤ c) (hcd : c ≤ d) (ha : isBoundary cs a = true)
    (hb : isBoundary cs b = true) : slice (slice cs a d) (b - a) (c - a) = slice cs b c := by
  obtain ⟨n, rfl⟩ := Nat.exists_eq_add_of_le hab
  obtain ⟨m, rfl⟩ := Nat.exists_eq_add_of_le hbc
  obtain ⟨hdrop, -, hbound⟩ := cut_add ha n
  rw [hbound] at hb
  have hsub : a + n + m - a = n + m := by omega
  rw [Nat.add_sub_cancel_left, hsub, slice, slice, slice, Nat.add_sub_cancel_left,
    Nat.add_sub_cancel_left, dropBytes_takeBytes hb (by omega), slice, takeBytes_takeBytes (by omega),
    hdrop]

end Text

/-- Edits that can be applied one after the other leave the text before the first of them and its
rest, where their texts and all that they do not touch stand. -/
theorem applyEdits_keeps {source tail output : List Char} {limit : ℕ} {edits : List Edit}
    (hlimit : Text.isBoundary source limit = true)
    (h : applyEdits source (Text.takeBytes limit source ++ tail) limit edits = .ok output) :
    tail <:+ output ∧ (∀ e ∈ edits, e.text.toList <:+: output) ∧
      ∀ a b, a ≤ b → b ≤ limit → Text.isBoundary source a = true →
        Text.isBoundary source b = true → (∀ e ∈ edits, e.range.Disjoint ⟨a, b⟩) →
        Text.slice source a b <:+: output := by
  induction edits generalizing limit tail with
  | nil =>
    cases h
    refine ⟨List.suffix_append .., fun _ he => absurd he List.not_mem_nil, ?_⟩
    intro a b hab hb ha hb' _
    have hwhole : Text.takeBytes limit source = Text.slice source 0 limit := by
      rw [Text.slice, Text.dropBytes_zero, Nat.sub_zero]
    rw [hwhole]
    exact (Text.slice_isInfix (Nat.zero_le a) hab hb (by simp [Text.isBoundary]) ha hb').trans
      (List.prefix_append _ tail).isInfix
  | cons e rest ih =>
    rw [applyEdits_cons] at h
    by_cases happlies : e.Applies source limit
    · rw [if_pos happlies, Text.replace_takeBytes hlimit happlies.stop happlies.ordered
        happlies.within] at h
      obtain ⟨hsuffix, htexts, hkept⟩ := ih happlies.start h
      refine ⟨?_, ?_, ?_⟩
      · exact (List.suffix_append _ tail).trans hsuffix
      · intro f hf
        rcases List.mem_cons.1 hf with rfl | hf
        · refine List.IsInfix.trans ?_ hsuffix.isInfix
          exact ⟨[], Text.slice source f.range.stop limit ++ tail, by simp⟩
        · exact htexts f hf
      · intro a b hab hb ha hb' hdisjoint
        rcases hdisjoint e List.mem_cons_self with hbehind | hbefore
        · -- the stretch lies behind the edit, where the text is complete
          refine List.IsInfix.trans ?_ hsuffix.isInfix
          refine (Text.slice_isInfix hbehind hab hb happlies.stop ha hb').trans ?_
          exact ⟨e.text.toList, tail, by simp⟩
        · exact hkept a b hab hbefore ha hb' fun f hf => hdisjoint f (List.mem_cons_of_mem e hf)
    · rw [if_neg happlies] at h
      cases h

/-- The same for edits in any order. -/
theorem splice_keeps {source output : List Char} {edits : List Edit}
    (h : splice source edits = .ok output) : (∀ e ∈ edits, e.text.toList <:+: output) ∧
      ∀ a b, a ≤ b → b ≤ Text.byteLength source → Text.isBoundary source a = true →
        Text.isBoundary source b = true → (∀ e ∈ edits, e.range.Disjoint ⟨a, b⟩) →
        Text.slice source a b <:+: output := by
  have h' : applyEdits source (Text.takeBytes (Text.byteLength source) source ++ [])
      (Text.byteLength source) (descending edits) = .ok output := by
    rw [Text.takeBytes_byteLength, List.append_nil]
    exact h
  obtain ⟨-, htexts, hkept⟩ := applyEdits_keeps (Text.isBoundary_byteLength source) h'
  refine ⟨fun e he => htexts e (mem_descending.2 he), ?_⟩
  intro a b hab hb ha hb' hdisjoint
  exact hkept a b hab hb ha hb' fun e he => hdisjoint e (mem_descending.1 he)

end BranchExclusion
