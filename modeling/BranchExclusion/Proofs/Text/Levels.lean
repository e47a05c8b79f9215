import Mathlib.Data.List.Count
import Mathlib.Tactic

/-!
# Levels of braces

* `level`: the opening braces of a text less its closing ones;
* `Walk`: the levels that are passed while a text is read;
* `Walk.append`, `Walk.opens`, `Walk.closes`: texts one behind the other, and braces at their ends.
-/

namespace BranchExclusion.Text

/-- The opening braces of a text less its closing ones. -/
def level (l : List Char) : ℤ := l.count '{' - l.count '}'

/-- The text holds no brace. -/
def Braceless (l : List Char) : Prop := ∀ c ∈ l, c ≠ '{' ∧ c ≠ '}'

-- the characters of the text are looked at, not all characters that there are
instance (l : List Char) : Decidable (Braceless l) :=
  List.decidableBAll (fun c => c ≠ '{' ∧ c ≠ '}') l

variable {d n m k : ℤ} {l l' s : List Char}

@[simp] theorem level_nil : level [] = 0 := rfl

@[simp] theorem level_append (l l' : List Char) : level (l ++ l') = level l + level l' := by
  simp only [level, List.count_append]
  push_cast
  ring

theorem Braceless.append (h : Braceless l) (h' : Braceless l') : Braceless (l ++ l') :=
  List.forall_mem_append.2 ⟨h, h'⟩

theorem Braceless.subset (h : Braceless l) (hs : s ⊆ l) : Braceless s := fun c hc => h c (hs hc)

theorem Braceless.count_eq (h : Braceless l) : l.count '{' = 0 :=
  List.count_eq_zero.2 fun hmem => (h _ hmem).1 rfl

theorem Braceless.level_eq (h : Braceless l) : level l = 0 := by
  have hclose : l.count '}' = 0 := List.count_eq_zero.2 fun hmem => (h _ hmem).2 rfl
  rw [level, h.count_eq, hclose]
  rfl

/-- Read from level `n`, the text ends at level `m` and never goes below level `d`. -/
structure Walk (d n m : ℤ) (l : List Char) : Prop where
  floor (q : List Char) : q <+: l → d ≤ n + level q
  final : n + level l = m

namespace Walk

theorem floor_le_start (h : Walk d n m l) : d ≤ n := by
  simpa using h.floor [] List.nil_prefix

theorem floor_le_final (h : Walk d n m l) : d ≤ m := h.final ▸ h.floor l List.prefix_rfl

theorem braceless (h : Braceless l) (hd : d ≤ n) : Walk d n n l where
  floor q hq := by
    rw [(h.subset hq.subset).level_eq]
    omega
  final := by
    rw [h.level_eq]
    omega

theorem append (h : Walk d n m l) (h' : Walk d m k l') : Walk d n k (l ++ l') where
  floor q hq := by
    rcases List.prefix_or_prefix_of_prefix hq (List.prefix_append l l') with hql | ⟨r, rfl⟩
    · exact h.floor q hql
    · -- past the first text, the second one is read
      have hr := h'.floor r ((List.prefix_append_right_inj l).1 hq)
      rw [level_append, ← add_assoc, h.final]
      exact hr
  final := by
    rw [level_append, ← add_assoc, h.final, h'.final]

theorem brace_open (hd : d ≤ n) : Walk d n (n + 1) ['{'] where
  floor q hq := by
    rcases List.prefix_cons_iff.1 hq with rfl | ⟨r, rfl, hr⟩
    · simpa using hd
    · rw [List.prefix_nil.1 hr]
      have hone : level ['{'] = 1 := rfl
      omega
  final := rfl

theorem brace_close (hd : d ≤ m) : Walk d (m + 1) m ['}'] where
  floor q hq := by
    rcases List.prefix_cons_iff.1 hq with rfl | ⟨r, rfl, hr⟩
    · simp only [level_nil]
      omega
    · rw [List.prefix_nil.1 hr]
      have hone : level ['}'] = -1 := rfl
      omega
  final := by
    have hone : level ['}'] = -1 := rfl
    omega

/-- Text without braces behind. -/
theorem more (h : Walk d n m l) (hs : Braceless s) : Walk d n m (l ++ s) :=
  h.append (braceless hs h.floor_le_final)

/-- Text without braces in front. -/
theorem behind (h : Walk d n m l) (hs : Braceless s) : Walk d n m (s ++ l) :=
  (braceless hs h.floor_le_start).append h

/-- An opening brace behind, with `s` between. -/
theorem opens (h : Walk d n m l) (hs : Braceless s) : Walk d n (m + 1) (l ++ (s ++ ['{'])) :=
  h.append ((brace_open h.floor_le_final).behind hs)

end Walk

end BranchExclusion.Text
