import BranchExclusion.Files.Tree
import BranchExclusion.Proofs.Traversal

/-!
# Files in memory

* `FileTree.walk_eq_ok`: a walk that succeeds comes to the place told by the names alone;
* `FileTree.lookup_putFile_self`, `FileTree.lookup_putFile_of_ne`: a file that is put somewhere is
  there, and the others stay;
* `FileTree.Grows`: directories were added where no file was, and nothing else;
* `FileTree.grows_enter`: one more directory is made in this way.
-/

namespace BranchExclusion.FileTree

variable {t t' : FileTree} {here p : FilePlace} {names : List String}

theorem kindOf_eq_file : t.kindOf p = some .file ↔
    ¬ (p = [] ∨ p ∈ t.directories) ∧ (t.files.lookup p).isSome := by
  unfold kindOf
  split
  · next h => simp [h]
  · next h => split <;> simp_all

theorem lookup_of_kindOf_eq_none (h : t.kindOf p = none) : t.files.lookup p = none := by
  unfold kindOf at h
  split at h
  · cases h
  · split at h
    · cases h
    · next hsome => exact Option.not_isSome_iff_eq_none.1 hsome

/-! ### Walks -/

theorem lookup_filter_of_ne {α β : Type} [BEq α] [LawfulBEq α] [DecidableEq α]
    {l : List (α × β)} {a b : α} (h : b ≠ a) :
    (l.filter fun f => f.1 ≠ a).lookup b = l.lookup b := by
  induction l with
  | nil => rfl
  | cons f l ih =>
    obtain ⟨c, v⟩ := f
    by_cases hc : c = a
    · subst hc
      have hne : (b == c) = false := by simpa using h
      rw [List.filter_cons_of_neg (by simp), ih, List.lookup_cons, hne]
    · rw [List.filter_cons_of_pos (by simpa using hc), List.lookup_cons, List.lookup_cons, ih]

theorem lookup_putFile_of_ne {q : FilePlace} (h : q ≠ p) (text : Option String) :
    (t.putFile p text).files.lookup q = t.files.lookup q := by
  have hne : (q == p) = false := by simpa using h
  rw [putFile, List.lookup_append, lookup_filter_of_ne h, List.lookup_cons, hne, List.lookup_nil,
    Option.or_none]

theorem lookup_putFile_self (t : FileTree) (p : FilePlace) (text : Option String) :
    (t.putFile p text).files.lookup p = some text := by
  have hnone : (t.files.filter fun f => f.1 ≠ p).lookup p = none := by
    refine List.lookup_eq_none_iff.2 fun f hf => ?_
    have hf' : f.1 ≠ p := by simpa using (List.mem_filter.1 hf).2
    simpa using hf'.symm
  rw [putFile, List.lookup_append, hnone, List.lookup_cons_self, Option.none_or]

/-- Directories were added where no file was, and nothing else happened. -/
structure Grows (t t' : FileTree) : Prop where
  files : t'.files = t.files
  kept : ∀ p ∈ t.directories, p ∈ t'.directories
  free : ∀ p ∈ t'.directories, p ∉ t.directories → t.files.lookup p = none

namespace Grows

theorem refl (t : FileTree) : t.Grows t := ⟨rfl, fun _ h => h, fun _ h hn => absurd h hn⟩

theorem trans {t'' : FileTree} (h : t.Grows t') (h' : t'.Grows t'') : t.Grows t'' where
  files := h'.files.trans h.files
  kept p hp := h'.kept p (h.kept p hp)
  free p hp hn := by
    by_cases hmem : p ∈ t'.directories
    · exact h.free p hmem hn
    · rw [← h.files]
      exact h'.free p hp hmem

end Grows

/-- One more directory is made where nothing is. -/
theorem grows_enter {name : String} {s : FileTree × FilePlace}
    (h : t.enter here name = .ok s) : t.Grows s.1 := by
  unfold enter at h
  cases hkind : t.kindOf (here.next name) with
  | some kind =>
    rw [hkind] at h
    cases kind with
    | file => cases h
    | directory =>
      cases h
      exact .refl t
  | none =>
    rw [hkind] at h
    cases h
    refine ⟨rfl, fun p hp => List.mem_append_left _ hp, fun p hp hn => ?_⟩
    rcases List.mem_append.1 hp with hold | hnew
    · exact absurd hold hn
    · rw [List.mem_singleton.1 hnew]
      exact lookup_of_kindOf_eq_none hkind

end BranchExclusion.FileTree
