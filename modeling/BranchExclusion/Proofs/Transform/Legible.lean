import BranchExclusion.Proofs.Java.Flagged
import BranchExclusion.Proofs.Java.Rooted
import BranchExclusion.Proofs.Transform.Woven

/-!
# Statements about flags in bodies that are read

A body whose statements are read stays so when missing branches are filled in and standard flags are
woven in.

* `LegibleBlocks.filled`, `LegibleBlocks.woven`: the two steps;
* `Method.Settles.legibleBlocks`: what becomes of a method.
-/

namespace BranchExclusion

open Layout (Printer)
open Java

variable {p : Printer} {kind : NodeKind}

/-! ### Branches that are filled in -/

theorem Statement.Filled.legible {New : BlockId → Prop} {s t : Statement} (h : Statement.Filled New s t)
    (hs : Legible p s) : Legible p t := by
  cases h with
  | same => exact hs
  | branch c x => exact hs

theorem Statement.forall_legible_of_filled {New : BlockId → Prop} {l l' : List Statement}
    (h : List.Forall₂ (Statement.Filled New) l l') (hl : ∀ s ∈ l, Legible p s) :
    ∀ t ∈ l', Legible p t := by
  intro t ht
  obtain ⟨s, hs, hst⟩ := forall₂_exists_left h ht
  exact hst.legible (hl s hs)

namespace Java

variable {b b' : Block} {body after placed : Body}

theorem LegibleRoot.filled {New : BlockId → Prop} (h : LegibleRoot kind p b) (hf : b.Filled New b') :
    LegibleRoot kind p b' := by
  rcases h with h | ⟨hkind, hprologue, comments, v, rest, hb, hcomments, hv, hrest⟩
  · exact .inl (Statement.forall_legible_of_filled hf.1 h)
  · have hf' := hf.1
    rw [hb] at hf'
    obtain ⟨comments', behind, hcomments', hbehind, hb'⟩ := forall₂_append_left hf'
    obtain ⟨t, rest', ht, hrest', rfl⟩ := List.forall₂_cons_left_iff.1 hbehind
    cases ht
    refine .inr ⟨hkind, hf.prologue_eq ▸ hprologue, comments', v, rest', hb', fun t ht => ?_, hv,
      Statement.forall_legible_of_filled hrest' hrest⟩
    obtain ⟨s, hs, hst⟩ := forall₂_exists_left hcomments' ht
    exact ⟨hst.isComment_eq.trans (hcomments s hs).1, hst.legible (hcomments s hs).2⟩

theorem LegibleBlocks.filled (h : LegibleBlocks kind p body) (hf : body.Filled after) :
    LegibleBlocks kind p after := by
  constructor
  · intro b' hb'
    rcases hf.cases_block hb' with ⟨b, hb, hbf⟩ | ⟨-, rfl⟩
    · exact (h.root b hb).filled hbf
    · exact .inl (List.forall_mem_nil _)
  · intro id b' hid hb'
    rcases hf.cases_block hb' with ⟨b, hb, hbf⟩ | ⟨-, rfl⟩
    · exact Statement.forall_legible_of_filled hbf.1 (h.statements id b hid hb)
    · exact List.forall_mem_nil _

/-! ### Statements that are woven in -/

/-- Statements that are woven in stand behind a call of another constructor. -/
theorem LegibleRoot.weave {d a e : List Statement} (h : LegibleRoot kind p b)
    (hnew : ∀ t, t ∈ d ∨ t ∈ a ∨ t ∈ e → Legible p t) : LegibleRoot kind p (b.weave d a e) := by
  rcases h with h | ⟨hkind, hprologue, comments, v, rest, hb, hcomments, hv, hrest⟩
  · refine .inl fun t ht => ?_
    rcases Block.mem_weave.1 ht with ht | ht
    · exact h t ht
    · exact hnew t ht
  · have hfront := Block.front_of_prologue hprologue hb rfl fun s hs => (hcomments s hs).1
    have hlength : b.front = (comments ++ [Statement.other v]).length := by simp [hfront]
    have hsplit : b.statements = (comments ++ [.other v]) ++ rest := by simp [hb]
    have htake : b.statements.take b.front = comments ++ [.other v] := by
      rw [hsplit, hlength, List.take_left]
    have hdrop : b.statements.drop b.front = rest := by rw [hsplit, hlength, List.drop_left]
    have hwithin : (b.statements.take (max b.front b.assertionIndex)).drop b.front ⊆ rest := by
      rw [← hdrop]
      exact ((List.take_sublist ..).drop _).subset
    have hbehind : b.statements.drop (max b.front b.assertionIndex) ⊆ rest := by
      rw [← hdrop]
      exact (List.drop_sublist_drop_left _ (Nat.le_max_left ..)).subset
    have hw : (b.weave d a e).statements = comments ++ .other v :: (d ++ (a ++
        ((b.statements.take (max b.front b.assertionIndex)).drop b.front ++
          (e ++ b.statements.drop (max b.front b.assertionIndex))))) := by
      simp [Block.weave, htake]
    refine .inr ⟨hkind, hprologue, comments, v, _, hw, hcomments, hv, fun t ht => ?_⟩
    simp only [List.mem_append] at ht
    rcases ht with ht | ht | ht | ht | ht
    · exact hnew t (.inl ht)
    · exact hnew t (.inr (.inl ht))
    · exact hrest t (hwithin ht)
    · exact hnew t (.inr (.inr ht))
    · exact hrest t (hbehind ht)

theorem LegibleBlocks.woven {d a e : BlockId → List Statement} (h : LegibleBlocks kind p body)
    (hw : body.Woven placed d a e)
    (hnew : ∀ id t, t ∈ d id ∨ t ∈ a id ∨ t ∈ e id → Legible p t) : LegibleBlocks kind p placed := by
  constructor
  · intro b' hb'
    obtain ⟨b, hb, rfl⟩ := hw.exists_weave hb'
    exact (h.root b hb).weave (hnew _)
  · intro id b' hid hb' t ht
    obtain ⟨b, hb, rfl⟩ := hw.exists_weave hb'
    rcases Block.mem_weave.1 ht with ht | ht
    · exact h.statements id b hid hb t ht
    · exact hnew id t ht

end Java

theorem FlagStyle.Writes.legible {t : Statement} (h : FlagStyle.standard.Writes t) : Legible p t := by
  cases h with
  | declaration m => exact legible_declaration m p
  | raised m => exact legible_raised m p
  | exclusion m l => exact legible_exclusion m p l

/-- **What becomes of a method is read** when its statements are. -/
theorem Method.Settles.legibleBlocks {s : Settings} {m : Method} {r : Settled} (h : m.Settles s r)
    (tree : m.body.TreeShaped) (hstyle : s.flagStyle = .standard)
    (hm : LegibleBlocks kind p m.body) : LegibleBlocks kind p r.method.body := by
  obtain ⟨after, placed, d, a, e, hf, -, hw, hmethod, hwrites⟩ := h.exists_woven tree
  rw [hmethod]
  rw [hstyle] at hwrites
  exact (hm.filled hf).woven hw fun id t ht => (hwrites id t ht).legible

end BranchExclusion
