import BranchExclusion.Proofs.Body.Tree

/-!
# Bodies that grow from their leaves

A body is built by adding blocks at the end of the arena, each behind the blocks nested in it.

* `Statement.verbatims`, `Body.verbatims`: the source text that is kept;
* `Body.Fresh`: what holds of the blocks that were added so far and of what still waits for an
  owner;
* `Body.Grows`: the same between two bodies;
* `Body.Fresh.treeShaped`, `Body.Fresh.reaches_root`: the body whose root owns all that waited is a
  tree, and the root leads to every block.
-/

namespace BranchExclusion

/-! ### Source text -/

/-- The source text that the statement keeps itself. -/
def Statement.verbatims : Statement → List Verbatim
  | .exit _ text => [text]
  | .other text => [text]
  | .labeled _ body _ => body.verbatims
  | .conditional _ | .block _ | .compound _ | .tryStatement _ | .declaration .. | .assignment ..
  | .assertion _ | .comment .. => []

/-- The source text that the statements of the block keep themselves. -/
def Block.verbatims (b : Block) : List Verbatim := b.statements.flatMap Statement.verbatims

namespace Body

/-- The source text in all blocks of the body. -/
def verbatims (body : Body) : List Verbatim := body.blocks.toList.flatMap Block.verbatims

/-! ### Blocks that were added -/

/-- The blocks `new` get the numbers from `first` on, and `ids` and `own` are the blocks and the
source text that wait for an owner. No block is mentioned twice, and when `exact` holds, all are
mentioned. A block comes behind those that it owns, and all source text is that of `kept`. -/
structure Fresh (exact : Prop) (first : ℕ) (new : List Block) (ids : List BlockId)
    (own kept : List Verbatim) : Prop where
  mentions : (ids ++ new.flatMap Block.childBlocks).Subperm (List.range' first new.length)
  all : exact → ids.length + (new.flatMap Block.childBlocks).length = new.length
  behind : ∀ i b, new[i]? = some b → ∀ c ∈ b.childBlocks, c < first + i
  texts : (own ++ new.flatMap Block.verbatims).Perm kept

/-- Two pairs of lists, taken across. -/
theorem perm_across {α : Type} (a b c d : List α) :
    (a ++ b ++ (c ++ d)).Perm (a ++ c ++ (b ++ d)) := by
  rw [List.append_assoc, List.append_assoc]
  exact (List.perm_append_comm_assoc b c d).append_left a

namespace Fresh

variable {exact exact' : Prop} {first : ℕ} {new new' : List Block} {ids ids' : List BlockId}
  {own own' kept kept' : List Verbatim}

theorem nil (exact : Prop) (first : ℕ) (own : List Verbatim) :
    Fresh exact first [] [] own own where
  mentions := List.Subperm.refl _
  all _ := rfl
  behind _ _ h := by simp at h
  texts := by simp

theorem mono (h : Fresh exact first new ids own kept) (himp : exact' → exact) :
    Fresh exact' first new ids own kept where
  mentions := h.mentions
  all he := h.all (himp he)
  behind := h.behind
  texts := h.texts

/-- Fewer blocks may wait for an owner, but not when all are to be mentioned. -/
theorem subperm (h : Fresh exact first new ids own kept) (hsub : ids'.Subperm ids)
    (hlen : exact → ids'.length = ids.length) : Fresh exact first new ids' own kept where
  mentions := (hsub.append (List.Subperm.refl _)).trans h.mentions
  all he := by rw [hlen he, h.all he]
  behind := h.behind
  texts := h.texts

theorem append (h : Fresh exact first new ids own kept)
    (h' : Fresh exact (first + new.length) new' ids' own' kept') :
    Fresh exact first (new ++ new') (ids ++ ids') (own ++ own') (kept ++ kept') where
  mentions := by
    rw [List.flatMap_append, List.length_append, ← List.range'_append_1]
    exact (perm_across ids ids' _ _).subperm.trans (h.mentions.append h'.mentions)
  all he := by
    have h₁ := h.all he
    have h₂ := h'.all he
    simp only [List.length_append, List.flatMap_append]
    omega
  behind i b hb c hc := by
    by_cases hi : i < new.length
    · rw [List.getElem?_append_left hi] at hb
      exact h.behind i b hb c hc
    · rw [List.getElem?_append_right (Nat.not_lt.1 hi)] at hb
      have := h'.behind _ b hb c hc
      omega
  texts := by
    rw [List.flatMap_append]
    exact (perm_across own own' _ _).trans (h.texts.append h'.texts)

/-- One more block, which owns all that waited and now waits itself. -/
theorem block {b : Block} (h : Fresh exact first new b.childBlocks b.verbatims kept) :
    Fresh exact first (new ++ [b]) [first + new.length] [] kept where
  mentions := by
    have hp : ([first + new.length] ++ (new ++ [b]).flatMap Block.childBlocks).Perm
        (b.childBlocks ++ new.flatMap Block.childBlocks ++ [first + new.length]) := by
      simp only [List.flatMap_append, List.flatMap_singleton]
      exact List.perm_append_comm.trans (List.perm_append_comm.append_right _)
    rw [List.length_append, List.length_singleton, List.range'_1_concat]
    exact hp.subperm.trans (h.mentions.append (List.Subperm.refl _))
  all he := by
    have := h.all he
    simp only [List.length_append, List.length_singleton, List.flatMap_append,
      List.flatMap_singleton]
    omega
  behind i c hc x hx := by
    by_cases hi : i < new.length
    · rw [List.getElem?_append_left hi] at hc
      exact h.behind i c hc x hx
    · rw [List.getElem?_append_right (Nat.not_lt.1 hi), List.getElem?_singleton] at hc
      split at hc
      · cases hc
        have hmem := h.mentions.subset (List.mem_append_left _ hx)
        rw [List.mem_range'_1] at hmem
        omega
      · cases hc
  texts := by
    simp only [List.nil_append, List.flatMap_append, List.flatMap_singleton]
    exact List.perm_append_comm.trans h.texts

end Fresh

/-- `after` is `body` with blocks added, such as `Fresh` says. -/
def Grows (exact : Prop) (body : Body) (ids : List BlockId) (own kept : List Verbatim)
    (after : Body) : Prop :=
  ∃ new, after.blocks.toList = body.blocks.toList ++ new ∧ Fresh exact body.size new ids own kept

namespace Grows

variable {exact exact' : Prop} {body after last : Body} {ids ids' : List BlockId}
  {own own' kept kept' : List Verbatim}

theorem refl (exact : Prop) (body : Body) (own : List Verbatim) :
    Grows exact body [] own own body :=
  ⟨[], by simp, .nil exact _ own⟩

theorem mono (h : Grows exact body ids own kept after) (himp : exact' → exact) :
    Grows exact' body ids own kept after := by
  obtain ⟨new, hnew, hf⟩ := h
  exact ⟨new, hnew, hf.mono himp⟩

theorem subperm (h : Grows exact body ids own kept after) (hsub : ids'.Subperm ids)
    (hlen : exact → ids'.length = ids.length) : Grows exact body ids' own kept after := by
  obtain ⟨new, hnew, hf⟩ := h
  exact ⟨new, hnew, hf.subperm hsub hlen⟩

theorem trans (h : Grows exact body ids own kept after)
    (h' : Grows exact after ids' own' kept' last) :
    Grows exact body (ids ++ ids') (own ++ own') (kept ++ kept') last := by
  obtain ⟨new, hnew, hf⟩ := h
  obtain ⟨new', hnew', hf'⟩ := h'
  have hsize : after.size = body.size + new.length := by
    rw [size, size, ← Array.length_toList, ← Array.length_toList, hnew, List.length_append]
  exact ⟨new ++ new', by rw [hnew', hnew, List.append_assoc], hf.append (hsize ▸ hf')⟩

theorem alloc {b : Block} (h : Grows exact body b.childBlocks b.verbatims kept after) :
    Grows exact body [after.size] [] kept (after.alloc b) := by
  obtain ⟨new, hnew, hf⟩ := h
  have hsize : after.size = body.size + new.length := by
    rw [size, size, ← Array.length_toList, ← Array.length_toList, hnew, List.length_append]
  refine ⟨new ++ [b], ?_, hsize ▸ hf.block⟩
  rw [Body.alloc, Array.toList_push, hnew, List.append_assoc]

end Grows

/-! ### The whole body -/

namespace Fresh

variable {exact : Prop} {body : Body} {b : Block} {new : List Block} {kept : List Verbatim}
  {p id : BlockId}

theorem block_of_pos (hbody : body.blocks.toList = b :: new) {c : Block} (hp : p ≠ root)
    (hc : body.block p = .ok c) : ∃ i, p = 1 + i ∧ new[i]? = some c := by
  rw [block_eq_ok, ← Array.getElem?_toList, hbody] at hc
  obtain ⟨i, rfl⟩ := Nat.exists_eq_succ_of_ne_zero hp
  exact ⟨i, Nat.add_comm i 1, by simpa using hc⟩

theorem size_eq (hbody : body.blocks.toList = b :: new) : body.size = 1 + new.length := by
  rw [size, ← Array.length_toList, hbody, List.length_cons, Nat.add_comm]

variable (h : Fresh exact 1 new b.childBlocks b.verbatims kept)
  (hbody : body.blocks.toList = b :: new)
include h hbody

/-- The body whose root owns all that waited is a tree. -/
theorem treeShaped : body.TreeShaped := by
  have hmentions : body.mentions.Subperm (List.range' 1 new.length) := by
    rw [Body.mentions, hbody, List.flatMap_cons]
    exact h.mentions
  have hmem : ∀ x ∈ body.mentions, 1 ≤ x ∧ x < 1 + new.length := fun x hx =>
    List.mem_range'_1.1 (hmentions.subset hx)
  exact {
    nonempty := by rw [size_eq hbody]; omega
    inRange := fun x hx => by rw [size_eq hbody]; exact (hmem x hx).2
    root_free := fun hr => absurd (hmem root hr).1 (by decide)
    once := by
      obtain ⟨l, hperm, hsub⟩ := hmentions
      exact hperm.nodup_iff.1 (hsub.nodup List.nodup_range') }

theorem mem_mentions (he : exact) (hid : id < body.size) (hr : id ≠ root) :
    id ∈ body.mentions := by
  have hlen : (List.range' 1 new.length).length ≤
      (b.childBlocks ++ new.flatMap Block.childBlocks).length := by
    rw [List.length_append, h.all he, List.length_range']
  have hperm := h.mentions.perm_of_length_le hlen
  rw [Body.mentions, hbody, List.flatMap_cons]
  rw [size_eq hbody] at hid
  have hpos : 0 < id := Nat.pos_of_ne_zero hr
  exact hperm.mem_iff.2 (List.mem_range'_1.2 ⟨hpos, hid⟩)

/-- Below the root, a block comes behind all that lies below it. -/
theorem lt_of_isChild (hp : p ≠ root) (hc : body.IsChild p id) : id < p := by
  obtain ⟨c, hblock, hid⟩ := hc
  obtain ⟨i, rfl, hi⟩ := block_of_pos hbody hp hblock
  exact h.behind i c hi id hid

theorem lt_of_below (hp : p ≠ root) (hb : Relation.TransGen body.IsChild p id) : id < p := by
  induction hb with
  | single hc => exact h.lt_of_isChild hbody hp hc
  | @tail q x _ hc ih =>
    have hq : q ≠ root := by
      rintro rfl
      obtain ⟨o, -, ho⟩ := Relation.TransGen.tail'_iff.1 ‹_›
      exact (h.treeShaped hbody).not_isChild_root ho
    exact (h.lt_of_isChild hbody hq hc).trans ih

/-- The root leads to every block. -/
theorem reaches_root (he : exact) (hid : id < body.size) : body.Reaches root id := by
  -- an owner that is not the root has a greater number, so the distance from the end gets smaller
  have go : ∀ n id, id < body.size → body.size ≤ id + n → body.Reaches root id := by
    intro n
    induction n with
    | zero => exact fun id hid hn => absurd hid (Nat.not_lt.2 hn)
    | succ n ih =>
      intro id hid hn
      by_cases hr : id = root
      · rw [hr]
        exact .self
      obtain ⟨p, hc⟩ := Body.mem_mentions.1 (h.mem_mentions hbody he hid hr)
      by_cases hp : p = root
      · exact .child .self (hp ▸ hc)
      · have ⟨c, hblock, _⟩ := hc
        have hlt : id < p := h.lt_of_isChild hbody hp hc
        have hle : body.size ≤ p + n := by
          simp only [BlockId] at *
          omega
        exact .child (ih p (lt_size_of_block_eq_ok hblock) hle) hc
  exact go body.size id hid (Nat.le_add_left ..)

theorem perm_verbatims : body.verbatims.Perm kept := by
  rw [Body.verbatims, hbody, List.flatMap_cons]
  exact h.texts

end Fresh

end Body

end BranchExclusion
