import BranchExclusion.Proofs.Java.Derived
import BranchExclusion.Proofs.Java.Legible

/-!
# Trees whose blocks get new texts

Some blocks of a tree get new texts. What is kept as text has words that are read as before, whether
such a block lies in it or not.

* `Tree.Has`: the trees in a tree;
* `Tree.admits_of_hosts`: the blocks that get new texts lie in the tree;
* `Renewal`: blocks of a tree that was derived from a source get new texts;
* `Renewal.exists_rereads`: the new text of a tree that is kept.
-/

namespace BranchExclusion.Java

open Layout (Printer)
open Text (slice)

namespace Tree

variable {t u b T : Tree} {e : Edit} {edits : List Edit}

/-! ### The trees in a tree -/

/-- The first tree is the second one, or holds it. -/
inductive Has : Tree → Tree → Prop
  | refl (t : Tree) : Has t t
  | part {t u : Tree} {p : Role × Tree} : p ∈ t.parts → Has p.2 u → Has t u

theorem Has.of_parts (h : t.Has u) : ∀ p ∈ u.parts, t.Has p.2 := by
  induction h with
  | refl t => exact fun p hp => .part hp (.refl p.2)
  | part hp _ ih => exact fun q hq => .part hp (ih q hq)

/-- What passes from a tree to its parts holds of all the trees in it. -/
theorem Has.of_hereditary {Q : Tree → Prop} (hparts : ∀ t, Q t → ∀ p ∈ t.parts, Q p.2)
    (h : t.Has u) (ht : Q t) : Q u := by
  induction h with
  | refl => exact ht
  | part hp _ ih => exact ih (hparts _ ht _ hp)

theorem Has.wellFormed (h : t.Has u) (hw : t.WellFormed) : u.WellFormed :=
  h.of_hereditary (fun _ hw => hw.parts) hw

theorem Has.within (h : t.Has u) (hw : t.WellFormed) : t.start ≤ u.start ∧ u.stop ≤ t.stop := by
  induction h with
  | refl => exact ⟨Nat.le_refl _, Nat.le_refl _⟩
  | part hp _ ih =>
    obtain ⟨hstart, hstop⟩ := ih (hw.parts _ hp)
    have := hw.inOrder.bounds (List.mem_map_of_mem hp)
    omega

/-- Of two parts one lies behind the other. -/
theorem WellFormed.apart (hw : t.WellFormed) {p q : Role × Tree} (hp : p ∈ t.parts) (hq : q ∈ t.parts) :
    p.2 = q.2 ∨ p.2.stop ≤ q.2.start ∨ q.2.stop ≤ p.2.start := by
  have : Std.Symm fun t u : Tree => t.stop ≤ u.start ∨ u.stop ≤ t.start := ⟨fun _ _ => Or.symm⟩
  have hboth : (t.parts.map Prod.snd).Pairwise fun t u => t.stop ≤ u.start ∨ u.stop ≤ t.start :=
    hw.inOrder.pairwise.imp Or.inl
  by_cases heq : p.2 = q.2
  · exact .inl heq
  · exact .inr (hboth.forall (List.mem_map_of_mem hp) (List.mem_map_of_mem hq) heq)

theorem StartsWithBrace.start_lt_stop (h : b.StartsWithBrace) (hw : b.WellFormed) :
    b.start < b.stop := by
  obtain ⟨p, hp, -, hlt⟩ := h
  have := hw.inOrder.bounds (List.mem_map_of_mem (List.mem_of_mem_head? hp))
  omega

/-- A block that lies where a tree does lies in the tree, unless this is its brace. -/
theorem has_of_within (hw : T.WellFormed) (hu : T.Has u) (hb : T.Has b) (hbrace : b.StartsWithBrace)
    (hfixed : u.isFixed leftBrace = false) (hlo : u.start ≤ b.start) (hhi : b.stop ≤ u.stop) :
    u.Has b := by
  have hlt := hbrace.start_lt_stop (hb.wellFormed hw)
  induction hu with
  | refl => exact hb
  | @part T u p hp hu ih =>
    have hwp := hw.parts p hp
    obtain ⟨hustart, hustop⟩ := hu.within hwp
    cases hb with
    | refl =>
      -- the tree would have to reach to the start of the block
      obtain ⟨q, hq, hqbrace, hqlt⟩ := hbrace
      rcases hw.apart hp (List.mem_of_mem_head? hq) with heq | hbehind | hbefore
      · rw [heq] at hu
        have hleaf : q.2.parts = [] := by
          cases hq' : q.2 with
          | leaf => rfl
          | node =>
            rw [hq'] at hqbrace
            cases hqbrace
        cases hu with
        | refl =>
          rw [hfixed] at hqbrace
          cases hqbrace
        | part hr =>
          rw [hleaf] at hr
          cases hr
      · have := hw.inOrder.bounds (List.mem_map_of_mem (List.mem_of_mem_head? hq))
        omega
      · have := hw.inOrder.bounds (List.mem_map_of_mem (List.mem_of_mem_head? hq))
        omega
    | @part _ _ q hq hb =>
      have hwq := hw.parts q hq
      obtain ⟨hbstart, hbstop⟩ := hb.within hwq
      rcases hw.apart hp hq with heq | hbehind | hbefore
      · rw [← heq] at hb
        exact ih hwp hb hfixed hlo hhi
      · omega
      · omega

/-! ### Blocks that get new texts -/

/-- A block of the tree gets the new text. -/
def Hosts (t : Tree) (e : Edit) : Prop :=
  ∃ kind extent parts, t.Has (node kind extent parts) ∧ e.range = extent.range ∧
    Readable kind e.text.toList

/-- A block that lies in a node lies in one of its parts, and apart from the others. -/
theorem Hosts.of_parts {kind : NodeKind} {extent : Extent} {parts : List (Role × Tree)}
    (hw : (node kind extent parts).WellFormed) (h : (node kind extent parts).Hosts e)
    (hwhole : ¬ (e.range = extent.range ∧ Readable kind e.text.toList)) :
    ∀ p ∈ parts, e.range.Disjoint p.2.extent.range ∨ p.2.Hosts e := by
  intro p hp
  obtain ⟨kind', extent', parts', hhas, hrange, hreadable⟩ := h
  cases hhas with
  | refl => exact absurd ⟨hrange, hreadable⟩ hwhole
  | @part _ _ q hq hhas =>
    have hwithin := hhas.within (hw.parts q hq)
    rcases hw.apart hp hq with heq | hbefore | hbehind
    · exact .inr ⟨kind', extent', parts', heq ▸ hhas, hrange, hreadable⟩
    · exact .inl (.inr (hrange ▸ hbefore.trans hwithin.1))
    · exact .inl (.inl (hrange ▸ hwithin.2.trans hbehind))

theorem admits_of_hosts (hw : t.WellFormed)
    (h : ∀ e ∈ edits, e.range.Disjoint t.extent.range ∨ t.Hosts e) : t.Admits edits := by
  induction t using Tree.induction with
  | hleaf kind extent =>
    refine .leaf fun e he => (h e he).resolve_right ?_
    rintro ⟨_, _, _, hhas, -⟩
    cases hhas with
    | part hp => cases hp
  | hnode kind extent parts ih =>
    by_cases hwhole : ∃ e ∈ edits, e.range = extent.range ∧ Readable kind e.text.toList
    · obtain ⟨e, he, hrange, hreadable⟩ := hwhole
      exact .whole he hrange hreadable
    · refine .node fun p hp => ih p hp (hw.parts p hp) fun e he => ?_
      rcases h e he with hdisjoint | hhosts
      · have hbounds := hw.inOrder.bounds (List.mem_map_of_mem hp)
        left
        rcases hdisjoint with hbefore | hbehind
        · exact .inl (hbefore.trans hbounds.1)
        · exact .inr (hbounds.2.2.trans hbehind)
      · exact hhosts.of_parts hw (fun hwhole' => hwhole ⟨e, he, hwhole'⟩) p hp

end Tree

/-! ### New texts for blocks of a derived tree -/

/-- Some blocks of a tree get new texts. The blocks were derived from a source. -/
structure Renewal (source : List Char) (T : Tree) (edits : List Edit) : Prop where
  tidy : Tidy source
  wellFormed : T.WellFormed
  derived : ∀ {kind extent parts}, T.Has (.node kind extent parts) → kind.isBraced = true →
    (Tree.node kind extent parts).Derived source
  stands : T.Stands (Place.Between source)
  disjoint : edits.Pairwise fun e f => e.range.Disjoint f.range
  hosts : ∀ e ∈ edits, T.Hosts e

section Blocks

variable {source : List Char} {kind : NodeKind} {place : Place} {cs rest : List Chunk} {ps : Parts}
  {p : Phrase} {e : Edit} {extent : Extent}

/-- A block in braces that was derived starts with its brace. -/
theorem startsWithBrace_of_derivedFrom (hkind : kind.isBraced = true)
    (h : DerivedFrom source [.phrase (.inside kind)] (bareOf cs) ps rest) :
    (Tree.node kind extent ps).StartsWithBrace := by
  obtain ⟨lo, hi, hchained⟩ := exists_chained h.tokens
  obtain ⟨used, hused, hstanding⟩ := h.derives.standing
  rw [hused] at hchained
  obtain ⟨mid, hchained, -⟩ := chained_append.1 hchained
  exact Tree.startsWithBrace_of_derives h.derives hkind (hstanding _ _ hchained)

/-- A new text for a block that was derived. -/
theorem exchange_of_derivedFrom (hw : (Tree.node kind (extentOf place ps) ps).WellFormed)
    (hstands : (Tree.node kind (extentOf place ps) ps).Stands (Place.Between source))
    (h : DerivedFrom source [.group leftBrace p] (bareOf cs) ps rest)
    (hrange : e.range = (extentOf place ps).range) (hreadable : Readable kind e.text.toList) :
    Exchange source e := by
  obtain ⟨o, inner, c, qs, hcs, hopening, hbrackets, rfl, -⟩ := h.group
  obtain ⟨comments, t, rfl, rfl⟩ := exists_of_bareOf hcs
  have ht : t ∈ tokens source := by
    refine h.tokens.subset ?_
    rw [hcs]
    simp [Lexeme.tokens]
  obtain ⟨-, -, hstop⟩ := hw.inOrder.bounds
    (List.mem_map_of_mem (List.mem_of_mem_head? (a := (Role.part, t.tree .part)) rfl))
  rw [Tree.stop, extent_tree] at hstop
  refine ⟨hrange ▸ hstands.start, hrange ▸ hstands.stop, ⟨t, ht, ?_, ?_, hopening,
    hbrackets.opening.token⟩, kind,
    hreadable⟩
  · rw [hrange, range_extentOf]
  · rw [hrange]
    exact hstop

end Blocks

namespace Renewal

variable {source : List Char} {T u : Tree} {edits : List Edit} {e : Edit} (h : Renewal source T edits)
include h

/-- A block that gets a new text, with its braces. -/
theorem exists_block (he : e ∈ edits) : ∃ b, T.Has b ∧ b.StartsWithBrace ∧
    e.range = b.extent.range ∧ b.Hosts e ∧ Exchange source e := by
  obtain ⟨kind, extent, parts, hhas, hrange, hreadable⟩ := h.hosts e he
  have hstands := hhas.of_hereditary (fun _ h => h.parts) h.stands
  have hbraced := hreadable.1
  cases h.derived hhas hbraced with
  | @node _ place cs rest _ _ _ hinside _ =>
    obtain ⟨p, hp⟩ : ∃ p, DerivedFrom source [.group leftBrace p] (bareOf cs) parts rest := by
      cases kind <;> first | exact ⟨_, hinside.phrase⟩ | cases hbraced
    exact ⟨_, hhas, startsWithBrace_of_derivedFrom hbraced hinside, hrange,
      ⟨kind, _, parts, .refl _, hrange, hreadable⟩,
      exchange_of_derivedFrom (hhas.wellFormed h.wellFormed) hstands hp hrange hreadable⟩

theorem exchange : ∀ e ∈ edits, Exchange source e := fun e he => by
  obtain ⟨-, -, -, -, -, hexchange⟩ := h.exists_block he
  exact hexchange

/-- The blocks that lie where a tree does lie in it. -/
theorem hosts_within (hu : T.Has u) (hfixed : u.isFixed leftBrace = false) (he : e ∈ edits)
    (hin : u.extent.range.contains e.range = true) : u.Hosts e := by
  obtain ⟨b, hb, hbrace, hrange, ⟨kind, extent, parts, hhas, hhost⟩, -⟩ := h.exists_block he
  rw [hrange] at hin
  obtain ⟨hlo, hhi⟩ := ByteRange.contains_iff.1 hin
  have hub := Tree.has_of_within h.wellFormed hu hb hbrace hfixed hlo hhi
  exact ⟨kind, extent, parts, hhas.of_hereditary (fun _ h => h.of_parts) hub, hhost⟩

section Kept

variable {kind : NodeKind} {place : Place} {cs rest : List Chunk} {ps : Parts} {p : Printer}
  {text : List Char} (hu : T.Has (.node kind (extentOf place ps) ps)) (hkind : kind.isBraced = false)
  (hps : ps ≠ []) (hinside : DerivedFrom source [.phrase (.inside kind)] (bareOf cs) ps rest)
  (hp : p.nested = edits)
  (htext : splice (slice source (extentOf place ps).start.offset (extentOf place ps).stop.offset)
    (p.inside (extentOf place ps).range) = .ok text)
include hu hkind hps hinside hp htext

/-- The words of a tree that is kept are those that are written for its tokens. -/
theorem exists_within : ∃ (within : List Edit) (used : List Token),
    (within.Pairwise fun e f => e.range.Disjoint f.range) ∧
      tokensOf (bareOf cs) = used ++ tokensOf rest ∧ (∀ q ∈ ps, q.2.Admits within) ∧
        words text = used.flatMap (writtenFor within) ∧ Tidy text := by
  have hw := hu.wellFormed h.wellFormed
  obtain ⟨before, used, behind, htokens, hused, hleaves, htight⟩ := hinside.exists_used
  have htight := Tree.tight_node kind place hps htight
  obtain ⟨hstart, hstop⟩ := htight.parted (by rw [Tree.leaves_node, hleaves]) htokens
  have hlt : (extentOf place ps).range.start < (extentOf place ps).range.stop := by
    obtain ⟨t, used, rfl⟩ := List.exists_cons_of_ne_nil (l := used) fun hnil => by
      rw [hnil] at hleaves
      exact htight.ne_nil (by rw [Tree.leaves_node, hleaves]; rfl)
    have ht : t ∈ tokens source := by simp [htokens]
    exact (hstart.behind t (by simp)).trans_lt ((start_lt_stop ht).trans_le (hstop.before t (by simp)))
  let within := edits.filter fun e => (extentOf place ps).range.contains e.range
  have hmem : ∀ e ∈ within, e ∈ edits ∧ (extentOf place ps).range.contains e.range = true :=
    fun e he => List.mem_filter.1 he
  have hrelative : p.inside (extentOf place ps).range =
      within.map fun e => e.relativeTo (extentOf place ps).range.start := by
    rw [Printer.inside, if_neg (by simpa [ByteRange.isEmpty] using hlt), hp]
    rfl
  rw [hrelative] at htext
  have hpairwise : within.Pairwise fun e f => e.range.Disjoint f.range := h.disjoint.filter _
  obtain ⟨hwords, htidy⟩ := words_splice_slice h.tidy hpairwise (fun e he => h.exchange e (hmem e he).1)
    (fun e he => (hmem e he).2) hstart.cut hstop.cut hlt.le htext
  refine ⟨within, used, hpairwise, hused, fun q hq => ?_, ?_, htidy⟩
  · refine Tree.admits_of_hosts (hw.parts q hq) fun e he => ?_
    refine (h.hosts_within hu rfl (hmem e he).1 (hmem e he).2).of_parts hw (fun hwhole => ?_) q hq
    rw [hwhole.2.1] at hkind
    cases hkind
  · rw [hwords]
    exact congrArg _ (hstart.tokensIn_eq hstop)

/-- **The new text of a tree that is kept** is read as the tree was. -/
theorem exists_rereads : ∃ ss within used,
    Rereads within [.phrase (.inside kind)] (bareOf cs) rest ss used ∧ words text = wordsIn ss ∧
      Tidy text := by
  obtain ⟨within, used, hpairwise, hused, hadmits, hwords, htidy⟩ :=
    h.exists_within hu hkind hps hinside hp htext
  obtain ⟨ss, used', hss⟩ := hinside.exists_rereads hpairwise hadmits
  have hsame : used' = used := List.append_cancel_right (hss.tokens.symm.trans hused)
  exact ⟨ss, within, used', hss, by rw [hwords, hss.words, hsame], htidy⟩

end Kept

end Renewal

end BranchExclusion.Java
