import BranchExclusion.Java.Unit
import BranchExclusion.Proofs.Java.Bodies
import BranchExclusion.Proofs.Java.Sites

/-!
# The methods of a source

* `Body.ReadFrom`: what is known of a body that was read from a source;
* `Tree.readFrom_bodyIn`: the body of a well-formed tree is of this form;
* `Tree.methods_of_wellFormed`: the bodies of a source are in order, and one that lies in another
  lies in one of its statements that are kept as text.
-/

namespace BranchExclusion

/-- The body is a tree of all its blocks, each behind those below it apart from the root, and its
source text stands in the source, at places that do not overlap. -/
structure Body.ReadFrom (source : List Char) (body : Body) : Prop where
  treeShaped : body.TreeShaped
  mentioned : ∀ id < body.size, id ≠ Body.root → body.mentions.count id = 1
  reaches : ∀ id < body.size, body.Reaches Body.root id
  behind : ∀ p id, p ≠ Body.root → Relation.TransGen body.IsChild p id → id < p
  text : ∀ v ∈ body.verbatims, v.text.toList = Text.slice source v.range.start v.range.stop
  disjoint : body.verbatims.Pairwise fun v w =>
    v.range.stop ≤ w.range.start ∨ w.range.stop ≤ v.range.start

namespace Java

namespace Tree

variable {source : List Char} {t : Tree}

/-! ### One body -/

/-- The body of any tree is a tree of blocks. -/
theorem treeShaped_bodyIn (source : List Char) (t : Tree) : (t.bodyIn source).TreeShaped := by
  obtain ⟨b, new, hbody, hfresh⟩ := exists_fresh_bodyIn source t
  exact hfresh.treeShaped hbody

theorem perm_verbatims_bodyIn (source : List Char) (t : Tree) :
    (t.bodyIn source).verbatims.Perm ((keptOfStatements source t.parts).map (verbatim source)) := by
  obtain ⟨b, new, hbody, hfresh⟩ := exists_fresh_bodyIn source t
  exact hfresh.perm_verbatims hbody

/-- The text that the statements of a well-formed tree keep is in order. -/
theorem WellFormed.keeps (hw : t.WellFormed) : Keeps source t.start t.stop
    (keptOfStatements source t.parts) fun scope => sitesOfStatements source scope t.parts :=
  keeps_statements hw.inOrder hw.parts fun p _ => Tree.keeps p.2

/-- The body of a well-formed tree is a tree of all its blocks over disjoint pieces of source. -/
theorem readFrom_bodyIn (hw : t.WellFormed) : (t.bodyIn source).ReadFrom source := by
  have htree := treeShaped_bodyIn source t
  have hperm := perm_verbatims_bodyIn source t
  obtain ⟨b, new, hbody, hfresh⟩ := exists_fresh_bodyIn source t
  exact {
    treeShaped := htree
    mentioned := fun id hid hroot =>
      List.count_eq_one_of_mem htree.once (hfresh.mem_mentions hbody hw hid hroot)
    reaches := fun id hid => hfresh.reaches_root hbody hw hid
    behind := fun p id hp hb => hfresh.lt_of_below hbody hp hb
    text := fun v hv => by
      obtain ⟨k, -, rfl⟩ := List.mem_map.1 (hperm.mem_iff.1 hv)
      exact String.toList_ofList
    disjoint := by
      have hsymm : ∀ {v w : Verbatim},
          (v.range.stop ≤ w.range.start ∨ w.range.stop ≤ v.range.start) →
            w.range.stop ≤ v.range.start ∨ v.range.stop ≤ w.range.start := Or.symm
      rw [hperm.pairwise_iff hsymm, List.pairwise_map]
      exact hw.keeps.inOrder.pairwise.imp Or.inl }

/-! ### One body in another -/

theorem countP_eq_one {α : Type} {R : α → α → Prop} {p : α → Bool} {l : List α} {a : α}
    (h : l.Pairwise R) (ha : a ∈ l) (hp : p a = true)
    (hR : ∀ a b, R a b → p a = true → p b = true → False) : l.countP p = 1 := by
  induction l with
  | nil => cases ha
  | cons b rest ih =>
    obtain ⟨hb, hrest⟩ := List.pairwise_cons.1 h
    rw [List.countP_cons]
    rcases List.mem_cons.1 ha with rfl | ha
    · have hzero : rest.countP p = 0 :=
        List.countP_eq_zero.2 fun c hc hpc => hR a c (hb c hc) hp hpc
      rw [hzero, if_pos hp]
    · rw [ih hrest ha, if_neg fun hpb => hR b a (hb a ha) hpb hp]

theorem sited_sites (hw : t.WellFormed) : Sited source t.start t.stop (t.sites source) :=
  sited t hw (.inside .program) [] fun h => by cases h

/-- A body that is nested in another lies in a tree that a statement of the other keeps as text. -/
theorem exists_kept {s s' : BodySite} (hw : s.body.WellFormed) (hs' : s' ∈ s.nested source) :
    ∃ k ∈ keptOfStatements source s.body.parts, k.start ≤ s'.start ∧ s'.stop ≤ k.stop := by
  have hkeeps : Keeps source _ _ _ _ := hw.keeps
  rw [BodySite.nested, hkeeps.sites_eq s.scope] at hs'
  obtain ⟨k, hk, hs'⟩ := List.mem_flatMap.1 hs'
  have hsited : Sited source k.start k.stop (k.sitesIn source .statement s.scope) :=
    sited k (hkeeps.wellFormed k hk) .statement s.scope fun h => by cases h
  obtain ⟨hlo, -, hhi⟩ := hsited.within s' hs'
  exact ⟨k, hk, hlo, hhi⟩

/-- Exactly one piece of text of a body holds a body that is nested in it. -/
theorem countP_verbatims {s s' : BodySite} (hw : s.body.WellFormed) (hs' : s' ∈ s.nested source)
    (hlt : s'.start < s'.stop) : (s.body.bodyIn source).verbatims.countP
      (fun v => v.range.contains s'.body.extent.range) = 1 := by
  have hkeeps : Keeps source _ _ _ _ := hw.keeps
  obtain ⟨k, hk, hlo, hhi⟩ := exists_kept hw hs'
  rw [(perm_verbatims_bodyIn source s.body).countP_eq, List.countP_map]
  refine countP_eq_one hkeeps.inOrder.pairwise hk (ByteRange.contains_iff.2 ⟨hlo, hhi⟩) ?_
  intro a b hab ha hb
  -- what lies in two trees lies between them
  have ha : a.start ≤ s'.start ∧ s'.stop ≤ a.stop := ByteRange.contains_iff.1 ha
  have hb : b.start ≤ s'.start ∧ s'.stop ≤ b.stop := ByteRange.contains_iff.1 hb
  omega

/-- What is known of the methods of a well-formed tree. Bodies start one after the other, and of two
the later one lies behind or within the earlier one; when it lies within, exactly one piece of text
that the statements of the earlier one keep holds it. -/
theorem methods_of_wellFormed (source : List Char) {t : Tree} (hw : t.WellFormed) :
    let methods := (t.sites source).map (BodySite.method source)
    (∀ m ∈ methods, m.body.ReadFrom source) ∧
      methods.Pairwise (fun m m' => m.bodyRange.start < m'.bodyRange.start ∧
        (m.bodyRange.stop ≤ m'.bodyRange.start ∨ m.bodyRange.contains m'.bodyRange = true)) ∧
      (methods.map Method.bodyRange).Nodup ∧
      ∀ m ∈ methods, ∀ m' ∈ methods, m ≠ m' → m.bodyRange.contains m'.bodyRange = true →
        m.body.verbatims.countP (fun v => v.range.contains m'.bodyRange) = 1 := by
  intro methods
  have hsited : Sited source t.start t.stop (t.sites source) := sited_sites hw
  have hordered : methods.Pairwise fun m m' => m.bodyRange.start < m'.bodyRange.start ∧
      (m.bodyRange.stop ≤ m'.bodyRange.start ∨ m.bodyRange.contains m'.bodyRange = true) := by
    rw [List.pairwise_map]
    refine hsited.ordered.imp fun {s s'} h => ⟨h.1, h.2.imp id fun hin => ?_⟩
    exact ByteRange.contains_iff.2 ⟨Nat.le_of_lt h.1, hin.1⟩
  refine ⟨?_, hordered, ?_, ?_⟩
  · intro m hm
    obtain ⟨s, hs, rfl⟩ := List.mem_map.1 hm
    exact readFrom_bodyIn (hsited.wellFormed s hs)
  · rw [List.Nodup, List.pairwise_map]
    refine hordered.imp fun {m m'} h heq => ?_
    rw [heq] at h
    exact Nat.lt_irrefl _ h.1
  · intro m hm m' hm' hne hin
    obtain ⟨s, hs, rfl⟩ := List.mem_map.1 hm
    obtain ⟨s', hs', rfl⟩ := List.mem_map.1 hm'
    have hin : s.start ≤ s'.start ∧ s'.stop ≤ s.stop := ByteRange.contains_iff.1 hin
    have hnested := hsited.mem_nested hs hs' (fun h => hne (congrArg _ h)) hin.1 hin.2
    exact countP_verbatims (hsited.wellFormed s hs) hnested (hsited.within s' hs').2.1

/-- A class with a method that passes a lambda in braces. -/
def lambdaSource : List Char :=
  ("class A\x7bvoid f()\x7bif(a)\x7bg(()->\x7bh();\x7d);\x7d" ++
    "try\x7bb();\x7dfinally\x7bc();\x7d\x7d\x7d").toList

/-- The lambda lies in the only statement of the method that holds it. -/
theorem methods_of_wellFormed_lambda :
    let methods := ((ofSource lambdaSource).sites lambdaSource).map (BodySite.method lambdaSource)
    (ofSource lambdaSource).WellFormed ∧
      methods.map Method.bodyRange = [⟨16, 61⟩, ⟨29, 35⟩] ∧
      (∀ m ∈ methods, m.body.ReadFrom lambdaSource) ∧
      ∀ m ∈ methods, ∀ m' ∈ methods, m ≠ m' → m.bodyRange.contains m'.bodyRange = true →
        m.body.verbatims.countP (fun v => v.range.contains m'.bodyRange) = 1 := by
  intro methods
  have hw : (ofSource lambdaSource).WellFormed := by decide +kernel
  obtain ⟨hread, -, -, hinside⟩ := methods_of_wellFormed lambdaSource hw
  exact ⟨hw, by decide +kernel, hread, hinside⟩

end Tree

end Java

end BranchExclusion
