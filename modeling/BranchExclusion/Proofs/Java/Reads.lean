import BranchExclusion.Java.Grammar
import BranchExclusion.Proofs.Java.Shape

/-!
# Reading shapes

What is read without a syntax error depends on the shapes of the chunks only.

* `Reads`: the shapes that some symbols read, and those that are left;
* `Reads.append`, `Reads.split`: readings one behind the other;
* `Reads.behind`: nothing behind a semicolon or a block makes a difference before it.
-/

namespace BranchExclusion.Java

/-- The symbols read the first shapes and leave the last ones. -/
inductive Reads : List Symbol → List Shape → List Shape → Prop
  | nil {ss : List Shape} : Reads [] ss ss
  | token {role : Role} {w : Word} {es : List Symbol} {ss rest : List Shape} : Reads es ss rest →
      Reads (.token role :: es) (.word w :: ss) rest
  | raw {taken ss rest : List Shape} {es : List Symbol} : Reads es ss rest →
      Reads (.raw taken.length :: es) (taken ++ ss) rest
  | group {opening : String} {p : Phrase} {o c : Word} {es : List Symbol}
      {inner ss rest : List Shape} : o.is opening = true → Reads [.phrase p] inner [] →
      Reads es ss rest → Reads (.group opening p :: es) (.group o inner c :: ss) rest
  | node {role : Role} {kind : NodeKind} {es : List Symbol} {ss mid rest : List Shape} :
      kind ≠ .error → mid.length < ss.length → Reads [.phrase (.inside kind)] ss mid →
      Reads es mid rest → Reads (.node role kind :: es) ss rest
  | phrase {p : Phrase} {es : List Symbol} {ss mid rest : List Shape} :
      Reads (p.expand (sight ss)) ss mid → Reads es mid rest → Reads (.phrase p :: es) ss rest
  | done {p : Phrase} {es : List Symbol} {ss rest : List Shape} : p.expand (sight ss) = [] →
      Reads es ss rest → Reads (.many p :: es) ss rest
  | more {p : Phrase} {es : List Symbol} {ss mid rest : List Shape} : p.expand (sight ss) ≠ [] →
      mid.length < ss.length → Reads (p.expand (sight ss)) ss mid → Reads (.many p :: es) mid rest →
      Reads (.many p :: es) ss rest

namespace Reads

variable {p : Phrase} {e : Symbol} {es es' : List Symbol} {ss mid rest : List Shape}

theorem append (h : Reads es ss mid) (h' : Reads es' mid rest) : Reads (es ++ es') ss rest := by
  induction h with
  | nil => exact h'
  | token _ ih => exact .token (ih h')
  | raw _ ih => exact .raw (ih h')
  | group hopening hinner _ _ ih => exact .group hopening hinner (ih h')
  | node hkind hlt hinside _ _ ih => exact .node hkind hlt hinside (ih h')
  | phrase hp _ _ ih => exact .phrase hp (ih h')
  | done hp _ ih => exact .done hp (ih h')
  | more hp hlt hfirst _ _ ih => exact .more hp hlt hfirst (ih h')

/-- A reading by two lists of symbols, one list after the other. -/
theorem split (h : Reads (es ++ es') ss rest) : ∃ mid, Reads es ss mid ∧ Reads es' mid rest := by
  generalize htotal : es ++ es' = total at h
  induction h generalizing es with
  | nil =>
    obtain ⟨rfl, rfl⟩ := List.append_eq_nil_iff.1 htotal
    exact ⟨_, .nil, .nil⟩
  | token hrest ih =>
    rcases List.append_eq_cons_iff.1 htotal with ⟨rfl, rfl⟩ | ⟨es, rfl, rfl⟩
    · exact ⟨_, .nil, .token hrest⟩
    · obtain ⟨mid, h, h'⟩ := ih rfl
      exact ⟨mid, .token h, h'⟩
  | raw hrest ih =>
    rcases List.append_eq_cons_iff.1 htotal with ⟨rfl, rfl⟩ | ⟨es, rfl, rfl⟩
    · exact ⟨_, .nil, .raw hrest⟩
    · obtain ⟨mid, h, h'⟩ := ih rfl
      exact ⟨mid, .raw h, h'⟩
  | group hopening hinner hrest _ ih =>
    rcases List.append_eq_cons_iff.1 htotal with ⟨rfl, rfl⟩ | ⟨es, rfl, rfl⟩
    · exact ⟨_, .nil, .group hopening hinner hrest⟩
    · obtain ⟨mid, h, h'⟩ := ih rfl
      exact ⟨mid, .group hopening hinner h, h'⟩
  | node hkind hlt hinside hrest _ ih =>
    rcases List.append_eq_cons_iff.1 htotal with ⟨rfl, rfl⟩ | ⟨es, rfl, rfl⟩
    · exact ⟨_, .nil, .node hkind hlt hinside hrest⟩
    · obtain ⟨mid, h, h'⟩ := ih rfl
      exact ⟨mid, .node hkind hlt hinside h, h'⟩
  | phrase hp hrest _ ih =>
    rcases List.append_eq_cons_iff.1 htotal with ⟨rfl, rfl⟩ | ⟨es, rfl, rfl⟩
    · exact ⟨_, .nil, .phrase hp hrest⟩
    · obtain ⟨mid, h, h'⟩ := ih rfl
      exact ⟨mid, .phrase hp h, h'⟩
  | done hp hrest ih =>
    rcases List.append_eq_cons_iff.1 htotal with ⟨rfl, rfl⟩ | ⟨es, rfl, rfl⟩
    · exact ⟨_, .nil, .done hp hrest⟩
    · obtain ⟨mid, h, h'⟩ := ih rfl
      exact ⟨mid, .done hp h, h'⟩
  | more hp hlt hfirst hrest _ ih =>
    rcases List.append_eq_cons_iff.1 htotal with ⟨rfl, rfl⟩ | ⟨es, rfl, rfl⟩
    · exact ⟨_, .nil, .more hp hlt hfirst hrest⟩
    · obtain ⟨mid, h, h'⟩ := @ih (_ :: es) rfl
      exact ⟨mid, .more hp hlt hfirst h, h'⟩

theorem of_phrase (h : Reads [.phrase p] ss rest) : Reads (p.expand (sight ss)) ss rest := by
  cases h with
  | phrase hp hnil =>
    cases hnil
    exact hp

theorem to_phrase (h : Reads (p.expand (sight ss)) ss rest) : Reads [.phrase p] ss rest :=
  .phrase h .nil

/-- What is left is the end of what was there. -/
theorem exists_used (h : Reads es ss rest) : ∃ used, ss = used ++ rest := by
  induction h with
  | nil => exact ⟨[], rfl⟩
  | token _ ih =>
    obtain ⟨used, rfl⟩ := ih
    exact ⟨_ :: used, rfl⟩
  | raw _ ih =>
    obtain ⟨used, rfl⟩ := ih
    exact ⟨_ ++ used, (List.append_assoc ..).symm⟩
  | group _ _ _ _ ih =>
    obtain ⟨used, rfl⟩ := ih
    exact ⟨_ :: used, rfl⟩
  | node _ _ _ _ ihinside ih =>
    obtain ⟨first, rfl⟩ := ihinside
    obtain ⟨used, rfl⟩ := ih
    exact ⟨first ++ used, (List.append_assoc ..).symm⟩
  | phrase _ _ ihp ih =>
    obtain ⟨first, rfl⟩ := ihp
    obtain ⟨used, rfl⟩ := ih
    exact ⟨first ++ used, (List.append_assoc ..).symm⟩
  | done _ _ ih => exact ih
  | more _ _ _ _ ihfirst ih =>
    obtain ⟨first, rfl⟩ := ihfirst
    obtain ⟨used, rfl⟩ := ih
    exact ⟨first ++ used, (List.append_assoc ..).symm⟩

end Reads

/-! ### What follows -/

/-- The shapes hold a semicolon or a block, behind which the grammar sees nothing. -/
def Stops (ss : List Shape) : Prop := ∃ s ∈ ss, s.head.stops = true

theorem view_append {hs : List Head} (h : ∃ x ∈ hs, x.stops = true) (more : List Head) :
    view (hs ++ more) = view hs := by
  induction hs with
  | nil =>
    obtain ⟨x, hx, -⟩ := h
    cases hx
  | cons y hs ih =>
    rw [List.cons_append, view, view]
    cases hy : y.stops with
    | true => rfl
    | false =>
      obtain ⟨x, hx, hstops⟩ := h
      rcases List.mem_cons.1 hx with rfl | hx
      · rw [hy] at hstops
        cases hstops
      · simp [ih ⟨x, hx, hstops⟩]

/-- What follows a semicolon or a block is not seen. -/
theorem sight_append {ss : List Shape} (h : Stops ss) (more : List Shape) :
    sight (ss ++ more) = sight ss := by
  obtain ⟨s, hs, hstops⟩ := h
  rw [sight, List.map_append, view_append ⟨s.head, List.mem_map_of_mem hs, hstops⟩]
  rfl

theorem Stops.append_left {ss : List Shape} (h : Stops ss) (before : List Shape) :
    Stops (before ++ ss) := by
  obtain ⟨s, hs, hstops⟩ := h
  exact ⟨s, List.mem_append_right _ hs, hstops⟩

theorem Stops.append_right {ss : List Shape} (h : Stops ss) (more : List Shape) :
    Stops (ss ++ more) := by
  obtain ⟨s, hs, hstops⟩ := h
  exact ⟨s, List.mem_append_left _ hs, hstops⟩

theorem sight_behind {used rest : List Shape} (h : Stops rest) (more more' : List Shape) :
    sight (used ++ (rest ++ more')) = sight (used ++ (rest ++ more)) := by
  rw [← List.append_assoc, ← List.append_assoc, sight_append (h.append_left used),
    sight_append (h.append_left used)]

/-- **What is read before a semicolon or a block does not depend on what follows it.** -/
theorem Reads.exists_behind {es : List Symbol} {ss left rest more : List Shape}
    (h : Reads es ss left) (hleft : left = rest ++ more) (hrest : Stops rest)
    (more' : List Shape) :
    ∃ used, ss = used ++ (rest ++ more) ∧ Reads es (used ++ (rest ++ more')) (rest ++ more') := by
  induction h generalizing rest with
  | nil => exact ⟨[], hleft, .nil⟩
  | @token role w es ss left h ih =>
    obtain ⟨later, rfl, hlater⟩ := ih hleft hrest
    exact ⟨.word w :: later, rfl, .token hlater⟩
  | @raw taken ss left es h ih =>
    obtain ⟨later, rfl, hlater⟩ := ih hleft hrest
    refine ⟨taken ++ later, (List.append_assoc ..).symm, ?_⟩
    rw [List.append_assoc]
    exact .raw hlater
  | @group opening p o c es inner ss left hopening hinner h _ ih =>
    obtain ⟨later, rfl, hlater⟩ := ih hleft hrest
    exact ⟨.group o inner c :: later, rfl, .group hopening hinner hlater⟩
  | @node role kind es ss mid left hkind hlt hinside h ihinside ih =>
    obtain ⟨later, rfl, hlater⟩ := ih hleft hrest
    obtain ⟨first, hss, hfirst⟩ :=
      @ihinside (later ++ rest) (List.append_assoc ..).symm (hrest.append_left later)
    simp only [List.append_assoc] at hss hfirst
    refine ⟨first ++ later, by simp [hss], ?_⟩
    rw [List.append_assoc]
    refine .node hkind ?_ hfirst hlater
    simp only [hss, List.length_append] at hlt ⊢
    omega
  | @phrase p es ss mid left hp h ihp ih =>
    obtain ⟨later, rfl, hlater⟩ := ih hleft hrest
    obtain ⟨first, hss, hfirst⟩ :=
      @ihp (later ++ rest) (List.append_assoc ..).symm (hrest.append_left later)
    simp only [List.append_assoc] at hss hfirst
    refine ⟨first ++ later, by simp [hss], ?_⟩
    rw [hss, ← List.append_assoc, ← sight_behind hrest more more', List.append_assoc] at hfirst
    rw [List.append_assoc]
    exact .phrase hfirst hlater
  | @done p es ss left hp h ih =>
    obtain ⟨later, rfl, hlater⟩ := ih hleft hrest
    rw [← sight_behind hrest more more'] at hp
    exact ⟨later, rfl, .done hp hlater⟩
  | @more p es ss mid left hp hlt hfirst h ihfirst ih =>
    obtain ⟨later, rfl, hlater⟩ := ih hleft hrest
    obtain ⟨first, hss, hfirst⟩ :=
      @ihfirst (later ++ rest) (List.append_assoc ..).symm (hrest.append_left later)
    simp only [List.append_assoc] at hss hfirst
    refine ⟨first ++ later, by simp [hss], ?_⟩
    rw [hss, ← List.append_assoc, ← sight_behind hrest more more', List.append_assoc] at hfirst hp
    rw [List.append_assoc]
    refine .more hp ?_ hfirst hlater
    simp only [hss, List.length_append] at hlt ⊢
    omega

theorem Reads.behind {es : List Symbol} {used rest more : List Shape}
    (h : Reads es (used ++ (rest ++ more)) (rest ++ more)) (hrest : Stops rest)
    (more' : List Shape) : Reads es (used ++ (rest ++ more')) (rest ++ more') := by
  obtain ⟨used', hss, h⟩ := h.exists_behind rfl hrest more'
  rwa [List.append_cancel_right hss]

end BranchExclusion.Java
