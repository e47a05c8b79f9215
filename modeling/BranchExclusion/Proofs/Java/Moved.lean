import BranchExclusion.Proofs.Java.Spelling
import BranchExclusion.Proofs.Text.Rows

/-!
# Text that is moved

The layout takes white space from the ends of the lines of a source text and moves the lines. What the
grammar sees of the text stays.

* `Moved`: a text, and the same text with its lines moved;
* `Resets`: white space in a token leaves nothing behind;
* `Moved.words_eq`: a text that is moved has the same words.
-/

namespace BranchExclusion.Java

open Text (isBlank isIndent)

/-- The second text is the first one with other white space at the start of its later lines, and none
at the end of any line. It may end its last line. -/
inductive Moved : List Char → List Char → Prop
  | tail {u v : List Char} : (∀ c ∈ u, isBlank c = true) → v = [] ∨ v = ['\n'] → Moved u v
  | char {c : Char} {s t : List Char} : c ≠ '\n' → Moved s t → Moved (c :: s) (c :: t)
  | line {u v w s t : List Char} : (∀ c ∈ u, isBlank c = true ∧ c ≠ '\n') →
      (∀ c ∈ v, isIndent c = true) → (∀ c ∈ w, isIndent c = true) → Moved s t →
      Moved (u ++ '\n' :: (v ++ s)) ('\n' :: (w ++ t))

namespace Moved

variable {c : Char} {s t : List Char}

/-- What is no white space stays where it is. -/
theorem of_cons (h : Moved (c :: s) t) (hc : isBlank c = false) : ∃ t', t = c :: t' ∧ Moved s t' := by
  generalize hcs : c :: s = cs at h
  cases h with
  | tail hu =>
    rw [hu c (hcs ▸ List.mem_cons_self)] at hc
    cases hc
  | char hne h =>
    obtain ⟨rfl, rfl⟩ := List.cons.inj hcs
    exact ⟨_, rfl, h⟩
  | @line u v w s t hu hv hw h =>
    cases u with
    | nil =>
      obtain ⟨rfl, -⟩ := List.cons.inj hcs
      cases hc
    | cons d u =>
      obtain ⟨rfl, -⟩ := List.cons.inj hcs
      rw [(hu c List.mem_cons_self).1] at hc
      cases hc

theorem to_cons (h : Moved s (c :: t)) (hc : isBlank c = false) : ∃ s', s = c :: s' ∧ Moved s' t := by
  generalize hcs : c :: t = cs at h
  cases h with
  | tail hu hv =>
    rcases hv with rfl | rfl
    · cases hcs
    · obtain ⟨rfl, -⟩ := List.cons.inj hcs
      cases hc
  | char hne h =>
    obtain ⟨rfl, rfl⟩ := List.cons.inj hcs
    exact ⟨_, rfl, h⟩
  | line =>
    obtain ⟨rfl, -⟩ := List.cons.inj hcs
    cases hc

theorem chars {x : List Char} (hx : '\n' ∉ x) (h : Moved s t) : Moved (x ++ s) (x ++ t) := by
  induction x with
  | nil => exact h
  | cons c x ih =>
    obtain ⟨hc, hx⟩ := not_or.1 (mt List.mem_cons.2 hx)
    exact .char (Ne.symm hc) (ih hx)

/-- The two texts agree up to the first end of a line. -/
theorem exists_split (h : Moved s t) : ∃ x y y', s = x ++ y ∧ t = x ++ y' ∧ '\n' ∉ x ∧ Moved y y' ∧
    (∀ c ∈ y.head?, isBlank c = true) ∧ ∀ c ∈ y'.head?, c = '\n' := by
  induction h with
  | @tail u v hu hv =>
    refine ⟨[], u, v, rfl, rfl, List.not_mem_nil, .tail hu hv,
      fun c hc => hu c (List.mem_of_head? hc), ?_⟩
    rcases hv with rfl | rfl
    · exact fun c hc => by cases hc
    · exact fun c hc => (Option.some.inj hc).symm
  | char hne _ ih =>
    obtain ⟨x, y, y', rfl, rfl, hx, hmoved, hy, hy'⟩ := ih
    exact ⟨_ :: x, y, y', rfl, rfl, fun h => (List.mem_cons.1 h).elim (Ne.symm hne) hx, hmoved, hy, hy'⟩
  | @line u v w s t hu hv hw h _ =>
    refine ⟨[], _, _, rfl, rfl, List.not_mem_nil, .line hu hv hw h, ?_,
      fun c hc => (Option.some.inj hc).symm⟩
    cases u with
    | nil =>
      intro c hc
      obtain rfl := Option.some.inj hc
      rfl
    | cons d u =>
      intro c hc
      obtain rfl := Option.some.inj hc
      exact (hu _ List.mem_cons_self).1

/-- A text moves to itself without the white space at its end. -/
theorem trimmed (t : List Char) {u : List Char} (hu : ∀ c ∈ u, isBlank c = true) :
    Moved (t ++ u) t := by
  induction t with
  | nil => exact .tail hu (.inl rfl)
  | cons c t ih =>
    by_cases hc : c = '\n'
    · subst hc
      exact .line (u := []) (v := []) (w := []) (List.forall_mem_nil _) (List.forall_mem_nil _)
        (List.forall_mem_nil _) ih
    · exact .char hc ih

end Moved

/-! ### Tokens that are read through their end -/

section Through

variable {σ : Type} {step : σ → Char → Scan σ} {home state : σ} {s t x text : List Char}

/-- Whatever was read before white space within a line makes no difference behind it. A line end in the
token does so too, or it is none for tokens that have white space before it. -/
structure Resets (step : σ → Char → Scan σ) (home : σ) : Prop where
  blank : ∀ state c, isBlank c = true → c ≠ '\n' → step state c = .next home
  newline : ∀ state, step state '\n' = .next home ∨ step state '\n' = .fail
  first : step home '\n' = .next home → ∀ state, step state '\n' = .next home

theorem resets_comment : Resets commentStep false where
  blank state c hc _ := by
    have hslash : (c == '/') = false := beq_eq_false_iff_ne.2 (by rintro rfl; cases hc)
    have hstar : (c == '*') = false := beq_eq_false_iff_ne.2 (by rintro rfl; cases hc)
    rw [commentStep, hslash, hstar, Bool.and_false]
    rfl
  newline state := .inl (by cases state <;> rfl)
  first _ state := by cases state <;> rfl

theorem resets_quoted {q : Char} (hq : isBlank q = false) : Resets (quotedStep q) false where
  blank state c hc hne := by
    have hquote : (c == q) = false := beq_eq_false_iff_ne.2 (by rintro rfl; rw [hq] at hc; cases hc)
    have hescape : (c == '\\') = false := beq_eq_false_iff_ne.2 (by rintro rfl; cases hc)
    simp [quotedStep, hquote, hescape, hne]
  newline state := by
    have hquote : ('\n' == q) = false := beq_eq_false_iff_ne.2 (by rintro rfl; cases hq)
    cases state
    · exact .inr (by simp [quotedStep, hquote])
    · exact .inl rfl
  first h := by
    have hquote : ('\n' == q) = false := beq_eq_false_iff_ne.2 (by rintro rfl; cases hq)
    simp [quotedStep, hquote] at h

theorem resets_textBlock : Resets textBlockStep (some 0) where
  blank state c hc _ := by
    have hquote : (c == '"') = false := beq_eq_false_iff_ne.2 (by rintro rfl; cases hc)
    have hescape : (c == '\\') = false := beq_eq_false_iff_ne.2 (by rintro rfl; cases hc)
    cases state <;> simp [textBlockStep, hquote, hescape]
  newline state := .inl (by cases state <;> rfl)
  first _ state := by cases state <;> rfl

namespace Resets

variable (h : Resets step home)
include h

theorem takeThrough_blank (hx : ∀ c ∈ x, isBlank c = true ∧ c ≠ '\n') (hne : x ≠ [])
    (state : σ) (s : List Char) :
    takeThrough step state (x ++ s) = (takeThrough step home s).map (x ++ ·) := by
  induction x generalizing state with
  | nil => exact absurd rfl hne
  | cons c x ih =>
    obtain ⟨⟨hblank, hnewline⟩, hx⟩ := List.forall_mem_cons.1 hx
    rw [List.cons_append, takeThrough, h.blank state c hblank hnewline]
    by_cases hnil : x = []
    · subst hnil
      rfl
    · simp only [ih hx hnil, Option.map_map]
      rfl

/-- White space ends no token. -/
theorem takeThrough_eq_none (hx : ∀ c ∈ x, isBlank c = true) (state : σ) :
    takeThrough step state x = none := by
  induction x generalizing state with
  | nil => rfl
  | cons c x ih =>
    obtain ⟨hc, hrest⟩ := List.forall_mem_cons.1 hx
    rw [takeThrough]
    by_cases hnewline : c = '\n'
    · subst hnewline
      rcases h.newline state with hstep | hstep <;> simp [hstep, ih hrest]
    · simp [h.blank state c hc hnewline, ih hrest]

/-- A line end in a token, with white space around it. -/
theorem takeThrough_line {u v : List Char} (hu : ∀ c ∈ u, isBlank c = true ∧ c ≠ '\n')
    (hv : ∀ c ∈ v, isIndent c = true)
    (htext : takeThrough step state (u ++ '\n' :: (v ++ s)) = some text) :
    step state '\n' = .next home ∧ ∃ inner, takeThrough step home s = some inner ∧
      text = u ++ '\n' :: (v ++ inner) := by
  have hnewline : step state '\n' = .next home ∧ ∃ inner,
      takeThrough step home (v ++ s) = some inner ∧ text = u ++ '\n' :: inner := by
    by_cases hnil : u = []
    · subst hnil
      rw [List.nil_append, takeThrough] at htext
      rcases h.newline state with hstep | hstep
      · rw [hstep] at htext
        obtain ⟨inner, hinner, rfl⟩ := Option.map_eq_some_iff.1 htext
        exact ⟨hstep, inner, hinner, rfl⟩
      · rw [hstep] at htext
        cases htext
    · rw [h.takeThrough_blank hu hnil] at htext
      obtain ⟨rest, hrest, rfl⟩ := Option.map_eq_some_iff.1 htext
      rw [takeThrough] at hrest
      rcases h.newline home with hstep | hstep
      · rw [hstep] at hrest
        obtain ⟨inner, hinner, rfl⟩ := Option.map_eq_some_iff.1 hrest
        exact ⟨h.first hstep state, inner, hinner, rfl⟩
      · rw [hstep] at hrest
        cases hrest
  obtain ⟨hstep, inner, hinner, rfl⟩ := hnewline
  refine ⟨hstep, ?_⟩
  by_cases hnil : v = []
  · subst hnil
    exact ⟨inner, hinner, rfl⟩
  · have hv' : ∀ c ∈ v, isBlank c = true ∧ c ≠ '\n' := fun c hc =>
      ⟨Text.isBlank_of_isIndent (hv c hc), by rintro rfl; exact absurd (hv _ hc) (by decide)⟩
    rw [h.takeThrough_blank hv' hnil] at hinner
    obtain ⟨rest, hrest, rfl⟩ := Option.map_eq_some_iff.1 hinner
    exact ⟨rest, hrest, rfl⟩

theorem takeThrough_cons_line {w : List Char} (hw : ∀ c ∈ w, isIndent c = true)
    (hstep : step state '\n' = .next home) (s : List Char) :
    takeThrough step state ('\n' :: (w ++ s)) =
      (takeThrough step home s).map fun inner => '\n' :: (w ++ inner) := by
  rw [takeThrough, hstep]
  by_cases hnil : w = []
  · subst hnil
    rfl
  · have hw' : ∀ c ∈ w, isBlank c = true ∧ c ≠ '\n' := fun c hc =>
      ⟨Text.isBlank_of_isIndent (hw c hc), by rintro rfl; exact absurd (hw _ hc) (by decide)⟩
    simp only [h.takeThrough_blank hw' hnil, Option.map_map]
    rfl

/-- A token that is read through its end is moved with the text. -/
theorem takeThrough_moved (hmoved : Moved s t) (htext : takeThrough step state s = some text) :
    ∃ text' b b', takeThrough step state t = some text' ∧ s = text ++ b ∧ t = text' ++ b' ∧
      Moved b b' := by
  induction hmoved generalizing state text with
  | tail hu _ =>
    rw [h.takeThrough_eq_none hu] at htext
    cases htext
  | @char c s t hne hst ih =>
    rw [takeThrough] at htext ⊢
    cases hstep : step state c with
    | done =>
      rw [hstep] at htext
      obtain rfl := Option.some.inj htext
      exact ⟨[c], s, t, rfl, rfl, rfl, hst⟩
    | fail =>
      rw [hstep] at htext
      cases htext
    | next state' =>
      rw [hstep] at htext
      obtain ⟨inner, hinner, rfl⟩ := Option.map_eq_some_iff.1 htext
      obtain ⟨text', b, b', htext', rfl, rfl, hbehind⟩ := ih hinner
      exact ⟨c :: text', b, b', by simp [htext'], rfl, rfl, hbehind⟩
  | @line u v w s t hu hv hw _ ih =>
    obtain ⟨hstep, inner, hinner, rfl⟩ := h.takeThrough_line hu hv htext
    obtain ⟨text', b, b', htext', rfl, rfl, hbehind⟩ := ih hinner
    refine ⟨'\n' :: (w ++ text'), b, b', ?_, by simp, by simp, hbehind⟩
    rw [h.takeThrough_cons_line hw hstep, htext']
    rfl

end Resets

end Through

/-! ### Tokens of a text that is moved -/

section Tokens

variable {c : Char} {kind : TokenKind} {s t text behind : List Char}

theorem takeLine_moved (h : Moved s t) :
    ∃ b b', s = takeLine s ++ b ∧ t = takeLine t ++ b' ∧ Moved b b' := by
  induction h with
  | @tail u v hu hv =>
    obtain ⟨b, hb⟩ := List.takeWhile_prefix (l := u) (· != '\n')
    refine ⟨b, v, hb.symm, ?_, .tail (fun c hc => hu c ?_) hv⟩
    · rcases hv with rfl | rfl <;> rfl
    · rw [← hb]
      exact List.mem_append_right _ hc
  | @char c s t hne _ ih =>
    obtain ⟨b, b', hb, hb', hmoved⟩ := ih
    have hcons : ∀ l, takeLine (c :: l) = c :: takeLine l := fun l =>
      List.takeWhile_cons_of_pos (by simpa using hne)
    exact ⟨b, b', by rw [hcons, List.cons_append, ← hb], by rw [hcons, List.cons_append, ← hb'], hmoved⟩
  | @line u v w s t hu hv hw h _ =>
    have htake : takeLine (u ++ '\n' :: (v ++ s)) = u := by
      rw [takeLine, List.takeWhile_append_of_pos fun c hc => by simpa using (hu c hc).2]
      simp
    exact ⟨'\n' :: (v ++ s), '\n' :: (w ++ t), by rw [htake], rfl,
      .line (u := []) (List.forall_mem_nil _) hv hw h⟩

theorem isBlank_eq_false_of_mem_takeNumber {hex sign : Bool} {d : Char}
    (hd : d ∈ takeNumber hex sign s) : isBlank d = false := by
  have halnum : ∀ {e : Char}, (e.isAlphanum || e == '_' || e == '.') = true → isBlank e = false := by
    intro e he
    rw [Bool.or_eq_true, Bool.or_eq_true, beq_iff_eq, beq_iff_eq] at he
    rcases he with (he | rfl) | rfl
    · by_contra hblank
      have := toNat_of_isBlank ((Bool.not_eq_false _).mp hblank)
      have := toNat_of_isAlphanum he
      omega
    · rfl
    · rfl
  fun_induction takeNumber hex sign s with
  | case1 sign c rest hc mark ih =>
    rcases List.mem_cons.1 hd with rfl | hd
    · exact halnum hc
    · exact ih hd
  | case2 sign c rest hc hsign ih =>
    rcases List.mem_cons.1 hd with rfl | hd
    · rw [Bool.and_eq_true, Bool.or_eq_true, beq_iff_eq, beq_iff_eq] at hsign
      rcases hsign.2 with rfl | rfl <;> rfl
    · exact ih hd
  | case3 sign c rest hc hsign => cases hd
  | case4 sign => cases hd

/-- A word, number or symbol of Java has no white space. -/
theorem plainText_solid (hc : isSpace c = false) (htext : plainText c s = (kind, text))
    (hstray : ∀ w ∈ wordOf kind text, w.isStray = false) : ∀ d ∈ text, isBlank d = false := by
  have hword : ∀ {e : Char}, inWord e = true → isBlank e = false := by
    intro e he
    by_contra hblank
    have hsep : isSeparator e = true := by
      rw [isSeparator, (Bool.not_eq_false _).mp hblank, Bool.true_or]
    rw [inWord_of_isSeparator hsep] at he
    cases he
  unfold plainText at htext
  split at htext
  · next hstart =>
    obtain ⟨rfl, rfl⟩ := Prod.mk.inj htext
    intro d hd
    rcases List.mem_cons.1 hd with rfl | hd
    · exact hword (by rw [inWord, hstart, Bool.true_or])
    · exact hword (List.mem_takeWhile_imp hd)
  · split at htext
    · obtain ⟨rfl, rfl⟩ := Prod.mk.inj htext
      exact fun d hd => isBlank_eq_false_of_mem_takeNumber hd
    · split at htext
      · next symbol hfound =>
        obtain ⟨rfl, rfl⟩ := Prod.mk.inj htext
        have hall : ∀ s ∈ longSymbols, (s.all fun d => isBlank d == false) = true := by decide
        exact forall_mem_of_all (hall _ (List.mem_of_find?_eq_some hfound))
      · obtain ⟨rfl, rfl⟩ := Prod.mk.inj htext
        intro d hd
        rw [List.mem_singleton.1 hd]
        by_contra hblank
        -- white space beyond ASCII is a stray symbol
        have hcode := toNat_of_isBlank ((Bool.not_eq_false _).mp hblank)
        have hspace : ¬ (c.toNat ≤ 32) := by
          intro hle
          have hb := (Bool.not_eq_false _).mp hblank
          simp only [isSpace, isBlank, Bool.or_eq_false_iff, Bool.and_eq_false_iff,
            decide_eq_false_iff_not, Bool.or_eq_true, Bool.and_eq_true, decide_eq_true_eq,
            beq_iff_eq, beq_eq_false_iff_ne, ne_eq] at hc hb
          have hne : c.toNat ≠ 32 := fun h => hc.1 (Char.toNat_inj.1 h)
          omega
        have := hstray _ (List.mem_singleton_self _)
        simp [Word.isStray] at this
        omega

/-- The word of a comment or of quoted text does not depend on the text. -/
theorem wordOf_eq {kind : TokenKind} (h : kind = .comment ∨ kind = .quoted) (x y : List Char) :
    wordOf kind x = wordOf kind y := by
  rcases h with rfl | rfl <;> rfl

/-- The text `c :: t` starts with a token of that kind with the word of `text`, and what follows it is
what followed `text`, moved. -/
def MovesTo (kind : TokenKind) (c : Char) (t text behind : List Char) : Prop :=
  ∃ text' behind', tokenText c t = (kind, text') ∧ c :: t = text' ++ behind' ∧
    wordOf kind text' = wordOf kind text ∧ Moved behind behind'

/-- A token that is read through its end behind `opening`. -/
theorem closedText_moved (opening : List Char) {σ : Type} {step : σ → Char → Scan σ}
    {home state : σ} {kind' : TokenKind} {more more' lines : List Char} (hstep : Resets step home)
    (hkind' : kind' = .comment ∨ kind' = .quoted) (hmoved : Moved more more')
    (htext : closedText kind' opening lines (takeThrough step state more) = (kind, text))
    (hkind : kind ≠ .unclosed) (hsplit : opening ++ more = text ++ behind) (lines' : List Char) :
    ∃ text' behind', closedText kind' opening lines' (takeThrough step state more') =
      (kind, text') ∧ opening ++ more' = text' ++ behind' ∧ wordOf kind text' = wordOf kind text ∧
        Moved behind behind' := by
  obtain ⟨rfl, inner, hinner, rfl⟩ := closedText_eq htext hkind
  obtain ⟨inner', b, b', hinner', rfl, rfl, hbehind⟩ := hstep.takeThrough_moved hmoved hinner
  rw [List.append_assoc, List.append_cancel_left_eq, List.append_cancel_left_eq] at hsplit
  refine ⟨opening ++ inner', b', by rw [hinner']; rfl, by rw [List.append_assoc],
    wordOf_eq hkind' _ _, hsplit ▸ hbehind⟩

/-- A word, number or symbol is not changed. -/
theorem plainText_moved (hc : isSpace c = false) (hmoved : Moved s t)
    (hspecial : startsSpecial (c :: s) = false) (htext : tokenText c s = (kind, text))
    (hstray : ∀ w ∈ wordOf kind text, w.isStray = false) (hkind : kind ≠ .unclosed)
    (hsplit : c :: s = text ++ behind) : MovesTo kind c t text behind := by
  have hsolid : ∀ d ∈ text, isBlank d = false := by
    rw [tokenText_plain hspecial] at htext
    exact plainText_solid hc htext hstray
  obtain ⟨x, y, y', rfl, rfl, hx, hmoved, hy, hy'⟩ := hmoved.exists_split
  -- the token ends before the line does
  obtain ⟨a, ha, rfl⟩ : ∃ a, c :: x = text ++ a ∧ behind = a ++ y := by
    rw [← List.cons_append] at hsplit
    rcases List.append_eq_append_iff.1 hsplit.symm with ⟨a, ha, hb⟩ | ⟨a, ha, hb⟩
    · exact ⟨a, ha, hb⟩
    · cases a with
      | nil => exact ⟨[], by rw [ha, List.append_nil, List.append_nil], hb.symm⟩
      | cons d a =>
        have hd : isBlank d = true := hy d (by rw [hb]; rfl)
        rw [hsolid d (by rw [ha]; simp)] at hd
        cases hd
  have hbounded : Bounded y' := fun d hd => by rw [hy' d hd]; rfl
  refine ⟨text, a ++ y', ?_, by rw [← List.cons_append, ha, List.append_assoc], rfl, ?_⟩
  · exact tokenText_congr htext hkind ⟨a, ha.symm⟩ hbounded fun _ _ d hd => hy' d hd
  · refine Moved.chars (fun hmem => ?_) hmoved
    have hnewline : '\n' ∈ c :: x := by
      rw [ha]
      exact List.mem_append_right _ hmem
    rcases List.mem_cons.1 hnewline with rfl | hmem
    · cases hc
    · exact hx hmem

/-- **The first token of a text that is moved is of the same kind**, and the rest is moved too. -/
theorem tokenText_moved (hc : isSpace c = false) (hmoved : Moved s t)
    (htext : tokenText c s = (kind, text)) (hstray : ∀ w ∈ wordOf kind text, w.isStray = false)
    (hsplit : c :: s = text ++ behind) : MovesTo kind c t text behind := by
  have hkind : kind ≠ .unclosed := by
    rintro rfl
    exact absurd (hstray _ (List.mem_singleton_self _)) (by simp [Word.isStray])
  by_cases hspecial : startsSpecial (c :: s) = true
  · unfold startsSpecial at hspecial
    split at hspecial
    · next more heq =>
      obtain ⟨rfl, rfl⟩ := List.cons.inj heq
      obtain ⟨more', rfl, hmore⟩ := hmoved.of_cons rfl
      obtain ⟨b, b', hb, hb', hbehind⟩ := takeLine_moved hmore
      obtain ⟨rfl, rfl⟩ := Prod.mk.inj htext
      have hrest : b = behind := by
        rw [List.cons_append, List.cons_append] at hsplit
        exact List.append_cancel_left (hb.symm.trans (List.cons.inj (List.cons.inj hsplit).2).2)
      exact ⟨_, b', rfl, congrArg (fun l => '/' :: '/' :: l) hb', rfl, hrest ▸ hbehind⟩
    · next more heq =>
      obtain ⟨rfl, rfl⟩ := List.cons.inj heq
      obtain ⟨more', rfl, hmore⟩ := hmoved.of_cons rfl
      exact closedText_moved ['/', '*'] resets_comment (.inl rfl) hmore htext hkind
        hsplit more'
    · next more heq =>
      obtain ⟨rfl, rfl⟩ := List.cons.inj heq
      by_cases hblock : ∃ more, s = '"' :: '"' :: more
      · obtain ⟨more, rfl⟩ := hblock
        obtain ⟨t', rfl, hquote⟩ := hmoved.of_cons rfl
        obtain ⟨more', rfl, hmore⟩ := hquote.of_cons rfl
        exact closedText_moved ['"', '"', '"'] resets_textBlock (.inr rfl) hmore htext
          hkind hsplit more'
      · have hblock' : ¬ ∃ more, t = '"' :: '"' :: more := by
          rintro ⟨more, rfl⟩
          obtain ⟨s', rfl, hquote⟩ := hmoved.to_cons rfl
          obtain ⟨s'', rfl, -⟩ := hquote.to_cons rfl
          exact hblock ⟨s'', rfl⟩
        rw [tokenText_string hblock] at htext
        unfold MovesTo
        rw [tokenText_string hblock']
        exact closedText_moved ['"'] (resets_quoted rfl) (.inr rfl) hmoved htext hkind
          hsplit (takeLine t)
    · next more heq =>
      obtain ⟨rfl, rfl⟩ := List.cons.inj heq
      exact closedText_moved ['\''] (resets_quoted rfl) (.inr rfl) hmoved htext hkind
        hsplit (takeLine t)
    · cases hspecial
  · exact plainText_moved hc hmoved (Bool.eq_false_iff.2 hspecial) htext hstray hkind hsplit

/-- White space is read as nothing, when no word of it is stray. -/
theorem isSpace_of_tidy {u : List Char} (hu : ∀ c ∈ u, isBlank c = true) (h : Tidy (u ++ s)) :
    (∀ c ∈ u, isSpace c = true) ∧ Tidy s := by
  induction u with
  | nil => exact ⟨List.forall_mem_nil _, h⟩
  | cons c u ih =>
    obtain ⟨hblank, hu⟩ := List.forall_mem_cons.1 hu
    by_cases hc : isSpace c = true
    · unfold Tidy at h
      rw [List.cons_append, words_space hc] at h
      obtain ⟨hspace, htidy⟩ := ih hu h
      exact ⟨List.forall_mem_cons.2 ⟨hc, hspace⟩, htidy⟩
    · rw [Bool.not_eq_true] at hc
      obtain ⟨kind, text, behind, htext, hsplit⟩ := exists_tokenText c (u ++ s)
      have hspecial : startsSpecial (c :: (u ++ s)) = false := by
        unfold startsSpecial
        split
        all_goals first
          | rfl
          | next heq => obtain ⟨rfl, -⟩ := List.cons.inj heq; cases hblank
      unfold Tidy at h
      rw [List.cons_append, words_token hc htext hsplit, List.forall_mem_append] at h
      rw [tokenText_plain hspecial] at htext
      obtain ⟨d, text, rfl⟩ := List.exists_cons_of_ne_nil (htext ▸ plainText_ne_nil c (u ++ s))
      obtain ⟨rfl, -⟩ := List.cons.inj hsplit
      rw [plainText_solid hc htext h.1 c List.mem_cons_self] at hblank
      cases hblank

/-- **A text that is moved has the same words.** -/
theorem Moved.words_eq (hmoved : Moved s t) (h : Tidy s) : words t = words s := by
  induction hn : s.length using Nat.strong_induction_on generalizing s t with
  | h n ih =>
    cases hmoved with
    | tail hu hv =>
      obtain ⟨hspace, -⟩ := isSpace_of_tidy (s := []) hu (by rwa [List.append_nil])
      have hs := words_append_of_blank hspace []
      rw [List.append_nil, words_nil] at hs
      rw [hs]
      rcases hv with rfl | rfl <;> rfl
    | @line u v w s t hu hv hw hmoved =>
      have hblank : ∀ {l : List Char}, (∀ c ∈ l, isIndent c = true) → ∀ c ∈ l, isSpace c = true := by
        intro l hl c hc
        have hindent := hl c hc
        rw [isIndent, Bool.or_eq_true, beq_iff_eq, beq_iff_eq] at hindent
        rcases hindent with rfl | rfl <;> rfl
      obtain ⟨hspace, htidy⟩ := isSpace_of_tidy (fun c hc => (hu c hc).1) h
      unfold Tidy at htidy
      rw [words_space rfl, words_append_of_blank (hblank hv)] at htidy
      rw [words_space rfl, words_append_of_blank (hblank hw), words_append_of_blank hspace,
        words_space rfl, words_append_of_blank (hblank hv)]
      refine ih s.length ?_ hmoved htidy rfl
      rw [← hn]
      simp only [List.length_append, List.length_cons]
      omega
    | @char c s t hne hmoved =>
      rw [List.length_cons] at hn
      by_cases hc : isSpace c = true
      · unfold Tidy at h
        rw [words_space hc] at h
        rw [words_space hc, words_space hc]
        exact ih s.length (by omega) hmoved h rfl
      · rw [Bool.not_eq_true] at hc
        obtain ⟨kind, text, behind, htext, hsplit⟩ := exists_tokenText c s
        unfold Tidy at h
        rw [words_token hc htext hsplit, List.forall_mem_append] at h
        obtain ⟨text', behind', htext', hsplit', hword, hbehind⟩ :=
          tokenText_moved hc hmoved htext h.1 hsplit
        have hlength := length_behind htext hsplit
        rw [words_token hc htext hsplit, words_token hc htext' hsplit', hword,
          ih behind.length (by omega) hbehind h.2 rfl]

end Tokens

/-! ### White space around a text -/

variable {t : List Char}

theorem Moved.tidy {s : List Char} (hmoved : Moved s t) (h : Tidy s) : Tidy t := by
  unfold Tidy
  rw [hmoved.words_eq h]
  exact h

/-- White space at the ends of a text makes no difference. -/
theorem words_trim (h : Tidy t) : words (Text.trim t) = words t ∧ Tidy (Text.trim t) := by
  obtain ⟨u, hu, ht⟩ := Text.exists_trimStart t
  obtain ⟨v, hv, hstart⟩ := Text.exists_trimEnd (Text.trimStart t)
  obtain ⟨hspace, htidy⟩ := isSpace_of_tidy (s := Text.trimStart t) hu (ht ▸ h)
  have hmoved : Moved (Text.trimStart t) (Text.trim t) := by
    conv => lhs; rw [hstart]
    exact .trimmed _ hv
  refine ⟨?_, hmoved.tidy htidy⟩
  rw [hmoved.words_eq htidy]
  conv_rhs => rw [ht]
  exact (words_append_of_blank hspace _).symm

end BranchExclusion.Java
