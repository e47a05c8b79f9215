import BranchExclusion.Proofs.Traversal
import BranchExclusion.Yaml.Scalar
import BranchExclusion.Yaml.Writer

/-!
# White space in scalars

A scalar is read word by word. What stands between two words is read as one gap, and counts as a
whole.

* `Cursor.Within`: what comes next, not at the start of a line;
* `readGap_blanks`, `readGap_separators`, `readGap_lineFeed`: the gaps that a writer leaves;
* `Spaced`: a text as words with blanks or line breaks between them, and `spaced`: a text is such
  when no blank stands next to a line break.
-/

namespace BranchExclusion.Yaml

/-! ### Places -/

namespace Cursor

variable {c : Cursor} {rest w : List Char}

/-- The text goes on with `rest`, and the cursor is not at the start of a line. -/
structure Within (c : Cursor) (rest : List Char) : Prop where
  rest_eq : c.rest = rest
  col_pos : 0 < c.col

@[simp] theorem skip_zero (c : Cursor) : c.skip 0 = c := by simp [skip]

theorem skip_skip (c : Cursor) (m n : ℕ) : (c.skip m).skip n = c.skip (m + n) := by
  simp [skip, Nat.add_assoc]

theorem Within.skip (h : c.Within (w ++ rest)) : (c.skip w.length).Within rest where
  rest_eq := by simp [Cursor.skip, h.rest_eq]
  col_pos := Nat.lt_of_lt_of_le h.col_pos (Nat.le_add_right _ _)

theorem Within.not_atDocumentMark (h : c.Within rest) : c.atDocumentMark = false := by
  simp [atDocumentMark, Nat.ne_of_gt h.col_pos]

theorem Within.sees (h : c.Within rest) (b : Char) : c.sees b = (rest.head? == some b) := by
  rw [Cursor.sees, h.rest_eq]

end Cursor

/-! ### Gaps -/

variable {c : Cursor} {rest : List Char} {least : Option Int} {fuel n : ℕ}

/-- Neither a blank or tab nor a line break comes next. -/
def EndsGap (rest : List Char) : Prop := ∀ c ∈ rest.head?, isSpace c = false ∧ isBreak c = false

/-- The line breaks that count as themselves. -/
def isSeparator (c : Char) : Bool := c == '\u2028' || c == '\u2029'

theorem isSpace_eq_false_of_isBreak {c : Char} (h : isBreak c = true) : isSpace c = false := by
  simp only [isBreak, Bool.or_eq_true, beq_iff_eq] at h
  rcases h with (((rfl | rfl) | rfl) | rfl) | rfl <;> rfl

theorem isSpace_of_isShown {c : Char} (h : isShown c = true) (hne : c ≠ ' ') :
    isSpace c = false := by
  refine Bool.eq_false_iff.2 fun hspace => ?_
  simp only [isSpace, Bool.or_eq_true, beq_iff_eq] at hspace
  rcases hspace with rfl | rfl
  · exact hne rfl
  · cases h

theorem visible {c : Char} (h : isShown c = true) (hc : c ≠ ' ' ∧ isBreak c = false) :
    isSpace c = false ∧ isBreak c = false :=
  ⟨isSpace_of_isShown h hc.1, hc.2⟩

theorem isBreak_of_isSeparator {c : Char} (h : isSeparator c = true) : isBreak c = true := by
  simp only [isSeparator, Bool.or_eq_true, beq_iff_eq] at h
  rcases h with rfl | rfl <;> rfl

/-- A line break that is written without an escape counts as itself, or it is a line feed. -/
theorem isSeparator_of_isShown {c : Char} (h : isShown c = true) (hb : isBreak c = true)
    (hn : c ≠ '\n') : isSeparator c = true := by
  simp only [isBreak, Bool.or_eq_true, beq_iff_eq] at hb
  rcases hb with (((rfl | rfl) | rfl) | rfl) | rfl
  · cases h
  · exact absurd rfl hn
  · cases h
  · rfl
  · rfl

theorem takeBreak_separator {b : Char} (h : c.rest = b :: rest) (hb : isSeparator b = true) :
    c.takeBreak = ([b], ⟨rest, c.index + 1, c.line + 1, 0⟩) := by
  simp only [isSeparator, Bool.or_eq_true, beq_iff_eq] at hb
  rcases hb with rfl | rfl <;> simp [Cursor.takeBreak, h]

theorem takeBreak_lineFeed (h : c.rest = '\n' :: rest) :
    c.takeBreak = (['\n'], ⟨rest, c.index + 1, c.line + 1, 0⟩) := by
  simp [Cursor.takeBreak, h, isBreak]

/-- The gap with `n` more blanks, which count only in front of line breaks. -/
def Gap.blanks (n : ℕ) : Gap → Gap
  | spaces text => spaces (text ++ List.replicate n ' ')
  | breaks first more => breaks first more

theorem readGapFrom_stop (gap : Gap) (h : EndsGap c.rest) :
    readGapFrom least fuel gap c = .ok (gap, c) := by
  cases fuel with
  | zero => rfl
  | succ fuel =>
    rw [readGapFrom]
    split
    · rfl
    · next ch rest hrest =>
      obtain ⟨hspace, hbreak⟩ := h ch (by simp [hrest])
      simp [hspace, hbreak]

theorem readGapFrom_blanks (gap : Gap) (h : c.rest = List.replicate n ' ' ++ rest)
    (hstop : EndsGap rest) (hfuel : n ≤ fuel) :
    readGapFrom least fuel gap c = .ok (gap.blanks n, c.skip n) := by
  induction n generalizing fuel gap c with
  | zero =>
    rw [readGapFrom_stop gap (by simpa [h] using hstop), Cursor.skip_zero]
    cases gap <;> simp [Gap.blanks]
  | succ n ih =>
    obtain ⟨fuel, rfl⟩ := Nat.exists_eq_add_of_le' (Nat.zero_lt_of_lt hfuel)
    have hrest : c.rest = ' ' :: (List.replicate n ' ' ++ rest) := h
    have hskip : (c.skip 1).rest = List.replicate n ' ' ++ rest := by simp [Cursor.skip, hrest]
    have hmore := fun gap => ih gap hskip (Nat.le_of_succ_le_succ hfuel)
    rw [readGapFrom, hrest]
    cases gap with
    | spaces text =>
      simp [isSpace, hmore, Gap.blanks, Cursor.skip_skip, Nat.add_comm, List.replicate_succ]
    | breaks first more => simp [isSpace, hmore, Gap.blanks, Cursor.skip_skip, Nat.add_comm]

variable (least) in
/-- Separators, and the blanks that indent the next line. -/
theorem readGapFrom_separators {bs : List Char} (first more : List Char)
    (h : c.rest = bs ++ (List.replicate n ' ' ++ rest)) (hb : ∀ b ∈ bs, isSeparator b = true)
    (hstop : EndsGap rest) (hfuel : bs.length + n ≤ fuel) :
    ∃ c', readGapFrom least fuel (.breaks first more) c = .ok (.breaks first (more ++ bs), c') ∧
      c'.rest = rest ∧ n ≤ c'.col := by
  induction bs generalizing fuel more c with
  | nil =>
    refine ⟨c.skip n, ?_, by simp [Cursor.skip, h], by simp [Cursor.skip]⟩
    have hblanks : readGapFrom least fuel (.breaks first more) c =
        .ok ((Gap.breaks first more).blanks n, c.skip n) :=
      readGapFrom_blanks _ h hstop (by simpa using hfuel)
    simpa [Gap.blanks] using hblanks
  | cons b bs ih =>
    rw [List.length_cons] at hfuel
    obtain ⟨fuel, rfl⟩ : ∃ m, fuel = m + 1 := Nat.exists_eq_add_of_le' (by omega)
    have hsep := hb b List.mem_cons_self
    have hbreak := isBreak_of_isSeparator hsep
    have hrest : c.rest = b :: (bs ++ (List.replicate n ' ' ++ rest)) := h
    have hless : bs.length + n ≤ fuel := by omega
    obtain ⟨c', hc', hmoved⟩ := ih (more ++ [b])
      (c := ⟨bs ++ (List.replicate n ' ' ++ rest), c.index + 1, c.line + 1, 0⟩) rfl
      (fun x hx => hb x (List.mem_cons_of_mem b hx)) hless
    refine ⟨c', ?_, hmoved⟩
    rw [readGapFrom, hrest]
    simp only [isSpace_eq_false_of_isBreak hbreak, hbreak, takeBreak_separator hrest hsep,
      Bool.false_eq_true, if_false, if_true]
    rw [hc', List.append_assoc]
    rfl

theorem readGap_blanks (h : c.Within (List.replicate n ' ' ++ rest)) (hstop : EndsGap rest) :
    readGap least c = .ok (.spaces (List.replicate n ' '), c.skip n) := by
  refine (readGapFrom_blanks (.spaces []) h.rest_eq hstop ?_).trans rfl
  simp only [h.rest_eq, List.length_append, List.length_replicate]
  omega

theorem readGap_separators {b : Char} {bs : List Char}
    (h : c.rest = b :: bs ++ (lineIndent ++ rest)) (hb : ∀ x ∈ b :: bs, isSeparator x = true)
    (hstop : EndsGap rest) :
    ∃ c', readGap least c = .ok (.breaks [b] bs, c') ∧ c'.Within rest := by
  have hsep := hb b List.mem_cons_self
  have hbreak := isBreak_of_isSeparator hsep
  have hrest : c.rest = b :: (bs ++ (List.replicate 2 ' ' ++ rest)) := h
  have hfuel : bs.length + 2 ≤ c.rest.length := by simp [hrest]
  obtain ⟨c', hc', hmoved, hcol⟩ := readGapFrom_separators least
    (c := ⟨bs ++ (List.replicate 2 ' ' ++ rest), c.index + 1, c.line + 1, 0⟩) [b] [] rfl
    (fun x hx => hb x (List.mem_cons_of_mem b hx)) hstop hfuel
  refine ⟨c', ?_, hmoved, Nat.lt_of_lt_of_le Nat.two_pos hcol⟩
  rw [readGap, readGapFrom, hrest]
  simp only [isSpace_eq_false_of_isBreak hbreak, hbreak, takeBreak_separator hrest hsep,
    Bool.false_eq_true, if_false, if_true]
  rw [← hrest]
  exact hc'

/-- Separators all count, unlike line feeds. -/
theorem fold_separators {b : Char} (bs : List Char) (hb : isSeparator b = true) :
    (Gap.breaks [b] bs).fold = b :: bs := by
  simp only [isSeparator, Bool.or_eq_true, beq_iff_eq] at hb
  rcases hb with rfl | rfl <;> rfl

theorem readGap_lineFeed (h : c.rest = '\n' :: rest) (hstop : EndsGap rest) :
    readGap least c = .ok (.breaks ['\n'] [], ⟨rest, c.index + 1, c.line + 1, 0⟩) := by
  rw [readGap, readGapFrom, h]
  simp only [takeBreak_lineFeed h, isSpace, isBreak]
  exact readGapFrom_stop _ hstop

/-! ### Words and gaps -/

/-- The text consists of words with gaps between them, where a gap is either blanks or characters
that satisfy `brk`. The first and the last word may be empty. -/
inductive Spaced (brk : Char → Bool) : List Char → Prop
  | word {w : List Char} : (∀ c ∈ w, c ≠ ' ' ∧ brk c = false) → Spaced brk w
  | blanks {w rest : List Char} (n : ℕ) : (∀ c ∈ w, c ≠ ' ' ∧ brk c = false) →
      (∀ c ∈ rest.head?, c ≠ ' ' ∧ brk c = false) → Spaced brk rest →
      Spaced brk (w ++ (List.replicate (n + 1) ' ' ++ rest))
  | breaks {w bs rest : List Char} (b : Char) : (∀ c ∈ w, c ≠ ' ' ∧ brk c = false) →
      (∀ c ∈ b :: bs, brk c = true) → (∀ c ∈ rest.head?, c ≠ ' ' ∧ brk c = false) →
      Spaced brk rest → Spaced brk (w ++ (b :: bs ++ rest))

variable {brk p q : Char → Bool} {a b : List Char} {cs : List Char}

theorem hasAdjacent_append_cons {x y : Char} (h : hasAdjacent p q (a ++ x :: y :: b) = false)
    (hx : p x = true) : q y = false := by
  induction a with
  | nil =>
    simp only [List.nil_append, hasAdjacent, Bool.or_eq_false_iff, hx, Bool.true_and] at h
    exact h.1
  | cons z a ih =>
    cases a with
    | nil => exact ih (by simp_all [hasAdjacent])
    | cons z' a => exact ih (by simp_all [hasAdjacent])

theorem hasAdjacent_of_append (h : hasAdjacent p q (a ++ b) = false) : hasAdjacent p q b = false := by
  induction a with
  | nil => exact h
  | cons z a ih =>
    refine ih ?_
    cases hab : a ++ b with
    | nil => rfl
    | cons y l =>
      rw [List.cons_append, hab, hasAdjacent, Bool.or_eq_false_iff] at h
      exact h.2

theorem hasAdjacent_eq_false (h : ∀ x y, (p x && q y) = false) (cs : List Char) :
    hasAdjacent p q cs = false := by
  induction cs with
  | nil => rfl
  | cons x cs ih =>
    cases cs with
    | nil => rfl
    | cons y cs => rw [hasAdjacent, h, ih]; rfl

/-- Behind characters that satisfy `p` no character satisfies `q`. -/
theorem not_behind {x : Char} {m : List Char} (h : hasAdjacent p q (a ++ (x :: m ++ b)) = false)
    (hm : ∀ c ∈ x :: m, p c = true) : ∀ y ∈ b.head?, q y = false := by
  intro y hy
  obtain ⟨b, rfl⟩ := List.head?_eq_some_iff.1 hy
  have hsplit : a ++ (x :: m ++ y :: b) =
      a ++ (x :: m).dropLast ++ (x :: m).getLast (List.cons_ne_nil x m) :: y :: b := by
    conv_lhs => rw [← List.dropLast_concat_getLast (List.cons_ne_nil x m)]
    simp
  rw [hsplit] at h
  exact hasAdjacent_append_cons h (hm _ (List.getLast_mem _))

theorem exists_span (p : Char → Bool) (cs : List Char) : ∃ a b, cs = a ++ b ∧
    (∀ c ∈ a, p c = true) ∧ ∀ c ∈ b.head?, p c = false := by
  refine ⟨cs.takeWhile p, cs.dropWhile p, List.takeWhile_append_dropWhile.symm,
    List.all_eq_true.1 List.all_takeWhile, fun c hc => ?_⟩
  have h := List.head?_dropWhile_not p cs
  rw [Option.mem_def] at hc
  rwa [hc] at h

/-- A text in which no blank stands next to a break consists of words and gaps. -/
theorem spaced (cs : List Char) (hbefore : hasAdjacent (· == ' ') brk cs = false)
    (hbehind : hasAdjacent brk (· == ' ') cs = false) : Spaced brk cs := by
  generalize hlen : cs.length = n
  induction n using Nat.strong_induction_on generalizing cs with
  | _ n ih =>
    obtain ⟨w, r, rfl, hw, hr⟩ := exists_span (fun c => c != ' ' && !brk c) cs
    simp only [Bool.and_eq_true, bne_iff_ne, ne_eq, Bool.not_eq_true'] at hw
    cases r with
    | nil =>
      rw [List.append_nil]
      exact .word hw
    | cons x r =>
      by_cases hx : x = ' '
      · subst hx
        obtain ⟨blanks, rest, rfl, hblanks, hrest⟩ := exists_span (· == ' ') r
        have hstop := not_behind (a := w) hbefore (by simpa using hblanks)
        have hall : ' ' :: blanks = List.replicate (blanks.length + 1) ' ' := by
          rw [List.replicate_succ, ← List.eq_replicate_of_mem fun c hc => by simpa using hblanks c hc]
        have hbefore' : hasAdjacent (· == ' ') brk rest = false :=
          hasAdjacent_of_append (a := w ++ ' ' :: blanks) (by simpa using hbefore)
        have hbehind' : hasAdjacent brk (· == ' ') rest = false :=
          hasAdjacent_of_append (a := w ++ ' ' :: blanks) (by simpa using hbehind)
        rw [← List.cons_append, hall]
        refine .blanks _ hw (fun c hc => ⟨by simpa using hrest c hc, hstop c hc⟩)
          (ih _ ?_ rest hbefore' hbehind' rfl)
        simp only [← hlen, List.length_append, List.length_cons]
        omega
      · have hbx : brk x = true := by simpa [hx] using hr x
        obtain ⟨bs, rest, rfl, hbs, hrest⟩ := exists_span brk r
        have hall : ∀ c ∈ x :: bs, brk c = true := by simpa [hbx] using hbs
        have hstop := not_behind (a := w) hbehind hall
        have hbefore' : hasAdjacent (· == ' ') brk rest = false :=
          hasAdjacent_of_append (a := w ++ x :: bs) (by simpa using hbefore)
        have hbehind' : hasAdjacent brk (· == ' ') rest = false :=
          hasAdjacent_of_append (a := w ++ x :: bs) (by simpa using hbehind)
        refine .breaks x hw hall (fun c hc => ⟨by simpa using hstop c hc, hrest c hc⟩)
          (ih _ ?_ rest hbefore' hbehind' rfl)
        simp only [← hlen, List.length_append, List.length_cons]
        omega

/-- Where only blanks are gaps, every text consists of words and gaps. -/
theorem spaced_blanks (cs : List Char) : Spaced (fun _ => false) cs :=
  spaced cs (hasAdjacent_eq_false (by simp) cs) (hasAdjacent_eq_false (by simp) cs)

end BranchExclusion.Yaml
