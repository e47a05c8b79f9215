import BranchExclusion.Proofs.Java.Token
import Mathlib.Data.List.TakeWhile

/-!
# Texts one behind the other

A token ends where a separator follows, and what stands behind the separator makes no difference to
it. So texts are read one after the other, unless the first one ends with a line comment.

* `isSeparator`, `Bounded`: what may follow a text;
* `tokenText_congr`: the first token of a text is the same, whatever follows the text;
* `tokensAt_append`, `words_append`: the tokens and words of two texts one behind the other;
* `tokensAt_cut`: a text that is cut between two tokens.
-/

namespace BranchExclusion.Java

/-! ### Separators -/

/-- White space, parentheses, braces and semicolons. -/
def isSeparator (c : Char) : Bool := Text.isBlank c || ['(', ')', '{', '}', ';'].contains c

/-- A text that is empty or starts with a separator. -/
def Bounded (cs : List Char) : Prop := ∀ c ∈ cs.head?, isSeparator c = true

theorem bounded_nil : Bounded [] := fun _ h => by cases h

theorem bounded_cons {c : Char} {cs : List Char} : Bounded (c :: cs) ↔ isSeparator c = true :=
  ⟨fun h => h c rfl, fun h d hd => by cases hd; exact h⟩

theorem Bounded.append {xs ys : List Char} (hx : Bounded xs) (hy : Bounded ys) :
    Bounded (xs ++ ys) := by
  cases xs with
  | nil => exact hy
  | cons c xs => exact bounded_cons.2 (bounded_cons.1 hx)

theorem toNat_of_isAlphanum {c : Char} (h : c.isAlphanum = true) :
    48 ≤ c.toNat ∧ c.toNat < 128 := by
  have h : (decide (c.val ≥ 'A'.val ∧ c.val ≤ 'Z'.val) ||
    (c.val ≥ 'a'.val && c.val ≤ 'z'.val) || (c.val ≥ '0'.val && c.val ≤ '9'.val)) = true := h
  simp only [Bool.or_eq_true, Bool.and_eq_true, decide_eq_true_eq, ge_iff_le,
    UInt32.le_iff_toNat_le] at h
  have hc : c.toNat = c.val.toNat := rfl
  have hA : 'A'.val.toNat = 65 := rfl
  have hZ : 'Z'.val.toNat = 90 := rfl
  have ha : 'a'.val.toNat = 97 := rfl
  have hz : 'z'.val.toNat = 122 := rfl
  have h0 : '0'.val.toNat = 48 := rfl
  have h9 : '9'.val.toNat = 57 := rfl
  omega

theorem toNat_of_isBlank {c : Char} (h : Text.isBlank c = true) :
    c.toNat ≤ 32 ∨ 128 ≤ c.toNat := by
  simp only [Text.isBlank, Bool.or_eq_true, Bool.and_eq_true, decide_eq_true_eq,
    beq_iff_eq] at h
  omega

/-- What holds of listed characters is computed for these only, not for the finite type of all of
them. -/
theorem forall_mem_of_all {l : List Char} {p : Char → Bool} {b : Bool}
    (h : (l.all fun c => p c == b) = true) : ∀ c ∈ l, p c = b :=
  fun c hc => beq_iff_eq.1 (List.all_eq_true.1 h c hc)

theorem inWord_of_isSeparator {c : Char} (h : isSeparator c = true) : inWord c = false := by
  rw [isSeparator, Bool.or_eq_true] at h
  rcases h with hblank | hbracket
  · have hcode := toNat_of_isBlank hblank
    have halpha : c.isAlphanum = false := by
      by_contra hc
      have := toNat_of_isAlphanum ((Bool.not_eq_false _).mp hc)
      omega
    have hmarks : ∀ d ∈ ['_', '$'], (c == d) = false := by
      intro d hd
      have hnot : ∀ d ∈ ['_', '$'], Text.isBlank d = false := forall_mem_of_all (by decide)
      refine beq_eq_false_iff_ne.2 fun hc => ?_
      rw [hc, hnot d hd] at hblank
      cases hblank
    rw [Char.isAlphanum, Bool.or_eq_false_iff] at halpha
    simp [inWord, startsWord, halpha, hblank, hmarks '_' (by simp), hmarks '$' (by simp)]
  · have hall : ∀ d ∈ ['(', ')', '{', '}', ';'], inWord d = false := forall_mem_of_all (by decide)
    exact hall c (List.contains_iff_mem.1 hbracket)

/-- A character that is no separator is none that a text may be followed by. -/
theorem ne_of_isSeparator {c d : Char} (h : isSeparator c = true) (hd : isSeparator d = false) :
    c ≠ d := by
  rintro rfl
  rw [h] at hd
  cases hd

/-! ### Words, numbers and symbols -/

section Plain

variable {xs y y' : List Char}

/-- What is taken while `p` holds stops within `xs`, or right behind it. -/
theorem takeWhile_congr {p : Char → Bool} (h : (xs ++ y).takeWhile p <+: xs)
    (hy : (∀ c ∈ xs, p c = true) → ∀ c ∈ y'.head?, p c = false) :
    (xs ++ y').takeWhile p = (xs ++ y).takeWhile p := by
  by_cases hall : ∀ c ∈ xs, p c = true
  · have hnil : ∀ {z : List Char}, (∀ c ∈ z.head?, p c = false) → z.takeWhile p = [] := by
      intro z hz
      cases z with
      | nil => rfl
      | cons c z => exact List.takeWhile_cons_of_neg (by simp [hz c rfl])
    rw [List.takeWhile_append_of_pos hall] at h ⊢
    rw [List.takeWhile_append_of_pos hall, hnil (hy hall)]
    have hlength := h.length_le
    rw [List.length_append] at hlength
    rw [List.eq_nil_of_length_eq_zero (Nat.le_zero.1 (by omega : (y.takeWhile p).length ≤ 0))]
  · have hshort : (xs.takeWhile p).length ≠ xs.length := fun hlength =>
      hall (List.takeWhile_eq_self_iff.1 ((List.takeWhile_prefix p).eq_of_length hlength))
    rw [List.takeWhile_append, if_neg hshort, List.takeWhile_append, if_neg hshort]

theorem takeNumber_congr {hex sign : Bool} (h : takeNumber hex sign (xs ++ y) <+: xs)
    (hy : Bounded y') : takeNumber hex sign (xs ++ y') = takeNumber hex sign (xs ++ y) := by
  induction xs generalizing sign with
  | nil =>
    rw [List.prefix_nil.1 h, List.nil_append]
    cases y' with
    | nil => rfl
    | cons d y' =>
      have hd := bounded_cons.1 hy
      have hword := inWord_of_isSeparator hd
      simp only [inWord, startsWord, Bool.or_eq_false_iff] at hword
      have hne : ∀ e ∈ ['.', '+', '-'], (d == e) = false := by
        have hall : ∀ e ∈ ['.', '+', '-'], isSeparator e = false := forall_mem_of_all (by decide)
        exact fun e he => beq_eq_false_iff_ne.2 (ne_of_isSeparator hd (hall e he))
      simp [takeNumber, Char.isAlphanum, hword, hne]
  | cons c xs ih =>
    rw [List.cons_append, takeNumber] at h
    rw [List.cons_append, List.cons_append, takeNumber, takeNumber]
    split at h
    · next hc =>
      rw [if_pos hc, if_pos hc]
      exact congrArg (c :: ·) (ih (List.cons_prefix_cons.1 h).2)
    · next hc =>
      rw [if_neg hc, if_neg hc]
      split at h
      · next hsign =>
        rw [if_pos hsign, if_pos hsign]
        exact congrArg (c :: ·) (ih (List.cons_prefix_cons.1 h).2)
      · next hsign => rw [if_neg hsign, if_neg hsign]

/-- A text that starts with `s` does so without what follows a separator. -/
theorem prefix_of_prefix_append {s : List Char} (hy : Bounded y')
    (hs : ∀ c ∈ s, isSeparator c = false) (h : s <+: xs ++ y') : s <+: xs := by
  obtain ⟨more, h⟩ := h
  rcases List.append_eq_append_iff.1 h with ⟨rest, rfl, -⟩ | ⟨rest, rfl, rfl⟩
  · exact List.prefix_append s rest
  · cases rest with
    | nil => simp
    | cons d rest =>
      have hd : isSeparator d = true := bounded_cons.1 hy
      rw [hs d (by simp)] at hd
      cases hd

theorem find_longSymbols_congr (hy : Bounded y')
    (hin : ∀ s, longSymbols.find? (fun s => s.isPrefixOf (xs ++ y)) = some s → s <+: xs) :
    (longSymbols.find? fun s => s.isPrefixOf (xs ++ y')) =
      longSymbols.find? fun s => s.isPrefixOf (xs ++ y) := by
  have hsymbols : ∀ s ∈ longSymbols, (s.all fun c => isSeparator c == false) = true := by decide
  -- a symbol that fits with `y'` fits with `y` as well
  have hfits : ∀ s ∈ longSymbols, s.isPrefixOf (xs ++ y') = true → s.isPrefixOf (xs ++ y) = true := by
    intro s hs h
    rw [List.isPrefixOf_iff_prefix] at h ⊢
    have hprefix := prefix_of_prefix_append hy (forall_mem_of_all (hsymbols s hs)) h
    exact hprefix.trans (List.prefix_append xs y)
  cases hfound : longSymbols.find? fun s => s.isPrefixOf (xs ++ y) with
  | none =>
    refine List.find?_eq_none.2 fun s hs h => ?_
    exact List.find?_eq_none.1 hfound s hs (hfits s hs h)
  | some s =>
    obtain ⟨-, before, after, hsplit, hbefore⟩ := List.find?_eq_some_iff_append.1 hfound
    have hprefix := (hin s hfound).trans (List.prefix_append xs y')
    refine List.find?_eq_some_iff_append.2
      ⟨List.isPrefixOf_iff_prefix.2 hprefix, before, after, hsplit, fun t ht => ?_⟩
    have hmem : t ∈ longSymbols := by
      rw [hsplit]
      exact List.mem_append_left _ ht
    have hnot := hbefore t ht
    rw [Bool.not_eq_true'] at hnot ⊢
    exact Bool.eq_false_iff.2 fun h => Bool.eq_false_iff.1 hnot (hfits t hmem h)

end Plain

section Tokens

variable {c : Char} {kind : TokenKind} {rest y y' text : List Char}

theorem isHex_congr (h : takeNumber (isHex (c :: (rest ++ y))) false (c :: (rest ++ y)) <+: c :: rest)
    (hy : Bounded y') : isHex (c :: (rest ++ y')) = isHex (c :: (rest ++ y)) := by
  cases rest with
  | cons d rest =>
    unfold isHex
    split <;> simp_all
  | nil =>
    rw [List.nil_append] at h ⊢
    have hy' : isHex (c :: y') = false := by
      unfold isHex
      split
      · next heq => exact absurd (bounded_cons.1 ((List.cons.inj heq).2 ▸ hy)) (by decide)
      · next heq => exact absurd (bounded_cons.1 ((List.cons.inj heq).2 ▸ hy)) (by decide)
      · rfl
    rw [hy', List.nil_append]
    cases hhex : isHex (c :: y) with
    | false => rfl
    | true =>
      -- the `x` would belong to the number
      rw [hhex] at h
      unfold isHex at hhex
      split at hhex
      · next heq =>
        obtain ⟨rfl, rfl⟩ := List.cons.inj heq
        exact absurd h.length_le (by simp [takeNumber])
      · next heq =>
        obtain ⟨rfl, rfl⟩ := List.cons.inj heq
        exact absurd h.length_le (by simp [takeNumber])
      · cases hhex

/-- A text that starts a number does so whatever follows. -/
theorem startsNumber_congr
    (h : (c.isDigit || (c == '.' && (rest ++ y).head?.any Char.isDigit)) = true →
      takeNumber (isHex (c :: (rest ++ y))) false (c :: (rest ++ y)) <+: c :: rest)
    (hy : Bounded y') : (c.isDigit || (c == '.' && (rest ++ y').head?.any Char.isDigit)) =
      (c.isDigit || (c == '.' && (rest ++ y).head?.any Char.isDigit)) := by
  cases rest with
  | cons d rest => rfl
  | nil =>
    have hy' : y'.head?.any Char.isDigit = false := by
      cases y' with
      | nil => rfl
      | cons d y' =>
        have hword := inWord_of_isSeparator (bounded_cons.1 hy)
        rw [inWord, Bool.or_eq_false_iff] at hword
        exact hword.2
    rw [List.nil_append, List.nil_append, hy', Bool.and_false, Bool.or_false]
    rw [List.nil_append] at h
    cases hdigit : c.isDigit with
    | true => rfl
    | false =>
      rw [hdigit] at h
      rw [Bool.false_or, eq_comm, Bool.eq_false_iff]
      intro hdot
      -- the digit would belong to the number
      rw [Bool.false_or] at h
      have hlength := (h hdot).length_le
      rw [Bool.and_eq_true, beq_iff_eq] at hdot
      obtain ⟨rfl, hdot⟩ := hdot
      cases y with
      | nil => cases hdot
      | cons d y =>
        have hd : d.isDigit = true := hdot
        simp [takeNumber, Char.isAlphanum, hd] at hlength

theorem plainText_congr (h : plainText c (rest ++ y) = (kind, text)) (hin : text <+: c :: rest)
    (hy : Bounded y') : plainText c (rest ++ y') = (kind, text) := by
  unfold plainText at h ⊢
  split at h
  · next hword =>
    obtain ⟨rfl, rfl⟩ := Prod.mk.inj h
    rw [if_pos hword, takeWhile_congr (List.cons_prefix_cons.1 hin).2 fun _ d hd =>
      inWord_of_isSeparator (hy d hd)]
  · next hword =>
    rw [if_neg hword]
    split at h
    · next hnumber =>
      obtain ⟨rfl, rfl⟩ := Prod.mk.inj h
      rw [startsNumber_congr (fun _ => hin) hy, if_pos hnumber, isHex_congr hin hy]
      exact congrArg _ (@takeNumber_congr (c :: rest) y y' _ _ hin hy)
    · next hnumber =>
      rw [startsNumber_congr (fun hnumber' => absurd hnumber' hnumber) hy, if_neg hnumber]
      have hsame := @find_longSymbols_congr (c :: rest) y y' hy fun s hs => by
        rw [List.cons_append] at hs
        rw [hs] at h
        exact (Prod.mk.inj h).2 ▸ hin
      rw [List.cons_append, List.cons_append] at hsame
      rw [hsame]
      exact h

/-! ### The first token -/

/-- A comment or quoted text starts with these characters. -/
def startsSpecial : List Char → Bool
  | '/' :: '/' :: _ | '/' :: '*' :: _ | '"' :: _ | '\'' :: _ => true
  | _ => false

theorem tokenText_plain (h : startsSpecial (c :: rest) = false) :
    tokenText c rest = plainText c rest := by
  unfold tokenText
  split
  all_goals first
    | rfl
    | cases h

theorem startsSpecial_congr (h : startsSpecial (c :: (rest ++ y)) = false) (hy : Bounded y') :
    startsSpecial (c :: (rest ++ y')) = false := by
  cases rest with
  | cons d rest =>
    unfold startsSpecial at h ⊢
    split <;> simp_all
  | nil =>
    unfold startsSpecial at h ⊢
    rw [List.nil_append] at h ⊢
    split
    · next heq => exact absurd (bounded_cons.1 ((List.cons.inj heq).2 ▸ hy)) (by decide)
    · next heq => exact absurd (bounded_cons.1 ((List.cons.inj heq).2 ▸ hy)) (by decide)
    · next heq =>
      obtain ⟨rfl, -⟩ := List.cons.inj heq
      exact h
    · next heq =>
      obtain ⟨rfl, -⟩ := List.cons.inj heq
      exact h
    · rfl

/-- The text is a comment that ends with its line. -/
def isLineComment : List Char → Bool
  | '/' :: '/' :: _ => true
  | _ => false

/-- A token that is read through its end is the same whatever follows it. -/
theorem closedText_congr {σ : Type} {step : σ → Char → Scan σ} {state : σ} {kind' : TokenKind}
    {opening xs more more' : List Char}
    (h : closedText kind' opening more (takeThrough step state (xs ++ y)) = (kind, text))
    (hkind : kind ≠ .unclosed) (hin : text <+: opening ++ xs) :
    closedText kind' opening more' (takeThrough step state (xs ++ y')) = (kind, text) := by
  obtain ⟨rfl, inner, hinner, rfl⟩ := closedText_eq h hkind
  obtain ⟨rest, rfl⟩ := (List.prefix_append_right_inj opening).1 hin
  rw [List.append_assoc] at hinner ⊢
  rw [takeThrough_congr hinner]
  rfl

theorem tokenText_string {rest : List Char} (h : ¬ ∃ more, rest = '"' :: '"' :: more) :
    tokenText '"' rest = closedText .quoted ['"'] (takeLine rest)
      (takeThrough (quotedStep '"') false rest) := by
  rw [tokenText]
  exact fun more hmore => h ⟨more, hmore⟩

/-- What the text starts with, it starts with by itself when it holds the token that starts so. -/
theorem exists_of_prefix (opening : List Char) {more xs : List Char} (hmore : xs ++ y = opening ++ more)
    (hin : opening <+: xs) : ∃ rest, xs = opening ++ rest ∧ more = rest ++ y := by
  obtain ⟨rest, rfl⟩ := hin
  rw [List.append_assoc, List.append_cancel_left_eq] at hmore
  exact ⟨rest, rfl, hmore.symm⟩

/-- Two more quotes do not follow only by what stands behind the text. -/
theorem triple_congr
    (h : closedText .quoted ['"'] (takeLine (rest ++ y))
      (takeThrough (quotedStep '"') false (rest ++ y)) = (kind, text))
    (hkind : kind ≠ .unclosed) (hin : text <+: '"' :: rest) (hy : Bounded y')
    (hblock : ∃ more, rest ++ y' = '"' :: '"' :: more) : ∃ more, rest ++ y = '"' :: '"' :: more := by
  obtain ⟨-, inner, hinner, rfl⟩ := closedText_eq h hkind
  have hne := takeThrough_ne_nil hinner
  have hin : inner <+: rest := (List.cons_prefix_cons.1 hin).2
  obtain ⟨more, hmore⟩ := hblock
  match rest, hin, hmore with
  | [], hin, _ => exact absurd (List.prefix_nil.1 hin) hne
  | [d], _, hmore =>
    have hy' : y' = '"' :: more := (List.cons.inj hmore).2
    exact absurd (bounded_cons.1 (hy' ▸ hy)) (by decide)
  | d :: e :: rest, _, hmore =>
    have hd := List.cons.inj hmore
    have he := List.cons.inj hd.2
    exact ⟨rest ++ y, by rw [hd.1, he.1]; rfl⟩

/-- **The first token is the same, whatever follows the text that holds it.** A comment up to the end
of its line is only when it ends within the text or the line does. -/
theorem tokenText_congr (h : tokenText c (rest ++ y) = (kind, text)) (hkind : kind ≠ .unclosed)
    (hin : text <+: c :: rest) (hy : Bounded y')
    (hline : text = c :: rest → isLineComment text = true → ∀ d ∈ y'.head?, d = '\n') :
    tokenText c (rest ++ y') = (kind, text) := by
  by_cases hspecial : startsSpecial (c :: (rest ++ y)) = true
  · unfold startsSpecial at hspecial
    split at hspecial
    · next more heq =>
      obtain ⟨rfl, hmore⟩ := List.cons.inj heq
      rw [hmore] at h
      obtain ⟨rfl, rfl⟩ := Prod.mk.inj h
      obtain ⟨rest, rfl, rfl⟩ := exists_of_prefix ['/'] hmore
        ((List.prefix_append ['/'] _).trans (List.cons_prefix_cons.1 hin).2)
      have hin : takeLine (rest ++ y) <+: rest := by simpa using hin
      refine congrArg (fun l => (TokenKind.comment, '/' :: '/' :: l)) (takeWhile_congr hin ?_)
      intro hall d hd
      -- a comment that takes the whole text ends with the line
      have hwhole : takeLine (rest ++ y) = rest := by
        refine hin.eq_of_length (Nat.le_antisymm hin.length_le ?_)
        have htaken : takeLine (rest ++ y) = rest ++ takeLine y := List.takeWhile_append_of_pos hall
        rw [htaken, List.length_append]
        exact Nat.le_add_right _ _
      exact bne_eq_false_iff_eq.2 (hline (congrArg (fun l => '/' :: '/' :: l) hwhole) rfl d hd)
    · next more heq =>
      obtain ⟨rfl, hmore⟩ := List.cons.inj heq
      rw [hmore] at h
      have h : closedText .comment ['/', '*'] more (takeThrough commentStep false more) =
          (kind, text) := h
      obtain ⟨-, inner, -, htext⟩ := closedText_eq h hkind
      obtain ⟨rest, rfl, rfl⟩ := exists_of_prefix ['*'] hmore
        ((List.prefix_append ['*'] inner).trans (List.cons_prefix_cons.1 (htext ▸ hin)).2)
      exact closedText_congr h hkind hin
    · next more heq =>
      obtain ⟨rfl, -⟩ := List.cons.inj heq
      by_cases hblock : ∃ more, rest ++ y = '"' :: '"' :: more
      · obtain ⟨more, hmore⟩ := hblock
        rw [hmore] at h
        have h : closedText .quoted ['"', '"', '"'] more
            (takeThrough textBlockStep (some 0) more) = (kind, text) := h
        obtain ⟨-, inner, -, htext⟩ := closedText_eq h hkind
        obtain ⟨rest, rfl, rfl⟩ := exists_of_prefix ['"', '"'] hmore
          ((List.prefix_append ['"', '"'] inner).trans (List.cons_prefix_cons.1 (htext ▸ hin)).2)
        exact closedText_congr h hkind hin
      · rw [tokenText_string hblock] at h
        rw [tokenText_string fun hblock' => hblock (triple_congr h hkind hin hy hblock')]
        exact closedText_congr h hkind hin
    · next more heq =>
      obtain ⟨rfl, -⟩ := List.cons.inj heq
      exact closedText_congr h hkind hin
    · cases hspecial
  · rw [Bool.not_eq_true] at hspecial
    rw [tokenText_plain hspecial] at h
    rw [tokenText_plain (startsSpecial_congr hspecial hy)]
    exact plainText_congr h hin hy

end Tokens

/-! ### Texts that end with a line comment -/

section RunsOn

variable {c : Char} {kind : TokenKind} {rest text behind : List Char}

/-- The text, which starts at a place, ends with a line comment. -/
def runsOnAt (p : Place) (cs : List Char) : Bool :=
  (tokensAt p cs).getLast?.any fun t =>
    t.extent.stop.offset == p.offset + Text.byteLength cs && isLineComment t.text.toList

/-- The text ends with a comment that goes on to the end of its line. -/
def runsOn (text : List Char) : Bool := runsOnAt Place.start text

theorem runsOnAt_space (hc : isSpace c = true) (p : Place) (cs : List Char) :
    runsOnAt p (c :: cs) = runsOnAt (p.advance c) cs := by
  rw [runsOnAt, runsOnAt, tokensAt_space hc, offset_advance, Text.byteLength_cons, Nat.add_assoc]

/-- The text is a single token. -/
theorem runsOnAt_whole (hc : isSpace c = false) (htext : tokenText c rest = (kind, c :: rest))
    (p : Place) : runsOnAt p (c :: rest) = isLineComment (c :: rest) := by
  rw [runsOnAt, tokensAt_token hc htext (List.append_nil _).symm, tokensAt_nil,
    List.getLast?_singleton, Option.any_some, offset_advanceAll, beq_self_eq_true, Bool.true_and,
    String.toList_ofList]

/-- More follows the first token. -/
theorem runsOnAt_token (hc : isSpace c = false) (htext : tokenText c rest = (kind, text))
    (hsplit : c :: rest = text ++ behind) (hbehind : behind ≠ []) (p : Place) :
    runsOnAt p (c :: rest) = runsOnAt (p.advanceAll text) behind := by
  rw [runsOnAt, runsOnAt, tokensAt_token hc htext hsplit, hsplit, Text.byteLength_append,
    offset_advanceAll, Nat.add_assoc]
  cases hts : tokensAt (p.advanceAll text) behind with
  | cons t ts => rw [List.getLast?_cons_cons]
  | nil =>
    -- only white space is left, so the first token ends before the text does
    obtain ⟨d, behind, rfl⟩ := List.exists_cons_of_ne_nil hbehind
    have hd := d.utf8Size_pos
    have hne : (p.advanceAll text).offset ≠
        p.offset + (Text.byteLength text + Text.byteLength (d :: behind)) := by
      rw [offset_advanceAll, Text.byteLength_cons]
      omega
    show ((p.advanceAll text).offset == _ && _) = false
    rw [beq_false_of_ne hne, Bool.false_and]

theorem runsOnAt_eq (p p' : Place) (cs : List Char) : runsOnAt p cs = runsOnAt p' cs := by
  induction cs using text_induction generalizing p p' with
  | nil => rfl
  | space c rest hc ih => rw [runsOnAt_space hc, runsOnAt_space hc, ih]
  | token c rest kind text behind hc htext hsplit ih =>
    by_cases hbehind : behind = []
    · obtain rfl : text = c :: rest := by rw [hsplit, hbehind, List.append_nil]
      rw [runsOnAt_whole hc htext, runsOnAt_whole hc htext]
    · rw [runsOnAt_token hc htext hsplit hbehind, runsOnAt_token hc htext hsplit hbehind, ih]

theorem runsOn_space (hc : isSpace c = true) (cs : List Char) : runsOn (c :: cs) = runsOn cs := by
  rw [runsOn, runsOnAt_space hc]
  exact runsOnAt_eq _ _ cs

theorem runsOn_whole (hc : isSpace c = false) (htext : tokenText c rest = (kind, c :: rest)) :
    runsOn (c :: rest) = isLineComment (c :: rest) := runsOnAt_whole hc htext Place.start

theorem runsOn_token (hc : isSpace c = false) (htext : tokenText c rest = (kind, text))
    (hsplit : c :: rest = text ++ behind) (hbehind : behind ≠ []) :
    runsOn (c :: rest) = runsOn behind := by
  rw [runsOn, runsOnAt_token hc htext hsplit hbehind]
  exact runsOnAt_eq _ _ behind

end RunsOn

/-! ### Texts one behind the other -/

/-- No token of the text is stray. -/
def Tidy (text : List Char) : Prop := ∀ w ∈ words text, w.isStray = false

theorem tidy_nil : Tidy [] := fun _ h => absurd h List.not_mem_nil

theorem Tidy.kind_ne {c : Char} {kind : TokenKind} {rest text behind : List Char}
    (h : Tidy (c :: rest)) (hc : isSpace c = false) (htext : tokenText c rest = (kind, text))
    (hsplit : c :: rest = text ++ behind) : kind ≠ .unclosed ∧ Tidy behind := by
  unfold Tidy at h
  rw [words_token hc htext hsplit, List.forall_mem_append] at h
  refine ⟨?_, h.2⟩
  rintro rfl
  exact absurd (h.1 _ (List.mem_singleton_self _)) (by simp [Word.isStray])

theorem advanceAll_append (p : Place) (xs ys : List Char) :
    p.advanceAll (xs ++ ys) = (p.advanceAll xs).advanceAll ys := List.foldl_append

/-- **The tokens of two texts are those of the one and then those of the other**, when the second one
starts with a separator, which ends the line when the first one ends with a line comment. -/
theorem tokensAt_append {x y : List Char} (hx : Tidy x) (hy : Bounded y)
    (hline : runsOn x = true → ∀ d ∈ y.head?, d = '\n') (p : Place) :
    tokensAt p (x ++ y) = tokensAt p x ++ tokensAt (p.advanceAll x) y := by
  induction x using text_induction generalizing p with
  | nil => rfl
  | space c rest hc ih =>
    rw [runsOn_space hc] at hline
    unfold Tidy at hx
    rw [words_space hc] at hx
    rw [List.cons_append, tokensAt_space hc, tokensAt_space hc, ih hx hline]
    rfl
  | token c rest kind text behind hc htext hsplit ih =>
    obtain ⟨hkind, hbehind⟩ := hx.kind_ne hc htext hsplit
    have hin : text <+: c :: rest := ⟨behind, hsplit.symm⟩
    have htext' : tokenText c (rest ++ y) = (kind, text) := by
      refine tokenText_congr (y := []) (by rw [List.append_nil, htext]) hkind hin hy fun hwhole hl => ?_
      rw [hwhole] at htext hl
      exact hline ((runsOn_whole hc htext).trans hl)
    have hsplit' : c :: (rest ++ y) = text ++ (behind ++ y) := by
      rw [← List.cons_append, hsplit, List.append_assoc]
    have hrest : ∀ q, tokensAt q (behind ++ y) =
        tokensAt q behind ++ tokensAt (q.advanceAll behind) y := by
      by_cases hnil : behind = []
      · rw [hnil]
        exact fun _ => rfl
      · rw [runsOn_token hc htext hsplit hnil] at hline
        exact ih hbehind hline
    rw [List.cons_append, tokensAt_token hc htext' hsplit', tokensAt_token hc htext hsplit, hrest,
      hsplit, advanceAll_append]
    rfl

theorem words_append {x y : List Char} (hx : Tidy x) (hy : Bounded y)
    (hline : runsOn x = true → ∀ d ∈ y.head?, d = '\n') : words (x ++ y) = words x ++ words y := by
  rw [words_eq Place.start, tokensAt_append hx hy hline, wordsOf_append, ← words_eq, ← words_eq]

theorem stop_le_of_mem_tokensAt {p : Place} {cs : List Char} {t : Token} (h : t ∈ tokensAt p cs) :
    t.extent.stop.offset ≤ p.offset + Text.byteLength cs := by
  induction cs using text_induction generalizing p with
  | nil => cases h
  | space c rest hc ih =>
    rw [tokensAt_space hc] at h
    have hstop := ih h
    rw [offset_advance] at hstop
    rw [Text.byteLength_cons]
    omega
  | token c rest kind text behind hc htext hsplit ih =>
    rw [tokensAt_token hc htext hsplit] at h
    rw [hsplit, Text.byteLength_append]
    rcases List.mem_cons.1 h with rfl | h
    · show (p.advanceAll text).offset ≤ _
      rw [offset_advanceAll]
      omega
    · have hstop := ih h
      rw [offset_advanceAll] at hstop
      omega

/-- The text goes on to the end of its line only when the second one does. -/
theorem runsOn_append {x y : List Char} (hx : Tidy x) (hy : Bounded y)
    (hline : runsOn x = true → ∃ z, y = '\n' :: z) (hclosed : runsOn y = false) :
    runsOn (x ++ y) = false := by
  have hhead : runsOn x = true → ∀ d ∈ y.head?, d = '\n' := by
    intro h d hd
    obtain ⟨z, rfl⟩ := hline h
    exact (Option.some.inj hd).symm
  have htokens := tokensAt_append hx hy hhead Place.start
  unfold runsOn runsOnAt
  rw [htokens, Text.byteLength_append]
  cases hts : tokensAt (Place.start.advanceAll x) y with
  | cons t ts =>
    have hlast : runsOnAt (Place.start.advanceAll x) y = false := (runsOnAt_eq _ _ y).trans hclosed
    rw [runsOnAt, hts, offset_advanceAll, Nat.add_assoc] at hlast
    rwa [List.getLast?_append_cons]
  | nil =>
    rw [List.append_nil]
    cases y with
    | nil =>
      cases hrun : runsOn x with
      | false => exact hrun
      | true =>
        obtain ⟨z, hz⟩ := hline hrun
        cases hz
    | cons d y =>
      -- the last token ends before the text does
      cases hlast : (tokensAt Place.start x).getLast? with
      | none => rfl
      | some t =>
        have hd := d.utf8Size_pos
        have hstop := stop_le_of_mem_tokensAt (List.mem_of_getLast? hlast)
        have hne : t.extent.stop.offset ≠
            Place.start.offset + (Text.byteLength x + Text.byteLength (d :: y)) := by
          rw [Text.byteLength_cons]
          omega
        rw [Option.any_some, beq_false_of_ne hne, Bool.false_and]

/-! ### A text that is cut between two tokens -/

/-- The tokens of a text that is cut where no token stands are those of its two parts. -/
theorem tokensAt_cut {p : Place} {x y : List Char}
    (hclosed : ∀ t ∈ tokensAt p (x ++ y), t.kind ≠ .unclosed)
    (hcut : ∀ t ∈ tokensAt p (x ++ y), t.extent.stop.offset ≤ p.offset + Text.byteLength x ∨
      p.offset + Text.byteLength x ≤ t.extent.start.offset) :
    tokensAt p (x ++ y) = tokensAt p x ++ tokensAt (p.advanceAll x) y := by
  induction hn : x.length using Nat.strong_induction_on generalizing p x with
  | h n ih =>
    cases x with
    | nil => rfl
    | cons c rest =>
      rw [List.length_cons] at hn
      by_cases hc : isSpace c = true
      · rw [List.cons_append, tokensAt_space hc] at hclosed hcut ⊢
        rw [tokensAt_space hc]
        refine ih rest.length (by omega) hclosed (fun t ht => ?_) rfl
        rw [offset_advance, Nat.add_assoc]
        exact hcut t ht
      · rw [Bool.not_eq_true] at hc
        obtain ⟨kind, text, behind, htext, hsplit⟩ := exists_tokenText c (rest ++ y)
        rw [List.cons_append, tokensAt_token hc htext hsplit] at hclosed hcut ⊢
        obtain ⟨hkind, hclosed⟩ := List.forall_mem_cons.1 hclosed
        obtain ⟨hfirst, hcut⟩ := List.forall_mem_cons.1 hcut
        -- the first token ends within `x`
        obtain ⟨a, ha, rfl⟩ : ∃ a, c :: rest = text ++ a ∧ behind = a ++ y := by
          rw [← List.cons_append] at hsplit
          rcases List.append_eq_append_iff.1 hsplit.symm with ⟨a, ha, hb⟩ | ⟨a, ha, hb⟩
          · exact ⟨a, ha, hb⟩
          · have hlength := congrArg Text.byteLength ha
            have hpos := c.utf8Size_pos
            dsimp only at hfirst
            rw [offset_advanceAll] at hfirst
            rw [Text.byteLength_append] at hlength
            rw [Text.byteLength_cons] at hfirst hlength
            cases a with
            | nil => exact ⟨[], by rw [ha, List.append_nil, List.append_nil], hb.symm⟩
            | cons d a =>
              have := d.utf8Size_pos
              rw [Text.byteLength_cons] at hlength
              omega
        have htext' : tokenText c rest = (kind, text) := by
          rw [← List.append_nil rest]
          exact tokenText_congr htext hkind ⟨a, ha.symm⟩ bounded_nil fun _ _ _ h => by cases h
        have hlength : a.length < n := by
          have hne := tokenText_ne_nil c rest
          rw [htext'] at hne
          have hsum := congrArg List.length ha
          have hpos := List.length_pos_iff.2 hne
          rw [List.length_append, List.length_cons] at hsum
          dsimp only at hpos
          omega
        have hrest := ih a.length hlength (p := p.advanceAll text) hclosed (fun t ht => ?_) rfl
        · rw [tokensAt_token hc htext' ha, hrest, ha, advanceAll_append]
          rfl
        · rw [offset_advanceAll, Nat.add_assoc, ← Text.byteLength_append, ← ha]
          exact hcut t ht

end BranchExclusion.Java
