import BranchExclusion.Java.Token
import BranchExclusion.Text.Offset
import Mathlib.Tactic

/-!
# Tokens as stretches of their text

A token starts where it is read and takes at least one character, so that a text is white space and
tokens one behind the other.

* `tokenText_prefix`, `tokenText_ne_nil`: a token is the start of what is left to read;
* `tokensAt`, `text_induction`: reading a text from its start to its end;
* `words`: what the grammar sees of a text.
-/

namespace BranchExclusion.Java

/-- What the grammar sees of some tokens. -/
def wordsOf (ts : List Token) : List Word := (ts.filter fun t => !t.isComment).map Token.word

/-- What the grammar sees of a text. -/
def words (text : List Char) : List Word := wordsOf (tokens text)

/-! ### Tokens are stretches of their text -/

section Through

variable {σ : Type} {step : σ → Char → Scan σ} {state : σ} {cs text : List Char}

theorem takeThrough_prefix (h : takeThrough step state cs = some text) : text <+: cs := by
  fun_induction takeThrough step state cs generalizing text with
  | case1 state => cases h
  | case2 state c rest hstep =>
    cases h
    exact ⟨rest, rfl⟩
  | case3 state c rest hstep => cases h
  | case4 state c rest next hstep ih =>
    obtain ⟨text, htext, rfl⟩ := Option.map_eq_some_iff.1 h
    exact List.cons_prefix_cons.2 ⟨rfl, ih htext⟩

theorem takeThrough_ne_nil (h : takeThrough step state cs = some text) : text ≠ [] := by
  rintro rfl
  fun_cases takeThrough step state cs with
  | case1 => cases h
  | case2 state c rest hstep => simp [takeThrough, hstep] at h
  | case3 state c rest hstep => simp [takeThrough, hstep] at h
  | case4 state c rest next hstep => simp [takeThrough, hstep] at h

/-- What is read through its end is the same whatever follows. -/
theorem takeThrough_congr {z : List Char} (h : takeThrough step state (text ++ z) = some text)
    (z' : List Char) : takeThrough step state (text ++ z') = some text := by
  generalize hzs : text ++ z = zs at h
  fun_induction takeThrough step state zs generalizing text with
  | case1 state => cases h
  | case2 state c rest hstep =>
    cases h
    simp [takeThrough, hstep]
  | case3 state c rest hstep => cases h
  | case4 state c rest next hstep ih =>
    obtain ⟨text, htext, rfl⟩ := Option.map_eq_some_iff.1 h
    have hrest : text ++ z = rest := (List.cons.inj hzs).2
    simp [takeThrough, hstep, ih hrest htext]

theorem exists_of_takeThrough_comment {star : Bool}
    (h : takeThrough commentStep star cs = some text) :
    (star = true ∧ text = ['/']) ∨ ∃ inner, text = inner ++ ['*', '/'] := by
  induction cs generalizing star text with
  | nil => cases h
  | cons c rest ih =>
    unfold takeThrough commentStep at h
    split_ifs at h with hdone
    · cases h
      rw [Bool.and_eq_true, beq_iff_eq] at hdone
      exact .inl ⟨hdone.1, by rw [hdone.2]⟩
    · obtain ⟨text, htext, rfl⟩ := Option.map_eq_some_iff.1 h
      rcases ih htext with ⟨hc, rfl⟩ | ⟨inner, rfl⟩
      · rw [beq_iff_eq.1 hc]
        exact .inr ⟨[], rfl⟩
      · exact .inr ⟨c :: inner, rfl⟩

end Through

theorem takeNumber_prefix (hex sign : Bool) (cs : List Char) : takeNumber hex sign cs <+: cs := by
  fun_induction takeNumber hex sign cs with
  | case1 sign c rest hc mark ih => simpa using ih
  | case2 sign c rest hc hsign ih => simpa using ih
  | case3 sign c rest hc hsign => exact List.nil_prefix
  | case4 sign => exact List.prefix_rfl

theorem plainText_prefix (c : Char) (rest : List Char) : (plainText c rest).2 <+: c :: rest := by
  unfold plainText
  split
  · simpa using List.takeWhile_prefix inWord
  · split
    · exact takeNumber_prefix _ _ (c :: rest)
    · split
      · next s hs =>
        have hprefix := List.find?_some hs
        exact List.isPrefixOf_iff_prefix.1 hprefix
      · exact ⟨rest, rfl⟩

theorem plainText_ne_nil (c : Char) (rest : List Char) : (plainText c rest).2 ≠ [] := by
  unfold plainText
  split
  · exact List.cons_ne_nil _ _
  · split
    · next hnumber =>
      have hc : (c.isAlphanum || c == '_' || c == '.') = true := by
        rw [Bool.or_eq_true, Bool.and_eq_true] at hnumber
        rcases hnumber with hdigit | ⟨hdot, -⟩
        · simp [Char.isAlphanum, hdigit]
        · simp [hdot]
      rw [takeNumber, if_pos hc]
      exact List.cons_ne_nil _ _
    · split
      · next s hs =>
        have hsymbols : ∀ s ∈ longSymbols, s ≠ [] := by decide
        exact hsymbols s (List.mem_of_find?_eq_some hs)
      · exact List.cons_ne_nil _ _

theorem closedText_prefix (kind : TokenKind) {opening more lines : List Char}
    {taken : Option (List Char)} (hlines : lines <+: more)
    (htaken : ∀ text, taken = some text → text <+: more) :
    (closedText kind opening lines taken).2 <+: opening ++ more := by
  unfold closedText
  split
  · exact (List.prefix_append_right_inj opening).2 (htaken _ rfl)
  · exact (List.prefix_append_right_inj opening).2 hlines

theorem closedText_ne_nil (kind : TokenKind) {opening : List Char} (h : opening ≠ [])
    (more : List Char) (taken : Option (List Char)) :
    (closedText kind opening more taken).2 ≠ [] := by
  unfold closedText
  split <;> exact fun heq => h (List.append_eq_nil_iff.1 heq).1

/-- A token starts where it is read. -/
theorem tokenText_prefix (c : Char) (rest : List Char) : (tokenText c rest).2 <+: c :: rest := by
  unfold tokenText
  split
  · simpa [takeLine] using List.takeWhile_prefix _
  · exact closedText_prefix _ List.prefix_rfl fun _ => takeThrough_prefix
  · exact closedText_prefix _ List.prefix_rfl fun _ => takeThrough_prefix
  · exact closedText_prefix _ (List.takeWhile_prefix _) fun _ => takeThrough_prefix
  · exact closedText_prefix _ (List.takeWhile_prefix _) fun _ => takeThrough_prefix
  · exact plainText_prefix c rest

/-- A token has some character. -/
theorem tokenText_ne_nil (c : Char) (rest : List Char) : (tokenText c rest).2 ≠ [] := by
  unfold tokenText
  split
  · exact List.cons_ne_nil _ _
  case h_6 => exact plainText_ne_nil c rest
  all_goals exact closedText_ne_nil _ (List.cons_ne_nil _ _) _ _

theorem closedText_eq {kind kind' : TokenKind} {opening more text : List Char}
    {taken : Option (List Char)} (h : closedText kind opening more taken = (kind', text))
    (hkind : kind' ≠ .unclosed) :
    kind' = kind ∧ ∃ inner, taken = some inner ∧ text = opening ++ inner := by
  unfold closedText at h
  split at h
  · obtain ⟨rfl, rfl⟩ := Prod.mk.inj h
    exact ⟨rfl, _, rfl, rfl⟩
  · exact absurd (Prod.mk.inj h).1.symm hkind

theorem plainText_kind (c : Char) (rest : List Char) : (plainText c rest).1 = .word ∨
    (plainText c rest).1 = .number ∨ (plainText c rest).1 = .symbol := by
  unfold plainText
  split
  · exact .inl rfl
  · split
    · exact .inr (.inl rfl)
    · split <;> exact .inr (.inr rfl)

/-- The text splits into its first token and the rest. -/
theorem exists_tokenText (c : Char) (rest : List Char) :
    ∃ kind text behind, tokenText c rest = (kind, text) ∧ c :: rest = text ++ behind := by
  obtain ⟨behind, hbehind⟩ := tokenText_prefix c rest
  exact ⟨_, _, behind, rfl, hbehind.symm⟩

/-! ### Reading a text -/

variable {p : Place} {c : Char} {rest text behind : List Char} {kind : TokenKind}

theorem length_behind (htext : tokenText c rest = (kind, text))
    (hsplit : c :: rest = text ++ behind) : behind.length ≤ rest.length := by
  have hlength := congrArg List.length hsplit
  have hpos := List.length_pos_iff.2 (tokenText_ne_nil c rest)
  rw [htext] at hpos
  rw [List.length_cons, List.length_append] at hlength
  dsimp only at hpos
  omega

theorem tokensFrom_token (n : ℕ) (hc : isSpace c = false) (htext : tokenText c rest = (kind, text))
    (hsplit : c :: rest = text ++ behind) : tokensFrom (n + 1) p (c :: rest) =
      ⟨kind, String.ofList text, ⟨p, p.advanceAll text⟩⟩ ::
        tokensFrom n (p.advanceAll text) behind := by
  rw [tokensFrom, hc, htext, hsplit]
  simp only [Bool.false_eq_true, if_false, List.drop_left]

theorem tokensFrom_of_length_le {n m : ℕ} {p : Place} {cs : List Char} (hn : cs.length ≤ n)
    (hm : cs.length ≤ m) : tokensFrom n p cs = tokensFrom m p cs := by
  induction n generalizing m p cs with
  | zero =>
    obtain rfl : cs = [] := List.length_eq_zero_iff.1 (Nat.le_zero.1 hn)
    cases m <;> rfl
  | succ n ih =>
    cases cs with
    | nil => cases m <;> rfl
    | cons c rest =>
      obtain ⟨m, rfl⟩ := Nat.exists_eq_add_one_of_ne_zero (n := m) (by simp at hm; omega)
      rw [List.length_cons] at hn hm
      by_cases hc : isSpace c = true
      · rw [tokensFrom, tokensFrom, if_pos hc, if_pos hc]
        exact ih (by omega) (by omega)
      · rw [Bool.not_eq_true] at hc
        obtain ⟨kind, text, behind, htext, hsplit⟩ := exists_tokenText c rest
        have hle := length_behind htext hsplit
        rw [tokensFrom_token n hc htext hsplit, tokensFrom_token m hc htext hsplit,
          ih (m := m) (by omega) (by omega)]

/-- The tokens of a text that starts at a place. -/
def tokensAt (p : Place) (cs : List Char) : List Token := tokensFrom cs.length p cs

@[simp] theorem tokensAt_nil (p : Place) : tokensAt p [] = [] := rfl

theorem tokensAt_space {p : Place} {c : Char} (hc : isSpace c = true) (cs : List Char) :
    tokensAt p (c :: cs) = tokensAt (p.advance c) cs := by
  rw [tokensAt, List.length_cons, tokensFrom, if_pos hc]
  rfl

theorem tokensAt_token (hc : isSpace c = false) (htext : tokenText c rest = (kind, text))
    (hsplit : c :: rest = text ++ behind) : tokensAt p (c :: rest) =
      ⟨kind, String.ofList text, ⟨p, p.advanceAll text⟩⟩ ::
        tokensAt (p.advanceAll text) behind := by
  rw [tokensAt, List.length_cons, tokensFrom_token _ hc htext hsplit, tokensAt,
    tokensFrom_of_length_le (length_behind htext hsplit) (Nat.le_refl _)]

/-- A text is empty, starts with white space or starts with a token. -/
theorem text_induction {motive : List Char → Prop} (nil : motive [])
    (space : ∀ c rest, isSpace c = true → motive rest → motive (c :: rest))
    (token : ∀ c rest kind text behind, isSpace c = false → tokenText c rest = (kind, text) →
      c :: rest = text ++ behind → motive behind → motive (c :: rest)) (cs : List Char) :
    motive cs := by
  induction hn : cs.length using Nat.strong_induction_on generalizing cs with
  | h n ih =>
    cases cs with
    | nil => exact nil
    | cons c rest =>
      rw [List.length_cons] at hn
      by_cases hc : isSpace c = true
      · exact space c rest hc (ih rest.length (by omega) rest rfl)
      · rw [Bool.not_eq_true] at hc
        obtain ⟨kind, text, behind, htext, hsplit⟩ := exists_tokenText c rest
        have hle := length_behind htext hsplit
        exact token c rest kind text behind hc htext hsplit (ih behind.length (by omega) behind rfl)


theorem offset_advance (p : Place) (c : Char) : (p.advance c).offset = p.offset + c.utf8Size := by
  unfold Place.advance
  split
  · next h => rw [h]; rfl
  · rfl

theorem offset_advanceAll (p : Place) (cs : List Char) :
    (p.advanceAll cs).offset = p.offset + Text.byteLength cs := by
  unfold Place.advanceAll
  induction cs generalizing p with
  | nil => rfl
  | cons c cs ih => rw [List.foldl_cons, ih, offset_advance, Text.byteLength_cons, Nat.add_assoc]

/-! ### Words -/

/-- The word of a token of that kind and text, unless it is a comment. -/
def wordOf (kind : TokenKind) (text : List Char) : List Word :=
  if kind = .comment then [] else [⟨kind, if kind = .quoted then "" else String.ofList text⟩]

@[simp] theorem wordsOf_nil : wordsOf [] = [] := rfl

theorem wordsOf_cons (kind : TokenKind) (text : List Char) (e : Extent) (ts : List Token) :
    wordsOf (⟨kind, String.ofList text, e⟩ :: ts) = wordOf kind text ++ wordsOf ts := by
  unfold wordsOf wordOf
  cases kind <;> rfl

theorem wordsOf_append (ts us : List Token) : wordsOf (ts ++ us) = wordsOf ts ++ wordsOf us := by
  rw [wordsOf, List.filter_append, List.map_append]
  rfl

/-- What is read does not depend on the place. -/
theorem wordsOf_tokensAt (p q : Place) (cs : List Char) :
    wordsOf (tokensAt p cs) = wordsOf (tokensAt q cs) := by
  induction cs using text_induction generalizing p q with
  | nil => rfl
  | space c rest hc ih => rw [tokensAt_space hc, tokensAt_space hc, ih]
  | token c rest kind text behind hc htext hsplit ih =>
    rw [tokensAt_token hc htext hsplit, tokensAt_token hc htext hsplit, wordsOf_cons,
      wordsOf_cons, ih]

theorem words_eq (p : Place) (cs : List Char) : words cs = wordsOf (tokensAt p cs) :=
  wordsOf_tokensAt Place.start p cs

@[simp] theorem words_nil : words [] = [] := rfl

theorem words_space (hc : isSpace c = true) (cs : List Char) : words (c :: cs) = words cs := by
  rw [words_eq Place.start, tokensAt_space hc, ← words_eq]

theorem words_token (hc : isSpace c = false) (htext : tokenText c rest = (kind, text))
    (hsplit : c :: rest = text ++ behind) : words (c :: rest) = wordOf kind text ++ words behind := by
  rw [words_eq Place.start, tokensAt_token hc htext hsplit, wordsOf_cons, ← words_eq]

/-- White space before a text is passed over. -/
theorem words_append_of_blank {blank : List Char} (h : ∀ c ∈ blank, isSpace c = true)
    (cs : List Char) : words (blank ++ cs) = words cs := by
  induction blank with
  | nil => rfl
  | cons c blank ih =>
    rw [List.cons_append, words_space (h c List.mem_cons_self),
      ih fun d hd => h d (List.mem_cons_of_mem c hd)]

end BranchExclusion.Java
