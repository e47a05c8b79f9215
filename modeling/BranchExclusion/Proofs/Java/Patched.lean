import BranchExclusion.Proofs.Java.Exchanged
import BranchExclusion.Proofs.Source.Nested

/-!
# The words of stretches of a source

A stretch of a source that cuts no token has the words of the tokens in it, and so has a stretch in
which blocks get new texts.

* `Cut`: an offset between two characters and in no token;
* `tokensIn`: the tokens of a stretch;
* `words_slice`: they give the words of its text;
* `Exchange`: a block of the source that gets a new text;
* `words_patch`, `words_splice_slice`: the words of a stretch where some blocks have new texts.
-/

namespace BranchExclusion.Java

open Text (slice isBoundary byteLength takeBytes dropBytes)

/-- The offset lies between two characters of the source, and in none of its tokens. -/
def Cut (source : List Char) (n : ℕ) : Prop :=
  isBoundary source n = true ∧ ∀ t ∈ tokens source, t.extent.stop.offset ≤ n ∨
    n ≤ t.extent.start.offset

/-- The tokens between two offsets. -/
def tokensIn (source : List Char) (lo hi : ℕ) : List Token :=
  (tokens source).filter fun t =>
    decide (lo ≤ t.extent.start.offset) && decide (t.extent.stop.offset ≤ hi)

section Stretches

variable {source : List Char} {lo mid hi : ℕ}

theorem mem_tokensIn {t : Token} : t ∈ tokensIn source lo hi ↔
    t ∈ tokens source ∧ lo ≤ t.extent.start.offset ∧ t.extent.stop.offset ≤ hi := by
  simp [tokensIn]

theorem Cut.le (h : Cut source hi) : hi ≤ byteLength source := Text.le_byteLength_of_isBoundary h.1

theorem cut_zero (source : List Char) : Cut source 0 := Place.between_start source

theorem cut_byteLength (source : List Char) : Cut source (byteLength source) := by
  refine ⟨Text.isBoundary_byteLength source, fun t ht => .inl ?_⟩
  have hstop : t.extent.stop.offset ≤ 0 + byteLength source := stop_le_of_mem_tokensAt ht
  rwa [Nat.zero_add] at hstop

/-- A list of tokens in order, where every token stands on one side of a place, is cut there. -/
theorem filter_cut {ts : List Token}
    (hts : ts.Pairwise fun t u => t.extent.stop.offset ≤ u.extent.start.offset)
    (hlt : ∀ t ∈ ts, t.extent.start.offset < t.extent.stop.offset)
    (hmid : ∀ t ∈ ts, t.extent.stop.offset ≤ mid ∨ mid ≤ t.extent.start.offset) (hlo : lo ≤ mid)
    (hhi : mid ≤ hi) :
    (ts.filter fun t => decide (lo ≤ t.extent.start.offset) && decide (t.extent.stop.offset ≤ hi)) =
      (ts.filter fun t =>
        decide (lo ≤ t.extent.start.offset) && decide (t.extent.stop.offset ≤ mid)) ++
      ts.filter fun t =>
        decide (mid ≤ t.extent.start.offset) && decide (t.extent.stop.offset ≤ hi) := by
  induction ts with
  | nil => rfl
  | cons t ts ih =>
    obtain ⟨hbefore, hts⟩ := List.pairwise_cons.1 hts
    obtain ⟨ht, hlt⟩ := List.forall_mem_cons.1 hlt
    obtain ⟨hfirst, hmid⟩ := List.forall_mem_cons.1 hmid
    rcases hfirst with hstop | hstart
    · have hno : ¬ mid ≤ t.extent.start.offset := by omega
      have hle : t.extent.stop.offset ≤ hi := hstop.trans hhi
      simp only [List.filter_cons, ih hts hlt hmid, hno, hle, hstop, decide_true, decide_false,
        Bool.and_true, Bool.false_eq_true, if_false]
      split <;> rfl
    · -- the tokens behind stand behind the cut as well
      have hnil : (t :: ts).filter (fun t =>
          decide (lo ≤ t.extent.start.offset) && decide (t.extent.stop.offset ≤ mid)) = [] := by
        refine List.filter_eq_nil_iff.2 (List.forall_mem_cons.2 ⟨?_, fun u hu => ?_⟩)
        · simp
          omega
        · have := hbefore u hu
          have := hlt u hu
          simp
          omega
      rw [hnil, List.nil_append]
      refine List.filter_congr (List.forall_mem_cons.2 ⟨?_, fun u hu => ?_⟩)
      · simp [hstart, hlo.trans hstart]
      · have := hbefore u hu
        have hu : mid ≤ u.extent.start.offset := by omega
        simp [hu, hlo.trans hu]

theorem tokensIn_append (hmid : Cut source mid) (hlo : lo ≤ mid) (hhi : mid ≤ hi) :
    tokensIn source lo hi = tokensIn source lo mid ++ tokensIn source mid hi :=
  filter_cut (pairwise_tokensAt Place.start source) (fun _ ht => start_lt_stop ht) hmid.2 hlo hhi

theorem tokensIn_whole (source : List Char) : tokensIn source 0 (byteLength source) = tokens source :=
  List.filter_eq_self.2 fun t ht => by
    have hstop : t.extent.stop.offset ≤ 0 + byteLength source := stop_le_of_mem_tokensAt ht
    rw [Nat.zero_add] at hstop
    simp [hstop]

theorem chained_tokensIn (source : List Char) (hle : lo ≤ hi) :
    Chained lo hi (tokensIn source lo hi) := by
  have hall : ∀ ts : List Token,
      (ts.Pairwise fun t u => t.extent.stop.offset ≤ u.extent.start.offset) →
      (∀ t ∈ ts, t.extent.start.offset < t.extent.stop.offset) → ∀ lo, lo ≤ hi →
      (∀ t ∈ ts, lo ≤ t.extent.start.offset ∧ t.extent.stop.offset ≤ hi) → Chained lo hi ts := by
    intro ts hts
    induction hts with
    | nil => exact fun _ lo hle _ => hle
    | @cons t ts hbefore _ ih =>
      intro hlt lo _ hin
      obtain ⟨ht, hlt⟩ := List.forall_mem_cons.1 hlt
      obtain ⟨⟨hlo, hhi⟩, hin⟩ := List.forall_mem_cons.1 hin
      exact ⟨hlo, ht, ih hlt _ hhi fun u hu => ⟨hbefore u hu, (hin u hu).2⟩⟩
  refine hall _ ((pairwise_tokensAt Place.start source).filter _) (fun t ht => ?_) lo hle fun t ht => ?_
  · exact start_lt_stop (mem_tokensIn.1 ht).1
  · exact (mem_tokensIn.1 ht).2

/-! ### The text of a stretch -/

theorem start_le_of_mem_tokensAt {p : Place} {cs : List Char} {t : Token} (h : t ∈ tokensAt p cs) :
    p.offset ≤ t.extent.start.offset := by
  obtain ⟨before, -, -, -, -, -, -, hstart, -⟩ := exists_split_of_mem_tokensAt h
  exact hstart ▸ Nat.le_add_right _ _

theorem kind_ne_of_tidy (hs : Tidy source) : ∀ t ∈ tokens source, t.kind ≠ .unclosed := by
  intro t ht hkind
  have hcomment : t.isComment = false := by
    unfold Token.isComment
    rw [hkind]
    rfl
  have hstray := hs t.word (List.mem_map_of_mem (List.mem_filter.2 ⟨ht, by simp [hcomment]⟩))
  simp [Word.isStray, Token.word, hkind] at hstray

/-- The tokens of a stretch are those of its text. -/
theorem exists_tokensAt_slice (hs : Tidy source) (hlo : Cut source lo) (hhi : Cut source hi)
    (hle : lo ≤ hi) : ∃ p q : Place, p.offset = lo ∧ q.offset = hi ∧
      tokensIn source lo hi = tokensAt p (slice source lo hi) ∧
      tokensAt p (slice source lo hi ++ dropBytes hi source) =
        tokensAt p (slice source lo hi) ++ tokensAt q (dropBytes hi source) := by
  obtain ⟨n, rfl⟩ := Nat.exists_eq_add_of_le hle
  have hdrop : dropBytes (lo + n) source = dropBytes n (dropBytes lo source) :=
    (Text.cut_add hlo.1 n).1
  have hslice : slice source lo (lo + n) = takeBytes n (dropBytes lo source) := by
    rw [slice, Nat.add_sub_cancel_left]
  have hsplit : source = takeBytes lo source ++ (slice source lo (lo + n) ++
      dropBytes (lo + n) source) := by
    rw [hdrop, hslice, Text.takeBytes_append_dropBytes, Text.takeBytes_append_dropBytes]
  have hbefore : byteLength (takeBytes lo source) = lo :=
    Text.byteLength_takeBytes_of_isBoundary hlo.1
  have hwithin : byteLength (slice source lo (lo + n)) = n := by
    rw [Text.byteLength_slice hle hlo.1 hhi.1, Nat.add_sub_cancel_left]
  have hclosed := kind_ne_of_tidy hs
  have hcut := hlo.2
  have hcut' := hhi.2
  unfold tokensIn
  generalize dropBytes (lo + n) source = z at hsplit ⊢
  generalize slice source lo (lo + n) = y at hsplit hwithin ⊢
  generalize takeBytes lo source = x at hsplit hbefore
  have htokens : tokens source = tokensAt Place.start x ++
      tokensAt (Place.start.advanceAll x) (y ++ z) := by
    rw [hsplit] at hclosed hcut ⊢
    refine tokensAt_cut hclosed fun t ht => ?_
    have := hcut t ht
    rw [hbefore]
    show _ ≤ 0 + lo ∨ 0 + lo ≤ _
    omega
  have hplace : (Place.start.advanceAll x).offset = lo := by
    rw [offset_advanceAll, hbefore]
    exact Nat.zero_add lo
  rw [htokens] at hclosed hcut'
  have hrest : tokensAt (Place.start.advanceAll x) (y ++ z) =
      tokensAt (Place.start.advanceAll x) y ++
        tokensAt ((Place.start.advanceAll x).advanceAll y) z := by
    refine tokensAt_cut (fun t ht => hclosed t (List.mem_append_right _ ht)) fun t ht => ?_
    have := hcut' t (List.mem_append_right _ ht)
    rw [hplace, hwithin]
    exact this
  have hplace' : ((Place.start.advanceAll x).advanceAll y).offset = lo + n := by
    rw [offset_advanceAll, hplace, hwithin]
  refine ⟨Place.start.advanceAll x, (Place.start.advanceAll x).advanceAll y, hplace, hplace', ?_,
    hrest⟩
  rw [htokens, hrest, List.filter_append, List.filter_append]
  have hfirst : (tokensAt Place.start x).filter (fun t =>
      decide (lo ≤ t.extent.start.offset) && decide (t.extent.stop.offset ≤ lo + n)) = [] := by
    refine List.filter_eq_nil_iff.2 fun t ht => ?_
    have hstop : t.extent.stop.offset ≤ 0 + byteLength x := stop_le_of_mem_tokensAt ht
    have hlt := start_lt_stop ht
    simp
    omega
  have hlast : (tokensAt ((Place.start.advanceAll x).advanceAll y) z).filter (fun t =>
      decide (lo ≤ t.extent.start.offset) && decide (t.extent.stop.offset ≤ lo + n)) = [] := by
    refine List.filter_eq_nil_iff.2 fun t ht => ?_
    have hstart := start_le_of_mem_tokensAt ht
    have hlt := start_lt_stop ht
    simp
    omega
  rw [hfirst, hlast, List.nil_append, List.append_nil]
  refine List.filter_eq_self.2 fun t ht => ?_
  have hstart := start_le_of_mem_tokensAt ht
  have hstop := stop_le_of_mem_tokensAt ht
  simp
  omega

/-- **The tokens of a stretch give the words of its text.** -/
theorem words_slice (hs : Tidy source) (hlo : Cut source lo) (hhi : Cut source hi) (hle : lo ≤ hi) :
    words (slice source lo hi) = wordsOf (tokensIn source lo hi) := by
  obtain ⟨p, -, -, -, htokens, -⟩ := exists_tokensAt_slice hs hlo hhi hle
  rw [htokens, words_eq p]

theorem tidy_slice (hs : Tidy source) (hlo : Cut source lo) (hhi : Cut source hi) (hle : lo ≤ hi) :
    Tidy (slice source lo hi) := by
  unfold Tidy
  rw [words_slice hs hlo hhi hle]
  refine fun w hw => hs w ?_
  obtain ⟨t, ht, rfl⟩ := List.mem_map.1 hw
  obtain ⟨ht, hcomment⟩ := List.mem_filter.1 ht
  exact List.mem_map_of_mem (List.mem_filter.2 ⟨(mem_tokensIn.1 ht).1, hcomment⟩)

/-- What stands behind so many bytes. -/
theorem dropBytes_append_eq {xs ys : List Char} {n : ℕ} (h : byteLength xs = n) :
    dropBytes n (xs ++ ys) = ys := by
  rw [← h, Text.dropBytes_append (Nat.le_refl _), Text.dropBytes_byteLength, List.nil_append]

/-- A token that reads as a symbol has the symbol as its text. -/
theorem text_eq_of_is {t : Token} {text : String} (htext : text ≠ "") (h : t.word.is text = true) :
    t.text = text := by
  unfold Token.word Word.is at h
  rw [beq_iff_eq] at h
  dsimp only at h
  split at h
  · exact absurd h.symm htext
  · exact h

theorem text_of_leftBrace {t : Token} (h : t.word.is leftBrace = true) : t.text.toList = ['{'] := by
  rw [text_eq_of_is (by decide) h]
  rfl

/-- Behind a line comment the line ends. -/
theorem eq_newline_of_isLineComment {c d : Char} {kind : TokenKind} {rest text behind : List Char}
    (htext : tokenText c rest = (kind, text)) (hline : isLineComment text = true)
    (hsplit : c :: rest = text ++ d :: behind) : d = '\n' := by
  unfold isLineComment at hline
  split at hline
  · next more =>
    obtain rfl : c = '/' := (List.cons.inj hsplit).1
    obtain rfl : rest = '/' :: (more ++ d :: behind) := (List.cons.inj hsplit).2
    obtain ⟨-, htext⟩ := Prod.mk.inj htext
    have hmore : takeLine (more ++ d :: behind) = more :=
      (List.cons.inj (List.cons.inj htext).2).2
    have hall : ∀ b ∈ more, (b != '\n') = true := by
      intro b hb
      rw [← hmore, takeLine] at hb
      exact List.mem_takeWhile_imp (p := (· != '\n')) hb
    rw [takeLine, List.takeWhile_append_of_pos hall] at hmore
    by_contra hd
    rw [List.takeWhile_cons_of_pos (by simpa using hd)] at hmore
    have := congrArg List.length hmore
    simp at this
  · cases hline

/-- A stretch up to a token does not end with a line comment. -/
theorem runsOn_slice (hs : Tidy source) (hlo : Cut source lo) (hhi : Cut source hi) (hle : lo ≤ hi)
    {t : Token} (ht : t ∈ tokens source) (hstart : t.extent.start.offset = hi)
    (hbrace : t.word.is leftBrace = true) : runsOn (slice source lo hi) = false := by
  obtain ⟨p, q, hp, -, -, hcut⟩ := exists_tokensAt_slice hs hlo hhi hle
  by_contra hrun
  have hrun : runsOnAt p (slice source lo hi) = true :=
    (runsOnAt_eq _ _ _).trans ((Bool.not_eq_false _).mp hrun)
  unfold runsOnAt at hrun
  cases hlast : (tokensAt p (slice source lo hi)).getLast? with
  | none =>
    rw [hlast] at hrun
    cases hrun
  | some u =>
    rw [hlast, Option.any_some, Bool.and_eq_true, beq_iff_eq] at hrun
    have hu : u ∈ tokensAt p (slice source lo hi ++ dropBytes hi source) := by
      rw [hcut]
      exact List.mem_append_left _ (List.mem_of_getLast? hlast)
    obtain ⟨before, c, rest, behind, hsplit, htext, hsplit', hustart, hustop⟩ :=
      exists_split_of_mem_tokensAt hu
    -- the text starts with a brace where the comment ends
    obtain ⟨z, hz⟩ : ∃ z, dropBytes hi source = '{' :: z := by
      obtain ⟨before', c', rest', behind', hsource, -, hbrace', hstart', -⟩ :=
        exists_split_of_mem_tokensAt ht
      rw [text_of_leftBrace hbrace] at hbrace'
      refine ⟨rest', ?_⟩
      rw [hsource, (List.cons.inj hbrace').1]
      refine dropBytes_append_eq ?_
      rw [← hstart, hstart']
      exact (Nat.zero_add _).symm
    have hbehind : dropBytes hi source = behind := by
      have hlength : byteLength (before ++ u.text.toList) = byteLength (slice source lo hi) := by
        rw [Text.byteLength_append]
        omega
      rw [hsplit', ← List.append_assoc] at hsplit
      have hdrop : dropBytes (byteLength (slice source lo hi))
          (slice source lo hi ++ dropBytes hi source) = dropBytes hi source := dropBytes_append_eq rfl
      rw [← hdrop, hsplit]
      exact dropBytes_append_eq hlength
    rw [← hbehind, hz] at hsplit'
    exact absurd (eq_newline_of_isLineComment htext hrun.2 hsplit') (by decide)

end Stretches

/-! ### Blocks of the source with new texts -/

/-- A block of the source gets a text whose statements are read. -/
structure Exchange (source : List Char) (e : Edit) : Prop where
  start : Cut source e.range.start
  stop : Cut source e.range.stop
  opening : ∃ t ∈ tokens source, t.extent.start.offset = e.range.start ∧
    t.extent.stop.offset ≤ e.range.stop ∧ t.word.is leftBrace = true ∧ t.isComment = false
  readable : ∃ kind, Readable kind e.text.toList

section Patches

variable {source : List Char} {edits : List Edit} {e : Edit}

theorem Exchange.le (h : Exchange source e) : e.range.start ≤ e.range.stop := by
  obtain ⟨t, ht, hstart, hstop, -⟩ := h.opening
  have := start_lt_stop ht
  omega

/-- The opening brace comes first in its block. -/
theorem Exchange.exists_tokensIn (h : Exchange source e) : ∃ t ts,
    tokensIn source e.range.start e.range.stop = t :: ts ∧ t ∈ tokens source ∧
      t.extent.start.offset = e.range.start ∧ t.word.is leftBrace = true ∧ t.isComment = false := by
  obtain ⟨t, ht, hstart, hstop, hbrace, hcomment⟩ := h.opening
  have hmem : t ∈ tokensIn source e.range.start e.range.stop := mem_tokensIn.2 ⟨ht, hstart.ge, hstop⟩
  have hchained := chained_tokensIn source h.le
  cases htokens : tokensIn source e.range.start e.range.stop with
  | nil =>
    rw [htokens] at hmem
    cases hmem
  | cons u us =>
    rw [htokens] at hmem hchained
    obtain ⟨hlo, hlt, hchained⟩ := hchained
    rcases List.mem_cons.1 hmem with rfl | hmem
    · exact ⟨t, us, rfl, ht, hstart, hbrace, hcomment⟩
    · have := hchained.of_mem hmem
      omega

/-- The words of a text in braces, whatever follows it. -/
theorem words_readable_append {kind : NodeKind} {text : List Char} (h : Readable kind text)
    {z : List Char} (hz : Tidy z) :
    words (text ++ z) = words text ++ words z ∧ Tidy (text ++ z) ∧ Bounded (text ++ z) := by
  obtain ⟨-, before, ss, rfl, hspells, hsound, -⟩ := h
  have hmark : isMark '{' = true ∧ isMark '}' = true := ⟨rfl, rfl⟩
  have hclosed : words (before ++ '}' :: z) = words before ++ words ('}' :: z) :=
    words_append hspells.tidy (bounded_mark hmark.2 z) fun hrun => by
      rw [hspells.closed] at hrun
      cases hrun
  have hsplit : '{' :: (before ++ ['}']) ++ z = '{' :: (before ++ '}' :: z) := by simp
  have hwords : words ('{' :: (before ++ '}' :: z)) =
      words ('{' :: (before ++ ['}'])) ++ words z := by
    rw [words_mark hmark.1, hclosed, words_mark hmark.2, (words_readable hspells).eq, hspells.eq]
    simp
  rw [hsplit]
  refine ⟨hwords, ?_, bounded_mark hmark.1 _⟩
  unfold Tidy
  rw [hwords]
  exact List.forall_mem_append.2 ⟨(words_readable hspells).tidy, hz⟩

variable (hs : Tidy source) (hedits : edits.Pairwise fun e f => e.range.Disjoint f.range)
include hs

/-- A stretch in which nothing gets a new text. -/
theorem words_slice_apart {lo hi : ℕ} (hlo : Cut source lo) (hhi : Cut source hi) (hle : lo ≤ hi)
    (hapart : ∀ e ∈ edits, e.range.stop ≤ lo ∨ hi ≤ e.range.start) :
    words (slice source lo hi) = (tokensIn source lo hi).flatMap (writtenFor edits) := by
  rw [words_slice hs hlo hhi hle, flatMap_writtenFor_apart fun t ht => ?_]
  obtain ⟨ht, hstart, hstop⟩ := mem_tokensIn.1 ht
  refine ⟨start_lt_stop ht, fun e he => ?_⟩
  rcases hapart e he with h | h
  · exact .inl (h.trans hstart)
  · exact .inr (hstop.trans h)

include hedits

/-- **The words of a stretch in which blocks get new texts** are those that are written for its
tokens. -/
theorem words_patch (hexchange : ∀ e ∈ edits, Exchange source e) {lo hi : ℕ} {rest : List Edit}
    (hlo : Cut source lo) (hhi : Cut source hi) (hle : lo ≤ hi) (hrest : ∀ e ∈ rest, e ∈ edits)
    (horder : rest.Pairwise fun e f => e.range.stop ≤ f.range.start)
    (hin : ∀ e ∈ rest, lo ≤ e.range.start ∧ e.range.stop ≤ hi)
    (hothers : ∀ e ∈ edits, e ∈ rest ∨ e.range.stop ≤ lo ∨ hi ≤ e.range.start) :
    words (patch source lo hi rest) = (tokensIn source lo hi).flatMap (writtenFor edits) ∧
      Tidy (patch source lo hi rest) := by
  induction rest generalizing lo with
  | nil =>
    have hapart : ∀ e ∈ edits, e.range.stop ≤ lo ∨ hi ≤ e.range.start :=
      fun e he => (hothers e he).resolve_left List.not_mem_nil
    exact ⟨words_slice_apart hs hlo hhi hle hapart, tidy_slice hs hlo hhi hle⟩
  | cons e rest ih =>
    obtain ⟨he, hrest⟩ := List.forall_mem_cons.1 hrest
    obtain ⟨hbehind, horder⟩ := List.pairwise_cons.1 horder
    obtain ⟨⟨hstart, hstop⟩, hin⟩ := List.forall_mem_cons.1 hin
    have hex := hexchange e he
    have hlt := hex.le
    obtain ⟨kind, hreadable⟩ := hex.readable
    obtain ⟨hlater, htidy⟩ := ih hex.stop hstop hrest horder (fun f hf => ⟨hbehind f hf, (hin f hf).2⟩)
      fun f hf => by
        rcases hothers f hf with h | h | h
        · rcases List.mem_cons.1 h with rfl | h
          · exact .inr (.inl (Nat.le_refl _))
          · exact .inl h
        · exact .inr (.inl (h.trans (hstart.trans hlt)))
        · exact .inr (.inr h)
    obtain ⟨t, ts, htokens, ht, htstart, hbrace, hcomment⟩ := hex.exists_tokensIn
    have hwithin : (tokensIn source e.range.start e.range.stop).flatMap (writtenFor edits) =
        words e.text.toList := by
      have hchained := chained_tokensIn source hlt
      have hall : ∀ v ∈ tokensIn source e.range.start e.range.stop,
          v.extent.stop.offset ≤ e.range.stop := fun v hv => (mem_tokensIn.1 hv).2.2
      rw [htokens] at hchained hall ⊢
      exact flatMap_writtenFor_within hedits he hcomment htstart hchained hall
    -- what stands before the block, which ends with no line comment
    have hbefore : words (slice source lo e.range.start) =
        (tokensIn source lo e.range.start).flatMap (writtenFor edits) := by
      refine words_slice_apart hs hlo hex.start hstart fun f hf => ?_
      rcases hothers f hf with h | h | h
      · rcases List.mem_cons.1 h with rfl | h
        · exact .inr (Nat.le_refl _)
        · exact .inr (hlt.trans (hbehind f h))
      · exact .inl h
      · exact .inr (hlt.trans (hstop.trans h))
    have hclosed := runsOn_slice hs hlo hex.start hstart ht htstart hbrace
    obtain ⟨hwords, htidy', hbounded⟩ := words_readable_append hreadable htidy
    have hsplit : words (patch source lo hi (e :: rest)) = words (slice source lo e.range.start) ++
        words (e.text.toList ++ patch source e.range.stop hi rest) := by
      rw [patch, List.append_assoc]
      exact words_append (tidy_slice hs hlo hex.start hstart) hbounded fun hrun => by
        rw [hclosed] at hrun
        cases hrun
    constructor
    · rw [hsplit, hwords, hbefore, hlater, tokensIn_append hex.start hstart (hlt.trans hstop),
        tokensIn_append hex.stop hlt hstop, List.flatMap_append, List.flatMap_append, hwithin]
    · rw [patch, List.append_assoc] at hsplit ⊢
      exact tidy_append (tidy_slice hs hlo hex.start hstart) htidy' hsplit

end Patches

theorem Exchange.fits {source : List Char} {e : Edit} (h : Exchange source e) :
    e.range.Fits source := by
  obtain ⟨t, ht, hstart, hstop, -⟩ := h.opening
  have := start_lt_stop ht
  exact ⟨by omega, h.stop.le, h.start.1, h.stop.1⟩

/-- **Blocks in a stretch of the source get new texts.** -/
theorem words_splice_slice {source out : List Char} (hs : Tidy source) {edits : List Edit}
    {r : ByteRange}
    (hedits : edits.Pairwise fun e f => e.range.Disjoint f.range)
    (hexchange : ∀ e ∈ edits, Exchange source e) (hin : ∀ e ∈ edits, r.contains e.range = true)
    (hstart : Cut source r.start) (hstop : Cut source r.stop) (hle : r.start ≤ r.stop)
    (h : splice (slice source r.start r.stop) (edits.map fun e => e.relativeTo r.start) = .ok out) :
    words out = (tokensIn source r.start r.stop).flatMap (writtenFor edits) ∧ Tidy out := by
  have hfits : ∀ e ∈ edits, e.range.Fits source := fun e he => (hexchange e he).fits
  have hbounds : ∀ e ∈ edits, r.start ≤ e.range.start ∧ e.range.stop ≤ r.stop :=
    fun e he => ByteRange.contains_iff.1 (hin e he)
  have hpairwise := pairwise_descending (fun e he => (hfits e he).nonempty) hedits
  have horder : InOrder source r.stop (descending edits) :=
    inOrder_of_pairwise (fun e he => hfits e (mem_descending.1 he))
      (fun e he => (hbounds e (mem_descending.1 he)).2) hpairwise
  have hstarts : edits.Pairwise fun e f => e.range.start ≠ f.range.start := by
    refine hedits.imp_of_mem fun {e f} he hf hdisjoint => ?_
    have := (hfits e he).nonempty
    have := (hfits f hf).nonempty
    rcases hdisjoint with h | h <;> omega
  have hshift := descending_relativeTo hstarts fun e he => (hbounds e he).1
  obtain ⟨hslice, hpatch⟩ := patch_slice hstart.1 hstop.1 hle (Nat.le_refl _)
    (fun e he => (hbounds e (mem_descending.1 he)).1) horder
  have hlength := Text.byteLength_slice hle hstart.1 hstop.1
  rw [splice_of_inOrder (by rw [hshift, hlength]; exact hslice), hshift, hlength, hpatch] at h
  obtain rfl := Except.ok.inj h
  exact words_patch hs hedits hexchange hstart hstop hle (fun e he => by simpa using he)
    (List.pairwise_reverse.2 hpairwise) (fun e he => hbounds e (by simpa using he))
    fun e he => .inl (by simpa using he)

end BranchExclusion.Java
