import BranchExclusion.Proofs.Yaml.Plain
import BranchExclusion.Proofs.Yaml.Quoted
import BranchExclusion.Yaml.Token

/-!
# The tokens of one line

A line of a written mapping is a key, a colon, a blank and a value. Three steps read it.

* `Tokenizer.AtLine`, `Tokenizer.AtColon`, `Tokenizer.AtValue`: before the key, the colon and the
  value;
* `Tokenizer.AtLine.step_key`, `Tokenizer.AtColon.step`: the steps over the key and the colon;
* `Tokenizer.Reads`: the characters of a value that the third step reads as one scalar, and
  `reads_plain`, `reads_writeSingle`, `reads_writeDouble`: those of the three styles;
* `Tokenizer.AtLine.step_end`: the step behind the last line.
-/

namespace BranchExclusion.Yaml

namespace Tokenizer

variable {t t' : Tokenizer} {rest more : List Char} {c : Char}

/-! ### Places in a block mapping -/

/-- No block is open, or one mapping in the first column. -/
def Shallow (t : Tokenizer) : Prop :=
  t.indent = -1 ∧ t.outer = [] ∨ t.indent = 0 ∧ t.outer = [-1]

/-- No bracket is open, no block but a mapping in the first column, and no key is possible. -/
structure Outermost (t : Tokenizer) : Prop where
  places : t.places = [none]
  shallow : t.Shallow

/-- The next line starts with `rest`. A plain scalar has ended its line itself. -/
structure AtLine (t : Tokenizer) (rest : List Char) : Prop extends t.Outermost where
  position : (t.cursor.rest = rest ∧ t.cursor.col = 0 ∧ t.keyAllowed = true) ∨
    (t.cursor.rest = '\n' :: rest ∧ t.keyAllowed = false)

/-- At the start of the line `rest`, where a key may start. -/
structure AtStart (t : Tokenizer) (rest : List Char) : Prop extends t.Outermost where
  rest_eq : t.cursor.rest = rest
  col_eq : t.cursor.col = 0
  keyAllowed : t.keyAllowed = true

/-- Behind a colon, before the blank and the value. -/
structure AtValue (t : Tokenizer) (rest : List Char) : Prop extends t.Outermost where
  position : t.cursor.Within (' ' :: rest)
  keyAllowed : t.keyAllowed = false
  indent : t.indent = 0

/-- At the first character of a value. -/
structure AtScalar (t : Tokenizer) (rest : List Char) : Prop extends t.Outermost where
  position : t.cursor.Within rest
  keyAllowed : t.keyAllowed = false
  indent : t.indent = 0

/-- A key starts here, or the text has ended. -/
def StartsKey (rest : List Char) : Prop := ∀ c ∈ rest.head?, isKeyChar c = true

theorem Outermost.inFlow (h : t.Outermost) : t.inFlow = false := by simp [Tokenizer.inFlow, h.places]

/-- Nothing happens to possible keys that are near enough. -/
theorem dropStale_of_fresh (h : ∀ p ∈ t.places, p.any (isStale t.cursor) = false) :
    t.dropStale = .ok t := by
  have hmap : t.places.map (fun p => if p.any (isStale t.cursor) then none else p) = t.places := by
    conv_rhs => rw [← List.map_id t.places]
    exact List.map_congr_left fun p hp => by simp [h p hp]
  rw [dropStale, if_neg, hmap]
  simp only [List.any_eq_true, not_exists, not_and]
  intro p hp
  simp [h p hp]

theorem Outermost.dropStale (h : t.Outermost) : t.dropStale = .ok t :=
  dropStale_of_fresh (by simp [h.places])

theorem Outermost.dropPlace (h : t.Outermost) : t.dropPlace = .ok t := by
  obtain ⟨hplaces, -⟩ := h
  cases t
  cases hplaces
  rfl

/-- No mapping ends before a column of its own line. -/
theorem Shallow.unroll (h : t.Shallow) (hflow : t.inFlow = false) (col : ℕ) :
    t.unroll col = t := by
  rcases h with ⟨hindent, houter⟩ | ⟨hindent, houter⟩
  · simp [Tokenizer.unroll, hflow, houter, unrollFrom]
  · simp [Tokenizer.unroll, hflow, houter, unrollFrom, hindent]

/-! ### White space -/

/-- Nothing that is skipped before a token comes next, line breaks apart. -/
def EndsBlanks (rest : List Char) : Prop :=
  ∀ c ∈ rest.head?, isSpace c = false ∧ c ≠ '#' ∧ c ≠ '\ufeff'

theorem skipBlanks_succ (fuel n : ℕ) (h : t.cursor.rest = List.replicate n ' ' ++ rest)
    (hstop : EndsBlanks rest) : t.skipBlanks (fuel + 1) =
      if rest.head?.any isBreak then
        skipBlanks fuel { t with
          cursor := (t.cursor.skip n).skipBreak, keyAllowed := t.keyAllowed || !t.inFlow }
      else { t with cursor := t.cursor.skip n } := by
  have hmark : t.cursor.sees '\ufeff' = false := by
    rw [Cursor.sees, h, beq_eq_false_iff_ne]
    cases n with
    | zero => exact fun hhead => (hstop _ hhead).2.2 rfl
    | succ n => simp [List.replicate_succ]
  have hskip : (t.cursor.skipWhile fun ch => ch == ' ' || ((t.inFlow || !t.keyAllowed) && ch == '\t'))
      = t.cursor.skip n := by
    have htake : rest.takeWhile (fun ch => ch == ' ' || ((t.inFlow || !t.keyAllowed) && ch == '\t'))
        = [] := by
      cases rest with
      | nil => rfl
      | cons c rest =>
        have hspace := (hstop c rfl).1
        simp only [isSpace, Bool.or_eq_false_iff] at hspace
        simp [hspace]
    rw [Cursor.skipWhile, h, List.takeWhile_append_of_pos (by simp), htake]
    simp
  have hrest : (t.cursor.skip n).rest = rest := by simp [Cursor.skip, h]
  have hhash : (t.cursor.skip n).sees '#' = false := by
    rw [Cursor.sees, hrest, beq_eq_false_iff_ne]
    exact fun hhead => (hstop _ hhead).2.1 rfl
  rw [skipBlanks]
  simp only [hmark, hskip, hhash, hrest, Bool.and_false, Bool.false_eq_true, if_false]
  cases rest with
  | nil => rfl
  | cons c rest => rfl

/-- Only blanks stand before the next token, if there is one. -/
theorem skipBlanks_of_stop (fuel n : ℕ) (h : t.cursor.rest = List.replicate n ' ' ++ rest)
    (hstop : EndsBlanks rest) (hbreak : ∀ c ∈ rest.head?, isBreak c = false) :
    t.skipBlanks (fuel + 1) = { t with cursor := t.cursor.skip n } := by
  rw [skipBlanks_succ fuel n h hstop, if_neg]
  simpa [Option.any_eq_true] using hbreak

theorem StartsKey.endsBlanks (h : StartsKey rest) : EndsBlanks rest := fun c hc =>
  ⟨(visible_of_isKeyChar (h c hc)).1, ne_of_isKeyChar (h c hc) rfl, ne_of_isKeyChar (h c hc) rfl⟩

theorem StartsKey.endsGap (h : StartsKey rest) : EndsGap rest :=
  fun c hc => visible_of_isKeyChar (h c hc)

/-- The white space behind the line before is skipped. -/
theorem AtLine.skipBlanks (h : t.AtLine rest) (hstart : StartsKey rest) :
    ∃ t', t.skipBlanks (t.cursor.rest.length + 1) = t' ∧ t'.AtStart rest ∧ t'.tokens = t.tokens ∧
      t'.indent = t.indent := by
  have hbreak : ∀ c ∈ rest.head?, isBreak c = false := fun c hc => (hstart.endsGap c hc).2
  refine ⟨_, rfl, ?_⟩
  rcases h.position with ⟨hrest, hcol, hallowed⟩ | ⟨hrest, hallowed⟩
  · rw [skipBlanks_of_stop _ 0 hrest hstart.endsBlanks hbreak, Cursor.skip_zero]
    exact ⟨⟨h.toOutermost, hrest, hcol, hallowed⟩, rfl, rfl⟩
  · have htake := takeBreak_lineFeed hrest
    have hbroken : (t.cursor.skip 0).skipBreak.rest = List.replicate 0 ' ' ++ rest := by
      simp [Cursor.skipBreak, htake]
    have hrest' : t.cursor.rest = List.replicate 0 ' ' ++ '\n' :: rest := hrest
    have hends : EndsBlanks ('\n' :: rest) := by
      rintro _ ⟨⟩
      decide
    rw [skipBlanks_succ _ 0 hrest' hends, if_pos (by rfl), hrest, List.length_cons,
      skipBlanks_of_stop _ 0 hbroken hstart.endsBlanks hbreak, Cursor.skip_zero, h.inFlow]
    exact ⟨⟨⟨h.places, h.shallow⟩, hbroken, by simp [Cursor.skipBreak, htake], by simp⟩, rfl, rfl⟩

/-- The blank in front of a value is skipped. -/
theorem AtValue.skipBlanks (h : t.AtValue rest) (hends : EndsBlanks rest)
    (hbreak : ∀ c ∈ rest.head?, isBreak c = false) :
    ∃ t', t.skipBlanks (t.cursor.rest.length + 1) = t' ∧ t'.AtScalar rest ∧
      t'.tokens = t.tokens := by
  have hrest : t.cursor.rest = List.replicate 1 ' ' ++ rest := h.position.rest_eq
  refine ⟨_, skipBlanks_of_stop _ 1 hrest hends hbreak, ?_, rfl⟩
  exact ⟨⟨h.places, h.shallow⟩, Cursor.Within.skip (w := [' ']) h.position, h.keyAllowed, h.indent⟩

/-! ### Steps -/

/-- One more token, behind the white space. -/
theorem step_of_skipBlanks {t₁ : Tokenizer} (hskip : t.skipBlanks (t.cursor.rest.length + 1) = t₁)
    (hstale : t₁.dropStale = .ok t₁) (hunroll : t₁.unroll t₁.cursor.col = t₁)
    (hrest : t₁.cursor.rest = c :: rest) (htoken : t₁.token c rest = .ok t') :
    t.step = .ok (false, t') := by
  simp [step, hskip, hstale, hunroll, hrest, htoken]

theorem run_step {done : Bool} (fuel : ℕ) (h : t.step = .ok (done, t')) :
    run (fuel + 1) t = if done then .ok t'.tokens else run fuel t' := by
  simp [run, h]

/-- The character starts a plain scalar. -/
theorem token_plainScalar (hflow : t.inFlow = false) (hmark : t.cursor.atDocumentMark = false)
    (hwhite : isSpace c = false ∧ isBreak c = false) (hlead : isLeadingIndicator c = false)
    (hspecial : c = '?' ∨ c = ':' ∨ c = '-' → endsWord rest = false) :
    t.token c rest = t.plainScalar := by
  simp only [isLeadingIndicator, List.contains_eq_mem, decide_eq_false_iff_not, String.reduceToList,
    List.mem_cons, List.not_mem_nil, or_false, not_or] at hlead
  have hstarts : startsPlain false (c :: rest) = true := by
    by_cases hs : c = '?' ∨ c = ':' ∨ c = '-'
    · have hword := hspecial hs
      have hspace : rest.head?.any isSpace = false := by
        cases rest with
        | nil => rfl
        | cons d rest =>
          simp only [endsWord, Bool.or_eq_false_iff] at hword
          simpa using hword.1
      rcases hs with rfl | rfl | rfl <;> simp [startsPlain, hword, hspace]
    · simp only [not_or] at hs
      simp [startsPlain, isFlowIndicator, hlead, hs, hwhite]
  have hends : ∀ d, d = '?' ∨ d = ':' ∨ d = '-' → ¬ (c = d ∧ endsWord rest = true) := by
    rintro d hd ⟨rfl, hword⟩
    simp [hspecial hd] at hword
  simp [token, hmark, hflow, hlead, hstarts, hends]

theorem markPlace_of_not (h : t.keyAllowed = false) : t.markPlace = .ok t := by
  simp [markPlace, h]

theorem markPlace_of_allowed (h : t.Outermost) (hallowed : t.keyAllowed = true) :
    ∃ required, t.markPlace = .ok (t.setPlace
      (some ⟨t.tokens.length, required, t.cursor.index, t.cursor.line, t.cursor.col⟩)) := by
  rw [markPlace, if_pos hallowed, h.dropPlace]
  exact ⟨_, rfl⟩

theorem plainScalar_eq {t₁ : Tokenizer} {text : List Char} {behind : Cursor} {broken : Bool}
    (hmark : t.markPlace = .ok t₁) (hflow : t₁.inFlow = false)
    (hread : readPlain false t₁.indent t₁.cursor = .ok ⟨text, behind, broken⟩) :
    t.plainScalar = .ok { t₁.push (.scalar .plain (String.ofList text)) with
      cursor := behind, keyAllowed := broken } := by
  rw [plainScalar, hmark, ok_bind, hflow, hread]
  rfl

/-! ### Values -/

/-- The characters `written` are read as one scalar up to the end of their line. -/
def Reads (written : List Char) (style : ScalarStyle) (text : String) : Prop :=
  ∀ (t : Tokenizer) (more : List Char), t.AtValue (written ++ '\n' :: more) → StartsKey more →
    ∃ t', t.step = .ok (false, t') ∧ t'.AtLine more ∧ t'.indent = 0 ∧
      t'.tokens = t.tokens ++ [.scalar style text]

theorem reads_of_token {written : List Char} {style : ScalarStyle} {text : String}
    (hwritten : written = c :: rest) (hends : EndsBlanks written) (hbreak : isBreak c = false)
    (htoken : ∀ (t : Tokenizer) (more : List Char), t.AtScalar (written ++ '\n' :: more) →
      StartsKey more → ∃ t', t.token c (rest ++ '\n' :: more) = .ok t' ∧ t'.AtLine more ∧
        t'.indent = 0 ∧ t'.tokens = t.tokens ++ [.scalar style text]) :
    Reads written style text := by
  subst hwritten
  intro t more h hmore
  obtain ⟨t₁, hskip, hscalar, htokens⟩ := h.skipBlanks (by rintro _ ⟨⟩; exact hends _ rfl)
    (by rintro _ ⟨⟩; exact hbreak)
  obtain ⟨t', htoken, hline, hindent, htokens'⟩ := htoken t₁ more hscalar hmore
  exact ⟨t', step_of_skipBlanks hskip hscalar.dropStale
    (hscalar.shallow.unroll hscalar.inFlow _) hscalar.position.rest_eq htoken, hline,
    hindent, htokens ▸ htokens'⟩

/-- A scalar in quotes, from what its reader does. -/
theorem reads_quoted {q : Char} {style : ScalarStyle} {written body text : List Char}
    (hq : q = '\'' ∧ style = .singleQuoted ∨ q = '"' ∧ style = .doubleQuoted)
    (hwritten : written = q :: body)
    (hread : ∀ {c : Cursor} {more : List Char}, c.Within (written ++ '\n' :: more) →
      ∃ c', (if style = .singleQuoted then readSingle c else readDouble c) = .ok (text, c') ∧
        c'.Within ('\n' :: more)) : Reads written style (String.ofList text) := by
  have hends : EndsBlanks written := by
    rw [hwritten]
    rintro _ ⟨⟩
    rcases hq with ⟨rfl, -⟩ | ⟨rfl, -⟩ <;> decide
  have hbreak : isBreak q = false := by rcases hq with ⟨rfl, -⟩ | ⟨rfl, -⟩ <;> rfl
  refine reads_of_token hwritten hends hbreak fun t more h _ => ?_
  have hmark := h.position.not_atDocumentMark
  have hplace := markPlace_of_not h.keyAllowed
  obtain ⟨c', hscalar, hc'⟩ := hread h.position
  have htoken : t.token q (body ++ '\n' :: more) = .ok { t.push (.scalar style (String.ofList text))
      with cursor := c', keyAllowed := false } := by
    rcases hq with ⟨rfl, rfl⟩ | ⟨rfl, rfl⟩
    · rw [if_pos rfl] at hscalar
      simp [token, hmark, quotedScalar, hplace, hscalar, push]
    · rw [if_neg (by decide)] at hscalar
      simp [token, hmark, quotedScalar, hplace, hscalar, push]
  exact ⟨_, htoken, ⟨⟨h.places, h.shallow⟩, .inr ⟨hc'.rest_eq, rfl⟩⟩, h.indent, rfl⟩

theorem reads_writeSingle {cs : List Char} (h : allowsSingle cs = true) (hn : '\n' ∉ cs) :
    Reads (writeSingle cs) .singleQuoted (String.ofList cs) :=
  reads_quoted (.inl ⟨rfl, rfl⟩) rfl (readSingle_writeSingle h hn)

theorem reads_writeDouble (cs : List Char) :
    Reads (writeDouble cs) .doubleQuoted (String.ofList cs) :=
  reads_quoted (.inr ⟨rfl, rfl⟩) rfl readDouble_writeDouble

theorem reads_plain {cs : List Char} (hallows : allowsPlain cs = true) (hne : cs ≠ []) :
    Reads cs .plain (String.ofList cs) := by
  obtain ⟨d, cs, rfl⟩ := List.exists_cons_of_ne_nil hne
  have hplain := plainRest_of_allowsPlain hallows hne
  obtain ⟨hshown, hbreak⟩ := hplain.shown d List.mem_cons_self
  have hspace := isSpace_of_isShown hshown fun heq => hplain.head (congrArg some heq)
  have hmark : d ≠ '\ufeff' := by
    rintro rfl
    cases hshown
  have hhash : d ≠ '#' := fun heq => hplain.head_ne_hash (congrArg some heq)
  obtain ⟨hlead, hspecial⟩ : isLeadingIndicator d = false ∧
      (d = '?' ∨ d = ':' ∨ d = '-' → endsBefore cs = false) := by
    simp only [allowsPlain, Bool.not_eq_true', Bool.or_eq_false_iff, startsBadly] at hallows
    obtain ⟨⟨⟨⟨⟨-, hlead, hspecial⟩, -⟩, -⟩, -⟩, -⟩ := hallows
    refine ⟨hlead, ?_⟩
    rintro (rfl | rfl | rfl) <;> simpa using hspecial
  refine reads_of_token rfl (by rintro _ ⟨⟩; exact ⟨hspace, hhash, hmark⟩) hbreak
    fun t more h hmore => ?_
  obtain ⟨c', hread, hrest, hcol⟩ := readPlain_value hallows hne h.position hmore.endsGap
  have htoken := (token_plainScalar h.inFlow h.position.not_atDocumentMark ⟨hspace, hbreak⟩ hlead
    fun hd => endsWord_append ('\n' :: more) (hspecial hd)).trans
      (plainScalar_eq (markPlace_of_not h.keyAllowed) h.inFlow (h.indent ▸ hread))
  exact ⟨_, htoken, ⟨⟨h.places, h.shallow⟩, .inl ⟨hrest, hcol, rfl⟩⟩, h.indent, rfl⟩

/-! ### Keys -/

/-- Behind a key that starts a line, before its colon. -/
structure AtColon (t : Tokenizer) (before : List Token) (key : String) (rest : List Char) : Prop where
  position : t.cursor.Within (':' :: ' ' :: rest)
  tokens : t.tokens = before ++ [.scalar .plain key]
  shallow : t.Shallow
  place : ∃ p : KeyPlace, t.places = [some p] ∧ p.token = before.length ∧ p.col = 0 ∧
    p.line = t.cursor.line ∧ t.cursor.index ≤ p.index + 1024

theorem isLeadingIndicator_of_isKeyChar (h : isKeyChar c = true) : isLeadingIndicator c = false := by
  simp only [isLeadingIndicator, List.contains_eq_mem, decide_eq_false_iff_not, String.reduceToList]
  intro hmem
  fin_cases hmem <;> cases h

/-- The key of the next line. -/
theorem AtLine.step_key {key : List Char} (h : t.AtLine (key ++ ':' :: ' ' :: rest))
    (hkey : ∀ c ∈ key, isKeyChar c = true) (hne : key ≠ []) (hlength : key.length ≤ 1024) :
    ∃ t', t.step = .ok (false, t') ∧ t'.AtColon t.tokens (String.ofList key) rest ∧
      t'.indent = t.indent := by
  obtain ⟨d, key, rfl⟩ := List.exists_cons_of_ne_nil hne
  have hd := hkey d List.mem_cons_self
  obtain ⟨t₁, hskip, hstart, htokens, hindent⟩ := h.skipBlanks (by rintro _ ⟨⟩; exact hd)
  obtain ⟨required, hmark⟩ := markPlace_of_allowed hstart.toOutermost hstart.keyAllowed
  have hspecial : d = '?' ∨ d = ':' ∨ d = '-' →
      endsWord (key ++ ':' :: ' ' :: rest) = false := by
    rintro (rfl | rfl | rfl) <;> cases hd
  have htoken := (token_plainScalar hstart.inFlow
    (not_atDocumentMark_of_isKeyChar hstart.rest_eq hd) (visible_of_isKeyChar hd)
    (isLeadingIndicator_of_isKeyChar hd) hspecial).trans
      (plainScalar_eq hmark (by simp [inFlow, setPlace, hstart.places])
        (readPlain_key _ hkey hne hstart.rest_eq))
  refine ⟨_, step_of_skipBlanks hskip hstart.dropStale
    (hstart.shallow.unroll hstart.inFlow _) hstart.rest_eq htoken,
    ⟨⟨?_, ?_⟩, ?_, hstart.shallow,
      ⟨⟨t₁.tokens.length, required, t₁.cursor.index, t₁.cursor.line, t₁.cursor.col⟩, ?_,
        congrArg List.length htokens, hstart.col_eq, rfl, ?_⟩⟩, hindent⟩
  · simp [Cursor.skip, setPlace, hstart.rest_eq]
  · simp [Cursor.skip, setPlace]
  · simp [setPlace, push, htokens]
  · simp [setPlace, push, hstart.places]
  · simpa [Cursor.skip, setPlace, push] using hlength

/-- The colon behind a key. The first one opens the mapping. -/
theorem AtColon.step {before : List Token} {key : String} (h : t.AtColon before key rest) :
    ∃ t', t.step = .ok (false, t') ∧ t'.AtValue rest ∧
      t'.tokens = before ++ ((if t.indent < 0 then [.blockMapping] else []) ++
        [.key, .scalar .plain key, .value]) := by
  obtain ⟨p, hplaces, htoken, hcol, hline, hindex⟩ := h.place
  have hflow : t.inFlow = false := by simp [inFlow, hplaces]
  have hskip : t.skipBlanks (t.cursor.rest.length + 1) = t := by
    have hends : EndsBlanks (':' :: ' ' :: rest) := by
      rintro _ ⟨⟩
      decide
    have hrest : t.cursor.rest = List.replicate 0 ' ' ++ ':' :: ' ' :: rest := h.position.rest_eq
    rw [skipBlanks_of_stop _ 0 hrest hends (by rintro _ ⟨⟩; rfl), Cursor.skip_zero]
  have hstale : t.dropStale = .ok t := by
    have hfresh : isStale t.cursor p = false := by
      simp only [isStale, hline, Bool.or_eq_false_iff, decide_eq_false_iff_not]
      omega
    exact dropStale_of_fresh (by simp [hplaces, hfresh])
  have hcolon : t.token ':' (' ' :: rest) = .ok (((((t.insert p.token .key).roll p.col p.token
      .blockMapping).setPlace none).emit .value 1 false)) := by
    simp [token, h.position.not_atDocumentMark, hflow, endsWord, isSpace, colon, hplaces]
  refine ⟨_, step_of_skipBlanks hskip hstale (h.shallow.unroll hflow _)
    h.position.rest_eq hcolon, ?_⟩
  have hposition : (t.cursor.skip 1).Within (' ' :: rest) :=
    Cursor.Within.skip (w := [':']) h.position
  -- the mapping is opened in the first column, or it is open already
  rcases h.shallow with ⟨hindent, houter⟩ | ⟨hindent, houter⟩
  all_goals
    refine ⟨⟨⟨?_, ?_⟩, ?_, ?_, ?_⟩, ?_⟩
    all_goals simp [roll, insert, emit, push, setPlace, inFlow, Shallow, hplaces, hindent, houter,
      hcol, htoken, h.tokens, hposition]

/-- At the end of the text the mapping ends. -/
theorem AtLine.step_end (h : t.AtLine []) (hindent : t.indent = 0) :
    ∃ t', t.step = .ok (true, t') ∧ t'.tokens = t.tokens ++ [.blockEnd] := by
  obtain ⟨t₁, hskip, hstart, htokens, hindent₁⟩ := h.skipBlanks (by rintro _ ⟨⟩)
  have houter : t₁.outer = [-1] := by
    rcases hstart.shallow with ⟨hopen, -⟩ | ⟨-, houter⟩
    · rw [hindent₁, hindent] at hopen
      cases hopen
    · exact houter
  have hroll : t₁.unroll (-1) = { t₁.push .blockEnd with indent := -1, outer := [] } := by
    simp [unroll, hstart.inFlow, houter, unrollFrom, hindent₁, hindent]
  have hclosed : Outermost { t₁.push .blockEnd with indent := -1, outer := [] } :=
    ⟨hstart.places, .inl ⟨rfl, rfl⟩⟩
  have hclose : t₁.closeAll = .ok { t₁.push .blockEnd with
      indent := -1, outer := [], keyAllowed := false } := by
    rw [closeAll, hroll, hclosed.dropPlace]
    rfl
  refine ⟨{ t₁.push .blockEnd with indent := -1, outer := [], keyAllowed := false }, ?_, ?_⟩
  · rw [Tokenizer.step, hskip, hstart.dropStale, ok_bind,
      hstart.shallow.unroll hstart.inFlow]
    simp [hstart.rest_eq, hclose]
  · simp [push, htokens]

end Tokenizer

end BranchExclusion.Yaml
