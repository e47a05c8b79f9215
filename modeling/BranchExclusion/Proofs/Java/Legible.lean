import BranchExclusion.Proofs.Java.Rows
import BranchExclusion.Proofs.Java.Statements
import BranchExclusion.Proofs.Layout.Growth

/-!
# Laid out bodies are read

Of a body whose statements can be read one by one, the layout can be read as a whole.

* `Spelled`: lines with these words, which any other text may follow;
* `Legible`: a statement that is read, whatever the statements of its blocks are;
* `spelled_statement`, `LegibleBody.spelled_page`: the lines of a statement and of a body;
* `readable_renderBody`: the text of a body.
-/

namespace BranchExclusion.Java

open Layout (Indent Line Page Piece Printer RenderError exprText reindent renderBody unlines)

/-! ### The words of lines -/

section Spelled

variable {p q : Page} {ws vs : List Word} {text : Line} {printer : Printer} {depth : ℕ}

/-- The lines have these words, and any other text may follow them. -/
def Spelled (q : Page) (ws : List Word) : Prop := Leads (unlines q.lines) ws

theorem spelled_empty : Spelled Page.empty [] := leads_nil

theorem Spelled.append (h : Spelled p ws) (h' : Spelled q vs) : Spelled (p ++ q) (ws ++ vs) := by
  unfold Spelled
  rw [Page.lines_append, unlines_append]
  exact Leads.append h h'

theorem spelled_row (hi : Indent (printer.indent depth)) (h : Spells text ws) :
    Spelled (printer.row depth text) ws := by
  have hlines : unlines (printer.row depth text).lines =
      printer.indent depth ++ (text ++ ['\n']) := by
    simp [Printer.row, Page.line, unlines]
  unfold Spelled
  rw [hlines]
  exact (leads_indent hi).append h.leads_line

theorem spelled_brace (hi : Indent (printer.indent depth)) :
    Spelled (printer.row depth ['}']) [symbolWord '}'] := spelled_row hi (leads_mark rfl).spells

end Spelled

/-! ### The rows of a layout -/

section Rows

variable {text header : List Char} {ws cs : List Word}

/-- The word of a keyword. -/
def keyword (text : String) : Word := ⟨.word, text⟩

theorem leads_keyword (text : String) (h : Named text.toList) :
    Leads (text.toList ++ [' ']) [keyword text] := by
  have hspells := h.spells.leads_blank
  rwa [String.ofList_toList] at hspells

theorem named_of_all {c : Char} {rest : List Char}
    (h : (startsWord c && rest.all inWord) = true) : Named (c :: rest) := by
  rw [Bool.and_eq_true, List.all_eq_true] at h
  exact ⟨c, rest, rfl, h.1, h.2⟩

theorem isWord_keyword {text : String} (h : Word.opens (keyword text) = false)
    (h' : Word.closes (keyword text) = false) : IsWord text (keyword text) :=
  ⟨beq_self_eq_true _, .word h h' rfl .nil⟩

/-- A header and the brace behind it. -/
theorem leads_opened (h : Spells header ws) :
    Leads (header ++ [' ', '{']) (ws ++ [symbolWord '{']) := by
  have hopened := h.leads_blank.append (leads_mark (c := '{') rfl)
  rwa [List.append_assoc] at hopened

/-- A closing brace and what follows it. -/
theorem leads_closed : Leads ['}', ' '] [symbolWord '}'] :=
  (leads_mark (c := '}') rfl).append leads_blank

theorem leads_else : Leads (['}'] ++ " else ".toList) [symbolWord '}', keyword "else"] :=
  leads_closed.append (leads_keyword "else" (named_of_all rfl))

theorem leads_finally : Leads (['}'] ++ " finally ".toList ++ ['{'])
    [symbolWord '}', keyword "finally", symbolWord '{'] := by
  have hkeyword := leads_keyword "finally" (named_of_all rfl)
  exact leads_closed.append (hkeyword.append (leads_mark (c := '{') rfl))

theorem leads_if (h : Spells text cs) : Leads ("if (".toList ++ text ++ [')', ' ', '{'])
    (keyword "if" :: symbolWord '(' :: (cs ++ [symbolWord ')', symbolWord '{'])) := by
  have hkeyword := leads_keyword "if" (named_of_all rfl)
  have hopening := hkeyword.append (leads_mark (c := '(') rfl)
  have hclosing := (h.leads_mark (c := ')') rfl).append
    (leads_blank.append (leads_mark (c := '{') rfl))
  have hrow := hopening.append hclosing
  simp only [List.append_assoc, List.nil_append, List.cons_append] at hrow ⊢
  exact hrow

end Rows

/-! ### Statements that are read -/

/-- The text has the words of a statement. -/
def IsStatementText (text : List Char) : Prop :=
  Tidy text ∧ ∃ ss, words text = wordsIn ss ∧ IsStatement ss

/-- A condition that is read in parentheses. -/
def LegibleCondition (e : Expr) : Prop :=
  ∃ cs, Spells (exprText e) (wordsIn cs) ∧ Sound cs ∧ Reads [.phrase .contents] cs []

/-- A loop or `synchronized` that is read with every block. -/
def LegibleCompound (c : Compound) : Prop :=
  ∃ hs ts, Spells c.header.toList (wordsIn hs) ∧ Tidy (c.trailer.getD "").toList ∧
    words (c.trailer.getD "").toList = wordsIn ts ∧
      ∀ ss, Statements ss → IsStatement (hs ++ blockShape ss :: ts)

/-- A `try` that is read with every block and with all its handlers. -/
def LegibleTry (t : TryStatement) : Prop :=
  (∀ c ∈ t.catches, ∃ w s, Spells c.header.toList (wordsIn [.word w, s]) ∧ IsWord "catch" w ∧
    Parenthesized s) ∧
  ∃ hs, Spells t.header.toList (wordsIn hs) ∧ ∀ ss handlers, Statements ss → Handlers handlers →
    (handlers = [] → t.catches = [] ∧ t.finallyBlock = none) →
      IsStatement (hs ++ blockShape ss :: handlers)

/-- The statement is read, whatever the statements of its blocks are. Nested bodies have their new
texts. -/
def Legible (p : Printer) : Statement → Prop
  | .conditional c => LegibleCondition c.condition
  | .block _ => True
  | .exit _ v | .other v =>
    ∀ text, splice v.text.toList (p.inside v.range) = .ok text → IsStatementText text
  | .compound c => LegibleCompound c
  | .tryStatement t => LegibleTry t
  | .labeled label body _ => Named label.toList ∧ IsLabel (keyword label) ∧ body.isComment = false ∧
    Legible p body
  | .comment text _ => words text.toList = []
  | .declaration type name value => ∃ ss, IsStatement ss ∧ Spells (type.toList ++ [' '] ++
    name.toList ++ ((value.map fun e => " = ".toList ++ exprText e).getD []) ++ [';']) (wordsIn ss)
  | .assignment target value => ∃ ss, IsStatement ss ∧
    Spells (target.toList ++ " = ".toList ++ exprText value ++ [';']) (wordsIn ss)
  | .assertion condition => ∃ ss, IsStatement ss ∧
    Spells ("assert ".toList ++ exprText condition ++ [';']) (wordsIn ss)

theorem legible_of_unlabeled {p : Printer} {s : Statement} {c : Conditional} (h : Legible p s)
    (hc : s.unlabeled = .conditional c) : LegibleCondition c.condition := by
  induction s with
  | conditional d =>
    cases hc
    exact h
  | labeled label body span ih => exact ih h.2.2.2 hc
  | _ => cases hc

/-! ### Statements -/

section Statement

variable {p : Printer} {block : BlockId → ℕ → Except RenderError Page}
  {conditional : Conditional → ℕ → Line → Except RenderError Page} {depth : ℕ} {l : List Piece}
  {x : Piece} {q : Page}

theorem exists_of_flow_cons (h : p.flow block conditional depth (x :: l) = .ok q) :
    ∃ a b, p.piece block conditional depth x = .ok a ∧ p.flow block conditional depth l = .ok b ∧
      q = a ++ b := by
  rw [Printer.flow_cons] at h
  obtain ⟨a, ha, h⟩ := bind_eq_ok.1 h
  obtain ⟨b, hb, h⟩ := bind_eq_ok.1 h
  exact ⟨a, b, ha, hb, (Except.ok.inj h).symm⟩

/-- The lines of a block are those of its statements. -/
def SpelledBlock (block : BlockId → ℕ → Except RenderError Page) (id : BlockId) : Prop :=
  ∀ depth q, block id depth = .ok q → ∃ ss, Statements ss ∧ Spelled q (wordsIn ss)

/-- A block behind a row, and what follows it. -/
theorem exists_of_flow_block {text : Line} {id : BlockId} {ws : List Word}
    (hi : ∀ depth, Indent (p.indent depth)) (htext : Spells text ws) (hblock : SpelledBlock block id)
    (h : p.flow block conditional depth (.row text :: .block id :: l) = .ok q) :
    ∃ ss top rest, Statements ss ∧ p.flow block conditional depth l = .ok rest ∧ q = top ++ rest ∧
      Spelled top (ws ++ wordsIn ss) := by
  obtain ⟨top, behind, htop, hbehind, rfl⟩ := exists_of_flow_cons h
  cases htop
  obtain ⟨inner, rest, hinner, hrest, rfl⟩ := exists_of_flow_cons hbehind
  obtain ⟨ss, hss, hinner⟩ := hblock _ _ hinner
  exact ⟨ss, _, rest, hss, hrest, (Page.append_assoc ..).symm, (spelled_row (hi _) htext).append hinner⟩

/-- The handlers of a `try`, behind the brace that closes what is before them. -/
theorem spelled_handlers (hi : ∀ depth, Indent (p.indent depth)) {catches : List CatchClause}
    {final : Option BlockId}
    (hcatches : ∀ c ∈ catches, ∃ w s, Spells c.header.toList (wordsIn [.word w, s]) ∧
      IsWord "catch" w ∧ Parenthesized s)
    (hblocks : ∀ id ∈ catches.map CatchClause.body ++ final.toList, SpelledBlock block id)
    (h : p.flow block conditional depth ((catches.flatMap fun c =>
        [.row (['}', ' '] ++ c.header.toList ++ [' ', '{']), .block c.body]) ++
      (final.toList.flatMap fun id => [.row (['}'] ++ " finally ".toList ++ ['{']), .block id]) ++
      [.row ['}']]) = .ok q) :
    ∃ handlers, Handlers handlers ∧ (handlers = [] → catches = [] ∧ final = none) ∧
      Spelled q (symbolWord '}' :: wordsIn handlers) := by
  induction catches generalizing q with
  | nil =>
    cases final with
    | none =>
      rw [Option.toList_none, List.flatMap_nil, List.flatMap_nil, List.nil_append, List.nil_append,
        Printer.flow_singleton] at h
      cases h
      exact ⟨[], .nil, fun _ => ⟨rfl, rfl⟩, spelled_brace (hi _)⟩
    | some id =>
      rw [Option.toList_some, List.flatMap_singleton, List.flatMap_nil, List.nil_append] at h
      obtain ⟨ss, top, rest, hss, hrest, rfl, htop⟩ :=
        exists_of_flow_block hi leads_finally.spells (hblocks id (by simp)) h
      have hrest : p.flow block conditional depth [.row ['}']] = .ok rest := hrest
      rw [Printer.flow_singleton] at hrest
      cases hrest
      have hword : IsWord "finally" (keyword "finally") := isWord_keyword (by decide) (by decide)
      refine ⟨_, .final hword hss, fun h => (List.cons_ne_nil _ _ h).elim, ?_⟩
      have hspelled := htop.append (spelled_brace (hi depth))
      simpa [blockShape] using hspelled
  | cons c catches ih =>
    obtain ⟨⟨w, s, hheader, hw, hs⟩, hcatches⟩ := List.forall_mem_cons.1 hcatches
    rw [List.map_cons, List.cons_append] at hblocks
    obtain ⟨hbody, hblocks⟩ := List.forall_mem_cons.1 hblocks
    rw [List.flatMap_cons, List.append_assoc, List.append_assoc] at h
    have hrow := leads_closed.append (leads_opened hheader)
    rw [← List.append_assoc] at hrow
    obtain ⟨ss, top, rest, hss, hrest, rfl, htop⟩ := exists_of_flow_block hi hrow.spells hbody h
    rw [List.append_assoc] at ih
    obtain ⟨handlers, hhandlers, -, hspelled⟩ := ih hcatches hblocks hrest
    refine ⟨_, .clause hw hs hss hhandlers, fun h => (List.cons_ne_nil _ _ h).elim, ?_⟩
    have hspelled := htop.append hspelled
    simpa [blockShape] using hspelled

/-- The lines of a conditional are read behind whatever leads them. -/
def SpelledConditional (conditional : Conditional → ℕ → Line → Except RenderError Page)
    (c : Conditional) : Prop :=
  ∀ depth lead ws q, Leads lead ws → conditional c depth lead = .ok q →
    ∃ ss, IsStatement ss ∧ Spelled q (ws ++ wordsIn ss)

theorem spelled_verbatim (hi : ∀ depth, Indent (p.indent depth)) {v : Verbatim} {lead : Line}
    {ws : List Word} (hlead : Leads lead ws)
    (hv : ∀ text, splice v.text.toList (p.inside v.range) = .ok text → IsStatementText text)
    (h : p.verbatim v depth lead = .ok q) : ∃ ss, IsStatement ss ∧ Spelled q (ws ++ wordsIn ss) := by
  obtain ⟨text, htext, h⟩ := bind_eq_ok.1 h
  cases h
  obtain ⟨htidy, ss, hwords, hss⟩ := hv text (mapError_eq_ok.1 htext)
  refine ⟨ss, hss, ?_⟩
  rw [← hwords]
  exact leads_reindent (hi depth) hlead _ htidy

theorem spelled_text (hi : ∀ depth, Indent (p.indent depth)) {row text : List Char} {lead : Line}
    {ws : List Word} (hlead : Leads lead ws) (htext : ∃ ss, IsStatement ss ∧ Spells text (wordsIn ss))
    (hrow : row = lead ++ text) (h : p.flow block conditional depth [.row row] = .ok q) :
    ∃ ss, IsStatement ss ∧ Spelled q (ws ++ wordsIn ss) := by
  obtain ⟨ss, hss, hspells⟩ := htext
  subst hrow
  rw [Printer.flow_singleton] at h
  cases h
  exact ⟨ss, hss, spelled_row (hi depth) (hlead _ _ hspells)⟩

/-- How a loop or `synchronized` ends. -/
theorem spelled_closing (hi : ∀ depth, Indent (p.indent depth)) {c : Compound} {ws : List Word}
    (htidy : Tidy (c.trailer.getD "").toList) (hwords : words (c.trailer.getD "").toList = ws)
    (h : p.piece block conditional depth (.closing c) = .ok q) : Spelled q (symbolWord '}' :: ws) := by
  unfold Piece.closing at h
  subst hwords
  cases ho : c.trailer with
  | some text =>
    rw [ho] at h htidy
    cases h
    have hrow := (leads_indent (hi depth)).append (leads_closed.append (leads_line htidy))
    simpa [Spelled, Printer.row, Page.line, unlines] using hrow
  | none =>
    rw [ho] at h
    dsimp only at h
    split at h
    · cases h
    · cases h
      exact spelled_brace (hi depth)

variable {lead : Line} {ws : List Word}

theorem spelled_block (hi : ∀ depth, Indent (p.indent depth)) {id : BlockId}
    (hblock : SpelledBlock block id) (hlead : Leads lead ws)
    (h : p.flow block conditional depth (Statement.pieces (.block id) lead) = .ok q) :
    ∃ ss, IsStatement ss ∧ Spelled q (ws ++ wordsIn ss) := by
  have hopened := (hlead.append (leads_mark (c := '{') rfl)).spells
  obtain ⟨ss, top, rest, hss, hrest, rfl, htop⟩ := exists_of_flow_block hi hopened hblock h
  rw [Printer.flow_singleton] at hrest
  cases hrest
  refine ⟨_, hss.isStatement_block, ?_⟩
  have hspelled := htop.append (spelled_brace (hi depth))
  simpa [blockShape] using hspelled

theorem spelled_compound (hi : ∀ depth, Indent (p.indent depth)) {c : Compound}
    (hc : LegibleCompound c) (hblock : SpelledBlock block c.body) (hlead : Leads lead ws)
    (h : p.flow block conditional depth (Statement.pieces (.compound c) lead) = .ok q) :
    ∃ ss, IsStatement ss ∧ Spelled q (ws ++ wordsIn ss) := by
  obtain ⟨header, trailer, hheader, htidy, htrailer, hread⟩ := hc
  have hopened := (hlead.append (leads_opened hheader)).spells
  rw [← List.append_assoc] at hopened
  obtain ⟨ss, top, rest, hss, hrest, rfl, htop⟩ := exists_of_flow_block hi hopened hblock h
  rw [Printer.flow_singleton] at hrest
  refine ⟨_, hread ss hss, ?_⟩
  have hspelled := htop.append (spelled_closing hi htidy htrailer hrest)
  simpa [blockShape] using hspelled

theorem spelled_tryStatement (hi : ∀ depth, Indent (p.indent depth)) {t : TryStatement}
    (ht : LegibleTry t) (hblocks : ∀ id ∈ t.blocks, SpelledBlock block id) (hlead : Leads lead ws)
    (h : p.flow block conditional depth (Statement.pieces (.tryStatement t) lead) = .ok q) :
    ∃ ss, IsStatement ss ∧ Spelled q (ws ++ wordsIn ss) := by
  obtain ⟨hcatches, header, hheader, hread⟩ := ht
  have hopened := (hlead.append (leads_opened hheader)).spells
  rw [← List.append_assoc] at hopened
  obtain ⟨hbody, hblocks⟩ := List.forall_mem_cons.1 hblocks
  obtain ⟨ss, top, rest, hss, hrest, rfl, htop⟩ := exists_of_flow_block hi hopened hbody h
  obtain ⟨handlers, hhandlers, hne, hspelled⟩ := spelled_handlers hi hcatches hblocks hrest
  refine ⟨_, hread ss handlers hss hhandlers hne, ?_⟩
  have hspelled := htop.append hspelled
  simpa [blockShape] using hspelled

/-- A comment shows no words of its own. -/
theorem spelled_comment (hi : ∀ depth, Indent (p.indent depth)) {text : String} {span : Span}
    (hs : words text.toList = []) (hlead : Leads lead ws)
    (h : p.flow block conditional depth (Statement.pieces (.comment text span) lead) = .ok q) :
    Spelled q ws := by
  rw [Statement.pieces, Printer.flow_singleton] at h
  cases h
  have htidy : Tidy text.toList := by
    unfold Tidy
    rw [hs]
    exact List.forall_mem_nil _
  have hlines := leads_reindent (hi depth) hlead span.startCol htidy
  rwa [hs, List.append_nil] at hlines

theorem of_isStatement {s : Statement} (hs : s.isComment = false)
    (h : ∃ ss, IsStatement ss ∧ Spelled q (ws ++ wordsIn ss)) :
    ∃ ss, Spelled q (ws ++ wordsIn ss) ∧ if s.isComment then ss = [] else IsStatement ss := by
  obtain ⟨ss, hss, hspelled⟩ := h
  exact ⟨ss, hspelled, by rwa [hs]⟩

/-- **The lines of a statement are read**, when those of its blocks are, and behind labels. A comment
shows no words. -/
theorem spelled_statement (hi : ∀ depth, Indent (p.indent depth)) {s : Statement} (hs : Legible p s)
    (hblocks : ∀ id ∈ s.childBlocks, SpelledBlock block id)
    (hcond : ∀ c, s.unlabeled = .conditional c → SpelledConditional conditional c)
    (hlead : Leads lead ws) (h : p.statement block conditional s depth lead = .ok q) :
    ∃ ss, Spelled q (ws ++ wordsIn ss) ∧ if s.isComment then ss = [] else IsStatement ss := by
  rw [Printer.statement_eq_flow] at h
  induction s generalizing lead ws with
  | conditional c =>
    rw [Statement.pieces, Printer.flow_singleton] at h
    exact of_isStatement rfl (hcond c rfl _ _ _ _ hlead h)
  | block id =>
    exact of_isStatement rfl (spelled_block hi (hblocks id (List.mem_singleton_self id)) hlead h)
  | exit kind v | other v =>
    rw [Statement.pieces, Printer.flow_singleton] at h
    exact of_isStatement rfl (spelled_verbatim hi hlead hs h)
  | compound c =>
    exact of_isStatement rfl
      (spelled_compound hi hs (hblocks c.body (List.mem_singleton_self _)) hlead h)
  | tryStatement t => exact of_isStatement rfl (spelled_tryStatement hi hs hblocks hlead h)
  | labeled label body span ih =>
    obtain ⟨hnamed, hlabel, hcomment, hbody⟩ := hs
    have hlead' := hlead.append hnamed.leads_label
    rw [← List.append_assoc, String.ofList_toList] at hlead'
    obtain ⟨ss, hspelled, hss⟩ := ih hbody hblocks hcond hlead' h
    rw [hcomment] at hss
    have hcolon : IsWord ":" ⟨.symbol, ":"⟩ := ⟨rfl, .word rfl rfl rfl .nil⟩
    refine of_isStatement rfl ⟨_, isStatement_labeled hlabel hcolon hss, ?_⟩
    simpa [keyword] using hspelled
  | comment text span =>
    have hspelled := spelled_comment hi hs hlead h
    exact ⟨[], by rwa [wordsIn_nil, List.append_nil], rfl⟩
  | declaration type name value =>
    exact of_isStatement rfl (spelled_text hi hlead hs (by cases value <;> simp) h)
  | assignment target value => exact of_isStatement rfl (spelled_text hi hlead hs (by simp) h)
  | assertion condition => exact of_isStatement rfl (spelled_text hi hlead hs (by simp) h)

end Statement

/-! ### Blocks -/

/-- The statements of a block one behind the other. -/
theorem spelled_pages {p : Printer} {block : BlockId → ℕ → Except RenderError Page}
    {conditional : Conditional → ℕ → Line → Except RenderError Page} {depth : ℕ}
    {l : List Statement} {pages : List Page} (hi : ∀ depth, Indent (p.indent depth))
    (hl : ∀ s ∈ l, Legible p s ∧ (∀ id ∈ s.childBlocks, SpelledBlock block id) ∧
      ∀ c, s.unlabeled = .conditional c → SpelledConditional conditional c)
    (h : List.Forall₂ (fun s q => p.statement block conditional s depth [] = .ok q) l pages) :
    ∃ ss, Statements ss ∧ Spelled (Printer.concat pages) (wordsIn ss) ∧
      ((∀ s ∈ l, s.isComment = true) → ss = []) := by
  induction h with
  | nil => exact ⟨[], .nil, spelled_empty, fun _ => rfl⟩
  | @cons s q l pages hq _ ih =>
    obtain ⟨⟨hs, hblocks, hcond⟩, hl⟩ := List.forall_mem_cons.1 hl
    obtain ⟨rest, hrest, hpages, hcomments⟩ := ih hl
    obtain ⟨ss, hspelled, hss⟩ := spelled_statement hi hs hblocks hcond leads_nil hq
    rw [Printer.concat_cons]
    cases hcomment : s.isComment with
    | true =>
      rw [hcomment] at hss
      have hss : ss = [] := hss
      subst hss
      exact ⟨rest, hrest, hspelled.append hpages, fun h => hcomments (List.forall_mem_cons.1 h).2⟩
    | false =>
      rw [hcomment] at hss
      refine ⟨ss ++ rest, .cons hss hrest, ?_, fun h => ?_⟩
      · rw [wordsIn_append]
        exact hspelled.append hpages
      · have hs := h s List.mem_cons_self
        rw [hcomment] at hs
        cases hs

/-- The text has the words of a call of another constructor. -/
def IsCallText (text : List Char) : Prop :=
  Tidy text ∧ ∃ ss, words text = wordsIn ss ∧ IsCall ss

/-- The statements of the block are read in a body of that kind, where those of a constructor can stand
behind a call of another one. -/
def LegibleRoot (kind : NodeKind) (p : Printer) (b : Block) : Prop :=
  (∀ s ∈ b.statements, Legible p s) ∨ kind = .constructorBody ∧ b.prologue = true ∧
    ∃ comments v rest, b.statements = comments ++ .other v :: rest ∧
      (∀ s ∈ comments, s.isComment = true ∧ Legible p s) ∧
      (∀ text, splice v.text.toList (p.inside v.range) = .ok text → IsCallText text) ∧
      ∀ s ∈ rest, Legible p s

theorem LegibleRoot.legible {kind : NodeKind} {p : Printer} {b : Block} (h : LegibleRoot kind p b)
    {s : Statement} (hs : s ∈ b.statements) {c : Conditional} (hc : s.unlabeled = .conditional c) :
    Legible p s := by
  rcases h with h | ⟨-, -, comments, v, rest, hb, hcomments, -, hrest⟩
  · exact h s hs
  · rw [hb] at hs
    rcases List.mem_append.1 hs with hs | hs
    · exact (hcomments s hs).2
    · rcases List.mem_cons.1 hs with rfl | hs
      · cases hc
      · exact hrest s hs

/-- Every statement of the body is read. -/
structure LegibleBlocks (kind : NodeKind) (p : Printer) (body : Body) : Prop where
  root : ∀ b, body.block Body.root = .ok b → LegibleRoot kind p b
  statements : ∀ id b, id ≠ Body.root → body.block id = .ok b → ∀ s ∈ b.statements, Legible p s

/-- Every statement of the body that is laid out is read. -/
structure LegibleBody (kind : NodeKind) (p : Printer) : Prop extends LegibleBlocks kind p p.body where
  indent : ∀ depth, Indent (p.indent depth)
  tree : p.body.TreeShaped

namespace LegibleBody

variable {kind : NodeKind} {p : Printer} (h : LegibleBody kind p)
include h

theorem legible {id : BlockId} {b : Block} {s : Statement} (hb : p.body.block id = .ok b)
    (hs : s ∈ b.statements) {c : Conditional} (hc : s.unlabeled = .conditional c) : Legible p s := by
  by_cases hid : id = Body.root
  · subst hid
    exact (h.root b hb).legible hs hc
  · exact h.statements id b hid hb s hs

theorem ne_root {id child : BlockId} {b : Block} {s : Statement} (hb : p.body.block id = .ok b)
    (hs : s ∈ b.statements) (hchild : child ∈ s.childBlocks) : child ≠ Body.root := by
  rintro rfl
  exact h.tree.not_isChild_root ⟨b, hb, List.mem_flatMap.2 ⟨s, hs, hchild⟩⟩

theorem spelled_conditional {fuel : ℕ} {c : Conditional} (hc : p.body.Holds c)
    (hblocks : ∀ x ∈ (Statement.conditional c).childBlocks, SpelledBlock (p.block fuel) x)
    (hrungs : ∀ x b rung, c.elseBranch = some x → p.body.block x = .ok b →
      b.statements = [.conditional rung] → SpelledConditional (p.conditional fuel) rung) :
    SpelledConditional (p.conditional (fuel + 1)) c := by
  intro depth lead ws q hlead hq
  obtain ⟨id, b, s, -, hb, hs, hunlabeled⟩ := hc
  obtain ⟨cs, hcs, hsound, hreads⟩ := legible_of_unlabeled (h.legible hb hs hunlabeled) hunlabeled
  rw [Printer.conditional_succ] at hq
  obtain ⟨inner, hinner, hq⟩ := bind_eq_ok.1 hq
  obtain ⟨ss, hss, hspelled⟩ : ∃ ss, Statements ss ∧ Spelled inner (wordsIn ss) := by
    cases hbranch : c.thenBranch with
    | none =>
      rw [hbranch] at hinner
      cases hinner
      exact ⟨[], .nil, spelled_empty⟩
    | some x =>
      rw [hbranch] at hinner
      exact hblocks x (by simp [hbranch]) _ _ hinner
  have hword : IsWord "if" (keyword "if") := isWord_keyword (by decide) (by decide)
  have hparenthesized : Parenthesized (.group (symbolWord '(') cs (symbolWord ')')) :=
    ⟨_, _, _, rfl, rfl, .group rfl rfl rfl rfl hsound .nil, hreads⟩
  have hrow := (hlead.append (leads_if hcs)).spells
  rw [← List.append_assoc, ← List.append_assoc] at hrow
  have htop := (spelled_row (h.indent depth) hrow).append hspelled
  generalize p.row depth _ ++ inner = top at hq htop
  cases halternative : c.elseBranch with
  | none =>
    rw [halternative] at hq
    cases hq
    refine ⟨_, isStatement_if hword hparenthesized hss (.inl rfl), ?_⟩
    have hpage := htop.append (spelled_brace (h.indent depth))
    simpa [blockShape] using hpage
  | some x =>
    have helse : IsWord "else" (keyword "else") := isWord_keyword (by decide) (by decide)
    rw [halternative] at hq
    obtain ⟨b, hb, -⟩ := bind_eq_ok.1 hq
    have hb := mapError_eq_ok.1 hb
    by_cases hrung : ∃ rung, b.statements = [.conditional rung]
    · obtain ⟨rung, hrung⟩ := hrung
      rw [Printer.alternative_rung hb hrung] at hq
      obtain ⟨rest, hrest, hq⟩ := bind_eq_ok.1 hq
      cases hq
      obtain ⟨ts, hts, hspelled'⟩ := hrungs x b rung halternative hb hrung _ _ _ _ leads_else hrest
      refine ⟨_, isStatement_if hword hparenthesized hss (.inr ⟨_, ts, rfl, helse, hts⟩), ?_⟩
      have hpage := htop.append hspelled'
      simpa [blockShape] using hpage
    · rw [Printer.alternative_block hb fun rung hs => hrung ⟨rung, hs⟩] at hq
      obtain ⟨rest, hrest, hq⟩ := bind_eq_ok.1 hq
      cases hq
      obtain ⟨ts, hts, hspelled'⟩ := hblocks x (by simp [halternative]) _ _ hrest
      refine ⟨_, isStatement_if hword hparenthesized hss
        (.inr ⟨_, _, rfl, helse, hts.isStatement_block⟩), ?_⟩
      have hrow := leads_else.append (leads_mark (c := '{') rfl)
      have hpage := ((htop.append (spelled_row (h.indent depth) hrow.spells)).append hspelled').append
        (spelled_brace (h.indent depth))
      simpa [blockShape] using hpage

/-- The statements of a root, maybe behind a call of another constructor. -/
theorem spelled_root {block : BlockId → ℕ → Except RenderError Page}
    {conditional : Conditional → ℕ → Line → Except RenderError Page} {depth : ℕ}
    {b : Block} {pages : List Page} (hb : LegibleRoot kind p b)
    (hblocks : ∀ s ∈ b.statements, (∀ id ∈ s.childBlocks, SpelledBlock block id) ∧
      ∀ c, s.unlabeled = .conditional c → SpelledConditional conditional c)
    (hpages : List.Forall₂ (fun s q => p.statement block conditional s depth [] = .ok q)
      b.statements pages) : ∃ ss, Sound ss ∧ Reads [.phrase kind.statements] ss [] ∧
      Spelled (Printer.concat pages) (wordsIn ss) := by
  rcases hb with hb | ⟨rfl, -, comments, v, rest, hb, hcomments, hv, hrest⟩
  · obtain ⟨ss, hss, hspelled, -⟩ := spelled_pages h.indent (fun s hs => ⟨hb s hs, hblocks s hs⟩) hpages
    refine ⟨ss, hss.sound, ?_, hspelled⟩
    unfold NodeKind.statements
    split
    · exact hss.reads_constructor
    · exact hss.reads
  · rw [hb] at hblocks hpages
    obtain ⟨hblocks₁, hblocks₂⟩ := List.forall_mem_append.1 hblocks
    obtain ⟨before, behind, hbefore, hbehind, rfl⟩ := forall₂_append_left hpages
    obtain ⟨q, after, hq, hafter, rfl⟩ := List.forall₂_cons_left_iff.1 hbehind
    obtain ⟨ss, -, hspelled₁, hnil⟩ := spelled_pages h.indent
      (fun s hs => ⟨(hcomments s hs).2, hblocks₁ s hs⟩) hbefore
    obtain rfl := hnil fun s hs => (hcomments s hs).1
    obtain ⟨rest', hrest', hspelled₂, -⟩ := spelled_pages h.indent
      (fun s hs => ⟨hrest s hs, hblocks₂ s (List.mem_cons_of_mem _ hs)⟩) hafter
    rw [Printer.statement_eq_flow, Statement.pieces, Printer.flow_singleton] at hq
    obtain ⟨text, htext, hq⟩ := bind_eq_ok.1 hq
    cases hq
    obtain ⟨htidy, call, hwords, hcall⟩ := hv text (mapError_eq_ok.1 htext)
    have hlines := leads_reindent (h.indent depth) leads_nil v.span.startCol htidy
    rw [hwords] at hlines
    refine ⟨call ++ rest', hcall.sound.append hrest'.sound, hcall.reads_constructor hrest', ?_⟩
    rw [Printer.concat_append, Printer.concat_cons, wordsIn_append]
    exact hspelled₁.append (Spelled.append hlines hspelled₂)

/-- **The lines of a body are read.** -/
theorem spelled_page {q : Page} (hq : p.page = .ok q) : ∃ ss, Sound ss ∧
    Reads [.phrase kind.statements] ss [] ∧ Spelled q (wordsIn ss) := by
  have hroot := h.tree.descent (B := fun fuel id => if id = Body.root then
      ∀ depth q, p.block fuel id depth = .ok q → ∃ ss, Sound ss ∧
        Reads [.phrase kind.statements] ss [] ∧ Spelled q (wordsIn ss)
      else SpelledBlock (p.block fuel) id)
    (C := fun fuel c => SpelledConditional (p.conditional fuel) c) ?_ ?_
  · exact hroot 1 q hq
  · intro fuel id b _ hb hblocks hconditionals
    have hchild : ∀ s ∈ b.statements, (∀ x ∈ s.childBlocks, SpelledBlock (p.block fuel) x) ∧
        ∀ c, s.unlabeled = .conditional c → SpelledConditional (p.conditional fuel) c := by
      refine fun s hs => ⟨fun x hx => ?_, fun c hc => hconditionals s hs c hc⟩
      have hspelled := hblocks x (List.mem_flatMap.2 ⟨s, hs, hx⟩)
      rwa [if_neg (h.ne_root hb hs hx)] at hspelled
    have hpages : ∀ depth q, p.block (fuel + 1) id depth = .ok q → ∃ pages,
        List.Forall₂ (fun s q => p.statement (p.block fuel) (p.conditional fuel) s depth [] = .ok q)
          b.statements pages ∧ q = Printer.concat pages := by
      intro depth q hq
      obtain ⟨b', hb', hq⟩ := bind_eq_ok.1 hq
      obtain ⟨pages, hpages, hq⟩ := bind_eq_ok.1 hq
      obtain rfl := Except.ok.inj ((mapError_eq_ok.1 hb').symm.trans hb)
      cases hq
      exact ⟨pages, mapM_eq_ok.1 hpages, rfl⟩
    split
    · next hid =>
      intro depth q hq
      obtain ⟨pages, hforall, rfl⟩ := hpages depth q hq
      exact h.spelled_root (h.root b (hid ▸ hb)) hchild hforall
    · next hid =>
      intro depth q hq
      obtain ⟨pages, hforall, rfl⟩ := hpages depth q hq
      obtain ⟨ss, hss, hspelled, -⟩ := spelled_pages h.indent
        (fun s hs => ⟨h.statements id b hid hb s hs, hchild s hs⟩) hforall
      exact ⟨ss, hss, hspelled⟩
  · intro fuel c hc hblocks hrungs
    refine h.spelled_conditional hc (fun x hx => ?_) hrungs
    obtain ⟨id, b, s, -, hb, hs, hunlabeled⟩ := hc
    rw [← hunlabeled, s.childBlocks_unlabeled] at hx
    have hspelled := hblocks x (by rwa [← hunlabeled, s.childBlocks_unlabeled])
    rwa [if_neg (h.ne_root hb hs hx)] at hspelled

end LegibleBody

/-- **The text of a body is read** as a block of its kind. -/
theorem readable_renderBody {kind : NodeKind} {body : Body} {unit base text : String}
    {nested : List Edit} (hkind : kind.isBraced = true)
    (h : LegibleBody kind ⟨body, base.toList, unit.toList, nested⟩)
    (htext : renderBody body unit base nested = .ok text) : Readable kind text.toList := by
  obtain ⟨q, hq, rfl⟩ := Layout.exists_page_of_renderBody htext
  obtain ⟨ss, hsound, hreads, hspelled⟩ := h.spelled_page hq
  have hspells := (Leads.append hspelled (leads_indent (h.indent 0))).spells
  rw [List.append_nil] at hspells
  exact ⟨hkind, _, ss, Layout.toList_frame base q.lines,
    hspells.indent (List.forall_mem_singleton.2 rfl), hsound, hreads⟩

end BranchExclusion.Java
