import BranchExclusion.Proofs.Layout.Parts
import BranchExclusion.Proofs.Layout.Reflow
import BranchExclusion.Proofs.Text.Levels

/-!
# Braces of a layout

* `Body.Braceless`: no text that a body shows holds a brace of its own;
* `Part.Fits`, `Threads`: the levels at which a part, and parts one behind the other, are laid out;
* `Printer.threads_parts`: where a part fits, its parts fit one behind the other;
* `Printer.walk_lay`: the lines of a part go from the one level to the other, and never below their
  floor.
-/

namespace BranchExclusion

open Text (level Walk)

/-- The texts in an expression. -/
def Expr.words : Expr → List String
  | .source text | .name text => [text]
  | .bool _ => []
  | .xor lhs rhs => lhs.words ++ rhs.words

/-- The texts in a statement, apart from those in the blocks that it owns. -/
def Statement.words : Statement → List String
  | .conditional c => c.condition.words
  | .block _ => []
  | .exit _ v | .other v => [v.text]
  | .compound c => c.header :: c.trailer.toList
  | .tryStatement t => t.header :: t.catches.map CatchClause.header
  | .labeled label body _ => label :: body.words
  | .declaration type name value => type :: name :: (value.map Expr.words).getD []
  | .assignment target value => target :: value.words
  | .assertion condition => condition.words
  | .comment text _ => [text]

/-- No text holds a brace. -/
def Braceless (words : List String) : Prop := ∀ w ∈ words, Text.Braceless w.toList

/-- No text in the statements below the root holds a brace. -/
def Body.Braceless (body : Body) : Prop :=
  ∀ id b, body.Reaches Body.root id → body.block id = .ok b →
    ∀ t ∈ b.statements, BranchExclusion.Braceless t.words

namespace Layout

variable {d n m k : ℤ} {depth : ℕ} {lead : Line}

theorem braceless_exprText {e : Expr} (h : Braceless e.words) : Text.Braceless (exprText e) := by
  induction e with
  | source text => exact h text (List.mem_singleton_self text)
  | name text => exact h text (List.mem_singleton_self text)
  | bool value => cases value <;> decide
  | xor lhs rhs ihl ihr =>
    have hl := ihl fun w hw => h w (List.mem_append_left _ hw)
    have hr := ihr fun w hw => h w (List.mem_append_right _ hw)
    have hoperand {e : Expr} {text : Line} (htext : Text.Braceless text) :
        Text.Braceless (operandText e text) := by
      unfold operandText
      split
      · exact htext
      · exact (Text.Braceless.append (l := ['(']) (by decide) htext).append (by decide)
    exact ((hoperand hl).append (by decide)).append (hoperand hr)

/-- The lines of a text are made of its characters. -/
theorem subset_of_mem_linesFrom {line text l : List Char} (h : l ∈ Text.linesFrom line text) :
    l ⊆ line ++ text := by
  induction text generalizing line with
  | nil =>
    rw [Text.linesFrom] at h
    split at h
    · cases h
    · rw [List.mem_singleton.1 h, List.append_nil]
      exact (List.reverse_perm line).subset
  | cons c text ih =>
    rw [Text.linesFrom] at h
    split at h
    · rcases List.mem_cons.1 h with rfl | h
      · have hline : Text.dropReturn line.reverse ⊆ line :=
          fun c hc => List.mem_reverse.1 ((Text.dropReturn_prefix _).subset hc)
        exact List.subset_append_of_subset_left _ hline
      · exact List.Subset.trans (ih h)
          (List.subset_append_of_subset_right _ (List.subset_cons_self c text))
    · refine List.Subset.trans (ih h) ?_
      exact List.perm_middle.symm.subset

theorem braceless_continuation {indent l : Line} (hi : Text.Braceless indent)
    (hl : Text.Braceless l) (columns : ℕ) : Text.Braceless (continuation indent columns l) := by
  have htrim : Text.Braceless (Text.trimEnd l) := hl.subset (Text.trimEnd_prefix l).subset
  unfold continuation
  split
  · exact fun c hc => absurd hc List.not_mem_nil
  · obtain ⟨v, -, hv⟩ := exists_dropIndent columns (Text.trimEnd l)
    have hdrop : dropIndent columns (Text.trimEnd l) ⊆ Text.trimEnd l := by
      conv_rhs => rw [hv]
      exact List.subset_append_right _ _
    exact hi.append (htrim.subset hdrop)

/-! ### Levels of parts -/

/-- The part may go from level `n` to level `m` without going below level `d`. -/
def Part.Fits (d n m : ℤ) : Part → Prop
  | .row l => Walk d n m l
  | .block _ depth => d ≤ depth ∧ n = depth ∧ m = depth
  | .statement _ depth lead => m = depth ∧ Walk d n m lead

theorem Part.Fits.floor_le {part : Part} (h : part.Fits d n m) : d ≤ n := by
  cases part with
  | row l => exact Walk.floor_le_start h
  | block id depth =>
    obtain ⟨hd, rfl, -⟩ := h
    exact hd
  | statement t depth lead => exact h.2.floor_le_start

/-- The parts may go from level `n` to level `m` one after the other. -/
inductive Threads (d : ℤ) : ℤ → ℤ → List Part → Prop
  | nil {n : ℤ} : Threads d n n []
  | cons {n k m : ℤ} {q : Part} {qs : List Part} :
      q.Fits d n k → Threads d k m qs → Threads d n m (q :: qs)

namespace Threads

variable {ps qs : List Part}

theorem append (h : Threads d n k ps) (h' : Threads d k m qs) : Threads d n m (ps ++ qs) := by
  induction h with
  | nil => exact h'
  | cons hq _ ih => exact .cons hq (ih h')

theorem exists_append (h : Threads d n m (ps ++ qs)) :
    ∃ k, Threads d n k ps ∧ Threads d k m qs := by
  induction ps generalizing n with
  | nil => exact ⟨n, .nil, h⟩
  | cons p ps ih =>
    cases h with
    | cons hq hqs =>
      obtain ⟨k, hps, hqs⟩ := ih hqs
      exact ⟨k, .cons hq hps, hqs⟩

/-- Parts that each come back to their level. -/
theorem of_forall {l : List Part} (h : ∀ q ∈ l, q.Fits d n n) : Threads d n n l := by
  induction l with
  | nil => exact .nil
  | cons q l ih =>
    exact .cons (h q List.mem_cons_self) (ih fun r hr => h r (List.mem_cons_of_mem q hr))

/-- A block that lies deeper by one. -/
theorem block {x : BlockId} (hd : d ≤ depth + 1) (h : Threads d (depth + 1) m qs) :
    Threads d (depth + 1) m (.block x (depth + 1) :: qs) := by
  refine .cons (k := depth + 1) ⟨?_, ?_, ?_⟩ h
  all_goals
    push_cast
    omega

end Threads

namespace Printer

variable {p : Printer} {page : Page} {fuel : ℕ}

/-- The texts around the statements hold no brace. -/
structure Plain (p : Printer) : Prop where
  base : Text.Braceless p.base
  unit : Text.Braceless p.unit
  body : p.body.Braceless

theorem Plain.indent (h : p.Plain) (depth : ℕ) : Text.Braceless (p.indent depth) :=
  forall_mem_indentation h.base h.unit depth

section Threads

variable (plain : p.Plain)
include plain

theorem fits_row {text : Line} (h : Walk d n m text) : (p.rowPart depth text).Fits d n m :=
  h.behind (plain.indent depth)

/-- The lines of a text without braces, the first of them behind `lead`. -/
theorem threads_reindent {text : List Char} (htext : Text.Braceless text)
    (hlead : Walk d n m lead) (columns : ℕ) :
    Threads d n m ((reindent (p.indent depth) lead columns text).map .row) := by
  have hlines : ∀ l ∈ Text.lines text, Text.Braceless l :=
    fun l hl => htext.subset (subset_of_mem_linesFrom hl)
  unfold reindent
  split
  · exact .cons (hlead.behind (plain.indent depth)) .nil
  · next first rest h =>
    rw [h] at hlines
    have hfirst : Text.Braceless (Text.trimEnd first) :=
      (hlines first List.mem_cons_self).subset (Text.trimEnd_prefix first).subset
    refine .cons ((hlead.more hfirst).behind (plain.indent depth)) (.of_forall fun q hq => ?_)
    obtain ⟨_, hmem, rfl⟩ := List.mem_map.1 hq
    obtain ⟨l, hl, rfl⟩ := List.mem_map.1 hmem
    have hl := hlines l (List.mem_cons_of_mem first hl)
    exact .braceless (braceless_continuation (plain.indent depth) hl columns) hlead.floor_le_final

theorem threads_alternative {o : Option BlockId} (hd : d ≤ depth) :
    Threads d (depth + 1) depth (p.alternativeParts depth o) := by
  have hclose : Walk d (depth + 1) depth ['}'] := .brace_close hd
  have helse : Walk d (depth + 1) depth (['}'] ++ " else ".toList) := hclose.more (by decide)
  cases o with
  | none => exact .cons (fits_row plain hclose) .nil
  | some x =>
    rw [alternativeParts]
    cases p.body.rung? x with
    | some rung => exact .cons ⟨rfl, helse⟩ .nil
    | none =>
      refine .cons (fits_row plain ?_) (.block (by omega) (.cons (fits_row plain hclose) .nil))
      exact helse.opens (s := []) (by decide)

theorem threads_handlers {t : TryStatement} (hwords : Braceless (t.catches.map CatchClause.header))
    (hd : d ≤ depth) : Threads d (depth + 1) (depth + 1) (p.handlerParts depth t) := by
  have hclose : Walk d (depth + 1) depth ['}'] := .brace_close hd
  refine Threads.append (k := depth + 1) ?_ ?_
  · generalize t.catches = catches at hwords
    induction catches with
    | nil => exact .nil
    | cons c catches ih =>
      have hheader : Text.Braceless c.header.toList := hwords _ (by simp)
      rw [List.flatMap_cons]
      refine Threads.append (k := depth + 1) ?_ (ih fun w hw => hwords w (List.mem_cons_of_mem _ hw))
      refine .cons (fits_row plain ?_) (.block (by omega) .nil)
      exact ((hclose.more (s := [' ']) (by decide)).more hheader).opens (s := [' ']) (by decide)
  · cases t.finallyBlock with
    | none => exact .nil
    | some x =>
      refine .cons (fits_row plain ?_) (.block (by omega) .nil)
      exact (hclose.more (by decide)).opens (s := []) (by decide)

/-- What a statement consists of goes from the level before its lead to its depth. -/
theorem threads_statement {t : Statement} (hwords : Braceless t.words)
    (hlead : Walk d n depth lead) : Threads d n depth (p.statementParts depth t lead) := by
  have hd : d ≤ depth := hlead.floor_le_final
  have hclose : Walk d (depth + 1) depth ['}'] := .brace_close hd
  induction t generalizing lead with
  | conditional c =>
    have hcondition := braceless_exprText hwords
    have hopen := ((hlead.more (s := "if (".toList) (by decide)).more hcondition).opens
      (s := [')', ' ']) (by decide)
    refine .cons (fits_row plain hopen) (Threads.append ?_ (threads_alternative plain hd))
    cases c.thenBranch with
    | none => exact .nil
    | some x => exact .block (by omega) .nil
  | block id =>
    exact .cons (fits_row plain (hlead.opens (s := []) (by decide)))
      (.block (by omega) (.cons (fits_row plain hclose) .nil))
  | compound c =>
    have hopen := (hlead.more (hwords c.header List.mem_cons_self)).opens (s := [' ']) (by decide)
    refine .cons (fits_row plain hopen) (.block (by omega) (.cons (fits_row plain ?_) .nil))
    cases htrailer : c.trailer with
    | none => exact hclose
    | some trailer =>
      have hmem : trailer ∈ (Statement.compound c).words := by simp [Statement.words, htrailer]
      exact (hclose.more (s := [' ']) (by decide)).more (hwords trailer hmem)
  | tryStatement t =>
    have hopen := (hlead.more (hwords t.header List.mem_cons_self)).opens (s := [' ']) (by decide)
    have hhandlers := threads_handlers plain
      (fun w hw => hwords w (List.mem_cons_of_mem t.header hw)) hd
    exact .cons (fits_row plain hopen) (.block (by omega)
      (hhandlers.append (.cons (fits_row plain hclose) .nil)))
  | labeled label t span ih =>
    have hlabel := hwords label List.mem_cons_self
    exact ih (fun w hw => hwords w (List.mem_cons_of_mem label hw))
      ((hlead.more hlabel).more (by decide))
  | exit kind v => exact threads_reindent plain (hwords v.text (List.mem_singleton_self _)) hlead _
  | other v => exact threads_reindent plain (hwords v.text (List.mem_singleton_self _)) hlead _
  | comment text span =>
    exact threads_reindent plain (hwords text (List.mem_singleton_self _)) hlead _
  | declaration type name value =>
    have htype := hwords type List.mem_cons_self
    have hname := hwords name (List.mem_cons_of_mem type List.mem_cons_self)
    refine .cons (fits_row plain ((Walk.more (((hlead.more htype).more (by decide)).more hname)
      ?_).more (by decide))) .nil
    cases value with
    | none => exact fun c hc => absurd hc List.not_mem_nil
    | some value =>
      have hvalue := braceless_exprText fun w hw =>
        hwords w (List.mem_cons_of_mem type (List.mem_cons_of_mem name hw))
      exact Text.Braceless.append (by decide) hvalue
  | assignment target value =>
    have htarget := hwords target List.mem_cons_self
    have hvalue := braceless_exprText fun w hw => hwords w (List.mem_cons_of_mem target hw)
    exact .cons (fits_row plain ((((hlead.more htarget).more (by decide)).more hvalue).more
      (by decide))) .nil
  | assertion condition =>
    exact .cons (fits_row plain (((hlead.more (by decide)).more (braceless_exprText hwords)).more
      (by decide))) .nil

end Threads

/-- The part is met in the layout of the body. -/
def Meets (p : Printer) : Part → Prop
  | .row _ => True
  | .block id _ => p.body.Reaches Body.root id
  | .statement t .. => ∃ id b, p.body.Reaches Body.root id ∧ p.body.block id = .ok b ∧
      t ∈ b.statements

theorem Meets.parts {part q : Part} (h : p.Meets part) (hq : q ∈ p.parts part) : p.Meets q := by
  cases part with
  | row l => cases hq
  | block id depth =>
    obtain ⟨t, ht, rfl⟩ := List.mem_map.1 hq
    obtain ⟨b, hb, ht⟩ := Body.mem_statementsAt.1 ht
    exact ⟨id, b, h, hb, ht⟩
  | statement t depth lead =>
    obtain ⟨id, b, hr, hb, ht⟩ := h
    have hchild : ∀ x ∈ t.childBlocks, p.body.Reaches Body.root x := fun x hx =>
      .child hr ⟨b, hb, List.mem_flatMap.2 ⟨t, ht, hx⟩⟩
    rcases mem_statementParts hq with ⟨l, rfl⟩ | ⟨x, hx, rfl⟩ | ⟨c, x, rung, hc, hx, hrung, rfl⟩
    · exact trivial
    · exact hchild x hx
    · have hx' : x ∈ t.childBlocks := by
        rw [← t.childBlocks_unlabeled, hc]
        simp [hx]
      obtain ⟨b', hb', hs⟩ := Body.exists_block_of_rung? hrung
      exact ⟨x, b', hchild x hx', hb', hs ▸ List.mem_singleton_self _⟩

/-- **Where a part fits, its parts fit one behind the other.** -/
theorem threads_parts (plain : p.Plain) {part : Part} (hrow : ∀ l, part ≠ .row l)
    (hmeets : p.Meets part) (hfits : part.Fits d n m) : Threads d n m (p.parts part) := by
  cases part with
  | row l => exact absurd rfl (hrow l)
  | block id depth =>
    obtain ⟨hd, rfl, rfl⟩ := hfits
    refine .of_forall fun q hq => ?_
    obtain ⟨t, -, rfl⟩ := List.mem_map.1 hq
    exact ⟨rfl, .braceless (by decide) hd⟩
  | statement t depth lead =>
    obtain ⟨rfl, hlead⟩ := hfits
    obtain ⟨id, b, hr, hb, ht⟩ := hmeets
    exact threads_statement plain (plain.body id b hr hb t ht) hlead

theorem unlines_append (ls ms : List Line) : unlines (ls ++ ms) = unlines ls ++ unlines ms :=
  List.flatMap_append

/-- The lines of parts, one behind the other. -/
theorem walk_of_threads {qs : List Part} {lines : List (List Line)} (h : Threads d n m qs)
    (hd : d ≤ n) (hlines : List.Forall₂ (fun q ls => ∀ d n m, q.Fits d n m →
      Walk d n m (unlines ls)) qs lines) : Walk d n m (unlines lines.flatten) := by
  induction hlines generalizing n with
  | nil =>
    cases h
    exact .braceless (by decide) hd
  | cons hq _ ih =>
    cases h with
    | cons hfits hrest =>
      have hwalk := hq _ _ _ hfits
      rw [List.flatten_cons, unlines_append]
      exact hwalk.append (ih hrest hwalk.floor_le_final)

/-- **The lines of a part pass the levels that fit it.** -/
theorem walk_lay (plain : p.Plain) (hnested : p.nested = []) {part : Part}
    (h : p.lay fuel part = .ok page) (hmeets : p.Meets part) (hfits : part.Fits d n m) :
    Walk d n m (unlines page.lines) := by
  refine lay_induction hnested (Q := fun part lines => p.Meets part → ∀ d n m, part.Fits d n m →
    Walk d n m (unlines lines)) ?_ ?_ h hmeets d n m hfits
  · intro l _ d n m hl
    have hunlines : unlines [l] = l ++ ['\n'] := by simp [unlines]
    rw [hunlines]
    exact Walk.more hl (by decide)
  · intro part lines hrow hlines hmeets d n m hfits
    refine walk_of_threads (threads_parts plain hrow hmeets hfits) hfits.floor_le ?_
    exact forall₂_imp_mem hlines fun q hq ls _ hls => hls (hmeets.parts hq)

end Printer

end Layout

end BranchExclusion
