import BranchExclusion.Chain.Flag
import BranchExclusion.Proofs.Java.Legible

/-!
# Flags are read

The statements that handle flags are read, when the flags have their standard names and type.

* `Units`: the words of an expression before a semicolon;
* `isStatement_of_units`: such words with the semicolon behind them are a statement;
* `legible_declaration`, `legible_raised`, `legible_exclusion`: the statements that handle flags.
-/

namespace BranchExclusion.Java

open Layout (Printer exprText)
open Phrase (expandUnit statementKind? expandStatement)

/-! ### Expressions and a semicolon -/

/-- What the grammar sees of words before a semicolon. -/
def headsOf (ws : List Word) : List Head :=
  ws.map (fun w => ⟨w, false⟩) ++ [⟨symbolWord ';', false⟩]

/-- The word is no bracket, no semicolon and not stray. -/
structure IsPlain (w : Word) : Prop where
  sound : Sound [.word w]
  stops : w.is ";" = false ∧ w.is leftBrace = false

/-- Words of an expression before a semicolon. -/
inductive Units : List Word → Prop
  | nil : Units []
  | cons {w : Word} {ws : List Word} : IsPlain w → expandUnit (headsOf (w :: ws)) = [.next] →
      Units ws → Units (w :: ws)

/-- The shapes of words before a semicolon. -/
def shapesBefore (ws : List Word) : List Shape := ws.map .word ++ [.word (symbolWord ';')]

namespace Units

variable {ws : List Word} (h : Units ws)
include h

theorem sight_eq : sight (shapesBefore ws) = headsOf ws := by
  induction h with
  | nil => rfl
  | @cons w ws hw _ _ ih =>
    have hstops : (Shape.word w).head.stops = false := by
      show (w.is ";" || w.is leftBrace) = false
      rw [hw.stops.1, hw.stops.2]
      rfl
    have hcons : shapesBefore (w :: ws) = .word w :: shapesBefore ws := rfl
    rw [hcons, sight_cons, hstops, ih]
    rfl

theorem sound : Sound (shapesBefore ws) := by
  induction h with
  | nil => exact .word rfl rfl rfl .nil
  | cons hw _ _ ih => exact hw.sound.append ih

theorem reads : Reads [.many .unit, .phrase .semicolon] (shapesBefore ws) [] := by
  have hself := h
  induction h with
  | nil => exact .done rfl (reads_semicolon rfl [])
  | @cons w ws hw hexpand hws ih =>
    have hunit : Phrase.unit.expand (sight (.word w :: shapesBefore ws)) = [.next] := by
      have hsight : sight (.word w :: shapesBefore ws) = headsOf (w :: ws) := hself.sight_eq
      rw [hsight]
      exact hexpand
    show Reads _ (.word w :: shapesBefore ws) []
    refine .more ?_ (Nat.lt_succ_self _) ?_ (ih hws)
    · rw [hunit]
      exact List.cons_ne_nil _ _
    · rw [hunit]
      exact reads_next w _

/-- **An expression with a semicolon** is a statement, unless it starts like another one. -/
theorem isStatement {w : Word} {rest : List Word} (hws : ws = w :: rest)
    (hkind : statementKind? ⟨w, false⟩ (headsOf rest) = some .simpleStatement) :
    IsStatement (shapesBefore ws) := by
  subst hws
  have hsight : sight (shapesBefore (w :: rest)) = ⟨w, false⟩ :: headsOf rest := h.sight_eq
  have hsemicolon : w.is ";" = false := by
    cases h with
    | cons hw => exact hw.stops.1
  have hne : shapesBefore (w :: rest) ≠ [] := List.cons_ne_nil _ _
  have hreads : Reads [.phrase (.statement .part)] (shapesBefore (w :: rest) ++ []) [] := by
    rw [List.append_nil]
    exact .to_statement .part hsight hsemicolon hkind (by decide) (Nat.succ_pos _)
      (.to_phrase h.reads)
  refine isStatement_of_reads h.sound hne (fun x hs kind hx hk => ?_) hreads
  rw [List.append_nil, hsight] at hx
  obtain ⟨rfl, rfl⟩ := List.cons.inj hx
  obtain rfl := Option.some.inj (hkind.symm.trans hk)
  exact .inr rfl

end Units

/-- No constructor call is in sight. -/
theorem forall_headsOf {ws : List Word} (h : ∀ w ∈ ws, w.is "this" = false ∧ w.is "super" = false) :
    ∀ x ∈ headsOf ws, x.is "this" = false ∧ x.is "super" = false := by
  refine List.forall_mem_append.2 ⟨fun x hx => ?_, List.forall_mem_singleton.2 ⟨rfl, rfl⟩⟩
  obtain ⟨w, hw, rfl⟩ := List.mem_map.1 hx
  exact h w hw

/-- A statement that starts like no other one is a simple one. -/
theorem statementKind?_simple {w : Word} {hs : List Head} (hlabel : starts ":" hs = false)
    (hcall : ∀ x ∈ ⟨w, false⟩ :: hs, x.is "this" = false ∧ x.is "super" = false)
    (hw : (w.closes || Word.continuations.contains w.text || w.is leftBrace) = false)
    (hkeyword : Phrase.keywordStatement? ⟨w, false⟩ hs = none)
    (hdeclared : declared? (⟨w, false⟩ :: hs) = none) :
    statementKind? ⟨w, false⟩ hs = some .simpleStatement := by
  simp only [Bool.or_eq_false_iff] at hw
  obtain ⟨⟨hclosed, hcontinues⟩, hbrace⟩ := hw
  simp only [statementKind?, hlabel, hclosed, hcontinues, hbrace, hkeyword, hdeclared,
    startsConstructorCall_eq_false hcall, Bool.and_false, Bool.or_self]
  rfl

/-! ### Flags -/

/-- The word of a flag. -/
def flagWord (m : Member) : Word := keyword (FlagStyle.standard.flagName m)

section Flag

variable (m : Member)

theorem toList_flagName : (FlagStyle.standard.flagName m).toList =
    "branch".toList ++ Nat.toDigits 10 m.line := by
  rw [FlagStyle.flagName, String.toList_append]
  exact congrArg _ (Nat.toList_repr ..)

theorem named_flagName : Named (FlagStyle.standard.flagName m).toList := by
  rw [toList_flagName]
  refine ⟨'b', "ranch".toList ++ Nat.toDigits 10 m.line, rfl, rfl, fun d hd => ?_⟩
  rcases List.mem_append.1 hd with hd | hd
  · have hall : ∀ d ∈ "ranch".toList, inWord d = true := forall_mem_of_all (by decide)
    exact hall d hd
  · have hdigit := Nat.isDigit_of_mem_toDigits (by decide) (by decide) hd
    simp [inWord, hdigit]

/-- A flag is no word that starts with anything else. -/
theorem flagWord_is {text : String} (h : "branch".toList.isPrefixOf text.toList = false) :
    (flagWord m).is text = false := by
  refine beq_eq_false_iff_ne.2 fun heq => ?_
  have heq : FlagStyle.standard.flagName m = text := heq
  have hprefix : "branch".toList <+: text.toList := by
    rw [← heq, toList_flagName]
    exact List.prefix_append _ _
  rw [List.isPrefixOf_iff_prefix.2 hprefix] at h
  cases h

theorem flagWord_calls : (flagWord m).is "this" = false ∧ (flagWord m).is "super" = false :=
  ⟨flagWord_is m (by decide), flagWord_is m (by decide)⟩

theorem flagWord_contains {l : List String}
    (h : ∀ text ∈ l, "branch".toList.isPrefixOf text.toList = false) :
    l.contains (flagWord m).text = false := by
  by_contra hmem
  have hmem := List.contains_iff_mem.1 ((Bool.not_eq_false _).mp hmem)
  have his := flagWord_is m (h _ hmem)
  rw [Word.is, beq_self_eq_true] at his
  cases his

theorem isPlain_flagWord : IsPlain (flagWord m) := by
  have hopens : (flagWord m).opens = false := by
    simp (disch := decide) [Word.opens, flagWord_is]
  have hcloses : (flagWord m).closes = false := by
    simp (disch := decide) [Word.closes, flagWord_is]
  exact ⟨.word hopens hcloses rfl .nil, flagWord_is m (by decide), flagWord_is m (by decide)⟩

theorem isPlain_of_decide {w : Word} (h : (!w.opens && !w.closes && !w.isStray && !w.is ";") = true) :
    IsPlain w := by
  simp only [Bool.and_eq_true, Bool.not_eq_true'] at h
  obtain ⟨⟨⟨hopens, hcloses⟩, hstray⟩, hsemicolon⟩ := h
  refine ⟨.word hopens hcloses hstray .nil, hsemicolon, ?_⟩
  unfold Word.opens at hopens
  simp only [Bool.or_eq_false_iff] at hopens
  exact hopens.2

theorem expandUnit_flagWord (ws : List Word) (h : starts "->" (headsOf ws) = false) :
    expandUnit (headsOf (flagWord m :: ws)) = [.next] := by
  have hclosed : (flagWord m).closes = false := by
    simp (disch := decide) [Word.closes, flagWord_is]
  have hoperator : (flagWord m).text ∉ Word.operators := fun hmem => by
    have hcontains := flagWord_contains m (l := Word.operators) (by decide)
    rw [List.contains_iff_mem.2 hmem] at hcontains
    cases hcontains
  have hprimitive : (flagWord m).isPrimitive = false := flagWord_contains m (by decide)
  show expandUnit (⟨flagWord m, false⟩ :: headsOf ws) = [.next]
  simp (disch := decide) [expandUnit, lambdaLength?, h, flagWord_is, hclosed, hoperator, hprimitive]

/-- A statement that starts with a flag is a simple one. -/
theorem statementKind?_flagWord {hs : List Head} (hlabel : starts ":" hs = false)
    (hcall : ∀ x ∈ hs, x.is "this" = false ∧ x.is "super" = false) :
    statementKind? ⟨flagWord m, false⟩ hs = some .simpleStatement := by
  have hfirst : ((flagWord m).closes || Word.continuations.contains (flagWord m).text ||
      (flagWord m).is leftBrace) = false := by
    rw [flagWord_contains m (by decide)]
    simp (disch := decide) [Word.closes, flagWord_is]
  have hkeyword : Phrase.keywordStatement? ⟨flagWord m, false⟩ hs = none := by
    unfold Phrase.keywordStatement?
    have hlookup : Phrase.keywordStatements.lookup (flagWord m).text = none := by
      refine List.lookup_eq_none_iff.2 fun p hp => ?_
      have hall : ∀ p ∈ Phrase.keywordStatements, "branch".toList.isPrefixOf p.1.toList = false := by
        decide
      have his := flagWord_is m (hall p hp)
      rw [Word.is] at his
      simpa using his
    simp (disch := decide) [flagWord_is, hlookup]
  have hmodifier : (flagWord m).isModifier = false := by
    unfold Word.isModifier
    rw [flagWord_contains m (by decide), Bool.and_false]
  have hdeclared : declared? (⟨flagWord m, false⟩ :: hs) = none := by
    have hrest : afterModifiers (⟨flagWord m, false⟩ :: hs) = ⟨flagWord m, false⟩ :: hs := by
      unfold afterModifiers
      rw [List.length_cons, afterModifiersWithin]
      simp (disch := decide) [hmodifier, flagWord_is]
    unfold declared?
    simp (disch := decide) [hrest, starts, starts₂, flagWord_is]
  exact statementKind?_simple hlabel (List.forall_mem_cons.2 ⟨flagWord_calls m, hcall⟩) hfirst
    hkeyword hdeclared


/-! ### Statements that handle flags -/

/-- `boolean m = false;` -/
theorem isStatement_declaration : IsStatement
    (shapesBefore [keyword "boolean", flagWord m, symbolWord '=', keyword "false"]) := by
  have hunits : Units [keyword "boolean", flagWord m, symbolWord '=', keyword "false"] := by
    refine .cons (isPlain_of_decide rfl) ?_ (.cons (isPlain_flagWord m) (expandUnit_flagWord m _ rfl)
      (.cons (isPlain_of_decide rfl) rfl (.cons (isPlain_of_decide rfl) rfl .nil)))
    have harrow : (flagWord m).is "->" = false := flagWord_is m (by decide)
    have hequals : (flagWord m).is "=" = false := flagWord_is m (by decide)
    simp only [headsOf, List.map_cons, List.cons_append, expandUnit, lambdaLength?, starts,
      List.tail_cons, List.head?_cons, Option.any_some, harrow, hequals, Bool.and_false]
    rfl
  refine hunits.isStatement rfl (statementKind?_simple (flagWord_is m (by decide)) ?_ rfl rfl rfl)
  exact forall_headsOf (List.forall_mem_cons.2 ⟨by decide,
    List.forall_mem_cons.2 ⟨flagWord_calls m, by decide⟩⟩)

/-- `m = true;` -/
theorem isStatement_raised :
    IsStatement (shapesBefore [flagWord m, symbolWord '=', keyword "true"]) := by
  have hunits : Units [flagWord m, symbolWord '=', keyword "true"] :=
    .cons (isPlain_flagWord m) (expandUnit_flagWord m _ rfl)
      (.cons (isPlain_of_decide rfl) rfl (.cons (isPlain_of_decide rfl) rfl .nil))
  refine hunits.isStatement rfl (statementKind?_flagWord m rfl ?_)
  decide

/-- `assert m ^ l;` -/
theorem isStatement_exclusion (l : Member) :
    IsStatement (shapesBefore [keyword "assert", flagWord m, symbolWord '^', flagWord l]) := by
  have hunits : Units [keyword "assert", flagWord m, symbolWord '^', flagWord l] := by
    refine .cons (isPlain_of_decide rfl) rfl (.cons (isPlain_flagWord m) (expandUnit_flagWord m _ rfl)
      (.cons (isPlain_of_decide rfl) ?_
        (.cons (isPlain_flagWord l) (expandUnit_flagWord l _ rfl) .nil)))
    have harrow : (flagWord l).is "->" = false := flagWord_is l (by decide)
    have hends : Phrase.endsOperand (headsOf [flagWord l]) = false := by
      simp (disch := decide) [Phrase.endsOperand, headsOf, starts, flagWord_is, Word.closes]
    show expandUnit (⟨symbolWord '^', false⟩ :: headsOf [flagWord l]) = [.next]
    simp only [expandUnit, lambdaLength?, hends, Bool.and_false]
    rfl
  refine hunits.isStatement rfl (statementKind?_simple (flagWord_is m (by decide)) ?_ rfl rfl rfl)
  exact forall_headsOf (List.forall_mem_cons.2 ⟨by decide, List.forall_mem_cons.2
    ⟨flagWord_calls m, List.forall_mem_cons.2 ⟨by decide, List.forall_mem_singleton.2
      (flagWord_calls l)⟩⟩⟩)


/-! ### Their texts -/

theorem leads_symbol {c : Char} (hspace : isSpace c = false)
    (htext : ∀ y, tokenText c (' ' :: y) = (.symbol, [c])) (hstray : (symbolWord c).isStray = false) :
    Leads [c, ' '] [symbolWord c] := by
  intro y vs hy
  have hsplit : c :: ' ' :: y = [c] ++ ' ' :: y := rfl
  have hline : isLineComment [c] = false := by
    unfold isLineComment
    split
    · next heq => cases heq
    · rfl
  exact Spells.token hspace (htext y) hsplit (List.forall_mem_singleton.2 hstray) hline
    (leads_blank _ _ hy)

theorem leads_flag : Leads ((FlagStyle.standard.flagName m).toList ++ [' ']) [flagWord m] :=
  leads_keyword _ (named_flagName m)

theorem spells_flag : Spells (FlagStyle.standard.flagName m).toList [flagWord m] := by
  have hspells := (named_flagName m).spells
  rwa [String.ofList_toList] at hspells

theorem spells_keyword (text : String) (h : Named text.toList) : Spells text.toList [keyword text] := by
  have hspells := h.spells
  rwa [String.ofList_toList] at hspells

theorem legible_declaration (p : Printer) : Legible p (FlagStyle.standard.declaration m) := by
  refine ⟨_, isStatement_declaration m, ?_⟩
  have hvalue := (spells_keyword "false" (named_of_all rfl)).leads_mark (c := ';') rfl
  have hrow := (leads_keyword "boolean" (named_of_all rfl)).append ((leads_flag m).append
    ((leads_symbol (c := '=') rfl (fun _ => rfl) rfl).append hvalue))
  simpa [FlagStyle.standard, shapesBefore, exprText] using hrow.spells

theorem legible_raised (p : Printer) : Legible p (FlagStyle.standard.raised m) := by
  refine ⟨_, isStatement_raised m, ?_⟩
  have hvalue := (spells_keyword "true" (named_of_all rfl)).leads_mark (c := ';') rfl
  have hrow := (leads_flag m).append ((leads_symbol (c := '=') rfl (fun _ => rfl) rfl).append hvalue)
  simpa [FlagStyle.standard, shapesBefore, exprText] using hrow.spells

theorem legible_exclusion (p : Printer) (l : Member) :
    Legible p (FlagStyle.standard.exclusion m l) := by
  refine ⟨_, isStatement_exclusion m l, ?_⟩
  have hrow := (leads_keyword "assert" (named_of_all rfl)).append ((leads_flag m).append
    ((leads_symbol (c := '^') rfl (fun _ => rfl) rfl).append
      ((spells_flag l).leads_mark (c := ';') rfl)))
  simpa [FlagStyle.standard, shapesBefore, exprText, Layout.operandText, Layout.isWord]
    using hrow.spells


end Flag

end BranchExclusion.Java
