import BranchExclusion.Proofs.Yaml.Line
import BranchExclusion.Yaml.Node

/-!
# Mappings are read back

* `Entry`: a line of a mapping, with the scalar that is read from its value;
* `Entry.Readable.run`, `run_lines`, `tokens_lines`: the tokens of one line, of further lines and of
  all lines;
* `read_entries`: the keys and values that these tokens make up;
* `readDocument_lines`: the whole mapping.
-/

namespace BranchExclusion.Yaml

open Tokenizer (Reads StartsKey)

/-! ### Entries -/

/-- A key that can be written without quotes and told from a value in time. -/
structure IsKey (key : String) : Prop where
  ne_nil : key.toList ≠ []
  chars : ∀ c ∈ key.toList, isKeyChar c = true
  length : key.toList.length ≤ 1024

/-- A line of a mapping: a key and a written value, with the scalar that is read from it. -/
structure Entry where
  key : String
  written : List Char
  style : ScalarStyle
  text : String

namespace Entry

/-- The line, with its end. -/
def line (e : Entry) : List Char := e.key.toList ++ ':' :: ' ' :: (e.written ++ ['\n'])

/-- The tokens of the line. -/
def tokens (e : Entry) : List Token :=
  [.key, .scalar .plain e.key, .value, .scalar e.style e.text]

/-- The key and the value. -/
def nodes (e : Entry) : Node × Node := (.scalar none .plain e.key, .scalar none e.style e.text)

/-- The line can be read. -/
structure Readable (e : Entry) : Prop where
  key : IsKey e.key
  allowed : ∀ c ∈ e.written, isAllowed c = true
  value : Reads e.written e.style e.text

end Entry

variable {e : Entry} {es : List Entry} {t : Tokenizer} {more : List Char}

/-- Three steps read a line. -/
theorem Entry.Readable.run (he : e.Readable) (fuel : ℕ) (h : t.AtLine (e.line ++ more))
    (hmore : StartsKey more) :
    ∃ t', Tokenizer.run (fuel + 3) t = Tokenizer.run fuel t' ∧ t'.AtLine more ∧ t'.indent = 0 ∧
      t'.tokens = t.tokens ++ ((if t.indent < 0 then [.blockMapping] else []) ++ e.tokens) := by
  have hline : t.AtLine (e.key.toList ++ ':' :: ' ' :: (e.written ++ '\n' :: more)) := by
    simpa [Entry.line] using h
  obtain ⟨t₁, hkey, hcolon, hindent⟩ := hline.step_key he.key.chars he.key.ne_nil he.key.length
  obtain ⟨t₂, hstep, hvalue, htokens₂⟩ := hcolon.step
  obtain ⟨t₃, hscalar, hline₃, hindent₃, htokens₃⟩ := he.value t₂ more hvalue hmore
  refine ⟨t₃, ?_, hline₃, hindent₃, ?_⟩
  · rw [Tokenizer.run_step _ hkey, Tokenizer.run_step _ hstep, Tokenizer.run_step _ hscalar]
    rfl
  · rw [htokens₃, htokens₂, hindent, String.ofList_toList]
    simp [Entry.tokens]

theorem startsKey_lines (hes : ∀ e ∈ es, e.Readable) : StartsKey (es.flatMap Entry.line) := by
  cases es with
  | nil => rintro _ ⟨⟩
  | cons e es =>
    have he := hes e List.mem_cons_self
    intro c hc
    rw [List.flatMap_cons, Entry.line, List.append_assoc, List.head?_append_of_ne_nil _ he.key.ne_nil]
      at hc
    exact he.key.chars c (List.mem_of_mem_head? hc)

/-- Further lines of a mapping are read to its end. -/
theorem run_lines (hes : ∀ e ∈ es, e.Readable) (fuel : ℕ) (h : t.AtLine (es.flatMap Entry.line))
    (hindent : t.indent = 0) :
    Tokenizer.run (3 * es.length + 1 + fuel) t =
      .ok (t.tokens ++ (es.flatMap Entry.tokens ++ [.blockEnd])) := by
  induction es generalizing t with
  | nil =>
    obtain ⟨t', hstep, htokens⟩ := h.step_end hindent
    rw [List.length_nil, Nat.add_comm, Tokenizer.run_step _ hstep, if_pos rfl, htokens]
    rfl
  | cons e es ih =>
    have hes' := fun x hx => hes x (List.mem_cons_of_mem e hx)
    obtain ⟨t', hrun, hline, hindent', htokens⟩ := (hes e List.mem_cons_self).run
      (3 * es.length + 1 + fuel) h (startsKey_lines hes')
    have hfuel : 3 * (e :: es).length + 1 + fuel = 3 * es.length + 1 + fuel + 3 := by
      rw [List.length_cons]
      omega
    rw [hfuel, hrun, ih hes' hline hindent', htokens, hindent]
    simp

theorem length_le_lines (hes : ∀ e ∈ es, e.Readable) :
    3 * es.length ≤ (es.flatMap Entry.line).length := by
  induction es with
  | nil => exact Nat.le_refl 0
  | cons e es ih =>
    have hle := ih fun x hx => hes x (List.mem_cons_of_mem e hx)
    simp only [List.flatMap_cons, Entry.line, List.length_append, List.length_cons]
    omega

theorem isAllowed_of_isKeyChar {c : Char} (h : isKeyChar c = true) : isAllowed c = true := by
  refine isAllowed_of_isShown ?_
  simp only [isKeyChar, Bool.or_eq_true, beq_iff_eq] at h
  rcases h with hlower | rfl
  · obtain ⟨hlow, hhigh⟩ := Bool.and_eq_true_iff.1 hlower
    have hlow' : 0x20 ≤ c.toNat :=
      Nat.le_trans (by decide) (UInt32.le_iff_toNat_le.1 (of_decide_eq_true hlow))
    have hhigh' : c.toNat ≤ 0x7E :=
      Nat.le_trans (UInt32.le_iff_toNat_le.1 (of_decide_eq_true hhigh)) (by decide)
    simp [isShown, hlow', hhigh']
  · rfl

theorem Entry.Readable.isAllowed (he : e.Readable) : ∀ c ∈ e.line, isAllowed c = true := by
  intro c hc
  simp only [Entry.line, List.mem_append, List.mem_cons, List.not_mem_nil, or_false] at hc
  rcases hc with hc | rfl | rfl | hc | rfl
  · exact isAllowed_of_isKeyChar (he.key.chars c hc)
  · rfl
  · rfl
  · exact he.allowed c hc
  · rfl

/-- **The tokens of a written mapping** are those of its lines. -/
theorem tokens_lines (hne : es ≠ []) (hes : ∀ e ∈ es, e.Readable) :
    tokens (es.flatMap Entry.line) =
      .ok (.blockMapping :: (es.flatMap Entry.tokens ++ [.blockEnd])) := by
  have hmark : dropMark (es.flatMap Entry.line) = es.flatMap Entry.line := by
    have hstart := startsKey_lines hes
    unfold dropMark
    split
    · next heq => cases hstart '\ufeff' (by rw [heq]; rfl)
    · rfl
  have hallowed : (es.flatMap Entry.line).all isAllowed = true := by
    simp only [List.all_eq_true, List.mem_flatMap]
    rintro c ⟨e, he, hc⟩
    exact (hes e he).isAllowed c hc
  have hlength := length_le_lines hes
  obtain ⟨e, es, rfl⟩ := List.exists_cons_of_ne_nil hne
  have hes' := fun x hx => hes x (List.mem_cons_of_mem e hx)
  have hline : (Tokenizer.start ((e :: es).flatMap Entry.line)).AtLine
      (e.line ++ es.flatMap Entry.line) :=
    ⟨⟨rfl, .inl ⟨rfl, rfl⟩⟩, .inl ⟨rfl, rfl, rfl⟩⟩
  obtain ⟨k, hk⟩ : ∃ k, ((e :: es).flatMap Entry.line).length + 2 = 3 * es.length + 1 + k + 3 := by
    rw [List.length_cons] at hlength
    exact ⟨((e :: es).flatMap Entry.line).length - 3 * es.length - 2, by omega⟩
  obtain ⟨t', hrun, hline', hindent, htokens⟩ := (hes e List.mem_cons_self).run
    (3 * es.length + 1 + k) hline (startsKey_lines hes')
  rw [tokens, hmark, if_pos hallowed, hk, hrun, run_lines hes' _ hline' hindent, htokens]
  rfl

/-! ### Nodes -/

theorem read_scalar (handles : TagHandles) (anchors : List (String × Node)) (rest : List Token)
    (fuel : ℕ) (block indentless : Bool) (style : ScalarStyle) (text : String) :
    Reader.read handles (fuel + 1) (.node block indentless)
      ⟨.scalar style text :: rest, anchors⟩ = .ok (.scalar none style text, ⟨rest, anchors⟩) := rfl

/-- The lines make up their keys and values, in order. -/
theorem read_entries (handles : TagHandles) (anchors : List (String × Node)) (rest : List Token)
    (es : List Entry) (fuel : ℕ) : Reader.read handles (es.length + 2 + fuel) .blockEntries
      ⟨es.flatMap Entry.tokens ++ .blockEnd :: rest, anchors⟩ =
        .ok (.mapping (es.map Entry.nodes), ⟨rest, anchors⟩) := by
  induction es with
  | nil =>
    rw [List.length_nil, Nat.zero_add, Nat.add_comm]
    rfl
  | cons e es ih =>
    have hfuel : (e :: es).length + 2 + fuel = es.length + 2 + fuel + 1 := by
      rw [List.length_cons]
      omega
    have hscalar := fun rest => read_scalar handles anchors rest (es.length + 1 + fuel) true true
    have hfuel' : es.length + 1 + fuel + 1 = es.length + 2 + fuel := by omega
    rw [hfuel'] at hscalar
    rw [hfuel, Reader.read]
    simp [Entry.tokens, Reader.seesAny, Reader.skip, Reader.sees, hscalar, ih, Node.prependEntry,
      Entry.nodes]

/-- The tokens of a whole mapping make up one node. -/
theorem readNode_entries (es : List Entry) :
    readNode [] (.blockMapping :: (es.flatMap Entry.tokens ++ [.blockEnd])) =
      .ok (.mapping (es.map Entry.nodes), []) := by
  have hlength : (es.flatMap Entry.tokens).length = 4 * es.length := by
    induction es with
    | nil => rfl
    | cons e es ih =>
      simp only [List.flatMap_cons, List.length_append, List.length_cons, ih, Entry.tokens,
        List.length_nil]
      omega
  obtain ⟨k, hk⟩ : ∃ k, 2 * (Token.blockMapping :: (es.flatMap Entry.tokens ++ [.blockEnd])).length
      + 2 = es.length + 2 + k + 1 := by
    simp only [List.length_cons, List.length_append, hlength, List.length_nil]
    exact ⟨7 * es.length + 3, by omega⟩
  have hread := read_entries ([] ++ standardHandles) [] [] es k
  rw [readNode, hk, Reader.read]
  simp only [Reader.properties, Reader.skip, List.tail_cons, if_true, ok_bind, pure_eq_ok, hread]
  rfl

/-- **A written mapping is read back.** -/
theorem readDocument_lines (hne : es ≠ []) (hes : ∀ e ∈ es, e.Readable) :
    readDocument (String.ofList (es.flatMap Entry.line)) =
      .ok (some (.mapping (es.map Entry.nodes))) := by
  rw [readDocument, String.toList_ofList, tokens_lines hne hes, ok_bind, documentOfTokens]
  · simp [startsWithDirective, readNode_entries]
  · rintro ⟨⟩

end BranchExclusion.Yaml
