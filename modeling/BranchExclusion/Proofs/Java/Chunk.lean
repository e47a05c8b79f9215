import BranchExclusion.Java.Reading
import BranchExclusion.Proofs.Java.Tree

/-!
# The tokens of chunks

Pairing brackets loses no token and keeps their order.

* `Chunk.tokens`, `tokensOf`: the tokens of chunks, comments included;
* `tokensOf_chunks`, `tokens_lexemes`: they are those that were read;
* `Paired`: chunks as pairing makes them;
* `Chained`: tokens one behind the other between two offsets.
-/

namespace BranchExclusion.Java

/-- The tokens of a lexeme. -/
def Lexeme.tokens (w : Lexeme) : List Token := w.comments ++ [w.token]

mutual

/-- The tokens of a chunk, in the order of the source. -/
def Chunk.tokens : Chunk → List Token
  | .word w => w.tokens
  | .group opening inner closing =>
    opening.tokens ++ tokensOf inner ++ (closing.map Lexeme.tokens).getD []

/-- The tokens of chunks. -/
def tokensOf : List Chunk → List Token
  | [] => []
  | c :: rest => c.tokens ++ tokensOf rest

end

@[simp] theorem tokensOf_nil : tokensOf [] = [] := by rw [tokensOf]

@[simp] theorem tokensOf_cons (c : Chunk) (rest : List Chunk) :
    tokensOf (c :: rest) = c.tokens ++ tokensOf rest := by rw [tokensOf]

@[simp] theorem tokensOf_append (cs ds : List Chunk) :
    tokensOf (cs ++ ds) = tokensOf cs ++ tokensOf ds := by
  induction cs with
  | nil => simp
  | cons c cs ih => simp [ih]

@[simp] theorem Chunk.tokens_word (w : Lexeme) : (Chunk.word w).tokens = w.tokens := by
  rw [Chunk.tokens]

@[simp] theorem Chunk.tokens_group (opening : Lexeme) (inner : List Chunk)
    (closing : Option Lexeme) : (Chunk.group opening inner closing).tokens =
      opening.tokens ++ tokensOf inner ++ (closing.map Lexeme.tokens).getD [] := by
  rw [Chunk.tokens]

/-- The comments before a chunk, and the chunk without them. -/
theorem Chunk.tokens_bare (c : Chunk) : c.tokens = c.first.comments ++ c.bare.tokens := by
  cases c <;> simp [Chunk.first, Chunk.bare, Lexeme.tokens]

/-! ### Pairing brackets -/

namespace Pairing

/-- The tokens that were read. -/
def tokens (p : Pairing) : List Token :=
  (p.pending.reverse.flatMap fun o => tokensOf o.2 ++ o.1.tokens) ++ tokensOf p.held

theorem tokens_close? {closing : Lexeme} {pending : List (Lexeme × List Chunk)}
    {held : List Chunk} {p : Pairing} (h : close? closing pending held = some p) :
    p.tokens = (⟨pending, held⟩ : Pairing).tokens ++ closing.tokens := by
  induction pending generalizing held with
  | nil => cases h
  | cons o outer ih =>
    obtain ⟨opening, before⟩ := o
    rw [close?] at h
    split_ifs at h
    · cases h
      simp [tokens]
    · rw [ih h]
      simp [tokens]

theorem tokens_put (p : Pairing) (w : Lexeme) : (p.put w).tokens = p.tokens ++ w.tokens := by
  rw [put]
  split_ifs
  · simp [tokens]
  · cases hclose : close? w p.pending p.held with
    | none => simp [tokens]
    | some q => exact tokens_close? hclose
  · simp [tokens]

theorem tokensOf_finish (p : Pairing) : tokensOf p.finish = p.tokens := by
  obtain ⟨pending, held⟩ := p
  unfold finish tokens
  induction pending generalizing held with
  | nil => simp
  | cons o outer ih => rw [List.foldl_cons, ih]; simp

end Pairing

/-- No token is lost. -/
theorem tokensOf_chunks (ws : List Lexeme) : tokensOf (chunks ws) = ws.flatMap Lexeme.tokens := by
  have hall : ∀ p : Pairing,
      (ws.foldl Pairing.put p).tokens = p.tokens ++ ws.flatMap Lexeme.tokens := by
    induction ws with
    | nil => simp
    | cons w ws ih => intro p; rw [List.foldl_cons, ih, Pairing.tokens_put]; simp
  rw [chunks, Pairing.tokensOf_finish, hall]
  simp [Pairing.tokens]

theorem tokens_lexemesFrom (comments ts : List Token) :
    (lexemesFrom comments ts).1.flatMap Lexeme.tokens ++ (lexemesFrom comments ts).2 =
      comments ++ ts := by
  induction ts generalizing comments with
  | nil => simp [lexemesFrom]
  | cons t ts ih =>
    rw [lexemesFrom]
    split_ifs
    · rw [ih]
      simp
    · simp [ih, Lexeme.tokens]

theorem tokens_lexemes (ts : List Token) :
    tokensOf (chunks (lexemes ts).1) ++ (lexemes ts).2 = ts := by
  rw [tokensOf_chunks]
  exact tokens_lexemesFrom [] ts

/-- Behind the last lexeme stand comments. -/
theorem isComment_lexemesFrom {comments ts : List Token} (h : ∀ c ∈ comments, c.isComment = true) :
    ∀ c ∈ (lexemesFrom comments ts).2, c.isComment = true := by
  induction ts generalizing comments with
  | nil => exact h
  | cons t ts ih =>
    rw [lexemesFrom]
    split_ifs with ht
    · exact ih (List.forall_mem_append.2 ⟨h, List.forall_mem_singleton.2 ht⟩)
    · exact ih (List.forall_mem_nil _)

/-! ### Chunks as they are made -/

/-- The comments of the lexeme are comments, and its token is none. A bracket is a symbol. -/
structure Lexeme.Proper (w : Lexeme) : Prop where
  comments : ∀ c ∈ w.comments, c.isComment = true
  token : w.token.isComment = false
  symbol : w.token.word.opens = true → w.token.word.kind = .symbol

/-- What opens a group is a bracket, and what closes it is the one that closes that. -/
inductive Paired : List Chunk → Prop
  | nil : Paired []
  | word {w : Lexeme} {cs : List Chunk} : w.Proper → w.token.word.opens = false → Paired cs →
      Paired (.word w :: cs)
  | group {o : Lexeme} {closing : Option Lexeme} {inner cs : List Chunk} : o.Proper →
      o.token.word.opens = true →
      (∀ c ∈ closing, c.Proper ∧ c.token.word.is (closerOf o.token.word) = true) → Paired inner →
      Paired cs → Paired (.group o inner closing :: cs)

theorem Paired.append {cs ds : List Chunk} (h : Paired cs) (h' : Paired ds) : Paired (cs ++ ds) := by
  induction h with
  | nil => exact h'
  | word hw hopens _ ih => exact .word hw hopens ih
  | group ho hopens hclosing hinner _ _ ih => exact .group ho hopens hclosing hinner ih

theorem paired_append {cs ds : List Chunk} : Paired (cs ++ ds) ↔ Paired cs ∧ Paired ds := by
  refine ⟨fun h => ?_, fun h => h.1.append h.2⟩
  induction cs with
  | nil => exact ⟨.nil, h⟩
  | cons c cs ih =>
    cases h with
    | word hw hopens h => exact ⟨.word hw hopens (ih h).1, (ih h).2⟩
    | group ho hopens hclosing hinner h =>
      exact ⟨.group ho hopens hclosing hinner (ih h).1, (ih h).2⟩

theorem Paired.bare {cs : List Chunk} {c : Chunk} (h : Paired (c :: cs)) : Paired (c.bare :: cs) := by
  cases h with
  | word hw hopens hrest =>
    exact .word ⟨List.forall_mem_nil _, hw.token, hw.symbol⟩ hopens hrest
  | group ho hopens hclosing hinner hrest =>
    exact .group ⟨List.forall_mem_nil _, ho.token, ho.symbol⟩ hopens hclosing hinner hrest

namespace Pairing

/-- Everything that was read is paired so far. -/
structure Sorted (p : Pairing) : Prop where
  held : Paired p.held
  pending : ∀ o ∈ p.pending, o.1.Proper ∧ o.1.token.word.opens = true ∧ Paired o.2

theorem sorted_close? {closing : Lexeme} (hclosing : closing.Proper)
    {pending : List (Lexeme × List Chunk)} {held : List Chunk} {p : Pairing}
    (hp : Sorted ⟨pending, held⟩) (h : close? closing pending held = some p) : p.Sorted := by
  induction pending generalizing held with
  | nil => cases h
  | cons o outer ih =>
    obtain ⟨opening, before⟩ := o
    obtain ⟨⟨hopening, hopens, hbefore⟩, houter⟩ := List.forall_mem_cons.1 hp.pending
    rw [close?] at h
    split_ifs at h with hcloses
    · cases h
      refine ⟨hbefore.append (.group hopening hopens (fun c hc => ?_) hp.held .nil), houter⟩
      cases hc
      exact ⟨hclosing, hcloses⟩
    · exact ih ⟨hbefore.append (.group hopening hopens (fun c hc => by cases hc) hp.held .nil),
        houter⟩ h

theorem sorted_put {p : Pairing} (hp : p.Sorted) {w : Lexeme} (hw : w.Proper) : (p.put w).Sorted := by
  rw [put]
  split_ifs with hopens hcloses
  · exact ⟨.nil, List.forall_mem_cons.2 ⟨⟨hw, hopens, hp.held⟩, hp.pending⟩⟩
  · cases hclose : close? w p.pending p.held with
    | none => exact ⟨hp.held.append (.word hw (by simpa using hopens) .nil), hp.pending⟩
    | some q => exact sorted_close? hw hp hclose
  · exact ⟨hp.held.append (.word hw (by simpa using hopens) .nil), hp.pending⟩

theorem paired_finish {p : Pairing} (hp : p.Sorted) : Paired p.finish := by
  obtain ⟨pending, held⟩ := p
  unfold finish
  induction pending generalizing held with
  | nil => exact hp.held
  | cons o outer ih =>
    obtain ⟨⟨hopening, hopens, hbefore⟩, houter⟩ := List.forall_mem_cons.1 hp.pending
    rw [List.foldl_cons]
    exact ih _ ⟨hbefore.append (.group hopening hopens (fun c hc => by cases hc) hp.held .nil),
      houter⟩

end Pairing

theorem paired_chunks {ws : List Lexeme} (h : ∀ w ∈ ws, w.Proper) : Paired (chunks ws) := by
  have hall : ∀ p : Pairing, p.Sorted → (ws.foldl Pairing.put p).Sorted := by
    induction ws with
    | nil => exact fun p hp => hp
    | cons w ws ih =>
      obtain ⟨hw, hws⟩ := List.forall_mem_cons.1 h
      exact fun p hp => ih hws _ (Pairing.sorted_put hp hw)
  exact Pairing.paired_finish (hall _ ⟨.nil, List.forall_mem_nil _⟩)

theorem proper_lexemesFrom {ts comments : List Token} (hcomments : ∀ c ∈ comments, c.isComment = true)
    (hts : ∀ t ∈ ts, t.word.opens = true → t.word.kind = .symbol) :
    ∀ w ∈ (lexemesFrom comments ts).1, w.Proper := by
  induction ts generalizing comments with
  | nil => exact List.forall_mem_nil _
  | cons t ts ih =>
    obtain ⟨ht, hts⟩ := List.forall_mem_cons.1 hts
    rw [lexemesFrom]
    split_ifs with hcomment
    · refine ih (fun c hc => ?_) hts
      rcases List.mem_append.1 hc with hc | hc
      · exact hcomments c hc
      · rw [List.mem_singleton.1 hc, hcomment]
    · exact List.forall_mem_cons.2
        ⟨⟨hcomments, by simpa using hcomment, ht⟩, ih (List.forall_mem_nil _) hts⟩

/-! ### Tokens in order -/

/-- The tokens stand between two offsets, one behind the other. -/
def Chained (lo hi : ℕ) : List Token → Prop
  | [] => lo ≤ hi
  | t :: rest =>
    lo ≤ t.extent.start.offset ∧ t.extent.start.offset < t.extent.stop.offset ∧
      Chained t.extent.stop.offset hi rest

theorem Chained.le {lo hi : ℕ} {ts : List Token} (h : Chained lo hi ts) : lo ≤ hi := by
  induction ts generalizing lo with
  | nil => exact h
  | cons t rest ih =>
    obtain ⟨hlo, hlt, hrest⟩ := h
    have := ih hrest
    omega

theorem Chained.of_mem {lo hi : ℕ} {ts : List Token} (h : Chained lo hi ts) {t : Token} (ht : t ∈ ts) :
    lo ≤ t.extent.start.offset ∧ t.extent.start.offset < t.extent.stop.offset ∧
      t.extent.stop.offset ≤ hi := by
  induction ts generalizing lo with
  | nil => cases ht
  | cons u rest ih =>
    obtain ⟨hlo, hlt, hrest⟩ := h
    rcases List.mem_cons.1 ht with rfl | ht
    · exact ⟨hlo, hlt, hrest.le⟩
    · have := ih hrest ht
      omega

/-- No token ends behind the last one. -/
theorem Chained.stop_le {lo hi : ℕ} {ts : List Token} {u : Token} (h : Chained lo hi (ts ++ [u])) :
    ∀ v ∈ ts ++ [u], v.extent.stop.offset ≤ u.extent.stop.offset := by
  induction ts generalizing lo with
  | nil => exact List.forall_mem_singleton.2 (Nat.le_refl _)
  | cons t ts ih =>
    obtain ⟨-, -, hrest⟩ := h
    refine List.forall_mem_cons.2 ⟨?_, ih hrest⟩
    have := hrest.of_mem (List.mem_concat_self ..)
    omega

theorem Chained.mono {lo lo' hi : ℕ} {ts : List Token} (h : Chained lo hi ts) (hlo : lo' ≤ lo) :
    Chained lo' hi ts := by
  cases ts with
  | nil => exact Nat.le_trans hlo h
  | cons t rest => exact ⟨Nat.le_trans hlo h.1, h.2⟩

theorem chained_append {lo hi : ℕ} {ts us : List Token} :
    Chained lo hi (ts ++ us) ↔ ∃ mid, Chained lo mid ts ∧ Chained mid hi us := by
  induction ts generalizing lo with
  | nil =>
    constructor
    · exact fun h => ⟨lo, Nat.le_refl lo, h⟩
    · rintro ⟨mid, hle, h⟩
      cases us with
      | nil => exact Nat.le_trans hle h
      | cons u us => exact ⟨Nat.le_trans hle h.1, h.2⟩
  | cons t ts ih =>
    constructor
    · rintro ⟨hlo, hlt, h⟩
      obtain ⟨mid, hts, hus⟩ := ih.1 h
      exact ⟨mid, ⟨hlo, hlt, hts⟩, hus⟩
    · rintro ⟨mid, ⟨hlo, hlt, hts⟩, hus⟩
      exact ⟨hlo, hlt, ih.2 ⟨mid, hts, hus⟩⟩

end BranchExclusion.Java
