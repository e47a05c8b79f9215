import BranchExclusion.Proofs.Java.Chunk
import BranchExclusion.Proofs.Java.Token

/-!
# Shapes

What the grammar sees of chunks, with all that their brackets hold, and nothing of comments and places.

* `Shape`: a word, or a pair of brackets with what they hold;
* `Sound`: shapes of Java, where brackets are paired and no word is stray;
* `Chunk.shape`, `shapesOf`: the shapes of chunks;
* `shapesOf_chunks`: words are read as the sound shapes that they are the words of.
-/

namespace BranchExclusion.Java

/-- A word that is no bracket, or a pair of brackets. -/
inductive Shape
  | word (w : Word)
  | group (opening : Word) (inner : List Shape) (closing : Word)

mutual

/-- The words of a shape. -/
def Shape.words : Shape → List Word
  | .word w => [w]
  | .group opening inner closing => opening :: (wordsIn inner ++ [closing])

/-- The words of shapes. -/
def wordsIn : List Shape → List Word
  | [] => []
  | s :: rest => s.words ++ wordsIn rest

end

@[simp] theorem wordsIn_nil : wordsIn [] = [] := by rw [wordsIn]

@[simp] theorem wordsIn_cons (s : Shape) (rest : List Shape) :
    wordsIn (s :: rest) = s.words ++ wordsIn rest := by rw [wordsIn]

@[simp] theorem wordsIn_append (ss ts : List Shape) :
    wordsIn (ss ++ ts) = wordsIn ss ++ wordsIn ts := by
  induction ss with
  | nil => simp
  | cons s ss ih => simp [ih]

@[simp] theorem Shape.words_word (w : Word) : (Shape.word w).words = [w] := by rw [Shape.words]

@[simp] theorem Shape.words_group (opening closing : Word) (inner : List Shape) :
    (Shape.group opening inner closing).words = opening :: (wordsIn inner ++ [closing]) := by
  rw [Shape.words]

namespace Shape

/-- The shape is a semicolon. -/
def isSemicolon : Shape → Bool
  | word w => w.is ";"
  | group .. => false

/-- What the grammar sees of the shape from the outside. -/
def head : Shape → Head
  | word w => ⟨w, false⟩
  | group opening inner _ => ⟨opening, opening.is "(" && inner.any isSemicolon⟩

end Shape

/-- What the grammar sees of shapes. -/
def sight (ss : List Shape) : List Head := view (ss.map Shape.head)

/-- Words that are no brackets and brackets in pairs, none of them stray. -/
inductive Sound : List Shape → Prop
  | nil : Sound []
  | word {w : Word} {rest : List Shape} : w.opens = false → w.closes = false → w.isStray = false →
      Sound rest → Sound (.word w :: rest)
  | group {opening closing : Word} {inner rest : List Shape} : opening.opens = true →
      closing.is (closerOf opening) = true → opening.isStray = false → closing.isStray = false →
      Sound inner → Sound rest → Sound (.group opening inner closing :: rest)

theorem Sound.append {ss ts : List Shape} (h : Sound ss) (h' : Sound ts) : Sound (ss ++ ts) := by
  induction h with
  | nil => exact h'
  | word hopens hcloses hstray _ ih => exact .word hopens hcloses hstray ih
  | group hopens hcloses hopening hclosing hinner _ _ ih =>
    exact .group hopens hcloses hopening hclosing hinner ih

theorem sound_append {ss ts : List Shape} : Sound (ss ++ ts) ↔ Sound ss ∧ Sound ts := by
  refine ⟨fun h => ?_, fun h => h.1.append h.2⟩
  induction ss with
  | nil => exact ⟨.nil, h⟩
  | cons s ss ih =>
    cases h with
    | word hopens hcloses hstray h => exact ⟨.word hopens hcloses hstray (ih h).1, (ih h).2⟩
    | group hopens hcloses hopening hclosing hinner h =>
      exact ⟨.group hopens hcloses hopening hclosing hinner (ih h).1, (ih h).2⟩

/-- No word of sound shapes is stray. -/
theorem Sound.isStray {ss : List Shape} (h : Sound ss) : ∀ w ∈ wordsIn ss, w.isStray = false := by
  induction h with
  | nil => simp
  | word _ _ hstray _ ih => simpa [hstray] using ih
  | group _ _ hopening hclosing _ _ ihinner ih =>
    simp only [wordsIn_cons, Shape.words_group, List.cons_append, List.append_assoc,
      List.forall_mem_cons, List.forall_mem_append]
    exact ⟨hopening, ihinner, hclosing, List.forall_mem_nil _, ih⟩

/-! ### Shapes of chunks -/

mutual

/-- The shape of a chunk. A bracket that is never closed has an empty word for its end. -/
def Chunk.shape : Chunk → Shape
  | .word w => .word w.token.word
  | .group opening inner closing =>
    .group opening.token.word (shapesOf inner)
      ((closing.map fun c => c.token.word).getD ⟨.symbol, ""⟩)

/-- The shapes of chunks. -/
def shapesOf : List Chunk → List Shape
  | [] => []
  | c :: rest => c.shape :: shapesOf rest

end

@[simp] theorem Chunk.shape_word (w : Lexeme) : (Chunk.word w).shape = .word w.token.word := by
  rw [Chunk.shape]

@[simp] theorem Chunk.shape_group (opening closing : Lexeme) (inner : List Chunk) :
    (Chunk.group opening inner (some closing)).shape =
      .group opening.token.word (shapesOf inner) closing.token.word := by
  rw [Chunk.shape]
  rfl

theorem shapesOf_eq_map (cs : List Chunk) : shapesOf cs = cs.map Chunk.shape := by
  induction cs with
  | nil => rw [shapesOf, List.map_nil]
  | cons c cs ih => rw [shapesOf, ih, List.map_cons]

@[simp] theorem shapesOf_nil : shapesOf [] = [] := by rw [shapesOf]

@[simp] theorem shapesOf_cons (c : Chunk) (cs : List Chunk) :
    shapesOf (c :: cs) = c.shape :: shapesOf cs := by rw [shapesOf]

@[simp] theorem shapesOf_append (cs ds : List Chunk) :
    shapesOf (cs ++ ds) = shapesOf cs ++ shapesOf ds := by
  simp [shapesOf_eq_map]

theorem Chunk.isSemicolon_shape (c : Chunk) : c.shape.isSemicolon = c.isSemicolon := by
  cases c with
  | word w =>
    rw [shape]
    rfl
  | group opening inner closing =>
    rw [shape]
    rfl

theorem Chunk.head_shape (c : Chunk) : c.shape.head = c.head := by
  cases c with
  | word w =>
    rw [shape]
    rfl
  | group opening inner closing =>
    rw [shape, Shape.head, head, shapesOf_eq_map, List.any_map]
    congr 2
    exact congrArg inner.any (funext Chunk.isSemicolon_shape)

theorem sight_shapesOf (cs : List Chunk) : sight (shapesOf cs) = view (cs.map Chunk.head) := by
  rw [sight, shapesOf_eq_map, List.map_map]
  exact congrArg (fun f => view (cs.map f)) (funext Chunk.head_shape)

@[simp] theorem Chunk.shape_bare (c : Chunk) : c.bare.shape = c.shape := by
  cases c <;> rw [Chunk.bare, Chunk.shape, Chunk.shape]

/-! ### Pairing brackets -/

theorem not_opens_of_closes {w : Word} (h : w.closes = true) : w.opens = false := by
  simp only [Word.closes, Word.is, Bool.or_eq_true, beq_iff_eq] at h
  unfold Word.opens Word.is
  rcases h with (h | h) | h <;> rw [h] <;> decide

theorem closes_of_is_closerOf {o c : Word} (h : c.is (closerOf o) = true) : c.closes = true := by
  rw [Word.is, beq_iff_eq] at h
  unfold Word.closes Word.is
  rw [h]
  unfold closerOf
  split
  · decide
  · split <;> decide

/-- Words that are those of sound shapes are paired to these, whatever was read before. -/
theorem Pairing.exists_chunks {ss : List Shape} (h : Sound ss) {ws : List Lexeme}
    (hws : ws.map (fun w => w.token.word) = wordsIn ss) (p : Pairing) :
    ∃ cs, shapesOf cs = ss ∧ ws.foldl put p = { p with held := p.held ++ cs } := by
  induction h generalizing ws p with
  | nil =>
    rw [wordsIn_nil, List.map_eq_nil_iff] at hws
    subst hws
    exact ⟨[], shapesOf_nil, by simp⟩
  | word hopens hcloses _ _ ih =>
    rw [wordsIn_cons, Shape.words_word, List.singleton_append] at hws
    obtain ⟨w, ws, rfl, rfl, hrest⟩ := List.map_eq_cons_iff.1 hws
    have hput : p.put w = { p with held := p.held ++ [.word w] } := by
      rw [put, if_neg (by simp [hopens]), if_neg (by simp [hcloses])]
    obtain ⟨cs, rfl, hcs⟩ := ih hrest (p.put w)
    refine ⟨.word w :: cs, by simp, ?_⟩
    rw [List.foldl_cons, hcs, hput]
    simp
  | group hopens hcloses _ _ _ _ ihinner ih =>
    rw [wordsIn_cons, Shape.words_group, List.cons_append, List.append_assoc] at hws
    obtain ⟨o, behind, rfl, rfl, hbehind⟩ := List.map_eq_cons_iff.1 hws
    obtain ⟨held, last, rfl, hheld, hlast⟩ := List.map_eq_append_iff.1 hbehind
    obtain ⟨c, ws, rfl, rfl, hrest⟩ := List.map_eq_cons_iff.1 hlast
    obtain ⟨inner, rfl, hinner⟩ := ihinner hheld (p.put o)
    have hopen : p.put o = ⟨(o, p.held) :: p.pending, []⟩ := by rw [put, if_pos hopens]
    have hclose : (List.foldl put (p.put o) held).put c =
        { p with held := p.held ++ [.group o inner (some c)] } := by
      have hcloses' := closes_of_is_closerOf hcloses
      rw [hinner, hopen, put, if_neg (by simp [not_opens_of_closes hcloses']), if_pos hcloses',
        close?, if_pos hcloses]
      rfl
    obtain ⟨cs, rfl, hcs⟩ := ih hrest ((List.foldl put (p.put o) held).put c)
    refine ⟨.group o inner (some c) :: cs, by simp, ?_⟩
    rw [List.foldl_cons, List.foldl_append, List.foldl_cons, hcs, hclose]
    simp

/-- **Words are read as the sound shapes that they are the words of.** -/
theorem shapesOf_chunks {ss : List Shape} (h : Sound ss) {ws : List Lexeme}
    (hws : ws.map (fun w => w.token.word) = wordsIn ss) : shapesOf (chunks ws) = ss := by
  obtain ⟨cs, hcs, hfold⟩ := Pairing.exists_chunks h hws ⟨[], []⟩
  rw [chunks, hfold]
  exact hcs

/-- The words of lexemes are those of the tokens. -/
theorem words_lexemes (ts : List Token) :
    (lexemes ts).1.map (fun w => w.token.word) = wordsOf ts := by
  have hall : ∀ comments, (lexemesFrom comments ts).1.map (fun w => w.token.word) = wordsOf ts := by
    induction ts with
    | nil => exact fun _ => rfl
    | cons t ts ih =>
      intro comments
      rw [lexemesFrom, wordsOf]
      cases ht : t.isComment with
      | true =>
        rw [if_pos rfl, ih, List.filter_cons_of_neg (by simp [ht])]
        rfl
      | false =>
        rw [if_neg Bool.false_ne_true, List.filter_cons_of_pos (by simp [ht]), List.map_cons]
        exact congrArg (t.word :: ·) (ih [])
  exact hall []

end BranchExclusion.Java
