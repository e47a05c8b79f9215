import BranchExclusion.Proofs.Java.Derivation
import BranchExclusion.Proofs.Java.Reads

/-!
# The depth of a reading

A reading goes only so deep before its next token, so that it never runs out of depth.

* `NodeKind.rank`, `Phrase.rank`, `ranks`: how deep it goes;
* `Phrase.ranks_expand`: what a phrase consists of is not read deeper than the phrase;
* `Faultless`: symbols are read without a fault, whatever words stand in the shapes;
* `Reads.faultless`: chunks whose shapes are read are read without a fault.
-/

namespace BranchExclusion.Java

open Java.Tree (faultsOf)

/-! ### Ranks -/

/-- How deep reading a node of that kind goes before its first token. -/
def NodeKind.rank : NodeKind → ℕ
  | block | classBody | creation | switchExpression => 4
  | lambda => 9
  | _ => 12

/-- How deep reading a phrase goes before its first token. -/
def Phrase.rank : Phrase → ℕ
  | inside kind => kind.rank
  | semicolon => 2
  | lambdaBody | classBody | creationRest => 7
  | unit | piece | element => 11
  | contents | elements => 12
  | alternative | doCondition => 2
  | catchHandler | finallyHandler => 14
  | handlers _ | methodEnd _ => 16
  | statement _ | case => 14
  | branch _ => 16
  | cases | statements => 16
  | constructorStatements => 18
  | item | member | constant => 16
  | members | constants => 18

/-- How deep reading a symbol goes before its first token. -/
def Symbol.rank : Symbol → ℕ
  | token _ | raw _ | group .. | missing _ | unfit _ => 0
  | node _ kind => if kind = .error then 0 else kind.rank + 1
  | phrase p | many p => p.rank

/-- The symbol is never found without a token. -/
def Symbol.isSolid : Symbol → Bool
  | token _ | group .. | node .. | unfit _ => true
  | raw _ | missing _ | phrase _ | many _ => false

/-- How deep reading goes before its first token, for symbols one behind the other. -/
def ranks : List Symbol → ℕ
  | [] => 1
  | e :: es => 1 + max e.rank (if e.isSolid then ranks es - 64 else ranks es)

theorem Phrase.rank_le (p : Phrase) : p.rank ≤ 18 := by
  cases p with
  | inside kind => cases kind <;> exact Nat.le_of_ble_eq_true rfl
  | _ => exact Nat.le_of_ble_eq_true rfl

theorem one_le_ranks (es : List Symbol) : 1 ≤ ranks es := by
  cases es with
  | nil => exact Nat.le_refl 1
  | cons e es => exact Nat.le_add_right 1 _

namespace Phrase

variable {hs : List Head} {n : ℕ}

theorem ranks_ite {c : Prop} [Decidable c] {yes no : List Symbol} (hyes : ranks yes ≤ n)
    (hno : ranks no ≤ n) : ranks (if c then yes else no) ≤ n := by
  split
  · exact hyes
  · exact hno

theorem ranks_node (role : Role) (kind : NodeKind) : ranks [.node role kind] ≤ 14 := by
  cases kind <;> exact Nat.le_of_ble_eq_true rfl

theorem ranks_expandStatement (role : Role) : ranks (expandStatement role hs) ≤ 14 := by
  cases hs with
  | nil => exact Nat.le_of_ble_eq_true rfl
  | cons h rest =>
    refine ranks_ite (Nat.le_of_ble_eq_true rfl) ?_
    split
    · exact ranks_node role _
    · exact ranks_ite (ranks_node role _) (Nat.le_of_ble_eq_true rfl)

theorem ranks_expandUnit : ranks (expandUnit hs) ≤ 11 := by
  cases hs with
  | nil => exact Nat.le_of_ble_eq_true rfl
  | cons h rest =>
    rw [expandUnit]
    repeat' first | exact Nat.le_of_ble_eq_true rfl | apply ranks_ite

theorem ranks_expandItem : ranks (expandItem hs) ≤ 16 := by
  have hnode : ∀ kind, ranks [.node .part kind] ≤ 16 := fun kind =>
    (ranks_node .part kind).trans (by omega)
  refine ranks_ite (Nat.le_of_ble_eq_true rfl) (ranks_ite (hnode _) ?_)
  split
  · exact hnode _
  · exact ranks_ite (hnode _) (Nat.le_of_ble_eq_true rfl)

theorem ranks_expandMember : ranks (expandMember hs) ≤ 16 := by
  have hnode : ∀ kind, ranks [.node .part kind] ≤ 16 := fun kind =>
    (ranks_node .part kind).trans (by omega)
  refine ranks_ite (Nat.le_of_ble_eq_true rfl) (ranks_ite (Nat.le_of_ble_eq_true rfl)
    (ranks_ite (hnode _) (ranks_ite (Nat.le_of_ble_eq_true rfl) (ranks_ite (hnode _) ?_))))
  split <;> exact hnode _

theorem ranks_typeDeclaration (kind : NodeKind) : ranks (typeDeclaration kind hs) ≤ 12 := by
  have hall : ∀ n m k, ranks [.raw n, .token .name, .raw m, .node .body k] ≤ 12 := by
    intro n m k
    cases k <;> exact Nat.le_of_ble_eq_true rfl
  exact hall _ _ _

theorem ranks_method (constructor : Bool) : ranks (method constructor hs) ≤ 12 := by
  have hall : ∀ n m b, ranks [.raw n, .token .name, .group "(" .contents, .raw m,
      .phrase (.methodEnd b)] ≤ 12 := by
    simp [ranks, Symbol.rank, Symbol.isSolid, Phrase.rank]
  exact hall _ _ _

theorem ranks_expandInside (kind : NodeKind) : ranks (expandInside hs kind) ≤ kind.rank := by
  cases kind with
  | declaration =>
    have hall : ∀ n, ranks [.raw n, .phrase .semicolon] ≤ 12 := fun n => Nat.le_of_ble_eq_true rfl
    exact hall _
  | tryStatement => exact ranks_ite (Nat.le_of_ble_eq_true rfl) (Nat.le_of_ble_eq_true rfl)
  | typeName => exact ranks_ite (Nat.le_of_ble_eq_true rfl) (Nat.le_of_ble_eq_true rfl)
  | enumConstant =>
    unfold expandInside
    dsimp only
    split <;> exact Nat.le_of_ble_eq_true rfl
  | classDeclaration | interfaceDeclaration | enumDeclaration | recordDeclaration
  | annotationDeclaration => exact ranks_typeDeclaration _
  | method | constructor => exact ranks_method _
  | _ => exact Nat.le_of_ble_eq_true rfl

/-- What a phrase consists of is not read deeper than the phrase. -/
theorem ranks_expand (p : Phrase) (hs : List Head) : ranks (p.expand hs) ≤ p.rank := by
  cases p with
  | inside kind => exact ranks_expandInside kind
  | item => exact ranks_expandItem
  | member => exact ranks_expandMember
  | statement role => exact ranks_expandStatement role
  | unit => exact ranks_expandUnit
  | case =>
    refine ranks_ite ?_ (ranks_expandStatement .part)
    split <;> exact Nat.le_of_ble_eq_true rfl
  | element => exact ranks_ite (Nat.le_of_ble_eq_true rfl) ranks_expandUnit
  | piece =>
    exact ranks_ite (Nat.le_of_ble_eq_true rfl)
      (ranks_ite (ranks_ite (Nat.le_of_ble_eq_true rfl) (Nat.le_of_ble_eq_true rfl)) ranks_expandUnit)
  | methodEnd constructor =>
    cases constructor <;> exact ranks_ite (Nat.le_of_ble_eq_true rfl)
      (ranks_ite (Nat.le_of_ble_eq_true rfl) (Nat.le_of_ble_eq_true rfl))
  | constant =>
    exact ranks_ite (Nat.le_of_ble_eq_true rfl) (ranks_ite (Nat.le_of_ble_eq_true rfl)
      (ranks_ite (Nat.le_of_ble_eq_true rfl) (ranks_ite (Nat.le_of_ble_eq_true rfl)
        (Nat.le_of_ble_eq_true rfl))))
  | members | constants | cases | elements => exact Nat.le_of_ble_eq_true rfl
  | handlers resources =>
    exact ranks_ite (Nat.le_of_ble_eq_true rfl) (ranks_ite (Nat.le_of_ble_eq_true rfl)
      (ranks_ite (Nat.le_of_ble_eq_true rfl) (Nat.le_of_ble_eq_true rfl)))
  | lambdaBody =>
    exact ranks_ite (Nat.le_of_ble_eq_true rfl) (ranks_ite (Nat.le_of_ble_eq_true rfl)
      (Nat.le_of_ble_eq_true rfl))
  | _ => exact ranks_ite (Nat.le_of_ble_eq_true rfl) (Nat.le_of_ble_eq_true rfl)

end Phrase

/-! ### Chunks of a shape -/

section Chunks

variable {cs : List Chunk} {o w c : Word} {ss inner used rest : List Shape}

theorem exists_chunk_word (h : shapesOf cs = .word w :: ss) :
    ∃ l ds, cs = .word l :: ds ∧ l.token.word = w ∧ shapesOf ds = ss := by
  cases cs with
  | nil => cases h
  | cons d ds =>
    rw [shapesOf_cons] at h
    obtain ⟨hd, hds⟩ := List.cons.inj h
    cases d with
    | word l =>
      rw [Chunk.shape_word] at hd
      exact ⟨l, ds, rfl, Shape.word.inj hd, hds⟩
    | group opening held closing =>
      rw [Chunk.shape] at hd
      cases hd

theorem exists_chunk_group (hs : Sound (.group o inner c :: ss))
    (h : shapesOf cs = .group o inner c :: ss) : ∃ l held l' ds, cs = .group l held (some l') :: ds ∧
      l.token.word = o ∧ shapesOf held = inner ∧ l'.token.word = c ∧ shapesOf ds = ss := by
  cases cs with
  | nil => cases h
  | cons d ds =>
    rw [shapesOf_cons] at h
    obtain ⟨hd, hds⟩ := List.cons.inj h
    cases d with
    | word l =>
      rw [Chunk.shape_word] at hd
      cases hd
    | group l held closing =>
      rw [Chunk.shape] at hd
      obtain ⟨rfl, rfl, hc⟩ := Shape.group.inj hd
      cases closing with
      | some l' => exact ⟨l, held, l', ds, rfl, rfl, rfl, hc, hds⟩
      | none =>
        -- an empty word closes nothing
        cases hs with
        | group hopens hcloses =>
          rw [← hc] at hcloses
          have := closes_of_is_closerOf hcloses
          cases this

theorem faultsOf_alone_eq_nil {l : Lexeme} {role : Role} (hstray : l.token.word.isStray = false)
    (hcloses : l.token.word.closes = false) : faultsOf (l.alone role) = [] := by
  rw [Lexeme.alone, if_neg (by simp [hcloses])]
  exact (faultsOf_parts l role).2 hstray

theorem faultsOf_rawAll (hs : Sound ss) (h : shapesOf cs = ss) (stop : Place) :
    faultsOf (Chunk.rawAll stop cs).1 = [] := by
  induction hs generalizing cs stop with
  | nil =>
    cases cs with
    | nil => simp [Chunk.rawAll]
    | cons d ds => cases h
  | word _ hcloses hstray _ ih =>
    obtain ⟨l, ds, rfl, rfl, hds⟩ := exists_chunk_word h
    rw [Chunk.rawAll, faultsOf_append, Chunk.raw, faultsOf_alone_eq_nil hstray hcloses]
    exact ih hds _
  | group hopens hcloses hopening hclosing hinner hrest ihinner ih =>
    obtain ⟨l, held, l', ds, rfl, rfl, hheld, rfl, hds⟩ :=
      exists_chunk_group (.group hopens hcloses hopening hclosing hinner hrest) h
    rw [Chunk.rawAll, faultsOf_append, Chunk.raw]
    simp only [faultsOf_append, (faultsOf_parts l .part).2 hopening,
      (faultsOf_parts l' .part).2 hclosing, ihinner hheld, ih hds, List.nil_append]

theorem length_le_wordsIn (ss : List Shape) : ss.length ≤ (wordsIn ss).length := by
  induction ss with
  | nil => exact Nat.zero_le _
  | cons s ss ih =>
    have hpos : 1 ≤ s.words.length := by cases s <;> simp
    rw [wordsIn_cons, List.length_append, List.length_cons]
    omega

/-- The shapes that were used up have words. -/
theorem Reads.lt_wordsIn {es : List Symbol} (h : Reads es ss rest) (hlt : rest.length < ss.length) :
    (wordsIn rest).length < (wordsIn ss).length := by
  obtain ⟨used, rfl⟩ := h.exists_used
  have hused := length_le_wordsIn used
  rw [wordsIn_append]
  rw [List.length_append] at hlt ⊢
  omega

theorem Reads.le_wordsIn {es : List Symbol} (h : Reads es ss rest) :
    (wordsIn rest).length ≤ (wordsIn ss).length := by
  obtain ⟨used, rfl⟩ := h.exists_used
  rw [wordsIn_append, List.length_append]
  exact Nat.le_add_left ..

theorem Reads.sound {es : List Symbol} (h : Reads es ss rest) (hs : Sound ss) : Sound rest := by
  obtain ⟨used, rfl⟩ := h.exists_used
  exact (sound_append.1 hs).2

end Chunks

/-! ### Readings without faults -/

/-- There is depth enough to read with the symbols from the one shapes to the other. -/
def Deep (fuel : ℕ) (es : List Symbol) (ss rest : List Shape) : Prop :=
  64 * (wordsIn ss).length + ranks es ≤ fuel + 64 * (wordsIn rest).length

section Deep

variable {fuel : ℕ} {e : Symbol} {es : List Symbol} {p : Phrase} {ss mid rest : List Shape}

theorem Deep.pos (h : Deep fuel es ss rest) (hreads : Reads es ss rest) : 1 ≤ fuel := by
  obtain ⟨used, rfl⟩ := hreads.exists_used
  have := one_le_ranks es
  simp only [Deep, wordsIn_append, List.length_append] at h
  omega

/-- What is read first takes less depth. -/
theorem Deep.first (h : Deep (fuel + 1) (e :: es) ss rest) {es' es'' : List Symbol}
    (hes' : ranks es' ≤ e.rank) (hrest : Reads es'' mid rest) : Deep fuel es' ss mid := by
  obtain ⟨used, rfl⟩ := hrest.exists_used
  have hle : 1 + e.rank ≤ ranks (e :: es) := by
    rw [ranks]
    exact Nat.add_le_add_left (Nat.le_max_left ..) 1
  simp only [Deep, wordsIn_append, List.length_append] at h ⊢
  omega

theorem ranks_inside (role : Role) {kind : NodeKind} (hkind : kind ≠ .error) :
    ranks [.phrase (.inside kind)] ≤ (Symbol.node role kind).rank := by
  have : 1 ≤ kind.rank := by cases kind <;> exact Nat.le_of_ble_eq_true rfl
  rw [Symbol.rank, if_neg hkind]
  show 1 + max kind.rank 1 ≤ kind.rank + 1
  omega

theorem ranks_many (p : Phrase) : ranks [.many p] ≤ 19 := by
  have := p.rank_le
  show 1 + max p.rank 1 ≤ 19
  omega

/-- What brackets hold takes less depth. -/
theorem Deep.inside {opening : String} {o c : Word} {inner behind : List Shape}
    (h : Deep (fuel + 1) (.group opening p :: es) (.group o inner c :: behind) rest)
    (hrest : Reads es behind rest) : Deep fuel [.phrase p] inner [] := by
  obtain ⟨used, hused⟩ := hrest.exists_used
  have hrank : ranks [.phrase p] ≤ 19 := ranks_many p
  have hpos := one_le_ranks (.group opening p :: es)
  simp only [Deep, hused, wordsIn_cons, wordsIn_append, Shape.words_group, wordsIn_nil,
    List.length_append, List.length_cons, List.length_nil] at h ⊢
  omega

/-- What is read behind it does so as well. -/
theorem Deep.later (h : Deep (fuel + 1) (e :: es) ss rest)
    (hmid : (wordsIn mid).length + (if e.isSolid then 1 else 0) ≤ (wordsIn ss).length) :
    Deep fuel es mid rest := by
  unfold Deep at h ⊢
  rw [ranks] at h
  have := one_le_ranks es
  cases hsolid : e.isSolid with
  | true =>
    rw [hsolid, if_pos rfl] at h hmid
    omega
  | false =>
    rw [hsolid, if_neg Bool.false_ne_true] at h hmid
    omega

/-- A phrase that was found is looked for again. -/
theorem Deep.again (h : Deep (fuel + 1) (.many p :: es) ss rest)
    (hlt : (wordsIn mid).length < (wordsIn ss).length) {last : List Shape}
    (hle : (wordsIn rest).length ≤ (wordsIn last).length) : Deep fuel [.many p] mid last := by
  have hrank := ranks_many p
  have hpos := one_le_ranks (.many p :: es)
  unfold Deep at h ⊢
  omega

end Deep

/-- What gives no part takes nothing. -/
theorem Derives.rest_eq {es : List Symbol} {cs rest : List Chunk} {parts : Parts}
    (h : Derives es cs parts rest) (hnil : parts = []) : rest = cs := by
  induction h with
  | nil => rfl
  | token _ _ _ => simp [Lexeme.parts] at hnil
  | raw hflat _ ih =>
    obtain ⟨hps, hparts⟩ := List.append_eq_nil_iff.1 hnil
    rw [ih hparts]
    cases hflat with
    | nil => rfl
    | word _ _ => simp [Lexeme.parts] at hps
    | group _ _ _ _ => simp [Lexeme.parts] at hps
  | group _ _ _ _ _ _ _ => simp [Lexeme.parts] at hnil
  | node _ _ _ _ _ _ => simp at hnil
  | phrase _ _ ihp ih =>
    obtain ⟨hps, hparts⟩ := List.append_eq_nil_iff.1 hnil
    rw [ih hparts, ihp hps]
  | done _ _ ih => exact ih hnil
  | more _ _ _ _ ihp ih =>
    obtain ⟨hps, hparts⟩ := List.append_eq_nil_iff.1 hnil
    rw [ih hparts, ihp hps]

theorem faults_nodeOf {role : Role} {kind : NodeKind} {place : Place} {parts : Parts}
    (hkind : kind ≠ .error) (hne : parts ≠ []) (h : faultsOf parts = []) :
    (nodeOf role kind place parts).2.faults = [] := by
  rw [nodeOf, if_neg (by simpa using hne), faults_node, if_neg hkind, h]
  rfl

theorem Reader.unread_eq {r : Reader} (h : shapesOf r.chunks = []) : r.unread.1 = [] := by
  obtain ⟨cs, stop⟩ := r
  cases cs with
  | nil => simp [Reader.unread, Chunk.rawAll]
  | cons c cs => cases h

theorem shapesOf_bareOf (cs : List Chunk) : shapesOf (bareOf cs) = shapesOf cs := by
  cases cs with
  | nil => rfl
  | cons c cs => rw [bareOf, shapesOf_cons, shapesOf_cons, Chunk.shape_bare]

/-! ### Reading without a fault -/

/-- With that depth the symbols are read without a fault, and these shapes are left. -/
def Faultless (fuel : ℕ) (es : List Symbol) (r : Reader) (rest : List Shape) : Prop :=
  faultsOf (Java.read fuel es r).1 = [] ∧ shapesOf (Java.read fuel es r).2.chunks = rest

namespace Faultless

variable {fuel : ℕ} {es : List Symbol} {p : Phrase} {role : Role} {kind : NodeKind}
  {cs ds : List Chunk} {stop : Place} {ss mid rest : List Shape}

theorem token {l : Lexeme} (hstray : l.token.word.isStray = false)
    (hcloses : l.token.word.closes = false) (h : Faultless fuel es ⟨ds, l.token.extent.stop⟩ rest) :
    Faultless (fuel + 1) (.token role :: es) ⟨.word l :: ds, stop⟩ rest := by
  rw [Faultless, Java.read]
  simp only [Reader.token, faultsOf_append]
  exact ⟨List.append_eq_nil_iff.2 ⟨faultsOf_alone_eq_nil hstray hcloses, h.1⟩, h.2⟩

theorem raw {n : ℕ} (hlength : n ≤ cs.length) (hs : Sound (shapesOf (cs.take n)))
    (h : Faultless fuel es ⟨cs.drop n, (Chunk.rawAll stop (cs.take n)).2⟩ rest) :
    Faultless (fuel + 1) (.raw n :: es) ⟨cs, stop⟩ rest := by
  rw [Faultless, Java.read]
  simp only [Reader.raw, if_neg (Nat.not_lt_of_le hlength), faultsOf_append]
  exact ⟨List.append_eq_nil_iff.2 ⟨faultsOf_rawAll hs rfl stop, h.1⟩, h.2⟩

theorem group {opening : String} {o c : Lexeme} {held : List Chunk}
    (hopening : o.token.word.is opening = true) (ho : o.token.word.isStray = false)
    (hc : c.token.word.isStray = false)
    (hheld : Faultless fuel [.phrase p] ⟨held, o.token.extent.stop⟩ [])
    (h : Faultless fuel es ⟨ds, c.token.extent.stop⟩ rest) :
    Faultless (fuel + 1) (.group opening p :: es) ⟨.group o held (some c) :: ds, stop⟩ rest := by
  rw [Faultless, Java.read]
  simp only [if_pos hopening, Reader.close, Reader.unread_eq hheld.2, faultsOf_append, hheld.1,
    (faultsOf_parts o .part).2 ho, (faultsOf_parts c .part).2 hc, h.1, faultsOf_nil,
    List.append_nil]
  exact ⟨trivial, h.2⟩

/-- A node gives a part, since something is read for it. -/
theorem node (hkind : kind ≠ .error) (hlt : mid.length < (shapesOf cs).length)
    (hinside : Faultless fuel [.phrase (.inside kind)] ⟨bareOf cs, stop⟩ mid)
    (h : Faultless fuel es (Java.read fuel [.phrase (.inside kind)] ⟨bareOf cs, stop⟩).2 rest) :
    Faultless (fuel + 1) (.node role kind :: es) ⟨cs, stop⟩ rest := by
  have hne : (Java.read fuel [.phrase (.inside kind)] ⟨bareOf cs, stop⟩).1 ≠ [] := fun hnil => by
    have hmid := hinside.2
    rw [(derives_of_read hinside.1).rest_eq hnil, shapesOf_bareOf] at hmid
    exact absurd (hmid ▸ hlt) (Nat.lt_irrefl _)
  have hlead : faultsOf (leadOf cs) = [] := by cases cs <;> simp [leadOf]
  rw [Faultless, Java.read]
  simp only [Reader.comments_eq, faultsOf_append, faultsOf_cons, faultsOf_nil, hlead, h.1,
    List.nil_append, List.append_nil]
  exact ⟨faults_nodeOf hkind hne hinside.1, h.2⟩

theorem phrase {r : Reader} (hfirst : Faultless fuel (p.expand r.view) r mid)
    (h : Faultless fuel es (Java.read fuel (p.expand r.view) r).2 rest) :
    Faultless (fuel + 1) (.phrase p :: es) r rest := by
  rw [Faultless, Java.read, faultsOf_append, hfirst.1, h.1]
  exact ⟨rfl, h.2⟩

theorem done {r : Reader} (hp : p.expand r.view = []) (h : Faultless fuel es r rest) :
    Faultless (fuel + 1) (.many p :: es) r rest := by
  rw [Faultless, Java.read]
  simp only [hp, List.isEmpty_nil, if_true]
  exact h

theorem more {r : Reader} {last : List Shape} (hp : p.expand r.view ≠ [])
    (hlt : mid.length < (shapesOf r.chunks).length)
    (hfirst : Faultless fuel (p.expand r.view) r mid)
    (hmore : Faultless fuel [.many p] (Java.read fuel (p.expand r.view) r).2 last)
    (h : Faultless fuel es
      (Java.read fuel [.many p] (Java.read fuel (p.expand r.view) r).2).2 rest) :
    Faultless (fuel + 1) (.many p :: es) r rest := by
  have hshorter : (Java.read fuel (p.expand r.view) r).2.chunks.length < r.chunks.length := by
    rw [← hfirst.2, shapesOf_eq_map, shapesOf_eq_map, List.length_map, List.length_map] at hlt
    exact hlt
  have hsome : ¬ (p.expand r.view).isEmpty = true := by simpa using hp
  rw [Faultless, Java.read]
  simp only [if_neg hsome, if_pos hshorter, faultsOf_append, hfirst.1, hmore.1, h.1,
    List.nil_append]
  exact ⟨trivial, h.2⟩

end Faultless

/-- **Chunks whose shapes are read are read without a fault**, where there is depth enough. -/
theorem Reads.faultless {fuel : ℕ} {es : List Symbol} {ss rest : List Shape} {r : Reader}
    (h : Reads es ss rest) (hss : shapesOf r.chunks = ss) (hs : Sound ss)
    (hdeep : Deep fuel es ss rest) : Faultless fuel es r rest := by
  induction fuel generalizing es ss rest r with
  | zero => exact absurd (hdeep.pos h) (by decide)
  | succ fuel ih =>
    obtain ⟨cs, stop⟩ := r
    have hview : (⟨cs, stop⟩ : Reader).view = sight ss := by
      rw [← hss, sight_shapesOf]
      rfl
    dsimp only at hss
    cases h with
    | nil => exact ⟨faultsOf_nil, hss⟩
    | @token role w es behind _ hrest =>
      obtain ⟨l, ds, rfl, rfl, hds⟩ := exists_chunk_word hss
      cases hs with
      | word _ hcloses hstray hs =>
        exact .token hstray hcloses (ih hrest hds hs (hdeep.later (by simp [Symbol.isSolid])))
    | @raw taken behind _ es hrest =>
      have htake : shapesOf (cs.take taken.length) = taken := by
        rw [shapesOf_eq_map, List.map_take, ← shapesOf_eq_map, hss, List.take_left]
      have hdrop : shapesOf (cs.drop taken.length) = behind := by
        rw [shapesOf_eq_map, List.map_drop, ← shapesOf_eq_map, hss, List.drop_left]
      have hlength : taken.length ≤ cs.length := by
        have := congrArg List.length hss
        rw [shapesOf_eq_map, List.length_map, List.length_append] at this
        omega
      obtain ⟨htaken, hbehind⟩ := sound_append.1 hs
      exact .raw hlength (htake.symm ▸ htaken)
        (ih hrest hdrop hbehind (hdeep.later (by simp [Symbol.isSolid])))
    | @group opening p o c es inner behind _ hopening hinner hrest =>
      have hdeep' : Deep fuel [.phrase p] inner [] := hdeep.inside hrest
      have hbehind : Deep fuel es behind rest := hdeep.later (by simp [Symbol.isSolid]; omega)
      obtain ⟨l, held, l', ds, rfl, rfl, hheld, rfl, hds⟩ := exists_chunk_group hs hss
      cases hs with
      | group _ _ hol hcl hsinner hs =>
        exact .group hopening hol hcl (ih hinner hheld hsinner hdeep') (ih hrest hds hs hbehind)
    | @node role kind es _ mid _ hkind hlt hinside hrest =>
      have hbare : shapesOf (bareOf cs) = ss := (shapesOf_bareOf cs).trans hss
      have hnode : Faultless fuel [.phrase (.inside kind)] ⟨bareOf cs, stop⟩ mid :=
        ih hinside hbare hs (hdeep.first (ranks_inside role hkind) hrest)
      exact .node hkind (hss.symm ▸ hlt) hnode
        (ih hrest hnode.2 (hinside.sound hs) (hdeep.later (hinside.lt_wordsIn hlt)))
    | @phrase p es _ mid _ hp hrest =>
      rw [← hview] at hp
      have hfirst : Faultless fuel _ ⟨cs, stop⟩ mid :=
        ih hp hss hs (hdeep.first (p.ranks_expand _) hrest)
      exact .phrase hfirst (ih hrest hfirst.2 (hp.sound hs) (hdeep.later hp.le_wordsIn))
    | @done p es _ _ hp hrest =>
      rw [← hview] at hp
      exact .done hp (ih hrest hss hs (hdeep.later (by simp [Symbol.isSolid])))
    | @more p es _ mid _ hp hlt hfirst hrest =>
      rw [← hview] at hp hfirst
      obtain ⟨last, hmore, hrest⟩ := @Reads.split [.many p] es mid rest hrest
      have hlt' := hfirst.lt_wordsIn hlt
      have hsmid := hfirst.sound hs
      have hclean : Faultless fuel _ ⟨cs, stop⟩ mid :=
        ih hfirst hss hs (hdeep.first (p.ranks_expand _) (hmore.append hrest))
      have hagain := ih hmore hclean.2 hsmid (hdeep.again hlt' hrest.le_wordsIn)
      exact .more hp (hss.symm ▸ hlt) hclean hagain
        (ih hrest hagain.2 (hmore.sound hsmid) (hdeep.later (hmore.le_wordsIn.trans hlt'.le)))

/-- **A source is free of syntax errors when its words are those of sound shapes that are read as the
items of a file.** -/
theorem Tree.faults_ofSource {source : List Char} {ss : List Shape} (hwords : words source = wordsIn ss)
    (hs : Sound ss) (h : Reads [.many .item] ss []) : (Tree.ofSource source).faults = [] := by
  have hlexemes := words_lexemes (tokens source)
  have hshapes : shapesOf (chunks (lexemes (tokens source)).1) = ss :=
    shapesOf_chunks hs (hlexemes.trans ((words_eq Place.start source).symm.trans hwords))
  have hlength : (wordsIn ss).length ≤ (tokens source).length := by
    rw [← hwords, words_eq Place.start source]
    exact (List.length_map _).le.trans (List.length_filter_le ..)
  have hdeep : Deep (enoughDepth (tokens source).length) [.many .item] ss [] := by
    have := ranks_many .item
    unfold Deep enoughDepth
    rw [wordsIn_nil, List.length_nil]
    omega
  obtain ⟨hread, hleft⟩ :=
    @Reads.faultless _ _ _ _ ⟨chunks (lexemes (tokens source)).1, Place.start⟩ h hshapes hs hdeep
  have hcomments : ∀ cs : List Token,
      faultsOf (cs.map fun c => (Role.part, Tree.leaf .comment c.extent)) = [] := by
    intro cs
    induction cs with
    | nil => exact faultsOf_nil
    | cons c cs ih =>
      rw [List.map_cons, faultsOf_cons, ih]
      rfl
  rw [Tree.ofSource, faults_node, if_neg (by decide), List.nil_append]
  unfold partsOf
  simp only [faultsOf_append, hread, Reader.unread_eq hleft, hcomments,
    List.append_nil]

end BranchExclusion.Java
