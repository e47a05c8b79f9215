import BranchExclusion.Proofs.Layout.Pieces

/-!
# Layouts that only get more lines

Two bodies that differ by statements that were added are laid out side by side.

* `Adds`: a list with elements added at any places, and nothing else changed;
* `Together`: two computations that fail with the same error, or succeed with related results;
* `Page.Adds`: a page with lines added;
* `Printer.mapM_adds`, `Printer.statement_adds`: what is added to a block or a statement, when
  it is known what is added to the blocks it owns.
-/

namespace BranchExclusion

namespace Layout

variable {α β ε : Type}

/-- `new` is `old` with `n` elements added that satisfy `P`. -/
inductive Adds (P : α → Prop) : ℕ → List α → List α → Prop
  | nil : Adds P 0 [] []
  | keep {n : ℕ} {old new : List α} (x : α) : Adds P n old new → Adds P n (x :: old) (x :: new)
  | add {n : ℕ} {old new : List α} {x : α} : P x → Adds P n old new → Adds P (n + 1) old (x :: new)

namespace Adds

variable {P Q : α → Prop} {n m : ℕ} {old new old' new' : List α}

theorem refl (P : α → Prop) (l : List α) : Adds P 0 l l := by
  induction l with
  | nil => exact .nil
  | cons x l ih => exact .keep x ih

/-- Elements that are all new. -/
theorem all (h : ∀ x ∈ new, P x) : Adds P new.length [] new := by
  induction new with
  | nil => exact .nil
  | cons x l ih =>
    exact .add (h x List.mem_cons_self) (ih fun y hy => h y (List.mem_cons_of_mem x hy))

theorem append (h : Adds P n old new) (h' : Adds P m old' new') :
    Adds P (n + m) (old ++ old') (new ++ new') := by
  induction h with
  | nil => simpa using h'
  | keep x _ ih => exact .keep x ih
  | @add n old new x hx _ ih =>
    rw [Nat.add_right_comm]
    exact .add hx ih

theorem sublist (h : Adds P n old new) : old.Sublist new := by
  induction h with
  | nil => exact .slnil
  | keep x _ ih => exact .cons_cons x ih
  | add _ _ ih => exact .cons _ ih

theorem eq_of_zero (h : Adds P 0 old new) : new = old := by
  generalize hn : 0 = n at h
  induction h with
  | nil => rfl
  | keep x _ ih => rw [ih hn]
  | add _ _ _ => cases hn

/-- Each element replaced by a list, where a new one gives a single new one. -/
theorem flatMap {Q : β → Prop} {f : α → List β} (h : Adds P n old new)
    (hf : ∀ x, P x → ∃ y, f x = [y] ∧ Q y) : Adds Q n (old.flatMap f) (new.flatMap f) := by
  induction h with
  | nil => exact .nil
  | @keep n old new x _ ih =>
    have happ := (refl Q (f x)).append ih
    rwa [Nat.zero_add] at happ
  | @add n old new x hx _ ih =>
    obtain ⟨y, hy, hQ⟩ := hf x hx
    rw [List.flatMap_cons, hy]
    exact .add hQ ih

end Adds

/-- Both computations fail with the same error, or both succeed with results that `R` relates. -/
inductive Together (R : α → β → Prop) : Except ε α → Except ε β → Prop
  | error (e : ε) : Together R (.error e) (.error e)
  | ok {a : α} {b : β} : R a b → Together R (.ok a) (.ok b)

namespace Together

variable {α' β' : Type} {R : α → β → Prop} {S : α' → β' → Prop} {x : Except ε α} {y : Except ε β}

theorem bind {f : α → Except ε α'} {g : β → Except ε β'} (h : Together R x y)
    (hfg : ∀ a b, R a b → Together S (f a) (g b)) : Together S (x >>= f) (y >>= g) := by
  cases h with
  | error e => exact .error e
  | ok hab => exact hfg _ _ hab

theorem refl {R : α → α → Prop} (hR : ∀ a, R a a) (x : Except ε α) : Together R x x := by
  cases x with
  | error e => exact .error e
  | ok a => exact .ok (hR a)

theorem error_iff (h : Together R x y) (e : ε) : y = .error e ↔ x = .error e := by
  cases h with
  | error e' => rw [Except.error.injEq, Except.error.injEq]
  | ok _ =>
    constructor
    · intro h
      cases h
    · intro h
      cases h

end Together

namespace Page

variable {P : Line → Prop} {n m : ℕ} {p q p' q' : Page}

/-- `q` is the page `p` with `n` lines added. -/
def Adds (P : Line → Prop) (n : ℕ) (p q : Page) : Prop :=
  q.placed = p.placed ∧ Layout.Adds P n p.lines q.lines

theorem Adds.refl (P : Line → Prop) (p : Page) : p.Adds P 0 p := ⟨rfl, .refl P p.lines⟩

theorem Adds.append (h : p.Adds P n q) (h' : p'.Adds P m q') :
    (p ++ p').Adds P (n + m) (q ++ q') :=
  ⟨by rw [placed_append, placed_append, h.1, h'.1], h.2.append h'.2⟩

/-- A page below a row that stays as it is. -/
theorem Adds.headed (h : p.Adds P n q) (top : Page) : (top ++ p).Adds P n (top ++ q) := by
  have happ := (Adds.refl P top).append h
  rwa [Nat.zero_add] at happ

end Page

namespace Printer

variable {P : Line → Prop}

/-- A traversal over a list to which elements were added that give one new line each. -/
theorem mapM_adds {New : α → Prop} {n : ℕ} {old new : List α} {w : α → ℕ}
    {f g : α → Except RenderError Page} (h : Adds New n old new)
    (hold : ∀ x ∈ old, Together (Page.Adds P (w x)) (f x) (g x))
    (hnew : ∀ x, New x → ∃ l, g x = .ok (.line l) ∧ P l) :
    Together (fun ps qs => (concat ps).Adds P (n + (old.map w).sum) (concat qs))
      (old.mapM f) (new.mapM g) := by
  induction h with
  | nil => exact .ok (.refl P _)
  | @keep n old new x _ ih =>
    rw [List.mapM_cons, List.mapM_cons]
    refine (hold x List.mem_cons_self).bind fun p q hpq => ?_
    refine (ih fun y hy => hold y (List.mem_cons_of_mem x hy)).bind fun ps qs hps => .ok ?_
    rw [concat_cons, concat_cons, List.map_cons, List.sum_cons, Nat.add_left_comm]
    exact hpq.append hps
  | @add n old new x hx _ ih =>
    obtain ⟨l, hl, hP⟩ := hnew x hx
    rw [List.mapM_cons, hl, ok_bind, ← bind_pure (old.mapM f)]
    refine (ih hold).bind fun ps qs hps => .ok ?_
    rw [concat_cons, Nat.add_right_comm]
    exact ⟨by simpa [Page.line] using hps.1, .add hP hps.2⟩

end Printer

end Layout

namespace Layout.Printer

variable {P : Line → Prop} {w : BlockId → ℕ} {block block' : BlockId → ℕ → Except RenderError Page}
  {conditional conditional' : Conditional → ℕ → Line → Except RenderError Page}

theorem inside_eq_nil {p : Printer} (hnested : p.nested = []) (r : ByteRange) : p.inside r = [] := by
  rw [inside, hnested]
  split <;> rfl

@[simp] theorem row_mk (p : Printer) (placed : Body) (depth : ℕ) (text : Line) :
    ({ p with body := placed } : Printer).row depth text = p.row depth text := rfl

/-- A statement gets the lines that the blocks it owns get, when this holds of the blocks and of the
conditional that the statement may be. -/
theorem statement_adds (p : Printer) (placed : Body) (t : Statement)
    (hblock : ∀ id ∈ t.childBlocks, ∀ depth,
      Together (Page.Adds P (w id)) (block id depth) (block' id depth))
    (hcond : ∀ c, t.unlabeled = .conditional c → ∀ depth lead, Together
      (Page.Adds P ((Statement.conditional c).childBlocks.map w).sum) (conditional c depth lead)
      (conditional' c depth lead)) (depth : ℕ) (lead : Line) :
    Together (Page.Adds P (t.childBlocks.map w).sum) (p.statement block conditional t depth lead)
      (({ p with body := placed } : Printer).statement block' conditional' t depth lead) := by
  -- no piece is new, only the blocks have new lines
  have hsum : (t.childBlocks.map w).sum =
      0 + ((t.pieces lead).map (Piece.weigh (fun _ => 0) w)).sum := by
    rw [Statement.sum_weigh_pieces, List.sum_map_zero]
    omega
  rw [statement_eq_flow, statement_eq_flow, hsum]
  refine (mapM_adds (Adds.refl (fun _ => False) (t.pieces lead)) (fun q hq => ?_)
    fun _ h => h.elim).bind fun ps qs hps => .ok hps
  have hof := Statement.of_mem_pieces hq
  cases q with
  | block id => exact hblock id hof (depth + 1)
  | conditional c lead => exact hcond c hof depth lead
  | row text => exact .refl (Page.Adds.refl P) _
  | verbatim v lead => exact .refl (Page.Adds.refl P) _
  | comment text span lead => exact .refl (Page.Adds.refl P) _
  | lacking c => exact .error _

/-! ### The two parts of a conditional -/

/-- The lines of a true branch. -/
def branch (p : Printer) (fuel : ℕ) (depth : ℕ) : Option BlockId → Except RenderError Page
  | some id => p.block fuel id depth
  | none => .ok .empty

/-- The lines `top` and what follows the true branch of a conditional. -/
def alternative (p : Printer) (fuel : ℕ) (depth : ℕ) (top : Page) :
    Option BlockId → Except RenderError Page
  | none => .ok (top ++ p.row depth ['}'])
  | some x => do
    let b ← (p.body.block x).mapError .fault
    match b.statements with
    | [.conditional rung] =>
      return top ++ (← p.conditional fuel rung depth (['}'] ++ " else ".toList))
    | _ =>
      return top ++ p.row depth (['}'] ++ " else ".toList ++ ['{']) ++
        (← p.block fuel x (depth + 1)) ++ p.row depth ['}']

theorem conditional_succ (p : Printer) (fuel : ℕ) (c : Conditional) (depth : ℕ) (lead : Line) :
    p.conditional (fuel + 1) c depth lead = p.branch fuel (depth + 1) c.thenBranch >>= fun q =>
      p.alternative fuel depth (p.row depth (lead ++ "if (".toList ++ exprText c.condition ++
        [')', ' ', '{']) ++ q) c.elseBranch := by
  rw [Printer.conditional]
  cases c.thenBranch <;> cases c.elseBranch <;> rfl

/-- The alternative is a rung of the ladder. -/
theorem alternative_rung {p : Printer} {x : BlockId} {b : Block} {rung : Conditional}
    (hb : p.body.block x = .ok b) (hs : b.statements = [.conditional rung]) (fuel depth : ℕ)
    (top : Page) : p.alternative fuel depth top (some x) =
      p.conditional fuel rung depth (['}'] ++ " else ".toList) >>= fun q => .ok (top ++ q) := by
  simp only [alternative, hb, Except.mapError, ok_bind, hs, pure_eq_ok]

/-- The alternative is a block of its own. -/
theorem alternative_block {p : Printer} {x : BlockId} {b : Block} (hb : p.body.block x = .ok b)
    (hs : ∀ rung, b.statements ≠ [.conditional rung]) (fuel depth : ℕ) (top : Page) :
    p.alternative fuel depth top (some x) = p.block fuel x (depth + 1) >>= fun q =>
      .ok (top ++ p.row depth (['}'] ++ " else ".toList ++ ['{']) ++ q ++ p.row depth ['}']) := by
  simp only [alternative, hb, Except.mapError, ok_bind, pure_eq_ok]

end Layout.Printer

namespace Layout

/-! ### From pages to texts -/

/-- The text that a body is laid out to. -/
def frame (base : String) (lines : List Line) : String :=
  String.ofList (['{', '\n'] ++ unlines lines ++ base.toList ++ ['}'])

theorem toList_frame (base : String) (lines : List Line) : (frame base lines).toList =
    '{' :: (('\n' :: (unlines lines ++ base.toList)) ++ ['}']) := by
  rw [frame, String.toList_ofList]
  simp

theorem exists_page_of_renderBody {body : Body} {unit base text : String} {nested : List Edit}
    (h : renderBody body unit base nested = .ok text) : ∃ page,
      Printer.page ⟨body, base.toList, unit.toList, nested⟩ = .ok page ∧
        text = frame base page.lines := by
  obtain ⟨page, hpage, h⟩ := bind_eq_ok.1 h
  refine ⟨page, hpage, ?_⟩
  by_cases hout : page.placed < nested.length
  · simp only [hout, if_true] at h
    cases h
  · by_cases hrep : nested.length < page.placed
    · simp only [hout, hrep, if_true, if_false] at h
      cases h
    · simp only [hout, hrep, if_false] at h
      cases h
      rfl

theorem renderBody_together {P : Line → Prop} {n : ℕ} {body placed : Body} {unit base : String}
    {nested : List Edit}
    (h : Together (Page.Adds P n) (Printer.page ⟨body, base.toList, unit.toList, nested⟩)
      (Printer.page ⟨placed, base.toList, unit.toList, nested⟩)) :
    Together (fun text text' => ∃ lines lines', text = frame base lines ∧
      text' = frame base lines' ∧ Adds P n lines lines')
      (renderBody body unit base nested) (renderBody placed unit base nested) := by
  refine h.bind fun p q hpq => ?_
  obtain ⟨hplaced, hlines⟩ := hpq
  rw [hplaced]
  by_cases hout : p.placed < nested.length
  · simp only [hout, if_true]
    exact .error _
  · by_cases hrep : nested.length < p.placed
    · simp only [hout, hrep, if_true, if_false]
      exact .error _
    · simp only [hout, hrep, if_false]
      exact .ok ⟨p.lines, q.lines, rfl, rfl, hlines⟩

theorem splitOn_unlines (lines : List Line) (tail : Line) :
    (unlines lines ++ tail).splitOn '\n' =
      lines.flatMap (fun l => l.splitOn '\n') ++ tail.splitOn '\n' := by
  induction lines with
  | nil => rfl
  | cons l lines ih =>
    have hcons : unlines (l :: lines) ++ tail = l ++ '\n' :: (unlines lines ++ tail) := by
      simp [unlines]
    rw [hcons, List.splitOn_append_cons_self, ih, List.flatMap_cons, List.append_assoc]

/-- Lines without a line break in them are lines of the text. -/
theorem Adds.splitOn {P : Line → Prop} {n : ℕ} {old new : List Line} (h : Adds P n old new)
    (hP : ∀ l, P l → '\n' ∉ l) (base : String) :
    Adds P n ((frame base old).toList.splitOn '\n') ((frame base new).toList.splitOn '\n') := by
  -- the opening brace is a line of its own; the closing one follows the last line break
  have hsplit : ∀ lines, (frame base lines).toList.splitOn '\n' =
      ['{'] :: (lines.flatMap (fun l => l.splitOn '\n') ++
        (base.toList ++ ['}']).splitOn '\n') := by
    intro lines
    have hcons : (frame base lines).toList =
        ['{'] ++ '\n' :: (unlines lines ++ (base.toList ++ ['}'])) := by
      simp [frame]
    rw [hcons, List.splitOn_append_cons_self, splitOn_unlines,
      List.splitOn_eq_singleton (by decide)]
    rfl
  rw [hsplit, hsplit]
  have hflat := h.flatMap (Q := P) (f := fun l => l.splitOn '\n') fun l hl =>
    ⟨l, List.splitOn_eq_singleton (hP l hl), hl⟩
  exact .keep _ (hflat.append (Adds.refl P _))

theorem not_mem_indentation {base unit : Line} (hb : '\n' ∉ base) (hu : '\n' ∉ unit) (depth : ℕ) :
    '\n' ∉ indentation base unit depth := by
  have hall := forall_mem_indentation (P := fun c => c ≠ '\n') (fun c hc heq => hb (heq ▸ hc))
    (fun c hc heq => hu (heq ▸ hc)) depth
  exact fun h => hall _ h rfl

end Layout

end BranchExclusion
