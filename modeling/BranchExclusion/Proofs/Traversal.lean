import Mathlib.Data.List.Forall2
import Mathlib.Tactic

/-!
# Traversals that can fail

Laws of `Except` for the loops of this library: a sequence of two steps, a `mapM`, a search with
`anyM`, and a `foldlM` with an invariant that speaks about the part of the list already done.
-/

namespace BranchExclusion

variable {ε α β σ : Type}

theorem bind_eq_ok {x : Except ε α} {f : α → Except ε β} {r : β} :
    x >>= f = .ok r ↔ ∃ a, x = .ok a ∧ f a = .ok r := by
  cases x with
  | error e => simp [bind, Except.bind]
  | ok a => simp [bind, Except.bind]

theorem mapError_eq_ok {ε' : Type} {x : Except ε α} {f : ε → ε'} {r : α} :
    x.mapError f = .ok r ↔ x = .ok r := by
  cases x with
  | error e => simp [Except.mapError]
  | ok a => simp [Except.mapError]

@[simp] theorem ok_bind (a : α) (f : α → Except ε β) : (Except.ok a >>= f) = f a := rfl

@[simp] theorem pure_eq_ok (a : α) : (pure a : Except ε α) = .ok a := rfl

/-- A traversal succeeds exactly when it succeeds at each element, in order. -/
theorem mapM_eq_ok {f : α → Except ε β} {l : List α} {r : List β} :
    l.mapM f = .ok r ↔ List.Forall₂ (fun a b => f a = .ok b) l r := by
  induction l generalizing r with
  | nil => simp [eq_comm]
  | cons a l ih =>
    rw [List.mapM_cons, bind_eq_ok, List.forall₂_cons_left_iff]
    simp only [bind_eq_ok, ih, pure_eq_ok, Except.ok.injEq]
    constructor
    · rintro ⟨b, hb, s, hs, rfl⟩
      exact ⟨b, s, hb, hs, rfl⟩
    · rintro ⟨b, s, hb, hs, rfl⟩
      exact ⟨b, hb, s, hs, rfl⟩

theorem exists_mapM {f : α → Except ε β} {l : List α} (h : ∀ a ∈ l, ∃ b, f a = .ok b) :
    ∃ r, l.mapM f = .ok r := by
  induction l with
  | nil => exact ⟨[], rfl⟩
  | cons a l ih =>
    obtain ⟨b, hb⟩ := h a List.mem_cons_self
    obtain ⟨r, hr⟩ := ih fun x hx => h x (List.mem_cons_of_mem a hx)
    exact ⟨b :: r, by rw [List.mapM_cons, hb, ok_bind, hr]; rfl⟩

theorem forall₂_exists_right {R : α → β → Prop} {l : List α} {r : List β}
    (h : List.Forall₂ R l r) {a : α} (ha : a ∈ l) : ∃ b ∈ r, R a b := by
  induction h with
  | nil => cases ha
  | cons hab _ ih =>
    rcases List.mem_cons.1 ha with rfl | ha
    · exact ⟨_, List.mem_cons_self, hab⟩
    · obtain ⟨b, hb, hR⟩ := ih ha
      exact ⟨b, List.mem_cons_of_mem _ hb, hR⟩

theorem forall₂_exists_left {R : α → β → Prop} {l : List α} {r : List β}
    (h : List.Forall₂ R l r) {b : β} (hb : b ∈ r) : ∃ a ∈ l, R a b := by
  have h' : List.Forall₂ (fun b a => R a b) r l := h.flip
  exact forall₂_exists_right h' hb

theorem forall₂_imp_mem {R S : α → β → Prop} {l : List α} {r : List β} (h : List.Forall₂ R l r)
    (himp : ∀ a ∈ l, ∀ b ∈ r, R a b → S a b) : List.Forall₂ S l r := by
  induction h with
  | nil => exact .nil
  | cons hab _ ih =>
    refine .cons (himp _ List.mem_cons_self _ List.mem_cons_self hab) (ih fun a ha b hb => ?_)
    exact himp a (List.mem_cons_of_mem _ ha) b (List.mem_cons_of_mem _ hb)

theorem forall₂_trans {γ : Type} {R : α → β → Prop} {S : β → γ → Prop} {T : α → γ → Prop}
    {l : List α} {m : List β} {r : List γ} (h : List.Forall₂ R l m) (h' : List.Forall₂ S m r)
    (step : ∀ a b c, R a b → S b c → T a c) : List.Forall₂ T l r := by
  induction h generalizing r with
  | nil =>
    cases h'
    exact .nil
  | cons hab _ ih =>
    cases h' with
    | cons hbc h' => exact .cons (step _ _ _ hab hbc) (ih h')

theorem forall₂_append_left {R : α → β → Prop} {l m : List α} {r : List β}
    (h : List.Forall₂ R (l ++ m) r) :
    ∃ r₁ r₂, List.Forall₂ R l r₁ ∧ List.Forall₂ R m r₂ ∧ r = r₁ ++ r₂ := by
  induction l generalizing r with
  | nil => exact ⟨[], r, .nil, h, rfl⟩
  | cons a l ih =>
    obtain ⟨b, r, hab, hr, rfl⟩ := List.forall₂_cons_left_iff.1 h
    obtain ⟨r₁, r₂, h₁, h₂, rfl⟩ := ih hr
    exact ⟨b :: r₁, r₂, .cons hab h₁, h₂, rfl⟩

theorem pairwise_of_forall₂ {R : α → β → Prop} {P : α → α → Prop} {Q : β → β → Prop}
    {l : List α} {r : List β} (h : List.Forall₂ R l r) (hl : l.Pairwise P)
    (step : ∀ a ∈ l, ∀ a' ∈ l, ∀ b b', R a b → R a' b' → P a a' → Q b b') : r.Pairwise Q := by
  induction h with
  | nil => exact .nil
  | @cons a b l r hab h ih =>
    rw [List.pairwise_cons] at hl ⊢
    refine ⟨fun b' hb' => ?_, ih hl.2 fun a ha a' ha' => ?_⟩
    · obtain ⟨a', ha', hab'⟩ := forall₂_exists_left h hb'
      exact step a List.mem_cons_self a' (List.mem_cons_of_mem a ha') b b' hab hab' (hl.1 a' ha')
    · exact step a (List.mem_cons_of_mem _ ha) a' (List.mem_cons_of_mem _ ha')

theorem exists_anyM {f : α → Except ε Bool} {l : List α} (h : ∀ a ∈ l, ∃ b, f a = .ok b) :
    ∃ b, l.anyM f = .ok b := by
  induction l with
  | nil => exact ⟨false, rfl⟩
  | cons a l ih =>
    obtain ⟨b, hb⟩ := h a List.mem_cons_self
    obtain ⟨r, hr⟩ := ih fun x hx => h x (List.mem_cons_of_mem a hx)
    rw [List.anyM_cons, hb, ok_bind]
    cases b with
    | true => exact ⟨true, rfl⟩
    | false => exact ⟨r, hr⟩

theorem anyM_singleton (f : α → Except ε Bool) (a : α) : [a].anyM f = f a := by
  rw [List.anyM_cons]
  cases f a with
  | error e => rfl
  | ok b => cases b <;> rfl

/-- A search that finds nothing has looked at every element. -/
theorem anyM_eq_false {f : α → Except ε Bool} {l : List α} :
    l.anyM f = .ok false ↔ ∀ a ∈ l, f a = .ok false := by
  induction l with
  | nil => exact iff_of_true rfl fun _ h => absurd h List.not_mem_nil
  | cons a l ih =>
    rw [List.anyM_cons, bind_eq_ok, List.forall_mem_cons]
    constructor
    · rintro ⟨b, hb, h⟩
      cases b with
      | true => cases h
      | false => exact ⟨hb, ih.1 h⟩
    · rintro ⟨ha, hl⟩
      exact ⟨false, ha, ih.2 hl⟩

theorem exists_of_anyM_eq_true {f : α → Except ε Bool} {l : List α}
    (h : l.anyM f = .ok true) : ∃ a ∈ l, f a = .ok true := by
  induction l with
  | nil => cases h
  | cons a l ih =>
    rw [List.anyM_cons, bind_eq_ok] at h
    obtain ⟨b, hb, h⟩ := h
    cases b with
    | true => exact ⟨a, List.mem_cons_self, hb⟩
    | false =>
      obtain ⟨x, hx, hfound⟩ := ih h
      exact ⟨x, List.mem_cons_of_mem a hx, hfound⟩

theorem anyM_eq_ok_of_imp {f g : α → Except ε Bool} {l : List α} {r : Bool}
    (h : ∀ a ∈ l, ∀ r, f a = .ok r → g a = .ok r) (hr : l.anyM f = .ok r) : l.anyM g = .ok r := by
  induction l with
  | nil => exact hr
  | cons a l ih =>
    rw [List.anyM_cons, bind_eq_ok] at hr ⊢
    obtain ⟨b, hb, hr⟩ := hr
    refine ⟨b, h a List.mem_cons_self b hb, ?_⟩
    cases b with
    | true => exact hr
    | false => exact ih (fun x hx => h x (List.mem_cons_of_mem a hx)) hr

/-- A loop whose every step succeeds and keeps `Inv` ends, and keeps it to the end. `Inv` speaks
about the elements that are done. -/
theorem exists_foldlM {f : σ → α → Except ε σ} {l : List α} {s : σ} (Inv : List α → σ → Prop)
    (start : Inv [] s)
    (step : ∀ done a rest s, l = done ++ a :: rest → Inv done s →
      ∃ s', f s a = .ok s' ∧ Inv (done ++ [a]) s') :
    ∃ s', l.foldlM f s = .ok s' ∧ Inv l s' := by
  -- by induction on the part that is left, for every part that is done
  have go : ∀ rest done s, l = done ++ rest → Inv done s →
      ∃ s', rest.foldlM f s = .ok s' ∧ Inv l s' := by
    intro rest
    induction rest with
    | nil =>
      intro done s hl hs
      rw [List.append_nil] at hl
      exact ⟨s, rfl, hl ▸ hs⟩
    | cons a rest ih =>
      intro done s hl hs
      obtain ⟨s₁, h₁, hs₁⟩ := step done a rest s hl hs
      obtain ⟨s₂, h₂, hs₂⟩ := ih (done ++ [a]) s₁ (by rw [hl]; simp) hs₁
      exact ⟨s₂, by rw [List.foldlM_cons, h₁, ok_bind, h₂], hs₂⟩
  exact go l [] s rfl start

/-- What every step of a loop keeps holds when the loop has come to its end. `Inv` speaks about the
elements that are done. -/
theorem foldlM_eq_ok {f : σ → α → Except ε σ} {l : List α} {s s' : σ} (h : l.foldlM f s = .ok s')
    (Inv : List α → σ → Prop) (start : Inv [] s)
    (step : ∀ done a rest s s', l = done ++ a :: rest → Inv done s → f s a = .ok s' →
      Inv (done ++ [a]) s') : Inv l s' := by
  have go : ∀ rest done s, l = done ++ rest → Inv done s → rest.foldlM f s = .ok s' → Inv l s' := by
    intro rest
    induction rest with
    | nil =>
      intro done s hl hs h
      cases h
      rw [List.append_nil] at hl
      exact hl ▸ hs
    | cons a rest ih =>
      intro done s hl hs h
      rw [List.foldlM_cons, bind_eq_ok] at h
      obtain ⟨s₁, h₁, h⟩ := h
      exact ih (done ++ [a]) s₁ (by rw [hl]; simp) (step done a rest s s₁ hl hs h₁) h
  exact go l [] s rfl start h

end BranchExclusion
