import BranchExclusion.Proofs.Java.Tree

/-!
# Trees kept as text

* `Tree.kept`: the trees that a statement keeps as text;
* `Tree.Keeps`: such trees are in order, and the bodies in a statement are the bodies in them;
* `Tree.keeps`: this holds of every statement.
-/

namespace BranchExclusion.Java.Tree

mutual

/-- The trees that a statement keeps as text: itself, or those of the statements that it owns. -/
def kept (source : List Char) : Tree → List Tree
  | leaf .comment _ => []
  | leaf kind e => [leaf kind e]
  | node kind e parts =>
    if kind = .block then keptOfStatements source parts
    else if (exitKind? kind).isSome then [node kind e parts]
    else
      match ownedRoles? source kind e parts with
      | some roles => keptOfOwned source kind roles parts
      | none =>
        if kind = .labeledStatement ∧ (label? parts).isSome then keptOfLast source parts
        else [node kind e parts]

/-- The trees that the statements of a block keep as text. -/
def keptOfStatements (source : List Char) : List (Role × Tree) → List Tree
  | [] => []
  | (_, t) :: rest =>
    if t.isBrace then keptOfStatements source rest
    else t.kept source ++ keptOfStatements source rest

/-- The same for the last part that is no keyword or symbol. -/
def keptOfLast (source : List Char) : List (Role × Tree) → List Tree
  | [] => []
  | (_, t) :: rest =>
    if rest.any fun p => p.2.isNamed then keptOfLast source rest
    else if t.isNamed then t.kept source
    else []

/-- The same for the first parts with these roles and the handlers of a `try`. -/
def keptOfOwned (source : List Char) (outer : NodeKind) (roles : List Role) :
    List (Role × Tree) → List Tree
  | [] => []
  | (role, leaf kind e) :: rest =>
    if role ∈ roles ∧ (role = .body ∨ kind ≠ .fixed ";") then
      (leaf kind e).kept source ++ keptOfOwned source outer (roles.erase role) rest
    else keptOfOwned source outer (roles.erase role) rest
  | (role, node kind e parts) :: rest =>
    if isClause outer kind then
      keptOfOwned source kind [.body] parts ++ keptOfOwned source outer roles rest
    else if role ∈ roles then
      (node kind e parts).kept source ++ keptOfOwned source outer (roles.erase role) rest
    else keptOfOwned source outer roles rest

end

/-! ### Order, and the bodies in them -/

/-- The trees lie between two offsets, one behind the other, and the bodies are those in the trees.
-/
structure Keeps (source : List Char) (lo hi : ℕ) (trees : List Tree)
    (sites : List String → List BodySite) : Prop where
  inOrder : InOrder lo hi trees
  wellFormed : ∀ k ∈ trees, k.WellFormed
  sites_eq : ∀ scope, sites scope = trees.flatMap (sitesIn source .statement scope)

namespace Keeps

variable {source : List Char} {lo lo' mid hi hi' : ℕ} {trees trees' : List Tree}
  {sites sites' : List String → List BodySite}

theorem nil (h : lo ≤ hi) : Keeps source lo hi [] fun _ => [] :=
  ⟨h, fun _ h => absurd h List.not_mem_nil, fun _ => rfl⟩

/-- A tree that is kept as a whole. -/
theorem whole {t : Tree} (hw : t.WellFormed) :
    Keeps source t.start t.stop [t] fun scope => t.sitesIn source .statement scope :=
  ⟨⟨Nat.le_refl _, hw.le, Nat.le_refl _⟩, fun _ hk => List.mem_singleton.1 hk ▸ hw,
    fun _ => by simp⟩

theorem mono (h : Keeps source lo hi trees sites) (hlo : lo' ≤ lo) (hhi : hi ≤ hi') :
    Keeps source lo' hi' trees sites :=
  ⟨h.inOrder.mono hlo hhi, h.wellFormed, h.sites_eq⟩

theorem append (h : Keeps source lo mid trees sites) (h' : Keeps source mid hi trees' sites') :
    Keeps source lo hi (trees ++ trees') fun scope => sites scope ++ sites' scope where
  inOrder := h.inOrder.append h'.inOrder
  wellFormed k hk := (List.mem_append.1 hk).elim (h.wellFormed k) (h'.wellFormed k)
  sites_eq scope := by rw [h.sites_eq, h'.sites_eq, List.flatMap_append]

/-- The same bodies found in another way, in a wider stretch. -/
theorem congr_sites (h : Keeps source mid hi trees sites) (hlo : lo ≤ mid)
    (hsites : ∀ scope, sites' scope = sites scope) : Keeps source lo hi trees sites' :=
  ⟨h.inOrder.mono hlo (Nat.le_refl _), h.wellFormed, fun scope => by rw [hsites, h.sites_eq]⟩

end Keeps

/-- What the statement keeps as text lies within it, and so do the bodies in it. -/
def KeepsText (source : List Char) (t : Tree) : Prop :=
  t.WellFormed → Keeps source t.start t.stop (t.kept source) fun scope =>
    t.sitesIn source .statement scope

section Parts

variable {source : List Char} {lo hi : ℕ} {parts : List (Role × Tree)}
  (horder : InOrder lo hi (parts.map Prod.snd)) (hw : ∀ p ∈ parts, p.2.WellFormed)
  (hkeeps : ∀ p ∈ parts, KeepsText source p.2)
include horder hw hkeeps

theorem keeps_statements : Keeps source lo hi (keptOfStatements source parts) fun scope =>
    sitesOfStatements source scope parts := by
  induction parts generalizing lo with
  | nil =>
    simp only [keptOfStatements, sitesOfStatements]
    exact .nil horder
  | cons p rest ih =>
    obtain ⟨role, t⟩ := p
    obtain ⟨hlo, hle, hrest⟩ := horder
    have hlater := ih hrest (fun p hp => hw p (List.mem_cons_of_mem _ hp))
      fun p hp => hkeeps p (List.mem_cons_of_mem _ hp)
    simp only [keptOfStatements, sitesOfStatements]
    by_cases hbrace : t.isBrace = true
    · rw [if_pos hbrace]
      refine hlater.congr_sites (hlo.trans hle) fun scope => ?_
      cases t with
      | leaf => rw [sitesIn, List.nil_append]
      | node => cases hbrace
    · rw [if_neg hbrace]
      have hfirst := hkeeps _ (List.mem_cons_self ..) (hw _ (List.mem_cons_self ..))
      exact (hfirst.mono hlo (Nat.le_refl _)).append hlater

theorem keeps_last : Keeps source lo hi (keptOfLast source parts) fun scope =>
    sitesOfLast source scope parts := by
  induction parts generalizing lo with
  | nil =>
    simp only [keptOfLast, sitesOfLast]
    exact .nil horder
  | cons p rest ih =>
    obtain ⟨role, t⟩ := p
    obtain ⟨hlo, hle, hrest⟩ := horder
    simp only [keptOfLast, sitesOfLast]
    by_cases hnamed : rest.any (fun p => p.2.isNamed) = true
    · simp only [if_pos hnamed]
      exact (ih hrest (fun p hp => hw p (List.mem_cons_of_mem _ hp))
        fun p hp => hkeeps p (List.mem_cons_of_mem _ hp)).mono (hlo.trans hle) (Nat.le_refl _)
    · simp only [if_neg hnamed]
      by_cases ht : t.isNamed = true
      · simp only [if_pos ht]
        have hlast := hkeeps _ (List.mem_cons_self ..) (hw _ (List.mem_cons_self ..))
        exact hlast.mono hlo hrest.le
      · simp only [if_neg ht]
        exact .nil ((hlo.trans hle).trans hrest.le)

theorem keeps_owned {outer : NodeKind}
    (hclause : ∀ role kind e ps, (role, node kind e ps) ∈ parts → isClause outer kind = true →
      Keeps source e.start.offset e.stop.offset (keptOfOwned source kind [.body] ps) fun scope =>
        sitesOwned source kind .statement scope [.body] ps)
    (roles : List Role) : Keeps source lo hi (keptOfOwned source outer roles parts) fun scope =>
      sitesOwned source outer .statement scope roles parts := by
  induction parts generalizing lo roles with
  | nil =>
    simp only [keptOfOwned, sitesOwned]
    exact .nil horder
  | cons p rest ih =>
    obtain ⟨role, t⟩ := p
    obtain ⟨hlo, hle, hrest⟩ := horder
    have hlater := ih hrest (fun p hp => hw p (List.mem_cons_of_mem _ hp))
      (fun p hp => hkeeps p (List.mem_cons_of_mem _ hp))
      fun role kind e ps hp => hclause role kind e ps (List.mem_cons_of_mem _ hp)
    have hfirst := hkeeps _ (List.mem_cons_self ..) (hw _ (List.mem_cons_self ..))
    cases t with
    | leaf kind e =>
      simp only [keptOfOwned, sitesOwned]
      split
      · have happend := (hfirst.mono hlo (Nat.le_refl _)).append (hlater (roles.erase role))
        refine happend.congr_sites (Nat.le_refl _) fun scope => ?_
        rw [sitesIn, List.nil_append]
      · exact (hlater _).mono (hlo.trans hle) (Nat.le_refl _)
    | node kind e ps =>
      simp only [keptOfOwned, sitesOwned]
      by_cases hkind : isClause outer kind = true
      · simp only [if_pos hkind]
        have hhere := hclause role kind e ps (List.mem_cons_self ..) hkind
        exact (hhere.mono hlo (Nat.le_refl _)).append (hlater _)
      · simp only [if_neg hkind]
        by_cases hrole : role ∈ roles
        · simp only [if_pos hrole]
          exact (hfirst.mono hlo (Nat.le_refl _)).append (hlater _)
        · simp only [if_neg hrole]
          exact (hlater _).mono (hlo.trans hle) (Nat.le_refl _)

end Parts

/-- Every statement keeps trees in order, and the bodies in it are the bodies in these. -/
theorem keeps {source : List Char} (t : Tree) : KeepsText source t := by
  induction t using Tree.induction with
  | hleaf kind e =>
    intro hw
    cases kind with
    | comment =>
      simp only [kept, sitesIn]
      exact .nil hw.le
    | name | fixed | missing =>
      rw [kept]
      · exact .whole hw
      · simp
  | hnode kind e parts ih ih' =>
    intro hw
    have horder : InOrder e.start.offset e.stop.offset (parts.map Prod.snd) := hw.inOrder
    have hparts : ∀ p ∈ parts, p.2.WellFormed := hw.parts
    rw [kept]
    by_cases hblock : kind = .block
    · rw [if_pos hblock]
      refine (keeps_statements horder hparts ih).congr_sites (Nat.le_refl _) fun scope => ?_
      rw [sitesIn, if_pos (.inr ⟨rfl, hblock⟩)]
    rw [if_neg hblock]
    by_cases hexit : (exitKind? kind).isSome = true
    · rw [if_pos hexit]
      exact .whole hw
    rw [if_neg hexit]
    cases hroles : ownedRoles? source kind e parts with
    | some roles =>
      have howned : Keeps source e.start.offset e.stop.offset (keptOfOwned source kind roles parts)
          fun scope => sitesOwned source kind .statement scope roles parts := by
        refine keeps_owned horder hparts ih ?_ roles
        intro role kind' e' ps hp hclause
        have hps := hparts _ hp
        refine keeps_owned hps.inOrder hps.parts (ih' _ hp) ?_ _
        intro role kind'' e'' ps' _ hclause'
        rw [isClause_eq_false (ne_try_of_isClause hclause)] at hclause'
        cases hclause'
      refine howned.congr_sites (Nat.le_refl _) fun scope => ?_
      rw [sitesIn, if_neg (by simp [hblock]), if_pos rfl, hroles]
    | none =>
      by_cases hlabel : kind = .labeledStatement ∧ (label? parts).isSome
      · rw [if_pos hlabel]
        refine (keeps_last horder hparts ih).congr_sites (Nat.le_refl _) fun scope => ?_
        rw [sitesIn, if_neg (by simp [hblock]), if_pos rfl, hroles]
        exact if_pos ⟨rfl, hlabel⟩
      · rw [if_neg hlabel]
        exact .whole hw

end BranchExclusion.Java.Tree
