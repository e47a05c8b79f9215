import BranchExclusion.Proofs.Java.Tree

/-!
# Where the bodies of a well-formed tree are

* `BodySite.nested`: the bodies in the statements of a body;
* `Tree.Sited`: bodies in source order, each behind those before it or nested in them;
* `Tree.sited`: the bodies of a well-formed tree are found in this order.
-/

namespace BranchExclusion.Java

namespace BodySite

/-- The offset of the opening brace. -/
def start (s : BodySite) : ℕ := s.body.start

/-- The offset behind the closing brace. -/
def stop (s : BodySite) : ℕ := s.body.stop

/-- The bodies in the statements of the body. -/
def nested (source : List Char) (s : BodySite) : List BodySite :=
  Tree.sitesOfStatements source s.scope s.body.parts

/-- The second body starts later, and it lies behind the first one or is nested in it. -/
def Follows (source : List Char) (s s' : BodySite) : Prop :=
  s.start < s'.start ∧ (s.stop ≤ s'.start ∨ s'.stop ≤ s.stop ∧ s' ∈ s.nested source)

end BodySite

namespace Tree

/-! ### Bodies in source order -/

/-- The bodies lie between two offsets, and each follows those before it. -/
structure Sited (source : List Char) (lo hi : ℕ) (sites : List BodySite) : Prop where
  within : ∀ s ∈ sites, lo ≤ s.start ∧ s.start < s.stop ∧ s.stop ≤ hi
  wellFormed : ∀ s ∈ sites, s.body.WellFormed
  ordered : sites.Pairwise (BodySite.Follows source)

namespace Sited

variable {source : List Char} {lo lo' mid hi hi' : ℕ} {sites sites' : List BodySite}

theorem nil (lo hi : ℕ) : Sited source lo hi [] :=
  ⟨fun _ h => absurd h List.not_mem_nil, fun _ h => absurd h List.not_mem_nil, .nil⟩

theorem mono (h : Sited source lo hi sites) (hlo : lo' ≤ lo) (hhi : hi ≤ hi') :
    Sited source lo' hi' sites where
  within s hs := by
    have := h.within s hs
    omega
  wellFormed := h.wellFormed
  ordered := h.ordered

theorem append (h : Sited source lo mid sites) (h' : Sited source mid hi sites') (hlo : lo ≤ mid)
    (hhi : mid ≤ hi) : Sited source lo hi (sites ++ sites') where
  within s hs := by
    rcases List.mem_append.1 hs with hs | hs
    · have := h.within s hs
      omega
    · have := h'.within s hs
      omega
  wellFormed s hs := (List.mem_append.1 hs).elim (h.wellFormed s) (h'.wellFormed s)
  ordered := by
    refine List.pairwise_append.2 ⟨h.ordered, h'.ordered, fun s hs s' hs' => ?_⟩
    have hfirst := h.within s hs
    have hlater := h'.within s' hs'
    exact ⟨by omega, .inl (by omega)⟩

/-- A body with those nested in it. -/
theorem cons {s : BodySite} (hw : s.body.WellFormed) (hlo : lo' ≤ s.start) (hhi : s.stop ≤ hi')
    (hlt : s.start < lo) (hle : lo ≤ s.stop) (h : Sited source lo s.stop (s.nested source)) :
    Sited source lo' hi' (s :: s.nested source) where
  within s' hs' := by
    rcases List.mem_cons.1 hs' with rfl | hs'
    · omega
    · have := h.within s' hs'
      omega
  wellFormed s' hs' := by
    rcases List.mem_cons.1 hs' with rfl | hs'
    · exact hw
    · exact h.wellFormed s' hs'
  ordered := by
    refine .cons (fun s' hs' => ?_) h.ordered
    have := h.within s' hs'
    exact ⟨by omega, .inr ⟨this.2.2, hs'⟩⟩

/-- A body that lies in another one is nested in it. -/
theorem mem_nested (h : Sited source lo hi sites) {s s' : BodySite} (hs : s ∈ sites)
    (hs' : s' ∈ sites) (hne : s ≠ s') (hstart : s.start ≤ s'.start) (hstop : s'.stop ≤ s.stop) :
    s' ∈ s.nested source := by
  have : Std.Symm fun s s' : BodySite => s.Follows source s' ∨ s'.Follows source s :=
    ⟨fun _ _ => Or.symm⟩
  have hboth : sites.Pairwise fun s s' => s.Follows source s' ∨ s'.Follows source s :=
    h.ordered.imp Or.inl
  have hlt := (h.within s' hs').2.1
  rcases hboth.forall hs hs' hne with hafter | hbefore
  · rcases hafter.2 with hbehind | hinside
    · omega
    · exact hinside.2
  · have := hbefore.1
    omega

theorem eq_of_start_eq (h : Sited source lo hi sites) {s s' : BodySite} (hs : s ∈ sites)
    (hs' : s' ∈ sites) (hstart : s.start = s'.start) : s = s' := by
  have : Std.Symm fun s s' : BodySite => s.start ≠ s'.start := ⟨fun _ _ => Ne.symm⟩
  have hdistinct : sites.Pairwise fun s s' => s.start ≠ s'.start :=
    h.ordered.imp fun h => Nat.ne_of_lt h.1
  by_contra hne
  exact hdistinct.forall hs hs' hne hstart

end Sited

/-- The bodies in the tree lie within it, however it is met; a block of a class is a body itself,
and is known to have a brace. -/
def Sits (source : List Char) (t : Tree) : Prop :=
  t.WellFormed → ∀ meeting scope,
    (meeting = .inside .classBody → t.isNode .block = true → t.StartsWithBrace) →
      Sited source t.start t.stop (t.sitesIn source meeting scope)

section Parts

variable {source : List Char} {lo hi : ℕ} {parts : List (Role × Tree)}
  (horder : InOrder lo hi (parts.map Prod.snd)) (hw : ∀ p ∈ parts, p.2.WellFormed)
  (hsits : ∀ p ∈ parts, Sits source p.2)
include horder hw hsits

theorem sited_sitesOfStatements (scope : List String) :
    Sited source lo hi (sitesOfStatements source scope parts) := by
  induction parts generalizing lo with
  | nil =>
    rw [sitesOfStatements]
    exact .nil lo hi
  | cons p rest ih =>
    obtain ⟨role, t⟩ := p
    obtain ⟨hlo, hle, hrest⟩ := horder
    rw [sitesOfStatements]
    have hfirst := hsits _ (List.mem_cons_self ..) (hw _ (List.mem_cons_self ..)) .statement scope
      (fun h => by cases h)
    have hlater := ih hrest (fun p hp => hw p (List.mem_cons_of_mem _ hp))
      fun p hp => hsits p (List.mem_cons_of_mem _ hp)
    exact (hfirst.mono hlo (Nat.le_refl _)).append hlater (hlo.trans hle) hrest.le

theorem sited_sitesOfParts {outer : NodeKind} (scope inner : List String)
    (hbrace : outer = .classBody → ∀ p ∈ parts, p.2.isNode .block = true → p.2.StartsWithBrace) :
    Sited source lo hi (sitesOfParts source outer scope inner parts) := by
  induction parts generalizing lo with
  | nil =>
    rw [sitesOfParts]
    exact .nil lo hi
  | cons p rest ih =>
    obtain ⟨role, t⟩ := p
    obtain ⟨hlo, hle, hrest⟩ := horder
    rw [sitesOfParts]
    have hfirst := hsits _ (List.mem_cons_self ..) (hw _ (List.mem_cons_self ..)) (.inside outer)
      (if role = .body then inner else scope)
      (fun h => hbrace (Meeting.inside.inj h) _ (List.mem_cons_self ..))
    have hlater := ih hrest (fun p hp => hw p (List.mem_cons_of_mem _ hp))
      (fun p hp => hsits p (List.mem_cons_of_mem _ hp))
      fun h p hp => hbrace h p (List.mem_cons_of_mem _ hp)
    exact (hfirst.mono hlo (Nat.le_refl _)).append hlater (hlo.trans hle) hrest.le

theorem sited_sitesOfLast (scope : List String) :
    Sited source lo hi (sitesOfLast source scope parts) := by
  induction parts generalizing lo with
  | nil =>
    rw [sitesOfLast]
    exact .nil lo hi
  | cons p rest ih =>
    obtain ⟨role, t⟩ := p
    obtain ⟨hlo, hle, hrest⟩ := horder
    rw [sitesOfLast]
    split
    · exact (ih hrest (fun p hp => hw p (List.mem_cons_of_mem _ hp))
        fun p hp => hsits p (List.mem_cons_of_mem _ hp)).mono (hlo.trans hle) (Nat.le_refl _)
    · split
      · exact (hsits _ (List.mem_cons_self ..) (hw _ (List.mem_cons_self ..)) .statement scope
          (fun h => by cases h)).mono hlo hrest.le
      · exact .nil lo hi

theorem sited_sitesOwned {outer : NodeKind} {meeting : Meeting} (scope : List String)
    (hmeeting : meeting ≠ .inside .classBody)
    (hclause : ∀ role kind e ps, (role, node kind e ps) ∈ parts → isClause outer kind = true →
      Sited source e.start.offset e.stop.offset
        (sitesOwned source kind .statement scope [.body] ps)) (roles : List Role) :
    Sited source lo hi (sitesOwned source outer meeting scope roles parts) := by
  induction parts generalizing lo roles with
  | nil =>
    rw [sitesOwned]
    exact .nil lo hi
  | cons p rest ih =>
    obtain ⟨role, t⟩ := p
    obtain ⟨hlo, hle, hrest⟩ := horder
    have hlater := ih hrest (fun p hp => hw p (List.mem_cons_of_mem _ hp))
      (fun p hp => hsits p (List.mem_cons_of_mem _ hp))
      fun role kind e ps hp => hclause role kind e ps (List.mem_cons_of_mem _ hp)
    cases t with
    | leaf kind e =>
      rw [sitesOwned]
      exact (hlater _).mono (hlo.trans hle) (Nat.le_refl _)
    | node kind e ps =>
      rw [sitesOwned]
      split
      · next hkind =>
        have hfirst := hclause role kind e ps (List.mem_cons_self ..) hkind
        exact (hfirst.mono hlo (Nat.le_refl _)).append (hlater _) (hlo.trans hle) hrest.le
      · split
        · have hfirst := hsits _ (List.mem_cons_self ..) (hw _ (List.mem_cons_self ..)) meeting
            scope (fun h => absurd h hmeeting)
          exact (hfirst.mono hlo (Nat.le_refl _)).append (hlater _) (hlo.trans hle) hrest.le
        · exact (hlater _).mono (hlo.trans hle) (Nat.le_refl _)

end Parts

section Whole

variable {source : List Char}

/-- The bodies nested in a body that starts with a brace lie behind it. -/
theorem exists_sited_nested {t : Tree} (hw : t.WellFormed) (hbrace : t.StartsWithBrace)
    (hsits : ∀ p ∈ t.parts, Sits source p.2) (scope : List String) :
    ∃ lo, t.start < lo ∧ lo ≤ t.stop ∧
      Sited source lo t.stop (sitesOfStatements source scope t.parts) := by
  obtain ⟨p, hp, hfixed, hlt⟩ := hbrace
  have horder := hw.inOrder
  have hparts := hw.parts
  cases hcons : t.parts with
  | nil => rw [hcons] at hp; cases hp
  | cons q rest =>
    rw [hcons] at hp horder hparts hsits
    cases hp
    obtain ⟨role, u⟩ := p
    obtain ⟨hlo, -, hrest⟩ := horder
    refine ⟨u.stop, hlo.trans_lt hlt, hrest.le, ?_⟩
    have hnone : u.sitesIn source .statement scope = [] := by
      cases u with
      | leaf => rw [sitesIn]
      | node => cases hfixed
    rw [sitesOfStatements, hnone, List.nil_append]
    exact sited_sitesOfStatements hrest (fun p hp => hparts p (List.mem_cons_of_mem _ hp))
      (fun p hp => hsits p (List.mem_cons_of_mem _ hp)) scope

theorem sitesIn_body (scope : List String) (t : Tree) :
    t.sitesIn source .body scope = sitesOfStatements source scope t.parts := by
  cases t with
  | leaf => rw [sitesIn, parts, sitesOfStatements]
  | node => rw [sitesIn, if_pos (.inl rfl), parts]

theorem sitesOwned_nil {outer : NodeKind} (h : outer ≠ .tryStatement) (meeting : Meeting)
    (scope : List String) (parts : List (Role × Tree)) :
    sitesOwned source outer meeting scope [] parts = [] := by
  induction parts with
  | nil => rw [sitesOwned]
  | cons p rest ih =>
    obtain ⟨role, t⟩ := p
    cases t with
    | leaf kind e => rw [sitesOwned, List.erase_nil, ih]
    | node kind e ps =>
      rw [sitesOwned, isClause_eq_false h, if_neg Bool.false_ne_true, if_neg List.not_mem_nil, ih]

/-- The bodies in the part in braces of a node are those of its statements. -/
theorem sitesOwned_body {outer : NodeKind} (h : outer ≠ .tryStatement) (scope : List String)
    (parts : List (Role × Tree)) {body : Tree} (hbody : part? .body parts = some body) :
    sitesOwned source outer .body scope [.body] parts =
      sitesOfStatements source scope body.parts := by
  induction parts with
  | nil => cases hbody
  | cons p rest ih =>
    obtain ⟨role, t⟩ := p
    rw [part?_cons] at hbody
    by_cases hrole : role = .body
    · rw [if_pos hrole] at hbody
      cases hbody
      cases t with
      | leaf kind e =>
        rw [sitesOwned, hrole, List.erase_cons_head, sitesOwned_nil h, parts, sitesOfStatements]
      | node kind e ps =>
        rw [sitesOwned, isClause_eq_false h, if_neg Bool.false_ne_true,
          if_pos (List.mem_singleton.2 hrole), hrole, List.erase_cons_head, sitesOwned_nil h,
          List.append_nil, sitesIn_body]
    · rw [if_neg hrole] at hbody
      cases t with
      | leaf kind e =>
        rw [sitesOwned, List.erase_of_not_mem (by simpa using hrole), ih hbody]
      | node kind e ps =>
        rw [sitesOwned, isClause_eq_false h, if_neg Bool.false_ne_true,
          if_neg (by simpa using hrole), ih hbody]

/-- A body is a block of a class, or the part in braces of a node of another kind. -/
theorem bodyName?_eq_some {outer kind : NodeKind} {e : Extent} {parts : List (Role × Tree)}
    {name : String} (h : bodyName? source outer kind e parts = some name) :
    (kind = .block ∧ outer = .classBody) ∨ (kind ≠ .block ∧ kind ≠ .tryStatement ∧
      kind ≠ .classBody ∧ bodies kind parts = (part? .body parts).toList) := by
  unfold bodyName? at h
  split at h
  case h_5 =>
    split at h
    · exact .inl ⟨rfl, ‹_›⟩
    · cases h
  case h_7 => cases h
  all_goals exact .inr ⟨by decide, by decide, by decide, rfl⟩

/-- The bodies of a well-formed tree are found in source order. -/
theorem sited (t : Tree) : Sits source t := by
  induction t using Tree.induction with
  | hleaf kind e =>
    intro _ meeting scope _
    rw [sitesIn]
    exact .nil _ _
  | hnode kind e parts ih ih' =>
    intro hw meeting scope hbrace
    have horder : InOrder e.start.offset e.stop.offset (parts.map Prod.snd) := hw.inOrder
    have hparts : ∀ p ∈ parts, p.2.WellFormed := hw.parts
    rw [sitesIn]
    split
    · exact sited_sitesOfStatements horder hparts ih scope
    split
    · next roles hroles =>
      refine sited_sitesOwned horder hparts ih scope (by simp) ?_ roles
      intro role kind' e' ps hp hclause
      have hclause_wf := hparts _ hp
      refine sited_sitesOwned hclause_wf.inOrder hclause_wf.parts (ih' _ hp) scope (by simp) ?_ _
      intro role kind'' e'' ps' _ hclause'
      rw [isClause_eq_false (ne_try_of_isClause hclause)] at hclause'
      cases hclause'
    · split
      · exact sited_sitesOfLast horder hparts ih scope
      split
      · next name body hname hbody =>
        rcases bodyName?_eq_some hname with ⟨rfl, houter⟩ | ⟨hblock, htry, -, hbodies⟩
        · -- a block of a class
          have hmeeting : meeting = .inside .classBody := by
            cases meeting with
            | inside outer => exact congrArg Meeting.inside houter
            | statement | body => cases houter
          rw [bodyPart?, if_pos rfl, Option.some.injEq] at hbody
          rw [if_pos rfl]
          subst hbody
          obtain ⟨lo, hlt, hle, hnested⟩ := exists_sited_nested hw (hbrace hmeeting rfl) ih scope
          exact .cons hw (Nat.le_refl _) (Nat.le_refl _) hlt hle hnested
        · -- a node with a part in braces
          rw [bodyPart?, if_neg hblock] at hbody
          rw [if_neg hblock, sitesOwned_body htry scope parts hbody]
          have hmem : ∃ p ∈ parts, p.2 = body := by
            obtain ⟨p, hp, hbody⟩ := Option.map_eq_some_iff.1 hbody
            exact ⟨p, List.mem_of_find?_eq_some hp, hbody⟩
          obtain ⟨p, hp, rfl⟩ := hmem
          have hstarts : p.2.StartsWithBrace := by
            apply hw.startsWithBrace
            rw [hbodies]
            exact Option.mem_toList.2 hbody
          obtain ⟨hlo, -, hhi⟩ := horder.bounds (List.mem_map_of_mem hp)
          obtain ⟨lo, hlt, hle, hnested⟩ :=
            exists_sited_nested (hparts p hp) hstarts (ih' p hp) scope
          exact .cons (hparts p hp) hlo hhi hlt hle hnested
      · split
        · next hkind =>
          exact sited_sitesOfParts horder hparts ih scope scope fun h => by rw [hkind] at h; cases h
        · exact .nil _ _
      · refine sited_sitesOfParts horder hparts ih scope _ ?_
        intro hkind p hp hblock
        apply hw.startsWithBrace
        subst hkind
        exact List.mem_filter.2 ⟨List.mem_map_of_mem hp, hblock⟩

end Whole

end Tree

end BranchExclusion.Java
