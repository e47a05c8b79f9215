import BranchExclusion.Proofs.Chain.Instrument
import BranchExclusion.Transform.File

/-!
# Instrumenting the methods of a file

When all bodies of a file are trees, no operation on them goes wrong.

* `Body.FirstSealed`: the first block that takes no new statements, of those that chains need;
* `Body.instrument_eq`: a body takes its chains, or one of these blocks is sealed;
* `Registry.nodup_methods`: every method is instrumented once;
* `Detection.Searched`: the methods of a file that were searched so far, and the chains found in
  them;
* `Instrumentation.Places`: the methods stay where they are, and those to come are untouched;
* `SourceUnit.exists_instrument`: the chains of a file are found and instrumented.
-/

namespace BranchExclusion

/-! ### One body -/

/-- The blocks that a chain needs, its home before its branches, each with what is told when it is
sealed. -/
def Chain.sites (c : Chain) (declaration : String) : List (BlockId × SealedBlock) :=
  (c.home, ⟨declaration, c.firstLine, .home⟩) ::
    c.members.map fun m => (m.thenBranch, ⟨declaration, m.line, .branch⟩)

namespace Body

variable {body : Body} {chains : List Chain}

/-- Block `id` takes no new statements. -/
def IsSealed (body : Body) (id : BlockId) : Prop :=
  ∃ b, body.block id = .ok b ∧ b.isSealed = true

instance (body : Body) (id : BlockId) : Decidable (body.IsSealed id) :=
  decidable_of_iff ((body.block id).toOption.any Block.isSealed = true) <| by
    cases h : body.block id with
    | error f => simp [IsSealed, h, Except.toOption]
    | ok b => simp [IsSealed, h, Except.toOption]

/-- The first sealed block of the list is the one of which `e` is told. -/
def FirstSealed (body : Body) (sites : List (BlockId × SealedBlock)) (e : SealedBlock) : Prop :=
  ∃ before id after, sites = before ++ (id, e) :: after ∧
    (∀ p ∈ before, ¬ body.IsSealed p.1) ∧ body.IsSealed id

/-- One block takes new statements. -/
def checkSite (body : Body) (p : BlockId × SealedBlock) : Except InstrumentError Unit := do
  let b ← (body.block p.1).mapError .fault
  if b.isSealed then throw (.sealedBlock p.2)

theorem checkChain_eq_forM (declaration : String) (c : Chain) :
    body.checkChain declaration c = (c.sites declaration).forM body.checkSite := by
  have hcons : (c.sites declaration).forM body.checkSite =
      (body.checkSite (c.home, ⟨declaration, c.firstLine, .home⟩) >>= fun _ =>
        (c.members.map fun m : Member =>
          (m.thenBranch, (⟨declaration, m.line, .branch⟩ : SealedBlock))).forM body.checkSite) := rfl
  have hmembers : (c.members.map fun m : Member =>
      (m.thenBranch, (⟨declaration, m.line, .branch⟩ : SealedBlock))).forM body.checkSite =
      c.members.forM fun m => body.checkSite (m.thenBranch, ⟨declaration, m.line, .branch⟩) :=
    List.forM_map
  rw [hcons, hmembers, checkSite, checkChain]
  cases body.block c.home with
  | error f => rfl
  | ok b =>
    dsimp only [Except.mapError]
    rw [ok_bind, ok_bind]
    cases b.isSealed with
    | true => rfl
    | false => rfl

theorem forM_checkChain (declaration : String) :
    chains.forM (body.checkChain declaration) =
      (chains.flatMap fun c => c.sites declaration).forM body.checkSite := by
  induction chains with
  | nil => rfl
  | cons c rest ih =>
    have hcons : (c :: rest).forM (body.checkChain declaration) =
        (body.checkChain declaration c >>= fun _ => rest.forM (body.checkChain declaration)) := rfl
    rw [hcons, ih, checkChain_eq_forM, List.flatMap_cons]
    exact List.forM_append.symm

/-- Blocks that exist all take new statements, or one of them is the first that does not. -/
theorem forM_checkSite {sites : List (BlockId × SealedBlock)}
    (h : ∀ p ∈ sites, ∃ b, body.block p.1 = .ok b) :
    sites.forM body.checkSite = .ok () ∧ (∀ p ∈ sites, ¬ body.IsSealed p.1) ∨
      ∃ e, sites.forM body.checkSite = .error (.sealedBlock e) ∧ body.FirstSealed sites e := by
  induction sites with
  | nil => exact .inl ⟨rfl, by simp⟩
  | cons p rest ih =>
    obtain ⟨b, hb⟩ := h p List.mem_cons_self
    have hcheck : body.checkSite p = if b.isSealed then throw (.sealedBlock p.2) else pure () := by
      rw [checkSite, hb]
      rfl
    have hforM : (p :: rest).forM body.checkSite =
        (body.checkSite p >>= fun _ => rest.forM body.checkSite) := rfl
    rw [hforM, hcheck]
    by_cases hs : b.isSealed = true
    · rw [if_pos hs]
      exact .inr ⟨p.2, rfl, [], p.1, rest, rfl, by simp, b, hb, hs⟩
    · rw [if_neg hs]
      have hp : ¬ body.IsSealed p.1 := by
        rintro ⟨b', hb', hs'⟩
        obtain rfl := block_unique hb hb'
        exact hs hs'
      rcases ih fun q hq => h q (List.mem_cons_of_mem p hq) with ⟨hok, hrest⟩ |
        ⟨e, herr, before, id, after, rfl, hbefore, hid⟩
      · exact .inl ⟨hok, List.forall_mem_cons.2 ⟨hp, hrest⟩⟩
      · exact .inr ⟨e, herr, p :: before, id, after, rfl, List.forall_mem_cons.2 ⟨hp, hbefore⟩, hid⟩

/-- Chains that can be placed are placed when no block of theirs is sealed, and else the first
sealed block is told. -/
theorem instrument_eq (style : FlagStyle) (declaration : String) (tree : body.TreeShaped)
    (hp : body.Placement chains) :
    ((∀ p ∈ chains.flatMap fun c => c.sites declaration, ¬ body.IsSealed p.1) ∧ ∃ placed,
      body.instrument style chains declaration = .ok (placed, .ofChains chains)) ∨
      ∃ e, body.FirstSealed (chains.flatMap fun c => c.sites declaration) e ∧
        body.instrument style chains declaration = .error (.sealedBlock e) := by
  have hblocks : ∀ p ∈ chains.flatMap fun c => c.sites declaration,
      ∃ b, body.block p.1 = .ok b := by
    intro p h
    obtain ⟨c, hc, h⟩ := List.mem_flatMap.1 h
    rcases List.mem_cons.1 h with rfl | h
    · obtain ⟨home, hhome, -⟩ := hp.home c hc
      exact ⟨home, hhome⟩
    · obtain ⟨m, hm, rfl⟩ := List.mem_map.1 h
      obtain ⟨owner, howner⟩ := (hp.adopts c hc m hm).exists_owner
      exact tree.exists_child howner
  obtain ⟨placed, hplaced, -⟩ := exists_placed style tree hp
  rw [instrument, forM_checkChain]
  rcases forM_checkSite hblocks with ⟨hok, hopen⟩ | ⟨e, herr, hfirst⟩
  · rw [hok, ok_bind, hplaced]
    exact .inl ⟨hopen, placed, rfl⟩
  · rw [herr]
    exact .inr ⟨e, hfirst, rfl⟩

/-- Chains that can be placed are placed, or a block of one of them is sealed. -/
theorem instrument_cases (style : FlagStyle) (declaration : String) (tree : body.TreeShaped)
    (hp : body.Placement chains) :
    (∃ r, body.instrument style chains declaration = .ok r) ∨
      ∃ e, body.instrument style chains declaration = .error (.sealedBlock e) := by
  rcases instrument_eq style declaration tree hp with ⟨-, placed, hok⟩ | ⟨e, -, herr⟩
  · exact .inl ⟨_, hok⟩
  · exact .inr ⟨e, herr⟩

end Body

/-! ### The chains of a method -/

namespace Registry

theorem eraseReps_loop {a : ℕ} {l acc : List ℕ} (hl : (a :: l).Pairwise (· ≤ ·))
    (hacc : acc.Pairwise (· > ·)) (hlt : ∀ x ∈ acc, x < a) :
    (List.eraseRepsBy.loop (· == ·) a l acc).Pairwise (· < ·) := by
  induction l generalizing a acc with
  | nil =>
    rw [List.eraseRepsBy.loop, List.pairwise_reverse]
    exact .cons hlt hacc
  | cons b rest ih =>
    obtain ⟨hle, hrest⟩ := List.pairwise_cons.1 hl
    rw [List.eraseRepsBy.loop]
    by_cases hab : a = b
    · subst hab
      simpa using ih hrest hacc hlt
    · have hne : (a == b) = false := by simpa using hab
      have hlt' : a < b := Nat.lt_of_le_of_ne (hle b (List.mem_cons_self ..)) hab
      rw [hne]
      refine ih hrest (.cons hlt hacc) fun x hx => ?_
      rcases List.mem_cons.1 hx with rfl | hx
      · exact hlt'
      · exact (hlt x hx).trans hlt'

theorem mem_eraseReps_loop {a x : ℕ} {l acc : List ℕ} :
    x ∈ List.eraseRepsBy.loop (· == ·) a l acc ↔ x ∈ acc ∨ x ∈ a :: l := by
  induction l generalizing a acc with
  | nil => simp [List.eraseRepsBy.loop, or_comm]
  | cons b rest ih =>
    rw [List.eraseRepsBy.loop]
    by_cases hab : a = b
    · subst hab
      simp [ih]
    · have hne : (a == b) = false := by simpa using hab
      rw [hne, ih]
      simp only [List.mem_cons]
      tauto

theorem sorted_methods (r : Registry) :
    ((r.entries.map Registered.method).mergeSort fun a b => decide (a ≤ b)).Pairwise
      (· ≤ ·) := by
  have h : ((r.entries.map Registered.method).mergeSort fun a b => decide (a ≤ b)).Pairwise
      fun a b => decide (a ≤ b) = true :=
    List.pairwise_mergeSort (by intro a b c; simp; omega) (by intro a b; simp; omega) _
  simpa only [decide_eq_true_eq] using h

/-- The methods with a chain come in the order of the file. -/
theorem ascending_methods (r : Registry) : r.methods.Pairwise (· < ·) := by
  have hsorted := r.sorted_methods
  rw [methods]
  generalize (r.entries.map Registered.method).mergeSort _ = l at hsorted
  cases l with
  | nil => exact .nil
  | cons a rest => exact eraseReps_loop hsorted .nil (by simp)

/-- Every method with a chain is named once. -/
theorem nodup_methods (r : Registry) : r.methods.Nodup :=
  r.ascending_methods.imp fun h => h.ne

theorem mem_methods {r : Registry} {index : ℕ} :
    index ∈ r.methods ↔ index ∈ r.entries.map Registered.method := by
  rw [methods]
  refine Iff.trans ?_ (List.mergeSort_perm (r.entries.map Registered.method)
    fun a b => decide (a ≤ b)).mem_iff
  generalize (r.entries.map Registered.method).mergeSort _ = l
  cases l with
  | nil => rfl
  | cons a rest => exact mem_eraseReps_loop.trans (by simp)

theorem forMethod_add (r : Registry) (visits : List Visit) (index : ℕ) :
    (r.add visits).forMethod index =
      r.forMethod index ++ (Registry.empty.add visits).forMethod index := by
  simp [forMethod, add, empty]

theorem forMethod_eq_nil {r : Registry} {index : ℕ} (h : ∀ e ∈ r.entries, e.method ≠ index) :
    r.forMethod index = [] := by
  rw [forMethod, List.filter_eq_nil_iff.2 fun e he => by simpa using h e he, List.map_nil]

theorem forMethod_add_of_ne {r : Registry} {visits : List Visit} {index k : ℕ}
    (h : ∀ v ∈ visits, ∀ e ∈ v.found, e.method = k) (hne : index ≠ k) :
    (r.add visits).forMethod index = r.forMethod index := by
  have hnil : (Registry.empty.add visits).forMethod index = [] := by
    apply forMethod_eq_nil
    intro e he
    obtain ⟨v, hv, he⟩ := List.mem_flatMap.1 he
    rw [h v hv e he]
    exact hne.symm
  rw [forMethod_add, hnil, List.append_nil]

end Registry

/-! ### Searching a file -/

/-- The methods `done` of a file were searched. They stand where they were, and each of them can
take the chains that were found in it. -/
structure Detection.Searched (u : SourceUnit) (done : List Method) (d : Detection) : Prop where
  path : d.unit.path = u.path
  source : d.unit.source = u.source
  ranges : d.unit.methods.map Method.bodyRange = done.map Method.bodyRange
  trees : ∀ m ∈ d.unit.methods, m.body.TreeShaped
  placement : ∀ (index : ℕ) (m : Method), d.unit.methods[index]? = some m →
    m.body.Placement (d.registry.forMethod index)
  bound : ∀ e ∈ d.registry.entries, e.method < done.length

namespace Detection.Searched

variable {u : SourceUnit} {done : List Method} {d : Detection}

theorem length_eq (h : d.Searched u done) : d.unit.methods.length = done.length := by
  simpa using congrArg List.length h.ranges

/-- One more method is searched. -/
theorem step (h : d.Searched u done) (s : Scanner) {m : Method} (tree : m.body.TreeShaped) :
    ∃ d', d.step s done.length m = .ok d' ∧ d'.Searched u (done ++ [m]) := by
  obtain ⟨after, visits, hdiscover, -, hta, hp, -⟩ := m.exists_woven s done.length tree
  have hmethod := Method.method_of_discover tree hdiscover
  rw [Detection.step, hdiscover, ok_bind]
  refine ⟨_, rfl, h.path, h.source, ?_, ?_, ?_, ?_⟩
  · simp [h.ranges]
  · intro m' hm'
    rcases List.mem_append.1 hm' with hm' | hm'
    · exact h.trees m' hm'
    · rw [List.mem_singleton.1 hm']
      exact hta
  · intro index m' hm'
    rcases Nat.lt_or_ge index d.unit.methods.length with hlt | hge
    · rw [List.getElem?_append_left hlt] at hm'
      have hne : index ≠ done.length := by
        rw [← h.length_eq]
        exact hlt.ne
      rw [Registry.forMethod_add_of_ne hmethod hne]
      exact h.placement index m' hm'
    · rw [List.getElem?_append_right hge, List.getElem?_singleton] at hm'
      split at hm'
      · cases hm'
        obtain rfl : index = done.length := by
          rw [← h.length_eq]
          omega
        have hnil : d.registry.forMethod done.length = [] :=
          Registry.forMethod_eq_nil fun e he => (h.bound e he).ne
        rw [Registry.forMethod_add, hnil, List.nil_append]
        exact hp
      · cases hm'
  · intro e he
    rw [List.length_append, List.length_singleton]
    rcases List.mem_append.1 he with he | he
    · exact (h.bound e he).trans (Nat.lt_succ_self _)
    · obtain ⟨v, hv, he⟩ := List.mem_flatMap.1 he
      rw [hmethod v hv e he]
      exact Nat.lt_succ_self _

end Detection.Searched

/-- All methods of a file are searched. -/
theorem SourceUnit.exists_detect (u : SourceUnit) (s : Scanner)
    (h : ∀ m ∈ u.methods, m.body.TreeShaped) :
    ∃ d, u.detect s = .ok d ∧ d.Searched u u.methods := by
  have hstart : Detection.Searched u [] ⟨{ u with methods := [] }, .empty, []⟩ :=
    ⟨rfl, rfl, rfl, fun _ h => absurd h List.not_mem_nil, (fun _ _ h => by cases h),
      fun _ h => absurd h List.not_mem_nil⟩
  obtain ⟨d, hd, hsearched⟩ := exists_foldlM
    (f := fun (d : Detection) (p : Method × ℕ) => d.step s p.2 p.1) (l := u.methods.zipIdx)
    (fun done d => d.Searched u (done.map Prod.fst)) hstart
    fun done p rest d hsplit hd => by
      have hget : u.methods.zipIdx[done.length]? = some p := by simp [hsplit]
      rw [List.getElem?_zipIdx, Option.map_eq_some_iff] at hget
      obtain ⟨m, hm, rfl⟩ := hget
      simpa using hd.step s (h m (List.mem_of_getElem? hm))
  rw [List.zipIdx_map_fst] at hsearched
  exact ⟨d, hd, hsearched⟩

/-! ### Instrumenting a file -/

/-- The methods `done` of a searched file were instrumented, or left as they were. -/
structure Instrumentation.Places (d : Detection) (done : List ℕ) (i : Instrumentation) : Prop where
  path : i.unit.path = d.unit.path
  source : i.unit.source = d.unit.source
  registry : i.registry = d.registry
  ranges : i.unit.methods.map Method.bodyRange = d.unit.methods.map Method.bodyRange
  later : ∀ index, index ∉ done → i.unit.methods[index]? = d.unit.methods[index]?
  instrumented : i.instrumented.Sublist done

/-- One more method is instrumented, or left as it is. -/
theorem Instrumentation.Places.step {d : Detection} {done : List ℕ} {i : Instrumentation}
    (h : i.Places d done) (style : FlagStyle) {u : SourceUnit} {ms : List Method}
    (hd : d.Searched u ms) {index : ℕ} (hnew : index ∉ done) :
    ∃ i', i.step style index = .ok i' ∧ i'.Places d (done ++ [index]) := by
  have hkeep : i.Places d (done ++ [index]) := {
    h with
    later := fun k hk => h.later k fun hmem => hk (List.mem_append_left _ hmem)
    instrumented := h.instrumented.trans (List.sublist_append_left ..) }
  unfold Instrumentation.step
  cases hm : i.unit.methods[index]? with
  | none => exact ⟨i, rfl, hkeep⟩
  | some m =>
    dsimp only
    have hmd : d.unit.methods[index]? = some m := by rw [← h.later index hnew, hm]
    have hplacement := hd.placement index m hmd
    rw [← h.registry] at hplacement
    have htree := hd.trees m (List.mem_of_getElem? hmd)
    rcases Body.instrument_cases style m.qualifiedName htree hplacement with
      ⟨⟨placed, outcome⟩, hok⟩ | ⟨e, herr⟩
    · rw [hok]
      refine ⟨_, rfl, h.path, h.source, h.registry, ?_, ?_, ?_⟩
      · -- the method keeps its place
        show (i.unit.methods.set index { m with body := placed }).map Method.bodyRange = _
        obtain ⟨hlt, hget⟩ := List.getElem?_eq_some_iff.1 hm
        have hlt' : index < (i.unit.methods.map Method.bodyRange).length := by simpa using hlt
        have hsame : ({ m with body := placed } : Method).bodyRange =
            (i.unit.methods.map Method.bodyRange)[index] := by simp [← hget]
        rw [List.map_set, ← h.ranges, hsame, List.set_getElem_self]
      · intro k hk
        have hne : index ≠ k := fun heq => hk (by simp [heq])
        show (i.unit.methods.set index _)[k]? = _
        rw [List.getElem?_set_ne hne]
        exact h.later k fun hmem => hk (List.mem_append_left _ hmem)
      · show (if outcome.modified then i.instrumented ++ [index] else i.instrumented).Sublist _
        split
        · exact h.instrumented.append (List.Sublist.refl _)
        · exact hkeep.instrumented
    · rw [herr]
      exact ⟨_, rfl, { hkeep with }⟩

/-- The chains of a file are found and instrumented, when all its bodies are trees. Every method
keeps its place. -/
theorem SourceUnit.exists_instrument (u : SourceUnit) (s : Settings)
    (h : ∀ m ∈ u.methods, m.body.TreeShaped) :
    ∃ i, u.instrument s = .ok i ∧ i.unit.path = u.path ∧ i.unit.source = u.source ∧
      i.unit.methods.map Method.bodyRange = u.methods.map Method.bodyRange ∧
      i.instrumented.Nodup := by
  obtain ⟨d, hd, hsearched⟩ := u.exists_detect s.scanner h
  have hnodup := d.registry.nodup_methods
  have hstart : Instrumentation.Places d [] ⟨d.unit, d.registry, [], .zero, [], d.log⟩ :=
    ⟨rfl, rfl, rfl, rfl, fun _ _ => rfl, .refl _⟩
  obtain ⟨i, hi, hplaces⟩ := exists_foldlM (f := Instrumentation.step s.flagStyle)
    (l := d.registry.methods) (Instrumentation.Places d) hstart
    fun done index rest i hsplit hplaces => by
      rw [hsplit] at hnodup
      exact hplaces.step s.flagStyle hsearched fun hmem =>
        (List.nodup_append.1 hnodup).2.2 index hmem index (List.mem_cons_self ..) rfl
  refine ⟨i, ?_, hplaces.path.trans hsearched.path, hplaces.source.trans hsearched.source,
    hplaces.ranges.trans hsearched.ranges, hplaces.instrumented.nodup hnodup⟩
  rw [instrument, hd, ok_bind]
  exact hi

end BranchExclusion
