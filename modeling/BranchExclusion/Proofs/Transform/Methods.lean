import BranchExclusion.Proofs.Method.Blocks
import BranchExclusion.Proofs.Transform.Unit

/-!
# Method by method

The methods of a file share one registry, and yet each of them is instrumented as if it stood alone.

* `Registered.withMethod`: what discovery finds does not depend on the index of the method;
* `Method.Discovers`: the body that discovery leaves, and the chains found in it;
* `Registry.numbered`: the chains of all methods, each with the index of its method;
* `Method.Settles`: what becomes of a method. It has no chains, or a block of one of them is sealed,
  or all of them are placed;
* `Instrumentation.Collects`: the file is put together from what became of its methods;
* `SourceUnit.instrument_settles`: every method is settled, and it is settled as in a file of its
  own.
-/

namespace BranchExclusion

/-! ### The index of a method -/

section Results

variable {ε α β σ τ : Type}

theorem mapM_map_result {γ : Type} (f : α → Except ε β) (k : β → γ) (l : List α) :
    l.mapM (fun a => (f a).map k) = (l.mapM f).map (List.map k) := by
  induction l with
  | nil => rfl
  | cons a l ih =>
    rw [List.mapM_cons, List.mapM_cons, ih]
    cases f a with
    | error e => rfl
    | ok b =>
      cases l.mapM f with
      | error e => rfl
      | ok r => rfl

theorem foldlM_map_state {f : σ → α → Except ε σ} {g : τ → α → Except ε τ} {k : σ → τ}
    (h : ∀ s a, g (k s) a = (f s a).map k) (l : List α) (s : σ) :
    l.foldlM g (k s) = (l.foldlM f s).map k := by
  induction l generalizing s with
  | nil => rfl
  | cons a l ih =>
    rw [List.foldlM_cons, List.foldlM_cons, h]
    cases f s a with
    | error e => rfl
    | ok s' => exact ih s'

end Results

/-- The entry, for the method with that index. -/
def Registered.withMethod (index : ℕ) (e : Registered) : Registered := { e with method := index }

/-- The visit, for the method with that index. -/
def Visit.withMethod (index : ℕ) (v : Visit) : Visit :=
  { v with found := v.found.map (Registered.withMethod index) }

theorem found_withMethod (index : ℕ) (visits : List Visit) :
    (visits.map (Visit.withMethod index)).flatMap Visit.found =
      (visits.flatMap Visit.found).map (Registered.withMethod index) := by
  rw [List.flatMap_map, List.map_flatMap]
  rfl

namespace Method

theorem register_withMethod (i j : ℕ) (m : Method) :
    m.register j = fun c => (m.register i c).map (Registered.withMethod j) := by
  funext c
  rw [register, register]
  cases m.report c with
  | error f => rfl
  | ok r => rfl

theorem visit_withMethod (s : Scanner) (i j : ℕ) (m : Method) (id : BlockId) :
    m.visit s j id = (m.visit s i id).map fun r => (r.1, r.2.withMethod j) := by
  rw [visit, visit]
  cases s.scan m.body id with
  | error f => rfl
  | ok r =>
    obtain ⟨after, chains⟩ := r
    simp only [ok_bind]
    rw [register_withMethod i j, mapM_map_result]
    cases chains.mapM (({ m with body := after } : Method).register i) with
    | error f => rfl
    | ok found =>
      cases after.block id with
      | error f => rfl
      | ok b => rfl

/-- Discovery makes the same visits whatever the index of the method. -/
theorem discoverBelow_withMethod (s : Scanner) (i j fuel : ℕ) (m : Method) (id : BlockId) :
    m.discoverBelow s j fuel id =
      (m.discoverBelow s i fuel id).map fun r => (r.1, r.2.map (Visit.withMethod j)) := by
  induction fuel generalizing m id with
  | zero => rfl
  | succ fuel ih =>
    have hchild : ∀ r c, visitChild s j fuel (r.1, r.2.map (Visit.withMethod j)) c =
        (visitChild s i fuel r c).map fun r => (r.1, r.2.map (Visit.withMethod j)) := by
      rintro ⟨m, visits⟩ c
      rw [visitChild, visitChild, ih]
      cases m.discoverBelow s i fuel c with
      | error f => rfl
      | ok next => simp [Except.map, bind, Except.bind]
    rw [discoverBelow_succ, discoverBelow_succ, visit_withMethod s i j]
    cases m.visit s i id with
    | error f => rfl
    | ok here =>
      show (here.1.body.block id >>= fun b => _) = Except.map _ (here.1.body.block id >>= fun b => _)
      cases here.1.body.block id with
      | error f => rfl
      | ok b =>
        rw [ok_bind, ok_bind]
        have hfold := foldlM_map_state hchild b.childBlocks (here.1, [])
        rw [List.map_nil] at hfold
        rw [hfold]
        cases b.childBlocks.foldlM (visitChild s i fuel) (here.1, []) with
        | error f => rfl
        | ok r => rfl

/-- Discovery leaves the body `after`, with nothing but branches filled in, and finds `chains` in it,
whatever the index of the method. -/
structure Discovers (s : Scanner) (m : Method) (after : Body) (chains : List Chain) : Prop where
  filled : m.body.Filled after
  visits : ∀ index, ∃ visits, m.discover s index = .ok ({ m with body := after }, visits) ∧
    (visits.flatMap Visit.found).map (fun e => (e.method, e.chain)) =
      chains.map fun c => (index, c)

theorem exists_discovers (s : Scanner) (m : Method) (tree : m.body.TreeShaped) :
    ∃ after chains, m.Discovers s after chains ∧ after.TreeShaped ∧ after.Placement chains := by
  obtain ⟨after, visits, hdiscover, hf, hta, hp, -⟩ := m.exists_woven s 0 tree
  have hchains := forMethod_visits (method_of_discover tree hdiscover)
  refine ⟨after, _, ⟨hf, fun index => ⟨visits.map (Visit.withMethod index), ?_, ?_⟩⟩, hta, hp⟩
  · rw [discover, discoverBelow_withMethod s 0 index]
    rw [discover] at hdiscover
    rw [hdiscover]
    rfl
  · rw [hchains, found_withMethod, List.map_map, List.map_map]
    rfl

theorem Discovers.unique {s : Scanner} {m : Method} {after after' : Body}
    {chains chains' : List Chain} (h : m.Discovers s after chains)
    (h' : m.Discovers s after' chains') : after = after' ∧ chains = chains' := by
  obtain ⟨visits, hdiscover, hchains⟩ := h.visits 0
  obtain ⟨visits', hdiscover', hchains'⟩ := h'.visits 0
  rw [hdiscover, Except.ok.injEq, Prod.mk.injEq] at hdiscover'
  obtain ⟨hm, rfl⟩ := hdiscover'
  refine ⟨congrArg Method.body hm, ?_⟩
  have hpairs : (chains.map fun c => (0, c)) = chains'.map fun c => (0, c) :=
    hchains.symm.trans hchains'
  exact List.map_injective_iff.2 (fun _ _ h => (Prod.mk.inj h).2) hpairs

end Method

/-! ### The chains of all methods -/

namespace Registry

/-- The chains of all methods, each with the index of its method. -/
def numbered (lists : List (List Chain)) : List (ℕ × Chain) :=
  lists.zipIdx.flatMap fun p => p.1.map fun c => (p.2, c)

theorem numbered_append (lists : List (List Chain)) (chains : List Chain) :
    numbered (lists ++ [chains]) =
      numbered lists ++ chains.map fun c => (lists.length, c) := by
  simp [numbered, List.zipIdx_append]

theorem mem_numbered {lists : List (List Chain)} {k : ℕ} {c : Chain} :
    (k, c) ∈ numbered lists ↔ ∃ chains, lists[k]? = some chains ∧ c ∈ chains := by
  rw [numbered, List.mem_flatMap]
  constructor
  · rintro ⟨⟨chains, i⟩, hmem, hc⟩
    obtain ⟨c', hc', heq⟩ := List.mem_map.1 hc
    cases heq
    exact ⟨chains, List.mk_mem_zipIdx_iff_getElem?.1 hmem, hc'⟩
  · rintro ⟨chains, hget, hc⟩
    exact ⟨(chains, k), List.mk_mem_zipIdx_iff_getElem?.2 hget, List.mem_map.2 ⟨c, hc, rfl⟩⟩

/-- A registry that holds these chains, each under the index of its method. -/
def Holds (r : Registry) (lists : List (List Chain)) : Prop :=
  r.entries.map (fun e => (e.method, e.chain)) = numbered lists

variable {r : Registry} {lists : List (List Chain)} {k : ℕ}

/-- One more method is searched. -/
theorem Holds.add (h : r.Holds lists) {visits : List Visit} {chains : List Chain}
    (hvisits : (visits.flatMap Visit.found).map (fun e => (e.method, e.chain)) =
      chains.map fun c => (lists.length, c)) : (r.add visits).Holds (lists ++ [chains]) := by
  rw [Holds, numbered_append, ← hvisits, ← h]
  exact List.map_append

theorem filter_numbered {chains : List Chain} (h : lists[k]? = some chains) :
    ((numbered lists).filter fun p => p.1 == k).map Prod.snd = chains := by
  induction lists using List.reverseRecOn with
  | nil => cases h
  | append_singleton lists last ih =>
    rw [numbered_append, List.filter_append, List.map_append]
    rcases Nat.lt_or_ge k lists.length with hlt | hge
    · have hlast : (last.map fun c => (lists.length, c)).filter (fun p => p.1 == k) = [] := by
        simp [List.filter_map, Function.comp_def, hlt.ne']
      rw [List.getElem?_append_left hlt] at h
      rw [ih h, hlast, List.map_nil, List.append_nil]
    · obtain ⟨rfl, rfl⟩ : k = lists.length ∧ last = chains := by
        rw [List.getElem?_append_right hge, List.getElem?_singleton] at h
        split at h
        · next h0 => exact ⟨by omega, Option.some.inj h⟩
        · cases h
      have hfirst : (numbered lists).filter (fun p => p.1 == lists.length) = [] := by
        refine List.filter_eq_nil_iff.2 fun p hp => ?_
        obtain ⟨_, hget, -⟩ := mem_numbered.1 hp
        simpa using (List.getElem?_eq_some_iff.1 hget).1.ne
      rw [hfirst]
      simp [List.filter_map, Function.comp_def]

/-- Each method gets its own chains back. -/
theorem Holds.forMethod_eq (h : r.Holds lists) {chains : List Chain}
    (hk : lists[k]? = some chains) : r.forMethod k = chains := by
  have hpairs : r.forMethod k =
      ((r.entries.map fun e => (e.method, e.chain)).filter fun p => p.1 == k).map Prod.snd := by
    rw [List.filter_map, List.map_map]
    rfl
  rw [hpairs, h, filter_numbered hk]

/-- The methods that have a chain are those with a list that is not empty. -/
theorem Holds.methods_eq (h : r.Holds lists) :
    r.methods = (lists.zipIdx.filter fun p => !p.1.isEmpty).map Prod.snd := by
  have hascending : ((lists.zipIdx.filter fun p => !p.1.isEmpty).map Prod.snd).Pairwise (· < ·) := by
    refine List.Pairwise.sublist (List.filter_sublist.map Prod.snd) ?_
    rw [List.zipIdx_map_snd]
    exact List.pairwise_lt_range'
  have hasymm : ∀ a b, a ∈ r.methods → b ∈ (lists.zipIdx.filter fun p => !p.1.isEmpty).map Prod.snd →
      a < b → b < a → a = b := fun a b _ _ hab hba => absurd hab (Nat.lt_asymm hba)
  refine List.Perm.eq_of_pairwise hasymm r.ascending_methods hascending ?_
  refine (List.perm_ext_iff_of_nodup r.nodup_methods (hascending.imp fun h => h.ne)).2 fun k => ?_
  have hmem : k ∈ r.entries.map Registered.method ↔ ∃ c, (k, c) ∈ numbered lists := by
    rw [← h]
    simp
  rw [mem_methods, hmem]
  simp only [mem_numbered, List.mem_map, List.mem_filter, Prod.exists,
    List.mk_mem_zipIdx_iff_getElem?]
  constructor
  · rintro ⟨c, chains, hget, hc⟩
    exact ⟨chains, k, ⟨hget, by simpa using List.ne_nil_of_mem hc⟩, rfl⟩
  · rintro ⟨chains, _, ⟨hget, hne⟩, rfl⟩
    obtain ⟨c, hc⟩ := List.exists_mem_of_ne_nil chains (by simpa using hne)
    exact ⟨c, chains, hget, hc⟩

end Registry

/-! ### What becomes of a method -/

/-- How instrumentation ends for one method. -/
inductive Verdict
  /-- The method has no chains. -/
  | quiet
  /-- A block of its chains is sealed. -/
  | refused (e : SealedBlock)
  /-- All its chains are placed. -/
  | placed
  deriving DecidableEq, Repr

/-- What became of one method. -/
structure Settled where
  method : Method
  chains : List Chain
  verdict : Verdict

namespace Settled

/-- The error that is told of the method. -/
def failure? (r : Settled) : Option SealedBlock :=
  match r.verdict with
  | .refused e => some e
  | _ => none

/-- The body of the method has changed. -/
def isPlaced (r : Settled) : Bool := decide (r.verdict = .placed)

end Settled

namespace Method

/-- What becomes of a searched method with these chains, all or nothing. The chains are placed only
when none of their blocks is sealed. Otherwise the body stays, and the first sealed block is told,
a home before its branches. -/
inductive Judged (style : FlagStyle) (m : Method) : List Chain → Settled → Prop
  | quiet : Judged style m [] ⟨m, [], .quiet⟩
  | refused {chains : List Chain} {e : SealedBlock}
      (h : m.body.FirstSealed (chains.flatMap fun c => c.sites m.qualifiedName) e) :
      Judged style m chains ⟨m, chains, .refused e⟩
  | placed {chains : List Chain} {placed : Body} (hne : chains ≠ [])
      (hopen : ∀ p ∈ chains.flatMap fun c => c.sites m.qualifiedName, ¬ m.body.IsSealed p.1)
      (h : m.body.instrument style chains m.qualifiedName = .ok (placed, .ofChains chains)) :
      Judged style m chains ⟨{ m with body := placed }, chains, .placed⟩

/-- What becomes of a method that is searched and then instrumented, for itself. -/
def Settles (s : Settings) (m : Method) (r : Settled) : Prop :=
  ∃ after, m.Discovers s.scanner after r.chains ∧
    Judged s.flagStyle { m with body := after } r.chains r

end Method

theorem Body.FirstSealed.exists_sealed {body : Body} {sites : List (BlockId × SealedBlock)}
    {e : SealedBlock} (h : body.FirstSealed sites e) : ∃ p ∈ sites, body.IsSealed p.1 := by
  obtain ⟨before, id, after, rfl, -, hid⟩ := h
  exact ⟨(id, e), by simp, hid⟩

theorem Body.FirstSealed.unique {body : Body} {sites : List (BlockId × SealedBlock)}
    {e e' : SealedBlock} (h : body.FirstSealed sites e) (h' : body.FirstSealed sites e') :
    e = e' := by
  obtain ⟨before, id, after, rfl, hbefore, hid⟩ := h
  obtain ⟨before', id', after', heq, hbefore', hid'⟩ := h'
  rcases List.append_eq_append_iff.1 heq with ⟨rest, rfl, hrest⟩ | ⟨rest, rfl, hrest⟩
  · cases rest with
    | nil => exact congrArg Prod.snd (List.cons.inj hrest).1
    | cons p rest =>
      obtain ⟨rfl, -⟩ := List.cons.inj hrest
      exact absurd hid (hbefore' (id, e) (by simp))
  · cases rest with
    | nil => exact (congrArg Prod.snd (List.cons.inj hrest).1).symm
    | cons p rest =>
      obtain ⟨rfl, -⟩ := List.cons.inj hrest
      exact absurd hid' (hbefore (id', e') (by simp))

namespace Method

variable {style : FlagStyle} {m : Method} {chains : List Chain} {r r' : Settled}

theorem Judged.chains_eq (h : Judged style m chains r) : r.chains = chains := by
  cases h with
  | quiet => rfl
  | refused => rfl
  | placed => rfl

theorem Judged.unique (h : Judged style m chains r) (h' : Judged style m chains r') : r = r' := by
  cases h with
  | quiet =>
    cases h' with
    | quiet => rfl
    | refused h' =>
      obtain ⟨p, hp, -⟩ := h'.exists_sealed
      exact absurd hp List.not_mem_nil
    | placed hne => exact absurd rfl hne
  | refused h =>
    cases h' with
    | quiet =>
      obtain ⟨p, hp, -⟩ := h.exists_sealed
      exact absurd hp List.not_mem_nil
    | refused h' => rw [h.unique h']
    | placed _ hopen =>
      obtain ⟨p, hp, hs⟩ := h.exists_sealed
      exact absurd hs (hopen p hp)
  | placed hne hopen h =>
    cases h' with
    | quiet => exact absurd rfl hne
    | refused h' =>
      obtain ⟨p, hp, hs⟩ := h'.exists_sealed
      exact absurd hs (hopen p hp)
    | placed _ _ h' =>
      rw [h, Except.ok.injEq, Prod.mk.injEq] at h'
      rw [h'.1]

/-- What becomes of a method is read off from one discovery. -/
theorem Settles.judged {s : Settings} (h : m.Settles s r) {after : Body} {visits : List Visit}
    (hdiscover : m.discover s.scanner 0 = .ok ({ m with body := after }, visits)) :
    Judged s.flagStyle { m with body := after } ((visits.flatMap Visit.found).map Registered.chain)
      r := by
  obtain ⟨after', hd, hj⟩ := h
  obtain ⟨visits', hdiscover', hchains⟩ := hd.visits 0
  rw [hdiscover, Except.ok.injEq, Prod.mk.injEq] at hdiscover'
  obtain ⟨hm, rfl⟩ := hdiscover'
  obtain rfl : after = after' := congrArg Method.body hm
  have hsnd : (visits.flatMap Visit.found).map Registered.chain = r.chains := by
    simpa [Function.comp_def] using congrArg (List.map Prod.snd) hchains
  rwa [hsnd]

/-- One thing becomes of a method. -/
theorem Settles.unique {s : Settings} (h : m.Settles s r) (h' : m.Settles s r') : r = r' := by
  obtain ⟨after, hd, hj⟩ := h
  obtain ⟨after', hd', hj'⟩ := h'
  obtain ⟨rfl, hchains⟩ := hd.unique hd'
  rw [← hchains] at hj'
  exact hj.unique hj'

end Method

/-! ### Searching -/

/-- A method as discovery leaves it, with the chains that were found in it. -/
def Method.SearchedTo (s : Scanner) (m : Method) (p : Method × List Chain) : Prop :=
  ∃ after, p.1 = { m with body := after } ∧ m.Discovers s after p.2 ∧ after.TreeShaped ∧
    after.Placement p.2

/-- Detection searches one method after the other, and registers what it finds in each. -/
theorem SourceUnit.detect_eq (u : SourceUnit) (s : Scanner)
    (h : ∀ m ∈ u.methods, m.body.TreeShaped) :
    ∃ d found, u.detect s = .ok d ∧ List.Forall₂ (Method.SearchedTo s) u.methods found ∧
      d.unit = { u with methods := found.map Prod.fst } ∧
      d.registry.Holds (found.map Prod.snd) := by
  obtain ⟨d, hd, found, hfound, hunit, hholds⟩ := exists_foldlM
    (f := fun (d : Detection) (p : Method × ℕ) => d.step s p.2 p.1) (l := u.methods.zipIdx)
    (s := ⟨{ u with methods := [] }, .empty, []⟩)
    (fun done d => ∃ found, List.Forall₂ (Method.SearchedTo s) (done.map Prod.fst) found ∧
      d.unit = { u with methods := found.map Prod.fst } ∧
      d.registry.Holds (found.map Prod.snd)) ⟨[], .nil, rfl, rfl⟩
    fun done p rest d hsplit ⟨found, hfound, hunit, hholds⟩ => by
      have hget : u.methods.zipIdx[done.length]? = some p := by simp [hsplit]
      rw [List.getElem?_zipIdx, Option.map_eq_some_iff] at hget
      obtain ⟨m, hm, rfl⟩ := hget
      obtain ⟨after, chains, hdisc, hta, hp⟩ :=
        m.exists_discovers s (h m (List.mem_of_getElem? hm))
      have hlength : (found.map Prod.snd).length = 0 + done.length := by
        simpa using hfound.length_eq.symm
      obtain ⟨visits, hvisits, hentries⟩ := hdisc.visits (0 + done.length)
      rw [Detection.step, hvisits, ok_bind]
      refine ⟨_, rfl, found ++ [({ m with body := after }, chains)], ?_, ?_, ?_⟩
      · rw [List.map_append]
        exact List.rel_append hfound (.cons ⟨after, rfl, hdisc, hta, hp⟩ .nil)
      · simp [hunit]
      · rw [List.map_append]
        exact hholds.add (hlength ▸ hentries)
  rw [List.zipIdx_map_fst] at hfound
  exact ⟨d, found, hd, hfound, hunit, hholds⟩

/-! ### Instrumenting -/

/-- The methods before `results.length` are settled, and the others are as detection left them. -/
structure Instrumentation.Judges (d : Detection) (results : List Settled) (i : Instrumentation) :
    Prop where
  unit : i.unit = { d.unit with
    methods := results.map Settled.method ++ d.unit.methods.drop results.length }
  registry : i.registry = d.registry
  instrumented : i.instrumented = (results.zipIdx.filter fun p => p.1.isPlaced).map Prod.snd
  failures : i.failures = results.filterMap Settled.failure?
  totals : i.totals = .ofChains ((results.filter Settled.isPlaced).flatMap Settled.chains)

theorem Outcome.ofChains_append (chains more : List Chain) :
    ofChains (chains ++ more) = (ofChains chains).merge (ofChains more) := by
  simp [ofChains, merge]

theorem Outcome.modified_ofChains {chains : List Chain} (h : chains ≠ []) :
    (ofChains chains).modified = true :=
  decide_eq_true (List.length_pos_iff.2 h)

namespace Instrumentation.Judges

variable {d : Detection} {results : List Settled} {i : Instrumentation} {m : Method}
  {rest : List Method}

theorem methods_eq (h : i.Judges d results) (hm : d.unit.methods.drop results.length = m :: rest) :
    i.unit.methods = results.map Settled.method ++ m :: rest := by
  rw [h.unit, ← hm]

theorem drop_succ (hm : d.unit.methods.drop results.length = m :: rest) :
    d.unit.methods.drop (results.length + 1) = rest := by
  rw [← List.drop_drop, hm]
  rfl

/-- A method without chains is passed over. -/
theorem quiet (h : i.Judges d results) (hm : d.unit.methods.drop results.length = m :: rest) :
    i.Judges d (results ++ [⟨m, [], .quiet⟩]) where
  unit := by
    rw [h.unit, hm, List.length_append, List.length_singleton, drop_succ hm]
    simp
  registry := h.registry
  instrumented := by simp [h.instrumented, List.zipIdx_append, Settled.isPlaced]
  failures := by simp [h.failures, Settled.failure?]
  totals := by simp [h.totals, Settled.isPlaced]

/-- A method with chains is instrumented, or left as it is. -/
theorem step (h : i.Judges d results) (style : FlagStyle)
    (hm : d.unit.methods.drop results.length = m :: rest) {chains : List Chain}
    (hchains : d.registry.forMethod results.length = chains) (hne : chains ≠ [])
    (tree : m.body.TreeShaped) (hp : m.body.Placement chains) :
    ∃ i' r, i.step style results.length = .ok i' ∧ m.Judged style chains r ∧
      i'.Judges d (results ++ [r]) := by
  have hget : i.unit.methods[results.length]? = some m := by
    rw [h.methods_eq hm]
    simp
  rw [← h.registry] at hchains
  rw [Instrumentation.step, hget]
  dsimp only
  rw [hchains]
  rcases Body.instrument_eq style m.qualifiedName tree hp with ⟨hopen, placed, hok⟩ |
    ⟨e, hfirst, herr⟩
  · rw [hok]
    refine ⟨_, ⟨{ m with body := placed }, chains, .placed⟩, rfl, .placed hne hopen hok, ?_⟩
    constructor
    · dsimp only
      rw [h.methods_eq hm, List.length_append, List.length_singleton, drop_succ hm, h.unit]
      simp
    · exact h.registry
    · simp [h.instrumented, List.zipIdx_append, Settled.isPlaced, Outcome.modified_ofChains hne]
    · simp [h.failures, Settled.failure?]
    · simp [h.totals, Settled.isPlaced, Outcome.ofChains_append]
  · rw [herr]
    refine ⟨_, ⟨m, chains, .refused e⟩, rfl, .refused hfirst, ?_⟩
    constructor
    · dsimp only
      rw [h.unit, hm, List.length_append, List.length_singleton, drop_succ hm]
      simp
    · exact h.registry
    · simp [h.instrumented, List.zipIdx_append, Settled.isPlaced]
    · simp [h.failures, Settled.failure?]
    · simp [h.totals, Settled.isPlaced]

end Instrumentation.Judges

/-- The methods of a searched file are settled one after the other. -/
theorem Detection.exists_judges (d : Detection) (style : FlagStyle)
    {found : List (Method × List Chain)} (hmethods : d.unit.methods = found.map Prod.fst)
    (hholds : d.registry.Holds (found.map Prod.snd))
    (hfound : ∀ p ∈ found, p.1.body.TreeShaped ∧ p.1.body.Placement p.2) :
    ∃ i results, d.instrument style = .ok i ∧
      List.Forall₂ (fun p r => Method.Judged style p.1 p.2 r) found results ∧
      i.Judges d results := by
  have hstart : Instrumentation.Judges d [] ⟨d.unit, d.registry, [], .zero, [], d.log⟩ :=
    ⟨rfl, rfl, rfl, rfl, rfl⟩
  obtain ⟨i, hi, results, hresults, hjudges⟩ := exists_foldlM
    (f := fun i (p : List Chain × ℕ) =>
      if !p.1.isEmpty then Instrumentation.step style i p.2 else pure i)
    (l := (found.map Prod.snd).zipIdx)
    (fun done i => ∃ results, List.Forall₂ (fun p r => Method.Judged style p.1 p.2 r)
      (found.take done.length) results ∧ i.Judges d results) ⟨[], .nil, hstart⟩
    fun done p rest i hsplit ⟨results, hresults, hjudges⟩ => by
      have hget : (found.map Prod.snd).zipIdx[done.length]? = some p := by simp [hsplit]
      rw [List.getElem?_zipIdx, Option.map_eq_some_iff] at hget
      obtain ⟨chains, hget, rfl⟩ := hget
      have hholding : d.registry.forMethod done.length = chains := hholds.forMethod_eq hget
      rw [List.getElem?_map, Option.map_eq_some_iff] at hget
      obtain ⟨⟨m, chains⟩, hget, rfl⟩ := hget
      obtain ⟨hlt, hget'⟩ := List.getElem?_eq_some_iff.1 hget
      have hlength : results.length = done.length := by
        rw [← hresults.length_eq, List.length_take, Nat.min_eq_left hlt.le]
      have htake : found.take (done.length + 1) = found.take done.length ++ [(m, chains)] := by
        rw [List.take_succ_eq_append_getElem hlt, hget']
      have hdrop : d.unit.methods.drop results.length =
          m :: (found.drop (done.length + 1)).map Prod.fst := by
        rw [hmethods, hlength, ← List.map_drop, List.drop_eq_getElem_cons hlt, hget']
        rfl
      rw [List.length_append, List.length_singleton, htake]
      dsimp only
      by_cases hempty : chains = []
      · subst hempty
        exact ⟨i, rfl, _, List.rel_append hresults (.cons .quiet .nil), hjudges.quiet hdrop⟩
      · obtain ⟨tree, hp⟩ := hfound _ (List.mem_of_getElem? hget)
        obtain ⟨i', r, hi', hr, hjudges'⟩ := hjudges.step style hdrop
          (by rw [hlength, hholding]) hempty tree hp
        refine ⟨i', ?_, _, List.rel_append hresults (.cons hr .nil), hjudges'⟩
        rw [if_pos (by simpa using hempty), Nat.zero_add, ← hlength, hi']
  rw [List.length_zipIdx, List.length_map, List.take_length] at hresults
  refine ⟨i, results, ?_, hresults, hjudges⟩
  rw [instrument, hholds.methods_eq, List.foldlM_map, List.foldlM_filter]
  exact hi

/-! ### A file -/

/-- The file is put together from what became of its methods. -/
structure Instrumentation.Collects (u : SourceUnit) (results : List Settled)
    (i : Instrumentation) : Prop where
  unit : i.unit = { u with methods := results.map Settled.method }
  ascending : i.instrumented.Pairwise (· < ·)
  instrumented : ∀ k, k ∈ i.instrumented ↔ ∃ r, results[k]? = some r ∧ r.verdict = .placed
  failures : i.failures = results.filterMap Settled.failure?
  totals : i.totals = .ofChains ((results.filter Settled.isPlaced).flatMap Settled.chains)
  assertions : i.totals.assertions = i.totals.flags - i.totals.chains
  registry : i.registry.Holds (results.map Settled.chains)

/-- A chain has one assertion less than it has flags. -/
theorem Outcome.assertions_ofChains (chains : List Chain) :
    (ofChains chains).assertions + (ofChains chains).chains = (ofChains chains).flags := by
  induction chains with
  | nil => rfl
  | cons c rest ih =>
    have hc := c.two_le
    simp only [ofChains, List.flatMap_cons, List.length_append, List.length_cons,
      Chain.length_pairs] at ih ⊢
    omega

theorem Instrumentation.Judges.collects {u : SourceUnit} {d : Detection} {results : List Settled}
    {i : Instrumentation} (h : i.Judges d results)
    (hunit : ∃ methods, d.unit = { u with methods := methods } ∧ methods.length = results.length)
    (hholds : d.registry.Holds (results.map Settled.chains)) : i.Collects u results where
  unit := by
    obtain ⟨methods, hunit, hlength⟩ := hunit
    rw [h.unit, hunit, ← hlength, List.drop_length, List.append_nil]
  ascending := by
    rw [h.instrumented]
    refine List.Pairwise.sublist (List.filter_sublist.map Prod.snd) ?_
    rw [List.zipIdx_map_snd]
    exact List.pairwise_lt_range'
  instrumented k := by
    simp [h.instrumented, List.mk_mem_zipIdx_iff_getElem?, Settled.isPlaced]
  failures := h.failures
  totals := h.totals
  assertions := by
    have hsum := Outcome.assertions_ofChains
      ((results.filter Settled.isPlaced).flatMap Settled.chains)
    rw [← h.totals] at hsum
    omega
  registry := by rwa [h.registry]

theorem SourceUnit.exists_collects (u : SourceUnit) (s : Settings)
    (h : ∀ m ∈ u.methods, m.body.TreeShaped) :
    ∃ i results, u.instrument s = .ok i ∧ List.Forall₂ (Method.Settles s) u.methods results ∧
      i.Collects u results := by
  obtain ⟨d, found, hd, hfound, hunit, hholds⟩ := u.detect_eq s.scanner h
  have hplaced : ∀ p ∈ found, p.1.body.TreeShaped ∧ p.1.body.Placement p.2 := by
    intro p hp
    obtain ⟨m, -, after, hbody, -, hta, hplacement⟩ := forall₂_exists_left hfound hp
    rw [hbody]
    exact ⟨hta, hplacement⟩
  obtain ⟨i, results, hi, hresults, hjudges⟩ :=
    d.exists_judges s.flagStyle (by rw [hunit]) hholds hplaced
  have hchains : found.map Prod.snd = results.map Settled.chains := by
    rw [← List.forall₂_eq_eq_eq, List.forall₂_map_left_iff, List.forall₂_map_right_iff]
    exact hresults.imp fun p r h => h.chains_eq.symm
  refine ⟨i, results, ?_, ?_, hjudges.collects ⟨_, hunit, ?_⟩ (hchains ▸ hholds)⟩
  · rw [instrument, hd, ok_bind]
    exact hi
  · refine forall₂_trans hfound hresults fun m p r hp hr => ?_
    obtain ⟨after, hbody, hd, -⟩ := hp
    rw [hbody] at hr
    have hchains := hr.chains_eq
    exact ⟨after, hchains.symm ▸ hd, hchains.symm ▸ hr⟩
  · rw [List.length_map, hresults.length_eq]

/-- **Every method of a file is instrumented as if it stood alone, all or nothing.** A method without
chains is left as discovery leaves it, and so is a method with a sealed block, of which one error is
told. Every other method has all its chains placed. -/
theorem SourceUnit.instrument_settles (u : SourceUnit) (s : Settings)
    (h : ∀ m ∈ u.methods, m.body.TreeShaped) :
    ∃ i results, u.instrument s = .ok i ∧ List.Forall₂ (Method.Settles s) u.methods results ∧
      i.Collects u results ∧
      ∀ (k : ℕ) (m : Method) (r : Settled), u.methods[k]? = some m → results[k]? = some r →
        ∃ alone, ({ u with methods := [m] } : SourceUnit).instrument s = .ok alone ∧
          alone.Collects { u with methods := [m] } [r] := by
  obtain ⟨i, results, hi, hresults, hcollects⟩ := u.exists_collects s h
  refine ⟨i, results, hi, hresults, hcollects, fun k m r hm hr => ?_⟩
  have hsettles : m.Settles s r := by
    obtain ⟨hlt, rfl⟩ := List.getElem?_eq_some_iff.1 hm
    obtain ⟨hlt', rfl⟩ := List.getElem?_eq_some_iff.1 hr
    exact hresults.get hlt hlt'
  obtain ⟨alone, results', halone, hresults', hcollects'⟩ :=
    SourceUnit.exists_collects { u with methods := [m] } s fun m' hm' => by
      rw [List.mem_singleton.1 hm']
      exact h m (List.mem_of_getElem? hm)
  obtain ⟨r', _, hr', hnil, rfl⟩ := List.forall₂_cons_left_iff.1 hresults'
  cases hnil
  rw [hsettles.unique hr']
  exact ⟨alone, halone, hcollects'⟩

/-! ### A file with a sealed block -/

namespace SourceUnit

/-- Two adjacent conditionals, the branch of the second with a syntax error. -/
def sealedMethod : Method := { Method.sample with
  name := "f"
  body := ⟨#[
    ⟨[.conditional ⟨3, .source "a", some 1, none, .zero⟩,
      .conditional ⟨6, .source "b", some 2, none, .zero⟩], .zero, true, false, false⟩,
    ⟨[.other ⟨"x();", .zero, .zero⟩], .zero, true, false, false⟩,
    ⟨[.other ⟨"y();", .zero, .zero⟩], .zero, true, true, false⟩]⟩ }

/-- A lone conditional. -/
def quietMethod : Method := { Method.sample with
  name := "g"
  body := ⟨#[⟨[.conditional ⟨3, .source "a", some 1, none, .zero⟩], .zero, true, false, false⟩,
    ⟨[.exit .returns ⟨"return;", .zero, .zero⟩], .zero, true, false, false⟩]⟩ }

/-- A method with a sealed block, one that takes its chain, and one without chains. -/
def mixed : SourceUnit := ⟨"A.java", "", [sealedMethod, Method.sample, quietMethod], []⟩

theorem treeShaped_mixed : ∀ m ∈ mixed.methods, m.body.TreeShaped := by
  have hsealed : sealedMethod.body.TreeShaped := ⟨by decide, by decide, by decide, by decide⟩
  have hquiet : quietMethod.body.TreeShaped := ⟨by decide, by decide, by decide, by decide⟩
  simpa [mixed] using ⟨hsealed, Method.treeShaped_sample, hquiet⟩

/-- The chain of the two conditionals before the sealed block. -/
def sealedChain : Chain := ⟨Body.root, [⟨3, 1⟩, ⟨6, 2⟩], Nat.le_refl 2⟩

/-- What becomes of the three methods. -/
def mixedResults : List Settled := [
  ⟨sealedMethod, [sealedChain], .refused ⟨"A.f", 6, .branch⟩⟩,
  ⟨{ Method.sample with body := Method.samplePlaced }, [Method.sampleChain], .placed⟩,
  ⟨quietMethod, [], .quiet⟩]

theorem eq_mixedResults {results : List Settled}
    (h : List.Forall₂ (Method.Settles .standard) mixed.methods results) :
    results = mixedResults := by
  have hlist : mixed.methods = [sealedMethod, Method.sample, quietMethod] := rfl
  rw [hlist] at h
  obtain _ | ⟨h₁, _ | ⟨h₂, _ | ⟨h₃, _ | _⟩⟩⟩ := h
  have hsealed : sealedMethod.body.FirstSealed ([sealedChain].flatMap fun c => c.sites "A.f")
      ⟨"A.f", 6, .branch⟩ :=
    ⟨[(0, ⟨"A.f", 3, .home⟩), (1, ⟨"A.f", 3, .branch⟩)], 2, [], rfl, by decide, by decide⟩
  have e₁ := (h₁.judged rfl).unique (.refused hsealed)
  have e₂ := (h₂.judged rfl).unique
    (.placed (by decide) (by decide) Method.instrument_sample)
  have e₃ := (h₃.judged rfl).unique .quiet
  rw [e₁, e₂, e₃]
  rfl

/-- The file with the three methods: one error is told, and the other chain is placed. -/
theorem instrument_settles_mixed : (∀ m ∈ mixed.methods, m.body.TreeShaped) ∧
    ∃ i, mixed.instrument .standard = .ok i ∧ i.Collects mixed mixedResults ∧
      1 ∈ i.instrumented ∧ i.failures = [⟨"A.f", 6, .branch⟩] ∧ i.totals = ⟨1, 2, 1⟩ := by
  obtain ⟨i, results, hi, hresults, hcollects, -⟩ :=
    mixed.instrument_settles .standard treeShaped_mixed
  obtain rfl := eq_mixedResults hresults
  exact ⟨treeShaped_mixed, i, hi, hcollects, (hcollects.instrumented 1).2 ⟨_, rfl, rfl⟩,
    hcollects.failures, hcollects.totals⟩

end SourceUnit

end BranchExclusion
