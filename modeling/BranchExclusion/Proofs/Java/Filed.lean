import BranchExclusion.Proofs.Java.Renewed

/-!
# Files without syntax errors

A file without syntax errors is read again when bodies in it get new texts.

* `exists_derivedFrom_partsOf`: the file is derived from its chunks;
* `tidy_of_faults`: it has no stray tokens;
* `BodySite.IsDerived`: a body of the file as it was derived;
* `Renewal.faults_splice`: the file with new texts for its bodies has no syntax errors.
-/

namespace BranchExclusion.Java

open BranchExclusion.Java.Tree (bodyName? bodyPart?)

variable {source out : List Char} {edits : List Edit}

/-! ### The parts of a file -/

section File

variable (hfaults : (Tree.ofSource source).faults = [])
include hfaults

/-- The parts of a file are derived from its chunks, but for the comments at its end. -/
theorem exists_derivedFrom_partsOf : ∃ ps, partsOf source = ps ++
      (lexemes (tokens source)).2.map (fun c => (.part, .leaf .comment c.extent)) ∧
    DerivedFrom source [.many .item] (chunks (lexemes (tokens source)).1) ps [] := by
  obtain ⟨ps, hps, hderives⟩ := exists_derives_partsOf hfaults
  refine ⟨ps, hps, hderives, ?_, ?_⟩
  · exact paired_chunks (proper_lexemesFrom (List.forall_mem_nil _) fun t ht => kind_of_opens ht)
  · have hprefix : tokensOf (chunks (lexemes (tokens source)).1) <+: tokens source :=
      ⟨_, tokens_lexemes (tokens source)⟩
    exact hprefix.isInfix

theorem derived_partsOf : ∀ p ∈ partsOf source, p.2.Derived source := by
  obtain ⟨ps, hps, hderives⟩ := exists_derivedFrom_partsOf hfaults
  rw [hps]
  refine List.forall_mem_append.2 ⟨hderives.derived, fun p hp => ?_⟩
  obtain ⟨c, -, rfl⟩ := List.mem_map.1 hp
  exact .leaf .comment c.extent

/-- The blocks of a file are derived. -/
theorem Tree.Has.derived {kind : NodeKind} {e : Extent} {ps : Parts}
    (h : (Tree.ofSource source).Has (.node kind e ps)) (hkind : kind.isBraced = true) :
    (Tree.node kind e ps).Derived source := by
  rw [Tree.ofSource] at h
  cases h with
  | refl => cases hkind
  | part hp hhas =>
    exact hhas.of_hereditary (fun _ ht => ht.forall_parts) (derived_partsOf hfaults _ hp)

/-- The words that are written for the tokens of a file are read as its items. -/
theorem exists_items (hedits : edits.Pairwise fun e f => e.range.Disjoint f.range)
    (hadmits : ∀ p ∈ partsOf source, p.2.Admits edits) : ∃ ss, Sound ss ∧
      Reads [.many .item] ss [] ∧ wordsIn ss = (tokens source).flatMap (writtenFor edits) := by
  obtain ⟨ps, hps, hderives⟩ := exists_derivedFrom_partsOf hfaults
  obtain ⟨lo, hi, hchained⟩ := exists_chained hderives.tokens
  obtain ⟨ss, used, hss⟩ := hderives.derives.exists_reads hedits hderives.paired hchained
    fun p hp => hadmits p (hps ▸ List.mem_append_left _ hp)
  have hreads := hss.reads [] rfl
  have htokens := hss.tokens
  rw [List.append_nil] at hreads
  rw [tokensOf_nil, List.append_nil] at htokens
  have hcomments : ∀ c ∈ (lexemes (tokens source)).2, c.isComment = true :=
    isComment_lexemesFrom (List.forall_mem_nil _)
  have hall := tokens_lexemes (tokens source)
  rw [htokens] at hall
  refine ⟨ss, hss.sound, hreads, ?_⟩
  conv_rhs => rw [← hall]
  rw [List.flatMap_append, flatMap_writtenFor_comments hcomments, List.append_nil, hss.words]

/-- A file without syntax errors has no stray tokens. -/
theorem tidy_of_faults : Tidy source := by
  obtain ⟨ss, hsound, -, hwords⟩ :=
    @exists_items source [] hfaults .nil fun p _ => p.2.admits_nil
  rw [flatMap_writtenFor_nil] at hwords
  intro w hw
  refine hsound.isStray w ?_
  rw [hwords]
  exact hw

end File

/-! ### New texts for bodies of a file -/

/-- Blocks of a file get new texts. -/
theorem words_splice (hs : Tidy source) (hedits : edits.Pairwise fun e f => e.range.Disjoint f.range)
    (hexchange : ∀ e ∈ edits, Exchange source e) (hsplice : splice source edits = .ok out) :
    words out = (tokens source).flatMap (writtenFor edits) := by
  have hwhole : Text.slice source 0 (Text.byteLength source) = source := by
    rw [Text.slice, Text.dropBytes_zero, Nat.sub_zero, Text.takeBytes_byteLength]
  have hsame : edits.map (fun e => e.relativeTo 0) = edits := by
    simp [Edit.relativeTo, ByteRange.relativeTo]
  have hslice : splice (Text.slice source 0 (Text.byteLength source))
      (edits.map fun e => e.relativeTo 0) = .ok out := by rw [hwhole, hsame, hsplice]
  obtain ⟨hwords, -⟩ := words_splice_slice (r := ⟨0, Text.byteLength source⟩) hs hedits hexchange
    (fun e he => ByteRange.contains_iff.2 ⟨Nat.zero_le _, (hexchange e he).stop.le⟩)
    (cut_zero source) (cut_byteLength source) (Nat.zero_le _) hslice
  rwa [tokensIn_whole] at hwords

/-- **A file whose bodies get new texts** is free of syntax errors as before. -/
theorem Renewal.faults_splice (h : Renewal source (Tree.ofSource source) edits)
    (hfaults : (Tree.ofSource source).faults = []) (hsplice : splice source edits = .ok out) :
    (Tree.ofSource out).faults = [] := by
  have hadmits := Tree.admits_of_hosts h.wellFormed fun e he => .inr (h.hosts e he)
  have hparts : ∀ p ∈ partsOf source, p.2.Admits edits := by
    cases hadmits with
    | whole _ _ hreadable => cases hreadable.1
    | node hparts => exact hparts
  obtain ⟨ss, hsound, hreads, hwords⟩ := exists_items hfaults h.disjoint hparts
  exact Tree.faults_ofSource ((words_splice h.tidy h.disjoint h.exchange hsplice).trans hwords.symm)
    hsound hreads

/-! ### Bodies of a file -/

/-- A node that has a body is a block, or has a part in braces. -/
theorem isCallable_of_bodyName? {outer kind : NodeKind} {e : Extent} {ps : Parts} {name : String}
    (h : bodyName? source outer kind e ps = some name) : kind = .block ∨ kind.isCallable = true := by
  cases kind <;> first | exact .inl rfl | exact .inr rfl | cases h

/-- The tree is in braces, and was derived from the source. -/
structure Tree.IsBody (source : List Char) (t : Tree) : Prop where
  derived : t.Derived source
  braced : t.kind?.any NodeKind.isBraced = true

namespace Tree

theorem IsBody.exists_parts {t : Tree} (h : t.IsBody source) : ∃ kind place ps cs rest,
    t = node kind (extentOf place ps) ps ∧ kind.isBraced = true ∧
      DerivedFrom source [.phrase (.inside kind)] (bareOf cs) ps rest := by
  obtain ⟨hderived, hbraced⟩ := h
  cases hderived with
  | leaf => cases hbraced
  | node _ _ hinside _ => exact ⟨_, _, _, _, _, rfl, hbraced, hinside⟩

/-- The body of a derived tree. -/
theorem isBody_of_bodyPart? {outer kind : NodeKind} {e : Extent} {ps : Parts} {name : String}
    {b : Tree} (hderived : (node kind e ps).Derived source)
    (hname : bodyName? source outer kind e ps = some name)
    (hbody : bodyPart? kind (node kind e ps) = some b) : b.IsBody source := by
  rcases bodyPart?_cases hbody with ⟨rfl, rfl⟩ | ⟨hne, hb⟩
  · exact ⟨hderived, rfl⟩
  · refine ⟨hderived.forall_parts _ hb, ?_⟩
    have hcallable := (isCallable_of_bodyName? hname).resolve_left hne
    cases hderived with
    | node _ _ hinside _ => exact (hinside.derives.takes_inside _ hb rfl).1 hcallable

/-- The bodies in a derived tree lie in it, and are derived. -/
theorem Derived.of_hasSite {t u : Tree} (ht : t.Derived source) (hu : u.Has t) {s : BodySite}
    (hs : t.HasSite source s) : u.Has s.body ∧ s.body.IsBody source := by
  refine forall_hasSite (Q := fun t => u.Has t ∧ t.Derived source)
    (R := fun b => u.Has b ∧ b.IsBody source) (fun t ht p hp => ?_)
    (fun {_ _ _ _ _ b} ht hname hbody => ?_) t ⟨hu, ht⟩ s hs
  · exact ⟨ht.1.of_parts p hp, ht.2.forall_parts p hp⟩
  · refine ⟨?_, isBody_of_bodyPart? ht.2 hname hbody⟩
    rcases bodyPart?_cases hbody with ⟨-, rfl⟩ | ⟨-, hb⟩
    · exact ht.1
    · exact ht.1.of_parts _ hb

/-- The bodies that are nested in a body lie in it, and are derived. -/
theorem IsBody.of_mem_nested {s s' : BodySite} (h : s.body.IsBody source) (hs' : s' ∈ s.nested source) :
    s.body.Has s'.body ∧ s'.body.IsBody source := by
  obtain ⟨p, hp, hsite⟩ := exists_of_mem_sitesOfStatements hs'
  exact (h.derived.forall_parts p hp).of_hasSite (.part hp (.refl _)) hsite

/-- The bodies of a file lie in it, and are derived. -/
theorem of_mem_sites (hfaults : (ofSource source).faults = []) {s : BodySite}
    (hs : s ∈ (ofSource source).sites source) :
    (ofSource source).Has s.body ∧ s.body.IsBody source := by
  rw [sites, ofSource, sitesIn] at hs
  simp only [reduceCtorEq, false_or, false_and, if_false, bodyName?] at hs
  obtain ⟨p, hp, hsite⟩ := exists_of_mem_sitesOfParts hs
  exact (derived_partsOf hfaults p hp).of_hasSite (.part hp (.refl _)) hsite

end Tree

end BranchExclusion.Java
