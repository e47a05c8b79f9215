import BranchExclusion.Proofs.Command.Stores
import BranchExclusion.Proofs.Files.Tree

/-!
# A disk whose operations may fail

* `Drive`: a disk with the failures to come, any of the operations being one that fails;
* an instance of `FileStore` for programs with a `Drive` as their state;
* `Disk.read_eq_ok`, `Disk.write_eq_ok`: what is read, and what a text written changes;
* `Disk.read_write_self`, `Disk.read_write_of_ne`: what was written is read back, and files at other
  places stay;
* `Disk.read_createDirectories`: making directories keeps every file;
* `Drive.looking`: looking at files keeps the disk;
* `Drive.run_ofTree`: where nothing fails, the program does what it does on the files in memory.

An operation that fails leaves the disk as it was.
-/

namespace BranchExclusion

/-- A disk with failures to come. -/
structure Drive where
  disk : Disk
  /-- Whether each of the next operations fails, and why. Those behind them do not. -/
  troubles : List (Option FileError)
  deriving DecidableEq, Repr

namespace Drive

variable {α : Type}

/-- Why the next operation fails, if it does. -/
def trouble (d : Drive) : Option FileError := d.troubles.head?.join

/-- The drive behind an operation that changed nothing. -/
def next (d : Drive) : Drive := { d with troubles := d.troubles.tail }

/-- An operation that looks at the disk. -/
def look (f : Disk → Except FileError α) : StateM Drive (Except FileError α) := do
  let d ← get
  set d.next
  match d.trouble with
  | some e => return .error e
  | none => return f d.disk

/-- An operation that changes the disk when it succeeds. -/
def change (f : Disk → Except FileError Disk) : StateM Drive (Except FileError Unit) := do
  let d ← get
  set d.next
  match d.trouble with
  | some e => return .error e
  | none =>
    match f d.disk with
    | .error e => return .error e
    | .ok disk =>
      set { d.next with disk := disk }
      return .ok ()

end Drive

instance : FileStore (StateM Drive) where
  kind path := return (← Drive.look fun d => d.find path).toOption.map Prod.snd
  read path := Drive.look fun d => d.read path
  entries path := Drive.look fun d => d.entries path
  write path text := Drive.change fun d => d.write path text
  createDirectories path := Drive.change fun d => d.createDirectories path

/-! ### Reading and writing -/

namespace Disk

variable {d d' : Disk} {path text : String} {p q : FilePlace}

/-- The path may name a file, and leads to `p` through directories only. -/
structure Leads (d : Disk) (path : String) (p : FilePlace) : Prop where
  file : Path.namesDirectory path = false
  place : d.place path = .ok p

theorem Leads.unique (h : d.Leads path p) (h' : d.Leads path q) : p = q :=
  Except.ok.inj (h.place.symm.trans h'.place)

/-- A text is read from the file that the path leads to. -/
theorem read_eq_ok (h : d.read path = .ok text) : ∃ p, d.Leads path p ∧
    d.tree.kindOf p = some .file ∧ d.textAt p = some text := by
  obtain ⟨⟨p, kind⟩, hfind, h⟩ := bind_eq_ok.1 h
  obtain ⟨q, hplace, hfind⟩ := bind_eq_ok.1 hfind
  cases hkind : d.tree.kindOf q with
  | none =>
    rw [hkind] at hfind
    cases hfind
  | some found =>
    rw [hkind] at hfind
    cases found with
    | directory =>
      cases hfind
      cases h
    | file =>
      dsimp only at hfind
      by_cases hname : Path.namesDirectory path = true
      · rw [if_pos hname] at hfind
        cases hfind
      · rw [if_neg hname] at hfind
        cases hfind
        dsimp only at h
        split at h
        · next htext =>
          cases h
          exact ⟨p, ⟨by simpa using hname, hplace⟩, hkind, htext⟩
        · cases h

theorem Leads.read (h : d.Leads path p) (hkind : d.tree.kindOf p = some .file)
    (htext : d.textAt p = some text) : d.read path = .ok text := by
  have hfind : d.find path = .ok (p, .file) := by
    simp [find, h.place, hkind, h.file]
  simp [Disk.read, hfind, htext]

/-- A text is written to the place that the path leads to. -/
theorem write_eq_ok (h : d.write path text = .ok d') : ∃ p, d.Leads path p ∧
    d.tree.kindOf p ≠ some .directory ∧ d' = d.rewrite p text := by
  obtain ⟨p, hplace, h⟩ := bind_eq_ok.1 h
  by_cases hname : (Path.namesDirectory path || decide (d.tree.kindOf p = some .directory)) = true
  · rw [if_pos hname] at h
    cases h
  · rw [if_neg hname] at h
    cases h
    rw [Bool.or_eq_true, not_or] at hname
    exact ⟨p, ⟨by simpa using hname.1, hplace⟩, by simpa using hname.2, rfl⟩

/-- Both disks have the same directories, and files at the same places. -/
structure Alike (d d' : Disk) : Prop where
  home : d'.home = d.home
  directories : d'.tree.directories = d.tree.directories
  kindOf (p : FilePlace) : d'.tree.kindOf p = d.tree.kindOf p

namespace Alike

theorem refl (d : Disk) : d.Alike d := ⟨rfl, rfl, fun _ => rfl⟩

theorem leads_iff (h : d.Alike d') : d'.Leads path p ↔ d.Leads path p := by
  have hwalk (here names) : d'.tree.walk here names = d.tree.walk here names := by
    induction names generalizing here with
    | nil => rfl
    | cons name rest ih => rw [FileTree.walk, FileTree.walk, h.kindOf, ih]
  have hplace : d'.place path = d.place path := by
    rw [Disk.place, Disk.place, Disk.start, Disk.start, h.home, hwalk]
  constructor
  · exact fun hleads => ⟨hleads.file, hplace.symm.trans hleads.place⟩
  · exact fun hleads => ⟨hleads.file, hplace.trans hleads.place⟩

end Alike

theorem textAt_rewrite_self : (d.rewrite p text).textAt p = some text :=
  congrArg Option.join (FileTree.lookup_putFile_self d.tree p (some text))

theorem lookup_rewrite_of_ne (h : q ≠ p) :
    (d.rewrite p text).tree.files.lookup q = d.tree.files.lookup q :=
  FileTree.lookup_putFile_of_ne h (some text)

/-- Writing to a file keeps what every place is. -/
theorem alike_rewrite (h : d.tree.kindOf p = some .file) (text : String) :
    d.Alike (d.rewrite p text) where
  home := rfl
  directories := rfl
  kindOf q := by
    by_cases hq : q = p
    · subst hq
      rw [h, FileTree.kindOf_eq_file]
      refine ⟨(FileTree.kindOf_eq_file.1 h).1, ?_⟩
      rw [rewrite, FileTree.lookup_putFile_self]
      rfl
    · rw [FileTree.kindOf, FileTree.kindOf, lookup_rewrite_of_ne hq]
      rfl

theorem home_write (h : d.write path text = .ok d') : d'.home = d.home := by
  obtain ⟨p, -, -, rfl⟩ := write_eq_ok h
  rfl

/-- Making directories adds them where no file is, and does nothing else. -/
theorem createDirectories_eq_ok (h : d.createDirectories path = .ok d') :
    d'.home = d.home ∧ d.tree.Grows d'.tree := by
  unfold createDirectories at h
  by_cases hstart : Path.steps path ≠ [] ∧ d.tree.kindOf (d.start path) ≠ some .directory
  · rw [if_pos hstart] at h
    cases h
  rw [if_neg hstart] at h
  obtain ⟨s, hfold, h⟩ := bind_eq_ok.1 h
  have hgrows : d.tree.Grows s.1 := foldlM_eq_ok (mapError_eq_ok.1 hfold)
    (fun _ (s : FileTree × FilePlace) => d.tree.Grows s.1) (.refl d.tree)
    fun _ _ _ _ _ _ hgrows henter => hgrows.trans (FileTree.grows_enter henter)
  cases hlast : (Path.steps path).getLast? with
  | none =>
    rw [hlast] at h
    cases h
    exact ⟨rfl, hgrows⟩
  | some name =>
    rw [hlast] at h
    obtain ⟨s', henter, h⟩ := bind_eq_ok.1 h
    cases h
    exact ⟨rfl, hgrows.trans (FileTree.grows_enter henter)⟩

end Disk

/-! ### Operations that may fail -/

namespace Drive

open Command

variable {α : Type} {d d' : Drive}

theorem run_look (f : Disk → Except FileError α) (d : Drive) : runFrom (look f) d =
    (match d.trouble with
      | some e => .error e
      | none => f d.disk, d.next) := by
  change (runFrom (match d.trouble with
    | some e => pure (.error e)
    | none => pure (f d.disk) : StateM Drive (Except FileError α)) d.next) = _
  cases d.trouble <;> rfl

/-- Looking at the disk keeps it. -/
theorem keeps_look (f : Disk → Except FileError α) : Keeps Drive.disk (look f) := by
  intro d
  rw [run_look]
  rfl

/-- Looking at files keeps the disk. -/
theorem looking : Looking Drive.disk where
  kind _ := (keeps_look _).bind fun _ => .pure _
  read _ := keeps_look _
  entries _ := keeps_look _

/-- What is seen, unless looking fails, is what is on the disk. -/
theorem look_eq_ok {f : Disk → Except FileError α} {a : α} (h : (runFrom (look f) d).1 = .ok a) :
    f d.disk = .ok a := by
  rw [run_look] at h
  cases htrouble : d.trouble with
  | some e =>
    rw [htrouble] at h
    cases h
  | none =>
    rw [htrouble] at h
    exact h

/-- A change takes place, or it fails and the disk is kept. -/
theorem change_cases {f : Disk → Except FileError Disk} {done : Except FileError Unit}
    (h : runFrom (change f) d = (done, d')) :
    (done = .ok () ∧ f d.disk = .ok d'.disk) ∨ ∃ e, done = .error e ∧ d'.disk = d.disk := by
  change (runFrom (match d.trouble with
    | some e => pure (.error e)
    | none =>
      match f d.disk with
      | .error e => pure (.error e)
      | .ok disk => do
        set { d.next with disk := disk }
        pure (.ok ()) : StateM Drive (Except FileError Unit)) d.next) = _ at h
  cases htrouble : d.trouble with
  | some e =>
    rw [htrouble] at h
    cases h
    exact .inr ⟨e, rfl, rfl⟩
  | none =>
    rw [htrouble] at h
    cases hf : f d.disk with
    | error e =>
      rw [hf] at h
      cases h
      exact .inr ⟨e, rfl, rfl⟩
    | ok disk =>
      rw [hf] at h
      cases h
      exact .inl ⟨rfl, rfl⟩

/-! ### No failures -/

/-- The files in memory as a drive on which nothing fails, with the root as the working directory. -/
def ofTree (t : FileTree) : Drive := ⟨t.disk, []⟩

theorem simulates_look (f : Disk → Except FileError α) :
    Simulates ofTree (do return f (← get).disk) (look f) := fun _ => rfl

theorem simulates_change (f : Disk → Except FileError Disk)
    (hf : ∀ d d', f d = .ok d' → d'.home = d.home) :
    Simulates ofTree (FileTree.change f) (change f) := by
  intro t
  cases hdone : f t.disk with
  | error e =>
    simp [runFrom, FileTree.change, change, ofTree, next, trouble, hdone]
    rfl
  | ok d =>
    have hhome : d = d.tree.disk := by
      obtain ⟨tree, home⟩ := d
      obtain rfl : home = [] := hf _ _ hdone
      rfl
    rw [hhome] at hdone
    simp [runFrom, FileTree.change, change, ofTree, next, trouble, hdone]
    rfl

theorem simulates : RelatesStores fun α (x : StateM FileTree α) (y : StateM Drive α) =>
    Simulates ofTree x y where
  toRelates := Simulates.relates ofTree
  kind path := (Simulates.relates ofTree).bind (simulates_look fun d => d.find path)
    fun _ => (Simulates.relates ofTree).pure _
  read path := simulates_look fun d => d.read path
  entries path := simulates_look fun d => d.entries path
  write _ _ := simulates_change _ fun _ _ => Disk.home_write
  createDirectories _ := simulates_change _ fun _ _ h => (Disk.createDirectories_eq_ok h).1

/-- Where nothing fails, the program does on the drive what it does on the files in memory. -/
theorem run_ofTree (arguments : List String) (t : FileTree) :
    runFrom (run arguments) (ofTree t) =
      ((runFrom (run arguments) t).1, ofTree (runFrom (run arguments) t).2) :=
  simulates.run arguments t

end Drive

end BranchExclusion
