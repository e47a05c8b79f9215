import BranchExclusion.Command.Run
import Mathlib.Data.List.Forall2

/-!
# Programs on two stores

* `Relates`: a relation between programs that is kept by `pure` and `bind`;
* `RelatesLooking`: looking at files is related, hence the parts of a run that come before the first
  result is delivered: `settingsOf`, `collectInputs`, `transformFile`;
* `RelatesStores`: writing is related as well, hence the whole `run`;
* `Keeps`: a program that keeps a view of its state; with `Looking`, all that only looks at files;
* `Simulates`: a program does the same on states that correspond.

What is looked at may still pass with each look, such as the failures to come of a failing store.
-/

namespace BranchExclusion.Command

variable {α β : Type} {m n : Type → Type} [Monad m] [Monad n]

/-- The relation is kept when programs are put together. -/
structure Relates (R : (α : Type) → m α → n α → Prop) : Prop where
  pure {α : Type} (a : α) : R _ (Pure.pure a) (Pure.pure a)
  bind {α β : Type} {x : m α} {y : n α} {f : α → m β} {g : α → n β} :
    R _ x y → (∀ a, R _ (f a) (g a)) → R _ (x >>= f) (y >>= g)

namespace Relates

variable {R : (α : Type) → m α → n α → Prop}

theorem foldlM (h : Relates R) {f : β → α → m β} {g : β → α → n β} (hf : ∀ b a, R _ (f b a) (g b a))
    (l : List α) (b : β) : R _ (l.foldlM f b) (l.foldlM g b) := by
  induction l generalizing b with
  | nil => exact h.pure b
  | cons a l ih => exact h.bind (hf b a) fun b => ih b

theorem mapM [LawfulMonad m] [LawfulMonad n] (h : Relates R) {f : α → m β} {g : α → n β}
    (hf : ∀ a, R _ (f a) (g a)) (l : List α) : R _ (l.mapM f) (l.mapM g) := by
  induction l with
  | nil => exact h.pure []
  | cons a l ih =>
    rw [List.mapM_cons, List.mapM_cons]
    exact h.bind (hf a) fun b => h.bind ih fun bs => h.pure (b :: bs)

end Relates

variable [FileStore m] [FileStore n]

/-- Looking at files is related. -/
structure RelatesLooking (R : (α : Type) → m α → n α → Prop) : Prop extends Relates R where
  kind (path : String) : R _ (FileStore.kind path) (FileStore.kind path)
  read (path : String) : R _ (FileStore.read path) (FileStore.read path)
  entries (path : String) : R _ (FileStore.entries path) (FileStore.entries path)

namespace RelatesLooking

variable {R : (α : Type) → m α → n α → Prop}

theorem filesWithin (h : RelatesLooking R) (depth : ℕ) (path : String) (below : List String) :
    R _ (FileStore.filesWithin depth path below) (FileStore.filesWithin depth path below) := by
  induction depth generalizing path below with
  | zero => exact h.pure _
  | succ depth ih =>
    rw [FileStore.filesWithin, FileStore.filesWithin]
    refine h.bind (h.entries path) fun names => ?_
    cases names with
    | error e => exact h.pure _
    | ok names =>
      refine h.foldlM (fun found name => ?_) names _
      cases found with
      | error e => exact h.pure _
      | ok found =>
        refine h.bind (h.kind _) fun kind => ?_
        cases kind with
        | none => exact h.pure _
        | some kind =>
          cases kind with
          | file => exact h.pure _
          | directory => exact h.bind (ih _ _) fun _ => h.pure _

theorem inputsOf (h : RelatesLooking R) (root : String) : R _ (inputsOf root) (inputsOf root) := by
  refine h.bind (h.kind root) fun kind => ?_
  cases kind with
  | none => exact h.pure _
  | some kind =>
    cases kind with
    | file => exact h.pure _
    | directory =>
      refine h.bind (h.filesWithin _ root []) fun found => ?_
      cases found with
      | error e => exact h.pure _
      | ok found => exact h.pure _

theorem collectInputs (h : RelatesLooking R) (roots : List String) :
    R _ (collectInputs roots) (collectInputs roots) := by
  induction roots with
  | nil => exact h.pure _
  | cons root rest ih =>
    refine h.bind (h.inputsOf root) fun here => ?_
    cases here with
    | error f => exact h.pure _
    | ok here => exact h.bind ih fun _ => h.pure _

theorem load (h : RelatesLooking R) (path : String) :
    R _ (Settings.load path) (Settings.load path) := by
  refine h.bind (h.read path) fun text => ?_
  cases text with
  | error e => exact h.pure _
  | ok text => exact h.pure _

theorem settingsOf (h : RelatesLooking R) (o : Options) : R _ (settingsOf o) (settingsOf o) := by
  unfold Command.settingsOf
  cases o.config with
  | none => exact h.bind (h.pure _) fun _ => h.pure _
  | some path => exact h.bind (h.load path) fun _ => h.bind (h.pure _) fun _ => h.pure _

theorem transformFile (h : RelatesLooking R) (s : Settings) (path : String) :
    R _ (transformFile s path) (transformFile s path) := by
  refine h.bind (h.read path) fun text => ?_
  cases text with
  | error e => exact h.pure _
  | ok text => exact h.pure _

end RelatesLooking

/-- Looking at files and writing them is related. -/
structure RelatesStores (R : (α : Type) → m α → n α → Prop) : Prop extends RelatesLooking R where
  write (path text : String) : R _ (FileStore.write path text) (FileStore.write path text)
  createDirectories (path : String) :
    R _ (FileStore.createDirectories path) (FileStore.createDirectories path)

namespace RelatesStores

variable {R : (α : Type) → m α → n α → Prop}

theorem deliver (h : RelatesStores R) (o : Options) (input : Input) (r : FileResult) (p : Printed) :
    R _ (deliver o input r p) (deliver o input r p) := by
  unfold Command.deliver
  split
  · exact h.pure _
  · cases o.output with
    | some directory =>
      refine h.bind (h.createDirectories _) fun made => ?_
      cases made with
      | error e => exact h.pure _
      | ok _ => exact h.bind (h.write _ _) fun _ => h.pure _
    | none =>
      dsimp only
      split
      · exact h.pure _
      · split
        · exact h.pure _
        · exact h.bind (h.write _ _) fun _ => h.pure _

theorem deliverAll (h : RelatesStores R) (o : Options)
    (results : List (Input × Except TransformError FileResult)) (d : Delivery) :
    R _ (deliverAll o results d) (deliverAll o results d) := by
  induction results generalizing d with
  | nil => exact h.pure _
  | cons processed rest ih =>
    obtain ⟨input, result⟩ := processed
    cases result with
    | error e => exact ih _
    | ok r =>
      refine h.bind (h.deliver o input r _) fun told => ?_
      cases told with
      | error f => exact h.pure _
      | ok printed => exact ih _

theorem deliverReport (h : RelatesStores R) (o : Options) (d : Delivery) :
    R _ (deliverReport o d) (deliverReport o d) := by
  unfold Command.deliverReport
  cases o.report with
  | none => exact h.pure _
  | some path =>
    refine h.bind (h.write _ _) fun written => ?_
    cases written with
    | error e => exact h.pure _
    | ok _ => exact h.pure _

variable [LawfulMonad m] [LawfulMonad n]

theorem process (h : RelatesStores R) (o : Options) (s : Settings) (inputs : List Input) :
    R _ (process o s inputs) (process o s inputs) := by
  refine h.bind (h.mapM (fun input => h.transformFile s input.path) inputs) fun transformed => ?_
  refine h.bind (h.deliverAll o _ _) fun done => ?_
  obtain ⟨d, ended⟩ := done
  cases ended with
  | some f => exact h.pure _
  | none =>
    refine h.bind (h.deliverReport o d) fun told => ?_
    cases told with
    | error f => exact h.pure _
    | ok printed =>
      dsimp only
      split
      · exact h.pure _
      · exact h.pure _

theorem perform (h : RelatesStores R) (o : Options) : R _ (perform o) (perform o) := by
  refine h.bind (h.settingsOf o) fun settings => ?_
  cases settings with
  | error f => exact h.pure _
  | ok s =>
    refine h.bind (h.collectInputs o.inputs) fun inputs => ?_
    cases inputs with
    | error f => exact h.pure _
    | ok inputs =>
      cases inputs with
      | nil => exact h.pure _
      | cons first rest => exact h.process o s (first :: rest)

theorem run (h : RelatesStores R) (arguments : List String) : R _ (run arguments) (run arguments) := by
  unfold Command.run
  cases Options.ofArguments arguments with
  | error e => exact h.pure _
  | ok o => exact h.bind (h.perform o) fun _ => h.pure _

end RelatesStores

/-! ### States -/

variable {σ τ : Type}

/-- The program run from this state. -/
def runFrom (x : StateM σ α) (s : σ) : α × σ := x.run s

theorem runFrom_bind (x : StateM σ α) (f : α → StateM σ β) (s : σ) :
    runFrom (x >>= f) s = runFrom (f (runFrom x s).1) (runFrom x s).2 := rfl

theorem runFrom_pure (a : α) (s : σ) : runFrom (pure a) s = (a, s) := rfl

/-- The program leaves this view of its state as it is. -/
def Keeps (view : σ → τ) (x : StateM σ α) : Prop := ∀ s, view (runFrom x s).2 = view s

namespace Keeps

variable {view : σ → τ}

theorem pure (a : α) : Keeps view (Pure.pure a) := fun _ => rfl

theorem bind {x : StateM σ α} {f : α → StateM σ β} (hx : Keeps view x)
    (hf : ∀ a, Keeps view (f a)) : Keeps view (x >>= f) := by
  intro s
  rw [runFrom_bind]
  exact (hf _ _).trans (hx s)

/-- Being one program that keeps the view. -/
theorem relates : Relates fun α (x y : StateM σ α) => Keeps view x ∧ x = y where
  pure a := ⟨.pure a, rfl⟩
  bind := by
    rintro α β x _ f g ⟨hx, rfl⟩ hf
    obtain rfl : f = g := funext fun a => (hf a).2
    exact ⟨hx.bind fun a => (hf a).1, rfl⟩

theorem mapM {f : α → StateM σ β} (hf : ∀ a, Keeps view (f a)) (l : List α) :
    Keeps view (l.mapM f) :=
  (relates.mapM (fun a => ⟨hf a, rfl⟩) l).1

/-- Every element is worked on in a state with the view of the first one. -/
theorem forall₂_mapM {f : α → StateM σ β} (hf : ∀ a, Keeps view (f a)) (l : List α) (s : σ) :
    List.Forall₂ (fun a b => ∃ s', view s' = view s ∧ (runFrom (f a) s').1 = b) l
      (runFrom (l.mapM f) s).1 := by
  induction l generalizing s with
  | nil => exact .nil
  | cons a l ih =>
    rw [List.mapM_cons, runFrom_bind]
    refine .cons ⟨s, rfl, rfl⟩ ((ih _).imp fun b c hc => ?_)
    obtain ⟨s', hs', hc⟩ := hc
    exact ⟨s', hs'.trans (hf a s), hc⟩

end Keeps

/-- Looking at files keeps this view of the state. -/
structure Looking [FileStore (StateM σ)] (view : σ → τ) : Prop where
  kind (path : String) : Keeps view (FileStore.kind path)
  read (path : String) : Keeps view (FileStore.read path)
  entries (path : String) : Keeps view (FileStore.entries path)

namespace Looking

variable [FileStore (StateM σ)] {view : σ → τ}

theorem relates (h : Looking view) :
    RelatesLooking fun α (x y : StateM σ α) => Keeps view x ∧ x = y where
  toRelates := Keeps.relates
  kind path := ⟨h.kind path, rfl⟩
  read path := ⟨h.read path, rfl⟩
  entries path := ⟨h.entries path, rfl⟩

theorem collectInputs (h : Looking view) (roots : List String) :
    Keeps view (collectInputs roots) := (h.relates.collectInputs roots).1

theorem settingsOf (h : Looking view) (o : Options) : Keeps view (settingsOf o) :=
  (h.relates.settingsOf o).1

theorem transformFile (h : Looking view) (s : Settings) (path : String) :
    Keeps view (transformFile s path) := (h.relates.transformFile s path).1

end Looking

/-- The second program does to the counterpart of a state what the first one does to the state. -/
def Simulates (counterpart : σ → τ) (x : StateM σ α) (y : StateM τ α) : Prop :=
  ∀ s, runFrom y (counterpart s) = ((runFrom x s).1, counterpart (runFrom x s).2)

theorem Simulates.relates (counterpart : σ → τ) :
    Relates fun α (x : StateM σ α) (y : StateM τ α) => Simulates counterpart x y where
  pure _ _ := rfl
  bind hx hf s := by rw [runFrom_bind, hx s, hf]; rfl

end BranchExclusion.Command
