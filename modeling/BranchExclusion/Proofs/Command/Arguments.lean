import BranchExclusion.Command.Arguments
import BranchExclusion.Proofs.Traversal

/-!
# Options that exclude each other

* `Options.Recorded`: every option that has an effect is among those given, each once;
* `Reading.recorded_read`: this holds of all options that are read;
* `Options.output_eq_none`: files are written in place or to a directory, not both.
-/

namespace BranchExclusion.Command

namespace Options

variable {o o' : Options} {a : Argument} {n : Named} {value : String}

/-- The options that say where files go are among those given, and none is given twice. -/
structure Recorded (o : Options) : Prop where
  nodup : o.given.Nodup
  inPlace : o.inPlace = true → .flag .inPlace ∈ o.given
  output : o.output ≠ .none → .named .output ∈ o.given

theorem recorded_none : none.Recorded :=
  ⟨List.nodup_nil, fun h => (Bool.false_ne_true h).elim, fun h => (h rfl).elim⟩

theorem give_eq_ok : o.give a = .ok o' ↔
    a ∉ o.given ∧ o' = { o with given := o.given ++ [a] } := by
  unfold give
  split
  · next h => simp [h]
  · next h => simp [h, eq_comm]

theorem Recorded.give (h : o.Recorded) (ha : a ∉ o.given) :
    ({ o with given := o.given ++ [a] } : Options).Recorded where
  nodup := by
    rw [← List.concat_eq_append]
    exact h.nodup.concat ha
  inPlace hin := List.mem_append_left _ (h.inPlace hin)
  output hout := List.mem_append_left _ (h.output hout)

theorem Recorded.raise {f : Flag} (h : o.Recorded) (hraise : o.raise f = .ok o') : o'.Recorded := by
  obtain ⟨o₁, hgive, hraise⟩ := bind_eq_ok.1 hraise
  obtain ⟨ha, rfl⟩ := give_eq_ok.1 hgive
  obtain ⟨hnodup, hin, hout⟩ := h.give ha
  cases f with
  | inPlace =>
    cases hraise
    exact ⟨hnodup, fun _ => List.mem_append_right _ (List.mem_singleton_self _), hout⟩
  | dryRun =>
    cases hraise
    exact ⟨hnodup, hin, hout⟩
  | verbose =>
    cases hraise
    exact ⟨hnodup, hin, hout⟩

theorem Recorded.put (h : o.Recorded) (hput : o.put n value = .ok o') : o'.Recorded := by
  obtain ⟨o₁, hgive, hput⟩ := bind_eq_ok.1 hput
  obtain ⟨ha, rfl⟩ := give_eq_ok.1 hgive
  obtain ⟨hnodup, hin, hout⟩ := h.give ha
  cases n with
  | output =>
    obtain ⟨path, -, hput⟩ := bind_eq_ok.1 hput
    cases hput
    exact ⟨hnodup, hin, fun _ => List.mem_append_right _ (List.mem_singleton_self _)⟩
  | config =>
    obtain ⟨path, -, hput⟩ := bind_eq_ok.1 hput
    cases hput
    exact ⟨hnodup, hin, hout⟩
  | report =>
    obtain ⟨path, -, hput⟩ := bind_eq_ok.1 hput
    cases hput
    exact ⟨hnodup, hin, hout⟩
  | exitPolicy =>
    dsimp only at hput
    split at hput
    · cases hput
      exact ⟨hnodup, hin, hout⟩
    · cases hput

theorem Recorded.settle {pending : Option Pending} (h : o.Recorded)
    (hsettle : o.settle pending = .ok o') : o'.Recorded := by
  unfold Options.settle at hsettle
  split at hsettle
  · cases hsettle
    exact h
  · obtain ⟨paths, -, hsettle⟩ := bind_eq_ok.1 hsettle
    cases hsettle
    exact ⟨h.nodup, h.inPlace, h.output⟩
  · split at hsettle
    · cases hsettle
    · exact h.put hsettle
  · exact h.raise hsettle

end Options

namespace Reading

open Options

variable {r r' : Reading} {a : Argument} {value : String}

theorem recorded_settle (h : r.options.Recorded) (hsettle : r.settle = .ok r') :
    r'.options.Recorded := by
  obtain ⟨o, ho, hsettle⟩ := bind_eq_ok.1 hsettle
  cases hsettle
  exact h.settle ho

theorem recorded_option {value : Option String} (h : r.options.Recorded)
    (hoption : r.option a value = .ok r') : r'.options.Recorded := by
  unfold option at hoption
  split at hoption
  · obtain ⟨r₁, hsettle, hoption⟩ := bind_eq_ok.1 hoption
    obtain ⟨o, ho, hoption⟩ := bind_eq_ok.1 hoption
    cases hoption
    exact (recorded_settle h hsettle).raise ho
  · cases hoption
  · obtain ⟨r₁, hsettle, hoption⟩ := bind_eq_ok.1 hoption
    obtain ⟨o, ho, hoption⟩ := bind_eq_ok.1 hoption
    cases hoption
    exact (recorded_settle h hsettle).put ho
  · obtain ⟨r₁, hsettle, hoption⟩ := bind_eq_ok.1 hoption
    have hr₁ := recorded_settle h hsettle
    cases hoption
    exact hr₁

theorem recorded_input (h : r.options.Recorded) (hinput : r.input value = .ok r') :
    r'.options.Recorded := by
  unfold input at hinput
  split at hinput
  · cases hinput
    exact h
  · obtain ⟨r₁, hsettle, hinput⟩ := bind_eq_ok.1 hinput
    have hr₁ := recorded_settle h hsettle
    cases hinput
    exact hr₁

theorem recorded_long {text : List Char} (h : r.options.Recorded)
    (hlong : r.long text = .ok r') : r'.options.Recorded := by
  unfold long at hlong
  dsimp only at hlong
  split at hlong
  · cases hlong
  · exact recorded_option h hlong

theorem recorded_short {text : List Char} (h : r.options.Recorded)
    (hshort : r.short text = .ok r') : r'.options.Recorded := by
  induction text generalizing r with
  | nil =>
    cases hshort
    exact h
  | cons c rest ih =>
    rw [short] at hshort
    split at hshort
    · cases hshort
    · obtain ⟨r₁, hoption, hshort⟩ := bind_eq_ok.1 hshort
      exact ih (recorded_option h hoption) hshort
    · split at hshort <;> exact recorded_option h hshort

/-- The options that are read are those recorded as given. -/
theorem recorded_read {arguments : List String} {plain : Bool} (h : r.options.Recorded)
    (hread : r.read plain arguments = .ok r') : r'.options.Recorded := by
  induction arguments generalizing r plain with
  | nil => exact recorded_settle h hread
  | cons text rest ih =>
    unfold read at hread
    split at hread
    · exact ih h hread
    · obtain ⟨r₁, hlong, hread⟩ := bind_eq_ok.1 hread
      exact ih (recorded_long h hlong) hread
    · obtain ⟨r₁, hshort, hread⟩ := bind_eq_ok.1 hread
      exact ih (recorded_short h hshort) hread
    · split at hread
      · split at hread
        · obtain ⟨r₁, hinput, hread⟩ := bind_eq_ok.1 hread
          exact ih (recorded_input h hinput) hread
        · exact ih (r := { r with pending := some ⟨_, [text]⟩ }) h hread
      · obtain ⟨r₁, hinput, hread⟩ := bind_eq_ok.1 hread
        exact ih (recorded_input h hinput) hread

end Reading

namespace Options

/-- Two of the options given exclude each other. -/
theorem checkConflict_ne_ok {o : Options} (hnodup : o.given.Nodup)
    (hout : .named .output ∈ o.given) (hin : .flag .inPlace ∈ o.given) :
    o.checkConflict ≠ .ok () := by
  have hperm : (o.given.filter fun a => a = .named .output ∨ a = .flag .inPlace).Perm
      [.named .output, .flag .inPlace] := by
    refine (List.perm_ext_iff_of_nodup (hnodup.filter _) (by decide)).2 fun a => ?_
    simp only [List.mem_filter, decide_eq_true_eq, List.mem_cons, List.not_mem_nil, or_false]
    refine ⟨And.right, fun ha => ⟨?_, ha⟩⟩
    rcases ha with rfl | rfl
    · exact hout
    · exact hin
  obtain ⟨first, second, hlist⟩ := List.length_eq_two.1 hperm.length_eq
  rw [checkConflict, hlist]
  exact fun h => by cases h

/-- Where files are written in place, no directory for them is given. -/
theorem output_eq_none {arguments : List String} {o : Options}
    (h : ofArguments arguments = .ok o) (hin : o.inPlace = true) : o.output = .none := by
  obtain ⟨r, hread, h⟩ := bind_eq_ok.1 h
  obtain ⟨⟨⟩, hconflict, h⟩ := bind_eq_ok.1 h
  have hrecorded := Reading.recorded_read recorded_none hread
  obtain rfl : r.options = o := by
    split at h
    · cases h
    · cases h
      rfl
  by_contra hout
  exact checkConflict_ne_ok hrecorded.nodup (hrecorded.output hout) (hrecorded.inPlace hin) hconflict

end Options

end BranchExclusion.Command
