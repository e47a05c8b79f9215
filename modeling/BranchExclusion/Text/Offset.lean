/-!
# Byte offsets in a text

Offsets count the bytes of the UTF-8 form, while a text is a list of characters.

* `byteLength`: the bytes of a text;
* `takeBytes`, `dropBytes`: the whole characters before an offset, and the rest;
* `isBoundary`: an offset that no character straddles;
* `slice`: the text between two offsets;
* `replace`: the text with the part between two offsets exchanged.
-/

namespace BranchExclusion.Text

/-- The number of bytes of a text. -/
def byteLength : List Char → Nat
  | [] => 0
  | c :: cs => c.utf8Size + byteLength cs

/-- The characters that lie wholly within the first `n` bytes. -/
def takeBytes (n : Nat) : List Char → List Char
  | [] => []
  | c :: cs => if c.utf8Size ≤ n then c :: takeBytes (n - c.utf8Size) cs else []

/-- What `takeBytes` leaves. -/
def dropBytes (n : Nat) : List Char → List Char
  | [] => []
  | c :: cs => if c.utf8Size ≤ n then dropBytes (n - c.utf8Size) cs else c :: cs

/-- The offset lies between two characters, at the start or at the end. -/
def isBoundary : List Char → Nat → Bool
  | _, 0 => true
  | [], _ + 1 => false
  | c :: cs, n + 1 => decide (c.utf8Size ≤ n + 1) && isBoundary cs (n + 1 - c.utf8Size)

/-- The text from offset `start` up to offset `stop`. -/
def slice (cs : List Char) (start stop : Nat) : List Char :=
  takeBytes (stop - start) (dropBytes start cs)

/-- The text with everything from `start` up to `stop` replaced by `new`. -/
def replace (cs : List Char) (start stop : Nat) (new : List Char) : List Char :=
  takeBytes start cs ++ new ++ dropBytes stop cs

@[simp] theorem byteLength_nil : byteLength [] = 0 := rfl

@[simp] theorem byteLength_cons (c : Char) (cs : List Char) :
    byteLength (c :: cs) = c.utf8Size + byteLength cs := rfl

@[simp] theorem byteLength_append (xs ys : List Char) :
    byteLength (xs ++ ys) = byteLength xs + byteLength ys := by
  induction xs with
  | nil => simp
  | cons x xs ih => simp [ih, Nat.add_assoc]

theorem takeBytes_append_dropBytes (n : Nat) (cs : List Char) :
    takeBytes n cs ++ dropBytes n cs = cs := by
  induction cs generalizing n with
  | nil => rfl
  | cons c cs ih =>
    unfold takeBytes dropBytes
    split
    · simp [ih]
    · rfl

theorem byteLength_takeBytes_of_isBoundary {cs : List Char} {n : Nat} (h : isBoundary cs n = true) :
    byteLength (takeBytes n cs) = n := by
  induction cs generalizing n with
  | nil => cases n <;> simp_all [isBoundary, takeBytes]
  | cons c cs ih =>
    have hc := c.utf8Size_pos
    cases n with
    | zero => rw [takeBytes, if_neg (by omega)]; rfl
    | succ n =>
      simp only [isBoundary, Bool.and_eq_true, decide_eq_true_eq] at h
      rw [takeBytes, if_pos h.1, byteLength, ih h.2]
      omega

end BranchExclusion.Text
