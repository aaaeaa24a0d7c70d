import Mathlib.Data.List.Basic

/-!
# Blocks of memory

A block is a function from offsets to cells. `slice` reads a run of cells, `blit` writes one, and the
two `memcpy`s are the same with the bounds that C leaves to the caller: a copy that leaves the block it
copies from or to has no result.
-/

namespace Block

variable {α : Type*}

/-- The `n` cells of a block from offset `o`. -/
def slice (data : Nat → α) (o n : Nat) : List α := (List.range n).map fun i => data (o + i)

/-- A block with `src` written at offset `o`. -/
def blit (data : Nat → α) (o : Nat) (src : List α) : Nat → α := fun i =>
  if o ≤ i then (src[i - o]?).getD (data i) else data i

/-- `memcpy (buf+o, src+so, n)` into a block of `size` cells. -/
def memcpyIn (size : Nat) (data : Nat → α) (o : Nat) (src : List α) (so n : Nat) :
    Option (Nat → α) :=
  if o + n ≤ size ∧ so + n ≤ src.length then some (blit data o ((src.drop so).take n)) else none

/-- `memcpy (dst, buf+o, n)` out of a block of `size` cells. -/
def memcpyOut (size : Nat) (data : Nat → α) (o n : Nat) : Option (List α) :=
  if o + n ≤ size then some (slice data o n) else none

/-! ### Reading -/

@[simp] theorem length_slice (data : Nat → α) (o n : Nat) : (slice data o n).length = n := by
  simp [slice]

@[simp] theorem slice_zero (data : Nat → α) (o : Nat) : slice data o 0 = [] := rfl

theorem getElem?_slice (data : Nat → α) (o n i : Nat) :
    (slice data o n)[i]? = if i < n then some (data (o + i)) else none := by
  unfold slice
  by_cases h : i < n <;> simp [h]

theorem slice_congr {data data' : Nat → α} {o n : Nat}
    (h : ∀ i, o ≤ i → i < o + n → data' i = data i) : slice data' o n = slice data o n := by
  apply List.map_congr_left
  intro i hi
  have := List.mem_range.mp hi
  exact h (o + i) (by omega) (by omega)

theorem slice_add (data : Nat → α) (o a b : Nat) :
    slice data o (a + b) = slice data o a ++ slice data (o + a) b := by
  unfold slice
  rw [List.range_add, List.map_append, List.map_map]
  congr 1
  apply List.map_congr_left
  intro i _
  simp [Nat.add_assoc]

theorem slice_succ (data : Nat → α) (o n : Nat) :
    slice data o (n + 1) = slice data o n ++ [data (o + n)] := slice_add data o n 1

theorem take_slice (data : Nat → α) (o n m : Nat) (h : m ≤ n) :
    (slice data o n).take m = slice data o m := by
  obtain ⟨d, rfl⟩ := Nat.exists_eq_add_of_le h
  rw [slice_add, List.take_left' (length_slice _ _ _)]

theorem drop_slice (data : Nat → α) (o n m : Nat) (h : m ≤ n) :
    (slice data o n).drop m = slice data (o + m) (n - m) := by
  obtain ⟨d, rfl⟩ := Nat.exists_eq_add_of_le h
  rw [slice_add, List.drop_left' (length_slice _ _ _), Nat.add_sub_cancel_left]

/-! ### Writing -/

theorem blit_outside (data : Nat → α) {o i : Nat} {src : List α} (h : i < o ∨ o + src.length ≤ i) :
    blit data o src i = data i := by
  unfold blit
  split
  · rw [List.getElem?_eq_none (by omega), Option.getD_none]
  · rfl

theorem blit_inside (data : Nat → α) {o i : Nat} {src : List α} {x : α} (h : src[i]? = some x) :
    blit data o src (o + i) = x := by
  unfold blit
  rw [if_pos (by omega), Nat.add_sub_cancel_left, h, Option.getD_some]

@[simp] theorem blit_nil (data : Nat → α) (o : Nat) : blit data o [] = data := by
  funext i
  exact blit_outside data (by simp; omega)

theorem slice_blit (data : Nat → α) (o : Nat) (src : List α) :
    slice (blit data o src) o src.length = src := by
  apply List.ext_getElem?
  intro i
  rw [getElem?_slice]
  by_cases h : i < src.length
  · rw [if_pos h, List.getElem?_eq_getElem h]
    exact congrArg some (blit_inside data (List.getElem?_eq_getElem h))
  · rw [if_neg h, List.getElem?_eq_none (by omega)]

theorem slice_blit_outside (data : Nat → α) {o n p : Nat} {src : List α}
    (h : o + n ≤ p ∨ p + src.length ≤ o) : slice (blit data p src) o n = slice data o n :=
  slice_congr fun i h₁ h₂ => blit_outside data (by omega)

end Block
