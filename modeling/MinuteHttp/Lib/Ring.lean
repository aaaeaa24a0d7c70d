import MinuteHttp.Lib.Block

/-!
# Runs of cells around a ring

A ring is the first `size` cells of a block, and a position in it is any number: the cell is the one at
its remainder. `cells` reads a run from a position on and `store` writes one, each as the two straight
runs that it is in the block (`cells_eq`). A run behind another one is appended to it
(`cells_store_append`).
-/

namespace Ring

open Block

variable {α : Type*} {size : Nat}

def cells (size : Nat) (data : Nat → α) (o n : Nat) : List α :=
  (List.range n).map fun i => data ((o + i) % size)

/-- `src` written from position `o` on: up to the end of the ring, and the rest from its start. -/
def store (size : Nat) (data : Nat → α) (o : Nat) (src : List α) : Nat → α :=
  blit (blit data (o % size) (src.take (size - o % size))) 0 (src.drop (size - o % size))

theorem add_mod_eq {o n : Nat} (hsize : 0 < size) (hn : n ≤ size) :
    (o + n) % size = if o % size + n < size then o % size + n else o % size + n - size := by
  have hlt := Nat.mod_lt o hsize
  rw [← Nat.mod_add_mod]
  generalize o % size = q at hlt ⊢
  split
  · rw [Nat.mod_eq_of_lt (by omega)]
  · rw [Nat.mod_eq_sub_mod (by omega), Nat.mod_eq_of_lt (by omega)]

@[simp] theorem length_cells (data : Nat → α) (o n : Nat) : (cells size data o n).length = n := by
  simp [cells]

@[simp] theorem cells_zero (data : Nat → α) (o : Nat) : cells size data o 0 = [] := rfl

theorem getElem?_cells (data : Nat → α) (o n i : Nat) :
    (cells size data o n)[i]? = if i < n then some (data ((o + i) % size)) else none := by
  unfold cells
  by_cases h : i < n <;> simp [h]

theorem cells_add (data : Nat → α) (o a b : Nat) :
    cells size data o (a + b) = cells size data o a ++ cells size data (o + a) b := by
  unfold cells
  rw [List.range_add, List.map_append, List.map_map]
  congr 1
  apply List.map_congr_left
  intro i _
  simp [Nat.add_assoc]

theorem cells_succ (data : Nat → α) (o n : Nat) :
    cells size data o (n + 1) = data (o % size) :: cells size data (o + 1) n := by
  rw [Nat.add_comm, cells_add]
  rfl

theorem cells_congr {data : Nat → α} {o o' : Nat} (h : o % size = o' % size) (n : Nat) :
    cells size data o n = cells size data o' n := by
  apply List.map_congr_left
  intro i _
  rw [← Nat.mod_add_mod o, h, Nat.mod_add_mod]

theorem take_cells (data : Nat → α) (o n m : Nat) (h : m ≤ n) :
    (cells size data o n).take m = cells size data o m := by
  obtain ⟨d, rfl⟩ := Nat.exists_eq_add_of_le h
  rw [cells_add, List.take_left' (length_cells _ _ _)]

theorem drop_cells (data : Nat → α) (o n m : Nat) (h : m ≤ n) :
    (cells size data o n).drop m = cells size data (o + m) (n - m) := by
  obtain ⟨d, rfl⟩ := Nat.exists_eq_add_of_le h
  rw [cells_add, List.drop_left' (length_cells _ _ _), Nat.add_sub_cancel_left]

theorem cells_of_le {data : Nat → α} {o n : Nat} (h : o % size + n ≤ size) :
    cells size data o n = slice data (o % size) n := by
  apply List.map_congr_left
  intro i hi
  have hi := List.mem_range.mp hi
  rw [← Nat.mod_add_mod, Nat.mod_eq_of_lt (by omega)]

/-- **A run is two straight ones**, the second from the start of the ring. -/
theorem cells_eq (hsize : 0 < size) (data : Nat → α) (o : Nat) {n : Nat} (hn : n ≤ size) :
    cells size data o n =
      slice data (o % size) (min n (size - o % size)) ++ slice data 0 (n - (size - o % size)) := by
  have hlt := Nat.mod_lt o hsize
  by_cases h : o % size + n ≤ size
  · rw [cells_of_le h, Nat.min_eq_left (by omega), Nat.sub_eq_zero_of_le (by omega)]
    simp
  · obtain ⟨d, hd⟩ := Nat.exists_eq_add_of_le (show size - o % size ≤ n by omega)
    have hzero : (o + (size - o % size)) % size = 0 := by
      rw [← Nat.mod_add_mod, Nat.add_sub_cancel' (Nat.le_of_lt hlt), Nat.mod_self]
    rw [Nat.min_eq_right (by omega), hd, Nat.add_sub_cancel_left, cells_add, cells_of_le (by omega)]
    rw [cells_of_le (by omega), hzero]

theorem store_apply (data : Nat → α) (o : Nat) {src : List α} (hsrc : src.length ≤ size) {i : Nat}
    (hi : i < size) :
    store size data o src ((o + i) % size) = (src[i]?).getD (data ((o + i) % size)) := by
  have hlt := Nat.mod_lt o (show 0 < size by omega)
  rw [← Nat.mod_add_mod o size i]
  unfold store
  by_cases h : o % size + i < size
  · rw [Nat.mod_eq_of_lt h, blit_outside]
    · unfold blit
      rw [if_pos (by omega), Nat.add_sub_cancel_left, List.getElem?_take_of_lt (by omega)]
    · right
      simp only [List.length_drop]
      omega
  · have hmod : (o % size + i) % size = o % size + i - size := by
      rw [Nat.mod_eq_sub_mod (by omega), Nat.mod_eq_of_lt (by omega)]
    rw [hmod]
    have hdrop : (src.drop (size - o % size))[o % size + i - size - 0]? = src[i]? := by
      rw [List.getElem?_drop]
      congr 1
      omega
    rw [blit, if_pos (by omega), hdrop, blit_outside _ (by left; omega)]

theorem cells_store (data : Nat → α) (o : Nat) {src : List α} (hsrc : src.length ≤ size) :
    cells size (store size data o src) o src.length = src := by
  apply List.ext_getElem?
  intro i
  rw [getElem?_cells]
  by_cases hi : i < src.length
  · rw [if_pos hi, store_apply data o hsrc (by omega), List.getElem?_eq_getElem hi, Option.getD_some]
  · rw [if_neg hi, List.getElem?_eq_none (by omega)]

theorem cells_store_before (data : Nat → α) {p n : Nat} {src : List α} (h : n + src.length ≤ size) :
    cells size (store size data (p + n) src) p n = cells size data p n := by
  apply List.map_congr_left
  intro j hj
  have hj := List.mem_range.mp hj
  have hpos : (p + j) % size = (p + n + (size - (n - j))) % size := by
    rw [show p + n + (size - (n - j)) = p + j + size by omega, Nat.add_mod_right]
  rw [hpos, store_apply data _ (by omega) (by omega), List.getElem?_eq_none (by omega), Option.getD_none]

theorem cells_store_append (data : Nat → α) {p n : Nat} {src : List α} (h : n + src.length ≤ size) :
    cells size (store size data (p + n) src) p (n + src.length) = cells size data p n ++ src := by
  rw [cells_add, cells_store_before data h, cells_store data _ (by omega)]

theorem store_congr {data : Nat → α} {o o' : Nat} (h : o % size = o' % size) (src : List α) :
    store size data o src = store size data o' src := by
  unfold store
  rw [h]

end Ring
