import Mathlib.Data.Int.Notation

/-!
# Binary search

`bisect cmp lo hi` looks for an index in `[lo, hi)` that `cmp` says is the one sought. A negative
answer means that it lies below, a positive one that it lies above. What it finds is right whatever
the order (`bisect_sound`). If an index is there and `cmp` points to it from all others, it is found
(`bisect_complete`); the first entry of the range may be out of order, because it is probed only when
it is the last one left.
-/

namespace Bisect

/-- The loop, for at most the given number of probes. -/
def bisectLoop (cmp : Nat → Int) : Nat → Nat → Nat → Option Nat
  | 0, _, _ => none
  | fuel + 1, lo, hi =>
    if lo < hi then
      let mid := (hi + lo) / 2
      if cmp mid = 0 then some mid
      else if cmp mid < 0 then bisectLoop cmp fuel lo mid
      else bisectLoop cmp fuel (mid + 1) hi
    else none

/-- A range shrinks with every probe, so its length bounds their number. -/
def bisect (cmp : Nat → Int) (lo hi : Nat) : Option Nat := bisectLoop cmp (hi - lo + 1) lo hi

variable {cmp : Nat → Int} {lo hi r : Nat}

theorem bisect_sound (h : bisect cmp lo hi = some r) : lo ≤ r ∧ r < hi ∧ cmp r = 0 := by
  unfold bisect at h
  generalize hi - lo + 1 = fuel at h
  induction fuel generalizing lo hi with
  | zero => cases h
  | succ fuel ih =>
    rw [bisectLoop] at h
    by_cases hlt : lo < hi
    · rw [if_pos hlt] at h
      dsimp only at h
      by_cases h0 : cmp ((hi + lo) / 2) = 0
      · rw [if_pos h0, Option.some.injEq] at h
        rw [← h]
        exact ⟨by omega, by omega, h0⟩
      · rw [if_neg h0] at h
        by_cases hneg : cmp ((hi + lo) / 2) < 0
        · rw [if_pos hneg] at h
          have := ih h
          omega
        · rw [if_neg hneg] at h
          have := ih h
          omega
    · rw [if_neg hlt] at h
      cases h

theorem bisectLoop_complete {a fuel : Nat} (ha : a < r) (hlo : a ≤ lo) (hr : lo ≤ r) (hhi : r < hi)
    (hfuel : hi - lo < fuel) (h0 : cmp r = 0) (hbelow : ∀ i, a < i → i < r → 0 < cmp i)
    (habove : ∀ i, r < i → i < hi → cmp i < 0) : bisectLoop cmp fuel lo hi = some r := by
  induction fuel generalizing lo hi with
  | zero => omega
  | succ fuel ih =>
    rw [bisectLoop, if_pos (by omega)]
    dsimp only
    obtain hlt | heq | hgt := Nat.lt_trichotomy ((hi + lo) / 2) r
    · have hpos := hbelow ((hi + lo) / 2) (by omega) hlt
      rw [if_neg (by omega), if_neg (by omega)]
      exact ih (by omega) (by omega) hhi (by omega) habove
    · rw [heq, if_pos h0]
    · have hneg := habove ((hi + lo) / 2) hgt (by omega)
      rw [if_neg (by omega), if_pos hneg]
      exact ih hlo hr (by omega) (by omega) fun i h₁ h₂ => habove i h₁ (by omega)

/-- What is there is found. The entry `lo` is not asked to be in order. -/
theorem bisect_complete (hlo : lo < r) (hhi : r < hi) (h0 : cmp r = 0)
    (hbelow : ∀ i, lo < i → i < r → 0 < cmp i) (habove : ∀ i, r < i → i < hi → cmp i < 0) :
    bisect cmp lo hi = some r :=
  bisectLoop_complete hlo (Nat.le_refl _) (by omega) hhi (by omega) h0 hbelow habove

end Bisect
