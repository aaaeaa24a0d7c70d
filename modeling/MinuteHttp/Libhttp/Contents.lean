import MinuteHttp.Lib.Ring
import MinuteHttp.Libhttp.Loop

/-!
# The contents of a ring buffer

Of a ring whose size is a power of two and which holds at most that many bytes (`Valid`), `contents` is
the bytes it holds, in order. `minute_iobuf_write` appends to them (`minuteIobufWrite_fits`) unless the
block is empty: then it copies past the block (`minuteIobufWrite_nil`). `minute_iobuf_read` takes from
their front (`minuteIobufRead_eq`) unless it is to take all of a full ring that does not start at offset
0: then it copies past the ring (`minuteIobufRead_outside`).
-/

namespace MinuteHttp

open Block

/-! ## Indices -/

def Iobuf.SizeOk (io : Iobuf) : Prop := ∃ k ≤ 31, io.size = 2 ^ k

/-- The number of bytes held. -/
def Iobuf.used (io : Iobuf) : Nat := (minuteIobufUsed io).toNat

structure Iobuf.Valid (io : Iobuf) : Prop where
  size : io.SizeOk
  used_le : io.used ≤ io.size

def Iobuf.contents (io : Iobuf) : List Byte := Ring.cells io.size io.data io.read.toNat io.used

namespace Iobuf.SizeOk

variable {io : Iobuf} (h : io.SizeOk)
include h

theorem pos : 0 < io.size := by
  obtain ⟨k, -, hk⟩ := h
  rw [hk]
  exact Nat.two_pow_pos k

theorem le : io.size ≤ 2 ^ 31 := by
  obtain ⟨k, hk, hs⟩ := h
  rw [hs]
  exact Nat.pow_le_pow_right (by omega) hk

theorem dvd : io.size ∣ 2 ^ 32 := by
  obtain ⟨k, hk, hs⟩ := h
  rw [hs]
  exact Nat.pow_dvd_pow 2 (by omega)

theorem and_mask (i : Uint) : (i &&& io.mask).toNat = i.toNat % io.size := by
  obtain ⟨k, -, hs⟩ := h
  have hmask : io.mask.toNat = 2 ^ k - 1 := by
    have : io.size = io.mask.toNat + 1 := rfl
    omega
  rw [BitVec.toNat_and, hmask, Nat.and_two_pow_sub_one_eq_mod, hs]

theorem mask_add_one : (io.mask + 1).toNat = io.size := by
  have hle := h.le
  have hs : io.size = io.mask.toNat + 1 := rfl
  rw [BitVec.toNat_add, hs]
  show (io.mask.toNat + 1) % 2 ^ 32 = _
  omega

theorem add_mod (i j : Uint) : (i + j).toNat % io.size = (i.toNat + j.toNat) % io.size := by
  rw [BitVec.toNat_add, Nat.mod_mod_of_dvd _ h.dvd]

theorem free_eq (hu : io.used ≤ io.size) : (minuteIobufFree io).toNat = io.size - io.used := by
  have hle := h.le
  unfold minuteIobufFree
  rw [BitVec.toNat_sub, h.mask_add_one]
  show (2 ^ 32 - io.used + io.size) % 2 ^ 32 = _
  omega

end Iobuf.SizeOk

theorem Iobuf.write_eq (io : Iobuf) : io.write = io.read + minuteIobufUsed io := by
  rw [minuteIobufUsed, BitVec.add_comm, BitVec.sub_add_cancel]

theorem add_sub_comm (a b c : Uint) : a + b - c = a - c + b := by
  apply BitVec.eq_of_toNat_eq
  simp only [BitVec.toNat_add, BitVec.toNat_sub]
  omega

theorem Iobuf.SizeOk.write_mod {io : Iobuf} (h : io.SizeOk) :
    io.write.toNat % io.size = (io.read.toNat + io.used) % io.size := by
  conv => lhs; rw [io.write_eq, h.add_mod]
  rfl

@[simp] theorem Iobuf.length_contents (io : Iobuf) : io.contents.length = io.used := by
  simp [Iobuf.contents]

theorem Iobuf.SizeOk.window_eq {io : Iobuf} (h : io.SizeOk) (m : Uint) (n : Nat) :
    io.window m n = Ring.cells io.size io.data m.toNat n := by
  induction n generalizing m with
  | zero => rfl
  | succ n ih =>
    rw [Iobuf.window, ih, Ring.cells_succ, Iobuf.at, h.and_mask, Ring.cells_congr (h.add_mod m 1)]
    rfl

theorem Iobuf.SizeOk.from_read {io : Iobuf} (h : io.SizeOk) : io.from io.read = io.contents :=
  h.window_eq _ _

/-! ## Appending -/

/-- The ring with `src` behind what it holds. -/
def Iobuf.append (io : Iobuf) (src : List Byte) : Iobuf :=
  { io with data := Ring.store io.size io.data io.write.toNat src
            write := io.write + BitVec.ofNat 32 src.length }

section

variable {io : Iobuf} {src : List Byte}

theorem Iobuf.used_append (h : io.SizeOk) (hfit : io.used + src.length ≤ io.size) :
    (io.append src).used = io.used + src.length := by
  have hle := h.le
  have hu : minuteIobufUsed (io.append src) = minuteIobufUsed io + BitVec.ofNat 32 src.length := by
    exact add_sub_comm _ _ _
  unfold Iobuf.used at *
  rw [hu, BitVec.toNat_add, BitVec.toNat_ofNat]
  omega

theorem Iobuf.valid_append (h : io.SizeOk) (hfit : io.used + src.length ≤ io.size) :
    (io.append src).Valid := ⟨h, by rw [Iobuf.used_append h hfit]; exact hfit⟩

/-- **Appending appends.** -/
theorem Iobuf.contents_append (h : io.SizeOk) (hfit : io.used + src.length ≤ io.size) :
    (io.append src).contents = io.contents ++ src := by
  unfold Iobuf.contents
  rw [Iobuf.used_append h hfit]
  show Ring.cells io.size (Ring.store io.size io.data io.write.toNat src) io.read.toNat _ = _
  rw [Ring.store_congr h.write_mod, Ring.cells_store_append io.data hfit]

/-- A write into the room there is appends as much of `src` as its length says in 32 bits. -/
theorem minuteIobufWrite_eq (h : io.Valid) {n : Nat} (hn : (BitVec.ofNat 32 src.length).toNat = n) (hpos : 0 < n)
    (hfit : io.used + n ≤ io.size) :
    minuteIobufWrite src io = some ((BitVec.ofNat 32 src.length).toInt, io.append (src.take n)) := by
  have hle := h.size.le
  have hlen : n ≤ src.length := by
    rw [← hn, BitVec.toNat_ofNat]
    exact Nat.mod_le _ _
  have htake : (src.take n).length = n := List.length_take_of_le hlen
  have hadd : BitVec.ofNat 32 (src.take n).length = BitVec.ofNat 32 src.length := by
    rw [htake, ← hn, BitVec.ofNat_toNat, BitVec.setWidth_eq]
  have hroom : ¬ io.write + BitVec.ofNat 32 src.length - io.read > io.mask + 1 := by
    have hu := @Iobuf.used_append io (src.take n) h.size (by rw [htake]; exact hfit)
    have hused : (io.write + BitVec.ofNat 32 src.length - io.read).toNat = io.used + n := by
      rw [← hadd]
      exact hu.trans (by rw [htake])
    rw [gt_iff_lt, BitVec.lt_def, h.size.mask_add_one, hused]
    omega
  have hei := h.size.and_mask io.write
  have hnei := h.size.and_mask (io.write + BitVec.ofNat 32 src.length)
  rw [h.size.add_mod, hn, Ring.add_mod_eq h.size.pos (by omega)] at hnei
  have hlt := Nat.mod_lt io.write.toNat h.size.pos
  unfold minuteIobufWrite Iobuf.append Ring.store
  simp only [if_neg hroom, hadd]
  by_cases hgt : (io.write + BitVec.ofNat 32 src.length) &&& io.mask > io.write &&& io.mask
  · rw [if_pos hgt]
    rw [gt_iff_lt, BitVec.lt_def, hei, hnei] at hgt
    have hin : io.write.toNat % io.size + n < io.size := by
      by_contra hout
      rw [if_neg hout] at hgt
      omega
    rw [hei, hn, memcpyIn, if_pos ⟨by omega, by omega⟩, List.drop_zero]
    rw [List.take_of_length_le (l := src.take n) (by omega), List.drop_of_length_le (by omega), blit_nil]
    rfl
  · rw [if_neg hgt]
    rw [gt_iff_lt, BitVec.lt_def, hei, hnei] at hgt
    have hout : io.size ≤ io.write.toNat % io.size + n := by
      by_contra hin
      rw [if_pos (by omega)] at hgt
      omega
    have hsplit : (io.mask + 1 - (io.write &&& io.mask)).toNat = io.size - io.write.toNat % io.size := by
      rw [BitVec.toNat_sub, h.size.mask_add_one, hei]
      omega
    have hrest : (BitVec.ofNat 32 src.length - (io.mask + 1 - (io.write &&& io.mask))).toNat =
        n - (io.size - io.write.toNat % io.size) := by
      rw [BitVec.toNat_sub, hn, hsplit]
      omega
    rw [hei, hsplit, hrest, memcpyIn, if_pos ⟨by omega, by omega⟩, List.drop_zero]
    simp only [Option.bind_eq_bind, Option.bind_some]
    rw [memcpyIn, if_pos ⟨by omega, by omega⟩, Option.bind_some]
    rw [List.take_take, Nat.min_eq_left (by omega), List.drop_take]

theorem minuteIobufWrite_fits (h : io.Valid) (hsrc : src ≠ []) (hfit : io.used + src.length ≤ io.size) :
    minuteIobufWrite src io = some ((BitVec.ofNat 32 src.length).toInt, io.append src) := by
  have hle := h.size.le
  have hn : (BitVec.ofNat 32 src.length).toNat = src.length := by
    rw [BitVec.toNat_ofNat]
    omega
  have heq := minuteIobufWrite_eq h hn (List.length_pos_iff.mpr hsrc) hfit
  rwa [List.take_length] at heq

theorem minuteIobufWrite_full (h : io.Valid) (hlen : src.length < 2 ^ 31)
    (hfull : io.size < io.used + src.length) : minuteIobufWrite src io = some (-1, io) := by
  have hle := h.size.le
  have hu := h.used_le
  have hroom : io.write + BitVec.ofNat 32 src.length - io.read > io.mask + 1 := by
    have hval : (io.write + BitVec.ofNat 32 src.length - io.read).toNat = io.used + src.length := by
      rw [add_sub_comm, BitVec.toNat_add, BitVec.toNat_ofNat]
      show (io.used + _) % _ = _
      omega
    rw [gt_iff_lt, BitVec.lt_def, h.size.mask_add_one, hval]
    exact hfull
  unfold minuteIobufWrite
  simp only [if_pos hroom]

/-- An empty block is copied from all the same, by as many bytes as there are to the end of the ring. -/
theorem minuteIobufWrite_nil (h : io.Valid) : minuteIobufWrite [] io = none := by
  have hle := h.size.le
  have hu := h.used_le
  have hlt := Nat.mod_lt io.write.toNat h.size.pos
  have hzero : io.write + BitVec.ofNat 32 ([] : List Byte).length = io.write := by simp
  have hroom : ¬ io.write - io.read > io.mask + 1 := by
    rw [gt_iff_lt, BitVec.lt_def, h.size.mask_add_one]
    show ¬ _ < io.used
    omega
  have hsplit : (io.mask + 1 - (io.write &&& io.mask)).toNat = io.size - io.write.toNat % io.size := by
    rw [BitVec.toNat_sub, h.size.mask_add_one, h.size.and_mask]
    omega
  unfold minuteIobufWrite
  simp only [hzero, if_neg hroom]
  rw [if_neg (by simp), hsplit, memcpyIn, if_neg (by rw [List.length_nil]; omega)]
  rfl

/-- The same of a block whose length is 0 in 32 bits: the rest of the copy does not fit the ring. -/
theorem minuteIobufWrite_zero (h : io.Valid) (hsize : io.size < 2 ^ 31) (hsrc : BitVec.ofNat 32 src.length = 0) :
    minuteIobufWrite src io = none := by
  have hu := h.used_le
  have hlt := Nat.mod_lt io.write.toNat h.size.pos
  have hroom : ¬ io.write - io.read > io.mask + 1 := by
    rw [gt_iff_lt, BitVec.lt_def, h.size.mask_add_one]
    show ¬ _ < io.used
    omega
  have hsplit : (io.mask + 1 - (io.write &&& io.mask)).toNat = io.size - io.write.toNat % io.size := by
    rw [BitVec.toNat_sub, h.size.mask_add_one, h.size.and_mask]
    omega
  have hrest : io.size < ((0 : Uint) - (io.mask + 1 - (io.write &&& io.mask))).toNat := by
    rw [BitVec.toNat_sub, hsplit]
    show _ < (2 ^ 32 - _ + 0) % 2 ^ 32
    omega
  have hzero : io.write + BitVec.ofNat 32 src.length = io.write := by
    rw [hsrc]
    exact BitVec.add_zero _
  unfold minuteIobufWrite
  simp only [hzero, if_neg hroom]
  rw [if_neg (by simp), hsrc]
  cases memcpyIn io.size io.data (io.write &&& io.mask).toNat src 0 (io.mask + 1 - (io.write &&& io.mask)).toNat with
  | none => rfl
  | some d =>
    simp only [Option.bind_eq_bind, Option.bind_some]
    rw [memcpyIn, if_neg (fun hin => by have := hin.1; omega)]
    rfl

/-- What a write is for: it refuses exactly what does not fit, and appends the rest. The result is there,
so no copy has left the block or the ring. -/
def WritesRight (io : Iobuf) (src : List Byte) : Prop :=
  (io.size - io.used < src.length ∧ minuteIobufWrite src io = some (-1, io)) ∨
  (src.length ≤ io.size - io.used ∧ ∃ io', minuteIobufWrite src io = some ((src.length : Int), io') ∧
    io'.read = io.read ∧ io'.write = io.write + BitVec.ofNat 32 src.length ∧ io'.mask = io.mask ∧
    io'.flags = io.flags ∧ io'.contents = io.contents ++ src)

/-- **A write is right unless the block is empty.** -/
theorem writesRight_iff (h : io.Valid) (hlen : src.length < 2 ^ 31) : WritesRight io src ↔ src ≠ [] := by
  have hu := h.used_le
  constructor
  · intro hright hnil
    rw [hnil] at hright
    have hnone := minuteIobufWrite_nil h
    obtain ⟨-, hw⟩ | ⟨-, io', hw, -⟩ := hright
    · rw [hnone] at hw
      cases hw
    · rw [hnone] at hw
      cases hw
  · intro hsrc
    by_cases hfit : io.used + src.length ≤ io.size
    · have hint : (BitVec.ofNat 32 src.length).toInt = src.length := by
        rw [BitVec.toInt_ofNat', Int.bmod_eq_of_le]
        · omega
        · omega
      refine .inr ⟨by omega, io.append src, ?_, rfl, rfl, rfl, rfl, Iobuf.contents_append h.size hfit⟩
      rw [minuteIobufWrite_fits h hsrc hfit, hint]
    · exact .inl ⟨by omega, minuteIobufWrite_full h hlen (by omega)⟩

end

theorem Iobuf.valid_of {io : Iobuf} (k : Nat) (hk : k ≤ 31) (hsize : io.size = 2 ^ k) (hused : io.used ≤ io.size) :
    io.Valid := ⟨⟨k, hk, hsize⟩, hused⟩

/-- Two bytes behind two, across the end of a ring of four whose indices are about to wrap around. -/
theorem writesRight_wrapping :
    WritesRight ⟨0xfffffffd, 0xffffffff, 3, 0, fun _ => 0⟩ (bytes "ab") :=
  (writesRight_iff (Iobuf.valid_of 2 (by decide) rfl (by decide)) (by decide)).mpr (by decide)

/-- Nothing, into an empty ring of four bytes: four bytes are copied from behind the block. -/
theorem write_empty_outside :
    (minuteIobufInit 4 fun _ => 0).Valid ∧ ¬WritesRight (minuteIobufInit 4 fun _ => 0) [] := by
  refine ⟨Iobuf.valid_of 2 (by decide) rfl (by decide), fun hright => ?_⟩
  have hnone : minuteIobufWrite [] (minuteIobufInit 4 fun _ => 0) = none := rfl
  obtain ⟨-, hw⟩ | ⟨-, io', hw, -⟩ := hright
  · rw [hnone] at hw
    cases hw
  · rw [hnone] at hw
    cases hw

/-! ## Taking -/

/-- The ring without the first `n` bytes it holds. -/
def Iobuf.take (io : Iobuf) (n : Nat) : Iobuf := { io with read := io.read + BitVec.ofNat 32 n }

@[simp] theorem Iobuf.take_zero (io : Iobuf) : io.take 0 = io := by
  unfold Iobuf.take
  rw [BitVec.add_zero]

theorem Iobuf.take_take (i : Iobuf) (m n : Nat) : (i.take m).take n = i.take (m + n) := by
  unfold Iobuf.take
  rw [BitVec.ofNat_add, ← BitVec.add_assoc]

section

variable {io : Iobuf}

theorem Iobuf.used_take {n : Nat} (hn : n ≤ io.used) : (io.take n).used = io.used - n := by
  have hlt : io.used < 2 ^ 32 := (minuteIobufUsed io).isLt
  have hu : minuteIobufUsed (io.take n) = minuteIobufUsed io - BitVec.ofNat 32 n := by
    apply BitVec.eq_of_toNat_eq
    show (io.write - (io.read + BitVec.ofNat 32 n)).toNat = (io.write - io.read - BitVec.ofNat 32 n).toNat
    simp only [BitVec.toNat_add, BitVec.toNat_sub]
    omega
  unfold Iobuf.used at *
  rw [hu, BitVec.toNat_sub, BitVec.toNat_ofNat]
  omega

theorem Iobuf.valid_take (h : io.Valid) {n : Nat} (hn : n ≤ io.used) : (io.take n).Valid :=
  ⟨h.size, by
    rw [Iobuf.used_take hn]
    exact Nat.le_trans (Nat.sub_le _ _) h.used_le⟩

theorem Iobuf.contents_take (h : io.SizeOk) {n : Nat} (hn : n ≤ io.used) :
    (io.take n).contents = io.contents.drop n := by
  have hlt : io.used < 2 ^ 32 := (minuteIobufUsed io).isLt
  unfold Iobuf.contents
  rw [Iobuf.used_take hn, Ring.drop_cells _ _ _ _ hn]
  apply Ring.cells_congr
  show (io.read + BitVec.ofNat 32 n).toNat % io.size = _
  have hn' : (BitVec.ofNat 32 n).toNat = n := by
    rw [BitVec.toNat_ofNat]
    omega
  rw [h.add_mod, hn']
  rfl

/-- Reading all of a full ring that does not start at offset 0. -/
def Iobuf.ReadsOutside (io : Iobuf) (sz : Uint) : Prop :=
  io.used = io.size ∧ io.size ≤ sz.toNat ∧ io.read.toNat % io.size ≠ 0

theorem min_used (sz : Uint) :
    (if io.write - io.read > sz then io.read + sz else io.write) =
      io.read + BitVec.ofNat 32 (min io.used sz.toNat) := by
  by_cases h : io.write - io.read > sz
  · rw [if_pos h]
    rw [gt_iff_lt, BitVec.lt_def] at h
    have hmin : min io.used sz.toNat = sz.toNat := Nat.min_eq_right (Nat.le_of_lt h)
    rw [hmin, BitVec.ofNat_toNat, BitVec.setWidth_eq]
  · rw [if_neg h]
    rw [gt_iff_lt, BitVec.lt_def] at h
    have hmin : min io.used sz.toNat = io.used := Nat.min_eq_left (by show io.used ≤ _; exact Nat.le_of_not_lt h)
    rw [hmin, Iobuf.used, BitVec.ofNat_toNat, BitVec.setWidth_eq, ← io.write_eq]

theorem minuteIobufRead_eq (h : io.Valid) {sz : Uint} (hin : ¬io.ReadsOutside sz) :
    minuteIobufRead sz io =
      some (io.contents.take sz.toNat, io.take (min io.used sz.toNat)) := by
  have hle := h.size.le
  have hu := h.used_le
  have hpos := h.size.pos
  have hlt := Nat.mod_lt io.read.toNat hpos
  have hcut : io.contents.take sz.toNat = Ring.cells io.size io.data io.read.toNat (min io.used sz.toNat) := by
    rw [← Ring.take_cells io.data io.read.toNat io.used _ (Nat.min_le_left _ _), ← Iobuf.contents]
    rw [List.take_eq_take_min (i := sz.toNat), Iobuf.length_contents, Nat.min_comm]
  rw [hcut]
  obtain ⟨l, hl⟩ : ∃ l, l = min io.used sz.toNat := ⟨_, rfl⟩
  have hlu : l ≤ io.used := hl ▸ Nat.min_le_left _ _
  have hlz : (BitVec.ofNat 32 l).toNat = l := by
    rw [BitVec.toNat_ofNat]
    omega
  have hdiff : io.read + BitVec.ofNat 32 l - io.read = BitVec.ofNat 32 l := by
    rw [BitVec.add_comm, BitVec.add_sub_cancel]
  have hbi := h.size.and_mask io.read
  have hei := h.size.and_mask (io.read + BitVec.ofNat 32 l)
  rw [h.size.add_mod, hlz, Ring.add_mod_eq hpos (by omega)] at hei
  unfold minuteIobufRead
  simp only [min_used, ← hl, hdiff]
  rw [Ring.cells_eq hpos _ _ (show l ≤ io.size by omega)]
  by_cases hwrap : (io.read + BitVec.ofNat 32 l) &&& io.mask < io.read &&& io.mask
  · rw [if_pos hwrap]
    rw [BitVec.lt_def, hei, hbi] at hwrap
    have hout : io.size ≤ io.read.toNat % io.size + l := by
      by_contra hcon
      rw [if_pos (by omega)] at hwrap
      omega
    have htail : (io.mask + 1 - (io.read &&& io.mask)).toNat = io.size - io.read.toNat % io.size := by
      rw [BitVec.toNat_sub, h.size.mask_add_one, hbi]
      omega
    have hrest : (BitVec.ofNat 32 l - (io.mask + 1 - (io.read &&& io.mask))).toNat =
        l - (io.size - io.read.toNat % io.size) := by
      rw [BitVec.toNat_sub, hlz, htail]
      omega
    rw [hbi, htail, hrest, memcpyOut, if_pos (by omega)]
    simp only [Option.bind_eq_bind, Option.bind_some]
    rw [memcpyOut, if_pos (by omega), Option.bind_some, Nat.min_eq_right (by omega)]
    rfl
  · rw [if_neg hwrap]
    rw [BitVec.lt_def, hei, hbi] at hwrap
    by_cases hl0 : l = 0
    · rw [if_neg (by rw [hl0]; simp), hl0]
      simp [Iobuf.take]
    · have hin' : io.read.toNat % io.size + l ≤ io.size := by
        by_contra hcon
        have hfull : l = io.size := by
          by_contra hne
          rw [if_neg (by omega)] at hwrap
          omega
        exact hin ⟨by omega, by omega, by omega⟩
      have hne : BitVec.ofNat 32 l ≠ 0 := by
        intro hzero
        have := congrArg BitVec.toNat hzero
        rw [hlz] at this
        exact hl0 this
      rw [if_pos hne, hbi, hlz, memcpyOut, if_pos hin']
      rw [Nat.min_eq_left (by omega), Nat.sub_eq_zero_of_le (by omega), slice_zero, List.append_nil]
      rfl

theorem minuteIobufRead_outside (h : io.Valid) {sz : Uint} (hout : io.ReadsOutside sz) :
    minuteIobufRead sz io = none := by
  obtain ⟨hfull, hsz, hbi0⟩ := hout
  have hle := h.size.le
  have hpos := h.size.pos
  have hlz : (BitVec.ofNat 32 io.size).toNat = io.size := by
    rw [BitVec.toNat_ofNat]
    omega
  have hdiff : io.read + BitVec.ofNat 32 io.size - io.read = BitVec.ofNat 32 io.size := by
    rw [BitVec.add_comm, BitVec.add_sub_cancel]
  have hmin : min io.used sz.toNat = io.size := by omega
  have hbi := h.size.and_mask io.read
  have hei := h.size.and_mask (io.read + BitVec.ofNat 32 io.size)
  rw [h.size.add_mod, hlz, Nat.add_mod_right] at hei
  unfold minuteIobufRead
  simp only [min_used, hmin, hdiff]
  rw [if_neg (by rw [BitVec.lt_def, hei, hbi]; omega), if_pos, hbi, hlz, memcpyOut, if_neg (by omega)]
  · rfl
  · intro hzero
    have := congrArg BitVec.toNat hzero
    rw [hlz] at this
    exact absurd this (by show io.size ≠ 0; omega)

/-- What a read is for: it takes as many bytes as are wanted and there. The result is there, so no copy
has left the ring. -/
def ReadsRight (io : Iobuf) (sz : Uint) : Prop :=
  ∃ io', minuteIobufRead sz io = some (io.contents.take sz.toNat, io') ∧ io'.write = io.write ∧
    io'.mask = io.mask ∧ io'.flags = io.flags ∧ io'.data = io.data ∧
    io'.contents = io.contents.drop sz.toNat

/-- **A read is right unless** it is to take all of a full ring that does not start at offset 0. -/
theorem readsRight_iff (h : io.Valid) (sz : Uint) : ReadsRight io sz ↔ ¬io.ReadsOutside sz := by
  constructor
  · rintro ⟨io', hr, -⟩ hout
    rw [minuteIobufRead_outside h hout] at hr
    cases hr
  · intro hin
    refine ⟨_, minuteIobufRead_eq h hin, rfl, rfl, rfl, rfl, ?_⟩
    rw [Iobuf.contents_take h.size (Nat.min_le_left _ _), List.drop_eq_drop_min (i := sz.toNat),
      Iobuf.length_contents, Nat.min_comm]

end

/-- Three bytes of a ring of four, across its end. -/
theorem readsRight_wrapping : ReadsRight ⟨0xfffffffe, 1, 3, 0, fun i => BitVec.ofNat 8 i⟩ 3 :=
  (readsRight_iff (Iobuf.valid_of 2 (by decide) rfl (by decide)) 3).mpr fun h => absurd h.1 (by decide)

/-- Four bytes of a full ring of four that starts at offset 1: the last one is from behind the ring. -/
theorem read_full_outside :
    (Iobuf.mk 1 5 3 0 fun _ => 0).Valid ∧ ¬ReadsRight ⟨1, 5, 3, 0, fun _ => 0⟩ 4 := by
  refine ⟨Iobuf.valid_of 2 (by decide) rfl (by decide), ?_⟩
  rintro ⟨io', hr, -⟩
  have hnone : minuteIobufRead 4 ⟨1, 5, 3, 0, fun _ => 0⟩ = none := rfl
  rw [hnone] at hr
  cases hr

end MinuteHttp
