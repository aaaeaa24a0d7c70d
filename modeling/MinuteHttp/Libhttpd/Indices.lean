import MinuteHttp.Libhttpd.Descriptors

/-!
# Indices that wrap around

The indices of a ring only grow, and wrap around at `2 ^ 32`. `minute_iobuf_write` and `minute_iobuf_read`
look at the difference of the two and at their remainders, so a shift of both by a multiple of the size
changes nothing. `minute_iobuf_put` and `minute_iobuf_gather` compare them as numbers: they go wrong where
`write` has wrapped around and `read` has not (`putGather_iff`), which a shift can bring about wherever the
contents reach the end of the data block (`indices_relative_iff`).
-/

namespace MinuteHttp

open Block

/-- Both indices further on by `d`. -/
def Iobuf.shift (io : Iobuf) (d : Uint) : Iobuf := { io with read := io.read + d, write := io.write + d }

/-- `minute_iobuf_put` is `minute_iobuf_write` of a block of one byte. -/
def PutAgrees (io : Iobuf) : Prop :=
  ∀ c, (∃ io₁ io₂, minuteIobufPut c io = some io₁ ∧ minuteIobufWrite [c] io = some (1, io₂) ∧
      io₁.read = io₂.read ∧ io₁.write = io₂.write ∧ io₁.contents = io₂.contents) ∨
    (minuteIobufPut c io = none ∧ minuteIobufWrite [c] io = some (-1, io))

def GathersRight (io : Iobuf) : Prop := (minuteIobufGather io).1 ++ (minuteIobufGather io).2 = io.contents

/-- No operation feels a shift of the indices by a multiple of the size. -/
def ShiftFree (io : Iobuf) : Prop :=
  ∀ d : Uint, io.size ∣ d.toNat →
    (io.shift d).contents = io.contents ∧
    (∀ c, minuteIobufPut c (io.shift d) = (minuteIobufPut c io).map fun io' => io'.shift d) ∧
    (∀ src, minuteIobufWrite src (io.shift d) = (minuteIobufWrite src io).map fun x => (x.1, x.2.shift d)) ∧
    (∀ sz, minuteIobufRead sz (io.shift d) = (minuteIobufRead sz io).map fun x => (x.1, x.2.shift d)) ∧
    minuteIobufGather (io.shift d) = minuteIobufGather io

section

variable {io : Iobuf}

/-! ## Without a shift -/

theorem minuteIobufPut_eq (c : Byte) (h : io.Valid) (hle : io.read.toNat ≤ io.write.toNat) :
    minuteIobufPut c io = if io.used = io.size then none else some (io.append [c]) := by
  have hfull := h.full_iff
  have hlt : io.read < io.write ↔ io.read ≠ io.write := by
    rw [BitVec.lt_def]
    constructor
    · intro hlt heq
      rw [heq] at hlt
      omega
    · intro hne
      exact Nat.lt_of_le_of_ne hle fun heq => hne (BitVec.eq_of_toNat_eq heq)
  have hei := h.size.and_mask io.write
  have hmod := Nat.mod_lt io.write.toNat h.size.pos
  unfold minuteIobufPut
  dsimp only
  by_cases hall : io.used = io.size
  · rw [if_pos hall, if_pos]
    obtain ⟨hne, heq⟩ := hfull.mpr hall
    exact ⟨hlt.mpr hne, heq.symm⟩
  · rw [if_neg hall, if_neg]
    · unfold Iobuf.append Ring.store
      rw [hei, List.take_of_length_le (by show 1 ≤ _; omega), List.drop_of_length_le (by show 1 ≤ _; omega),
        blit_nil]
      rfl
    · rintro ⟨hr, heq⟩
      exact hall (hfull.mp ⟨hlt.mp hr, heq.symm⟩)

theorem putAgrees_of_le (h : io.Valid) (hle : io.read.toNat ≤ io.write.toNat) : PutAgrees io := by
  intro c
  have hu := h.used_le
  rw [minuteIobufPut_eq c h hle]
  by_cases hall : io.used = io.size
  · rw [if_pos hall]
    exact .inr ⟨rfl, minuteIobufWrite_full h (by show 1 < _; omega) (by show _ < _ + 1; omega)⟩
  · rw [if_neg hall]
    exact .inl ⟨_, _, rfl, minuteIobufWrite_fits h (by simp) (by show _ + 1 ≤ _; omega), rfl, rfl, rfl⟩

theorem minuteIobufGather_of_ge (hle : io.write.toNat ≤ io.read.toNat) : minuteIobufGather io = ([], []) := by
  unfold minuteIobufGather
  dsimp only
  rw [if_neg]
  rw [gt_iff_lt, BitVec.lt_def]
  omega

theorem Iobuf.contents_ne_nil (hused : 0 < io.used) : io.contents ≠ [] := by
  intro hnil
  have := io.length_contents
  rw [hnil] at this
  exact absurd this (by show 0 ≠ _; omega)

theorem Iobuf.used_pos_of_lt (hlt : io.write.toNat < io.read.toNat) : 0 < io.used := by
  apply Nat.pos_of_ne_zero
  intro h0
  rw [io.write_eq_read_iff.mpr h0] at hlt
  omega

/-- **Putting a byte and gathering are right exactly where `write` is not numerically below `read`.** -/
theorem putGather_iff (h : io.Valid) : PutAgrees io ∧ GathersRight io ↔ io.read.toNat ≤ io.write.toNat := by
  constructor
  · rintro ⟨-, hgather⟩
    by_contra hlt
    unfold GathersRight at hgather
    rw [minuteIobufGather_of_ge (by omega)] at hgather
    exact Iobuf.contents_ne_nil (Iobuf.used_pos_of_lt (by omega)) hgather.symm
  · intro hle
    exact ⟨putAgrees_of_le h hle, minuteIobufGather_eq h hle⟩

/-! ## With a shift -/

section

variable {d : Uint} (h : io.SizeOk) (hd : io.size ∣ d.toNat)
include h hd

theorem Iobuf.SizeOk.shift_mask (i : Uint) : (i + d) &&& io.mask = i &&& io.mask := by
  apply BitVec.eq_of_toNat_eq
  obtain ⟨q, hq⟩ := hd
  rw [h.and_mask, h.and_mask, h.add_mod, hq, Nat.add_mul_mod_self_left]

omit h hd in
theorem shift_sub (i j d : Uint) : (i + d) - (j + d) = i - j := by
  apply BitVec.eq_of_toNat_eq
  simp only [BitVec.toNat_add, BitVec.toNat_sub]
  omega

theorem Iobuf.SizeOk.contents_shift : (io.shift d).contents = io.contents := by
  have hused : (io.shift d).used = io.used := by
    unfold Iobuf.used minuteIobufUsed Iobuf.shift
    rw [shift_sub]
  unfold Iobuf.contents
  rw [hused]
  apply Ring.cells_congr
  have hmask := congrArg BitVec.toNat (h.shift_mask hd io.read)
  rw [h.and_mask, h.and_mask] at hmask
  exact hmask

theorem minuteIobufWrite_shift (src : List Byte) :
    minuteIobufWrite src (io.shift d) = (minuteIobufWrite src io).map fun x => (x.1, x.2.shift d) := by
  have hend : io.write + d + BitVec.ofNat 32 src.length = io.write + BitVec.ofNat 32 src.length + d := by
    rw [BitVec.add_assoc, BitVec.add_comm d, ← BitVec.add_assoc]
  have hsize : (io.shift d).size = io.size := rfl
  unfold minuteIobufWrite
  rw [hsize]
  simp only [Iobuf.shift, hend, shift_sub, h.shift_mask hd]
  split
  · rfl
  · split
    · cases memcpyIn io.size io.data (io.write &&& io.mask).toNat src 0 (BitVec.ofNat 32 src.length).toNat with
      | none => rfl
      | some data => rfl
    · cases memcpyIn io.size io.data (io.write &&& io.mask).toNat src 0
        (io.mask + 1 - (io.write &&& io.mask)).toNat with
      | none => rfl
      | some data =>
        simp only [Option.bind_eq_bind, Option.bind_some]
        cases memcpyIn io.size data 0 src (io.mask + 1 - (io.write &&& io.mask)).toNat
          (BitVec.ofNat 32 src.length - (io.mask + 1 - (io.write &&& io.mask))).toNat with
        | none => rfl
        | some data => rfl

theorem minuteIobufRead_shift (sz : Uint) :
    minuteIobufRead sz (io.shift d) = (minuteIobufRead sz io).map fun x => (x.1, x.2.shift d) := by
  have hend : (if io.write - io.read > sz then io.read + d + sz else io.write + d) =
      (if io.write - io.read > sz then io.read + sz else io.write) + d := by
    split
    · rw [BitVec.add_assoc, BitVec.add_comm d, ← BitVec.add_assoc]
    · rfl
  have hsize : (io.shift d).size = io.size := rfl
  unfold minuteIobufRead
  rw [hsize]
  simp only [Iobuf.shift, shift_sub, hend, h.shift_mask hd]
  generalize (if io.write - io.read > sz then io.read + sz else io.write) = e
  split
  · cases memcpyOut io.size io.data (io.read &&& io.mask).toNat
      (io.mask + 1 - (io.read &&& io.mask)).toNat with
    | none => rfl
    | some x =>
      simp only [Option.bind_eq_bind, Option.bind_some]
      cases memcpyOut io.size io.data 0 (e - io.read - (io.mask + 1 - (io.read &&& io.mask))).toNat with
      | none => rfl
      | some y => rfl
  · split
    · cases memcpyOut io.size io.data (io.read &&& io.mask).toNat (e - io.read).toNat with
      | none => rfl
      | some x => rfl
    · rfl

/-- The comparison of the two indices is all that the other two operations feel. -/
theorem minuteIobufPut_shift (hlt : io.read + d < io.write + d ↔ io.read < io.write) (c : Byte) :
    minuteIobufPut c (io.shift d) = (minuteIobufPut c io).map fun io' => io'.shift d := by
  have hend : io.write + d + 1 = io.write + 1 + d := by
    rw [BitVec.add_assoc, BitVec.add_comm d, ← BitVec.add_assoc]
  unfold minuteIobufPut
  simp only [Iobuf.shift, hlt, hend, h.shift_mask hd]
  split
  · rfl
  · rfl

theorem minuteIobufGather_shift (hlt : io.read + d < io.write + d ↔ io.read < io.write) :
    minuteIobufGather (io.shift d) = minuteIobufGather io := by
  have hsize : (io.shift d).size = io.size := rfl
  unfold minuteIobufGather
  rw [hsize]
  simp only [Iobuf.shift, gt_iff_lt, hlt, h.shift_mask hd]

end

/-- The contents stay off the end of the data block. -/
def Iobuf.StaysOff (io : Iobuf) : Prop := io.used = 0 ∨ io.read.toNat % io.size + io.used < io.size

theorem Iobuf.SizeOk.lt_iff_of_staysOff (h : io.SizeOk) (hoff : io.StaysOff) {d : Uint} (hd : io.size ∣ d.toNat) :
    io.read + d < io.write + d ↔ 0 < io.used := by
  have hsum : io.write + d = io.read + d + minuteIobufUsed io := by
    rw [io.write_eq, BitVec.add_assoc, BitVec.add_comm (minuteIobufUsed io), ← BitVec.add_assoc]
  have hmask := congrArg BitVec.toNat (h.shift_mask hd io.read)
  rw [h.and_mask, h.and_mask] at hmask
  have hval : (minuteIobufUsed io).toNat = io.used := rfl
  rw [BitVec.lt_def, hsum, BitVec.toNat_add _ (minuteIobufUsed io), hval]
  obtain h0 | hlt := hoff
  · rw [h0]
    have := (io.read + d).isLt
    omega
  · obtain ⟨q, hq⟩ := h.dvd
    have hi := (io.read + d).isLt
    generalize (io.read + d).toNat = i at hmask hi ⊢
    -- `i` is at most `size` minus the remainder below the next multiple of the size
    have hdiv := Nat.div_add_mod i io.size
    have hquot : i / io.size < q := Nat.div_lt_of_lt_mul (by rw [← hq]; exact hi)
    have hnext := Nat.mul_le_mul_left io.size (Nat.succ_le_of_lt hquot)
    rw [Nat.mul_succ, ← hq] at hnext
    rw [hmask] at hdiv
    rw [Nat.mod_eq_of_lt (by omega)]
    omega

theorem Iobuf.SizeOk.lt_iff_of_staysOff_self (h : io.SizeOk) (hoff : io.StaysOff) :
    io.read < io.write ↔ 0 < io.used := by
  have hself := h.lt_iff_of_staysOff hoff (d := 0#32) (by simp)
  rwa [BitVec.add_zero, BitVec.add_zero] at hself

/-- The read index can be shifted to any index at the same remainder. -/
theorem Iobuf.SizeOk.exists_shift (h : io.SizeOk) {j : Nat} (hj : j < 2 ^ 32)
    (hmod : j % io.size = io.read.toNat % io.size) :
    ∃ d : Uint, io.size ∣ d.toNat ∧ (io.shift d).read.toNat = j := by
  have hread : io.read + (BitVec.ofNat 32 j - io.read) = BitVec.ofNat 32 j := by
    rw [BitVec.add_comm, BitVec.sub_add_cancel]
  have hval : (io.read + (BitVec.ofNat 32 j - io.read)).toNat = j := by
    rw [hread, BitVec.toNat_ofNat, Nat.mod_eq_of_lt hj]
  refine ⟨BitVec.ofNat 32 j - io.read, ?_, hval⟩
  have hsum := h.add_mod io.read (BitVec.ofNat 32 j - io.read)
  rw [hval, hmod] at hsum
  have hzero := Nat.sub_mod_eq_zero_of_mod_eq hsum.symm
  rw [Nat.add_sub_cancel_left] at hzero
  exact Nat.dvd_of_mod_eq_zero hzero

theorem Iobuf.shift_write (io : Iobuf) (d : Uint) :
    (io.shift d).write.toNat = ((io.shift d).read.toNat + io.used) % 2 ^ 32 := by
  have hsum : (io.shift d).write = (io.shift d).read + minuteIobufUsed io := by
    show io.write + d = io.read + d + minuteIobufUsed io
    rw [io.write_eq, BitVec.add_assoc, BitVec.add_comm (minuteIobufUsed io), ← BitVec.add_assoc]
  rw [hsum, BitVec.toNat_add]
  rfl

theorem staysOff_of_shiftFree (h : io.Valid) (hfree : ShiftFree io) : io.StaysOff := by
  by_contra hoff
  have hu := h.used_le
  have hle := h.size.le
  have hpos := h.size.pos
  have hlt := Nat.mod_lt io.read.toNat hpos
  have hout : 0 < io.used ∧ io.size ≤ io.read.toNat % io.size + io.used := by
    unfold Iobuf.StaysOff at hoff
    omega
  -- at the start of the index range the contents are gathered
  obtain ⟨d₁, hd₁, hread₁⟩ := h.size.exists_shift (j := io.read.toNat % io.size) (by omega)
    (Nat.mod_mod _ _)
  have hwrite₁ := io.shift_write d₁
  rw [hread₁, Nat.mod_eq_of_lt (by omega)] at hwrite₁
  obtain ⟨hcontents, -, -, -, hgather₁⟩ := hfree d₁ hd₁
  have hvalid : (io.shift d₁).Valid := by
    refine ⟨h.size, ?_⟩
    rw [← Iobuf.length_contents, hcontents, Iobuf.length_contents]
    exact hu
  have hall := minuteIobufGather_eq hvalid (by rw [hread₁, hwrite₁]; omega)
  rw [hgather₁, hcontents] at hall
  -- at its end `write` has wrapped around
  obtain ⟨q, hq⟩ := h.size.dvd
  obtain ⟨d₂, hd₂, hread₂⟩ := h.size.exists_shift (j := 2 ^ 32 - io.size + io.read.toNat % io.size) (by omega) <| by
    rw [hq, ← Nat.mul_sub_one, Nat.add_mod, Nat.mul_mod_right, Nat.zero_add, Nat.mod_mod, Nat.mod_mod]
  have hwrite₂ := io.shift_write d₂
  rw [hread₂] at hwrite₂
  obtain ⟨-, -, -, -, hgather₂⟩ := hfree d₂ hd₂
  rw [← hgather₂, minuteIobufGather_of_ge (by omega)] at hall
  exact Iobuf.contents_ne_nil hout.1 hall.symm

theorem shiftFree_of_staysOff (h : io.Valid) (hoff : io.StaysOff) : ShiftFree io := by
  intro d hd
  have hshift := h.size.lt_iff_of_staysOff hoff hd
  have hlt := hshift.trans (h.size.lt_iff_of_staysOff_self hoff).symm
  exact ⟨h.size.contents_shift hd, minuteIobufPut_shift h.size hd hlt, minuteIobufWrite_shift h.size hd,
    minuteIobufRead_shift h.size hd, minuteIobufGather_shift h.size hd hlt⟩

/-- **The operations agree and look only at relative indices exactly where** the contents stay off the end
of the data block; without a shift, exactly where `write` is not numerically below `read`. -/
theorem indices_relative_iff (h : io.Valid) :
    (PutAgrees io ∧ GathersRight io ↔ io.read.toNat ≤ io.write.toNat) ∧
    (PutAgrees io ∧ GathersRight io ∧ ShiftFree io ↔ io.StaysOff) := by
  refine ⟨putGather_iff h, fun ⟨_, _, hfree⟩ => staysOff_of_shiftFree h hfree, fun hoff => ?_⟩
  have hle : io.read.toNat ≤ io.write.toNat := by
    have hself := h.size.lt_iff_of_staysOff_self hoff
    rw [BitVec.lt_def] at hself
    by_cases hused : 0 < io.used
    · exact Nat.le_of_lt (hself.mpr hused)
    · exact Nat.le_of_eq (congrArg BitVec.toNat (io.write_eq_read_iff.mpr (by omega)).symm)
  obtain ⟨hput, hgather⟩ := (putGather_iff h).mpr hle
  exact ⟨hput, hgather, shiftFree_of_staysOff h hoff⟩

end

/-- Two bytes of four, from offset 1. -/
theorem indices_relative_inner :
    let io : Iobuf := ⟨0x10001, 0x10003, 3, 0, fun _ => 0⟩
    PutAgrees io ∧ GathersRight io ∧ ShiftFree io :=
  (indices_relative_iff (Iobuf.valid_of 2 (by decide) rfl (by decide))).2.mpr (.inr (by decide))

/-- A full ring of four whose `write` has wrapped around: one more byte is put, which is then the first of
five, and nothing is gathered. -/
theorem put_wrapped : (Iobuf.mk 0xfffffffe 2 3 0 fun _ => 0).Valid ∧
    ¬PutAgrees ⟨0xfffffffe, 2, 3, 0, fun _ => 0⟩ ∧ ¬GathersRight ⟨0xfffffffe, 2, 3, 0, fun _ => 0⟩ := by
  refine ⟨Iobuf.valid_of 2 (by decide) rfl (by decide), fun hput => ?_, ?_⟩
  · obtain ⟨io₁, io₂, -, hw, -⟩ | ⟨hp, -⟩ := hput 0
    · have hfull : minuteIobufWrite [0] ⟨0xfffffffe, 2, 3, 0, fun _ => 0⟩ =
          some (-1, ⟨0xfffffffe, 2, 3, 0, fun _ => 0⟩) := rfl
      rw [hfull] at hw
      cases hw
    · cases hp
  · unfold GathersRight
    decide

end MinuteHttp
