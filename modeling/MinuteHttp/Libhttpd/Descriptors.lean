import MinuteHttp.Libhttp.Contents
import MinuteHttp.Libhttpd.IobufUtil

/-!
# Refilling a ring and emptying it

`Refilled` is what a call of `minute_iobuf_readfd` can do (`minuteIobufReadfd_refilled`), and
`minuteIobufGather_eq` says that the two segments are the contents of the ring, where `write` is not
numerically below `read`.
-/

namespace MinuteHttp

open Block

/-- How the calls on the descriptor end after one that was no error. -/
def Infd.Goes (fd : Infd) (cuts : List (Option Nat)) : Prop :=
  fd.cuts = [] ∧ cuts = [] ∨ ∃ k, fd.cuts = some k :: cuts

/-- No call of `readv` fails. -/
def Infd.Steady (fd : Infd) : Prop := none ∉ fd.cuts

theorem Infd.Goes.steady {fd : Infd} {cuts : List (Option Nat)} {stream : List Byte} (h : fd.Goes cuts)
    (hs : fd.Steady) : (⟨stream, cuts⟩ : Infd).Steady := by
  unfold Infd.Steady at *
  obtain ⟨-, rfl⟩ | ⟨k, hk⟩ := h
  · simp
  · rw [hk] at hs
    exact fun hn => hs (List.mem_cons_of_mem _ hn)

theorem Infd.Goes.length_le {fd : Infd} {cuts : List (Option Nat)} (h : fd.Goes cuts) :
    cuts.length ≤ fd.cuts.length := by
  obtain ⟨h, rfl⟩ | ⟨k, hk⟩ := h
  · simp
  · rw [hk]
    simp

inductive Refilled (fd : Infd) (io : Iobuf) : Int × Infd × Iobuf → Prop where
  | full (h : io.used = io.size) : Refilled fd io (-1, fd, io)
  | error {cuts : List (Option Nat)} (hc : fd.cuts = none :: cuts) :
      Refilled fd io (-1, { fd with cuts }, { io with write := io.write - 1 })
  | eof {cuts : List (Option Nat)} (hs : fd.stream = []) (hc : fd.Goes cuts) :
      Refilled fd io (0, ⟨[], cuts⟩, { io with flags := io.flags ||| iobufEof })
  | more {bs rest : List Byte} {cuts : List (Option Nat)} (hbs : bs ≠ []) (hs : fd.stream = bs ++ rest)
      (hfit : io.used + bs.length ≤ io.size) (hc : fd.Goes cuts) :
      Refilled fd io (bs.length, ⟨rest, cuts⟩, io.append bs)

theorem Infd.readv_cases (fd : Infd) {n : Nat} (hn : 0 < n) :
    (∃ cuts, fd.cuts = none :: cuts ∧ fd.readv n = (none, { fd with cuts })) ∨
    ∃ bs rest cuts, fd.stream = bs ++ rest ∧ bs.length ≤ n ∧ (bs = [] → fd.stream = []) ∧ fd.Goes cuts ∧
      fd.readv n = (some bs, ⟨rest, cuts⟩) := by
  obtain ⟨stream, cuts⟩ := fd
  cases cuts with
  | nil =>
    refine .inr ⟨stream.take n, stream.drop n, [], (List.take_append_drop _ _).symm, ?_, ?_, .inl ⟨rfl, rfl⟩,
      rfl⟩
    · exact List.length_take_le _ _
    · intro h
      cases stream with
      | nil => rfl
      | cons b bs =>
        obtain ⟨d, rfl⟩ := Nat.exists_eq_add_of_lt hn
        rw [List.take_cons (by omega)] at h
        cases h
  | cons cut cuts =>
    cases cut with
    | none => exact .inl ⟨cuts, rfl, rfl⟩
    | some k =>
      refine .inr ⟨stream.take (min (k + 1) n), stream.drop (min (k + 1) n), cuts,
        (List.take_append_drop _ _).symm, ?_, ?_, .inr ⟨k, rfl⟩, rfl⟩
      · exact Nat.le_trans (List.length_take_le _ _) (Nat.min_le_right _ _)
      · intro h
        cases stream with
        | nil => rfl
        | cons b bs =>
          rw [List.take_cons (by omega)] at h
          cases h

/-! ## The two regions -/

/-- `iov` of `minute_iobuf_readfd`: the offset and the length of each region. -/
def Iobuf.readRegions (io : Iobuf) : (Nat × Nat) × (Nat × Nat) :=
  let bi := io.read &&& io.mask
  let ei := io.write &&& io.mask
  ((ei.toNat, (if bi > ei then bi - ei else io.mask + 1 - ei).toNat), (0, (if bi > ei then 0 else bi).toNat))

/-- The offsets of the regions, in order. -/
def Iobuf.offered (io : Iobuf) : List Nat :=
  List.range' io.readRegions.1.1 io.readRegions.1.2 ++ List.range' io.readRegions.2.1 io.readRegions.2.2

/-- The offsets of the free bytes, from the write index on. -/
def Iobuf.freeOffsets (io : Iobuf) : List Nat :=
  (List.range (io.size - io.used)).map fun i => (io.write.toNat + i) % io.size

section

variable {io : Iobuf}

theorem Iobuf.write_eq_read_iff (io : Iobuf) : io.write = io.read ↔ io.used = 0 := by
  constructor
  · intro he
    unfold Iobuf.used minuteIobufUsed
    rw [he, BitVec.sub_self]
    rfl
  · intro h0
    rw [io.write_eq, BitVec.eq_of_toNat_eq (show (minuteIobufUsed io).toNat = (0 : Uint).toNat from h0)]
    exact BitVec.add_zero _

theorem Iobuf.Valid.full_iff (h : io.Valid) :
    (io.read ≠ io.write ∧ io.write &&& io.mask = io.read &&& io.mask) ↔ io.used = io.size := by
  have hu := h.used_le
  have hpos := h.size.pos
  have hbi := h.size.and_mask io.read
  have hei := h.size.and_mask io.write
  have hw := h.size.write_mod
  rw [Ring.add_mod_eq hpos hu] at hw
  have hblt := Nat.mod_lt io.read.toNat hpos
  constructor
  · rintro ⟨hne, heq⟩
    have hused : io.used ≠ 0 := fun h0 => hne (io.write_eq_read_iff.mpr h0).symm
    have heq := congrArg BitVec.toNat heq
    rw [hei, hbi] at heq
    split at hw
    · omega
    · omega
  · intro hall
    refine ⟨fun he => ?_, BitVec.eq_of_toNat_eq ?_⟩
    · have := io.write_eq_read_iff.mp he.symm
      omega
    · rw [hei, hbi]
      split at hw
      · omega
      · omega

/-- The two regions are as long as there is room, and the first one ends at the end of the ring or at
`read`. -/
theorem Iobuf.Valid.readRegions_spec (h : io.Valid) (hroom : io.used < io.size) :
    io.readRegions.1.1 = io.write.toNat % io.size ∧
    io.readRegions.1.2 + io.readRegions.2.2 = io.size - io.used ∧
    io.readRegions.1.2 ≤ io.size - io.write.toNat % io.size ∧
    (io.readRegions.1.2 < io.size - io.write.toNat % io.size → io.readRegions.2.2 = 0) := by
  have hle := h.size.le
  have hpos := h.size.pos
  have hbi := h.size.and_mask io.read
  have hei := h.size.and_mask io.write
  have hw := h.size.write_mod
  rw [Ring.add_mod_eq hpos (Nat.le_of_lt hroom)] at hw
  have hblt := Nat.mod_lt io.read.toNat hpos
  have hend : (io.mask + 1 - (io.write &&& io.mask)).toNat = io.size - io.write.toNat % io.size := by
    have hlt := Nat.mod_lt io.write.toNat hpos
    rw [BitVec.toNat_sub, h.size.mask_add_one, hei]
    omega
  have hmask : io.read &&& io.mask > io.write &&& io.mask ↔ io.write.toNat % io.size < io.read.toNat % io.size := by
    rw [gt_iff_lt, BitVec.lt_def, hei, hbi]
  refine ⟨hei, ?_⟩
  unfold Iobuf.readRegions
  dsimp only
  by_cases hgt : io.read &&& io.mask > io.write &&& io.mask
  · rw [if_pos hgt, if_pos hgt, BitVec.toNat_sub, hei, hbi]
    rw [hmask] at hgt
    have h0 : (0 : Uint).toNat = 0 := rfl
    split at hw
    · omega
    · omega
  · rw [if_neg hgt, if_neg hgt, hend, hbi]
    rw [hmask] at hgt
    split at hw
    · omega
    · omega

/-- **The regions are the free bytes**, in the order of the ring. -/
theorem Iobuf.Valid.offered_eq (h : io.Valid) (hroom : io.used < io.size) : io.offered = io.freeOffsets := by
  obtain ⟨hstart, hsum, hfirst, honly⟩ := h.readRegions_spec hroom
  have hpos := h.size.pos
  have hlt := Nat.mod_lt io.write.toNat hpos
  have hzero : io.readRegions.2.1 = 0 := rfl
  unfold Iobuf.offered Iobuf.freeOffsets
  rw [← hsum, List.range_add, List.map_append, hzero, hstart]
  congr 1
  · rw [List.range'_eq_map_range]
    apply List.map_congr_left
    intro i hi
    have hi := List.mem_range.mp hi
    rw [← Nat.mod_add_mod io.write.toNat, Nat.mod_eq_of_lt (show io.write.toNat % io.size + i < io.size by omega)]
  · rw [List.range'_eq_map_range, List.map_map]
    apply List.map_congr_left
    intro i hi
    have hi := List.mem_range.mp hi
    have hexact : io.readRegions.1.2 = io.size - io.write.toNat % io.size := by
      by_contra hne
      have := honly (by omega)
      omega
    show 0 + i = (io.write.toNat + (io.readRegions.1.2 + i)) % io.size
    rw [← Nat.mod_add_mod io.write.toNat, hexact, show io.write.toNat % io.size + (io.size - io.write.toNat % io.size + i) =
      i + io.size by omega, Nat.add_mod_right, Nat.mod_eq_of_lt (by omega), Nat.zero_add]

theorem minuteIobufReadfd_eq (fd : Infd) (io : Iobuf) :
    minuteIobufReadfd fd io =
      if io.read ≠ io.write ∧ io.write &&& io.mask = io.read &&& io.mask then ((-1 : Int), fd, io)
      else
        match fd.readv (io.readRegions.1.2 + io.readRegions.2.2) with
        | (none, fd) => ((-1 : Int), fd, { io with write := io.write - 1 })
        | (some [], fd) => (0, fd, { io with flags := io.flags ||| iobufEof })
        | (some bs, fd) => (bs.length, fd, { io with
            data := blit (blit io.data io.readRegions.1.1 (bs.take io.readRegions.1.2)) 0
              (bs.drop io.readRegions.1.2)
            write := io.write + BitVec.ofNat 32 bs.length }) := rfl

theorem readfd_of_none {fd fd' : Infd} (h : io.Valid) (hroom : io.used < io.size)
    (hr : fd.readv (io.size - io.used) = (none, fd')) :
    minuteIobufReadfd fd io = (-1, fd', { io with write := io.write - 1 }) := by
  rw [minuteIobufReadfd_eq, if_neg (fun hc => Nat.ne_of_lt hroom (h.full_iff.mp hc)),
    (h.readRegions_spec hroom).2.1, hr]

theorem readfd_of_nil {fd fd' : Infd} (h : io.Valid) (hroom : io.used < io.size)
    (hr : fd.readv (io.size - io.used) = (some [], fd')) :
    minuteIobufReadfd fd io = (0, fd', { io with flags := io.flags ||| iobufEof }) := by
  rw [minuteIobufReadfd_eq, if_neg (fun hc => Nat.ne_of_lt hroom (h.full_iff.mp hc)),
    (h.readRegions_spec hroom).2.1, hr]

theorem readfd_of_some {fd fd' : Infd} {bs : List Byte} (h : io.Valid) (hroom : io.used < io.size)
    (hr : fd.readv (io.size - io.used) = (some bs, fd')) (hbs : bs ≠ []) (hlen : bs.length ≤ io.size - io.used) :
    minuteIobufReadfd fd io = ((bs.length : Int), fd', io.append bs) := by
  obtain ⟨hstart, hsum, hfirst, honly⟩ := h.readRegions_spec hroom
  rw [minuteIobufReadfd_eq, if_neg (fun hc => Nat.ne_of_lt hroom (h.full_iff.mp hc)), hsum, hr]
  have hdata : blit (blit io.data io.readRegions.1.1 (bs.take io.readRegions.1.2)) 0 (bs.drop io.readRegions.1.2) =
      Ring.store io.size io.data io.write.toNat bs := by
    unfold Ring.store
    rw [hstart]
    by_cases hlt : io.readRegions.1.2 < io.size - io.write.toNat % io.size
    · have := honly hlt
      rw [List.take_of_length_le (by omega), List.drop_of_length_le (by omega),
        List.take_of_length_le (by omega), List.drop_of_length_le (by omega)]
    · rw [show io.readRegions.1.2 = io.size - io.write.toNat % io.size by omega]
  cases bs with
  | nil => exact absurd rfl hbs
  | cons b bs =>
    dsimp only
    rw [hdata]
    rfl

end

/-- **A refill appends what it reads.** -/
theorem minuteIobufReadfd_refilled (fd : Infd) {io : Iobuf} (h : io.Valid) :
    Refilled fd io (minuteIobufReadfd fd io) := by
  by_cases hfull : io.used = io.size
  · rw [minuteIobufReadfd_eq, if_pos (h.full_iff.mpr hfull)]
    exact .full hfull
  · have hroom := Nat.lt_of_le_of_ne h.used_le hfull
    obtain ⟨cuts, hc, hr⟩ | ⟨bs, rest, cuts, hs, hbs, hnil, hc, hr⟩ :=
      fd.readv_cases (n := io.size - io.used) (by omega)
    · rw [readfd_of_none h hroom hr]
      exact .error hc
    · by_cases hempty : bs = []
      · rw [hempty] at hr
        rw [readfd_of_nil h hroom hr]
        have hstream := hnil hempty
        rw [hstream, hempty] at hs
        obtain rfl : rest = [] := hs.symm
        exact .eof hstream hc
      · rw [readfd_of_some h hroom hr hempty hbs]
        exact .more hempty hs (by omega) hc

/-- What a refill is for. It offers `readv` the free bytes, in order; what that reads is appended, the end
of the file is noted, and an error or a full ring leaves everything as it is. -/
def RefillsRight (fd : Infd) (io : Iobuf) : Prop :=
  (io.used = io.size → minuteIobufReadfd fd io = (-1, fd, io)) ∧
  (io.used < io.size → io.offered = io.freeOffsets ∧
    match fd.readv io.offered.length with
    | (none, fd') => ∃ r < 0, minuteIobufReadfd fd io = (r, fd', io)
    | (some [], fd') => minuteIobufReadfd fd io = (0, fd', { io with flags := io.flags ||| iobufEof })
    | (some bs, fd') => ∃ io', minuteIobufReadfd fd io = ((bs.length : Int), fd', io') ∧ io'.read = io.read ∧
        io'.mask = io.mask ∧ io'.flags = io.flags ∧ io'.contents = io.contents ++ bs)

theorem Iobuf.Valid.length_offered {io : Iobuf} (h : io.Valid) (hroom : io.used < io.size) :
    io.offered.length = io.size - io.used := by
  rw [h.offered_eq hroom, Iobuf.freeOffsets, List.length_map, List.length_range]

/-- **A refill is right unless `readv` fails**: then `write` is moved back by one. -/
theorem refillsRight_iff (fd : Infd) {io : Iobuf} (h : io.Valid) :
    RefillsRight fd io ↔ (io.used < io.size → fd.cuts.head? ≠ some none) := by
  constructor
  · rintro ⟨-, hright⟩ hroom herror
    obtain ⟨cuts, hc⟩ := List.head?_eq_some_iff.mp herror
    obtain ⟨-, hright⟩ := hright hroom
    have hr : fd.readv (io.size - io.used) = (none, { fd with cuts }) := by
      unfold Infd.readv
      rw [hc]
    rw [h.length_offered hroom, hr] at hright
    obtain ⟨r, -, hright⟩ := hright
    rw [readfd_of_none h hroom hr] at hright
    have hwrite : io.write - 1 = io.write := congrArg (fun x => x.2.2.write) hright
    have hnat := congrArg BitVec.toNat hwrite
    rw [BitVec.toNat_sub] at hnat
    have h1 : (1 : Uint).toNat = 1 := rfl
    have := io.write.isLt
    omega
  · intro hfails
    refine ⟨fun hfull => ?_, fun hroom => ⟨h.offered_eq hroom, ?_⟩⟩
    · rw [minuteIobufReadfd_eq, if_pos (h.full_iff.mpr hfull)]
    · rw [h.length_offered hroom]
      obtain ⟨cuts, hc, hr⟩ | ⟨bs, rest, cuts, hs, hbs, hnil, hc, hr⟩ :=
        fd.readv_cases (n := io.size - io.used) (by omega)
      · exact absurd (by rw [hc]; rfl) (hfails hroom)
      · rw [hr]
        cases bs with
        | nil => exact readfd_of_nil h hroom hr
        | cons b bs =>
          exact ⟨_, readfd_of_some h hroom hr (by simp) hbs, rfl, rfl, rfl,
            Iobuf.contents_append h.size (by omega)⟩

theorem refillsRight_wrapping : RefillsRight ⟨bytes "abc", []⟩ ⟨0xfffffffd, 0xffffffff, 3, 0, fun _ => 0⟩ :=
  (refillsRight_iff _ (Iobuf.valid_of 2 (by decide) rfl (by decide))).mpr fun _ => by decide

/-- An error on an empty ring of four bytes: it then counts as full of `2 ^ 32 - 1` bytes. -/
theorem refill_error_moves : (minuteIobufInit 4 fun _ => 0).Valid ∧
    ¬RefillsRight ⟨[], [none]⟩ (minuteIobufInit 4 fun _ => 0) := by
  refine ⟨Iobuf.valid_of 2 (by decide) rfl (by decide), fun hright => ?_⟩
  obtain ⟨-, r, -, hr⟩ := hright.2 (by decide)
  have hwrite : (0 : Uint) - 1 = 0 := congrArg (fun x => x.2.2.write) hr
  exact absurd hwrite (by decide)

/-! ## Emptying -/

/-- **The two segments are the contents of the ring.** -/
theorem minuteIobufGather_eq {io : Iobuf} (h : io.Valid) (hle : io.read.toNat ≤ io.write.toNat) :
    (minuteIobufGather io).1 ++ (minuteIobufGather io).2 = io.contents := by
  have hu := h.used_le
  have hpos := h.size.pos
  have hbi := h.size.and_mask io.read
  have hei := h.size.and_mask io.write
  have hw := h.size.write_mod
  rw [Ring.add_mod_eq hpos hu] at hw
  have hblt := Nat.mod_lt io.read.toNat hpos
  have hnum : io.used = io.write.toNat - io.read.toNat := by
    have hlt := io.write.isLt
    unfold Iobuf.used minuteIobufUsed
    rw [BitVec.toNat_sub]
    omega
  unfold minuteIobufGather Iobuf.contents
  dsimp only
  rw [Ring.cells_eq hpos _ _ hu]
  by_cases hgt : io.write > io.read
  · rw [if_pos hgt]
    rw [gt_iff_lt, BitVec.lt_def] at hgt
    rw [hbi, hei]
    by_cases hlt : io.read.toNat % io.size < io.write.toNat % io.size
    · rw [if_pos hlt, if_pos hlt]
      rw [show min io.used (io.size - io.read.toNat % io.size) =
          io.write.toNat % io.size - io.read.toNat % io.size by split at hw <;> omega,
        show io.used - (io.size - io.read.toNat % io.size) = 0 by split at hw <;> omega]
    · rw [if_neg hlt, if_neg hlt]
      rw [show min io.used (io.size - io.read.toNat % io.size) = io.size - io.read.toNat % io.size by
          split at hw <;> omega,
        show io.used - (io.size - io.read.toNat % io.size) = io.write.toNat % io.size by
          split at hw <;> omega]
  · rw [if_neg hgt]
    rw [gt_iff_lt, BitVec.lt_def] at hgt
    rw [show io.used = 0 by omega]
    simp

/-! ## Writing -/

theorem Outfd.write_cases (fd : Outfd) (bs : List Byte) :
    (∃ cuts, fd.write bs = (-1, { fd with cuts })) ∨
    fd.isOpen = true ∧ ∃ n cuts, n ≤ bs.length ∧
      fd.write bs = ((n : Int), { fd with cuts, sent := fd.sent ++ bs.take n }) := by
  obtain ⟨isOpen, cuts, sent⟩ := fd
  unfold Outfd.write
  by_cases hopen : isOpen = false
  · exact .inl ⟨cuts, if_pos hopen⟩
  · simp only [if_neg hopen]
    cases cuts with
    | nil =>
      refine .inr ⟨by simpa using hopen, bs.length, [], Nat.le_refl _, ?_⟩
      rw [List.take_length]
    | cons cut cuts =>
      cases cut with
      | none => exact .inl ⟨cuts, rfl⟩
      | some k =>
        refine .inr ⟨by simpa using hopen, min k bs.length, cuts, Nat.min_le_right _ _, ?_⟩
        dsimp only
        rw [List.length_take, ← List.take_eq_take_min]

/-- Every `write` accepts all that it is offered. -/
def Outfd.Willing (fd : Outfd) : Prop := fd.isOpen = true ∧ fd.cuts = []

theorem Outfd.Willing.write {fd : Outfd} (h : fd.Willing) (bs : List Byte) :
    fd.write bs = ((bs.length : Int), { fd with sent := fd.sent ++ bs }) := by
  unfold Outfd.write
  rw [if_neg (by rw [h.1]; simp), h.2]

end MinuteHttp
