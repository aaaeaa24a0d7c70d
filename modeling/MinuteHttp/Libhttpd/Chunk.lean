import MinuteHttp.Libhttpd.Descriptors
import MinuteHttp.Libhttpd.Httpd

/-!
# Writing out a chunk

`minute_httpd_chunk` writes what the ring holds and a block behind it, and goes on after a write that
accepts only a part (`chunkLoop_plain`). But what is left it writes as if it were no chunk, and it does
not count the size line and the line end as left. So a chunk is whole only if its first write accepts all of
it (`sendsFrame_iff`).
-/

namespace MinuteHttp

open Effect

/-! ## Writes that accept something -/

/-- Every `write` accepts at least one byte. -/
def Outfd.Steady (fd : Outfd) : Prop := fd.isOpen = true ∧ ∀ cut ∈ fd.cuts, ∃ k, cut = some (k + 1)

/-- Each of the next `n` writes accepts at least one byte. -/
def Outfd.Takes (n : Nat) (fd : Outfd) : Prop :=
  fd.isOpen = true ∧ ∀ cut ∈ fd.cuts.take n, ∃ k, cut = some (k + 1)

/-- How many of `len` bytes the next `write` accepts. -/
def Outfd.accepts (fd : Outfd) (len : Nat) : Nat :=
  match fd.cuts with
  | some k :: _ => min k len
  | _ => len

/-- The descriptor behind a `write` of `bs`. -/
def Outfd.wrote (fd : Outfd) (bs : List Byte) : Outfd :=
  { fd with cuts := fd.cuts.tail, sent := fd.sent ++ bs.take (fd.accepts bs.length) }

section

variable {fd : Outfd}

theorem Outfd.accepts_le (fd : Outfd) (len : Nat) : fd.accepts len ≤ len := by
  unfold Outfd.accepts
  split
  · exact Nat.min_le_right _ _
  · exact Nat.le_refl _

theorem Outfd.Steady.takes (h : fd.Steady) (n : Nat) : fd.Takes n :=
  ⟨h.1, fun cut hcut => h.2 cut (List.mem_of_mem_take hcut)⟩

theorem Outfd.Steady.wrote (h : fd.Steady) (bs : List Byte) : (fd.wrote bs).Steady :=
  ⟨h.1, fun cut hcut => h.2 cut (List.mem_of_mem_tail hcut)⟩

theorem Outfd.Takes.mono {m n : Nat} (h : fd.Takes n) (hle : m ≤ n) : fd.Takes m :=
  ⟨h.1, fun cut hcut => h.2 cut (List.take_subset_take_left _ hle hcut)⟩

section

variable {n : Nat} (h : fd.Takes (n + 1))
include h

theorem Outfd.Takes.accepts_pos {len : Nat} (hlen : 0 < len) : 0 < fd.accepts len := by
  unfold Outfd.accepts
  split
  · rename_i k cuts hcuts
    obtain ⟨j, hj⟩ := h.2 (some k) (by rw [hcuts]; exact List.mem_cons_self)
    cases hj
    omega
  · exact hlen

theorem Outfd.Takes.write (bs : List Byte) : fd.write bs = ((fd.accepts bs.length : Int), fd.wrote bs) := by
  obtain ⟨isOpen, cuts, sent⟩ := fd
  obtain ⟨hopen, hcuts⟩ := h
  unfold Outfd.write Outfd.wrote Outfd.accepts
  rw [if_neg (by rw [hopen]; decide)]
  cases cuts with
  | nil =>
    dsimp only
    rw [List.take_length]
    rfl
  | cons cut cuts =>
    obtain ⟨k, hk⟩ := hcuts cut List.mem_cons_self
    rw [hk]
    dsimp only
    rw [List.length_take, ← List.take_eq_take_min]
    rfl

theorem Outfd.Takes.wrote (bs : List Byte) : (fd.wrote bs).Takes n := by
  obtain ⟨isOpen, cuts, sent⟩ := fd
  cases cuts with
  | nil => exact ⟨h.1, fun cut hcut => nomatch List.mem_of_mem_take hcut⟩
  | cons first cuts => exact ⟨h.1, fun cut hcut => h.2 cut (List.mem_cons_of_mem _ hcut)⟩

end

end

/-! ## One write -/

/-- The out ring and its descriptor as a chunk finds them: the ring is sound, its indices have not
wrapped around, and the descriptor accepts something of every write. -/
structure HttpdState.Writable (st : HttpdState) : Prop where
  output : st.output.Valid
  noWrap : st.output.read.toNat ≤ st.output.write.toNat
  outfd : st.outfd.Steady

/-- The same for a descriptor that accepts something of each of the next `n` writes. -/
structure HttpdState.Ready (n : Nat) (st : HttpdState) : Prop where
  output : st.output.Valid
  noWrap : st.output.read.toNat ≤ st.output.write.toNat
  outfd : st.outfd.Takes n

theorem HttpdState.Writable.ready {st : HttpdState} (h : st.Writable) (n : Nat) : st.Ready n :=
  ⟨h.output, h.noWrap, h.outfd.takes n⟩

/-- The bytes of all segments. -/
def segments (size : List Byte) (out : Iobuf) (buf : List Byte) (chunked : Bool) : List Byte :=
  size ++ out.contents ++ buf ++ if chunked then crlf else []

/-- The state behind a write that has accepted `n` bytes of `offered`, of which `taken` came from the ring. -/
def HttpdResponse.sending (s : HttpdResponse) (offered : List Byte) (taken : Nat) : HttpdResponse :=
  { s with state.outfd := s.state.outfd.wrote offered, state.output := s.state.output.take taken }

theorem length_segments (size : List Byte) (out : Iobuf) (buf : List Byte) (chunked : Bool) :
    (segments size out buf chunked).length =
      size.length + out.used + buf.length + if chunked then 2 else 0 := by
  unfold segments
  simp only [List.length_append, Iobuf.length_contents]
  cases chunked with
  | false => rfl
  | true => rfl

theorem total_eq {out : Iobuf} {buf : List Byte} (h : out.used + buf.length < 2 ^ 32) :
    (minuteIobufUsed out + BitVec.ofNat 32 buf.length).toNat = out.used + buf.length := by
  rw [BitVec.toNat_add, BitVec.toNat_ofNat]
  show (out.used + _) % _ = _
  omega

theorem total_eq_zero_iff {out : Iobuf} {buf : List Byte} (h : out.used + buf.length < 2 ^ 32) :
    minuteIobufUsed out + BitVec.ofNat 32 buf.length = 0 ↔ out.used + buf.length = 0 := by
  rw [← total_eq h]
  constructor
  · intro h0
    rw [h0]
    rfl
  · exact fun h0 => BitVec.eq_of_toNat_eq h0

theorem ofInt_accepted {n : Nat} (h : n < 2 ^ 31) :
    (BitVec.ofInt 32 n).toInt = n ∧ (BitVec.ofInt 32 n).toNat = n := by
  rw [BitVec.ofInt_natCast, BitVec.toInt_ofNat', BitVec.toNat_ofNat, Int.bmod_eq_of_le]
  · omega
  · omega
  · omega

/-- Of `n` bytes accepted the ring has given those behind the size line, as many as it held, and the block the rest. -/
theorem accepted_split {x used : Uint} {pre n : Nat} (hx : x.toNat = n) (hpre : pre ≤ n)
    (hlt : pre + used.toNat < 2 ^ 32) :
    (if x < BitVec.ofNat 32 pre + used then x - BitVec.ofNat 32 pre else used) =
        BitVec.ofNat 32 (min (n - pre) used.toNat) ∧
      (if x < BitVec.ofNat 32 pre + used then (0 : Uint) else x - BitVec.ofNat 32 pre - used).toNat =
        n - pre - used.toNat := by
  have hbound := x.isLt
  have hpreNat : (BitVec.ofNat 32 pre).toNat = pre := by
    rw [BitVec.toNat_ofNat]
    omega
  have hsum : x < BitVec.ofNat 32 pre + used ↔ n < pre + used.toNat := by
    rw [BitVec.lt_def, hx, BitVec.toNat_add, hpreNat, Nat.mod_eq_of_lt hlt]
  have hsub : (x - BitVec.ofNat 32 pre).toNat = n - pre := by
    rw [BitVec.toNat_sub, hx, hpreNat]
    omega
  by_cases hring : n < pre + used.toNat
  · rw [if_pos (hsum.mpr hring), if_pos (hsum.mpr hring), Nat.min_eq_left (by omega)]
    refine ⟨BitVec.eq_of_toNat_eq ?_, ?_⟩
    · rw [BitVec.toNat_ofNat, hsub]
      omega
    · show 0 = _
      omega
  · rw [if_neg (fun hc => hring (hsum.mp hc)), if_neg (fun hc => hring (hsum.mp hc)), Nat.min_eq_right (by omega)]
    refine ⟨BitVec.eq_of_toNat_eq ?_, ?_⟩
    · rw [BitVec.toNat_ofNat]
      omega
    · rw [BitVec.toNat_sub, hsub]
      omega

/-- **A turn of the loop**: what one write accepts, and what is then left to do. -/
theorem chunkLoop_step {E : Stop → Prop} {Q : Int → HttpdResponse → Prop} {s : HttpdResponse}
    {buf size : List Byte} {chunked : Bool} {turns m n : Nat} (h : s.state.Ready (m + 1))
    (hpos : 0 < s.state.output.used + buf.length)
    (hsize : (if chunked then chunkSizeLine (s.state.output.used + buf.length) else some []) = some size)
    (hlen : (segments size s.state.output buf chunked).length < 2 ^ 31)
    (hn : n = s.state.outfd.accepts (segments size s.state.output buf chunked).length) :
    Meets E Q (chunkLoop (turns + 1) buf chunked) s ↔
      if n < size.length then Q (-1) (s.sending (segments size s.state.output buf chunked) 0)
      else if n < s.state.output.used + buf.length then
        Meets E (fun rr s' => if rr < 1 then Q rr s' else Q (n + rr) s')
          (chunkLoop turns (buf.drop (n - size.length - s.state.output.used)) false)
          (s.sending (segments size s.state.output buf chunked) (min (n - size.length) s.state.output.used))
      else Q n (s.sending (segments size s.state.output buf chunked) (min (n - size.length) s.state.output.used)) := by
  have hall := length_segments size s.state.output buf chunked
  have hle := Outfd.accepts_le s.state.outfd (segments size s.state.output buf chunked).length
  have hn0 : 0 < s.state.outfd.accepts (segments size s.state.output buf chunked).length :=
    h.outfd.accepts_pos (by omega)
  rw [← hn] at hle hn0
  have htotal := @total_eq s.state.output buf (by omega)
  have hne := mt (@total_eq_zero_iff s.state.output buf (by omega)).mp (Nat.ne_of_gt hpos)
  obtain ⟨hint, hnat⟩ := ofInt_accepted (n := n) (by omega)
  have hwrite := h.outfd.write (segments size s.state.output buf chunked)
  rw [← hn] at hwrite
  have hgather := minuteIobufGather_eq h.output h.noWrap
  have hsizeLen : (BitVec.ofNat 32 size.length).toNat = size.length := by
    rw [BitVec.toNat_ofNat]
    omega
  rw [chunkLoop, meets_bind, meets_get]
  dsimp only
  rw [if_neg hne, htotal, hsize]
  simp only [orStop, pure_bind]
  rw [List.append_assoc size, hgather]
  have hwrite' : s.state.outfd.write (size ++ s.state.output.contents ++ buf ++ if chunked then crlf else []) =
      ((n : Int), s.state.outfd.wrote (segments size s.state.output buf chunked)) := hwrite
  rw [hwrite']
  dsimp only
  rw [hint, if_pos (by omega)]
  generalize BitVec.ofInt 32 (n : Int) = x at hnat ⊢
  have hpre : x < BitVec.ofNat 32 size.length ↔ n < size.length := by rw [BitVec.lt_def, hnat, hsizeLen]
  have hleft : x < minuteIobufUsed s.state.output + BitVec.ofNat 32 buf.length ↔ n < s.state.output.used + buf.length := by
    rw [BitVec.lt_def, hnat, htotal]
  by_cases hshort : n < size.length
  · rw [if_pos (hpre.mpr hshort), if_pos hshort, meets_set_pure]
    unfold HttpdResponse.sending Iobuf.take
    rw [BitVec.add_zero]
  · obtain ⟨htaken, hdrop⟩ := @accepted_split x (minuteIobufUsed s.state.output) size.length n hnat
      (Nat.le_of_not_lt hshort) (show size.length + s.state.output.used < 2 ^ 32 by omega)
    have hused : (minuteIobufUsed s.state.output).toNat = s.state.output.used := rfl
    rw [hused] at htaken hdrop
    rw [if_neg (fun hc => hshort (hpre.mp hc)), if_neg hshort, htaken, hdrop, meets_bind, meets_set]
    by_cases hmore : n < s.state.output.used + buf.length
    · have hrest : (fun rr => Meets E Q (if rr < 1 then pure rr else pure ((n : Int) + rr))) =
          fun rr s' => if rr < 1 then Q rr s' else Q (n + rr) s' := by
        funext rr s'
        by_cases hrr : rr < 1
        · rw [if_pos hrr, if_pos hrr, meets_pure]
        · rw [if_neg hrr, if_neg hrr, meets_pure]
      rw [if_pos (hleft.mpr hmore), if_pos hmore, meets_bind, hrest]
      rfl
    · rw [if_neg (fun hc => hmore (hleft.mp hc)), if_neg hmore, meets_pure]
      rfl

theorem chunkLoop_zero {E : Stop → Prop} {Q : Int → HttpdResponse → Prop} {s : HttpdResponse} {buf : List Byte}
    (hzero : s.state.output.used + buf.length = 0) (turns : Nat) (chunked : Bool) :
    Meets E Q (chunkLoop (turns + 1) buf chunked) s ↔ Q 0 s := by
  rw [chunkLoop, meets_bind, meets_get]
  dsimp only
  rw [if_pos ((total_eq_zero_iff (by omega)).mpr hzero), meets_pure]

/-! ## A block without a size line -/

/-- Behind a call that has sent `bs`, in no more writes than it has bytes. -/
structure SentAll (s s' : HttpdResponse) (bs : List Byte) : Prop where
  sent : s'.state.outfd.sent = s.state.outfd.sent ++ bs
  empty : s'.state.output.used = 0
  ready : ∀ n, s.state.Ready (bs.length + n) → s'.state.Ready n
  output : s'.state.output = s.state.output.take s.state.output.used
  rest : s' = { s with state.outfd := s'.state.outfd, state.output := s'.state.output }

theorem Iobuf.read_le_take {io : Iobuf} (h : io.read.toNat ≤ io.write.toNat) {l : Nat} (hl : l ≤ io.used) :
    (io.take l).read.toNat ≤ (io.take l).write.toNat := by
  have hlt := io.write.isLt
  have hwrite : io.write.toNat = io.read.toNat + io.used := by
    unfold Iobuf.used minuteIobufUsed
    rw [BitVec.toNat_sub]
    omega
  show (io.read + BitVec.ofNat 32 l).toNat ≤ io.write.toNat
  rw [BitVec.toNat_add, BitVec.toNat_ofNat]
  omega

theorem SentAll.writable {s s' : HttpdResponse} {bs : List Byte} (h : SentAll s s' bs) (hs : s.state.Writable) :
    s'.state.Writable := by
  have hall (n : Nat) := h.ready n (hs.ready _)
  refine ⟨(hall 0).output, (hall 0).noWrap, (hall 0).outfd.1, fun cut hcut => ?_⟩
  exact (hall s'.state.outfd.cuts.length).outfd.2 cut (by rwa [List.take_length])

section

variable {st : HttpdState} {l : Nat}

theorem HttpdState.Writable.take (h : st.Writable) (hl : l ≤ st.output.used) (bs : List Byte) :
    ({ st with output := st.output.take l, outfd := st.outfd.wrote bs } : HttpdState).Writable :=
  ⟨Iobuf.valid_take h.output hl, Iobuf.read_le_take h.noWrap hl, h.outfd.wrote bs⟩

theorem HttpdState.Ready.take {n : Nat} (h : st.Ready (n + 1)) (hl : l ≤ st.output.used) (bs : List Byte) :
    ({ st with output := st.output.take l, outfd := st.outfd.wrote bs } : HttpdState).Ready n :=
  ⟨Iobuf.valid_take h.output hl, Iobuf.read_le_take h.noWrap hl, h.outfd.wrote bs⟩

theorem HttpdState.Ready.mono {m n : Nat} (h : st.Ready n) (hle : m ≤ n) : st.Ready m :=
  ⟨h.output, h.noWrap, h.outfd.mono hle⟩

end

/-- **Without a size line all is sent**, however the writes are cut. -/
theorem chunkLoop_plain (turns : Nat) (buf : List Byte) {s : HttpdResponse}
    (h : s.state.Ready (s.state.output.used + buf.length)) (hlen : s.state.output.used + buf.length < 2 ^ 31)
    (hturns : s.state.output.used + buf.length < turns) :
    Meets (fun _ => False) (fun (r : Int) s' => r = (s.state.output.used + buf.length : Nat) ∧
      SentAll s s' (s.state.output.contents ++ buf)) (chunkLoop turns buf false) s := by
  induction turns generalizing buf s with
  | zero => omega
  | succ turns ih =>
    by_cases hpos : 0 < s.state.output.used + buf.length
    · have hsegs : segments [] s.state.output buf false = s.state.output.contents ++ buf := by
        simp [segments]
      have hall : (segments [] s.state.output buf false).length = s.state.output.used + buf.length := by
        rw [length_segments]
        simp
      obtain ⟨n, hn⟩ : ∃ n, n = s.state.outfd.accepts (segments [] s.state.output buf false).length := ⟨_, rfl⟩
      obtain ⟨m, hm⟩ := Nat.exists_eq_add_one.mpr hpos
      have hready : s.state.Ready (m + 1) := hm ▸ h
      have hn0 : 0 < s.state.outfd.accepts (segments [] s.state.output buf false).length :=
        hready.outfd.accepts_pos (by omega)
      have hle := Outfd.accepts_le s.state.outfd (segments [] s.state.output buf false).length
      rw [← hn] at hn0 hle
      refine (@chunkLoop_step _ _ s buf [] false turns m n hready hpos rfl (by omega) hn).mpr ?_
      have htake : min n s.state.output.used ≤ s.state.output.used := Nat.min_le_right _ _
      have hsent : (s.state.outfd.wrote (segments [] s.state.output buf false)).sent =
          s.state.outfd.sent ++ (s.state.output.contents ++ buf).take n := by
        rw [← hsegs, hn]
        rfl
      have htaken {k : Nat} (hk : s.state.Ready (k + 1)) := hk.take htake (segments [] s.state.output buf false)
      have hused := Iobuf.used_take htake
      have hdata : (s.state.output.contents ++ buf).length = s.state.output.used + buf.length := by
        rw [List.length_append, Iobuf.length_contents]
      rw [List.length_nil, Nat.sub_zero, if_neg (Nat.not_lt_zero n)]
      by_cases hmore : n < s.state.output.used + buf.length
      · rw [if_pos hmore]
        have hrest : (s.state.output.take (min n s.state.output.used)).used +
            (buf.drop (n - s.state.output.used)).length = s.state.output.used + buf.length - n := by
          rw [hused, List.length_drop]
          omega
        have hleft : (s.state.output.take (min n s.state.output.used)).contents ++
            buf.drop (n - s.state.output.used) = (s.state.output.contents ++ buf).drop n := by
          rw [Iobuf.contents_take h.output.size htake, List.drop_append, Iobuf.length_contents,
            List.drop_eq_drop_min (i := n), Iobuf.length_contents]
        have hgoes := ih (buf.drop (n - s.state.output.used))
          (s := s.sending (segments [] s.state.output buf false) (min n s.state.output.used))
          ((htaken hready).mono (Nat.le_trans (Nat.le_of_eq hrest) (by omega)))
          (Nat.lt_of_le_of_lt (Nat.le_of_eq hrest) (by omega))
          (Nat.lt_of_le_of_lt (Nat.le_of_eq hrest) (by omega))
        refine hgoes.imp fun rr s' hs' => ?_
        obtain ⟨hrr, hall'⟩ := hs'
        have hrr' : rr = (s.state.output.used + buf.length - n : Nat) := hrr.trans (congrArg _ hrest)
        rw [if_neg (by omega)]
        refine ⟨by omega, ?_, hall'.empty, fun k hk => ?_, ?_, ?_⟩
        · rw [hall'.sent]
          show (s.state.outfd.wrote _).sent ++ ((s.state.output.take _).contents ++ _) = _
          rw [hsent, hleft, List.append_assoc, List.take_append_drop]
        · -- the write has taken a byte at least
          rw [hdata, hm, Nat.add_right_comm] at hk
          refine hall'.ready k ((htaken hk).mono (Nat.add_le_add_right ?_ k))
          show ((s.state.output.take _).contents ++ _).length ≤ m
          rw [hleft, List.length_drop, hdata]
          omega
        · rw [hall'.output]
          show (s.state.output.take _).take (s.state.output.take _).used = _
          rw [Iobuf.take_take, hused, Nat.add_sub_cancel' htake]
        · rw [hall'.rest]
          rfl
      · rw [if_neg hmore]
        refine ⟨by omega, ?_, ?_, fun k hk => ?_, ?_, rfl⟩
        · show (s.state.outfd.wrote _).sent = _
          rw [hsent, List.take_of_length_le]
          rw [List.length_append, Iobuf.length_contents]
          omega
        · show (s.state.output.take _).used = 0
          rw [hused]
          omega
        · rw [hdata, hm, Nat.add_right_comm] at hk
          exact (htaken hk).mono (Nat.le_add_left k m)
        · show s.state.output.take (min n s.state.output.used) = _
          rw [Nat.min_eq_right (by omega)]
    · rw [chunkLoop_zero (by omega)]
      have hnil : s.state.output.contents ++ buf = [] := by
        apply List.eq_nil_of_length_eq_zero
        rw [List.length_append, Iobuf.length_contents]
        omega
      refine ⟨by omega, ⟨?_, by omega, fun k hk => hk.mono (Nat.le_add_left k _), ?_, rfl⟩⟩
      · rw [hnil, List.append_nil]
      · rw [show s.state.output.used = 0 by omega, Iobuf.take_zero]

/-! ## Size lines -/

theorem length_hexText_le_iff (n : Nat) {k : Nat} (hk : 0 < k) : (hexText n).length ≤ k ↔ n < 16 ^ k := by
  rw [hexText, List.length_map]
  exact Nat.length_toDigits_le_iff (by decide) hk

theorem length_crlf : crlf.length = 2 := by decide

/-- What is sent of the size: a number of more than five digits is cut. -/
theorem chunkSizeLine_cases (n : Nat) :
    (n < 2 ^ 20 ∧ chunkSizeLine n = some (hexText n ++ crlf)) ∨
    (2 ^ 20 ≤ n ∧ n < 2 ^ 24 ∧ ∃ line, chunkSizeLine n = some line ∧
      line.length = (hexText n ++ crlf).length ∧ line ≠ hexText n ++ crlf) ∨
    (2 ^ 24 ≤ n ∧ chunkSizeLine n = none) := by
  have h5 := length_hexText_le_iff n (k := 5) (by decide)
  have h6 := length_hexText_le_iff n (k := 6) (by decide)
  have hlen : (hexText n ++ crlf).length = (hexText n).length + 2 := by
    rw [List.length_append, length_crlf]
  unfold chunkSizeLine
  dsimp only
  by_cases hfive : (hexText n).length ≤ 5
  · rw [if_pos (by omega)]
    exact .inl ⟨h5.mp hfive, rfl⟩
  · rw [if_neg (by omega)]
    by_cases hsix : (hexText n).length ≤ 6
    · rw [if_pos (by omega)]
      refine .inr (.inl ⟨?_, h6.mp hsix, _, rfl, ?_, ?_⟩)
      · have := mt h5.mpr hfive
        omega
      · rw [List.length_append, List.length_take]
        show _ + 1 = _
        omega
      · intro heq
        have hlast := congrArg (fun l => l.getLast?) heq
        simp [crlf, bytes] at hlast
    · rw [if_neg (by omega)]
      refine .inr (.inr ⟨?_, rfl⟩)
      have := mt h6.mpr hsix
      omega

theorem length_chunkSizeLine {n : Nat} {line : List Byte} (h : chunkSizeLine n = some line) : line.length ≤ 8 := by
  unfold chunkSizeLine at h
  dsimp only at h
  split at h
  · cases h
    omega
  · split at h
    · cases h
      rw [List.length_append, List.length_take]
      show _ + 1 ≤ 8
      omega
    · cases h

theorem length_hexText_of_lt {n : Nat} (h : n < 2 ^ 24) : (hexText n).length ≤ 6 :=
  (length_hexText_le_iff n (by decide)).mpr h

/-! ## A chunk -/

/-- The outcome of a chunk whose first write accepts `n` bytes. -/
theorem chunkLoop_chunk {s : HttpdResponse} {buf line : List Byte} {turns n : Nat} (h : s.state.Writable)
    (hpos : 0 < s.state.output.used + buf.length) (hlt : s.state.output.used + buf.length < 2 ^ 24)
    (hsize : chunkSizeLine (s.state.output.used + buf.length) = some line) (hline : line.length ≤ 8)
    (hn : n = s.state.outfd.accepts (segments line s.state.output buf true).length)
    (hturns : s.state.output.used + buf.length < turns) :
    Meets (fun _ => False) (fun (r : Int) s' =>
      (n < line.length ∧ r = -1) ∨
      (line.length ≤ n ∧ 0 ≤ r ∧
        (n < (segments line s.state.output buf true).length →
          s'.state.outfd.sent.length ≠ (s.state.outfd.sent ++ segments line s.state.output buf true).length) ∧
        (n = (segments line s.state.output buf true).length →
          s'.state.outfd.sent = s.state.outfd.sent ++ segments line s.state.output buf true ∧
            s'.state.output.used = 0)))
      (chunkLoop turns.succ buf true) s := by
  have hall := length_segments line s.state.output buf true
  have hsent : (s.state.outfd.wrote (segments line s.state.output buf true)).sent =
      s.state.outfd.sent ++ (segments line s.state.output buf true).take n := by
    rw [hn]
    rfl
  simp only [if_true] at hall
  refine (@chunkLoop_step _ _ s buf line true turns 0 n (h.ready 1) hpos hsize (by omega) hn).mpr ?_
  by_cases hshort : n < line.length
  · rw [if_pos hshort]
    exact .inl ⟨hshort, rfl⟩
  · rw [if_neg hshort]
    have htake : min (n - line.length) s.state.output.used ≤ s.state.output.used := Nat.min_le_right _ _
    have hused := Iobuf.used_take htake
    by_cases hmore : n < s.state.output.used + buf.length
    · -- the rest is sent without the line end
      rw [if_pos hmore]
      have hrest : (s.state.output.take (min (n - line.length) s.state.output.used)).used +
          (buf.drop (n - line.length - s.state.output.used)).length =
            s.state.output.used + buf.length - (n - line.length) := by
        rw [hused, List.length_drop]
        omega
      have hgoes := chunkLoop_plain turns (buf.drop (n - line.length - s.state.output.used))
        (s := s.sending (segments line s.state.output buf true) (min (n - line.length) s.state.output.used))
        ((h.take htake _).ready _) (Nat.lt_of_le_of_lt (Nat.le_of_eq hrest) (by omega))
        (Nat.lt_of_le_of_lt (Nat.le_of_eq hrest) (by omega))
      refine hgoes.imp fun rr s' hs' => ?_
      obtain ⟨hrr, hall'⟩ := hs'
      have hrr' : rr = (s.state.output.used + buf.length - (n - line.length) : Nat) := hrr.trans (congrArg _ hrest)
      rw [if_neg (by omega)]
      refine .inr ⟨by omega, by omega, fun _ hlen => ?_, fun hwhole => by omega⟩
      have hsent' : s'.state.outfd.sent = s.state.outfd.sent ++
          (segments line s.state.output buf true).take n ++ _ := hall'.sent.trans (by rw [← hsent]; rfl)
      have hlen' : ((s.state.output.take (min (n - line.length) s.state.output.used)).contents ++
          buf.drop (n - line.length - s.state.output.used)).length =
            s.state.output.used + buf.length - (n - line.length) := by
        rw [List.length_append, Iobuf.length_contents, hrest]
      rw [hsent', List.length_append, List.length_append, List.length_append, List.length_take,
        List.length_append] at hlen
      have : (s.state.outfd.sent.length + min n (segments line s.state.output buf true).length) +
          (s.state.output.used + buf.length - (n - line.length)) =
            s.state.outfd.sent.length + (segments line s.state.output buf true).length := by
        rw [← hlen, ← hlen', List.length_append]
        rfl
      omega
    · rw [if_neg hmore]
      refine .inr ⟨by omega, by omega, fun hcut hlen => ?_, fun hwhole => ⟨?_, ?_⟩⟩
      · have hlen' : (s.state.outfd.wrote (segments line s.state.output buf true)).sent.length = _ := hlen
        rw [hsent, List.length_append, List.length_append, List.length_take] at hlen'
        omega
      · show (s.state.outfd.wrote _).sent = _
        rw [hsent, List.take_of_length_le (by omega)]
      · show (s.state.output.take _).used = 0
        rw [hused]
        omega

/-- A number of seven digits or more does not fit `chunksz`. -/
theorem chunkLoop_tooLong {s : HttpdResponse} {buf : List Byte} (hge : 2 ^ 24 ≤ s.state.output.used + buf.length)
    (hlt : s.state.output.used + buf.length < 2 ^ 32) (turns : Nat) :
    chunkLoop (turns + 1) buf true s = .error .fault := by
  have hnone : chunkSizeLine (s.state.output.used + buf.length) = none := by
    obtain ⟨hsmall, -⟩ | ⟨-, hsmall, -⟩ | ⟨-, hnone⟩ := chunkSizeLine_cases (s.state.output.used + buf.length)
    · omega
    · omega
    · exact hnone
  rw [chunkLoop, get_bind]
  dsimp only
  rw [if_neg (fun h0 => by have := (total_eq_zero_iff hlt).mp h0; omega), total_eq hlt, if_pos rfl, hnone]
  rfl

/-! ## Whole frames -/

/-- What is to be sent of `data`: nothing of nothing, as an empty chunk would end the body. -/
def chunkFrame (data : List Byte) (chunked : Bool) : List Byte :=
  if data = [] then [] else if chunked then hexText data.length ++ crlf ++ data ++ crlf else data

/-- The call returns, and unless it returns a negative number all has been sent. -/
def SendsFrame (s : HttpdResponse) (buf : List Byte) (chunked : Bool) : Prop :=
  ∃ r s', minuteHttpdChunk buf chunked s = .ok (r, s') ∧
    (0 ≤ r → s'.state.outfd.sent = s.state.outfd.sent ++ chunkFrame (s.state.output.contents ++ buf) chunked ∧
      s'.state.output.used = 0)

/-- There is nothing to send, or the first write accepts less than the size line, or it accepts the whole
frame and the number of bytes has at most five digits. -/
def WholeChunk (s : HttpdResponse) (buf : List Byte) : Prop :=
  let data := s.state.output.contents ++ buf
  let first := s.state.outfd.accepts (chunkFrame data true).length
  data = [] ∨ (data.length < 2 ^ 24 ∧ first < (hexText data.length ++ crlf).length) ∨
    (data.length < 2 ^ 20 ∧ first = (chunkFrame data true).length)

instance wholeChunkDecidable (s : HttpdResponse) (buf : List Byte) : Decidable (WholeChunk s buf) := by
  unfold WholeChunk
  infer_instance

theorem minuteHttpdChunk_eq {s : HttpdResponse} {buf : List Byte} (hlt : s.state.output.used + buf.length < 2 ^ 32)
    (chunked : Bool) :
    minuteHttpdChunk buf chunked s = chunkLoop (s.state.output.used + buf.length + 2) buf chunked s := by
  rw [minuteHttpdChunk, get_bind, total_eq hlt]

theorem sendsFrame_plain {s : HttpdResponse} {buf : List Byte} (h : s.state.Writable)
    (hlen : s.state.output.used + buf.length < 2 ^ 31) : SendsFrame s buf false := by
  obtain ⟨r, s', hm, hr, hsent⟩ := (chunkLoop_plain (s.state.output.used + buf.length + 2) buf (h.ready _) hlen
    (by omega)).exists_ok
  refine ⟨r, s', ?_, fun _ => ⟨?_, hsent.empty⟩⟩
  · rw [minuteHttpdChunk_eq (by omega), hm]
  · rw [hsent.sent]
    unfold chunkFrame
    split
    · rename_i hnil
      rw [hnil]
    · rfl

theorem sendsFrame_chunk_iff {s : HttpdResponse} {buf : List Byte} (h : s.state.Writable)
    (hlen : s.state.output.used + buf.length < 2 ^ 31) : SendsFrame s buf true ↔ WholeChunk s buf := by
  have hdata : (s.state.output.contents ++ buf).length = s.state.output.used + buf.length := by
    rw [List.length_append, Iobuf.length_contents]
  by_cases hpos : 0 < s.state.output.used + buf.length
  · have hne : s.state.output.contents ++ buf ≠ [] := by
      intro hnil
      rw [hnil] at hdata
      exact absurd hdata (by show 0 ≠ _; omega)
    have hframe : chunkFrame (s.state.output.contents ++ buf) true =
        segments (hexText (s.state.output.used + buf.length) ++ crlf) s.state.output buf true := by
      unfold chunkFrame segments
      rw [if_neg hne, hdata, if_pos rfl, if_pos rfl, ← List.append_assoc]
    by_cases hbig : 2 ^ 24 ≤ s.state.output.used + buf.length
    · refine iff_of_false ?_ ?_
      · rintro ⟨r, s', hm, -⟩
        rw [minuteHttpdChunk_eq (by omega), chunkLoop_tooLong hbig (by omega)] at hm
        cases hm
      · unfold WholeChunk
        dsimp only
        rw [hdata]
        rintro (hnil | ⟨hlt, -⟩ | ⟨hlt, -⟩)
        · exact hne hnil
        · omega
        · omega
    · obtain ⟨line, hsize, hline, hcut⟩ : ∃ line, chunkSizeLine (s.state.output.used + buf.length) = some line ∧
          line.length = (hexText (s.state.output.used + buf.length) ++ crlf).length ∧
          (line = hexText (s.state.output.used + buf.length) ++ crlf ↔
            s.state.output.used + buf.length < 2 ^ 20) := by
        obtain ⟨hsmall, hsome⟩ | ⟨hge, -, line, hsome, hline, hne'⟩ | ⟨hge, -⟩ :=
          chunkSizeLine_cases (s.state.output.used + buf.length)
        · exact ⟨_, hsome, rfl, iff_of_true rfl hsmall⟩
        · exact ⟨line, hsome, hline, iff_of_false hne' (by omega)⟩
        · omega
      have hhex := length_hexText_of_lt (n := s.state.output.used + buf.length) (by omega)
      have hline8 : line.length ≤ 8 := by
        rw [hline, List.length_append, length_crlf]
        omega
      have hsegs : (segments line s.state.output buf true).length = (chunkFrame (s.state.output.contents ++ buf) true).length := by
        rw [hframe, length_segments, length_segments, hline]
      obtain ⟨n, hn⟩ : ∃ n, n = s.state.outfd.accepts (segments line s.state.output buf true).length := ⟨_, rfl⟩
      have hle := Outfd.accepts_le s.state.outfd (segments line s.state.output buf true).length
      obtain ⟨r, s', hm, hout⟩ := (@chunkLoop_chunk s buf line (s.state.output.used + buf.length + 1) n h hpos
        (by omega) hsize hline8 hn (by omega)).exists_ok
      have hrun : minuteHttpdChunk buf true s = .ok (r, s') := by
        rw [@minuteHttpdChunk_eq s buf (by omega)]
        exact hm
      rw [← hn, hsegs] at hle
      rw [hsegs] at hn
      unfold WholeChunk
      dsimp only
      rw [hdata, ← hn]
      constructor
      · rintro ⟨r', s'', hm', hright⟩
        rw [hrun] at hm'
        cases hm'
        obtain ⟨hshort, -⟩ | ⟨hgo, hr, hpart, hwhole⟩ := hout
        · exact .inr (.inl ⟨by omega, by omega⟩)
        · obtain ⟨hsent, -⟩ := hright hr
          rw [hsegs] at hpart hwhole
          have hfull : n = (chunkFrame (s.state.output.contents ++ buf) true).length := by
            by_contra hne'
            refine hpart (by omega) ?_
            rw [hsent, List.length_append, List.length_append, hsegs]
          refine .inr (.inr ⟨hcut.mp ?_, hfull⟩)
          have heq := hsent.symm.trans (hwhole hfull).1
          rw [hframe] at heq
          have hbody := List.append_cancel_left heq
          unfold segments at hbody
          simp only [List.append_assoc] at hbody
          rw [← List.append_assoc] at hbody
          exact (List.append_inj_left hbody hline.symm).symm
      · rintro (hnil | ⟨-, hshort⟩ | ⟨hsmall, hfull⟩)
        · exact absurd hnil hne
        · obtain ⟨-, hr⟩ | ⟨hgo, -⟩ := hout
          · exact ⟨r, s', hrun, fun hr0 => by omega⟩
          · omega
        · refine ⟨r, s', hrun, fun hr0 => ?_⟩
          obtain ⟨-, hr⟩ | ⟨hgo, -, -, hwhole⟩ := hout
          · omega
          · rw [hsegs] at hwhole
            rw [hframe, ← hcut.mpr hsmall]
            exact hwhole hfull
  · have hnil : s.state.output.contents ++ buf = [] := by
      apply List.eq_nil_of_length_eq_zero
      rw [hdata]
      omega
    refine iff_of_true ⟨0, s, ?_, fun _ => ⟨?_, by omega⟩⟩ (.inl hnil)
    · rw [@minuteHttpdChunk_eq s buf (by omega)]
      obtain ⟨r, s', hm, hr, hs'⟩ := ((@chunkLoop_zero (fun _ => False) (fun r s' => r = 0 ∧ s' = s) s buf
        (by omega) (s.state.output.used + buf.length + 1) true).mpr ⟨rfl, rfl⟩).exists_ok
      rw [hm, hr, hs']
    · rw [hnil, chunkFrame, if_pos rfl, List.append_nil]

/-- **A block without a size line is always sent whole, and a chunk exactly if** its first write accepts all
of it or less than its size line. -/
theorem sendsFrame_iff {s : HttpdResponse} {buf : List Byte} {chunked : Bool} (h : s.state.Writable)
    (hlen : s.state.output.used + buf.length < 2 ^ 31) :
    SendsFrame s buf chunked ↔ (chunked = true → WholeChunk s buf) := by
  cases chunked with
  | false => exact iff_of_true (sendsFrame_plain h hlen) fun hf => by cases hf
  | true =>
    rw [sendsFrame_chunk_iff h hlen]
    exact ⟨fun hw _ => hw, fun hw => hw rfl⟩

/-- A response whose ring of 16 bytes holds `held`, and whose descriptor cuts the next writes. -/
def outgoing (held : String) (cuts : List (Option Nat)) : HttpdResponse :=
  ⟨⟨minuteIobufInit 16 fun _ => 0, .holding 16 (bytes held), minuteTextintInit 16 fun _ => 0, ⟨[], []⟩,
    ⟨true, cuts, []⟩⟩, .zero, 0, 0, ⟨[], [], false⟩⟩

theorem outgoing_writable {cuts : List (Option Nat)} (hcuts : ∀ cut ∈ cuts, ∃ k, cut = some (k + 1)) :
    (outgoing "ab" cuts).state.Writable :=
  ⟨Iobuf.valid_of 4 (by decide) rfl (show (Iobuf.holding 16 (bytes "ab")).used ≤ 16 by decide),
    show (0 : Uint).toNat ≤ (Iobuf.holding 16 (bytes "ab")).write.toNat by decide, rfl, hcuts⟩

/-- Two bytes from the ring and two more, in three writes. -/
theorem sendsFrame_in_pieces : SendsFrame (outgoing "ab" [some 1, some 2]) (bytes "cd") false :=
  (sendsFrame_iff (outgoing_writable (by simp)) (by decide)).mpr (by decide)

/-- A chunk of four bytes, of which the first write accepts the size line and two: no more is sent. -/
theorem chunk_cut_short :
    (outgoing "ab" [some 5]).state.Writable ∧ ¬SendsFrame (outgoing "ab" [some 5]) (bytes "cd") true := by
  refine ⟨outgoing_writable (by simp), ?_⟩
  rintro ⟨r, s', hm, hright⟩
  have hrun : accepts (fun x => decide (x.1 = 5) && decide (x.2.state.outfd.sent = bytes "4\r\nab"))
      (minuteHttpdChunk (bytes "cd") true (outgoing "ab" [some 5])) = true := by
    decide +kernel
  obtain ⟨x, hx, hp⟩ := accepts_iff.mp hrun
  rw [hm] at hx
  cases hx
  simp only [Bool.and_eq_true, decide_eq_true_iff] at hp
  obtain ⟨rfl, hsent⟩ := hp
  have hframe := (hright (by decide)).1
  rw [hsent] at hframe
  exact absurd hframe (by decide +kernel)

end MinuteHttp
