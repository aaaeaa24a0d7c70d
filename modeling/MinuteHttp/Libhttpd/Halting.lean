import MinuteHttp.Libhttpd.Body
import MinuteHttp.Libhttpd.ChunkLine
import MinuteHttp.Libhttp.Resume

/-!
# Whether the loops on the body end

A turn of `minute_httpd_in_read` takes something from the ring, or gets something into it, or returns;
but where a chunk's header fills the ring, the scan goes through all of it, the refill fails, and the loop
does not look at that. `Fills` is that case, and otherwise both loops end (`loops_end_iff`). Where the header line
fits with what precedes it, the call takes the size that the line says (`minuteHttpdInRead_line`).
-/

namespace MinuteHttp

open Effect Feed

/-! ## Headers that fill the ring -/

/-- On the bytes `u` to come, with `p` as `in.pending`, the header of a chunk fills a ring of `size` bytes:
the next one, or one behind other chunks, if `skips` says that their data is skipped. -/
inductive Fills (size : Nat) (skips : Bool) : Int → List Byte → Prop where
  | header {p : Int} {u : List Byte} {x : ChunkState × Uint} (hp : p = 0 ∨ p = pendingInit)
      (hlen : size ≤ u.length) (hfeed : feed chunkTurn (sizeState p) (chars (u.take size)) = .next x) :
      Fills size skips p u
  | line {p : Int} {line rest : List Byte} {val : Uint} (hp : p = 0 ∨ p = pendingInit)
      (hfeed : feed chunkTurn (sizeState p) (chars line) = .halt (some val, [])) (hval : val ≠ 0)
      (h : Fills size skips val.toInt rest) : Fills size skips p (line ++ rest)
  | data {p : Int} {c : Byte} {u : List Byte} (hskips : skips = true) (hp : 0 ≤ p)
      (h : Fills size skips p u) : Fills size skips (p + 1) (c :: u)

theorem Fills.le_length {size : Nat} {skips : Bool} {p : Int} {u : List Byte} (h : Fills size skips p u) :
    size ≤ u.length := by
  induction h with
  | header _ hlen => exact hlen
  | line _ _ _ _ ih =>
    rw [List.length_append]
    omega
  | data _ _ _ ih => exact Nat.le_succ_of_le ih

theorem feed_chars_halt {x : ChunkState × Uint} {w : List Byte} {r : Option Uint} {q : List Int}
    (h : feed chunkTurn x (chars w) = .halt (r, q)) :
    ∃ line rest, w = line ++ rest ∧ q = chars rest ∧ feed chunkTurn x (chars line) = .halt (r, []) := by
  obtain ⟨p, c, y, hsplit, hp, hturn⟩ := feed_halt h
  rw [show p ++ c :: q = (p ++ [c]) ++ q by simp] at hsplit
  obtain ⟨line, rest, rfl, hline, hrest⟩ := List.map_eq_append_iff.mp hsplit
  refine ⟨line, rest, rfl, hrest.symm, ?_⟩
  rw [show chars line = p ++ [c] from hline, feed_append_next _ hp, feed_cons_halt _ hturn]

section

variable {size : Nat} {skips : Bool} {p : Int} {u line rest : List Byte}

theorem feed_line_unique {x : ChunkState × Uint} {line' rest' : List Byte} {r r' : Option Uint}
    (h : feed chunkTurn x (chars line) = .halt (r, []))
    (h' : feed chunkTurn x (chars line') = .halt (r', [])) (heq : line ++ rest = line' ++ rest') :
    r = r' ∧ rest = rest' := by
  have happ := feed_append_halt (chars rest) h
  have happ' := feed_append_halt (chars rest') h'
  rw [← chars_append, heq, chars_append, happ'] at happ
  simp only [List.nil_append, Step.halt.injEq, Prod.mk.injEq] at happ
  refine ⟨happ.1.symm, (List.append_inj' heq ?_).2⟩
  have hlen := congrArg List.length happ.2
  unfold chars at hlen
  rw [List.length_map, List.length_map] at hlen
  exact hlen.symm

section

variable {x : ChunkState × Uint} {held stream : List Byte}

theorem feed_line_part (hall : ∀ rest, ∃ r, feed chunkTurn x (chars (line ++ 10 :: rest)) = .halt r)
    (hunread : held ++ stream = line ++ 10 :: rest) {y : ChunkState × Uint}
    (hfeed : feed chunkTurn x (chars held) = .next y) : held.length ≤ line.length := by
  by_contra hwhole
  obtain ⟨held', rfl⟩ : line ++ [10] <+: held := by
    refine List.prefix_of_prefix_length_le ⟨rest, (List.append_cons _ _ _).symm⟩ ⟨_, hunread⟩ ?_
    rw [List.length_append, List.length_singleton]
    omega
  obtain ⟨r, hr⟩ := hall held'
  rw [← List.append_cons, hr] at hfeed
  cases hfeed

/-- Where it halts with a size, the line is there. -/
theorem feed_line_held {val : Uint} (hall : feed chunkTurn x (chars (line ++ 10 :: rest)) = .halt (some val, chars rest))
    (hunread : held ++ stream = line ++ 10 :: rest) {r : Option Uint} {q : List Int}
    (hfeed : feed chunkTurn x (chars held) = .halt (r, q)) :
    ∃ held', r = some val ∧ q = chars held' ∧ held = line ++ [10] ++ held' := by
  obtain ⟨line', held', hheld, rfl, hline'⟩ := feed_chars_halt hfeed
  have happ := feed_append_halt (chars (held' ++ stream)) hline'
  rw [← chars_append, ← List.append_assoc, ← hheld, hunread, hall] at happ
  simp only [List.nil_append, Step.halt.injEq, Prod.mk.injEq] at happ
  obtain ⟨rfl, hbehind⟩ := happ
  have hbehind := chars_inj hbehind
  refine ⟨held', rfl, rfl, ?_⟩
  rw [hbehind, List.append_cons, ← List.append_assoc] at hunread
  exact List.append_cancel_right hunread

end

theorem fills_of_lt (hp : p < pendingInit) : ¬Fills size skips p u := by
  have hinit : pendingInit = -1 := rfl
  intro h
  cases h with
  | header hp' => omega
  | line hp' => omega
  | data => omega

theorem fills_nil (hsize : 0 < size) : ¬Fills size skips p [] := by
  generalize hu : ([] : List Byte) = u
  intro h
  cases h with
  | header hp hlen =>
    rw [← hu] at hlen
    exact absurd hlen (Nat.not_le_of_lt hsize)
  | line hp hfeed =>
    rw [(List.append_eq_nil_iff.mp hu.symm).1] at hfeed
    cases hfeed
  | data => cases hu

theorem fills_pos (hp : 0 < p) : ¬Fills size false p u := by
  have hinit : pendingInit = -1 := rfl
  intro h
  cases h with
  | header hp' => omega
  | line hp' => omega
  | data hskips => cases hskips

theorem fills_cons_iff (hp : 0 < p) (c : Byte) : Fills size true p (c :: u) ↔ Fills size true (p - 1) u := by
  have hinit : pendingInit = -1 := rfl
  constructor
  · generalize hw : c :: u = w
    intro h
    cases h with
    | header hp' => omega
    | line hp' => omega
    | data hskips hp' h =>
      cases hw
      rwa [Int.add_sub_cancel]
  · intro h
    have := Fills.data (c := c) rfl (by omega) h
    rwa [Int.sub_add_cancel] at this

theorem fills_data_iff {k : Nat} (hp : (k : Int) ≤ p) (hk : k ≤ u.length) :
    Fills size true p u ↔ Fills size true (p - k) (u.drop k) := by
  induction k generalizing p u with
  | zero => simp
  | succ k ih =>
    cases u with
    | nil => exact absurd hk (Nat.not_succ_le_zero _)
    | cons c u =>
      rw [fills_cons_iff (by omega), ih (by omega) (Nat.le_of_succ_le_succ hk), List.drop_succ_cons]
      rw [show p - (k + 1 : Nat) = p - 1 - k by omega]

theorem fills_line_iff (hp : p = 0 ∨ p = pendingInit) {r : Option Uint}
    (hfeed : feed chunkTurn (sizeState p) (chars line) = .halt (r, [])) (hle : line.length ≤ size) :
    Fills size skips p (line ++ rest) ↔ ∃ val, r = some val ∧ val ≠ 0 ∧ Fills size skips val.toInt rest := by
  have hinit : pendingInit = -1 := rfl
  constructor
  · generalize hu : line ++ rest = u
    intro h
    cases h with
    | header _ hlen hgoes =>
      rw [← hu, List.take_append, List.take_of_length_le hle, chars_append, feed_append_halt _ hfeed] at hgoes
      cases hgoes
    | line _ hfeed' hval h =>
      obtain ⟨rfl, rfl⟩ := feed_line_unique hfeed hfeed' hu
      exact ⟨_, rfl, hval, h⟩
    | data _ hp' => omega
  · rintro ⟨val, rfl, hval, h⟩
    exact .line hp hfeed hval h

theorem fills_of_short (hp : p = 0 ∨ p = pendingInit) {x : ChunkState × Uint}
    (hfeed : feed chunkTurn (sizeState p) (chars u) = .next x) (hlt : u.length < size) : ¬Fills size skips p u := by
  have hinit : pendingInit = -1 := rfl
  intro h
  cases h with
  | header _ hlen => omega
  | line _ hfeed' =>
    rw [chars_append, feed_append_halt _ hfeed'] at hfeed
    cases hfeed
  | data _ hp' => omega

end

/-! ## How far a call gets -/

/-- On the bytes `u` to come, with `p` as `in.pending`, a call gets to position `n`: to the header of a chunk, or to
data, if `skips` says that it is skipped. -/
inductive GetsTo (chunked skips : Bool) : Int → List Byte → Nat → Prop where
  | here {p : Int} {u : List Byte} : GetsTo chunked skips p u 0
  | line {p : Int} {line rest : List Byte} {val : Uint} {n : Nat} (hchunked : chunked = true)
      (hp : p = 0 ∨ p = pendingInit) (hfeed : feed chunkTurn (sizeState p) (chars line) = .halt (some val, []))
      (hval : val ≠ 0) (h : GetsTo chunked skips val.toInt rest n) :
      GetsTo chunked skips p (line ++ rest) (line.length + n)
  | data {p : Int} {c : Byte} {u : List Byte} {n : Nat} (hskips : skips = true) (hp : 0 ≤ p)
      (h : GetsTo chunked skips p u n) : GetsTo chunked skips (p + 1) (c :: u) (n + 1)

theorem getsTo_data {chunked : Bool} {p : Int} {u : List Byte} {k n : Nat} (hp : (k : Int) ≤ p) (hk : k ≤ u.length)
    (h : GetsTo chunked true (p - k) (u.drop k) n) : GetsTo chunked true p u (k + n) := by
  induction k generalizing p u with
  | zero =>
    rw [Nat.zero_add]
    simpa using h
  | succ k ih =>
    cases u with
    | nil => exact absurd hk (Nat.not_succ_le_zero _)
    | cons c u =>
      have hrest : GetsTo chunked true (p - 1) u (k + n) := by
        refine ih (by omega) (Nat.le_of_succ_le_succ hk) ?_
        rwa [show p - 1 - k = p - (k + 1 : Nat) by omega]
      have := GetsTo.data (c := c) rfl (by omega) hrest
      rwa [Int.sub_add_cancel, Nat.add_right_comm] at this

/-! ## Refills -/

/-- A bound on the turns that get something into the ring or take something out of it. -/
def HttpdState.moves (st : HttpdState) : Nat := 2 * st.infd.stream.length + st.input.used

theorem eof_or (io : Iobuf) : { io with flags := io.flags ||| iobufEof : Iobuf }.eof = true := by
  unfold Iobuf.eof iobufEof
  rw [decide_eq_true_iff]
  intro h
  have hbit := congrArg (fun x : Uint => x.getLsbD 0) h
  simp at hbit

theorem readfd_eq (s : HttpdResponse) :
    readfd s = .ok ((minuteIobufReadfd s.state.infd s.state.input).1,
      { s with state := s.state.refilled (minuteIobufReadfd s.state.infd s.state.input) }) := rfl

/-- **A refill** finds the ring full, or the end of the file, or gets something into the ring. -/
theorem readfd_cases {s : HttpdResponse} (h : s.state.Sound) :
    ∃ r s', readfd s = .ok (r, s') ∧ s' = { s with state := s'.state } ∧ Consumed s.state 0 s'.state ∧
      (s.state.input.used = s.state.input.size ∧ r = -1 ∧ s' = s ∨
       s.state.input.used < s.state.input.size ∧ s.state.infd.stream = [] ∧ r = 0 ∧ s'.state.input.eof = true ∨
       s.state.input.used < s.state.input.size ∧ 0 < r ∧ s'.state.moves < s.state.moves ∧
         s'.state.infd.stream.length < s.state.infd.stream.length) := by
  have hr := minuteIobufReadfd_refilled s.state.infd h.input
  have hfull (hu : s.state.input.used = s.state.input.size) :
      minuteIobufReadfd s.state.infd s.state.input = (-1, s.state.infd, s.state.input) := by
    rw [minuteIobufReadfd_eq, if_pos (h.input.full_iff.mpr hu)]
  rw [readfd_eq]
  generalize minuteIobufReadfd s.state.infd s.state.input = x at hr hfull
  refine ⟨x.1, _, rfl, rfl, (refilled_consumed h hr).1, ?_⟩
  by_cases hu : s.state.input.used = s.state.input.size
  · rw [hfull hu]
    exact .inl ⟨hu, rfl, rfl⟩
  · have hlt := Nat.lt_of_le_of_ne h.input.used_le hu
    right
    cases hr with
    | full hu' => exact absurd hu' hu
    | error hc =>
      have hsteady := h.steady
      unfold Infd.Steady at hsteady
      rw [hc] at hsteady
      exact absurd List.mem_cons_self hsteady
    | eof hs hc => exact .inl ⟨hlt, hs, rfl, eof_or _⟩
    | @more bs rest cuts hbs hs hfit hc =>
      have hpos := List.length_pos_iff.mpr hbs
      have hlen : s.state.infd.stream.length = bs.length + rest.length := by
        rw [hs, List.length_append]
      have hused := Iobuf.used_append h.input.size hfit
      refine .inr ⟨hlt, Int.natCast_pos.mpr hpos, ?_, ?_⟩
      · show 2 * rest.length + (s.state.input.append bs).used < 2 * s.state.infd.stream.length + s.state.input.used
        omega
      · show rest.length < s.state.infd.stream.length
        omega

/-! ## The trailer section -/

theorem httpRead_ends {s : HttpdResponse} {rqs : MinuteHttpRqs} (hr : rqs.Routed) :
    Meets (fun e => e = .fault) (fun x s' => s'.state.infd = s.state.infd ∧ (x.1 ≠ 0 → x.2.Routed))
      (httpRead rqs) s := by
  simp only [httpRead, meets_bind, meets_get]
  cases hread : minuteHttpRead s.rq rqs s.state.input s.state.text with
  | fault => exact (meets_throw _).mpr rfl
  | spin => exact absurd hread (minuteHttpRead_ne_spin hr)
  | code n rq rqs' io text =>
    rw [meets_set_pure]
    exact ⟨rfl, fun _ => minuteHttpRead_routed hr hread⟩

theorem refillRequest_ends {s : HttpdResponse} (h : s.state.Sound) :
    Meets (fun _ => False)
      (fun ended s' => ended = none → s'.state.infd.stream.length < s.state.infd.stream.length)
      refillRequest s := by
  obtain ⟨r, s', hs', -, -, hcases⟩ := readfd_cases h
  rw [refillRequest]
  refine (meets_congr (bind_of_ok hs')).mpr ?_
  rw [meets_bind, meets_get]
  by_cases hneg : r < 0
  · rw [if_pos hneg, meets_pure]
    intro h
    cases h
  · rw [if_neg hneg]
    obtain ⟨-, rfl, -⟩ | ⟨-, -, rfl, heof⟩ | ⟨-, hpos, -, hlt⟩ := hcases
    · exact absurd (by decide) hneg
    · rw [if_pos ⟨rfl, heof⟩, meets_pure]
      intro h
      cases h
    · rw [if_neg (fun h => by omega), meets_pure]
      exact fun _ => hlt

theorem readRequestLoop_ends (turns : Nat) (prefilled : Bool) {rqs : MinuteHttpRqs} {s : HttpdResponse}
    (h : s.state.Sound) (hm : s.state.input.Within rqs.m) (hr : rqs.Routed)
    (hturns : s.state.infd.stream.length + (if prefilled then 2 else 1) ≤ turns) :
    Meets (fun e => e = .fault) (fun _ _ => True) (readRequestLoop turns prefilled rqs) s := by
  induction turns generalizing prefilled rqs s with
  | zero =>
    split at hturns
    · omega
    · omega
  | succ turns ih =>
    have hrefill : Meets (fun _ => False) (fun ended s' =>
        ended = none → s'.state.infd.stream.length + 1 ≤ turns) (refillUnless prefilled) s := by
      unfold refillUnless
      cases prefilled with
      | true => exact (meets_pure _).mpr fun _ => Nat.le_of_succ_le_succ hturns
      | false =>
        refine (refillRequest_ends h).imp fun ended s' hs' hnone => ?_
        have := hs' hnone
        rw [if_neg (by decide)] at hturns
        omega
    rw [readRequestLoop]
    refine Meets.bind ((hrefill.and (refillUnless_consumed h prefilled)).imp_error fun e he => he.elim)
      fun ended s₁ h₁ => ?_
    obtain ⟨hlt, hc, hused⟩ := h₁
    cases ended with
    | some status => exact (meets_pure _).mpr trivial
    | none =>
      refine Meets.bind ((httpRead_ends hr).and (httpRead_consumed hc.sound (hc.within hused hm)))
        fun x s₂ h₂ => ?_
      obtain ⟨status, rqs'⟩ := x
      obtain ⟨⟨hinfd, hrouted⟩, hcases⟩ := h₂
      dsimp only at hrouted hcases ⊢
      by_cases hagain : status = eagain
      · rw [if_pos hagain]
        have hne : status ≠ 0 := by
          rw [hagain]
          decide
        obtain ⟨n, hn, hw⟩ | ⟨hzero, -⟩ := hcases
        · refine ih false hn.sound hw (hrouted hne) ?_
          rw [hinfd]
          exact hlt rfl
        · exact absurd hzero hne
      · rw [if_neg hagain]
        exact (meets_pure _).mpr trivial

theorem minuteHttpdReadRequest_ends {rqs : MinuteHttpRqs} {s : HttpdResponse} (h : s.state.Sound)
    (hm : s.state.input.Within rqs.m) (hr : rqs.Routed) :
    Meets (fun e => e = .fault) (fun _ _ => True) (minuteHttpdReadRequest rqs) s := by
  rw [minuteHttpdReadRequest, meets_bind, meets_get]
  refine readRequestLoop_ends _ _ h hm hr ?_
  split
  · exact Nat.le_refl _
  · exact Nat.le_succ _

theorem readTrailers_ends {s : HttpdResponse} (h : s.state.Sound) :
    Meets (fun e => e = .fault) (fun x _ => x.1 ≤ 0) readTrailers s := by
  rw [readTrailers, setPending, meets_bind, meets_modify, meets_bind, meets_get]
  refine Meets.bind (minuteHttpdReadRequest_ends h (Iobuf.within_read _) rfl) fun status s₁ _ => ?_
  split
  · rw [breakBody, meets_bind, meets_modify, meets_pure]
    decide
  · exact (meets_pure _).mpr (Int.le_refl 0)

/-! ## The loops -/

/-- No index of the ring will wrap around. -/
structure HttpdResponse.Fits (s : HttpdResponse) : Prop where
  sound : s.state.Sound
  pending : s.pending < 2 ^ 31
  noWrap : s.state.input.read.toNat + s.state.unread.length + s.state.input.size ≤ 2 ^ 32

def HttpdResponse.GetsTo (s : HttpdResponse) (skips : Bool) (n : Nat) : Prop :=
  MinuteHttp.GetsTo (hasFlag s.rq.flags httpTransferChunked) skips s.pending s.state.unread n

/-- No index of the ring wraps around before the end of what the call gets to: where bytes are still to come, the ring
does not reach beyond `2 ^ 32`. -/
structure HttpdResponse.Unwrapped (s : HttpdResponse) (skips : Bool) : Prop where
  sound : s.state.Sound
  pending : s.pending < 2 ^ 31
  noWrap : ∀ n, s.GetsTo skips n → n < s.state.unread.length →
    s.state.input.read.toNat + n + s.state.input.size < 2 ^ 32

/-- A header will fill the ring. -/
def HttpdResponse.Fills (s : HttpdResponse) (skips : Bool) : Prop :=
  hasFlag s.rq.flags httpTransferChunked = true ∧
    MinuteHttp.Fills s.state.input.size skips s.pending s.state.unread

section

variable {s s' : HttpdResponse} {n : Nat}

theorem HttpdResponse.Fits.consumed (h : s.Fits) (hc : Consumed s.state n s'.state)
    (hpending : s'.pending < 2 ^ 31) : s'.Fits := by
  refine ⟨hc.sound, hpending, ?_⟩
  have hwrap := h.noWrap
  have hle := hc.le
  have hsize : s'.state.input.size = s.state.input.size := by
    unfold Iobuf.size
    rw [hc.mask]
  have hpos := h.sound.input.size.pos
  rw [hc.read, hc.length_unread, hsize, BitVec.toNat_add, BitVec.toNat_ofNat]
  omega

theorem Consumed.size_eq {st st' : HttpdState} (hc : Consumed st n st') : st'.input.size = st.input.size := by
  unfold Iobuf.size
  rw [hc.mask]

theorem HttpdResponse.Fits.unwrapped (h : s.Fits) (skips : Bool) : s.Unwrapped skips := by
  have hwrap := h.noWrap
  exact ⟨h.sound, h.pending, fun n _ hlt => by omega⟩

section

variable {skips : Bool}

theorem HttpdResponse.Unwrapped.consumed (h : s.Unwrapped skips) (hc : Consumed s.state n s'.state)
    (hpending : s'.pending < 2 ^ 31) (hgets : ∀ m, s'.GetsTo skips m → s.GetsTo skips (n + m)) :
    s'.Unwrapped skips := by
  refine ⟨hc.sound, hpending, fun m hm hlt => ?_⟩
  have hwrap := h.noWrap _ (hgets m hm)
  rw [hc.length_unread] at hlt
  rw [hc.read, hc.size_eq, BitVec.toNat_add, BitVec.toNat_ofNat]
  omega

theorem HttpdResponse.Unwrapped.lt (h : s.Unwrapped skips) (hused : 0 < s.state.input.used) :
    s.state.input.read.toNat + s.state.input.size < 2 ^ 32 := by
  have hlen := s.state.length_unread
  exact h.noWrap 0 .here (by omega)

theorem HttpdResponse.Unwrapped.write_eq (h : s.Unwrapped skips) :
    s.state.input.write.toNat = s.state.input.read.toNat + s.state.input.used := by
  by_cases hused : s.state.input.used = 0
  · rw [hused, s.state.input.write_eq_read_iff.mpr hused, Nat.add_zero]
  · have hlt := h.lt (Nat.pos_of_ne_zero hused)
    have hle := h.sound.input.used_le
    rw [s.state.input.write_eq, BitVec.toNat_add]
    show (_ + s.state.input.used) % _ = _
    omega

theorem HttpdResponse.Unwrapped.read_lt_iff (h : s.Unwrapped skips) :
    s.state.input.read < s.state.input.write ↔ 0 < s.state.input.used := by
  have hwrite := h.write_eq
  rw [BitVec.lt_def]
  omega

theorem HttpdResponse.Unwrapped.read_le (h : s.Unwrapped skips) : s.state.input.read ≤ s.state.input.write := by
  have hwrite := h.write_eq
  rw [BitVec.le_def]
  omega

theorem HttpdResponse.Fits.write_eq (h : s.Fits) :
    s.state.input.write.toNat = s.state.input.read.toNat + s.state.input.used :=
  (h.unwrapped false).write_eq

theorem HttpdResponse.Fits.read_lt_iff (h : s.Fits) :
    s.state.input.read < s.state.input.write ↔ 0 < s.state.input.used :=
  (h.unwrapped false).read_lt_iff

theorem HttpdResponse.Fits.read_le (h : s.Fits) : s.state.input.read ≤ s.state.input.write :=
  (h.unwrapped false).read_le

theorem getsTo_refill (hc : Consumed s.state 0 s'.state) (hs' : s' = { s with state := s'.state }) {m : Nat} :
    s'.GetsTo skips m → s.GetsTo skips (0 + m) := by
  unfold HttpdResponse.GetsTo
  rw [hc.unread, List.drop_zero, hs', Nat.zero_add]
  exact id

end

theorem fills_refill (hc : Consumed s.state 0 s'.state) (hs' : s' = { s with state := s'.state }) (skips : Bool) :
    s'.Fills skips ↔ s.Fills skips := by
  unfold HttpdResponse.Fills
  rw [hc.size_eq, hc.unread, List.drop_zero, hs']

variable {skips : Bool} {turns : Nat}

/-- How a run of the loop in `turns` turns may stop. -/
def Halts (skips : Bool) (turns : Nat) (s : HttpdResponse) : Stop → Prop
  | .spin => turns ≤ s.state.moves ∨ s.Fills skips
  | .fault => ¬s.Fills skips

/-- How it may return: with data skipped, or for good. -/
def Returns (skips : Bool) (s : HttpdResponse) (x : Int × List Byte) (s' : HttpdResponse) : Prop :=
  if skips = true ∧ 0 < x.1 then s'.Unwrapped skips ∧ s'.state.moves < s.state.moves ∧ (s'.Fills skips ↔ s.Fills skips)
  else ¬s.Fills skips

theorem returns_zero {x : Int × List Byte} (hx : x.1 ≤ 0) (h : ¬s.Fills skips) : Returns skips s x s' := by
  unfold Returns
  rw [if_neg (fun hc => by omega)]
  exact h

/-- What is shown of the rest of a run is shown of the run. -/
theorem halts_of_next {m : Httpd (Int × List Byte)} (h : Meets (Halts skips turns s') (Returns skips s') m s')
    (hfills : s'.Fills skips ↔ s.Fills skips)
    (hmoves : s'.state.moves < s.state.moves ∨ s.Fills skips ∧ s'.state.moves ≤ s.state.moves) :
    Meets (Halts skips (turns + 1) s) (Returns skips s) m s' := by
  refine (h.imp_error fun e he => ?_).imp fun x s₂ hx => ?_
  · cases e with
    | fault => exact fun hf => he (hfills.mpr hf)
    | spin =>
      obtain hle | hf := he
      · obtain hlt | ⟨hf, -⟩ := hmoves
        · exact .inl (by omega)
        · exact .inr hf
      · exact .inr (hfills.mp hf)
  · unfold Returns at hx ⊢
    split at hx
    · rename_i hpos
      rw [if_pos hpos]
      obtain ⟨hfits, hlt, hiff⟩ := hx
      exact ⟨hfits, by omega, hiff.trans hfills⟩
    · rename_i hpos
      rw [if_neg hpos]
      exact fun hf => hx (hfills.mpr hf)

/-- What is shown of `turns` turns of the loop. With `skips` it is called as `minute_httpd_in_discard` does. -/
def LoopHalts (skips copy : Bool) (count : Uint) (turns : Nat) : Prop :=
  ∀ (s : HttpdResponse) (entry : Bool), s.Unwrapped skips → pendingInit ≤ s.pending ∨ entry = true →
    (skips = true → copy = false ∧ count.toNat = s.state.input.size) →
    Meets (Halts skips turns s) (Returns skips s) (inReadLoop copy count turns entry) s

theorem refill_halts {copy : Bool} {count : Uint}
    (ih : LoopHalts skips copy count turns) (h : s.Unwrapped skips) (hpending : pendingInit ≤ s.pending)
    (hskips : skips = true → copy = false ∧ count.toNat = s.state.input.size)
    (hfull : s.state.input.used = s.state.input.size → s.Fills skips)
    (heof : s.state.input.used < s.state.input.size → s.state.infd.stream = [] → ¬s.Fills skips) :
    Meets (Halts skips (turns + 1) s) (Returns skips s) (sizeTurn copy count turns .more) s := by
  obtain ⟨r, s₁, hs₁, heq, hc, hcases⟩ := readfd_cases h.sound
  have hpending' : pendingInit ≤ s₁.pending := by
    rw [heq]
    exact hpending
  have hint : s₁.pending < 2 ^ 31 := by
    rw [heq]
    exact h.pending
  have hnext := ih s₁ false (h.consumed hc hint fun _ => getsTo_refill hc heq) (.inl hpending')
      (by rw [hc.size_eq]; exact hskips)
  have hfills := fills_refill hc heq skips
  refine (meets_congr (bind_of_ok hs₁)).mpr ?_
  rw [meets_bind, meets_get]
  obtain ⟨hused, rfl, hself⟩ | ⟨hused, hstream, rfl, hnoted⟩ | ⟨-, hpos, hlt, -⟩ := hcases
  · rw [if_neg (fun h0 => absurd h0.1 (by decide))]
    exact halts_of_next hnext hfills (.inr ⟨hfull hused, Nat.le_of_eq (by rw [hself])⟩)
  · rw [if_pos ⟨rfl, hnoted⟩, setPending, meets_bind, meets_modify, meets_pure]
    exact returns_zero (Int.le_refl 0) (heof hused hstream)
  · rw [if_neg (fun h0 => by omega)]
    exact halts_of_next hnext hfills (.inl hlt)

theorem readPending_halts {copy : Bool} {count : Uint} (h : s.Unwrapped skips) (hpos : 0 < s.pending)
    (hused : 0 < s.state.input.used)
    (hskips : skips = true → copy = false ∧ count.toNat = s.state.input.size) :
    Meets (Halts skips turns s) (Returns skips s) (readPending copy count) s := by
  have hlen := s.state.length_unread
  have hwrap := h.lt hused
  have hpending := h.pending
  by_cases hb : skips = true
  · obtain ⟨rfl, hcount⟩ := hskips hb
    obtain ⟨l, hl⟩ : ∃ l, l = min s.state.input.used (min s.pending.toNat count.toNat) := ⟨_, rfl⟩
    have hsize := h.sound.input.size.pos
    have hc : Consumed s.state l { s.state with input := s.state.input.take l } :=
      consumed_take h.sound (by omega) rfl rfl
    have hused' := @Iobuf.used_take s.state.input l (by omega)
    rw [meets_ok (readPending_skip hpos hpending h.write_eq (by omega) hl)]
    unfold Returns
    rw [if_pos ⟨hb, show (0 : Int) < l by omega⟩]
    refine ⟨h.consumed hc (show s.pending - l < 2 ^ 31 by omega) fun m hm => ?_, ?_, ?_⟩
    · unfold HttpdResponse.GetsTo at hm ⊢
      rw [hb, hc.unread] at hm
      rw [hb]
      exact getsTo_data (by omega) (by omega) hm
    · show 2 * s.state.infd.stream.length + (s.state.input.take l).used < _ + s.state.input.used
      omega
    · unfold HttpdResponse.Fills
      rw [hb]
      refine and_congr_right fun _ => ?_
      rw [fills_data_iff (k := l) (p := s.pending) (by omega) (by omega), ← hc.unread]
      rfl
  · rw [Bool.not_eq_true] at hb
    have hnot : ¬s.Fills skips := by
      rw [hb]
      exact fun hf => fills_pos hpos hf.2
    have hends : Meets (fun e => e = .fault) (fun _ _ => True) (readPending copy count) s := by
      rw [readPending, meets_bind, meets_get]
      dsimp only
      split
      · rw [meets_bind, meets_orStop]
        refine ⟨fun _ => rfl, fun x _ => ?_⟩
        rw [meets_set_pure]
        trivial
      · rw [meets_set_pure]
        trivial
    refine (hends.imp_error fun e he => ?_).imp fun x s' _ => ?_
    · rw [he]
      exact hnot
    · unfold Returns
      rw [if_neg (fun hc => by rw [hb] at hc; exact absurd hc.1 (by decide))]
      exact hnot

theorem sizeTurn_halts {copy : Bool} {count : Uint} (ih : LoopHalts skips copy count turns) (h : s.Unwrapped skips)
    (hchunked : hasFlag s.rq.flags httpTransferChunked = true) (hpending : s.pending = 0 ∨ s.pending = pendingInit)
    (hskips : skips = true → copy = false ∧ count.toNat = s.state.input.size) :
    Meets (Halts skips (turns + 1) s) (Returns skips s) (sizeTurn copy count turns (sizeScan s)) s := by
  have hinit : pendingInit = -1 := rfl
  have husedle := h.sound.input.used_le
  rw [sizeScan_eq h.sound.input h.read_le]
  cases hfeed : feed chunkTurn (sizeState s.pending) (chars s.state.input.contents) with
  | next x =>
    refine refill_halts ih h (by omega) hskips (fun hfull => ⟨hchunked, ?_⟩) fun hroom hstream hf => ?_
    · refine .header hpending ?_ (x := x) ?_
      · rw [HttpdState.length_unread]
        omega
      · rw [HttpdState.unread, List.take_left' (by rw [Iobuf.length_contents, hfull])]
        exact hfeed
    · refine fills_of_short hpending ?_ ?_ hf.2 (x := x)
      · rw [HttpdState.unread, hstream, List.append_nil]
        exact hfeed
      · rw [HttpdState.length_unread, hstream]
        exact hroom
  | halt y =>
    obtain ⟨r, q⟩ := y
    obtain ⟨line, rest, hheld, rfl, hline⟩ := feed_chars_halt hfeed
    have hlen : s.state.input.used = line.length + rest.length := by
      rw [← Iobuf.length_contents, hheld, List.length_append]
    have hunread : s.state.unread = line ++ (rest ++ s.state.infd.stream) := by
      rw [HttpdState.unread, hheld, List.append_assoc]
    have hiff : s.Fills skips ↔ ∃ val, r = some val ∧ val ≠ 0 ∧
        Fills s.state.input.size skips val.toInt (rest ++ s.state.infd.stream) := by
      unfold HttpdResponse.Fills
      rw [and_iff_right hchunked, hunread]
      exact fills_line_iff hpending hline (by omega)
    cases r with
    | none =>
      have hnot : ¬s.Fills skips := by
        rw [hiff]
        rintro ⟨val, hval, -⟩
        cases hval
      show Meets _ _ (setPending pendingError >>= fun _ => breakBody) s
      rw [setPending, meets_bind, meets_modify, breakBody, meets_bind, meets_modify, meets_pure]
      exact returns_zero (by decide) hnot
    | some val =>
      have hc : Consumed s.state line.length { s.state with input := s.state.input.take line.length } :=
        consumed_take h.sound (by omega) rfl rfl
      have htaken : s.state.input.used - (chars rest).length = line.length := by
        unfold chars
        rw [List.length_map]
        omega
      show Meets _ _ (sizeTurn copy count turns (.line val (s.state.input.take _))) s
      rw [htaken, sizeTurn, meets_bind, meets_modify]
      by_cases hval : val = 0
      · have hnot : ¬s.Fills skips := by
          rw [hiff]
          rintro ⟨val', heq, hval', -⟩
          exact hval' ((Option.some.inj heq).symm.trans hval)
        rw [if_pos hval]
        refine ((readTrailers_ends hc.sound).imp_error fun e he => ?_).imp fun x s' hx => returns_zero hx hnot
        rw [he]
        exact hnot
      · rw [if_neg hval, setPending, meets_bind, meets_modify]
        have hint : val.toInt < 2 ^ 31 := by
          rw [BitVec.toInt_eq_toNat_cond]
          split
          · omega
          · omega
        have hpos : 0 < line.length := by
          refine List.length_pos_iff.mpr fun hnil => ?_
          rw [hnil] at hline
          cases hline
        have hused := @Iobuf.used_take s.state.input line.length (by omega)
        have hgets (m : Nat) (hm : GetsTo (hasFlag s.rq.flags httpTransferChunked) skips val.toInt
            (rest ++ s.state.infd.stream) m) : s.GetsTo skips (line.length + m) := by
          unfold HttpdResponse.GetsTo
          rw [hunread]
          exact .line hchunked hpending hline hval hm
        have hrest := hc.unread
        rw [hunread, List.drop_left] at hrest
        refine halts_of_next (ih _ true (h.consumed hc hint fun m hm => hgets m ?_) (.inr rfl) hskips) ?_ (.inl ?_)
        · unfold HttpdResponse.GetsTo at hm
          rwa [show _ = _ from hrest] at hm
        · rw [hiff]
          unfold HttpdResponse.Fills
          rw [and_iff_right (show hasFlag _ _ = true from hchunked), show _ = _ from hrest]
          constructor
          · exact fun hf => ⟨val, rfl, hval, hf⟩
          · rintro ⟨val', heq, -, hf⟩
            rw [Option.some.inj heq]
            exact hf
        · show 2 * s.state.infd.stream.length + (s.state.input.take line.length).used < _ + s.state.input.used
          omega

/-- **The loop of `minute_httpd_in_read`**, by induction on the turns. -/
theorem inReadLoop_halts (skips copy : Bool) (count : Uint) (turns : Nat) : LoopHalts skips copy count turns := by
  have hinit : pendingInit = -1 := rfl
  have heof : pendingEof = -2 := rfl
  induction turns with
  | zero =>
    intro s entry _ _ _
    exact (meets_throw _).mpr (.inl (Nat.zero_le _))
  | succ turns ih =>
    intro s entry h hentry hskips
    by_cases hend : entry = true ∧ s.pending ≤ pendingEof
    · rw [inReadLoop, meets_bind, meets_get]
      dsimp only
      rw [if_pos hend, meets_pure]
      exact returns_zero (Int.le_refl 0) fun hf => fills_of_lt (by omega) hf.2
    · have hpending : pendingInit ≤ s.pending := by
        obtain hle | he := hentry
        · exact hle
        · have := not_and.mp hend he
          omega
      by_cases hpos : s.pending > 0
      · rw [inReadLoop, meets_bind, meets_get]
        dsimp only
        rw [if_neg hend, if_pos hpos]
        by_cases hheld : s.state.input.read < s.state.input.write
        · rw [if_pos hheld]
          exact readPending_halts h hpos (h.read_lt_iff.mp hheld) hskips
        · rw [if_neg hheld]
          have hempty : s.state.input.used = 0 := by
            rw [h.read_lt_iff] at hheld
            omega
          have hsize := h.sound.input.size.pos
          refine refill_halts ih h hpending hskips (fun hfull => by omega) fun _ hstream hf => ?_
          have hnil : s.state.unread = [] := by
            refine List.eq_nil_of_length_eq_zero ?_
            rw [HttpdState.length_unread, hstream, hempty]
            rfl
          have hfills := hf.2
          rw [hnil] at hfills
          exact fills_nil hsize hfills
      · by_cases hchunked : hasFlag s.rq.flags httpTransferChunked = true
        · have hzero : s.pending = 0 ∨ s.pending = pendingInit := by omega
          rw [meets_congr (inReadLoop_size hchunked hzero copy count turns entry)]
          exact sizeTurn_halts ih h hchunked hzero hskips
        · rw [inReadLoop, meets_bind, meets_get]
          dsimp only
          rw [if_neg hend, if_neg hpos, if_neg hchunked, setPending, meets_bind, meets_modify, meets_pure]
          exact returns_zero (Int.le_refl 0) fun hf => hchunked hf.1

theorem moves_lt_bodyTurns (st : HttpdState) : st.moves < bodyTurns st := by
  have hused := (minuteIobufUsed st.input).isLt
  unfold HttpdState.moves bodyTurns Iobuf.used
  omega

/-- **The loop of `minute_httpd_in_discard`.** -/
theorem discardLoop_halts (turns : Nat) (h : s.Unwrapped true) :
    Meets (Halts true turns s) (fun _ _ => ¬s.Fills true) (discardLoop turns) s := by
  induction turns generalizing s with
  | zero => exact (meets_throw _).mpr (.inl (Nat.zero_le _))
  | succ turns ih =>
    have hread : Meets (Halts true (bodyTurns s.state) s) (Returns true s)
        (minuteHttpdInRead false (s.state.input.mask + 1)) s := by
      rw [minuteHttpdInRead, meets_bind, meets_get]
      exact inReadLoop_halts true false _ _ s true h (.inr rfl) fun _ => ⟨rfl, h.sound.input.size.mask_add_one⟩
    rw [discardLoop, meets_bind, meets_get]
    refine Meets.bind (hread.imp_error fun e he => ?_) fun x s₁ h₁ => ?_
    · cases e with
      | fault => exact he
      | spin =>
        have hlt := moves_lt_bodyTurns s.state
        exact .inr (he.resolve_left (by omega))
    · obtain ⟨r, bs⟩ := x
      unfold Returns at h₁
      dsimp only at h₁ ⊢
      by_cases hpos : 0 < r
      · rw [if_pos ⟨rfl, hpos⟩] at h₁
        obtain ⟨hfits, hlt, hiff⟩ := h₁
        rw [if_pos hpos]
        refine ((ih hfits).imp_error fun e he => ?_).imp fun _ _ hnot hf => hnot (hiff.mpr hf)
        cases e with
        | fault => exact fun hf => he (hiff.mpr hf)
        | spin =>
          obtain hle | hf := he
          · exact .inl (by omega)
          · exact .inr (hiff.mp hf)
      · rw [if_neg (fun hc => hpos hc.2)] at h₁
        rw [if_neg hpos, meets_pure]
        exact h₁

/-! ## The result -/

/-- The loop ends, in some number of turns. -/
def Ends {α : Type} (loop : Nat → Httpd α) (s : HttpdResponse) : Prop := ∃ turns, loop turns s ≠ .error .spin

theorem halts_of_lt {α : Type} {m : Httpd α} {Q : α → HttpdResponse → Prop} (h : Meets (Halts skips turns s) Q m s)
    (hlt : s.state.moves < turns) (hnot : ¬s.Fills skips) : m s ≠ .error .spin := by
  intro hspin
  obtain hle | hf := (meets_error hspin).mp h
  · omega
  · exact hnot hf

theorem ends_iff {α : Type} {loop : Nat → Httpd α} {Q : α → HttpdResponse → Prop}
    (hQ : ∀ x s', Q x s' → ¬s.Fills skips) (h : ∀ turns, Meets (Halts skips turns s) Q (loop turns) s) :
    Ends loop s ↔ ¬s.Fills skips := by
  constructor
  · rintro ⟨turns, hne⟩ hf
    cases h turns with
    | ends _ hx => exact hQ _ _ hx hf
    | @stops e hrun he =>
      cases e with
      | spin => exact hne hrun
      | fault => exact he hf
  · exact fun hnot => ⟨_, halts_of_lt (h _) (moves_lt_bodyTurns s.state) hnot⟩

theorem inReadLoop_halts_entry (h : s.Unwrapped false) (copy : Bool) (count : Uint) (turns : Nat) :
    Meets (Halts false turns s) (Returns false s) (inReadLoop copy count turns true) s :=
  inReadLoop_halts false copy count turns s true h (.inr rfl) nofun

theorem not_fills_of_returns {x : Int × List Byte} (h : Returns false s x s') : ¬s.Fills false := by
  unfold Returns at h
  rwa [if_neg (fun hc => absurd hc.1 (by decide))] at h

/-- **When the loops on the body end**: exactly if no header of a chunk fills the ring. -/
theorem loops_end_iff :
    (s.Unwrapped false → ∀ copy count, Ends (fun turns => inReadLoop copy count turns true) s ↔ ¬s.Fills false) ∧
    (s.Unwrapped true → (Ends discardLoop s ↔ ¬s.Fills true)) := by
  refine ⟨fun h copy count => ?_, fun h => ?_⟩
  · exact ends_iff (fun _ _ => not_fills_of_returns) (inReadLoop_halts_entry h copy count)
  · exact ends_iff (fun _ _ hnot => hnot) fun turns => discardLoop_halts turns h

theorem minuteHttpdInRead_ends (h : s.Unwrapped false) (hnot : ¬s.Fills false) (copy : Bool) (count : Uint) :
    minuteHttpdInRead copy count s ≠ .error .spin := by
  rw [minuteHttpdInRead, get_bind]
  exact halts_of_lt (inReadLoop_halts_entry h copy count _) (moves_lt_bodyTurns s.state) hnot

theorem minuteHttpdInDiscard_ends (h : s.Unwrapped true) (hnot : ¬s.Fills true) :
    minuteHttpdInDiscard s ≠ .error .spin := by
  rw [minuteHttpdInDiscard, get_bind]
  exact halts_of_lt (discardLoop_halts _ h) (moves_lt_bodyTurns s.state) hnot

/-! ## The call on a size line -/

/-- `minute_httpd_in_read` behind a size line that says `val`. -/
def sizeTaken (copy : Bool) (count : Uint) (turns : Nat) (val : Uint) : Httpd (Int × List Byte) :=
  if val = 0 then readTrailers
  else do
    setPending val.toInt
    inReadLoop copy count turns true

/-- What a loop does with a size line: it reports an error, or takes the line for what its digits say in 32 bits. -/
def TakesLine (copy : Bool) (count : Uint) (taken line : List Byte) (s : HttpdResponse)
    (m : Except Stop ((Int × List Byte) × HttpdResponse)) : Prop :=
  if TailOk (sizeTail line) then
    ∃ turns s₁, m = sizeTaken copy count turns (BitVec.ofNat 32 (hexValue 0 (sizeDigits line))) s₁ ∧
      Consumed s.state taken.length s₁.state ∧ s₁ = { s with state := s₁.state }
  else ∃ s₁, m = .ok ((-1, []), s₁)

theorem TakesLine.refill {copy : Bool} {count : Uint} {taken line : List Byte}
    {m : Except Stop ((Int × List Byte) × HttpdResponse)} (h : TakesLine copy count taken line s' m)
    (hc : Consumed s.state 0 s'.state) (hs' : s' = { s with state := s'.state }) : TakesLine copy count taken line s m := by
  unfold TakesLine at h ⊢
  split at h
  · rename_i hok
    rw [if_pos hok]
    obtain ⟨turns, s₁, hm, hc₁, hs₁⟩ := h
    refine ⟨turns, s₁, hm, ?_, ?_⟩
    · have := hc.trans hc₁
      rwa [Nat.zero_add] at this
    · rw [hs₁, hs']
  · rename_i hbad
    rw [if_neg hbad]
    exact h

section

variable {start line rest : List Byte}

theorem feed_startLine {pending : Int} (hstart : SizeStart pending start) (hlf : 10 ∉ line) (rest : List Byte) :
    ∃ q, feed chunkTurn (sizeState pending) (chars (start ++ line ++ 10 :: rest)) =
        .halt (if TailOk (sizeTail line) then some (BitVec.ofNat 32 (hexValue 0 (sizeDigits line))) else none, q) ∧
      (TailOk (sizeTail line) → q = chars rest) := by
  rw [List.append_assoc, feed_start hstart]
  exact feed_sizeLine hlf rest

theorem sizeTurn_line (h : s.Unwrapped false) (hstart : SizeStart s.pending start) (hlf : 10 ∉ line)
    (hunread : s.state.unread = start ++ line ++ 10 :: rest) {r : Option Uint} {q : List Int}
    (hfeed : feed chunkTurn (sizeState s.pending) (chars s.state.input.contents) = .halt (r, q))
    (copy : Bool) (count : Uint) (turns : Nat) :
    TakesLine copy count (start ++ line ++ [10]) line s
      (sizeTurn copy count turns (scanned s.state.input (.halt (r, q))) s) := by
  obtain ⟨q', hall, hrest⟩ := feed_startLine hstart hlf rest
  unfold TakesLine
  by_cases hok : TailOk (sizeTail line)
  · rw [if_pos hok] at hall ⊢
    rw [hrest hok] at hall
    obtain ⟨held, rfl, rfl, hheld⟩ := feed_line_held hall hunread hfeed
    have hlen := congrArg List.length hheld
    rw [Iobuf.length_contents, List.length_append] at hlen
    have htaken : s.state.input.used - (chars held).length = (start ++ line ++ [10]).length := by
      rw [chars, List.length_map]
      omega
    rw [scanned, htaken]
    exact ⟨turns, _, rfl, consumed_take h.sound (by omega) rfl rfl, rfl⟩
  · rw [if_neg hok] at hall ⊢
    have happ := feed_append_halt (chars s.state.infd.stream) hfeed
    rw [← chars_append, show _ ++ _ = _ from hunread, hall] at happ
    simp only [Step.halt.injEq, Prod.mk.injEq] at happ
    obtain rfl := happ.1
    exact ⟨_, rfl⟩

theorem inReadLoop_line (h : s.Unwrapped false) (hchunked : hasFlag s.rq.flags httpTransferChunked = true)
    (hstart : SizeStart s.pending start) (hlf : 10 ∉ line) (hunread : s.state.unread = start ++ line ++ 10 :: rest)
    (hroom : (start ++ line).length < s.state.input.size) (hturns : s.state.moves < turns) (copy : Bool) (count : Uint)
    (entry : Bool) :
    TakesLine copy count (start ++ line ++ [10]) line s (inReadLoop copy count turns entry s) := by
  have hpending : s.pending = 0 ∨ s.pending = pendingInit := hstart.symm.imp And.left And.left
  induction turns generalizing s entry with
  | zero => exact absurd hturns (Nat.not_lt_zero _)
  | succ turns ih =>
    rw [inReadLoop_size hchunked hpending, sizeScan_eq h.sound.input h.read_le]
    cases hf : feed chunkTurn (sizeState s.pending) (chars s.state.input.contents) with
    | halt y => exact sizeTurn_line h hstart hlf hunread hf copy count turns
    | next x =>
      have hlen := congrArg List.length hunread
      rw [HttpdState.length_unread, List.length_append, List.length_cons] at hlen
      have hhalts (rest : List Byte) :
          ∃ r, feed chunkTurn (sizeState s.pending) (chars (start ++ line ++ 10 :: rest)) = .halt r := by
        obtain ⟨q, hq, -⟩ := feed_startLine hstart hlf rest
        exact ⟨_, hq⟩
      have hpart := feed_line_part hhalts hunread hf
      rw [Iobuf.length_contents] at hpart
      obtain ⟨r, s₁, hs₁, heq, hc, ⟨hfull, -⟩ | ⟨-, hstream, -⟩ | ⟨-, hpos, hlt, -⟩⟩ := readfd_cases h.sound
      · omega
      · rw [hstream, List.length_nil] at hlen
        omega
      · have hsame : s₁.pending = s.pending ∧ s₁.rq = s.rq := by
          rw [heq]
          exact ⟨rfl, rfl⟩
        have hnext := ih (h.consumed hc (hsame.1 ▸ h.pending) fun _ => getsTo_refill hc heq) (hsame.2 ▸ hchunked)
          (hsame.1 ▸ hstart) (hc.unread.trans hunread) (hc.size_eq ▸ hroom) (by omega) false (hsame.1 ▸ hpending)
        have hturn : sizeTurn copy count turns (scanned s.state.input (.next x)) s =
            inReadLoop copy count turns false s₁ := by
          refine (bind_of_ok hs₁).trans ?_
          rw [get_bind, if_neg (fun h0 => by omega)]
        rw [hturn]
        exact hnext.refill hc heq

/-- **`minute_httpd_in_read` on a size line**: if the line and what precedes it leave room for the LF in the ring, the
call refills until it has all of the line, unless it is in error before. -/
theorem minuteHttpdInRead_line (h : s.Unwrapped false) (hchunked : hasFlag s.rq.flags httpTransferChunked = true)
    (hstart : SizeStart s.pending start) (hlf : 10 ∉ line) (hunread : s.state.unread = start ++ line ++ 10 :: rest)
    (hroom : (start ++ line).length < s.state.input.size) (copy : Bool) (count : Uint) :
    TakesLine copy count (start ++ line ++ [10]) line s (minuteHttpdInRead copy count s) := by
  rw [minuteHttpdInRead, get_bind]
  exact inReadLoop_line h hchunked hstart hlf hunread hroom (moves_lt_bodyTurns s.state) copy count true

end

/-- With a full ring whose `write` has wrapped around, data is neither found nor got. -/
theorem inReadLoop_wrapped (h : s.state.Sound) (hpos : 0 < s.pending)
    (hbehind : ¬s.state.input.read < s.state.input.write) (hfull : s.state.input.used = s.state.input.size)
    (copy : Bool) (count : Uint) (turns : Nat) (entry : Bool) :
    inReadLoop copy count turns entry s = .error .spin := by
  have heof : pendingEof = -2 := rfl
  induction turns generalizing entry with
  | zero => rfl
  | succ turns ih =>
    obtain ⟨r, s₁, hs₁, -, -, hcases⟩ := readfd_cases h
    obtain ⟨-, rfl, rfl⟩ | ⟨hroom, -⟩ | ⟨hroom, -⟩ := hcases
    · rw [inReadLoop, get_bind]
      dsimp only
      rw [if_neg (fun hc => by omega), if_pos hpos, if_neg hbehind, bind_of_ok hs₁, get_bind]
      exact ih false
    · omega
    · omega

end

/-- A chunked request whose body comes in as `text`, with a ring of 64 bytes. -/
def chunkedReading (text : String) : HttpdResponse :=
  { chunkedHolding "" pendingInit with state.infd := ⟨bytes text, []⟩ }

theorem chunkedReading_fits {text : String} (h : (bytes text).length ≤ 2 ^ 31) : (chunkedReading text).Fits := by
  have hused : (Iobuf.holding 64 (bytes "")).used = 0 := by decide
  refine ⟨⟨Iobuf.valid_of 6 (by decide) rfl ?_, fun he => ?_, nofun⟩, show (-1 : Int) < 2 ^ 31 by decide, ?_⟩
  · show (Iobuf.holding 64 (bytes "")).used ≤ 64
    omega
  · have hopen : (Iobuf.holding 64 (bytes "")).eof = false := by decide
    exact absurd (he.symm.trans hopen) (by decide)
  · rw [HttpdState.length_unread]
    show 0 + ((Iobuf.holding 64 (bytes "")).used + (bytes text).length) + 64 ≤ 2 ^ 32
    omega

theorem loops_end_short : Ends discardLoop (chunkedReading "3\r\nabc\r\n0\r\n\r\n") :=
  (loops_end_iff.2 ((chunkedReading_fits (by decide)).unwrapped true)).mpr fun h => absurd h.2.le_length (by decide)

/-- An extension as long as the ring. -/
def longExtension : String := "1;name=0123456789012345678901234567890123456789012345678901234567\r\nx\r\n0\r\n\r\n"

/-- The chunk's header does not end within the ring, and neither loop ends; nor does the one on data, where
the ring is full and `write` has wrapped around. -/
theorem loops_spin :
    (chunkedReading longExtension).Fits ∧
    (∀ copy count, ¬Ends (fun turns => inReadLoop copy count turns true) (chunkedReading longExtension)) ∧
    ¬Ends discardLoop (chunkedReading longExtension) ∧
    ∃ s : HttpdResponse, s.state.Sound ∧ s.pending = 1 ∧
      ∀ copy count, ¬Ends (fun turns => inReadLoop copy count turns true) s := by
  have hfits : (chunkedReading longExtension).Fits := chunkedReading_fits (by decide)
  have hfills (skips : Bool) : (chunkedReading longExtension).Fills skips :=
    ⟨by decide, .header (x := (.extension, 1)) (.inr rfl) (by decide) rfl⟩
  refine ⟨hfits, fun copy count hends => ?_, fun hends => ?_, ?_⟩
  · exact (ends_iff (fun _ _ => not_fills_of_returns)
      (inReadLoop_halts_entry (hfits.unwrapped false) copy count)).mp hends (hfills false)
  · exact (ends_iff (fun _ _ hnot => hnot) fun turns => discardLoop_halts turns (hfits.unwrapped true)).mp hends
      (hfills true)
  · let state := { connected "" with input := ⟨0xfffffffe, 2, 3, 0, fun _ => 0⟩ }
    have hsound : state.Sound :=
      ⟨Iobuf.valid_of 2 (by decide) rfl (by decide), fun he => absurd he (by decide), nofun⟩
    refine ⟨{ HttpdResponse.init state with pending := 1 }, hsound, rfl, fun copy count hends => ?_⟩
    obtain ⟨turns, hne⟩ := hends
    exact hne (inReadLoop_wrapped hsound (show (0 : Int) < 1 by decide)
      (show ¬(0xfffffffe : Uint) < 2 by decide) (by decide) copy count turns true)

end MinuteHttp
