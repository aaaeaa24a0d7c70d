import MinuteHttp.Libhttpd.Position

/-!
# Bodies of a stated length

`in.pending` counts the bytes of the body down (`BodyAt`), and `minute_httpd_in_discard` takes what the
application has left. But `minute_httpd_start` stores the unsigned length in an `int`: from `2 ^ 31` on the
counter is negative from the start, and the body is not read at all (`body_consumed`).
-/

namespace MinuteHttp

open Effect

/-- All of a body of `n` bytes is read, and nothing behind it. -/
def BodyConsumed (st : HttpdState) (n : Nat) (st' : HttpdState) : Prop :=
  st'.input.read = st.input.read + BitVec.ofNat 32 n ∧ st'.unread = st.unread.drop n

/-! ## Counting down -/

/-- The body of `n` bytes is still to come, and no index of the ring will wrap around meanwhile: `write` is never
further than a full ring behind the body, nor than the end of the stream. -/
structure BodyFits (st : HttpdState) (n : Nat) : Prop where
  sound : st.Sound
  lt : n < 2 ^ 31
  le : n ≤ st.unread.length
  noWrap : st.input.read.toNat + min (n + st.input.size) st.unread.length < 2 ^ 32

/-- Of the body of `n` bytes, `k` have been read. -/
structure BodyAt (st : HttpdState) (n k : Nat) (s : HttpdResponse) : Prop where
  consumed : Consumed st k s.state
  plain : hasFlag s.rq.flags httpTransferChunked = false
  le : k ≤ n
  pending : s.pending = (n : Int) - k ∨ s.pending = pendingEof ∧ k = n

theorem Consumed.congr {st st' st'' : HttpdState} {n : Nat} (h : Consumed st n st')
    (hin : st''.input = st'.input) (hfd : st''.infd = st'.infd) : Consumed st n st'' := by
  obtain ⟨⟨hv, he, hs⟩, hmask, hread, hunread, hle⟩ := h
  refine ⟨⟨?_, ?_, ?_⟩, ?_, ?_, ?_, hle⟩
  · rwa [hin]
  · rwa [hin, hfd]
  · rwa [hfd]
  · rwa [hin]
  · rwa [hin]
  · rwa [HttpdState.unread, hin, hfd]

variable {st : HttpdState} {n k : Nat} {s : HttpdResponse}

theorem bodyAt_ofReading : OfReading fun s => ∃ k, BodyAt st n k s := by
  rintro s s' hreading ⟨k, h⟩
  simp only [HttpdResponse.reading, Prod.mk.injEq] at hreading
  obtain ⟨hin, hfd, -, hrq, hpending, -⟩ := hreading
  refine ⟨k, h.consumed.congr hin hfd, ?_, h.le, ?_⟩
  · rw [hrq]
    exact h.plain
  · rw [hpending]
    exact h.pending

/-- Where no index wraps around, the ring holds something if `read < write`. -/
theorem BodyAt.read_lt (hfits : BodyFits st n) (h : BodyAt st n k s) :
    s.state.input.read.toNat = st.input.read.toNat + k ∧
      s.state.input.write.toNat = st.input.read.toNat + k + s.state.input.used := by
  have hle := h.consumed.le
  have hlen := h.consumed.length_unread
  have hwrap := hfits.noWrap
  have hk := h.le
  have hused := h.consumed.sound.input.used_le
  have hsize : s.state.input.size = st.input.size := congrArg (·.toNat + 1) h.consumed.mask
  rw [HttpdState.length_unread] at hlen
  have hread : s.state.input.read.toNat = st.input.read.toNat + k := by
    rw [h.consumed.read, BitVec.toNat_add, BitVec.toNat_ofNat]
    omega
  refine ⟨hread, ?_⟩
  rw [s.state.input.write_eq, BitVec.toNat_add, hread]
  show (_ + s.state.input.used) % _ = _
  omega

theorem BodyAt.take (h : BodyAt st n k s) (hpending : s.pending = (n : Int) - k) {l : Nat}
    (hused : l ≤ s.state.input.used) (hl : (l : Int) ≤ s.pending) {s' : HttpdResponse}
    (hin : s'.state.input = s.state.input.take l) (hfd : s'.state.infd = s.state.infd) (hrq : s'.rq = s.rq)
    (hp : s'.pending = s.pending - l) : BodyAt st n (k + l) s' := by
  refine ⟨h.consumed.trans (consumed_take h.consumed.sound hused hin hfd), ?_, by omega, .inl ?_⟩
  · rw [hrq]
    exact h.plain
  · rw [hp, hpending]
    omega

theorem toRead_eq {pending : Int} (h : 0 < pending) (count : Uint) :
    (if pending > count.toNat then count else BitVec.ofInt 32 pending).toNat = min pending.toNat count.toNat := by
  have hcount := count.isLt
  split
  · omega
  · rw [BitVec.toNat_ofInt]
    omega

theorem readPending_skip {s : HttpdResponse} {count : Uint} (hpos : 0 < s.pending) (hlt : s.pending < 2 ^ 31)
    (hwrite : s.state.input.write.toNat = s.state.input.read.toNat + s.state.input.used)
    (hwrap : s.state.input.read.toNat + min s.pending.toNat count.toNat < 2 ^ 32) {l : Nat}
    (hl : l = min s.state.input.used (min s.pending.toNat count.toNat)) :
    readPending false count s =
      .ok ((l, []), { s with state.input := s.state.input.take l, pending := s.pending - l }) := by
  have htoread := toRead_eq hpos count
  rw [readPending, get_bind]
  dsimp only
  generalize (if s.pending > count.toNat then count else BitVec.ofInt 32 s.pending) = toread at htoread ⊢
  have hsum : (s.state.input.read + toread).toNat = s.state.input.read.toNat + toread.toNat := by
    rw [BitVec.toNat_add]
    omega
  have hcut : (if s.state.input.read + toread > s.state.input.write then
      s.state.input.write - s.state.input.read else toread) = BitVec.ofNat 32 l := by
    have hover : s.state.input.read + toread > s.state.input.write ↔ s.state.input.used < toread.toNat := by
      rw [gt_iff_lt, BitVec.lt_def, hsum]
      omega
    by_cases hmore : s.state.input.used < toread.toNat
    · rw [if_pos (hover.mpr hmore), hl, ← htoread, Nat.min_eq_left (by omega), Iobuf.used, BitVec.ofNat_toNat,
        BitVec.setWidth_eq]
      rfl
    · rw [if_neg (fun h => hmore (hover.mp h)), hl, ← htoread, Nat.min_eq_right (by omega),
        BitVec.ofNat_toNat, BitVec.setWidth_eq]
  have hint : (BitVec.ofNat 32 l).toInt = l := by
    rw [BitVec.toInt_ofNat', Int.bmod_eq_of_le]
    · omega
    · omega
  rw [if_neg (by decide), hcut, hint]
  rfl

/-- **A read of the body** takes some of it, and nothing only if there is none left or none wanted. -/
theorem readPending_body (hfits : BodyFits st n) (h : BodyAt st n k s) (hpos : 0 < s.pending)
    (hused : 0 < s.state.input.used) (copy : Bool) (count : Uint) :
    Meets (fun _ => True) (fun x s' => ∃ k', BodyAt st n k' s' ∧ (x.1 ≤ 0 → count ≠ 0 → k' = n))
      (readPending copy count) s := by
  have hpending : s.pending = (n : Int) - k := by
    obtain hp | ⟨hp, -⟩ := h.pending
    · exact hp
    · rw [hp] at hpos
      exact absurd hpos (by decide)
  have hlt := hfits.lt
  have hle := hfits.le
  have hwrap := hfits.noWrap
  obtain ⟨hread, hwrite⟩ := h.read_lt hfits
  have hcount : count ≠ 0 → 0 < count.toNat := fun hc =>
    Nat.pos_of_ne_zero fun h0 => hc (BitVec.eq_of_toNat_eq h0)
  by_cases hcopy : copy = true
  · have htoread := toRead_eq hpos count
    rw [readPending, meets_bind, meets_get]
    dsimp only
    generalize (if s.pending > count.toNat then count else BitVec.ofInt 32 s.pending) = toread at htoread ⊢
    rw [if_pos hcopy, meets_bind, meets_orStop]
    refine ⟨fun _ => trivial, fun x hx => ?_⟩
    by_cases hout : s.state.input.ReadsOutside toread
    · rw [minuteIobufRead_outside h.consumed.sound.input hout] at hx
      cases hx
    · rw [minuteIobufRead_eq h.consumed.sound.input hout] at hx
      cases hx
      have hlen : (s.state.input.contents.take toread.toNat).length = min s.state.input.used toread.toNat := by
        rw [List.length_take, Iobuf.length_contents, Nat.min_comm]
      rw [meets_set_pure]
      refine ⟨_, h.take hpending (Nat.min_le_left _ toread.toNat) (by omega) rfl rfl rfl ?_, fun h0 hc => ?_⟩
      · dsimp only
        rw [hlen]
      · have := hcount hc
        dsimp only at h0
        rw [hlen] at h0
        omega
  · have hlen := h.consumed.le
    have hskip := @readPending_skip s count hpos (by omega) (by omega) (by omega) _ rfl
    rw [Bool.not_eq_true] at hcopy
    rw [hcopy, meets_ok hskip]
    refine ⟨_, h.take hpending (Nat.min_le_left _ _) (by omega) rfl rfl rfl rfl, fun h0 hc => ?_⟩
    have := hcount hc
    dsimp only at h0
    omega

theorem BodyAt.done (h : BodyAt st n k s) (hpending : s.pending ≤ 0) : k = n := by
  have hle := h.le
  obtain hp | ⟨-, hk⟩ := h.pending
  · omega
  · exact hk

theorem BodyAt.ended (h : BodyAt st n k s) (hk : k = n) : BodyAt st n k { s with pending := pendingEof } :=
  ⟨h.consumed, h.plain, h.le, .inr ⟨rfl, hk⟩⟩

theorem inReadLoop_body (hfits : BodyFits st n) (copy : Bool) (count : Uint) (turns : Nat) (entry : Bool)
    (h : BodyAt st n k s) :
    Meets (fun _ => True) (fun x s' => ∃ k', BodyAt st n k' s' ∧ (x.1 ≤ 0 → count ≠ 0 → k' = n))
      (inReadLoop copy count turns entry) s := by
  induction turns generalizing entry s k with
  | zero => exact (meets_throw _).mpr trivial
  | succ turns ih =>
    rw [inReadLoop, meets_bind, meets_get]
    dsimp only
    by_cases hend : entry = true ∧ s.pending ≤ pendingEof
    · rw [if_pos hend, meets_pure]
      have hneg : pendingEof ≤ 0 := by decide
      exact ⟨k, h, fun _ _ => h.done (by omega)⟩
    · rw [if_neg hend]
      obtain ⟨hread, hwrite⟩ := h.read_lt hfits
      by_cases hpos : s.pending > 0
      · rw [if_pos hpos]
        by_cases hheld : s.state.input.read < s.state.input.write
        · rw [if_pos hheld]
          rw [BitVec.lt_def] at hheld
          exact readPending_body hfits h hpos (by omega) copy count
        · rw [if_neg hheld]
          rw [BitVec.lt_def] at hheld
          refine (readfd_consumed h.consumed.sound).bind fun r s₁ h₁ => ?_
          obtain ⟨hc, -, hstream, hs₁⟩ := h₁
          have hbody : BodyAt st n k s₁ := by
            refine ⟨h.consumed.trans hc, ?_, h.le, ?_⟩
            · rw [hs₁]
              exact h.plain
            · rw [hs₁]
              exact h.pending
          rw [meets_bind, meets_get]
          by_cases heof : r = 0 ∧ s₁.state.input.eof = true
          · -- the stream cannot end within the body
            exfalso
            have hlen := h.consumed.length_unread
            have hle := hfits.le
            rw [HttpdState.length_unread, hstream heof.1] at hlen
            obtain hp | ⟨hp, -⟩ := h.pending
            · have hnil : ([] : List Byte).length = 0 := rfl
              omega
            · rw [hp] at hpos
              exact absurd hpos (by decide)
          · rw [if_neg heof]
            exact ih false hbody
      · rw [if_neg hpos, if_neg (by rw [h.plain]; simp)]
        rw [setPending, meets_bind, meets_modify, meets_pure]
        have hk := h.done (by omega)
        exact ⟨k, h.ended hk, fun _ _ => hk⟩

theorem minuteHttpdInRead_body (hfits : BodyFits st n) (copy : Bool) (count : Uint) (h : BodyAt st n k s) :
    Meets (fun _ => True) (fun x s' => ∃ k', BodyAt st n k' s' ∧ (x.1 ≤ 0 → count ≠ 0 → k' = n))
      (minuteHttpdInRead copy count) s := by
  rw [minuteHttpdInRead, meets_bind, meets_get]
  exact inReadLoop_body hfits copy count _ true h

/-- **Discarding** takes all that is left. -/
theorem discardLoop_body (hfits : BodyFits st n) (turns : Nat) (h : BodyAt st n k s) :
    Meets (fun _ => True) (fun _ s' => BodyAt st n n s') (discardLoop turns) s := by
  induction turns generalizing s k with
  | zero => exact (meets_throw _).mpr trivial
  | succ turns ih =>
    rw [discardLoop, meets_bind, meets_get]
    refine (minuteHttpdInRead_body hfits false _ h).bind fun x s₁ h₁ => ?_
    obtain ⟨k', hbody, hdone⟩ := h₁
    obtain ⟨r, bs⟩ := x
    dsimp only at hdone ⊢
    by_cases hmore : 0 < r
    · rw [if_pos hmore]
      exact ih hbody
    · rw [if_neg hmore, meets_pure]
      have hcount : s.state.input.mask + 1 ≠ 0 := by
        intro h0
        have hsize := h.consumed.sound.input.size
        have hmask := hsize.mask_add_one
        rw [h0] at hmask
        exact absurd hsize.pos (by rw [← hmask]; decide)
      have hk := hdone (by omega) hcount
      rwa [hk] at hbody

/-! ## Nothing pending -/

/-- Without a body pending the input stays as it is. -/
structure Idle (st : HttpdState) (s : HttpdResponse) : Prop where
  input : s.state.input = st.input
  infd : s.state.infd = st.infd
  plain : hasFlag s.rq.flags httpTransferChunked = false
  pending : s.pending ≤ 0

theorem idle_ofReading : OfReading (Idle st) := by
  intro s s' hreading h
  simp only [HttpdResponse.reading, Prod.mk.injEq] at hreading
  obtain ⟨hin, hfd, -, hrq, hpending, -⟩ := hreading
  exact ⟨hin.trans h.input, hfd.trans h.infd, by rw [hrq]; exact h.plain, by rw [hpending]; exact h.pending⟩

theorem inReadLoop_idle (copy : Bool) (count : Uint) (turns : Nat) (entry : Bool) (h : Idle st s) :
    Meets (fun _ => False) (fun x s' => x.1 = 0 ∧ Idle st s') (inReadLoop copy count (turns + 1) entry) s := by
  rw [inReadLoop, meets_bind, meets_get]
  dsimp only
  by_cases hend : entry = true ∧ s.pending ≤ pendingEof
  · rw [if_pos hend, meets_pure]
    exact ⟨rfl, h⟩
  · have hpending := h.pending
    rw [if_neg hend, if_neg (show ¬s.pending > 0 by omega), if_neg (by rw [h.plain]; simp)]
    rw [setPending, meets_bind, meets_modify, meets_pure]
    exact ⟨rfl, h.input, h.infd, h.plain, show pendingEof ≤ 0 by decide⟩

theorem bodyTurns_pos (st : HttpdState) : ∃ turns, bodyTurns st = turns + 1 :=
  Nat.exists_eq_succ_of_ne_zero (by unfold bodyTurns; omega)

theorem minuteHttpdInRead_idle (copy : Bool) (count : Uint) (h : Idle st s) :
    Meets (fun _ => False) (fun x s' => x.1 = 0 ∧ Idle st s') (minuteHttpdInRead copy count) s := by
  rw [minuteHttpdInRead, meets_bind, meets_get]
  obtain ⟨turns, hturns⟩ := bodyTurns_pos s.state
  rw [hturns]
  exact inReadLoop_idle copy count turns true h

theorem minuteHttpdInDiscard_idle (h : Idle st s) :
    Meets (fun _ => False) (fun _ => Idle st) minuteHttpdInDiscard s := by
  rw [minuteHttpdInDiscard, meets_bind, meets_get]
  obtain ⟨turns, hturns⟩ := bodyTurns_pos s.state
  rw [hturns, discardLoop, meets_bind, meets_get]
  refine (minuteHttpdInRead_idle false _ h).bind fun x s₁ h₁ => ?_
  obtain ⟨r, bs⟩ := x
  obtain ⟨hr, hidle⟩ := h₁
  dsimp only at hr ⊢
  rw [if_neg (by omega), meets_pure]
  exact hidle

/-! ## Handling a request -/

variable {υ : Type} {app : MinuteHttpdApp υ} {now : Nat} {user user' : υ} {state : HttpdState} {r : Int}
  {s₁ resp : HttpdResponse}

/-- `handleStatus` up to the end of the body of the response. -/
def respond (app : MinuteHttpdApp υ) (now : Nat) (user : υ) : Httpd υ := do
  minuteHttpdStart
  let (status, user) ← handleHead app now user
  let user ← handleBody app status user
  minuteHttpdFlush
  minuteHttpdChunkEnd
  pure user

theorem handleStatus_zero (app : MinuteHttpdApp υ) (now : Nat) (user : υ) :
    handleStatus app now user 0 = (do
      let user ← respond app now user
      minuteHttpdInDiscard
      let resp ← get
      pure (if resp.connectionKeep then httpdClientOkOpen else httpdClientOkClose, user)) := by
  have hstart : handleStatus app now user 0 = (do
      minuteHttpdStart
      let (status, user) ← handleHead app now user
      let user ← handleBody app status user
      let r ← handleFinish
      pure (r, user)) := rfl
  rw [hstart]
  simp only [respond, handleFinish, bind_assoc, pure_bind]

theorem respond_keeps {I : HttpdResponse → Prop} (hI : OfReading I)
    (hread : ∀ count, Keeps I (minuteHttpdInRead true count)) (app : MinuteHttpdApp υ) (now : Nat) (user : υ)
    (h : I { s with headFlags := startFlags s.rq, pending := startPending s.rq s.pending }) :
    Meets (fun _ => True) (fun _ => I) (respond app now user) s := by
  rw [respond, meets_bind, minuteHttpdStart, meets_modify]
  refine (handleHead_keeps app now user hI hread _ h).bind fun p s₂ h₂ => ?_
  obtain ⟨status, user₁⟩ := p
  refine (handleBody_keeps app user₁ hI hread status s₂ h₂).bind fun user₂ s₃ h₃ => ?_
  refine (keeps_of_reading hI minuteHttpdFlush_reading s₃ h₃).bind fun _ s₄ h₄ => ?_
  refine (keeps_of_reading hI minuteHttpdChunkEnd_reading s₄ h₄).bind fun _ s₅ h₅ => ?_
  exact (meets_pure _).mpr h₅

theorem startPending_of_length {rq : MinuteHttpRq} (hplain : hasFlag rq.flags httpTransferChunked = false)
    (hlength : hasFlag rq.flags httpContentLength = true) (pending : Int) :
    startPending rq pending = rq.contentLength.toInt := by
  unfold startPending
  rw [hplain, hlength]
  rfl

theorem handleStatus_body (hplain : hasFlag s₁.rq.flags httpTransferChunked = false)
    (hlength : hasFlag s₁.rq.flags httpContentLength = true)
    (hfits : BodyFits s₁.state s₁.rq.contentLength.toNat) (app : MinuteHttpdApp υ) (now : Nat) (user : υ) :
    Meets (fun _ => True) (fun _ s' => BodyConsumed s₁.state s₁.rq.contentLength.toNat s'.state)
      (handleStatus app now user 0) s₁ := by
  rw [handleStatus_zero]
  refine (respond_keeps (@bodyAt_ofReading s₁.state s₁.rq.contentLength.toNat) ?_ app now user
    ⟨0, Consumed.refl hfits.sound, hplain, Nat.zero_le _, .inl ?_⟩).bind fun user' s₂ h₂ => ?_
  · rintro count s ⟨k, h⟩
    exact (minuteHttpdInRead_body hfits true count h).imp fun _ s' ⟨k', h', _⟩ => ⟨k', h'⟩
  · dsimp only
    rw [startPending_of_length hplain hlength, BitVec.toInt_eq_toNat_of_lt (by have := hfits.lt; omega)]
    rfl
  · obtain ⟨k, h⟩ := h₂
    rw [meets_bind, minuteHttpdInDiscard, meets_bind, meets_get]
    refine (discardLoop_body hfits _ h).imp fun _ s₃ h₃ => ?_
    rw [meets_bind, meets_get, meets_pure]
    exact ⟨h₃.consumed.read, h₃.consumed.unread⟩

theorem respond_idle (hplain : hasFlag s₁.rq.flags httpTransferChunked = false)
    (hlength : hasFlag s₁.rq.flags httpContentLength = true) (hpending : s₁.rq.contentLength.toInt ≤ 0)
    (app : MinuteHttpdApp υ) (now : Nat) (user : υ) :
    Meets (fun _ => True) (fun _ => Idle s₁.state) (respond app now user) s₁ := by
  refine respond_keeps idle_ofReading (fun count s h => ?_) app now user ⟨rfl, rfl, hplain, ?_⟩
  · exact (minuteHttpdInRead_idle true count h).of_total fun _ _ h => h.2
  · dsimp only
    rwa [startPending_of_length hplain hlength]

theorem handleStatus_idle (hplain : hasFlag s₁.rq.flags httpTransferChunked = false)
    (hlength : hasFlag s₁.rq.flags httpContentLength = true) (hpending : s₁.rq.contentLength.toInt ≤ 0)
    (app : MinuteHttpdApp υ) (now : Nat) (user : υ) :
    Meets (fun _ => True) (fun _ => Idle s₁.state) (handleStatus app now user 0) s₁ := by
  rw [handleStatus_zero]
  refine (respond_idle hplain hlength hpending app now user).bind fun user' s₂ h₂ => ?_
  refine Meets.bind ((minuteHttpdInDiscard_idle h₂).of_total fun _ _ h => h) fun _ s₃ h₃ => ?_
  rw [meets_bind, meets_get, meets_pure]
  exact h₃

/-- The number of bytes of the request's head, which `s₁` is the state behind. -/
def HttpdState.headLength (state s₁ : HttpdState) : Nat := (s₁.input.read - state.input.read).toNat

/-- **A body of a stated length is consumed exactly**, as long as its length is that of an `int` and the
indices of the ring do not wrap around; longer ones are not. -/
theorem body_consumed (hrequest : handleRequest (.init state) = .ok (0, s₁))
    (hplain : hasFlag s₁.rq.flags httpTransferChunked = false)
    (hlength : hasFlag s₁.rq.flags httpContentLength = true)
    (h : minuteHttpdHandle app now user state = .ok ((r, user'), resp)) :
    (s₁.rq.contentLength = 0 ∨ BodyFits s₁.state s₁.rq.contentLength.toNat →
      BodyConsumed s₁.state s₁.rq.contentLength.toNat resp.state) ∧
    (2 ^ 31 ≤ s₁.rq.contentLength.toNat →
      ¬BodyConsumed s₁.state s₁.rq.contentLength.toNat resp.state) := by
  obtain ⟨status, s₂, hrequest', hstatus⟩ := bind_eq_ok.mp h
  rw [hrequest] at hrequest'
  cases hrequest'
  have hidle : s₁.rq.contentLength.toInt ≤ 0 → Idle s₁.state resp := fun hpending =>
    meets_iff.mp (handleStatus_idle hplain hlength hpending app now user) _ _ hstatus
  constructor
  · rintro (hzero | hfits)
    · rw [hzero] at hidle ⊢
      have hin := hidle (Int.le_refl 0)
      refine ⟨?_, ?_⟩
      · rw [hin.input]
        exact (BitVec.add_zero _).symm
      · rw [HttpdState.unread, hin.input, hin.infd]
        rfl
    · exact meets_iff.mp (handleStatus_body hplain hlength hfits app now user) _ _ hstatus
  · intro hge hbody
    have hisLt := s₁.rq.contentLength.isLt
    have hin := hidle (by rw [BitVec.toInt_eq_toNat_cond]; split <;> omega)
    have hread := hbody.1
    rw [hin.input] at hread
    have hnat := congrArg BitVec.toNat hread
    rw [BitVec.toNat_add, BitVec.toNat_ofNat] at hnat
    have := s₁.state.input.read.isLt
    omega

/-- A connection on which `head` has come in, and `body` is to come. -/
def withBody (head : String) (body : List Byte) : HttpdState :=
  { connected head with infd := ⟨bytes head ++ body, [some ((bytes head).length - 1)]⟩ }

theorem used_withBody (head : String) (body : List Byte) : (withBody head body).input.used = 0 :=
  show ((0 : Uint) - 0).toNat = 0 by decide

theorem withBody_sound (head : String) (body : List Byte) : (withBody head body).Sound := by
  have heof : (withBody head body).input.eof = false :=
    show decide ((0 : Uint) &&& iobufEof ≠ 0) = false by decide
  refine ⟨⟨⟨8, by decide, rfl⟩, ?_⟩, fun h => ?_, ?_⟩
  · rw [used_withBody]
    exact Nat.zero_le _
  · rw [heof] at h
    cases h
  · unfold Infd.Steady
    simp [withBody]

theorem length_unread_withBody (head : String) (body : List Byte) :
    (withBody head body).unread.length = (bytes head).length + body.length := by
  rw [HttpdState.length_unread, used_withBody, Nat.zero_add, ← List.length_append]
  rfl

theorem body_consumed_pipelined :
    let state := withBody "PUT / HTTP/1.1\r\nContent-Length: 3\r\n\r\n" (bytes "abcGET / HTTP/1.1\r\n\r\n")
    ∃ s₁ resp r, minuteHttpdHandle (silentApp 200) 0 () state = .ok ((r, ()), resp) ∧
      BodyConsumed s₁ 3 resp.state := by
  intro state
  have hrequest : accepts (fun x => decide (x.1 = 0) &&
      decide (hasFlag x.2.rq.flags httpTransferChunked = false) && hasFlag x.2.rq.flags httpContentLength &&
      decide (x.2.rq.contentLength.toNat = 3) && decide (3 ≤ x.2.state.unread.length) &&
      decide (x.2.state.input.read.toNat + min (3 + x.2.state.input.size) x.2.state.unread.length < 2 ^ 32) &&
      decide (x.2.state.input.read.toNat < state.unread.length)) (handleRequest (.init state)) = true := by
    decide +kernel
  have hrun : accepts (fun _ => true) (minuteHttpdHandle (silentApp 200) 0 () state) = true := by decide +kernel
  obtain ⟨⟨status, s₁⟩, hs₁, hp⟩ := accepts_iff.mp hrequest
  obtain ⟨⟨⟨r, ⟨⟩⟩, resp⟩, hx, -⟩ := accepts_iff.mp hrun
  simp only [Bool.and_eq_true, decide_eq_true_iff] at hp
  obtain ⟨⟨⟨⟨⟨⟨rfl, hplain⟩, hlength⟩, hthree⟩, hle⟩, hwrap⟩, hread⟩ := hp
  obtain ⟨n, hn, hc | hn'⟩ := meets_iff.mp (@handleRequest_reached state (withBody_sound _ _)) _ _ hs₁
  · have hfits : BodyFits s₁.state s₁.rq.contentLength.toNat := by
      rw [hthree]
      exact ⟨hc.sound, by decide, hle, hwrap⟩
    have hbody := (body_consumed hs₁ hplain hlength hx).1 (.inr hfits)
    rw [hthree] at hbody
    exact ⟨s₁.state, resp, r, hx, hbody⟩
  · -- the end of the stream does not end the head
    have hlen : state.unread.length + 1 < 2 ^ 32 := by decide +kernel
    have hstart : state.input.read = 0#32 := rfl
    rw [hn, hn', hstart, BitVec.zero_add, BitVec.toNat_ofNat] at hread
    omega

theorem handleRequest_eq (state : HttpdState) :
    handleRequest (.init state) =
      readRequestLoop (state.infd.stream.length + 2) (decide (minuteIobufUsed state.input > 0))
        (minuteHttpInit minuteAllHeaders state.input (minuteTextintClear state.text)).1
        (.init { state with
          output := minuteIobufClear state.output
          text := (minuteHttpInit minuteAllHeaders state.input (minuteTextintClear state.text)).2 }) := rfl

/-- A body of `2 ^ 31` bytes: not one of them is read. -/
theorem body_left :
    let state := withBody "PUT / HTTP/1.1\r\nContent-Length: 2147483648\r\n\r\n" (List.replicate (2 ^ 31) 0)
    ∃ s₁ resp r, state.Sound ∧ handleRequest (.init state) = .ok (0, s₁) ∧
      hasFlag s₁.rq.flags httpTransferChunked = false ∧ hasFlag s₁.rq.flags httpContentLength = true ∧
      s₁.rq.contentLength.toNat = 2 ^ 31 ∧ 2 ^ 31 ≤ state.unread.length - state.headLength s₁.state ∧
      minuteHttpdHandle (silentApp 200) 0 () state = .ok ((r, ()), resp) ∧
      ¬BodyConsumed s₁.state (2 ^ 31) resp.state := by
  intro state
  have hlen : state.infd.stream.length = 2147483694 := by
    show (bytes _ ++ List.replicate (2 ^ 31) 0).length = _
    rw [List.length_append, List.length_replicate]
    rfl
  have hrequest := handleRequest_eq state
  rw [hlen] at hrequest
  have hrun : accepts (fun x => decide (x.1 = 0) &&
      decide (hasFlag x.2.rq.flags httpTransferChunked = false) && hasFlag x.2.rq.flags httpContentLength &&
      decide (x.2.rq.contentLength.toNat = 2147483648) && decide (state.headLength x.2.state = 46) &&
      accepts (fun _ => true) (respond (silentApp 200) 0 () x.2)) (handleRequest (.init state)) = true := by
    rw [hrequest]
    decide +kernel
  obtain ⟨⟨status, s₁⟩, hs₁, hp⟩ := accepts_iff.mp hrun
  simp only [Bool.and_eq_true, decide_eq_true_iff] at hp
  obtain ⟨⟨⟨⟨⟨rfl, hplain⟩, hlength⟩, hN⟩, hhead⟩, hresponds⟩ := hp
  obtain ⟨⟨⟨⟩, s₂⟩, hs₂, -⟩ := accepts_iff.mp hresponds
  -- the response is written, and what is left is to discard the body
  have hneg : s₁.rq.contentLength.toInt ≤ 0 := by
    rw [BitVec.toInt_eq_toNat_cond, hN]
    decide
  have hidle := meets_iff.mp (respond_idle hplain hlength hneg (silentApp 200) 0 ()) _ _ hs₂
  obtain ⟨⟨⟩, s₃, hs₃, hidle'⟩ := (minuteHttpdInDiscard_idle hidle).exists_ok
  have hends : minuteHttpdHandle (silentApp 200) 0 () state =
      .ok ((if s₃.connectionKeep then httpdClientOkOpen else httpdClientOkClose, ()), s₃) := by
    rw [minuteHttpdHandle, bind_of_ok hs₁, handleStatus_zero, bind_of_ok hs₂, bind_of_ok hs₃]
    rfl
  refine ⟨s₁, s₃, _, withBody_sound _ _, hs₁, hplain, hlength, hN, ?_, hends, fun hbody => ?_⟩
  · rw [hhead, length_unread_withBody, List.length_replicate]
    decide
  · have hread := congrArg BitVec.toNat hbody.1
    rw [hidle'.input, BitVec.toNat_add, BitVec.toNat_ofNat] at hread
    have := s₁.state.input.read.isLt
    omega

end MinuteHttp
