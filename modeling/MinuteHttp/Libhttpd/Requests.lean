import MinuteHttp.Libhttp.Fresh
import MinuteHttp.Libhttpd.ChunkedInput
import MinuteHttp.Libhttpd.Responding

/-!
# One request after the other

`Request` says which bytes are one request: a head that the parser reads to its last byte, and the body that the
head announces. What it says is said of an empty text buffer and a ring of its own. On a connection the buffer and
the ring are those of the requests before, and what stands behind a request is the next one; a call of
`minute_httpd_handle` takes just the request, whatever the application reads of it (`handle_request`).
-/

namespace MinuteHttp

open Effect Feed

/-! ## Requests on the wire -/

/-- The frame in which a request is read into an empty buffer of `size` bytes. -/
def freshFrame (size : Uint) : Frame :=
  let io := minuteIobufInit 1 fun _ => 0
  let init := minuteHttpInit minuteAllHeaders io (minuteTextintInit size fun _ => 0)
  startFrame .zero init.1 io init.2

/-- The frame in which the trailers are read of the request that `k` is the end of the head of. -/
def trailersBehind (k : Frame) : Frame :=
  let io := minuteIobufInit 1 fun _ => 0
  startFrame k.rq (minuteHttpInitTrailers minuteAllHeaders io) io k.text

/-- From `k₀` the parser reads `w` to its last byte, and there it ends in `k`; it retains fewer than `ring` bytes
wherever it may have to stop for more. -/
structure Reads (ring : Nat) (k₀ : Frame) (w : List Byte) (k : Frame) : Prop where
  ends : feed iterate k₀ (chars w) = .halt (.ok k, [])
  fits : ∀ p q k', w = p ++ q → feed iterate k₀ (chars p) = .next k' → k'.retained < ring

/-- The body of a request that `k` is the end of the head of. -/
inductive BodyOf (ring : Nat) (k : Frame) : List Byte → Prop where
  | none (hplain : hasFlag k.rq.flags httpTransferChunked = false)
      (hlength : hasFlag k.rq.flags httpContentLength = false) : BodyOf ring k []
  | stated {body : List Byte} (hplain : hasFlag k.rq.flags httpTransferChunked = false)
      (hlength : hasFlag k.rq.flags httpContentLength = true) (heq : k.rq.contentLength.toNat = body.length)
      (hlt : body.length < 2 ^ 31) : BodyOf ring k body
  | chunked {data w trailers : List Byte} {kt : Frame} (hchunked : hasFlag k.rq.flags httpTransferChunked = true)
      (hchunks : Chunks ring pendingInit data w) (htrailers : Reads ring (trailersBehind k) trailers kt) :
      BodyOf ring k (w ++ trailers)

/-- `w` is a request, and `k` the end of its head. -/
inductive Request (ring : Nat) (size : Uint) : List Byte → Frame → Prop where
  | mk {head body : List Byte} {k : Frame} (hhead : Reads ring (freshFrame size) head k) (hbody : BodyOf ring k body) :
      Request ring size (head ++ body) k

section

variable {ring : Nat} {n d : Uint} {k₀ k₀' k k' : Frame} {w next : List Byte}

theorem Fresh.retained_eq (h : Fresh n d k k') : k'.retained = k.retained := by
  obtain ⟨t, -, rfl⟩ := fresh_iff.mp h
  have heq : k.s.m + d - (k.b + d) = k.s.m - k.b := by bv_omega
  exact congrArg BitVec.toNat heq

/-- **A request is read on any connection** as it is read alone. -/
theorem Reads.fresh (h : Reads ring k₀ w k) (hf : Fresh n d k₀ k₀') :
    ∃ k', Reads ring k₀' w k' ∧ Fresh n d k k' := by
  obtain ⟨k₁, k₁', h₁, -⟩ | ⟨⟨r, rest⟩, ⟨r', rest'⟩, h₁, h₁', hsim, hrest⟩ := (feed_fresh (chars w) hf).cases
  · have hends := h.ends.symm.trans h₁
    cases hends
  · have hends := h.ends.symm.trans h₁
    cases hends
    cases r' with
    | ok k' =>
      obtain ⟨k₂, k₂', h₂, rfl, rfl⟩ := hsim
      dsimp only at hrest
      subst hrest
      refine ⟨k₂'.advance, ⟨h₁', fun p q k₃ hw hp => ?_⟩, h₂.advance⟩
      obtain ⟨k₄, k₄', h₄, h₄', hf₄⟩ | ⟨x, x', -, hx', -⟩ := (feed_fresh (chars p) hf).cases
      · have hsame := hp.symm.trans h₄'
        cases hsame
        rw [hf₄.retained_eq]
        exact h.fits p q k₄ hw h₄
      · have hsame := hp.symm.trans hx'
        cases hsame
    | _ => exact hsim.elim

theorem Reads.behind (h : Reads ring k₀ w k) (next : List Byte) :
    feed iterate k₀ (chars (w ++ next)) = .halt (.ok k, chars next) := by
  rw [chars_append, feed_append_halt _ h.ends, List.nil_append]

theorem Reads.m_eq (h : Reads ring k₀ w k) : k.s.m = k₀.s.m + BitVec.ofNat 32 w.length := by
  obtain ⟨p, c, k₁, hp, hfeed, hc⟩ := feed_halt h.ends
  have hlen := congrArg List.length hp
  rw [chars, List.length_map, List.length_append, List.length_singleton] at hlen
  rw [iterate_ok_m hc, (feed_m hfeed).1, hlen, BitVec.ofNat_add, ← BitVec.add_assoc]
  rfl

theorem Reads.fits_behind (h : Reads ring k₀ w k) {p q : List Byte} (hw : w ++ next = p ++ q)
    (hp : feed iterate k₀ (chars p) = .next k') : k'.retained < ring := by
  by_cases hle : p.length ≤ w.length
  · obtain ⟨v, rfl⟩ : p <+: w := List.prefix_of_prefix_length_le ⟨q, hw.symm⟩ ⟨next, rfl⟩ hle
    exact h.fits p v k' rfl hp
  · obtain ⟨v, rfl⟩ : w <+: p := List.prefix_of_prefix_length_le ⟨next, rfl⟩ ⟨q, hw.symm⟩ (Nat.le_of_not_le hle)
    rw [h.behind] at hp
    cases hp

theorem Reads.of_short (hends : feed iterate k₀ (chars w) = .halt (.ok k, [])) (hmark : k₀.retained = 0)
    (hlen : w.length < ring) : Reads ring k₀ w k := by
  refine ⟨hends, fun p q k₁ hw hp => ?_⟩
  have hle := feed_retained_le hp
  have hlen' := congrArg List.length hw
  rw [chars, List.length_map] at hle
  rw [List.length_append] at hlen'
  omega

/-- **A section at the beginning of the stream** is read to its end. -/
theorem Streamed.of_reads {status : Int} {s : HttpdResponse} (h : Streamed k₀ (w ++ next) false ring status s)
    (hr : Reads ring k₀ w k) :
    status = 0 ∧ s.rq = k.rq ∧ s.state.text = k.text ∧ s.state.unread = next ∧ s.state.input.read = k.s.m ∧
      s.state.Open ring := by
  have hfeed := hr.behind next
  cases h with
  | parsed hleft hn hopen hrest =>
    have hok : runLeft (feed iterate k₀ (streamChars (w ++ next) false)) = some (0, k.rq, k.text) := by
      rw [streamChars, if_neg (by decide), List.append_nil, hfeed]
      rfl
    have heq := hok.symm.trans hleft
    rw [Option.some.injEq, Prod.mk.injEq, Prod.mk.injEq] at heq
    obtain ⟨hzero, hrq, htext⟩ := heq
    obtain ⟨k₁, hk₁, hread⟩ := hrest hzero.symm rfl
    have hsame := hfeed.symm.trans hk₁
    rw [Step.halt.injEq, Prod.mk.injEq] at hsame
    obtain ⟨hk, hnext⟩ := hsame
    cases hk
    exact ⟨by rw [← hzero]; rfl, hrq.symm, htext.symm, (chars_inj hnext).symm, hread, hopen rfl⟩
  | ended hfed =>
    have hsame := hfeed.symm.trans hfed
    cases hsame
  | full hw hfed hk => exact absurd hk (Nat.ne_of_lt (hr.fits_behind hw hfed))

theorem Reads.left (h : Reads ring k₀ w k) (next : List Byte) :
    runLeft (feed iterate k₀ (streamChars (w ++ next) false)) ≠ none := by
  rw [streamChars, if_neg (by decide), List.append_nil, h.behind]
  intro hnone
  cases hnone

end

/-! ## The connection -/

/-- The connection can go on with the next request. -/
structure Waiting (ring : Nat) (size : Uint) (st : HttpdState) : Prop where
  isOpen : st.Open ring
  text : st.text.size = size
  noWrap : st.input.read.toNat + st.unread.length + ring ≤ 2 ^ 32

/-- The rest of a body is to come, and then `next`. -/
inductive Ahead (ring : Nat) (size : Uint) (next : List Byte) (s : HttpdResponse) : Prop where
  | chunks {k₀ kt : Frame} {data w trailers : List Byte} (h : ChunksAt k₀ false false ring (trailers ++ next) data w s)
      (htrailers : Reads ring k₀ trailers kt) (hk₀ : k₀.text.size = size) (hkt : kt.text.size = size) :
      Ahead ring size next s
  | data {w : List Byte} (h : Waiting ring size s.state) (hplain : hasFlag s.rq.flags httpTransferChunked = false)
      (hpending : s.pending = w.length) (hlt : w.length < 2 ^ 31) (hunread : s.state.unread = w ++ next) :
      Ahead ring size next s
  | done (h : Waiting ring size s.state) (hpending : s.pending = pendingEof) (hunread : s.state.unread = next) :
      Ahead ring size next s

section

variable {ring : Nat} {size count : Uint} {copy : Bool} {next body : List Byte} {s s' : HttpdResponse}
  {st st' : HttpdState}

theorem Waiting.fits (h : Waiting ring size s.state) (hpending : s.pending < 2 ^ 31) : s.Fits :=
  ⟨h.isOpen.sound, hpending, h.isOpen.size ▸ h.noWrap⟩

theorem Waiting.congr (h : Waiting ring size st) (hin : st'.input = st.input) (hfd : st'.infd = st.infd)
    (htext : st'.text = st.text) : Waiting ring size st' := by
  obtain ⟨input, output, text, infd, outfd⟩ := st
  obtain ⟨input', output', text', infd', outfd'⟩ := st'
  dsimp only at hin hfd htext
  subst hin hfd htext
  exact ⟨⟨⟨h.isOpen.sound.input, h.isOpen.sound.eof, h.isOpen.sound.steady⟩, h.isOpen.eof, h.isOpen.size⟩, h.text,
    h.noWrap⟩

theorem Waiting.consumed (h : Waiting ring size st) {l : Nat} (hc : Consumed st l st') (htext : st'.text = st.text)
    (heof : st'.input.eof = st.input.eof) : Waiting ring size st' := by
  have hwrap := h.noWrap
  have hle := hc.le
  refine ⟨⟨hc.sound, heof.trans h.isOpen.eof, hc.size_eq.trans h.isOpen.size⟩, htext ▸ h.text, ?_⟩
  rw [hc.read, hc.length_unread, BitVec.toNat_add, BitVec.toNat_ofNat]
  omega

theorem ahead_ofReading : OfReading (Ahead ring size next) := by
  intro s s' hreading h
  simp only [HttpdResponse.reading, Prod.mk.injEq] at hreading
  obtain ⟨hin, hfd, htext, hrq, hpending, -⟩ := hreading
  have hunread : s'.state.unread = s.state.unread := by
    unfold HttpdState.unread
    rw [hin, hfd]
  cases h with
  | @chunks k₀ kt data w trailers h htrailers hk₀ hkt =>
    have hchunks : Chunks ring s'.pending data w := by
      rw [hpending]
      exact h.chunks
    refine .chunks ⟨⟨⟨?_, ?_, ?_⟩, ?_, ?_⟩, ?_, hchunks, ?_, ?_, ?_, ?_,
      fun hone => absurd hone Bool.false_ne_true⟩ htrailers hk₀ hkt
    · rw [hin]
      exact h.fits.sound.input
    · rw [hin, hfd]
      exact h.fits.sound.eof
    · rw [hfd]
      exact h.fits.sound.steady
    · rw [hpending]
      exact h.fits.pending
    · rw [hin, hunread]
      exact h.fits.noWrap
    · rw [hrq]
      exact h.chunked
    · exact hunread.trans h.unread
    · unfold trailerFrame
      rw [hin, hrq, htext]
      exact h.frame
    · rw [hin]
      exact h.eof
    · rw [hin]
      exact h.ring
  | data h hplain hpend hlt hun =>
    exact .data (h.congr hin hfd htext) (by rw [hrq]; exact hplain) (hpending.trans hpend) hlt (hunread.trans hun)
  | done h hpend hun => exact .done (h.congr hin hfd htext) (hpending.trans hpend) (hunread.trans hun)

/-! ## Reading and skipping -/

/-- What a call of `minute_httpd_in_read` leaves: more of the body, or nothing of it. -/
def Reduces (ring : Nat) (size : Uint) (next : List Byte) (moves : Nat) (x : Int × List Byte) (s' : HttpdResponse) :
    Prop :=
  if 0 < x.1 then Ahead ring size next s' ∧ s'.state.moves < moves
  else Ahead ring size next s' ∧ Waiting ring size s'.state ∧ s'.state.unread = next

theorem Reduces.mono {moves moves' : Nat} {x : Int × List Byte} (h : Reduces ring size next moves x s')
    (hlt : moves < moves') : Reduces ring size next moves' x s' := by
  unfold Reduces at h ⊢
  by_cases hpos : 0 < x.1
  · rw [if_pos hpos] at h ⊢
    exact ⟨h.1, Nat.lt_trans h.2 hlt⟩
  · rw [if_neg hpos] at h ⊢
    exact h

/-- Nothing of the body is left, and what is behind it is next. -/
theorem reduces_done {moves : Nat} {x : Int × List Byte} (h : Waiting ring size s'.state)
    (hpending : s'.pending = pendingEof) (hunread : s'.state.unread = next) (hx : ¬0 < x.1) :
    Ahead ring size next s' ∧ (count ≠ 0 → Reduces ring size next moves x s') := by
  have hdone : Ahead ring size next s' := .done h hpending hunread
  refine ⟨hdone, fun _ => ?_⟩
  unfold Reduces
  rw [if_neg hx]
  exact ⟨hdone, h, hunread⟩

theorem inRead_done (h : Waiting ring size s.state) (hpending : s.pending = pendingEof)
    (hunread : s.state.unread = next) :
    Meets Faults (fun x s' => Ahead ring size next s' ∧ (count ≠ 0 → Reduces ring size next s.state.moves x s'))
      (minuteHttpdInRead copy count) s := by
  obtain ⟨turns, hturns⟩ := bodyTurns_pos s.state
  rw [minuteHttpdInRead, meets_bind, meets_get, hturns, inReadLoop, meets_bind, meets_get]
  dsimp only
  rw [if_pos ⟨rfl, Int.le_of_eq hpending⟩, meets_pure]
  exact reduces_done h hpending hunread (by decide)

theorem readPending_data (h : Waiting ring size s.state) (hplain : hasFlag s.rq.flags httpTransferChunked = false)
    (hpending : s.pending = body.length) (hlt : body.length < 2 ^ 31) (hunread : s.state.unread = body ++ next)
    (hpos : 0 < body.length) (hused : 0 < s.state.input.used) :
    Meets Faults (fun x s' => Ahead ring size next s' ∧ (count ≠ 0 → Reduces ring size next s.state.moves x s'))
      (readPending copy count) s := by
  have hlen := congrArg List.length hunread
  rw [List.length_append] at hlen
  have hfits := h.fits (by omega)
  refine ((readPending_takes hfits (by omega) (by omega)).imp_error fun x hx => hx.1).imp fun x s' hx => ?_
  obtain ⟨l, hl, rfl, rfl⟩ := hx
  have hle : l ≤ body.length := by omega
  have hc : Consumed s.state l { s.state with input := s.state.input.take l } :=
    consumed_take h.isOpen.sound (by omega) rfl rfl
  have hahead : Ahead ring size next { s with state.input := s.state.input.take l, pending := s.pending - l } := by
    refine .data (w := body.drop l) (h.consumed hc rfl rfl) hplain ?_ ?_ ?_
    · show s.pending - l = _
      rw [hpending, List.length_drop]
      omega
    · rw [List.length_drop]
      omega
    · show HttpdState.unread { s.state with input := s.state.input.take l } = _
      rw [hc.unread, hunread, List.drop_append_of_le_length hle]
  refine ⟨hahead, fun hcount => ?_⟩
  have hcount0 : 0 < count.toNat := Nat.pos_of_ne_zero fun h0 => hcount (BitVec.eq_of_toNat_eq h0)
  have hused' := @Iobuf.used_take s.state.input l (by omega)
  unfold Reduces
  rw [if_pos (by omega)]
  refine ⟨hahead, ?_⟩
  show 2 * s.state.infd.stream.length + (s.state.input.take l).used < _ + s.state.input.used
  omega

theorem inReadLoop_data {turns : Nat} {entry : Bool} (h : Waiting ring size s.state)
    (hplain : hasFlag s.rq.flags httpTransferChunked = false) (hpending : s.pending = body.length)
    (hlt : body.length < 2 ^ 31) (hunread : s.state.unread = body ++ next) (hpos : 0 < body.length)
    (hused : 0 < s.state.input.used) :
    Meets Faults (fun x s' => Ahead ring size next s' ∧ (count ≠ 0 → Reduces ring size next s.state.moves x s'))
      (inReadLoop copy count (turns + 1) entry) s := by
  have heof : pendingEof = -2 := rfl
  rw [inReadLoop, meets_bind, meets_get]
  dsimp only
  rw [if_neg (fun hend => by omega), if_pos (show s.pending > 0 by omega),
    if_pos ((h.fits (by omega)).read_lt_iff.mpr hused)]
  exact readPending_data h hplain hpending hlt hunread hpos hused

theorem inReadLoop_refills {turns : Nat} {entry : Bool} (h : Waiting ring size s.state)
    (hplain : hasFlag s.rq.flags httpTransferChunked = false) (hpending : s.pending = body.length)
    (hlt : body.length < 2 ^ 31) (hunread : s.state.unread = body ++ next) (hpos : 0 < body.length)
    (hempty : s.state.input.used = 0) :
    Meets Faults (fun x s' => Ahead ring size next s' ∧ (count ≠ 0 → Reduces ring size next s.state.moves x s'))
      (inReadLoop copy count (turns + 2) entry) s := by
  have heof : pendingEof = -2 := rfl
  have hstream : s.state.infd.stream ≠ [] := by
    intro hnil
    have hlen := congrArg List.length hunread
    rw [HttpdState.length_unread, hnil, hempty, List.length_append] at hlen
    simp only [List.length_nil] at hlen
    omega
  have hroom : s.state.input.used < s.state.input.size := by
    rw [hempty]
    exact h.isOpen.sound.input.size.pos
  obtain ⟨r, s₁, hs₁, hr, heq, hc, hmoves, htext, heof₁, -⟩ := readfd_gets h.isOpen.sound hroom hstream
  have hpending₁ : s₁.pending = body.length := by
    rw [heq]
    exact hpending
  have hunread₁ : s₁.state.unread = body ++ next := by rw [hc.unread, List.drop_zero, hunread]
  have hplain₁ : hasFlag s₁.rq.flags httpTransferChunked = false := by
    rw [heq]
    exact hplain
  have hheld₁ : 0 < s₁.state.input.used := by
    have hlen := congrArg List.length hunread
    have hlen₁ := congrArg List.length hunread₁
    rw [HttpdState.length_unread] at hlen hlen₁
    unfold HttpdState.moves at hmoves
    omega
  rw [inReadLoop, meets_bind, meets_get]
  dsimp only
  rw [if_neg (fun hend => by omega), if_pos (show s.pending > 0 by omega),
    if_neg (fun hheld => by rw [(h.fits (by omega)).read_lt_iff] at hheld; omega)]
  refine (meets_congr (bind_of_ok hs₁)).mpr ?_
  rw [meets_bind, meets_get, if_neg (fun h0 => by omega)]
  refine (inReadLoop_data (h.consumed hc htext heof₁) hplain₁ hpending₁ hlt hunread₁ hpos hheld₁).imp fun x s₂ h₂ => ?_
  exact ⟨h₂.1, fun hcount => (h₂.2 hcount).mono hmoves⟩

theorem inRead_data (h : Waiting ring size s.state) (hplain : hasFlag s.rq.flags httpTransferChunked = false)
    (hpending : s.pending = body.length) (hlt : body.length < 2 ^ 31) (hunread : s.state.unread = body ++ next) :
    Meets Faults (fun x s' => Ahead ring size next s' ∧ (count ≠ 0 → Reduces ring size next s.state.moves x s'))
      (minuteHttpdInRead copy count) s := by
  have heof : pendingEof = -2 := rfl
  obtain ⟨turns, hturns⟩ : ∃ turns, bodyTurns s.state = turns + 2 :=
    Nat.exists_eq_add_of_le' (by unfold bodyTurns; omega)
  rw [minuteHttpdInRead, meets_bind, meets_get, hturns]
  by_cases hpos : 0 < body.length
  · by_cases hused : 0 < s.state.input.used
    · exact inReadLoop_data h hplain hpending hlt hunread hpos hused
    · exact inReadLoop_refills h hplain hpending hlt hunread hpos (Nat.eq_zero_of_not_pos hused)
  · have hzero : body.length = 0 := by omega
    obtain rfl : body = [] := List.eq_nil_of_length_eq_zero hzero
    rw [inReadLoop, meets_bind, meets_get]
    dsimp only
    rw [if_neg (fun hend => by omega), if_neg (by omega), hplain, if_neg (by decide), setPending, meets_bind,
      meets_modify, meets_pure]
    have hwaiting : Waiting ring size { s with pending := pendingEof }.state := h
    exact reduces_done hwaiting rfl hunread (by decide)

/-- A chunked body: some of the data, or the trailers. -/
theorem inRead_chunks {k₀ kt : Frame} {data w trailers : List Byte}
    (h : ChunksAt k₀ false false ring (trailers ++ next) data w s) (htrailers : Reads ring k₀ trailers kt)
    (hk₀ : k₀.text.size = size) (hkt : kt.text.size = size) :
    Meets Faults (fun x s' => Ahead ring size next s' ∧ (count ≠ 0 → Reduces ring size next s.state.moves x s'))
      (minuteHttpdInRead copy count) s := by
  refine ((minuteHttpdInRead_chunks h).imp_error fun x hx => hx.1).imp fun x s' hx => ?_
  obtain ⟨l, w', hl, rfl, hat, hmoves⟩ | ⟨rfl, -, hpending, status, hstreamed, hr, -⟩ := hx
  · have hahead : Ahead ring size next s' := .chunks hat htrailers hk₀ hkt
    refine ⟨hahead, fun hcount => ?_⟩
    unfold Reduces
    rw [if_pos (Int.natCast_pos.mpr (hmoves hcount).1)]
    exact ⟨hahead, (hmoves hcount).2⟩
  · obtain ⟨rfl, -, htext, hunread, hread, hopen⟩ := hstreamed.of_reads htrailers
    have hmark : s'.state.input.read = s.state.input.read + BitVec.ofNat 32 (w.length + trailers.length) := by
      rw [hread, htrailers.m_eq, ← h.frame, BitVec.ofNat_add, ← BitVec.add_assoc]
      rfl
    have hwaiting : Waiting ring size s'.state := by
      refine ⟨hopen, by rw [htext, hkt], ?_⟩
      have hwrap := h.fits.noWrap
      have hlen := congrArg List.length h.unread
      rw [List.length_append, List.length_append] at hlen
      have hpos := h.fits.sound.input.size.pos
      rw [hmark, hunread, BitVec.toNat_add, BitVec.toNat_ofNat]
      have hring := h.ring
      omega
    exact reduces_done hwaiting hpending hunread (by rw [hr]; decide)

/-- **A call of `minute_httpd_in_read`** reads of the body only. -/
theorem inRead_ahead (h : Ahead ring size next s) :
    Meets Faults (fun x s' => Ahead ring size next s' ∧ (count ≠ 0 → Reduces ring size next s.state.moves x s'))
      (minuteHttpdInRead copy count) s := by
  cases h with
  | chunks h htrailers hk₀ hkt => exact inRead_chunks h htrailers hk₀ hkt
  | data h hplain hpending hlt hunread => exact inRead_data h hplain hpending hlt hunread
  | done h hpending hunread => exact inRead_done h hpending hunread

theorem Ahead.count_ne_zero (h : Ahead ring size next s) : s.state.input.mask + 1 ≠ 0 := by
  have hsize : s.state.input.SizeOk := by
    cases h with
    | chunks h => exact h.fits.sound.input.size
    | data h => exact h.isOpen.sound.input.size
    | done h => exact h.isOpen.sound.input.size
  intro h0
  have hmask := hsize.mask_add_one
  rw [h0] at hmask
  exact absurd hsize.pos (by rw [← hmask]; decide)

/-- **Discarding** takes all that is left of the body, and nothing behind it. -/
theorem discardLoop_ahead {turns : Nat} (h : Ahead ring size next s) (hturns : s.state.moves < turns) :
    Meets Faults (fun _ s' => Waiting ring size s'.state ∧ s'.state.unread = next) (discardLoop turns) s := by
  induction turns generalizing s with
  | zero => exact absurd hturns (Nat.not_lt_zero _)
  | succ turns ih =>
    rw [discardLoop, meets_bind, meets_get]
    refine (inRead_ahead h).bind fun x s₁ h₁ => ?_
    have hreduces := h₁.2 h.count_ne_zero
    unfold Reduces at hreduces
    obtain ⟨r, bs⟩ := x
    dsimp only at hreduces ⊢
    by_cases hpos : 0 < r
    · rw [if_pos hpos] at hreduces ⊢
      exact ih hreduces.1 (by omega)
    · rw [if_neg hpos] at hreduces ⊢
      exact (meets_pure _).mpr hreduces.2

end

/-! ## Handling a request -/

/-- The connection is kept open behind the request. -/
def MinuteHttpRq.keepsOpen (rq : MinuteHttpRq) : Bool := decide (startFlags rq = BitVec.ofNat 32 httpdConnectionKeep)

section

variable {ring : Nat} {size : Uint} {head body next w : List Byte} {k : Frame} {s : HttpdResponse} {st : HttpdState}

/-- The trailers are read on the connection as they are read alone. -/
theorem fresh_trailers (hrq : s.rq = k.rq) (htext : k.text.Same size s.state.text) (n : Nat) :
    ∃ d, Fresh size d (trailersBehind k) (trailerFrame s n) := by
  have hstart : (s.state.input.take n).read = 0 + (s.state.input.take n).read := (BitVec.zero_add _).symm
  refine ⟨(s.state.input.take n).read, hrq, ?_, htext, rfl, rfl, hstart⟩
  show minuteHttpInitTrailers minuteAllHeaders (s.state.input.take n) = { minuteHttpInitTrailers minuteAllHeaders
    (s.state.input.take n) with m := 0 + (s.state.input.take n).read }
  rw [← hstart]
  rfl

/-- The frame in which the head of the next request is read. -/
def requestFrame (st : HttpdState) : Frame :=
  let init := minuteHttpInit minuteAllHeaders st.input (minuteTextintClear st.text)
  startFrame .zero init.1 st.input init.2

/-- **Reading a head** on a connection. -/
theorem handleRequest_streams (hst : Waiting ring size st) :
    Meets (fun x => x = .fault ∧ runLeft (feed iterate (requestFrame st) (streamChars st.unread false)) = none)
      (fun status s₁ => Streamed (requestFrame st) st.unread false ring status s₁ ∧ s₁.pending = 0)
      handleRequest (.init st) := by
  simp only [handleRequest, meets_bind, meets_modify, meets_get, meets_set]
  generalize hrqs : (minuteHttpInit minuteAllHeaders (HttpdResponse.init st).state.input _).1 = rqs
  generalize hs₀ : HttpdResponse.mk _ _ _ _ _ = s₀
  have hinput : s₀.state.input = st.input := by rw [← hs₀]; rfl
  have hinfd : s₀.state.infd = st.infd := by rw [← hs₀]; rfl
  have hpending : s₀.pending = 0 := by rw [← hs₀]; rfl
  have hframe : startFrame s₀.rq rqs s₀.state.input s₀.state.text = requestFrame st := by
    rw [← hs₀, ← hrqs]
    rfl
  have hm : rqs.m = s₀.state.input.read := by rw [← hrqs, hinput]; rfl
  have hrouted : rqs.Routed := by rw [← hrqs]; rfl
  have hflag : rqs.st ≠ HttpRequestState.hHeadFlag := by
    rw [← hrqs]
    exact show HttpRequestState.hInitial ≠ HttpRequestState.hHeadFlag by decide
  have hsound : s₀.state.Sound := by
    have h := hst.isOpen.sound
    exact ⟨hinput ▸ h.input, by rw [hinput, hinfd]; exact h.eof, hinfd ▸ h.steady⟩
  have hunread : s₀.state.unread = st.unread := by
    unfold HttpdState.unread
    rw [hinput, hinfd]
  have hstreams := minuteHttpdReadRequest_streams hsound hm hrouted hflag
  rw [hframe, hunread, hinput, hst.isOpen.eof, hst.isOpen.size] at hstreams
  refine (hstreams.and (minuteHttpdReadRequest_pending rqs s₀)).imp fun status s₁ h₁ => ?_
  exact ⟨h₁.1, h₁.2.trans hpending⟩

/-- **Reading the head** takes just the head, and what it finds is what is found of it alone. -/
theorem handleRequest_reads (hpos : 1 ≤ size.toNat) (hdvd : 4 ∣ size.toNat) (hst : Waiting ring size st)
    (hhead : Reads ring (freshFrame size) head k) (hunread : st.unread = head ++ next) :
    Meets (fun _ => False) (fun status s₁ => status = 0 ∧ s₁.rq = k.rq ∧ k.text.Same size s₁.state.text ∧
      s₁.pending = 0 ∧ Waiting ring size s₁.state ∧ s₁.state.unread = next) handleRequest (.init st) := by
  have hsize : (minuteTextintClear st.text).size = (minuteTextintInit size fun _ => 0).size := hst.text
  have hfresh := fresh_start .zero minuteAllHeaders (minuteIobufInit 1 fun _ => 0) st.input hsize hpos hdvd
  obtain ⟨k', hreads, hk'⟩ := hhead.fresh hfresh
  have hreads : Reads ring (requestFrame st) head k' := hreads
  have hstreams := handleRequest_streams hst
  rw [hunread] at hstreams
  refine (hstreams.imp_error fun x hx => hreads.left next hx.2).imp fun status s₁ h₁ => ?_
  obtain ⟨hstreamed, hpending⟩ := h₁
  obtain ⟨hzero, hrq, htext, hnext, hread, hopen⟩ := hstreamed.of_reads hreads
  refine ⟨hzero, hrq.trans hk'.rq, htext ▸ hk'.text, hpending, ⟨hopen, ?_, ?_⟩, hnext⟩
  · rw [htext, hk'.text.size, hk'.text.sized]
    rfl
  · have hwrap := hst.noWrap
    have hlen := congrArg List.length hunread
    rw [List.length_append] at hlen
    have hring := hst.isOpen.sound.input.size.pos
    rw [hst.isOpen.size] at hring
    have hmark : s₁.state.input.read = st.input.read + BitVec.ofNat 32 head.length := hread.trans hreads.m_eq
    rw [hmark, hnext, BitVec.toNat_add, BitVec.toNat_ofNat]
    omega

theorem handleRequest_nothing (hst : Waiting ring size st) (hunread : st.unread = []) :
    Meets (fun _ => False) (fun status _ => status = -1) handleRequest (.init st) := by
  have hstreams := handleRequest_streams hst
  rw [hunread] at hstreams
  refine (hstreams.imp_error fun x hx => ?_).imp fun status s₁ h₁ => ?_
  · cases hx.2
  · obtain ⟨hstreamed, -⟩ := h₁
    cases hstreamed with
    | parsed hleft hn =>
      simp only [streamChars, chars, runLeft, feed_nil, List.map_nil, List.nil_append, Bool.false_eq_true, if_false,
        Option.some.injEq, Prod.mk.injEq] at hleft
      exact absurd hleft.1.symm hn
    | ended hfed => rfl
    | full hw hfed hk =>
      obtain ⟨rfl, -⟩ := List.append_eq_nil_iff.mp hw.symm
      cases hfed
      have hzero : (requestFrame st).retained = 0 := congrArg BitVec.toNat (BitVec.sub_self st.input.read)
      have hpos := hst.isOpen.sound.input.size.pos
      rw [hst.isOpen.size] at hpos
      omega

theorem ahead_start (hbody : BodyOf ring k body) (hrq : s.rq = k.rq) (htext : k.text.Same size s.state.text)
    (hpending : s.pending = 0) (hst : Waiting ring size s.state) (hunread : s.state.unread = body ++ next) :
    Ahead ring size next { s with headFlags := startFlags s.rq, pending := startPending s.rq s.pending } := by
  have hwaiting : Waiting ring size
      { s with headFlags := startFlags s.rq, pending := startPending s.rq s.pending }.state := hst
  unfold startPending at hwaiting ⊢
  cases hbody with
  | none hplain hlength =>
    rw [← hrq] at hplain hlength
    rw [hplain, hlength] at hwaiting ⊢
    exact .data (w := []) hwaiting hplain hpending (by decide) hunread
  | stated hplain hlength heq hlt =>
    rw [← hrq] at hplain hlength heq
    rw [hplain, hlength] at hwaiting ⊢
    refine .data hwaiting hplain ?_ hlt hunread
    show s.rq.contentLength.toInt = _
    rw [BitVec.toInt_eq_toNat_of_lt (by omega), heq]
  | @chunked data w trailers kt hchunked hchunks htrailers =>
    rw [← hrq] at hchunked
    rw [hchunked, if_pos rfl] at hwaiting ⊢
    obtain ⟨d, hfresh⟩ := fresh_trailers hrq htext w.length
    obtain ⟨kt', hreads, hkt⟩ := htrailers.fresh hfresh
    have hfits : ({ s with headFlags := startFlags s.rq, pending := pendingInit } : HttpdResponse).Fits :=
      hwaiting.fits (show pendingInit < 2 ^ 31 by decide)
    rw [List.append_assoc] at hunread
    refine .chunks ⟨hfits, hchunked, hchunks, hunread, rfl, hst.isOpen.eof, hst.isOpen.size,
      fun hone => absurd hone Bool.false_ne_true⟩ hreads ?_ ?_
    · exact hst.text
    · rw [hkt.text.size, hkt.text.sized]

variable {υ : Type} {app : MinuteHttpdApp υ} {user : υ} {P : Int → υ → Prop}

/-- **A call takes one request** and leaves the connection where the next one begins. The callbacks are given what
is found in that request alone, and of the user data all is known that is known of the callbacks. -/
theorem handle_request (now : Nat) (hpos : 1 ≤ size.toNat) (hdvd : 4 ∣ size.toNat) (hst : Waiting ring size st)
    (hw : Request ring size w k) (hunread : st.unread = w ++ next)
    (hheader : ∀ text, k.text.Same size text → (app.header k.rq text user).Always fun x => P x.1.toInt x.2)
    (hpayload : ∀ rq text status u, P status u → (app.payload rq text u).Always fun x => P x.1.toInt x.2)
    (hresponse : ∀ rq text status u, P status u →
      (app.response rq text (BitVec.ofInt 32 status) u).Always fun x => P status x.2) :
    Meets Faults (fun x s' => x.1 = (if k.rq.keepsOpen then httpdClientOkOpen else httpdClientOkClose) ∧
      (∃ status, P status x.2) ∧ Waiting ring size s'.state ∧ s'.state.unread = next)
      (handleRequest >>= handleStatus app now user : Httpd (Int × υ)) (.init st) := by
  obtain ⟨hhead, hbody⟩ := hw
  rw [List.append_assoc] at hunread
  refine Meets.bind ((handleRequest_reads hpos hdvd hst hhead hunread).of_total fun _ _ h => h) fun status s₁ h₁ => ?_
  obtain ⟨rfl, hrq, htext, hpending, hwaiting, hnext⟩ := h₁
  have hahead := ahead_start hbody hrq htext hpending hwaiting hnext
  have hreturns := handleStatus_returns app now user s₁
  rw [handleStatus_zero] at hreturns ⊢
  have hresponds := respond_meets ahead_ofReading (fun count s hs => (inRead_ahead hs).imp fun _ _ h => h.1) now hahead
    (hrq ▸ hheader _ htext) hpayload hresponse
  have hall : Meets Faults (fun x s' => (x.1 = httpdClientOkOpen ∨ x.1 = httpdClientOkClose) ∧
      (∃ status, P status x.2) ∧ Waiting ring size s'.state ∧ s'.state.unread = next) (do
        let user ← respond app now user
        minuteHttpdInDiscard
        let resp ← get
        pure (if resp.connectionKeep then httpdClientOkOpen else httpdClientOkClose, user)) s₁ := by
    refine hresponds.bind fun u s₂ h₂ => ?_
    rw [minuteHttpdInDiscard, meets_bind, meets_bind, meets_get]
    refine (discardLoop_ahead h₂.2 (moves_lt_bodyTurns _)).imp fun _ s₃ h₃ => ?_
    rw [meets_bind, meets_get, meets_pure]
    refine ⟨?_, h₂.1, h₃⟩
    split
    · exact .inl rfl
    · exact .inr rfl
  refine (hall.and hreturns).imp fun x s' hx => ⟨?_, hx.1.2⟩
  obtain ⟨⟨hr, -⟩, hopen⟩ := hx
  rw [hrq] at hopen
  unfold MinuteHttpRq.keepsOpen
  by_cases hkeep : startFlags k.rq = BitVec.ofNat 32 httpdConnectionKeep
  · rw [decide_eq_true hkeep, if_pos rfl]
    exact hopen.mpr hkeep
  · rw [decide_eq_false hkeep, if_neg (by decide)]
    exact hr.resolve_left fun h0 => hkeep (hopen.mp h0)

end

end MinuteHttp
