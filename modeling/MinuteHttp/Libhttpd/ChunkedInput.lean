import MinuteHttp.Libhttp.Interfere
import MinuteHttp.Libhttp.Lines
import MinuteHttp.Libhttpd.Streaming

/-!
# Chunked bodies that are read

`Chunks` is what a chunked body looks like up to behind the size line of its last chunk, with the data in it.
Whatever the cuts and the counts, `minute_httpd_in_read` delivers that data (`inReadLoop_chunks`). What follows is
left to the parser of header lines, entered as if a line had just begun: so the body ends where that parser ends
the trailer section (`chunked_delivered_iff`). Behind an empty section it does not; behind one with a line it does
where it takes the line ends as such and refuses nothing (`chunked_read_iff`).
-/

namespace MinuteHttp

open Effect Feed

/-! ## The body -/

/-- The size line of `n` bytes, without its LF. -/
structure SizeLine (line : List Byte) (n : Nat) : Prop where
  lf : 10 ∉ line
  digits : sizeDigits line ≠ []
  value : hexValue 0 (sizeDigits line) = n
  tail : TailOk (sizeTail line)

/-- With `p` as `in.pending`, `w` is the rest of a body up to behind the size line of its last chunk, and `data`
the data in it. All lines are shorter than `fit`. -/
inductive Chunks (fit : Nat) : Int → List Byte → List Byte → Prop where
  | last {p : Int} {start line : List Byte} (hstart : SizeStart p start) (hline : SizeLine line 0)
      (hfit : (start ++ line).length < fit) : Chunks fit p [] (start ++ line ++ [10])
  | size {p : Int} {start line data w : List Byte} {n : Nat} (hstart : SizeStart p start) (hline : SizeLine line n)
      (hpos : 0 < n) (hlt : n < 2 ^ 31) (hfit : (start ++ line).length < fit) (h : Chunks fit n data w) :
      Chunks fit p data (start ++ line ++ 10 :: w)
  | data {p : Int} {c : Byte} {data w : List Byte} (hp : 0 ≤ p) (h : Chunks fit p data w) :
      Chunks fit (p + 1) (c :: data) (c :: w)

section

variable {fit : Nat} {p : Int} {start line data w : List Byte} {n : Nat}

theorem SizeStart.pending (h : SizeStart p start) : p = 0 ∨ p = pendingInit := by
  obtain ⟨hp, -⟩ | ⟨hp, -⟩ := h
  · exact .inr hp
  · exact .inl hp

theorem SizeLine.feed_eq (h : SizeLine line n) (hstart : SizeStart p start) (rest : List Byte) :
    feed chunkTurn (sizeState p) (chars (start ++ line ++ 10 :: rest)) =
      .halt (some (BitVec.ofNat 32 n), chars rest) := by
  obtain ⟨q, hfeed, hq⟩ := feed_sizeLine h.lf rest
  rw [List.append_assoc, feed_start hstart, hfeed, if_pos h.tail, h.value, hq h.tail]

theorem Chunks.take {l : Nat} (h : Chunks fit p data w) (hl : (l : Int) ≤ p) :
    l ≤ data.length ∧ l ≤ w.length ∧ w.take l = data.take l ∧ Chunks fit (p - l) (data.drop l) (w.drop l) := by
  have hinit : pendingInit = -1 := rfl
  induction l generalizing p data w with
  | zero => exact ⟨Nat.zero_le _, Nat.zero_le _, rfl, by simpa using h⟩
  | succ l ih =>
    cases h with
    | last hstart =>
      have := hstart.pending
      omega
    | size hstart =>
      have := hstart.pending
      omega
    | data hp h =>
      obtain ⟨hlen, hlen', htake, hdrop⟩ := ih h (by omega)
      refine ⟨Nat.succ_le_succ hlen, Nat.succ_le_succ hlen', ?_, ?_⟩
      · rw [List.take_succ_cons, List.take_succ_cons, htake]
      · rw [List.drop_succ_cons, List.drop_succ_cons]
        rwa [show ∀ p : Int, p + 1 - (l + 1 : Nat) = p - l by omega]

/-- Where no data is due, there is a size line. -/
theorem Chunks.header (h : Chunks fit p data w) (hp : p ≤ 0) :
    ∃ start line n v, SizeStart p start ∧ SizeLine line n ∧ n < 2 ^ 31 ∧ (start ++ line).length < fit ∧
      w = start ++ line ++ 10 :: v ∧ (n = 0 ∧ data = [] ∧ v = [] ∨ 0 < n ∧ Chunks fit n data v) := by
  cases h with
  | last hstart hline hfit => exact ⟨_, _, _, _, hstart, hline, by decide, hfit, rfl, .inl ⟨rfl, rfl, rfl⟩⟩
  | size hstart hline hpos hlt hfit h => exact ⟨_, _, _, _, hstart, hline, hlt, hfit, rfl, .inr ⟨hpos, h⟩⟩
  | data hp' => omega

end

/-! ## Refills and trailers -/

theorem readfd_gets {s : HttpdResponse} (h : s.state.Sound) (hroom : s.state.input.used < s.state.input.size)
    (hstream : s.state.infd.stream ≠ []) :
    ∃ r s', readfd s = .ok (r, s') ∧ 0 < r ∧ s' = { s with state := s'.state } ∧ Consumed s.state 0 s'.state ∧
      s'.state.moves < s.state.moves ∧ s'.state.text = s.state.text ∧ s'.state.input.eof = s.state.input.eof ∧
      (s.state.infd.OneByOne → s'.state.infd.OneByOne) := by
  have hr := minuteIobufReadfd_refilled s.state.infd h.input
  rw [readfd_eq]
  generalize minuteIobufReadfd s.state.infd s.state.input = x at hr
  have hc := (refilled_consumed h hr).1
  cases hr with
  | full hu => exact absurd hu (Nat.ne_of_lt hroom)
  | error hcuts =>
    have hsteady := h.steady
    unfold Infd.Steady at hsteady
    rw [hcuts] at hsteady
    exact absurd List.mem_cons_self hsteady
  | eof hs => exact absurd hs hstream
  | @more bs rest cuts hbs hs hfit hcuts =>
    have hpos := List.length_pos_iff.mpr hbs
    refine ⟨_, _, rfl, Int.natCast_pos.mpr hpos, rfl, hc, ?_, rfl, rfl,
      fun hone => hone.goes hcuts hs fun hnil => absurd hnil hbs⟩
    have hlen : s.state.infd.stream.length = bs.length + rest.length := by rw [hs, List.length_append]
    have hused := Iobuf.used_append h.input.size hfit
    show 2 * rest.length + (s.state.input.append bs).used < 2 * s.state.infd.stream.length + s.state.input.used
    omega

theorem readRequestLoop_leaves {γ : Type} {f : HttpdResponse → γ} (hfd : Leaves f readfd)
    (hread : ∀ rqs, Leaves f (httpRead rqs)) (turns : Nat) (prefilled : Bool) (rqs : MinuteHttpRqs) :
    Leaves f (readRequestLoop turns prefilled rqs) := by
  have hrefill : Leaves f refillRequest := by
    refine hfd.bind fun r => leaves_get.bind fun resp => ?_
    split
    · exact leaves_pure _
    · split
      · exact leaves_pure _
      · exact leaves_pure _
  induction turns generalizing prefilled rqs with
  | zero => exact leaves_throw _
  | succ turns ih =>
    have hunless : Leaves f (refillUnless prefilled) := by
      unfold refillUnless
      split
      · exact leaves_pure _
      · exact hrefill
    refine hunless.bind fun ended => ?_
    split
    · exact leaves_pure _
    · refine (hread _).bind fun x => ?_
      split
      split
      · exact ih _ _
      · exact leaves_pure _

theorem minuteHttpdReadRequest_pending (rqs : MinuteHttpRqs) :
    Leaves HttpdResponse.pending (minuteHttpdReadRequest rqs) := by
  refine leaves_get.bind fun _ => readRequestLoop_leaves (fun s => ?_) (fun rqs s => ?_) _ _ _
  · simp only [readfd, meets_bind, meets_get, meets_set, meets_pure]
  · simp only [httpRead, meets_bind, meets_get]
    split
    · exact (meets_set_pure _ _).mpr rfl
    · exact leaves_throw _ s
    · exact leaves_throw _ s

/-- The parser's frame at the trailer section, which begins `n` bytes on. -/
def trailerFrame (s : HttpdResponse) (n : Nat) : Frame :=
  startFrame s.rq (minuteHttpInitTrailers minuteAllHeaders (s.state.input.take n)) (s.state.input.take n) s.state.text

theorem Consumed.trailerFrame {s s' : HttpdResponse} {l n : Nat} (hc : Consumed s.state l s'.state) (hrq : s'.rq = s.rq)
    (htext : s'.state.text = s.state.text) (hl : l ≤ n) : trailerFrame s' (n - l) = trailerFrame s n := by
  have hread : (s'.state.input.take (n - l)).read = (s.state.input.take n).read := by
    show s'.state.input.read + _ = s.state.input.read + _
    rw [hc.read, BitVec.add_assoc, ← BitVec.ofNat_add, Nat.add_sub_cancel' hl]
  unfold MinuteHttp.trailerFrame startFrame minuteHttpInitTrailers minuteHttpRqsInit
  rw [hrq, htext, hread]

/-- The trailer section has been read, with the return value `r`; `o` is whether the bytes come one by one. -/
def TrailersRead (k₀ : Frame) (rest : List Byte) (e o : Bool) (size : Nat) (r : Int) (s : HttpdResponse) : Prop :=
  s.pending = pendingEof ∧ ∃ status, Streamed k₀ rest e size status s ∧ (r = if status = 0 then 0 else -1) ∧
    (o = true → status = 0 → RetainsBelow size k₀ rest)

theorem Streamed.congr {k₀ : Frame} {w : List Byte} {e : Bool} {size : Nat} {status : Int} {s s' : HttpdResponse}
    (h : Streamed k₀ w e size status s) (hrq : s'.rq = s.rq) (htext : s'.state.text = s.state.text)
    (hin : s'.state.input = s.state.input) (hfd : s'.state.infd = s.state.infd) : Streamed k₀ w e size status s' := by
  cases h with
  | parsed hleft hn hopen hrest =>
    refine .parsed (by rw [hrq, htext]; exact hleft) hn (fun he => ?_) ?_
    · obtain ⟨⟨hvalid, heof, hsteady⟩, hnoted, hsize⟩ := hopen he
      refine ⟨⟨?_, ?_, ?_⟩, ?_, ?_⟩
      · rwa [hin]
      · rwa [hin, hfd]
      · rwa [hfd]
      · rwa [hin]
      · rwa [hin]
    · unfold HttpdState.unread
      rw [hin, hfd]
      exact hrest
  | ended hfed => exact .ended hfed
  | full hw hfed hk => exact .full hw hfed hk

theorem readTrailers_streams {s : HttpdResponse} {k₀ : Frame} {e o : Bool} {size : Nat} (h : s.state.Sound)
    (hframe : trailerFrame s 0 = k₀) (he : s.state.input.eof = e) (hsize : s.state.input.size = size)
    (hone : o = true → e = false ∧ s.state.infd.OneByOne) :
    Meets (fun x => x = .fault ∧ runLeft (feed iterate k₀ (streamChars s.state.unread e)) = none)
      (fun x s' => x.2 = [] ∧ TrailersRead k₀ s.state.unread e o size x.1 s') readTrailers s := by
  have htake : s.state.input.take 0 = s.state.input := by
    unfold Iobuf.take
    rw [BitVec.add_zero]
  rw [trailerFrame, htake] at hframe
  subst hframe he hsize
  rw [readTrailers, setPending, meets_bind, meets_modify, meets_bind, meets_get]
  have hflag : (minuteHttpInitTrailers minuteAllHeaders s.state.input).st ≠ HttpRequestState.hHeadFlag :=
    show HttpRequestState.hHeader ≠ HttpRequestState.hHeadFlag by decide
  have hrouted : (minuteHttpInitTrailers minuteAllHeaders s.state.input).Routed := rfl
  have hstreams := minuteHttpdReadRequest_streams (s := { s with pending := pendingEof }) h rfl hrouted hflag
  -- byte by byte, a ring that is too small is filled
  have hheld : Meets (fun _ => True) (fun status _ => o = true → status = 0 → RetainsBelow s.state.input.size
      (startFrame s.rq (minuteHttpInitTrailers minuteAllHeaders s.state.input) s.state.input s.state.text)
      s.state.unread) (minuteHttpdReadRequest (minuteHttpInitTrailers minuteAllHeaders s.state.input))
      { s with pending := pendingEof } := by
    refine meets_iff.mpr fun status s₁ hok ho hzero p q k' hw hp => ?_
    obtain ⟨heof, hone⟩ := hone ho
    by_contra hbig
    have hfills := minuteHttpdReadRequest_one (s := { s with pending := pendingEof }) h heof rfl hrouted hflag hone hw hp
      (Nat.le_of_not_lt hbig)
    have hstatus := (meets_ok hok).mp hfills
    rw [hzero] at hstatus
    cases hstatus
  refine ((hstreams.and hheld).and (minuteHttpdReadRequest_pending _ _)).bind fun status s₁ h₁ => ?_
  obtain ⟨⟨h₁, hheld⟩, hpending⟩ := h₁
  by_cases hzero : status = 0
  · rw [if_neg (not_not.mpr hzero), meets_pure]
    exact ⟨rfl, hpending, status, h₁, (if_pos hzero).symm, hheld⟩
  · rw [if_pos hzero, breakBody, meets_bind, meets_modify, meets_pure]
    exact ⟨rfl, hpending, status, h₁.congr rfl rfl rfl rfl, (if_neg hzero).symm, hheld⟩

/-! ## Reading the data -/

/-- The data `data` and behind it `rest` are to come: `w` is as far as the size line of the last chunk. The
trailer section will begin in the frame `k₀`. -/
structure ChunksAt (k₀ : Frame) (e o : Bool) (size : Nat) (rest data w : List Byte) (s : HttpdResponse) : Prop where
  fits : s.Fits
  chunked : hasFlag s.rq.flags httpTransferChunked = true
  chunks : Chunks size s.pending data w
  unread : s.state.unread = w ++ rest
  frame : trailerFrame s w.length = k₀
  eof : s.state.input.eof = e
  ring : s.state.input.size = size
  single : o = true → e = false ∧ s.state.infd.OneByOne

/-- What a call of `minute_httpd_in_read` is to do: it takes some of the data, if any is wanted, or there is none left
and the trailer section is read. -/
def Dechunks (k₀ : Frame) (e o : Bool) (size : Nat) (rest data : List Byte) (copy : Bool) (count : Uint) (moves : Nat)
    (x : Int × List Byte) (s' : HttpdResponse) : Prop :=
  (∃ l w, l ≤ data.length ∧ x = ((l : Int), if copy then data.take l else []) ∧
    ChunksAt k₀ e o size rest (data.drop l) w s' ∧ (count ≠ 0 → 0 < l ∧ s'.state.moves < moves)) ∨
  (data = [] ∧ x.2 = [] ∧ TrailersRead k₀ rest e o size x.1 s')

/-- How it may stop: at a trailer section on which the parser does, or where it is to fill a large buffer. -/
def DechunkStops (k₀ : Frame) (e : Bool) (size : Nat) (rest : List Byte) (copy : Bool) (count : Uint)
    (x : Stop) : Prop :=
  x = .fault ∧ (copy = true ∧ size ≤ count.toNat ∨ runLeft (feed iterate k₀ (streamChars rest e)) = none)

section

variable {k₀ : Frame} {e o : Bool} {size turns l : Nat} {rest data w : List Byte} {s s' : HttpdResponse} {copy : Bool}
  {count : Uint}

theorem ChunksAt.consumed (h : ChunksAt k₀ e o size rest data w s) {data' w' : List Byte} (hw : w.drop l = w')
    (hchunks : Chunks size s'.pending data' w') (hl : l ≤ w.length) (hpending : s'.pending < 2 ^ 31)
    (hc : Consumed s.state l s'.state) (hrq : s'.rq = s.rq) (htext : s'.state.text = s.state.text)
    (heof : s'.state.input.eof = s.state.input.eof) (hone : s.state.infd.OneByOne → s'.state.infd.OneByOne) :
    ChunksAt k₀ e o size rest data' w' s' := by
  refine ⟨h.fits.consumed hc hpending, ?_, hchunks, ?_, ?_, heof.trans h.eof, hc.size_eq.trans h.ring,
    fun ho => ⟨(h.single ho).1, hone (h.single ho).2⟩⟩
  · rw [hrq]
    exact h.chunked
  · rw [hc.unread, h.unread, List.drop_append_of_le_length hl, hw]
  · rw [← hw, List.length_drop, hc.trailerFrame hrq htext hl]
    exact h.frame

/-- A turn on data that is held takes what is held of it, or stops where it is to fill a large buffer. -/
theorem readPending_takes (h : s.Fits) (hpos : 0 < s.pending) (hall : s.pending ≤ s.state.unread.length) :
    Meets (fun x => x = .fault ∧ copy = true ∧ s.state.input.size ≤ count.toNat)
      (fun x s' => ∃ l, l = min s.state.input.used (min s.pending.toNat count.toNat) ∧
        x = ((l : Int), if copy then s.state.unread.take l else []) ∧
        s' = { s with state.input := s.state.input.take l, pending := s.pending - l }) (readPending copy count) s := by
  have hlt := h.pending
  have hlen := s.state.length_unread
  have hwrap := h.noWrap
  have hsize := h.sound.input.size.pos
  obtain ⟨l, hl⟩ : ∃ l, l = min s.state.input.used (min s.pending.toNat count.toNat) := ⟨_, rfl⟩
  cases copy with
  | false =>
    rw [meets_ok (readPending_skip hpos hlt h.write_eq (by omega) hl)]
    exact ⟨l, hl, rfl, rfl⟩
  | true =>
    have htoread := toRead_eq hpos count
    rw [readPending, meets_bind, meets_get]
    dsimp only
    rw [if_pos rfl]
    generalize (if s.pending > count.toNat then count else BitVec.ofInt 32 s.pending) = toread at htoread ⊢
    by_cases hout : s.state.input.ReadsOutside toread
    · rw [minuteIobufRead_outside h.sound.input hout, orStop, meets_bind, meets_throw]
      refine ⟨rfl, rfl, ?_⟩
      have := hout.2.1
      omega
    · have hlen' : (s.state.input.contents.take toread.toNat).length = l := by
        rw [List.length_take, Iobuf.length_contents, Nat.min_comm, htoread, hl]
      have hbytes : s.state.input.contents.take toread.toNat = s.state.unread.take l := by
        rw [HttpdState.unread, List.take_append_of_le_length (by rw [Iobuf.length_contents]; omega),
          List.take_eq_take_iff, Iobuf.length_contents]
        omega
      rw [minuteIobufRead_eq h.sound.input hout, orStop, meets_bind, meets_pure]
      dsimp only
      rw [meets_set_pure, hlen', show min s.state.input.used toread.toNat = l by omega]
      exact ⟨l, hl, by rw [hbytes]; rfl, rfl⟩

theorem readPending_chunks (h : ChunksAt k₀ e o size rest data w s) (hpos : 0 < s.pending)
    (hused : 0 < s.state.input.used) :
    Meets (DechunkStops k₀ e size rest copy count) (Dechunks k₀ e o size rest data copy count s.state.moves)
      (readPending copy count) s := by
  have hwhole := (h.chunks.take (show (s.pending.toNat : Int) ≤ s.pending by omega)).2.1
  have hunread := congrArg List.length h.unread
  rw [List.length_append] at hunread
  refine ((readPending_takes h.fits hpos (by omega)).imp_error fun x hx => ?_).imp fun x s' hx => ?_
  · exact ⟨hx.1, .inl ⟨hx.2.1, h.ring ▸ hx.2.2⟩⟩
  · obtain ⟨l, hl, rfl, rfl⟩ := hx
    obtain ⟨hle, hwl, htake, hdrop⟩ := h.chunks.take (show (l : Int) ≤ s.pending by omega)
    have hused' := @Iobuf.used_take s.state.input l (by omega)
    have hlt := h.fits.pending
    refine .inl ⟨l, w.drop l, hle, ?_, ?_, fun hcount => ?_⟩
    · rw [h.unread, List.take_append_of_le_length hwl, htake]
    · exact h.consumed rfl hdrop hwl (show s.pending - l < 2 ^ 31 by omega)
        (consumed_take h.fits.sound (by omega) rfl rfl) rfl rfl rfl id
    · have hcount0 : 0 < count.toNat := Nat.pos_of_ne_zero fun h0 => hcount (BitVec.eq_of_toNat_eq h0)
      refine ⟨by omega, ?_⟩
      show 2 * s.state.infd.stream.length + (s.state.input.take l).used < _ + s.state.input.used
      omega

theorem Dechunks.mono {m m' : Nat} {x : Int × List Byte} (h : Dechunks k₀ e o size rest data copy count m x s')
    (hle : m ≤ m') : Dechunks k₀ e o size rest data copy count m' x s' := by
  obtain ⟨l, w, hl, hx, hat, hlt⟩ | hover := h
  · exact .inl ⟨l, w, hl, hx, hat, fun hcount => ⟨(hlt hcount).1, Nat.lt_of_lt_of_le (hlt hcount).2 hle⟩⟩
  · exact .inr hover

/-- What is shown of `turns` turns of the loop. -/
def LoopDechunks (k₀ : Frame) (e o : Bool) (size : Nat) (rest : List Byte) (copy : Bool) (count : Uint)
    (turns : Nat) : Prop :=
  ∀ (s : HttpdResponse) (data w : List Byte) (entry : Bool), ChunksAt k₀ e o size rest data w s → s.state.moves < turns →
    Meets (DechunkStops k₀ e size rest copy count) (Dechunks k₀ e o size rest data copy count s.state.moves)
      (inReadLoop copy count turns entry) s

theorem refill_chunks (ih : LoopDechunks k₀ e o size rest copy count turns) (h : ChunksAt k₀ e o size rest data w s)
    (hturns : s.state.moves < turns + 1) (hroom : s.state.input.used < s.state.input.size)
    (hshort : s.state.input.used < w.length) :
    Meets (DechunkStops k₀ e size rest copy count) (Dechunks k₀ e o size rest data copy count s.state.moves)
      (sizeTurn copy count turns .more) s := by
  have hstream : s.state.infd.stream ≠ [] := by
    intro hnil
    have hlen := congrArg List.length h.unread
    rw [HttpdState.length_unread, hnil, List.length_append, List.length_nil] at hlen
    omega
  obtain ⟨r, s₁, hs₁, hpos, heq, hc, hlt, htext, heof, hone⟩ := readfd_gets h.fits.sound hroom hstream
  have hpending : s₁.pending = s.pending := by rw [heq]
  have hrq : s₁.rq = s.rq := by rw [heq]
  have h₁ : ChunksAt k₀ e o size rest data w s₁ := by
    have hchunks : Chunks size s₁.pending data w := by
      rw [hpending]
      exact h.chunks
    exact h.consumed List.drop_zero hchunks (Nat.zero_le _) (hpending ▸ h.fits.pending) hc hrq htext heof hone
  refine (meets_congr (bind_of_ok hs₁)).mpr ?_
  rw [meets_bind, meets_get, if_neg (fun h0 => by omega)]
  exact (ih s₁ data w false h₁ (by omega)).imp fun x s₂ h₂ => h₂.mono (Nat.le_of_lt hlt)

theorem sizeTurn_chunks (ih : LoopDechunks k₀ e o size rest copy count turns) (h : ChunksAt k₀ e o size rest data w s)
    (hturns : s.state.moves < turns + 1) (hpending : s.pending ≤ 0) :
    Meets (DechunkStops k₀ e size rest copy count) (Dechunks k₀ e o size rest data copy count s.state.moves)
      (sizeTurn copy count turns (sizeScan s)) s := by
  obtain ⟨start, line, n, v, hstart, hline, hlt, hfit, rfl, hmore⟩ := h.chunks.header hpending
  have hfeed := hline.feed_eq hstart
  have hunread : s.state.input.contents ++ s.state.infd.stream = start ++ line ++ 10 :: (v ++ rest) := by
    have hu := h.unread
    rw [List.append_assoc, List.cons_append] at hu
    exact hu
  rw [sizeScan_eq h.fits.sound.input h.fits.read_le]
  cases hf : feed chunkTurn (sizeState s.pending) (chars s.state.input.contents) with
  | next x =>
    -- the line is not in the ring yet
    have hpart := feed_line_part (fun rest => ⟨_, hfeed rest⟩) hunread hf
    rw [Iobuf.length_contents] at hpart
    refine refill_chunks ih h hturns ?_ ?_
    · rw [h.ring]
      omega
    · rw [List.length_append, List.length_cons]
      omega
  | halt y =>
    obtain ⟨r, q⟩ := y
    obtain ⟨held, rfl, rfl, hheld⟩ := feed_line_held (hfeed (v ++ rest)) hunread hf
    have hl : (start ++ line ++ [10]).length = (start ++ line).length + 1 := List.length_append
    have hlen := congrArg List.length hheld
    rw [Iobuf.length_contents, List.length_append] at hlen
    have htaken : s.state.input.used - (chars held).length = (start ++ line ++ [10]).length := by
      rw [chars, List.length_map]
      omega
    have hw : start ++ line ++ 10 :: v = start ++ line ++ [10] ++ v := List.append_cons _ _ _
    have hdrop : (start ++ line ++ 10 :: v).drop (start ++ line ++ [10]).length = v := by
      rw [hw, List.drop_left]
    have hle : (start ++ line ++ [10]).length ≤ (start ++ line ++ 10 :: v).length := by
      rw [hw]
      exact (List.prefix_append _ _).length_le
    have hval : (BitVec.ofNat 32 n : Uint) = 0 ↔ n = 0 := by
      constructor
      · intro h0
        have := congrArg BitVec.toNat h0
        rw [BitVec.toNat_ofNat, Nat.mod_eq_of_lt (by omega)] at this
        exact this
      · rintro rfl
        rfl
    show Meets _ _ (sizeTurn copy count turns (.line _ (s.state.input.take _))) s
    rw [htaken, sizeTurn, meets_bind, meets_modify]
    generalize hs₁ : ({ s with state.input := s.state.input.take (start ++ line ++ [10]).length } : HttpdResponse) = s₁
    have hc₁ : Consumed s.state (start ++ line ++ [10]).length s₁.state := by
      rw [← hs₁]
      exact consumed_take h.fits.sound (by omega) rfl rfl
    have hsame : s₁.rq = s.rq ∧ s₁.state.text = s.state.text ∧ s₁.state.input.eof = s.state.input.eof := by
      rw [← hs₁]
      exact ⟨rfl, rfl, rfl⟩
    have hone : s.state.infd.OneByOne → s₁.state.infd.OneByOne := by
      rw [← hs₁]
      exact id
    obtain ⟨rfl, rfl, rfl⟩ | ⟨hpos, hchunks⟩ := hmore
    · -- the last chunk
      rw [if_pos (show (BitVec.ofNat 32 0 : Uint) = 0 from rfl)]
      have hframe := hc₁.trailerFrame hsame.1 hsame.2.1 hle
      have hrest : s₁.state.unread = rest := by
        rw [hc₁.unread, h.unread, List.drop_append_of_le_length hle, hdrop, List.nil_append]
      rw [Nat.sub_self] at hframe
      have htrailers := readTrailers_streams hc₁.sound (hframe.trans h.frame) (hsame.2.2.trans h.eof)
        (hc₁.size_eq.trans h.ring) fun ho => ⟨(h.single ho).1, hone (h.single ho).2⟩
      rw [hrest] at htrailers
      exact (htrailers.imp_error fun x hx => ⟨hx.1, .inr hx.2⟩).imp fun x s' hx => .inr ⟨rfl, hx⟩
    · have hint : (BitVec.ofNat 32 n).toInt = (n : Int) := (toInt_ofNat_eq_iff n).mpr hlt
      rw [if_neg (fun h0 => absurd (hval.mp h0) (Nat.ne_of_gt hpos)), setPending, meets_bind, meets_modify, hint]
      have h₂ : ChunksAt k₀ e o size rest data v { s₁ with pending := (n : Int) } := by
        have hint : (n : Int) < 2 ^ 31 := by omega
        exact h.consumed hdrop hchunks hle hint hc₁ hsame.1 hsame.2.1 hsame.2.2 hone
      have hmoves : s₁.state.moves < s.state.moves := by
        have hused := @Iobuf.used_take s.state.input (start ++ line ++ [10]).length (by omega)
        rw [← hs₁]
        show 2 * s.state.infd.stream.length + (s.state.input.take _).used < _ + s.state.input.used
        omega
      refine (ih _ data v true h₂ (by exact Nat.lt_of_lt_of_le hmoves (Nat.le_of_lt_succ hturns))).imp fun x s₃ h₃ => ?_
      exact h₃.mono (Nat.le_of_lt hmoves)

/-- **The loop of `minute_httpd_in_read`** on a chunked body. -/
theorem inReadLoop_chunks (turns : Nat) : LoopDechunks k₀ e o size rest copy count turns := by
  have hinit : pendingInit = -1 := rfl
  have heof : pendingEof = -2 := rfl
  induction turns with
  | zero => exact fun s data w entry _ hturns => absurd hturns (Nat.not_lt_zero _)
  | succ turns ih =>
    intro s data w entry h hturns
    by_cases hpos : 0 < s.pending
    · rw [inReadLoop, meets_bind, meets_get]
      dsimp only
      rw [if_neg (fun hend => by omega), if_pos hpos]
      by_cases hheld : s.state.input.read < s.state.input.write
      · rw [if_pos hheld]
        exact readPending_chunks h hpos (h.fits.read_lt_iff.mp hheld)
      · rw [if_neg hheld]
        have hempty : s.state.input.used = 0 := by
          rw [h.fits.read_lt_iff] at hheld
          omega
        have hone := (h.chunks.take (show ((1 : Nat) : Int) ≤ s.pending by omega)).2.1
        refine refill_chunks ih h hturns ?_ (by omega)
        rw [hempty]
        exact h.fits.sound.input.size.pos
    · have hzero : s.pending = 0 ∨ s.pending = pendingInit := by
        obtain ⟨start, line, n, v, hstart, -⟩ := h.chunks.header (by omega)
        exact hstart.pending
      rw [meets_congr (inReadLoop_size h.chunked hzero copy count turns entry)]
      exact sizeTurn_chunks ih h hturns (by omega)

theorem minuteHttpdInRead_chunks (h : ChunksAt k₀ e o size rest data w s) :
    Meets (DechunkStops k₀ e size rest copy count) (Dechunks k₀ e o size rest data copy count s.state.moves)
      (minuteHttpdInRead copy count) s := by
  rw [minuteHttpdInRead, meets_bind, meets_get]
  exact inReadLoop_chunks _ s data w true h (moves_lt_bodyTurns s.state)

/-! ## Reading the body -/

/-- Reads with the given counts, until one of them delivers nothing: what the last one has returned, and all that has
been delivered. -/
def readBody : List Uint → Httpd (Int × List Byte)
  | [] => pure (1, [])
  | count :: counts => do
    let (r, bs) ← minuteHttpdInRead true count
    if 0 < r then do
      let (r, more) ← readBody counts
      pure (r, bs ++ more)
    else pure (r, bs)

theorem TrailersRead.le {r : Int} (h : TrailersRead k₀ rest e o size r s) : r ≤ 0 := by
  obtain ⟨-, status, -, rfl, -⟩ := h
  split
  · exact Int.le_refl 0
  · decide

/-- **The reads deliver the data**, each of them some of it, and then the trailer section is read. -/
theorem readBody_chunks {counts : List Uint} (h : ChunksAt k₀ e o size rest data w s)
    (hcounts : ∀ c ∈ counts, c ≠ 0 ∧ c.toNat < size) :
    Meets (fun x => x = .fault ∧ runLeft (feed iterate k₀ (streamChars rest e)) = none)
      (fun x s' => (0 < x.1 ∧ counts.length ≤ x.2.length ∧ x.2 <+: data) ∨
        (x.2 = data ∧ TrailersRead k₀ rest e o size x.1 s')) (readBody counts) s := by
  induction counts generalizing data w s with
  | nil => exact (meets_pure _).mpr (.inl ⟨by decide, Nat.le_refl 0, List.nil_prefix⟩)
  | cons c counts ih =>
    obtain ⟨hc, hsmall⟩ := hcounts c List.mem_cons_self
    rw [readBody]
    refine Meets.bind ((minuteHttpdInRead_chunks h).imp_error fun x hx => ?_) fun x s₁ h₁ => ?_
    · obtain ⟨hfault, ⟨-, hbig⟩ | hnone⟩ := hx
      · omega
      · exact ⟨hfault, hnone⟩
    · obtain ⟨l, w', hl, rfl, hat, hsome⟩ | ⟨hdata, hnil, htrailers⟩ := h₁
      · obtain ⟨hpos, -⟩ := hsome hc
        dsimp only
        rw [if_pos (Int.natCast_pos.mpr hpos), if_pos rfl]
        refine (ih hat fun c' hc' => hcounts c' (List.mem_cons_of_mem _ hc')).bind fun y s₂ h₂ => ?_
        obtain ⟨r, more⟩ := y
        refine (meets_pure _).mpr ?_
        obtain ⟨hr, hlen, hbegins⟩ | ⟨rfl, htrailers⟩ := h₂
        · refine .inl ⟨hr, ?_, ?_⟩
          · have htaken := List.length_take_of_le hl
            show counts.length + 1 ≤ (data.take l ++ more).length
            rw [List.length_append, htaken, Nat.add_comm counts.length]
            exact Nat.add_le_add hpos hlen
          · have hall := (List.prefix_append_right_inj (data.take l)).mpr hbegins
            rwa [List.take_append_drop] at hall
        · exact .inr ⟨List.take_append_drop l data, htrailers⟩
      · obtain ⟨r, bs⟩ := x
        have hr := htrailers.le
        dsimp only at hnil hr htrailers ⊢
        rw [if_neg (by omega), meets_pure]
        exact .inr ⟨by rw [hnil, hdata], htrailers⟩

/-- Delivered is the data, and `next` is left unread. -/
def Delivers (data next : List Byte) (counts : List Uint) (s : HttpdResponse) : Prop :=
  Meets (fun _ => False) (fun x s' => x = (0, data) ∧ s'.state.unread = next) (readBody counts) s

theorem ends_of_delivers {counts : List Uint} {next : List Byte} (h : ChunksAt k₀ false o size rest data w s)
    (hcounts : ∀ c ∈ counts, c ≠ 0 ∧ c.toNat < size) (hright : Delivers data next counts s) :
    (∃ k, feed iterate k₀ (chars rest) = .halt (.ok k, chars next)) ∧ (o = true → RetainsBelow size k₀ rest) := by
  obtain ⟨x, s', hok, ⟨rfl, hnext⟩⟩ := hright.exists_ok
  obtain ⟨hpos, -⟩ | ⟨-, -, status, hstreamed, hzero, hheld⟩ := (meets_ok hok).mp (readBody_chunks h hcounts)
  · exact absurd hpos (show ¬(0 : Int) < 0 by decide)
  · have hstatus : status = 0 := by
      by_contra hne
      rw [if_neg hne] at hzero
      cases hzero
    cases hstreamed with
    | parsed hleft hn hopen hrest =>
      obtain ⟨k, hk, -⟩ := hrest (by exact_mod_cast hstatus) rfl
      rw [hnext] at hk
      exact ⟨⟨k, hk⟩, fun ho => hheld ho hstatus⟩
    | ended hfed => cases hstatus
    | full hw hfed hk => cases hstatus

/-- Where the parser ends the trailer section, and the ring holds what it retains, the body is delivered. -/
theorem delivers_of_ends {counts : List Uint} {next : List Byte} {k : Frame}
    (h : ChunksAt k₀ false o size rest data w s) (hcounts : ∀ c ∈ counts, c ≠ 0 ∧ c.toNat < size)
    (henough : data.length < counts.length)
    (htrailers : RetainsBelow size k₀ rest) (hk : feed iterate k₀ (chars rest) = .halt (.ok k, chars next)) :
    Delivers data next counts s := by
  have hleft : runLeft (feed iterate k₀ (streamChars rest false)) = some (0, k.rq, k.text) := by
    rw [streamChars, if_neg (by decide), List.append_nil, hk]
    rfl
  refine ((readBody_chunks h hcounts).imp_error fun x hx => ?_).imp fun x s' hx => ?_
  · have hnone := hleft.symm.trans hx.2
    cases hnone
  · obtain ⟨-, hlen, hbegins⟩ | ⟨hdata, -, status, hstreamed, hzero, -⟩ := hx
    · have := hbegins.length_le
      omega
    · cases hstreamed with
      | parsed hl hn hopen hrest =>
        have heq := hleft.symm.trans hl
        rw [Option.some.injEq, Prod.mk.injEq] at heq
        obtain ⟨k', hk', -⟩ := hrest heq.1.symm rfl
        have hsame := hk.symm.trans hk'
        rw [Step.halt.injEq, Prod.mk.injEq] at hsame
        rw [← heq.1] at hzero
        exact ⟨Prod.ext hzero hdata, (chars_inj hsame.2).symm⟩
      | ended hfed =>
        have hsame := hk.symm.trans hfed
        cases hsame
      | full hw hfed hk => exact absurd hk (Nat.ne_of_lt (htrailers _ _ _ hw hfed))

/-- **A chunked body is delivered**, and `next` is left unread, exactly if the parser, entered at a header line, ends
the trailer section before it. -/
theorem chunked_delivered_iff {counts : List Uint} {next : List Byte} (hfits : s.Fits)
    (hchunked : hasFlag s.rq.flags httpTransferChunked = true) (heof : s.state.input.eof = false)
    (hchunks : Chunks s.state.input.size s.pending data w) (hunread : s.state.unread = w ++ rest)
    (hcounts : ∀ c ∈ counts, c ≠ 0 ∧ c.toNat < s.state.input.size) (henough : data.length < counts.length)
    (htrailers : ∀ p q k, rest = p ++ q → feed iterate (trailerFrame s w.length) (chars p) = .next k →
      k.retained < s.state.input.size) :
    Delivers data next counts s ↔
      ∃ k, feed iterate (trailerFrame s w.length) (chars rest) = .halt (.ok k, chars next) := by
  have hat : ChunksAt (trailerFrame s w.length) false false s.state.input.size rest data w s :=
    ⟨hfits, hchunked, hchunks, hunread, rfl, heof, rfl, nofun⟩
  refine ⟨fun hright => (ends_of_delivers hat hcounts hright).1, fun hends => ?_⟩
  obtain ⟨k, hk⟩ := hends
  exact delivers_of_ends hat hcounts henough htrailers hk

end

/-! ## Trailer sections -/

/-- A line of a trailer section that the parser skips: its name is that of no header to be stored or interpreted. -/
structure TrailerLine (name value eol : List Byte) : Prop where
  name_ok : LineName (chars name)
  value_inLine : ∀ c ∈ chars value, inLine c
  eol_mem : chars eol ∈ lineEnds
  no_eof : -1 ∉ chars name ++ 58 :: chars value
  unknown : ∀ r ∈ headerCodes, treated minuteAllHeaders r = true →
    spelled [] (chars name ++ 58 :: chars value) ≠ some (headerName r)

/-- One such line or more. -/
inductive TrailerLines : List Byte → Prop where
  | last {name value eol : List Byte} (h : TrailerLine name value eol) : TrailerLines (name ++ 58 :: value ++ eol)
  | line {name value eol sec : List Byte} (h : TrailerLine name value eol) (hsec : TrailerLines sec) :
      TrailerLines (name ++ 58 :: value ++ eol ++ sec)

theorem TrailerLines.ne_nil {sec : List Byte} (h : TrailerLines sec) : sec ≠ [] := by
  cases h with
  | last => simp
  | line => simp

section

variable {k k' k₁ : Frame} {name value eol sec rest next : List Byte} {p : List Int} {s : HttpdResponse} {n : Nat}

theorem feed_trailerLine (hk : Routed k) (hat : AtLine k) (hmask : k.s.hmask = minuteAllHeaders)
    (h : TrailerLine name value eol) :
    ∃ k', feed iterate k (chars (name ++ 58 :: value ++ eol)) = .next k' ∧ k'.s.st = .hNl ∧ k'.s.nl = 1 := by
  have huntreated : ∀ r, ¬Treats k (chars name ++ 58 :: chars value) r := by
    intro r ht
    obtain ⟨k₁, hk₁, hread, -, htreats⟩ := line_reading hk hat h.name_ok (chars value)
    obtain ⟨hr, htreated, hspelled⟩ :=
      (treats_iff hk₁ hread (line_inLine h.name_ok h.value_inLine) r).mp ((htreats r).mp ht)
    exact h.unknown r hr (hmask ▸ htreated) hspelled
  have hline := feed_untreated_line hk hat h.name_ok h.value_inLine huntreated
  rw [if_neg h.no_eof] at hline
  obtain ⟨k', hf, hskipped⟩ := hline (chars eol) h.eol_mem
  refine ⟨k', ?_, hskipped.st, hskipped.nl⟩
  rw [chars_append, chars_append]
  exact hf

theorem feed_trailerLines (h : TrailerLines sec) (hk : Routed k) (hat : AtLine k)
    (hmask : k.s.hmask = minuteAllHeaders) (heol : chars eol ∈ lineEnds) (rest : List Byte) :
    ∃ k', feed iterate k (chars (sec ++ eol ++ rest)) = .halt (.ok k', chars rest) := by
  induction h generalizing k with
  | last h =>
    obtain ⟨k₁, hf, hst, hnl⟩ := feed_trailerLine hk hat hmask h
    obtain ⟨k₂, hf₂, -⟩ := feed_blank hst hnl heol (chars rest)
    refine ⟨k₂, ?_⟩
    rw [List.append_assoc, chars_append, feed_append_next _ hf, chars_append]
    exact hf₂
  | line h _ ih =>
    obtain ⟨k₁, hf, hst, hnl⟩ := feed_trailerLine hk hat hmask h
    obtain ⟨k₂, hf₂⟩ := ih (feed_routed hk hf) (.inl hst) ((feed_m hf).2.trans hmask)
    refine ⟨k₂, ?_⟩
    rw [List.append_assoc, List.append_assoc, chars_append, feed_append_next _ hf, ← List.append_assoc]
    exact hf₂

/-- Inside of a line, the parser ends the head behind an empty line, or at the byte 0xFF. -/
theorem feed_endsBlank (hk : Routed k) (h : Between p k)
    (hf : feed iterate k (chars rest) = .halt (.ok k', chars next)) :
    ∃ u c, rest = u ++ c :: next ∧ (c.toInt = -1 ∨ EndsBlank (p ++ chars (u ++ [c]))) := by
  obtain ⟨q, c, k₁, hrest, hq, hc⟩ := feed_halt hf
  obtain ⟨u, v, rfl, rfl, hv⟩ := chars_eq_append hrest
  obtain ⟨b, w, rfl, rfl, hw⟩ := List.map_eq_cons_iff.mp hv.symm
  refine ⟨u, b, by rw [chars_inj hw], or_iff_not_imp_left.mpr fun hb => ?_⟩
  have hbetween := feed_between_from hk h hq
  have hi := iterate_between hbetween.1 hbetween.2 hb
  rw [hc] at hi
  rw [chars_append, ← List.append_assoc]
  exact hi k' rfl

/-- The trailer section is read as if a line had begun. -/
theorem trailerFrame_between : Between [0, 10, 0] (trailerFrame s n) := fun _ =>
  ⟨rfl, by decide, fun h => absurd h (show ¬([10] <:+ [0, 10, 0] ∨ [10, 13] <:+ [0, 10, 0]) by decide)⟩

/-- **The trailer section never ends with the line that begins it.** -/
theorem feed_emptyTrailers (heol : chars eol ∈ lineEnds) :
    feed iterate (trailerFrame s n) (chars (eol ++ next)) ≠ .halt (.ok k', chars next) := by
  intro hf
  have hrouted : Routed (trailerFrame s n) := rfl
  obtain ⟨u, c, hrest, hend⟩ := feed_endsBlank hrouted trailerFrame_between hf
  obtain rfl : eol = u ++ [c] := by
    apply (List.append_left_inj next).mp
    rw [hrest, List.append_assoc]
    rfl
  have hlast : c.toInt = 10 := by
    rw [chars_append] at heol
    simp only [lineEnds, List.mem_cons, List.not_mem_nil, or_false] at heol
    obtain heol | heol := heol
    · have h : chars u ++ [c.toInt] = [] ++ [10] := heol
      exact (List.append_singleton_inj.mp h).2
    · have h : chars u ++ [c.toInt] = [13] ++ [10] := heol
      exact (List.append_singleton_inj.mp h).2
  obtain hff | hblank := hend
  · rw [hlast] at hff
    cases hff
  · simp only [lineEnds, List.mem_cons, List.not_mem_nil, or_false] at heol
    obtain heol | heol := heol
    · rw [heol] at hblank
      exact absurd hblank (by decide)
    · rw [heol] at hblank
      exact absurd hblank (by decide)

/-- What the parser retains of the section is shorter than the section. -/
theorem trailerLines_retained {size : Nat} (h : TrailerLines sec) (heol : chars eol ∈ lineEnds)
    (hfit : (sec ++ eol).length ≤ size) :
    ∀ u v k, sec ++ eol ++ next = u ++ v → feed iterate (trailerFrame s n) (chars u) = .next k → k.retained < size := by
  intro u v k hsplit hk
  have hrouted : Routed (trailerFrame s n) := rfl
  have hshort : u.length < (sec ++ eol).length := by
    by_contra hlong
    obtain ⟨u', hu⟩ : sec ++ eol <+: u :=
      List.prefix_of_prefix_length_le ⟨next, hsplit⟩ ⟨v, rfl⟩ (Nat.le_of_not_lt hlong)
    obtain ⟨k₁, hk₁⟩ := feed_trailerLines h hrouted (.inr ⟨rfl, rfl, rfl⟩) rfl heol u'
    rw [hu, hk] at hk₁
    cases hk₁
  have hretained := feed_retained_le hk
  have hzero : (trailerFrame s n).retained = 0 := by
    unfold Frame.retained
    rw [show (trailerFrame s n).s.m = (trailerFrame s n).b from rfl, BitVec.sub_self]
    rfl
  rw [hzero, chars, List.length_map] at hretained
  omega

/-- **A chunked body with a trailer section of skipped lines** is delivered exactly if there is such a line: behind
an empty section, the parser reads on into the next request. -/
theorem chunked_trailers_iff {data w : List Byte} {counts : List Uint} (hfits : s.Fits)
    (hchunked : hasFlag s.rq.flags httpTransferChunked = true) (heof : s.state.input.eof = false)
    (hchunks : Chunks s.state.input.size s.pending data w) (hunread : s.state.unread = w ++ (sec ++ eol ++ next))
    (hsec : sec = [] ∨ TrailerLines sec) (heol : chars eol ∈ lineEnds) (hfit : (sec ++ eol).length ≤ s.state.input.size)
    (hcounts : ∀ c ∈ counts, c ≠ 0 ∧ c.toNat < s.state.input.size) (henough : data.length < counts.length) :
    Delivers data next counts s ↔ sec ≠ [] := by
  have hat : ChunksAt (trailerFrame s w.length) false false s.state.input.size (sec ++ eol ++ next) data w s :=
    ⟨hfits, hchunked, hchunks, hunread, rfl, heof, rfl, nofun⟩
  constructor
  · rintro hright rfl
    obtain ⟨⟨k, hk⟩, -⟩ := ends_of_delivers hat hcounts hright
    exact feed_emptyTrailers heol hk
  · intro hne
    have hlines := hsec.resolve_left hne
    have hrouted : Routed (trailerFrame s w.length) := rfl
    obtain ⟨k, hk⟩ := feed_trailerLines hlines hrouted (.inr ⟨rfl, rfl, rfl⟩) rfl heol next
    exact delivers_of_ends hat hcounts henough (trailerLines_retained hlines heol hfit) hk

end

theorem chunks_abc : Chunks 64 pendingInit (bytes "abc") (bytes "3;x=y\r\nabc\r\n0\r\n") := by
  have hlast : Chunks 64 0 [] (crlf ++ bytes "0\r" ++ [10]) :=
    .last (.inr ⟨rfl, .inl rfl⟩) ⟨by decide, by decide, by decide, by decide⟩ (by decide)
  have hdata : Chunks 64 3 (bytes "abc") (bytes "abc" ++ (crlf ++ bytes "0\r" ++ [10])) :=
    .data (p := 2) (by decide) (.data (p := 1) (by decide) (.data (p := 0) (by decide) hlast))
  have hsize : Chunks 64 pendingInit (bytes "abc")
      ([] ++ bytes "3;x=y\r" ++ 10 :: (bytes "abc" ++ (crlf ++ bytes "0\r" ++ [10]))) :=
    .size (n := 3) (.inl ⟨rfl, rfl⟩) ⟨by decide, by decide, by decide, by decide⟩ (by decide) (by decide) (by decide)
      hdata
  exact hsize

/-- With a trailer line the body is delivered, whatever the counts; with none it is not. -/
theorem chunked_delivered_abc :
    Delivers (bytes "abc") (bytes "GET") [2, 16, 16, 16] (chunkedReading "3;x=y\r\nabc\r\n0\r\nX: y\r\n\r\nGET") ∧
    ¬Delivers (bytes "abc") (bytes "GET") [2, 16, 16, 16] (chunkedReading "3;x=y\r\nabc\r\n0\r\n\r\nGET") := by
  have hlines : TrailerLines (bytes "X" ++ 58 :: bytes " y" ++ crlf) :=
    .last ⟨by decide, by decide, by decide, by decide, by decide +kernel⟩
  have hcounts : ∀ c ∈ ([2, 16, 16, 16] : List Uint), c ≠ 0 ∧ c.toNat < 64 := by simp
  constructor
  · set s := chunkedReading "3;x=y\r\nabc\r\n0\r\nX: y\r\n\r\nGET"
    have hunread : s.state.unread = bytes "3;x=y\r\nabc\r\n0\r\n" ++
      (bytes "X" ++ 58 :: bytes " y" ++ crlf ++ crlf ++ bytes "GET") := by decide +kernel
    have hsize : s.state.input.size = 64 := by decide +kernel
    have hchunks : Chunks s.state.input.size s.pending (bytes "abc") (bytes "3;x=y\r\nabc\r\n0\r\n") := by
      rw [hsize]
      exact chunks_abc
    have hcounts : ∀ c ∈ ([2, 16, 16, 16] : List Uint), c ≠ 0 ∧ c.toNat < s.state.input.size := by
      rw [hsize]
      exact hcounts
    have hfit : (bytes "X" ++ 58 :: bytes " y" ++ crlf ++ crlf).length ≤ s.state.input.size := by
      rw [hsize]
      decide
    have hfits : s.Fits := chunkedReading_fits (by decide +kernel)
    refine (chunked_delivered_iff hfits (by decide +kernel) (by decide +kernel) hchunks hunread hcounts (by decide)
      (trailerLines_retained hlines (by decide) hfit)).mpr ?_
    exact feed_trailerLines hlines (show Routed (trailerFrame s _) from rfl) (.inr ⟨rfl, rfl, rfl⟩) rfl (by decide)
      (bytes "GET")
  · set s := chunkedReading "3;x=y\r\nabc\r\n0\r\n\r\nGET"
    have hunread : s.state.unread = bytes "3;x=y\r\nabc\r\n0\r\n" ++ (crlf ++ bytes "GET") := by decide +kernel
    have hfits : s.Fits := chunkedReading_fits (by decide +kernel)
    have hat : ChunksAt (trailerFrame s _) false false 64 (crlf ++ bytes "GET") (bytes "abc") _ s :=
      ⟨hfits, by decide +kernel, chunks_abc, hunread, rfl, by decide +kernel, by decide +kernel, nofun⟩
    intro hright
    obtain ⟨⟨k, hk⟩, -⟩ := ends_of_delivers hat hcounts hright
    exact feed_emptyTrailers (by decide) hk

/-! ## Where a body ends -/

/-- Lines with something in them, each up to its LF. -/
inductive NonblankLines : List Int → Prop where
  | nil : NonblankLines []
  | line {line sec : List Int} (hlf : 10 ∉ line) (hne : line ≠ []) (hcr : line ≠ [13]) (hsec : NonblankLines sec) :
      NonblankLines (line ++ 10 :: sec)

/-- `minute_http_read` returns no error at the character. -/
def readsOn (k : Frame) (c : Int) : Bool :=
  match iterate k c with
  | .next _ | .halt (.ok _) => true
  | .halt _ => false

/-- In `k`, behind the characters `p` of a trailer section, the parser takes `c`, and if it is a line end, as one; and a
ring of `size` bytes holds what it retains. -/
def PassesTrailer (size : Nat) (p : List Int) (k : Frame) (c : Int) : Prop :=
  readsOn k c = true ∧ c ≠ -1 ∧ ¬(k.s.st = .hHeadFlag ∧ EndsBlank (p ++ [c])) ∧ k.retained < size

instance PassesTrailer.decidable (size : Nat) (p : List Int) (k : Frame) (c : Int) :
    Decidable (PassesTrailer size p k c) :=
  inferInstanceAs (Decidable (_ ∧ _ ∧ _ ∧ _))

section

variable {sec eol u v p : List Int} {k : Frame} {c : Int}

theorem not_endsBlank_append (hp : ¬EndsBlank p) (hlf : 10 ∉ u) : ¬EndsBlank (p ++ u) := by
  obtain rfl | ⟨u, c, rfl⟩ := List.eq_nil_or_concat' u
  · rwa [List.append_nil]
  · rw [← List.append_assoc, endsBlank_snoc]
    rintro ⟨rfl, -⟩
    exact hlf (by simp)

/-- Behind a line with something in it, an LF does not end an empty one. -/
theorem not_atLineStart_line {line : List Int} (hlf : 10 ∉ line) (hne : line ≠ []) (hcr : line ≠ [13]) :
    ¬AtLineStart (p ++ line) := by
  obtain rfl | ⟨l, c, rfl⟩ := List.eq_nil_or_concat' line
  · exact absurd rfl hne
  · rw [← List.append_assoc, atLineStart_snoc]
    rintro (rfl | ⟨rfl, hl⟩)
    · exact hlf (by simp)
    · obtain rfl | ⟨l', d, rfl⟩ := List.eq_nil_or_concat' l
      · exact hcr rfl
      · rw [← List.append_assoc] at hl
        obtain ⟨rfl, -⟩ := suffix_snoc (s := []).mp hl
        exact hlf (by simp)

theorem lineEnd_last (heol : eol ∈ lineEnds) : ∃ t, eol = t ++ [10] ∧ 10 ∉ t := by
  simp only [lineEnds, List.mem_cons, List.not_mem_nil, or_false] at heol
  obtain rfl | rfl := heol
  · exact ⟨[], rfl, by simp⟩
  · exact ⟨[13], rfl, by simp⟩

/-- The first empty line is the one behind the section. -/
theorem NonblankLines.first_blank (h : NonblankLines sec) (heol : eol ∈ lineEnds) (hp : ¬EndsBlank p)
    (hsplit : sec ++ eol = u ++ v) (hv : v ≠ []) : ¬EndsBlank (p ++ u) := by
  induction h generalizing p u with
  | nil =>
    obtain ⟨t, rfl, ht⟩ := lineEnd_last heol
    obtain ⟨v, c, rfl⟩ := (List.eq_nil_or_concat' v).resolve_left hv
    rw [List.nil_append, ← List.append_assoc] at hsplit
    obtain ⟨rfl, -⟩ := List.append_singleton_inj.mp hsplit
    exact not_endsBlank_append hp fun hmem => ht (List.mem_append_left v hmem)
  | @line line sec hlf hne hcr _ ih =>
    rw [List.append_assoc] at hsplit
    obtain ⟨s, rfl, hrest⟩ | ⟨s, rfl, -⟩ := List.append_eq_append_iff.mp hsplit
    · obtain _ | ⟨x, s⟩ := s
      · rw [List.append_nil]
        exact not_endsBlank_append hp hlf
      · rw [List.cons_append, List.cons_append, List.cons.injEq] at hrest
        obtain ⟨rfl, hrest⟩ := hrest
        have hline : ¬EndsBlank (p ++ line ++ [10]) := by
          rw [endsBlank_snoc]
          exact fun hends => not_atLineStart_line hlf hne hcr hends.2
        have := ih hline hrest
        rwa [List.append_assoc, List.append_assoc] at this
    · exact not_endsBlank_append hp fun hmem => hlf (List.mem_append_left s hmem)

theorem NonblankLines.lf_suffix (h : NonblankLines sec) (hne : sec ≠ []) : [10] <:+ sec := by
  induction h with
  | nil => exact absurd rfl hne
  | @line line sec _ _ _ _ ih =>
    obtain rfl | hsec := eq_or_ne sec []
    · exact List.suffix_append line [10]
    · exact (ih hsec).trans ⟨line ++ [10], by simp⟩

theorem NonblankLines.ends_blank (h : NonblankLines sec) (hne : sec ≠ []) (heol : eol ∈ lineEnds) :
    EndsBlank (p ++ (sec ++ eol)) := by
  obtain ⟨t, rfl⟩ := h.lf_suffix hne
  simp only [lineEnds, List.mem_cons, List.not_mem_nil, or_false] at heol
  obtain rfl | rfl := heol
  · exact .inl ⟨p ++ t, by simp⟩
  · exact .inr ⟨p ++ t, by simp⟩

theorem readsOn_next {k' : Frame} (h : iterate k c = .next k') : readsOn k c = true := by
  rw [readsOn, h]

theorem readsOn_ok {k' : Frame} (h : iterate k c = .halt (.ok k')) : readsOn k c = true := by
  rw [readsOn, h]

theorem readsOn_halt {r : Halt} (h : readsOn k c = true) (hs : iterate k c = .halt r) : ∃ k', r = .ok k' := by
  rw [readsOn, hs] at h
  cases r with
  | ok k' => exact ⟨k', rfl⟩
  | ret | fault | spin => cases h

/-- **Where the parser ends a trailer section.** Entered as if a line had begun, it ends the section behind its empty
line exactly if it passes all the characters of it. -/
theorem section_ends_iff (size : Nat) (hk : Routed k) (h : Between [0, 10, 0] k) (hsec : NonblankLines sec)
    (hne : sec ≠ []) (heol : eol ∈ lineEnds) :
    ((∃ k', feed iterate k (sec ++ eol) = .halt (.ok k', [])) ∧
        EachStep iterate (fun _ k _ => k.retained < size) k (sec ++ eol)) ↔
      EachStep iterate (PassesTrailer size) k (sec ++ eol) := by
  constructor
  · rintro ⟨⟨k', hf⟩, hfits⟩ q x r k₁ hsplit hq
    obtain ⟨p, c, k₂, hw, hp, hc⟩ := feed_halt hf
    obtain ⟨-, hb⟩ := feed_between_from hk h hq
    have hfit := hfits q x r k₁ hsplit hq
    obtain rfl | ⟨r, d, rfl⟩ := List.eq_nil_or_concat' r
    · -- the last character
      obtain ⟨rfl, rfl⟩ := List.append_singleton_inj.mp (hsplit.symm.trans hw)
      obtain rfl : k₁ = k₂ := Step.next.inj (hq.symm.trans hp)
      have hx : x ≠ -1 := by
        obtain ⟨t, rfl, -⟩ := lineEnd_last heol
        rw [← List.append_assoc] at hsplit
        obtain ⟨-, rfl⟩ := List.append_singleton_inj.mp hsplit
        decide
      refine ⟨readsOn_ok hc, hx, fun hflag => ?_, hfit⟩
      have hmid := hb 0
      simp only [Mid, hflag.1] at hmid
      exact iterate_flag_ne_ok hflag.1 hmid.1 hx hc
    · -- one before it
      obtain ⟨rfl, -⟩ := List.append_singleton_inj.mp (show q ++ x :: r ++ [d] = p ++ [c] by
        rw [← hw, hsplit, List.append_assoc]
        rfl)
      obtain ⟨k₃, hq', hrest⟩ := feed_prefix_next hp
      obtain rfl : k₁ = k₃ := Step.next.inj (hq.symm.trans hq')
      cases hs : iterate k₁ x with
      | halt y =>
        rw [feed_cons_halt _ hs] at hrest
        cases hrest
      | next k₃ =>
        refine ⟨readsOn_next hs, ?_, fun hflag => ?_, hfit⟩
        · rintro rfl
          exact iterate_eof k₁ k₃ hs
        · refine hsec.first_blank heol (p := []) not_endsBlank_nil (u := q ++ [x]) (v := r ++ [d]) ?_ (by simp) hflag.2
          rw [hsplit, List.append_assoc]
          rfl
  · intro hpasses
    refine ⟨?_, hpasses.imp fun p k c hc => hc.2.2.2⟩
    have hpast : PastRequestLine [0, 10, 0] := by decide
    cases hf : feed iterate k (sec ++ eol) with
    | next k' =>
      -- the LF of the empty line would have been taken in `h_head_flag`
      obtain ⟨t, rfl, -⟩ := lineEnd_last heol
      rw [← List.append_assoc] at hf
      obtain ⟨k₁, hp, hs⟩ := feed_snoc_next hf
      obtain ⟨hr, hb⟩ := feed_between_from hk h hp
      obtain ⟨-, hc, hflag, -⟩ := hpasses (sec ++ t) 10 [] k₁ (List.append_assoc ..).symm hp
      have hi := iterate_between hr hb hc
      rw [hs] at hi
      have hblank : ∀ p, EndsBlank (p ++ (sec ++ t ++ [10])) := by
        intro p
        rw [List.append_assoc]
        exact hsec.ends_blank hne heol
      refine absurd ⟨hi.2 ?_ ?_, hblank []⟩ hflag
      · rw [List.append_assoc]
        exact hblank _
      · rw [List.append_assoc]
        exact hpast.append _
    | halt x =>
      obtain ⟨r, rest⟩ := x
      obtain ⟨p, c, k₁, hw, hp, hs⟩ := feed_halt hf
      obtain ⟨hr, hb⟩ := feed_between_from hk h hp
      obtain ⟨hreads, hc, -⟩ := hpasses p c rest k₁ hw hp
      obtain ⟨k', rfl⟩ := readsOn_halt hreads hs
      have hi := iterate_between hr hb hc
      rw [hs] at hi
      -- what ends there is the first empty line
      obtain rfl : rest = [] := by
        by_contra hrest
        refine hsec.first_blank heol (p := [0, 10, 0]) (by decide) (u := p ++ [c]) (v := rest) ?_ hrest ?_
        · rw [hw, List.append_assoc]
          rfl
        · rw [← List.append_assoc]
          exact hi k' rfl
      exact ⟨k', rfl⟩

end

theorem trailers_end_iff {sec eol next : List Byte} {s : HttpdResponse} {n size : Nat}
    (hsec : NonblankLines (chars sec)) (hne : sec ≠ []) (heol : chars eol ∈ lineEnds) :
    (∃ k, feed iterate (trailerFrame s n) (chars (sec ++ eol ++ next)) = .halt (.ok k, chars next) ∧
        RetainsBelow size (trailerFrame s n) (sec ++ eol ++ next)) ↔
      EachStep iterate (PassesTrailer size) (trailerFrame s n) (chars (sec ++ eol)) := by
  have hends := section_ends_iff size (k := trailerFrame s n) rfl trailerFrame_between hsec
    (fun h => hne (chars_inj h)) heol
  rw [← chars_append] at hends
  rw [← hends]
  constructor
  · rintro ⟨k, hk, hheld⟩
    have hsteps := (eachStep_bytes hk).mpr hheld
    rw [chars_append] at hk hsteps
    exact ⟨⟨k, feed_append_halt_iff.mp hk⟩, hsteps.left⟩
  · rintro ⟨⟨k, hk⟩, hsteps⟩
    have hsteps := hsteps.of_halt hk (chars next)
    have hk := feed_append_halt (chars next) hk
    rw [← chars_append] at hk hsteps
    exact ⟨k, hk, (eachStep_bytes hk).mp hsteps⟩

/-- With `stream` on the descriptor the counts are smaller than the ring, and no index of it will wrap around. -/
structure ReadsWithin (counts : List Uint) (stream : List Byte) (s : HttpdResponse) : Prop where
  counts : ∀ c ∈ counts, c.toNat < s.state.input.size
  noWrap : s.state.input.read.toNat + (s.state.input.contents ++ stream).length + s.state.input.size ≤ 2 ^ 32

end MinuteHttp
