import MinuteHttp.Lib.Framing
import MinuteHttp.Libhttpd.Bodyless
import MinuteHttp.Libhttpd.Body
import MinuteHttp.Libhttpd.ChunkLine

/-!
# Chunked bodies

Where every write is accepted, the out ring and the descriptor are an `Outbox` whose frames are the chunks
(`Carries`), so that what is sent of a response is a chunked body that says what the application has written.
The same holds of a body that is not chunked, whose frames are the blocks themselves, if something of every write is
accepted. That ends where the code leaves what it can do: an empty write copies from behind the block, and the number
of a chunk of `2 ^ 20` bytes does not fit `chunksz` (`Spoilt`). And a callback that returns non-zero gets the generic
page behind what it has written (`chunkedBody_iff`).
-/

namespace MinuteHttp

open Effect

/-! ## The chunks -/

theorem hexDigit_digitChar {d : Nat} (h : d < 16) : hexDigit (BitVec.ofNat 8 (Nat.digitChar d).toNat) = some d := by
  have hall : ∀ d : Fin 16, hexDigit (BitVec.ofNat 8 (Nat.digitChar d).toNat) = some d.val := by decide
  exact hall ⟨d, h⟩

theorem hexText_eq (n : Nat) : hexText n = (if n < 16 then [] else hexText (n / 16)) ++
    [BitVec.ofNat 8 (Nat.digitChar (n % 16)).toNat] := by
  unfold hexText
  rw [Nat.toDigits_eq_if (by decide)]
  split
  · rename_i hlt
    rw [Nat.mod_eq_of_lt hlt]
    rfl
  · rw [List.map_append]
    rfl

theorem hexText_digits (n : Nat) : (∀ c ∈ hexText n, isHex c = true) ∧ hexValue 0 (hexText n) = n := by
  induction n using Nat.strongRecOn with
  | ind n ih =>
    have hlast := hexDigit_digitChar (Nat.mod_lt n (by decide : 0 < 16))
    have hisHex : isHex (BitVec.ofNat 8 (Nat.digitChar (n % 16)).toNat) = true := by
      rw [isHex, hlast]
      rfl
    rw [hexText_eq]
    by_cases hlt : n < 16
    · rw [if_pos hlt, List.nil_append, hexValue_cons, hexValue_nil, hlast]
      refine ⟨fun c hc => ?_, ?_⟩
      · rw [List.mem_singleton.mp hc]
        exact hisHex
      · show 16 * 0 + n % 16 = n
        omega
    · obtain ⟨hhex, hvalue⟩ := ih (n / 16) (by omega)
      rw [if_neg hlt]
      refine ⟨fun c hc => ?_, ?_⟩
      · obtain hc | hc := List.mem_append.mp hc
        · exact hhex c hc
        · rw [List.mem_singleton.mp hc]
          exact hisHex
      · unfold hexValue at hvalue ⊢
        rw [List.foldl_append, hvalue, List.foldl_cons, List.foldl_nil, hlast]
        show 16 * (n / 16) + n % 16 = n
        omega

theorem cr_not_mem_hexText (n : Nat) : 13 ∉ hexText n := by
  intro hmem
  have hhex := (hexText_digits n).1 13 hmem
  exact absurd hhex (by decide)

theorem hexText_inj {m n : Nat} {x y : List Byte} (h : hexText m ++ 13 :: x = hexText n ++ 13 :: y) : m = n ∧ x = y := by
  have hsplit := congrArg (fun l => (l.takeWhile (· ≠ 13), l.dropWhile (· ≠ 13))) h
  have hcut (k : Nat) (z : List Byte) : ((hexText k ++ 13 :: z).takeWhile (· ≠ 13), (hexText k ++ 13 :: z).dropWhile (· ≠ 13)) =
      (hexText k, 13 :: z) := by
    have hnot : ∀ c ∈ hexText k, decide (c ≠ 13) = true := by
      intro c hc
      rw [decide_eq_true_iff]
      rintro rfl
      exact cr_not_mem_hexText k hc
    rw [List.takeWhile_append_of_pos hnot, List.dropWhile_append_of_pos hnot]
    simp
  rw [hcut, hcut] at hsplit
  obtain ⟨hnum, hrest⟩ := Prod.mk.inj hsplit
  refine ⟨?_, (List.cons.inj hrest).2⟩
  rw [← (hexText_digits m).2, hnum, (hexText_digits n).2]

/-- A chunk of the transfer coding; the last one is that of nothing. -/
def chunkFraming : Framing Byte where
  head n := hexText n ++ crlf
  tail := crlf
  head_inj {m n x y} h := by
    simp only [List.append_assoc] at h
    obtain ⟨hnum, hrest⟩ := hexText_inj (x := 10 :: x) (y := 10 :: y) h
    exact ⟨hnum, (List.cons.inj hrest).2⟩

theorem chunkFraming_end : chunkFraming.frame [] = bytes "0\r\n\r\n" := by decide +kernel

/-- A number of six digits: CR comes through, and a NUL for LF. -/
theorem chunkSizeLine_cut {n : Nat} (hge : 2 ^ 20 ≤ n) (hlt : n < 2 ^ 24) :
    chunkSizeLine n = some (hexText n ++ [13, 0]) := by
  have h5 := length_hexText_le_iff n (k := 5) (by decide)
  have h6 := length_hexText_le_iff n (k := 6) (by decide)
  have hlen : (hexText n ++ crlf).length = (hexText n).length + 2 := by
    rw [List.length_append, length_crlf]
  have hsix : (hexText n).length = 6 := by
    have := h6.mpr hlt
    have := mt h5.mp (Nat.not_lt_of_le hge)
    omega
  have htake : (hexText n ++ crlf).take 7 = hexText n ++ [13] := by
    rw [List.take_append, hsix, List.take_of_length_le (by omega)]
    rfl
  unfold chunkSizeLine
  dsimp only
  rw [if_neg (by omega), if_pos (by omega), htake, List.append_assoc]
  rfl

/-! ## Calls -/

/-- The bytes of a call. -/
def OutCall.data : OutCall → List Byte
  | write buf => buf
  | flush => []

/-- What a call is to do, with a ring of `cap` bytes. -/
def OutCall.gather (cap : Nat) : OutCall → Outbox Byte → Outbox Byte
  | write buf, b => b.write cap buf
  | flush, b => b.emit []

theorem OutCall.all_gather (cap : Nat) (c : OutCall) (b : Outbox Byte) : (c.gather cap b).all = b.all ++ c.data := by
  cases c with
  | write buf => exact b.all_write cap buf
  | flush => exact b.all_emit []

def gatherAll (cap : Nat) (calls : List OutCall) (b : Outbox Byte) : Outbox Byte :=
  calls.foldl (fun b c => c.gather cap b) b

/-- The concatenation of the buffers written. -/
def written (calls : List OutCall) : List Byte := calls.flatMap OutCall.data

theorem all_gatherAll (cap : Nat) (calls : List OutCall) (b : Outbox Byte) :
    (gatherAll cap calls b).all = b.all ++ written calls := by
  induction calls generalizing b with
  | nil => exact (List.append_nil _).symm
  | cons c calls ih =>
    show (gatherAll cap calls (c.gather cap b)).all = b.all ++ (c.data ++ written calls)
    rw [ih, c.all_gather, List.append_assoc]

/-- What can be sent at once: a chunk of at most five digits, or a block whose length is an `int`. -/
def sendLimit (chunked : Bool) : Nat := if chunked then 2 ^ 20 else 2 ^ 31

/-- Up to this many bytes what does not fit is told from what was written. -/
def bodyLimit (chunked : Bool) : Nat := if chunked then 2 ^ 32 else 2 ^ 31

/-- What is sent is within the limit, and the indices of the ring do not wrap around within what is held. -/
def ChunkFits (chunked : Bool) (b : Outbox Byte) (buf : List Byte) : Prop :=
  (b.held ++ buf).length < sendLimit chunked ∧ (b.held = [] ∨ b.passed % 2 ^ 32 + b.held.length < 2 ^ 32)

instance decidableChunkFits (chunked : Bool) (b : Outbox Byte) (buf : List Byte) : Decidable (ChunkFits chunked b buf) :=
  inferInstanceAs (Decidable (_ ∧ _))

/-- Something is written, and what is sent fits. -/
def OutCall.Fits (chunked : Bool) (cap : Nat) : OutCall → Outbox Byte → Prop
  | write buf, b => buf ≠ [] ∧ (cap < b.held.length + buf.length → ChunkFits chunked b buf)
  | flush, b => ChunkFits chunked b []

def CallsFit (chunked : Bool) (cap : Nat) : List OutCall → Outbox Byte → Prop
  | [], _ => True
  | c :: calls, b => c.Fits chunked cap b ∧ CallsFit chunked cap calls (c.gather cap b)

instance decidableFits (chunked : Bool) (cap : Nat) (c : OutCall) (b : Outbox Byte) : Decidable (c.Fits chunked cap b) :=
  match c with
  | .write buf =>
    inferInstanceAs (Decidable (buf ≠ [] ∧ (cap < b.held.length + buf.length → ChunkFits chunked b buf)))
  | .flush => decidableChunkFits chunked b []

instance decidableCallsFit (chunked : Bool) (cap : Nat) :
    (calls : List OutCall) → (b : Outbox Byte) → Decidable (CallsFit chunked cap calls b)
  | [], _ => .isTrue trivial
  | c :: calls, b =>
    have := decidableCallsFit chunked cap calls (c.gather cap b)
    inferInstanceAs (Decidable (c.Fits chunked cap b ∧ CallsFit chunked cap calls (c.gather cap b)))

/-! ## The ring and the descriptor -/

/-- The chunks as they are sent. -/
def onWire (chunked : Bool) (chunks : List (List Byte)) : List Byte :=
  if chunked then chunks.flatMap chunkFraming.frame else chunks.flatten

/-- Every write is accepted, wholly if the body is chunked. -/
def Outfd.Delivers (chunked : Bool) (fd : Outfd) : Prop := if chunked then fd.Willing else fd.Steady

/-- What has been sent since `base`, and what the ring of `cap` bytes holds, is `b`. -/
structure Carries (chunked : Bool) (base : List Byte) (cap : Nat) (b : Outbox Byte) (s : HttpdResponse) : Prop where
  ring : s.OutValid
  size : s.state.output.size = cap
  contents : s.state.output.contents = b.held
  read : s.state.output.read.toNat = b.passed % 2 ^ 32
  te : s.teChunked = chunked
  delivers : s.state.outfd.Delivers chunked
  sent : s.state.outfd.sent = base ++ onWire chunked b.chunks

/-- Behind whole chunks there is something that does not begin with a size line. -/
def Spoilt (chunked : Bool) (base : List Byte) (s : HttpdResponse) : Prop :=
  chunked = true ∧ ∃ (chunks : List (List Byte)) (bad : List Byte), [] ∉ chunks ∧
    s.state.outfd.sent = base ++ (chunks.flatMap chunkFraming.frame ++ bad) ∧
    ∀ more n x, bad ++ more ≠ chunkFraming.head n ++ x

theorem spoilt_stable (chunked : Bool) (base : List Byte) : Stable (Spoilt chunked base) := by
  rintro s s' hgrows ⟨hchunked, chunks, bad, hne, hsent, hbad⟩
  obtain ⟨more, hmore⟩ := hgrows.sent
  refine ⟨hchunked, chunks, bad ++ more, hne, ?_, fun more' n x => ?_⟩
  · rw [← hmore, hsent]
    simp only [List.append_assoc]
  · rw [List.append_assoc]
    exact hbad _ n x

/-- `bs` is the body `data`, chunked or as it is. -/
def IsBody (chunked : Bool) (data bs : List Byte) : Prop := if chunked then chunkFraming.Body data bs else data = bs

theorem Spoilt.not_body {chunked : Bool} {base data : List Byte} {s : HttpdResponse} (h : Spoilt chunked base s) :
    ¬IsBody chunked data (s.state.outfd.sent.drop base.length) := by
  obtain ⟨rfl, chunks, bad, hne, hsent, hbad⟩ := h
  rw [hsent, List.drop_left]
  intro hbody
  have hbody : chunkFraming.Body data _ := hbody
  obtain ⟨more, -, hrest⟩ := (Framing.body_append_iff hne).mp hbody
  obtain ⟨n, x, hx⟩ := hrest.head
  exact hbad [] n x (by rw [List.append_nil, hx])

section

variable {chunked : Bool} {base buf : List Byte} {cap : Nat} {b : Outbox Byte} {s : HttpdResponse}

theorem sendLimit_le (chunked : Bool) : sendLimit chunked ≤ 2 ^ 31 := by cases chunked <;> decide

theorem bodyLimit_le (chunked : Bool) : bodyLimit chunked ≤ 2 ^ 32 := by cases chunked <;> decide

theorem onWire_emit (chunked : Bool) (hne : b.held ++ buf ≠ []) :
    onWire chunked (b.emit buf).chunks =
      onWire chunked b.chunks ++ if chunked then chunkFraming.frame (b.held ++ buf) else b.held ++ buf := by
  cases chunked with
  | true => exact b.chunks_emit chunkFraming buf hne
  | false =>
    have hall := b.all_emit buf
    rw [Outbox.all, b.held_emit, List.append_nil, Outbox.all, List.append_assoc] at hall
    exact hall

theorem Outfd.Willing.steady {fd : Outfd} (h : fd.Willing) : fd.Steady := by
  refine ⟨h.1, fun cut hcut => ?_⟩
  rw [h.2] at hcut
  exact absurd hcut List.not_mem_nil

theorem Outfd.Willing.accepts {fd : Outfd} (h : fd.Willing) (len : Nat) : fd.accepts len = len := by
  unfold Outfd.accepts
  rw [h.2]

theorem Outfd.Delivers.steady {fd : Outfd} (h : fd.Delivers chunked) : fd.Steady := by
  cases chunked with
  | true => exact Outfd.Willing.steady h
  | false => exact h

namespace Carries

section

variable (h : Carries chunked base cap b s)
include h

theorem used : s.state.output.used = b.held.length := by rw [← Iobuf.length_contents, h.contents]

theorem length_data (buf : List Byte) : s.state.output.used + buf.length = (b.held ++ buf).length := by
  rw [h.used, List.length_append]

theorem writable (hwrap : b.held = [] ∨ b.passed % 2 ^ 32 + b.held.length < 2 ^ 32) : s.state.Writable := by
  refine ⟨h.ring, ?_, h.delivers.steady⟩
  have hwrite := congrArg BitVec.toNat s.state.output.write_eq
  have hused : (minuteIobufUsed s.state.output).toNat = b.held.length := h.used
  have hlt := s.state.output.read.isLt
  have hread := h.read
  rw [BitVec.toNat_add, hused] at hwrite
  have hsmall : s.state.output.read.toNat + b.held.length < 2 ^ 32 := by
    obtain hnil | hle := hwrap
    · rw [hnil]
      exact hlt
    · omega
  omega

end

/-- **All segments are accepted.** -/
theorem chunk_sent (h : Carries true base cap b s) {Q : Int → HttpdResponse → Prop}
    (hwrap : b.held = [] ∨ b.passed % 2 ^ 32 + b.held.length < 2 ^ 32)
    (hne : b.held ++ buf ≠ []) (hlt : (b.held ++ buf).length < 2 ^ 24) {line : List Byte}
    (hline : chunkSizeLine (b.held ++ buf).length = some line)
    (hQ : ∀ r s', s'.state.outfd = { s.state.outfd with sent := s.state.outfd.sent ++ (line ++ b.held ++ buf ++ crlf) } →
      s' = { s with state.outfd := s'.state.outfd, state.output := s.state.output.take b.held.length } → Q r s') :
    Meets (fun _ => False) Q (minuteHttpdChunk buf true) s := by
  have hlen := h.length_data buf
  have hpos := List.length_pos_iff.mpr hne
  have hline8 := length_chunkSizeLine hline
  have hsegs := length_segments line s.state.output buf true
  have htext : segments line s.state.output buf true = line ++ b.held ++ buf ++ crlf := by
    rw [segments, h.contents, if_pos rfl]
  have hwilling : s.state.outfd.Willing := h.delivers
  rw [if_pos rfl] at hsegs
  rw [meets_congr (minuteHttpdChunk_eq (by omega) true)]
  refine (chunkLoop_step ((h.writable hwrap).ready 1) (by omega) (by rw [hlen]; exact hline) (by omega)
    (hwilling.accepts _).symm).mpr ?_
  rw [if_neg (by omega), if_neg (by omega), Nat.min_eq_right (by omega), h.used]
  refine hQ _ _ ?_ rfl
  show s.state.outfd.wrote _ = _
  rw [Outfd.wrote, hwilling.accepts, List.take_length, htext, hwilling.2]
  show Outfd.mk _ [] _ = Outfd.mk _ s.state.outfd.cuts _
  rw [hwilling.2]

/-- The ring has been emptied, and the descriptor has all that it held and `buf`. -/
theorem emitted (h : Carries chunked base cap b s) (hne : b.held ++ buf ≠ []) {s' : HttpdResponse}
    (houtput : s'.state.output = s.state.output.take b.held.length) (hchunked : s'.teChunked = s.teChunked)
    (hdelivers : s'.state.outfd.Delivers chunked)
    (hsent : s'.state.outfd.sent = s.state.outfd.sent ++
      if chunked then chunkFraming.frame (b.held ++ buf) else b.held ++ buf) :
    Carries chunked base cap (b.emit buf) s' := by
  have hused : b.held.length ≤ s.state.output.used := Nat.le_of_eq h.used.symm
  refine ⟨?_, ?_, ?_, ?_, hchunked.trans h.te, hdelivers, ?_⟩
  · rw [HttpdResponse.OutValid, houtput]
    exact Iobuf.valid_take h.ring hused
  · rw [houtput]
    exact h.size
  · rw [houtput, b.held_emit, Iobuf.contents_take h.ring.size hused, h.contents, List.drop_length]
  · rw [houtput, b.passed_emit]
    show (s.state.output.read + BitVec.ofNat 32 b.held.length).toNat = _
    rw [BitVec.toNat_add, BitVec.toNat_ofNat, h.read]
    omega
  · rw [hsent, h.sent, onWire_emit chunked hne, List.append_assoc]

/-- **What fits** is sent as one chunk. -/
theorem chunk (h : Carries chunked base cap b s) (hfits : ChunkFits chunked b buf) :
    Meets (fun _ => False) (fun _ => Carries chunked base cap (b.emit buf)) (minuteHttpdChunk buf chunked) s := by
  obtain ⟨hlt, hwrap⟩ := hfits
  have hlen := h.length_data buf
  have hle := sendLimit_le chunked
  by_cases hne : b.held ++ buf = []
  · rw [hne, List.length_nil] at hlen
    rw [meets_congr (minuteHttpdChunk_eq (by omega) chunked), chunkLoop_zero hlen, Outbox.emit, dif_pos hne]
    exact h
  · cases chunked with
    | false =>
      rw [meets_congr (minuteHttpdChunk_eq (by omega) false)]
      refine (chunkLoop_plain _ buf ((h.writable hwrap).ready _) (by omega) (by omega)).imp fun _ s' hs' => ?_
      obtain ⟨-, hall⟩ := hs'
      refine h.emitted hne ?_ ?_ (hall.writable (h.writable hwrap)).outfd ?_
      · rw [hall.output, h.used]
      · rw [hall.rest]
        rfl
      · rw [hall.sent, h.contents]
        rfl
    | true =>
      have hlt : (b.held ++ buf).length < 2 ^ 20 := hlt
      have hline : chunkSizeLine (b.held ++ buf).length = some (hexText (b.held ++ buf).length ++ crlf) := by
        obtain ⟨-, hline⟩ | ⟨hge, -⟩ | ⟨hge, -⟩ := chunkSizeLine_cases (b.held ++ buf).length
        · exact hline
        · omega
        · omega
      refine h.chunk_sent hwrap hne (by omega) hline fun r s' hfd hs' => ?_
      have hframe : hexText (b.held ++ buf).length ++ crlf ++ b.held ++ buf ++ crlf =
          chunkFraming.frame (b.held ++ buf) := by
        rw [Framing.frame, List.append_assoc _ b.held buf]
        rfl
      refine h.emitted hne ?_ ?_ ?_ ?_
      · rw [hs']
      · rw [hs']
        rfl
      · rw [hfd]
        exact h.delivers
      · rw [hfd, if_pos rfl, ← hframe]

/-- **What does not fit** spoils the body, or the run ends. -/
theorem chunk_spoilt (h : Carries chunked base cap b s) (hnot : ¬ChunkFits chunked b buf)
    (hsmall : b.passed + b.held.length + buf.length < bodyLimit chunked) :
    Meets (fun _ => True) (fun _ => Spoilt chunked base) (minuteHttpdChunk buf chunked) s := by
  have hlen := h.length_data buf
  have hsum : (b.held ++ buf).length = b.held.length + buf.length := List.length_append
  cases chunked with
  | false =>
    have hsmall : b.passed + b.held.length + buf.length < 2 ^ 31 := hsmall
    exact absurd ⟨show _ < 2 ^ 31 by omega, .inr (by omega)⟩ hnot
  | true =>
    have hsmall : b.passed + b.held.length + buf.length < 2 ^ 32 := hsmall
    have hge : 2 ^ 20 ≤ (b.held ++ buf).length := by
      by_contra hlt
      exact hnot ⟨show _ < 2 ^ 20 by omega, .inr (by omega)⟩
    by_cases hseven : 2 ^ 24 ≤ (b.held ++ buf).length
    · rw [meets_congr (minuteHttpdChunk_eq (by omega) true), meets_error (chunkLoop_tooLong (by omega) (by omega) _)]
      trivial
    · have hne : b.held ++ buf ≠ [] := by
        intro hnil
        rw [hnil, List.length_nil] at hge
        omega
      refine (h.chunk_sent (.inr (by omega)) hne (by omega) (chunkSizeLine_cut hge (by omega)) (fun r s' hfd hs' =>
        (?_ : Spoilt true base s'))).imp_error fun _ _ => trivial
      refine ⟨rfl, b.chunks, hexText (b.held ++ buf).length ++ [13, 0] ++ b.held ++ buf ++ crlf, b.nil_not_mem, ?_,
        fun more n x heq => ?_⟩
      · have hsent : s.state.outfd.sent = base ++ b.chunks.flatMap chunkFraming.frame := h.sent
        rw [hfd]
        show s.state.outfd.sent ++ _ = _
        rw [hsent, List.append_assoc]
      · -- the byte behind CR is a NUL
        have hhead : chunkFraming.head n ++ x = hexText n ++ 13 :: 10 :: x := List.append_assoc _ _ _
        rw [hhead] at heq
        simp only [List.append_assoc] at heq
        have hrest := (hexText_inj (x := 0 :: (b.held ++ (buf ++ (crlf ++ more)))) heq).2
        exact absurd (List.cons.inj hrest).1 (by decide)

section

variable (h : Carries chunked base cap b s)
include h

theorem hold (hroom : b.held.length + buf.length ≤ cap) :
    Carries chunked base cap (b.hold buf) { s with state.output := s.state.output.append buf } := by
  have hfit : s.state.output.used + buf.length ≤ s.state.output.size := by
    rw [h.used, h.size]
    exact hroom
  refine ⟨Iobuf.valid_append h.ring.size hfit, h.size, ?_, h.read, h.te, h.delivers, h.sent⟩
  show (s.state.output.append buf).contents = b.held ++ buf
  rw [Iobuf.contents_append h.ring.size hfit, h.contents]

/-- The ring has room for a block if it has it in 32 bits. -/
theorem free_lt_iff {buf : List Byte} (hlen : buf.length < 2 ^ 32) :
    minuteIobufFree s.state.output < BitVec.ofNat 32 buf.length ↔ cap < b.held.length + buf.length := by
  have hfree := h.ring.size.free_eq h.ring.used_le
  have hle := h.ring.used_le
  rw [h.size, h.used] at hfree hle
  rw [BitVec.lt_def, hfree, BitVec.toNat_ofNat]
  omega

theorem output (hne : buf ≠ []) (hfits : cap < b.held.length + buf.length → ChunkFits chunked b buf) :
    Meets (fun _ => False) (fun _ => Carries chunked base cap (b.write cap buf)) (minuteHttpdOutput buf chunked) s := by
  have hle := sendLimit_le chunked
  have hcap := h.ring.size.le
  rw [h.size] at hcap
  simp only [minuteHttpdOutput, meets_bind, meets_get]
  by_cases hroom : cap < b.held.length + buf.length
  · have hlt := (hfits hroom).1
    rw [List.length_append] at hlt
    rw [if_pos ((h.free_lt_iff (by omega)).mpr hroom), meets_bind, Outbox.write, if_pos hroom]
    exact (h.chunk (hfits hroom)).imp fun _ _ hs => (meets_pure _).mpr hs
  · have hfit : s.state.output.used + buf.length ≤ s.state.output.size := by
      rw [h.used, h.size]
      omega
    have hlt := h.free_lt_iff (show buf.length < 2 ^ 32 by omega)
    rw [if_neg (mt hlt.mp hroom), minuteIobufWrite_fits h.ring hne hfit, Outbox.write, if_neg hroom]
    rw [orStop, pure_bind]
    exact (meets_set _).mpr (h.hold (Nat.le_of_not_lt hroom))

theorem output_spoilt (hnot : ¬(buf ≠ [] ∧ (cap < b.held.length + buf.length → ChunkFits chunked b buf)))
    (hsmall : b.passed + b.held.length + buf.length < bodyLimit chunked) :
    Meets (fun _ => True) (fun _ => Spoilt chunked base) (minuteHttpdOutput buf chunked) s := by
  have hlimit := bodyLimit_le chunked
  simp only [minuteHttpdOutput, meets_bind, meets_get]
  have hlt := h.free_lt_iff (show buf.length < 2 ^ 32 by omega)
  by_cases hne : buf = []
  · have hle := h.ring.used_le
    rw [h.size, h.used] at hle
    rw [if_neg (mt hlt.mp (by rw [hne, List.length_nil]; omega)), hne, minuteIobufWrite_nil h.ring]
    exact (meets_bind _ _).mpr ((meets_throw _).mpr trivial)
  · obtain ⟨hroom, hnofit⟩ := Classical.not_imp.mp fun hfits => hnot ⟨hne, hfits⟩
    rw [if_pos (hlt.mpr hroom), meets_bind]
    exact (h.chunk_spoilt hnofit hsmall).imp fun _ _ hs => (meets_pure _).mpr hs

theorem noted (history : History) : Carries chunked base cap b { s with history } :=
  ⟨h.ring, h.size, h.contents, h.read, h.te, h.delivers, h.sent⟩

theorem flush (hfits : ChunkFits chunked b []) :
    Meets (fun _ => False) (fun _ => Carries chunked base cap (b.emit [])) minuteHttpdFlush s := by
  simp only [minuteHttpdFlush, meets_bind, meets_get, h.te]
  exact (h.chunk hfits).imp fun _ _ hs => (meets_pure _).mpr hs

theorem flush_spoilt (hnot : ¬ChunkFits chunked b [])
    (hsmall : b.passed + b.held.length < bodyLimit chunked) :
    Meets (fun _ => True) (fun _ => Spoilt chunked base) minuteHttpdFlush s := by
  simp only [minuteHttpdFlush, meets_bind, meets_get, h.te]
  exact (h.chunk_spoilt hnot hsmall).imp fun _ _ hs => (meets_pure _).mpr hs

/-- **A call that fits.** -/
theorem call {c : OutCall} (hfits : c.Fits chunked cap b) :
    Meets (fun _ => False) (fun _ => Carries chunked base cap (c.gather cap b)) c.serve s := by
  unfold OutCall.serve
  rw [meets_bind, meets_modify]
  have hnoted := h.noted { s.history with calls := s.history.calls ++ [c] }
  cases c with
  | write buf =>
    simp only [minuteHttpdWrite, meets_bind, meets_get, hnoted.te]
    exact hnoted.output hfits.1 hfits.2
  | flush => exact hnoted.flush hfits

/-- **A call that does not.** -/
theorem call_spoilt {c : OutCall} (hnot : ¬c.Fits chunked cap b)
    (hsmall : b.passed + b.held.length + c.data.length < bodyLimit chunked) :
    Meets (fun _ => True) (fun _ => Spoilt chunked base) c.serve s := by
  unfold OutCall.serve
  rw [meets_bind, meets_modify]
  have hnoted := h.noted { s.history with calls := s.history.calls ++ [c] }
  cases c with
  | write buf =>
    simp only [minuteHttpdWrite, meets_bind, meets_get, hnoted.te]
    exact hnoted.output_spoilt hnot hsmall
  | flush => exact hnoted.flush_spoilt hnot hsmall

theorem of_writing {s' : HttpdResponse} (hsame : s'.writing = s.writing) : Carries chunked base cap b s' := by
  simp only [HttpdResponse.writing, Prod.mk.injEq] at hsame
  obtain ⟨hout, hfd, -, -, hflags⟩ := hsame
  refine ⟨?_, ?_, ?_, ?_, ?_, ?_, ?_⟩
  · rw [HttpdResponse.OutValid, hout]
    exact h.ring
  · rw [hout]
    exact h.size
  · rw [hout]
    exact h.contents
  · rw [hout]
    exact h.read
  · rw [HttpdResponse.teChunked, hflags]
    exact h.te
  · rw [hfd]
    exact h.delivers
  · rw [hfd]
    exact h.sent

end

end Carries

theorem gather_passed_le (c : OutCall) :
    (c.gather cap b).passed + (c.gather cap b).held.length ≤ b.passed + b.held.length + c.data.length := by
  have hemit (buf : List Byte) : (b.emit buf).passed + (b.emit buf).held.length = b.passed + b.held.length := by
    rw [b.passed_emit, b.held_emit]
    rfl
  cases c with
  | write buf =>
    show (b.write cap buf).passed + (b.write cap buf).held.length ≤ _ + _ + buf.length
    unfold Outbox.write
    split
    · rw [hemit]
      omega
    · show b.passed + (b.held ++ buf).length ≤ _
      rw [List.length_append]
      omega
  | flush => exact Nat.le_of_eq (hemit [])

theorem gatherAll_passed_le (calls : List OutCall) :
    (gatherAll cap calls b).passed + (gatherAll cap calls b).held.length ≤
      b.passed + b.held.length + (written calls).length := by
  induction calls generalizing b with
  | nil => exact Nat.le_refl _
  | cons c calls ih =>
    have hone := @gather_passed_le cap b c
    have hrest := @ih (c.gather cap b)
    show (gatherAll cap calls (c.gather cap b)).passed + (gatherAll cap calls (c.gather cap b)).held.length ≤
      _ + (c.data ++ written calls).length
    rw [List.length_append]
    omega

end

/-! ## The callback -/

/-- A call of the callback `response` of which nothing is carried out but what it reads. -/
def ResponseCall.note : (c : ResponseCall) → Httpd c.Answer
  | .out call => modify fun resp => { resp with history.calls := resp.history.calls ++ [call] }
  | .read count => minuteHttpdInRead true count

section

variable {α : Type} {chunked : Bool} {base : List Byte} {cap : Nat} {b : Outbox Byte} {s t t' : HttpdResponse} {a : α}

theorem note_calls (p : Prog ResponseCall ResponseCall.Answer α) (hrun : p.run ResponseCall.note t = .ok (a, t')) :
    ∃ calls, t'.history.calls = t.history.calls ++ calls := by
  have hkeeps (c : ResponseCall) : Keeps (fun s => t.history.calls <+: s.history.calls) c.note := by
    cases c with
    | out call => exact keeps_modify fun s hs => hs.trans (List.prefix_append _ _)
    | read count =>
      have hleaves : Leaves (fun resp => resp.history.calls) (minuteHttpdInRead true count) :=
        (minuteHttpdInRead_writing true count).comp fun x => x.2.2.2.1
      exact hleaves.keeps fun calls => t.history.calls <+: calls
  obtain ⟨calls, hcalls⟩ := meets_iff.mp (Prog.run_keeps hkeeps p t (List.prefix_refl _)) _ _ hrun
  exact ⟨calls, hcalls.symm⟩

/-- **The callback**: what is served goes along with what is noted, as long as the calls fit. -/
theorem callback_carries (p : Prog ResponseCall ResponseCall.Answer α) (h : Carries chunked base cap b s)
    (hside : t.reading = s.reading) (hrun : p.run ResponseCall.note t = .ok (a, t')) :
    ∃ calls, t'.history.calls = t.history.calls ++ calls ∧
      (CallsFit chunked cap calls b → ∃ s', p.run ResponseCall.serve s = .ok (a, s') ∧ t'.reading = s'.reading ∧
        Carries chunked base cap (gatherAll cap calls b) s') ∧
      (¬CallsFit chunked cap calls b →
        b.passed + b.held.length + (written calls).length < bodyLimit chunked →
        Meets (fun _ => True) (fun _ => Spoilt chunked base) (p.run ResponseCall.serve) s) := by
  induction p generalizing b s t with
  | done a =>
    cases hrun
    exact ⟨[], (List.append_nil _).symm, fun _ => ⟨s, rfl, hside, h⟩, fun hnot => absurd trivial hnot⟩
  | call c k ih =>
    obtain ⟨x, t₁, hfirst, hrest⟩ := bind_eq_ok.mp hrun
    cases c with
    | out call =>
      have hside₁ : t₁.reading = s.reading := by
        cases hfirst
        exact hside
      have hcalls₁ : t₁.history.calls = t.history.calls ++ [call] := by
        cases hfirst
        rfl
      obtain ⟨calls, hcalls⟩ := note_calls _ hrest
      have hall : t'.history.calls = t.history.calls ++ (call :: calls) := by
        rw [hcalls, hcalls₁, List.append_assoc]
        rfl
      refine ⟨call :: calls, hall, ?_, ?_⟩
      · rintro ⟨hfits, hmore⟩
        obtain ⟨⟨⟩, s₁, hs₁, h₁⟩ := (h.call hfits).exists_ok
        have hreading := meets_iff.mp (outCall_reading call s) _ _ hs₁
        obtain ⟨calls', hcalls', hgoes, -⟩ := ih ⟨⟩ h₁ (hside₁.trans hreading.symm) hrest
        obtain rfl : calls = calls' := List.append_cancel_left (hcalls.symm.trans hcalls')
        obtain ⟨s', hs', hside', h'⟩ := hgoes hmore
        exact ⟨s', (bind_of_ok hs₁).trans hs', hside', h'⟩
      · intro hnot hsmall
        have hlen : (written (call :: calls)).length = call.data.length + (written calls).length := List.length_append
        by_cases hfits : call.Fits chunked cap b
        · obtain ⟨⟨⟩, s₁, hs₁, h₁⟩ := (h.call hfits).exists_ok
          have hreading := meets_iff.mp (outCall_reading call s) _ _ hs₁
          obtain ⟨calls', hcalls', -, hgoes⟩ := ih ⟨⟩ h₁ (hside₁.trans hreading.symm) hrest
          obtain rfl : calls = calls' := List.append_cancel_left (hcalls.symm.trans hcalls')
          have hle := @gather_passed_le cap b call
          have hserve : (Prog.call (ResponseCall.out call) k).run ResponseCall.serve s = (k ⟨⟩).run ResponseCall.serve s₁ :=
            bind_of_ok hs₁
          rw [meets_congr hserve]
          exact hgoes (fun hmore => hnot ⟨hfits, hmore⟩) (by omega)
        · exact (h.call_spoilt hfits (by omega)).bind fun _ s₁ h₁ =>
            Prog.run_keeps (responseCall_stable (spoilt_stable chunked base)) _ s₁ h₁
    | read count =>
      have hover := over_of_reading hside
      rw [hover] at hfirst
      obtain ⟨s₁, hs₁, ht₁⟩ := (minuteHttpdInRead_ignores t true count).of_ok hfirst
      have hwriting := meets_iff.mp (minuteHttpdInRead_writing true count s) _ _ hs₁
      obtain ⟨calls, hcalls, hgood, hbad⟩ := ih x (h.of_writing hwriting) (by rw [ht₁]; rfl) hrest
      have hserve : (Prog.call (ResponseCall.read count) k).run ResponseCall.serve s = (k x).run ResponseCall.serve s₁ :=
        bind_of_ok hs₁
      refine ⟨calls, ?_, ?_, ?_⟩
      · rw [hcalls, ht₁]
        rfl
      · rw [hserve]
        exact hgood
      · rw [meets_congr hserve]
        exact hbad

end

/-! ## The response -/

/-- The callback `response`, where it is called, as far as it reads. -/
def noteBody {υ : Type} (app : MinuteHttpdApp υ) (status : Int) (user : υ) : Httpd (Uint × υ) := do
  let resp ← get
  if hasBody resp.rq status then
    (app.response resp.rq resp.state.text (BitVec.ofInt 32 status) user).run ResponseCall.note
  else pure (0, user)

/-- The generic page goes in if the callback has returned non-zero and there is room for it. -/
def withPage (page : List Byte) (response : Uint) (cap : Nat) (b : Outbox Byte) : Outbox Byte :=
  if response ≠ 0 ∧ b.held.length + page.length ≤ cap then b.hold page else b

/-- Behind the header block. -/
def HttpdResponse.emptyOutbox (s : HttpdResponse) : Outbox Byte :=
  { held := [], chunks := [], passed := s.state.output.read.toNat, nil_not_mem := List.not_mem_nil }

/-- What is sent after `s₁` is a chunked body. It says what has been written, or it is the generic `page` of a
callback that returns non-zero without having written anything. -/
def ChunkedRight {υ : Type} (app : MinuteHttpdApp υ) (now : Nat) (user : υ) (state : HttpdState) (s₀ s₁ : HttpdResponse)
    (page : List Byte) (response : Uint) (calls : List OutCall) : Prop :=
  ∃ user' s₂ data, respond app now user s₀ = .ok (user', s₂) ∧
    chunkFraming.Body data (s₂.state.outfd.sent.drop s₁.state.outfd.sent.length) ∧
    (data = written calls ∨ response ≠ 0 ∧ ¬Wrote calls ∧ data = page) ∧
    ∀ r user'' resp, minuteHttpdHandle app now user state = .ok ((r, user''), resp) →
      resp.state.outfd.sent = s₂.state.outfd.sent

/-- No call writes nothing, all chunks have at most five digits, the indices of the ring do not wrap around within
what it holds, and behind what a callback has written there is no room for the page that it asks for. -/
structure WellWritten (s₁ : HttpdResponse) (page : List Byte) (response : Uint) (calls : List OutCall) : Prop where
  each : CallsFit true s₁.state.output.size calls s₁.emptyOutbox
  last : ChunkFits true (withPage page response s₁.state.output.size
    (gatherAll s₁.state.output.size calls s₁.emptyOutbox)) []
  page : response ≠ 0 → Wrote calls →
    s₁.state.output.size < (gatherAll s₁.state.output.size calls s₁.emptyOutbox).held.length + page.length

theorem written_eq_nil_of_not_wrote {calls : List OutCall} (h : ¬Wrote calls) : written calls = [] := by
  refine List.flatMap_eq_nil_iff.mpr fun c hc => ?_
  cases c with
  | write buf =>
    by_contra hne
    exact h ⟨buf, hc, hne⟩
  | flush => rfl

section

variable {chunked : Bool} {base : List Byte} {cap : Nat} {b : Outbox Byte} {s : HttpdResponse}

theorem minuteHttpdChunkEnd_sent (h : Carries chunked base cap b s) :
    Meets (fun _ => False) (fun _ s' => s'.state.outfd.sent =
      s.state.outfd.sent ++ if chunked then chunkFraming.frame [] else []) minuteHttpdChunkEnd s := by
  rw [minuteHttpdChunkEnd, meets_bind, meets_get]
  cases chunked with
  | false =>
    have hte : ¬s.teChunked = true := by
      rw [h.te]
      decide
    rw [onlyIf, if_neg hte]
    exact (meets_pure _).mpr (List.append_nil _).symm
  | true =>
    have hwilling : s.state.outfd.Willing := h.delivers
    rw [onlyIf, if_pos h.te, writeOutfd, meets_modify, hwilling.write, if_pos rfl, chunkFraming_end]
    rfl

theorem ended_body {s' : HttpdResponse} (h : Carries chunked base cap (b.emit []) s)
    (hend : s'.state.outfd.sent = s.state.outfd.sent ++ if chunked then chunkFraming.frame [] else [])
    (data : List Byte) : IsBody chunked data (s'.state.outfd.sent.drop base.length) ↔ data = b.all := by
  have hall : (b.emit []).chunks.flatten = b.all := by
    have hemit := b.all_emit []
    rw [Outbox.all, b.held_emit, List.append_nil, List.append_nil] at hemit
    exact hemit
  rw [hend, h.sent, List.append_assoc, List.drop_left]
  cases chunked with
  | false =>
    show data = (b.emit []).chunks.flatten ++ [] ↔ _
    rw [List.append_nil, hall]
  | true =>
    show chunkFraming.Body data ((b.emit []).chunks.flatMap chunkFraming.frame ++ chunkFraming.frame []) ↔ _
    rw [Framing.body_frames_iff (b.emit []).nil_not_mem, hall]

theorem withPage_passed_le (page : List Byte) (response : Uint) (cap : Nat) (b : Outbox Byte) :
    (withPage page response cap b).passed + (withPage page response cap b).held.length ≤
      b.passed + b.held.length + page.length := by
  unfold withPage
  split
  · show b.passed + (b.held ++ page).length ≤ _
    rw [List.length_append]
    omega
  · omega

theorem page_carries (h : Carries chunked base cap b s) (response status : Uint) :
    Meets (fun _ => False) (fun _ => Carries chunked base cap (withPage (standardBodyText status.toInt) response cap b))
      (onlyIf (response ≠ 0 ∧ s.state.output.write = s.state.output.write) (minuteHttpdStandardBody status.toInt)) s := by
  have hfits : GenericFits status.toInt s ↔ b.held.length + (standardBodyText status.toInt).length ≤ cap := by
    rw [GenericFits, h.used, h.size]
  rw [meets_onlyIf]
  constructor
  · rintro ⟨hresponse, -⟩
    refine (minuteHttpdStandardBody_spec h.ring status).imp fun _ s' hs' => ?_
    rw [hs', withPage]
    by_cases hroom : GenericFits status.toInt s
    · rw [if_pos hroom, if_pos ⟨hresponse, hfits.mp hroom⟩]
      exact h.hold (hfits.mp hroom)
    · rw [if_neg hroom, if_neg fun hc => hroom (hfits.mpr hc.2)]
      exact h
  · intro hzero
    rw [withPage, if_neg fun hc => hzero ⟨hc.1, rfl⟩]
    exact h

end

section

variable {υ : Type} {app : MinuteHttpdApp υ} {now : Nat} {user user₁ user₂ : υ} {status response : Uint}
  {chunked : Bool} {s₁ t : HttpdResponse}

/-- **The body**: what is written and the page are on their way. -/
theorem handleBody_carries (h : Carries chunked s₁.state.outfd.sent s₁.state.output.size s₁.emptyOutbox s₁)
    (hcallback : noteBody app status.toInt user₁ s₁ = .ok ((response, user₂), t)) :
    (CallsFit chunked s₁.state.output.size (callsSince s₁ t) s₁.emptyOutbox →
      Meets (fun _ => False) (fun _ => Carries chunked s₁.state.outfd.sent s₁.state.output.size
        (withPage (standardBodyText status.toInt) response s₁.state.output.size
          (gatherAll s₁.state.output.size (callsSince s₁ t) s₁.emptyOutbox))) (handleBody app status.toInt user₁) s₁) ∧
    (¬CallsFit chunked s₁.state.output.size (callsSince s₁ t) s₁.emptyOutbox →
      s₁.state.output.read.toNat + (written (callsSince s₁ t)).length < bodyLimit chunked →
      Meets (fun _ => True) (fun _ => Spoilt chunked s₁.state.outfd.sent) (handleBody app status.toInt user₁) s₁) := by
  by_cases hbody : hasBody s₁.rq status.toInt
  · have hnote : (app.response s₁.rq s₁.state.text status user₁).run ResponseCall.note s₁ = .ok ((response, user₂), t) := by
      rw [noteBody, get_bind] at hcallback
      rwa [if_pos hbody, BitVec.ofInt_toInt] at hcallback
    obtain ⟨calls, hcalls, hgood, hbad⟩ := callback_carries _ h rfl hnote
    have hsince : callsSince s₁ t = calls := by rw [callsSince, hcalls, List.drop_left]
    rw [hsince, handleBody, meets_bind, meets_get, meets_bind, meets_get]
    simp only [if_pos hbody, BitVec.ofInt_toInt]
    constructor
    · intro hfits
      obtain ⟨s, hs, -, hcarries⟩ := hgood hfits
      rw [meets_bind, meets_ok hs, meets_bind, meets_get]
      exact (page_carries hcarries response status).bind fun _ _ h' => (meets_pure _).mpr h'
    · intro hnot hsmall
      refine (hbad hnot hsmall).bind fun p s hs => ?_
      rw [meets_bind, meets_get]
      refine (keeps_onlyIf (fun _ => minuteHttpdStandardBody_stable (spoilt_stable _ _) _) s hs).bind fun _ s' hs' => ?_
      exact (meets_pure _).mpr hs'
  · have hnone : noteBody app status.toInt user₁ s₁ = .ok ((0, user₁), s₁) := by
      rw [noteBody, get_bind, if_neg hbody]
      rfl
    rw [hnone] at hcallback
    cases hcallback
    have hsince : callsSince s₁ s₁ = [] := List.drop_length
    rw [hsince, handleBody, meets_bind, meets_get, meets_bind, meets_get, if_neg hbody, meets_pure, meets_pure,
      withPage, if_neg fun hc => hc.1 rfl]
    exact ⟨fun _ => h, fun hnot => absurd trivial hnot⟩

/-- `respond` from the end of the header block on. -/
def finishBody (app : MinuteHttpdApp υ) (status : Int) (user : υ) : Httpd υ := do
  let user ← handleBody app status user
  minuteHttpdFlush
  minuteHttpdChunkEnd
  pure user

/-- **What fits says all that was written and the page.** -/
theorem finishBody_body (h : Carries chunked s₁.state.outfd.sent s₁.state.output.size s₁.emptyOutbox s₁)
    (hcallback : noteBody app status.toInt user₁ s₁ = .ok ((response, user₂), t))
    (hcalls : CallsFit chunked s₁.state.output.size (callsSince s₁ t) s₁.emptyOutbox) {b : Outbox Byte}
    (hb : b = withPage (standardBodyText status.toInt) response s₁.state.output.size
      (gatherAll s₁.state.output.size (callsSince s₁ t) s₁.emptyOutbox)) (hlast : ChunkFits chunked b []) :
    Meets (fun _ => False) (fun _ s₂ => ∀ data,
      IsBody chunked data (s₂.state.outfd.sent.drop s₁.state.outfd.sent.length) ↔ data = b.all)
      (finishBody app status.toInt user₁) s₁ := by
  refine ((handleBody_carries h hcallback).1 hcalls).bind fun user s hs => ?_
  rw [← hb] at hs
  refine (hs.flush hlast).bind fun _ s' hs' => (minuteHttpdChunkEnd_sent hs').bind fun _ s₂ hs₂ => ?_
  rw [meets_pure]
  exact ended_body hs' hs₂

/-- **What does not fit spoils the body**, at least of a response of less than 4 GiB, or 2 GiB if it is not chunked. -/
theorem finishBody_spoilt (h : Carries chunked s₁.state.outfd.sent s₁.state.output.size s₁.emptyOutbox s₁)
    (hcallback : noteBody app status.toInt user₁ s₁ = .ok ((response, user₂), t)) {b : Outbox Byte}
    (hb : b = withPage (standardBodyText status.toInt) response s₁.state.output.size
      (gatherAll s₁.state.output.size (callsSince s₁ t) s₁.emptyOutbox))
    (hnot : ¬(CallsFit chunked s₁.state.output.size (callsSince s₁ t) s₁.emptyOutbox ∧ ChunkFits chunked b []))
    (hsmall : s₁.state.output.read.toNat + (written (callsSince s₁ t)).length +
      (standardBodyText status.toInt).length < bodyLimit chunked) :
    Meets (fun _ => True) (fun _ => Spoilt chunked s₁.state.outfd.sent) (finishBody app status.toInt user₁) s₁ := by
  have hstable := spoilt_stable chunked s₁.state.outfd.sent
  obtain ⟨hgood, hbad⟩ := handleBody_carries h hcallback
  by_cases hcalls : CallsFit chunked s₁.state.output.size (callsSince s₁ t) s₁.emptyOutbox
  · have hlast : ¬ChunkFits chunked b [] := fun hlast => hnot ⟨hcalls, hlast⟩
    have hle := @gatherAll_passed_le s₁.state.output.size s₁.emptyOutbox (callsSince s₁ t)
    have hstart : s₁.emptyOutbox.passed + s₁.emptyOutbox.held.length = s₁.state.output.read.toNat := rfl
    have hpage := withPage_passed_le (standardBodyText status.toInt) response s₁.state.output.size
      (gatherAll s₁.state.output.size (callsSince s₁ t) s₁.emptyOutbox)
    rw [← hb] at hpage
    refine Meets.bind ((hgood hcalls).imp_error fun _ hf => hf.elim) fun user s hs => ?_
    rw [← hb] at hs
    refine (hs.flush_spoilt hlast (by omega)).bind fun _ s' hs' => ?_
    exact (minuteHttpdChunkEnd_stable hstable s' hs').bind fun _ _ hs₂ => (meets_pure _).mpr hs₂
  · refine (hbad hcalls (by omega)).bind fun user s hs => ?_
    refine (minuteHttpdFlush_stable hstable s hs).bind fun _ s' hs' => ?_
    exact (minuteHttpdChunkEnd_stable hstable s' hs').bind fun _ _ hs₂ => (meets_pure _).mpr hs₂

/-! ## The handler -/

theorem handleHead_code (app : MinuteHttpdApp υ) (now : Nat) (user : υ) (s : HttpdResponse) :
    Meets (fun _ => True) (fun p _ => ∃ code : Uint, p.1 = code.toInt) (handleHead app now user) s := by
  have hcallbacks (s : HttpdResponse) :
      Meets (fun _ => True) (fun p _ => ∃ code : Uint, p.1 = code.toInt) (handleCallbacks app now user) s := by
    refine meets_iff.mpr fun p s' hrun => ?_
    obtain ⟨⟨⟩, s₁, -, hrun⟩ := bind_eq_ok.mp hrun
    rw [get_bind] at hrun
    obtain ⟨⟨code, user₁⟩, s₂, -, hrun⟩ := bind_eq_ok.mp hrun
    dsimp only at hrun
    rw [handleContinue] at hrun
    split at hrun
    · rw [get_bind] at hrun
      obtain ⟨⟨⟩, s₃, -, hrun⟩ := bind_eq_ok.mp hrun
      rw [get_bind] at hrun
      obtain ⟨⟨code', user₂⟩, s₄, -, hrun⟩ := bind_eq_ok.mp hrun
      cases hrun
      exact ⟨code', rfl⟩
    · cases hrun
      exact ⟨code, rfl⟩
  rw [handleHead, meets_bind, meets_get]
  refine (hcallbacks s).bind fun p s₁ hp => meets_iff.mpr fun q s' hrun => ?_
  obtain ⟨⟨⟩, s₂, -, hrun⟩ := bind_eq_ok.mp hrun
  obtain ⟨⟨⟩, s₃, -, hrun⟩ := bind_eq_ok.mp hrun
  obtain ⟨⟨⟩, s₄, -, hrun⟩ := bind_eq_ok.mp hrun
  cases hrun
  exact hp

theorem handleHead_outValid (app : MinuteHttpdApp υ) (now : Nat) (user : υ) :
    Keeps HttpdResponse.OutValid (handleHead app now user) :=
  keeps_get.bind fun _ => (headers_outValid.handleCallbacks writeOutfd_outValid app now user).bind fun _ =>
    (writeOutfd_outValid _ _).bind fun _ => headers_outValid.connectionHeaders.bind fun _ =>
      Keeps.bind ((minuteHttpdChunk_outValid _ _).bind fun _ => keeps_pure _) fun _ => keeps_pure _

theorem respond_eq (app : MinuteHttpdApp υ) (now : Nat) (user : υ) (s : HttpdResponse) :
    respond app now user s = (do
      let p ← handleHead app now user
      finishBody app p.1 p.2 : Httpd υ) s.started := rfl

variable {state : HttpdState} {s₀ : HttpdResponse} {code : Int}

theorem behindHead_carries (hsize : state.output.SizeOk) (hrequest : handleRequest (.init state) = .ok (0, s₀))
    (hhead : handleHead app now user s₀.started = .ok ((code, user₁), s₁))
    (hdelivers : s₁.state.outfd.Delivers s₁.teChunked) :
    Carries s₁.teChunked s₁.state.outfd.sent s₁.state.output.size s₁.emptyOutbox s₁ := by
  obtain ⟨hout, -⟩ := meets_iff.mp (@handleRequest_clears state) _ _ hrequest
  have hvalid : s₀.started.OutValid := by
    rw [HttpdResponse.OutValid, HttpdResponse.started, hout]
    exact ⟨hsize, by rw [used_clear]; exact Nat.zero_le _⟩
  have hring := meets_iff.mp (handleHead_outValid app now user _ hvalid) _ _ hhead
  have hflushed := meets_iff.mp (handleHead_flushed app now user hvalid) _ _ hhead
  have hempty : s₁.state.output.used = 0 := by
    refine hflushed.resolve_right fun hclosed => ?_
    rw [hdelivers.steady.1] at hclosed
    cases hclosed
  have hread := s₁.state.output.read.isLt
  refine ⟨hring, rfl, ?_, (Nat.mod_eq_of_lt hread).symm, rfl, hdelivers, ?_⟩
  · exact List.eq_nil_of_length_eq_zero (by rw [Iobuf.length_contents, hempty])
  · have hnil : onWire s₁.teChunked [] = [] := by cases s₁.teChunked <;> rfl
    show _ = _ ++ onWire s₁.teChunked []
    rw [hnil, List.append_nil]

theorem all_withPage (page : List Byte) (response : Uint) (cap : Nat) (b : Outbox Byte) :
    (withPage page response cap b).all =
      if response ≠ 0 ∧ b.held.length + page.length ≤ cap then b.all ++ page else b.all := by
  unfold withPage
  split
  · exact b.all_hold page
  · rfl

theorem handle_sent {user' user'' : υ} {s₂ resp : HttpdResponse} {r : Int}
    (hrequest : handleRequest (.init state) = .ok (0, s₀)) (hrespond : respond app now user s₀ = .ok (user', s₂))
    (hhandle : minuteHttpdHandle app now user state = .ok ((r, user''), resp)) :
    resp.state.outfd.sent = s₂.state.outfd.sent := by
  obtain ⟨parsed, s, hs, hstatus⟩ := bind_eq_ok.mp hhandle
  rw [hrequest] at hs
  cases hs
  rw [handleStatus_zero, bind_of_ok hrespond] at hstatus
  obtain ⟨⟨⟩, s₃, hs₃, hend⟩ := bind_eq_ok.mp hstatus
  have hsame := meets_iff.mp (minuteHttpdInDiscard_writing s₂) _ _ hs₃
  cases hend
  exact congrArg (fun x => x.2.1.sent) hsame

/-- **When what follows the header block is a chunked body that says what was written**, where every write is
accepted: if the calls fit; and of a response of less than 4 GiB, only then. -/
theorem chunkedBody_iff (hsize : state.output.SizeOk) (hrequest : handleRequest (.init state) = .ok (0, s₀))
    (hhead : handleHead app now user s₀.started = .ok ((code, user₁), s₁)) (hchunked : s₁.teChunked = true)
    (hwilling : s₁.state.outfd.Willing) (hcallback : noteBody app code user₁ s₁ = .ok ((response, user₂), t)) :
    (WellWritten s₁ (standardBodyText code) response (callsSince s₁ t) →
      ChunkedRight app now user state s₀ s₁ (standardBodyText code) response (callsSince s₁ t)) ∧
    (s₁.state.output.read.toNat + (written (callsSince s₁ t)).length + (standardBodyText code).length < 2 ^ 32 →
      ChunkedRight app now user state s₀ s₁ (standardBodyText code) response (callsSince s₁ t) →
      WellWritten s₁ (standardBodyText code) response (callsSince s₁ t)) := by
  have hcarries := behindHead_carries hsize hrequest hhead (by rw [hchunked]; exact hwilling)
  rw [hchunked] at hcarries
  obtain ⟨status, rfl⟩ := meets_iff.mp (handleHead_code app now user _) _ _ hhead
  -- the text is not looked at
  obtain ⟨page, hpage, hpos⟩ : ∃ page, standardBodyText status.toInt = page ∧ 0 < page.length :=
    ⟨_, rfl, (length_standardBodyText status).1⟩
  have hrespond : respond app now user s₀ = finishBody app status.toInt user₁ s₁ := by
    rw [respond_eq, bind_of_ok hhead]
  obtain ⟨b, hb⟩ : ∃ b, b = withPage page response s₁.state.output.size
    (gatherAll s₁.state.output.size (callsSince s₁ t) s₁.emptyOutbox) := ⟨_, rfl⟩
  have hall := congrArg Outbox.all hb
  rw [all_withPage, all_gatherAll, show s₁.emptyOutbox.all = [] from rfl, List.nil_append] at hall
  have hb' := hb
  rw [← hpage] at hb'
  rw [hpage]
  constructor
  · rintro ⟨hcalls, hlast, hroom⟩
    rw [← hb] at hlast
    obtain ⟨user', s₂, hs₂, hbody⟩ := (finishBody_body hcarries hcallback hcalls hb' hlast).exists_ok
    refine ⟨user', s₂, b.all, hrespond.trans hs₂, (hbody _).mpr rfl, ?_, fun r user'' resp hhandle => ?_⟩
    · by_cases hadds : response ≠ 0 ∧ (gatherAll s₁.state.output.size (callsSince s₁ t) s₁.emptyOutbox).held.length +
          page.length ≤ s₁.state.output.size
      · have hno : ¬Wrote (callsSince s₁ t) := fun hwrote => absurd (hroom hadds.1 hwrote) (Nat.not_lt_of_le hadds.2)
        rw [if_pos hadds, written_eq_nil_of_not_wrote hno] at hall
        exact .inr ⟨hadds.1, hno, hall⟩
      · rw [if_neg hadds] at hall
        exact .inl hall
    · exact handle_sent hrequest (hrespond.trans hs₂) hhandle
  · rintro hsmall ⟨user', s₂, data, hs₂, hbody, hdata, -⟩
    rw [hrespond] at hs₂
    have hfits : CallsFit true s₁.state.output.size (callsSince s₁ t) s₁.emptyOutbox ∧ ChunkFits true b [] := by
      by_contra hnot
      exact (meets_iff.mp (finishBody_spoilt hcarries hcallback hb' hnot (by rw [hpage]; exact hsmall)) _ _ hs₂).not_body hbody
    have htold := (meets_ok hs₂).mp (finishBody_body hcarries hcallback hfits.1 hb' hfits.2)
    refine ⟨hfits.1, hb ▸ hfits.2, fun hresponse hwrote => ?_⟩
    by_contra hroom
    rw [if_pos ⟨hresponse, Nat.le_of_not_lt hroom⟩] at hall
    obtain hsame | ⟨-, hno, -⟩ := hdata
    · -- the page is behind what was written
      have hlen := congrArg List.length (((htold data).mp hbody).symm.trans hsame)
      rw [hall, List.length_append] at hlen
      omega
    · exact hno hwrote

end

/-- A request on a connection of version 1.1, which is kept. -/
def keptConnection : HttpdState := connected "GET / HTTP/1.1\r\n\r\n"

theorem chunkedBody_two : ∃ s₀ s₁ t code,
    noteBody (replyApp [.write (bytes "ab"), .flush, .write (bytes "c")] 0) code () s₁ = .ok ((0, ()), t) ∧
      ChunkedRight (replyApp [.write (bytes "ab"), .flush, .write (bytes "c")] 0) 0 () keptConnection s₀ s₁ (standardBodyText code) 0
        (callsSince s₁ t) := by
  have hrun : accepts (fun x => decide (x.1 = 0) && accepts (fun y => y.2.teChunked && y.2.state.outfd.isOpen &&
      decide (y.2.state.outfd.cuts = []) && accepts (fun z => decide (z.1.1 = 0) &&
        decide (CallsFit true y.2.state.output.size (callsSince y.2 z.2) y.2.emptyOutbox) &&
        decide (ChunkFits true (gatherAll y.2.state.output.size (callsSince y.2 z.2) y.2.emptyOutbox) []))
        (noteBody (replyApp [.write (bytes "ab"), .flush, .write (bytes "c")] 0) y.1.1 () y.2))
      (handleHead (replyApp [.write (bytes "ab"), .flush, .write (bytes "c")] 0) 0 () x.2.started))
      (handleRequest (.init keptConnection)) = true := by decide +kernel
  obtain ⟨⟨parsed, s₀⟩, hs₀, hp⟩ := accepts_iff.mp hrun
  rw [Bool.and_eq_true, decide_eq_true_iff] at hp
  obtain ⟨rfl, hp⟩ := hp
  obtain ⟨⟨⟨code, ⟨⟩⟩, s₁⟩, hs₁, hp⟩ := accepts_iff.mp hp
  simp only [Bool.and_eq_true, decide_eq_true_iff] at hp
  obtain ⟨⟨⟨hchunked, hopen⟩, hcuts⟩, hp⟩ := hp
  obtain ⟨⟨⟨response, ⟨⟩⟩, t⟩, ht, hp⟩ := accepts_iff.mp hp
  simp only [Bool.and_eq_true, decide_eq_true_iff] at hp
  obtain ⟨⟨hzero, hcalls⟩, hlast⟩ := hp
  obtain rfl : response = 0 := hzero
  refine ⟨s₀, s₁, t, code, ht, ?_⟩
  refine (chunkedBody_iff (connected_outValid _).size hs₀ hs₁ hchunked ⟨hopen, hcuts⟩ ht).1 ⟨hcalls, ?_, fun hne => absurd rfl hne⟩
  rw [withPage, if_neg fun hc => hc.1 rfl]
  exact hlast

/-- Nothing is written, by a call that says so. -/
theorem chunkedBody_empty_write : ∃ s₀ s₁ t code, handleRequest (.init keptConnection) = .ok (0, s₀) ∧
    handleHead (replyApp [.write []] 0) 0 () s₀.started = .ok ((code, ()), s₁) ∧ s₁.teChunked = true ∧
    s₁.state.outfd.Willing ∧ noteBody (replyApp [.write []] 0) code () s₁ = .ok ((0, ()), t) ∧
    callsSince s₁ t = [.write []] ∧
    ¬ChunkedRight (replyApp [.write []] 0) 0 () keptConnection s₀ s₁ (standardBodyText code) 0 (callsSince s₁ t) := by
  have hrun : accepts (fun x => decide (x.1 = 0) && !accepts (fun _ => true) (respond (replyApp [.write []] 0) 0 () x.2) &&
      accepts (fun y => y.2.teChunked && y.2.state.outfd.isOpen && decide (y.2.state.outfd.cuts = []) &&
        accepts (fun z => decide (z.1.1 = 0) && decide (callsSince y.2 z.2 = [.write []]))
        (noteBody (replyApp [.write []] 0) y.1.1 () y.2)) (handleHead (replyApp [.write []] 0) 0 () x.2.started))
      (handleRequest (.init keptConnection)) = true := by decide +kernel
  obtain ⟨⟨parsed, s₀⟩, hs₀, hp⟩ := accepts_iff.mp hrun
  simp only [Bool.and_eq_true, decide_eq_true_iff, Bool.not_eq_true'] at hp
  obtain ⟨⟨rfl, hfails⟩, hp⟩ := hp
  obtain ⟨⟨⟨code, ⟨⟩⟩, s₁⟩, hs₁, hp⟩ := accepts_iff.mp hp
  simp only [Bool.and_eq_true, decide_eq_true_iff] at hp
  obtain ⟨⟨⟨hchunked, hopen⟩, hcuts⟩, hp⟩ := hp
  obtain ⟨⟨⟨response, ⟨⟩⟩, t⟩, ht, hp⟩ := accepts_iff.mp hp
  simp only [Bool.and_eq_true, decide_eq_true_iff] at hp
  obtain ⟨hzero, hcalls⟩ := hp
  obtain rfl : response = 0 := hzero
  refine ⟨s₀, s₁, t, code, hs₀, hs₁, hchunked, ⟨hopen, hcuts⟩, ht, hcalls, ?_⟩
  rintro ⟨user', s₂, data, hs₂, -⟩
  rw [hs₂] at hfails
  cases hfails

end MinuteHttp
