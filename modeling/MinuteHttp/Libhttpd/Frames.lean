import MinuteHttp.Libhttpd.Handle

/-!
# The two sides of a response

The functions that write change nothing of the reading side (`reading`) and those that read nothing of
the writing side (`writing`). `headFlags` is on both sides: after `minute_httpd_start` no function that
answers a request changes it.
-/

namespace MinuteHttp

open Effect

/-- What only the functions that read change. -/
def HttpdResponse.reading (resp : HttpdResponse) :
    Iobuf × Infd × Textint × MinuteHttpRq × Int × Bool × Uint :=
  (resp.state.input, resp.state.infd, resp.state.text, resp.rq, resp.pending, resp.history.broken,
    resp.headFlags)

/-- What only the functions that write change. -/
def HttpdResponse.writing (resp : HttpdResponse) : Iobuf × Outfd × List Byte × List OutCall × Uint :=
  (resp.state.output, resp.state.outfd, resp.history.headers, resp.history.calls, resp.headFlags)

/-! ## Writing -/

/-- All but the contents of the out ring and the descriptor it is flushed to. -/
def HttpdResponse.unwritten (resp : HttpdResponse) :
    Iobuf × Infd × Textint × MinuteHttpRq × Int × Uint × History × Uint :=
  (resp.state.input, resp.state.infd, resp.state.text, resp.rq, resp.pending, resp.headFlags, resp.history,
    resp.state.output.mask)

theorem reading_of_unwritten {α : Type} {m : Httpd α} (h : Leaves HttpdResponse.unwritten m) :
    Leaves HttpdResponse.reading m :=
  h.comp fun x => (x.1, x.2.1, x.2.2.1, x.2.2.2.1, x.2.2.2.2.1, x.2.2.2.2.2.2.1.broken, x.2.2.2.2.2.1)

theorem headers_of_unwritten {α : Type} {m : Httpd α} (h : Leaves HttpdResponse.unwritten m) :
    Leaves (fun resp => resp.history.headers) m := h.comp fun x => x.2.2.2.2.2.2.1.headers

theorem size_of_unwritten {α : Type} {m : Httpd α} (h : Leaves HttpdResponse.unwritten m) :
    Leaves (fun resp => resp.state.output.size) m := h.comp fun x => x.2.2.2.2.2.2.2.toNat + 1

theorem writeOutfd_unwritten (failed : Int → Bool) (bs : List Byte) :
    Leaves HttpdResponse.unwritten (writeOutfd failed bs) := leaves_modify fun _ => rfl

theorem chunkLoop_unwritten (turns : Nat) (buf : List Byte) (chunked : Bool) :
    Leaves HttpdResponse.unwritten (chunkLoop turns buf chunked) := by
  induction turns generalizing buf chunked with
  | zero => exact leaves_throw _
  | succ turns ih =>
    intro s
    simp only [chunkLoop, meets_bind, meets_get]
    split
    · exact leaves_pure _ s
    · rw [meets_bind, meets_orStop]
      refine ⟨fun _ => trivial, fun size _ => ?_⟩
      generalize s.state.outfd.write _ = w
      split
      · split
        · exact (meets_set_pure _ _).mpr rfl
        · rw [meets_bind, meets_set]
          split
          · rw [meets_bind]
            refine (ih _ _ _).imp fun rr s' hs' => ?_
            split
            · exact (meets_pure _).mpr hs'
            · exact (meets_pure _).mpr hs'
          · exact (meets_pure _).mpr rfl
      · exact (meets_set_pure _ _).mpr rfl

theorem minuteHttpdChunk_unwritten (buf : List Byte) (chunked : Bool) :
    Leaves HttpdResponse.unwritten (minuteHttpdChunk buf chunked) :=
  leaves_get.bind fun _ => chunkLoop_unwritten _ _ _

theorem minuteHttpdFlush_unwritten : Leaves HttpdResponse.unwritten minuteHttpdFlush :=
  leaves_get.bind fun _ => (minuteHttpdChunk_unwritten _ _).bind fun _ => leaves_pure _

theorem minuteIobufWrite_mask {src : List Byte} {io : Iobuf} {x : Int × Iobuf} (h : minuteIobufWrite src io = some x) :
    x.2.mask = io.mask := by
  unfold minuteIobufWrite at h
  dsimp only at h
  split at h
  · cases h
    rfl
  · split at h
    · obtain ⟨d, -, hx⟩ := Option.bind_eq_some_iff.mp h
      cases hx
      rfl
    · obtain ⟨d, -, hx⟩ := Option.bind_eq_some_iff.mp h
      obtain ⟨d', -, hx⟩ := Option.bind_eq_some_iff.mp hx
      cases hx
      rfl

theorem unwritten_output (s : HttpdResponse) {out : Iobuf} (h : out.mask = s.state.output.mask) :
    { s with state.output := out }.unwritten = s.unwritten := by
  unfold HttpdResponse.unwritten
  rw [← h]

theorem minuteHttpdOutput_unwritten (append : List Byte) (chunked : Bool) :
    Leaves HttpdResponse.unwritten (minuteHttpdOutput append chunked) := by
  intro s
  simp only [minuteHttpdOutput, meets_bind, meets_get]
  split
  · exact (minuteHttpdChunk_unwritten _ _).bind (fun _ => leaves_pure _) s
  · rw [meets_bind, meets_orStop]
    exact ⟨fun _ => trivial, fun _ hx => (meets_set _).mpr (unwritten_output s (minuteIobufWrite_mask hx))⟩

theorem minuteHttpdStandardBody_unwritten (status : Int) :
    Leaves HttpdResponse.unwritten (minuteHttpdStandardBody status) := by
  intro s
  simp only [minuteHttpdStandardBody, meets_bind, meets_get, meets_orStop]
  exact ⟨fun _ => trivial, fun _ hx => (meets_set _).mpr (unwritten_output s (minuteIobufWrite_mask hx))⟩

theorem minuteHttpdChunkEnd_unwritten : Leaves HttpdResponse.unwritten minuteHttpdChunkEnd :=
  leaves_get.bind fun _ => leaves_onlyIf (writeOutfd_unwritten _ _)

theorem writeOutfd_reading (failed : Int → Bool) (bs : List Byte) :
    Leaves HttpdResponse.reading (writeOutfd failed bs) := reading_of_unwritten (writeOutfd_unwritten failed bs)

theorem minuteHttpdChunk_reading (buf : List Byte) (chunked : Bool) :
    Leaves HttpdResponse.reading (minuteHttpdChunk buf chunked) :=
  reading_of_unwritten (minuteHttpdChunk_unwritten buf chunked)

theorem minuteHttpdFlush_reading : Leaves HttpdResponse.reading minuteHttpdFlush :=
  reading_of_unwritten minuteHttpdFlush_unwritten

theorem minuteHttpdOutput_reading (append : List Byte) (chunked : Bool) :
    Leaves HttpdResponse.reading (minuteHttpdOutput append chunked) :=
  reading_of_unwritten (minuteHttpdOutput_unwritten append chunked)

theorem minuteHttpdStandardBody_reading (status : Int) :
    Leaves HttpdResponse.reading (minuteHttpdStandardBody status) :=
  reading_of_unwritten (minuteHttpdStandardBody_unwritten status)

theorem minuteHttpdChunkEnd_reading : Leaves HttpdResponse.reading minuteHttpdChunkEnd :=
  reading_of_unwritten minuteHttpdChunkEnd_unwritten

theorem minuteHttpdHeader_reading (header : HttpResponseHeader) (value : List Byte) :
    Leaves HttpdResponse.reading (minuteHttpdHeader header value) :=
  Leaves.bind (leaves_modify fun _ => rfl) fun _ => (minuteHttpdOutput_reading _ _).bind fun _ =>
    (minuteHttpdOutput_reading _ _).bind fun _ => (minuteHttpdOutput_reading _ _).bind fun _ =>
      minuteHttpdOutput_reading _ _

theorem headCall_reading (c : HeadCall) : Leaves HttpdResponse.reading c.serve := by
  cases c with
  | string header value => exact minuteHttpdHeader_reading _ _
  | timestamp header epochtime => exact minuteHttpdHeader_reading _ _

theorem outCall_reading (c : OutCall) : Leaves HttpdResponse.reading c.serve := by
  refine Leaves.bind (leaves_modify fun _ => rfl) fun _ => ?_
  cases c with
  | write buf => exact leaves_get.bind fun _ => minuteHttpdOutput_reading _ _
  | flush => exact minuteHttpdFlush_reading

theorem endHeaders_reading : Leaves HttpdResponse.reading endHeaders :=
  (minuteHttpdChunk_reading _ _).bind fun _ => leaves_pure _

theorem serverHeaders_reading (now : Nat) : Leaves HttpdResponse.reading (serverHeaders now) :=
  (minuteHttpdHeader_reading _ _).bind fun _ => minuteHttpdHeader_reading _ _

theorem connectionHeaders_reading : Leaves HttpdResponse.reading connectionHeaders :=
  leaves_get.bind fun _ => (leaves_onlyIf (minuteHttpdHeader_reading _ _)).bind fun _ =>
    (leaves_onlyIf (minuteHttpdHeader_reading _ _)).bind fun _ =>
      leaves_onlyIf (minuteHttpdHeader_reading _ _)

/-! ## Reading -/

theorem readfd_writing : Leaves HttpdResponse.writing readfd := by
  intro s
  simp only [readfd, meets_bind, meets_get, meets_set, meets_pure]
  rfl

theorem httpRead_writing (rqs : MinuteHttpRqs) : Leaves HttpdResponse.writing (httpRead rqs) := by
  intro s
  simp only [httpRead, meets_bind, meets_get]
  split
  · exact (meets_set_pure _ _).mpr rfl
  · exact leaves_throw _ s
  · exact leaves_throw _ s

theorem refillRequest_writing : Leaves HttpdResponse.writing refillRequest := by
  refine readfd_writing.bind fun r => leaves_get.bind fun resp => ?_
  split
  · exact leaves_pure _
  · split <;> exact leaves_pure _

theorem refillUnless_writing (prefilled : Bool) : Leaves HttpdResponse.writing (refillUnless prefilled) := by
  unfold refillUnless
  split
  · exact leaves_pure _
  · exact refillRequest_writing

theorem readRequestLoop_writing (turns : Nat) (prefilled : Bool) (rqs : MinuteHttpRqs) :
    Leaves HttpdResponse.writing (readRequestLoop turns prefilled rqs) := by
  induction turns generalizing prefilled rqs with
  | zero => exact leaves_throw _
  | succ turns ih =>
    refine (refillUnless_writing prefilled).bind fun ended => ?_
    split
    · exact leaves_pure _
    · refine (httpRead_writing _).bind fun x => ?_
      split
      split
      · exact ih _ _
      · exact leaves_pure _

theorem minuteHttpdReadRequest_writing (rqs : MinuteHttpRqs) :
    Leaves HttpdResponse.writing (minuteHttpdReadRequest rqs) :=
  leaves_get.bind fun _ => readRequestLoop_writing _ _ _

theorem breakBody_writing : Leaves HttpdResponse.writing breakBody :=
  Leaves.bind (leaves_modify fun _ => rfl) fun _ => leaves_pure _

theorem setPending_writing (n : Int) : Leaves HttpdResponse.writing (setPending n) :=
  leaves_modify fun _ => rfl

theorem readPending_writing (copy : Bool) (count : Uint) :
    Leaves HttpdResponse.writing (readPending copy count) := by
  intro s
  simp only [readPending, meets_bind, meets_get]
  split
  · rw [meets_bind, meets_orStop]
    exact ⟨fun _ => trivial, fun _ _ => (meets_set_pure _ _).mpr rfl⟩
  · exact (meets_set_pure _ _).mpr rfl

theorem readTrailers_writing : Leaves HttpdResponse.writing readTrailers := by
  refine (setPending_writing _).bind fun _ => leaves_get.bind fun _ =>
    (minuteHttpdReadRequest_writing _).bind fun status => ?_
  split
  · exact breakBody_writing
  · exact leaves_pure _

theorem inReadLoop_writing (copy : Bool) (count : Uint) (turns : Nat) (entry : Bool) :
    Leaves HttpdResponse.writing (inReadLoop copy count turns entry) := by
  induction turns generalizing entry with
  | zero => exact leaves_throw _
  | succ turns ih =>
    refine leaves_get.bind fun resp => ?_
    have hrefill : Leaves HttpdResponse.writing (do
        let rfd ← readfd
        let resp ← get
        if rfd = 0 ∧ resp.state.input.eof then
          setPending pendingEof
          pure (0, [])
        else inReadLoop copy count turns false) := by
      refine readfd_writing.bind fun rfd => leaves_get.bind fun resp => ?_
      split
      · exact (setPending_writing _).bind fun _ => leaves_pure _
      · exact ih _
    dsimp only
    split
    · exact leaves_pure _
    · split
      · split
        · exact readPending_writing _ _
        · exact hrefill
      · split
        · split
          · exact (setPending_writing _).bind fun _ => breakBody_writing
          · refine Leaves.bind (leaves_modify fun _ => rfl) fun _ => ?_
            split
            · exact readTrailers_writing
            · exact (setPending_writing _).bind fun _ => ih _
          · exact hrefill
        · exact (setPending_writing _).bind fun _ => leaves_pure _

theorem minuteHttpdInRead_writing (copy : Bool) (count : Uint) :
    Leaves HttpdResponse.writing (minuteHttpdInRead copy count) :=
  leaves_get.bind fun _ => inReadLoop_writing _ _ _ _

theorem discardLoop_writing (turns : Nat) : Leaves HttpdResponse.writing (discardLoop turns) := by
  induction turns with
  | zero => exact leaves_throw _
  | succ turns ih =>
    refine leaves_get.bind fun _ => (minuteHttpdInRead_writing _ _).bind fun x => ?_
    split
    split
    · exact ih
    · exact leaves_pure _

theorem minuteHttpdInDiscard_writing : Leaves HttpdResponse.writing minuteHttpdInDiscard :=
  leaves_get.bind fun _ => discardLoop_writing _

/-! ## Apart

What reading does, it does whatever the writing side is. -/

/-- The response with the writing side of `w`. -/
def HttpdResponse.over (w resp : HttpdResponse) : HttpdResponse :=
  { resp with
    state.output := w.state.output
    state.outfd := w.state.outfd
    history.headers := w.history.headers
    history.calls := w.history.calls }

theorem over_of_reading {s t : HttpdResponse} (h : t.reading = s.reading) : t = t.over s := by
  simp only [HttpdResponse.reading, Prod.mk.injEq] at h
  obtain ⟨hin, hfd, htext, hrq, hpending, hbroken, hflags⟩ := h
  obtain ⟨⟨_, _, _, _, _⟩, _, _, _, ⟨_, _, _⟩⟩ := t
  obtain ⟨⟨_, _, _, _, _⟩, _, _, _, ⟨_, _, _⟩⟩ := s
  cases hin
  cases hfd
  cases htext
  cases hrq
  cases hpending
  cases hbroken
  cases hflags
  rfl

section

variable (w : HttpdResponse)

theorem readfd_ignores : Ignores w.over readfd := fun _ => rfl

theorem httpRead_ignores (rqs : MinuteHttpRqs) : Ignores w.over (httpRead rqs) := by
  intro s
  simp only [httpRead, get_bind]
  have hsame : minuteHttpRead (w.over s).rq rqs (w.over s).state.input (w.over s).state.text =
      minuteHttpRead s.rq rqs s.state.input s.state.text := rfl
  simp only [hsame]
  cases minuteHttpRead s.rq rqs s.state.input s.state.text with
  | code n rq rqs input text => rfl
  | fault => rfl
  | spin => rfl

theorem refillRequest_ignores : Ignores w.over refillRequest := by
  refine (readfd_ignores w).bind fun r => ignores_get_bind (fun _ => rfl) fun s => ?_
  split
  · exact ignores_pure _
  · split
    · exact ignores_pure _
    · exact ignores_pure _

theorem readRequestLoop_ignores (turns : Nat) (prefilled : Bool) (rqs : MinuteHttpRqs) :
    Ignores w.over (readRequestLoop turns prefilled rqs) := by
  induction turns generalizing prefilled rqs with
  | zero => exact ignores_throw _
  | succ turns ih =>
    have hrefill : Ignores w.over (refillUnless prefilled) := by
      unfold refillUnless
      split
      · exact ignores_pure _
      · exact refillRequest_ignores w
    refine hrefill.bind fun ended => ?_
    cases ended with
    | some status => exact ignores_pure _
    | none =>
      refine (httpRead_ignores w rqs).bind fun x => ?_
      obtain ⟨status, rqs'⟩ := x
      dsimp only
      split
      · exact ih _ _
      · exact ignores_pure _

theorem minuteHttpdReadRequest_ignores (rqs : MinuteHttpRqs) : Ignores w.over (minuteHttpdReadRequest rqs) :=
  ignores_get_bind (fun _ => rfl) fun _ => readRequestLoop_ignores w _ _ _

theorem setPending_ignores (n : Int) : Ignores w.over (setPending n) := ignores_modify fun _ => rfl

theorem breakBody_ignores : Ignores w.over breakBody :=
  Ignores.bind (ignores_modify fun _ => rfl) fun _ => ignores_pure _

theorem readTrailers_ignores : Ignores w.over readTrailers := by
  refine (setPending_ignores w _).bind fun _ => ignores_get_bind (fun _ => rfl) fun s => ?_
  refine (minuteHttpdReadRequest_ignores w _).bind fun status => ?_
  split
  · exact breakBody_ignores w
  · exact ignores_pure _

theorem readPending_ignores (copy : Bool) (count : Uint) : Ignores w.over (readPending copy count) := by
  intro s
  cases copy with
  | false => rfl
  | true =>
    obtain ⟨x, hx⟩ : ∃ x, minuteIobufRead (if s.pending > count.toNat then count else BitVec.ofInt 32 s.pending)
        s.state.input = x := ⟨_, rfl⟩
    have hx' : minuteIobufRead (if (w.over s).pending > count.toNat then count else BitVec.ofInt 32 (w.over s).pending)
        (w.over s).state.input = x := hx
    simp only [readPending, get_bind, if_true, hx, hx']
    cases x with
    | none => rfl
    | some x => rfl

theorem inReadLoop_ignores (copy : Bool) (count : Uint) (turns : Nat) (entry : Bool) :
    Ignores w.over (inReadLoop copy count turns entry) := by
  induction turns generalizing entry with
  | zero => exact ignores_throw _
  | succ turns ih =>
    refine ignores_get_bind (fun _ => rfl) fun s => ?_
    have hrefill : Ignores w.over (do
        let rfd ← readfd
        let resp ← get
        if rfd = 0 ∧ resp.state.input.eof then
          setPending pendingEof
          pure (0, [])
        else inReadLoop copy count turns false) := by
      refine (readfd_ignores w).bind fun rfd => ignores_get_bind (fun _ => rfl) fun s => ?_
      split
      · exact (setPending_ignores w _).bind fun _ => ignores_pure _
      · exact ih _
    dsimp only
    split
    · exact ignores_pure _
    · split
      · split
        · exact readPending_ignores w _ _
        · exact hrefill
      · split
        · split
          · exact (setPending_ignores w _).bind fun _ => breakBody_ignores w
          · refine Ignores.bind (ignores_modify fun _ => rfl) fun _ => ?_
            split
            · exact readTrailers_ignores w
            · exact (setPending_ignores w _).bind fun _ => ih _
          · exact hrefill
        · exact (setPending_ignores w _).bind fun _ => ignores_pure _

theorem minuteHttpdInRead_ignores (copy : Bool) (count : Uint) : Ignores w.over (minuteHttpdInRead copy count) :=
  ignores_get_bind (fun _ => rfl) fun _ => inReadLoop_ignores w _ _ _ _

end
/-! ## Both

A callback and the phases of the handler after `minute_httpd_start` leave `headFlags` as it is. -/

theorem headFlags_of_reading {α : Type} {m : Httpd α} (h : Leaves HttpdResponse.reading m) :
    Leaves HttpdResponse.headFlags m := h.comp fun x => x.2.2.2.2.2.2

theorem headFlags_of_writing {α : Type} {m : Httpd α} (h : Leaves HttpdResponse.writing m) :
    Leaves HttpdResponse.headFlags m := h.comp fun x => x.2.2.2.2

theorem payloadCall_headFlags (c : PayloadCall) : Leaves HttpdResponse.headFlags c.serve := by
  cases c with
  | head call => exact headFlags_of_reading (headCall_reading call)
  | read count => exact headFlags_of_writing (minuteHttpdInRead_writing true count)

theorem responseCall_headFlags (c : ResponseCall) : Leaves HttpdResponse.headFlags c.serve := by
  cases c with
  | out call => exact headFlags_of_reading (outCall_reading call)
  | read count => exact headFlags_of_writing (minuteHttpdInRead_writing true count)

variable {υ : Type} (app : MinuteHttpdApp υ) (now : Nat) (user : υ)

theorem handleContinue_headFlags (version : HttpVersion) (status : Int) :
    Leaves HttpdResponse.headFlags (handleContinue app version status user) := by
  unfold handleContinue
  split
  · refine leaves_get.bind fun resp => ?_
    refine (leaves_onlyIf (headFlags_of_reading (writeOutfd_reading _ _))).bind fun _ => ?_
    refine leaves_get.bind fun _ => (Prog.run_leaves payloadCall_headFlags _).bind fun _ => ?_
    exact leaves_pure _
  · exact leaves_pure _

theorem handleCallbacks_headFlags : Leaves HttpdResponse.headFlags (handleCallbacks app now user) := by
  refine (headFlags_of_reading (serverHeaders_reading now)).bind fun _ => leaves_get.bind fun _ => ?_
  refine (Prog.run_leaves (fun c => headFlags_of_reading (headCall_reading c)) _).bind fun _ => ?_
  exact handleContinue_headFlags app _ _ _

theorem handleHead_headFlags : Leaves HttpdResponse.headFlags (handleHead app now user) := by
  refine leaves_get.bind fun _ => (handleCallbacks_headFlags app now user).bind fun _ => ?_
  refine (headFlags_of_reading (writeOutfd_reading _ _)).bind fun _ => ?_
  refine (headFlags_of_reading connectionHeaders_reading).bind fun _ => ?_
  exact (headFlags_of_reading endHeaders_reading).bind fun _ => leaves_pure _

theorem handleBody_headFlags (status : Int) :
    Leaves HttpdResponse.headFlags (handleBody app status user) := by
  refine leaves_get.bind fun resp => ?_
  by_cases h : hasBody resp.rq status
  · rw [if_pos h]
    refine (Prog.run_leaves responseCall_headFlags _).bind fun x => ?_
    obtain ⟨response, user'⟩ := x
    refine leaves_get.bind fun resp => ?_
    refine (leaves_onlyIf (headFlags_of_reading (minuteHttpdStandardBody_reading _))).bind fun _ => ?_
    exact leaves_pure _
  · rw [if_neg h]
    exact leaves_pure _

/-! ## Invariants of the reading side

What is kept by `minute_httpd_in_read` is kept by everything that an application can do. -/

/-- `I` looks at the reading side only. -/
def OfReading (I : HttpdResponse → Prop) : Prop := ∀ s s', s'.reading = s.reading → I s → I s'

section

variable {I : HttpdResponse → Prop} (hI : OfReading I) (hread : ∀ count, Keeps I (minuteHttpdInRead true count))

include hI in
theorem keeps_of_reading {α : Type} {m : Httpd α} (h : Leaves HttpdResponse.reading m) : Keeps I m :=
  fun s hs => (h s).imp fun _ s' hs' => hI s s' hs' hs

include hI hread

theorem payloadCall_keeps (c : PayloadCall) : Keeps I c.serve := by
  cases c with
  | head call => exact keeps_of_reading hI (headCall_reading call)
  | read count => exact hread count

theorem responseCall_keeps (c : ResponseCall) : Keeps I c.serve := by
  cases c with
  | out call => exact keeps_of_reading hI (outCall_reading call)
  | read count => exact hread count

theorem handleContinue_keeps (version : HttpVersion) (status : Int) :
    Keeps I (handleContinue app version status user) := by
  unfold handleContinue
  split
  · refine keeps_get.bind fun resp => ?_
    refine (keeps_onlyIf fun _ => keeps_of_reading hI (writeOutfd_reading _ _)).bind fun _ => ?_
    refine keeps_get.bind fun _ => (Prog.run_keeps (payloadCall_keeps hI hread) _).bind fun _ => ?_
    exact keeps_pure _
  · exact keeps_pure _

theorem handleCallbacks_keeps : Keeps I (handleCallbacks app now user) := by
  refine (keeps_of_reading hI (serverHeaders_reading now)).bind fun _ => keeps_get.bind fun _ => ?_
  refine (Prog.run_keeps (fun c => keeps_of_reading hI (headCall_reading c)) _).bind fun _ => ?_
  exact handleContinue_keeps app _ hI hread _ _

theorem handleHead_keeps : Keeps I (handleHead app now user) := by
  refine keeps_get.bind fun _ => (handleCallbacks_keeps app now user hI hread).bind fun _ => ?_
  refine (keeps_of_reading hI (writeOutfd_reading _ _)).bind fun _ => ?_
  refine (keeps_of_reading hI connectionHeaders_reading).bind fun _ => ?_
  exact (keeps_of_reading hI endHeaders_reading).bind fun _ => keeps_pure _

theorem handleBody_keeps (status : Int) : Keeps I (handleBody app status user) := by
  refine keeps_get.bind fun resp => ?_
  by_cases h : hasBody resp.rq status
  · rw [if_pos h]
    refine (Prog.run_keeps (responseCall_keeps hI hread) _).bind fun x => ?_
    obtain ⟨response, user'⟩ := x
    refine keeps_get.bind fun resp => ?_
    refine (keeps_onlyIf fun _ => keeps_of_reading hI (minuteHttpdStandardBody_reading _)).bind fun _ => ?_
    exact keeps_pure _
  · rw [if_neg h]
    exact keeps_pure _

end

/-! ## Invariants of the header lines

What is kept by the header lines, and by reading, is kept by all that adds headers. -/

structure KeptByHeaders (I : HttpdResponse → Prop) : Prop where
  header : ∀ header value, Keeps I (minuteHttpdHeader header value)
  reads : ∀ count, Keeps I (minuteHttpdInRead true count)

/-- A string of less than 4 GiB is printed whole. -/
theorem minuteHttpdPrint_eq {append : List Byte} (h : append.length < 2 ^ 32) (chunked : Bool) :
    minuteHttpdPrint append chunked = minuteHttpdOutput append chunked := by
  rw [minuteHttpdPrint, Nat.mod_eq_of_lt h, List.take_length]

theorem keptByHeaders_of_output {I : HttpdResponse → Prop} (hnotes : ∀ header value, Keeps I (modify fun resp =>
      { resp with history.headers := resp.history.headers ++ headerLine header value } : Httpd PUnit))
    (houtput : ∀ append, Keeps I (minuteHttpdOutput append false))
    (hreads : ∀ count, Keeps I (minuteHttpdInRead true count)) : KeptByHeaders I :=
  ⟨fun header value => (hnotes header value).bind fun _ => (houtput _).bind fun _ => (houtput _).bind fun _ =>
    (houtput _).bind fun _ => houtput _, hreads⟩

namespace KeptByHeaders

variable {I : HttpdResponse → Prop} (h : KeptByHeaders I)
include h

theorem headCall (c : HeadCall) : Keeps I c.serve := by
  cases c with
  | string header value => exact h.header header value
  | timestamp header epochtime => exact h.header header _

theorem payloadCall (c : PayloadCall) : Keeps I c.serve := by
  cases c with
  | head call => exact h.headCall call
  | read count => exact h.reads count

theorem serverHeaders (now : Nat) : Keeps I (serverHeaders now) := (h.header _ _).bind fun _ => h.header _ _

theorem connectionHeaders : Keeps I connectionHeaders :=
  keeps_get.bind fun _ => (keeps_onlyIf fun _ => h.header _ _).bind fun _ =>
    (keeps_onlyIf fun _ => h.header _ _).bind fun _ => keeps_onlyIf fun _ => h.header _ _

theorem handleCallbacks (hwrite : ∀ failed bs, Keeps I (writeOutfd failed bs)) {υ : Type} (app : MinuteHttpdApp υ)
    (now : Nat) (user : υ) : Keeps I (handleCallbacks app now user) := by
  refine (h.serverHeaders now).bind fun _ => keeps_get.bind fun resp => ?_
  refine (Prog.run_keeps h.headCall _).bind fun p => ?_
  obtain ⟨status, user⟩ := p
  unfold handleContinue
  dsimp only
  split
  · refine keeps_get.bind fun _ => (keeps_onlyIf fun _ => hwrite _ _).bind fun _ => keeps_get.bind fun _ => ?_
    exact (Prog.run_keeps h.payloadCall _).bind fun _ => keeps_pure _
  · exact keeps_pure _

end KeptByHeaders

end MinuteHttp
