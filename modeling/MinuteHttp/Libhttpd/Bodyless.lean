import MinuteHttp.Libhttpd.Output
import MinuteHttp.Libhttpd.Sent

/-!
# Responses that are to have no body

Behind the empty line of a response to `HEAD`, or of one with the status 204, 205 or 304, nothing may follow.
`minute_httpd_handle` does not call the application there, but `minute_httpd_chunk_end` still ends a body where
the connection is kept, and a request that could not be parsed gets its page whatever its method is
(`bodyless_silent_iff`).
-/

namespace MinuteHttp

open Effect

/-! ## The empty line empties the ring -/

/-- All of the ring has been sent, or nothing will be sent any more. -/
def Flushed (s : HttpdResponse) : Prop := s.state.output.used = 0 ∨ s.state.outfd.isOpen = false

theorem chunkLoop_flushed (turns : Nat) {buf : List Byte} (hlen : buf.length < 2 ^ 31) {s : HttpdResponse}
    (h : s.OutValid) : Meets (fun _ => True) (fun _ => Flushed) (chunkLoop turns buf false) s := by
  induction turns generalizing buf s with
  | zero => exact (meets_throw _).mpr trivial
  | succ turns ih =>
    have hu := h.used_le
    have hle := h.size.le
    have htotal := @total_eq s.state.output buf (by omega)
    simp only [chunkLoop, meets_bind, meets_get]
    split
    · rename_i hzero
      rw [hzero] at htotal
      exact (meets_pure _).mpr (.inl (by change 0 = _ at htotal; omega))
    · rw [meets_bind, meets_orStop]
      refine ⟨fun _ => trivial, fun size hsize => ?_⟩
      cases hsize
      generalize s.state.outfd.write _ = x
      obtain ⟨accepted, fd⟩ := x
      dsimp only
      generalize (BitVec.ofInt 32 accepted).toInt = r
      split
      · split
        · rename_i hpre
          exact absurd hpre (BitVec.not_lt_zero)
        · rename_i hpre
          obtain ⟨l, hl, htaken⟩ := taken_le h (k := 0) (Nat.zero_le 8) hpre
          rw [List.length_nil, htaken, meets_bind, meets_set]
          have hvalid : HttpdResponse.OutValid { s with
              state := { s.state with outfd := fd, output := s.state.output.take l } } := Iobuf.valid_take h hl
          split
          · refine (ih (by rw [List.length_drop]; omega) hvalid).bind fun rr s' hs' => ?_
            split
            · exact (meets_pure _).mpr hs'
            · exact (meets_pure _).mpr hs'
          · rename_i hmore
            rw [BitVec.lt_def, htotal] at hmore
            have hall : minuteIobufUsed s.state.output = BitVec.ofNat 32 l := by
              rw [← htaken, if_neg]
              rw [BitVec.lt_def, BitVec.zero_add]
              show ¬ _ < s.state.output.used
              omega
            have hl' : l = s.state.output.used := by
              have hnum := congrArg BitVec.toNat hall
              rw [BitVec.toNat_ofNat, Nat.mod_eq_of_lt (by omega)] at hnum
              exact hnum.symm
            refine (meets_pure _).mpr (.inl ?_)
            show (s.state.output.take l).used = 0
            rw [Iobuf.used_take hl, hl', Nat.sub_self]
      · exact (meets_set_pure _ _).mpr (.inr rfl)

theorem endHeaders_flushed {s : HttpdResponse} (h : s.OutValid) :
    Meets (fun _ => True) (fun _ => Flushed) endHeaders s := by
  have hchunk : Meets (fun _ => True) (fun _ => Flushed) (minuteHttpdChunk crlf false) s := by
    simp only [minuteHttpdChunk, meets_bind, meets_get]
    exact chunkLoop_flushed _ (by rw [length_crlf]; decide) h
  exact hchunk.bind fun _ _ hs => (meets_pure _).mpr hs

theorem headers_outValid : KeptByHeaders HttpdResponse.OutValid :=
  keptByHeaders_of_output (fun _ _ => keeps_modify fun _ h => h) (fun append => minuteHttpdOutput_outValid append false)
    fun count => outValid_of_writing (minuteHttpdInRead_writing true count)

theorem writeOutfd_outValid (failed : Int → Bool) (bs : List Byte) :
    Keeps HttpdResponse.OutValid (writeOutfd failed bs) := keeps_modify fun _ h => h

section

variable {υ : Type} (app : MinuteHttpdApp υ) (now : Nat) (user : υ)

theorem handleHead_flushed {s : HttpdResponse} (h : s.OutValid) :
    Meets (fun _ => True) (fun _ => Flushed) (handleHead app now user) s := by
  rw [handleHead, meets_bind, meets_get]
  refine (headers_outValid.handleCallbacks writeOutfd_outValid app now user s h).bind fun p s₁ h₁ => ?_
  refine (writeOutfd_outValid _ _ s₁ h₁).bind fun _ s₂ h₂ => ?_
  refine (headers_outValid.connectionHeaders s₂ h₂).bind fun _ s₃ h₃ => ?_
  exact (endHeaders_flushed h₃).bind fun _ _ h₄ => (meets_pure _).mpr h₄

end

/-! ## What follows the empty line -/

/-- The next `write` accepts nothing. -/
def Outfd.Refuses (fd : Outfd) : Prop :=
  fd.isOpen = false ∨ fd.cuts.head? = some none ∨ fd.cuts.head? = some (some 0)

theorem Outfd.write_sent_iff (fd : Outfd) {bs : List Byte} (hbs : bs ≠ []) :
    (fd.write bs).2.sent = fd.sent ↔ fd.Refuses := by
  have hlen := List.length_pos_iff.mpr hbs
  have hmore : ∀ w : List Byte, w ≠ [] → fd.sent ++ w ≠ fd.sent := fun w hw h => hw (List.append_right_eq_self.mp h)
  unfold Outfd.write Outfd.Refuses
  by_cases hopen : fd.isOpen = false
  · rw [if_pos hopen]
    exact iff_of_true rfl (.inl hopen)
  · rw [if_neg hopen]
    cases hcuts : fd.cuts with
    | nil => simpa [hopen] using hbs
    | cons cut cuts =>
      cases cut with
      | none => simp
      | some k =>
        cases k with
        | zero => simp
        | succ k => simpa [hopen] using hbs

/-- A closed descriptor has sent all that it will. -/
theorem closed_stable (sent : List Byte) :
    Stable fun s => s.state.outfd.isOpen = false ∧ s.state.outfd.sent = sent := by
  rintro s s' hgrows ⟨hclosed, hsent⟩
  obtain ⟨hclosed', hsame⟩ := hgrows.closed hclosed
  exact ⟨hclosed', hsame.trans hsent⟩

theorem flush_empty {s : HttpdResponse} (h : s.state.output.used = 0) :
    Meets (fun _ => True) (fun _ s' => s' = s) minuteHttpdFlush s := by
  simp only [minuteHttpdFlush, minuteHttpdChunk, meets_bind, meets_get]
  exact (chunkLoop_zero (by rw [h, List.length_nil]) _ _).mpr ((meets_pure _).mpr rfl)

/-- **The calls that finish a response without a body** send the end of a chunked one. -/
theorem handleFinish_sent {s : HttpdResponse} (h : Flushed s) :
    Meets (fun _ => True) (fun _ s' => s'.state.outfd.sent = s.state.outfd.sent ↔
      s.state.outfd.Refuses ∨ s.teChunked = false) handleFinish s := by
  by_cases hopen : s.state.outfd.isOpen = false
  · refine (handleFinish_stable (closed_stable s.state.outfd.sent) s ⟨hopen, rfl⟩).imp fun _ s' hs' => ?_
    exact iff_of_true hs'.2 (.inl (.inl hopen))
  · refine (flush_empty (h.resolve_right hopen)).bind fun _ s' hs' => ?_
    rw [hs']
    have hend : Meets (fun _ => True) (fun _ s' => s'.state.outfd.sent = s.state.outfd.sent ↔
        s.state.outfd.Refuses ∨ s.teChunked = false) minuteHttpdChunkEnd s := by
      rw [minuteHttpdChunkEnd, meets_bind, meets_get, meets_onlyIf]
      constructor
      · intro hte
        rw [writeOutfd, meets_modify, hte]
        have hsent := @Outfd.write_sent_iff s.state.outfd (bytes "0\r\n\r\n") (by decide)
        dsimp only
        split
        · rw [or_iff_left Bool.true_eq_false.mp]
          exact hsent
        · rw [or_iff_left Bool.true_eq_false.mp]
          exact hsent
      · exact fun hte => iff_of_true rfl (.inr (Bool.not_eq_true _ ▸ hte))
    refine hend.bind fun _ s₁ h₁ => (minuteHttpdInDiscard_writing s₁).bind fun _ s₂ h₂ => ?_
    rw [meets_bind, meets_get, meets_pure, ← h₁]
    rw [show s₂.state.outfd = s₁.state.outfd from congrArg (fun x => x.2.1) h₂]

/-! ## The page for a request that could not be parsed -/

/-- While an error is answered: no flag is set, and the indices of the out ring have not wrapped around and are at
most `n`. -/
structure Erring (n : Nat) (s : HttpdResponse) : Prop where
  valid : s.OutValid
  flags : s.headFlags = 0
  noWrap : s.state.output.read.toNat ≤ s.state.output.write.toNat
  le : s.state.output.write.toNat ≤ n

theorem Erring.mono {n m : Nat} {s : HttpdResponse} (h : Erring n s) (hle : n ≤ m) : Erring m s :=
  ⟨h.valid, h.flags, h.noWrap, Nat.le_trans h.le hle⟩

theorem erring_take {n l : Nat} {s : HttpdResponse} (h : Erring n s) (hl : l ≤ s.state.output.used) :
    Erring n { s with state.output := s.state.output.take l } := by
  have hle := h.noWrap
  have hlt := s.state.output.write.isLt
  have hread : s.state.output.write.toNat = s.state.output.read.toNat + s.state.output.used := by
    unfold Iobuf.used minuteIobufUsed
    rw [BitVec.toNat_sub]
    omega
  refine ⟨Iobuf.valid_take h.valid hl, h.flags, ?_, h.le⟩
  show (s.state.output.read + BitVec.ofNat 32 l).toNat ≤ s.state.output.write.toNat
  rw [BitVec.toNat_add, BitVec.toNat_ofNat]
  omega

theorem minuteHttpdChunk_erring (n : Nat) (buf : List Byte) (chunked : Bool) :
    Keeps (Erring n) (minuteHttpdChunk buf chunked) :=
  keeps_get.bind fun _ => chunkLoop_keeps (fun _ h => h.valid) (fun _ _ h => ⟨h.valid, h.flags, h.noWrap, h.le⟩)
    (fun _ _ h hl => erring_take h hl) _ _ _

theorem minuteHttpdOutput_erring {n : Nat} {s : HttpdResponse} (h : Erring n s) (append : List Byte)
    (hsum : n + append.length < 2 ^ 32) :
    Meets (fun _ => True) (fun _ => Erring (n + append.length)) (minuteHttpdOutput append false) s := by
  simp only [minuteHttpdOutput, meets_bind, meets_get]
  split
  · exact (minuteHttpdChunk_erring n _ _ s h).bind fun _ s' hs' => (meets_pure _).mpr (hs'.mono (Nat.le_add_right _ _))
  · rename_i hroom
    rw [meets_bind, meets_orStop]
    refine ⟨fun _ => trivial, fun x hx => (meets_set _).mpr ?_⟩
    have hfree : (minuteIobufFree s.state.output).toNat = s.state.output.size - s.state.output.used :=
      h.valid.size.free_eq h.valid.used_le
    have hused := h.valid.used_le
    have hle := h.noWrap
    have hn := h.le
    rw [BitVec.lt_def, BitVec.toNat_ofNat, hfree] at hroom
    by_cases hnil : append = []
    · rw [hnil, minuteIobufWrite_nil h.valid] at hx
      cases hx
    · rw [minuteIobufWrite_fits h.valid hnil (by omega)] at hx
      cases hx
      have hval : (s.state.output.append append).write.toNat = s.state.output.write.toNat + append.length := by
        show (s.state.output.write + BitVec.ofNat 32 append.length).toNat = _
        rw [BitVec.toNat_add, BitVec.toNat_ofNat]
        omega
      exact ⟨Iobuf.valid_append h.valid.size (by omega), h.flags, by rw [hval]; exact Nat.le_add_right_of_le hle,
        by rw [hval]; exact Nat.add_le_add_right hn _⟩

theorem minuteHttpdHeader_erring {n m : Nat} {s : HttpdResponse} (h : Erring n s) (header : HttpResponseHeader)
    (value : List Byte) (hm : n + (headerLine header value).length ≤ m) (hlt : m < 2 ^ 32) :
    Meets (fun _ => True) (fun _ => Erring m) (minuteHttpdHeader header value) s := by
  unfold headerLine at hm
  simp only [List.length_append] at hm
  rw [minuteHttpdHeader, meets_bind, meets_modify, minuteHttpdPrint_eq (by omega), minuteHttpdPrint_eq (by omega)]
  have hnoted : Erring n { s with history.headers := s.history.headers ++ headerLine header value } :=
    ⟨h.valid, h.flags, h.noWrap, h.le⟩
  refine (minuteHttpdOutput_erring hnoted (bytes (httpResponseHeaderNames.getD header.code "")) (by omega)).bind
    fun _ s₁ h₁ => ?_
  refine (minuteHttpdOutput_erring h₁ (bytes ": ") (by omega)).bind fun _ s₂ h₂ => ?_
  refine (minuteHttpdOutput_erring h₂ value (by omega)).bind fun _ s₃ h₃ => ?_
  exact (minuteHttpdOutput_erring h₃ crlf (by omega)).imp fun _ _ h₄ => h₄.mono (by omega)

/-- `handleError` up to the end of the header block. -/
def errorHead (now : Nat) (status : Int) : Httpd PUnit := do
  let resp ← get
  writeStatus resp.rq.serverProtocol status
  modify fun resp => { resp with headFlags := 0 }
  serverHeaders now
  let resp ← get
  onlyIf (resp.rq.serverProtocol = .v1_1) (minuteHttpdHeader .connection (bytes "close"))
  endHeaders

/-- The page behind the header block. -/
def errorPage (status : Int) : Httpd PUnit := do
  minuteHttpdStandardBody status
  minuteHttpdFlush
  minuteHttpdChunkEnd

theorem handleError_eq {υ : Type} (app : MinuteHttpdApp υ) (now : Nat) (status : Int) (user : υ) :
    handleError app now status user = (do
      errorHead now status
      errorPage status
      let resp ← get
      pure (-status, app.error resp.rq (BitVec.ofInt 32 status) user) : Httpd (Int × υ)) := by
  simp only [handleError, errorHead, errorPage, bind_assoc]

theorem length_minuteRfcDate_le (t : Nat) : (minuteRfcDate t).length ≤ 31 := by
  unfold minuteRfcDate
  exact List.length_take_le _ _

theorem length_headerLine (header : HttpResponseHeader) (value : List Byte) :
    (headerLine header value).length = (bytes (httpResponseHeaderNames.getD header.code "")).length + value.length + 4 := by
  unfold headerLine
  simp only [List.length_append, length_crlf]
  have hcolon : (bytes ": ").length = 2 := by decide
  omega

theorem errorHeaders_erring (now : Nat) {s : HttpdResponse} (h : Erring 0 s) :
    Meets (fun _ => True) (fun _ => Erring 200) (do
      serverHeaders now
      let resp ← get
      onlyIf (resp.rq.serverProtocol = .v1_1) (minuteHttpdHeader .connection (bytes "close")) : Httpd PUnit) s := by
  have hserver : (headerLine .server serverText).length ≤ 40 := by decide
  have hclose : (headerLine .connection (bytes "close")).length ≤ 40 := by decide
  have hname : (bytes (httpResponseHeaderNames.getD HttpResponseHeader.date.code "")).length ≤ 10 := by decide
  have hdate := length_headerLine .date (minuteRfcDate now)
  have hlen := length_minuteRfcDate_le now
  have hheaders : Meets (fun _ => True) (fun _ => Erring 100) (serverHeaders now) s :=
    (minuteHttpdHeader_erring h .server serverText (m := 40) (by omega) (by decide)).bind fun _ _ h₁ =>
      minuteHttpdHeader_erring h₁ .date (minuteRfcDate now) (by omega) (by decide)
  refine hheaders.bind fun _ s₁ h₁ => ?_
  rw [meets_bind, meets_get, meets_onlyIf]
  exact ⟨fun _ => minuteHttpdHeader_erring h₁ .connection (bytes "close") (by omega) (by decide),
    fun _ => h₁.mono (by decide)⟩

theorem errorHead_erring (now : Nat) (status : Int) {s : HttpdResponse} (h : s.OutValid)
    (hread : s.state.output.read = 0) (hwrite : s.state.output.write = 0) :
    Meets (fun _ => True) (fun _ s' => Flushed s' ∧ Erring 200 s') (errorHead now status) s := by
  have heq : errorHead now status = (do
      let resp ← get
      writeStatus resp.rq.serverProtocol status
      modify fun resp => { resp with headFlags := 0 }
      (do
        serverHeaders now
        let resp ← get
        onlyIf (resp.rq.serverProtocol = .v1_1) (minuteHttpdHeader .connection (bytes "close")))
      endHeaders : Httpd PUnit) := by
    simp only [errorHead, bind_assoc]
  rw [heq, meets_bind, meets_get, writeStatus, writeOutfd, meets_bind, meets_modify, meets_bind, meets_modify]
  have hle : s.state.output.read.toNat ≤ s.state.output.write.toNat :=
    Nat.le_of_eq (by rw [hread, hwrite])
  have hzero : s.state.output.write.toNat ≤ 0 := Nat.le_of_eq (congrArg BitVec.toNat hwrite)
  refine (errorHeaders_erring now (?_ : Erring 0 _)).bind fun _ s₁ h₁ => ?_
  · exact ⟨h, rfl, hle, hzero⟩
  · have hkept : Meets (fun _ => True) (fun _ => Erring 200) endHeaders s₁ :=
      (minuteHttpdChunk_erring _ _ _ s₁ h₁).bind fun _ _ h₂ => (meets_pure _).mpr h₂
    exact (endHeaders_flushed h₁.valid).and hkept

theorem refuses_write {fd : Outfd} (h : fd.Refuses) (bs : List Byte) : ¬0 < (fd.write bs).1 := by
  unfold Outfd.write
  obtain hclosed | hcut | hcut := h
  · rw [if_pos hclosed]
    exact (by decide : ¬(0 : Int) < -1)
  · split
    · exact (by decide : ¬(0 : Int) < -1)
    · obtain ⟨cuts, hcuts⟩ := List.head?_eq_some_iff.mp hcut
      rw [hcuts]
      exact (by decide : ¬(0 : Int) < -1)
  · split
    · exact (by decide : ¬(0 : Int) < -1)
    · obtain ⟨cuts, hcuts⟩ := List.head?_eq_some_iff.mp hcut
      rw [hcuts]
      dsimp only
      rw [List.take_zero]
      decide

/-- **A block without a size line** goes out at least in part, unless the peer refuses it. -/
theorem minuteHttpdChunk_sent {s : HttpdResponse} {buf : List Byte} (hring : s.state.output.Valid)
    (hle : s.state.output.read.toNat ≤ s.state.output.write.toNat)
    (hpos : 0 < s.state.output.used + buf.length) (hlt : s.state.output.used + buf.length < 2 ^ 32) :
    Meets (fun _ => True) (fun _ s' => s'.state.outfd.sent = s.state.outfd.sent ↔ s.state.outfd.Refuses)
      (minuteHttpdChunk buf false) s := by
  have hne : s.state.output.contents ++ buf ≠ [] := by
    refine List.ne_nil_of_length_pos ?_
    rw [List.length_append, Iobuf.length_contents]
    exact hpos
  have hsame := Outfd.write_sent_iff s.state.outfd hne
  have hnonzero := mt (total_eq_zero_iff hlt).mp (Nat.ne_of_gt hpos)
  by_cases hrefuses : s.state.outfd.Refuses
  · refine (minuteHttpdChunk_first (closed_stable s.state.outfd.sent) hring hle ?_).imp fun _ s' hs' => ?_
    · rintro s' (hfd | ⟨hpos, -⟩)
      · rw [hfd]
        exact ⟨rfl, hsame.mpr hrefuses⟩
      · exact absurd hpos (refuses_write hrefuses _)
    · obtain ⟨-, hsent⟩ | ⟨-, hzero⟩ := hs'
      · exact iff_of_true hsent hrefuses
      · exact absurd hzero hnonzero
  · have hstable : Stable fun s' => s.state.outfd.sent.length < s'.state.outfd.sent.length :=
      fun _ _ hgrows h => Nat.lt_of_lt_of_le h hgrows.sent.length_le
    have hmore : s.state.outfd.sent.length <
        (s.state.outfd.write (s.state.output.contents ++ buf)).2.sent.length := by
      have hgrows := (s.state.outfd.grows_write (s.state.output.contents ++ buf)).sent
      refine Nat.lt_of_le_of_ne hgrows.length_le fun hlen => hrefuses (hsame.mp ?_)
      exact (hgrows.eq_of_length hlen).symm
    refine (minuteHttpdChunk_first hstable hring hle ?_).imp fun _ s' hs' => ?_
    · rintro s' (hfd | ⟨-, hfd⟩)
      · rw [hfd]
        exact hmore
      · rw [hfd]
        exact hmore
    · obtain hlonger | ⟨-, hzero⟩ := hs'
      · exact iff_of_false (fun hsent => absurd (congrArg List.length hsent) (by omega)) hrefuses
      · exact absurd hzero hnonzero

theorem minuteHttpdFlush_sent {s : HttpdResponse} (hte : s.teChunked = false) (hring : s.state.output.Valid)
    (hle : s.state.output.read.toNat ≤ s.state.output.write.toNat) (hpos : 0 < s.state.output.used) :
    Meets (fun _ => True) (fun _ s' => s'.headFlags = s.headFlags ∧
      (s'.state.outfd.sent = s.state.outfd.sent ↔ s.state.outfd.Refuses)) minuteHttpdFlush s := by
  have hlt := (minuteIobufUsed s.state.output).isLt
  have hchunk := @minuteHttpdChunk_sent s [] hring hle hpos hlt
  have hflags := headFlags_of_reading (minuteHttpdChunk_reading [] false) s
  rw [minuteHttpdFlush, meets_bind, meets_get, hte]
  refine (hflags.and hchunk).bind fun _ s' hs' => ?_
  rw [meets_pure]
  exact hs'

theorem Erring.teChunked {n : Nat} {s : HttpdResponse} (h : Erring n s) : s.teChunked = false := by
  unfold HttpdResponse.teChunked
  rw [h.flags]
  decide

theorem minuteHttpdFlush_appended {n : Nat} {s : HttpdResponse} (hs : Erring n s) {text : List Byte}
    (hpos : 0 < text.length) (hroom : s.state.output.used + text.length ≤ s.state.output.size)
    (hn : n + text.length < 2 ^ 32) :
    Meets (fun _ => True) (fun _ s' => s'.headFlags = 0 ∧
      (s'.state.outfd.sent = s.state.outfd.sent ↔ s.state.outfd.Refuses)) minuteHttpdFlush
      { s with state.output := s.state.output.append text } := by
  have hlow := hs.le
  have hused : (s.state.output.append text).used = s.state.output.used + text.length :=
    Iobuf.used_append hs.valid.size hroom
  have hwrite : (s.state.output.append text).write.toNat = s.state.output.write.toNat + text.length := by
    show (s.state.output.write + BitVec.ofNat 32 text.length).toNat = _
    rw [BitVec.toNat_add, BitVec.toNat_ofNat]
    omega
  have hle : (s.state.output.append text).read.toNat ≤ (s.state.output.append text).write.toNat := by
    rw [hwrite]
    exact Nat.le_add_right_of_le hs.noWrap
  have hflush := @minuteHttpdFlush_sent { s with state.output := s.state.output.append text } hs.teChunked
    (Iobuf.valid_append hs.valid.size hroom) hle (by show 0 < (s.state.output.append text).used; omega)
  exact hflush.imp fun _ s' hs' => ⟨hs'.1.trans hs.flags, hs'.2⟩

/-- **The page follows the empty line** if there is room for it in the ring. -/
theorem errorPage_sent {n : Nat} {s : HttpdResponse} (h : Flushed s) (hs : Erring n s) (hn : n + 200 < 2 ^ 32)
    (status : Uint) :
    Meets (fun _ => True) (fun _ s' => s'.state.outfd.sent = s.state.outfd.sent ↔
      s.state.outfd.Refuses ∨ s.state.output.size < (standardBodyText status.toInt).length)
      (errorPage status.toInt) s := by
  by_cases hopen : s.state.outfd.isOpen = false
  · have hstable := closed_stable s.state.outfd.sent
    have hpage : Keeps (fun s' => s'.state.outfd.isOpen = false ∧ s'.state.outfd.sent = s.state.outfd.sent)
        (errorPage status.toInt) :=
      (minuteHttpdStandardBody_stable hstable _).bind fun _ => (minuteHttpdFlush_stable hstable).bind fun _ =>
        minuteHttpdChunkEnd_stable hstable
    exact (hpage s ⟨hopen, rfl⟩).imp fun _ s' hs' => iff_of_true hs'.2 (.inl (.inl hopen))
  · have hempty := h.resolve_right hopen
    have hend (s' : HttpdResponse) (hs' : s'.headFlags = 0) :
        Meets (fun _ => True) (fun _ s₂ => s₂.state.outfd.sent = s'.state.outfd.sent) minuteHttpdChunkEnd s' := by
      have hte : s'.teChunked = false := by
        unfold HttpdResponse.teChunked
        rw [hs']
        decide
      rw [minuteHttpdChunkEnd, meets_bind, meets_get, meets_onlyIf, hte]
      exact ⟨nofun, fun _ => rfl⟩
    obtain ⟨text, htext, hpos, hlen⟩ : ∃ text, standardBodyText status.toInt = text ∧ 0 < text.length ∧
        text.length < 200 := ⟨_, rfl, length_standardBodyText status⟩
    refine ((minuteHttpdStandardBody_spec hs.valid status).imp_error fun _ _ => trivial).bind fun _ s₁ h₁ => ?_
    have hfits : GenericFits status.toInt s ↔ s.state.output.used + text.length ≤ s.state.output.size := by
      rw [← htext]
      exact Iff.rfl
    rw [htext]
    by_cases hroom : GenericFits status.toInt s
    · rw [if_pos hroom, htext] at h₁
      rw [hfits] at hroom
      rw [h₁]
      refine (minuteHttpdFlush_appended hs hpos hroom (by omega)).bind fun _ s₂ h₂ => ?_
      refine (hend s₂ h₂.1).imp fun _ s₃ h₃ => ?_
      rw [h₃, h₂.2, or_iff_left (by omega)]
    · rw [if_neg hroom] at h₁
      rw [hfits] at hroom
      rw [h₁]
      refine (flush_empty hempty).bind fun _ s₂ h₂ => ?_
      rw [h₂]
      exact (hend s hs.flags).imp fun _ s₃ h₃ => iff_of_true h₃ (.inr (by omega))

/-! ## The result -/

/-- `handleStatus` as far as the empty line, for the request that was read with `parsed`: the final status. -/
def headToBlank {υ : Type} (app : MinuteHttpdApp υ) (now : Nat) (user : υ) (parsed : Int) : Httpd Int :=
  if parsed = 0 then do
    minuteHttpdStart
    let (status, _) ← handleHead app now user
    pure status
  else do
    errorHead now parsed
    pure parsed

/-- The response is to have no body: to `HEAD`, or with one of the three statuses that the application has settled on. -/
def Bodyless (parsed status : Int) (s : HttpdResponse) : Prop :=
  s.rq.requestMethod = .head ∨ (parsed = 0 ∧ (status = 204 ∨ status = 205 ∨ status = 304))

/-- What keeps the code from sending anything behind the empty line: the peer refuses it, or else the response is
not chunked, and the page for a request that could not be parsed does not fit the ring. -/
def Silent (parsed : Int) (s : HttpdResponse) : Prop :=
  s.state.outfd.Refuses ∨
    if parsed = 0 then s.teChunked = false else s.state.output.size < (standardBodyText parsed).length

section

variable {υ : Type} {app : MinuteHttpdApp υ} {now : Nat} {user user' : υ} {state : HttpdState} {parsed status r : Int}
  {s₀ s₁ resp : HttpdResponse}

theorem refillUnless_status (prefilled : Bool) (s : HttpdResponse) :
    Meets (fun _ => True) (fun ended _ => ∀ status, ended = some status → -1 ≤ status ∧ status < 1000)
      (refillUnless prefilled) s := by
  unfold refillUnless
  split
  · exact (meets_pure _).mpr fun _ hnone => absurd hnone.symm (Option.some_ne_none _)
  · refine (readfd_writing s).bind fun r s₁ _ => ?_
    rw [meets_bind, meets_get]
    split
    · exact (meets_pure _).mpr fun status hs => by cases hs; decide
    · split
      · exact (meets_pure _).mpr fun status hs => by cases hs; decide
      · exact (meets_pure _).mpr fun _ hnone => absurd hnone.symm (Option.some_ne_none _)

theorem httpRead_status (rqs : MinuteHttpRqs) (s : HttpdResponse) :
    Meets (fun _ => True) (fun x _ => 0 ≤ x.1 ∧ x.1 < 1000) (httpRead rqs) s := by
  rw [httpRead, meets_bind, meets_get]
  split
  · rename_i n rq rqs' io text hcode
    have hlt := minuteHttpRead_code hcode
    exact (meets_set_pure _ _).mpr ⟨Int.natCast_nonneg n, show (n : Int) < 1000 by omega⟩
  · exact (meets_throw _).mpr trivial
  · exact (meets_throw _).mpr trivial

theorem readRequestLoop_status (turns : Nat) (prefilled : Bool) (rqs : MinuteHttpRqs) (s : HttpdResponse) :
    Meets (fun _ => True) (fun status _ => -1 ≤ status ∧ status < 1000) (readRequestLoop turns prefilled rqs) s := by
  induction turns generalizing prefilled rqs s with
  | zero => exact (meets_throw _).mpr trivial
  | succ turns ih =>
    refine (refillUnless_status prefilled s).bind fun ended s₁ hended => ?_
    split
    · exact (meets_pure _).mpr (hended _ rfl)
    · refine (httpRead_status _ s₁).bind fun x s₂ hx => ?_
      obtain ⟨status, rqs'⟩ := x
      dsimp only at hx ⊢
      split
      · exact ih _ _ _
      · exact (meets_pure _).mpr ⟨by omega, hx.2⟩

theorem handleRequest_status (s : HttpdResponse) :
    Meets (fun _ => True) (fun status _ => -1 ≤ status ∧ status < 1000) handleRequest s := by
  simp only [handleRequest, minuteHttpdReadRequest, meets_bind, meets_modify, meets_get, meets_set]
  exact readRequestLoop_status _ _ _ _

theorem headToBlank_zero (hblank : headToBlank app now user 0 s₀ = .ok (status, s₁)) :
    ∃ user₁, handleHead app now user s₀.started = .ok ((status, user₁), s₁) := by
  obtain ⟨⟨⟩, s, hstart, hhead⟩ := bind_eq_ok.mp hblank
  cases hstart
  obtain ⟨⟨status', user₁⟩, s, hhead, hpure⟩ := bind_eq_ok.mp hhead
  cases hpure
  exact ⟨user₁, hhead⟩

theorem headToBlank_error (hne : parsed ≠ 0) (hblank : headToBlank app now user parsed s₀ = .ok (status, s₁)) :
    status = parsed ∧ errorHead now parsed s₀ = .ok (⟨⟩, s₁) := by
  rw [headToBlank, if_neg hne] at hblank
  obtain ⟨⟨⟩, s, hhead, hpure⟩ := bind_eq_ok.mp hblank
  cases hpure
  exact ⟨rfl, hhead⟩

theorem answered_sent (hvalid : s₀.OutValid) (hblank : headToBlank app now user 0 s₀ = .ok (status, s₁))
    (hbodyless : Bodyless 0 status s₁) :
    Meets (fun _ => True) (fun _ s' => s'.state.outfd.sent = s₁.state.outfd.sent ↔ Silent 0 s₁)
      (handleStatus app now user 0) s₀ := by
  obtain ⟨user₁, hhead⟩ := headToBlank_zero hblank
  have hflushed : Flushed s₁ := meets_iff.mp
    (@handleHead_flushed _ app now user s₀.started hvalid) _ _ hhead
  have hno : ¬hasBody s₁.rq status := by
    rintro ⟨hmethod, h204, h205, h304⟩
    obtain hm | ⟨-, hs | hs | hs⟩ := hbodyless
    · exact hmethod hm
    · exact h204 hs
    · exact h205 hs
    · exact h304 hs
  rw [meets_congr (handleStatus_answers app now user s₀), meets_bind, meets_ok hhead, meets_bind, handleBody,
    meets_bind, meets_get, if_neg hno, meets_pure]
  exact (handleFinish_sent hflushed).bind fun _ _ hs' => (meets_pure _).mpr hs'

theorem rejected_sent (hvalid : s₀.OutValid) (hread : s₀.state.output.read = 0) (hwrite : s₀.state.output.write = 0)
    (hpos : 0 < parsed) (hlt : parsed < 1000) (hblank : headToBlank app now user parsed s₀ = .ok (status, s₁)) :
    Meets (fun _ => True) (fun _ s' => s'.state.outfd.sent = s₁.state.outfd.sent ↔ Silent parsed s₁)
      (handleStatus app now user parsed) s₀ := by
  have hne : parsed ≠ 0 := Int.ne_of_gt hpos
  obtain ⟨-, hhead⟩ := headToBlank_error hne hblank
  obtain ⟨hflushed, herring⟩ := meets_iff.mp (errorHead_erring now parsed hvalid hread hwrite) _ _ hhead
  have hcode : (BitVec.ofInt 32 parsed).toInt = parsed := by
    rw [BitVec.toInt_ofInt, Int.bmod_eq_of_le]
    · omega
    · omega
  have hpage := errorPage_sent hflushed herring (by decide) (BitVec.ofInt 32 parsed)
  rw [hcode] at hpage
  rw [handleStatus, if_neg (by omega), if_pos hne, handleError_eq, meets_bind, meets_ok hhead, Silent, if_neg hne]
  refine hpage.bind fun _ s' hs' => ?_
  rw [meets_bind, meets_get, meets_pure]
  exact hs'

/-- **When nothing follows the empty line of a response that is to have no body**, in every call that returns. -/
theorem bodyless_silent_iff (hsize : state.output.SizeOk) (hrequest : handleRequest (.init state) = .ok (parsed, s₀))
    (hblank : headToBlank app now user parsed s₀ = .ok (status, s₁)) (hparsed : 0 ≤ parsed)
    (hbodyless : Bodyless parsed status s₁)
    (h : minuteHttpdHandle app now user state = .ok ((r, user'), resp)) :
    resp.state.outfd.sent = s₁.state.outfd.sent ↔ Silent parsed s₁ := by
  obtain ⟨hout, -⟩ := meets_iff.mp (@handleRequest_clears state) _ _ hrequest
  have hvalid : s₀.OutValid := by
    rw [HttpdResponse.OutValid, hout]
    exact ⟨hsize, by rw [used_clear]; exact Nat.zero_le _⟩
  have hread : s₀.state.output.read = 0 := by rw [hout]; rfl
  have hwrite : s₀.state.output.write = 0 := by rw [hout]; rfl
  have hlt := (meets_iff.mp (handleRequest_status _) _ _ hrequest).2
  obtain ⟨parsed', s, hs, hstatus⟩ := bind_eq_ok.mp h
  rw [hrequest] at hs
  cases hs
  by_cases hzero : parsed = 0
  · subst hzero
    exact meets_iff.mp (answered_sent hvalid hblank hbodyless) _ _ hstatus
  · exact meets_iff.mp (rejected_sent hvalid hread hwrite (by omega) hlt hblank) _ _ hstatus

end

instance bodylessDecidable (parsed status : Int) (s : HttpdResponse) : Decidable (Bodyless parsed status s) := by
  unfold Bodyless
  infer_instance

theorem blank_runs {request : String} {status : Uint} {P : Bool → Bool}
    (h : accepts (fun x => decide (x.1 = 0) && accepts (fun y => decide (Bodyless 0 y.1 y.2) && accepts (fun z =>
      P (decide (z.2.state.outfd.sent = y.2.state.outfd.sent))) (minuteHttpdHandle (silentApp status) 0 () (connected request)))
      (headToBlank (silentApp status) 0 () 0 x.2)) (handleRequest (.init (connected request))) = true) :
    ∃ s₀ s₁ final r resp, handleRequest (.init (connected request)) = .ok (0, s₀) ∧
      headToBlank (silentApp status) 0 () 0 s₀ = .ok (final, s₁) ∧ Bodyless 0 final s₁ ∧
      minuteHttpdHandle (silentApp status) 0 () (connected request) = .ok ((r, ()), resp) ∧
      P (decide (resp.state.outfd.sent = s₁.state.outfd.sent)) = true := by
  obtain ⟨⟨parsed, s₀⟩, hs₀, hp⟩ := accepts_iff.mp h
  rw [Bool.and_eq_true, decide_eq_true_iff] at hp
  obtain ⟨rfl, hblank⟩ := hp
  obtain ⟨⟨final, s₁⟩, hs₁, hp⟩ := accepts_iff.mp hblank
  rw [Bool.and_eq_true, decide_eq_true_iff] at hp
  obtain ⟨hbodyless, hhandle⟩ := hp
  obtain ⟨⟨⟨r, ⟨⟩⟩, resp⟩, hresp, hsent⟩ := accepts_iff.mp hhandle
  exact ⟨s₀, s₁, final, r, resp, hs₀, hs₁, hbodyless, hresp, hsent⟩

/-- No content on a connection that is closed: nothing is sent behind the empty line. -/
theorem bodyless_silent_closing : ∃ s₁ r resp,
    minuteHttpdHandle (silentApp 204) 0 () (connected "GET / HTTP/1.1\r\nConnection: close\r\n\r\n") =
      .ok ((r, ()), resp) ∧
    (resp.state.outfd.sent = s₁.state.outfd.sent ↔ Silent 0 s₁) := by
  have hrun := @blank_runs "GET / HTTP/1.1\r\nConnection: close\r\n\r\n" 204 id (by decide +kernel)
  obtain ⟨s₀, s₁, final, r, resp, hrequest, hblank, hbodyless, hhandle, -⟩ := hrun
  exact ⟨s₁, r, resp, hhandle,
    bodyless_silent_iff (connected_outValid _).size hrequest hblank (Int.le_refl 0) hbodyless hhandle⟩

/-- `HEAD` on a connection that is kept: the end of a chunked body follows the empty line. -/
theorem bodyless_head_chunked : ∃ s₀ s₁ final r resp,
    handleRequest (.init (connected "HEAD / HTTP/1.1\r\n\r\n")) = .ok (0, s₀) ∧
    headToBlank (silentApp 200) 0 () 0 s₀ = .ok (final, s₁) ∧ Bodyless 0 final s₁ ∧
    minuteHttpdHandle (silentApp 200) 0 () (connected "HEAD / HTTP/1.1\r\n\r\n") = .ok ((r, ()), resp) ∧
    resp.state.outfd.sent ≠ s₁.state.outfd.sent := by
  have hrun := @blank_runs "HEAD / HTTP/1.1\r\n\r\n" 200 not (by decide +kernel)
  obtain ⟨s₀, s₁, final, r, resp, hrequest, hblank, hbodyless, hhandle, hsent⟩ := hrun
  refine ⟨s₀, s₁, final, r, resp, hrequest, hblank, hbodyless, hhandle, ?_⟩
  rwa [Bool.not_eq_true', decide_eq_false_iff_not] at hsent

end MinuteHttp
