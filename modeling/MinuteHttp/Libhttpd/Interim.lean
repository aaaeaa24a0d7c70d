import MinuteHttp.Libhttpd.Output
import MinuteHttp.Libhttpd.Sent

/-!
# The interim response

The status line of a 100 response goes straight to `outfd`, and no empty line follows it: the next byte is
the first of a header line or of the final status line. So a client that looks for the empty line never
reads the interim response by itself (`interim_never`). `Track` is the invariant up to that next byte.
-/

namespace MinuteHttp

open Effect

/-! ## What the client reads -/

/-- The lines up to the first empty one, and what follows it. -/
def cutHead : List Byte → Option (List Byte × List Byte)
  | [] => none
  | c :: bs =>
    if crlf ++ crlf <+: c :: bs then some (crlf, (c :: bs).drop 4)
    else (cutHead bs).map fun x => (c :: x.1, x.2)

theorem cutHead_eq {bs : List Byte} {head rest : List Byte} (h : cutHead bs = some (head, rest)) :
    bs = head ++ crlf ++ rest := by
  induction bs generalizing head with
  | nil => cases h
  | cons c bs ih =>
    rw [cutHead] at h
    split at h
    · rename_i hcut
      obtain ⟨tail, htail⟩ := hcut
      cases h
      rw [← htail, List.drop_left' (by decide)]
    · obtain ⟨⟨head', rest'⟩, hx, hcons⟩ := Option.map_eq_some_iff.mp h
      cases hcons
      rw [ih hx]
      rfl

/-- The head of the interim response: its status line and an empty line. -/
def interimHead (version : HttpVersion) : List Byte := statusLine version 100 ++ crlf

/-- Of what was sent in a call, the client reads a head that is the interim status line, and then one
that is the final status line with all headers. -/
def InterimRight (version : HttpVersion) (state : HttpdState) (resp : HttpdResponse) : Prop :=
  ∃ rest, cutHead (resp.state.outfd.sent.drop state.outfd.sent.length) = some (statusLine version 100, rest) ∧
    ∃ status body, cutHead rest = some (statusLine version status ++ resp.history.headers, body)

/-! ## Bytes that do not belong there -/

section

variable {version : HttpVersion} {w more : List Byte}

/-- Some byte is not that of the interim response's head. -/
def OffTrack (version : HttpVersion) (w : List Byte) : Prop :=
  ∃ (i : Nat) (c d : Byte), w[i]? = some c ∧ (interimHead version)[i]? = some d ∧ c ≠ d

theorem OffTrack.append (h : OffTrack version w) (more : List Byte) : OffTrack version (w ++ more) := by
  obtain ⟨i, c, d, hc, hd, hne⟩ := h
  refine ⟨i, c, d, ?_, hd, hne⟩
  rw [List.getElem?_append_left (List.getElem?_eq_some_iff.mp hc).1, hc]

theorem OffTrack.not_prefix (h : OffTrack version w) : ¬interimHead version <+: w := by
  rintro ⟨rest, hrest⟩
  obtain ⟨i, c, d, hc, hd, hne⟩ := h
  rw [← hrest, List.getElem?_append_left (List.getElem?_eq_some_iff.mp hd).1, hd] at hc
  exact hne (Option.some.inj hc).symm

theorem interimHead_letters (version : HttpVersion) :
    83 ∉ interimHead version ∧ 72 ∉ (interimHead version).tail := by
  cases version <;> decide +kernel

theorem length_interimHead (version : HttpVersion) :
    (interimHead version).length = (statusLine version 100).length + 2 := by
  rw [interimHead, List.length_append, length_crlf]

/-- Behind a part of the status line there comes neither an `S` nor, but for the first byte, an `H`. -/
theorem offTrack_letter {c : Byte} (hw : w <+: statusLine version 100) (hc : c = 83 ∨ (c = 72 ∧ w ≠ [])) :
    OffTrack version (w ++ c :: more) := by
  have hlen := hw.length_le
  have htotal := length_interimHead version
  obtain ⟨d, hd⟩ : ∃ d, (interimHead version)[w.length]? = some d :=
    ⟨_, List.getElem?_eq_getElem (by omega)⟩
  refine ⟨w.length, c, d, ?_, hd, ?_⟩
  · rw [List.getElem?_append_right (Nat.le_refl _), Nat.sub_self, List.getElem?_cons_zero]
  · intro hcd
    rw [← hcd] at hd
    obtain ⟨hS, hH⟩ := interimHead_letters version
    obtain rfl | ⟨rfl, hne⟩ := hc
    · exact hS (List.mem_of_getElem? hd)
    · obtain ⟨n, hn⟩ : ∃ n, w.length = n + 1 := ⟨w.length - 1, by have := List.length_pos_iff.mpr hne; omega⟩
      rw [hn, ← List.getElem?_tail] at hd
      exact hH (List.mem_of_getElem? hd)

theorem not_interimHead_of_part (hw : w <+: statusLine version 100) : ¬interimHead version <+: w := by
  intro h
  have hle := h.length_le
  have hlen := hw.length_le
  rw [length_interimHead] at hle
  omega

end

/-! ## The invariant -/

section

variable {old w : List Byte} {version : HttpVersion}

/-- What is sent does not begin with the interim response's head, and will not. -/
def Missed (old : List Byte) (version : HttpVersion) (s : HttpdResponse) : Prop :=
  ∃ w, s.state.outfd.sent = old ++ w ∧
    (OffTrack version w ∨ (s.state.outfd.isOpen = false ∧ ¬interimHead version <+: w))

/-- Since `old` there has been sent `w`, and the header lines, which begin with an `S`, are all in the ring. -/
structure OnTrack (old w : List Byte) (s : HttpdResponse) : Prop where
  ring : s.OutValid
  small : s.state.output.size < 2 ^ 31
  sent : s.state.outfd.sent = old ++ w
  start : s.state.output.read = 0
  letter : s.state.output.contents.head? = some 83

def Track (old w : List Byte) (version : HttpVersion) (s : HttpdResponse) : Prop :=
  OnTrack old w s ∨ Missed old version s

theorem missed_stable : Stable (Missed old version) := by
  rintro s s' hgrows ⟨w, hw, hmissed⟩
  obtain ⟨more, hmore⟩ := hgrows.sent
  obtain hoff | ⟨hclosed, hno⟩ := hmissed
  · refine ⟨w ++ more, ?_, .inl (hoff.append more)⟩
    rw [← hmore, hw, List.append_assoc]
  · obtain ⟨hclosed', hsame⟩ := hgrows.closed hclosed
    exact ⟨w, hsame.trans hw, .inr ⟨hclosed', hno⟩⟩

theorem offTrack_missed {s : HttpdResponse} {c : Byte} {more : List Byte} (hw : w <+: statusLine version 100)
    (hc : c = 83 ∨ (c = 72 ∧ w ≠ [])) (hsent : s.state.outfd.sent = old ++ (w ++ c :: more)) :
    Missed old version s := ⟨_, hsent, .inl (offTrack_letter hw hc)⟩

theorem closed_missed {s : HttpdResponse} (hw : w <+: statusLine version 100)
    (hsent : s.state.outfd.sent = old ++ w) (hclosed : s.state.outfd.isOpen = false) : Missed old version s :=
  ⟨w, hsent, .inr ⟨hclosed, not_interimHead_of_part hw⟩⟩

/-- **A block behind the ring**: it is not sent, or its first byte is an `S`. -/
theorem minuteHttpdChunk_missed {s : HttpdResponse} {buf : List Byte} (hw : w <+: statusLine version 100)
    (hsent : s.state.outfd.sent = old ++ w) (hring : s.OutValid) (hstart : s.state.output.read = 0)
    (hletter : (s.state.output.contents ++ buf).head? = some 83) :
    Meets (fun _ => True) (fun _ s' => Missed old version s' ∨
      (s' = s ∧ minuteIobufUsed s.state.output + BitVec.ofNat 32 buf.length = 0)) (minuteHttpdChunk buf false) s := by
  refine minuteHttpdChunk_first missed_stable hring (by rw [hstart]; exact Nat.zero_le _) fun s' hs' => ?_
  obtain ⟨hnone, hsame⟩ | ⟨-, more, hmore⟩ := write_letter s.state.outfd hletter
  · obtain hfd | ⟨hpos, -⟩ := hs'
    · exact closed_missed hw (by rw [hfd]; exact hsame.trans hsent) (by rw [hfd]; rfl)
    · omega
  · refine offTrack_missed hw (.inl rfl) (?_ : _ = _ ++ (_ ++ _ :: more))
    rw [← List.append_assoc, ← hsent, ← hmore]
    obtain hfd | ⟨-, hfd⟩ := hs' <;> rw [hfd]
    rfl

theorem minuteHttpdOutput_track (hw : w <+: statusLine version 100) (append : List Byte) :
    Keeps (Track old w version) (minuteHttpdOutput append false) := by
  intro s hs
  obtain hon | hmissed := hs
  · simp only [minuteHttpdOutput, meets_bind, meets_get]
    have hfree := hon.ring.size.free_eq hon.ring.used_le
    split
    · have hletter : (s.state.output.contents ++ append).head? = some 83 := by
        rw [List.head?_append, hon.letter]
        rfl
      refine (minuteHttpdChunk_missed hw hon.sent hon.ring hon.start hletter).bind fun _ s' hs' => ?_
      rw [meets_pure]
      obtain hmissed | ⟨rfl, -⟩ := hs'
      · exact .inr hmissed
      · exact .inl hon
    · rename_i hroom
      rw [BitVec.lt_def, hfree] at hroom
      have hused := hon.ring.used_le
      by_cases hzero : BitVec.ofNat 32 append.length = 0
      · rw [minuteIobufWrite_zero hon.ring hon.small hzero]
        exact (meets_bind _ _).mpr ((meets_throw _).mpr trivial)
      · have hpos : 0 < (BitVec.ofNat 32 append.length).toNat := by
          refine Nat.pos_of_ne_zero fun h => hzero ?_
          exact BitVec.eq_of_toNat_eq h
        have hfit : s.state.output.used + (append.take (BitVec.ofNat 32 append.length).toNat).length ≤
            s.state.output.size := by
          rw [List.length_take]
          omega
        rw [minuteIobufWrite_eq hon.ring rfl hpos (by omega), orStop, pure_bind]
        refine (meets_set _).mpr (.inl ⟨Iobuf.valid_append hon.ring.size hfit, hon.small, hon.sent, hon.start, ?_⟩)
        show (Iobuf.contents (Iobuf.append _ _)).head? = _
        rw [Iobuf.contents_append hon.ring.size hfit, List.head?_append, hon.letter]
        rfl
  · exact (minuteHttpdOutput_stable missed_stable append false s hmissed).imp fun _ _ h => .inr h

theorem track_of_writing {α : Type} {m : Httpd α} (h : Leaves HttpdResponse.writing m) :
    Keeps (Track old w version) m := by
  intro s hs
  refine (h s).imp fun _ s' hs' => ?_
  have hout : s'.state.output = s.state.output := congrArg (fun x => x.1) hs'
  have hfd : s'.state.outfd = s.state.outfd := congrArg (fun x => x.2.1) hs'
  obtain hon | hmissed := hs
  · refine .inl ⟨?_, ?_, ?_, ?_, ?_⟩
    · rw [HttpdResponse.OutValid, hout]
      exact hon.ring
    · rw [hout]
      exact hon.small
    · rw [hfd]
      exact hon.sent
    · rw [hout]
      exact hon.start
    · rw [hout]
      exact hon.letter
  · exact .inr (missed_stable.same hfd hmissed)

theorem headers_track (hw : w <+: statusLine version 100) : KeptByHeaders (Track old w version) := by
  refine keptByHeaders_of_output (fun _ _ => keeps_modify fun s hs => ?_) (minuteHttpdOutput_track hw)
    fun count => track_of_writing (minuteHttpdInRead_writing true count)
  obtain hon | hmissed := hs
  · exact .inl ⟨hon.ring, hon.small, hon.sent, hon.start, hon.letter⟩
  · exact .inr (missed_stable.same (s := s) rfl hmissed)

/-! ## From the first byte of the ring to the final status line -/

theorem minuteHttpdOutput_first {s : HttpdResponse} {append : List Byte} (hring : s.OutValid)
    (hsmall : s.state.output.size < 2 ^ 31) (hstart : s.state.output.read = 0) (hempty : s.state.output.used = 0)
    (hsent : s.state.outfd.sent = old) (hletter : append.head? = some 83) (hlen : append.length < 2 ^ 31) :
    Meets (fun _ => True) (fun _ => Track old [] version) (minuteHttpdOutput append false) s := by
  have hnil : s.state.output.contents = [] := List.eq_nil_of_length_eq_zero (by rw [Iobuf.length_contents, hempty])
  have hne : append ≠ [] := by
    rintro rfl
    cases hletter
  have hpos := List.length_pos_iff.mpr hne
  have hfree := hring.size.free_eq hring.used_le
  have hnum : (BitVec.ofNat 32 append.length).toNat = append.length := by
    rw [BitVec.toNat_ofNat]
    omega
  simp only [minuteHttpdOutput, meets_bind, meets_get]
  split
  · have hw : ([] : List Byte) <+: statusLine version 100 := List.nil_prefix
    refine (minuteHttpdChunk_missed hw (by rw [hsent, List.append_nil]) hring hstart
      (by rw [hnil]; exact hletter)).bind fun _ s' hs' => ?_
    rw [meets_pure]
    obtain hmissed | ⟨-, hzero⟩ := hs'
    · exact .inr hmissed
    · have htotal := @total_eq s.state.output append (by omega)
      rw [hzero, hempty] at htotal
      exact absurd htotal (by show 0 ≠ _; omega)
  · rename_i hroom
    rw [BitVec.lt_def, hfree, hnum] at hroom
    have hfit : s.state.output.used + append.length ≤ s.state.output.size := by omega
    rw [minuteIobufWrite_fits hring hne hfit, orStop, pure_bind]
    refine (meets_set _).mpr (.inl ⟨Iobuf.valid_append hring.size hfit, hsmall, ?_, hstart, ?_⟩)
    · rw [List.append_nil]
      exact hsent
    · show (Iobuf.contents (Iobuf.append _ _)).head? = _
      rw [Iobuf.contents_append hring.size hfit, hnil, List.nil_append, hletter]

theorem serverHeaders_track {s : HttpdResponse} (now : Nat) (hring : s.OutValid) (hsmall : s.state.output.size < 2 ^ 31)
    (hstart : s.state.output.read = 0) (hempty : s.state.output.used = 0) (hsent : s.state.outfd.sent = old) :
    Meets (fun _ => True) (fun _ => Track old [] version) (serverHeaders now) s := by
  have hw : ([] : List Byte) <+: statusLine version 100 := List.nil_prefix
  have hrest : Keeps (Track old [] version) (do
      minuteHttpdOutput (bytes ": ") false
      minuteHttpdOutput serverText false
      minuteHttpdOutput crlf false) :=
    (minuteHttpdOutput_track hw _).bind fun _ => (minuteHttpdOutput_track hw _).bind fun _ =>
      minuteHttpdOutput_track hw _
  have hserver : Meets (fun _ => True) (fun _ => Track old [] version) (minuteHttpdHeader .server serverText) s := by
    have hname : (bytes (httpResponseHeaderNames.getD HttpResponseHeader.server.code "")).head? = some 83 := rfl
    rw [minuteHttpdHeader, meets_bind, meets_modify, meets_bind]
    exact (minuteHttpdOutput_first (s := { s with
      history.headers := s.history.headers ++ headerLine .server serverText }) hring hsmall hstart hempty hsent hname
      (by decide +kernel)).imp fun _ s₁ h₁ => hrest s₁ h₁
  exact hserver.bind fun _ s₁ h₁ => (headers_track hw).header _ _ s₁ h₁

theorem statusLine_letter (version : HttpVersion) (status : Int) : (statusLine version status).head? = some 72 := by
  simp only [statusLine, bytes, String.toList_append, List.map_append, List.append_assoc, List.head?_append]
  cases version <;> rfl

theorem writeInterim_track {s : HttpdResponse} (h : Track old [] version s) :
    Meets (fun _ => True) (fun _ s' => ∃ w, w ≠ [] ∧ w <+: statusLine version 100 ∧ Track old w version s')
      (writeStatus version 100) s := by
  have hne : statusLine version 100 ≠ [] := by
    intro hnil
    have hletter := statusLine_letter version 100
    rw [hnil] at hletter
    cases hletter
  obtain hon | hmissed := h
  · rw [writeStatus, writeOutfd, meets_modify]
    obtain ⟨cuts, hw⟩ | ⟨-, n, cuts, hn, hw⟩ := s.state.outfd.write_cases (statusLine version 100)
    · rw [hw]
      refine ⟨_, hne, List.prefix_refl _, .inr ?_⟩
      dsimp only
      rw [if_pos (by decide)]
      exact closed_missed List.nil_prefix hon.sent rfl
    · rw [hw]
      cases n with
      | zero =>
        refine ⟨_, hne, List.prefix_refl _, .inr ?_⟩
        dsimp only
        rw [if_pos (by decide)]
        exact closed_missed List.nil_prefix (by rw [List.take_zero, List.append_nil]; exact hon.sent) rfl
      | succ n =>
        refine ⟨(statusLine version 100).take (n + 1), ?_, List.take_prefix _ _, .inl ?_⟩
        · intro hnil
          have hlen := congrArg List.length hnil
          rw [List.length_take, Nat.min_eq_left hn] at hlen
          cases hlen
        · dsimp only
          rw [if_neg (by rw [decide_eq_true_iff]; omega)]
          refine ⟨hon.ring, hon.small, ?_, hon.start, hon.letter⟩
          rw [← List.append_nil old, ← hon.sent]
  · exact (writeOutfd_stable missed_stable _ _ s hmissed).imp fun _ _ h => ⟨_, hne, List.prefix_refl _, .inr h⟩

theorem writeFinal_missed {s : HttpdResponse} (hne : w ≠ []) (hw : w <+: statusLine version 100)
    (h : Track old w version s) (status : Int) :
    Meets (fun _ => True) (fun _ => Missed old version) (writeStatus version status) s := by
  obtain hon | hmissed := h
  · rw [writeStatus, writeOutfd, meets_modify]
    have hwrite := write_letter s.state.outfd (statusLine_letter version status)
    revert hwrite
    generalize s.state.outfd.write _ = x
    obtain ⟨accepted, fd⟩ := x
    intro hwrite
    dsimp only at hwrite ⊢
    obtain ⟨haccepted, hsame⟩ | ⟨hpos, more, hmore⟩ := hwrite
    · rw [if_pos (by obtain h | h := haccepted <;> rw [h] <;> decide)]
      exact closed_missed hw (hsame.trans hon.sent) rfl
    · rw [if_neg (by rw [decide_eq_true_iff]; omega)]
      refine offTrack_missed hw (.inr ⟨rfl, hne⟩) (?_ : _ = _ ++ (_ ++ _ :: more))
      rw [← List.append_assoc, ← hon.sent]
      exact hmore
  · exact writeOutfd_stable missed_stable _ _ s hmissed

variable {υ : Type} {app : MinuteHttpdApp υ} {now : Nat} {user user' user₁ : υ} {state : HttpdState} {r : Int}
  {resp s₀ s₁ : HttpdResponse}

/-- After `minute_httpd_start`, up to the return of the callback `header`. -/
def headerPhase (app : MinuteHttpdApp υ) (now : Nat) (user : υ) : Httpd (Uint × υ) := do
  minuteHttpdStart
  serverHeaders now
  let resp ← get
  (app.header resp.rq resp.state.text user).run HeadCall.serve

/-- **The callback has returned 100 to a request that expects it**: from then on the empty line is missed. -/
theorem handleCallbacks_track (hheader : headerPhase app now user s₀ = .ok ((100, user₁), s₁))
    (hflag : hasFlag s₀.rq.flags httpExpectContinue = true) (hring : s₀.OutValid)
    (hsmall : s₀.state.output.size < 2 ^ 31) (hstart : s₀.state.output.read = 0) (hempty : s₀.state.output.used = 0) :
    Meets (fun _ => True) (fun _ s' => ∃ w, w ≠ [] ∧ w <+: statusLine s₀.rq.serverProtocol 100 ∧
      Track s₀.state.outfd.sent w s₀.rq.serverProtocol s') (handleCallbacks app now user) s₀.started := by
  obtain ⟨⟨⟩, s, hs, hheader⟩ := bind_eq_ok.mp hheader
  obtain rfl : s = s₀.started := by
    cases hs
    rfl
  obtain ⟨⟨⟩, s₂, hserver, hheader⟩ := bind_eq_ok.mp hheader
  rw [get_bind] at hheader
  have hrq₂ : s₂.rq = s₀.started.rq := meets_iff.mp
    ((serverHeaders_reading now).comp (fun x => x.2.2.2.1) s₀.started) _ _ hserver
  have hrq₁ : s₁.rq = s₂.rq :=
    meets_iff.mp ((Prog.run_leaves headCall_reading _).comp (fun x => x.2.2.2.1) _) _ _ hheader
  have hrun : handleCallbacks app now user s₀.started =
      handleContinue app s₂.rq.serverProtocol (100 : Uint).toInt user₁ s₁ := by
    rw [handleCallbacks, bind_of_ok hserver, get_bind, bind_of_ok hheader]
  have htrack₂ : Track s₀.state.outfd.sent [] s₀.rq.serverProtocol s₂ :=
    meets_iff.mp (serverHeaders_track (s := s₀.started) now hring hsmall hstart hempty rfl) _ _ hserver
  have htrack₁ := meets_iff.mp (Prog.run_keeps ((headers_track List.nil_prefix).headCall) _ s₂ htrack₂) _ _ hheader
  have hcontinue : hasFlag s₁.rq.flags httpExpectContinue = true := by
    rw [hrq₁, hrq₂]
    exact hflag
  rw [meets_congr hrun, hrq₂, handleContinue, if_pos (by decide), meets_bind, meets_get, meets_bind, onlyIf,
    if_pos hcontinue]
  refine (writeInterim_track htrack₁).imp fun _ s₃ h₃ => ?_
  obtain ⟨w, hne, hw, htrack₃⟩ := h₃
  rw [meets_bind, meets_get, meets_bind]
  refine (Prog.run_keeps ((headers_track hw).payloadCall) _ s₃ htrack₃).imp fun p s₄ h₄ => ?_
  rw [meets_pure]
  exact ⟨w, hne, hw, h₄⟩

/-- **A client never reads the interim response by itself**: in no call in which the callback `header`
returns 100 to a request that expects it. -/
theorem interim_never (hsize : state.output.SizeOk) (hsmall : state.output.size < 2 ^ 31)
    (hrequest : handleRequest (.init state) = .ok (0, s₀)) (hflag : hasFlag s₀.rq.flags httpExpectContinue = true)
    (hheader : headerPhase app now user s₀ = .ok ((100, user₁), s₁))
    (h : minuteHttpdHandle app now user state = .ok ((r, user'), resp)) :
    ¬InterimRight s₀.rq.serverProtocol state resp := by
  obtain ⟨hout, hfd⟩ := meets_iff.mp (@handleRequest_clears state) _ _ hrequest
  have hring : s₀.OutValid := by
    rw [HttpdResponse.OutValid, hout]
    exact ⟨hsize, by rw [used_clear]; exact Nat.zero_le _⟩
  have hcallbacks := handleCallbacks_track hheader hflag hring (by rw [hout]; exact hsmall) (by rw [hout]; rfl)
    (by rw [hout, used_clear])
  have hhead : Meets (fun _ => True) (fun _ => Missed s₀.state.outfd.sent s₀.rq.serverProtocol)
      (handleHead app now user) s₀.started := by
    rw [handleHead, meets_bind, meets_get]
    refine hcallbacks.bind fun p s hs => ?_
    obtain ⟨w, hne, hw, htrack⟩ := hs
    refine (writeFinal_missed hne hw htrack p.1).bind fun _ s' hs' => ?_
    refine (missed_stable.headers.connectionHeaders s' hs').bind fun _ s₂ hs₂ => ?_
    exact (endHeaders_stable missed_stable s₂ hs₂).bind fun _ _ hs₃ => (meets_pure _).mpr hs₃
  have hmissed : Missed s₀.state.outfd.sent s₀.rq.serverProtocol resp := by
    obtain ⟨status, s, hs, hstatus⟩ := bind_eq_ok.mp h
    rw [hrequest] at hs
    cases hs
    have hrun : Meets (fun _ => True) (fun _ => Missed s₀.state.outfd.sent s₀.rq.serverProtocol)
        (handleStatus app now user 0) s₀ := by
      rw [meets_congr (handleStatus_answers app now user s₀)]
      refine hhead.bind fun p s hs => (handleBody_stable missed_stable app p.2 p.1 s hs).bind fun _ s' hs' => ?_
      exact (handleFinish_stable missed_stable s' hs').bind fun _ _ hs₂ => (meets_pure _).mpr hs₂
    exact meets_iff.mp hrun _ _ hstatus
  obtain ⟨w, hw, hno⟩ := hmissed
  rintro ⟨rest, hcut, -⟩
  rw [hw, hfd, List.drop_left] at hcut
  have hbegins : interimHead s₀.rq.serverProtocol <+: w := by
    rw [cutHead_eq hcut]
    exact List.prefix_append _ _
  obtain hoff | ⟨-, hno⟩ := hno
  · exact hoff.not_prefix hbegins
  · exact hno hbegins

end

/-- An application that asks for the payload and then settles on 200. -/
def continueApp : MinuteHttpdApp Unit := { silentApp 200 with header := fun _ _ user => .done (100, user) }

def expecting : HttpdState := connected "PUT / HTTP/1.1\r\nExpect: 100-continue\r\n\r\n"

theorem expecting_runs : ∃ s₀ s₁ r resp, handleRequest (.init expecting) = .ok (0, s₀) ∧
    hasFlag s₀.rq.flags httpExpectContinue = true ∧ headerPhase continueApp 0 () s₀ = .ok ((100, ()), s₁) ∧
    minuteHttpdHandle continueApp 0 () expecting = .ok ((r, ()), resp) ∧ s₀.rq.serverProtocol = .v1_1 ∧
    ¬interimHead .v1_1 <+: resp.state.outfd.sent := by
  have hrequest : accepts (fun x => decide (x.1 = 0) && decide (hasFlag x.2.rq.flags httpExpectContinue = true) &&
      decide (x.2.rq.serverProtocol = .v1_1) && accepts (fun y => decide (y.1.1 = 100)) (headerPhase continueApp 0 () x.2))
      (handleRequest (.init expecting)) = true := by decide +kernel
  have hhandle : accepts (fun x => decide (¬interimHead .v1_1 <+: x.2.state.outfd.sent))
      (minuteHttpdHandle continueApp 0 () expecting) = true := by decide +kernel
  obtain ⟨⟨status, s₀⟩, hs₀, hp⟩ := accepts_iff.mp hrequest
  obtain ⟨⟨⟨r, ⟨⟩⟩, resp⟩, hresp, hsent⟩ := accepts_iff.mp hhandle
  simp only [Bool.and_eq_true, decide_eq_true_iff] at hp hsent
  obtain ⟨⟨⟨rfl, hflag⟩, hversion⟩, hheader⟩ := hp
  obtain ⟨⟨⟨code, ⟨⟩⟩, s₁⟩, hs₁, hcode⟩ := accepts_iff.mp hheader
  rw [decide_eq_true_iff] at hcode
  obtain rfl : code = 100 := hcode
  exact ⟨s₀, s₁, r, resp, hs₀, hflag, hs₁, hresp, hversion, hsent⟩

theorem interim_never_expecting : ∃ r resp,
    minuteHttpdHandle continueApp 0 () expecting = .ok ((r, ()), resp) ∧ ¬InterimRight .v1_1 expecting resp := by
  obtain ⟨s₀, s₁, r, resp, hrequest, hflag, hheader, hhandle, hversion, -⟩ := expecting_runs
  have hring := (connected_outValid "PUT / HTTP/1.1\r\nExpect: 100-continue\r\n\r\n").size
  refine ⟨r, resp, hhandle, ?_⟩
  rw [← hversion]
  exact interim_never hring (by decide) hrequest hflag hheader hhandle

/-- `HTTP/1.1 100 Continue` and `HTTP/1.1 200 OK` are lines of one head. -/
theorem interim_glued : ∃ s₀ s₁ r resp, handleRequest (.init expecting) = .ok (0, s₀) ∧
    hasFlag s₀.rq.flags httpExpectContinue = true ∧ headerPhase continueApp 0 () s₀ = .ok ((100, ()), s₁) ∧
    minuteHttpdHandle continueApp 0 () expecting = .ok ((r, ()), resp) ∧
    ¬InterimRight s₀.rq.serverProtocol expecting resp := by
  obtain ⟨s₀, s₁, r, resp, hrequest, hflag, hheader, hhandle, hversion, hsent⟩ := expecting_runs
  refine ⟨s₀, s₁, r, resp, hrequest, hflag, hheader, hhandle, ?_⟩
  rintro ⟨rest, hcut, -⟩
  rw [hversion] at hcut
  refine hsent ?_
  have hcut := cutHead_eq hcut
  rw [show expecting.outfd.sent.length = 0 from rfl, List.drop_zero] at hcut
  rw [hcut]
  exact List.prefix_append _ _

end MinuteHttp
