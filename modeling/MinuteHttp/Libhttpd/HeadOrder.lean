import MinuteHttp.Libhttpd.Bodyless
import MinuteHttp.Libhttpd.Indices
import MinuteHttp.Libhttpd.Interim

/-!
# The order of the head

The status line goes straight to `outfd`. Header lines go into the out ring, and a block that does not fit is
written out behind what the ring holds, even if there is no status line yet. So the head comes out in order exactly if
the header lines that are added before the status line fit the ring and the peer takes the lines that are
written directly (`headSent_iff`). `PutOut` is the invariant before the status line, `Under` counts bytes behind it.
-/

namespace MinuteHttp

open Effect

/-! ## Before the final status line -/

section

variable {old interim : List Byte} {fd : Outfd} {n : Nat} {c : List Byte} {s : HttpdResponse}

/-- At the latest behind the interim response there is the first letter of a header line, or nothing will be sent any
more. -/
def Misplaced (old interim : List Byte) (s : HttpdResponse) : Prop :=
  ∃ u, u <+: interim ∧ ((∃ more, s.state.outfd.sent = old ++ (u ++ 83 :: more)) ∨
    (s.state.outfd.isOpen = false ∧ s.state.outfd.sent = old ++ u))

theorem misplaced_stable : Stable (Misplaced old interim) := by
  rintro s s' hgrows ⟨u, hu, ⟨more, hmore⟩ | ⟨hclosed, hsent⟩⟩
  · obtain ⟨rest, hrest⟩ := hgrows.sent
    refine ⟨u, hu, .inl ⟨more ++ rest, ?_⟩⟩
    rw [← hrest, hmore]
    simp only [List.append_assoc, List.cons_append]
  · obtain ⟨hclosed', hsame⟩ := hgrows.closed hclosed
    exact ⟨u, hu, .inr ⟨hclosed', hsame.trans hsent⟩⟩

/-- The blocks `c` are all in the ring, and nothing of them has gone to the descriptor. -/
structure Gathered (fd : Outfd) (c : List Byte) (s : HttpdResponse) : Prop where
  ring : s.OutValid
  start : s.state.output.read = 0
  contents : s.state.output.contents = c
  outfd : s.state.outfd = fd

/-- The interim response has been written as far as the peer takes it. -/
def Outfd.HasTaken (old interim : List Byte) (fd : Outfd) : Prop := ∃ u, u <+: interim ∧ fd.sent = old ++ u

theorem minuteHttpdChunk_misplaced {buf : List Byte} (htaken : fd.HasTaken old interim) (h : Gathered fd c s)
    (hletter : (c ++ buf).head? = some 83) :
    Meets (fun _ => True) (fun _ s' => Misplaced old interim s' ∨
      (s' = s ∧ minuteIobufUsed s.state.output + BitVec.ofNat 32 buf.length = 0)) (minuteHttpdChunk buf false) s := by
  obtain ⟨u, hu, hsent⟩ := htaken
  have hletter' : (s.state.output.contents ++ buf).head? = some 83 := by rw [h.contents]; exact hletter
  refine minuteHttpdChunk_first misplaced_stable h.ring (by rw [h.start]; exact Nat.zero_le _) fun s' hs' => ?_
  have hfd : s.state.outfd.sent = old ++ u := by rw [h.outfd, hsent]
  obtain ⟨hnone, hsame⟩ | ⟨-, more, hmore⟩ := write_letter s.state.outfd hletter'
  · obtain hclose | ⟨hpos, -⟩ := hs'
    · refine ⟨u, hu, .inr ⟨by rw [hclose]; rfl, ?_⟩⟩
      rw [hclose]
      exact hsame.trans hfd
    · omega
  · refine ⟨u, hu, .inl ⟨more, ?_⟩⟩
    rw [hfd, List.append_assoc] at hmore
    rw [← hmore]
    obtain hclose | ⟨-, hfd'⟩ := hs'
    · rw [hclose]
      rfl
    · rw [hfd']

/-- **A block is put out**: it goes into the ring, or else there is no room for it. -/
theorem minuteHttpdOutput_gathered {append : List Byte} (htaken : fd.HasTaken old interim) (h : Gathered fd c s)
    (hletter : (c ++ append).head? = some 83) (hlt : append.length < 2 ^ 32) :
    Meets (fun _ => True) (fun _ s' => Gathered fd (c ++ append) s' ∨
      (s.state.output.size < c.length + append.length ∧ (Misplaced old interim s' ∨ (Gathered fd c s' ∧ c ≠ []))))
      (minuteHttpdOutput append false) s := by
  have hfree := h.ring.size.free_eq h.ring.used_le
  have hnum : (BitVec.ofNat 32 append.length).toNat = append.length := by
    rw [BitVec.toNat_ofNat]
    omega
  have hused : s.state.output.used = c.length := by rw [← h.contents, Iobuf.length_contents]
  have hle := h.ring.used_le
  simp only [minuteHttpdOutput, meets_bind, meets_get]
  split
  · rename_i hfull
    rw [BitVec.lt_def, hfree, hnum] at hfull
    refine (minuteHttpdChunk_misplaced htaken h hletter).bind fun _ s' hs' => ?_
    rw [meets_pure]
    refine .inr ⟨by omega, ?_⟩
    obtain hmisplaced | ⟨rfl, hzero⟩ := hs'
    · exact .inl hmisplaced
    · refine .inr ⟨h, fun hnil => ?_⟩
      have htotal := congrArg BitVec.toNat hzero
      rw [BitVec.toNat_add, hnum] at htotal
      have hempty : (minuteIobufUsed s'.state.output).toNat = 0 := hused.trans (by rw [hnil]; rfl)
      rw [hempty, Nat.zero_add, Nat.mod_eq_of_lt hlt] at htotal
      have hnone : append.length = 0 := htotal
      omega
  · rename_i hroom
    rw [BitVec.lt_def, hfree, hnum] at hroom
    rw [meets_bind, meets_orStop]
    refine ⟨fun _ => trivial, fun x hx => (meets_set _).mpr ?_⟩
    by_cases hnil : append = []
    · rw [hnil, minuteIobufWrite_nil h.ring] at hx
      cases hx
    · rw [minuteIobufWrite_fits h.ring hnil (by omega)] at hx
      cases hx
      refine .inl ⟨Iobuf.valid_append h.ring.size (by omega), h.start, ?_, h.outfd⟩
      rw [← h.contents]
      exact Iobuf.contents_append h.ring.size (by omega)

/-- The blocks `all` have been put out: they are in the ring, unless there was no room for them. -/
def PutOut (old interim : List Byte) (fd : Outfd) (n : Nat) (all : List Byte) (s : HttpdResponse) : Prop :=
  s.state.output.size = n ∧ ((∃ c, Gathered fd c s ∧ c.head? = some 83 ∧ (c = all ∨ (c.length < all.length ∧ n < all.length))) ∨
    (n < all.length ∧ Misplaced old interim s))

variable {all : List Byte}

theorem minuteHttpdOutput_putOut (htaken : fd.HasTaken old interim) (append : List Byte) (hlt : append.length < 2 ^ 32)
    (h : PutOut old interim fd n all s) :
    Meets (fun _ => True) (fun _ => PutOut old interim fd n (all ++ append)) (minuteHttpdOutput append false) s := by
  have hsize := size_of_unwritten (minuteHttpdOutput_unwritten append false) s
  have hlen : (all ++ append).length = all.length + append.length := List.length_append
  obtain ⟨hn, ⟨c, hgathered, hletter, hall⟩ | ⟨hover, hmisplaced⟩⟩ := h
  · have hletter' : (c ++ append).head? = some 83 := by
      rw [List.head?_append, hletter]
      rfl
    refine (hsize.and (minuteHttpdOutput_gathered htaken hgathered hletter' hlt)).imp fun _ s' hs' => ?_
    obtain ⟨hsame, hin | ⟨hfull, hmisplaced | ⟨hlost, -⟩⟩⟩ := hs'
    · refine ⟨hsame.trans hn, .inl ⟨_, hin, hletter', ?_⟩⟩
      obtain rfl | ⟨hshort, hover⟩ := hall
      · exact .inl rfl
      · refine .inr ⟨?_, by omega⟩
        rw [List.length_append, hlen]
        omega
    · refine ⟨hsame.trans hn, .inr ⟨?_, hmisplaced⟩⟩
      obtain rfl | ⟨hshort, hover⟩ := hall <;> omega
    · refine ⟨hsame.trans hn, .inl ⟨c, hlost, hletter, .inr ?_⟩⟩
      have hpos : c.length ≤ s.state.output.size := by
        rw [← hgathered.contents, Iobuf.length_contents]
        exact hgathered.ring.used_le
      obtain rfl | ⟨hshort, hover⟩ := hall <;> omega
  · refine (hsize.and (minuteHttpdOutput_stable misplaced_stable append false s hmisplaced)).imp fun _ s' hs' => ?_
    exact ⟨hs'.1.trans hn, .inr ⟨by omega, hs'.2⟩⟩

/-- Blocks that are more than fit the ring are not all in it, whichever of them there are. -/
theorem PutOut.grow {all' : List Byte} (h : PutOut old interim fd n all s) (hlt : all.length < all'.length)
    (hover : n < all'.length) : PutOut old interim fd n all' s := by
  obtain ⟨hn, ⟨c, hgathered, hletter, hall⟩ | ⟨-, hmisplaced⟩⟩ := h
  · refine ⟨hn, .inl ⟨c, hgathered, hletter, .inr ⟨?_, hover⟩⟩⟩
    obtain rfl | ⟨hshort, -⟩ := hall <;> omega
  · exact ⟨hn, .inr ⟨hover, hmisplaced⟩⟩

theorem minuteHttpdPrint_putOut (htaken : fd.HasTaken old interim) (append : List Byte)
    (h : PutOut old interim fd n all s) :
    Meets (fun _ => True) (fun _ => PutOut old interim fd n (all ++ append)) (minuteHttpdPrint append false) s := by
  have hlen : (append.take (append.length % 2 ^ 32)).length = append.length % 2 ^ 32 :=
    List.length_take_of_le (Nat.mod_le _ _)
  have hmod := Nat.mod_lt append.length (show 0 < 2 ^ 32 by decide)
  by_cases hlt : append.length < 2 ^ 32
  · rw [minuteHttpdPrint_eq hlt]
    exact minuteHttpdOutput_putOut htaken append hlt h
  · refine (minuteHttpdOutput_putOut htaken _ (by rw [hlen]; exact hmod) h).imp fun _ s' hs' => ?_
    have hshort : (all ++ append.take (append.length % 2 ^ 32)).length < (all ++ append).length := by
      rw [List.length_append, List.length_append, hlen]
      omega
    refine hs'.grow hshort ?_
    obtain ⟨hn, ⟨c, hgathered, -, -⟩ | ⟨hover, -⟩⟩ := hs'
    · have hle := hgathered.ring.size.le
      rw [List.length_append]
      omega
    · omega

/-- The header lines added so far have been put out. -/
def HeadersOut (old interim : List Byte) (fd : Outfd) (n : Nat) (s : HttpdResponse) : Prop :=
  PutOut old interim fd n s.history.headers s

theorem Gathered.note (h : Gathered fd c s) (headers : List Byte) :
    Gathered fd c { s with history.headers := headers } := ⟨h.ring, h.start, h.contents, h.outfd⟩

theorem PutOut.note (h : PutOut old interim fd n all s) (headers : List Byte) :
    PutOut old interim fd n all { s with history.headers := headers } := by
  obtain ⟨hn, ⟨c, hgathered, hrest⟩ | hmisplaced⟩ := h
  · exact ⟨hn, .inl ⟨c, hgathered.note headers, hrest⟩⟩
  · exact ⟨hn, .inr hmisplaced⟩

theorem headerRest_headersOut (htaken : fd.HasTaken old interim) (header : HttpResponseHeader) (value : List Byte)
    (hname : PutOut old interim fd n (all ++ bytes (httpResponseHeaderNames.getD header.code "")) s)
    (hheaders : s.history.headers = all ++ headerLine header value) :
    Meets (fun _ => True) (fun _ => HeadersOut old interim fd n) (do
      minuteHttpdOutput (bytes ": ") false
      minuteHttpdPrint value false
      minuteHttpdOutput crlf false : Httpd PUnit) s := by
  have hnote (append : List Byte) := headers_of_unwritten (minuteHttpdOutput_unwritten append false)
  refine ((hnote _ s).and (minuteHttpdOutput_putOut htaken (bytes ": ") (by decide) hname)).bind fun _ s₁ h₁ => ?_
  refine ((hnote _ s₁).and (minuteHttpdPrint_putOut htaken value h₁.2)).bind fun _ s₂ h₂ => ?_
  refine ((hnote _ s₂).and (minuteHttpdOutput_putOut htaken crlf (by decide) h₂.2)).imp fun _ s₃ h₃ => ?_
  have hall : s₃.history.headers = all ++ headerLine header value := h₃.1.trans (h₂.1.trans (h₁.1.trans hheaders))
  rw [HeadersOut, hall, headerLine]
  simp only [← List.append_assoc]
  exact h₃.2

theorem minuteHttpdHeader_headersOut (htaken : fd.HasTaken old interim) (header : HttpResponseHeader)
    (value : List Byte) : Keeps (HeadersOut old interim fd n) (minuteHttpdHeader header value) := by
  intro s h
  rw [minuteHttpdHeader, meets_bind, meets_modify]
  refine ((headers_of_unwritten (minuteHttpdOutput_unwritten _ false) _).and
    (minuteHttpdPrint_putOut htaken _ (h.note _))).bind fun _ s₁ h₁ => ?_
  exact headerRest_headersOut htaken header value h₁.2 h₁.1

theorem headersOut_of_writing {α : Type} {m : Httpd α} (h : Leaves HttpdResponse.writing m) :
    Keeps (HeadersOut old interim fd n) m := by
  intro s hs
  refine (h s).imp fun _ s' hs' => ?_
  have hout : s'.state.output = s.state.output := congrArg (fun x => x.1) hs'
  have hfd : s'.state.outfd = s.state.outfd := congrArg (fun x => x.2.1) hs'
  have hheaders : s'.history.headers = s.history.headers := congrArg (fun x => x.2.2.1) hs'
  obtain ⟨hn, hall⟩ := hs
  refine ⟨by rw [hout]; exact hn, ?_⟩
  rw [hheaders]
  obtain ⟨c, hgathered, hrest⟩ | ⟨hover, hmisplaced⟩ := hall
  · refine .inl ⟨c, ⟨?_, by rw [hout]; exact hgathered.start, by rw [hout]; exact hgathered.contents,
      hfd.trans hgathered.outfd⟩, hrest⟩
    rw [HttpdResponse.OutValid, hout]
    exact hgathered.ring
  · exact .inr ⟨hover, misplaced_stable.same hfd hmisplaced⟩

theorem headers_headersOut (htaken : fd.HasTaken old interim) : KeptByHeaders (HeadersOut old interim fd n) :=
  ⟨minuteHttpdHeader_headersOut htaken, fun count => headersOut_of_writing (minuteHttpdInRead_writing true count)⟩

theorem serverHeaders_headersOut (htaken : fd.HasTaken old interim) (now : Nat) (h : Gathered fd [] s)
    (hsize : s.state.output.size = n) (hheaders : s.history.headers = []) :
    Meets (fun _ => True) (fun _ => HeadersOut old interim fd n) (serverHeaders now) s := by
  have hname : (bytes (httpResponseHeaderNames.getD HttpResponseHeader.server.code "")).head? = some 83 := rfl
  have hlen : (bytes (httpResponseHeaderNames.getD HttpResponseHeader.server.code "")).length < 2 ^ 32 := by decide
  have hletter : ([] ++ bytes (httpResponseHeaderNames.getD HttpResponseHeader.server.code "")).head? = some 83 := hname
  have hserver : Meets (fun _ => True) (fun _ => HeadersOut old interim fd n)
      (minuteHttpdHeader .server serverText) s := by
    rw [minuteHttpdHeader, meets_bind, meets_modify, minuteHttpdPrint_eq hlen]
    refine (((size_of_unwritten (minuteHttpdOutput_unwritten _ false) _).and
      (headers_of_unwritten (minuteHttpdOutput_unwritten _ false) _)).and
        (minuteHttpdOutput_gathered htaken (h.note _) hletter hlen)).bind fun _ s₁ h₁ => ?_
    obtain ⟨⟨hsame, hall⟩, hput⟩ := h₁
    refine headerRest_headersOut htaken .server serverText (⟨hsame.trans hsize, ?_⟩ : PutOut _ _ _ _ ([] ++ _) _) ?_
    · obtain hin | ⟨hfull, hmisplaced | ⟨-, hne⟩⟩ := hput
      · exact .inl ⟨_, hin, hname, .inl rfl⟩
      · exact .inr ⟨by rw [← hsize]; exact hfull, hmisplaced⟩
      · exact absurd rfl hne
    · have hlines : s₁.history.headers = s.history.headers ++ headerLine .server serverText := hall
      rw [hlines, hheaders]
  exact hserver.bind fun _ s₁ h₁ => minuteHttpdHeader_headersOut htaken _ _ s₁ h₁

end

/-! ## The interim response -/

/-- The descriptor behind `if(0 >= write (state->outfd, head, nhead))` with its branch, where there is an interim
response to write. -/
def Outfd.takeInterim (fd : Outfd) (interim : List Byte) : Outfd :=
  if interim = [] then fd
  else if (fd.write interim).1 ≤ 0 then (fd.write interim).2.close else (fd.write interim).2

theorem Outfd.takeInterim_hasTaken (fd : Outfd) (interim : List Byte) :
    (fd.takeInterim interim).HasTaken fd.sent interim := by
  unfold Outfd.takeInterim
  by_cases hnil : interim = []
  · rw [if_pos hnil]
    exact ⟨[], List.nil_prefix, (List.append_nil _).symm⟩
  · rw [if_neg hnil]
    obtain ⟨u, hu, hsent⟩ : ∃ u, u <+: interim ∧ (fd.write interim).2.sent = fd.sent ++ u := by
      obtain ⟨cuts, hw⟩ | ⟨-, n, cuts, -, hw⟩ := fd.write_cases interim
      · rw [hw]
        exact ⟨[], List.nil_prefix, (List.append_nil _).symm⟩
      · rw [hw]
        exact ⟨interim.take n, List.take_prefix _ _, rfl⟩
    split
    · exact ⟨u, hu, hsent⟩
    · exact ⟨u, hu, hsent⟩

section

variable {υ : Type} {app : MinuteHttpdApp υ} {now : Nat} {user : υ} {s₀ : HttpdResponse}

/-- What is written of an interim response if the callback `header` has returned 100 to a request that expects it. -/
def interimDue (app : MinuteHttpdApp υ) (now : Nat) (user : υ) (s₀ : HttpdResponse) : List Byte :=
  match headerPhase app now user s₀ with
  | .ok ((code, _), s) =>
    if code = 100 ∧ hasFlag s.rq.flags httpExpectContinue = true then statusLine s₀.rq.serverProtocol 100 else []
  | .error _ => []

theorem statusLine_ne_nil (version : HttpVersion) (status : Int) : statusLine version status ≠ [] := by
  intro hnil
  have hletter := statusLine_letter version status
  rw [hnil] at hletter
  cases hletter

theorem writeInterim_headersOut {interim : List Byte} {n : Nat} {fd : Outfd} {s : HttpdResponse} (hne : interim ≠ [])
    (h : HeadersOut fd.sent interim fd n s) :
    Meets (fun _ => True) (fun _ => HeadersOut fd.sent interim (fd.takeInterim interim) n)
      (writeOutfd (fun r => r ≤ 0) interim) s := by
  obtain ⟨hn, ⟨c, hgathered, hrest⟩ | ⟨hover, hmisplaced⟩⟩ := h
  · rw [writeOutfd, meets_modify]
    refine ⟨hn, .inl ⟨c, ⟨hgathered.ring, hgathered.start, hgathered.contents, ?_⟩, hrest⟩⟩
    rw [Outfd.takeInterim, if_neg hne, ← hgathered.outfd]
    simp only [decide_eq_true_eq]
  · refine ((size_of_unwritten (writeOutfd_unwritten _ _) s).and ((headers_of_unwritten (writeOutfd_unwritten _ _) s).and
      (writeOutfd_stable misplaced_stable _ _ s hmisplaced))).imp fun _ s' hs' => ?_
    have hheaders : s'.history.headers = s.history.headers := hs'.2.1
    refine ⟨hs'.1.trans hn, .inr ⟨?_, hs'.2.2⟩⟩
    rw [hheaders]
    exact hover

/-- **Up to the final status line** no header line has been sent, unless there was no room for it. -/
theorem handleCallbacks_headersOut {fd : Outfd} {n : Nat} (h : Gathered fd [] s₀) (hsize : s₀.state.output.size = n)
    (hheaders : s₀.history.headers = []) :
    Meets (fun _ => True) (fun _ => HeadersOut fd.sent (interimDue app now user s₀)
      (fd.takeInterim (interimDue app now user s₀)) n) (handleCallbacks app now user) s₀.started := by
  have hstarted : Gathered fd [] s₀.started := ⟨h.ring, h.start, h.contents, h.outfd⟩
  have htaken : ∀ interim, fd.HasTaken fd.sent interim := fun _ => ⟨[], List.nil_prefix, (List.append_nil _).symm⟩
  refine meets_iff.mpr fun p s' hrun => ?_
  obtain ⟨⟨⟩, s₂, hserver, hrun⟩ := bind_eq_ok.mp hrun
  rw [get_bind] at hrun
  obtain ⟨⟨code, user₁⟩, s₁, hheader, hcontinue⟩ := bind_eq_ok.mp hrun
  dsimp only at hcontinue
  have hphase : headerPhase app now user s₀ = .ok ((code, user₁), s₁) := by
    have hstart : minuteHttpdStart s₀ = .ok (⟨⟩, s₀.started) := rfl
    rw [headerPhase, bind_of_ok hstart, bind_of_ok hserver, get_bind, hheader]
  have hversion : s₂.rq.serverProtocol = s₀.rq.serverProtocol :=
    meets_iff.mp ((serverHeaders_reading now).comp (fun x => x.2.2.2.1.serverProtocol) s₀.started) _ _ hserver
  have hdue : interimDue app now user s₀ = if code = 100 ∧ hasFlag s₁.rq.flags httpExpectContinue = true then
      statusLine s₀.rq.serverProtocol 100 else [] := by
    rw [interimDue, hphase]
  have hout₂ := fun interim => meets_iff.mp
    (serverHeaders_headersOut (htaken interim) now hstarted hsize hheaders) _ _ hserver
  have hout₁ := fun interim => meets_iff.mp
    (Prog.run_keeps (headers_headersOut (htaken interim)).headCall _ s₂ (hout₂ interim)) _ _ hheader
  generalize interimDue app now user s₀ = interim at hdue ⊢
  by_cases hcode : code = 100
  · have hgoes := (headers_headersOut (n := n) (fd.takeInterim_hasTaken interim)).payloadCall
    rw [handleContinue, if_pos (by rw [hcode]; decide), get_bind] at hcontinue
    obtain ⟨⟨⟩, s₃, hwrite, hcontinue⟩ := bind_eq_ok.mp hcontinue
    rw [get_bind] at hcontinue
    obtain ⟨⟨status, user₂⟩, s₄, hpayload, hpure⟩ := bind_eq_ok.mp hcontinue
    cases hpure
    refine meets_iff.mp (Prog.run_keeps hgoes _ s₃ ?_) _ _ hpayload
    by_cases hflag : hasFlag s₁.rq.flags httpExpectContinue = true
    · rw [if_pos ⟨hcode, hflag⟩] at hdue
      rw [onlyIf, if_pos hflag, writeStatus, hversion, hcode] at hwrite
      have hinterim : interim ≠ [] := by
        rw [hdue]
        exact statusLine_ne_nil _ _
      have hwritten := meets_iff.mp (writeInterim_headersOut hinterim (hout₁ interim))
      rw [hdue] at hwritten ⊢
      exact hwritten _ _ hwrite
    · rw [if_neg (fun hc => hflag hc.2)] at hdue
      rw [onlyIf, if_neg hflag] at hwrite
      cases hwrite
      rw [hdue]
      exact hout₁ []
  · rw [if_neg (fun hc => hcode hc.1)] at hdue
    have hnot : code.toInt ≠ 100 := fun heq => hcode (BitVec.eq_of_toInt_eq heq)
    rw [handleContinue, if_neg hnot] at hcontinue
    cases hcontinue
    rw [hdue]
    exact hout₁ []

end

/-! ## Behind the final status line: counting -/

section

variable {k : Nat} {s : HttpdResponse}

/-- Whatever happens, no more than `k` bytes will have been sent when the ring is empty. -/
structure Under (k : Nat) (s : HttpdResponse) : Prop where
  ring : s.OutValid
  sent : s.state.outfd.sent.length ≤ k
  held : s.state.outfd.isOpen = true → s.state.outfd.sent.length + s.state.output.used ≤ k

theorem Under.mono {k' : Nat} (h : Under k s) (hle : k ≤ k') : Under k' s :=
  ⟨h.ring, Nat.le_trans h.sent hle, fun hopen => Nat.le_trans (h.held hopen) hle⟩

theorem length_gather_le {io : Iobuf} (h : io.Valid) :
    (minuteIobufGather io).1.length + (minuteIobufGather io).2.length ≤ io.used := by
  by_cases hle : io.read.toNat ≤ io.write.toNat
  · have hlen := congrArg List.length (minuteIobufGather_eq h hle)
    rw [List.length_append, Iobuf.length_contents] at hlen
    omega
  · rw [minuteIobufGather_of_ge (by omega)]
    exact Nat.zero_le _

theorem chunkLoop_under (turns : Nat) {buf : List Byte} (hbuf : buf.length < 2 ^ 31) (hring : s.OutValid)
    (hsent : s.state.outfd.sent.length ≤ k)
    (hheld : s.state.outfd.isOpen = true → s.state.outfd.sent.length + s.state.output.used + buf.length ≤ k) :
    Meets (fun _ => True) (fun _ => Under k) (chunkLoop turns buf false) s := by
  induction turns generalizing buf s with
  | zero => exact (meets_throw _).mpr trivial
  | succ turns ih =>
    have hu := hring.used_le
    have hsize := hring.size.le
    have htotal := @total_eq s.state.output buf (by omega)
    have hgather := length_gather_le hring
    simp only [chunkLoop, meets_bind, meets_get]
    split
    · exact (meets_pure _).mpr ⟨hring, hsent, fun hopen => by have := hheld hopen; omega⟩
    · rw [meets_bind, meets_orStop]
      refine ⟨fun _ => trivial, fun size hnil => ?_⟩
      cases hnil
      obtain ⟨cuts, hw⟩ | ⟨hopen, n, cuts, hn, hw⟩ := s.state.outfd.write_cases
        ([] ++ (minuteIobufGather s.state.output).1 ++ (minuteIobufGather s.state.output).2 ++ buf ++
          if false = true then crlf else [])
      · -- the write fails
        rw [hw]
        dsimp only
        rw [if_neg (by decide)]
        exact (meets_set_pure _ _).mpr ⟨hring, hsent, fun hopen => absurd hopen Bool.false_ne_true⟩
      · have hall := hheld hopen
        have hoffered : n ≤ s.state.output.used + buf.length := by
          simp only [List.nil_append, List.append_assoc, List.length_append, Bool.false_eq_true, if_false,
            List.length_nil] at hn
          omega
        have htake (bs : List Byte) : (s.state.outfd.sent ++ bs.take n).length ≤ s.state.outfd.sent.length + n := by
          rw [List.length_append]
          exact Nat.add_le_add_left (List.length_take_le _ _) _
        rw [hw]
        dsimp only
        by_cases hsmall : n < 2 ^ 31
        · obtain ⟨hint, hnat⟩ := ofInt_accepted hsmall
          rw [hint]
          split
          · have hsplit := @accepted_split (BitVec.ofInt 32 (n : Int)) (minuteIobufUsed s.state.output) 0 n hnat
              (Nat.zero_le n) (by show 0 + s.state.output.used < _; omega)
            have hused : (minuteIobufUsed s.state.output).toNat = s.state.output.used := rfl
            rw [hused, Nat.sub_zero] at hsplit
            rw [List.length_nil, hsplit.1, hsplit.2, if_neg BitVec.not_lt_zero, meets_bind, meets_set]
            have hl : min n s.state.output.used ≤ s.state.output.used := Nat.min_le_right _ _
            have hrest := Iobuf.used_take hl
            have hvalid := Iobuf.valid_take hring hl
            split
            · have hbuf' : (buf.drop (n - s.state.output.used)).length < 2 ^ 31 := by
                rw [List.length_drop]
                omega
              refine Meets.bind (ih hbuf' ?_ ?_ fun _ => ?_) fun rr s' hs' => ?_
              · exact hvalid
              · exact Nat.le_trans (htake _) (by omega)
              · have hbytes := htake ([] ++ (minuteIobufGather s.state.output).1 ++
                  (minuteIobufGather s.state.output).2 ++ buf ++ if false = true then crlf else [])
                show (_ ++ _ : List Byte).length + (s.state.output.take _).used + _ ≤ k
                rw [hrest, List.length_drop]
                omega
              · split
                · exact (meets_pure _).mpr hs'
                · exact (meets_pure _).mpr hs'
            · refine (meets_pure _).mpr ⟨hvalid, Nat.le_trans (htake _) (by omega), fun _ => ?_⟩
              have hbytes := htake ([] ++ (minuteIobufGather s.state.output).1 ++
                (minuteIobufGather s.state.output).2 ++ buf ++ if false = true then crlf else [])
              show (_ ++ _ : List Byte).length + (s.state.output.take _).used ≤ k
              rw [hrest]
              omega
          · exact (meets_set_pure _ _).mpr ⟨hring, Nat.le_trans (htake _) (by omega), fun hopen => absurd hopen Bool.false_ne_true⟩
        · -- the number accepted is negative as an `int`
          have hneg : ¬(BitVec.ofInt 32 (n : Int)).toInt > 0 := by
            rw [BitVec.ofInt_natCast, BitVec.toInt_eq_toNat_cond, BitVec.toNat_ofNat, Nat.mod_eq_of_lt (by omega),
              if_neg (by omega)]
            omega
          rw [if_neg hneg]
          exact (meets_set_pure _ _).mpr ⟨hring, Nat.le_trans (htake _) (by omega), fun hopen => absurd hopen Bool.false_ne_true⟩

theorem minuteHttpdChunk_under {buf : List Byte} (hlt : buf.length < 2 ^ 31) (h : Under k s) :
    Meets (fun _ => True) (fun _ => Under (k + buf.length)) (minuteHttpdChunk buf false) s := by
  rw [minuteHttpdChunk, meets_bind, meets_get]
  refine chunkLoop_under _ hlt h.ring (Nat.le_add_right_of_le h.sent) fun hopen => ?_
  have := h.held hopen
  omega

theorem minuteHttpdOutput_under {append : List Byte} (hlt : append.length < 2 ^ 31) (h : Under k s) :
    Meets (fun _ => True) (fun _ => Under (k + append.length)) (minuteHttpdOutput append false) s := by
  have hfree := h.ring.size.free_eq h.ring.used_le
  have hu := h.ring.used_le
  have hsent := h.sent
  simp only [minuteHttpdOutput, meets_bind, meets_get]
  split
  · exact (minuteHttpdChunk_under hlt h).bind fun _ _ hs' => (meets_pure _).mpr hs'
  · rename_i hroom
    rw [BitVec.lt_def, hfree, BitVec.toNat_ofNat, Nat.mod_eq_of_lt (by omega)] at hroom
    rw [meets_bind, meets_orStop]
    refine ⟨fun _ => trivial, fun x hx => (meets_set _).mpr ?_⟩
    by_cases hnil : append = []
    · rw [hnil, minuteIobufWrite_nil h.ring] at hx
      cases hx
    · have hfit : s.state.output.used + append.length ≤ s.state.output.size := by omega
      rw [minuteIobufWrite_fits h.ring hnil hfit] at hx
      cases hx
      refine ⟨Iobuf.valid_append h.ring.size hfit, Nat.le_add_right_of_le hsent, fun hopen => ?_⟩
      have hheld := h.held hopen
      show s.state.outfd.sent.length + (s.state.output.append append).used ≤ _
      rw [Iobuf.used_append h.ring.size hfit]
      omega

theorem length_headerName (header : HttpResponseHeader) :
    0 < (bytes (httpResponseHeaderNames.getD header.code "")).length ∧
      (bytes (httpResponseHeaderNames.getD header.code "")).length < 64 := by
  cases header <;> decide

/-- No more than `b` bytes but for the header lines. -/
def Bounded (b : Nat) (s : HttpdResponse) : Prop := Under (b + s.history.headers.length) s

theorem minuteHttpdHeader_bounded {b : Nat} (header : HttpResponseHeader) {value : List Byte}
    (hvalue : value.length < 64) : Keeps (Bounded b) (minuteHttpdHeader header value) := by
  intro s h
  obtain ⟨-, hname⟩ := length_headerName header
  have hcolon : (bytes ": ").length = 2 := by decide
  have hnote (append : List Byte) := headers_of_unwritten (minuteHttpdOutput_unwritten append false)
  have hnoted : Under (b + s.history.headers.length)
      { s with history.headers := s.history.headers ++ headerLine header value } := ⟨h.ring, h.sent, h.held⟩
  rw [minuteHttpdHeader, meets_bind, meets_modify, minuteHttpdPrint_eq (by omega), minuteHttpdPrint_eq (by omega)]
  refine ((hnote _ _).and (minuteHttpdOutput_under (by omega) hnoted)).bind fun _ s₁ h₁ => ?_
  refine ((hnote _ s₁).and (minuteHttpdOutput_under (by omega) h₁.2)).bind fun _ s₂ h₂ => ?_
  refine ((hnote _ s₂).and (minuteHttpdOutput_under (by omega) h₂.2)).bind fun _ s₃ h₃ => ?_
  refine ((hnote _ s₃).and (minuteHttpdOutput_under (by decide) h₃.2)).imp fun _ s₄ h₄ => ?_
  have hheaders : s₄.history.headers = s.history.headers ++ headerLine header value :=
    h₄.1.trans (h₃.1.trans (h₂.1.trans h₁.1))
  have hlen := length_headerLine header value
  refine h₄.2.mono ?_
  rw [hheaders, List.length_append, hlen, length_crlf]
  omega

end

/-! ## Behind the final status line: the headers -/

/-- The header lines that follow the final status line. -/
def headerLines (now : Nat) (parsed : Int) : Httpd PUnit :=
  if parsed = 0 then connectionHeaders
  else do
    modify fun resp => { resp with headFlags := 0 }
    serverHeaders now
    let resp ← get
    onlyIf (resp.rq.serverProtocol = .v1_1) (minuteHttpdHeader .connection (bytes "close"))

theorem length_minuteRfcDate_pos (t : Nat) : 0 < (minuteRfcDate t).length := by
  unfold minuteRfcDate
  rw [List.length_take, length_bytes]
  simp only [String.length_append]
  have hcomma : ", ".length = 2 := rfl
  omega

theorem headerLines_meets {E : Stop → Prop} {P : Nat → HttpdResponse → Prop} (hmore : ∀ m s, P m s → P (m + 1) s)
    (hflags : ∀ m s, P m s → P m { s with headFlags := 0 })
    (hheader : ∀ m < 3, ∀ header value s, 0 < value.length → value.length < 64 → P m s →
      Meets E (fun _ => P (m + 1)) (minuteHttpdHeader header value) s)
    (now : Nat) (parsed : Int) {s : HttpdResponse} (h : P 0 s) :
    Meets E (fun _ => P 3) (headerLines now parsed) s := by
  have hif (c : Prop) [Decidable c] (m : Nat) (hm : m < 3) (header : HttpResponseHeader) (value : List Byte)
      (hpos : 0 < value.length) (hlt : value.length < 64) (s : HttpdResponse) (hs : P m s) :
      Meets E (fun _ => P (m + 1)) (onlyIf c (minuteHttpdHeader header value)) s :=
    (meets_onlyIf _ _).mpr ⟨fun _ => hheader m hm header value s hpos hlt hs, fun _ => hmore m s hs⟩
  unfold headerLines
  split
  · rw [connectionHeaders, meets_bind, meets_get]
    refine (hif _ 0 (by decide) _ _ (by decide) (by decide) s h).bind fun _ s₁ h₁ => ?_
    refine (hif _ 1 (by decide) _ _ (by decide) (by decide) s₁ h₁).bind fun _ s₂ h₂ => ?_
    exact hif _ 2 (by decide) _ _ (by decide) (by decide) s₂ h₂
  · have hdate := length_minuteRfcDate_le now
    rw [meets_bind, meets_modify, serverHeaders, meets_bind, meets_bind]
    refine (hheader 0 (by decide) _ _ _ (by decide) (by decide) (hflags 0 s h)).imp fun _ s₁ h₁ => ?_
    refine (hheader 1 (by decide) _ _ s₁ (length_minuteRfcDate_pos now) (by omega) h₁).imp fun _ s₂ h₂ => ?_
    rw [meets_bind, meets_get]
    exact hif _ 2 (by decide) _ _ (by decide) (by decide) s₂ h₂

/-- The empty line: no more than `b` bytes, but for the header lines and itself. -/
theorem headEnd_bounded {b : Nat} {s : HttpdResponse} (now : Nat) (parsed : Int) (h : Bounded b s) :
    Meets (fun _ => True) (fun _ s' => s'.state.outfd.sent.length ≤ b + s'.history.headers.length + crlf.length) (do
      headerLines now parsed
      endHeaders : Httpd PUnit) s := by
  have hlines : Meets (fun _ => True) (fun _ => Bounded b) (headerLines now parsed) s :=
    @headerLines_meets _ (fun _ => Bounded b) (fun _ _ hs => hs) (fun _ _ hs => ⟨hs.ring, hs.sent, hs.held⟩)
      (fun _ _ header _ s' _ hlt hs => minuteHttpdHeader_bounded header hlt s' hs) now parsed s h
  refine hlines.bind fun _ s₁ h₁ => ?_
  refine ((headers_of_unwritten (minuteHttpdChunk_unwritten _ _) s₁).and
    (minuteHttpdChunk_under (by decide) h₁)).bind fun _ s₂ h₂ => ?_
  rw [meets_pure]
  have hheaders : s₂.history.headers = s₁.history.headers := h₂.1
  rw [hheaders]
  exact h₂.2.sent

/-! ## Behind the final status line: a peer that takes something of every write -/

section

variable {b : Nat} {before : List Byte} {m : Nat} {s : HttpdResponse}

/-- Behind `before` come the header lines, the last of them in the ring. Something is accepted of as many writes as
bytes are missing to `b`. -/
structure Flowing (b : Nat) (before : List Byte) (m : Nat) (s : HttpdResponse) : Prop where
  ready : s.state.Ready (b - s.state.outfd.sent.length)
  small : s.state.output.size < 2 ^ 31
  lines : s.state.outfd.sent ++ s.state.output.contents = before
  low : s.state.output.write.toNat ≤ m

theorem Flowing.used_lt (h : Flowing b before m s) : s.state.output.used ≤ 2 ^ 30 := by
  obtain ⟨k, -, hk⟩ := h.ready.output.size
  have hlt := h.small
  have hle := h.ready.output.used_le
  have hpow : k < 31 := (Nat.pow_lt_pow_iff_right (by decide)).mp (hk ▸ hlt)
  have := Nat.pow_le_pow_right (n := 2) (by decide) (Nat.le_of_lt_succ hpow)
  omega

theorem Flowing.length (h : Flowing b before m s) :
    before.length = s.state.outfd.sent.length + s.state.output.used := by
  rw [← h.lines, List.length_append, Iobuf.length_contents]

theorem minuteHttpdChunk_write (w : Uint) (buf : List Byte) (chunked : Bool) :
    Keeps (fun s => s.OutValid ∧ s.state.output.write = w) (minuteHttpdChunk buf chunked) :=
  keeps_get.bind fun _ => chunkLoop_keeps (fun _ h => h.1) (fun _ _ h => h)
    (fun _ _ h hl => ⟨Iobuf.valid_take h.1 hl, h.2⟩) _ _ _

theorem minuteHttpdChunk_sentAll (h : Flowing b before m s) {buf : List Byte} (hlt : buf.length < 2 ^ 30)
    (hb : before.length + buf.length ≤ b) :
    Meets (fun _ => False) (fun _ s' => SentAll s s' (s.state.output.contents ++ buf)) (minuteHttpdChunk buf false) s := by
  have hused := h.used_lt
  have hlen := h.length
  have htotal := @total_eq s.state.output buf (by omega)
  rw [minuteHttpdChunk, meets_bind, meets_get]
  exact (chunkLoop_plain _ buf (h.ready.mono (by omega)) (by omega) (by rw [htotal]; omega)).imp fun _ _ hs' => hs'.2

theorem minuteHttpdOutput_flowing (h : Flowing b before m s) {append : List Byte} (hne : append ≠ [])
    (hlt : append.length < 2 ^ 30) (hm : m + append.length < 2 ^ 32) (hb : before.length + append.length ≤ b) :
    Meets (fun _ => False) (fun _ => Flowing b (before ++ append) (m + append.length))
      (minuteHttpdOutput append false) s := by
  have hvalid := h.ready.output
  have hfree := hvalid.size.free_eq hvalid.used_le
  have hu := hvalid.used_le
  have hlow := h.low
  simp only [minuteHttpdOutput, meets_bind, meets_get]
  split
  · have hwrite := minuteHttpdChunk_write s.state.output.write append false s ⟨hvalid, rfl⟩
    have hsize := size_of_unwritten (minuteHttpdChunk_unwritten append false) s
    refine ((minuteHttpdChunk_sentAll h hlt hb).and (hwrite.and hsize)).bind fun _ s' hs' => ?_
    obtain ⟨hall, ⟨-, hsame⟩, hsize'⟩ := hs'
    have hnil : s'.state.output.contents = [] :=
      List.eq_nil_of_length_eq_zero (by rw [Iobuf.length_contents, hall.empty])
    refine (meets_pure _).mpr ⟨hall.ready _ (h.ready.mono ?_), ?_, ?_, ?_⟩
    · have hlen := h.length
      rw [hall.sent]
      simp only [List.length_append, Iobuf.length_contents]
      omega
    · exact Nat.lt_of_le_of_lt (Nat.le_of_eq hsize') h.small
    · rw [hnil, List.append_nil, hall.sent, ← List.append_assoc, h.lines]
    · rw [hsame]
      exact Nat.le_add_right_of_le hlow
  · rename_i hroom
    rw [BitVec.lt_def, hfree, BitVec.toNat_ofNat, Nat.mod_eq_of_lt (by omega)] at hroom
    have hfit : s.state.output.used + append.length ≤ s.state.output.size := by omega
    have hnoWrap := h.ready.noWrap
    have hval : (s.state.output.append append).write.toNat = s.state.output.write.toNat + append.length := by
      show (s.state.output.write + BitVec.ofNat 32 append.length).toNat = _
      rw [BitVec.toNat_add, BitVec.toNat_ofNat]
      omega
    rw [minuteIobufWrite_fits hvalid hne hfit, orStop, pure_bind]
    refine (meets_set _).mpr ⟨⟨Iobuf.valid_append hvalid.size hfit, ?_, h.ready.outfd⟩, h.small, ?_, ?_⟩
    · show s.state.output.read.toNat ≤ (s.state.output.append append).write.toNat
      omega
    · show s.state.outfd.sent ++ (s.state.output.append append).contents = _
      rw [Iobuf.contents_append hvalid.size hfit, ← List.append_assoc, h.lines]
    · show (s.state.output.append append).write.toNat ≤ _
      omega

/-- All that is to come before the header lines. After `m` lines there is room for the others, and for the empty line,
before byte `b`. -/
structure Follows (b : Nat) (start : List Byte) (m : Nat) (s : HttpdResponse) : Prop where
  flowing : Flowing b (start ++ s.history.headers) (2 ^ 31 + 256 * m) s
  room : (start ++ s.history.headers).length + 256 * (4 - m) ≤ b

theorem minuteHttpdHeader_follows {start : List Byte} (hm : m < 3) (header : HttpResponseHeader) {value : List Byte}
    (hpos : 0 < value.length) (hvalue : value.length < 64) (h : Follows b start m s) :
    Meets (fun _ => False) (fun _ => Follows b start (m + 1)) (minuteHttpdHeader header value) s := by
  obtain ⟨hnamePos, hname⟩ := length_headerName header
  have hcolon : (bytes ": ").length = 2 := by decide
  have hcrlf := length_crlf
  have hroom := h.room
  have hnote (append : List Byte) := headers_of_unwritten (minuteHttpdOutput_unwritten append false)
  have hnoted : Flowing b (start ++ s.history.headers) (2 ^ 31 + 256 * m)
      { s with history.headers := s.history.headers ++ headerLine header value } :=
    ⟨h.flowing.ready, h.flowing.small, h.flowing.lines, h.flowing.low⟩
  rw [minuteHttpdHeader, meets_bind, meets_modify, minuteHttpdPrint_eq (by omega), minuteHttpdPrint_eq (by omega)]
  refine ((minuteHttpdOutput_flowing hnoted (List.ne_nil_of_length_pos hnamePos) (by omega) (by omega)
    (by omega)).and (hnote _ _)).bind fun _ s₁ h₁ => ?_
  refine ((minuteHttpdOutput_flowing h₁.1 (by decide : bytes ": " ≠ []) (by omega) (by omega)
    (by rw [List.length_append]; omega)).and (hnote _ s₁)).bind fun _ s₂ h₂ => ?_
  refine ((minuteHttpdOutput_flowing h₂.1 (List.ne_nil_of_length_pos hpos) (by omega) (by omega)
    (by rw [List.length_append, List.length_append]; omega)).and (hnote _ s₂)).bind fun _ s₃ h₃ => ?_
  refine ((minuteHttpdOutput_flowing h₃.1 (by decide : crlf ≠ []) (by omega) (by omega)
    (by rw [List.length_append, List.length_append, List.length_append]; omega)).and
    (hnote _ s₃)).imp fun _ s₄ h₄ => ?_
  have hheaders : s₄.history.headers = s.history.headers ++ headerLine header value :=
    h₄.2.trans (h₃.2.trans (h₂.2.trans h₁.2))
  have hline := length_headerLine header value
  refine ⟨⟨h₄.1.ready, h₄.1.small, ?_, ?_⟩, ?_⟩
  · rw [hheaders, headerLine]
    simp only [← List.append_assoc]
    exact h₄.1.lines
  · have hlow := h₄.1.low
    omega
  · rw [hheaders, ← List.append_assoc, List.length_append, hline]
    omega

/-- **All is sent** up to the empty line. -/
theorem headEnd_follows {start : List Byte} (now : Nat) (parsed : Int) (h : Follows b start 0 s) :
    Meets (fun _ => False) (fun _ s' => s'.state.outfd.sent = start ++ s'.history.headers ++ crlf) (do
      headerLines now parsed
      endHeaders : Httpd PUnit) s := by
  have hlines : Meets (fun _ => False) (fun _ => Follows b start 3) (headerLines now parsed) s := by
    refine headerLines_meets (fun m _ hs => ?_) (fun _ _ hs => ?_) (fun _ hm header _ _ hpos hlt hs => ?_) now parsed h
    · have hroom := hs.room
      exact ⟨⟨hs.flowing.ready, hs.flowing.small, hs.flowing.lines, Nat.le_trans hs.flowing.low (by omega)⟩, by omega⟩
    · exact ⟨⟨hs.flowing.ready, hs.flowing.small, hs.flowing.lines, hs.flowing.low⟩, hs.room⟩
    · exact minuteHttpdHeader_follows hm header hpos hlt hs
  refine hlines.bind fun _ s₁ h₁ => ?_
  refine ((minuteHttpdChunk_sentAll h₁.flowing (by decide) (Nat.le_trans (Nat.add_le_add_left (by decide) _)
    h₁.room)).and (headers_of_unwritten (minuteHttpdChunk_unwritten _ _) s₁)).bind fun _ s₂ h₂ => ?_
  have hheaders : s₂.history.headers = s₁.history.headers := h₂.2
  rw [meets_pure, h₂.1.sent, hheaders, ← List.append_assoc, h₁.flowing.lines]

end

/-! ## The result -/

section

variable {υ : Type} {app : MinuteHttpdApp υ} {now : Nat} {user : υ} {state : HttpdState} {parsed status : Int}
  {s₀ s s₁ : HttpdResponse}

/-- `handleStatus` up to the final status line, for the request that was read with `parsed`: the final status. -/
def headToStatus (app : MinuteHttpdApp υ) (now : Nat) (user : υ) (parsed : Int) : Httpd Int :=
  if parsed = 0 then do
    minuteHttpdStart
    let (status, _) ← handleCallbacks app now user
    pure status
  else pure parsed

theorem headToBlank_eq (app : MinuteHttpdApp υ) (now : Nat) (user : υ) (parsed : Int) (s₀ : HttpdResponse) :
    headToBlank app now user parsed s₀ = (do
      let status ← headToStatus app now user parsed
      writeStatus s₀.rq.serverProtocol status
      headerLines now parsed
      endHeaders
      pure status : Httpd Int) s₀ := by
  have hstart : minuteHttpdStart s₀ = .ok (⟨⟩, s₀.started) := rfl
  unfold headToBlank headToStatus headerLines
  split
  · simp only [bind_assoc, pure_bind]
    rw [bind_of_ok hstart, bind_of_ok hstart, handleHead, bind_assoc, get_bind]
    simp only [bind_assoc, pure_bind]
    rfl
  · simp only [errorHead, bind_assoc, pure_bind]
    rw [get_bind]

/-- The interim response of a request that was read with `parsed`. -/
def interimOf (app : MinuteHttpdApp υ) (now : Nat) (user : υ) (parsed : Int) (s₀ : HttpdResponse) : List Byte :=
  if parsed = 0 then interimDue app now user s₀ else []

/-- What is sent is, in this order, the interim response if there is one, the status line, the header lines in the order
they were added, the empty line and the body. -/
def HeadSent (app : MinuteHttpdApp υ) (now : Nat) (user : υ) (state : HttpdState) (parsed : Int) (s₀ : HttpdResponse) :
    Prop :=
  ∃ status s₁, headToBlank app now user parsed s₀ = .ok (status, s₁) ∧
    s₁.state.outfd.sent = state.outfd.sent ++ interimOf app now user parsed s₀ ++
      statusLine s₀.rq.serverProtocol status ++ s₁.history.headers ++ crlf ∧
    ∀ r user' resp, minuteHttpdHandle app now user state = .ok ((r, user'), resp) →
      ∃ body, resp.state.outfd.sent = s₁.state.outfd.sent ++ body

/-- The header lines that are added before the final status line fit the ring. -/
def HeadFits (s : HttpdResponse) : Prop := s.history.headers.length ≤ s.state.output.size

/-- The peer takes the interim response and the status line, each at the first attempt. -/
def PeerTakes (interim line : List Byte) (fd : Outfd) : Prop :=
  (interim ≠ [] → (fd.write interim).1 = interim.length) ∧
    ((fd.takeInterim interim).write line).1 = line.length

theorem Outfd.write_whole {fd : Outfd} {bs : List Byte} (h : (fd.write bs).1 = bs.length) :
    (fd.write bs).2.sent = fd.sent ++ bs := by
  obtain ⟨cuts, hw⟩ | ⟨-, n, cuts, hn, hw⟩ := fd.write_cases bs
  · rw [hw] at h
    have : (-1 : Int) = bs.length := h
    omega
  · rw [hw] at h ⊢
    have hall : n = bs.length := Int.ofNat.inj h
    dsimp only
    rw [hall, List.take_length]

theorem Outfd.write_part {fd : Outfd} {bs : List Byte} (hne : bs ≠ []) (h : (fd.write bs).1 ≠ bs.length) :
    (fd.write bs).2.sent.length < fd.sent.length + bs.length := by
  have hpos := List.length_pos_iff.mpr hne
  obtain ⟨cuts, hw⟩ | ⟨-, n, cuts, hn, hw⟩ := fd.write_cases bs
  · rw [hw]
    dsimp only
    omega
  · rw [hw] at h ⊢
    have hnot : n ≠ bs.length := fun heq => h (congrArg Int.ofNat heq)
    dsimp only
    rw [List.length_append, List.length_take]
    omega

theorem Outfd.length_write_le (fd : Outfd) (bs : List Byte) :
    (fd.write bs).2.sent.length ≤ fd.sent.length + bs.length := by
  by_cases h : (fd.write bs).1 = bs.length
  · exact Nat.le_of_eq (by rw [Outfd.write_whole h, List.length_append])
  · by_cases hne : bs = []
    · obtain ⟨cuts, hw⟩ | ⟨-, n, cuts, hn, hw⟩ := fd.write_cases bs
      · rw [hw]
        exact Nat.le_add_right _ _
      · rw [hw, hne, List.take_nil, List.append_nil]
        exact Nat.le_add_right _ _
    · exact Nat.le_of_lt (Outfd.write_part hne h)

/-- At the final status line: the header lines are in the ring, unless there was no room for them. -/
theorem headToStatus_out (hsize : state.output.SizeOk) (hrequest : handleRequest (.init state) = .ok (parsed, s₀))
    (hstatus : headToStatus app now user parsed s₀ = .ok (status, s)) :
    (∃ c, Gathered (state.outfd.takeInterim (interimOf app now user parsed s₀)) c s ∧
      (c = s.history.headers ∨
        (c.length < s.history.headers.length ∧ s.state.output.size < s.history.headers.length))) ∨
    (s.state.output.size < s.history.headers.length ∧
      Misplaced state.outfd.sent (interimOf app now user parsed s₀) s) := by
  obtain ⟨hout, hfd⟩ := meets_iff.mp (@handleRequest_clears state) _ _ hrequest
  have hheaders : s₀.history.headers = [] :=
    congrArg History.headers (meets_iff.mp (handleRequest_history (.init state)) _ _ hrequest)
  have hgathered : Gathered state.outfd [] s₀ := by
    refine ⟨?_, by rw [hout]; rfl, ?_, hfd⟩
    · rw [HttpdResponse.OutValid, hout]
      exact ⟨hsize, by rw [used_clear]; exact Nat.zero_le _⟩
    · rw [hout]
      exact List.eq_nil_of_length_eq_zero (by rw [Iobuf.length_contents, used_clear])
  unfold headToStatus at hstatus
  unfold interimOf
  by_cases hzero : parsed = 0
  · rw [if_pos hzero] at hstatus ⊢
    have hstart : minuteHttpdStart s₀ = .ok (⟨⟩, s₀.started) := rfl
    rw [bind_of_ok hstart] at hstatus
    obtain ⟨⟨status', user'⟩, s', hcallbacks, hpure⟩ := bind_eq_ok.mp hstatus
    cases hpure
    obtain ⟨hn, ⟨c, hc, -, hall⟩ | hmisplaced⟩ := meets_iff.mp
      (handleCallbacks_headersOut hgathered rfl hheaders) _ _ hcallbacks
    · rw [hn]
      exact .inl ⟨c, hc, hall⟩
    · rw [hn]
      exact .inr hmisplaced
  · rw [if_neg hzero] at hstatus ⊢
    cases hstatus
    exact .inl ⟨[], hgathered, .inl hheaders.symm⟩

/-- Behind the final status line. -/
def HttpdResponse.statusWritten (s : HttpdResponse) (line : List Byte) : HttpdResponse :=
  { s with state.outfd :=
      if decide ((s.state.outfd.write line).1 ≤ 0) then (s.state.outfd.write line).2.close
      else (s.state.outfd.write line).2 }

theorem sent_statusWritten (s : HttpdResponse) (line : List Byte) :
    (s.statusWritten line).state.outfd.sent = (s.state.outfd.write line).2.sent := by
  unfold HttpdResponse.statusWritten
  dsimp only
  split
  · rfl
  · rfl

theorem headToBlank_ok (hstatus : headToStatus app now user parsed s₀ = .ok (status, s)) :
    headToBlank app now user parsed s₀ = (do
      headerLines now parsed
      endHeaders
      pure status : Httpd Int) (s.statusWritten (statusLine s₀.rq.serverProtocol status)) := by
  rw [headToBlank_eq, bind_of_ok hstatus]
  rfl

/-- **With too few bytes** behind the status line not all is there. -/
theorem not_sent_of_bounded {b : Nat} {start : List Byte} (h : Bounded b s) (hb : b < start.length)
    (hrun : (do headerLines now parsed; endHeaders : Httpd PUnit) s = .ok (⟨⟩, s₁)) :
    s₁.state.outfd.sent ≠ start ++ s₁.history.headers ++ crlf := by
  intro hsent
  have hle := meets_iff.mp (headEnd_bounded now parsed h) _ _ hrun
  rw [hsent, List.length_append, List.length_append] at hle
  omega

/-- An `S` in the place of the status line is none of its letters. -/
theorem misplaced_wrong {old interim rest : List Byte} {version : HttpVersion}
    (hinterim : interim = [] ∨ interim = statusLine version 100) (h : Misplaced old interim s) :
    s.state.outfd.sent ≠ old ++ interim ++ statusLine version status ++ rest ++ crlf := by
  intro hsent
  obtain ⟨line, hline⟩ := List.head?_eq_some_iff.mp (statusLine_letter version status)
  obtain ⟨u, ⟨v, rfl⟩, ⟨more, hmore⟩ | ⟨-, hshort⟩⟩ := h
  · rw [hmore, hline] at hsent
    simp only [List.append_assoc, List.append_cancel_left_eq, List.cons_append] at hsent
    cases v with
    | nil =>
      have hletter : (83 : Byte) = 72 := (List.cons.inj hsent).1
      exact absurd hletter (by decide)
    | cons d v =>
      have hletter : (83 : Byte) = d := (List.cons.inj hsent).1
      have hmem : (83 : Byte) ∈ interimHead version := by
        obtain hnil | hwhole := hinterim
        · exact absurd hnil (by simp)
        · rw [interimHead, ← hwhole, hletter]
          simp
      exact (interimHead_letters version).1 hmem
  · have hlen := congrArg List.length (hshort.symm.trans hsent)
    rw [hline] at hlen
    simp only [List.length_append, List.length_cons] at hlen
    omega

theorem interimOf_cases (app : MinuteHttpdApp υ) (now : Nat) (user : υ) (parsed : Int) (s₀ : HttpdResponse) :
    interimOf app now user parsed s₀ = [] ∨
      interimOf app now user parsed s₀ = statusLine s₀.rq.serverProtocol 100 := by
  unfold interimOf interimDue
  split
  · split
    · split
      · exact .inr rfl
      · exact .inl rfl
    · exact .inl rfl
  · exact .inl rfl

/-- **What it takes**: without room for the header lines, or where the peer takes a part of a status line only, the
head does not come out in order. -/
theorem head_needs (hsize : state.output.SizeOk) (hrequest : handleRequest (.init state) = .ok (parsed, s₀))
    (hstatus : headToStatus app now user parsed s₀ = .ok (status, s))
    (hsent : HeadSent app now user state parsed s₀) :
    HeadFits s ∧ PeerTakes (interimOf app now user parsed s₀) (statusLine s₀.rq.serverProtocol status) state.outfd := by
  obtain ⟨status', s₁, hblank, hsent, -⟩ := hsent
  rw [headToBlank_ok hstatus] at hblank
  obtain ⟨⟨⟩, s₂, hlines, hend⟩ := bind_eq_ok.mp hblank
  obtain ⟨⟨⟩, s₃, hempty, hpure⟩ := bind_eq_ok.mp hend
  cases hpure
  have hrun : (do headerLines now parsed; endHeaders : Httpd PUnit)
      (s.statusWritten (statusLine s₀.rq.serverProtocol status)) = .ok (⟨⟩, s₁) := by
    rw [bind_of_ok hlines, hempty]
  have hout := headToStatus_out hsize hrequest hstatus
  have hinterim := interimOf_cases app now user parsed s₀
  have hne := statusLine_ne_nil s₀.rq.serverProtocol status
  generalize interimOf app now user parsed s₀ = interim at hsent hout hinterim ⊢
  generalize hline : statusLine s₀.rq.serverProtocol status = line at hsent hrun hlines hne ⊢
  obtain ⟨c, hgathered, hall⟩ | ⟨hover, hmisplaced⟩ := hout
  · obtain ⟨u, hu, hfd⟩ := state.outfd.takeInterim_hasTaken interim
    have hu := hu.length_le
    have hlen := congrArg List.length hfd
    rw [List.length_append] at hlen
    have hused : s.state.output.used = c.length := by rw [← hgathered.contents, Iobuf.length_contents]
    -- a byte is missing
    have hmissing (b : Nat) (hb : b < state.outfd.sent.length + interim.length + line.length)
        (hheld : ((state.outfd.takeInterim interim).write line).2.sent.length + c.length ≤
          b + s.history.headers.length) : False := by
      have hbounded : Bounded b (s.statusWritten line) := by
        refine ⟨hgathered.ring, ?_, fun _ => ?_⟩
        · rw [sent_statusWritten, hgathered.outfd]
          exact Nat.le_trans (Nat.le_add_right _ _) hheld
        · rw [sent_statusWritten, hgathered.outfd]
          show _ + s.state.output.used ≤ _
          rw [hused]
          exact hheld
      refine not_sent_of_bounded hbounded ?_ hrun hsent
      rw [List.length_append, List.length_append]
      exact hb
    have hwrite := Outfd.length_write_le (state.outfd.takeInterim interim) line
    have hpos := List.length_pos_iff.mpr hne
    obtain rfl | ⟨hshort, -⟩ := hall
    · refine ⟨?_, fun hnil => ?_, ?_⟩
      · rw [HeadFits, ← hused]
        exact hgathered.ring.used_le
      · by_contra hpart
        have hless := Outfd.write_part hnil hpart
        have htaken : (state.outfd.takeInterim interim).sent = (state.outfd.write interim).2.sent := by
          rw [Outfd.takeInterim, if_neg hnil]
          split
          · rfl
          · rfl
        rw [htaken] at hwrite
        exact hmissing ((state.outfd.write interim).2.sent.length + line.length) (by omega) (by omega)
      · by_contra hpart
        have hless := Outfd.write_part hne hpart
        exact hmissing ((state.outfd.takeInterim interim).write line).2.sent.length (by omega) (by omega)
    · exact (hmissing ((state.outfd.takeInterim interim).sent.length + line.length - 1) (by omega) (by omega)).elim
  · have hstable : Stable (Misplaced state.outfd.sent interim) := misplaced_stable
    have hwritten : Misplaced state.outfd.sent interim (s.statusWritten line) :=
      meets_iff.mp (writeOutfd_stable hstable (fun r => r ≤ 0) line s hmisplaced) _ _ rfl
    have hlines₁ := headerLines_meets (P := fun _ => Misplaced state.outfd.sent interim) (fun _ _ h => h)
      (fun _ _ h => hstable.same rfl h) (fun _ _ header value s' _ _ h => hstable.headers.header header value s' h)
      now parsed hwritten
    have hmisplaced₁ : Misplaced state.outfd.sent interim s₁ :=
      meets_iff.mp (endHeaders_stable hstable s₂ (meets_iff.mp hlines₁ _ _ hlines)) _ _ hempty
    rw [← hline] at hsent
    exact absurd hsent (misplaced_wrong hinterim hmisplaced₁)

theorem handle_goes_on {r : Int} {user' : υ} {resp : HttpdResponse}
    (hrequest : handleRequest (.init state) = .ok (parsed, s₀)) (hparsed : 0 ≤ parsed)
    (hblank : headToBlank app now user parsed s₀ = .ok (status, s₁))
    (h : minuteHttpdHandle app now user state = .ok ((r, user'), resp)) :
    ∃ body, resp.state.outfd.sent = s₁.state.outfd.sent ++ body := by
  have hstable : Stable fun s' => s₁.state.outfd.sent <+: s'.state.outfd.sent := fun _ _ hgrows h => h.trans hgrows.sent
  have hstart : s₁.state.outfd.sent <+: s₁.state.outfd.sent := List.prefix_refl _
  obtain ⟨parsed', s', hs, hrun⟩ := bind_eq_ok.mp h
  rw [hrequest] at hs
  cases hs
  have hgoes : Meets (fun _ => True) (fun _ s' => s₁.state.outfd.sent <+: s'.state.outfd.sent)
      (handleStatus app now user parsed) s₀ := by
    by_cases hzero : parsed = 0
    · subst hzero
      obtain ⟨user₁, hhead⟩ := headToBlank_zero hblank
      rw [meets_congr (handleStatus_answers app now user s₀), meets_bind, meets_ok hhead]
      refine (handleBody_stable hstable app user₁ status s₁ hstart).bind fun _ s₂ h₂ => ?_
      exact (handleFinish_stable hstable s₂ h₂).bind fun _ _ h₃ => (meets_pure _).mpr h₃
    · obtain ⟨-, hhead⟩ := headToBlank_error hzero hblank
      rw [handleStatus, if_neg (by omega), if_pos hzero, handleError_eq, meets_bind, meets_ok hhead]
      have hpage : Keeps (fun s' => s₁.state.outfd.sent <+: s'.state.outfd.sent) (errorPage parsed) :=
        (minuteHttpdStandardBody_stable hstable _).bind fun _ => (minuteHttpdFlush_stable hstable).bind fun _ =>
          minuteHttpdChunkEnd_stable hstable
      refine (hpage s₁ hstart).bind fun _ s₂ h₂ => ?_
      rw [meets_bind, meets_get, meets_pure]
      exact h₂
  obtain ⟨body, hbody⟩ := meets_iff.mp hgoes _ _ hrun
  exact ⟨body, hbody.symm⟩

theorem Outfd.Takes.write_taken {n : Nat} {fd : Outfd} (h : fd.Takes (n + 1)) {bs : List Byte} (hne : bs ≠ [])
    (hall : (fd.write bs).1 = bs.length) :
    (if (fd.write bs).1 ≤ 0 then (fd.write bs).2.close else (fd.write bs).2).Takes n ∧
      (if (fd.write bs).1 ≤ 0 then (fd.write bs).2.close else (fd.write bs).2).sent = fd.sent ++ bs := by
  have hpos := List.length_pos_iff.mpr hne
  rw [if_neg (by omega)]
  refine ⟨?_, Outfd.write_whole hall⟩
  rw [h.write]
  exact h.wrote bs

/-- How many writes there are at most up to the empty line: one for the interim response, one for the status line, and
no more than the header lines have bytes. Those that follow `headers`, and the empty line, have less than 1 KiB. -/
def headWrites (headers : List Byte) : Nat := headers.length + 0x400 + 2

/-- **It is enough**, if the peer takes something of every write up to the empty line. -/
theorem head_suffices (hsize : state.output.SizeOk) (hrequest : handleRequest (.init state) = .ok (parsed, s₀))
    (hparsed : 0 ≤ parsed) (hstatus : headToStatus app now user parsed s₀ = .ok (status, s))
    (hsteady : state.outfd.Takes (headWrites s.history.headers)) (hsmall : s.state.output.size < 2 ^ 31)
    (hfits : HeadFits s)
    (htakes : PeerTakes (interimOf app now user parsed s₀) (statusLine s₀.rq.serverProtocol status) state.outfd) :
    HeadSent app now user state parsed s₀ := by
  have hout := headToStatus_out hsize hrequest hstatus
  have hne := statusLine_ne_nil s₀.rq.serverProtocol status
  obtain ⟨c, hgathered, rfl | ⟨-, hover⟩⟩ | ⟨hover, -⟩ := hout
  · have hinterim : (state.outfd.takeInterim (interimOf app now user parsed s₀)).Takes
          (s.history.headers.length + 0x400 + 1) ∧
        (state.outfd.takeInterim (interimOf app now user parsed s₀)).sent =
          state.outfd.sent ++ interimOf app now user parsed s₀ := by
      unfold Outfd.takeInterim
      by_cases hnil : interimOf app now user parsed s₀ = []
      · rw [if_pos hnil, hnil]
        exact ⟨hsteady.mono (Nat.le_succ _), (List.append_nil _).symm⟩
      · rw [if_neg hnil]
        exact hsteady.write_taken hnil (htakes.1 hnil)
    obtain ⟨hsteady₁, hsent₁⟩ := hinterim
    obtain ⟨hsteady₂, hsent₂⟩ := hsteady₁.write_taken hne htakes.2
    rw [hsent₁] at hsent₂
    have houtfd : (s.statusWritten (statusLine s₀.rq.serverProtocol status)).state.outfd =
        if ((state.outfd.takeInterim (interimOf app now user parsed s₀)).write
          (statusLine s₀.rq.serverProtocol status)).1 ≤ 0 then
          ((state.outfd.takeInterim (interimOf app now user parsed s₀)).write
            (statusLine s₀.rq.serverProtocol status)).2.close
        else ((state.outfd.takeInterim (interimOf app now user parsed s₀)).write
          (statusLine s₀.rq.serverProtocol status)).2 := by
      unfold HttpdResponse.statusWritten
      simp only [hgathered.outfd, decide_eq_true_eq]
    obtain ⟨start, hstart⟩ : ∃ start, start = state.outfd.sent ++ interimOf app now user parsed s₀ ++
        statusLine s₀.rq.serverProtocol status := ⟨_, rfl⟩
    rw [← hstart] at hsent₂
    have hfollows : Follows ((start ++ s.history.headers).length + 0x400) start 0
        (s.statusWritten (statusLine s₀.rq.serverProtocol status)) := by
      have hused := hgathered.ring.used_le
      have hwrite : s.state.output.write.toNat = s.state.output.used := by
        unfold Iobuf.used minuteIobufUsed
        rw [hgathered.start]
        exact (congrArg BitVec.toNat (BitVec.sub_zero s.state.output.write)).symm
      refine ⟨⟨⟨hgathered.ring, ?_, ?_⟩, hsmall, ?_, ?_⟩, Nat.le_refl _⟩
      · show s.state.output.read.toNat ≤ _
        rw [hgathered.start]
        exact Nat.zero_le _
      · rw [houtfd, hsent₂, List.length_append]
        exact hsteady₂.mono (by omega)
      · rw [houtfd, hsent₂]
        exact congrArg (fun x => _ ++ x) hgathered.contents
      · show s.state.output.write.toNat ≤ _
        omega
    obtain ⟨⟨⟩, s₁, hrun, hsent⟩ := (headEnd_follows now parsed hfollows).exists_ok
    obtain ⟨⟨⟩, s₂, hlines, hend⟩ := bind_eq_ok.mp hrun
    have hblank : headToBlank app now user parsed s₀ = .ok (status, s₁) := by
      rw [headToBlank_ok hstatus, bind_of_ok hlines, bind_of_ok hend]
      rfl
    rw [hstart] at hsent
    exact ⟨status, s₁, hblank, hsent, fun _ _ _ h => handle_goes_on hrequest hparsed hblank h⟩
  · exact absurd hover (Nat.not_lt_of_le hfits)
  · exact absurd hover (Nat.not_lt_of_le hfits)

/-- A header with an empty value never returns: the `memcpy`s of `minute_iobuf_write` run out of it. -/
theorem minuteHttpdHeader_empty (header : HttpResponseHeader) {s : HttpdResponse} (h : s.OutValid) :
    Meets (fun _ => True) (fun _ _ => False) (minuteHttpdHeader header []) s := by
  rw [minuteHttpdHeader, meets_bind, meets_modify]
  have hnoted : HttpdResponse.OutValid { s with history.headers := s.history.headers ++ headerLine header [] } := h
  refine (minuteHttpdOutput_outValid _ false _ hnoted).bind fun _ s₁ h₁ => ?_
  refine (minuteHttpdOutput_outValid _ false s₁ h₁).bind fun _ s₂ h₂ => ?_
  have hprint : Meets (fun _ => True) (fun _ _ => False) (minuteHttpdPrint [] false) s₂ := by
    have hroom : ¬minuteIobufFree s₂.state.output < BitVec.ofNat 32 ([] : List Byte).length := BitVec.not_lt_zero
    rw [minuteHttpdPrint_eq (by decide), minuteHttpdOutput, meets_bind, meets_get]
    dsimp only
    rw [if_neg hroom, minuteIobufWrite_nil h₂]
    exact (meets_bind _ _).mpr ((meets_throw _).mpr trivial)
  exact hprint.bind fun _ _ hno => hno.elim

/-- **When the head comes out in order**: exactly if the header lines that are added before the final status line fit
the out ring and the peer takes the interim response and the status line whole, if it takes something of every write up
to the empty line. A header with an empty value is never added. -/
theorem headSent_iff (hsize : state.output.SizeOk) (hrequest : handleRequest (.init state) = .ok (parsed, s₀))
    (hparsed : 0 ≤ parsed) (hstatus : headToStatus app now user parsed s₀ = .ok (status, s)) :
    (HeadSent app now user state parsed s₀ → HeadFits s ∧
      PeerTakes (interimOf app now user parsed s₀) (statusLine s₀.rq.serverProtocol status) state.outfd) ∧
    (state.outfd.Takes (headWrites s.history.headers) → s.state.output.size < 2 ^ 31 → HeadFits s ∧
      PeerTakes (interimOf app now user parsed s₀) (statusLine s₀.rq.serverProtocol status) state.outfd →
        HeadSent app now user state parsed s₀) ∧
    (∀ header (s' : HttpdResponse), s'.OutValid → ∀ s'', minuteHttpdHeader header [] s' ≠ .ok (⟨⟩, s'')) :=
  ⟨head_needs hsize hrequest hstatus,
    fun hsteady hsmall h => head_suffices hsize hrequest hparsed hstatus hsteady hsmall h.1 h.2,
    fun header _ hvalid _ hrun => meets_iff.mp (minuteHttpdHeader_empty header hvalid) _ _ hrun⟩

end

instance headFitsDecidable (s : HttpdResponse) : Decidable (HeadFits s) := Nat.decLe _ _

instance peerTakesDecidable (interim line : List Byte) (fd : Outfd) : Decidable (PeerTakes interim line fd) := by
  unfold PeerTakes
  infer_instance

theorem headSent_short : ∃ s₀, handleRequest (.init (connected "GET / HTTP/1.1\r\n\r\n")) = .ok (0, s₀) ∧
    HeadSent (silentApp 200) 0 () (connected "GET / HTTP/1.1\r\n\r\n") 0 s₀ := by
  have hrun : accepts (fun x => decide (x.1 = 0) && accepts (fun y => decide (HeadFits y.2) &&
      decide (y.2.state.output.size < 2 ^ 31) && decide (PeerTakes (interimOf (silentApp 200) 0 () 0 x.2)
        (statusLine x.2.rq.serverProtocol y.1) (connected "GET / HTTP/1.1\r\n\r\n").outfd))
      (headToStatus (silentApp 200) 0 () 0 x.2)) (handleRequest (.init (connected "GET / HTTP/1.1\r\n\r\n"))) = true := by
    decide +kernel
  obtain ⟨⟨parsed, s₀⟩, hrequest, hp⟩ := accepts_iff.mp hrun
  rw [Bool.and_eq_true, decide_eq_true_iff] at hp
  obtain ⟨rfl, hstatus⟩ := hp
  obtain ⟨⟨status, s⟩, hstatus, hp⟩ := accepts_iff.mp hstatus
  simp only [Bool.and_eq_true, decide_eq_true_iff] at hp
  obtain ⟨⟨hfits, hsmall⟩, htakes⟩ := hp
  exact ⟨s₀, hrequest, (headSent_iff (connected_outValid _).size hrequest (Int.le_refl 0) hstatus).2.1
    ⟨rfl, nofun⟩ hsmall ⟨hfits, htakes⟩⟩

/-- An application that adds a header line of some 300 bytes. -/
def verboseApp : MinuteHttpdApp Unit :=
  { silentApp 200 with
    header := fun _ _ user => .call (.string .location (List.replicate 300 97)) fun _ => .done (200, user) }

/-- With a ring of 256 bytes the header lines come before the status line. -/
theorem headSent_verbose : ∃ s₀, handleRequest (.init (connected "GET / HTTP/1.1\r\n\r\n")) = .ok (0, s₀) ∧
    ¬HeadSent verboseApp 0 () (connected "GET / HTTP/1.1\r\n\r\n") 0 s₀ := by
  have hrun : accepts (fun x => decide (x.1 = 0) && accepts (fun y => y.2.state.outfd.sent.head? = some 83 &&
      decide (interimOf verboseApp 0 () 0 x.2 = []))
      (headToBlank verboseApp 0 () 0 x.2)) (handleRequest (.init (connected "GET / HTTP/1.1\r\n\r\n"))) = true := by
    decide +kernel
  obtain ⟨⟨parsed, s₀⟩, hrequest, hp⟩ := accepts_iff.mp hrun
  rw [Bool.and_eq_true, decide_eq_true_iff] at hp
  obtain ⟨rfl, hblank⟩ := hp
  obtain ⟨⟨status, s₁⟩, hblank, hp⟩ := accepts_iff.mp hblank
  simp only [Bool.and_eq_true, decide_eq_true_iff] at hp
  refine ⟨s₀, hrequest, ?_⟩
  rintro ⟨status', s₁', hblank', hsent, -⟩
  rw [hblank] at hblank'
  cases hblank'
  have hletter := congrArg List.head? hsent
  rw [hp.1, hp.2] at hletter
  have hold : (connected "GET / HTTP/1.1\r\n\r\n").outfd.sent = [] := rfl
  rw [hold, List.nil_append, List.nil_append, List.append_assoc, List.head?_append, statusLine_letter] at hletter
  cases hletter

end MinuteHttp
