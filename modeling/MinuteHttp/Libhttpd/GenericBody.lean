import MinuteHttp.Libhttpd.ChunkedBody

/-!
# The generic body

A callback that returns non-zero is to get the generic page for its body if it has written nothing, and the bytes
that it has written otherwise (`bodyDue`), whether they have been flushed or not. The code takes `headermark` behind
the callback, so that the page is added whatever has been written, as long as there is room for it in the ring. So
what is sent is the body that is due exactly where the two agree (`genericBody_iff`).
-/

namespace MinuteHttp

open Effect

/-- The body that is due to a callback that has written `calls` and returned `response`. -/
def bodyDue (page : List Byte) (response : Uint) (calls : List OutCall) : List Byte :=
  if response ≠ 0 ∧ written calls = [] then page else written calls

/-- What is sent after `s₁` is the body that is due. -/
def BodyRight {υ : Type} (app : MinuteHttpdApp υ) (now : Nat) (user : υ) (state : HttpdState) (s₀ s₁ : HttpdResponse)
    (page : List Byte) (response : Uint) (calls : List OutCall) : Prop :=
  ∃ user' s₂, respond app now user s₀ = .ok (user', s₂) ∧
    IsBody s₁.teChunked (bodyDue page response calls) (s₂.state.outfd.sent.drop s₁.state.outfd.sent.length) ∧
    ∀ r user'' resp, minuteHttpdHandle app now user state = .ok ((r, user''), resp) →
      resp.state.outfd.sent = s₂.state.outfd.sent

/-- The calls can be carried out, and there is room for the page that a callback asks for exactly if it has written
nothing. -/
structure DueFits (s₁ : HttpdResponse) (page : List Byte) (response : Uint) (calls : List OutCall) : Prop where
  each : CallsFit s₁.teChunked s₁.state.output.size calls s₁.emptyOutbox
  last : ChunkFits s₁.teChunked (withPage page response s₁.state.output.size
    (gatherAll s₁.state.output.size calls s₁.emptyOutbox)) []
  page : response ≠ 0 → (written calls = [] ↔
    (gatherAll s₁.state.output.size calls s₁.emptyOutbox).held.length + page.length ≤ s₁.state.output.size)

section

variable {υ : Type} {app : MinuteHttpdApp υ} {now : Nat} {user user₁ user₂ : υ} {response : Uint} {code : Int}
  {state : HttpdState} {s₀ s₁ t : HttpdResponse}

/-- The body that is due is what has been written and the page exactly if there is room for the page where it is due. -/
theorem bodyDue_eq_iff {page : List Byte} {cap : Nat} {calls : List OutCall} {b : Outbox Byte} (hpage : 0 < page.length)
    (hb : b.all = written calls) :
    bodyDue page response calls = (withPage page response cap b).all ↔
      (response ≠ 0 → (written calls = [] ↔ b.held.length + page.length ≤ cap)) := by
  have hlonger : written calls ≠ written calls ++ page := fun h => by
    have hlen := congrArg List.length h
    rw [List.length_append] at hlen
    omega
  have hne : page ≠ [] := List.ne_nil_of_length_pos hpage
  rw [all_withPage, hb, bodyDue]
  by_cases hzero : response = 0
  · rw [if_neg (fun h => h.1 hzero), if_neg (fun h => h.1 hzero)]
    exact iff_of_true rfl fun h => absurd hzero h
  · by_cases hwritten : written calls = []
    · rw [if_pos ⟨hzero, hwritten⟩, hwritten, List.nil_append]
      by_cases hroom : b.held.length + page.length ≤ cap
      · rw [if_pos ⟨hzero, hroom⟩]
        exact iff_of_true rfl fun _ => iff_of_true rfl hroom
      · rw [if_neg (fun h => hroom h.2)]
        exact iff_of_false hne fun h => hroom ((h hzero).mp rfl)
    · rw [if_neg (fun h => hwritten h.2)]
      by_cases hroom : b.held.length + page.length ≤ cap
      · rw [if_pos ⟨hzero, hroom⟩]
        exact iff_of_false hlonger fun h => hwritten ((h hzero).mpr hroom)
      · rw [if_neg (fun h => hroom h.2)]
        exact iff_of_true rfl fun _ => iff_of_false hwritten hroom

/-- **When the body is the one that is due**, where every write is accepted: if the calls can be carried out and there
is room for the page exactly where it is due; and of a response of less than 2 GiB, or 4 GiB if it is chunked, only
then. -/
theorem genericBody_iff (hsize : state.output.SizeOk) (hrequest : handleRequest (.init state) = .ok (0, s₀))
    (hhead : handleHead app now user s₀.started = .ok ((code, user₁), s₁)) (hbody : hasBody s₁.rq code)
    (hdelivers : s₁.state.outfd.Delivers s₁.teChunked)
    (hcallback : (app.response s₁.rq s₁.state.text (BitVec.ofInt 32 code) user₁).run ResponseCall.note s₁ =
      .ok ((response, user₂), t)) :
    (DueFits s₁ (standardBodyText code) response (callsSince s₁ t) →
      BodyRight app now user state s₀ s₁ (standardBodyText code) response (callsSince s₁ t)) ∧
    (s₁.state.output.read.toNat + (written (callsSince s₁ t)).length + (standardBodyText code).length <
        bodyLimit s₁.teChunked →
      BodyRight app now user state s₀ s₁ (standardBodyText code) response (callsSince s₁ t) →
      DueFits s₁ (standardBodyText code) response (callsSince s₁ t)) := by
  have hcarries := behindHead_carries hsize hrequest hhead hdelivers
  have hnote : noteBody app code user₁ s₁ = .ok ((response, user₂), t) := by
    rw [noteBody, get_bind]
    rw [if_pos hbody, hcallback]
  obtain ⟨status, rfl⟩ := meets_iff.mp (handleHead_code app now user _) _ _ hhead
  have hpos := (length_standardBodyText status).1
  have hrespond : respond app now user s₀ = finishBody app status.toInt user₁ s₁ := by
    rw [respond_eq, bind_of_ok hhead]
  have hall : (gatherAll s₁.state.output.size (callsSince s₁ t) s₁.emptyOutbox).all = written (callsSince s₁ t) :=
    all_gatherAll _ _ _
  have hdue := @bodyDue_eq_iff response (standardBodyText status.toInt) s₁.state.output.size _ _ hpos hall
  constructor
  · rintro ⟨hcalls, hlast, hroom⟩
    obtain ⟨user', s₂, hs₂, hsent⟩ := (finishBody_body hcarries hnote hcalls rfl hlast).exists_ok
    exact ⟨user', s₂, hrespond.trans hs₂, (hsent _).mpr (hdue.mpr hroom), fun r user'' resp hhandle =>
      handle_sent hrequest (hrespond.trans hs₂) hhandle⟩
  · rintro hsmall ⟨user', s₂, hs₂, hsent, -⟩
    rw [hrespond] at hs₂
    have hfits : CallsFit s₁.teChunked s₁.state.output.size (callsSince s₁ t) s₁.emptyOutbox ∧
        ChunkFits s₁.teChunked (withPage (standardBodyText status.toInt) response s₁.state.output.size
          (gatherAll s₁.state.output.size (callsSince s₁ t) s₁.emptyOutbox)) [] := by
      by_contra hnot
      exact (meets_iff.mp (finishBody_spoilt hcarries hnote rfl hnot hsmall) _ _ hs₂).not_body hsent
    have htold := (meets_ok hs₂).mp (finishBody_body hcarries hnote hfits.1 rfl hfits.2)
    exact ⟨hfits.1, hfits.2, hdue.mp ((htold _).mp hsent)⟩

end

/-- A callback that only flushes gets the page. -/
theorem genericBody_alone : ∃ s₀ s₁ t code,
    ((replyApp [.flush] 1).response s₁.rq s₁.state.text (BitVec.ofInt 32 code) ()).run ResponseCall.note s₁ =
      .ok ((1, ()), t) ∧
      BodyRight (replyApp [.flush] 1) 0 () keptConnection s₀ s₁ (standardBodyText code) 1 (callsSince s₁ t) := by
  have hrun : accepts (fun x => decide (x.1 = 0) && accepts (fun y => y.2.teChunked && y.2.state.outfd.isOpen &&
      decide (y.2.state.outfd.cuts = []) && decide (hasBody y.2.rq y.1.1) && accepts (fun z => decide (z.1.1 = 1) &&
        decide (CallsFit true y.2.state.output.size (callsSince y.2 z.2) y.2.emptyOutbox) &&
        decide (ChunkFits true (withPage (standardBodyText y.1.1) 1 y.2.state.output.size
          (gatherAll y.2.state.output.size (callsSince y.2 z.2) y.2.emptyOutbox)) []) &&
        decide (written (callsSince y.2 z.2) = []) &&
        decide ((gatherAll y.2.state.output.size (callsSince y.2 z.2) y.2.emptyOutbox).held.length +
          (standardBodyText y.1.1).length ≤ y.2.state.output.size))
        (((replyApp [.flush] 1).response y.2.rq y.2.state.text (BitVec.ofInt 32 y.1.1) ()).run ResponseCall.note y.2))
      (handleHead (replyApp [.flush] 1) 0 () x.2.started)) (handleRequest (.init keptConnection)) = true := by
    decide +kernel
  obtain ⟨⟨parsed, s₀⟩, hs₀, hp⟩ := accepts_iff.mp hrun
  rw [Bool.and_eq_true, decide_eq_true_iff] at hp
  obtain ⟨rfl, hp⟩ := hp
  obtain ⟨⟨⟨code, ⟨⟩⟩, s₁⟩, hs₁, hp⟩ := accepts_iff.mp hp
  simp only [Bool.and_eq_true, decide_eq_true_iff] at hp
  obtain ⟨⟨⟨⟨hchunked, hopen⟩, hcuts⟩, hbody⟩, hp⟩ := hp
  obtain ⟨⟨⟨response, ⟨⟩⟩, t⟩, ht, hp⟩ := accepts_iff.mp hp
  simp only [Bool.and_eq_true, decide_eq_true_iff] at hp
  obtain ⟨⟨⟨⟨hone, hcalls⟩, hlast⟩, hnothing⟩, hroom⟩ := hp
  obtain rfl : response = 1 := hone
  have hdelivers : s₁.state.outfd.Delivers s₁.teChunked := by
    rw [hchunked]
    exact ⟨hopen, hcuts⟩
  refine ⟨s₀, s₁, t, code, ht, ?_⟩
  refine (genericBody_iff (connected_outValid _).size hs₀ hs₁ hbody hdelivers ht).1 ⟨?_, ?_, fun _ => ?_⟩
  · rw [hchunked]
    exact hcalls
  · rw [hchunked]
    exact hlast
  · exact iff_of_true hnothing hroom

/-- A request on a connection of version 1.0, whose responses are not chunked. -/
def closedConnection : HttpdState := connected "GET / HTTP/1.0\r\n\r\n"

/-- A byte is written, and the page follows it. -/
theorem genericBody_glued : ∃ s₀ s₁ t code, handleRequest (.init closedConnection) = .ok (0, s₀) ∧
    handleHead (replyApp [.write (bytes "x")] 1) 0 () s₀.started = .ok ((code, ()), s₁) ∧ hasBody s₁.rq code ∧
    s₁.state.outfd.Delivers s₁.teChunked ∧
    ((replyApp [.write (bytes "x")] 1).response s₁.rq s₁.state.text (BitVec.ofInt 32 code) ()).run ResponseCall.note s₁ =
      .ok ((1, ()), t) ∧ callsSince s₁ t = [.write (bytes "x")] ∧
    ¬BodyRight (replyApp [.write (bytes "x")] 1) 0 () closedConnection s₀ s₁ (standardBodyText code) 1
      (callsSince s₁ t) := by
  have hrun : accepts (fun x => decide (x.1 = 0) && accepts (fun y => !y.2.teChunked && y.2.state.outfd.isOpen &&
      decide (y.2.state.outfd.cuts = []) && decide (hasBody y.2.rq y.1.1) && accepts (fun z => decide (z.1.1 = 1) &&
        decide (callsSince y.2 z.2 = [.write (bytes "x")]))
        (((replyApp [.write (bytes "x")] 1).response y.2.rq y.2.state.text (BitVec.ofInt 32 y.1.1) ()).run
          ResponseCall.note y.2) &&
      accepts (fun z => !decide (bytes "x" = z.2.state.outfd.sent.drop y.2.state.outfd.sent.length))
        (respond (replyApp [.write (bytes "x")] 1) 0 () x.2))
      (handleHead (replyApp [.write (bytes "x")] 1) 0 () x.2.started))
      (handleRequest (.init closedConnection)) = true := by decide +kernel
  obtain ⟨⟨parsed, s₀⟩, hs₀, hp⟩ := accepts_iff.mp hrun
  rw [Bool.and_eq_true, decide_eq_true_iff] at hp
  obtain ⟨rfl, hp⟩ := hp
  obtain ⟨⟨⟨code, ⟨⟩⟩, s₁⟩, hs₁, hp⟩ := accepts_iff.mp hp
  simp only [Bool.and_eq_true, decide_eq_true_iff, Bool.not_eq_true'] at hp
  obtain ⟨⟨⟨⟨⟨hplain, hopen⟩, hcuts⟩, hbody⟩, hnote⟩, hsent⟩ := hp
  obtain ⟨⟨⟨response, ⟨⟩⟩, t⟩, ht, hp⟩ := accepts_iff.mp hnote
  simp only [Bool.and_eq_true, decide_eq_true_iff] at hp
  obtain ⟨hone, hcalls⟩ := hp
  obtain rfl : response = 1 := hone
  have hwilling : s₁.state.outfd.Willing := ⟨hopen, hcuts⟩
  refine ⟨s₀, s₁, t, code, hs₀, hs₁, hbody, ?_, ht, hcalls, ?_⟩
  · rw [hplain]
    exact hwilling.steady
  · rintro ⟨user', s₂, hs₂, hright, -⟩
    rw [hs₂] at hsent
    rw [hplain, hcalls] at hright
    have hright : bytes "x" = s₂.state.outfd.sent.drop s₁.state.outfd.sent.length := hright
    simp [accepts, hright] at hsent

end MinuteHttp
