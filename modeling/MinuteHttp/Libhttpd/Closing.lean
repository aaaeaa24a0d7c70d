import MinuteHttp.Libhttpd.Frames

/-!
# Bodies that cannot be read, and the connection

`minute_httpd_handle` computes its return value from flags that are set before the body is read. So a
request whose body is broken closes the connection exactly where its head has asked for that anyway
(`broken_closes_iff`).
-/

namespace MinuteHttp

open Effect

/-! ## What the phases leave as it is -/

theorem readfd_history : Leaves HttpdResponse.history readfd := by
  intro s
  simp only [readfd, meets_bind, meets_get, meets_set, meets_pure]

theorem httpRead_history (rqs : MinuteHttpRqs) : Leaves HttpdResponse.history (httpRead rqs) := by
  intro s
  simp only [httpRead, meets_bind, meets_get]
  split
  · exact (meets_set_pure _ _).mpr rfl
  · exact leaves_throw _ s
  · exact leaves_throw _ s

theorem refillUnless_history (prefilled : Bool) : Leaves HttpdResponse.history (refillUnless prefilled) := by
  unfold refillUnless
  split
  · exact leaves_pure _
  · refine readfd_history.bind fun r => leaves_get.bind fun resp => ?_
    split
    · exact leaves_pure _
    · split <;> exact leaves_pure _

theorem readRequestLoop_history (turns : Nat) (prefilled : Bool) (rqs : MinuteHttpRqs) :
    Leaves HttpdResponse.history (readRequestLoop turns prefilled rqs) := by
  induction turns generalizing prefilled rqs with
  | zero => exact leaves_throw _
  | succ turns ih =>
    refine (refillUnless_history prefilled).bind fun ended => ?_
    split
    · exact leaves_pure _
    · refine (httpRead_history _).bind fun x => ?_
      split
      split
      · exact ih _ _
      · exact leaves_pure _

theorem minuteHttpdReadRequest_history (rqs : MinuteHttpRqs) :
    Leaves HttpdResponse.history (minuteHttpdReadRequest rqs) :=
  leaves_get.bind fun _ => readRequestLoop_history _ _ _

theorem handleRequest_history : Leaves HttpdResponse.history handleRequest := by
  refine Leaves.bind (leaves_modify fun _ => rfl) fun _ => ?_
  intro s
  simp only [meets_bind, meets_get, meets_set]
  exact (minuteHttpdReadRequest_history _ _).imp fun _ _ h => h

theorem broken_of_reading {α : Type} {m : Httpd α} (h : Leaves HttpdResponse.reading m) :
    Leaves (fun resp => resp.history.broken) m := h.comp fun x => x.2.2.2.2.2.1

variable {υ : Type} {app : MinuteHttpdApp υ} {now : Nat} {user user' : υ} {state : HttpdState} {r : Int}
  {resp : HttpdResponse}

theorem handleError_broken (app : MinuteHttpdApp υ) (now : Nat) (status : Int) (user : υ) :
    Leaves (fun resp => resp.history.broken) (handleError app now status user) := by
  refine leaves_get.bind fun _ => (broken_of_reading (writeOutfd_reading _ _)).bind fun _ => ?_
  refine Leaves.bind (leaves_modify fun _ => rfl) fun _ => ?_
  refine (broken_of_reading (serverHeaders_reading _)).bind fun _ => leaves_get.bind fun _ => ?_
  refine (leaves_onlyIf (broken_of_reading (minuteHttpdHeader_reading _ _))).bind fun _ => ?_
  refine (broken_of_reading endHeaders_reading).bind fun _ => ?_
  refine (broken_of_reading (minuteHttpdStandardBody_reading _)).bind fun _ => ?_
  refine (broken_of_reading minuteHttpdFlush_reading).bind fun _ => ?_
  refine (broken_of_reading minuteHttpdChunkEnd_reading).bind fun _ => ?_
  exact leaves_get.bind fun _ => leaves_pure _

/-! ## The return value -/

theorem httpdConnectionKeep_iff (rq : MinuteHttpRq) (resp : HttpdResponse)
    (h : resp.headFlags = startFlags rq) :
    resp.connectionKeep = true ↔ startFlags rq = BitVec.ofNat 32 httpdConnectionKeep := by
  unfold HttpdResponse.connectionKeep
  rw [h, decide_eq_true_iff]
  unfold startFlags
  split
  · split <;> decide
  · split <;> decide

theorem handleFinish_returns (s : HttpdResponse) :
    Meets (fun _ => True) (fun r s' => s'.headFlags = s.headFlags ∧
      (r = httpdClientOkOpen ↔ s'.connectionKeep = true)) handleFinish s := by
  have hflush := headFlags_of_reading minuteHttpdFlush_reading
  have hend := headFlags_of_reading minuteHttpdChunkEnd_reading
  have hdiscard := headFlags_of_writing minuteHttpdInDiscard_writing
  refine (hflush s).bind fun _ s₁ h₁ => (hend s₁).bind fun _ s₂ h₂ => (hdiscard s₂).bind fun _ s₃ h₃ => ?_
  rw [meets_bind, meets_get, meets_pure]
  refine ⟨h₃.trans (h₂.trans h₁), ?_⟩
  cases s₃.connectionKeep <;> decide

theorem handleStatus_returns (app : MinuteHttpdApp υ) (now : Nat) (user : υ) (s : HttpdResponse) :
    Meets (fun _ => True) (fun p _ => p.1 = httpdClientOkOpen ↔
      startFlags s.rq = BitVec.ofNat 32 httpdConnectionKeep) (handleStatus app now user 0) s := by
  have hstart : handleStatus app now user 0 = (do
      minuteHttpdStart
      let p ← handleHead app now user
      let user ← handleBody app p.1 p.2
      let r ← handleFinish
      pure (r, user)) := rfl
  rw [hstart, meets_bind, minuteHttpdStart, meets_modify]
  refine (handleHead_headFlags app now user _).bind fun p s₁ h₁ => ?_
  obtain ⟨status, user₁⟩ := p
  refine (handleBody_headFlags app user₁ status s₁).bind fun user₂ s₂ h₂ => ?_
  refine (handleFinish_returns s₂).bind fun r s₃ h₃ => ?_
  rw [meets_pure]
  exact h₃.2.trans (httpdConnectionKeep_iff s.rq s₃ (h₃.1.trans (h₂.trans h₁)))

/-- The head of the request is read, and asks to keep the connection: `minute_httpd_start` sets the
flag. -/
def KeepsConnection (state : HttpdState) : Prop :=
  ∃ resp, handleRequest (.init state) = .ok (0, resp) ∧
    startFlags resp.rq = BitVec.ofNat 32 httpdConnectionKeep

instance keepsConnectionDecidable (state : HttpdState) : Decidable (KeepsConnection state) :=
  decidable_of_iff (accepts (fun x => decide (x.1 = 0) &&
      decide (startFlags x.2.rq = BitVec.ofNat 32 httpdConnectionKeep)) (handleRequest (.init state)) = true) <| by
    rw [accepts_iff]
    constructor
    · rintro ⟨⟨status, resp⟩, hx, hp⟩
      rw [Bool.and_eq_true, decide_eq_true_iff, decide_eq_true_iff] at hp
      obtain ⟨rfl, hp⟩ := hp
      exact ⟨resp, hx, hp⟩
    · rintro ⟨resp, hx, hp⟩
      exact ⟨(0, resp), hx, by simpa using hp⟩

/-- **After a broken body the connection is closed exactly where the head of the request asked for
that.** -/
theorem broken_closes_iff (h : minuteHttpdHandle app now user state = .ok ((r, user'), resp))
    (hbroken : resp.history.broken = true) : r ≠ httpdClientOkOpen ↔ ¬KeepsConnection state := by
  obtain ⟨status, s₁, hrequest, hstatus⟩ := bind_eq_ok.mp h
  have hclean : s₁.history.broken = false := by
    have hkept := meets_iff.mp (handleRequest_history (.init state)) _ _ hrequest
    rw [hkept]
    rfl
  have hzero : status = 0 := by
    by_contra hne
    unfold handleStatus at hstatus
    split at hstatus
    · cases hstatus
      rw [hclean] at hbroken
      cases hbroken
    · have hkept : resp.history.broken = s₁.history.broken :=
        meets_iff.mp (handleError_broken app now status user s₁) _ _ hstatus
      rw [hbroken, hclean] at hkept
      cases hkept
  subst hzero
  have hreturns := meets_iff.mp (handleStatus_returns app now user s₁) _ _ hstatus
  have hkeeps : KeepsConnection state ↔ startFlags s₁.rq = BitVec.ofNat 32 httpdConnectionKeep := by
    constructor
    · rintro ⟨s, hs, hflags⟩
      rw [hrequest] at hs
      cases hs
      exact hflags
    · exact fun hflags => ⟨s₁, hrequest, hflags⟩
  rw [hkeeps, not_iff_not]
  exact hreturns

/-- A connection on which `head` has come in, with rings of 256 bytes. -/
def connected (head : String) : HttpdState :=
  let ring := minuteIobufInit 256 fun _ => 0
  ⟨ring, ring, minuteTextintInit 256 fun _ => 0, ⟨bytes head, []⟩, ⟨true, [], []⟩⟩

/-- An application that settles on `status` without any call. -/
def silentApp (status : Uint) : MinuteHttpdApp Unit :=
  ⟨fun _ _ user => .done (status, user), fun _ _ user => .done (status, user),
    fun _ _ _ user => .done (0, user), fun _ _ user => user⟩

theorem broken_closes_close :
    let head := "PUT / HTTP/1.1\r\nConnection: close\r\nTransfer-Encoding: chunked\r\n\r\nx"
    ∃ r resp, r ≠ httpdClientOkOpen ∧
      minuteHttpdHandle (silentApp 200) 0 () (connected head) = .ok ((r, ()), resp) := by
  intro head
  have hrun : accepts (fun x => x.2.history.broken)
      (minuteHttpdHandle (silentApp 200) 0 () (connected head)) = true := by decide +kernel
  obtain ⟨⟨⟨r, ⟨⟩⟩, resp⟩, hx, hp⟩ := accepts_iff.mp hrun
  exact ⟨r, resp, (broken_closes_iff hx hp).mpr (by decide +kernel), hx⟩

/-- A chunk that has no size: the connection is kept, and the byte after it starts the next request. -/
theorem broken_kept_open :
    ∃ resp, minuteHttpdHandle (silentApp 200) 0 ()
        (connected "PUT / HTTP/1.1\r\nTransfer-Encoding: chunked\r\n\r\nx") = .ok ((0, ()), resp) ∧
      resp.history.broken = true ∧ (0 : Int) = httpdClientOkOpen := by
  have hrun : accepts (fun x => x.2.history.broken && decide (x.1.1 = 0))
      (minuteHttpdHandle (silentApp 200) 0 ()
        (connected "PUT / HTTP/1.1\r\nTransfer-Encoding: chunked\r\n\r\nx")) = true := by decide +kernel
  obtain ⟨⟨⟨r, ⟨⟩⟩, resp⟩, hx, hp⟩ := accepts_iff.mp hrun
  rw [Bool.and_eq_true, decide_eq_true_iff] at hp
  obtain ⟨hb, rfl⟩ := hp
  exact ⟨resp, hx, hb, rfl⟩

end MinuteHttp
