import MinuteHttp.Lib.Client
import MinuteHttp.Libhttpd.Body

/-!
# Responding comes to an end

However little the peer takes at a time, each retry of `minute_httpd_chunk` has less to write than the one before
(`chunkLoop_ends`), so that no call on the writing side goes on for ever. What a callback may do besides is to read
of the body: what those reads keep, and what is known of the callbacks, is known of the whole response
(`respond_meets`).
-/

namespace MinuteHttp

open Effect

/-- The one way in which a call stops without going on for ever. -/
def Faults (x : Stop) : Prop := x = .fault

/-! ## Writing -/

theorem chunk_left {used m : Uint} {buf : List Byte} (hm : m ≤ used + BitVec.ofNat 32 buf.length) (within : Prop)
    [Decidable within] :
    (used - (if within then m else used) +
        BitVec.ofNat 32 (buf.drop (if within then (0 : Uint) else m - used).toNat).length).toNat + m.toNat ≤
      (used + BitVec.ofNat 32 buf.length).toNat := by
  have hle : m.toNat ≤ (used + BitVec.ofNat 32 buf.length).toNat := hm
  have hexact : ∀ left : Uint, left = used + BitVec.ofNat 32 buf.length - m →
      left.toNat + m.toNat ≤ (used + BitVec.ofNat 32 buf.length).toNat := by
    intro left hleft
    rw [hleft, BitVec.toNat_sub_of_le hm]
    omega
  by_cases hin : within
  · rw [if_pos hin, if_pos hin]
    refine hexact _ ?_
    show used - m + BitVec.ofNat 32 buf.length = _
    bv_omega
  · rw [if_neg hin, if_neg hin, BitVec.sub_self, BitVec.zero_add, List.length_drop]
    by_cases hall : (m - used).toNat ≤ buf.length
    · refine hexact _ ?_
      rw [← BitVec.toNat_inj]
      have hsub : (BitVec.ofNat 32 (buf.length - (m - used).toNat) : Uint) =
          BitVec.ofNat 32 buf.length - (m - used) := by
        rw [← BitVec.ofNat_sub_ofNat_of_le _ _ (m - used).isLt hall, BitVec.ofNat_toNat, BitVec.setWidth_eq]
      rw [hsub]
      bv_omega
    · rw [Nat.sub_eq_zero_of_le (Nat.le_of_not_le hall)]
      simpa using hle

/-- A turn, if what it leaves is dealt with in the turns that are left. -/
theorem chunkLoop_turn {turns : Nat} {buf : List Byte} {chunked : Bool} {s : HttpdResponse}
    (hretry : ∀ (buf' : List Byte) (s' : HttpdResponse),
      (minuteIobufUsed s'.state.output + BitVec.ofNat 32 buf'.length).toNat +
          (if chunked then 0 else 1) ≤
        (minuteIobufUsed s.state.output + BitVec.ofNat 32 buf.length).toNat →
      Meets Faults (fun _ _ => True) (chunkLoop turns buf' false) s') :
    Meets Faults (fun _ _ => True) (chunkLoop (turns + 1) buf chunked) s := by
  rw [chunkLoop, meets_bind, meets_get]
  dsimp only
  split
  · exact (meets_pure _).mpr trivial
  · rw [meets_bind, meets_orStop]
    refine ⟨fun _ => rfl, fun size hsize => ?_⟩
    generalize Outfd.write (size ++ (minuteIobufGather s.state.output).1 ++ (minuteIobufGather s.state.output).2 ++
      buf ++ if chunked = true then crlf else []) s.state.outfd = w
    obtain ⟨accepted, fd⟩ := w
    split
    · rename_i hr
      dsimp only at hr ⊢
      have hpos : 0 < (BitVec.ofInt 32 (BitVec.ofInt 32 accepted).toInt).toNat := by
        rw [BitVec.ofInt_toInt]
        rw [BitVec.toInt_eq_toNat_cond] at hr
        split at hr <;> omega
      generalize BitVec.ofInt 32 (BitVec.ofInt 32 accepted).toInt = n at hpos ⊢
      split
      · rw [meets_set_pure]
        trivial
      · rename_i hpre
        rw [meets_bind, meets_set]
        split
        · rename_i hn
          rw [meets_bind]
          refine (hretry _ _ ?_).imp fun rr s' _ => ?_
          · have hm : n - BitVec.ofNat 32 size.length ≤
                minuteIobufUsed s.state.output + BitVec.ofNat 32 buf.length := by
              bv_omega
            have hleft := chunk_left hm (n < BitVec.ofNat 32 size.length + minuteIobufUsed s.state.output)
            have hused : ∀ x : Uint, s.state.output.write - (s.state.output.read + x) =
                minuteIobufUsed s.state.output - x := by
              intro x
              show _ = s.state.output.write - s.state.output.read - x
              bv_omega
            show (s.state.output.write - (s.state.output.read + _) + _ : Uint).toNat + _ ≤ _
            rw [hused]
            refine Nat.le_trans (Nat.add_le_add_left ?_ _) hleft
            cases chunked with
            | true => exact Nat.zero_le _
            | false =>
              obtain rfl : [] = size := Option.some.inj hsize
              rw [show n - BitVec.ofNat 32 ([] : List Byte).length = n from BitVec.sub_zero n]
              exact hpos
          · split
            · exact (meets_pure _).mpr trivial
            · exact (meets_pure _).mpr trivial
        · exact (meets_pure _).mpr trivial
    · rw [meets_set_pure]
      trivial

/-- **Retries come to an end.** -/
theorem chunkLoop_ends {turns : Nat} {buf : List Byte} {chunked : Bool} {s : HttpdResponse}
    (hturns : (minuteIobufUsed s.state.output + BitVec.ofNat 32 buf.length).toNat +
      (if chunked then 1 else 0) < turns) :
    Meets Faults (fun _ _ => True) (chunkLoop turns buf chunked) s := by
  induction turns generalizing buf chunked s with
  | zero => exact absurd hturns (Nat.not_lt_zero _)
  | succ turns ih =>
    refine chunkLoop_turn fun buf' s' hless => ih ?_
    rw [if_neg (by decide)]
    cases chunked with
    | true =>
      rw [if_pos rfl] at hless hturns
      omega
    | false =>
      rw [if_neg (by decide)] at hless hturns
      omega

theorem minuteHttpdChunk_stops (buf : List Byte) (chunked : Bool) : Stops Faults (minuteHttpdChunk buf chunked) := by
  intro s
  rw [minuteHttpdChunk, meets_bind, meets_get]
  refine chunkLoop_ends ?_
  split <;> omega

theorem minuteHttpdOutput_stops (append : List Byte) (chunked : Bool) :
    Stops Faults (minuteHttpdOutput append chunked) := by
  intro s
  rw [minuteHttpdOutput, meets_bind, meets_get]
  split
  · exact ((minuteHttpdChunk_stops _ _).bind fun _ => stops_pure _) s
  · rw [meets_bind, meets_orStop]
    refine ⟨fun _ => rfl, fun x _ => ?_⟩
    rw [meets_set]
    trivial

theorem minuteHttpdStandardBody_stops (status : Int) : Stops Faults (minuteHttpdStandardBody status) := by
  intro s
  rw [minuteHttpdStandardBody, meets_bind, meets_get, meets_bind, meets_orStop]
  refine ⟨fun _ => rfl, fun x _ => ?_⟩
  rw [meets_set]
  trivial

theorem minuteHttpdFlush_stops : Stops Faults minuteHttpdFlush :=
  stops_get.bind fun _ => (minuteHttpdChunk_stops _ _).bind fun _ => stops_pure _

theorem minuteHttpdChunkEnd_stops : Stops Faults minuteHttpdChunkEnd :=
  stops_get.bind fun _ => stops_onlyIf (stops_modify _)

theorem minuteHttpdHeader_stops (header : HttpResponseHeader) (value : List Byte) :
    Stops Faults (minuteHttpdHeader header value) :=
  (stops_modify _).bind fun _ => (minuteHttpdOutput_stops _ _).bind fun _ =>
    (minuteHttpdOutput_stops _ _).bind fun _ => (minuteHttpdOutput_stops _ _).bind fun _ =>
      minuteHttpdOutput_stops _ _

theorem headCall_stops (c : HeadCall) : Stops Faults c.serve := by
  cases c with
  | string header value => exact minuteHttpdHeader_stops _ _
  | timestamp header epochtime => exact minuteHttpdHeader_stops _ _

theorem outCall_stops (c : OutCall) : Stops Faults c.serve := by
  refine (stops_modify _).bind fun _ => ?_
  cases c with
  | write buf => exact stops_get.bind fun _ => minuteHttpdOutput_stops _ _
  | flush => exact minuteHttpdFlush_stops

/-! ## The callbacks -/

section

variable {I : HttpdResponse → Prop}

theorem sustains_of_reading {α : Type} {m : Httpd α} (hI : OfReading I) (hs : Stops Faults m)
    (hl : Leaves HttpdResponse.reading m) : Sustains Faults I m := hs.sustains hl hI

variable (hI : OfReading I) (hread : ∀ count, Sustains Faults I (minuteHttpdInRead true count))

include hI

theorem headCall_sustains (c : HeadCall) : Sustains Faults I c.serve :=
  sustains_of_reading hI (headCall_stops c) (headCall_reading c)

theorem writeStatus_sustains (version : HttpVersion) (status : Int) : Sustains Faults I (writeStatus version status) :=
  sustains_of_reading hI (stops_modify _) (writeOutfd_reading _ _)

theorem serverHeaders_sustains (now : Nat) : Sustains Faults I (serverHeaders now) :=
  (headCall_sustains hI (.string _ _)).bind fun _ => headCall_sustains hI (.string _ _)

theorem connectionHeaders_sustains : Sustains Faults I connectionHeaders :=
  sustains_get.bind fun _ => (sustains_onlyIf (headCall_sustains hI (.string _ _))).bind fun _ =>
    (sustains_onlyIf (headCall_sustains hI (.string _ _))).bind fun _ =>
      sustains_onlyIf (headCall_sustains hI (.string _ _))

theorem endHeaders_sustains : Sustains Faults I endHeaders :=
  sustains_of_reading hI ((minuteHttpdChunk_stops _ _).bind fun _ => stops_pure _) endHeaders_reading

include hread

theorem payloadCall_sustains (c : PayloadCall) : Sustains Faults I c.serve := by
  cases c with
  | head call => exact headCall_sustains hI call
  | read count => exact hread count

theorem responseCall_sustains (c : ResponseCall) : Sustains Faults I c.serve := by
  cases c with
  | out call => exact sustains_of_reading hI (outCall_stops call) (outCall_reading call)
  | read count => exact hread count

variable {υ : Type} {app : MinuteHttpdApp υ} {user : υ} {P : Int → υ → Prop} {s : HttpdResponse} {status : Int}

theorem handleContinue_meets (version : HttpVersion) (hs : I s) (hP : P status user)
    (hpayload : ∀ rq text, (app.payload rq text user).Always fun x => P x.1.toInt x.2) :
    Meets Faults (fun x s' => P x.1 x.2 ∧ I s') (handleContinue app version status user) s := by
  unfold handleContinue
  split
  · rw [meets_bind, meets_get]
    refine (sustains_onlyIf (writeStatus_sustains hI version status) s hs).bind fun _ s₁ h₁ => ?_
    rw [meets_bind, meets_get]
    refine (Prog.run_meets (payloadCall_sustains hI hread) (hpayload _ _) h₁).bind fun x s₂ h₂ => ?_
    exact (meets_pure _).mpr h₂
  · exact (meets_pure _).mpr ⟨hP, hs⟩

theorem handleHead_meets (now : Nat) (hs : I s)
    (hheader : (app.header s.rq s.state.text user).Always fun x => P x.1.toInt x.2)
    (hpayload : ∀ rq text status u, P status u → (app.payload rq text u).Always fun x => P x.1.toInt x.2) :
    Meets Faults (fun x s' => P x.1 x.2 ∧ I s') (handleHead app now user) s := by
  rw [handleHead, meets_bind, meets_get, handleCallbacks, meets_bind]
  rw [meets_bind]
  refine ((serverHeaders_sustains hI now s hs).and (serverHeaders_reading now s)).imp fun _ s₁ h₁ => ?_
  obtain ⟨h₁, hreading⟩ := h₁
  simp only [HttpdResponse.reading, Prod.mk.injEq] at hreading
  obtain ⟨-, -, htext, hrq, -⟩ := hreading
  rw [meets_bind, meets_get, hrq, htext, meets_bind]
  refine (Prog.run_meets (headCall_sustains hI) hheader h₁).imp fun x s₂ h₂ => ?_
  refine (handleContinue_meets hI hread _ h₂.2 h₂.1 (fun rq text => hpayload rq text _ _ h₂.1)).imp fun y s₃ h₃ => ?_
  refine (writeStatus_sustains hI _ _ s₃ h₃.2).bind fun _ s₄ h₄ => ?_
  refine (connectionHeaders_sustains hI s₄ h₄).bind fun _ s₅ h₅ => ?_
  refine (endHeaders_sustains hI s₅ h₅).bind fun _ s₆ h₆ => ?_
  exact (meets_pure _).mpr ⟨h₃.1, h₆⟩

theorem handleBody_meets (hs : I s) (hP : P status user)
    (hresponse : ∀ rq text, (app.response rq text (BitVec.ofInt 32 status) user).Always fun x => P status x.2) :
    Meets Faults (fun u s' => P status u ∧ I s') (handleBody app status user) s := by
  rw [handleBody, meets_bind, meets_get]
  split
  · refine (Prog.run_meets (responseCall_sustains hI hread) (hresponse _ _) hs).bind fun x s₁ h₁ => ?_
    obtain ⟨response, user₁⟩ := x
    rw [meets_bind, meets_get]
    refine (sustains_onlyIf (sustains_of_reading hI (minuteHttpdStandardBody_stops _)
      (minuteHttpdStandardBody_reading _)) s₁ h₁.2).bind fun _ s₂ h₂ => ?_
    exact (meets_pure _).mpr ⟨h₁.1, h₂⟩
  · exact (meets_pure _).mpr ⟨hP, hs⟩

/-- **The response to a request**, with an application of which `P` is known: after `header` of the status and the
user data, and then as long as it is called. -/
theorem respond_meets (now : Nat)
    (hs : I { s with headFlags := startFlags s.rq, pending := startPending s.rq s.pending })
    (hheader : (app.header s.rq s.state.text user).Always fun x => P x.1.toInt x.2)
    (hpayload : ∀ rq text status u, P status u → (app.payload rq text u).Always fun x => P x.1.toInt x.2)
    (hresponse : ∀ rq text status u, P status u →
      (app.response rq text (BitVec.ofInt 32 status) u).Always fun x => P status x.2) :
    Meets Faults (fun u s' => (∃ status, P status u) ∧ I s') (respond app now user) s := by
  rw [respond, meets_bind, minuteHttpdStart, meets_modify]
  refine (handleHead_meets hI hread now hs hheader hpayload).bind fun p s₂ h₂ => ?_
  refine (handleBody_meets hI hread h₂.2 h₂.1 (fun rq text => hresponse rq text _ _ h₂.1)).bind fun u s₃ h₃ => ?_
  refine (sustains_of_reading hI minuteHttpdFlush_stops minuteHttpdFlush_reading s₃ h₃.2).bind fun _ s₄ h₄ => ?_
  refine (sustains_of_reading hI minuteHttpdChunkEnd_stops minuteHttpdChunkEnd_reading s₄ h₄).bind fun _ s₅ h₅ => ?_
  exact (meets_pure _).mpr ⟨⟨_, h₃.1⟩, h₅⟩

end

end MinuteHttp
