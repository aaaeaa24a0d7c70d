import MinuteHttp.Libhttp.Release
import MinuteHttp.Libhttpd.Closing
import MinuteHttp.Libhttpd.Descriptors

/-!
# Where the input stands

`unread` is what the ring holds and what is still to come, and `Consumed s n s'` says that between `s` and
`s'` exactly its first `n` bytes have been read. A refill reads nothing (`readfd_consumed`), and reading the
head of a request some bytes (`handleRequest_consumed`), unless the end of the file ends the head: then
`read` is one past the stream.
-/

namespace MinuteHttp

open Effect

/-- A connection as its rings are set up and used: the ring is sound, and a noted end of file is one. -/
structure HttpdState.Sound (st : HttpdState) : Prop where
  input : st.input.Valid
  eof : st.input.eof = true → st.infd.stream = []
  steady : st.infd.Steady

def HttpdState.unread (st : HttpdState) : List Byte := st.input.contents ++ st.infd.stream

structure Consumed (st : HttpdState) (n : Nat) (st' : HttpdState) : Prop where
  sound : st'.Sound
  mask : st'.input.mask = st.input.mask
  read : st'.input.read = st.input.read + BitVec.ofNat 32 n
  unread : st'.unread = st.unread.drop n
  le : n ≤ st.unread.length

namespace Consumed

variable {st st' st'' : HttpdState} {m n : Nat}

theorem refl (h : st.Sound) : Consumed st 0 st := by
  refine ⟨h, rfl, ?_, rfl, Nat.zero_le _⟩
  rw [BitVec.add_zero]

theorem trans (h : Consumed st m st') (h' : Consumed st' n st'') : Consumed st (m + n) st'' := by
  have hle := h'.le
  have hle' := h.le
  rw [h.unread, List.length_drop] at hle
  refine ⟨h'.sound, h'.mask.trans h.mask, ?_, ?_, by omega⟩
  · rw [h'.read, h.read, BitVec.ofNat_add, BitVec.add_assoc]
  · rw [h'.unread, h.unread, List.drop_drop]

theorem length_unread (h : Consumed st n st') : st'.unread.length = st.unread.length - n := by
  rw [h.unread, List.length_drop]

end Consumed

theorem HttpdState.length_unread (st : HttpdState) :
    st.unread.length = st.input.used + st.infd.stream.length := by
  unfold HttpdState.unread
  rw [List.length_append, Iobuf.length_contents]

theorem consumed_take {st st' : HttpdState} {l : Nat} (h : st.Sound) (hl : l ≤ st.input.used)
    (hin : st'.input = st.input.take l) (hfd : st'.infd = st.infd) : Consumed st l st' := by
  refine ⟨⟨?_, ?_, ?_⟩, ?_, ?_, ?_, ?_⟩
  · rw [hin]
    exact Iobuf.valid_take h.input hl
  · rw [hin, hfd]
    exact h.eof
  · rw [hfd]
    exact h.steady
  · rw [hin]
    rfl
  · rw [hin]
    rfl
  · unfold HttpdState.unread
    rw [hin, hfd, Iobuf.contents_take h.input.size hl, List.drop_append_of_le_length]
    rw [Iobuf.length_contents]
    exact hl
  · rw [HttpdState.length_unread]
    omega

/-- What a refill leaves of the state. -/
def HttpdState.refilled (st : HttpdState) (x : Int × Infd × Iobuf) : HttpdState :=
  { st with infd := x.2.1, input := x.2.2 }

/-- **A refill reads nothing**, and finds the end of the file only behind the last byte. -/
theorem refilled_consumed {st : HttpdState} (h : st.Sound) {x : Int × Infd × Iobuf}
    (hx : Refilled st.infd st.input x) :
    Consumed st 0 (st.refilled x) ∧ st.input.used ≤ x.2.2.used ∧ (x.1 = 0 → st.infd.stream = []) := by
  cases hx with
  | full hu =>
    refine ⟨.refl h, Nat.le_refl _, fun h0 => ?_⟩
    exact absurd (show (-1 : Int) = 0 from h0) (by decide)
  | error hc =>
    exfalso
    have hsteady := h.steady
    unfold Infd.Steady at hsteady
    rw [hc] at hsteady
    exact hsteady List.mem_cons_self
  | eof hs hc =>
    refine ⟨⟨⟨⟨h.input.size, h.input.used_le⟩, fun _ => rfl, hc.steady h.steady⟩, rfl, ?_, ?_, Nat.zero_le _⟩,
      Nat.le_refl _, fun _ => hs⟩
    · exact (BitVec.add_zero _).symm
    · show st.input.contents ++ [] = st.input.contents ++ st.infd.stream
      rw [hs]
  | @more bs rest cuts hbs hs hfit hc =>
    refine ⟨⟨⟨Iobuf.valid_append h.input.size hfit, fun he => ?_, hc.steady h.steady⟩, rfl, ?_, ?_,
      Nat.zero_le _⟩, ?_, fun h0 => ?_⟩
    · have hstream := h.eof he
      rw [hs] at hstream
      exact (List.append_eq_nil_iff.mp hstream).2
    · exact (BitVec.add_zero _).symm
    · show (st.input.append bs).contents ++ rest = st.input.contents ++ st.infd.stream
      rw [Iobuf.contents_append h.input.size hfit, hs, List.append_assoc]
    · dsimp only
      rw [Iobuf.used_append h.input.size hfit]
      exact Nat.le_add_right _ _
    · have hlen := List.length_pos_iff.mpr hbs
      simp at h0
      exact absurd h0 hbs

theorem readfd_consumed {s : HttpdResponse} (h : s.state.Sound) :
    Meets (fun _ => True) (fun r s' => Consumed s.state 0 s'.state ∧
      s.state.input.used ≤ s'.state.input.used ∧ (r = 0 → s.state.infd.stream = []) ∧
      s' = { s with state := s'.state }) readfd s := by
  obtain ⟨h₁, h₂, h₃⟩ := refilled_consumed h (minuteIobufReadfd_refilled s.state.infd h.input)
  simp only [readfd, meets_bind, meets_get, meets_set, meets_pure]
  exact ⟨h₁, h₂, h₃, trivial⟩

/-! ## The head of a request -/

/-- Reading has come to the index `n` bytes on. Where that is past the stream, the end of the file has
ended the head. -/
def Reached (st : HttpdState) (n : Nat) (st' : HttpdState) : Prop :=
  st'.input.read = st.input.read + BitVec.ofNat 32 n ∧ (Consumed st n st' ∨ n = st.unread.length + 1)

theorem httpRead_consumed {s : HttpdResponse} (h : s.state.Sound) {rqs : MinuteHttpRqs}
    (hm : s.state.input.Within rqs.m) :
    Meets (fun _ => True) (fun x s' =>
      (∃ n, Consumed s.state n s'.state ∧ s'.state.input.Within x.2.m) ∨
      x.1 = 0 ∧ Reached s.state (s.state.unread.length + 1) s'.state)
      (httpRead rqs) s := by
  simp only [httpRead, meets_bind, meets_get]
  cases hr : minuteHttpRead s.rq rqs s.state.input s.state.text with
  | fault => exact (meets_throw _).mpr trivial
  | spin => exact (meets_throw _).mpr trivial
  | code n rq rqs' io text =>
    rw [meets_set_pure]
    obtain ⟨l, hio, ⟨hl, hw⟩ | ⟨rfl, heof, hl⟩⟩ := minuteHttpRead_released hm hr
    · exact .inl ⟨l, consumed_take h hl hio rfl, hw⟩
    · right
      have hlen : s.state.unread.length + 1 = l := by
        rw [HttpdState.length_unread, h.eof heof, hl]
        rfl
      exact ⟨rfl, by rw [hlen, hio]; rfl, .inr rfl⟩

theorem Consumed.reached {st st' : HttpdState} {n : Nat} (h : Consumed st n st') : Reached st n st' :=
  ⟨h.read, .inl h⟩

theorem Consumed.trans_reached {st st' st'' : HttpdState} {m n : Nat} (h : Consumed st m st')
    (h' : Reached st' n st'') : Reached st (m + n) st'' := by
  obtain ⟨hread, hc | hn⟩ := h'
  · exact (h.trans hc).reached
  · refine ⟨?_, .inr ?_⟩
    · rw [hread, h.read, BitVec.ofNat_add, BitVec.add_assoc]
    · have := h.le
      rw [hn, h.length_unread]
      omega

theorem refillUnless_consumed {s : HttpdResponse} (h : s.state.Sound) (prefilled : Bool) :
    Meets (fun _ => True) (fun _ s' => Consumed s.state 0 s'.state ∧
      s.state.input.used ≤ s'.state.input.used) (refillUnless prefilled) s := by
  unfold refillUnless
  split
  · exact (meets_pure _).mpr ⟨.refl h, Nat.le_refl _⟩
  · refine (readfd_consumed h).bind fun r s' hs' => ?_
    obtain ⟨hc, hused, -⟩ := hs'
    rw [meets_bind, meets_get]
    split
    · exact (meets_pure _).mpr ⟨hc, hused⟩
    · split
      · exact (meets_pure _).mpr ⟨hc, hused⟩
      · exact (meets_pure _).mpr ⟨hc, hused⟩

theorem Consumed.within {st st' : HttpdState} (h : Consumed st 0 st') (hu : st.input.used ≤ st'.input.used)
    {m : Uint} (hm : st.input.Within m) : st'.input.Within m := by
  unfold Iobuf.Within at *
  rw [h.read, BitVec.add_zero]
  exact Nat.le_trans hm hu

/-- The loop on the parser. What a refill appends, the parser has not seen, so the index it has come to
stays within the bytes held. -/
theorem readRequestLoop_reached (turns : Nat) (prefilled : Bool) {rqs : MinuteHttpRqs} {s : HttpdResponse}
    (h : s.state.Sound) (hm : s.state.input.Within rqs.m) :
    Meets (fun _ => True) (fun _ s' => ∃ n, Reached s.state n s'.state)
      (readRequestLoop turns prefilled rqs) s := by
  induction turns generalizing prefilled rqs s with
  | zero => exact (meets_throw _).mpr trivial
  | succ turns ih =>
    refine (refillUnless_consumed h prefilled).bind fun ended s₁ h₁ => ?_
    obtain ⟨hc, hused⟩ := h₁
    cases ended with
    | some status => exact (meets_pure _).mpr ⟨0, hc.reached⟩
    | none =>
      refine (httpRead_consumed hc.sound (hc.within hused hm)).bind fun x s₂ h₂ => ?_
      obtain ⟨status, rqs'⟩ := x
      dsimp only
      obtain ⟨n, hn, hw⟩ | ⟨hzero, hr⟩ := h₂
      · have hn' := hc.trans hn
        split
        · refine (ih false hn.sound hw).imp fun _ s₃ h₃ => ?_
          obtain ⟨l, hl⟩ := h₃
          exact ⟨_, hn'.trans_reached hl⟩
        · exact (meets_pure _).mpr ⟨_, hn'.reached⟩
      · rw [if_neg (by rw [show status = 0 from hzero]; decide)]
        exact (meets_pure _).mpr ⟨_, hc.trans_reached hr⟩

theorem minuteHttpdReadRequest_reached {rqs : MinuteHttpRqs} {s : HttpdResponse} (h : s.state.Sound)
    (hm : s.state.input.Within rqs.m) :
    Meets (fun _ => True) (fun _ s' => ∃ n, Reached s.state n s'.state) (minuteHttpdReadRequest rqs) s := by
  rw [minuteHttpdReadRequest, meets_bind, meets_get]
  exact readRequestLoop_reached _ _ h hm

theorem handleRequest_reached {state : HttpdState} (h : state.Sound) :
    Meets (fun _ => True) (fun _ s' => ∃ n, Reached state n s'.state) handleRequest (.init state) := by
  simp only [handleRequest, meets_bind, meets_modify, meets_get, meets_set]
  refine (minuteHttpdReadRequest_reached ⟨h.input, h.eof, h.steady⟩ ?_).imp fun _ s' hs' => ?_
  · exact Iobuf.within_read _
  · obtain ⟨n, hread, hc | hn⟩ := hs'
    · exact ⟨n, hread, .inl ⟨hc.sound, hc.mask, hread, hc.unread, hc.le⟩⟩
    · exact ⟨n, hread, .inr hn⟩

end MinuteHttp
