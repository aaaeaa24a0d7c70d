import MinuteHttp.Libhttp.Contents

/-!
# What a call of the parser releases

`b` marks how much of the ring the parser no longer needs. It is only ever set to the cursor, so a call
moves `io->read` forward inside the bytes that the ring holds (`minuteHttpRead_released`); but where the
end of the file ends the head, the cursor has been moved past `io->write` by one.
-/

namespace MinuteHttp

open Feed

section

variable (k : Frame) (x : HttpRequestState) (n : Nat)

@[simp] theorem shift_b : (k.shift x).b = k.b := rfl
@[simp] theorem mark_b : (k.mark).b = k.s.m := rfl
@[simp] theorem setNl_b : (k.setNl n).b = k.b := rfl
@[simp] theorem setEst_b : (k.setEst x).b = k.b := rfl
@[simp] theorem clearTrie_b : (k.clearTrie).b = k.b := rfl
@[simp] theorem advance_b : (k.advance).b = k.b := rfl

end

/-- `b` is where it was, or at the cursor. -/
def Marks (k k' : Frame) : Prop := k'.b = k.b ∨ k'.b = k.s.m

theorem marks_unless {k k' : Frame} (hb : k'.b = k.b) (hm : k'.s.m = k.s.m) :
    Marks k (markUnlessUnknown k') := by
  unfold markUnlessUnknown Marks
  split
  · exact .inr hm
  · exact .inl hb

theorem hHeaderMatched_marks {k k₁ : Frame} (r : Nat) (hb : k₁.b = k.b) (hm : k₁.s.m = k.s.m) :
    Pass.All (fun k' _ => Marks k k') (Marks k) (fun _ _ => True) True (hHeaderMatched r k₁) := by
  unfold hHeaderMatched
  split
  · exact marks_unless hb hm
  · split
    · exact marks_unless hb hm
    · split
      · exact marks_unless hb hm
      · split
        · exact marks_unless hb hm
        · split
          · rw [all_putiOr]
            refine ⟨fun _ => trivial, fun t _ => (all_putiOr _ _ _ _).mpr ⟨fun _ => trivial, fun t' _ => ?_⟩⟩
            exact marks_unless hb hm
          · exact marks_unless hb hm

theorem hHeaderCase_marks (k : Frame) (c : Int) :
    Pass.All (fun k' _ => Marks k k') (Marks k) (fun _ _ => True) True (hHeaderCase k c) := by
  unfold hHeaderCase
  refine (all_onWalk _ _ _).mpr ⟨fun _ => trivial, fun r t _ => ?_⟩
  split
  · exact .inl rfl
  · split
    · exact hHeaderMatched_marks r.toNat rfl rfl
    · exact marks_unless rfl rfl

theorem switch_marks (k : Frame) (c : Int) :
    Pass.All (fun k' _ => Marks k k') (Marks k) (fun _ _ => True) True (switch k c) := by
  cases hst : k.s.st <;> simp only [switch, hst]
  case hHeader => exact hHeaderCase_marks k c
  all_goals
    dsimp only [hInitialCase, hMethodCase, hMethodSpCase, hPathCase, hEscaped1Case, hEscaped2Case,
      hQueryCase, hPathSpCase, hProtCase, hProtSlashCase, hProtHttpXCase, hProtHttpXDotCase,
      hProtHttpXXCase, hCrCase, hNlCase, hHeadConnectionCase, hHeadExpectCase,
      hHeadTransferEncodingCase, hHeadFlagInitial, hHeadContentLengthCase, hHeadFlagCase, hContCase,
      hValueLeadCase, hValueCase, hSkiplineCase, hErrorCase]
    simp [Marks]

theorem iterate_marks {k k' : Frame} {c : Int} (h : iterate k c = .next k') : Marks k k' := by
  have hi := iterate_inv (N := fun k' _ => Marks k k' ∧ k'.s.m = k.s.m)
    (B := fun k' => Marks k k' ∧ k'.s.m = k.s.m) (R := fun _ _ => True) (F := True)
    (fun k₁ c₁ h₁ => ?_) (c := c) (⟨.inl rfl, rfl⟩ : Marks k k ∧ k.s.m = k.s.m)
  · rw [h] at hi
    obtain ⟨k₁, ⟨hk₁, -⟩, -, rfl⟩ := hi
    exact hk₁
  · have hstep : ∀ k₂, Marks k₁ k₂ ∧ k₂.s.m = k₁.s.m ∧ k₂.s.hmask = k₁.s.hmask →
        Marks k k₂ ∧ k₂.s.m = k.s.m := by
      rintro k₂ ⟨hm, hm', -⟩
      refine ⟨?_, hm'.trans h₁.2⟩
      obtain hb | hb := hm
      · exact h₁.1.imp hb.trans hb.trans
      · exact .inr (hb.trans h₁.2)
    exact ((switch_marks k₁ c₁).and (switch_frame k₁ c₁)).imp (fun k₂ _ => hstep k₂) hstep
      (fun _ _ _ => trivial) fun _ => trivial

theorem feed_marks {k k' : Frame} {cs : List Int} (h : feed iterate k cs = .next k') :
    k'.b = k.b ∨ ∃ j < cs.length, k'.b = k.s.m + BitVec.ofNat 32 j := by
  refine feed_inv_of (fun p k' => k'.b = k.b ∨ ∃ j < p.length, k'.b = k.s.m + BitVec.ofNat 32 j)
    (.inl rfl) (fun p c q k₁ k₂ _ hp h₁ hs => ?_) h
  obtain hb | hb := iterate_marks hs
  · rw [hb]
    refine h₁.imp id fun ⟨j, hj, hb⟩ => ⟨j, ?_, hb⟩
    rw [List.length_append]
    omega
  · rw [hb, (feed_m hp).1]
    exact .inr ⟨p.length, by simp, rfl⟩

/-! ## Calls -/

/-- The index `m` is one of the bytes the ring holds, or just behind them. -/
def Iobuf.Within (io : Iobuf) (m : Uint) : Prop := (m - io.read).toNat ≤ io.used

theorem Iobuf.within_read (io : Iobuf) : io.Within io.read := by
  unfold Iobuf.Within
  simp

theorem Iobuf.within_write (io : Iobuf) : io.Within io.write := Nat.le_refl _

theorem add_ofNat_sub (m w : Uint) : m + BitVec.ofNat 32 (w - m).toNat = w := by
  rw [BitVec.ofNat_toNat, BitVec.setWidth_eq, BitVec.add_comm, BitVec.sub_add_cancel]

theorem Iobuf.length_readable {io : Iobuf} {m : Uint} (hm : io.Within m) :
    (io.readable m).length = io.used - (m - io.read).toNat + if io.eof then 1 else 0 := by
  have hw : (io.write - m).toNat = io.used - (m - io.read).toNat := by
    have hu := @Iobuf.used_take io _ hm
    have hread : (io.take (m - io.read).toNat).read = m := add_ofNat_sub io.read m
    rw [← hu, Iobuf.used, minuteIobufUsed, hread]
    rfl
  unfold Iobuf.readable chars Iobuf.from
  rw [List.length_append, List.length_map, Iobuf.length_window, hw]
  split <;> rfl

/-- What a call that returns `n` leaves of the ring. -/
def Released (io io' : Iobuf) (m : Uint) (n : Nat) : Prop :=
  ∃ l, io' = io.take l ∧ (l ≤ io.used ∧ io'.Within m ∨ n = 0 ∧ io.eof = true ∧ l = io.used + 1)

theorem released_self {io : Iobuf} {m : Uint} (hm : io.Within m) (n : Nat) : Released io io m n := by
  refine ⟨0, ?_, .inl ⟨Nat.zero_le _, hm⟩⟩
  unfold Iobuf.take
  rw [BitVec.add_zero]

/-- Where a call stops for more, it has released bytes up to a place where the cursor has been. -/
theorem released_suspend {io : Iobuf} {k k' : Frame} (hb₀ : k.b = io.read) (hm : io.Within k.s.m)
    (hf : feed iterate k (io.readable k.s.m) = .next k') (n : Nat) :
    Released io { io with read := k'.b } k'.s.m n := by
  have heof : io.eof = false := by
    by_contra he
    rw [Bool.not_eq_false] at he
    unfold Iobuf.readable at hf
    rw [if_pos he] at hf
    obtain ⟨k₁, -, hlast⟩ := feed_snoc_next hf
    exact iterate_eof _ _ hlast
  have hlen := Iobuf.length_readable hm
  rw [heof] at hlen
  simp only [Bool.false_eq_true, if_false, Nat.add_zero] at hlen
  have hpos := add_ofNat_sub io.read k.s.m
  have hend : k'.s.m = io.write := by
    rw [(feed_m hf).1, hlen]
    have hread : (io.take (k.s.m - io.read).toNat).read = k.s.m := hpos
    have hu := @Iobuf.used_take io _ hm
    rw [← hu, Iobuf.used, minuteIobufUsed, hread]
    exact add_ofNat_sub _ _
  obtain ⟨l, hl, hb⟩ : ∃ l ≤ io.used, k'.b = io.read + BitVec.ofNat 32 l := by
    obtain hb | ⟨j, hj, hb⟩ := feed_marks hf
    · refine ⟨0, Nat.zero_le _, ?_⟩
      rw [hb, hb₀, BitVec.add_zero]
    · refine ⟨(k.s.m - io.read).toNat + j, by omega, ?_⟩
      rw [hb, BitVec.ofNat_add, ← BitVec.add_assoc, hpos]
  refine ⟨l, by rw [hb]; rfl, .inl ⟨hl, ?_⟩⟩
  rw [hend]
  exact Iobuf.within_write _

/-- Where a call ends the head, it has released all up to the character that ended it. -/
theorem released_ok {io : Iobuf} {k k' : Frame} {rest : List Int} (hm : io.Within k.s.m)
    (hf : feed iterate k (io.readable k.s.m) = .halt (.ok k', rest)) :
    Released io { io with read := k'.s.m } k'.s.m 0 := by
  obtain ⟨p, c, k₁, hp, hfeed, hc⟩ := feed_halt hf
  have hlen := congrArg List.length hp
  rw [Iobuf.length_readable hm, List.length_append, List.length_cons] at hlen
  have hpos := add_ofNat_sub io.read k.s.m
  have hend : k'.s.m = io.read + BitVec.ofNat 32 ((k.s.m - io.read).toNat + (p.length + 1)) := by
    rw [iterate_ok_m hc, (feed_m hfeed).1, BitVec.ofNat_add, ← BitVec.add_assoc, hpos, BitVec.ofNat_add,
      ← BitVec.add_assoc]
    rfl
  refine ⟨(k.s.m - io.read).toNat + (p.length + 1), by rw [hend]; rfl, ?_⟩
  by_cases hle : (k.s.m - io.read).toNat + (p.length + 1) ≤ io.used
  · exact .inl ⟨hle, Iobuf.within_read { io with read := k'.s.m }⟩
  · right
    unfold Iobuf.Within at hm
    split at hlen
    · exact ⟨rfl, by assumption, by omega⟩
    · omega

/-- **A call moves `read` within the bytes held**, and leaves the cursor there; but at the end of the
file it can move `read` to one past them. -/
theorem minuteHttpRead_released {rq rq' : MinuteHttpRq} {rqs rqs' : MinuteHttpRqs} {io io' : Iobuf}
    {text text' : Textint} {n : Nat} (hm : io.Within rqs.m)
    (h : minuteHttpRead rq rqs io text = .code n rq' rqs' io' text') : Released io io' rqs'.m n := by
  rw [minuteHttpRead_readable] at h
  cases hf : feed iterate (startFrame rq rqs io text) (io.readable rqs.m) with
  | next k =>
    rw [hf] at h
    simp only [outcome, suspend, ReadResult.code.injEq] at h
    obtain ⟨-, -, rfl, rfl, -⟩ := h
    exact released_suspend rfl hm hf _
  | halt r =>
    obtain ⟨r, rest⟩ := r
    rw [hf] at h
    cases r with
    | fault => simp [outcome, finish] at h
    | spin => simp [outcome, finish] at h
    | ret n k =>
      simp only [outcome, finish, ReadResult.code.injEq] at h
      obtain ⟨-, -, rfl, rfl, -⟩ := h
      exact released_self hm _
    | ok k =>
      simp only [outcome, finish, ReadResult.code.injEq] at h
      obtain ⟨rfl, -, rfl, rfl, -⟩ := h
      exact released_ok hm hf

end MinuteHttp
