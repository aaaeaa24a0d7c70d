import MinuteHttp.Libhttp.Release
import MinuteHttp.Libhttp.Resume
import Mathlib.Data.List.Nodup

/-!
# How far a call of the parser goes

`readTraced` is the loop of `minute_http_read` with a record of what its turns look at. A call looks at
the bytes from the cursor on, each once and in order, and at the end of the file at most once, after
them (`read_examines_once`); what keeps it from going round for ever is that every chain of `reset`s
ends (`Routed`) and that no state goes on after `H_EOF`. `read_forward_iff` says when `io->read` stays
inside the ring: always, but where `H_EOF` itself ends the head and is counted as a byte.
-/

namespace MinuteHttp

open HttpRequestState Feed

/-! ## What a call looks at -/

/-- What a turn of the loop takes for its character. -/
inductive Fetch where
  | byte (i : Uint)
  | eof
  deriving DecidableEq

/-- `readLoop`, with the fetches of its turns. -/
def readLoopTraced (io : Iobuf) (rqs : MinuteHttpRqs) : Nat → Frame → List Fetch × ReadResult
  | 0, _ => ([], .spin)
  | fuel + 1, k =>
    let turn (x : Fetch) (c : Int) : List Fetch × ReadResult :=
      match iterate k c with
      | .next k' =>
        let run := readLoopTraced io rqs fuel k'
        (x :: run.1, run.2)
      | .halt h => ([x], finish io rqs h)
    if k.s.m = io.write then if io.eof then turn .eof hEof else ([], suspend io k)
    else turn (.byte k.s.m) (io.at k.s.m).toInt

/-- `minuteHttpRead`, with the fetches of its turns. -/
def readTraced (rq : MinuteHttpRq) (rqs : MinuteHttpRqs) (io : Iobuf) (text : Textint) :
    List Fetch × ReadResult :=
  readLoopTraced io rqs ((io.write - rqs.m).toNat + 1) (startFrame rq rqs io text)

theorem readLoopTraced_snd (io : Iobuf) (rqs : MinuteHttpRqs) (fuel : Nat) (k : Frame) :
    (readLoopTraced io rqs fuel k).2 = readLoop io rqs fuel k := by
  induction fuel generalizing k with
  | zero => rfl
  | succ fuel ih =>
    have hturn : ∀ x c,
        (match iterate k c with
          | .next k' => (x :: (readLoopTraced io rqs fuel k').1, (readLoopTraced io rqs fuel k').2)
          | .halt h => ([x], finish io rqs h) : List Fetch × ReadResult).2 =
        match iterate k c with
          | .next k' => readLoop io rqs fuel k'
          | .halt h => finish io rqs h := by
      intro x c
      cases iterate k c with
      | next k' => exact ih k'
      | halt h => rfl
    rw [readLoopTraced, readLoop]
    by_cases hm : k.s.m = io.write
    · rw [if_pos hm, if_pos hm]
      by_cases he : io.eof = true
      · rw [if_pos he, if_pos he]
        exact hturn .eof hEof
      · rw [if_neg he, if_neg he]
    · rw [if_neg hm, if_neg hm]
      exact hturn _ _

/-- The indices from `m` on, as many as `n`. -/
def indicesFrom (m : Uint) : Nat → List Uint
  | 0 => []
  | n + 1 => m :: indicesFrom (m + 1) n

/-- All there is to look at from the cursor `m` on: the bytes in order, then the end of the file. -/
def Iobuf.fetches (io : Iobuf) (m : Uint) : List Fetch :=
  (indicesFrom m (io.write - m).toNat).map Fetch.byte ++ if io.eof then [.eof] else []

theorem mem_indicesFrom {m i : Uint} {n : Nat} (hn : n ≤ 2 ^ 32) :
    i ∈ indicesFrom m n ↔ (i - m).toNat < n := by
  induction n generalizing m with
  | zero => simp [indicesFrom]
  | succ n ih =>
    rw [indicesFrom, List.mem_cons, ih (by omega)]
    constructor
    · rintro (rfl | h)
      · simp
      · have := (i - (m + 1)).isLt
        bv_omega
    · intro h
      by_cases hi : i = m
      · exact .inl hi
      · right
        bv_omega

theorem nodup_indicesFrom {m : Uint} {n : Nat} (hn : n ≤ 2 ^ 32) : (indicesFrom m n).Nodup := by
  induction n generalizing m with
  | zero => exact List.nodup_nil
  | succ n ih =>
    rw [indicesFrom, List.nodup_cons]
    refine ⟨fun hmem => ?_, ih (by omega)⟩
    have := (mem_indicesFrom (by omega)).mp hmem
    bv_omega

theorem Iobuf.mem_fetches {io : Iobuf} {m i : Uint} (h : Fetch.byte i ∈ io.fetches m) :
    (i - m).toNat < (io.write - m).toNat := by
  unfold Iobuf.fetches at h
  have hmem : i ∈ indicesFrom m (io.write - m).toNat := by
    split at h <;> simpa using h
  exact (mem_indicesFrom (Nat.le_of_lt (io.write - m).isLt)).mp hmem

theorem Iobuf.nodup_fetches (io : Iobuf) (m : Uint) : (io.fetches m).Nodup := by
  have hbytes : ((indicesFrom m (io.write - m).toNat).map Fetch.byte).Nodup := by
    apply List.Nodup.map
    · intro i j h
      exact Fetch.byte.inj h
    · exact nodup_indicesFrom (Nat.le_of_lt (io.write - m).isLt)
  unfold Iobuf.fetches
  split
  · apply List.Nodup.append hbytes (List.nodup_singleton _)
    intro x hx hx'
    rw [List.mem_singleton] at hx'
    rw [hx'] at hx
    simp at hx
  · rw [List.append_nil]
    exact hbytes

/-- **The loop looks at a first part of what there is**, and takes no more turns than that. -/
theorem readLoopTraced_fetches (io : Iobuf) (rqs : MinuteHttpRqs) (k : Frame) :
    (readLoopTraced io rqs ((io.write - k.s.m).toNat + 1) k).1 <+: io.fetches k.s.m := by
  unfold Iobuf.fetches
  generalize hn : (io.write - k.s.m).toNat = n
  induction n generalizing k with
  | zero =>
    have hm : k.s.m = io.write := by bv_omega
    rw [readLoopTraced, if_pos hm]
    by_cases he : io.eof = true
    · rw [if_pos he, if_pos he]
      dsimp only
      cases hi : iterate k hEof with
      | next k' => exact absurd hi (iterate_eof k k')
      | halt h => exact List.prefix_refl _
    · rw [if_neg he]
      exact List.nil_prefix
  | succ n ih =>
    have hm : k.s.m ≠ io.write := by
      intro hm
      rw [hm] at hn
      simp at hn
    rw [readLoopTraced, if_neg hm, indicesFrom, List.map_cons, List.cons_append]
    dsimp only
    cases hi : iterate k (io.at k.s.m).toInt with
    | halt h => exact List.cons_prefix_cons.mpr ⟨rfl, List.nil_prefix⟩
    | next k' =>
      have hm' := (iterate_next_m hi).1
      have hn' : (io.write - k'.s.m).toNat = n := by
        rw [hm']
        bv_omega
      have := ih k' hn'
      rw [hm'] at this
      exact List.cons_prefix_cons.mpr ⟨rfl, this⟩

/-! ## The states between two calls -/

/-- The parser states that calls which returned `EAGAIN` lead to. What is in the ring at each call, and
its flags, are up to the caller. -/
inductive Suspended (hmask : Uint) : MinuteHttpRq → MinuteHttpRqs → Textint → Prop
  | init (rq : MinuteHttpRq) (io : Iobuf) (text : Textint) :
    Suspended hmask rq (minuteHttpInit hmask io text).1 (minuteHttpInit hmask io text).2
  | trailers (rq : MinuteHttpRq) (io : Iobuf) (text : Textint) :
    Suspended hmask rq (minuteHttpInitTrailers hmask io) text
  | again {rq rq' : MinuteHttpRq} {rqs rqs' : MinuteHttpRqs} {io io' : Iobuf} {text text' : Textint}
    (h : Suspended hmask rq rqs text)
    (hread : minuteHttpRead rq rqs io text = .code eagain rq' rqs' io' text') :
    Suspended hmask rq' rqs' text'

theorem Suspended.routed {hmask : Uint} {rq : MinuteHttpRq} {rqs : MinuteHttpRqs} {text : Textint}
    (h : Suspended hmask rq rqs text) : rqs.Routed := by
  induction h with
  | init rq io text => rfl
  | trailers rq io text => rfl
  | again h hread ih => exact minuteHttpRead_routed ih hread

theorem read_eof_ne_eagain {rq rq' : MinuteHttpRq} {rqs rqs' : MinuteHttpRqs} {io io' : Iobuf}
    {text text' : Textint} {n : Nat} (hk : rqs.Routed) (he : io.eof = true)
    (hread : minuteHttpRead rq rqs io text = .code n rq' rqs' io' text') : n ≠ eagain := by
  rw [minuteHttpRead_readable] at hread
  cases hf : feed iterate (startFrame rq rqs io text) (io.readable rqs.m) with
  | next k =>
    rw [Iobuf.readable, if_pos he] at hf
    obtain ⟨k₁, -, hlast⟩ := feed_snoc_next hf
    exact absurd hlast (iterate_eof k₁ k)
  | halt r =>
    obtain ⟨r, rest⟩ := r
    rw [hf] at hread
    cases r with
    | fault => cases hread
    | spin => cases hread
    | ok k =>
      cases hread
      decide
    | ret n k =>
      cases hread
      obtain ⟨p, c, k₁, -, hp, hc⟩ := feed_halt hf
      exact ((iterate_flagInside (feed_routed (startFrame_routed hk rq io text) hp)).2 _ _ hc).2

/-- **A call comes to an end**, having looked at the bytes from the cursor to `io->write` in order, each
at most once and none beyond them, and at the end of the file at most once; where that is flagged it
does not return `EAGAIN`. -/
theorem read_examines_once {hmask : Uint} {rq : MinuteHttpRq} {rqs : MinuteHttpRqs} {text : Textint}
    (h : Suspended hmask rq rqs text) (io : Iobuf) :
    let run := readTraced rq rqs io text
    run.2 = minuteHttpRead rq rqs io text ∧ run.2 ≠ .spin ∧
      run.1 <+: (indicesFrom rqs.m (io.write - rqs.m).toNat).map Fetch.byte ++
        (if io.eof then [.eof] else []) ∧
      run.1.Nodup ∧ (∀ i, .byte i ∈ run.1 → (i - rqs.m).toNat < (io.write - rqs.m).toNat) ∧
      (io.eof = true → ∀ n rq' rqs' io' text', run.2 = .code n rq' rqs' io' text' → n ≠ eagain) := by
  intro run
  have hrun : run.2 = minuteHttpRead rq rqs io text :=
    readLoopTraced_snd io rqs _ (startFrame rq rqs io text)
  have hpre : run.1 <+: io.fetches rqs.m := readLoopTraced_fetches io rqs (startFrame rq rqs io text)
  refine ⟨hrun, ?_, hpre, ?_, ?_, ?_⟩
  · rw [hrun]
    exact minuteHttpRead_ne_spin (startFrame_routed h.routed rq io text)
  · exact (io.nodup_fetches rqs.m).sublist hpre.sublist
  · intro i hi
    exact Iobuf.mem_fetches (hpre.subset hi)
  · intro he n rq' rqs' io' text' hcode
    exact read_eof_ne_eagain h.routed he (hrun ▸ hcode)

/-- The trailers of a body, cut off inside a name by the end of the file. -/
theorem read_examines_once_trailers :
    let io : Iobuf := { Iobuf.holding 4096 (bytes "Ho") with flags := iobufEof }
    let run := readTraced .zero (minuteHttpInitTrailers minuteAllHeaders io) io
      (minuteTextintInit 64 fun _ => 0)
    run.2 ≠ .spin ∧ run.1.Nodup := by
  intro io run
  have h := read_examines_once
    (.trailers .zero io (minuteTextintInit 64 fun _ => 0) : Suspended minuteAllHeaders _ _ _) io
  exact ⟨h.2.1, h.2.2.2.1⟩

/-! ## Where a call leaves `io->read` -/

/-- The parser states, with their ring, that calls lead to; between two calls the producer moves the
write index on, so that the cursor stays among the bytes held. -/
inductive CallReached (hmask : Uint) : MinuteHttpRq → MinuteHttpRqs → Iobuf → Textint → Prop
  | init (rq : MinuteHttpRq) (io : Iobuf) (text : Textint) :
    CallReached hmask rq (minuteHttpInit hmask io text).1 io (minuteHttpInit hmask io text).2
  | trailers (rq : MinuteHttpRq) (io : Iobuf) (text : Textint) :
    CallReached hmask rq (minuteHttpInitTrailers hmask io) io text
  | call {rq rq' : MinuteHttpRq} {rqs rqs' : MinuteHttpRqs} {io io' : Iobuf} {text text' : Textint}
    {n : Nat} (f : Refill) (h : CallReached hmask rq rqs io text)
    (hread : minuteHttpRead rq rqs io text = .code n rq' rqs' io' text')
    (hwithin : (io'.refill f).Within rqs'.m) : CallReached hmask rq' rqs' (io'.refill f) text'

theorem CallReached.routed {hmask : Uint} {rq : MinuteHttpRq} {rqs : MinuteHttpRqs} {io : Iobuf}
    {text : Textint} (h : CallReached hmask rq rqs io text) : rqs.Routed := by
  induction h with
  | init rq io text => rfl
  | trailers rq io text => rfl
  | call f h hread hwithin ih => exact minuteHttpRead_routed ih hread

theorem CallReached.within {hmask : Uint} {rq : MinuteHttpRq} {rqs : MinuteHttpRqs} {io : Iobuf}
    {text : Textint} (h : CallReached hmask rq rqs io text) : io.Within rqs.m := by
  cases h with
  | init rq io text => exact io.within_read
  | trailers rq io text => exact io.within_read
  | call f h hread hwithin => exact hwithin

/-- `io->read` has moved on from where it was, but not past `io->write`, and the used count has not
grown. -/
def Forward (io io' : Iobuf) : Prop :=
  io'.write = io.write ∧ (io'.read - io.read).toNat ≤ (io.write - io.read).toNat ∧ io'.used ≤ io.used

/-- What `H_EOF` does in a state that reads a value: it ends a collected value that it can terminate,
and a flag value whose walk stays in the table. -/
def HttpRequestState.valueEndsAtEof (x : HttpRequestState) (k : Frame) : Bool :=
  match x with
  | hValue => decide (k.text.text < k.text.ints)
  | hHeadConnection => (flagWalk (some patinitialConnection) hEof k.tstate).isSome
  | hHeadExpect => (flagWalk (some patinitialExpect) hEof k.tstate).isSome
  | hHeadTransferEncoding => (flagWalk (some patinitialTransfer) hEof k.tstate).isSome
  | _ => false

/-- The frames in which `H_EOF` ends the head: those of a header line. -/
def Frame.endsAtEof (k : Frame) : Bool :=
  match k.s.st with
  | hNl | hSkipline => true
  | hHeader => (headerWalk hEof k.tstate).isSome
  | hHeadFlag => (flagWalk k.patinitialFlag hEof k.tstate).isSome
  | hCont => !k.s.collect || k.s.est.valueEndsAtEof k
  | hValueLead => k.s.est.valueEndsAtEof k
  | x => x.valueEndsAtEof k

theorem valueEndsAtEof_congr {k k' : Frame} (x : HttpRequestState) (ht : k'.tstate = k.tstate)
    (hlo : k'.text.text = k.text.text) (hhi : k'.text.ints = k.text.ints) :
    x.valueEndsAtEof k' = x.valueEndsAtEof k := by
  unfold HttpRequestState.valueEndsAtEof
  rw [ht, hlo, hhi]

@[simp] theorem replacec_text (o : Int) (c : Byte) (t : Textint) :
    (minuteTextintReplacec o c t).text = t.text := (rfl)

@[simp] theorem replacec_ints (o : Int) (c : Byte) (t : Textint) :
    (minuteTextintReplacec o c t).ints = t.ints := (rfl)

theorem endsAtEof_value {k : Frame} (h : k.s.st.isValue = true) :
    k.endsAtEof = k.s.st.valueEndsAtEof k := by
  unfold Frame.endsAtEof
  cases hst : k.s.st <;> rw [hst] at h <;> first | rfl | cases h

theorem endsAtEof_lead {k : Frame} (h : k.s.st = hValueLead) :
    k.endsAtEof = k.s.est.valueEndsAtEof k := by
  unfold Frame.endsAtEof
  rw [h]

theorem putc_none_iff (c : Byte) (t : Textint) : minuteTextintPutc c t = none ↔ ¬t.text < t.ints := by
  unfold minuteTextintPutc
  by_cases h : t.text ≥ t.ints
  · simp [h, BitVec.not_lt.mpr h]
  · simp [h, BitVec.not_le.mp h]

theorem switch_endsAtEof (k : Frame) (c : Int) (hk : Routed k) (hc : c = hEof) :
    Pass.All (fun k' c' => c' = hEof ∧ k'.endsAtEof = k.endsAtEof)
      (fun k' => k'.s.nl = 99 ∧ k.endsAtEof = true) (fun _ _ => k.endsAtEof = false)
      (k.endsAtEof = false) (switch k c) := by
  have hneg : c < 0 := by rw [hc]; decide
  have heq : ∀ n : Int, 0 ≤ n → (c = n) = False := fun n hn => by simp; omega
  have hle : ∀ n : Int, 0 ≤ n → (n ≤ c) = False := fun n hn => by simp; omega
  have h₁ : uriPchar c = false := by rw [hc]; decide
  have h₂ : uriUric c = false := by rw [hc]; decide
  have h₃ : uriHex c = false := by rw [hc]; decide
  have h₄ : toLower c = c := by rw [hc]; decide
  have h₅ : (c = -1) = True := by simp [hc, hEof]
  have h₆ : (c = hEof) = True := by simp [hc]
  have hclosed : ∀ k' : Frame, k'.s.st = hErrorBadRequest ∨ k'.s.st.isRequestLine = true →
      k'.endsAtEof = false := by
    intro k' h
    unfold Frame.endsAtEof
    cases hst : k'.s.st <;> simp_all [isRequestLine, HttpRequestState.valueEndsAtEof]
  have hbad : ∀ k' : Frame, (k'.shift hErrorBadRequest).endsAtEof = false := fun k' =>
    hclosed _ (.inl rfl)
  cases hst : k.s.st <;> simp only [switch, hst]
  case hValueLead =>
    have hval : k.s.est.isValue = true := by simpa [Routed, hst, routed] using hk
    simp only [hValueLeadCase, all_ite, all_reset, all_brk]
    refine ⟨fun _ => ⟨hc, ?_⟩, fun h => absurd ⟨by omega, by omega⟩ h⟩
    rw [endsAtEof_lead hst, endsAtEof_value hval, shift_s]
    exact valueEndsAtEof_congr k.s.est (by simp) (by simp) (by simp)
  case hCont =>
    simp only [hContCase, all_ite, all_reset]
    refine ⟨fun hcol => ⟨hc, ?_⟩, fun hcol => ⟨hc, by simp [Frame.endsAtEof, hst, hcol]⟩⟩
    have hends : k.endsAtEof = k.s.est.valueEndsAtEof k := by simp [Frame.endsAtEof, hst, hcol]
    rw [hends, endsAtEof_lead (by simp), shift_s]
    exact valueEndsAtEof_congr k.s.est (by simp) (by simp) (by simp)
  case hHeader =>
    have hends : k.endsAtEof = (headerWalk c k.tstate).isSome := by simp [Frame.endsAtEof, hst, hc]
    simp only [hHeaderCase, h₄, all_onWalk, hends]
    refine ⟨fun hw => by rw [hw]; rfl, fun r t hw => ?_⟩
    obtain rfl := walkTrie_neg (by rw [if_neg (by omega)]; exact hneg) hw
    simp [Frame.endsAtEof, hw, h₆]
  case hHeadFlag =>
    have hends : k.endsAtEof = (flagWalk k.patinitialFlag c k.tstate).isSome := by
      simp [Frame.endsAtEof, hst, hc]
    simp only [hHeadFlagCase, h₄, all_onWalk, hends]
    refine ⟨fun hw => by rw [hw]; rfl, fun r t hw => ?_⟩
    obtain rfl := walkTrie_neg (by rw [if_neg (by omega)]; exact hneg) hw
    simp [Frame.endsAtEof, hw, h₆]
  case hValue =>
    have hends : k.endsAtEof = decide (k.text.text < k.text.ints) := by
      simp [Frame.endsAtEof, hst, HttpRequestState.valueEndsAtEof]
    have hput := putc_none_iff 0 k.text
    simp only [hValueCase, hends, heq 13 (by decide), heq 10 (by decide), h₅, if_false, if_true,
      all_putcOr, all_brk]
    refine ⟨fun h => by simpa using hput.mp h, fun t ht => ⟨rfl, ?_⟩⟩
    have hsome : ¬minuteTextintPutc 0 k.text = none := by
      intro h
      have ht : minuteTextintPutc 0 k.text = some t := ht
      rw [ht] at h
      cases h
    simpa using mt hput.mpr hsome
  case hHeadConnection | hHeadExpect | hHeadTransferEncoding =>
    simp [hHeadConnectionCase, hHeadExpectCase, hHeadTransferEncodingCase, hHeadFlagInitial,
      Frame.endsAtEof, hst, HttpRequestState.valueEndsAtEof, Frame.shift, hc]
  case hNl =>
    have hstart : (headerWalk hEof ⟨0, 0⟩).isSome = true := by decide +kernel
    simp [hNlCase, Frame.endsAtEof, hst, hstart, heq, h₆]
  case hSkipline =>
    have hends : k.endsAtEof = true := by simp [Frame.endsAtEof, hst]
    simp [hSkiplineCase, hends, heq, h₅]
  case hMethod | hProt =>
    have hends : k.endsAtEof = false := hclosed k (.inr (by rw [hst]; rfl))
    dsimp only [hMethodCase, hProtCase]
    simp only [methodWalk, protWalk, heq 32 (by decide), heq 47 (by decide), if_false, all_onWalk]
    refine ⟨fun _ => hends, fun r t hw => ?_⟩
    obtain rfl := walkTrie_neg hneg hw
    simp [httpProto, hends, hbad, h₆]
  case hHeadContentLength =>
    have hends : k.endsAtEof = false := by simp [Frame.endsAtEof, hst, HttpRequestState.valueEndsAtEof]
    simp [hHeadContentLengthCase, hends, heq, hle, hbad, h₆]
  case hCr =>
    have hends : k.endsAtEof = false := by simp [Frame.endsAtEof, hst, HttpRequestState.valueEndsAtEof]
    simp [hCrCase, hends, heq, hbad, h₆]
  case hErrorBadRequest | hErrorNotImplemented | hErrorInternalServerError | hNewline |
      hHeaderUnknown =>
    simp [hErrorCase, Frame.endsAtEof, hst, HttpRequestState.valueEndsAtEof]
  all_goals
    have hends : k.endsAtEof = false := hclosed k (.inr (by rw [hst]; rfl))
    dsimp only [hInitialCase, hMethodSpCase, hPathCase, hEscaped1Case, hEscaped2Case, hQueryCase,
      hPathSpCase, hProtSlashCase, hProtHttpXCase, hProtHttpXDotCase, hProtHttpXXCase]
    simp [h₁, h₂, h₃, heq, hle, h₆, hends, hbad, hclosed, isRequestLine]

/-- **Which frames `H_EOF` ends the head in.** -/
theorem iterate_eof_ok_iff {k : Frame} (hk : Routed k) :
    (∃ k', iterate k hEof = .halt (.ok k')) ↔ k.endsAtEof = true := by
  have hi := iterate_inv (k := k) (c := hEof)
    (N := fun k' c' => Routed k' ∧ c' = hEof ∧ k'.endsAtEof = k.endsAtEof)
    (B := fun k' => k'.s.nl = 99 ∧ k.endsAtEof = true) (R := fun _ _ => k.endsAtEof = false)
    (F := k.endsAtEof = false) (fun k₁ c₁ h₁ => ?_) ⟨hk, rfl, rfl⟩
  · cases hs : iterate k hEof with
    | next k' => exact absurd hs (iterate_eof k k')
    | halt r =>
      rw [hs] at hi
      cases r with
      | ok k' =>
        obtain ⟨k₁, ⟨-, hends⟩, -⟩ := hi
        exact ⟨fun _ => hends, fun _ => ⟨k', rfl⟩⟩
      | ret n k' =>
        have hi : k.endsAtEof = false := hi
        simp [hi]
      | fault =>
        have hi : k.endsAtEof = false := hi
        simp [hi]
      | spin => exact absurd hs (iterate_ne_spin hk)
  · obtain ⟨hr, rfl, hends⟩ := h₁
    refine ((switch_routed k₁ hEof hr).and (switch_endsAtEof k₁ hEof hr rfl)).imp ?_ ?_ ?_ ?_
    · rintro k₂ c₂ ⟨h, hc, he⟩
      exact ⟨h.1, hc, he.trans hends⟩
    · rintro k₂ ⟨-, hnl, he⟩
      exact ⟨hnl, hends ▸ he⟩
    · rintro n k₂ ⟨-, he⟩
      exact hends ▸ he
    · rintro ⟨-, he⟩
      exact hends ▸ he

/-- The end of the file is flagged and met in a header line, so that `H_EOF` ends the head. -/
def EndedByEof (rq : MinuteHttpRq) (rqs : MinuteHttpRqs) (io : Iobuf) (text : Textint) : Prop :=
  io.eof = true ∧ ∃ k, feed iterate (startFrame rq rqs io text) (chars (io.from rqs.m)) = .next k ∧
    k.endsAtEof = true

instance EndedByEof.decidable (rq : MinuteHttpRq) (rqs : MinuteHttpRqs) (io : Iobuf) (text : Textint) :
    Decidable (EndedByEof rq rqs io text) :=
  decidable_of_iff (io.eof = true ∧
      (feed iterate (startFrame rq rqs io text) (chars (io.from rqs.m))).Holds
        (fun k => k.endsAtEof = true) fun _ => False) <| by
    refine and_congr_right fun _ => ?_
    constructor
    · exact Step.Holds.exists_next
    · rintro ⟨k, hf, hk⟩
      rw [hf]
      exact hk

theorem within_distance {io : Iobuf} {m : Uint} (hm : io.Within m) :
    (io.write - m).toNat = io.used - (m - io.read).toNat := by
  have hu := @Iobuf.used_take io _ hm
  have hread : (io.take (m - io.read).toNat).read = m := add_ofNat_sub io.read m
  rw [← hu, Iobuf.used, minuteIobufUsed, hread]
  rfl

/-- A call that `H_EOF` ended has moved `io->read` one past `io->write`. -/
theorem endedByEof_read {rq : MinuteHttpRq} {rqs : MinuteHttpRqs} {io : Iobuf} {text : Textint}
    (hk : rqs.Routed) (h : EndedByEof rq rqs io text) :
    ∃ rq' rqs' text', minuteHttpRead rq rqs io text =
      .code 0 rq' rqs' { io with read := io.write + 1 } text' := by
  obtain ⟨he, k, hf, hends⟩ := h
  have hr := feed_routed (startFrame_routed hk rq io text) hf
  obtain ⟨k', hs⟩ := (iterate_eof_ok_iff hr).mpr hends
  have hm : k.s.m = io.write := by
    rw [(feed_m hf).1, chars, List.length_map, Iobuf.from, Iobuf.length_window]
    exact add_ofNat_sub rqs.m io.write
  refine ⟨k'.rq, k'.s, k'.text, ?_⟩
  rw [minuteHttpRead_eq, hf]
  simp only [conclude, he, if_true, hs, finish]
  rw [iterate_ok_m hs, hm]

/-- A call that ends otherwise leaves `io->read` among the bytes held. -/
theorem read_forward {rq rq' : MinuteHttpRq} {rqs rqs' : MinuteHttpRqs} {io io' : Iobuf}
    {text text' : Textint} {n : Nat} (hk : rqs.Routed) (hm : io.Within rqs.m)
    (hno : ¬EndedByEof rq rqs io text)
    (hread : minuteHttpRead rq rqs io text = .code n rq' rqs' io' text') : Forward io io' := by
  suffices hl : ∃ l ≤ io.used, io' = io.take l by
    obtain ⟨l, hl, rfl⟩ := hl
    refine ⟨rfl, ?_, ?_⟩
    · have hlt : l < 2 ^ 32 := Nat.lt_of_le_of_lt hl (minuteIobufUsed io).isLt
      show (io.read + BitVec.ofNat 32 l - io.read).toNat ≤ _
      rw [BitVec.add_comm, BitVec.add_sub_cancel, BitVec.toNat_ofNat, Nat.mod_eq_of_lt hlt]
      exact hl
    · rw [Iobuf.used_take hl]
      exact Nat.sub_le _ _
  obtain ⟨l, rfl, ⟨hl, -⟩ | ⟨rfl, he, rfl⟩⟩ := minuteHttpRead_released hm hread
  · exact ⟨l, hl, rfl⟩
  · -- the head can only have ended before the end of the file
    rw [minuteHttpRead_eq] at hread
    have hdist := within_distance hm
    cases hf : feed iterate (startFrame rq rqs io text) (chars (io.from rqs.m)) with
    | next k =>
      rw [hf] at hread
      simp only [conclude, he, if_true] at hread
      cases hs : iterate k hEof with
      | next k' => exact absurd hs (iterate_eof k k')
      | halt r =>
        rw [hs] at hread
        have hr := feed_routed (startFrame_routed hk rq io text) hf
        cases r with
        | fault => cases hread
        | spin => cases hread
        | ok k' => exact absurd ⟨he, k, hf, (iterate_eof_ok_iff hr).mp ⟨k', hs⟩⟩ hno
        | ret n k' =>
          simp only [finish, ReadResult.code.injEq] at hread
          exact absurd hread.1 ((iterate_flagInside hr).2 _ _ hs).1
    | halt r =>
      obtain ⟨r, rest⟩ := r
      rw [hf] at hread
      obtain ⟨p, c, k₁, hp, hfeed, hc⟩ := feed_halt hf
      cases r with
      | fault => cases hread
      | spin => cases hread
      | ret n k' =>
        simp only [conclude, finish, ReadResult.code.injEq] at hread
        exact absurd hread.1
          ((iterate_flagInside (feed_routed (startFrame_routed hk rq io text) hfeed)).2 _ _ hc).1
      | ok k' =>
        simp only [conclude, finish, ReadResult.code.injEq, true_and] at hread
        have hlen := congrArg List.length hp
        rw [chars, List.length_map, Iobuf.from, Iobuf.length_window, hdist, List.length_append,
          List.length_cons] at hlen
        have hpos := add_ofNat_sub io.read rqs.m
        have hend : k'.s.m =
            io.read + BitVec.ofNat 32 ((rqs.m - io.read).toNat + (p.length + 1)) := by
          rw [iterate_ok_m hc, (feed_m hfeed).1, BitVec.ofNat_add, ← BitVec.add_assoc, hpos,
            BitVec.ofNat_add, ← BitVec.add_assoc]
          rfl
        refine ⟨(rqs.m - io.read).toNat + (p.length + 1), by unfold Iobuf.Within at hm; omega, ?_⟩
        rw [← hread.2.2.1, hend]
        rfl

/-- **`io->read` stays inside the ring exactly where `H_EOF` does not end the head**, in every state
that calls lead to. (A ring that holds all `2 ^ 32 - 1` bytes is the one in which one byte too many
comes back to where the count began.) -/
theorem read_forward_iff {hmask : Uint} {rq : MinuteHttpRq} {rqs : MinuteHttpRqs} {io : Iobuf}
    {text : Textint} (h : CallReached hmask rq rqs io text) :
    (∀ n rq' rqs' io' text', minuteHttpRead rq rqs io text = .code n rq' rqs' io' text' →
      n = 0 ∨ n = eagain → Forward io io') ↔
    ¬EndedByEof rq rqs io text ∨ io.used = 2 ^ 32 - 1 := by
  constructor
  · intro hall
    by_contra hno
    obtain ⟨hends, hused⟩ := not_or.mp hno
    obtain ⟨rq', rqs', text', hread⟩ := endedByEof_read h.routed (not_not.mp hends)
    obtain ⟨-, hle, -⟩ := hall _ _ _ _ _ hread (.inl rfl)
    have hlt := (minuteIobufUsed io).isLt
    have hdist : (io.write + 1 - io.read).toNat = io.used + 1 := by
      unfold Iobuf.used minuteIobufUsed at *
      bv_omega
    have hle : (io.write + 1 - io.read).toNat ≤ io.used := hle
    omega
  · rintro (hno | hused) n rq' rqs' io' text' hread -
    · exact read_forward h.routed h.within hno hread
    · -- any distance is at most that
      obtain ⟨l, rfl, -⟩ := minuteHttpRead_released h.within hread
      refine ⟨rfl, ?_, ?_⟩
      · have hlt := ((io.take l).read - io.read).isLt
        have hused : (io.write - io.read).toNat = 2 ^ 32 - 1 := hused
        omega
      · have hlt := (minuteIobufUsed (io.take l)).isLt
        rw [hused]
        unfold Iobuf.used
        omega

/-- The end of the file behind an empty line. -/
theorem read_forward_complete :
    let io : Iobuf := { Iobuf.holding 4096 (bytes "GET / HTTP/1.1\n\n") with flags := iobufEof }
    let init := minuteHttpInit minuteAllHeaders io (minuteTextintInit 64 fun _ => 0)
    ∀ n rq' rqs' io' text', minuteHttpRead .zero init.1 io init.2 = .code n rq' rqs' io' text' →
      n = 0 ∨ n = eagain → Forward io io' := by
  intro io init
  exact (read_forward_iff
    (.init .zero io (minuteTextintInit 64 fun _ => 0) : CallReached minuteAllHeaders _ _ _ _)).mpr
      (.inl (by decide +kernel))

/-- In the middle of a header line it moves `io->read` past `io->write`. -/
theorem read_forward_cut :
    ∃ (hmask : Uint) (rq : MinuteHttpRq) (rqs : MinuteHttpRqs) (io : Iobuf) (text : Textint),
      CallReached hmask rq rqs io text ∧
      (minuteHttpRead rq rqs io text).Succeeds fun _ _ io' _ => io'.used = 2 ^ 32 - 1 ∧ ¬Forward io io' := by
  let io : Iobuf := { Iobuf.holding 4096 (bytes "GET / HTTP/1.1\nHost: a") with flags := iobufEof }
  let text := minuteTextintInit 64 fun _ => 0
  refine ⟨minuteAllHeaders, .zero, _, io, _, .init .zero io text, ?_⟩
  obtain ⟨rq', rqs', io', text', h, hused, hused'⟩ := (ReadResult.succeeds_iff
    (P := fun _ _ io' _ => io'.used = 2 ^ 32 - 1 ∧ ¬io'.used ≤ io.used)
    (r := minuteHttpRead .zero (minuteHttpInit minuteAllHeaders io text).1 io
      (minuteHttpInit minuteAllHeaders io text).2)).mp (by decide +kernel)
  rw [h]
  exact ⟨rfl, hused, fun hf => hused' hf.2.2⟩

end MinuteHttp
