import MinuteHttp.Libhttp.Interfere
import MinuteHttp.Libhttp.Length

/-!
# CRLF and LF

A request in which some of the CRs before an LF are left out is read as before (`feed_ends`), but for two things: the
CR of a CR CR LF is met in `h_cr`, which wants an LF, and `h_head_content_length` takes its number at a CR only.
`session_ends` compares the two requests by the numbers that they take.
-/

namespace MinuteHttp

open HttpRequestState Feed

/-! ## Requests and frames that differ in the content length -/

/-- The requests differ at most in the content length. -/
structure SameButLength (rq rq' : MinuteHttpRq) : Prop where
  flags : rq'.flags ||| BitVec.ofNat 32 httpContentLength = rq.flags ||| BitVec.ofNat 32 httpContentLength
  serverProtocol : rq'.serverProtocol = rq.serverProtocol
  requestMethod : rq'.requestMethod = rq.requestMethod
  path : rq'.path = rq.path
  query : rq'.query = rq.query

theorem sameButLength_iff {rq rq' : MinuteHttpRq} :
    SameButLength rq rq' ↔
      rq'.flags ||| BitVec.ofNat 32 httpContentLength = rq.flags ||| BitVec.ofNat 32 httpContentLength ∧
      rq'.serverProtocol = rq.serverProtocol ∧ rq'.requestMethod = rq.requestMethod ∧ rq'.path = rq.path ∧
      rq'.query = rq.query :=
  ⟨fun ⟨h₁, h₂, h₃, h₄, h₅⟩ => ⟨h₁, h₂, h₃, h₄, h₅⟩, fun ⟨h₁, h₂, h₃, h₄, h₅⟩ => ⟨h₁, h₂, h₃, h₄, h₅⟩⟩

theorem SameButLength.refl (rq : MinuteHttpRq) : SameButLength rq rq := ⟨rfl, rfl, rfl, rfl, rfl⟩

theorem SameButLength.trans {rq rq' rq'' : MinuteHttpRq} (h : SameButLength rq rq') (h' : SameButLength rq' rq'') :
    SameButLength rq rq'' :=
  ⟨h'.flags.trans h.flags, h'.serverProtocol.trans h.serverProtocol, h'.requestMethod.trans h.requestMethod,
    h'.path.trans h.path, h'.query.trans h.query⟩

theorem hasFlag_iff (f : Uint) (i : Nat) (hi : i < 32) : hasFlag f (2 ^ i) = true ↔ f.getLsbD i = true := by
  have hpow : BitVec.ofNat 32 (2 ^ i) = BitVec.twoPow 32 i := by
    apply BitVec.eq_of_toNat_eq
    rw [BitVec.toNat_ofNat, BitVec.toNat_twoPow]
  unfold hasFlag
  rw [decide_eq_true_iff, hpow, BitVec.and_twoPow]
  cases f.getLsbD i with
  | false => simp
  | true =>
    simp only [if_true, iff_true]
    intro h
    have hbit := congrArg (fun w => BitVec.getLsbD w i) h
    simp [hi] at hbit

theorem SameButLength.eq {rq rq' : MinuteHttpRq} (h : SameButLength rq rq') : rq' = rq ↔ rq'.length = rq.length := by
  constructor
  · intro heq
    rw [heq]
  · intro hlen
    obtain ⟨f, sp, rm, p, q, n⟩ := rq
    obtain ⟨f', sp', rm', p', q', n'⟩ := rq'
    obtain ⟨hf, rfl, rfl, rfl, rfl⟩ := h
    obtain ⟨hbit, rfl⟩ := Prod.mk.inj hlen
    have hbit : f'.getLsbD 4 = f.getLsbD 4 := by
      have h₁ := hasFlag_iff f' 4 (by decide)
      have h₂ := hasFlag_iff f 4 (by decide)
      have hbit : hasFlag f' (2 ^ 4) = hasFlag f (2 ^ 4) := hbit
      rw [Bool.eq_iff_iff, ← h₁, ← h₂, hbit]
    have hflags : f' = f := by
      apply BitVec.eq_of_getLsbD_eq
      intro i hi
      by_cases h4 : i = 4
      · rw [h4, hbit]
      · have hother := congrArg (fun w => BitVec.getLsbD w i) hf
        have h16 : (BitVec.ofNat 32 httpContentLength).getLsbD i = false := by
          rw [show BitVec.ofNat 32 httpContentLength = BitVec.twoPow 32 4 from rfl, BitVec.getLsbD_twoPow]
          simp [Ne.symm h4]
        simpa only [BitVec.getLsbD_or, h16, Bool.or_false] using hother
    rw [hflags]

/-- The frames differ at most in the content length. -/
def LengthApart (k k' : Frame) : Prop := SameButLength k.rq k'.rq ∧ k' = { k with rq := k'.rq }

theorem switch_lengthApart {k k' : Frame} (c : Int) (h : LengthApart k k') :
    Pass.Sim (fun k₁ k₁' _ => LengthApart k₁ k₁') LengthApart (fun _ => LengthApart) (switch k c) (switch k' c) := by
  obtain ⟨⟨hflags, hsp, hrm, hpath, hquery⟩, hk⟩ := h
  obtain ⟨rq, s, text, b, t, p⟩ := k
  obtain ⟨rq', s', text', b', t', p'⟩ := k'
  simp only [Frame.mk.injEq, true_and] at hk hflags hsp hrm hpath hquery
  obtain ⟨rfl, rfl, rfl, rfl, rfl⟩ := hk
  have hor : ∀ x : Uint, rq'.flags ||| x ||| BitVec.ofNat 32 httpContentLength =
      rq.flags ||| x ||| BitVec.ofNat 32 httpContentLength := by
    intro x
    rw [BitVec.or_assoc, BitVec.or_comm x, ← BitVec.or_assoc, hflags, BitVec.or_assoc, BitVec.or_comm _ x,
      ← BitVec.or_assoc]
  cases hst : s'.st <;> simp only [switch, hst]
  all_goals
    dsimp only [hInitialCase, hMethodCase, hMethodSpCase, hPathCase, hEscaped1Case, hEscaped2Case, hQueryCase,
      hPathSpCase, hProtCase, hProtSlashCase, hProtHttpXCase, hProtHttpXDotCase, hProtHttpXXCase, hCrCase, hNlCase,
      hHeaderCase, hHeaderMatched, hHeadConnectionCase, hHeadExpectCase, hHeadTransferEncodingCase, hHeadFlagInitial,
      hHeadContentLengthCase, hHeadFlagCase, hContCase, hValueLeadCase, hValueCase, hSkiplineCase, hErrorCase]
    simp [LengthApart, sameButLength_iff, hor, hflags, hsp, hrm, hpath, hquery, Frame.shift, Frame.mark, Frame.setNl,
      Frame.setEst, Frame.clearTrie, markUnlessUnknown_eq]

/-! ## Runs side by side -/

/-- The frames differ at most in the content length and in what is not looked at. -/
structure Paired (k k' : Frame) : Prop where
  rq : SameButLength k.rq k'.rq
  alike : Alike false { k with rq := k'.rq } k'

theorem Paired.refl (k : Frame) : Paired k k :=
  ⟨.refl k.rq, ⟨rfl, rfl, rfl, rfl, rfl, rfl, rfl, rfl, rfl, fun _ => rfl, fun _ => rfl, fun _ _ => rfl, fun _ => rfl⟩⟩

theorem Paired.trans {k k' k'' : Frame} (h : Paired k k') (h' : Paired k' k'') : Paired k k'' := by
  obtain ⟨hrq, -, h₂, h₃, h₄, h₅, h₆, h₇, h₈, h₉, hcol, hest, hfold, hflag⟩ := h
  obtain ⟨hrq', -, h₂', h₃', h₄', h₅', h₆', h₇', h₈', h₉', hcol', hest', hfold', hflag'⟩ := h'
  dsimp only at h₂ h₃ h₄ h₅ h₆ h₇ h₈ h₉ hcol hest hfold hflag h₂' h₃' h₄' h₅' h₆' h₇' h₈' h₉' hcol' hest' hfold' hflag'
  refine ⟨hrq.trans hrq', rfl, h₂'.trans h₂, h₃'.trans h₃, h₄'.trans h₄, h₅'.trans h₅, h₆'.trans h₆, h₇'.trans h₇,
    h₈'.trans h₈, h₉'.trans h₉, fun hd => (hcol' hd).trans (hcol hd), fun hk => ?_, fun hd hk => ?_, fun hk => ?_⟩
  · exact (hest' (h₇ ▸ hk)).trans (hest hk)
  · exact (hfold' hd ((hcol hd).trans hk)).trans (hfold hd hk)
  · exact (hflag' (h₇.trans hk)).trans (hflag hk)

/-- The turns end in the same way, with the same text. -/
def Halt.Alike (r r' : Halt) : Prop :=
  match r, r' with
  | .ok k, .ok k' => SameButLength k.rq k'.rq ∧ k'.text = k.text
  | .ret n k, .ret n' k' => n' = n ∧ SameButLength k.rq k'.rq ∧ k'.text = k.text
  | .fault, .fault => True
  | .spin, .spin => True
  | _, _ => False

theorem Halt.Alike.trans {r r' r'' : Halt} (h : Halt.Alike r r') (h' : Halt.Alike r' r'') : Halt.Alike r r'' := by
  cases r <;> cases r' <;> try exact h.elim
  all_goals cases r'' <;> try exact h'.elim
  case ok => exact ⟨h.1.trans h'.1, h'.2.trans h.2⟩
  case ret => exact ⟨h'.1.trans h.1, h.2.1.trans h'.2.1, h'.2.2.trans h.2.2⟩
  case fault => trivial
  case spin => trivial

theorem iterate_ends {k k' : Frame} (c : Int) (hk : Routed k) (h : Paired k k') :
    (iterate k c).Rel Paired Halt.Alike (iterate k' c) := by
  have hlen := iterate_sim (N := fun k₁ k₁' _ => LengthApart k₁ k₁') (B := LengthApart) (R := fun _ => LengthApart)
    (fun k₁ k₁' c₁ h₁ => switch_lengthApart c₁ h₁) (fun _ _ h₁ => by rw [h₁.2]) (c := c)
    (show LengthApart k { k with rq := k'.rq } from ⟨h.rq, rfl⟩)
  have hal := iterate_alike c (show Routed { k with rq := k'.rq } from hk) h.alike (by simp)
  obtain ⟨x, x', hs, hs', k₁, k₁', ⟨hB, hk₁⟩, rfl, rfl⟩ | ⟨r, r', hs, hs', hr⟩ := hlen.cases
  · obtain ⟨y, y', ht, ht', hy⟩ | ⟨q, q', ht, ht', -⟩ := hal.cases
    · rw [hs'] at ht
      cases ht
      rw [hs, ht']
      have hrq : y'.rq = k₁'.rq := hy.rq
      refine ⟨by rw [hrq]; exact hB, ?_⟩
      rw [hk₁] at hy
      rw [hrq]
      exact hy
    · rw [hs'] at ht
      cases ht
  · obtain ⟨y, y', ht, -, -⟩ | ⟨q, q', ht, ht', hq⟩ := hal.cases
    · rw [hs'] at ht
      cases ht
    · rw [hs'] at ht
      cases ht
      rw [hs, ht']
      cases r <;> cases r' <;> try exact hr.elim
      all_goals cases q' <;> try exact hq.elim
      case ok =>
        obtain ⟨k₁, k₁', ⟨hB, hk₁⟩, rfl, rfl⟩ := hr
        obtain ⟨k₂, k₂', hA, hk₂, rfl⟩ := hq
        have hrq : k₁'.rq = k₂.rq := by
          rw [← advance_rq, hk₂, advance_rq]
        have htext : k₁'.text = k₂.text := by
          rw [← advance_text, hk₂, advance_text]
        refine ⟨?_, ?_⟩
        · show SameButLength k₁.rq k₂'.rq
          rw [hA.rq, ← hrq]
          exact hB
        · show k₂'.text = k₁.text
          rw [hA.text, ← htext, hk₁]
      case ret =>
        obtain ⟨rfl, hB, hk₁⟩ := hr
        obtain ⟨rfl, hrq, htext⟩ := hq
        refine ⟨rfl, ?_, ?_⟩
        · rw [hrq]
          exact hB
        · rw [htext, hk₁]
      case fault => trivial
      case spin => trivial

/-! ## CR LF and LF -/

/-- A walk does the same on any two characters that no edge has. -/
theorem walkTrie_control {tree : List Patricia} (ht : Printable tree) {c c' : Int} (hc : 0 < c ∧ c ≤ 32)
    (hc' : 0 < c' ∧ c' ≤ 32) {o : Nat} {i : Option Patricia} {t : Triestate} :
    walkTrie c o tree i t = walkTrie c' o tree i t := by
  have hchar : ∀ p ∈ tree, ∀ j, p.charAt j ≠ some c ∧ p.charAt j ≠ some c' := by
    intro p hp j
    refine ⟨fun h => ?_, fun h => ?_⟩
    · have := ht.charAt hp h
      omega
    · have := ht.charAt hp h
      omega
  have hchild : ∀ p, enterChild c o tree p t = enterChild c' o tree p t := by
    intro p
    simp only [enterChild, Option.bind_eq_bind]
    refine Option.bind_congr fun q hq => ?_
    obtain ⟨h, h'⟩ := hchar q (List.mem_of_getElem? hq) 0
    rw [if_neg (fun hx => h hx.1), if_neg (fun hx => h' hx.1)]
  unfold walkTrie
  split
  · simp only [Option.bind_eq_bind]
    refine Option.bind_congr fun p hp => Option.bind_congr fun x hx => ?_
    obtain ⟨h, h'⟩ := hchar p (List.mem_of_getElem? hp) t.poff
    have hx : p.charAt t.poff = some x := hx
    rw [hx, ne_eq, Option.some.injEq] at h h'
    rw [if_neg (show ¬(x = 0 ∧ c = 0) by omega), if_neg (show ¬(x = 0 ∧ c' = 0) by omega), if_neg h, if_neg h', hchild]
  · simp only [hchild]

/-- The two characters do what the LF alone does. -/
def Crlf (k : Frame) : Prop := (feed iterate k [13, 10]).Rel Paired (fun r r' => Halt.Alike r.1 r') (iterate k 10)

section

variable {k k₁ k₂ : Frame} {x : HttpRequestState}

theorem crlf_reset (hk : Routed k) (h13 : switch k 13 = reset x k₁ 13) (h10 : switch k 10 = reset x k₁ 10)
    (h : Routed (k₁.shift x) → Crlf (k₁.shift x)) : Crlf k := by
  have hr := switch_routed k 13 hk
  rw [h13] at hr
  unfold Crlf
  rw [feed_reset hk h13, iterate_reset hk h10]
  exact h hr.1

theorem crlf_ret {n : Nat} (h13 : switch k 13 = ret n k₁) (h10 : switch k 10 = ret n k₂) (hrq : k₂.rq = k₁.rq)
    (htext : k₂.text = k₁.text) : Crlf k := by
  have hs : iterate k 13 = .halt (.ret n k₁) := iterate_of_halt h13
  have hs' : iterate k 10 = .halt (.ret n k₂) := iterate_of_halt h10
  unfold Crlf
  rw [feed_cons_halt _ hs, hs']
  refine ⟨rfl, ?_, htext⟩
  rw [hrq]
  exact .refl k₁.rq

theorem crlf_fault (h13 : switch k 13 = .halt .fault) (h10 : switch k 10 = .halt .fault) : Crlf k := by
  have hs : iterate k 13 = .halt .fault := iterate_of_halt h13
  have hs' : iterate k 10 = .halt .fault := iterate_of_halt h10
  unfold Crlf
  rw [feed_cons_halt _ hs, hs']
  trivial

theorem crlf_stay (hnl : k.s.nl ≤ 1) (h13 : switch k 13 = brk k) (h10 : switch k 10 = brk k)
    (h : switch k.advance 10 = brk k.advance) : Crlf k := by
  unfold Crlf
  rw [feed_cons_next _ (iterate_of_brk h13 hnl), feed_cons_next _ (iterate_of_brk h hnl), iterate_of_brk h10 hnl]
  exact ⟨.refl _, ⟨rfl, rfl, rfl, rfl, rfl, rfl, rfl, rfl, rfl, fun _ => rfl, fun _ => rfl, fun _ _ => rfl, fun _ => rfl⟩⟩

theorem crlf_line (k₁ : Frame) (hnl : k₁.s.nl ≤ 1) (h13 : switch k 13 = brk (k₁.shift hCr))
    (h10 : switch k 10 = brk ((k₁.setNl (k₁.s.nl + 1)).shift hNl)) : Crlf k := by
  have hs : switch (k₁.shift hCr).advance 10 =
      brk ((((k₁.shift hCr).advance).setNl (k₁.s.nl + 1)).shift hNl) := by
    simp [switch, hCrCase]
  have hfirst : iterate k 13 = .next (k₁.shift hCr).advance := iterate_of_brk h13 hnl
  unfold Crlf
  rw [feed_cons_next _ hfirst]
  by_cases hend : k₁.s.nl + 1 ≤ 1
  · rw [feed_cons_next _ (iterate_of_brk hs hend), iterate_of_brk h10 hend]
    exact ⟨.refl _, ⟨rfl, rfl, rfl, rfl, rfl, rfl, rfl, rfl, rfl, fun _ => rfl, fun _ => rfl, fun _ _ => rfl,
      fun _ => rfl⟩⟩
  · have hlf : ∀ k₂ : Frame, finishTurn (some (.brk ((k₂.setNl (k₁.s.nl + 1)).shift hNl))) =
        .halt (.ok (Frame.advance ((k₂.setNl (k₁.s.nl + 1)).shift hNl))) := fun k₂ => by
      exact if_pos (show k₁.s.nl + 1 > 1 by omega)
    rw [feed_cons_halt _ ((iterate_of_halt hs).trans (hlf _)), iterate_of_halt h10, hlf]
    exact ⟨.refl _, rfl⟩

theorem crlf_error (h : k.s.st.rank = 0) : Crlf k := by
  obtain ⟨n, hs⟩ : ∃ n, ∀ c, switch k c = ret n k := by
    cases hst : k.s.st <;> rw [hst] at h <;>
      first | (exact absurd h (by decide)) | exact ⟨_, fun c => by simp only [switch, hst]; rfl⟩
  exact crlf_ret (hs 13) (hs 10) rfl rfl

theorem crlf_skipline (h : k.s.st = hSkipline) (hnl : k.s.nl ≤ 1) : Crlf k :=
  crlf_line k.mark hnl (by simp [switch, h, hSkiplineCase]) (by simp [switch, h, hSkiplineCase])

theorem crlf_value (h : k.s.st = hValue) (hnl : k.s.nl ≤ 1) : Crlf k := by
  cases ht : minuteTextintPutc 0 k.text with
  | none =>
    have h13 : switch k 13 = ret 413 (k.mark.shift hCr) := by
      simp only [switch, h, hValueCase, if_true, putcOr, shift_text, mark_text, ht]
    have h10 : switch k 10 = ret 413 (((k.mark).setNl (k.s.nl + 1)).shift hNl) := by
      simp only [switch, h, hValueCase, show ¬(10 : Int) = 13 by decide, if_false, if_true, putcOr, shift_text, setNl_text,
        mark_text, ht, mark_s]
    exact crlf_ret h13 h10 rfl rfl
  | some t =>
    have h13 : switch k 13 = brk (Frame.shift hCr { k.mark with text := t }) := by
      simp only [switch, h, hValueCase, if_true, putcOr, shift_text, mark_text, ht]
      rfl
    have h10 : switch k 10 = brk (Frame.shift hNl (Frame.setNl (k.s.nl + 1) { k.mark with text := t })) := by
      simp only [switch, h, hValueCase, show ¬(10 : Int) = 13 by decide, if_false, if_true, putcOr, shift_text, setNl_text,
        mark_text, ht, mark_s]
      rfl
    exact crlf_line { k.mark with text := t } hnl h13 h10

/-- `h_head_content_length` takes its number at the CR and not at the LF. -/
theorem crlf_contentLength (hk : Routed k) (h : k.s.st = hHeadContentLength) (hnl : k.s.nl ≤ 1) : Crlf k := by
  have h13 : switch k 13 = brk (Frame.shift hCr { k with rq := { k.rq with
      flags := k.rq.flags ||| BitVec.ofNat 32 httpContentLength, contentLength := k.s.esc } }) := by
    simp [switch, h, hHeadContentLengthCase]
  have h10 : switch k 10 = reset hCr k 10 := by
    simp [switch, h, hHeadContentLengthCase]
  have hr := iterate_routed hk (iterate_of_brk h13 hnl)
  unfold Crlf
  rw [feed_cons_next _ (iterate_of_brk h13 hnl), iterate_reset hk h10]
  have hends : Paired (Frame.advance (Frame.shift hCr { k with rq := { k.rq with
      flags := k.rq.flags ||| BitVec.ofNat 32 httpContentLength, contentLength := k.s.esc } })) (k.shift hCr) := by
    refine ⟨⟨?_, rfl, rfl, rfl, rfl⟩, ⟨rfl, rfl, rfl, rfl, rfl, rfl, rfl, rfl, rfl, fun _ => rfl, fun _ => rfl,
      fun _ _ => rfl, fun _ => rfl⟩⟩
    show k.rq.flags ||| _ = k.rq.flags ||| _ ||| _
    rw [BitVec.or_assoc, BitVec.or_self]
  obtain ⟨x, x', hs, hs', hx⟩ | ⟨r, r', hs, hs', hx⟩ := (iterate_ends 10 hr hends).cases
  · rw [feed_cons_next _ hs, hs']
    exact hx
  · rw [feed_cons_halt _ hs, hs']
    exact hx

theorem crlf_headFlag (hk : Routed k) (h : k.s.st = hHeadFlag) (hnl : k.s.nl ≤ 1) : Crlf k := by
  have hsame : flagWalk k.patinitialFlag 13 k.tstate = flagWalk k.patinitialFlag 10 k.tstate := rfl
  have hlow : toLower 13 = 13 ∧ toLower 10 = 10 := ⟨rfl, rfl⟩
  cases hw : flagWalk k.patinitialFlag 10 k.tstate with
  | none =>
    rw [hw] at hsame
    exact crlf_fault (by simp only [switch, h, hHeadFlagCase, hlow.1, onWalk, hsame])
      (by simp only [switch, h, hHeadFlagCase, hlow.2, onWalk, hw])
  | some x =>
    obtain ⟨r, t⟩ := x
    rw [hw] at hsame
    obtain ⟨rfl, -⟩ := flagWalk_lineEnd (.inl rfl) hw
    by_cases hr : r < 0
    · exact crlf_reset hk (by simp only [switch, h, hHeadFlagCase, hlow.1, onWalk, hsame, hr, if_true])
        (by simp only [switch, h, hHeadFlagCase, hlow.2, onWalk, hw, hr, if_true]) fun _ => crlf_skipline rfl hnl
    by_cases hpos : r > 0
    · have hset : ∀ c : Int, toLower c = c → flagWalk k.patinitialFlag c k.tstate = some (r, k.tstate) →
          switch k c = reset hSkipline
            { k.mark with rq := { k.rq with flags := k.rq.flags ||| BitVec.ofInt 32 r } } c := by
        intro c hc hwalk
        simp only [switch, h, hHeadFlagCase, hc, onWalk, hwalk, hr, hpos, if_true, if_false]
      exact crlf_reset hk (hset 13 rfl hsame) (hset 10 rfl hw) fun _ => crlf_skipline rfl hnl
    -- the walk waits for more letters
    · have hw' : flagWalk k.advance.patinitialFlag 10 k.advance.tstate = some (r, k.advance.tstate) := hw
      exact crlf_stay hnl (by simp only [switch, h, hHeadFlagCase, hlow.1, onWalk, hsame, hr, hpos, if_false])
        (by simp only [switch, h, hHeadFlagCase, hlow.2, onWalk, hw, hr, hpos, if_false])
        (by simp only [switch, show k.advance.s.st = hHeadFlag from h, hHeadFlagCase, hlow.2, onWalk, hw', hr, hpos, if_false])

theorem crlf_isValue (hk : Routed k) (h : k.s.st.isValue = true) (hnl : k.s.nl ≤ 1) : Crlf k := by
  cases hst : k.s.st <;> rw [hst] at h <;> try cases h
  case hValue => exact crlf_value hst hnl
  case hHeadContentLength => exact crlf_contentLength hk hst hnl
  all_goals
    have hinitial : ∃ p, ∀ c, switch k c = reset hHeadFlag { k with patinitialFlag := some p } c := by
      simp only [switch, hst]
      exact ⟨_, fun c => rfl⟩
    obtain ⟨p, hs⟩ := hinitial
    exact crlf_reset hk (hs 13) (hs 10) fun hr => crlf_headFlag hr rfl hnl

theorem crlf_valueLead (hk : Routed k) (h : k.s.st = hValueLead) (hnl : k.s.nl ≤ 1) : Crlf k := by
  have hest : k.s.est.isValue = true := by
    rw [Routed, h] at hk
    exact hk
  have hs : ∀ c : Int, c ≠ 32 ∧ c ≠ 9 → switch k c = reset k.s.est k.mark c := fun c hc => by
    simp only [switch, h, hValueLeadCase, if_pos hc]
  exact crlf_reset hk (hs 13 (by decide)) (hs 10 (by decide)) fun hr => crlf_isValue hr hest hnl

theorem crlf_path (hk : Routed k) (h : k.s.st = hPath) : Crlf k := by
  have hs : ∀ c : Int, c = 13 ∨ c = 10 → switch k c = reset hErrorBadRequest k c := by
    have h13 : uriPchar 13 = false := by decide
    have h10 : uriPchar 10 = false := by decide
    rintro c (rfl | rfl) <;> simp [switch, h, hPathCase, h13, h10]
  exact crlf_reset hk (hs 13 (.inl rfl)) (hs 10 (.inr rfl)) fun _ => crlf_error rfl

theorem crlf_walk (walk : Int → Triestate → Option (Int × Triestate)) (f : Int → Int → Frame → Pass) (hk : Routed k)
    (hs : ∀ c, c = 13 ∨ c = 10 → switch k c = onWalk (walk c) k (f c))
    (hwalk : walk 13 k.tstate = walk 10 k.tstate) (hlf : ∀ r t, walk 10 k.tstate = some (r, t) → r = -1)
    (hf : ∀ k₁, (∃ n, ∀ c, c = 13 ∨ c = 10 → f c (-1) k₁ = ret n k₁) ∨
      ∃ x, (∀ c, c = 13 ∨ c = 10 → f c (-1) k₁ = reset x k₁ c) ∧ (k₁.s.nl = k.s.nl → Crlf (k₁.shift x))) : Crlf k := by
  have h13 := hs 13 (.inl rfl)
  have h10 := hs 10 (.inr rfl)
  unfold onWalk at h13 h10
  cases hw : walk 10 k.tstate with
  | none =>
    rw [hwalk, hw] at h13
    rw [hw] at h10
    exact crlf_fault h13 h10
  | some y =>
    obtain ⟨r, t⟩ := y
    rw [hwalk, hw] at h13
    rw [hw] at h10
    obtain rfl := hlf r t hw
    obtain ⟨n, hret⟩ | ⟨x, hreset, hx⟩ := hf { k with tstate := t }
    · exact crlf_ret (h13.trans (hret 13 (.inl rfl))) (h10.trans (hret 10 (.inr rfl))) rfl rfl
    · exact crlf_reset hk (h13.trans (hreset 13 (.inl rfl))) (h10.trans (hreset 10 (.inr rfl))) fun _ => hx rfl

theorem crlf_prot (hk : Routed k) (h : k.s.st = hProt) : Crlf k := by
  refine crlf_walk protWalk _ hk (fun c _ => by simp only [switch, h]; rfl) ?_ (fun r t => protWalk_lf) ?_
  · exact walkTrie_control utility_printable (by decide) (by decide)
  · exact fun k₁ => .inl ⟨505, fun c _ => by simp [httpProto]⟩

theorem crlf_version (h : k.s.st = hProtHttpXX) (hnl : k.s.nl ≤ 1) : Crlf k := by
  have hs : ∀ c, switch k c = hProtHttpXXCase k c := fun c => by simp only [switch, h]
  set k₁ : Frame := { k with rq := { k.rq with
    serverProtocol := serverProtocol k.s.httpv0 k.s.httpv1 k.rq.serverProtocol } } with hk₁
  by_cases hv : serverProtocol k.s.httpv0 k.s.httpv1 k.rq.serverProtocol = .unknownVersion
  · exact crlf_ret (by rw [hs, hProtHttpXXCase, if_pos hv]) (by rw [hs, hProtHttpXXCase, if_pos hv]) rfl rfl
  · exact crlf_line k₁ hnl (by rw [hs, hProtHttpXXCase, if_neg hv, if_pos rfl])
      (by rw [hs, hProtHttpXXCase, if_neg hv, if_neg (by decide), if_pos rfl])

/-- **CR LF does what LF does**, but for the content length. -/
theorem crlf_any (hk : Routed k) (hnl : k.s.nl ≤ 1) (hcr : k.s.st ≠ hCr) : Crlf k := by
  have hbad : ∀ k₁ : Frame, Crlf (k₁.shift hErrorBadRequest) := fun k₁ => crlf_error rfl
  have hx : ∀ k₁ : Frame, Routed (k₁.shift hProtHttpX) → Crlf (k₁.shift hProtHttpX) := fun k₁ hr =>
    crlf_reset hr rfl rfl fun _ => hbad _
  cases hst : k.s.st
  case hCr => exact absurd hst hcr
  case hInitial =>
    exact crlf_stay hnl (by simp [switch, hst, hInitialCase]) (by simp [switch, hst, hInitialCase])
      (by simp [switch, hst, hInitialCase])
  case hMethod =>
    refine crlf_walk methodWalk _ hk (fun c _ => by simp only [switch, hst]; rfl) ?_ (fun r t => methodWalk_lf) ?_
    · exact walkTrie_control utility_printable (by decide) (by decide)
    · exact fun k₁ => .inr ⟨hErrorBadRequest, fun c _ => by simp, fun _ => hbad k₁⟩
  case hHeader =>
    refine crlf_walk headerWalk (fun c r k₁ => if r < 0 then reset hSkipline k₁ c
      else if r > 0 then hHeaderMatched r.toNat k₁.clearTrie else brk (markUnlessUnknown k₁)) hk ?_ ?_
      (fun r t => headerWalk_blank (by decide) (by decide)) ?_
    · rintro c (rfl | rfl)
      · simp only [switch, hst]
        rfl
      · simp only [switch, hst]
        rfl
    · exact walkTrie_control headers_printable (by decide) (by decide)
    · exact fun k₁ => .inr ⟨hSkipline, fun c _ => rfl, fun hnl₁ => crlf_skipline rfl (hnl₁ ▸ hnl)⟩
  case hPath => exact crlf_path hk hst
  case hProt => exact crlf_prot hk hst
  case hValueLead => exact crlf_valueLead hk hst hnl
  case hSkipline => exact crlf_skipline hst hnl
  case hHeadFlag => exact crlf_headFlag hk hst hnl
  case hErrorNotImplemented | hErrorBadRequest | hErrorInternalServerError | hNewline | hHeaderUnknown =>
    exact crlf_error (by rw [hst]; rfl)
  case hValue | hHeadContentLength | hHeadConnection | hHeadExpect | hHeadTransferEncoding =>
    exact crlf_isValue hk (by rw [hst]; rfl) hnl
  case hMethodSp =>
    exact crlf_reset hk (by simp only [switch, hst]; rfl) (by simp only [switch, hst]; rfl) fun hr => crlf_path hr rfl
  case hPathSp =>
    exact crlf_reset hk (by simp only [switch, hst]; rfl) (by simp only [switch, hst]; rfl) fun hr => crlf_prot hr rfl
  case hEscaped1 =>
    exact crlf_reset hk (by simp only [switch, hst]; rfl) (by simp only [switch, hst]; rfl) fun _ => hbad k
  case hEscaped2 =>
    exact crlf_reset hk (by simp only [switch, hst]; rfl) (by simp only [switch, hst]; rfl) fun _ => hbad k
  case hQuery =>
    exact crlf_reset hk (by simp only [switch, hst]; rfl) (by simp only [switch, hst]; rfl) fun _ => hbad k
  case hProtSlash =>
    exact crlf_reset hk (by simp only [switch, hst]; rfl) (by simp only [switch, hst]; rfl) fun hr => hx k hr
  case hProtHttpX =>
    exact crlf_reset hk (by simp only [switch, hst]; rfl) (by simp only [switch, hst]; rfl) fun _ => hbad k
  case hProtHttpXDot =>
    exact crlf_reset hk (by simp only [switch, hst]; rfl) (by simp only [switch, hst]; rfl) fun hr =>
      crlf_version rfl hnl
  case hProtHttpXX => exact crlf_version hst hnl
  case hNl =>
    exact crlf_line k.mark hnl (by simp only [switch, hst]; rfl) (by simp only [switch, hst]; rfl)
  case hCont =>
    by_cases hcol : k.s.collect = true
    · have hs : ∀ c, switch k c = reset hValueLead { k with text := minuteTextintReplacec (-1) 32 k.text } c := fun c => by
        simp only [switch, hst, hContCase, if_pos hcol]
      exact crlf_reset hk (hs 13) (hs 10) fun hr => crlf_valueLead hr rfl hnl
    · exact crlf_reset hk (by simp only [switch, hst, hContCase, if_neg hcol])
        (by simp only [switch, hst, hContCase, if_neg hcol]) fun hr => crlf_skipline rfl hnl

end

/-! ## Runs -/

theorem iterate_cr {k k' : Frame} {c : Int} (hk : Routed k) (hs : iterate k c = .next k') (hst : k'.s.st = hCr) :
    c = 13 := by
  have hpass : ∀ (k₁ : Frame) (c₁ : Int), Routed k₁ →
      Pass.All (fun _ c' => c' = 13 → c₁ = 13) (fun k' => k'.s.st = hCr → c₁ = 13) (fun _ _ => True) True
        (switch k₁ c₁) := by
    intro k₁ c₁ hr
    have hlow : toLower c₁ = 13 ↔ c₁ = 13 := toLower_eq (by decide)
    cases hst₁ : k₁.s.st <;> simp only [switch, hst₁]
    case hEscaped2 =>
      have hest : k₁.s.est = hPath ∨ k₁.s.est = hQuery := by
        rw [Routed, hst₁] at hr
        simp only [routed, Bool.and_eq_true, Bool.or_eq_true, beq_iff_eq] at hr
        exact hr.1
      simp only [hEscaped2Case, all_ite, all_reset, all_putcOr, all_brk]
      refine ⟨fun _ h => h, fun _ => ⟨fun _ => trivial, fun t _ h => ?_⟩⟩
      have h : k₁.s.est = hCr := h
      rcases hest with hest | hest <;> rw [hest] at h <;> cases h
    all_goals
      dsimp only [hInitialCase, hMethodCase, hMethodSpCase, hPathCase, hEscaped1Case, hQueryCase, hPathSpCase,
        hProtCase, hProtSlashCase, hProtHttpXCase, hProtHttpXDotCase, hProtHttpXXCase, hCrCase, hNlCase, hHeaderCase,
        hHeaderMatched, hHeadConnectionCase, hHeadExpectCase, hHeadTransferEncodingCase, hHeadFlagInitial,
        hHeadContentLengthCase, hHeadFlagCase, hContCase, hValueLeadCase, hValueCase, hSkiplineCase, hErrorCase]
      simp +contextual [hst₁, hlow]
  have hi := iterate_inv (N := fun k₁ c₁ => Routed k₁ ∧ (c₁ = 13 → c = 13)) (B := fun k₁ => k₁.s.st = hCr → c = 13)
    (R := fun _ _ => True) (F := True)
    (fun k₁ c₁ h₁ => ((switch_routed k₁ c₁ h₁.1).and (hpass k₁ c₁ h₁.1)).imp
      (fun _ _ h => ⟨h.1.1, fun h13 => h₁.2 (h.2 h13)⟩) (fun _ h h' => h₁.2 (h.2 h')) (fun _ _ _ => trivial)
      (fun _ => trivial)) (c := c) ⟨hk, id⟩
  rw [hs] at hi
  obtain ⟨k₁, h₁, -, rfl⟩ := hi
  exact h₁ hst

theorem iterate_nl {k k' : Frame} {c : Int} (hs : iterate k c = .next k') : k'.s.nl ≤ 1 := by
  have hi := iterate_inv (N := fun _ _ => True) (B := fun _ => True) (R := fun _ _ => True) (F := True)
    (fun k₁ c₁ _ => (switch_code k₁ c₁).imp (fun _ _ h => h) (fun _ h => h) (fun _ _ _ => trivial) id)
    (k := k) (c := c) trivial
  rw [hs] at hi
  obtain ⟨k₁, -, hnl, rfl⟩ := hi
  exact hnl

/-- Characters of which some are left out: CRs before an LF. -/
def LfOnly (w : List (Int × Bool)) : Prop :=
  ∀ p x q, w = p ++ x :: q → x.2 = false → x.1 = 13 ∧ q.head? = some (10, true)

instance LfOnly.decidable (w : List (Int × Bool)) : Decidable (LfOnly w) :=
  decidable_of_iff (∀ i < w.length, ∀ x ∈ w[i]?, x.2 = false → x.1 = 13 ∧ (w.drop (i + 1)).head? = some (10, true)) <| by
    constructor
    · rintro h p x q rfl
      have hx := h p.length (by simp) x (by simp)
      rwa [show p ++ x :: q = p ++ [x] ++ q by simp, ← List.length_singleton (a := x), ← List.length_append,
        List.drop_left] at hx
    · intro h i hi x hx
      have hx : w[i]? = some x := hx
      have hsplit : w = w.take i ++ x :: w.drop (i + 1) := by
        rw [← (List.getElem?_eq_some_iff.mp hx).2, ← List.drop_eq_getElem_cons hi, List.take_append_drop]
      exact h _ x _ hsplit

/-- The characters that are not left out. -/
def keptChars (w : List (Int × Bool)) : List Int := (w.filter Prod.snd).map Prod.fst

/-- A step of the run that reads all of them. -/
def readAll (k : Frame) (x : Int × Bool) : Step Frame Halt := iterate k x.1

/-- The numbers that a run takes at CRs that are not left out. -/
def takenKept (k : Frame) : List (Int × Bool) → List Uint
  | [] => []
  | x :: w =>
    (if x.2 = true ∧ Takes k x.1 then [k.s.esc] else []) ++
      match iterate k x.1 with
      | .next k' => takenKept k' w
      | .halt _ => []

/-- What two runs leave, but for the content length. -/
def LeftAlike : Option (Nat × MinuteHttpRq × Textint) → Option (Nat × MinuteHttpRq × Textint) → Prop
  | some (n, rq, text), some (n', rq', text') => n' = n ∧ SameButLength rq rq' ∧ text' = text
  | none, none => True
  | _, _ => False

theorem leftAlike_halt {r r' : Halt} {rest rest' : List Int} (h : Halt.Alike r r') :
    LeftAlike (runLeft (.halt (r, rest))) (runLeft (.halt (r', rest'))) := by
  cases r <;> cases r' <;> try exact h.elim
  case ok => exact ⟨rfl, h.1, h.2⟩
  case ret => exact ⟨h.1, h.2.1, h.2.2⟩
  case fault => trivial
  case spin => trivial

/-- What holds wherever two requests have been read up to. The rest of the first one meets no CR that is left out
in `h_cr`. -/
structure Beside (k k' : Frame) (w : List (Int × Bool)) : Prop where
  routed : Routed k
  nl : k.s.nl ≤ 1
  ends : Paired k k'
  lf : LfOnly w
  apart : Along readAll (fun k x => x.2 = false → k.s.st ≠ hCr) k w

theorem LfOnly.tail {x : Int × Bool} {w : List (Int × Bool)} (h : LfOnly (x :: w)) : LfOnly w := by
  intro p y q hw hy
  exact h (x :: p) y q (by rw [hw]; rfl) hy

theorem Paired.takes {k k' : Frame} (h : Paired k k') (c : Int) : Takes k' c ↔ Takes k c := by
  obtain ⟨-, ha⟩ := h
  have hst : k'.s.st = k.s.st := ha.st
  have hcol : k'.s.collect = k.s.collect := ha.collect rfl
  have hlead : k.s.st = hValueLead → k'.s.est = k.s.est := fun h => ha.est (by
    show k.s.st.keepsEst = true
    rw [h]
    rfl)
  have hcont : k.s.collect = true → k'.s.est = k.s.est := ha.fold rfl
  unfold Takes ReadsLength
  rw [hst, hcol]
  refine and_congr_right fun _ => or_congr_right (or_congr (and_congr_right fun h => ?_)
    (and_congr_right fun _ => and_congr_right fun h => ?_))
  · rw [hlead h]
  · rw [hcont h]

/-- **Two requests read side by side**: but for the content length they leave the same, and the second takes the
numbers at the CRs that are there. -/
theorem feed_ends {k k' : Frame} {w : List (Int × Bool)} (h : Beside k k' w) :
    LeftAlike (runLeft (feed iterate k (w.map Prod.fst))) (runLeft (feed iterate k' (keptChars w))) ∧
      taken k' (keptChars w) = takenKept k w := by
  match w, h with
  | [], h => exact ⟨⟨rfl, h.ends.rq, h.ends.alike.text⟩, rfl⟩
  | (c, true) :: w, h =>
    have hkept : keptChars ((c, true) :: w) = c :: keptChars w := rfl
    have hesc : k'.s.esc = k.s.esc := h.ends.alike.esc
    have htakes : (if (c, true).2 = true ∧ Takes k (c, true).1 then [k.s.esc] else []) =
        if Takes k' c then [k'.s.esc] else [] := by
      by_cases ht : Takes k c
      · rw [if_pos ⟨rfl, ht⟩, if_pos ((h.ends.takes c).mpr ht), hesc]
      · rw [if_neg (fun h' => ht h'.2), if_neg (mt (h.ends.takes c).mp ht)]
    rw [hkept, List.map_cons, taken, takenKept, htakes, feed_cons, feed_cons]
    obtain ⟨x, x', hs, hs', hx⟩ | ⟨r, r', hs, hs', hr⟩ := (iterate_ends c h.routed h.ends).cases
    · rw [hs, hs']
      have hnext : Beside x x' w :=
        ⟨iterate_routed h.routed hs, iterate_nl hs, hx, h.lf.tail, h.apart.next hs⟩
      obtain ⟨hleft, htaken⟩ := feed_ends hnext
      exact ⟨hleft, congrArg _ htaken⟩
    · rw [hs, hs']
      exact ⟨leftAlike_halt hr, rfl⟩
  | (c, false) :: w, h =>
    obtain ⟨hc, hnext⟩ := h.lf [] (c, false) w rfl rfl
    have hc : c = 13 := hc
    subst hc
    obtain ⟨w, rfl⟩ : ∃ w', w = (10, true) :: w' := by
      cases w with
      | nil => cases hnext
      | cons z q => exact ⟨q, by rw [Option.some.inj hnext]⟩
    have hkept : keptChars ((13, false) :: (10, true) :: w) = 10 :: keptChars w := rfl
    have hlf : ∀ k : Frame, ¬Takes k 10 := fun k h => absurd h.1 (by decide)
    have hcrlf : Crlf k := crlf_any h.routed h.nl (h.apart.1 rfl)
    rw [hkept, List.map_cons, List.map_cons, taken, takenKept, if_neg (hlf k'), if_neg (by simp), List.nil_append,
      List.nil_append, feed_cons _ k']
    rw [show (13 : Int) :: 10 :: w.map Prod.fst = [13, 10] ++ w.map Prod.fst from rfl]
    obtain ⟨x, x', hs, hs', hx⟩ | ⟨⟨r, rest⟩, r', hs, hs', hr⟩ := hcrlf.cases
    · obtain ⟨y, y', ht, ht', hy⟩ | ⟨q, q', ht, -, -⟩ := (iterate_ends 10 h.routed h.ends).cases
      · rw [hs'] at ht
        cases ht
        obtain ⟨k₁, hcr, hlast⟩ : ∃ k₁, iterate k 13 = .next k₁ ∧ iterate k₁ 10 = .next x := by
          rw [feed_cons] at hs
          cases hi : iterate k 13 with
          | halt r =>
            rw [hi] at hs
            cases hs
          | next k₁ =>
            rw [hi] at hs
            have hs : feed iterate k₁ [10] = .next x := hs
            rw [feed_cons] at hs
            cases hi' : iterate k₁ 10 <;> rw [hi'] at hs <;> cases hs
            exact ⟨k₁, rfl, hi'⟩
        have hr₁ := iterate_routed h.routed hcr
        have hnext : Beside x y' w :=
          ⟨iterate_routed hr₁ hlast, iterate_nl hlast, hx.trans hy, h.lf.tail.tail, (h.apart.next hcr).next hlast⟩
        obtain ⟨hleft, htaken⟩ := feed_ends hnext
        rw [feed_append_next _ hs, ht', hcr]
        dsimp only
        rw [takenKept, if_neg (by simp [hlf]), List.nil_append, hlast]
        exact ⟨hleft, htaken⟩
      · rw [hs'] at ht
        cases ht
    · obtain ⟨y, y', ht, -, -⟩ | ⟨q, q', ht, ht', hq⟩ := (iterate_ends 10 h.routed h.ends).cases
      · rw [hs'] at ht
        cases ht
      · rw [hs'] at ht
        cases ht
        rw [feed_append_halt _ hs, ht']
        refine ⟨leftAlike_halt (hr.trans hq), ?_⟩
        cases hi : iterate k 13 with
        | halt r => rfl
        | next k₁ =>
          rw [feed_cons_next _ hi, feed_cons] at hs
          dsimp only
          rw [takenKept, if_neg (by simp [hlf]), List.nil_append]
          cases hi' : iterate k₁ 10 with
          | halt r => rfl
          | next k₂ =>
            rw [hi'] at hs
            cases hs

/-- Two sessions over requests of which the second leaves out some CRs before an LF, none of them met in `h_cr`; the
first returns. The second returns with the same code, the same request and the same text buffer exactly if the last
number taken for the content length is the last one taken at a CR that is kept, too. -/
theorem session_ends {rq rq₁ : MinuteHttpRq} {hmask : Uint} {rqs₁ : MinuteHttpRqs} {io io' io₁ : Iobuf}
    {text text₁ : Textint} {fs fs' : List Refill} {e : Bool} {w : List (Int × Bool)} {n : Nat} {k : Frame}
    (hk : startFrame rq (minuteHttpInit hmask io text).1 io (minuteHttpInit hmask io text).2 = k)
    (he : eofAtLast e io fs) (he' : eofAtLast e io' fs') (hw : LfOnly w)
    (hshown : sessionChars io io.read fs e = w.map Prod.fst) (hshown' : sessionChars io' io'.read fs' e = keptChars w)
    (h : readSession rq (minuteHttpInit hmask io text).1 io (minuteHttpInit hmask io text).2 fs =
      .code n rq₁ rqs₁ io₁ text₁)
    (hcr : Along readAll (fun k x => x.2 = false → k.s.st ≠ hCr) k w) :
    (readSession rq (minuteHttpInit hmask io' text).1 io' (minuteHttpInit hmask io' text).2 fs').left =
        some (n, rq₁, text₁) ↔
      lengthAfter rq.length (takenKept k w) = lengthAfter rq.length (taken k (w.map Prod.fst)) := by
  have hr : Routed k := by
    subst hk
    rfl
  have hrq : k.rq = rq := by
    subst hk
    rfl
  have hleft := left_of_code h
  rw [initSession_left rq hmask text he, hshown, hk] at hleft
  have hinit : startFrame rq (minuteHttpInit hmask io text).1 io (minuteHttpInit hmask io text).2 = k := hk
  rw [initSession_left rq hmask text he', hshown',
    feed_alike_left (by rw [hinit]; exact hr) (alike_start rq hmask io io' text), hinit]
  have hbeside : Beside k k w := by
    refine ⟨hr, ?_, .refl k, hw, hcr⟩
    subst hk
    exact Nat.zero_le 1
  obtain ⟨halike, htaken⟩ := feed_ends hbeside
  have hlen := runLeft_length hr hleft
  rw [hleft] at halike
  cases hleft' : runLeft (feed iterate k (keptChars w)) with
  | none =>
    rw [hleft'] at halike
    exact halike.elim
  | some x =>
    obtain ⟨n', rq', text'⟩ := x
    have hlen' := runLeft_length hr hleft'
    rw [hleft'] at halike
    obtain ⟨rfl, hsame, rfl⟩ := halike
    rw [htaken] at hlen'
    rw [Option.some.injEq, Prod.mk.injEq, Prod.mk.injEq, ← hrq, ← hlen, ← hlen']
    constructor
    · rintro ⟨-, heq, -⟩
      exact hsame.eq.mp heq
    · intro heq
      exact ⟨rfl, hsame.eq.mpr heq, rfl⟩

end MinuteHttp
