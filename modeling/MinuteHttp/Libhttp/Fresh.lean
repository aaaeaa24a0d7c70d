import MinuteHttp.Libhttp.Loop
import MinuteHttp.Libhttp.TextStore

/-!
# Nothing is left over from an earlier request

A connection reads all its requests into one text buffer and from one ring. Frames that differ only in the memory
between the two ends of the buffer and in where the ring stands (`Fresh`) run alike (`feed_fresh`), so what is read of a
request is a matter of its bytes alone (`read_fresh`).
-/

namespace MinuteHttp

open HttpRequestState Feed

/-! ## The text buffer -/

/-- The same of all that a caller sees, in buffers of `n` bytes; the memory between the ends may differ. -/
structure Textint.Same (n : Uint) (t t' : Textint) : Prop where
  ok : TextintOk t
  sized : t.size = n
  size : t'.size = t.size
  text : t'.text = t.text
  ints : t'.ints = t.ints
  chars : t'.chars = t.chars
  integers : t'.integers = t.integers

namespace Textint.Same

variable {n : Uint} {t t' : Textint}

theorem ok' (h : t.Same n t') : TextintOk t' := by
  obtain ⟨h₁, h₂, h₃, h₄, h₅⟩ := h.ok
  refine ⟨?_, ?_, ?_, ?_, ?_⟩
  · rwa [h.text]
  · rwa [h.text, h.ints]
  · rwa [h.ints, h.size]
  · rwa [h.ints]
  · rwa [h.size]

theorem putc (h : t.Same n t') (c : Byte) :
    (minuteTextintPutc c t = none ∧ minuteTextintPutc c t' = none) ∨
      ∃ u u', minuteTextintPutc c t = some u ∧ minuteTextintPutc c t' = some u' ∧ u.Same n u' := by
  by_cases hfull : t.text ≥ t.ints
  · exact .inl ⟨if_pos hfull, if_pos (by rwa [h.text, h.ints])⟩
  · have hu : minuteTextintPutc c t = some _ := if_neg hfull
    have hu' : minuteTextintPutc c t' = some _ := if_neg (by rwa [h.text, h.ints])
    obtain ⟨hok, hchars, hints⟩ := putc_spec h.ok hu
    obtain ⟨-, hchars', hints'⟩ := putc_spec h.ok' hu'
    refine .inr ⟨_, _, hu, hu', hok, h.sized, h.size, ?_, h.ints, ?_, ?_⟩
    · exact congrArg (· + 1) h.text
    · rw [hchars', hchars, h.chars]
    · rw [hints', hints, h.integers]

theorem puti (h : t.Same n t') (i : Uint) :
    (minuteTextintPuti i t = none ∧ minuteTextintPuti i t' = none) ∨
      ∃ u u', minuteTextintPuti i t = some u ∧ minuteTextintPuti i t' = some u' ∧ u.Same n u' := by
  have hput : ∀ t : Textint, ¬t.text ≥ t.ints - 4 → ∃ u, minuteTextintPuti i t = some u ∧ u.size = t.size ∧
      u.text = t.text ∧ u.ints = t.ints - 4 := by
    intro t hroom
    unfold minuteTextintPuti
    rw [if_neg hroom]
    exact ⟨_, rfl, rfl, rfl, rfl⟩
  by_cases hfull : t.text ≥ t.ints - 4
  · left
    unfold minuteTextintPuti
    rw [h.text, h.ints, if_pos hfull, if_pos hfull]
    exact ⟨rfl, rfl⟩
  · obtain ⟨u, hu, hsize, htext, hints⟩ := hput t hfull
    obtain ⟨u', hu', hsize', htext', hints'⟩ := hput t' (by rwa [h.text, h.ints])
    obtain ⟨hok, hchars, hadded⟩ := puti_spec h.ok hu
    obtain ⟨-, hchars', hadded'⟩ := puti_spec h.ok' hu'
    refine .inr ⟨u, u', hu, hu', hok, hsize.trans h.sized, ?_, ?_, ?_, ?_, ?_⟩
    · rw [hsize', hsize, h.size]
    · rw [htext', htext, h.text]
    · rw [hints', hints, h.ints]
    · rw [hchars', hchars, h.chars]
    · rw [hadded', hadded, h.integers]

theorem replacec (h : t.Same n t') (c : Byte) :
    (minuteTextintReplacec (-1) c t).Same n (minuteTextintReplacec (-1) c t') := by
  obtain ⟨hok, hchars, hints⟩ := replacec_spec c h.ok
  obtain ⟨-, hchars', hints'⟩ := replacec_spec c h.ok'
  have hends : ∀ t : Textint, TextintOk t → (minuteTextintReplacec (-1) c t).size = t.size ∧
      (minuteTextintReplacec (-1) c t).text = t.text ∧ (minuteTextintReplacec (-1) c t).ints = t.ints := by
    intro t ht
    rw [replacec_eq c ht.text_pos]
    exact ⟨rfl, rfl, rfl⟩
  obtain ⟨hsize, htext, hend⟩ := hends t h.ok
  obtain ⟨hsize', htext', hend'⟩ := hends t' h.ok'
  refine ⟨hok, hsize.trans h.sized, ?_, ?_, ?_, ?_, ?_⟩
  · rw [hsize', hsize, h.size]
  · rw [htext', htext, h.text]
  · rw [hend', hend, h.ints]
  · rw [hchars', hchars, h.chars]
  · rw [hints', hints, h.integers]

end Textint.Same

/-! ## Frames -/

/-- The frames differ in the memory that is not in use, and the second ring stands `d` further on. -/
structure Fresh (n d : Uint) (k k' : Frame) : Prop where
  rq : k'.rq = k.rq
  s : k'.s = { k.s with m := k.s.m + d }
  text : k.text.Same n k'.text
  tstate : k'.tstate = k.tstate
  flag : k'.patinitialFlag = k.patinitialFlag
  b : k'.b = k.b + d

section

variable {n : Uint} {N : Frame → Frame → Int → Prop} {B : Frame → Frame → Prop}
  {R : Nat → Frame → Frame → Prop} {code : Nat} {k k' : Frame} {f f' : Frame → Pass}

theorem sim_putcOr_same {c : Byte} (h : k.text.Same n k'.text) (hnone : R code k k')
    (hsome : ∀ t t', t.Same n t' → Pass.Sim N B R (f { k with text := t }) (f' { k' with text := t' })) :
    Pass.Sim N B R (putcOr code c k f) (putcOr code c k' f') := by
  unfold putcOr
  obtain ⟨hu, hu'⟩ | ⟨u, u', hu, hu', hsame⟩ := h.putc c
  · rw [hu, hu']
    exact ⟨rfl, hnone⟩
  · rw [hu, hu']
    exact hsome u u' hsame

theorem sim_putiOr_same {i i' : Uint} (hi : i' = i) (h : k.text.Same n k'.text) (hnone : R code k k')
    (hsome : ∀ t t', t.Same n t' → Pass.Sim N B R (f { k with text := t }) (f' { k' with text := t' })) :
    Pass.Sim N B R (putiOr code i k f) (putiOr code i' k' f') := by
  subst hi
  unfold putiOr
  obtain ⟨hu, hu'⟩ | ⟨u, u', hu, hu', hsame⟩ := h.puti i'
  · rw [hu, hu']
    exact ⟨rfl, hnone⟩
  · rw [hu, hu']
    exact hsome u u' hsame

end

theorem fresh_iff {n d : Uint} {k k' : Frame} : Fresh n d k k' ↔ ∃ t, k.text.Same n t ∧
    k' = { k with s := { k.s with m := k.s.m + d }, text := t, b := k.b + d } := by
  constructor
  · rintro ⟨hrq, hs, htext, htstate, hflag, hb⟩
    refine ⟨k'.text, htext, ?_⟩
    obtain ⟨rq, s, text, b, tstate, flag⟩ := k'
    dsimp only at hrq hs htstate hflag hb ⊢
    rw [hs, hrq, htstate, hflag, hb]
  · rintro ⟨t, htext, rfl⟩
    exact ⟨rfl, rfl, htext, rfl, rfl, rfl⟩

theorem fresh_mk_iff {n d : Uint} {rq : MinuteHttpRq} {col : Bool} {v0 v1 m esc hmask b : Uint} {tries ts : Triestate}
    {st est : HttpRequestState} {nl : Nat} {t t' : Textint} {p : Option Patricia} :
    Fresh n d ⟨rq, ⟨col, v0, v1, tries, m, esc, st, est, nl, hmask⟩, t, b, ts, p⟩
      ⟨rq, ⟨col, v0, v1, tries, m + d, esc, st, est, nl, hmask⟩, t', b + d, ts, p⟩ ↔ t.Same n t' :=
  ⟨fun h => h.text, fun h => ⟨rfl, rfl, h, rfl, rfl, rfl⟩⟩

theorem Fresh.unless {n d : Uint} {k k' : Frame} (h : Fresh n d k k') :
    Fresh n d (markUnlessUnknown k) (markUnlessUnknown k') := by
  obtain ⟨t, htext, rfl⟩ := fresh_iff.mp h
  unfold markUnlessUnknown
  split
  · exact ⟨rfl, rfl, htext, rfl, rfl, rfl⟩
  · exact h

theorem switch_fresh {n d : Uint} {k k' : Frame} {c : Int} (h : Fresh n d k k') :
    Pass.Sim (fun k₁ k₁' _ => Fresh n d k₁ k₁') (Fresh n d) (fun _ => Fresh n d) (switch k c) (switch k' c) := by
  obtain ⟨t', htext, rfl⟩ := fresh_iff.mp h
  obtain ⟨rq, ⟨col, v0, v1, tries, m, esc, st, est, nl, hmask⟩, t, b, ts, p⟩ := k
  dsimp only at htext
  have hpos := htext.text
  cases st <;> simp only [switch]
  case hPath =>
    simp only [hPathCase, sim_ite, sim_brk, sim_reset]
    refine ⟨fun _ => ?_, fun _ => ⟨fun _ => ?_, fun _ => ⟨fun _ => ?_, fun _ => ⟨fun _ => ?_, fun _ => ?_⟩⟩⟩⟩
    · refine sim_putcOr_same htext h fun u u' hu => ?_
      simp [Frame.mark, fresh_mk_iff, hu]
    · simp [Frame.setEst, Frame.shift, Frame.mark, fresh_mk_iff, htext]
    · refine sim_putcOr_same htext h fun u u' hu => ?_
      simp [Frame.mark, Frame.shift, fresh_mk_iff, hu.text, hu]
    · refine sim_putcOr_same htext h fun u u' hu => ?_
      simp [Frame.mark, Frame.shift, fresh_mk_iff, hu]
    · simp [Frame.shift, fresh_mk_iff, htext]
  case hQuery =>
    simp only [hQueryCase, sim_ite, sim_brk, sim_reset]
    refine ⟨fun _ => ?_, fun _ => ⟨fun _ => ?_, fun _ => ⟨fun _ => ?_, fun _ => ?_⟩⟩⟩
    · refine sim_putcOr_same htext h fun u u' hu => ?_
      simp [Frame.mark, fresh_mk_iff, hu]
    · simp [Frame.setEst, Frame.shift, Frame.mark, fresh_mk_iff, htext]
    · refine sim_putcOr_same htext h fun u u' hu => ?_
      simp [Frame.mark, Frame.shift, fresh_mk_iff, hu]
    · simp [Frame.shift, fresh_mk_iff, htext]
  case hEscaped2 =>
    simp only [hEscaped2Case, sim_ite, sim_reset]
    refine ⟨fun _ => ?_, fun _ => ?_⟩
    · simp [Frame.shift, fresh_mk_iff, htext]
    · refine sim_putcOr_same htext h fun u u' hu => ?_
      simp [Frame.shift, fresh_mk_iff, hu]
  case hValue =>
    simp only [hValueCase, sim_ite]
    refine ⟨fun _ => ?_, fun _ => ⟨fun _ => ?_, fun _ => ⟨fun _ => ?_, fun _ => ⟨fun _ => ?_, fun _ => ?_⟩⟩⟩⟩
    all_goals
      refine sim_putcOr_same htext ?_ fun u u' hu => ?_
      · simp [Frame.mark, Frame.shift, Frame.setNl, fresh_mk_iff, htext]
      · simp [Frame.mark, Frame.shift, Frame.setNl, Frame.setEst, fresh_mk_iff, hu]
  case hCont =>
    simp only [hContCase, sim_ite, sim_reset]
    refine ⟨fun _ => ?_, fun _ => ?_⟩
    · simp [Frame.shift, fresh_mk_iff, htext.replacec]
    · simp [Frame.shift, fresh_mk_iff, htext]
  case hHeader =>
    unfold hHeaderCase
    refine (sim_onWalk (by rfl)).mpr fun r ts' hw => ?_
    simp only [sim_ite, sim_reset, sim_brk]
    refine ⟨fun _ => ?_, fun _ => ⟨fun _ => ?_, fun _ => ?_⟩⟩
    · simp [Frame.shift, fresh_mk_iff, htext]
    · unfold hHeaderMatched
      simp only [Frame.clearTrie, sim_ite, sim_brk]
      have hunread (st' est' : HttpRequestState) (esc' : Uint) :
          Fresh n d ⟨rq, ⟨col, v0, v1, tries, m, esc', st', est', nl, hmask⟩, t, b, ⟨0, 0⟩, p⟩
            ⟨rq, ⟨col, v0, v1, tries, m + d, esc', st', est', nl, hmask⟩, t', b + d, ⟨0, 0⟩, p⟩ :=
        fresh_mk_iff.mpr htext
      refine ⟨fun _ => (hunread ..).unless, fun _ => ⟨fun _ => (hunread ..).unless, fun _ =>
        ⟨fun _ => (hunread ..).unless, fun _ => ⟨fun _ => (hunread ..).unless, fun _ => ?_⟩⟩⟩⟩
      refine (sim_ite _ _ _ _ _).mpr ⟨fun _ => ?_, fun _ => ?_⟩
      · refine sim_putiOr_same rfl htext (hunread ..) fun u u' hu => ?_
        refine sim_putiOr_same hu.text hu (fresh_mk_iff.mpr hu) fun w w' hw => ?_
        apply Fresh.unless
        exact fresh_mk_iff.mpr hw
      · apply Fresh.unless
        exact fresh_mk_iff.mpr htext
    · apply Fresh.unless
      simp [fresh_mk_iff, htext]
  all_goals
    dsimp only [hInitialCase, hMethodCase, hMethodSpCase, hEscaped1Case, hPathSpCase, hProtCase, hProtSlashCase,
      hProtHttpXCase, hProtHttpXDotCase, hProtHttpXXCase, hCrCase, hNlCase, hHeadConnectionCase, hHeadExpectCase,
      hHeadTransferEncodingCase, hHeadFlagInitial, hHeadFlagCase, hHeadContentLengthCase, hValueLeadCase, hSkiplineCase,
      hErrorCase]
    simp [fresh_mk_iff, Frame.shift, Frame.mark, Frame.setNl, Frame.clearTrie, htext, hpos]

theorem Fresh.advance {n d : Uint} {k k' : Frame} (h : Fresh n d k k') : Fresh n d k.advance k'.advance := by
  obtain ⟨t, htext, rfl⟩ := fresh_iff.mp h
  refine ⟨rfl, ?_, htext, rfl, rfl, rfl⟩
  show { k.s with m := k.s.m + d + 1 } = { k.s with m := k.s.m + 1 + d }
  rw [BitVec.add_assoc, BitVec.add_comm d, ← BitVec.add_assoc]

/-! ## Runs -/

theorem iterate_fresh {n d : Uint} {k k' : Frame} (c : Int) (h : Fresh n d k k') :
    (iterate k c).Rel (Fresh n d) (Halt.Sim (Fresh n d) fun _ => Fresh n d) (iterate k' c) := by
  have hi := iterate_sim (fun _ _ _ h => switch_fresh h) (fun k k' h => by rw [h.s]) h (c := c)
  obtain ⟨x, x', hs, hs', k₁, k₁', h₁, rfl, rfl⟩ | ⟨r, r', hs, hs', hr⟩ := hi.cases
  · rw [hs, hs']
    exact h₁.advance
  · rw [hs, hs']
    exact hr

/-- **Runs on the same characters** stop at the same place with the same result. -/
theorem feed_fresh {n d : Uint} {k k' : Frame} (cs : List Int) (h : Fresh n d k k') :
    (feed iterate k cs).Rel (Fresh n d) (fun r r' => Halt.Sim (Fresh n d) (fun _ => Fresh n d) r.1 r'.1 ∧ r.2 = r'.2)
      (feed iterate k' cs) :=
  feed_rel (Fresh n d) _ h fun _ c _ _ _ _ _ _ hr => iterate_fresh c hr

theorem init_same (hmask : Uint) (io io' : Iobuf) {text text' : Textint} (hsize : text'.size = text.size)
    (hpos : 1 ≤ text.size.toNat) (hdvd : 4 ∣ text.size.toNat) :
    (minuteHttpInit hmask io text).2.Same text.size (minuteHttpInit hmask io' text').2 := by
  have hnone (t : Textint) : (minuteHttpInit hmask io t).2.integers = [] := by
    apply List.eq_nil_of_length_eq_zero
    rw [length_integers]
    show ((t.size - t.size) / 4).toNat = 0
    rw [BitVec.sub_self]
    rfl
  have hnul (t : Textint) : (minuteHttpInit hmask io t).2.chars = [0] := Block.slice_blit t.data 0 [0]
  refine ⟨⟨?_, hpos, Nat.le_refl _, hdvd, hdvd⟩, rfl, hsize, rfl, hsize, ?_, ?_⟩
  · exact Nat.le_refl 1
  · exact (hnul text').trans (hnul text).symm
  · exact (hnone text').trans (hnone text).symm

/-- The parser begins with a request afresh. -/
theorem fresh_start (rq : MinuteHttpRq) (hmask : Uint) (io io' : Iobuf) {text text' : Textint}
    (hsize : text'.size = text.size) (hpos : 1 ≤ text.size.toNat) (hdvd : 4 ∣ text.size.toNat) :
    Fresh text.size (io'.read - io.read)
      (startFrame rq (minuteHttpInit hmask io text).1 io (minuteHttpInit hmask io text).2)
      (startFrame rq (minuteHttpInit hmask io' text').1 io' (minuteHttpInit hmask io' text').2) := by
  have hread : io'.read = io.read + (io'.read - io.read) := by
    rw [BitVec.add_comm, BitVec.sub_add_cancel]
  have hs : minuteHttpRqsInit hmask io' = { minuteHttpRqsInit hmask io with m := io.read + (io'.read - io.read) } := by
    rw [← hread]
    rfl
  exact ⟨rfl, hs, init_same hmask io io' hsize hpos hdvd, rfl, rfl, hread⟩

/-- The same answer, and as many bytes read. -/
inductive SameAnswer (size : Uint) (io io' : Iobuf) : ReadResult → ReadResult → Prop where
  | code {n : Nat} {rq : MinuteHttpRq} {rqs rqs' : MinuteHttpRqs} {o o' : Iobuf} {t t' : Textint}
    (htext : t.Same size t') (hread : o'.read - io'.read = o.read - io.read) :
    SameAnswer size io io' (.code n rq rqs o t) (.code n rq rqs' o' t')
  | fault : SameAnswer size io io' .fault .fault
  | spin : SameAnswer size io io' .spin .spin

theorem answer_code {size : Uint} {io io' o o' : Iobuf} {n : Nat} {rq rq' : MinuteHttpRq}
    {rqs rqs' : MinuteHttpRqs} {t t' : Textint} (hrq : rq' = rq) (htext : t.Same size t')
    (hread : o'.read - io'.read = o.read - io.read) :
    SameAnswer size io io' (.code n rq rqs o t) (.code n rq' rqs' o' t') := by
  rw [hrq]
  exact .code htext hread

/-- **What is read of a request is a matter of its bytes**, of the flagged end of file and of the size of the text
buffer: neither of what earlier requests have left in the buffer, nor of where the ring stands. -/
theorem read_fresh (rq : MinuteHttpRq) (hmask : Uint) {io io' : Iobuf} {text text' : Textint}
    (hsize : text'.size = text.size) (hpos : 1 ≤ text.size.toNat) (hdvd : 4 ∣ text.size.toNat)
    (hbytes : io'.readable io'.read = io.readable io.read) :
    SameAnswer text.size io io' (minuteHttpRead rq (minuteHttpInit hmask io text).1 io (minuteHttpInit hmask io text).2)
      (minuteHttpRead rq (minuteHttpInit hmask io' text').1 io' (minuteHttpInit hmask io' text').2) := by
  have hstart := fresh_start rq hmask io io' hsize hpos hdvd
  have hm : (minuteHttpInit hmask io text).1.m = io.read := rfl
  have hm' : (minuteHttpInit hmask io' text').1.m = io'.read := rfl
  have hon (x : Uint) : x + (io'.read - io.read) - io'.read = x - io.read := by bv_omega
  rw [minuteHttpRead_readable, minuteHttpRead_readable, hm, hm', hbytes]
  have hrun := feed_fresh (io.readable io.read) hstart
  obtain ⟨k, k', hk, hk', h⟩ | ⟨⟨r, rest⟩, ⟨r', rest'⟩, hk, hk', h, -⟩ := hrun.cases
  · rw [hk, hk']
    obtain ⟨t, htext, rfl⟩ := fresh_iff.mp h
    exact .code htext (hon k.b)
  · rw [hk, hk']
    cases r <;> cases r' <;> try exact h.elim
    case ok.ok =>
      obtain ⟨k₁, k₁', h₁, rfl, rfl⟩ := h
      refine answer_code h₁.rq h₁.text ?_
      rw [h₁.advance.s]
      exact hon k₁.advance.s.m
    case ret.ret =>
      obtain ⟨rfl, h⟩ := h
      refine answer_code h.rq h.text ?_
      rw [BitVec.sub_self, BitVec.sub_self]
    case fault.fault => exact .fault
    case spin.spin => exact .spin

/-- The second ring stands just below `2 ^ 32`, and the second buffer is full of `M`s. -/
theorem read_fresh_wrapped :
    let line := bytes "GET / HTTP/1.1\n\n"
    let io := Iobuf.holding 16 line
    let io' : Iobuf := { io with read := -3, write := 13, data := fun i => line.getD ((i + 3) % 16) 0 }
    let text := minuteTextintInit 64 fun _ => 0
    let text' : Textint := { text with text := 60, data := fun _ => 77 }
    SameAnswer text.size io io' (minuteHttpRead .zero (minuteHttpInit 0 io text).1 io (minuteHttpInit 0 io text).2)
      (minuteHttpRead .zero (minuteHttpInit 0 io' text').1 io' (minuteHttpInit 0 io' text').2) := by
  intro line io io' text text'
  exact read_fresh .zero 0 rfl (by decide) (by decide) (by decide +kernel)

end MinuteHttp
