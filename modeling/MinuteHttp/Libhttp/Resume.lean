import MinuteHttp.Libhttp.Loop

/-!
# A suspended request parser resumes where it stopped

`minute_http_read` keeps its locals on the stack and saves only part of them when it returns
`EAGAIN`: the initial node of the flag trie is lost, and `s.tries` is only written back there. A frame
that differs from another in just these two (`Relocal`) behaves alike (`iterate_relocal`), because a
flag value that is being read has a cursor inside the trie (`iterate_flagPoff`), and then the initial
node is not looked at. Hence every way of making the bytes visible in pieces gives what one call on
all of them gives (`read_in_pieces`).
-/

namespace MinuteHttp

open HttpRequestState Feed

/-! ## A flag value that is being read is inside the trie -/

theorem enterChild_poff {c : Int} {o : Nat} {tree : List Patricia} {p : Patricia}
    {t t' : Triestate} {r : Int} (h : enterChild c o tree p t = some (r, t')) :
    (r = 0 ∧ t'.poff = 1) ∨ (r = -1 ∧ t' = t) := by
  simp only [enterChild, Option.bind_eq_bind, Option.bind_eq_some_iff] at h
  obtain ⟨q, -, hq⟩ := h
  split at hq
  · left; simp_all; simp [← hq.2]
  · right; simp_all

theorem walkTrie_poff {c : Int} {o : Nat} {tree : List Patricia} {i : Option Patricia}
    {t t' : Triestate} {r : Int} (h : walkTrie c o tree i t = some (r, t')) (hr : 0 ≤ r) :
    t'.poff ≠ 0 := by
  unfold walkTrie at h
  split at h
  · rename_i hpoff
    simp only [Option.bind_eq_bind, Option.bind_eq_some_iff] at h
    obtain ⟨p, -, x, -, h⟩ := h
    split at h
    · simp_all
    split at h
    · rcases enterChild_poff h with ⟨-, h⟩ | ⟨h, -⟩ <;> omega
    split at h
    · simp only [Option.some.injEq, Prod.mk.injEq] at h
      simp [← h.2]
    · simp only [Option.some.injEq, Prod.mk.injEq] at h
      omega
  · simp only [Option.bind_eq_bind, Option.bind_eq_some_iff] at h
    obtain ⟨p, -, h⟩ := h
    rcases enterChild_poff h with ⟨-, h⟩ | ⟨h, -⟩ <;> omega

theorem walkTrie_initial {c : Int} {o : Nat} {tree : List Patricia} (i i' : Option Patricia)
    {t : Triestate} (h : t.poff ≠ 0) : walkTrie c o tree i t = walkTrie c o tree i' t := by
  unfold walkTrie
  rw [if_pos h, if_pos h]

/-- The states that choose the initial node of the flag trie. -/
def HttpRequestState.choosesFlag : HttpRequestState → Bool
  | hHeadConnection | hHeadExpect | hHeadTransferEncoding => true
  | _ => false

/-- Between two turns a flag value being read is inside the trie. -/
def FlagInside (k : Frame) : Prop := k.s.st = hHeadFlag → k.tstate.poff ≠ 0

/-- `h_head_flag` is entered from the states that choose the initial node, and left waiting for more
only inside the trie. No `return` inside the `switch` looks like a success or like a suspension. -/
theorem switch_flagInside (k : Frame) (c : Int) (h : Routed k) :
    Pass.All (fun k' _ => k'.s.st = hHeadFlag → k.s.st.choosesFlag = true) FlagInside
      (fun n _ => n ≠ 0 ∧ n ≠ eagain) True (switch k c) := by
  cases hst : k.s.st <;> simp only [switch, hst]
  case hEscaped2 =>
    -- `shift(s.est)`
    have hest : k.s.est ≠ hHeadFlag := by
      intro he
      simp [Routed, hst, he, routed] at h
    simp [hEscaped2Case, FlagInside, hest, eagain]
  case hValueLead =>
    -- `reset (s.est)`
    have hest : k.s.est ≠ hHeadFlag := by
      intro he
      simp [Routed, hst, he, routed, isValue] at h
    simp [hValueLeadCase, FlagInside, hest, hst]
  case hHeadFlag =>
    simp only [hHeadFlagCase, all_onWalk, all_ite, all_reset, all_brk]
    refine ⟨fun _ => trivial, fun r t hw => ⟨fun _ => by simp, fun hr => ⟨fun _ => by simp, fun _ _ => ?_⟩⟩⟩
    exact walkTrie_poff hw (by omega)
  all_goals
    dsimp only [hInitialCase, hMethodCase, hMethodSpCase, hPathCase, hEscaped1Case, hQueryCase,
      hPathSpCase, hProtCase, hProtSlashCase, hProtHttpXCase, hProtHttpXDotCase, hProtHttpXXCase,
      hCrCase, hNlCase, hHeaderCase, hHeaderMatched, hHeadConnectionCase, hHeadExpectCase,
      hHeadTransferEncodingCase, hHeadFlagInitial, hHeadContentLengthCase, hContCase,
      hValueCase, hSkiplineCase, hErrorCase]
    simp [FlagInside, hst, eagain, choosesFlag]

theorem iterate_flagInside {k : Frame} {c : Int} (hk : Routed k) :
    (∀ k', iterate k c = .next k' → FlagInside k') ∧
    (∀ n k', iterate k c = .halt (.ret n k') → n ≠ 0 ∧ n ≠ eagain) := by
  have hi := iterate_inv (N := fun k' _ => Routed k') (B := FlagInside)
    (R := fun n _ => n ≠ 0 ∧ n ≠ eagain) (F := True) (fun k₁ c₁ h₁ => ?_) (c := c) hk
  · refine ⟨fun k' h => ?_, fun n k' h => ?_⟩
    · rw [h] at hi
      obtain ⟨k₁, h₁, -, rfl⟩ := hi
      exact h₁
    · rw [h] at hi
      exact hi
  · exact ((switch_routed k₁ c₁ h₁).and (switch_flagInside k₁ c₁ h₁)).imp (fun _ _ h => h.1.1)
      (fun _ h => h.2) (fun _ _ h => h.2) fun _ => trivial

theorem read_ok {rq rq' : MinuteHttpRq} {rqs rqs' : MinuteHttpRqs} {io io' : Iobuf}
    {text text' : Textint} (hk : Routed (startFrame rq rqs io text))
    (h : minuteHttpRead rq rqs io text = .code 0 rq' rqs' io' text') :
    ∃ k rest, feed iterate (startFrame rq rqs io text) (io.readable rqs.m) = .halt (.ok k, rest) ∧
      rq' = k.rq ∧ rqs' = k.s ∧ io' = { io with read := k.s.m } ∧ text' = k.text := by
  rw [minuteHttpRead_readable] at h
  cases hf : feed iterate (startFrame rq rqs io text) (io.readable rqs.m) with
  | next k =>
    rw [hf] at h
    simp [outcome, suspend, eagain] at h
  | halt r =>
    obtain ⟨r, rest⟩ := r
    rw [hf] at h
    cases r with
    | ok k =>
      simp only [outcome, finish, ReadResult.code.injEq, true_and] at h
      obtain ⟨rfl, rfl, rfl, rfl⟩ := h
      exact ⟨k, rest, rfl, rfl, rfl, rfl, rfl⟩
    | ret n k =>
      -- no `return` inside the `switch` has the value 0
      simp only [outcome, finish, ReadResult.code.injEq] at h
      obtain ⟨p, c, k', -, hp, hc⟩ := feed_halt hf
      exact absurd h.1 ((iterate_flagInside (feed_routed hk hp)).2 _ _ hc).1
    | fault => simp [outcome, finish] at h
    | spin => simp [outcome, finish] at h

/-- The parser's saved state makes sense. -/
def MinuteHttpRqs.Routed (rqs : MinuteHttpRqs) : Prop := routed rqs.st rqs.est rqs.collect = true

theorem startFrame_routed {rqs : MinuteHttpRqs} (h : rqs.Routed) (rq : MinuteHttpRq) (io : Iobuf)
    (text : Textint) : MinuteHttp.Routed (startFrame rq rqs io text) := h

theorem minuteHttpRead_routed {rq rq' : MinuteHttpRq} {rqs rqs' : MinuteHttpRqs} {io io' : Iobuf}
    {text text' : Textint} {n : Nat} (hk : rqs.Routed)
    (hread : minuteHttpRead rq rqs io text = .code n rq' rqs' io' text') : rqs'.Routed := by
  rw [minuteHttpRead_readable] at hread
  cases hf : feed iterate (startFrame rq rqs io text) (io.readable rqs.m) with
  | next k =>
    rw [hf] at hread
    cases hread
    exact feed_routed (startFrame_routed hk rq io text) hf
  | halt r =>
    obtain ⟨r, rest⟩ := r
    rw [hf] at hread
    cases r with
    | fault => cases hread
    | spin => cases hread
    | ret n k =>
      cases hread
      exact hk
    | ok k =>
      cases hread
      obtain ⟨p, c, k₁, -, hp, hc⟩ := feed_halt hf
      have hi := iterate_inv (fun k₁ c₁ h₁ => (switch_routed k₁ c₁ h₁).imp (fun _ _ h => h.1)
        (fun _ h => h) (fun _ _ h => h) id) (c := c) (feed_routed (startFrame_routed hk rq io text) hp)
      rw [hc] at hi
      obtain ⟨k₂, h₂, -, rfl⟩ := hi
      exact h₂

/-- The bytes between the read indices before and after a call. -/
def Iobuf.taken (io io' : Iobuf) : List Byte :=
  (io.from io.read).take (io'.read - io.read).toNat

theorem chars_taken {k k' : Frame} {io : Iobuf} {rest : List Int} (hm : k.s.m = io.read)
    (hf : feed iterate k (chars (io.from io.read)) = .halt (.ok k', rest)) :
    ∃ p c k₁, chars (io.from io.read) = p ++ c :: rest ∧ feed iterate k p = .next k₁ ∧
      iterate k₁ c = .halt (.ok k') ∧ chars (io.taken { io with read := k'.s.m }) = p ++ [c] := by
  obtain ⟨p, c, k₁, hw, hp, hc⟩ := feed_halt hf
  refine ⟨p, c, k₁, hw, hp, hc, ?_⟩
  have hlen : p.length + 1 ≤ (io.write - io.read).toNat := by
    have := congrArg List.length hw
    simp only [chars, List.length_map, Iobuf.from, Iobuf.length_window, List.length_append,
      List.length_cons] at this
    omega
  have hm' : (k'.s.m - io.read).toNat = p.length + 1 := by
    rw [iterate_ok_m hc, (feed_m hp).1, hm]
    have := (io.write - io.read).isLt
    have h₁ : io.read + BitVec.ofNat 32 p.length + 1 - io.read = BitVec.ofNat 32 (p.length + 1) := by
      rw [BitVec.ofNat_add]
      bv_omega
    rw [h₁, BitVec.toNat_ofNat, Nat.mod_eq_of_lt (by omega)]
  simp only [Iobuf.taken, chars, hm', List.map_take]
  rw [chars] at hw
  rw [hw, List.take_append, List.take_of_length_le (by omega)]
  simp

/-! ## The two locals that are lost -/

/-- `k` with other values in the two places that a suspension does not keep. -/
def Frame.relocal (t : Triestate) (p : Option Patricia) (k : Frame) : Frame :=
  { k with s := { k.s with tries := t }, patinitialFlag := p }

/-- Outside the states of the flag values, the two places are not looked at. -/
theorem switch_relocal_of (t : Triestate) (p : Option Patricia) (k : Frame) (c : Int)
    (h₁ : k.s.st ≠ hHeadFlag) (h₂ : k.s.st.choosesFlag = false) :
    Pass.Sim (fun k k' _ => k' = k.relocal t p) (fun k k' => k' = k.relocal t p)
      (fun _ k k' => k' = k.relocal t p) (switch k c) (switch (k.relocal t p) c) := by
  cases hst : k.s.st <;> simp only [switch, hst, Frame.relocal]
  case hHeadFlag => exact absurd hst h₁
  case hHeadConnection | hHeadExpect | hHeadTransferEncoding => simp [hst, choosesFlag] at h₂
  all_goals
    dsimp only [hInitialCase, hMethodCase, hMethodSpCase, hPathCase, hEscaped1Case, hEscaped2Case,
      hQueryCase, hPathSpCase, hProtCase, hProtSlashCase, hProtHttpXCase, hProtHttpXDotCase,
      hProtHttpXXCase, hCrCase, hNlCase, hHeaderCase, hHeaderMatched, hHeadContentLengthCase,
      hContCase, hValueLeadCase, hValueCase, hSkiplineCase, hErrorCase]
    simp [Frame.shift, Frame.mark, Frame.setNl, Frame.setEst, Frame.clearTrie,
      markUnlessUnknown_eq, hst]

/-- The frames differ in nothing that is looked at again once the pass is over. -/
def Relocated (k k' : Frame) : Prop := ∃ t p, k' = k.relocal t p

/-- The frames differ in nothing that the next pass looks at. -/
def Relocal (k k' : Frame) : Prop :=
  ∃ t p, k' = k.relocal t p ∧ (k.s.st = hHeadFlag → k.tstate.poff ≠ 0 ∨ p = k.patinitialFlag)

theorem switch_relocal (k k' : Frame) (c : Int) (hk : Routed k) (h : Relocal k k') :
    Pass.Sim (fun k k' _ => Relocal k k') Relocated (fun _ => Relocated) (switch k c)
      (switch k' c) := by
  obtain ⟨t, p, rfl, hflag⟩ := h
  by_cases h₁ : k.s.st = hHeadFlag
  · -- the walks agree: inside the trie they do not look at the initial node
    have hw : ∀ c, flagWalk p c k.tstate = flagWalk k.patinitialFlag c k.tstate := by
      intro c
      rcases hflag h₁ with h | rfl
      · exact walkTrie_initial _ _ h
      · rfl
    have hs : switch k c = hHeadFlagCase k c := by simp only [switch, h₁]
    have hs' : switch (k.relocal t p) c = hHeadFlagCase (k.relocal t p) c := by
      have h₁' : (k.relocal t p).s.st = hHeadFlag := h₁
      simp only [switch, h₁']
    rw [hs, hs', hHeadFlagCase, hHeadFlagCase, sim_onWalk (by exact hw _)]
    intro r t' _
    simp only [sim_ite, sim_reset, sim_brk]
    exact ⟨fun _ => ⟨t, p, rfl, by simp⟩, fun _ => ⟨fun _ => ⟨t, p, rfl, by simp⟩, fun _ => ⟨t, p, rfl⟩⟩⟩
  cases h₂ : k.s.st.choosesFlag
  · refine ((switch_relocal_of t p k c h₁ h₂).and_all (switch_flagInside k c hk)).imp ?_ ?_ ?_
    · rintro k₁ k₁' _ ⟨h, hf⟩
      exact ⟨t, p, h, fun hst => by simp [hf hst] at h₂⟩
    · rintro k₁ k₁' ⟨h, -⟩
      exact ⟨t, p, h⟩
    · rintro n k₁ k₁' ⟨h, -⟩
      exact ⟨t, p, h⟩
  · -- both runs write the same initial node
    cases hst : k.s.st <;> simp only [hst, choosesFlag] at h₂ <;> try contradiction
    all_goals
      simp only [switch, hst, Frame.relocal, hHeadConnectionCase, hHeadExpectCase,
        hHeadTransferEncodingCase, hHeadFlagInitial, sim_reset]
      exact ⟨t, _, rfl, fun _ => .inr rfl⟩

/-- Between turns: the frames differ in nothing that is ever looked at. -/
structure Resumes (k k' : Frame) : Prop where
  routed : Routed k
  inside : FlagInside k
  relocated : Relocated k k'

theorem iterate_resumes {k k' : Frame} (c : Int) (h : Resumes k k') :
    (iterate k c).Rel Resumes
      (Halt.Sim Relocated fun n k k' => Relocated k k' ∧ n ≠ 0 ∧ n ≠ eagain) (iterate k' c) := by
  have hpass : ∀ k k' c, Relocal k k' ∧ Routed k →
      Pass.Sim (fun k k' _ => Relocal k k' ∧ Routed k) Relocated
        (fun n k k' => Relocated k k' ∧ n ≠ 0 ∧ n ≠ eagain) (switch k c) (switch k' c) := by
    rintro k k' c ⟨hr, hk⟩
    refine (((switch_relocal k k' c hk hr).and_all (switch_routed k c hk)).and_all
      (switch_flagInside k c hk)).imp ?_ ?_ ?_
    · rintro k₁ k₁' _ ⟨⟨h₁, h₂, -⟩, -⟩
      exact ⟨h₁, h₂⟩
    · rintro k₁ k₁' ⟨⟨h₁, -⟩, -⟩
      exact h₁
    · rintro n k₁ k₁' ⟨⟨h₁, -⟩, h₂⟩
      exact ⟨h₁, h₂⟩
  have h0 : Relocal k k' ∧ Routed k := by
    obtain ⟨t, p, hp⟩ := h.relocated
    exact ⟨⟨t, p, hp, fun hst => .inl (h.inside hst)⟩, h.routed⟩
  have hi := iterate_sim hpass (fun k k' ⟨t, p, h⟩ => by rw [h]; rfl) h0 (c := c)
  obtain ⟨k₁, k₁', hs, hs', hi⟩ | ⟨r, r', hs, hs', hi⟩ := hi.cases
  · rw [hs, hs']
    obtain ⟨k₂, k₂', ⟨t, p, rfl⟩, rfl, rfl⟩ := hi
    exact ⟨iterate_routed h.routed hs, (iterate_flagInside h.routed).1 _ hs, t, p, rfl⟩
  · rw [hs, hs']
    exact hi

theorem Resumes.refl {k : Frame} (hk : Routed k) (hf : FlagInside k) : Resumes k k :=
  ⟨hk, hf, k.s.tries, k.patinitialFlag, rfl⟩

/-! ## Calls on a ring that fills up -/

/-- What the producer does to the ring between two calls: bytes are stored and the write index moves
on, and at the end of its input it sets the flag. The read index is not its own. -/
structure Refill where
  data : Nat → Byte
  write : Uint
  flags : Uint

def Iobuf.refill (io : Iobuf) (f : Refill) : Iobuf :=
  { io with data := f.data, write := f.write, flags := f.flags }

/-- Calls of `minute_http_read`, each but the first after a refill, until one does not return
`EAGAIN`. -/
def readSession (rq : MinuteHttpRq) (rqs : MinuteHttpRqs) (io : Iobuf) (text : Textint) :
    List Refill → ReadResult
  | [] => minuteHttpRead rq rqs io text
  | f :: fs =>
    match minuteHttpRead rq rqs io text with
    | .code n rq rqs io text =>
      if n = eagain then readSession rq rqs (io.refill f) text fs else .code n rq rqs io text
    | r => r

/-- The bytes that become visible from index `m` on, over all refills. -/
def shownBytes (io : Iobuf) (m : Uint) : List Refill → List Byte
  | [] => io.from m
  | f :: fs => io.from m ++ shownBytes (io.refill f) io.write fs

/-- The end of file is not flagged before the last refill, and there as `e` says. -/
def eofAtLast (e : Bool) (io : Iobuf) : List Refill → Prop
  | [] => io.eof = e
  | f :: fs => io.eof = false ∧ eofAtLast e (io.refill f) fs

/-- What a caller learns: the code, the request, the text buffer and, on success, how many bytes
after `base` were consumed. -/
inductive Seen where
  | returned (code : Nat) (rq : MinuteHttpRq) (text : Textint) (consumed : Option Uint)
  | fault
  | spin

def ReadResult.seen (base : Uint) : ReadResult → Seen
  | .code n rq _ io text => .returned n rq text (if n = 0 then some (io.read - base) else none)
  | .fault => .fault
  | .spin => .spin

/-! ## Sessions -/

theorem feed_resumes {k k' : Frame} (cs : List Int) (h : Resumes k k') :
    (feed iterate k cs).Rel Resumes (fun r r' =>
      Halt.Sim Relocated (fun n k k' => Relocated k k' ∧ n ≠ 0 ∧ n ≠ eagain) r.1 r'.1 ∧ r.2 = r'.2)
      (feed iterate k' cs) :=
  feed_rel Resumes _ h fun _ c _ _ _ _ _ _ hr => iterate_resumes c hr

theorem finish_seen {h h' : Halt} (base : Uint) (io io' : Iobuf) (rqs rqs' : MinuteHttpRqs)
    (hs : Halt.Sim Relocated (fun n k k' => Relocated k k' ∧ n ≠ 0 ∧ n ≠ eagain) h h') :
    (finish io' rqs' h').seen base = (finish io rqs h).seen base := by
  cases h <;> cases h' <;> try exact hs.elim
  case ok k k' =>
    obtain ⟨k₁, k₁', ⟨t, p, rfl⟩, rfl, rfl⟩ := hs
    rfl
  case ret n k n' k' =>
    obtain ⟨rfl, ⟨t, p, rfl⟩, hn, -⟩ := hs
    simp only [finish, ReadResult.seen, hn, if_false]
    rfl
  case fault => rfl
  case spin => rfl

/-- A suspended call saves a frame from which the next call resumes. -/
theorem resumes_suspended {k k' : Frame} (io : Iobuf) (h : Resumes k k') :
    Resumes k (startFrame k'.rq { k'.s with tries := k'.tstate } { io with read := k'.b } k'.text) := by
  obtain ⟨t, p, rfl⟩ := h.relocated
  exact ⟨h.routed, h.inside, k.tstate, none, rfl⟩

theorem shownBytes_read (io : Iobuf) (b m : Uint) (fs : List Refill) :
    shownBytes { io with read := b } m fs = shownBytes io m fs := by
  have hwin : ∀ m n, Iobuf.window { io with read := b } m n = io.window m n := by
    intro m n
    induction n generalizing m with
    | zero => rfl
    | succ n ih => simp [Iobuf.window, ih, Iobuf.at]
  induction fs generalizing io m with
  | nil => exact hwin m _
  | cons f fs ih =>
    have := ih (io.refill f) io.write (fun m n => by
      induction n generalizing m with
      | zero => rfl
      | succ n ih => simp [Iobuf.window, ih, Iobuf.at])
    simp only [shownBytes, Iobuf.from, hwin]
    exact congrArg _ this

theorem eofAtLast_read (e : Bool) (io : Iobuf) (b : Uint) (fs : List Refill) :
    eofAtLast e { io with read := b } fs ↔ eofAtLast e io fs := by
  induction fs generalizing io with
  | nil => rfl
  | cons f fs ih => exact and_congr Iff.rfl (ih (io.refill f))

/-- A code that a session does not go on after. -/
def ReadResult.IsFinal : ReadResult → Prop
  | .code n .. => n ≠ eagain
  | _ => True

theorem finish_isFinal {h h' : Halt} (io : Iobuf) (rqs : MinuteHttpRqs)
    (hs : Halt.Sim Relocated (fun n k k' => Relocated k k' ∧ n ≠ 0 ∧ n ≠ eagain) h h') :
    (finish io rqs h').IsFinal := by
  cases h <;> cases h' <;> try exact hs.elim
  case ok => exact show 0 ≠ eagain by decide
  case ret n k n' k' =>
    obtain ⟨rfl, -, -, hn⟩ := hs
    exact hn
  case fault => trivial
  case spin => trivial

theorem readSession_final {rq : MinuteHttpRq} {rqs : MinuteHttpRqs} {io : Iobuf} {text : Textint}
    (fs : List Refill) (h : (minuteHttpRead rq rqs io text).IsFinal) :
    readSession rq rqs io text fs = minuteHttpRead rq rqs io text := by
  cases fs with
  | nil => rfl
  | cons f fs =>
    rw [readSession]
    cases hr : minuteHttpRead rq rqs io text with
    | code n _ _ _ _ => rw [hr] at h; exact if_neg h
    | fault => rfl
    | spin => rfl

theorem readSession_seen (base : Uint) (whole : Iobuf) (rqs₀ : MinuteHttpRqs) (fs : List Refill)
    (rq : MinuteHttpRq) (rqs : MinuteHttpRqs) (io : Iobuf) (text : Textint) (k : Frame)
    (hk : Resumes k (startFrame rq rqs io text)) (he : eofAtLast whole.eof io fs) :
    (readSession rq rqs io text fs).seen base =
      (conclude whole rqs₀ (feed iterate k (chars (shownBytes io rqs.m fs)))).seen base := by
  induction fs generalizing rq rqs io text k with
  | nil =>
    have he : io.eof = whole.eof := he
    rw [readSession, minuteHttpRead_eq, shownBytes]
    obtain ⟨k₁, k₂, h₁, h₂, hf⟩ | ⟨r, r', h₁, h₂, hf⟩ :=
      (feed_resumes (chars (io.from rqs.m)) hk).cases
    · rw [h₁, h₂]
      simp only [conclude, he]
      cases whole.eof with
      | false =>
        obtain ⟨t, p, rfl⟩ := hf.relocated
        rfl
      | true =>
        obtain ⟨x, x', hs, -⟩ | ⟨r, r', hs, hs', hi⟩ := (iterate_resumes hEof hf).cases
        · exact absurd hs (iterate_eof k₁ x)
        · rw [hs, hs']
          exact finish_seen base _ _ _ _ hi
    · rw [h₁, h₂]
      exact finish_seen base _ _ _ _ hf.1
  | cons f fs ih =>
    obtain ⟨hopen, he⟩ := he
    rw [shownBytes, chars_append, feed_append]
    obtain ⟨k₁, k₂, h₁, h₂, hf⟩ | ⟨⟨h, rest⟩, ⟨h', rest'⟩, h₁, h₂, hf, -⟩ :=
      (feed_resumes (chars (io.from rqs.m)) hk).cases
    · have hm : k₂.s.m = io.write := by
        rw [(feed_m h₂).1, chars, List.length_map, Iobuf.from, Iobuf.length_window]
        show rqs.m + BitVec.ofNat 32 (io.write - rqs.m).toNat = io.write
        rw [BitVec.ofNat_toNat, BitVec.setWidth_eq]
        bv_omega
      have hread : minuteHttpRead rq rqs io text = suspend io k₂ := by
        rw [minuteHttpRead_eq, h₂]
        simp [conclude, hopen]
      have hnext := ih k₂.rq { k₂.s with tries := k₂.tstate } (Iobuf.refill { io with read := k₂.b } f)
        k₂.text k₁ (resumes_suspended (io.refill f) hf) ((eofAtLast_read _ (io.refill f) k₂.b fs).mpr he)
      have hshown := shownBytes_read (io.refill f) k₂.b io.write fs
      rw [readSession, hread, h₁]
      simp only [suspend, if_true]
      rw [hnext, hm]
      exact congrArg (fun w => (conclude whole rqs₀ (feed iterate k₁ (chars w))).seen base) hshown
    · have hread : minuteHttpRead rq rqs io text = finish io rqs h' := by
        rw [minuteHttpRead_eq, h₂]
        rfl
      rw [readSession_final _ (hread ▸ finish_isFinal io rqs hf), hread, h₁]
      exact finish_seen base _ _ _ _ hf

/-- **Reading in pieces is reading at once.** The bytes of `whole`, from its read index on, are made
visible to a parser in pieces. Code, request, text buffer and the number of bytes consumed are those
of one call on `whole`, and that call returns. -/
theorem read_in_pieces (rq : MinuteHttpRq) (hmask : Uint) (text : Textint) (io whole : Iobuf)
    (fs : List Refill) (hstart : whole.read = io.read)
    (hbytes : whole.from whole.read = shownBytes io io.read fs) (heof : eofAtLast whole.eof io fs) :
    (readSession rq (minuteHttpInit hmask io text).1 io (minuteHttpInit hmask io text).2 fs).seen
        io.read =
      (minuteHttpRead rq (minuteHttpInit hmask whole text).1 whole
        (minuteHttpInit hmask whole text).2).seen io.read ∧
    minuteHttpRead rq (minuteHttpInit hmask whole text).1 whole
      (minuteHttpInit hmask whole text).2 ≠ .spin := by
  set rqs := (minuteHttpInit hmask io text).1 with hrqs
  have hrqs' : (minuteHttpInit hmask whole text).1 = rqs := by
    rw [hrqs]
    simp only [minuteHttpInit, minuteHttpRqsInit, hstart]
  have hk : Resumes (startFrame rq rqs io (minuteHttpInit hmask io text).2)
      (startFrame rq rqs io (minuteHttpInit hmask io text).2) :=
    Resumes.refl rfl fun h => by simp [startFrame, hrqs, minuteHttpInit, minuteHttpRqsInit] at h
  refine ⟨?_, minuteHttpRead_ne_spin rfl⟩
  rw [hrqs', readSession_seen io.read whole rqs fs rq rqs io _ _ hk heof, minuteHttpRead_eq]
  have hm : rqs.m = io.read := rfl
  rw [hm, ← hbytes, hstart]
  simp only [startFrame, hstart]
  rfl

/-! ### What a session leaves -/

/-- What a call leaves for its caller to see: the code, the request and the text buffer. -/
def ReadResult.left : ReadResult → Option (Nat × MinuteHttpRq × Textint)
  | .code n rq _ _ text => some (n, rq, text)
  | .fault => none
  | .spin => none

theorem left_of_code {r : ReadResult} {n : Nat} {rq : MinuteHttpRq} {rqs : MinuteHttpRqs} {io : Iobuf}
    {text : Textint} (h : r = .code n rq rqs io text) : r.left = some (n, rq, text) := by
  rw [h]
  rfl

/-- The same of a run over all that a session is shown. -/
def runLeft : Step Frame (Halt × List Int) → Option (Nat × MinuteHttpRq × Textint)
  | .next k => some (eagain, k.rq, k.text)
  | .halt (.ok k, _) => some (0, k.rq, k.text)
  | .halt (.ret n k, _) => some (n, k.rq, k.text)
  | .halt (.fault, _) => none
  | .halt (.spin, _) => none

/-- The characters that a session is shown, with the end of the file if it is flagged at the last. -/
def sessionChars (io : Iobuf) (m : Uint) (fs : List Refill) (e : Bool) : List Int :=
  chars (shownBytes io m fs) ++ if e then [hEof] else []

def Seen.left : Seen → Option (Nat × MinuteHttpRq × Textint)
  | .returned n rq text _ => some (n, rq, text)
  | .fault => none
  | .spin => none

theorem ReadResult.seen_left (base : Uint) (r : ReadResult) : (r.seen base).left = r.left := by
  cases r <;> rfl

theorem conclude_left (io : Iobuf) (rqs : MinuteHttpRqs) (k : Frame) (cs : List Int) :
    (conclude io rqs (feed iterate k cs)).left =
      runLeft (feed iterate k (cs ++ if io.eof then [hEof] else [])) := by
  have hfinish : ∀ (h : Halt) (rest : List Int), (finish io rqs h).left = runLeft (.halt (h, rest)) := by
    intro h rest
    cases h <;> rfl
  rw [feed_append]
  cases feed iterate k cs with
  | halt r => exact hfinish r.1 _
  | next k =>
    cases he : io.eof
    · simp [conclude, he, suspend, ReadResult.left, runLeft]
    · simp only [conclude, he, if_true, feed_cons]
      cases hi : iterate k hEof with
      | next k' => exact absurd hi (iterate_eof k k')
      | halt h => exact hfinish h []

/-- **What a session leaves is what one run over its characters leaves.** -/
theorem readSession_left {rq : MinuteHttpRq} {rqs : MinuteHttpRqs} {io : Iobuf} {text : Textint}
    {fs : List Refill} {e : Bool} (hk : Routed (startFrame rq rqs io text))
    (hf : FlagInside (startFrame rq rqs io text)) (he : eofAtLast e io fs) :
    (readSession rq rqs io text fs).left =
      runLeft (feed iterate (startFrame rq rqs io text) (sessionChars io rqs.m fs e)) := by
  obtain ⟨whole, hw⟩ : ∃ whole : Iobuf, whole.eof = e := by
    cases e
    · exact ⟨minuteIobufInit 1 fun _ => 0, rfl⟩
    · exact ⟨{ minuteIobufInit 1 fun _ => 0 with flags := iobufEof }, rfl⟩
  subst hw
  have hseen := congrArg Seen.left
    (readSession_seen 0 whole rqs fs rq rqs io text _ (Resumes.refl hk hf) he)
  rwa [ReadResult.seen_left, ReadResult.seen_left, conclude_left] at hseen

theorem initSession_left (rq : MinuteHttpRq) (hmask : Uint) {io : Iobuf} (text : Textint)
    {fs : List Refill} {e : Bool} (he : eofAtLast e io fs) :
    (readSession rq (minuteHttpInit hmask io text).1 io (minuteHttpInit hmask io text).2 fs).left =
      runLeft (feed iterate
        (startFrame rq (minuteHttpInit hmask io text).1 io (minuteHttpInit hmask io text).2)
        (sessionChars io io.read fs e)) := by
  have hk : Routed
      (startFrame rq (minuteHttpInit hmask io text).1 io (minuteHttpInit hmask io text).2) := rfl
  refine readSession_left hk ?_ he
  intro h
  simp [startFrame, minuteHttpInit, minuteHttpRqsInit] at h

theorem trailersSession_left (rq : MinuteHttpRq) (hmask : Uint) {io : Iobuf} (text : Textint)
    {fs : List Refill} {e : Bool} (he : eofAtLast e io fs) :
    (readSession rq (minuteHttpInitTrailers hmask io) io text fs).left =
      runLeft (feed iterate (startFrame rq (minuteHttpInitTrailers hmask io) io text)
        (sessionChars io io.read fs e)) := by
  have hk : Routed (startFrame rq (minuteHttpInitTrailers hmask io) io text) := rfl
  refine readSession_left hk ?_ he
  intro h
  simp [startFrame, minuteHttpInitTrailers, minuteHttpRqsInit] at h

/-- Seven bytes that cross the wrap of the indices, cut inside the method and after it, with the end
of file flagged at the last refill. -/
theorem read_in_pieces_wrapping :
    let block : Nat → Byte := fun i => (bytes "T / HxxxxxxxxxGE").getD i 0
    let io : Iobuf := ⟨0xFFFFFFFE, 0xFFFFFFFF, 15, 0, block⟩
    let text := minuteTextintInit 64 fun _ => 0
    let init := minuteHttpInit minuteAllHeaders io text
    (readSession .zero init.1 io init.2 [⟨block, 2, 0⟩, ⟨block, 5, iobufEof⟩]).seen io.read =
      (minuteHttpRead .zero init.1 ⟨0xFFFFFFFE, 5, 15, iobufEof, block⟩ init.2).seen io.read := by
  intro block io text init
  exact (read_in_pieces .zero minuteAllHeaders text io ⟨0xFFFFFFFE, 5, 15, iobufEof, block⟩
    [⟨block, 2, 0⟩, ⟨block, 5, iobufEof⟩] rfl (by decide +kernel)
    ⟨by decide +kernel, by decide +kernel, rfl⟩).1

end MinuteHttp
