import MinuteHttp.Libhttp.Lines

/-!
# The content length that is taken

`h_head_content_length` takes the number it has read at a CR, and only there: it sets the flag
`http_content_length` and stores the number in the request. `taken` lists the numbers a run takes, and
`runLeft_length` says that the last of them is the content length that the run leaves.
-/

namespace MinuteHttp

open HttpRequestState Feed

/-- A CR ends a number: one is being read, or its line goes on with it. -/
def ReadsLength (k : Frame) : Prop :=
  k.s.st = hHeadContentLength ∨ (k.s.st = hValueLead ∧ k.s.est = hHeadContentLength) ∨
    (k.s.st = hCont ∧ k.s.collect = true ∧ k.s.est = hHeadContentLength)

instance ReadsLength.decidable (k : Frame) : Decidable (ReadsLength k) :=
  inferInstanceAs (Decidable (_ ∨ (_ ∧ _) ∨ (_ ∧ _ ∧ _)))

/-- A number is taken on the character `c`. -/
def Takes (k : Frame) (c : Int) : Prop := c = 13 ∧ ReadsLength k

instance Takes.decidable (k : Frame) (c : Int) : Decidable (Takes k c) := inferInstanceAs (Decidable (_ ∧ _))

/-- The numbers that a run takes for the content length, in order. -/
def taken (k : Frame) : List Int → List Uint
  | [] => []
  | c :: cs =>
    (if Takes k c then [k.s.esc] else []) ++
      match iterate k c with
      | .next k' => taken k' cs
      | .halt _ => []

/-- The flag `http_content_length` and the content length. -/
def MinuteHttpRq.length (rq : MinuteHttpRq) : Bool × Uint := (hasFlag rq.flags httpContentLength, rq.contentLength)

/-- The same after the numbers `ns` have been taken. -/
def lengthAfter (l : Bool × Uint) (ns : List Uint) : Bool × Uint :=
  match ns.getLast? with
  | some n => (true, n)
  | none => l

theorem lengthAfter_snd (l : Bool × Uint) (ns : List Uint) : (lengthAfter l ns).2 = ns.getLast?.getD l.2 := by
  unfold lengthAfter
  cases ns.getLast? with
  | none => rfl
  | some n => rfl

theorem lengthAfter_append (l : Bool × Uint) (ms ns : List Uint) :
    lengthAfter l (ms ++ ns) = lengthAfter (lengthAfter l ms) ns := by
  unfold lengthAfter
  rw [List.getLast?_append]
  cases ns.getLast? <;> rfl

/-! ## Passes -/

theorem walkTrie_le {tree : List Patricia} {n : Int} (hn : 0 ≤ n) (ht : ∀ p ∈ tree, p.terminal ≤ n) {c r : Int} {o : Nat}
    {i : Option Patricia} {t t' : Triestate} (h : walkTrie c o tree i t = some (r, t')) : r ≤ n := by
  have hchild : ∀ p, enterChild c o tree p t = some (r, t') → r ≤ n := by
    intro p h
    simp only [enterChild, Option.bind_eq_bind, Option.bind_eq_some_iff] at h
    obtain ⟨q, -, hq⟩ := h
    split at hq
    · simp only [Option.some.injEq, Prod.mk.injEq] at hq
      omega
    · simp only [Option.some.injEq, Prod.mk.injEq] at hq
      omega
  unfold walkTrie at h
  split at h
  · simp only [Option.bind_eq_bind, Option.bind_eq_some_iff] at h
    obtain ⟨p, hp, x, -, h⟩ := h
    have hp := ht p (List.mem_of_getElem? hp)
    split at h
    · simp only [Option.some.injEq, Prod.mk.injEq] at h
      omega
    · split at h
      · exact hchild p h
      · split at h
        · simp only [Option.some.injEq, Prod.mk.injEq] at h
          omega
        · simp only [Option.some.injEq, Prod.mk.injEq] at h
          omega
  · simp only [Option.bind_eq_bind, Option.bind_eq_some_iff] at h
    obtain ⟨p, -, h⟩ := h
    exact hchild p h

theorem flagWalk_le {i : Option Patricia} {c r : Int} {t t' : Triestate} (h : flagWalk i c t = some (r, t')) : r ≤ 8 :=
  walkTrie_le (by decide) (by decide +kernel : ∀ p ∈ utility, (p.terminal : Int) ≤ 8) h

theorem length_flag {rq : MinuteHttpRq} {r : Int} (hpos : 0 < r) (hr : r ≤ 8) :
    MinuteHttpRq.length { rq with flags := rq.flags ||| BitVec.ofInt 32 r } = rq.length := by
  obtain ⟨n, rfl⟩ := Int.eq_ofNat_of_zero_le (Int.le_of_lt hpos)
  have hn : n ≤ 8 := by omega
  have hbit : BitVec.ofNat 32 n &&& BitVec.ofNat 32 httpContentLength = 0#32 := by
    have hall : ∀ n ≤ 8, BitVec.ofNat 32 n &&& BitVec.ofNat 32 httpContentLength = 0#32 := by decide
    exact hall n hn
  unfold MinuteHttpRq.length hasFlag
  rw [Prod.mk.injEq]
  refine ⟨?_, rfl⟩
  show decide ((rq.flags ||| BitVec.ofNat 32 n) &&& BitVec.ofNat 32 httpContentLength ≠ 0) = _
  rw [show (rq.flags ||| BitVec.ofNat 32 n) &&& BitVec.ofNat 32 httpContentLength =
    rq.flags &&& BitVec.ofNat 32 httpContentLength ||| BitVec.ofNat 32 n &&& BitVec.ofNat 32 httpContentLength by
      ext i hi
      simp [Bool.and_or_distrib_right], hbit, BitVec.or_zero]

theorem length_taken (rq : MinuteHttpRq) (n : Uint) :
    MinuteHttpRq.length { rq with flags := rq.flags ||| BitVec.ofNat 32 httpContentLength, contentLength := n } =
      (true, n) := by
  unfold MinuteHttpRq.length hasFlag
  rw [Prod.mk.injEq]
  refine ⟨decide_eq_true fun h => ?_, rfl⟩
  have hbit := congrArg (fun w => BitVec.getLsbD w 4) h
  simp [httpContentLength] at hbit

/-- A pass on a character that takes no number leaves the content length alone. -/
theorem switch_length (k : Frame) (c : Int) (h : ¬Takes k c) :
    Pass.All (fun k' c' => k'.rq.length = k.rq.length ∧ ¬Takes k' c') (fun k' => k'.rq.length = k.rq.length)
      (fun _ k' => k'.rq.length = k.rq.length) True (switch k c) := by
  have hlow : toLower c = 13 ↔ c = 13 := toLower_eq (by decide)
  cases hst : k.s.st <;> simp only [switch, hst]
  case hHeadContentLength =>
    have h13 : c ≠ 13 := fun hc => h ⟨hc, .inl hst⟩
    simp [hHeadContentLengthCase, h13, Takes]
  case hValueLead =>
    simp only [hValueLeadCase, all_ite, all_reset, all_brk]
    refine ⟨fun _ => ⟨rfl, fun ht => h ⟨ht.1, .inr (.inl ⟨hst, ?_⟩)⟩⟩, fun _ => trivial⟩
    rcases ht.2 with hest | ⟨-, hest⟩ | ⟨-, -, hest⟩ <;> exact hest
  case hCont =>
    simp only [hContCase, all_ite, all_reset]
    refine ⟨fun hc => ⟨rfl, fun ht => h ⟨ht.1, .inr (.inr ⟨hst, hc, ?_⟩)⟩⟩, fun _ => ⟨rfl, fun ht => ?_⟩⟩
    · rcases ht.2 with hx | ⟨-, hest⟩ | ⟨-, -, hest⟩
      · cases hx
      · exact hest
      · exact hest
    · rcases ht.2 with hx | ⟨hx, -⟩ | ⟨hx, -⟩ <;> cases hx
  case hHeadFlag =>
    simp only [hHeadFlagCase, all_onWalk, all_ite, all_reset, all_brk]
    refine ⟨fun _ => trivial, fun r t hw => ⟨fun _ => ⟨rfl, fun ht => ?_⟩, fun _ => ⟨fun hpos => ⟨?_, fun ht => ?_⟩,
      fun _ => trivial⟩⟩⟩
    · rcases ht.2 with hx | ⟨hx, -⟩ | ⟨hx, -⟩ <;> cases hx
    · exact length_flag hpos (flagWalk_le hw)
    · rcases ht.2 with hx | ⟨hx, -⟩ | ⟨hx, -⟩ <;> cases hx
  all_goals
    dsimp only [hInitialCase, hMethodCase, hMethodSpCase, hPathCase, hEscaped1Case, hEscaped2Case, hQueryCase,
      hPathSpCase, hProtCase, hProtSlashCase, hProtHttpXCase, hProtHttpXDotCase, hProtHttpXXCase, hCrCase, hNlCase,
      hHeaderCase, hHeaderMatched, hHeadConnectionCase, hHeadExpectCase, hHeadTransferEncodingCase, hHeadFlagInitial,
      hValueCase, hSkiplineCase, hErrorCase]
    simp [Takes, ReadsLength, MinuteHttpRq.length]

/-! ## Turns and runs -/

/-- The frame that a turn ends in. -/
def Halt.frame : Halt → Option Frame
  | .ok k => some k
  | .ret _ k => some k
  | .fault => none
  | .spin => none

/-- **A turn** takes a number or leaves the content length alone. -/
theorem iterate_length {k : Frame} (c : Int) (hk : Routed k) :
    (iterate k c).Holds (fun k' => k'.rq.length = lengthAfter k.rq.length (if Takes k c then [k.s.esc] else []))
      (fun r => ∀ k' ∈ r.frame, k'.rq.length = lengthAfter k.rq.length (if Takes k c then [k.s.esc] else [])) := by
  by_cases ht : Takes k c
  · obtain ⟨rfl, hreads⟩ := ht
    rw [if_pos ⟨rfl, hreads⟩]
    -- whatever the state, the character is handed on to `h_head_content_length`
    have hnumber : ∀ k₁ : Frame, k₁.s.st = hHeadContentLength → k₁.s.esc = k.s.esc →
        (iterate k₁ 13).Holds (fun k' => k'.rq.length = (true, k.s.esc))
          (fun r => ∀ k' ∈ r.frame, k'.rq.length = (true, k.s.esc)) := by
      intro k₁ hst hesc
      have hs : switch k₁ 13 = brk (Frame.shift hCr { k₁ with rq := { k₁.rq with
          flags := k₁.rq.flags ||| BitVec.ofNat 32 httpContentLength, contentLength := k₁.s.esc } }) := by
        simp [switch, hst, hHeadContentLengthCase]
      have hlen := length_taken k₁.rq k₁.s.esc
      rw [hesc] at hlen
      rw [iterate_of_halt hs, finishTurn]
      split
      · intro k' hk'
        obtain rfl := Option.some.inj hk'
        rw [advance_rq, shift_rq, hesc]
        exact hlen
      · show _ = _
        rw [advance_rq, shift_rq, hesc]
        exact hlen
    have hlead : ∀ k₁ : Frame, Routed k₁ → k₁.s.st = hValueLead → k₁.s.est = hHeadContentLength → k₁.s.esc = k.s.esc →
        (iterate k₁ 13).Holds (fun k' => k'.rq.length = (true, k.s.esc))
          (fun r => ∀ k' ∈ r.frame, k'.rq.length = (true, k.s.esc)) := by
      intro k₁ hr hst hest hesc
      have hs : switch k₁ 13 = reset k₁.s.est k₁.mark 13 := by simp [switch, hst, hValueLeadCase]
      rw [iterate_reset hr hs]
      exact hnumber _ hest hesc
    rcases hreads with hst | ⟨hst, hest⟩ | ⟨hst, hcol, hest⟩
    · exact hnumber k hst rfl
    · exact hlead k hk hst hest rfl
    · have hs : switch k 13 = reset hValueLead { k with text := minuteTextintReplacec (-1) 32 k.text } 13 := by
        simp only [switch, hst, hContCase, hcol, if_true]
      have hr := switch_routed k 13 hk
      rw [hs] at hr
      rw [iterate_reset hk hs]
      exact hlead _ hr.1 rfl hest rfl
  · rw [if_neg ht]
    have hi := iterate_inv (N := fun k' c' => k'.rq.length = k.rq.length ∧ ¬Takes k' c')
      (B := fun k' => k'.rq.length = k.rq.length) (R := fun _ k' => k'.rq.length = k.rq.length) (F := True)
      (fun k₁ c₁ h₁ => (switch_length k₁ c₁ h₁.2).imp (fun _ _ h => ⟨h.1.trans h₁.1, h.2⟩) (fun _ h => h.trans h₁.1)
        (fun _ _ h => h.trans h₁.1) id) (c := c) ⟨rfl, ht⟩
    cases hs : iterate k c with
    | next k' =>
      rw [hs] at hi
      obtain ⟨k₁, h₁, -, rfl⟩ := hi
      exact h₁
    | halt r =>
      rw [hs] at hi
      intro k' hk'
      cases r with
      | ok k₂ =>
        obtain rfl := Option.some.inj hk'
        obtain ⟨k₁, h₁, -, rfl⟩ := hi
        exact h₁
      | ret n k₂ =>
        obtain rfl := Option.some.inj hk'
        exact hi
      | fault => cases hk'
      | spin => cases hk'

theorem runLeft_frame {x : Step Frame (Halt × List Int)} {n : Nat} {rq : MinuteHttpRq} {text : Textint}
    (h : runLeft x = some (n, rq, text)) :
    ∃ k : Frame, k.rq = rq ∧ k.text = text ∧ (x = .next k ∨ ∃ r rest, x = .halt (r, rest) ∧ k ∈ r.frame) := by
  cases x with
  | next k =>
    simp only [runLeft, Option.some.injEq, Prod.mk.injEq] at h
    exact ⟨k, h.2.1, h.2.2, .inl rfl⟩
  | halt r =>
    obtain ⟨r, rest⟩ := r
    cases r with
    | ok k =>
      simp only [runLeft, Option.some.injEq, Prod.mk.injEq] at h
      exact ⟨k, h.2.1, h.2.2, .inr ⟨_, _, rfl, rfl⟩⟩
    | ret m k =>
      simp only [runLeft, Option.some.injEq, Prod.mk.injEq] at h
      exact ⟨k, h.2.1, h.2.2, .inr ⟨_, _, rfl, rfl⟩⟩
    | fault => cases h
    | spin => cases h

theorem runLeft_ok {k : Frame} {cs : List Int} (hk : Routed k) {rq : MinuteHttpRq} {text : Textint}
    (h : runLeft (feed iterate k cs) = some (0, rq, text)) :
    ∃ k' rest, feed iterate k cs = .halt (.ok k', rest) ∧ k'.rq = rq ∧ k'.text = text := by
  cases hf : feed iterate k cs with
  | next k' =>
    rw [hf] at h
    simp [runLeft, eagain] at h
  | halt r =>
    obtain ⟨r, rest⟩ := r
    rw [hf] at h
    cases r with
    | ok k' =>
      simp only [runLeft, Option.some.injEq, Prod.mk.injEq, true_and] at h
      exact ⟨k', rest, rfl, h.1, h.2⟩
    | ret n k' =>
      simp only [runLeft, Option.some.injEq, Prod.mk.injEq] at h
      obtain ⟨p, c, k₁, -, hp, hc⟩ := feed_halt hf
      exact absurd h.1 ((iterate_flagInside (feed_routed hk hp)).2 _ _ hc).1
    | fault => cases h
    | spin => cases h

/-- **The content length that a run leaves** is the last number that it has taken. -/
theorem runLeft_length {k : Frame} {cs : List Int} (hk : Routed k) {n : Nat} {rq : MinuteHttpRq} {text : Textint}
    (h : runLeft (feed iterate k cs) = some (n, rq, text)) : rq.length = lengthAfter k.rq.length (taken k cs) := by
  induction cs generalizing k with
  | nil =>
    simp only [feed_nil, runLeft, Option.some.injEq, Prod.mk.injEq] at h
    rw [← h.2.1]
    rfl
  | cons c cs ih =>
    have hi := iterate_length c hk
    rw [feed_cons] at h
    rw [taken, lengthAfter_append]
    cases hs : iterate k c with
    | next k' =>
      rw [hs] at hi h
      rw [← show k'.rq.length = _ from hi]
      exact ih (iterate_routed hk hs) h
    | halt r =>
      rw [hs] at hi h
      obtain ⟨k', hrq, -, hx | ⟨r', rest, hx, hk'⟩⟩ := runLeft_frame h
      · cases hx
      · simp only [Step.halt.injEq, Prod.mk.injEq] at hx
        rw [← hrq]
        exact hi k' (hx.1 ▸ hk')

end MinuteHttp
