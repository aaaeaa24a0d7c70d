import MinuteHttp.Libhttp.Turn

/-!
# The loop ends, and is the machine fed with the ring's bytes

`Routed` is what makes the saved state `est` a place one can come back to: it is a state of the URL
after an escape, and a state that reads a header value whenever a value or a continuation line may be
handed to it. Under it the chains of `reset`s go down in `rank`, so a turn never spins. `readLoop_eq`
then trades the loop over ring indices for `feed iterate` over the list of visible characters, on
which everything else is proved.
-/

namespace MinuteHttp

open HttpRequestState Feed

/-- The states `h_value_lead` hands a character to. -/
def HttpRequestState.isValue : HttpRequestState → Bool
  | hValue | hHeadConnection | hHeadContentLength | hHeadExpect | hHeadTransferEncoding => true
  | _ => false

/-- The states up to the end of the request line. -/
def HttpRequestState.isRequestLine : HttpRequestState → Bool
  | hInitial | hMethod | hMethodSp | hPath | hQuery | hEscaped1 | hEscaped2 | hPathSp | hProt
  | hProtSlash | hProtHttpX | hProtHttpXDot | hProtHttpXX => true
  | _ => false

/-- `est` makes sense in `st`. -/
def routed (st est : HttpRequestState) (collect : Bool) : Bool :=
  match st with
  | hEscaped1 | hEscaped2 => (est == hPath || est == hQuery) && !collect
  | hValueLead => est.isValue
  | _ => if st.isRequestLine then !collect else !collect || est.isValue

def Routed (k : Frame) : Prop := routed k.s.st k.s.est k.s.collect = true

/-- A bound on the `reset`s that can follow in the same turn. -/
def HttpRequestState.rank : HttpRequestState → Nat
  | hCont => 5
  | hValueLead => 4
  | hHeadConnection | hHeadExpect | hHeadTransferEncoding | hNl => 3
  | hHeadFlag | hHeader | hHeadContentLength | hInitial | hMethodSp | hPathSp | hProtSlash
  | hProtHttpXDot => 2
  | hValue | hSkipline | hMethod | hPath | hQuery | hEscaped1 | hEscaped2 | hProt | hProtHttpX
  | hProtHttpXX | hCr => 1
  | _ => 0

theorem rank_le (x : HttpRequestState) : x.rank ≤ 5 := by
  cases x <;> decide

theorem rank_lt_passLimit (x : HttpRequestState) : x.rank < passLimit :=
  Nat.lt_of_le_of_lt (rank_le x) (by decide)

/-- A state that reads a header value is routed whatever `est` is kept beside it, as long as that is
one too, and lies below the states that hand characters over. -/
theorem routed_isValue {x : HttpRequestState} (h : x.isValue = true) (b : Bool) :
    routed x x b = true ∧ x.rank < hValueLead.rank := by
  cases x
  all_goals first | (cases b <;> decide) | cases h

theorem routed_est {st est : HttpRequestState} (h : routed st est true = true) :
    est.isValue = true := by
  cases st
  case hValueLead => exact h
  all_goals simp_all [routed, isRequestLine]

/-- A pass keeps `Routed`, and a `reset` goes down in rank. -/
theorem switch_routed (k : Frame) (c : Int) (h : Routed k) :
    Pass.All (fun k' _ => Routed k' ∧ k'.s.st.rank < k.s.st.rank) Routed (fun _ _ => True) True
      (switch k c) := by
  unfold Routed at h
  cases hst : k.s.st <;> simp only [switch, hst]
  case hEscaped2 =>
    -- back to the URL state the escape came from
    rw [hst] at h
    simp only [routed, Bool.and_eq_true, Bool.or_eq_true, beq_iff_eq, Bool.not_eq_true'] at h
    obtain ⟨hest, hcollect⟩ := h
    simp only [hEscaped2Case, all_ite, all_reset, all_putcOr, all_brk]
    refine ⟨fun _ => by simp [Routed, routed, isRequestLine, rank, hcollect], fun _ => ⟨fun _ => trivial, ?_⟩⟩
    intro t _
    rcases hest with hest | hest <;> simp [Routed, routed, isRequestLine, hest, hcollect]
  case hCont =>
    simp only [hContCase, all_ite, all_reset]
    have h₁ : hValueLead.rank < hCont.rank := by decide
    have h₂ : hSkipline.rank < hCont.rank := by decide
    refine ⟨fun hc => ⟨?_, h₁⟩, fun hc => ⟨?_, h₂⟩⟩
    · rw [hc] at h
      simpa [Routed, routed] using routed_est h
    · simp [Routed, routed, isRequestLine, hc]
  case hValueLead =>
    rw [hst] at h
    obtain ⟨hr, hlt⟩ := routed_isValue (x := k.s.est) (by simpa [routed] using h) k.s.collect
    simp only [hValueLeadCase, all_ite, all_reset, all_brk]
    refine ⟨fun _ => ⟨?_, ?_⟩, fun _ => ?_⟩
    · simpa [Routed] using hr
    · simpa using hlt
    · simpa [Routed, hst] using h
  all_goals
    rw [hst] at h
    dsimp only [hInitialCase, hMethodCase, hMethodSpCase, hPathCase, hEscaped1Case, hQueryCase,
      hPathSpCase, hProtCase, hProtSlashCase, hProtHttpXCase, hProtHttpXDotCase, hProtHttpXXCase,
      hCrCase, hNlCase, hHeaderCase, hHeaderMatched, hHeadConnectionCase, hHeadExpectCase,
      hHeadTransferEncodingCase, hHeadFlagInitial, hHeadContentLengthCase, hHeadFlagCase,
      hValueCase, hSkiplineCase, hErrorCase]
    simp_all [Routed, routed, isRequestLine, isValue, rank]

/-! ## Turns -/

theorem iterate_next_m {k k' : Frame} {c : Int} (h : iterate k c = .next k') :
    k'.s.m = k.s.m + 1 ∧ k'.s.hmask = k.s.hmask := by
  have hi := iterate_inv (N := fun k' _ => k'.s.m = k.s.m ∧ k'.s.hmask = k.s.hmask)
    (B := fun k' => k'.s.m = k.s.m ∧ k'.s.hmask = k.s.hmask) (R := fun _ _ => True) (F := True)
    (fun k₁ c₁ h₁ => (switch_frame k₁ c₁).imp (fun k₂ _ h₂ => by rw [h₂.1, h₂.2]; exact h₁)
      (fun k₂ h₂ => by rw [h₂.1, h₂.2]; exact h₁) (fun _ _ h => h) id)
    (c := c) (⟨rfl, rfl⟩ : k.s.m = k.s.m ∧ k.s.hmask = k.s.hmask)
  rw [h] at hi
  obtain ⟨k₁, ⟨hm, hh⟩, -, rfl⟩ := hi
  exact ⟨by simp [hm], by simp [hh]⟩

theorem iterate_ok_m {k k' : Frame} {c : Int} (h : iterate k c = .halt (.ok k')) :
    k'.s.m = k.s.m + 1 := by
  have hi := iterate_inv (N := fun k' _ => k'.s.m = k.s.m) (B := fun k' => k'.s.m = k.s.m)
    (R := fun _ _ => True) (F := True)
    (fun k₁ c₁ h₁ => (switch_frame k₁ c₁).imp (fun k₂ _ h₂ => h₂.1.trans h₁)
      (fun k₂ h₂ => h₂.1.trans h₁) (fun _ _ h => h) id) (c := c) (rfl : k.s.m = k.s.m)
  rw [h] at hi
  obtain ⟨k₁, hm, -, rfl⟩ := hi
  simp [hm]

theorem feed_m {k k' : Frame} {cs : List Int} (h : feed iterate k cs = .next k') :
    k'.s.m = k.s.m + BitVec.ofNat 32 cs.length ∧ k'.s.hmask = k.s.hmask := by
  refine feed_inv (fun p k' => k'.s.m = k.s.m + BitVec.ofNat 32 p.length ∧ k'.s.hmask = k.s.hmask)
    (by simp) (fun p k₁ c k₂ h₁ hs => ?_) h
  obtain ⟨hm, hh⟩ := iterate_next_m hs
  rw [hm, hh, h₁.1, h₁.2]
  refine ⟨?_, rfl⟩
  rw [List.length_append, List.length_singleton, BitVec.ofNat_add, BitVec.add_assoc]
  rfl

theorem iterate_routed {k k' : Frame} {c : Int} (hk : Routed k) (h : iterate k c = .next k') :
    Routed k' := by
  have hi := iterate_inv (fun k₁ c₁ h₁ => (switch_routed k₁ c₁ h₁).imp (fun _ _ h => h.1)
    (fun _ h => h) (fun _ _ h => h) id) (c := c) hk
  rw [h] at hi
  obtain ⟨k₁, h₁, -, rfl⟩ := hi
  exact h₁

/-- The `reset`s of a turn always come to an end. -/
theorem iterate_ne_spin {k : Frame} {c : Int} (hk : Routed k) : iterate k c ≠ .halt .spin := by
  have hd : (drive (fun x : Frame × Int => switch x.1 x.2) passLimit (k, c)).isSome := by
    refine drive_isSome (fun x => Routed x.1) (fun x => x.1.s.st.rank) (fun x y hx hy => ?_) hk
      (rank_lt_passLimit _)
    have hs := switch_routed x.1 x.2 hx
    rw [hy] at hs
    exact hs
  unfold iterate
  obtain ⟨l, hl⟩ := Option.isSome_iff_exists.mp hd
  rw [hl]
  cases l with
  | brk k₁ => simp only [finishTurn]; split <;> simp
  | ret n k₁ => simp [finishTurn]
  | fault => simp [finishTurn]

theorem iterate_reset {k k₁ : Frame} {c c₁ : Int} (hk : Routed k)
    (h : switch k c = .next (k₁, c₁)) : iterate k c = iterate k₁ c₁ := by
  have hr := switch_routed k c hk
  rw [h] at hr
  have hlt : k₁.s.st.rank < 7 := by
    have := rank_le k.s.st
    have := hr.2
    omega
  have hd : (drive (fun x : Frame × Int => switch x.1 x.2) 7 (k₁, c₁)).isSome := by
    refine drive_isSome (fun x => Routed x.1) (fun x => x.1.s.st.rank) (fun x y hx hy => ?_) hr.1 hlt
    have hs := switch_routed x.1 x.2 hx
    rw [hy] at hs
    exact hs
  obtain ⟨l, hl⟩ := Option.isSome_iff_exists.mp hd
  unfold iterate
  rw [show passLimit = 7 + 1 from rfl, drive_succ hl, drive]
  dsimp only
  rw [h]
  exact congrArg finishTurn hl

theorem iterate_of_halt {k : Frame} {c : Int} {l : Leave} (h : switch k c = .halt l) :
    iterate k c = finishTurn (some l) := by
  unfold iterate
  rw [show passLimit = 7 + 1 from rfl, drive]
  dsimp only
  rw [h]

theorem iterate_of_brk {k k₁ : Frame} {c : Int} (hs : switch k c = brk k₁) (hnl : k₁.s.nl ≤ 1) :
    iterate k c = .next k₁.advance := by
  rw [iterate_of_halt hs, finishTurn, if_neg (by omega)]

theorem feed_reset {k k₁ : Frame} {x : HttpRequestState} {c : Int} {cs : List Int} (hk : Routed k)
    (hs : switch k c = reset x k₁ c) : feed iterate k (c :: cs) = feed iterate (k₁.shift x) (c :: cs) := by
  rw [feed_cons, feed_cons, iterate_reset hk hs]

theorem feed_routed {k k' : Frame} {cs : List Int} (hk : Routed k)
    (h : feed iterate k cs = .next k') : Routed k' :=
  feed_inv (fun _ => Routed) hk (fun _ _ _ _ h₁ h₂ => iterate_routed h₁ h₂) h

theorem feed_ne_spin {k : Frame} {cs rest : List Int} (hk : Routed k) :
    feed iterate k cs ≠ .halt (.spin, rest) := by
  intro h
  obtain ⟨p, c, k', -, hp, hc⟩ := feed_halt h
  exact iterate_ne_spin (feed_routed hk hp) hc

/-! ## The end of file -/

theorem charAt_nonneg {p : Patricia} {i : Nat} {x : Int} (h : p.charAt i = some x) : 0 ≤ x := by
  unfold Patricia.charAt at h
  obtain ⟨w, -, hw⟩ := Option.bind_eq_some_iff.mp h
  have hmem := List.mem_of_getElem? hw
  simp only [List.mem_append, List.mem_map, List.mem_singleton] at hmem
  rcases hmem with ⟨y, -, rfl⟩ | rfl <;> omega

theorem walkTrie_neg {c : Int} {o : Nat} {tree : List Patricia} {i : Option Patricia}
    {t t' : Triestate} {r : Int} (hc : c < 0) (h : walkTrie c o tree i t = some (r, t')) : r = -1 := by
  have hchild : ∀ p, enterChild c o tree p t = some (r, t') → r = -1 := by
    intro p hp
    simp only [enterChild, Option.bind_eq_bind, Option.bind_eq_some_iff] at hp
    obtain ⟨q, -, hq⟩ := hp
    split at hq
    · rename_i hcond
      have := charAt_nonneg hcond.1
      omega
    · simp_all
  unfold walkTrie at h
  split at h
  · simp only [Option.bind_eq_bind, Option.bind_eq_some_iff] at h
    obtain ⟨p, -, x, hx, h⟩ := h
    have := charAt_nonneg hx
    rw [if_neg (by omega)] at h
    split at h
    · exact hchild p h
    · rw [if_neg (by omega)] at h
      simp_all
  · simp only [Option.bind_eq_bind, Option.bind_eq_some_iff] at h
    obtain ⟨p, -, h⟩ := h
    exact hchild p h

/-- On `H_EOF` a pass hands `H_EOF` on, ends the head or fails; it never waits for more. -/
theorem switch_eof (k : Frame) (c : Int) (hc : c = hEof) :
    Pass.All (fun _ c' => c' = hEof) (fun k' => k'.s.nl = 99) (fun _ _ => True) True
      (switch k c) := by
  have hneg : c < 0 := by rw [hc]; decide
  have heq : ∀ n : Int, 0 ≤ n → (c = n) = False := fun n hn => by simp; omega
  have hle : ∀ n : Int, 0 ≤ n → (n ≤ c) = False := fun n hn => by simp; omega
  have h₁ : uriPchar c = false := by rw [hc]; decide
  have h₂ : uriUric c = false := by rw [hc]; decide
  have h₃ : uriHex c = false := by rw [hc]; decide
  have h₄ : toLower c = c := by rw [hc]; decide
  have h₅ : (c = -1) = True := by simp [hc, hEof]
  have h₆ : (c = hEof) = True := by simp [hc]
  cases hst : k.s.st <;> simp only [switch, hst]
  case hMethod | hProt | hHeader | hHeadFlag =>
    dsimp only [hMethodCase, hProtCase, hHeaderCase, hHeadFlagCase]
    simp only [methodWalk, protWalk, headerWalk, flagWalk, h₄, all_onWalk, heq 32 (by decide),
      heq 47 (by decide), heq 58 (by decide), heq 13 (by decide), heq 10 (by decide), or_self, if_false]
    refine ⟨fun _ => trivial, fun r t h => ?_⟩
    obtain rfl := walkTrie_neg hneg h
    simp [httpProto, h₆]
  all_goals
    dsimp only [hInitialCase, hMethodSpCase, hPathCase, hEscaped1Case, hEscaped2Case, hQueryCase,
      hPathSpCase, hProtSlashCase, hProtHttpXCase, hProtHttpXDotCase, hProtHttpXXCase, hCrCase,
      hNlCase, hHeadConnectionCase, hHeadExpectCase, hHeadTransferEncodingCase, hHeadFlagInitial,
      hHeadContentLengthCase, hContCase, hValueLeadCase, hValueCase, hSkiplineCase, hErrorCase]
    simp [h₁, h₂, h₃, heq, hle, h₅, h₆]

theorem iterate_eof (k k' : Frame) : iterate k hEof ≠ .next k' := by
  intro h
  have hi := iterate_inv (N := fun _ c => c = hEof) switch_eof (k := k) rfl
  rw [h] at hi
  obtain ⟨k₁, h₁, h₂, -⟩ := hi
  omega

/-! ## The loop -/

/-- The bytes of the ring from index `m`, as many as `n`. -/
def Iobuf.window (io : Iobuf) (m : Uint) : Nat → List Byte
  | 0 => []
  | n + 1 => io.at m :: io.window (m + 1) n

/-- The visible bytes from index `m`. -/
def Iobuf.from (io : Iobuf) (m : Uint) : List Byte := io.window m (io.write - m).toNat

@[simp] theorem Iobuf.length_window (io : Iobuf) (m : Uint) (n : Nat) :
    (io.window m n).length = n := by
  induction n generalizing m with
  | zero => rfl
  | succ n ih => simp [window, ih]

/-- A byte as the parser sees it. -/
def chars (w : List Byte) : List Int := w.map BitVec.toInt

theorem chars_append (v w : List Byte) : chars (v ++ w) = chars v ++ chars w := List.map_append

theorem chars_inj {v w : List Byte} (h : chars v = chars w) : v = w :=
  List.map_injective_iff.mpr (fun _ _ => BitVec.eq_of_toInt_eq) h

/-- What the loop makes of the end of the visible bytes. -/
def conclude (io : Iobuf) (rqs : MinuteHttpRqs) : Step Frame (Halt × List Int) → ReadResult
  | .halt (h, _) => finish io rqs h
  | .next k =>
    if io.eof then
      match iterate k hEof with
      | .next _ => .spin
      | .halt h => finish io rqs h
    else suspend io k

/-- **The loop is the machine fed with the visible bytes.** -/
theorem readLoop_eq (io : Iobuf) (rqs : MinuteHttpRqs) (k : Frame) :
    readLoop io rqs ((io.write - k.s.m).toNat + 1) k =
      conclude io rqs (feed iterate k (chars (io.from k.s.m))) := by
  unfold Iobuf.from
  generalize hn : (io.write - k.s.m).toNat = n
  induction n generalizing k with
  | zero =>
    have hm : k.s.m = io.write := by bv_omega
    rw [readLoop, if_pos hm]
    simp only [Iobuf.window, chars, List.map_nil, feed_nil, conclude]
    split
    · cases hi : iterate k hEof with
      | next k' => exact absurd hi (iterate_eof k k')
      | halt h => rfl
    · rfl
  | succ n ih =>
    have hm : k.s.m ≠ io.write := by
      intro hm
      rw [hm] at hn
      simp at hn
    rw [readLoop, if_neg hm]
    simp only [Iobuf.window, chars, List.map_cons, feed_cons]
    cases hi : iterate k (io.at k.s.m).toInt with
    | halt h => rfl
    | next k' =>
      have hm' := (iterate_next_m hi).1
      have hn' : (io.write - k'.s.m).toNat = n := by rw [hm']; bv_omega
      have := ih k' hn'
      rw [hm'] at this
      simpa only [chars] using this

theorem minuteHttpRead_eq (rq : MinuteHttpRq) (rqs : MinuteHttpRqs) (io : Iobuf) (text : Textint) :
    minuteHttpRead rq rqs io text =
      conclude io rqs (feed iterate (startFrame rq rqs io text) (chars (io.from rqs.m))) :=
  readLoop_eq io rqs (startFrame rq rqs io text)

/-- The characters a call finds in the ring: the visible bytes, and the end of file if flagged. -/
def Iobuf.readable (io : Iobuf) (m : Uint) : List Int :=
  chars (io.from m) ++ if io.eof then [hEof] else []

/-- What a call returns for a run over all that it finds in the ring. -/
def outcome (io : Iobuf) (rqs : MinuteHttpRqs) : Step Frame (Halt × List Int) → ReadResult
  | .halt (h, _) => finish io rqs h
  | .next k => suspend io k

/-- **A call is a run over what it finds in the ring.** -/
theorem minuteHttpRead_readable (rq : MinuteHttpRq) (rqs : MinuteHttpRqs) (io : Iobuf)
    (text : Textint) :
    minuteHttpRead rq rqs io text =
      outcome io rqs (feed iterate (startFrame rq rqs io text) (io.readable rqs.m)) := by
  rw [minuteHttpRead_eq, Iobuf.readable, feed_append]
  cases feed iterate (startFrame rq rqs io text) (chars (io.from rqs.m)) with
  | halt r => rfl
  | next k =>
    cases he : io.eof
    · simp [conclude, outcome, he]
    · simp only [conclude, he, if_true, feed_cons]
      cases hi : iterate k hEof with
      | next k' => exact absurd hi (iterate_eof k k')
      | halt h => rfl

/-- The call always returns. -/
theorem minuteHttpRead_ne_spin {rq : MinuteHttpRq} {rqs : MinuteHttpRqs} {io : Iobuf}
    {text : Textint} (hk : Routed (startFrame rq rqs io text)) :
    minuteHttpRead rq rqs io text ≠ .spin := by
  rw [minuteHttpRead_readable]
  cases hf : feed iterate (startFrame rq rqs io text) (io.readable rqs.m) with
  | next k => simp [outcome, suspend]
  | halt r =>
    obtain ⟨h, rest⟩ := r
    cases h with
    | spin => exact absurd hf (feed_ne_spin hk)
    | _ => simp [outcome, finish]

theorem feed_code {k k' : Frame} {cs rest : List Int} {n : Nat} (h : feed iterate k cs = .halt (.ret n k', rest)) :
    n < 1000 := by
  obtain ⟨p, c, k₁, -, -, hc⟩ := feed_halt h
  have hi := iterate_inv (fun k c _ => switch_code k c) (k := k₁) (c := c) trivial
  rw [hc] at hi
  exact hi

theorem minuteHttpRead_code {rq rq' : MinuteHttpRq} {rqs rqs' : MinuteHttpRqs} {io io' : Iobuf}
    {text text' : Textint} {n : Nat} (h : minuteHttpRead rq rqs io text = .code n rq' rqs' io' text') : n < 1000 := by
  rw [minuteHttpRead_readable] at h
  cases hf : feed iterate (startFrame rq rqs io text) (io.readable rqs.m) with
  | next k =>
    rw [hf] at h
    cases h
    decide
  | halt r =>
    obtain ⟨halt, rest⟩ := r
    rw [hf] at h
    cases halt with
    | ok k =>
      cases h
      decide
    | ret code k =>
      cases h
      exact feed_code hf
    | fault => cases h
    | spin => cases h

end MinuteHttp
