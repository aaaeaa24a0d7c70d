import MinuteHttp.Libhttp.LineEnds

/-!
# The flags of a request

Connection, Expect and Transfer-Encoding have keywords for values, and `h_head_flag` walks them in
`utility`, one child of the header's initial node for each (`keywords`). What the walk does is known letter
by letter (`flagWalk_start`, `flagWalk_keyword`). A flag, once set, is never looked at and never cleared:
a run from a request with one flag more leaves the same with that flag more (`runLeft_withFlag`), and a flag
that a run leaves was there before or is set in one of its turns (`runLeft_hasFlag`).
-/

namespace MinuteHttp

open HttpRequestState Feed

/-! ## Keywords -/

/-- The initial node that a state chooses for `h_head_flag`. -/
def HttpRequestState.flagInitial : HttpRequestState → Option Patricia
  | hHeadConnection => some patinitialConnection
  | hHeadExpect => some patinitialExpect
  | hHeadTransferEncoding => some patinitialTransfer
  | _ => none

/-- A value that sets a flag: the state that its header's values are read in, its letters, its entry in
`utility`, and the flag. -/
structure Keyword where
  st : HttpRequestState
  letters : List Int
  slot : Nat
  flag : Nat

def keywords : List Keyword :=
  [⟨hHeadConnection, intsOf "close", 4, httpConnectionClose⟩,
   ⟨hHeadConnection, intsOf "keep-alive", 12, httpConnectionKeep⟩,
   ⟨hHeadTransferEncoding, intsOf "chunked", 5, httpTransferChunked⟩,
   ⟨hHeadExpect, intsOf "100-continue", 26, httpExpectContinue⟩]

/-- The character ends a keyword: a line end or a NUL. -/
def endsKeyword (c : Int) : Prop := c = 13 ∨ c = 10 ∨ c = 0

instance endsKeyword.decidable (c : Int) : Decidable (endsKeyword c) := inferInstanceAs (Decidable (_ ∨ _))

/-- The letters of a keyword begin it where its header has no other, and end it with its flag. -/
theorem keywords_facts :
    (∀ e ∈ keywords, e.letters ≠ [] ∧ (∀ x ∈ e.letters, ¬endsKeyword x ∧ x ≠ 32 ∧ x ≠ 9) ∧
      (e.flag = 1 ∨ e.flag = 2 ∨ e.flag = 4 ∨ e.flag = 8)) ∧
    (∀ e ∈ keywords, ∀ e' ∈ keywords, e.st = e'.st → e.letters.head? = e'.letters.head? →
      e.letters = e'.letters ∧ e.slot = e'.slot ∧ e.flag = e'.flag) := by
  decide +kernel

theorem keywords_entry {e : Keyword} (he : e ∈ keywords) :
    ∃ p, utility[e.slot]? = some p ∧ p.offset = 0 ∧ p.next = 99 ∧ p.terminal = e.flag ∧
      ∀ n, p.charAt n = (e.letters ++ [0])[n]? := by
  simp only [keywords, List.mem_cons, List.not_mem_nil, or_false] at he
  rcases he with rfl | rfl | rfl | rfl
  all_goals exact ⟨_, rfl, rfl, rfl, rfl, fun n => rfl⟩

theorem keywords_children : ∀ e ∈ keywords, ∀ i ∈ e.st.flagInitial, (∀ x ∈ e.letters.head?,
    i.offset + utilityTrieMap x = e.slot ∧ ∀ p ∈ utility[e.slot]?, p.charAt 0 = some x ∧ p.check = i.next) := by
  decide +kernel

/-- The letter `x` begins the keyword at `slot` of the header that is read in `s`. -/
def Begins (s : HttpRequestState) (slot : Nat) (x : Int) : Prop :=
  ∃ e ∈ keywords, e.st = s ∧ e.slot = slot ∧ e.letters.head? = some x

instance Begins.decidable (s : HttpRequestState) (slot : Nat) (x : Int) : Decidable (Begins s slot x) :=
  inferInstanceAs (Decidable (∃ e ∈ keywords, _))

theorem keywords_complete : ∀ s ∈ [hHeadConnection, hHeadExpect, hHeadTransferEncoding], ∀ i ∈ s.flagInitial,
    ∀ j < 27, (utility[i.offset + j]?).isSome ∧
      ∀ p ∈ utility[i.offset + j]?, p.check = i.next → ∀ x ∈ p.charAt 0, Begins s (i.offset + j) x := by
  decide +kernel

theorem flagInitial_eq_some {s : HttpRequestState} {i : Patricia} (h : s.flagInitial = some i) :
    s ∈ [hHeadConnection, hHeadExpect, hHeadTransferEncoding] := by
  cases s <;> first | (cases h; done) | decide

/-- **The first letter of a value**: of a keyword, or of none. -/
theorem flagWalk_start {s : HttpRequestState} {i : Patricia} (hi : s.flagInitial = some i) {t : Triestate}
    (ht : t.poff = 0) (c : Int) :
    (∃ e ∈ keywords, e.st = s ∧ e.letters.head? = some c ∧ flagWalk (some i) c t = some (0, ⟨1, e.slot⟩)) ∨
      ((∀ e ∈ keywords, e.st = s → e.letters.head? ≠ some c) ∧ flagWalk (some i) c t = some (-1, t)) := by
  have hmap := utilityTrieMap_le c
  have hs := flagInitial_eq_some hi
  obtain ⟨hsome, hchild⟩ := keywords_complete s hs i hi (utilityTrieMap c) (by omega)
  obtain ⟨p, hp⟩ := Option.isSome_iff_exists.mp hsome
  have hwalk : flagWalk (some i) c t =
      if p.charAt 0 = some (if c = 13 ∨ c = 10 then 0 else c) ∧ p.check = i.next then
        some (0, ⟨1, i.offset + utilityTrieMap c⟩) else some (-1, t) := by
    unfold flagWalk walkTrie
    rw [if_neg (fun h => h ht), Option.bind_eq_bind, Option.bind_some, enterChild, hp]
    rfl
  rw [hwalk]
  by_cases hfirst : p.charAt 0 = some (if c = 13 ∨ c = 10 then 0 else c) ∧ p.check = i.next
  · obtain ⟨e, he, hst, hslot, hhead⟩ := hchild p hp hfirst.2 _ hfirst.1
    have hx := (keywords_facts.1 e he).2.1 _ (List.mem_of_head? hhead)
    have hc : (if c = 13 ∨ c = 10 then 0 else c) = c := by
      by_cases hend : c = 13 ∨ c = 10
      · rw [if_pos hend] at hx
        exact absurd (.inr (.inr rfl)) hx.1
      · rw [if_neg hend]
    rw [if_pos hfirst, ← hslot]
    rw [hc] at hhead
    exact .inl ⟨e, he, hst, hhead, rfl⟩
  · rw [if_neg hfirst]
    refine .inr ⟨fun e he hst hhead => hfirst ?_, rfl⟩
    obtain ⟨hslot, hentry⟩ := keywords_children e he i (hst ▸ hi) c hhead
    have hx := (keywords_facts.1 e he).2.1 _ (List.mem_of_head? hhead)
    rw [← hslot] at hentry
    rw [if_neg fun h => hx.1 (h.imp id .inl)]
    exact hentry p hp

/-- **A later letter**: the keyword goes on, or ends, or does neither. -/
theorem flagWalk_keyword {e : Keyword} (he : e ∈ keywords) {n : Nat} (hpos : n ≠ 0) (hle : n ≤ e.letters.length)
    (i : Option Patricia) (c : Int) :
    flagWalk i c ⟨n, e.slot⟩ =
      if endsKeyword c ∧ n = e.letters.length then some ((e.flag : Int), ⟨n, e.slot⟩)
      else if e.letters[n]? = some c then some (0, ⟨n + 1, e.slot⟩)
      else some (-1, ⟨n, e.slot⟩) := by
  obtain ⟨p, hp, hoff, hnext, hterm, hchar⟩ := keywords_entry he
  have hend : (if c = 13 ∨ c = 10 then (0 : Int) else c) = 0 ↔ endsKeyword c := by
    unfold endsKeyword
    split <;> grind
  unfold flagWalk walkTrie
  rw [if_pos hpos]
  simp only [hp, Option.bind_eq_bind, Option.bind_some, hchar]
  obtain hlt | rfl := Nat.lt_or_eq_of_le hle
  · -- inside the keyword
    have hx := (keywords_facts.1 e he).2.1 _ (List.getElem_mem hlt)
    rw [List.getElem?_append_left hlt, List.getElem?_eq_getElem hlt, Option.bind_some]
    have hx0 : e.letters[n] ≠ 0 := fun h => hx.1 (.inr (.inr h))
    have hinside : ¬(endsKeyword c ∧ n = e.letters.length) := fun h => absurd h.2 (Nat.ne_of_lt hlt)
    rw [if_neg (fun h => hx0 h.1), if_neg hx0, if_neg hinside]
    have hsame : e.letters[n] = (if c = 13 ∨ c = 10 then 0 else c) ↔ e.letters[n] = c := by
      by_cases hc : c = 13 ∨ c = 10
      · rw [if_pos hc]
        refine ⟨fun h => absurd h hx0, fun h => absurd ?_ hx.1⟩
        rw [h]
        exact hc.imp id .inl
      · rw [if_neg hc]
    simp only [hsame, Option.some.injEq]
  · -- behind its last letter
    have h0 : (e.letters ++ [0])[e.letters.length]? = some 0 := by simp
    have hnone : e.letters[e.letters.length]? = none := by simp
    rw [h0, Option.bind_some, hnone]
    simp only [true_and, if_true, hend, and_true, reduceCtorEq, if_false]
    by_cases hc : endsKeyword c
    · rw [if_pos hc, if_pos hc, hterm]
    · rw [if_neg hc, if_neg hc, enterChild, hoff, hnext, Nat.zero_add]
      have hmap := utilityTrieMap_le c
      have hleaf : ∀ j < 27, ∃ q, utility[j]? = some q ∧ q.check ≠ 99 := by
        have hall : ∀ j < 27, (utility[j]?).isSome ∧ ∀ q ∈ utility[j]?, q.check ≠ 99 := by decide +kernel
        intro j hj
        obtain ⟨q, hq⟩ := Option.isSome_iff_exists.mp (hall j hj).1
        exact ⟨q, hq, (hall j hj).2 q hq⟩
      obtain ⟨q, hq, hcheck⟩ := hleaf (utilityTrieMap c) (by omega)
      simp only [hq, Option.bind_eq_bind, Option.bind_some]
      rw [if_neg fun h => hcheck h.2]

/-! ## The flags set in a turn -/

theorem hasFlag_or (f g : Uint) (bit : Nat) : hasFlag (f ||| g) bit = (hasFlag f bit || hasFlag g bit) := by
  unfold hasFlag
  have hdistrib : (f ||| g) &&& BitVec.ofNat 32 bit = f &&& BitVec.ofNat 32 bit ||| g &&& BitVec.ofNat 32 bit := by
    ext i hi
    simp [Bool.and_or_distrib_right]
  have hzero : f &&& BitVec.ofNat 32 bit ||| g &&& BitVec.ofNat 32 bit ≠ 0 ↔
      f &&& BitVec.ofNat 32 bit ≠ 0 ∨ g &&& BitVec.ofNat 32 bit ≠ 0 := by
    rw [ne_eq, show (0 : Uint) = 0#32 from rfl, BitVec.or_eq_zero_iff]
    tauto
  rw [hdistrib, Bool.eq_iff_iff, decide_eq_true_iff, hzero, Bool.or_eq_true, decide_eq_true_iff, decide_eq_true_iff]

/-- The initial node of the walk that the turn on `c` makes in `h_head_flag`, if it makes one there. -/
def flagNode (k : Frame) (c : Int) : Option (Option Patricia) :=
  match k.s.st with
  | hHeadFlag => some k.patinitialFlag
  | hCont => if k.s.collect = true ∧ ¬(c = 32 ∨ c = 9) then k.s.est.flagInitial.map some else none
  | hValueLead => if c = 32 ∨ c = 9 then none else k.s.est.flagInitial.map some
  | s => s.flagInitial.map some

/-- The flags that the turn on `c` sets for a keyword. -/
def flagSet (k : Frame) (c : Int) : Uint :=
  match flagNode k c with
  | some i =>
    match flagWalk i (toLower c) k.tstate with
    | some (r, _) => if 0 < r then BitVec.ofInt 32 r else 0#32
    | none => 0#32
  | none => 0#32

/-- Some turn of the run on `cs` sets the flag `bit` for a keyword. -/
def SetsFlag (bit : Nat) (k : Frame) (cs : List Int) : Prop :=
  ¬Along iterate (fun k c => hasFlag (flagSet k c) bit = false) k cs

instance SetsFlag.decidable (bit : Nat) (k : Frame) (cs : List Int) : Decidable (SetsFlag bit k cs) :=
  inferInstanceAs (Decidable (¬_))

/-- A flag of `h_head_flag`. -/
def IsFlag (bit : Nat) : Prop := bit = 1 ∨ bit = 2 ∨ bit = 4 ∨ bit = 8

theorem flagSet_none {k : Frame} {c : Int} (h : flagNode k c = none) : flagSet k c = 0#32 := by
  rw [flagSet, h]

theorem switch_hasFlag {bit : Nat} (hbit : IsFlag bit) {k : Frame} (hk : Routed k) (c : Int) :
    Pass.All
      (fun k' c' => (hasFlag k'.rq.flags bit || hasFlag (flagSet k' c') bit) =
        (hasFlag k.rq.flags bit || hasFlag (flagSet k c) bit))
      (fun k' => hasFlag k'.rq.flags bit = (hasFlag k.rq.flags bit || hasFlag (flagSet k c) bit))
      (fun _ k' => hasFlag k'.rq.flags bit = (hasFlag k.rq.flags bit || hasFlag (flagSet k c) bit)) True
      (switch k c) := by
  have hzero : hasFlag 0#32 bit = false := by simp [hasFlag]
  have hlength (f : Uint) : hasFlag (f ||| BitVec.ofNat 32 httpContentLength) bit = hasFlag f bit := by
    have h16 : hasFlag (BitVec.ofNat 32 httpContentLength) bit = false := by
      rcases hbit with rfl | rfl | rfl | rfl <;> decide
    rw [hasFlag_or, h16, Bool.or_false]
  cases hst : k.s.st <;> simp only [switch, hst]
  case hHeadFlag =>
    simp only [hHeadFlagCase, all_onWalk, all_ite, all_reset, all_brk]
    refine ⟨fun _ => trivial, fun r t hw => ?_⟩
    have hset : flagSet k c = if 0 < r then BitVec.ofInt 32 r else 0#32 := by
      simp only [flagSet, flagNode, hst, hw]
    rw [hset]
    refine ⟨fun hr => ?_, fun hr => ⟨fun hpos => ?_, fun hpos => ?_⟩⟩
    · rw [if_neg (by omega), flagSet_none rfl]
      rfl
    · rw [if_pos hpos, flagSet_none rfl, hzero, Bool.or_false]
      exact hasFlag_or _ _ _
    · rw [if_neg (by omega), hzero, Bool.or_false]
  case hValueLead =>
    simp only [hValueLeadCase, all_ite, all_reset, all_brk]
    refine ⟨fun hc => ?_, fun hc => ?_⟩
    · have hnode : flagNode (k.mark.shift k.s.est) c = flagNode k c := by
        have hest : k.s.est.isValue = true := by
          rw [Routed, hst] at hk
          exact hk
        have hblank : ¬(c = 32 ∨ c = 9) := by omega
        simp only [flagNode, hst, if_neg hblank, shift_s]
        cases he : k.s.est <;> rw [he] at hest <;> first | rfl | cases hest
      rw [flagSet, hnode]
      rfl
    · have hblank : c = 32 ∨ c = 9 := by omega
      have hnode : flagNode k c = none := by simp only [flagNode, hst, if_pos hblank]
      rw [flagSet_none hnode, hzero, Bool.or_false]
  case hCont =>
    simp only [hContCase, all_ite, all_reset]
    refine ⟨fun hcol => ?_, fun hcol => ?_⟩
    · have hnode : ∀ t : Textint, flagNode (Frame.shift hValueLead { k with text := t }) c = flagNode k c := by
        intro t
        by_cases hblank : c = 32 ∨ c = 9 <;> simp [flagNode, hst, hcol, hblank]
      rw [flagSet, hnode]
      rfl
    · have hnode : flagNode k c = none := by simp [flagNode, hst, hcol]
      rw [flagSet_none hnode, flagSet_none rfl]
      rfl
  all_goals
    dsimp only [hInitialCase, hMethodCase, hMethodSpCase, hPathCase, hEscaped1Case, hEscaped2Case, hQueryCase,
      hPathSpCase, hProtCase, hProtSlashCase, hProtHttpXCase, hProtHttpXDotCase, hProtHttpXXCase, hCrCase, hNlCase,
      hHeaderCase, hHeaderMatched, hHeadConnectionCase, hHeadExpectCase, hHeadTransferEncodingCase, hHeadFlagInitial,
      hHeadContentLengthCase, hValueCase, hSkiplineCase, hErrorCase]
    simp [flagSet, flagNode, hst, flagInitial, hzero, hlength]

/-- **A turn** keeps a flag, and sets it or not. -/
theorem iterate_hasFlag {bit : Nat} (hbit : IsFlag bit) {k : Frame} (hk : Routed k) (c : Int) :
    (iterate k c).Holds
      (fun k' => hasFlag k'.rq.flags bit = (hasFlag k.rq.flags bit || hasFlag (flagSet k c) bit))
      (fun r => ∀ k' ∈ r.frame, hasFlag k'.rq.flags bit = (hasFlag k.rq.flags bit || hasFlag (flagSet k c) bit)) := by
  have hi := iterate_inv (k := k) (c := c)
    (N := fun k' c' => Routed k' ∧ (hasFlag k'.rq.flags bit || hasFlag (flagSet k' c') bit) =
      (hasFlag k.rq.flags bit || hasFlag (flagSet k c) bit))
    (B := fun k' => hasFlag k'.rq.flags bit = (hasFlag k.rq.flags bit || hasFlag (flagSet k c) bit))
    (R := fun _ k' => hasFlag k'.rq.flags bit = (hasFlag k.rq.flags bit || hasFlag (flagSet k c) bit)) (F := True)
    (fun k₁ c₁ h₁ => ?_) ⟨hk, rfl⟩
  · cases hs : iterate k c with
    | next k' =>
      rw [hs] at hi
      obtain ⟨k₁, h₁, -, rfl⟩ := hi
      exact h₁
    | halt r =>
      rw [hs] at hi
      intro k' hk'
      cases r with
      | ok k₂ =>
        obtain rfl := Option.some.inj hk'
        obtain ⟨k₁, h₁, -, rfl⟩ := hi
        exact h₁
      | ret n k₂ =>
        obtain rfl := Option.some.inj hk'
        exact hi
      | fault => cases hk'
      | spin => cases hk'
  · exact ((switch_routed k₁ c₁ h₁.1).and (switch_hasFlag hbit h₁.1 c₁)).imp
      (fun _ _ h => ⟨h.1.1, h.2.trans h₁.2⟩) (fun _ h => h.2.trans h₁.2) (fun _ _ h => h.2.trans h₁.2) fun _ => trivial

theorem setsFlag_cons {bit : Nat} {k : Frame} {c : Int} {cs : List Int} :
    SetsFlag bit k (c :: cs) ↔
      hasFlag (flagSet k c) bit = true ∨ ∃ k', iterate k c = .next k' ∧ SetsFlag bit k' cs := by
  unfold SetsFlag
  rw [not_along_cons, Bool.not_eq_false]

/-- **A flag that a run leaves** was there before, or is set in one of its turns. -/
theorem runLeft_hasFlag {bit : Nat} (hbit : IsFlag bit) {k : Frame} {cs : List Int} (hk : Routed k) {n : Nat}
    {rq : MinuteHttpRq} {text : Textint} (h : runLeft (feed iterate k cs) = some (n, rq, text)) :
    hasFlag rq.flags bit = true ↔ hasFlag k.rq.flags bit = true ∨ SetsFlag bit k cs := by
  induction cs generalizing k with
  | nil =>
    simp only [feed_nil, runLeft, Option.some.injEq, Prod.mk.injEq] at h
    rw [← h.2.1]
    have hnil : ¬SetsFlag bit k [] := fun h => h trivial
    simp [hnil]
  | cons c cs ih =>
    have hi := iterate_hasFlag hbit hk c
    rw [setsFlag_cons, ← or_assoc, ← Bool.or_eq_true]
    rw [feed_cons] at h
    cases hs : iterate k c with
    | next k' =>
      rw [hs] at hi h
      rw [ih (iterate_routed hk hs) h, show hasFlag k'.rq.flags bit = _ from hi]
      simp
    | halt r =>
      rw [hs] at hi h
      obtain ⟨k', hrq, -, hx | ⟨r', rest, hx, hk'⟩⟩ := runLeft_frame h
      · cases hx
      · simp only [Step.halt.injEq, Prod.mk.injEq] at hx
        rw [← hrq, hi k' (hx.1 ▸ hk')]
        simp

/-! ## A flag more -/

/-- `rq->flags |= f` -/
def MinuteHttpRq.withFlag (f : Uint) (rq : MinuteHttpRq) : MinuteHttpRq := { rq with flags := rq.flags ||| f }

def Frame.withFlag (f : Uint) (k : Frame) : Frame := { k with rq := k.rq.withFlag f }

theorem withFlag_eq_self_iff {bit : Nat} (hbit : IsFlag bit) (rq : MinuteHttpRq) :
    rq.withFlag (BitVec.ofNat 32 bit) = rq ↔ hasFlag rq.flags bit = true := by
  obtain ⟨i, hi, rfl⟩ : ∃ i < 32, bit = 2 ^ i := by
    rcases hbit with rfl | rfl | rfl | rfl
    exacts [⟨0, by decide, rfl⟩, ⟨1, by decide, rfl⟩, ⟨2, by decide, rfl⟩, ⟨3, by decide, rfl⟩]
  have hpow : BitVec.ofNat 32 (2 ^ i) = BitVec.twoPow 32 i := by
    apply BitVec.eq_of_toNat_eq
    rw [BitVec.toNat_ofNat, BitVec.toNat_twoPow]
  have heq : rq.withFlag (BitVec.ofNat 32 (2 ^ i)) = rq ↔ rq.flags ||| BitVec.ofNat 32 (2 ^ i) = rq.flags := by
    unfold MinuteHttpRq.withFlag
    constructor
    · intro h
      exact congrArg MinuteHttpRq.flags h
    · intro h
      rw [h]
  rw [heq, hasFlag_iff _ i hi, hpow]
  constructor
  · intro h
    rw [← h]
    simp [hi]
  · intro h
    apply BitVec.eq_of_getLsbD_eq
    intro j hj
    rw [BitVec.getLsbD_or, BitVec.getLsbD_twoPow]
    by_cases hij : i = j
    · rw [← hij, h, Bool.true_or]
    · simp [hij]

theorem switch_withFlag (f : Uint) {k k' : Frame} (c : Int) (h : k' = k.withFlag f) :
    Pass.Sim (fun k₁ k₁' _ => k₁' = k₁.withFlag f) (fun k₁ k₁' => k₁' = k₁.withFlag f)
      (fun _ k₁ k₁' => k₁' = k₁.withFlag f) (switch k c) (switch k' c) := by
  obtain ⟨rq, s, text, b, t, p⟩ := k
  subst h
  have hor (x : Uint) : rq.flags ||| f ||| x = rq.flags ||| x ||| f := by
    rw [BitVec.or_assoc, BitVec.or_comm f, ← BitVec.or_assoc]
  cases hst : s.st <;> simp only [switch, Frame.withFlag, MinuteHttpRq.withFlag, hst]
  all_goals
    dsimp only [hInitialCase, hMethodCase, hMethodSpCase, hPathCase, hEscaped1Case, hEscaped2Case, hQueryCase,
      hPathSpCase, hProtCase, hProtSlashCase, hProtHttpXCase, hProtHttpXDotCase, hProtHttpXXCase, hCrCase, hNlCase,
      hHeaderCase, hHeaderMatched, hHeadConnectionCase, hHeadExpectCase, hHeadTransferEncodingCase, hHeadFlagInitial,
      hHeadContentLengthCase, hHeadFlagCase, hContCase, hValueLeadCase, hValueCase, hSkiplineCase, hErrorCase]
    simp [hor, Frame.shift, Frame.mark, Frame.setNl, Frame.setEst,
      Frame.clearTrie, markUnlessUnknown_eq]

/-- **A run from a request with one flag more** leaves the same, with that flag more. -/
theorem runLeft_withFlag (f : Uint) (k : Frame) (cs : List Int) :
    runLeft (feed iterate (k.withFlag f) cs) =
      (runLeft (feed iterate k cs)).map fun x => (x.1, x.2.1.withFlag f, x.2.2) := by
  induction cs generalizing k with
  | nil => rfl
  | cons c cs ih =>
    have hi := iterate_sim (N := fun k₁ k₁' _ => k₁' = k₁.withFlag f) (B := fun k₁ k₁' => k₁' = k₁.withFlag f)
      (R := fun _ k₁ k₁' => k₁' = k₁.withFlag f) (fun k₁ k₁' c₁ h₁ => switch_withFlag f c₁ h₁)
      (fun _ _ h₁ => by rw [h₁]; rfl) (c := c) (rfl : k.withFlag f = k.withFlag f)
    rw [feed_cons, feed_cons]
    obtain ⟨x, x', hs, hs', k₁, _, rfl, rfl, rfl⟩ | ⟨r, r', hs, hs', hr⟩ := hi.cases
    · rw [hs, hs']
      exact ih k₁.advance
    · rw [hs, hs']
      cases r <;> cases r' <;> try exact hr.elim
      case ok =>
        obtain ⟨k₁, _, rfl, rfl, rfl⟩ := hr
        rfl
      case ret =>
        obtain ⟨rfl, rfl⟩ := hr
        rfl
      case fault => rfl
      case spin => rfl

end MinuteHttp
