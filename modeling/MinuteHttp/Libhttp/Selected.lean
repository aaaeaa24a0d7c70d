import MinuteHttp.Libhttp.LineNames

/-!
# Which headers are stored

Each step of the parser adds to the integers the pair of the header that it collects (`storedPair`), so the
integers of a head are the outputs of its run (`feed_pairs`). What is to be stored can be seen in the text: the
names of the headers that the mask asks for (`wantedPair`). The two are the same where every step tells a header
to be stored from its text (`TellsWanted`): it is then that the shift of the mask is in range, that a name has
been read as it is written, and that the parser has seen the line begin.
-/

namespace MinuteHttp

open HttpRequestState Feed

/-! ## What is to be stored -/

/-- Whether the mask asks for the header `r`. -/
def wanted (hmask : Uint) (r : Nat) : Bool :=
  if r < 32 then hmask.getLsbD r else decide (hmask = minuteAllHeaders)

/-- The characters end in the `':'` behind the name of a header that is to be stored. -/
def EndsWanted (hmask : Uint) (p : List Int) (r : Nat) : Prop :=
  EndsHeader p r ∧ interpreted r = false ∧ wanted hmask r = true

instance EndsWanted.decidable (hmask : Uint) (p : List Int) (r : Nat) : Decidable (EndsWanted hmask p r) :=
  inferInstanceAs (Decidable (_ ∧ _ ∧ _))

/-- That header. -/
def wantedHeader (hmask : Uint) (p : List Int) : Option Nat :=
  headerCodes.find? fun r => decide (EndsWanted hmask p r)

instance Open.decidable (k : Frame) : Decidable (Open k) := inferInstanceAs (Decidable (_ ∨ (_ ∧ _)))

/-- Where the value behind the character `c` goes in the text, if it is put there. -/
def valueOffset (k : Frame) (c : Int) : Option Uint :=
  match iterate k c with
  | .next k' => if Open k' then some k'.text.text else none
  | .halt _ => none

/-- What a step is to add to the integers. -/
def wantedPair (hmask : Uint) (p : List Int) (k : Frame) (c : Int) : Option (Uint × Option Uint) :=
  (wantedHeader hmask (p ++ [c])).map fun r => (BitVec.ofNat 32 r, valueOffset k c)

/-- The count of the shift that a step evaluates: the header's number, unless it is interpreted. -/
def shiftCount (k : Frame) (c : Int) : Option Nat := (recognised k c).filter fun r => !interpreted r

/-- The integers of `t` are what is to be stored of a run on `cs`, which evaluates no shift by 32 or more. -/
structure StoresWanted (hmask : Uint) (k : Frame) (cs : List Int) (t : Textint) : Prop where
  even : t.integers.length % 2 = 0
  pairs : (pairs t.integers).map (fun x => (x.1, some x.2)) = outputs iterate (wantedPair hmask) k cs
  shift : Along iterate (fun k c => ∀ r ∈ shiftCount k c, r < 32) k cs

/-- A step that tells a header to be stored from its text: a name that the parser takes for a selected header's is
one, that of a header with a bit in the mask, and behind every other such name the parser reads it as well. -/
structure TellsWanted (hmask : Uint) (p : List Int) (k : Frame) (c : Int) : Prop where
  shift : ∀ r ∈ shiftCount k c, r < 32
  named : ∀ r ∈ shiftCount k c, wanted hmask r = true → EndsHeader (p ++ [c]) r
  read : ∀ r, EndsWanted hmask (p ++ [c]) r → k.s.st = hHeader

theorem EndsHeader.unique {p : List Int} {r s : Nat} (hr : EndsHeader p r) (hs : EndsHeader p s) : r = s := by
  have hname := List.append_cancel_right (hr.2.2.symm.trans hs.2.2)
  exact headerName_injOn r hr.2.1 s hs.2.1 hname

theorem wantedHeader_eq_some {hmask : Uint} {p : List Int} {r : Nat} :
    wantedHeader hmask p = some r ↔ EndsWanted hmask p r := by
  constructor
  · intro h
    unfold wantedHeader at h
    have h := List.find?_some h
    exact of_decide_eq_true h
  · intro h
    cases hf : wantedHeader hmask p with
    | none =>
      have := List.find?_eq_none.mp hf r h.1.2.1
      exact absurd (decide_eq_true h) this
    | some s =>
      have hs := List.find?_some hf
      rw [(of_decide_eq_true hs : EndsWanted hmask p s).1.unique h.1]

/-- Of the headers with a bit in the mask, the parser selects those that are asked for. -/
theorem selected_eq_wanted (hmask : Uint) {r : Nat} (hr : r < 32) : selected hmask r = wanted hmask r := by
  have hbit : headerBit r = BitVec.twoPow 32 r := by
    rw [headerBit, Nat.mod_eq_of_lt hr]
    rfl
  rw [selected, wanted, if_pos hr, hbit, BitVec.and_twoPow]
  cases hmask.getLsbD r with
  | false => rfl
  | true =>
    rw [if_pos rfl]
    refine decide_eq_true fun h => ?_
    have h := congrArg BitVec.toNat h
    rw [BitVec.toNat_twoPow_of_lt hr] at h
    exact absurd h (Nat.two_pow_pos r).ne'

/-! ## What a step stores -/

/-- What a step adds to the integers. -/
def storedPair (k : Frame) (c : Int) : Option (Uint × Uint) :=
  if collects k c = true then (recognised k c).map fun r => (BitVec.ofNat 32 r, k.text.text) else none

section

variable {k k' : Frame} {c : Int}

theorem collects_iff : collects k c = true ↔ ∃ r ∈ shiftCount k c, selected k.s.hmask r = true := by
  unfold collects shiftCount recognised
  by_cases hst : k.s.st = hHeader
  · rw [if_pos hst, hst, beq_self_eq_true, Bool.true_and]
    cases headerWalk (toLower c) k.tstate with
    | none => simp
    | some x =>
      obtain ⟨r, t⟩ := x
      by_cases hr : 0 < r
      · simp [hr]
      · simp [hr]
  · simp [hst]

theorem storedPair_eq {r : Nat} (hr : r ∈ shiftCount k c) (hsel : selected k.s.hmask r = true) :
    storedPair k c = some (BitVec.ofNat 32 r, k.text.text) := by
  rw [storedPair, if_pos (collects_iff.mpr ⟨r, hr, hsel⟩)]
  have hrec : recognised k c = some r := (Option.filter_eq_some_iff.mp hr).1
  rw [hrec]
  rfl

theorem storedPair_cases : storedPair k c = none ∨ ∃ r ∈ shiftCount k c, selected k.s.hmask r = true ∧
    storedPair k c = some (BitVec.ofNat 32 r, k.text.text) := by
  by_cases hc : collects k c = true
  · obtain ⟨r, hr, hsel⟩ := collects_iff.mp hc
    exact .inr ⟨r, hr, hsel, storedPair_eq hr hsel⟩
  · exact .inl (if_neg hc)

theorem storedPair_none (h : collects k c = false) : storedPair k c = none := by
  rw [storedPair, h]
  rfl

theorem StoreInv.pairs_putc {t t' : Textint} {b : Byte} (h : StoreInv t) (hp : minuteTextintPutc b t = some t') :
    pairs t'.integers = pairs t.integers := by
  rw [(putc_spec h.ok hp).2.2]

theorem StoreInv.pairs_puti {t t' t'' : Textint} {r : Uint} (h : StoreInv t) (hr : minuteTextintPuti r t = some t')
    (ho : minuteTextintPuti t'.text t' = some t'') :
    pairs t''.integers = pairs t.integers ++ [(r, t.text)] ∧ t''.text = t.text := by
  obtain ⟨hapart, -, htext, -, -, hi⟩ := h.ok.apart.puti hr
  obtain ⟨-, -, htext', -, -, hi'⟩ := hapart.puti ho
  rw [hi', hi, pairs_append h.even, htext]
  exact ⟨rfl, htext'.trans htext⟩

theorem switch_recognised {r : Nat} (h : recognised k c = some r) : switch k c = hHeaderMatched r k.clearTrie := by
  have hst : k.s.st = hHeader := by
    by_contra hst
    rw [recognised_other c hst] at h
    cases h
  rw [recognised, if_pos hst] at h
  cases hw : headerWalk (toLower c) k.tstate with
  | none =>
    rw [hw] at h
    cases h
  | some x =>
    obtain ⟨n, t⟩ := x
    rw [hw] at h
    have h : (if 0 < n then some n.toNat else none) = some r := h
    by_cases hn : 0 < n
    · rw [if_pos hn] at h
      obtain rfl := Option.some.inj h
      simp only [switch, hst, hHeaderCase, onWalk, hw]
      rw [if_neg (by omega), if_pos hn]
      rfl
    · rw [if_neg hn] at h
      cases h

theorem toList_storedPair {r : Nat} (h : recognised k c = some r) :
    (storedPair k c).toList =
      if interpreted r = false ∧ selected k.s.hmask r = true then [(BitVec.ofNat 32 r, k.text.text)] else [] := by
  have hcount : ∀ s, s ∈ shiftCount k c ↔ r = s ∧ interpreted s = false := by
    intro s
    rw [shiftCount, h, Option.mem_filter_iff, Option.mem_some, Bool.not_eq_true']
  by_cases hsel : interpreted r = false ∧ selected k.s.hmask r = true
  · rw [if_pos hsel, storedPair_eq ((hcount r).mpr ⟨rfl, hsel.1⟩) hsel.2]
    rfl
  · rw [if_neg hsel]
    obtain hnone | ⟨s, hs, hsel', -⟩ := storedPair_cases (k := k) (c := c)
    · rw [hnone]
      rfl
    · obtain ⟨rfl, hint⟩ := (hcount s).mp hs
      exact absurd ⟨hint, hsel'⟩ hsel

theorem matched_pairs (r : Nat) (k : Frame) (h : StoreInv k.text) :
    Pass.All (fun _ _ => False)
      (fun k' => pairs k'.text.integers = pairs k.text.integers ++
        if interpreted r = false ∧ selected k.s.hmask r = true then [(BitVec.ofNat 32 r, k.text.text)] else [])
      (fun _ _ => True) False (hHeaderMatched r k) := by
  by_cases hint : interpreted r = true
  · rw [if_neg (by simp [hint])]
    simp only [interpreted, Bool.or_eq_true, beq_iff_eq] at hint
    obtain ((rfl | rfl) | rfl) | rfl := hint
    · simp [hHeaderMatched]
    · simp [hHeaderMatched]
    · simp [hHeaderMatched]
    · simp [hHeaderMatched]
  · rw [Bool.not_eq_true] at hint
    have hint' := hint
    simp only [interpreted, Bool.or_eq_false_iff, beq_eq_false_iff_ne] at hint'
    obtain ⟨⟨⟨h₁, h₂⟩, h₃⟩, h₄⟩ := hint'
    rw [hHeaderMatched, if_neg h₁, if_neg h₂, if_neg h₃, if_neg h₄]
    by_cases hsel : selected k.s.hmask r = true
    · rw [if_pos hsel, if_pos ⟨hint, hsel⟩]
      simp only [all_putiOr, all_brk, markUnlessUnknown_text, shift_text, setEst_text]
      refine ⟨fun _ => trivial, fun t ht => ⟨fun _ => trivial, fun t' ht' => ?_⟩⟩
      exact (h.pairs_puti ht ht').1
    · rw [if_neg hsel, if_neg (fun h => hsel h.2), List.append_nil]
      simp

/-- **A pass** adds the pair of the header that it collects. -/
theorem switch_pairs (k : Frame) (c : Int) (hk : Routed k) (hok : StoreOk k) :
    Pass.All (fun k' c' => pairs k'.text.integers = pairs k.text.integers ∧ storedPair k c = none ∧
        storedPair k' c' = none)
      (fun k' => pairs k'.text.integers = pairs k.text.integers ++ (storedPair k c).toList) (fun _ _ => True) True
      (switch k c) := by
  have hother : ∀ (k' : Frame) (c' : Int), k'.s.st ≠ hHeader → storedPair k' c' = none :=
    fun k' c' h => storedPair_none (collects_other c' h)
  have hlate : k.s.st.early = false → StoreInv k.text := by
    intro h
    obtain h' | ⟨-, h'⟩ := hok
    · exact h'
    · rw [h] at h'
      cases h'
  by_cases hst : k.s.st = hHeader
  · have hinv := hlate (by rw [hst]; rfl)
    cases hrec : recognised k c with
    | some r =>
      rw [switch_recognised hrec, toList_storedPair hrec]
      have hmatched := matched_pairs r k.clearTrie hinv
      exact hmatched.imp (fun _ _ h => h.elim) (fun _ h => h) (fun _ _ h => h) fun h => h.elim
    | none =>
      have hnone : storedPair k c = none := by
        rw [storedPair, hrec]
        split_ifs <;> rfl
      simp only [switch, hst, hHeaderCase, all_onWalk]
      refine ⟨fun _ => trivial, fun r t hw => ?_⟩
      rw [recognised, if_pos hst, hw] at hrec
      have hr : ¬0 < r := fun hr => absurd ((if_pos hr).symm.trans hrec) (Option.some_ne_none _)
      simp only [all_ite, all_reset, all_brk]
      refine ⟨fun _ => ⟨rfl, hnone, hother _ _ (by simp)⟩, fun _ => ⟨fun h => absurd h hr, fun _ => ?_⟩⟩
      rw [hnone]
      simp
  · rw [hother k c hst]
    have hputc : ∀ b t, minuteTextintPutc b k.text = some t → pairs t.integers = pairs k.text.integers :=
      fun b t ht => (hok.inv_of_putc ht).pairs_putc ht
    have hshift : ∀ (x : HttpRequestState) (k' : Frame) (c' : Int), x ≠ hHeader →
        storedPair (k'.shift x) c' = none := fun x k' c' h => hother _ c' h
    cases hst' : k.s.st <;> simp only [switch, hst']
    case hHeader => exact absurd hst' hst
    case hNl =>
      simp only [hNlCase, all_ite, all_brk, all_reset]
      refine ⟨fun _ => ?_, fun _ => ⟨fun _ => ?_, fun _ => ⟨fun _ => ?_, fun _ => ?_⟩⟩⟩
      · simp
      · simp
      · simp
      · exact ⟨rfl, trivial, storedPair_none (collects_start _ rfl)⟩
    case hCont =>
      have hinv := hlate (by rw [hst']; rfl)
      simp only [hContCase, all_ite, all_reset]
      refine ⟨fun _ => ⟨?_, trivial, hother _ _ (by simp)⟩, fun _ => ⟨rfl, trivial, hother _ _ (by simp)⟩⟩
      rw [shift_text, (replacec_spec 32 hinv.ok).2.2]
    case hValueLead =>
      have hest : k.s.est ≠ hHeader := by
        intro hest
        rw [Routed, hst', hest] at hk
        cases hk
      simp only [hValueLeadCase, all_ite, all_brk, all_reset]
      exact ⟨fun _ => ⟨rfl, trivial, hother _ _ hest⟩, fun _ => by simp⟩
    case hPath | hEscaped2 | hQuery | hValue =>
      dsimp only [hPathCase, hEscaped2Case, hQueryCase, hValueCase]
      simp [hshift]
      grind
    all_goals
      dsimp only [hInitialCase, hMethodCase, hMethodSpCase, hEscaped1Case, hPathSpCase, hProtCase, hProtSlashCase,
        hProtHttpXCase, hProtHttpXDotCase, hProtHttpXXCase, hCrCase, hHeadConnectionCase, hHeadExpectCase,
        hHeadTransferEncodingCase, hHeadFlagInitial, hHeadContentLengthCase, hHeadFlagCase, hSkiplineCase, hErrorCase]
      simp [hshift]

/-- **A turn** adds the pair of the header that it collects; the last one collects none. -/
theorem iterate_pairs (hk : Routed k) (hok : StoreOk k) (hnl : k.s.nl ≤ 1) :
    (iterate k c).Holds
      (fun k' => pairs k'.text.integers = pairs k.text.integers ++ (storedPair k c).toList)
      fun r => ∀ k', r = .ok k' → storedPair k c = none ∧ pairs k'.text.integers = pairs k.text.integers := by
  have hall : ∀ k : Frame, StoreOk k ∧ k.s.nl ≤ 1 → Stored True k := fun k h =>
    ⟨h.1, h.2, fun _ _ => .inr trivial, fun _ => .inr trivial⟩
  have hi := iterate_inv (c := c) (k := k)
    (N := fun k' c' => Routed k' ∧ Stored True k' ∧
      pairs k'.text.integers ++ (storedPair k' c').toList = pairs k.text.integers ++ (storedPair k c).toList)
    (B := fun k' => pairs k'.text.integers = pairs k.text.integers ++ (storedPair k c).toList)
    (R := fun _ _ => True) (F := True) (fun k₁ c₁ h₁ => ?_) ⟨hk, hall k ⟨hok, hnl⟩, rfl⟩
  · cases hs : iterate k c with
    | next k' =>
      rw [hs] at hi
      obtain ⟨k₁, h₁, -, rfl⟩ := hi
      exact h₁
    | halt r =>
      rw [hs] at hi
      rintro k' rfl
      obtain ⟨k₁, h₁, -, rfl⟩ := hi
      have hnone : storedPair k c = none := by
        apply storedPair_none
        cases hc : collects k c with
        | false => rfl
        | true =>
          have hcol := iterate_collects hnl hc
          rw [hs] at hcol
          exact absurd rfl (hcol _)
      rw [hnone, Option.toList_none, List.append_nil] at h₁
      exact ⟨hnone, h₁⟩
  · obtain ⟨hr, hst, hsame⟩ := h₁
    have h₂ := (switch_routed k₁ c₁ hr).and ((switch_stored True k₁ c₁ hr hst).and (switch_pairs k₁ c₁ hr hst.ok))
    refine h₂.imp (fun k₂ c₂ h => ⟨h.1.1, h.2.1, ?_⟩) (fun k₂ h => ?_) (fun _ _ _ => trivial) fun _ => trivial
    · obtain ⟨hp, hn, hn'⟩ := h.2.2
      rw [hn, Option.toList_none, List.append_nil] at hsame
      rw [hn', Option.toList_none, List.append_nil, hp, hsame]
    · rw [h.2.2, hsame]

end

/-! ## What a run stores -/

/-- **The pairs of a run** that succeeds. -/
theorem feed_pairs {k k' : Frame} {cs rest : List Int} (hk : Routed k) (hok : StoreOk k) (hnl : k.s.nl ≤ 1)
    (hf : feed iterate k cs = .halt (.ok k', rest)) :
    pairs k'.text.integers = pairs k.text.integers ++ outputs iterate (fun _ => storedPair) k cs := by
  induction cs generalizing k with
  | nil => cases hf
  | cons c cs ih =>
    have hi := iterate_pairs (c := c) hk hok hnl
    cases hs : iterate k c with
    | halt r =>
      rw [feed_cons_halt cs hs, Step.halt.injEq, Prod.mk.injEq] at hf
      rw [hs] at hi
      obtain ⟨hnone, hsame⟩ := hi k' hf.1
      rw [outputs_cons_halt cs hs, hnone, hsame, Option.toList_none, List.append_nil]
    | next k₁ =>
      rw [feed_cons_next cs hs] at hf
      rw [hs] at hi
      have hi : pairs k₁.text.integers = pairs k.text.integers ++ (storedPair k c).toList := hi
      have hstored : feed iterate k [c] = .next k₁ := by rw [feed_cons_next [] hs, feed_nil]
      obtain ⟨hok₁, hnl₁⟩ := feed_storeOk hk hok hnl hstored
      rw [ih (iterate_routed hk hs) hok₁ hnl₁ hf, outputs_cons_next cs hs, hi, List.append_assoc]

theorem matched_text (r : Nat) (k : Frame) :
    Pass.All (fun _ _ => False) (fun k' => k'.text.text = k.text.text) (fun _ _ => True) False (hHeaderMatched r k) := by
  have hputi : ∀ (i : Uint) (t t' : Textint), minuteTextintPuti i t = some t' → t'.text = t.text := by
    intro i t t' h
    dsimp only [minuteTextintPuti] at h
    split_ifs at h
    cases h
    rfl
  simp only [hHeaderMatched, all_ite, all_putiOr, all_brk, markUnlessUnknown_text, shift_text, setEst_text]
  refine ⟨fun _ => trivial, fun _ => ⟨fun _ => trivial, fun _ => ⟨fun _ => trivial, fun _ => ⟨fun _ => trivial, fun _ =>
    ⟨fun _ => ⟨fun _ => trivial, fun t ht => ⟨fun _ => trivial, fun t' ht' => ?_⟩⟩, fun _ => trivial⟩⟩⟩⟩⟩
  exact (hputi _ _ _ ht').trans (hputi _ _ _ ht)

theorem valueOffset_collects {k k' : Frame} {c : Int} (hnl : k.s.nl ≤ 1) (hc : collects k c = true)
    (hs : iterate k c = .next k') : valueOffset k c = some k.text.text := by
  have hopen := iterate_collects hnl hc
  rw [hs] at hopen
  have hopen : Open k' := hopen
  have htext : k'.text.text = k.text.text := by
    obtain ⟨r, hr, -⟩ := collects_iff.mp hc
    have hsw := switch_recognised (Option.mem_filter_iff.mp hr).1
    have hall := matched_text r k.clearTrie
    rw [← hsw] at hall
    cases h : switch k c with
    | next x =>
      rw [h] at hall
      exact hall.elim
    | halt y =>
      rw [h] at hall
      cases y with
      | brk k₁ =>
        rw [eq_advance_of_brk h hs]
        exact hall
      | ret n k₁ =>
        rw [iterate_of_halt h] at hs
        cases hs
      | fault =>
        rw [iterate_of_halt h] at hs
        cases hs
  rw [valueOffset, hs]
  show (if Open k' then some k'.text.text else none) = _
  rw [if_pos hopen, htext]

section

variable {rq : MinuteHttpRq} {hmask : Uint} {io : Iobuf} {text : Textint} {p : List Int} {k₀ k : Frame} {c : Int}

/-- **Behind the name of a header to be stored** the parser stores its value, or skips it. -/
theorem wanted_cases {r : Nat} (hsize : 4 ∣ text.size.toNat)
    (hk₀ : startFrame rq (minuteHttpInit hmask io text).1 io (minuteHttpInit hmask io text).2 = k₀)
    (hp : feed iterate k₀ p = .next k)
    (hw : EndsWanted hmask (p ++ [c]) r) (hshift : ∀ r ∈ shiftCount k c, r < 32)
    (hend : ∀ y, iterate k c = .halt y → ∃ k', y = .ok k') :
    (k.s.st = hSkipline ∧ valueOffset k c = none) ∨
      (k.s.st = hHeader ∧ r ∈ shiftCount k c ∧ storedPair k c = some (BitVec.ofNat 32 r, k.text.text) ∧
        valueOffset k c = some k.text.text) := by
  subst hk₀
  obtain ⟨hname, hint, hmask'⟩ := hw
  obtain ⟨q, hq⟩ := hname.colon
  obtain ⟨rfl, hc⟩ := List.append_inj' hq rfl
  obtain rfl := List.singleton_inj.mp hc
  have hr₀ : Routed (startFrame rq (minuteHttpInit hmask io text).1 io (minuteHttpInit hmask io text).2) := rfl
  obtain ⟨-, hst | ⟨k₁, hread⟩⟩ := feed_headerName hname hp
  · refine .inl ⟨hst, ?_⟩
    unfold valueOffset
    cases hs : iterate k 58 with
    | halt y => rfl
    | next k' =>
      have hst' := iterate_skipTurn hst (by decide) hs
      rw [if_neg (by decide)] at hst'
      exact if_neg fun hopen => by
        obtain h | ⟨h, -⟩ := hopen
        · rw [hst'] at h
          cases h
        · rw [hst'] at h
          cases h
  · obtain ⟨hrec, -⟩ := hread.colon hname.2.1
    have hcount : r ∈ shiftCount k 58 := Option.mem_filter_iff.mpr ⟨hrec, by rw [hint]; rfl⟩
    have hsel : selected k.s.hmask r = true := by
      have hmask₀ : k.s.hmask = hmask := (feed_m hp).2
      rw [hmask₀, selected_eq_wanted hmask (hshift r hcount)]
      exact hmask'
    have hcol := collects_iff.mpr ⟨r, hcount, hsel⟩
    have hnl := (feed_storeOk hr₀ (storeOk_start rq hmask io hsize).1 (Nat.zero_le 1) hp).2
    refine .inr ⟨hread.st, hcount, storedPair_eq hcount hsel, ?_⟩
    cases hs : iterate k 58 with
    | next k' => exact valueOffset_collects hnl hcol hs
    | halt y =>
      obtain ⟨k', rfl⟩ := hend y hs
      have hno := iterate_collects hnl hcol
      rw [hs] at hno
      exact absurd rfl (hno k')

/-- A step whose shift is in range stores what is to be stored exactly if it tells a header to be stored. -/
theorem wantedPair_eq_iff (hsize : 4 ∣ text.size.toNat)
    (hk₀ : startFrame rq (minuteHttpInit hmask io text).1 io (minuteHttpInit hmask io text).2 = k₀)
    (hp : feed iterate k₀ p = .next k)
    (hshift : ∀ r ∈ shiftCount k c, r < 32) (hend : ∀ y, iterate k c = .halt y → ∃ k', y = .ok k') :
    wantedPair hmask p k c = (storedPair k c).map (fun x => (x.1, some x.2)) ↔ TellsWanted hmask p k c := by
  have hmask₀ : k.s.hmask = hmask := by
    rw [(feed_m hp).2, ← hk₀]
    rfl
  constructor
  · intro heq
    refine ⟨hshift, fun r hr hw => ?_, fun r hw => ?_⟩
    · have hsel : selected k.s.hmask r = true := by
        rw [hmask₀, selected_eq_wanted hmask (hshift r hr)]
        exact hw
      rw [storedPair_eq hr hsel, wantedPair, Option.map_some, Option.map_eq_some_iff] at heq
      obtain ⟨s, hs, heq⟩ := heq
      have hs := wantedHeader_eq_some.mp hs
      have hsr : s = r := by
        have hlt := (mem_headerCodes.mp hs.1.2.1).2
        have hnum := congrArg BitVec.toNat (Prod.mk.inj heq).1
        have := hshift r hr
        rw [BitVec.toNat_ofNat, BitVec.toNat_ofNat, Nat.mod_eq_of_lt (by omega), Nat.mod_eq_of_lt (by omega)] at hnum
        exact hnum
      exact hsr ▸ hs.1
    · obtain ⟨-, hnone⟩ | ⟨hst, -⟩ := wanted_cases hsize hk₀ hp hw hshift hend
      · rw [wantedPair, wantedHeader_eq_some.mpr hw, Option.map_some, hnone] at heq
        obtain ⟨x, -, hx⟩ := Option.map_eq_some_iff.mp heq.symm
        exact absurd (congrArg Prod.snd hx) (Option.some_ne_none x.2)
      · exact hst
  · intro h
    cases hw : wantedHeader hmask (p ++ [c]) with
    | some r =>
      have hw' := wantedHeader_eq_some.mp hw
      obtain ⟨hst, -⟩ | ⟨-, -, hstored, hoff⟩ := wanted_cases hsize hk₀ hp hw' hshift hend
      · rw [h.read r hw'] at hst
        cases hst
      · rw [wantedPair, hw, hstored, hoff]
        rfl
    | none =>
      rw [wantedPair, hw]
      obtain hnone | ⟨r, hr, hsel, -⟩ := storedPair_cases (k := k) (c := c)
      · rw [hnone]
        rfl
      · rw [hmask₀, selected_eq_wanted hmask (hshift r hr)] at hsel
        have hint : interpreted r = false := by
          have := (Option.mem_filter_iff.mp hr).2
          rwa [Bool.not_eq_true'] at this
        rw [wantedHeader_eq_some.mpr ⟨h.named r hr hsel, hint, hsel⟩] at hw
        cases hw

end

/-- **The integers of a head** that is read with success are what is to be stored, and no shift by 32 or more is
evaluated, exactly if every step tells a header to be stored from its text. -/
theorem selected_stored_iff {rq rq₁ : MinuteHttpRq} {hmask : Uint} {rqs₁ : MinuteHttpRqs} {io io₁ : Iobuf}
    {text text₁ : Textint} {fs : List Refill} {e : Bool} (hsize : 4 ∣ text.size.toNat) (he : eofAtLast e io fs)
    (h : readSession rq (minuteHttpInit hmask io text).1 io (minuteHttpInit hmask io text).2 fs =
      .code 0 rq₁ rqs₁ io₁ text₁) :
    StoresWanted hmask (startFrame rq (minuteHttpInit hmask io text).1 io (minuteHttpInit hmask io text).2)
        (sessionChars io io.read fs e) text₁ ↔
      EachStep iterate (TellsWanted hmask)
        (startFrame rq (minuteHttpInit hmask io text).1 io (minuteHttpInit hmask io text).2)
        (sessionChars io io.read fs e) := by
  have hleft := left_of_code h
  rw [initSession_left rq hmask text he] at hleft
  have hr₀ : Routed (startFrame rq (minuteHttpInit hmask io text).1 io (minuteHttpInit hmask io text).2) := rfl
  obtain ⟨hok, hints⟩ := storeOk_start rq hmask io hsize
  have hnil : pairs (startFrame rq (minuteHttpInit hmask io text).1 io
      (minuteHttpInit hmask io text).2).text.integers = [] := by
    show pairs (minuteHttpInit hmask io text).2.integers = []
    rw [hints, pairs]
    rintro r o is h
    cases h
  have hnl : (startFrame rq (minuteHttpInit hmask io text).1 io (minuteHttpInit hmask io text).2).s.nl ≤ 1 :=
    Nat.zero_le 1
  generalize sessionChars io io.read fs e = cs at hleft ⊢
  generalize hk₀ : startFrame rq (minuteHttpInit hmask io text).1 io (minuteHttpInit hmask io text).2 = k₀ at *
  obtain ⟨k', rest, hf, -, rfl⟩ := runLeft_ok hr₀ hleft
  have hinv := feed_storeInv hr₀ hok hnl hf
  have hpairs := feed_pairs hr₀ hok hnl hf
  rw [hnil, List.nil_append] at hpairs
  have hmap : (pairs k'.text.integers).map (fun x => (x.1, some x.2)) = outputs iterate
      (fun _ k c => (storedPair k c).map fun x => (x.1, some x.2)) k₀ cs := by
    rw [hpairs, map_outputs]
  have hend : ∀ p c q k, cs = p ++ c :: q → feed iterate k₀ p = .next k → ∀ y, iterate k c = .halt y → ∃ k', y = .ok k' := by
    intro p c q k hq hp y hy
    rw [hq, feed_append_next _ hp, feed_cons_halt q hy, Step.halt.injEq, Prod.mk.injEq] at hf
    exact ⟨k', hf.1⟩
  constructor
  · rintro ⟨-, hsame, hshift⟩
    have hshift := along_iff.mp hshift
    rw [hmap] at hsame
    have hsome : EachStep iterate (fun p k c => ∀ x ∈ wantedPair hmask p k c, x.2.isSome) k₀ cs := by
      apply (forall_mem_outputs (P := fun x : Uint × Option Uint => x.2.isSome)).mp
      rw [← hsame, ← hmap]
      intro x hx
      obtain ⟨y, -, rfl⟩ := List.mem_map.mp hx
      rfl
    have hbelow : EachStep iterate (fun p k c => wantedPair hmask p k c = none ∨
        wantedPair hmask p k c = (storedPair k c).map fun x => (x.1, some x.2)) k₀ cs := by
      intro p c q k hq hp
      cases hw : wantedHeader hmask (p ++ [c]) with
      | none => exact .inl (by rw [wantedPair, hw]; rfl)
      | some r =>
        have hpair : wantedPair hmask p k c = some (BitVec.ofNat 32 r, valueOffset k c) := by
          rw [wantedPair, hw]
          rfl
        obtain ⟨-, hnone⟩ | ⟨-, -, hstored, hoff⟩ := wanted_cases hsize hk₀ hp (wantedHeader_eq_some.mp hw)
          (hshift p c q k hq hp) (hend p c q k hq hp)
        · have := hsome p c q k hq hp _ hpair
          rw [hnone] at this
          cases this
        · rw [hpair, hstored, hoff]
          exact .inr rfl
    have heq := (outputs_eq_iff hbelow).mp hsame.symm
    intro p c q k hq hp
    exact (wantedPair_eq_iff hsize hk₀ hp (hshift p c q k hq hp) (hend p c q k hq hp)).mp (heq p c q k hq hp)
  · intro htells
    refine ⟨hinv.even, ?_, along_iff.mpr fun p c q k hq hp => (htells p c q k hq hp).shift⟩
    have heq : EachStep iterate (fun p k c =>
        wantedPair hmask p k c = (storedPair k c).map fun x => (x.1, some x.2)) k₀ cs := fun p c q k hq hp =>
      (wantedPair_eq_iff hsize hk₀ hp (htells p c q k hq hp).shift (hend p c q k hq hp)).mpr (htells p c q k hq hp)
    rw [hmap]
    exact ((outputs_eq_iff (heq.imp fun _ _ _ h => .inr h)).mpr heq).symm

/-- A mask of `Host` alone: `Accept` is left out, and `Connection` is interpreted. -/
theorem selected_stored_host :
    let io := Iobuf.holding 4096 (bytes "GET / HTTP/1.1\nAccept: x\nHost: a\nConnection: close\n\n")
    let text := minuteTextintInit 64 fun _ => 0
    let init := minuteHttpInit (1 <<< HttpRequestHeader.host.code) io text
    (∃ rq₁ rqs₁ io₁ text₁, minuteHttpRead .zero init.1 io init.2 = .code 0 rq₁ rqs₁ io₁ text₁) ∧
      EachStep iterate (TellsWanted (1 <<< HttpRequestHeader.host.code)) (startFrame .zero init.1 io init.2)
        (sessionChars io io.read [] false) := by
  intro io text init
  have he : eofAtLast false io [] := by
    show Iobuf.eof _ = false
    decide +kernel
  obtain ⟨rq₁, rqs₁, io₁, text₁, h, heven, hpairs⟩ := (ReadResult.succeeds_iff
    (P := fun _ _ _ t => t.integers.length % 2 = 0 ∧ (pairs t.integers).map (fun x => (x.1, some x.2)) =
      outputs iterate (wantedPair (1 <<< HttpRequestHeader.host.code)) (startFrame .zero init.1 io init.2)
        (sessionChars io io.read [] false))
    (r := minuteHttpRead .zero init.1 io init.2)).mp (by decide +kernel)
  exact ⟨⟨rq₁, rqs₁, io₁, text₁, h⟩,
    (selected_stored_iff (by decide) he h).mp ⟨heven, hpairs, by decide +kernel⟩⟩

/-- The number of `Upgrade` has no bit in the mask, and the shift by it gives that of `Accept`. -/
theorem selected_stored_upgrade :
    let io := Iobuf.holding 4096 (bytes "GET / HTTP/1.1\nUpgrade: x\n\n")
    let text := minuteTextintInit 64 fun _ => 0
    let hmask : Uint := 1 <<< HttpRequestHeader.accept.code
    let init := minuteHttpInit hmask io text
    ∃ rq₁ rqs₁ io₁ text₁, minuteHttpRead .zero init.1 io init.2 = .code 0 rq₁ rqs₁ io₁ text₁ ∧
      ¬StoresWanted hmask (startFrame .zero init.1 io init.2) (sessionChars io io.read [] false) text₁ := by
  intro io text hmask init
  obtain ⟨rq₁, rqs₁, io₁, text₁, h, hne⟩ := (ReadResult.succeeds_iff
    (P := fun _ _ _ t => (pairs t.integers).map (fun x => (x.1, some x.2)) ≠
      outputs iterate (wantedPair hmask) (startFrame .zero init.1 io init.2) (sessionChars io io.read [] false))
    (r := minuteHttpRead .zero init.1 io init.2)).mp (by decide +kernel)
  exact ⟨rq₁, rqs₁, io₁, text₁, h, fun hstores => hne hstores.pairs⟩

end MinuteHttp
