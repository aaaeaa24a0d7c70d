import MinuteHttp.Libhttp.Names
import MinuteHttp.Libhttp.Store

/-!
# What a header line does

The parser takes the text of a header line up to the first `':'` or NUL for its name, except that it
does not see a `':'` or a NUL at a branching of the trie (`spelled`). A line whose name is read so as
that of a header to store or to interpret is treated as that header (`treats_iff`); every other line is
skipped, with one exception, the byte 0xFF, which ends the request (`feed_untreated`). `header_line_iff`
puts the two together: which lines are treated as what their name says.
-/

namespace MinuteHttp

open HttpRequestState Feed

/-! ## Names as the parser reads them -/

/-- The name that the parser reads in the text of a header line, after `w`. -/
def spelled : List Int → List Int → Option (List Int)
  | _, [] => none
  | w, c :: cs =>
    if c = 58 ∨ c = 0 then if w ∈ branchings then spelled w cs else some w
    else spelled (w ++ [toLower c]) cs

theorem spelled_dead {w : List Int} (h : ∀ r ∈ headerCodes, ¬w <+: headerName r) (cs : List Int) :
    ∀ r ∈ headerCodes, spelled w cs ≠ some (headerName r) := by
  induction cs generalizing w with
  | nil =>
    intro r _ hs
    cases hs
  | cons c cs ih =>
    intro r hr hs
    rw [spelled] at hs
    by_cases hc : c = 58 ∨ c = 0
    · have hb : w ∉ branchings := by
        intro hb
        obtain ⟨s, hs, hpre⟩ := (branchings_stem w hb).1
        exact h s hs hpre
      rw [if_pos hc, if_neg hb, Option.some.injEq] at hs
      exact h r hr (hs ▸ List.prefix_refl w)
    · rw [if_neg hc] at hs
      refine ih (fun r hr hpre => h r hr ?_) r hr hs
      exact (List.prefix_append w _).trans hpre

/-- The header that the step on `c` recognises. -/
def recognised (k : Frame) (c : Int) : Option Nat :=
  if k.s.st = hHeader then
    match headerWalk (toLower c) k.tstate with
    | some (r, _) => if 0 < r then some r.toNat else none
    | none => none
  else none

/-- A header that is stored or interpreted when it is recognised. -/
def treated (hmask : Uint) (r : Nat) : Bool := interpreted r || selected hmask r

/-- Some step of the run on `cs` recognises the header `r`, and treats it. -/
def Treats (k : Frame) (cs : List Int) (r : Nat) : Prop :=
  ¬Along iterate (fun k c => ¬(recognised k c = some r ∧ treated k.s.hmask r = true)) k cs

theorem treats_nil (k : Frame) (r : Nat) : ¬Treats k [] r := fun h => h trivial

theorem treats_cons {k : Frame} {c : Int} {cs : List Int} {r : Nat} :
    Treats k (c :: cs) r ↔ (recognised k c = some r ∧ treated k.s.hmask r = true) ∨
      ∃ k', iterate k c = .next k' ∧ Treats k' cs r := by
  unfold Treats
  rw [not_along_cons, not_not]

theorem recognised_other {k : Frame} (c : Int) (h : k.s.st ≠ hHeader) : recognised k c = none := if_neg h

/-! ## The states of a header line -/

/-- A line is about to begin: after a line end, or (trailers) at the start. -/
def AtLine (k : Frame) : Prop :=
  k.s.st = hNl ∨ (k.s.st = hHeader ∧ k.s.nl = 0 ∧ k.tstate = ⟨0, 0⟩)

/-- The request and what is stored are as in `k₀`. -/
structure Untouched (k₀ k : Frame) : Prop where
  rq : k.rq = k₀.rq
  text : k.text = k₀.text
  hmask : k.s.hmask = k₀.s.hmask
  esc : k.s.esc = k₀.s.esc
  httpv : k.s.httpv0 = k₀.s.httpv0 ∧ k.s.httpv1 = k₀.s.httpv1

/-- In the name of a line that began in `k₀`; the letters `w` have been read. -/
structure Reading (k₀ : Frame) (w : List Int) (k : Frame) : Prop where
  st : k.s.st = hHeader
  nl : k.s.nl = 0
  placed : Placed k.tstate
  spelt : spelt k.tstate = w
  untouched : Untouched k₀ k
  collect : k.s.collect = k₀.s.collect
  est : k.s.est = k₀.s.est

/-- In a line that began in `k₀` and is skipped. A header that is known but not selected has cleared
the collect flag. -/
structure Skipping (k₀ k : Frame) : Prop where
  st : k.s.st = hSkipline
  nl : k.s.nl = 0
  untouched : Untouched k₀ k
  fold : (k.s.collect = k₀.s.collect ∧ k.s.est = k₀.s.est) ∨
    (k.s.collect = false ∧ k.s.est = hSkipline)

theorem Reading.skipping {k₀ k : Frame} {w : List Int} (h : Reading k₀ w k) :
    Skipping k₀ (k.shift hSkipline) :=
  ⟨rfl, h.nl, ⟨h.untouched.rq, h.untouched.text, h.untouched.hmask, h.untouched.esc, h.untouched.httpv⟩,
    .inl ⟨h.collect, h.est⟩⟩

/-- The states that read the rest of a header line. -/
def HttpRequestState.isLineRest : HttpRequestState → Bool
  | hValueLead | hValue | hSkipline | hHeadConnection | hHeadContentLength | hHeadExpect
  | hHeadTransferEncoding | hHeadFlag | hErrorBadRequest => true
  | _ => false

/-- A character that does not end a line. -/
def inLine (c : Int) : Prop := c ≠ 10 ∧ c ≠ 13

theorem inLine_toLower {c : Int} (h : inLine c) : inLine (toLower c) :=
  ⟨mt (toLower_eq (by decide)).mp h.1, mt (toLower_eq (by decide)).mp h.2⟩

/-! ## Turns -/

theorem switch_lineRest {k : Frame} {c : Int} (hk : Routed k) (hst : k.s.st.isLineRest = true)
    (hc : inLine c) :
    Pass.All (fun k' c' => k'.s.st.isLineRest = true ∧ inLine c') (fun k' => k'.s.st.isLineRest = true)
      (fun _ _ => True) True (switch k c) := by
  have hlow := inLine_toLower hc
  obtain ⟨h10, h13⟩ := hc
  cases h : k.s.st <;> simp only [switch, h]
  case hValueLead =>
    have hval : k.s.est.isValue = true := by simpa [Routed, h, routed] using hk
    have hest : k.s.est.isLineRest = true := by cases he : k.s.est <;> simp_all [isValue, isLineRest]
    have hlead : hValueLead.isLineRest = true := rfl
    simp [hValueLeadCase, h, hlead, hest, inLine, h10, h13]
  case hValue | hSkipline | hHeadConnection | hHeadContentLength | hHeadExpect |
      hHeadTransferEncoding | hHeadFlag | hErrorBadRequest =>
    dsimp only [hValueCase, hSkiplineCase, hHeadConnectionCase, hHeadContentLengthCase, hHeadExpectCase,
      hHeadTransferEncodingCase, hHeadFlagInitial, hHeadFlagCase, hErrorCase]
    simp [h, isLineRest, inLine, h10, h13, hlow.1, hlow.2]
  all_goals simp [h, isLineRest] at hst

theorem iterate_lineRest {k k' : Frame} {c : Int} (hk : Routed k) (hst : k.s.st.isLineRest = true)
    (hc : inLine c) (h : iterate k c = .next k') : k'.s.st.isLineRest = true := by
  have hi := iterate_inv (k := k) (c := c) (fun k₁ c₁ h₁ => ?_)
    (N := fun k' c' => Routed k' ∧ k'.s.st.isLineRest = true ∧ inLine c')
    (B := fun k' => k'.s.st.isLineRest = true) (R := fun _ _ => True) (F := True) ⟨hk, hst, hc⟩
  · rw [h] at hi
    obtain ⟨k₁, h₁, -, rfl⟩ := hi
    exact h₁
  · exact ((switch_routed k₁ c₁ h₁.1).and (switch_lineRest h₁.1 h₁.2.1 h₁.2.2)).imp
      (fun _ _ h => ⟨h.1.1, h.2⟩) (fun _ h => h.2) (fun _ _ _ => trivial) fun _ => trivial

theorem not_treats_lineRest {k : Frame} {cs : List Int} (hk : Routed k)
    (hst : k.s.st.isLineRest = true) (hcs : ∀ c ∈ cs, inLine c) (r : Nat) : ¬Treats k cs r := by
  induction cs generalizing k with
  | nil => exact treats_nil k r
  | cons c cs ih =>
    have hne : k.s.st ≠ hHeader := by
      intro h
      rw [h] at hst
      cases hst
    rw [treats_cons, recognised_other c hne, not_or]
    refine ⟨by simp, ?_⟩
    rintro ⟨k', hs, ht⟩
    exact ih (iterate_routed hk hs) (iterate_lineRest hk hst (hcs c (List.mem_cons_self ..)) hs)
      (fun c' hc' => hcs c' (List.mem_cons_of_mem _ hc')) ht

theorem iterate_skipping {k₀ k : Frame} {c : Int} (h : Skipping k₀ k) (hc : inLine c) :
    (iterate k c).Holds (fun k' => c ≠ -1 ∧ Skipping k₀ k') fun _ => c = -1 := by
  obtain ⟨hst, hnl, ⟨hrq, htext, hmask, hesc, hv⟩, hfold⟩ := h
  by_cases h1 : c = -1
  · have hs : switch k c = brk (k.mark.setNl 99) := by
      simp [switch, hst, hSkiplineCase, h1]
    rw [iterate_of_halt hs, finishTurn, if_pos (by simp)]
    exact h1
  · have hs : switch k c = brk k.mark := by
      simp [switch, hst, hSkiplineCase, h1, hc.1, hc.2]
    rw [iterate_of_halt hs, finishTurn, if_neg (by simp [hnl])]
    exact ⟨h1, hst, hnl, ⟨hrq, htext, hmask, hesc, hv⟩, hfold⟩

theorem iterate_atLine {k : Frame} (hk : Routed k) (hat : AtLine k) {c : Int} (hc : inLine c)
    (h32 : c ≠ 32) (h9 : c ≠ 9) :
    ∃ k₁, Routed k₁ ∧ Reading k [] k₁ ∧ iterate k c = iterate k₁ c ∧
      recognised k c = recognised k₁ c := by
  obtain hst | ⟨hst, hnl, ht⟩ := hat
  · have hs : switch k c = reset hHeader (k.mark.setNl 0).mark.clearTrie c := by
      simp [switch, hst, hNlCase, hc.1, hc.2, h32, h9]
    have hr := switch_routed k c hk
    rw [hs] at hr
    have hread : Reading k [] ((k.mark.setNl 0).mark.clearTrie.shift hHeader) :=
      ⟨rfl, rfl, .inl rfl, spelt_start, ⟨rfl, rfl, rfl, rfl, rfl, rfl⟩, rfl, rfl⟩
    refine ⟨_, hr.1, hread, iterate_reset hk hs, ?_⟩
    rw [recognised_other c (by simp [hst]), recognised, if_pos hread.st]
    cases hw : headerWalk (toLower c) ((k.mark.setNl 0).mark.clearTrie.shift hHeader).tstate with
    | none => rfl
    | some x =>
      obtain ⟨r, t⟩ := x
      have hr : r ≤ 0 := headerWalk_start hw
      dsimp only
      rw [if_neg (by omega)]
  · exact ⟨k, hk, ⟨hst, hnl, .inl ht, ht ▸ spelt_start, ⟨rfl, rfl, rfl, rfl, rfl, rfl⟩, rfl, rfl⟩, rfl, rfl⟩

/-- A letter goes on with the name, or shows that the line is to be skipped. -/
theorem iterate_letter {k₀ k : Frame} {w : List Int} (hk : Routed k) (h : Reading k₀ w k) {c : Int}
    (hc : inLine c) (hsep : ¬(c = 58 ∨ c = 0)) :
    recognised k c = none ∧
    ((∃ k', c ≠ -1 ∧ iterate k c = .next k' ∧ Reading k₀ (w ++ [toLower c]) k') ∨
     ((∀ r ∈ headerCodes, ¬w ++ [toLower c] <+: headerName r) ∧
      (iterate k c).Holds (fun k' => c ≠ -1 ∧ Skipping k₀ k') fun _ => c = -1)) := by
  have h58 : toLower c ≠ 58 := fun h => hsep (.inl ((toLower_eq (by decide)).mp h))
  have h0 : toLower c ≠ 0 := fun h => hsep (.inr ((toLower_eq (by decide)).mp h))
  have hneg : toLower c = -1 ↔ c = -1 := toLower_eq (by decide)
  obtain ⟨t, hw, hplaced, hspelt⟩ | ⟨hw, hdead⟩ := headerWalk_letter h.placed h58 h0
  · refine ⟨by simp [recognised, h.st, hw], .inl ?_⟩
    have hs : switch k c = brk (markUnlessUnknown { k with tstate := t }) := by
      simp [switch, h.st, hHeaderCase, onWalk, hw]
    refine ⟨_, fun hc1 => ?_, by rw [iterate_of_halt hs, finishTurn, if_neg (by simp [h.nl])], ?_⟩
    · -- no edge of the trie is negative
      have hw' : headerWalk (-1) k.tstate = some (0, t) := hneg.mpr hc1 ▸ hw
      have := walkTrie_neg (by decide) hw'
      omega
    · rw [h.spelt] at hspelt
      exact ⟨by simp [h.st], by simp [h.nl], by simpa using hplaced, by simpa using hspelt,
        ⟨by simp [h.untouched.rq], by simp [h.untouched.text], by simp [h.untouched.hmask],
          by simp [h.untouched.esc], by simp [h.untouched.httpv]⟩,
        by simp [h.collect], by simp [h.est]⟩
  · rw [h.spelt] at hdead
    refine ⟨by simp [recognised, h.st, hw], .inr ⟨hdead, ?_⟩⟩
    have hs : switch k c = reset hSkipline k (toLower c) := by
      simp [switch, h.st, hHeaderCase, onWalk, hw]
    rw [iterate_reset hk hs]
    simpa only [ne_eq, hneg] using iterate_skipping h.skipping (inLine_toLower hc)

theorem matched_lineRest (r : Nat) (k : Frame) :
    Pass.All (fun _ _ => False) (fun k' => k'.s.st.isLineRest = true) (fun _ _ => True) False
      (hHeaderMatched r k) := by
  unfold hHeaderMatched
  simp [isLineRest]

theorem matched_untreated {r : Nat} {k : Frame} (h : treated k.s.hmask r = false) :
    hHeaderMatched r k.clearTrie =
      brk (markUnlessUnknown (({ k.clearTrie with s := { k.s with collect := false } }.setEst
        hSkipline).shift hSkipline)) := by
  simp only [treated, interpreted, Bool.or_eq_false_iff, beq_eq_false_iff_ne] at h
  obtain ⟨⟨⟨⟨h₁, h₂⟩, h₃⟩, h₄⟩, h₅⟩ := h
  have h₅ : ¬selected k.clearTrie.s.hmask r = true := by
    rw [Bool.not_eq_true]
    exact h₅
  rw [hHeaderMatched, if_neg h₁, if_neg h₂, if_neg h₃, if_neg h₄, if_neg h₅]
  rfl

/-- The end of a name: it is no header's, or it is not seen, or a header is recognised. -/
theorem iterate_nameEnd {k₀ k : Frame} {w : List Int} (hk : Routed k) (h : Reading k₀ w k) {c : Int}
    (hc : c = 58 ∨ c = 0) :
    (recognised k c = none ∧ (∀ r ∈ headerCodes, headerName r ≠ w) ∧ w ∉ branchings ∧
      ∃ k', iterate k c = .next k' ∧ Skipping k₀ k') ∨
    (recognised k c = none ∧ w ∈ branchings ∧ ∃ k', iterate k c = .next k' ∧ Reading k₀ w k') ∨
    ∃ r ∈ headerCodes, recognised k c = some r ∧ headerName r = w ∧
      (∀ k', iterate k c = .next k' → k'.s.st.isLineRest = true) ∧
      (treated k.s.hmask r = false → ∃ k', iterate k c = .next k' ∧ Skipping k₀ k') := by
  have hlow : toLower c = c := by rcases hc with rfl | rfl <;> rfl
  have hline : inLine c := by rcases hc with rfl | rfl <;> simp [inLine]
  have h1 : c ≠ -1 := by rcases hc with rfl | rfl <;> decide
  obtain ⟨hw, hno, hb⟩ | ⟨hw, hb⟩ | ⟨r, hr, hw, hname⟩ := headerWalk_end h.placed hc
  · left
    rw [h.spelt] at hno hb
    refine ⟨by simp [recognised, h.st, hlow, hw], hno, hb, ?_⟩
    have hs : switch k c = reset hSkipline k c := by
      simp [switch, h.st, hHeaderCase, onWalk, hlow, hw]
    have hskip := iterate_skipping h.skipping hline
    rw [iterate_reset hk hs]
    cases hi : iterate (k.shift hSkipline) c with
    | next k' =>
      rw [hi] at hskip
      exact ⟨k', rfl, hskip.2⟩
    | halt r =>
      rw [hi] at hskip
      exact absurd hskip h1
  · right; left
    rw [h.spelt] at hb
    refine ⟨by simp [recognised, h.st, hlow, hw], hb, ?_⟩
    have hs : switch k c = brk (markUnlessUnknown k) := by
      simp [switch, h.st, hHeaderCase, onWalk, hlow, hw]
    refine ⟨_, by rw [iterate_of_halt hs, finishTurn, if_neg (by simp [h.nl])], ?_⟩
    exact ⟨by simp [h.st], by simp [h.nl], by simpa using h.placed, by simpa using h.spelt,
        ⟨by simp [h.untouched.rq], by simp [h.untouched.text], by simp [h.untouched.hmask],
          by simp [h.untouched.esc], by simp [h.untouched.httpv]⟩,
        by simp [h.collect], by simp [h.est]⟩
  · right; right
    have hpos := (mem_headerCodes.mp hr).1
    rw [h.spelt] at hname
    have hs : switch k c = hHeaderMatched r k.clearTrie := by
      simp only [switch, h.st, hHeaderCase, onWalk, hlow, hw]
      rw [if_neg (by omega), if_pos (by omega)]
      rfl
    refine ⟨r, hr, ?_, hname, fun k' hi => ?_, fun hun => ?_⟩
    · simp only [recognised, h.st, hlow, hw]
      rw [if_pos trivial, if_pos (by omega)]
      rfl
    · have hall := matched_lineRest r k.clearTrie
      rw [← hs] at hall
      cases hsw : switch k c with
      | next x => rw [hsw] at hall; exact hall.elim
      | halt l =>
        rw [hsw] at hall
        rw [iterate_of_halt hsw] at hi
        cases l with
        | brk k₁ =>
          simp only [finishTurn] at hi
          split at hi
          · cases hi
          · cases hi
            exact hall
        | ret n k₁ => cases hi
        | fault => cases hi
    · rw [matched_untreated hun] at hs
      refine ⟨_, by rw [iterate_of_halt hs, finishTurn, if_neg (by simp [h.nl])], ?_⟩
      exact ⟨by simp, by simp [h.nl],
        ⟨by simp [h.untouched.rq], by simp [h.untouched.text], by simp [h.untouched.hmask],
          by simp [h.untouched.esc], by simp [h.untouched.httpv]⟩,
        .inr ⟨by simp, by simp⟩⟩

/-! ## Lines -/

/-- **A line is treated as the header that its name spells**, and as no other. -/
theorem treats_iff {k₀ k : Frame} {w cs : List Int} (hk : Routed k) (h : Reading k₀ w k)
    (hcs : ∀ c ∈ cs, inLine c) (r : Nat) :
    Treats k cs r ↔
      r ∈ headerCodes ∧ treated k₀.s.hmask r = true ∧ spelled w cs = some (headerName r) := by
  induction cs generalizing k w with
  | nil => simp [treats_nil, spelled]
  | cons c cs ih =>
    have hc := hcs c (List.mem_cons_self ..)
    have hrest : ∀ c' ∈ cs, inLine c' := fun c' hc' => hcs c' (List.mem_cons_of_mem _ hc')
    -- once the line is skipped, nothing is recognised
    have hskip : ∀ k', iterate k c = .next k' → k'.s.st.isLineRest = true → ¬Treats k' cs r :=
      fun k' hs hst => not_treats_lineRest (iterate_routed hk hs) hst hrest r
    have hskipping : ∀ k', Skipping k₀ k' → k'.s.st.isLineRest = true := fun k' hk' => by
      rw [hk'.st]
      rfl
    rw [treats_cons, spelled]
    by_cases hsep : c = 58 ∨ c = 0
    · rw [if_pos hsep]
      obtain ⟨hnone, hno, hb, k', hs, hk'⟩ | ⟨hnone, hb, k', hs, hk'⟩ | ⟨s, hs, hsome, hname, hrest', -⟩ :=
        iterate_nameEnd hk h hsep
      · rw [hnone, if_neg hb]
        constructor
        · rintro (⟨h, -⟩ | ⟨k₁, hs₁, ht⟩)
          · cases h
          · exact absurd ht (hskip k₁ hs₁ (by rw [hs] at hs₁; cases hs₁; exact hskipping _ hk'))
        · rintro ⟨hr, -, heq⟩
          exact absurd (Option.some.inj heq).symm (hno r hr)
      · rw [hnone, if_pos hb, hs]
        simp only [Step.next.injEq, exists_eq_left', reduceCtorEq, false_and, false_or]
        exact ih (iterate_routed hk hs) hk' hrest
      · have hb : w ∉ branchings := fun hb => (branchings_stem w hb).2 s hs hname
        rw [hsome, if_neg hb, ← hname]
        constructor
        · rintro (⟨h₁, h₂⟩ | ⟨k₁, hs₁, ht⟩)
          · cases h₁
            exact ⟨hs, h.untouched.hmask ▸ h₂, rfl⟩
          · exact absurd ht (hskip k₁ hs₁ (hrest' k₁ hs₁))
        · rintro ⟨hr, ht, heq⟩
          have := headerName_injOn s hs r hr (Option.some.inj heq)
          exact .inl ⟨by rw [this], h.untouched.hmask ▸ ht⟩
    · rw [if_neg hsep]
      obtain ⟨hnone, ⟨k', -, hs, hk'⟩ | ⟨hdead, hk'⟩⟩ := iterate_letter hk h hc hsep
      · rw [hnone, hs]
        simp only [Step.next.injEq, exists_eq_left', reduceCtorEq, false_and, false_or]
        exact ih (iterate_routed hk hs) hk' hrest
      · rw [hnone]
        constructor
        · rintro (⟨h, -⟩ | ⟨k₁, hs₁, ht⟩)
          · cases h
          · refine absurd ht (hskip k₁ hs₁ ?_)
            rw [hs₁] at hk'
            exact hskipping _ hk'.2
        · rintro ⟨hr, -, heq⟩
          exact absurd heq (spelled_dead hdead cs r hr)

theorem feed_skipping {k₀ k : Frame} {cs : List Int} (h : Skipping k₀ k) (hcs : ∀ c ∈ cs, inLine c) :
    (feed iterate k cs).Holds (fun k' => -1 ∉ cs ∧ Skipping k₀ k') fun _ => -1 ∈ cs := by
  induction cs generalizing k with
  | nil => exact ⟨by simp, h⟩
  | cons c cs ih =>
    have hi := iterate_skipping h (hcs c (List.mem_cons_self ..))
    rw [feed_cons]
    cases hs : iterate k c with
    | halt r =>
      rw [hs] at hi
      exact hi ▸ List.mem_cons_self ..
    | next k' =>
      rw [hs] at hi
      have hrun := ih hi.2 fun c' hc' => hcs c' (List.mem_cons_of_mem _ hc')
      dsimp only
      cases hf : feed iterate k' cs with
      | next k₁ =>
        rw [hf] at hrun
        exact ⟨fun hm => (List.mem_cons.mp hm).elim (fun h => hi.1 h.symm) hrun.1, hrun.2⟩
      | halt r =>
        rw [hf] at hrun
        exact List.mem_cons_of_mem _ hrun

/-- **A line that is not treated is read to its end and changes nothing**, unless 0xFF is in it. -/
theorem feed_untreated {k₀ k : Frame} {w cs : List Int} (hk : Routed k) (h : Reading k₀ w k)
    (hcs : ∀ c ∈ cs, inLine c)
    (hun : ∀ r ∈ headerCodes, treated k₀.s.hmask r = true → spelled w cs ≠ some (headerName r)) :
    (feed iterate k cs).Holds
      (fun k' => -1 ∉ cs ∧ ((∃ w', Reading k₀ w' k') ∨ Skipping k₀ k')) fun _ => -1 ∈ cs := by
  induction cs generalizing k w with
  | nil => exact ⟨by simp, .inl ⟨w, h⟩⟩
  | cons c cs ih =>
    have hc := hcs c (List.mem_cons_self ..)
    have hrest : ∀ c' ∈ cs, inLine c' := fun c' hc' => hcs c' (List.mem_cons_of_mem _ hc')
    have hone : (c = -1 → False) → ∀ k', iterate k c = .next k' →
        (feed iterate k' cs).Holds (fun k' => -1 ∉ cs ∧ ((∃ w', Reading k₀ w' k') ∨ Skipping k₀ k'))
          (fun _ => -1 ∈ cs) →
        (feed iterate k (c :: cs)).Holds
          (fun k' => -1 ∉ c :: cs ∧ ((∃ w', Reading k₀ w' k') ∨ Skipping k₀ k')) fun _ => -1 ∈ c :: cs := by
      intro h1 k' hs hrun
      rw [feed_cons_next cs hs]
      cases hf : feed iterate k' cs with
      | next k₁ =>
        rw [hf] at hrun
        exact ⟨fun hm => (List.mem_cons.mp hm).elim (fun h => h1 h.symm) hrun.1, hrun.2⟩
      | halt r =>
        rw [hf] at hrun
        exact List.mem_cons_of_mem _ hrun
    have hskip : ∀ k', Skipping k₀ k' →
        (feed iterate k' cs).Holds (fun k' => -1 ∉ cs ∧ ((∃ w', Reading k₀ w' k') ∨ Skipping k₀ k'))
          fun _ => -1 ∈ cs := by
      intro k' hk'
      have hrun := feed_skipping hk' hrest
      cases hf : feed iterate k' cs with
      | next k₁ =>
        rw [hf] at hrun
        exact ⟨hrun.1, .inr hrun.2⟩
      | halt r =>
        rw [hf] at hrun
        exact hrun
    by_cases hsep : c = 58 ∨ c = 0
    · have h1 : c ≠ -1 := by rcases hsep with rfl | rfl <;> decide
      obtain ⟨-, -, -, k', hs, hk'⟩ | ⟨-, hb, k', hs, hk'⟩ | ⟨s, hs, -, hname, -, hfree⟩ :=
        iterate_nameEnd hk h hsep
      · exact hone h1 k' hs (hskip k' hk')
      · refine hone h1 k' hs (ih (iterate_routed hk hs) hk' hrest fun r hr ht => ?_)
        have := hun r hr ht
        rwa [spelled, if_pos hsep, if_pos hb] at this
      · have hb : w ∉ branchings := fun hb => (branchings_stem w hb).2 s hs hname
        have hfalse : treated k.s.hmask s = false := by
          rw [h.untouched.hmask]
          by_contra ht
          refine hun s hs (by simpa using ht) ?_
          rw [spelled, if_pos hsep, if_neg hb, hname]
        obtain ⟨k', hs', hk'⟩ := hfree hfalse
        exact hone h1 k' hs' (hskip k' hk')
    · obtain ⟨-, ⟨k', h1, hs, hk'⟩ | ⟨-, hk'⟩⟩ := iterate_letter hk h hc hsep
      · refine hone h1 k' hs (ih (iterate_routed hk hs) hk' hrest fun r hr ht => ?_)
        have := hun r hr ht
        rwa [spelled, if_neg hsep] at this
      · cases hs : iterate k c with
        | next k' =>
          rw [hs] at hk'
          exact hone hk'.1 k' hs (hskip k' hk'.2)
        | halt r =>
          rw [hs] at hk'
          rw [feed_cons_halt cs hs]
          exact hk' ▸ List.mem_cons_self ..

/-- A skipped line has ended. -/
structure Skipped (k₀ k : Frame) : Prop where
  st : k.s.st = hNl
  nl : k.s.nl = 1
  untouched : Untouched k₀ k
  fold : (k.s.collect = k₀.s.collect ∧ k.s.est = k₀.s.est) ∨
    (k.s.collect = false ∧ k.s.est = hSkipline)

def lineEnds : List (List Int) := [[10], [13, 10]]

theorem feed_skipping_end {k₀ k : Frame} (h : Skipping k₀ k) {eol : List Int} (he : eol ∈ lineEnds) :
    ∃ k', feed iterate k eol = .next k' ∧ Skipped k₀ k' := by
  obtain ⟨hst, hnl, ⟨hrq, htext, hmask, hesc, hv⟩, hfold⟩ := h
  simp only [lineEnds, List.mem_cons, List.not_mem_nil, or_false] at he
  rcases he with rfl | rfl
  · have hs : switch k 10 = brk ((k.mark.setNl (k.s.nl + 1)).shift hNl) := by
      simp [switch, hst, hSkiplineCase]
    refine ⟨_, by rw [feed_cons_next [] (iterate_of_brk hs (by simp [hnl]))]; rfl, ?_⟩
    exact ⟨rfl, by simp [hnl], ⟨hrq, htext, hmask, hesc, hv⟩, hfold⟩
  · have hs : switch k 13 = brk (k.mark.shift hCr) := by
      simp [switch, hst, hSkiplineCase]
    have hs' : switch (k.mark.shift hCr).advance 10 =
        brk (((k.mark.shift hCr).advance.setNl (k.s.nl + 1)).shift hNl) := by
      simp [switch, hCrCase]
    refine ⟨_, by rw [feed_cons_next [10] (iterate_of_brk hs (by simp [hnl])),
      feed_cons_next [] (iterate_of_brk hs' (by simp [hnl]))]; rfl, ?_⟩
    exact ⟨rfl, by simp [hnl], ⟨hrq, htext, hmask, hesc, hv⟩, hfold⟩

theorem feed_reading_end {k₀ k : Frame} {w : List Int} (hk : Routed k) (h : Reading k₀ w k)
    {eol : List Int} (he : eol ∈ lineEnds) : ∃ k', feed iterate k eol = .next k' ∧ Skipped k₀ k' := by
  have hreset : ∀ c, c = 10 ∨ c = 13 → iterate k c = iterate (k.shift hSkipline) c := by
    intro c hc
    have hlow : toLower c = c := by rcases hc with rfl | rfl <;> rfl
    have hw : headerWalk c k.tstate = some (-1, k.tstate) := by
      have hle : c ≤ 32 := by omega
      obtain ⟨t, hw, -⟩ | ⟨hw, -⟩ := headerWalk_letter h.placed (c := c) (by omega) (by omega)
      · have := headerWalk_blank hle (by omega) hw
        omega
      · exact hw
    have hs : switch k c = reset hSkipline k c := by
      simp [switch, h.st, hHeaderCase, onWalk, hlow, hw]
    exact iterate_reset hk hs
  obtain ⟨k', hf, hk'⟩ := feed_skipping_end h.skipping he
  refine ⟨k', ?_, hk'⟩
  simp only [lineEnds, List.mem_cons, List.not_mem_nil, or_false] at he
  rcases he with rfl | rfl
  · rw [feed_cons, hreset 10 (.inl rfl), ← feed_cons]
    exact hf
  · rw [feed_cons, hreset 13 (.inr rfl), ← feed_cons]
    exact hf

/-! ## A header line as a whole -/

/-- Characters that can be the name in a header line. -/
structure LineName (name : List Int) : Prop where
  ne_nil : name ≠ []
  plain : ∀ c ∈ name, inLine c ∧ c ≠ 58
  first : ∀ c ∈ name.head?, c ≠ 32 ∧ c ≠ 9

/-- The line is read to its end, and changes neither the request nor what is stored. -/
def Skips (k : Frame) (line : List Int) : Prop :=
  ∀ eol ∈ lineEnds, ∃ k', feed iterate k (line ++ eol) = .next k' ∧ k'.s.st = hNl ∧ k'.rq = k.rq ∧
    k'.text = k.text

/-- The line is treated as the header that its name says, or skipped. -/
structure TakenAtItsName (k : Frame) (name value : List Int) : Prop where
  known : ∀ r, Treats k (name ++ 58 :: value) r → headerName r = name.map toLower
  other : (∀ r, ¬Treats k (name ++ 58 :: value) r) → Skips k (name ++ 58 :: value)

/-- What the parser reads for the name is not that of another header that it would treat; and if it
treats the line as none, there is no 0xFF in it. -/
def NameKept (hmask : Uint) (name value : List Int) : Prop :=
  (∀ r ∈ headerCodes, treated hmask r = true →
    spelled [] (name ++ 58 :: value) = some (headerName r) → headerName r = name.map toLower) ∧
  ((∀ r ∈ headerCodes, treated hmask r = true →
    spelled [] (name ++ 58 :: value) ≠ some (headerName r)) → -1 ∉ name ++ 58 :: value)

theorem line_reading {k : Frame} (hk : Routed k) (hat : AtLine k) {name : List Int}
    (hname : LineName name) (value : List Int) :
    ∃ k₁, Routed k₁ ∧ Reading k [] k₁ ∧
      (∀ cs, feed iterate k (name ++ 58 :: value ++ cs) = feed iterate k₁ (name ++ 58 :: value ++ cs)) ∧
      ∀ r, Treats k (name ++ 58 :: value) r ↔ Treats k₁ (name ++ 58 :: value) r := by
  obtain ⟨c, name, rfl⟩ := List.exists_cons_of_ne_nil hname.ne_nil
  have hc := (hname.plain c (List.mem_cons_self ..)).1
  obtain ⟨h32, h9⟩ := hname.first c rfl
  obtain ⟨k₁, hk₁, hread, hit, hrec⟩ := iterate_atLine hk hat hc h32 h9
  refine ⟨k₁, hk₁, hread, fun cs => ?_, fun r => ?_⟩
  · simp only [List.cons_append, feed_cons, hit]
  · rw [List.cons_append, treats_cons, treats_cons, hit, hrec, hread.untouched.hmask]

theorem line_inLine {name value : List Int} (hname : LineName name) (hvalue : ∀ c ∈ value, inLine c) :
    ∀ c ∈ name ++ 58 :: value, inLine c := by
  intro c hc
  rw [List.mem_append, List.mem_cons] at hc
  rcases hc with hc | rfl | hc
  · exact (hname.plain c hc).1
  · simp [inLine]
  · exact hvalue c hc

/-- A line that is not treated, with its line end. -/
theorem feed_untreated_line {k : Frame} (hk : Routed k) (hat : AtLine k) {name value : List Int}
    (hname : LineName name) (hvalue : ∀ c ∈ value, inLine c)
    (hun : ∀ r, ¬Treats k (name ++ 58 :: value) r) :
    if -1 ∈ name ++ 58 :: value then ∃ r, feed iterate k (name ++ 58 :: value) = .halt r
    else ∀ eol ∈ lineEnds, ∃ k', feed iterate k (name ++ 58 :: value ++ eol) = .next k' ∧ Skipped k k' := by
  obtain ⟨k₁, hk₁, hread, hfeed, htreats⟩ := line_reading hk hat hname value
  have hline := line_inLine hname hvalue
  have hrun := feed_untreated hk₁ hread hline fun r hr ht hs =>
    hun r ((htreats r).mpr ((treats_iff hk₁ hread hline r).mpr ⟨hr, ht, hs⟩))
  have hfeed₀ := hfeed []
  simp only [List.append_nil] at hfeed₀
  cases hf : feed iterate k₁ (name ++ 58 :: value) with
  | halt r =>
    rw [hf] at hrun
    have h1 : -1 ∈ name ++ 58 :: value := hrun
    rw [if_pos h1]
    exact ⟨r, hfeed₀.trans hf⟩
  | next k₂ =>
    rw [hf] at hrun
    rw [if_neg hrun.1]
    intro eol he
    rw [hfeed eol, feed_append_next _ hf]
    obtain ⟨w, hw⟩ | hw := hrun.2
    · exact feed_reading_end (feed_routed hk₁ hf) hw he
    · exact feed_skipping_end hw he

/-- **A line is taken at its name exactly where its name is kept**: of every header line that is met
in a run of `minute_http_read`. -/
theorem header_line_iff {rq : MinuteHttpRq} {hmask : Uint} {io : Iobuf} {text : Textint} {k : Frame}
    {pre name value : List Int}
    (hpre : feed iterate
      (startFrame rq (minuteHttpInit hmask io text).1 io (minuteHttpInit hmask io text).2) pre = .next k)
    (hat : AtLine k) (hname : LineName name) (hvalue : ∀ c ∈ value, inLine c) :
    TakenAtItsName k name value ↔ NameKept hmask name value := by
  have hstart : Routed
      (startFrame rq (minuteHttpInit hmask io text).1 io (minuteHttpInit hmask io text).2) := rfl
  have hk : Routed k := feed_routed hstart hpre
  have hmask' : k.s.hmask = hmask := (feed_m hpre).2
  obtain ⟨k₁, hk₁, hread, -, htreats⟩ := line_reading hk hat hname value
  have hline := line_inLine hname hvalue
  have hiff : ∀ r, Treats k (name ++ 58 :: value) r ↔ r ∈ headerCodes ∧ treated hmask r = true ∧
      spelled [] (name ++ 58 :: value) = some (headerName r) := fun r => by
    rw [htreats r, treats_iff hk₁ hread hline r, hmask']
  constructor
  · rintro ⟨hknown, hother⟩
    refine ⟨fun r hr ht hs => hknown r ((hiff r).mpr ⟨hr, ht, hs⟩), fun hno h1 => ?_⟩
    have hun : ∀ r, ¬Treats k (name ++ 58 :: value) r := fun r htr => by
      obtain ⟨hr, ht, hs⟩ := (hiff r).mp htr
      exact hno r hr ht hs
    have hrun := feed_untreated_line hk hat hname hvalue hun
    rw [if_pos h1] at hrun
    obtain ⟨r, hr⟩ := hrun
    obtain ⟨k', hf, -⟩ := hother hun [10] (by simp [lineEnds])
    rw [feed_append, hr] at hf
    cases hf
  · rintro ⟨hknown, hother⟩
    refine ⟨fun r htr => ?_, fun hun eol he => ?_⟩
    · obtain ⟨hr, ht, hs⟩ := (hiff r).mp htr
      exact hknown r hr ht hs
    · have h1 := hother fun r hr ht hs => hun r ((hiff r).mpr ⟨hr, ht, hs⟩)
      have hrun := feed_untreated_line hk hat hname hvalue hun
      rw [if_neg h1] at hrun
      obtain ⟨k', hf, hk'⟩ := hrun eol he
      exact ⟨k', hf, hk'.st, hk'.untouched.rq, hk'.untouched.text⟩

instance AtLine.decidable (k : Frame) : Decidable (AtLine k) := inferInstanceAs (Decidable (_ ∨ _))

instance Treats.decidable (k : Frame) (cs : List Int) (r : Nat) : Decidable (Treats k cs r) :=
  inferInstanceAs (Decidable (¬_))

instance inLine.decidable (c : Int) : Decidable (inLine c) := inferInstanceAs (Decidable (_ ∧ _))

instance LineName.decidable (name : List Int) : Decidable (LineName name) :=
  decidable_of_iff (name ≠ [] ∧ (∀ c ∈ name, inLine c ∧ c ≠ 58) ∧ ∀ c ∈ name.head?, c ≠ 32 ∧ c ≠ 9)
    ⟨fun ⟨h₁, h₂, h₃⟩ => ⟨h₁, h₂, h₃⟩, fun ⟨h₁, h₂, h₃⟩ => ⟨h₁, h₂, h₃⟩⟩

instance NameKept.decidable (hmask : Uint) (name value : List Int) :
    Decidable (NameKept hmask name value) :=
  inferInstanceAs (Decidable (_ ∧ _))

theorem exists_atLine (k : Frame) (pre : List Int) {P : Frame → Prop}
    (h : (feed iterate k pre).Holds (fun k' => AtLine k' ∧ P k') fun _ => False) :
    ∃ k', feed iterate k pre = .next k' ∧ AtLine k' ∧ P k' :=
  h.exists_next

/-- The line `hOST: b` after a first header. -/
theorem header_line_host :
    let io := Iobuf.holding 4096 []
    let text := minuteTextintInit 64 fun _ => 0
    let init := minuteHttpInit minuteAllHeaders io text
    ∃ k, feed iterate (startFrame .zero init.1 io init.2) (chars (bytes "GET / HTTP/1.1\nX: a\n")) = .next k ∧
      TakenAtItsName k (chars (bytes "hOST")) (chars (bytes " b")) := by
  intro io text init
  obtain ⟨k, hf, hat, -⟩ := exists_atLine (startFrame .zero init.1 io init.2)
    (chars (bytes "GET / HTTP/1.1\nX: a\n")) (P := fun _ => True) (by decide +kernel)
  exact ⟨k, hf, (header_line_iff hf hat (by decide +kernel) (by decide +kernel)).mpr (by decide +kernel)⟩

/-- The line `Content-:Length: 5` is treated as the header Content-Length. -/
theorem header_line_forged :
    ∃ (hmask : Uint) (io : Iobuf) (text : Textint) (k : Frame) (pre name value : List Int),
      feed iterate
        (startFrame .zero (minuteHttpInit hmask io text).1 io (minuteHttpInit hmask io text).2) pre =
          .next k ∧
      AtLine k ∧ LineName name ∧ (∀ c ∈ value, inLine c) ∧ ¬TakenAtItsName k name value := by
  obtain ⟨k, hf, hat, ht⟩ := exists_atLine
    (startFrame .zero (minuteHttpInit minuteAllHeaders (Iobuf.holding 4096 [])
        (minuteTextintInit 64 fun _ => 0)).1 (Iobuf.holding 4096 [])
        (minuteHttpInit minuteAllHeaders (Iobuf.holding 4096 []) (minuteTextintInit 64 fun _ => 0)).2)
    (chars (bytes "GET / HTTP/1.1\n"))
    (P := fun k => Treats k (chars (bytes "Content-") ++ 58 :: chars (bytes "Length: 5"))
      HttpRequestHeader.contentLength.code) (by decide +kernel)
  refine ⟨_, _, _, k, _, chars (bytes "Content-"), chars (bytes "Length: 5"), hf, hat,
    by decide +kernel, by decide +kernel, fun h => ?_⟩
  exact absurd (h.known _ ht) (by decide +kernel)

end MinuteHttp
