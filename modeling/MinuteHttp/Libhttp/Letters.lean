import MinuteHttp.Libhttp.Interfere
import MinuteHttp.Libhttp.UrlText

/-!
# The case of letters

Behind the request line a pass asks for a letter only in lower case, unless it puts it into the text buffer
(`switch_blind`). Two requests that differ in the case of letters in names, and in the values of the headers
that set flags, are therefore read in the same way up to a letter that is stored; from there on the two texts
differ for good, because what is stored stays. `letter_case_iff` says so, and `stores_behind_nul` where alone such
a letter can stand: behind a NUL, which ends a name for the parser as a `':'` does.
-/

namespace MinuteHttp

open HttpRequestState Feed

/-! ## Two requests -/

/-- Connection, Expect and Transfer-Encoding. -/
def flagNames : List (List Int) :=
  [HttpRequestHeader.connection, .expect, .transferEncoding].map fun r => headerName r.code

/-- The character behind `p` stands before the first `':'` of a header line, or in the value on the line of
a header that sets a flag. -/
def CaseFree (p : List Int) : Prop :=
  ∃ before line, p = before ++ [10] ++ line ∧ PastRequestLine (before ++ [10]) ∧ 10 ∉ line ∧
    (∀ c ∈ line.head?, c ≠ 32 ∧ c ≠ 9) ∧ (58 ∉ line ∨ (line.takeWhile fun c => c ≠ 58).map toLower ∈ flagNames)

/-- Two requests, a character of each at a time, that differ only in the case of letters where it is free. -/
def Recased (w : List (Int × Int)) : Prop :=
  ∀ p x q, w = p ++ x :: q → toLower x.2 = toLower x.1 ∧ (x.2 ≠ x.1 → CaseFree (p.map Prod.fst))

/-- A letter would be put into the text buffer. -/
def Stores (k : Frame) : Prop := Open k ∧ k.text.text < k.text.ints

/-! ## Passes -/

/-- The frames in which the case of a letter does not matter. -/
structure Blind (k : Frame) : Prop where
  line : k.s.st.isRequestLine = false
  cont : k.s.st ≠ hCont
  lead : k.s.st = hValueLead → k.s.est.isValue = true
  full : Open k → ¬k.text.text < k.text.ints

/-- The frames are the same and the characters so in lower case. -/
def SameFolded (x x' : Frame × Int) : Prop :=
  x' = x ∨ x'.1 = x.1 ∧ toLower x'.2 = toLower x.2 ∧ Blind x.1

theorem rel_refl {k : Frame} {c : Int} : (switch k c).Rel SameFolded (fun l l' => l' = l) (switch k c) := by
  cases switch k c with
  | next x => exact .inl rfl
  | halt l => rfl

theorem rel_reset {k : Frame} {c c' : Int} {x : HttpRequestState} (h : Blind (k.shift x)) (hc : toLower c' = toLower c) :
    (reset x k c).Rel SameFolded (fun l l' => l' = l) (reset x k c') := .inr ⟨rfl, hc, h⟩

theorem Blind.of_closed {k : Frame} (hline : k.s.st.isRequestLine = false) (hcont : k.s.st ≠ hCont)
    (hlead : k.s.st ≠ hValueLead) (hvalue : k.s.st ≠ hValue) : Blind k :=
  ⟨hline, hcont, fun h => absurd h hlead, fun h => (h.elim hvalue fun h => hlead h.1).elim⟩

/-- **A pass does not see the case of a letter** that it does not store. -/
theorem switch_blind {k : Frame} {c c' : Int} (h : Blind k) (hc : toLower c' = toLower c) :
    (switch k c).Rel SameFolded (fun l l' => l' = l) (switch k c') := by
  obtain ⟨hline, hcont, hlead, hfull⟩ := h
  have heq : ∀ n : Int, n < 65 → (c' = n ↔ c = n) := by
    intro n hn
    rw [← toLower_eq hn, hc, toLower_eq hn]
  have hdigit : 48 ≤ c' ∧ c' ≤ 57 ↔ 48 ≤ c ∧ c ≤ 57 := by
    unfold toLower at hc
    split at hc <;> split at hc <;> omega
  have hblind : ∀ x : HttpRequestState, x.isRequestLine = false → x ≠ hCont → x ≠ hValueLead → x ≠ hValue →
      ∀ k' : Frame, Blind (k'.shift x) := fun x h₁ h₂ h₃ h₄ k' => Blind.of_closed h₁ h₂ h₃ h₄
  cases hst : k.s.st <;> simp only [switch, hst]
  case hCr =>
    simp only [hCrCase, heq 10 (by decide)]
    split_ifs
    · rfl
    · exact rel_reset (hblind _ rfl (by decide) (by decide) (by decide) k) hc
  case hNl =>
    simp only [hNlCase, heq 13 (by decide), heq 10 (by decide), heq 32 (by decide), heq 9 (by decide)]
    split_ifs
    · rfl
    · rfl
    · rfl
    · exact rel_reset (hblind _ rfl (by decide) (by decide) (by decide) _) hc
  case hHeader =>
    have hsame : hHeaderCase k c' = hHeaderCase k c := by
      unfold hHeaderCase
      rw [hc]
    have hr := rel_refl (k := k) (c := c)
    rw [switch, hst] at hr
    rw [hsame]
    exact hr
  case hHeadFlag =>
    have hsame : hHeadFlagCase k c' = hHeadFlagCase k c := by
      unfold hHeadFlagCase
      rw [hc]
    have hr := rel_refl (k := k) (c := c)
    rw [switch, hst] at hr
    rw [hsame]
    exact hr
  case hHeadConnection | hHeadExpect | hHeadTransferEncoding =>
    exact rel_reset (hblind _ rfl (by decide) (by decide) (by decide) _) hc
  case hHeadContentLength =>
    have hvalue : 48 ≤ c ∧ c ≤ 57 → c' = c := by
      intro h
      exact (heq c (by omega)).mpr rfl
    simp only [hHeadContentLengthCase, hdigit, heq 13 (by decide), heq 10 (by decide)]
    split_ifs with hd
    · rw [hvalue hd]
      rfl
    · rfl
    · exact rel_reset (hblind _ rfl (by decide) (by decide) (by decide) k) hc
    · exact rel_reset (hblind _ rfl (by decide) (by decide) (by decide) k) hc
  case hValueLead =>
    have hval := hlead hst
    simp only [hValueLeadCase, ne_eq, heq 32 (by decide), heq 9 (by decide)]
    split_ifs
    · have hest : k.s.est.isRequestLine = false ∧ k.s.est ≠ hCont ∧ k.s.est ≠ hValueLead := by
        cases hx : k.s.est <;> rw [hx] at hval <;> first | decide | cases hval
      refine rel_reset ⟨hest.1, hest.2.1, fun hx => absurd hx hest.2.2, ?_⟩ hc
      rintro (hx | ⟨hx, -⟩)
      · exact hfull (.inr ⟨hst, hx⟩)
      · exact absurd hx hest.2.2
    · rfl
  case hValue =>
    have hno : ∀ b : Byte, minuteTextintPutc b k.text = none := by
      intro b
      unfold minuteTextintPutc
      exact if_pos (by simpa using hfull (.inl hst))
    simp only [hValueCase, putcOr, shift_text, mark_text, setNl_text, hno, heq 13 (by decide), heq 10 (by decide),
      heq (-1) (by decide), heq 32 (by decide), heq 9 (by decide)]
    split_ifs <;> rfl
  case hSkipline =>
    simp only [hSkiplineCase, heq 13 (by decide), heq 10 (by decide), heq (-1) (by decide)]
    split_ifs <;> rfl
  case hErrorNotImplemented | hErrorBadRequest | hErrorInternalServerError | hNewline | hHeaderUnknown => rfl
  case hCont => exact absurd hst hcont
  all_goals
    rw [hst] at hline
    cases hline

theorem iterate_blind {k : Frame} {c c' : Int} (h : Blind k) (hc : toLower c' = toLower c) :
    iterate k c' = iterate k c := by
  have hd := drive_rel (fun x : Frame × Int => switch x.1 x.2) (fun x : Frame × Int => switch x.1 x.2) SameFolded
    (fun l l' => l' = l) (fun x x' hx => ?_) (n := passLimit)
    (show SameFolded (k, c) (k, c') from .inr ⟨rfl, hc, h⟩)
  · unfold iterate
    revert hd
    cases drive (fun x : Frame × Int => switch x.1 x.2) passLimit (k, c) with
    | none =>
      cases drive (fun x : Frame × Int => switch x.1 x.2) passLimit (k, c') with
      | none => exact fun _ => rfl
      | some l' => exact False.elim
    | some l =>
      cases drive (fun x : Frame × Int => switch x.1 x.2) passLimit (k, c') with
      | none => exact False.elim
      | some l' =>
        intro hl
        rw [hl]
  · rcases hx with rfl | ⟨h₁, h₂, h₃⟩
    · exact rel_refl
    · rw [h₁]
      exact switch_blind h₃ h₂

/-! ## Where the case is free -/

theorem switch_cont (k : Frame) (c : Int) (hk : Routed k) :
    Pass.All (fun k' _ => k'.s.st ≠ hNl) (fun k' => k'.s.st = hCont → k.s.st = hNl ∧ (c = 32 ∨ c = 9))
      (fun _ _ => True) True (switch k c) := by
  cases hst : k.s.st <;> simp only [switch, hst]
  case hValueLead =>
    have hval : k.s.est.isValue = true := by simpa [Routed, hst, routed] using hk
    simp only [hValueLeadCase, all_ite, all_reset, all_brk]
    refine ⟨fun _ hx => ?_, fun _ hx => ?_⟩
    · have hx : k.s.est = hNl := hx
      rw [hx] at hval
      cases hval
    · rw [hst] at hx
      cases hx
  case hEscaped2 =>
    have hest : k.s.est = hPath ∨ k.s.est = hQuery := by
      have hr : routed k.s.st k.s.est k.s.collect = true := hk
      rw [hst] at hr
      simp only [routed, Bool.and_eq_true, Bool.or_eq_true, beq_iff_eq] at hr
      exact hr.1
    simp only [hEscaped2Case, all_ite, all_reset, all_putcOr, all_brk]
    refine ⟨fun _ hx => (by cases hx), fun _ => ⟨fun _ => trivial, fun t _ hx => ?_⟩⟩
    have hx : k.s.est = hCont := hx
    rw [hx] at hest
    rcases hest with hest | hest <;> cases hest
  all_goals
    dsimp only [hInitialCase, hMethodCase, hMethodSpCase, hPathCase, hEscaped1Case, hQueryCase, hPathSpCase,
      hProtCase, hProtSlashCase, hProtHttpXCase, hProtHttpXDotCase, hProtHttpXXCase, hCrCase, hNlCase, hHeaderCase,
      hHeaderMatched, hHeadConnectionCase, hHeadExpectCase, hHeadTransferEncodingCase, hHeadFlagInitial,
      hHeadContentLengthCase, hHeadFlagCase, hContCase, hValueCase, hSkiplineCase, hErrorCase]
    simp [hst]

theorem iterate_cont {k k' : Frame} {c : Int} (hk : Routed k) (h : iterate k c = .next k') (hst : k'.s.st = hCont) :
    k.s.st = hNl ∧ (c = 32 ∨ c = 9) := by
  have hi := iterate_inv (N := fun k₁ c₁ => Routed k₁ ∧ (k₁.s.st = hNl → k.s.st = hNl ∧ c₁ = c))
    (B := fun k₁ => k₁.s.st = hCont → k.s.st = hNl ∧ (c = 32 ∨ c = 9)) (R := fun _ _ => True) (F := True)
    (fun k₁ c₁ h₁ => ?_) (k := k) (c := c) ⟨hk, fun h => ⟨h, rfl⟩⟩
  · rw [h] at hi
    obtain ⟨k₁, h₁, -, rfl⟩ := hi
    exact h₁ hst
  · obtain ⟨hr, hnl⟩ := h₁
    refine ((switch_routed k₁ c₁ hr).and (switch_cont k₁ c₁ hr)).imp (fun k₂ c₂ h₂ => ?_) (fun k₂ h₂ hcont => ?_)
      (fun _ _ _ => trivial) fun _ => trivial
    · exact ⟨h₂.1.1, fun h => absurd h h₂.2⟩
    · obtain ⟨hst₁, hc₁⟩ := h₂.2 hcont
      obtain ⟨hst, rfl⟩ := hnl hst₁
      exact ⟨hst, hc₁⟩

section

variable {rq : MinuteHttpRq} {hmask : Uint} {io : Iobuf} {text : Textint} {p : List Int} {k : Frame}

theorem past_isRequestLine (hb : Between p k) (hp : PastRequestLine p) : k.s.st.isRequestLine = false := by
  have hm := hb 0
  have hne : fromRequestLine p ≠ [] := List.ne_nil_of_mem hp
  unfold Mid at hm
  cases hst : k.s.st <;> rw [hst] at hm <;> first | rfl | skip
  case hInitial => exact absurd hm.2 hne
  all_goals
    simp only [isRequestLine, if_true] at hm
    rcases hm.2 with hon | ⟨hnil, -⟩
    · exact absurd hp hon.not_past
    · exact absurd hnil hne

/-- **Where the case is free, a letter that is not stored is read alike in either case.** -/
theorem caseFree_blind
    (hf : feed iterate (startFrame rq (minuteHttpInit hmask io text).1 io (minuteHttpInit hmask io text).2) p =
      .next k) (hp : CaseFree p) (hno : ¬Stores k) : Blind k := by
  have hr₀ : Routed (startFrame rq (minuteHttpInit hmask io text).1 io (minuteHttpInit hmask io text).2) := rfl
  have hb₀ : Between [] (startFrame rq (minuteHttpInit hmask io text).1 io (minuteHttpInit hmask io text).2) :=
    fun c => ⟨rfl, rfl⟩
  obtain ⟨hr, hb⟩ := feed_between hr₀ hb₀ hf
  obtain ⟨before, line, rfl, hpast, h10, hhead, -⟩ := hp
  refine ⟨past_isRequestLine hb (hpast.append line), fun hcont => ?_, fun hlead => ?_, fun hopen hroom =>
    hno ⟨hopen, hroom⟩⟩
  · -- the line would begin with a blank
    obtain rfl | ⟨line, x, rfl⟩ := List.eq_nil_or_concat' line
    · rw [List.append_nil] at hf
      obtain ⟨k₁, h₁, hs⟩ := feed_snoc_next hf
      obtain ⟨-, hx⟩ := iterate_cont (feed_routed hr₀ h₁) hs hcont
      omega
    · rw [← List.append_assoc] at hf
      obtain ⟨k₁, h₁, hs⟩ := feed_snoc_next hf
      obtain ⟨hnl, hx⟩ := iterate_cont (feed_routed hr₀ h₁) hs hcont
      have hm := (feed_between hr₀ hb₀ h₁).2 0
      rw [Mid, hnl] at hm
      obtain ⟨-, -, hlf⟩ := hm
      obtain rfl | ⟨line, y, rfl⟩ := List.eq_nil_or_concat' line
      · have := hhead x rfl
        omega
      · rw [← List.append_assoc] at hlf
        have hy := (suffix_snoc (s := [])).mp hlf
        rw [← hy.1] at h10
        simp at h10
  · have h : routed k.s.st k.s.est k.s.collect = true := hr
    rw [hlead] at h
    exact h

end

/-! ### Only behind a NUL -/

/-- The states of a line that stores nothing, up to its LF. -/
def HttpRequestState.isMuted : HttpRequestState → Bool
  | hCr | hSkipline | hHeadConnection | hHeadExpect | hHeadTransferEncoding | hHeadFlag | hErrorNotImplemented
  | hErrorBadRequest | hErrorInternalServerError | hNewline | hHeaderUnknown => true
  | _ => false

def Muted (k : Frame) : Prop := k.s.st.isMuted = true ∨ (k.s.st = hValueLead ∧ k.s.est.isMuted = true)

theorem Muted.not_open {k : Frame} (h : Muted k) : ¬Open k := by
  rintro (hst | ⟨hst, hest⟩)
  · rcases h with h | h
    · rw [hst] at h
      cases h
    · rw [hst] at h
      cases h.1
  · rcases h with h | h
    · rw [hst] at h
      cases h
    · rw [hest] at h
      cases h.2

theorem switch_muted {k : Frame} {c : Int} (h : Muted k) (hc : c ≠ 10) :
    Pass.All (fun k' c' => Muted k' ∧ c' ≠ 10) Muted (fun _ _ => True) True (switch k c) := by
  have hlow : toLower c ≠ 10 := mt (toLower_eq (by decide)).mp hc
  rcases h with h | ⟨hst, hest⟩
  · cases hst : k.s.st <;> simp only [switch, hst]
    all_goals first
      | (rw [hst] at h; cases h; done)
      | dsimp only [hCrCase, hSkiplineCase, hHeadConnectionCase, hHeadExpectCase, hHeadTransferEncodingCase,
          hHeadFlagInitial, hHeadFlagCase, hErrorCase]
        simp [Muted, isMuted, hst, hc, hlow]
  · simp only [switch, hst, hValueLeadCase, all_ite, all_reset, all_brk]
    exact ⟨fun _ => ⟨.inl hest, hc⟩, fun _ => .inr ⟨hst, hest⟩⟩

theorem iterate_muted {k k' : Frame} {c : Int} (h : Muted k) (hc : c ≠ 10) (hs : iterate k c = .next k') : Muted k' := by
  have hi := iterate_inv (fun k₁ c₁ (h₁ : Muted k₁ ∧ c₁ ≠ 10) => switch_muted h₁.1 h₁.2) (c := c) ⟨h, hc⟩
  rw [hs] at hi
  obtain ⟨k₁, h₁, -, rfl⟩ := hi
  exact h₁

/-- What has been read of a header line, and nothing is stored of it. -/
def Unstored (line : List Int) (k : Frame) : Prop :=
  Muted k ∨ (line = [] ∧ k.s.st = hNl) ∨ (58 ∉ line ∧ ∃ k₀, Reading k₀ (line.map toLower) k)

theorem iterate_flagName {k₀ k k' : Frame} {w : List Int} (h : Reading k₀ w k) (hw : w ∈ flagNames)
    (hs : iterate k 58 = .next k') : Muted k' := by
  have hflag : ∀ v ∈ flagNames, v ∉ branchings ∧ ∀ r ∈ headerCodes, headerName r = v →
      r = HttpRequestHeader.connection.code ∨ r = HttpRequestHeader.expect.code ∨
        r = HttpRequestHeader.transferEncoding.code := by decide +kernel
  obtain ⟨hb, hcode⟩ := hflag w hw
  have hname : ∃ r ∈ headerCodes, headerName r = w := by
    have hall : ∀ v ∈ flagNames, ∃ r ∈ headerCodes, headerName r = v := by decide +kernel
    exact hall w hw
  obtain ⟨-, hno, -⟩ | ⟨-, hb'⟩ | ⟨r, hr, hwalk, hrw⟩ := headerWalk_end h.placed (c := 58) (.inl rfl)
  · obtain ⟨r, hr, hrw⟩ := hname
    rw [h.spelt] at hno
    exact absurd hrw (hno r hr)
  · rw [h.spelt] at hb'
    exact absurd hb' hb
  · rw [h.spelt] at hrw
    have hpos := (mem_headerCodes.mp hr).1
    have hsw : switch k 58 = hHeaderMatched r k.clearTrie := by
      simp only [switch, h.st, hHeaderCase, onWalk, show toLower 58 = 58 from rfl, hwalk]
      rw [if_neg (by omega), if_pos (by omega)]
      rfl
    have hall : Pass.All (fun _ _ => False) Muted (fun _ _ => True) True (switch k 58) := by
      rw [hsw]
      unfold hHeaderMatched
      rcases hcode r hr hrw with rfl | rfl | rfl <;> simp [Muted, isMuted, HttpRequestHeader.code]
      all_goals decide
    cases hsw' : switch k 58 with
    | next x =>
      rw [hsw'] at hall
      exact hall.elim
    | halt l =>
      rw [iterate_of_halt hsw'] at hs
      rw [hsw'] at hall
      cases l with
      | brk k₁ =>
        rw [finishTurn] at hs
        split at hs
        · cases hs
        · cases hs
          exact hall
      | ret n k₁ => cases hs
      | fault => cases hs

theorem iterate_unstored {line : List Int} {k k' : Frame} {c : Int} (hk : Routed k) (h : Unstored line k) (h10 : c ≠ 10)
    (hblank : line = [] → c ≠ 32 ∧ c ≠ 9) (h0 : 58 ∉ line → c ≠ 0)
    (hcolon : c = 58 → 58 ∉ line → line.map toLower ∈ flagNames) (hs : iterate k c = .next k') :
    Unstored (line ++ [c]) k' := by
  have hreading : ∀ k₀ k₁, Routed k₁ → Reading k₀ (line.map toLower) k₁ → 58 ∉ line → iterate k₁ c = .next k' →
      Unstored (line ++ [c]) k' := by
    intro k₀ k₁ hr hread h58 hs
    by_cases hc : c = 58
    · subst hc
      exact .inl (iterate_flagName hread (hcolon rfl h58) hs)
    · by_cases h13 : c = 13
      · subst h13
        obtain ⟨t, hw, -⟩ | ⟨hw, -⟩ := headerWalk_letter hread.placed (c := 13) (by decide) (by decide)
        · have := headerWalk_blank (by decide) (by decide) hw
          omega
        · have hsw : switch k₁ 13 = reset hSkipline k₁ 13 := by
            simp [switch, hread.st, hHeaderCase, onWalk, hw, show toLower 13 = 13 from rfl]
          rw [iterate_reset hr hsw] at hs
          exact .inl (iterate_muted (.inl rfl) (by decide) hs)
      · obtain ⟨-, ⟨k₂, -, hs₂, hread₂⟩ | ⟨-, hskip⟩⟩ :=
          iterate_letter hr hread ⟨h10, h13⟩ (not_or.mpr ⟨hc, h0 h58⟩)
        · rw [hs, Step.next.injEq] at hs₂
          rw [hs₂]
          refine .inr (.inr ⟨by simp [h58, Ne.symm hc], k₀, ?_⟩)
          rw [List.map_append]
          exact hread₂
        · rw [hs] at hskip
          exact .inl (.inl (by rw [hskip.2.st]; rfl))
  rcases h with h | ⟨rfl, hst⟩ | ⟨h58, k₀, hread⟩
  · exact .inl (iterate_muted h h10 hs)
  · by_cases h13 : c = 13
    · subst h13
      have hsw : switch k 13 = brk (k.mark.shift hCr) := by simp [switch, hst, hNlCase]
      rw [iterate_of_halt hsw, finishTurn] at hs
      split at hs
      · cases hs
      · cases hs
        exact .inl (.inl rfl)
    · obtain ⟨h32, h9⟩ := hblank rfl
      obtain ⟨k₁, hr₁, hread₁, hit, -⟩ := iterate_atLine hk (.inl hst) ⟨h10, h13⟩ h32 h9
      rw [hit] at hs
      exact hreading k k₁ hr₁ hread₁ (by simp) hs
  · exact hreading k₀ k hk hread h58 hs

/-- **A letter that is stored where its case is free stands behind a NUL**, in the part of the line before the
first `':'`. -/
theorem stores_behind_nul {rq : MinuteHttpRq} {hmask : Uint} {io : Iobuf} {text : Textint} {p : List Int} {k : Frame}
    (hf : feed iterate (startFrame rq (minuteHttpInit hmask io text).1 io (minuteHttpInit hmask io text).2) p =
      .next k) (hp : CaseFree p) (ho : Open k) :
    ∃ before line, p = before ++ [10] ++ line ∧ 10 ∉ line ∧ 0 ∈ line.takeWhile fun c => c ≠ 58 := by
  have hr₀ : Routed (startFrame rq (minuteHttpInit hmask io text).1 io (minuteHttpInit hmask io text).2) := rfl
  have hb₀ : Between [] (startFrame rq (minuteHttpInit hmask io text).1 io (minuteHttpInit hmask io text).2) :=
    fun c => ⟨rfl, rfl⟩
  obtain ⟨before, line, rfl, hpast, h10, hhead, hname⟩ := hp
  refine ⟨before, line, rfl, h10, ?_⟩
  by_contra h0
  obtain ⟨k₁, h₁, hline⟩ := feed_prefix_next hf
  obtain ⟨hr₁, hb₁⟩ := feed_between hr₀ hb₀ h₁
  have hstart : Unstored [] k₁ := by
    have hat : AtLineStart (before ++ [10]) := .inl ⟨before, rfl⟩
    have hm := hb₁ 10
    have hreq := past_isRequestLine hb₁ hpast
    unfold Mid at hm
    cases hst : k₁.s.st <;> rw [hst] at hm hreq
    case hNl => exact .inr (.inl ⟨rfl, hst⟩)
    case hCr | hHeadFlag | hErrorNotImplemented | hErrorBadRequest | hErrorInternalServerError | hNewline |
        hHeaderUnknown => exact .inl (.inl (by rw [hst]; rfl))
    all_goals first
      | (cases hreq; done)
      | exact absurd (.inl rfl) (hm.2.2 hat)
  have hend : Routed k ∧ Unstored line k := by
    refine feed_inv_of (fun line k => Routed k ∧ Unstored line k) ⟨hr₁, hstart⟩ (fun q c r k₂ k₃ hsplit _ h₂ hs => ?_) hline
    subst hsplit
    have hall : 58 ∉ q → ∀ x ∈ q, decide (x ≠ 58) = true := fun h58 x hx => decide_eq_true fun h => h58 (h ▸ hx)
    refine ⟨iterate_routed h₂.1 hs, iterate_unstored h₂.1 h₂.2 ?_ ?_ ?_ ?_ hs⟩
    · rintro rfl
      exact h10 (by simp)
    · rintro rfl
      exact hhead c rfl
    · rintro h58 rfl
      refine h0 ?_
      rw [List.takeWhile_append_of_pos (hall h58), List.takeWhile_cons_of_pos (by decide)]
      simp
    · rintro rfl h58
      have hname := hname.resolve_left (by simp)
      rwa [List.takeWhile_append_of_pos (hall h58), List.takeWhile_cons_of_neg (by decide), List.append_nil] at hname
  rcases hend.2 with h | ⟨-, hst⟩ | ⟨-, k₀, hread⟩
  · exact h.not_open ho
  · rcases ho with ho | ⟨ho, -⟩
    · rw [hst] at ho
      cases ho
    · rw [hst] at ho
      cases ho
  · rcases ho with ho | ⟨ho, -⟩
    · rw [hread.st] at ho
      cases ho
    · rw [hread.st] at ho
      cases ho

/-! ## A letter that is stored -/

theorem byte_of_letter {c c' : Int} (hc : toLower c' = toLower c) (hne : c' ≠ c) :
    BitVec.ofInt 8 c' ≠ BitVec.ofInt 8 c ∧ 65 ≤ c ∧ c ≤ 122 ∧ 65 ≤ c' ∧ c' ≤ 122 := by
  unfold toLower at hc
  have hrange : 65 ≤ c ∧ c ≤ 122 ∧ 65 ≤ c' ∧ c' ≤ 122 := by
    split at hc <;> split at hc <;> omega
  refine ⟨fun h => ?_, hrange⟩
  have h := congrArg BitVec.toNat h
  rw [BitVec.toNat_ofInt, BitVec.toNat_ofInt] at h
  omega

theorem iterate_stores {k : Frame} {c : Int} (hk : Routed k) (hok : TextintOk k.text) (hnl : k.s.nl ≤ 1)
    (hc : 65 ≤ c) (h : Stores k) :
    ∃ k', iterate k c = .next k' ∧ BehindUrl k' k' ∧ k'.text.chars = k.text.chars ++ [BitVec.ofInt 8 c] := by
  obtain ⟨hopen, hroom⟩ := h
  obtain ⟨t, ht⟩ : ∃ t, minuteTextintPutc (BitVec.ofInt 8 c) k.text = some t := by
    unfold minuteTextintPutc
    exact ⟨_, if_neg (by simpa using hroom)⟩
  obtain ⟨hok', hchars, -⟩ := putc_spec hok ht
  have hvalue : ∀ k₁ : Frame, k₁.s.st = hValue → k₁.s.nl ≤ 1 → k₁.text = k.text →
      ∃ k', iterate k₁ c = .next k' ∧ BehindUrl k' k' ∧ k'.text.chars = k.text.chars ++ [BitVec.ofInt 8 c] := by
    intro k₁ hst hnl₁ htext
    have hs : switch k₁ c = brk { k₁.mark with text := t } := by
      simp only [switch, hst, hValueCase, putcOr, mark_text, htext, ht, show ¬c = 13 by omega,
        show ¬c = 10 by omega, show ¬c = -1 by omega, show ¬(c = 32 ∨ c = 9) by omega, if_false]
    refine ⟨_, iterate_of_brk hs hnl₁, ⟨⟨rfl, rfl, TextKept.refl _⟩, hok', ?_, fun _ => .inl (.inl hst)⟩, hchars⟩
    show k₁.s.st.upToUrl = false
    rw [hst]
    rfl
  rcases hopen with hst | ⟨hst, hest⟩
  · exact hvalue k hst hnl rfl
  · have hs : switch k c = reset k.s.est k.mark c := by
      simp only [switch, hst, hValueLeadCase, ne_eq, show ¬c = 32 by omega, show ¬c = 9 by omega,
        not_false_eq_true, and_self, if_true]
    rw [iterate_reset hk hs]
    exact hvalue _ hest hnl rfl

theorem runLeft_chars {k : Frame} {cs : List Int} {x : Nat × MinuteHttpRq × Textint} (hk : Routed k)
    (h : BehindUrl k k) (hl : runLeft (feed iterate k cs) = some x) : k.text.chars <+: x.2.2.chars :=
  (runLeft_behind hk h hl).2.2.chars

/-! ## Runs -/

section

variable {k : Frame} {w : List (Int × Int)}

/-- No letter is stored that is another one in the other request. -/
def CaseKept (k : Frame) (w : List (Int × Int)) : Prop :=
  Along (fun k x => iterate k x.1) (fun k x => x.2 ≠ x.1 → ¬Stores k) k w

/-- What holds wherever the first of two requests has been read up to. -/
structure Lockstep (k : Frame) (w : List (Int × Int)) : Prop where
  routed : Routed k
  store : StoreOk k
  nl : k.s.nl ≤ 1
  letters : ∀ p x q, w = p ++ x :: q → toLower x.2 = toLower x.1
  blind : ∀ p x q k', w = p ++ x :: q → feed iterate k (p.map Prod.fst) = .next k' → x.2 ≠ x.1 → ¬Stores k' → Blind k'

theorem Lockstep.next {x : Int × Int} {k' : Frame} (h : Lockstep k (x :: w)) (hs : iterate k x.1 = .next k') :
    Lockstep k' w := by
  have hf : feed iterate k [x.1] = .next k' := feed_cons_next [] hs
  obtain ⟨hstore, hnl⟩ := feed_storeOk h.routed h.store h.nl hf
  refine ⟨iterate_routed h.routed hs, hstore, hnl, fun p y q hw => ?_, fun p y q k₁ hw hp => ?_⟩
  · exact h.letters (x :: p) y q (by rw [hw]; rfl)
  · refine h.blind (x :: p) y q k₁ (by rw [hw]; rfl) ?_
    rw [List.map_cons, feed_cons_next _ hs]
    exact hp

theorem Lockstep.same {x : Int × Int} (h : Lockstep k (x :: w)) (hx : x.2 ≠ x.1 → ¬Stores k) :
    iterate k x.2 = iterate k x.1 := by
  by_cases heq : x.2 = x.1
  · rw [heq]
  · exact iterate_blind (h.blind [] x w k rfl rfl heq (hx heq)) (h.letters [] x w rfl)

/-- **Two runs that store the same letters leave the same.** -/
theorem feed_caseKept (h : Lockstep k w) (hw : CaseKept k w) :
    runLeft (feed iterate k (w.map Prod.snd)) = runLeft (feed iterate k (w.map Prod.fst)) := by
  induction w generalizing k with
  | nil => rfl
  | cons x w ih =>
    have hsame := h.same hw.1
    rw [List.map_cons, List.map_cons, feed_cons, feed_cons, hsame]
    cases hs : iterate k x.1 with
    | next k' => exact ih (h.next hs) (Along.next hw hs)
    | halt r =>
      dsimp only
      cases r <;> rfl

/-- **Two runs that do not, do not.** -/
theorem feed_caseLost (h : Lockstep k w) (hw : ¬CaseKept k w) {x : Nat × MinuteHttpRq × Textint}
    (hl : runLeft (feed iterate k (w.map Prod.fst)) = some x) :
    runLeft (feed iterate k (w.map Prod.snd)) ≠ some x := by
  induction w generalizing k with
  | nil => exact absurd trivial hw
  | cons y w ih =>
    rw [List.map_cons, feed_cons] at hl ⊢
    by_cases hy : y.2 ≠ y.1 → ¬Stores k
    · rw [h.same hy]
      obtain hno | ⟨k', hs, hrest⟩ := not_along_cons.mp hw
      · exact absurd hy hno
      · have hs : iterate k y.1 = .next k' := hs
        rw [hs] at hl ⊢
        exact ih (h.next hs) hrest hl
    · obtain ⟨hne, hstores⟩ := Classical.not_imp.mp hy
      have hstores := not_not.mp hstores
      have hok : TextintOk k.text := by
        obtain hinv | ⟨h0, -⟩ := h.store
        · exact hinv.ok
        · have hroom : k.text.text.toNat < k.text.ints.toNat := hstores.2
          rw [h0] at hroom
          exact absurd hroom (Nat.not_lt_zero _)
      obtain ⟨hbyte, hlow, -, hlow', -⟩ := byte_of_letter (h.letters [] y w rfl) hne
      obtain ⟨k₁, h₁, hb₁, hc₁⟩ := iterate_stores h.routed hok h.nl hlow hstores
      obtain ⟨k₂, h₂, hb₂, hc₂⟩ := iterate_stores h.routed hok h.nl hlow' hstores
      rw [h₁] at hl
      rw [h₂]
      intro hl'
      have hpre₁ := runLeft_chars (iterate_routed h.routed h₁) hb₁ hl
      have hpre₂ := runLeft_chars (iterate_routed h.routed h₂) hb₂ hl'
      rw [hc₁] at hpre₁
      rw [hc₂] at hpre₂
      have hsame := (List.prefix_of_prefix_length_le hpre₂ hpre₁ (by simp)).eq_of_length (by simp)
      exact hbyte (List.cons.inj (List.append_cancel_left hsame)).1

end

/-- **Letters in either case.** Two sessions over requests that differ in the case of letters in names and in
the values of Connection, Expect and Transfer-Encoding; the first returns. The second returns with the same
code, the same request and the same text buffer exactly if no letter was stored that is another one there. -/
theorem letter_case_iff {rq rq₁ : MinuteHttpRq} {hmask : Uint} {rqs₁ : MinuteHttpRqs} {io io' io₁ : Iobuf}
    {text text₁ : Textint} {fs fs' : List Refill} {e : Bool} {w : List (Int × Int)} {n : Nat}
    (hsize : 4 ∣ text.size.toNat) (he : eofAtLast e io fs) (he' : eofAtLast e io' fs') (hw : Recased w)
    (hshown : sessionChars io io.read fs e = w.map Prod.fst)
    (hshown' : sessionChars io' io'.read fs' e = w.map Prod.snd)
    (h : readSession rq (minuteHttpInit hmask io text).1 io (minuteHttpInit hmask io text).2 fs =
      .code n rq₁ rqs₁ io₁ text₁) :
    (readSession rq (minuteHttpInit hmask io' text).1 io' (minuteHttpInit hmask io' text).2 fs').left =
        some (n, rq₁, text₁) ↔
      CaseKept (startFrame rq (minuteHttpInit hmask io text).1 io (minuteHttpInit hmask io text).2) w := by
  set k := startFrame rq (minuteHttpInit hmask io text).1 io (minuteHttpInit hmask io text).2 with hk
  have hr : Routed k := rfl
  have hleft := left_of_code h
  rw [initSession_left rq hmask text he, hshown, ← hk] at hleft
  rw [initSession_left rq hmask text he', hshown', feed_alike_left hr (alike_start rq hmask io io' text)]
  have hlock : Lockstep k w := by
    refine ⟨hr, (storeOk_start rq hmask io hsize).1, Nat.zero_le 1, fun p x q hpx => (hw p x q hpx).1,
      fun p x q k' hpx hf hne hno => ?_⟩
    exact caseFree_blind hf ((hw p x q hpx).2 hne) hno
  constructor
  · intro hsame
    by_contra hlost
    exact feed_caseLost hlock hlost hleft hsame
  · intro hkept
    rw [feed_caseKept hlock hkept]
    exact hleft

instance flagNames.decidableMem (w : List Int) : Decidable (w ∈ flagNames) :=
  decidable_of_iff (∃ n ∈ flagNames, n = w) ⟨fun ⟨_, hn, h⟩ => h ▸ hn, fun h => ⟨w, h, rfl⟩⟩

instance CaseFree.decidable (p : List Int) : Decidable (CaseFree p) :=
  decidable_of_iff
    (∃ i < p.length, p = p.take i ++ [10] ++ p.drop (i + 1) ∧ PastRequestLine (p.take i ++ [10]) ∧ 10 ∉ p.drop (i + 1) ∧
      (∀ c ∈ (p.drop (i + 1)).head?, c ≠ 32 ∧ c ≠ 9) ∧
      (58 ∉ p.drop (i + 1) ∨ ((p.drop (i + 1)).takeWhile fun c => c ≠ 58).map toLower ∈ flagNames)) <| by
    constructor
    · rintro ⟨i, -, hp, h⟩
      exact ⟨_, _, hp, h⟩
    · rintro ⟨before, line, rfl, h⟩
      have htake : (before ++ [10] ++ line).take before.length = before := by
        rw [List.append_assoc, List.take_left]
      have hdrop : (before ++ [10] ++ line).drop (before.length + 1) = line := by
        rw [← List.length_singleton (a := (10 : Int)), ← List.length_append, List.drop_left]
      refine ⟨before.length, by simp, ?_⟩
      rw [htake, hdrop]
      exact ⟨rfl, h⟩

instance Recased.decidable (w : List (Int × Int)) : Decidable (Recased w) :=
  decidable_of_iff
    (∀ i < w.length, ∀ x ∈ w[i]?, toLower x.2 = toLower x.1 ∧ (x.2 ≠ x.1 → CaseFree ((w.take i).map Prod.fst))) <| by
    constructor
    · rintro h p x q rfl
      have hx := h p.length (by simp) x (by simp)
      rwa [List.take_left] at hx
    · intro h i hi x hx
      have hx : w[i]? = some x := hx
      have hsplit : w = w.take i ++ x :: w.drop (i + 1) := by
        rw [← (List.getElem?_eq_some_iff.mp hx).2, ← List.drop_eq_getElem_cons hi, List.take_append_drop]
      exact h _ x _ hsplit

instance Stores.decidable (k : Frame) : Decidable (Stores k) :=
  inferInstanceAs (Decidable ((_ ∨ (_ ∧ _)) ∧ _))

instance CaseKept.decidable (k : Frame) (w : List (Int × Int)) : Decidable (CaseKept k w) :=
  Along.decidable _ _ k w

/-- Two headers in other letters, the second request in two pieces. -/
theorem letter_case_flag :
    let io := Iobuf.holding 4096 (bytes "GET / HTTP/1.1\nHost: A\nConnection: close\n\n")
    let io' := Iobuf.holding 4096 (bytes "GET / HTTP/1.1\nhOST: A\ncONN")
    let whole := Iobuf.holding 4096 (bytes "GET / HTTP/1.1\nhOST: A\ncONNECTION: CLOSE\n\n")
    let text := minuteTextintInit 64 fun _ => 0
    let init := minuteHttpInit minuteAllHeaders io text
    let init' := minuteHttpInit minuteAllHeaders io' text
    ∃ rq₁ text₁, (minuteHttpRead .zero init.1 io init.2).left = some (0, rq₁, text₁) ∧
      (readSession .zero init'.1 io' init'.2 [⟨whole.data, whole.write, 0⟩]).left = some (0, rq₁, text₁) := by
  intro io io' whole text init init'
  set w := (chars (io.from io.read)).zip (chars (whole.from whole.read)) with hw
  have he : eofAtLast false io [] := by
    show Iobuf.eof _ = false
    decide +kernel
  have he' : eofAtLast false io' [⟨whole.data, whole.write, 0⟩] := by
    refine ⟨by decide +kernel, ?_⟩
    show Iobuf.eof _ = false
    decide +kernel
  obtain ⟨rq₁, rqs₁, io₁, text₁, h, -⟩ := (ReadResult.succeeds_iff (P := fun _ _ _ _ => True)
    (r := minuteHttpRead .zero init.1 io init.2)).mp (by decide +kernel)
  have hiff := letter_case_iff (by decide) he he' (by decide +kernel : Recased w)
    (by decide +kernel) (by decide +kernel) h
  exact ⟨rq₁, text₁, left_of_code h, hiff.mpr (by decide +kernel)⟩

/-- Behind the NUL in its name the value of `Host` begins, and stores the rest of the name. -/
theorem letter_case_nul :
    let io := Iobuf.holding 4096 (bytes "GET / HTTP/1.1\nHost\x00ABC: x\n\n")
    let io' := Iobuf.holding 4096 (bytes "GET / HTTP/1.1\nHost\x00abc: x\n\n")
    let text := minuteTextintInit 64 fun _ => 0
    let init := minuteHttpInit minuteAllHeaders io text
    let init' := minuteHttpInit minuteAllHeaders io' text
    Recased ((chars (io.from io.read)).zip (chars (io'.from io'.read))) ∧
      ∃ rq₁ text₁, (minuteHttpRead .zero init.1 io init.2).left = some (0, rq₁, text₁) ∧
        (minuteHttpRead .zero init'.1 io' init'.2).left ≠ some (0, rq₁, text₁) := by
  intro io io' text init init'
  obtain ⟨rq₁, rqs₁, io₁, text₁, h, hc⟩ := (ReadResult.succeeds_iff (P := fun _ _ _ t => bytes "ABC: x" <+: t.chars.drop 3)
    (r := minuteHttpRead .zero init.1 io init.2)).mp (by decide +kernel)
  obtain ⟨rq₂, rqs₂, io₂, text₂, h', hc'⟩ := (ReadResult.succeeds_iff
    (P := fun _ _ _ t => ¬bytes "ABC: x" <+: t.chars.drop 3)
    (r := minuteHttpRead .zero init'.1 io' init'.2)).mp (by decide +kernel)
  refine ⟨by decide +kernel, rq₁, text₁, left_of_code h, fun hsame => ?_⟩
  rw [left_of_code h', Option.some.injEq, Prod.mk.injEq, Prod.mk.injEq] at hsame
  rw [hsame.2.2] at hc'
  exact hc' hc

end MinuteHttp
