import MinuteHttp.Libhttp.Decimals
import MinuteHttp.Libhttp.Letters
import MinuteHttp.Libhttp.LineEnds

/-!
# The name of a header line

What a line is named can be seen in the text: behind a line end, the letters up to the first `':'`
(`EndsHeader`). The parser sees it in the same way, if it has seen the line end: in the name of a known header
it is in `h_header`, with the letters read so far (`InName.reading`). It may also be in a line that it skips,
because it has taken the line end for a character of a flag's value.
-/

namespace MinuteHttp

open HttpRequestState Feed

/-- The characters end in the `':'` behind the name of the header `r`. -/
def EndsHeader (p : List Int) (r : Nat) : Prop :=
  PastRequestLine (p.rdropWhile fun c => c ≠ 10) ∧ r ∈ headerCodes ∧
    (p.rtakeWhile fun c => c ≠ 10).map toLower = headerName r ++ [58]

instance EndsHeader.decidable (p : List Int) (r : Nat) : Decidable (EndsHeader p r) :=
  inferInstanceAs (Decidable (_ ∧ _))

section

variable {k k' : Frame} {c : Int}

/-! ## Turns -/

theorem eq_advance_of_brk {k₁ : Frame} (hsw : switch k c = brk k₁) (hs : iterate k c = .next k') :
    k' = k₁.advance := by
  rw [iterate_of_halt hsw, finishTurn] at hs
  by_cases hnl : k₁.s.nl > 1
  · rw [if_pos hnl] at hs
    cases hs
  · rw [if_neg hnl] at hs
    exact (Step.next.inj hs).symm

theorem iterate_skipTurn (hst : k.s.st = hSkipline) (hc : c ≠ 10) (hs : iterate k c = .next k') :
    k'.s.st = if c = 13 then hCr else hSkipline := by
  by_cases h13 : c = 13
  · have hsw : switch k c = brk (k.mark.shift hCr) := by
      simp only [switch, hst, hSkiplineCase, if_pos h13]
    rw [if_pos h13, eq_advance_of_brk hsw hs]
    rfl
  · rw [if_neg h13]
    by_cases heof : c = -1
    · have hsw : switch k c = brk (k.mark.setNl 99) := by
        simp only [switch, hst, hSkiplineCase, if_neg h13, if_neg hc, if_pos heof]
      rw [eq_advance_of_brk hsw hs]
      exact hst
    · have hsw : switch k c = brk k.mark := by
        simp only [switch, hst, hSkiplineCase, if_neg h13, if_neg hc, if_neg heof]
      rw [eq_advance_of_brk hsw hs]
      exact hst

theorem iterate_badRequest (hk : Routed k) (hsw : switch k c = reset hErrorBadRequest k c) :
    iterate k c = .halt (.ret 400 (k.shift hErrorBadRequest)) := by
  have herr : switch (k.shift hErrorBadRequest) c = .halt (.ret 400 (k.shift hErrorBadRequest)) := rfl
  rw [iterate_reset hk hsw, iterate_of_halt herr]
  rfl

theorem iterate_digitTurn (hk : Routed k) (hst : k.s.st = hHeadContentLength) (hc : c ≠ 10)
    (hs : iterate k c = .next k') :
    isDigit c = true ∧ k'.s.st = hHeadContentLength ∧ k'.s.esc = addDigit k.s.esc c ∨ c = 13 ∧ k'.s.st = hCr := by
  by_cases hd : 48 ≤ c ∧ c ≤ 57
  · have hsw : switch k c = brk { k with s := { k.s with esc := addDigit k.s.esc c } } := by
      simp only [switch, hst, hHeadContentLengthCase, if_pos hd]
    rw [eq_advance_of_brk hsw hs]
    exact .inl ⟨decide_eq_true hd, hst, rfl⟩
  · by_cases h13 : c = 13
    · have hsw : switch k c = brk (Frame.shift hCr { k with rq := { k.rq with
          flags := k.rq.flags ||| BitVec.ofNat 32 httpContentLength, contentLength := k.s.esc } }) := by
        simp only [switch, hst, hHeadContentLengthCase, if_neg hd, if_pos h13]
      rw [eq_advance_of_brk hsw hs]
      exact .inr ⟨h13, rfl⟩
    · have hsw : switch k c = reset hErrorBadRequest k c := by
        simp only [switch, hst, hHeadContentLengthCase, if_neg hd, if_neg h13, if_neg hc]
      rw [iterate_badRequest hk hsw] at hs
      cases hs

theorem iterate_flagTurn (hk : Routed k) (hst : k.s.st = hHeadFlag) (hc : c ≠ 10) {r : Int} {t : Triestate}
    (hw : flagWalk k.patinitialFlag (toLower c) k.tstate = some (r, t)) (hs : iterate k c = .next k') :
    if r = 0 then k'.s.st = hHeadFlag ∧ k'.tstate = t else k'.s.st = if c = 13 then hCr else hSkipline := by
  have h13 : toLower c = 13 ↔ c = 13 := toLower_eq (by decide)
  have h10 : toLower c ≠ 10 := mt (toLower_eq (by decide)).mp hc
  by_cases h0 : r = 0
  · rw [if_pos h0]
    have hsw : switch k c = brk { k with tstate := t } := by
      simp only [switch, hst, hHeadFlagCase, onWalk, hw, h0]
      rfl
    rw [eq_advance_of_brk hsw hs]
    exact ⟨hst, rfl⟩
  · rw [if_neg h0, ← if_congr h13 rfl rfl]
    by_cases hneg : r < 0
    · have hsw : switch k c = reset hSkipline { k with tstate := t } (toLower c) := by
        simp only [switch, hst, hHeadFlagCase, onWalk, hw, if_pos hneg]
      rw [iterate_reset hk hsw] at hs
      exact iterate_skipTurn rfl h10 hs
    · have hpos : r > 0 := by omega
      have hsw : switch k c = reset hSkipline { (Frame.mark { k with tstate := t }) with
          rq := { k.rq with flags := k.rq.flags ||| BitVec.ofInt 32 r } } (toLower c) := by
        simp only [switch, hst, hHeadFlagCase, onWalk, hw, if_neg hneg, if_pos hpos]
      rw [iterate_reset hk hsw] at hs
      exact iterate_skipTurn rfl h10 hs

end

/-! ## The start of a line -/

/-- A line end that is not taken for one: no name begins behind it. -/
theorem stuck_letter {t t' : Triestate} (ht : Stuck t) {i : Option Patricia} {x r : Int} (hx : 97 ≤ x)
    (h : flagWalk i x t = some (r, t')) : r = -1 := by
  obtain ⟨hpos, hzero⟩ := ht
  unfold walkTrie at hzero
  rw [if_pos hpos] at hzero
  simp only [Option.bind_eq_bind, Option.bind_eq_some_iff] at hzero
  obtain ⟨p, hp, y, hy, hzero⟩ := hzero
  have hy0 : y = 0 := by
    by_contra hy0
    rw [if_neg (fun h => hy0 h.1), if_neg hy0, if_neg hy0] at hzero
    cases hzero
  have hterm : p.terminal = 0 := by
    rw [if_pos ⟨hy0, trivial⟩] at hzero
    have hzero := congrArg Prod.fst (Option.some.inj hzero)
    exact Int.ofNat_eq_zero.mp hzero
  have hwalk : flagWalk i x t = enterChild x (utilityTrieMap x) utility p t := by
    have hx' : (if x = 13 ∨ x = 10 then 0 else x) = x := if_neg (by omega)
    unfold flagWalk walkTrie
    rw [hx', if_pos hpos]
    simp only [hp, hy, Option.bind_eq_bind, Option.bind_some, hy0]
    rw [if_neg (fun h => absurd h.2 (by omega)), if_pos trivial]
  rw [hwalk] at h
  obtain hr | ⟨-, -, q, hq, hchar, hcheck⟩ := enterChild_cases h
  · exact hr
  · -- only the second letters of POST and PUT follow such an entry
    have hall : ∀ p ∈ utility, p.terminal = 0 → p.pfx.isSome → ∀ q ∈ utility, q.check = p.next →
        ∀ x ∈ q.charAt 0, x < 97 := by decide +kernel
    have hpfx : p.pfx.isSome := by
      rw [Patricia.charAt, Patricia.letters] at hy
      cases hpf : p.pfx with
      | none => simp [hpf] at hy
      | some w => rfl
    have := hall p (List.mem_of_getElem? hp) hterm hpfx q (List.mem_of_getElem? hq) hcheck x hchar
    omega

/-- The parser at the start of a line: it begins one, or has not seen the line end. -/
theorem lineStart_cases {rq : MinuteHttpRq} {hmask : Uint} {io : Iobuf} {text : Textint} {before : List Int} {k : Frame}
    (hf : feed iterate (startFrame rq (minuteHttpInit hmask io text).1 io (minuteHttpInit hmask io text).2)
      (before ++ [10]) = .next k) (hpast : PastRequestLine (before ++ [10])) :
    k.s.st = hNl ∨ (k.s.st = hHeadFlag ∧ Stuck k.tstate) ∨ k.s.st.rank = 0 := by
  have hr₀ : Routed (startFrame rq (minuteHttpInit hmask io text).1 io (minuteHttpInit hmask io text).2) := rfl
  obtain ⟨hr, hb⟩ := feed_between hr₀ (fun c => ⟨rfl, rfl⟩) hf
  have hat : AtLineStart (before ++ [10]) := .inl ⟨before, rfl⟩
  have hm := hb 10
  have hreq := past_isRequestLine hb hpast
  unfold Mid at hm
  cases hst : k.s.st <;> rw [hst] at hm hreq
  case hNl => exact .inl rfl
  case hHeadFlag => exact .inr (.inl ⟨rfl, hm.2.2 hat (.inl rfl)⟩)
  case hCr =>
    obtain ⟨k₁, h₁, hs⟩ := feed_snoc_next hf
    exact absurd (iterate_cr (feed_routed hr₀ h₁) hs hst) (by decide)
  case hErrorNotImplemented | hErrorBadRequest | hErrorInternalServerError | hNewline | hHeaderUnknown =>
    exact .inr (.inr rfl)
  all_goals first
    | (cases hreq; done)
    | exact absurd (.inl rfl) (hm.2.2 hat)

/-- Where the parser stands in the name of a line; `w` has been read of it. -/
inductive InName (k : Frame) : List Int → Prop
  | start (hst : k.s.st = hNl) : InName k []
  | unseen (hst : k.s.st = hHeadFlag) (ht : Stuck k.tstate) : InName k []
  | reading {w : List Int} (k₀ : Frame) (h : Reading k₀ (w.map toLower) k) : InName k w
  | skipped {w : List Int} (hst : k.s.st = hSkipline) : InName k w

theorem InName.next {k k' : Frame} {w : List Int} {c : Int} {r : Nat} (hr : r ∈ headerCodes) (hk : Routed k)
    (h : InName k w) (hpre : (w ++ [c]).map toLower <+: headerName r) (hs : iterate k c = .next k') :
    InName k' (w ++ [c]) := by
  rw [List.map_append, List.map_singleton] at hpre
  have hletter : 45 ≤ toLower c ∧ toLower c ≠ 58 := by
    have hall : ∀ r ∈ headerCodes, ∀ x ∈ headerName r, 45 ≤ x ∧ x ≠ 58 := by decide +kernel
    exact hall r hr _ (hpre.subset (by simp))
  have hfirst : w = [] → 97 ≤ toLower c := by
    rintro rfl
    have hall : ∀ r ∈ headerCodes, ∀ x ∈ (headerName r).head?, 97 ≤ x := by decide +kernel
    obtain ⟨v, hv⟩ := hpre
    exact hall r hr _ (by rw [← hv]; rfl)
  have hlow (n : Int) (hn : n < 45) : c ≠ n := by
    rintro rfl
    rw [(toLower_eq (c := c) (by omega)).mpr rfl] at hletter
    omega
  have hline : inLine c := ⟨hlow 10 (by decide), hlow 13 (by decide)⟩
  have h58 : c ≠ 58 := by
    rintro rfl
    exact hletter.2 rfl
  have hreading : ∀ k₀ k₁, Routed k₁ → Reading k₀ (w.map toLower) k₁ → iterate k₁ c = .next k' →
      InName k' (w ++ [c]) := by
    intro k₀ k₁ hr₁ hread hs
    obtain ⟨-, ⟨k₂, -, hs₂, hread₂⟩ | ⟨-, hskip⟩⟩ :=
      iterate_letter hr₁ hread hline (not_or.mpr ⟨h58, hlow 0 (by decide)⟩)
    · rw [hs, Step.next.injEq] at hs₂
      rw [hs₂]
      refine .reading k₀ ?_
      rw [List.map_append]
      exact hread₂
    · rw [hs] at hskip
      exact .skipped hskip.2.st
  cases h with
  | start hst =>
    obtain ⟨k₁, hr₁, hread, hit, -⟩ := iterate_atLine hk (.inl hst) hline (hlow 32 (by decide)) (hlow 9 (by decide))
    rw [hit] at hs
    exact hreading k k₁ hr₁ hread hs
  | unseen hst ht =>
    cases hw : flagWalk k.patinitialFlag (toLower c) k.tstate with
    | none =>
      have hsw : switch k c = .halt .fault := by simp only [switch, hst, hHeadFlagCase, onWalk, hw]
      rw [iterate_of_halt hsw] at hs
      cases hs
    | some y =>
      obtain ⟨r, t⟩ := y
      obtain rfl := stuck_letter ht (hfirst rfl) hw
      have hturn := iterate_flagTurn hk hst hline.1 hw hs
      rw [if_neg (by decide), if_neg hline.2] at hturn
      exact .skipped hturn
  | reading k₀ h => exact hreading k₀ k hk h hs
  | skipped hst =>
    have hst' := iterate_skipTurn hst hline.1 hs
    rw [if_neg hline.2] at hst'
    exact .skipped hst'

/-! ## Names -/

theorem EndsHeader.colon {p : List Int} {r : Nat} (h : EndsHeader p r) : ∃ q, p = q ++ [58] := by
  obtain ⟨-, -, hline⟩ := h
  obtain ⟨name, y, hy⟩ : ∃ name y, (p.rtakeWhile fun c => c ≠ 10) = name ++ [y] := by
    obtain hnil | ⟨name, y, h⟩ := List.eq_nil_or_concat' (p.rtakeWhile fun c => c ≠ 10)
    · rw [hnil] at hline
      simp at hline
    · exact ⟨name, y, h⟩
  rw [hy, List.map_append] at hline
  have hcolon : toLower y = 58 := by
    have := List.append_inj_right' hline rfl
    exact List.singleton_inj.mp this
  obtain ⟨t, ht⟩ := List.rtakeWhile_suffix (fun c : Int => decide (c ≠ 10)) p
  refine ⟨t ++ name, ?_⟩
  rw [← ht, hy, (toLower_eq (by decide)).mp hcolon, List.append_assoc]

theorem EndsHeader.split {q : List Int} {r : Nat} (h : EndsHeader (q ++ [58]) r) :
    ∃ before name, q = before ++ [10] ++ name ∧ PastRequestLine (before ++ [10]) ∧
      name.map toLower = headerName r := by
  obtain ⟨hpast, -, hline⟩ := h
  rw [List.rtakeWhile_concat_pos _ _ _ (by decide), List.map_append] at hline
  have hname := List.append_inj_left' hline rfl
  have hdrop : (q ++ [58]).rdropWhile (fun c => c ≠ 10) = q.rdropWhile fun c => c ≠ 10 :=
    List.rdropWhile_concat_pos _ _ _ (by decide)
  rw [hdrop] at hpast
  have hne : (q.rdropWhile fun c => c ≠ 10) ≠ [] := by
    intro hnil
    rw [hnil] at hpast
    cases hpast
  have hlast := List.rdropWhile_last_not (fun c : Int => decide (c ≠ 10)) q hne
  obtain ⟨before, y, hy⟩ := (List.eq_nil_or_concat' (q.rdropWhile fun c => c ≠ 10)).resolve_left hne
  have hy10 : y = 10 := by
    rw [List.getLast_congr hne (by simp) hy, List.getLast_concat] at hlast
    simpa using hlast
  subst hy10
  refine ⟨before, q.rtakeWhile fun c => c ≠ 10, ?_, hy ▸ hpast, hname⟩
  rw [← hy, List.rdropWhile, List.rtakeWhile, ← List.reverse_append, List.takeWhile_append_dropWhile,
    List.reverse_reverse]

theorem Reading.colon {k₀ k : Frame} {r : Nat} (h : Reading k₀ (headerName r) k) (hr : r ∈ headerCodes) :
    recognised k 58 = some r ∧ switch k 58 = hHeaderMatched r k.clearTrie := by
  obtain ⟨-, hno, -⟩ | ⟨-, hb⟩ | ⟨s, hs, hwalk, hname⟩ := headerWalk_end h.placed (c := 58) (.inl rfl)
  · rw [h.spelt] at hno
    exact absurd rfl (hno _ hr)
  · rw [h.spelt] at hb
    exact absurd rfl ((branchings_stem _ hb).2 _ hr)
  · rw [h.spelt] at hname
    obtain rfl := headerName_injOn _ hs _ hr hname
    have hpos := (mem_headerCodes.mp hs).1
    constructor
    · simp only [recognised, h.st, show toLower 58 = 58 from rfl, hwalk]
      rw [if_pos trivial, if_pos (by omega)]
      rfl
    · simp only [switch, h.st, hHeaderCase, onWalk, show toLower 58 = 58 from rfl, hwalk]
      rw [if_neg (by omega), if_pos (by omega)]
      rfl

/-- **The parser at the end of the name of a known header** has read it, or skips the line. -/
theorem feed_headerName {rq : MinuteHttpRq} {hmask : Uint} {io : Iobuf} {text : Textint} {q : List Int} {r : Nat}
    {k : Frame} (hq : EndsHeader (q ++ [58]) r)
    (hf : feed iterate (startFrame rq (minuteHttpInit hmask io text).1 io (minuteHttpInit hmask io text).2) q =
      .next k) : Routed k ∧ (k.s.st = hSkipline ∨ ∃ k₀, Reading k₀ (headerName r) k) := by
  have hr := hq.2.1
  obtain ⟨before, name, rfl, hpast, hname⟩ := hq.split
  have hr₀ : Routed (startFrame rq (minuteHttpInit hmask io text).1 io (minuteHttpInit hmask io text).2) := rfl
  obtain ⟨k₁, h₁, h₂⟩ := feed_prefix_next hf
  have hr₁ := feed_routed hr₀ h₁
  have hne : name ≠ [] := by
    rintro rfl
    exact nil_no_name.1 r hr hname.symm
  have hin : InName k₁ [] := by
    obtain hst | ⟨hst, ht⟩ | hrank := lineStart_cases h₁ hpast
    · exact .start hst
    · exact .unseen hst ht
    · -- an error is returned before the next character
      obtain ⟨n, hsw⟩ : ∃ n, ∀ c, switch k₁ c = ret n k₁ := by
        cases hst : k₁.s.st <;> rw [hst] at hrank <;>
          first | (exact absurd hrank (by decide)) | exact ⟨_, fun c => by simp only [switch, hst]; rfl⟩
      obtain ⟨c, cs, rfl⟩ := List.exists_cons_of_ne_nil hne
      rw [feed_cons_halt cs (iterate_of_halt (hsw c))] at h₂
      cases h₂
  have hend := feed_inv_of (fun w k => Routed k ∧ InName k w) ⟨hr₁, hin⟩ (fun w c q k₃ k₄ hsplit _ h₃ hs => ?_) h₂
  · refine ⟨hend.1, ?_⟩
    cases hend.2 with
    | start hst => exact absurd rfl hne
    | unseen hst ht => exact absurd rfl hne
    | reading k₀ h => exact .inr ⟨k₀, hname ▸ h⟩
    | skipped hst => exact .inl hst
  · refine ⟨iterate_routed h₃.1 hs, h₃.2.next hr h₃.1 ?_ hs⟩
    rw [← hname, hsplit, List.append_cons w c q]
    exact (List.prefix_append (w ++ [c]) q).map toLower

end MinuteHttp
