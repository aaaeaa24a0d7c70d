import MinuteHttp.Libhttp.Flags
import MinuteHttp.Libhttp.LineNames

/-!
# Blanks around a value

The four headers that the parser interprets are read by three means: digits, keywords, and skipping what is
neither. All of them pass over the blanks behind the `':'` in `h_value_lead`. Behind the value it depends on
where the parser stands (`InValue`): a line that is being skipped, or whose value has not begun, takes blanks
as well, but a number is given up for them with 400, and a keyword is not recognised any more. So blanks
behind a value change nothing exactly if the value is no number and no keyword, or the keyword's flag is set
in another line as well (`interpreted_blanks_iff`).
-/

namespace MinuteHttp

open HttpRequestState Feed

/-- SP and HT -/
def isBlank (c : Int) : Bool := decide (c = 32 ∨ c = 9)

/-- The headers that the parser interprets, each with the state that reads its values. -/
def interpretedHeaders : List (HttpRequestHeader × HttpRequestState) :=
  [(.connection, hHeadConnection), (.contentLength, hHeadContentLength), (.expect, hHeadExpect),
   (.transferEncoding, hHeadTransferEncoding)]

/-- The characters end in the `':'` behind the name of a header whose values are read in the state `x`. -/
def EndsName (x : HttpRequestState) (p : List Int) : Prop :=
  ∃ h, (h, x) ∈ interpretedHeaders ∧ EndsHeader p h.code

/-- Where the parser stands when `u` has been read of a value that is read in `x`; the blanks before `u` are
left out. -/
inductive InValue (x : HttpRequestState) (k : Frame) : List Int → Prop
  | lead (hst : k.s.st = hValueLead) (hest : k.s.est = x) (ht : k.tstate.poff = 0) : InValue x k []
  | digits {u : List Int} (hx : x = hHeadContentLength) (hst : k.s.st = hHeadContentLength) (hne : u ≠ [])
      (hd : ∀ c ∈ u, isDigit c = true) : InValue x k u
  | letters {u : List Int} (e : Keyword) (he : e ∈ keywords) (hx : e.st = x) (hst : k.s.st = hHeadFlag)
      (ht : k.tstate = ⟨u.length, e.slot⟩) (hne : u ≠ []) (hpre : u.map toLower <+: e.letters) : InValue x k u
  | skipped {u : List Int} (hst : k.s.st = hSkipline) : InValue x k u
  | cr {u : List Int} (hst : k.s.st = hCr) : InValue x k (u ++ [13])

section

variable {k k' : Frame} {c : Int}

/-! ## Turns in a value -/

theorem iterate_brokenCr (hk : Routed k) (hst : k.s.st = hCr) (hc : c ≠ 10) :
    iterate k c = .halt (.ret 400 (k.shift hErrorBadRequest)) := by
  apply iterate_badRequest hk
  simp only [switch, hst, hCrCase, if_neg hc]

/-! ## Reading a value -/

theorem keyword_prefix_snoc {e : Keyword} {w : List Int} {x : Int} (hpre : w <+: e.letters)
    (hx : e.letters[w.length]? = some x) : w ++ [x] <+: e.letters := by
  obtain ⟨r, hr⟩ := hpre
  rw [← hr, List.getElem?_append_right (Nat.le_refl _), Nat.sub_self] at hx
  obtain _ | ⟨y, r⟩ := r
  · cases hx
  · rw [← hr, ← Option.some.inj hx]
    exact ⟨r, by simp⟩

theorem InValue.first {x : HttpRequestState} (hk : Routed k) (hx : ∃ h, (h, x) ∈ interpretedHeaders)
    (hst : k.s.st = hValueLead) (hest : k.s.est = x) (ht : k.tstate.poff = 0) (hc : c ≠ 10)
    (hblank : isBlank c = false) (hs : iterate k c = .next k') : InValue x k' [c] := by
  have hnot : c ≠ 32 ∧ c ≠ 9 := by simpa [isBlank] using hblank
  have hsw : switch k c = reset x k.mark c := by
    simp only [switch, hst, hValueLeadCase, if_pos hnot, hest]
  have hr := switch_routed k c hk
  rw [hsw] at hr
  rw [iterate_reset hk hsw] at hs
  have hcr : c = 13 → k'.s.st = hCr → InValue x k' [c] := by
    rintro rfl hcr
    exact .cr (u := []) hcr
  by_cases hlength : x = hHeadContentLength
  · subst hlength
    obtain ⟨hd, hst', -⟩ | ⟨h13, hst'⟩ := iterate_digitTurn hr.1 rfl hc hs
    · exact .digits rfl hst' (List.cons_ne_nil _ _) (by simpa using hd)
    · exact hcr h13 hst'
  · -- the state chooses the initial node of its keywords
    obtain ⟨i, hi, hsw'⟩ : ∃ i, x.flagInitial = some i ∧ switch (k.mark.shift x) c =
        reset hHeadFlag { (k.mark.shift x) with patinitialFlag := some i } c := by
      obtain ⟨h, hx⟩ := hx
      simp only [interpretedHeaders, List.mem_cons, Prod.mk.injEq, List.not_mem_nil, or_false] at hx
      rcases hx with ⟨-, rfl⟩ | ⟨-, rfl⟩ | ⟨-, rfl⟩ | ⟨-, rfl⟩
      exacts [⟨_, rfl, rfl⟩, absurd rfl hlength, ⟨_, rfl, rfl⟩, ⟨_, rfl, rfl⟩]
    have hr' := switch_routed _ c hr.1
    rw [hsw'] at hr'
    rw [iterate_reset hr.1 hsw'] at hs
    obtain ⟨e, he, hex, hhead, hw⟩ | ⟨-, hw⟩ := flagWalk_start hi (t := k.tstate) ht (toLower c)
    · have hturn := iterate_flagTurn hr'.1 rfl hc hw hs
      rw [if_pos rfl] at hturn
      refine .letters e he hex hturn.1 hturn.2 (List.cons_ne_nil _ _) ?_
      rw [List.head?_eq_getElem?] at hhead
      exact keyword_prefix_snoc (List.nil_prefix) hhead
    · have hturn := iterate_flagTurn hr'.1 rfl hc hw hs
      rw [if_neg (by decide)] at hturn
      by_cases h13 : c = 13
      · rw [if_pos h13] at hturn
        exact hcr h13 hturn
      · rw [if_neg h13] at hturn
        exact .skipped hturn

/-- **A character of the value.** -/
theorem InValue.next {x : HttpRequestState} {u : List Int} (hk : Routed k) (hx : ∃ h, (h, x) ∈ interpretedHeaders)
    (h : InValue x k u) (hc : c ≠ 10) (hlead : u = [] → isBlank c = false) (hs : iterate k c = .next k') :
    InValue x k' (u ++ [c]) := by
  have hskip : k'.s.st = (if c = 13 then hCr else hSkipline) → InValue x k' (u ++ [c]) := by
    intro hst
    by_cases h13 : c = 13
    · rw [if_pos h13] at hst
      rw [h13]
      exact .cr hst
    · rw [if_neg h13] at hst
      exact .skipped hst
  cases h with
  | lead hst hest ht => exact .first hk hx hst hest ht hc (hlead rfl) hs
  | digits hx hst hne hd =>
    obtain ⟨hdc, hst', -⟩ | ⟨rfl, hst'⟩ := iterate_digitTurn hk hst hc hs
    · refine .digits hx hst' (by simp) fun y hy => ?_
      rcases List.mem_append.mp hy with hy | hy
      · exact hd y hy
      · rw [List.mem_singleton.mp hy]
        exact hdc
    · exact .cr hst'
  | letters e he hx hst ht hne hpre =>
    have hlen : u.length ≤ e.letters.length := by
      have := hpre.length_le
      rwa [List.length_map] at this
    have hw := flagWalk_keyword he (mt List.length_eq_zero_iff.mp hne) hlen k.patinitialFlag (toLower c)
    rw [← ht] at hw
    by_cases hend : endsKeyword (toLower c) ∧ u.length = e.letters.length
    · rw [if_pos hend] at hw
      have hturn := iterate_flagTurn hk hst hc hw hs
      have hflag : (e.flag : Int) ≠ 0 := by
        rcases (keywords_facts.1 e he).2.2 with h | h | h | h <;> rw [h] <;> decide
      rw [if_neg hflag] at hturn
      exact hskip hturn
    · rw [if_neg hend] at hw
      by_cases hletter : e.letters[u.length]? = some (toLower c)
      · rw [if_pos hletter] at hw
        have hturn := iterate_flagTurn hk hst hc hw hs
        rw [if_pos rfl] at hturn
        refine .letters e he hx hturn.1 (by rw [hturn.2, List.length_append]; rfl) (by simp) ?_
        rw [List.map_append]
        exact keyword_prefix_snoc hpre (by rwa [List.length_map])
      · rw [if_neg hletter] at hw
        have hturn := iterate_flagTurn hk hst hc hw hs
        rw [if_neg (by decide)] at hturn
        exact hskip hturn
  | skipped hst => exact hskip (iterate_skipTurn hst hc hs)
  | cr hst =>
    rw [iterate_brokenCr hk hst hc] at hs
    cases hs

theorem InValue.nil {x : HttpRequestState} (h : InValue x k []) :
    (k.s.st = hValueLead ∧ k.s.est = x ∧ k.tstate.poff = 0) ∨ k.s.st = hSkipline := by
  generalize hu : ([] : List Int) = u at h
  cases h with
  | lead hst hest ht => exact .inl ⟨hst, hest, ht⟩
  | digits hx hst hne => exact absurd hu.symm hne
  | letters e he hx hst ht hne => exact absurd hu.symm hne
  | skipped hst => exact .inr hst
  | cr hst => simp at hu

theorem iterate_leadBlank (hst : k.s.st = hValueLead) (hnl : k.s.nl ≤ 1) (hblank : isBlank c = true) :
    iterate k c = .next k.advance := by
  have hb : ¬(c ≠ 32 ∧ c ≠ 9) := by
    have := of_decide_eq_true hblank
    omega
  apply iterate_of_brk _ hnl
  simp only [switch, hst, hValueLeadCase, if_neg hb]

/-- **The value up to somewhere**, read from its beginning. -/
theorem feed_inValue {x : HttpRequestState} {value : List Int} (hk : Routed k) (hnl : k.s.nl ≤ 1)
    (hx : ∃ h, (h, x) ∈ interpretedHeaders) (h : InValue x k []) (h10 : 10 ∉ value)
    (hf : feed iterate k value = .next k') :
    Routed k' ∧ k'.s.nl ≤ 1 ∧ InValue x k' (value.dropWhile isBlank) := by
  refine feed_inv_of (fun p k => Routed k ∧ k.s.nl ≤ 1 ∧ InValue x k (p.dropWhile isBlank)) ⟨hk, hnl, h⟩
    (fun p c q k₁ k₂ hsplit _ h₁ hs => ⟨iterate_routed h₁.1 hs, iterate_nl hs, ?_⟩) hf
  obtain ⟨hr₁, hnl₁, h₁⟩ := h₁
  have hc : c ≠ 10 := by
    rintro rfl
    exact h10 (by simp [hsplit])
  rw [List.dropWhile_append]
  by_cases hnil : p.dropWhile isBlank = []
  · rw [hnil] at h₁ ⊢
    by_cases hblank : isBlank c = true
    · -- still before the value
      have hdrop : [c].dropWhile isBlank = [] := by simp [hblank]
      rw [List.isEmpty_nil, if_pos rfl, hdrop]
      obtain ⟨hst, hest, ht⟩ | hst := h₁.nil
      · rw [iterate_leadBlank hst hnl₁ hblank] at hs
        cases hs
        exact .lead hst hest ht
      · have h13 : c ≠ 13 := by
          have := of_decide_eq_true hblank
          omega
        have hst' := iterate_skipTurn hst hc hs
        rw [if_neg h13] at hst'
        exact .skipped hst'
    · have hdrop : [c].dropWhile isBlank = [c] := by simp [hblank]
      rw [List.isEmpty_nil, if_pos rfl, hdrop]
      exact h₁.next hr₁ hx hc (fun _ => Bool.eq_false_iff.mpr hblank) hs
  · rw [if_neg (by simpa using hnil)]
    exact h₁.next hr₁ hx hc (fun h => absurd h hnil) hs

end

/-- **The parser behind the name of an interpreted header.** -/
theorem feed_endsName {rq : MinuteHttpRq} {hmask : Uint} {io : Iobuf} {text : Textint} {x : HttpRequestState}
    {p : List Int} {k : Frame} (hp : EndsName x p)
    (hf : feed iterate (startFrame rq (minuteHttpInit hmask io text).1 io (minuteHttpInit hmask io text).2) p =
      .next k) : Routed k ∧ k.s.nl ≤ 1 ∧ InValue x k [] := by
  obtain ⟨h, hx, hp⟩ := hp
  obtain ⟨q, rfl⟩ := hp.colon
  obtain ⟨k₁, h₁, hs⟩ := feed_snoc_next hf
  obtain ⟨hk₁, hst | ⟨k₀, hread⟩⟩ := feed_headerName hp h₁
  · exact ⟨iterate_routed hk₁ hs, iterate_nl hs, .skipped (iterate_skipTurn hst (by decide) hs)⟩
  · obtain ⟨-, hsw⟩ := hread.colon hp.2.1
    obtain ⟨k₂, hk₂, hst, hest, ht⟩ : ∃ k₂, hHeaderMatched h.code k₁.clearTrie = brk k₂ ∧ k₂.s.st = hValueLead ∧
        k₂.s.est = x ∧ k₂.tstate = ⟨0, 0⟩ := by
      simp only [interpretedHeaders, List.mem_cons, Prod.mk.injEq, List.not_mem_nil, or_false] at hx
      rcases hx with ⟨rfl, rfl⟩ | ⟨rfl, rfl⟩ | ⟨rfl, rfl⟩ | ⟨rfl, rfl⟩
      all_goals exact ⟨_, rfl, by simp, by simp, by simp⟩
    refine ⟨iterate_routed hk₁ hs, iterate_nl hs, ?_⟩
    rw [eq_advance_of_brk (hsw.trans hk₂) hs]
    exact .lead hst hest (by rw [advance_tstate, ht])

/-! ## Behind the value -/

/-- Blanks change nothing that matters. -/
def TakesBlanks (k : Frame) : Prop := ∀ b, isBlank b = true → ∃ k', iterate k b = .next k' ∧ Alike false k k'

section

variable {k : Frame} {ws q : List Int}

theorem blank_facts {b : Int} (hb : isBlank b = true) : (b = 32 ∨ b = 9) ∧ toLower b = b := by
  have hb := of_decide_eq_true hb
  refine ⟨hb, ?_⟩
  rcases hb with rfl | rfl <;> rfl

theorem takesBlanks_lead (hst : k.s.st = hValueLead) (hnl : k.s.nl ≤ 1) : TakesBlanks k := fun _ hb =>
  ⟨_, iterate_leadBlank hst hnl hb, ⟨rfl, rfl, rfl, rfl, rfl, rfl, rfl, rfl, rfl, fun _ => rfl, fun _ => rfl,
    fun _ _ => rfl, fun _ => rfl⟩⟩

theorem takesBlanks_skipline (hst : k.s.st = hSkipline) (hnl : k.s.nl ≤ 1) : TakesBlanks k := by
  intro b hb
  obtain ⟨hb, -⟩ := blank_facts hb
  have hsw : switch k b = brk k.mark := by
    rcases hb with rfl | rfl <;> simp [switch, hst, hSkiplineCase]
  exact ⟨_, iterate_of_brk hsw hnl, ⟨rfl, rfl, rfl, rfl, rfl, rfl, rfl, rfl, rfl, fun _ => rfl, fun _ => rfl,
    fun _ _ => rfl, fun _ => rfl⟩⟩

/-- **A run of blanks** where blanks change nothing. -/
theorem runLeft_blanks (hk : Routed k) (h : TakesBlanks k) (hws : ∀ b ∈ ws, isBlank b = true) :
    runLeft (feed iterate k (ws ++ q)) = runLeft (feed iterate k q) := by
  induction ws with
  | nil => rfl
  | cons b ws ih =>
    obtain ⟨k', hs, hal⟩ := h b (hws b List.mem_cons_self)
    rw [List.cons_append, feed_cons_next _ hs, feed_alike_left hk hal]
    exact ih fun b hb => hws b (List.mem_cons_of_mem _ hb)

theorem runLeft_append_halt {as : List Int} {r : Halt × List Int} (h : feed iterate k as = .halt r) (bs cs : List Int) :
    runLeft (feed iterate k (as ++ bs)) = runLeft (feed iterate k (as ++ cs)) := by
  obtain ⟨r, rest⟩ := r
  rw [feed_append_halt bs h, feed_append_halt cs h]
  cases r <;> rfl

theorem runLeft_cons_ret {n : Nat} {k₁ : Frame} {c : Int} (h : iterate k c = .halt (.ret n k₁)) (cs : List Int) :
    runLeft (feed iterate k (c :: cs)) = some (n, k₁.rq, k₁.text) := by
  rw [feed_cons_halt cs h]
  rfl

/-- Blanks in a keyword, or behind it: the line is skipped. -/
theorem runLeft_keywordBlanks {e : Keyword} (he : e ∈ keywords) {n : Nat} (hpos : n ≠ 0) (hle : n ≤ e.letters.length)
    (hk : Routed k) (hnl : k.s.nl ≤ 1) (hst : k.s.st = hHeadFlag) (ht : k.tstate = ⟨n, e.slot⟩) (hne : ws ≠ [])
    (hws : ∀ b ∈ ws, isBlank b = true) :
    runLeft (feed iterate k (ws ++ q)) = runLeft (feed iterate (k.shift hSkipline) q) := by
  obtain ⟨b, ws, rfl⟩ := List.exists_cons_of_ne_nil hne
  obtain ⟨hb, hlow⟩ := blank_facts (hws b List.mem_cons_self)
  have hw := flagWalk_keyword he hpos hle k.patinitialFlag b
  have hend : ¬endsKeyword b := by
    unfold endsKeyword
    omega
  have hletter : ¬e.letters[n]? = some b := by
    intro h
    have := ((keywords_facts.1 e he).2.1 b (List.mem_of_getElem? h)).2
    omega
  rw [if_neg (fun h => hend h.1), if_neg hletter, ← ht] at hw
  have hsw : switch k b = reset hSkipline k b := by
    simp only [switch, hst, hHeadFlagCase, onWalk, hlow, hw, if_pos (show (-1 : Int) < 0 by decide)]
  have hr := switch_routed k b hk
  rw [hsw] at hr
  rw [List.cons_append, feed_cons, iterate_reset hk hsw, ← feed_cons, ← List.cons_append]
  exact runLeft_blanks hr.1 (takesBlanks_skipline rfl hnl) hws

/-- The line end behind a keyword sets its flag; behind a part of one it sets none. -/
theorem runLeft_keywordEnd {e : Keyword} (he : e ∈ keywords) {n : Nat} (hpos : n ≠ 0) (hle : n ≤ e.letters.length)
    (hk : Routed k) (hst : k.s.st = hHeadFlag) (ht : k.tstate = ⟨n, e.slot⟩) {eol : List Int} (heol : eol ∈ lineEnds) :
    runLeft (feed iterate k (eol ++ q)) =
      if n = e.letters.length then
        (runLeft (feed iterate (k.shift hSkipline) (eol ++ q))).map fun x =>
          (x.1, x.2.1.withFlag (BitVec.ofNat 32 e.flag), x.2.2)
      else runLeft (feed iterate (k.shift hSkipline) (eol ++ q)) := by
  obtain ⟨c, cs, hcs, hc⟩ : ∃ c cs, eol ++ q = c :: cs ∧ (c = 13 ∨ c = 10) := by
    simp only [lineEnds, List.mem_cons, List.not_mem_nil, or_false] at heol
    rcases heol with rfl | rfl
    exacts [⟨10, _, rfl, .inr rfl⟩, ⟨13, _, rfl, .inl rfl⟩]
  have hlow : toLower c = c := by rcases hc with rfl | rfl <;> rfl
  have hend : endsKeyword c := hc.imp id .inl
  have hw := flagWalk_keyword he hpos hle k.patinitialFlag c
  rw [hcs]
  by_cases hfull : n = e.letters.length
  · rw [if_pos ⟨hend, hfull⟩, ← ht] at hw
    have hflag : (e.flag : Int) > 0 := by
      rcases (keywords_facts.1 e he).2.2 with h | h | h | h <;> rw [h] <;> decide
    have hsw : switch k c = reset hSkipline { k.mark with
        rq := { k.rq with flags := k.rq.flags ||| BitVec.ofInt 32 (e.flag : Int) } } c := by
      simp only [switch, hst, hHeadFlagCase, onWalk, hlow, hw, if_neg (show ¬(e.flag : Int) < 0 by omega), if_pos hflag]
    have hr := switch_routed k c hk
    rw [hsw] at hr
    rw [if_pos hfull, ← runLeft_withFlag, feed_cons, iterate_reset hk hsw, ← feed_cons]
    refine (feed_alike_left hr.1 ?_).symm
    exact ⟨rfl, rfl, rfl, rfl, rfl, rfl, rfl, rfl, rfl, fun _ => rfl, fun _ => rfl, fun _ _ => rfl, fun _ => rfl⟩
  · have hletter : ¬e.letters[n]? = some c := by
      intro h
      exact ((keywords_facts.1 e he).2.1 c (List.mem_of_getElem? h)).1 hend
    rw [if_neg (fun h => hfull h.2), if_neg hletter, ← ht] at hw
    have hsw : switch k c = reset hSkipline k c := by
      simp only [switch, hst, hHeadFlagCase, onWalk, hlow, hw, if_pos (show (-1 : Int) < 0 by decide)]
    rw [if_neg hfull, feed_cons, iterate_reset hk hsw, ← feed_cons]

end

/-- Blanks behind the value `u` do no harm: it is no number, and no keyword whose flag is set only here. `k` is
the frame behind the value, `q` what follows. -/
structure BlankSafe (x : HttpRequestState) (k : Frame) (u q : List Int) : Prop where
  number : x = hHeadContentLength → u = [] ∨ ∃ c ∈ u, isDigit c = false
  keyword : ∀ e ∈ keywords, e.st = x → u.map toLower = e.letters →
    hasFlag k.rq.flags e.flag = true ∨ SetsFlag e.flag (k.shift hSkipline) q

theorem keyword_length_pos {e : Keyword} (he : e ∈ keywords) {u : List Int} (h : u.map toLower = e.letters) : u ≠ [] := by
  rintro rfl
  exact (keywords_facts.1 e he).1 h.symm

/-- **Blanks behind a value**, before a line end. -/
theorem trailing_blanks_iff {x : HttpRequestState} {k : Frame} {u ws eol rest : List Int} (hk : Routed k)
    (hnl : k.s.nl ≤ 1) (hin : InValue x k u) (hne : ws ≠ []) (hws : ∀ b ∈ ws, isBlank b = true) (heol : eol ∈ lineEnds)
    (hcr : 13 ∈ u.getLast? → eol = [13, 10]) {n : Nat} {rq : MinuteHttpRq} {text : Textint}
    (hl : runLeft (feed iterate k (eol ++ rest)) = some (n, rq, text)) :
    (k.s.st = hSkipline ∨ BlankSafe x k u (eol ++ rest) →
      runLeft (feed iterate k (ws ++ (eol ++ rest))) = some (n, rq, text)) ∧
    (n ≠ 400 → (∃ t, runLeft (feed iterate k (ws ++ (eol ++ rest))) = some (n, rq, t)) →
      k.s.st = hSkipline ∨ BlankSafe x k u (eol ++ rest)) := by
  obtain ⟨b, ws', hws'⟩ := List.exists_cons_of_ne_nil hne
  have hb : isBlank b = true := hws b (by simp [hws'])
  cases hin with
  | lead hst hest ht =>
    have hsame := runLeft_blanks (q := eol ++ rest) hk (takesBlanks_lead hst hnl) hws
    refine ⟨fun _ => hsame.trans hl, fun _ _ => .inr ⟨fun _ => .inl rfl, fun e he _ h => ?_⟩⟩
    exact absurd rfl (keyword_length_pos he h)
  | skipped hst =>
    have hsame := runLeft_blanks (q := eol ++ rest) hk (takesBlanks_skipline hst hnl) hws
    exact ⟨fun _ => hsame.trans hl, fun _ _ => .inl hst⟩
  | digits hx hst hnil hd =>
    -- the number is given up
    have hgiven : iterate k b = .halt (.ret 400 (k.shift hErrorBadRequest)) := by
      obtain ⟨hb, -⟩ := blank_facts hb
      apply iterate_badRequest hk
      simp only [switch, hst, hHeadContentLengthCase]
      rw [if_neg (by omega), if_neg (by omega), if_neg (by omega)]
    have hleft := runLeft_cons_ret hgiven (ws' ++ (eol ++ rest))
    rw [hws', List.cons_append, hleft]
    refine ⟨?_, fun hn h => ?_⟩
    · rintro (h | h)
      · rw [hst] at h
        cases h
      · obtain h | ⟨c, hc, hdc⟩ := h.number hx
        · exact absurd h hnil
        · rw [hd c hc] at hdc
          cases hdc
    · obtain ⟨t, h⟩ := h
      exact absurd (congrArg Prod.fst (Option.some.inj h)).symm hn
  | letters e he hx hst ht hnil hpre =>
    have hpos : u.length ≠ 0 := mt List.length_eq_zero_iff.mp hnil
    have hle : u.length ≤ e.letters.length := by
      have := hpre.length_le
      rwa [List.length_map] at this
    have hfull : u.length = e.letters.length ↔ u.map toLower = e.letters := by
      constructor
      · intro h
        exact hpre.eq_of_length (by rw [List.length_map, h])
      · intro h
        rw [← h, List.length_map]
    have hblanks := runLeft_keywordBlanks (q := eol ++ rest) he hpos hle hk hnl hst ht hne hws
    have hend := runLeft_keywordEnd (q := rest) he hpos hle hk hst ht heol
    rw [hl] at hend
    rw [hblanks]
    have hsafe : BlankSafe x k u (eol ++ rest) ↔ (u.map toLower = e.letters →
        hasFlag k.rq.flags e.flag = true ∨ SetsFlag e.flag (k.shift hSkipline) (eol ++ rest)) := by
      refine ⟨fun h => h.keyword e he hx, fun h => ⟨fun hlength => ?_, fun e' he' hx' h' => ?_⟩⟩
      · have hall : ∀ e ∈ keywords, e.st ≠ hHeadContentLength := by decide +kernel
        exact absurd (hx.trans hlength) (hall e he)
      · -- the header's keywords begin with different letters
        have hhead : e.letters.head? = e'.letters.head? := by
          obtain ⟨c, cs, rfl⟩ := List.exists_cons_of_ne_nil hnil
          obtain ⟨v, hv⟩ := hpre
          rw [← h', ← hv]
          rfl
        obtain ⟨hl, -, hf⟩ := keywords_facts.2 e he e' he' (hx.trans hx'.symm) hhead
        rw [← hf]
        exact h (h'.trans hl.symm)
    have hskip : ¬k.s.st = hSkipline := by
      rw [hst]
      decide
    rw [or_iff_right hskip, hsafe]
    by_cases hword : u.map toLower = e.letters
    · rw [if_pos (hfull.mpr hword)] at hend
      cases hL : runLeft (feed iterate (k.shift hSkipline) (eol ++ rest)) with
      | none =>
        rw [hL] at hend
        cases hend
      | some y =>
        obtain ⟨n', rq', text'⟩ := y
        rw [hL, Option.map_some, Option.some.injEq, Prod.mk.injEq, Prod.mk.injEq] at hend
        obtain ⟨rfl, rfl, rfl⟩ := hend
        have hr : Routed (k.shift hSkipline) := by
          rw [Routed, hst] at hk
          exact hk
        have hflag := runLeft_hasFlag (keywords_facts.1 e he).2.2 hr hL
        have hself := withFlag_eq_self_iff (keywords_facts.1 e he).2.2 rq'
        have hcond : rq'.withFlag (BitVec.ofNat 32 e.flag) = rq' ↔
            hasFlag k.rq.flags e.flag = true ∨ SetsFlag e.flag (k.shift hSkipline) (eol ++ rest) := hself.trans hflag
        rw [← hcond]
        refine ⟨fun h => ?_, fun _ h _ => ?_⟩
        · rw [h hword]
        · obtain ⟨t, h⟩ := h
          rw [Option.some.injEq, Prod.mk.injEq, Prod.mk.injEq] at h
          exact h.2.1.symm
    · rw [if_neg (mt hfull.mp hword)] at hend
      exact ⟨fun _ => hend.symm, fun _ _ h => absurd h hword⟩
  | @cr a hst =>
    obtain rfl := hcr (by simp)
    have h13 := runLeft_cons_ret (iterate_brokenCr hk hst (by decide : (13 : Int) ≠ 10)) (10 :: rest)
    have hblank := runLeft_cons_ret (c := b) (iterate_brokenCr hk hst (by have := (blank_facts hb).1; omega))
      (ws' ++ ([13, 10] ++ rest))
    have hl : runLeft (feed iterate k (13 :: 10 :: rest)) = some (n, rq, text) := hl
    rw [hws']
    refine ⟨fun _ => hblank.trans (h13.symm.trans hl), fun _ _ => .inr ⟨fun _ => .inr ⟨13, by simp, by decide⟩,
      fun e he _ h => ?_⟩⟩
    have hmem : (13 : Int) ∈ e.letters := by
      rw [← h, List.map_append]
      exact List.mem_append_right _ (List.mem_singleton.mpr rfl)
    exact absurd (.inl rfl) ((keywords_facts.1 e he).2.1 13 hmem).1

/-- Where the run on a head has come to behind the value, a blank does no harm. -/
def BlanksSafe (x : HttpRequestState) (k₀ : Frame) (p value q : List Int) : Prop :=
  (feed iterate k₀ (p ++ value)).Holds
    (fun k => k.s.st = hSkipline ∨ BlankSafe x k (value.dropWhile isBlank) q) fun _ => True

/-- **Blanks around the value of an interpreted header.** Two sessions, in the second of which blanks are put in
behind the `':'` of a line and before its line end; the first returns. Blanks behind the `':'` change nothing; those
before the line end change nothing if they do no harm there, and, unless the first session returns 400, only then. -/
theorem interpreted_blanks_iff {rq rq₁ : MinuteHttpRq} {hmask : Uint} {rqs₁ : MinuteHttpRqs} {io io' io₁ : Iobuf}
    {text text₁ : Textint} {fs fs' : List Refill} {e : Bool} {n : Nat} {x : HttpRequestState}
    {p lead value trail eol rest : List Int} (he : eofAtLast e io fs) (he' : eofAtLast e io' fs') (hp : EndsName x p)
    (hlead : ∀ b ∈ lead, isBlank b = true) (htrail : ∀ b ∈ trail, isBlank b = true) (h10 : 10 ∉ value)
    (heol : eol ∈ lineEnds) (hcr : 13 ∈ value.getLast? → eol = [13, 10])
    (hshown : sessionChars io io.read fs e = p ++ (value ++ (eol ++ rest)))
    (hshown' : sessionChars io' io'.read fs' e = p ++ (lead ++ (value ++ (trail ++ (eol ++ rest)))))
    (h : readSession rq (minuteHttpInit hmask io text).1 io (minuteHttpInit hmask io text).2 fs =
      .code n rq₁ rqs₁ io₁ text₁) :
    (trail = [] ∨ BlanksSafe x (startFrame rq (minuteHttpInit hmask io text).1 io (minuteHttpInit hmask io text).2) p
        value (eol ++ rest) →
      (readSession rq (minuteHttpInit hmask io' text).1 io' (minuteHttpInit hmask io' text).2 fs').left =
        some (n, rq₁, text₁)) ∧
    (n ≠ 400 →
      (∃ t, (readSession rq (minuteHttpInit hmask io' text).1 io' (minuteHttpInit hmask io' text).2 fs').left =
        some (n, rq₁, t)) →
      trail = [] ∨ BlanksSafe x (startFrame rq (minuteHttpInit hmask io text).1 io (minuteHttpInit hmask io text).2) p
        value (eol ++ rest)) := by
  have hr₀ : Routed (startFrame rq (minuteHttpInit hmask io text).1 io (minuteHttpInit hmask io text).2) := rfl
  have hleft := left_of_code h
  rw [initSession_left rq hmask text he, hshown] at hleft
  rw [initSession_left rq hmask text he', hshown', feed_alike_left hr₀ (alike_start rq hmask io io' text)]
  have hx : ∃ h, (h, x) ∈ interpretedHeaders := by
    obtain ⟨h, hx, -⟩ := hp
    exact ⟨h, hx⟩
  unfold BlanksSafe
  cases hfp : feed iterate (startFrame rq (minuteHttpInit hmask io text).1 io (minuteHttpInit hmask io text).2) p with
  | halt r =>
    -- the run has returned before the value
    obtain ⟨r, left⟩ := r
    rw [runLeft_append_halt hfp _ (lead ++ (value ++ (trail ++ (eol ++ rest))))] at hleft
    rw [feed_append_halt value hfp]
    exact ⟨fun _ => hleft, fun _ _ => .inr trivial⟩
  | next k =>
    obtain ⟨hk, hnl, hin⟩ := feed_endsName hp hfp
    rw [feed_append_next _ hfp] at hleft
    rw [feed_append_next _ hfp, feed_append_next _ hfp]
    have hsame : runLeft (feed iterate k (lead ++ (value ++ (trail ++ (eol ++ rest))))) =
        runLeft (feed iterate k (value ++ (trail ++ (eol ++ rest)))) := by
      refine runLeft_blanks hk ?_ hlead
      obtain ⟨hst, -, -⟩ | hst := hin.nil
      · exact takesBlanks_lead hst hnl
      · exact takesBlanks_skipline hst hnl
    rw [hsame]
    cases hfv : feed iterate k value with
    | halt r =>
      obtain ⟨r, left⟩ := r
      rw [runLeft_append_halt hfv _ (trail ++ (eol ++ rest))] at hleft
      exact ⟨fun _ => hleft, fun _ _ => .inr trivial⟩
    | next k₁ =>
      obtain ⟨hk₁, hnl₁, hin₁⟩ := feed_inValue hk hnl hx hin h10 hfv
      rw [feed_append_next _ hfv] at hleft
      rw [feed_append_next _ hfv]
      by_cases hnil : trail = []
      · subst hnil
        exact ⟨fun _ => hleft, fun _ _ => .inl rfl⟩
      · have hlast : 13 ∈ (value.dropWhile isBlank).getLast? → eol = [13, 10] := by
          intro h13
          obtain ⟨t, ht⟩ := List.dropWhile_suffix (l := value) isBlank
          apply hcr
          rw [← ht, List.getLast?_append, h13]
          rfl
        rw [or_iff_right hnil]
        exact trailing_blanks_iff hk₁ hnl₁ hin₁ hnil htrail heol hlast hleft

instance BlankSafe.decidable (x : HttpRequestState) (k : Frame) (u q : List Int) : Decidable (BlankSafe x k u q) :=
  decidable_of_iff
    ((x = hHeadContentLength → u = [] ∨ ∃ c ∈ u, isDigit c = false) ∧
      ∀ e ∈ keywords, e.st = x → u.map toLower = e.letters →
        hasFlag k.rq.flags e.flag = true ∨ SetsFlag e.flag (k.shift hSkipline) q)
    ⟨fun h => ⟨h.1, h.2⟩, fun h => ⟨h.number, h.keyword⟩⟩

instance BlanksSafe.decidable (x : HttpRequestState) (k₀ : Frame) (p value q : List Int) :
    Decidable (BlanksSafe x k₀ p value q) :=
  inferInstanceAs (Decidable (Step.Holds _ _ _))

/-- Blanks on both sides of the first of two `close`. -/
theorem interpreted_blanks_twice :
    let io := Iobuf.holding 4096 (bytes "GET / HTTP/1.1\nConnection:close\nCONNECTION: Close\n\n")
    let io' := Iobuf.holding 4096 (bytes "GET / HTTP/1.1\nConnection: close \t\nCONNECTION: Close\n\n")
    let text := minuteTextintInit 64 fun _ => 0
    let init := minuteHttpInit minuteAllHeaders io text
    let init' := minuteHttpInit minuteAllHeaders io' text
    ∃ rq₁ text₁, (minuteHttpRead .zero init.1 io init.2).left = some (0, rq₁, text₁) ∧
      (minuteHttpRead .zero init'.1 io' init'.2).left = some (0, rq₁, text₁) := by
  intro io io' text init init'
  have he : eofAtLast false io [] := by
    show Iobuf.eof _ = false
    decide +kernel
  have he' : eofAtLast false io' [] := by
    show Iobuf.eof _ = false
    decide +kernel
  have hp : EndsName hHeadConnection (chars (bytes "GET / HTTP/1.1\nConnection:")) :=
    ⟨.connection, by decide, by decide +kernel⟩
  obtain ⟨rq₁, rqs₁, io₁, text₁, h, -⟩ := (ReadResult.succeeds_iff (P := fun _ _ _ _ => True)
    (r := minuteHttpRead .zero init.1 io init.2)).mp (by decide +kernel)
  have hshown : sessionChars io io.read [] false = chars (bytes "GET / HTTP/1.1\nConnection:") ++
      (chars (bytes "close") ++ ([10] ++ chars (bytes "CONNECTION: Close\n\n"))) := by
    decide +kernel
  have hshown' : sessionChars io' io'.read [] false = chars (bytes "GET / HTTP/1.1\nConnection:") ++
      ([32] ++ (chars (bytes "close") ++ ([32, 9] ++ ([10] ++ chars (bytes "CONNECTION: Close\n\n"))))) := by
    decide +kernel
  have hiff := interpreted_blanks_iff he he' hp (by decide) (by decide) (by decide +kernel) (by decide) (by decide +kernel)
    hshown hshown' h
  exact ⟨rq₁, text₁, left_of_code h, hiff.1 (.inr (by decide +kernel))⟩

/-- Behind a blank a single `close` is missed. -/
theorem interpreted_blanks_missed :
    let io := Iobuf.holding 4096 (bytes "GET / HTTP/1.1\nConnection: close\n\n")
    let io' := Iobuf.holding 4096 (bytes "GET / HTTP/1.1\nConnection: close \n\n")
    let text := minuteTextintInit 64 fun _ => 0
    let init := minuteHttpInit minuteAllHeaders io text
    let init' := minuteHttpInit minuteAllHeaders io' text
    EndsName hHeadConnection (chars (bytes "GET / HTTP/1.1\nConnection:")) ∧
      ∃ rq₁ text₁, (minuteHttpRead .zero init.1 io init.2).left = some (0, rq₁, text₁) ∧
        ∀ t, (minuteHttpRead .zero init'.1 io' init'.2).left ≠ some (0, rq₁, t) := by
  intro io io' text init init'
  have hp : EndsName hHeadConnection (chars (bytes "GET / HTTP/1.1\nConnection:")) :=
    ⟨.connection, by decide, by decide +kernel⟩
  obtain ⟨rq₁, rqs₁, io₁, text₁, h, hc⟩ := (ReadResult.succeeds_iff
    (P := fun rq _ _ _ => hasFlag rq.flags httpConnectionClose = true)
    (r := minuteHttpRead .zero init.1 io init.2)).mp (by decide +kernel)
  obtain ⟨rq₂, rqs₂, io₂, text₂, h', hc'⟩ := (ReadResult.succeeds_iff
    (P := fun rq _ _ _ => hasFlag rq.flags httpConnectionClose = false)
    (r := minuteHttpRead .zero init'.1 io' init'.2)).mp (by decide +kernel)
  refine ⟨hp, rq₁, text₁, left_of_code h, fun t hsame => ?_⟩
  rw [left_of_code h', Option.some.injEq, Prod.mk.injEq, Prod.mk.injEq] at hsame
  rw [hsame.2.1, hc] at hc'
  cases hc'

end MinuteHttp
