import MinuteHttp.Libhttp.Selected
import MinuteHttp.Libhttp.WhiteSpace
import MinuteHttp.Libhttp.Decode

/-!
# Folded values

Behind a word the parser puts one space for the blanks that follow, and at a line end a NUL, which becomes a space
when the next line goes on with the value (`h_cont`). So a value is stored in single spaces (`Folding`) as long as
every line break has a word before it: otherwise the NUL that becomes a space stands at the beginning, or behind
another space (`Spaced`). What is stored stays, but for its NUL: a line that begins with a blank takes the last NUL
away even where it does not belong to the value any more (`NulKept`). `value_folded_iff` is about one value, and
`values_folded_iff` about all that a head collects.
-/

namespace MinuteHttp

open HttpRequestState Feed

/-! ## What a turn writes -/

/-- The value of a `char`. -/
def InRange (c : Int) : Prop := -128 ≤ c ∧ c < 128

theorem inRange_toLower {c : Int} (h : InRange c) : InRange (toLower c) := by
  unfold toLower InRange at *
  split_ifs <;> omega

theorem ofInt_inj {c d : Int} (hc : InRange c) (hd : InRange d) (h : BitVec.ofInt 8 c = BitVec.ofInt 8 d) : c = d := by
  have h := congrArg BitVec.toInt h
  rw [BitVec.toInt_ofInt, BitVec.toInt_ofInt] at h
  unfold InRange at hc hd
  rw [Int.bmod_eq_of_le (by omega) (by omega), Int.bmod_eq_of_le (by omega) (by omega)] at h
  exact h

/-- The line that begins takes the last NUL away. -/
def TakesNul (k : Frame) : Prop := k.s.st = hCont ∧ k.s.collect = true

instance TakesNul.decidable (k : Frame) : Decidable (TakesNul k) := inferInstanceAs (Decidable (_ ∧ _))

/-- The characters after that. -/
def foldedChars (k : Frame) : List Byte := if TakesNul k then k.text.chars.dropLast ++ [32] else k.text.chars

section

variable {k k' : Frame} {c : Int}

theorem foldedChars_of_st (h : k.s.st ≠ hCont) : foldedChars k = k.text.chars := if_neg fun ht => h ht.1

/-- **A pass** behind the request line puts a character that is not 0xFF, or none. -/
theorem switch_chars (k : Frame) (c : Int) (hk : Routed k) (hinv : StoreInv k.text) (hlate : k.s.st.isRequestLine = false)
    (hc : InRange c) :
    Pass.All
      (fun k' c' => k'.s.st.isRequestLine = false ∧ StoreInv k'.text ∧ InRange c' ∧ k'.s.st ≠ hCont ∧
        k'.text.chars = foldedChars k)
      (fun k' => k'.s.st.isRequestLine = false ∧ StoreInv k'.text ∧ ¬TakesNul k ∧
        (k'.text.chars = k.text.chars ∨ ∃ b, b ≠ 255 ∧ k'.text.chars = k.text.chars ++ [b]))
      (fun _ _ => True) True (switch k c) := by
  have hlow := inRange_toLower hc
  by_cases hcont : k.s.st = hCont
  · simp only [switch, hcont, hContCase, all_ite, all_reset]
    refine ⟨fun hcol => ⟨rfl, hinv.replacec 32, hc, by simp, ?_⟩, fun hcol => ⟨rfl, hinv, hc, by simp, ?_⟩⟩
    · rw [foldedChars, if_pos ⟨hcont, hcol⟩]
      exact (replacec_spec 32 hinv.ok).2.1
    · rw [foldedChars, if_neg fun h => hcol h.2]
      rfl
  · have hfolded := foldedChars_of_st hcont
    have hnot : ¬TakesNul k := fun h => hcont h.1
    rw [hfolded]
    cases hst : k.s.st <;> simp only [switch, hst]
    case hCont => exact absurd hst hcont
    case hNl | hCr | hHeadConnection | hHeadExpect | hHeadTransferEncoding | hHeadContentLength | hHeadFlag |
        hSkipline =>
      dsimp only [hNlCase, hCrCase, hHeadConnectionCase, hHeadExpectCase, hHeadTransferEncodingCase, hHeadFlagInitial,
        hHeadContentLengthCase, hHeadFlagCase, hSkiplineCase]
      simp [isRequestLine, hinv, hc, hlow, hnot, hst]
    case hHeader =>
      have hpair : ∀ r t t', minuteTextintPuti r k.text = some t → minuteTextintPuti t.text t = some t' →
          StoreInv t' ∧ t'.chars = k.text.chars := fun r t t' h₁ h₂ => hinv.pair h₁ h₂
      dsimp only [hHeaderCase, hHeaderMatched]
      simp [isRequestLine, hinv, hlow, hnot, hst]
      grind
    case hValueLead =>
      have hval : k.s.est.isValue = true := by simpa [Routed, hst, routed] using hk
      have hest : k.s.est ≠ hCont ∧ k.s.est.isRequestLine = false := by
        cases he : k.s.est <;> simp_all [isValue, isRequestLine]
      have hlead : hValueLead.isRequestLine = false := rfl
      simp [hValueLeadCase, hlead, hinv, hc, hnot, hst, hest]
    case hValue =>
      have hbyte : c ≠ -1 → BitVec.ofInt 8 c ≠ 255 := by
        intro hne h
        exact hne (ofInt_inj hc (d := -1) (by unfold InRange; omega) h)
      have hput : ∀ (b : Byte) (t : Textint), b ≠ 255 → minuteTextintPutc b k.text = some t → StoreInv t ∧ ¬TakesNul k ∧
          (t.chars = k.text.chars ∨ ∃ b, b ≠ 255 ∧ t.chars = k.text.chars ++ [b]) := by
        intro b t hb ht
        exact ⟨hinv.putc ht, hnot, .inr ⟨b, hb, (putc_spec hinv.ok ht).2.1⟩⟩
      simp only [hValueCase, all_ite, all_putcOr, all_brk]
      refine ⟨fun _ => ⟨fun _ => trivial, fun t ht => ⟨rfl, hput 0 t (by decide) ht⟩⟩, fun _ =>
        ⟨fun _ => ⟨fun _ => trivial, fun t ht => ⟨rfl, hput 0 t (by decide) ht⟩⟩, fun _ =>
        ⟨fun _ => ⟨fun _ => trivial, fun t ht => ⟨hlate, hput 0 t (by decide) ht⟩⟩, fun heof =>
        ⟨fun _ => ⟨fun _ => trivial, fun t ht => ⟨rfl, hput 32 t (by decide) ht⟩⟩, fun _ =>
        ⟨fun _ => trivial, fun t ht => ⟨hlate, hput _ t (hbyte heof) ht⟩⟩⟩⟩⟩⟩
    case hErrorNotImplemented | hErrorBadRequest | hErrorInternalServerError | hNewline | hHeaderUnknown =>
      exact trivial
    all_goals simp [hst, isRequestLine] at hlate

/-- **A turn** behind the request line puts a character that is not 0xFF, or none. -/
theorem iterate_chars (hk : Routed k) (hinv : StoreInv k.text) (hlate : k.s.st.isRequestLine = false) (hc : InRange c)
    (h : iterate k c = .next k' ∨ iterate k c = .halt (.ok k')) :
    k'.s.st.isRequestLine = false ∧ StoreInv k'.text ∧
      (k'.text.chars = foldedChars k ∨ ∃ b, b ≠ 255 ∧ k'.text.chars = foldedChars k ++ [b]) := by
  have hi := iterate_inv (k := k) (c := c)
    (N := fun k' c' => Routed k' ∧ k'.s.st.isRequestLine = false ∧ StoreInv k'.text ∧ InRange c' ∧
      foldedChars k' = foldedChars k)
    (B := fun k' => k'.s.st.isRequestLine = false ∧ StoreInv k'.text ∧
      (k'.text.chars = foldedChars k ∨ ∃ b, b ≠ 255 ∧ k'.text.chars = foldedChars k ++ [b]))
    (R := fun _ _ => True) (F := True) (fun k₁ c₁ h₁ => ?_) ⟨hk, hlate, hinv, hc, rfl⟩
  · obtain h | h := h
    · rw [h] at hi
      obtain ⟨k₁, h₁, -, rfl⟩ := hi
      exact h₁
    · rw [h] at hi
      obtain ⟨k₁, h₁, -, rfl⟩ := hi
      exact h₁
  · obtain ⟨hr, hlate₁, hinv₁, hc₁, hsame⟩ := h₁
    have hpass := (switch_routed k₁ c₁ hr).and (switch_chars k₁ c₁ hr hinv₁ hlate₁ hc₁)
    refine hpass.imp (fun k₂ c₂ h₂ => ?_) (fun k₂ h₂ => ?_) (fun _ _ _ => trivial) fun _ => trivial
    · obtain ⟨⟨hr₂, -⟩, hlate₂, hinv₂, hc₂, hst₂, hchars⟩ := h₂
      refine ⟨hr₂, hlate₂, hinv₂, hc₂, ?_⟩
      rw [foldedChars_of_st hst₂, hchars, hsame]
    · obtain ⟨-, hlate₂, hinv₂, hnot, hchars⟩ := h₂
      have hfolded : foldedChars k₁ = k₁.text.chars := if_neg hnot
      rw [← hsame, hfolded]
      exact ⟨hlate₂, hinv₂, hchars⟩

theorem iterate_open (hopen : Open k) (hinv : StoreInv k.text)
    (h : iterate k c = .next k' ∨ iterate k c = .halt (.ok k')) :
    Open k' ∧ k'.text.chars = k.text.chars ∨ ∃ b, k'.text.chars = k.text.chars ++ [b] := by
  have hput : ∀ (k₁ : Frame) (b : Byte) (t : Textint), k₁.text = k.text → minuteTextintPutc b k₁.text = some t →
      ∃ b, t.chars = k.text.chars ++ [b] := by
    intro k₁ b t hsame ht
    rw [hsame] at ht
    exact ⟨b, (putc_spec hinv.ok ht).2.1⟩
  have hi := iterate_inv (k := k) (c := c) (N := fun k' _ => Open k' ∧ k'.text = k.text)
    (B := fun k' => Open k' ∧ k'.text.chars = k.text.chars ∨ ∃ b, k'.text.chars = k.text.chars ++ [b])
    (R := fun _ _ => True) (F := True) (fun k₁ c₁ h₁ => ?_) ⟨hopen, rfl⟩
  · obtain h | h := h
    · rw [h] at hi
      obtain ⟨k₁, h₁, -, rfl⟩ := hi
      exact h₁
    · rw [h] at hi
      obtain ⟨k₁, h₁, -, rfl⟩ := hi
      exact h₁
  · obtain ⟨hst | ⟨hst, hest⟩, htext⟩ := h₁
    · simp only [switch, hst, hValueCase, all_ite, all_putcOr, all_brk]
      refine ⟨fun _ => ⟨fun _ => trivial, fun t ht => .inr (hput k₁ 0 t htext ht)⟩, fun _ =>
        ⟨fun _ => ⟨fun _ => trivial, fun t ht => .inr (hput k₁ 0 t htext ht)⟩, fun _ =>
        ⟨fun _ => ⟨fun _ => trivial, fun t ht => .inr (hput k₁ 0 t htext ht)⟩, fun _ =>
        ⟨fun _ => ⟨fun _ => trivial, fun t ht => .inr (hput k₁ 32 t htext ht)⟩, fun _ =>
        ⟨fun _ => trivial, fun t ht => .inr (hput k₁ _ t htext ht)⟩⟩⟩⟩⟩
    · simp only [switch, hst, hValueLeadCase, all_ite, all_reset, all_brk]
      refine ⟨fun _ => ⟨.inl hest, htext⟩, fun _ => .inl ⟨.inr ⟨hst, hest⟩, ?_⟩⟩
      rw [htext]

theorem switch_closed (k : Frame) (c : Int) (hk : Routed k) (hlate : k.s.st.isRequestLine = false) (hopen : ¬Open k)
    (hnot : ¬TakesNul k) (hcol : collects k c = false) :
    Pass.All
      (fun k' c' => k'.s.st.isRequestLine = false ∧ ¬Open k' ∧ ¬TakesNul k' ∧ collects k' c' = false ∧ k'.text = k.text)
      (fun k' => ¬Open k' ∧ k'.text = k.text) (fun _ _ => True) True (switch k c) := by
  have hother : ∀ (x : HttpRequestState) (k' : Frame) (c' : Int), x ≠ hHeader → collects (k'.shift x) c' = false :=
    fun x k' c' h => collects_other c' h
  have hvalue : k.s.st ≠ hValue := fun h => hopen (.inl h)
  cases hst : k.s.st <;> simp only [switch, hst]
  case hValue => exact absurd hst hvalue
  case hNl =>
    simp only [hNlCase, all_ite, all_reset, all_brk]
    refine ⟨fun _ => by simp [Open], fun _ => ⟨fun _ => by simp [Open], fun _ => ⟨fun _ => by simp [Open], fun _ => ?_⟩⟩⟩
    exact ⟨rfl, by simp [Open], by simp [TakesNul], collects_start _ rfl, rfl⟩
  case hCont =>
    have hcollect : ¬k.s.collect = true := fun h => hnot ⟨hst, h⟩
    rw [hContCase, if_neg hcollect, all_reset]
    exact ⟨rfl, by simp [Open], by simp [TakesNul], hother _ _ _ (by decide), rfl⟩
  case hValueLead =>
    have hest : k.s.est ≠ hValue := fun h => hopen (.inr ⟨hst, h⟩)
    have hval : k.s.est.isValue = true := by simpa [Routed, hst, routed] using hk
    have hest' : k.s.est.isRequestLine = false ∧ k.s.est ≠ hValueLead ∧ k.s.est ≠ hCont ∧ k.s.est ≠ hHeader := by
      cases he : k.s.est <;> simp_all [isValue, isRequestLine]
    simp only [hValueLeadCase, all_ite, all_reset, all_brk]
    refine ⟨fun _ => ⟨hest'.1, ?_, ?_, hother _ _ _ hest'.2.2.2, rfl⟩, fun _ => ⟨hopen, trivial⟩⟩
    · rintro (h | ⟨h, -⟩)
      · exact hest h
      · exact hest'.2.1 h
    · exact fun h => hest'.2.2.1 h.1
  case hHeader =>
    simp only [hHeaderCase, all_onWalk]
    refine ⟨fun _ => trivial, fun r t hw => ?_⟩
    simp only [all_ite, all_reset, all_brk]
    refine ⟨fun _ => ⟨rfl, by simp [Open], by simp [TakesNul], hother _ _ _ (by decide), rfl⟩, fun _ => ⟨fun hr => ?_,
      fun _ => by simp [Open, hst]⟩⟩
    -- the header is interpreted, or not selected
    have hrec : recognised k c = some r.toNat := by
      rw [recognised, if_pos hst, hw]
      exact if_pos hr
    have hsel : interpreted r.toNat = false → ¬selected k.s.hmask r.toNat = true := by
      intro hint hsel
      have hcol' := collects_iff.mpr ⟨r.toNat, Option.mem_filter_iff.mpr ⟨hrec, by rw [hint]; rfl⟩, hsel⟩
      rw [hcol] at hcol'
      cases hcol'
    have hsel' : interpreted r.toNat = false → selected (Frame.clearTrie { k with tstate := t }).s.hmask r.toNat = false :=
      fun h => Bool.eq_false_iff.mpr (hsel h)
    simp only [hHeaderMatched, all_ite, all_brk]
    refine ⟨fun _ => by simp [Open], fun h₁ => ⟨fun _ => by simp [Open], fun h₂ => ⟨fun _ => by simp [Open], fun h₃ =>
      ⟨fun _ => by simp [Open], fun h₄ => ⟨fun h => ?_, fun _ => by simp [Open]⟩⟩⟩⟩⟩
    rw [hsel' (by simp [interpreted, h₁, h₂, h₃, h₄])] at h
    cases h
  case hErrorNotImplemented | hErrorBadRequest | hErrorInternalServerError | hNewline | hHeaderUnknown => exact trivial
  case hCr | hHeadConnection | hHeadExpect | hHeadTransferEncoding | hHeadContentLength | hHeadFlag | hSkipline =>
    dsimp only [hCrCase, hHeadConnectionCase, hHeadExpectCase, hHeadTransferEncodingCase, hHeadFlagInitial,
      hHeadContentLengthCase, hHeadFlagCase, hSkiplineCase]
    simp [isRequestLine, Open, TakesNul, hst, hother]
  all_goals simp [hst, isRequestLine] at hlate

/-- **A turn where no value is being read** leaves the text alone, unless it takes a NUL away or collects a header. -/
theorem iterate_closed (hk : Routed k) (hlate : k.s.st.isRequestLine = false) (hopen : ¬Open k) (hnot : ¬TakesNul k)
    (hcol : collects k c = false) (h : iterate k c = .next k' ∨ iterate k c = .halt (.ok k')) :
    ¬Open k' ∧ k'.text = k.text := by
  have hi := iterate_inv (k := k) (c := c)
    (N := fun k' c' => Routed k' ∧ k'.s.st.isRequestLine = false ∧ ¬Open k' ∧ ¬TakesNul k' ∧ collects k' c' = false ∧
      k'.text = k.text)
    (B := fun k' => ¬Open k' ∧ k'.text = k.text) (R := fun _ _ => True) (F := True) (fun k₁ c₁ h₁ => ?_)
    ⟨hk, hlate, hopen, hnot, hcol, rfl⟩
  · obtain h | h := h
    · rw [h] at hi
      obtain ⟨k₁, h₁, -, rfl⟩ := hi
      exact h₁
    · rw [h] at hi
      obtain ⟨k₁, h₁, -, rfl⟩ := hi
      exact h₁
  · obtain ⟨hr, hlate₁, hopen₁, hnot₁, hcol₁, htext⟩ := h₁
    have hpass := (switch_routed k₁ c₁ hr).and (switch_closed k₁ c₁ hr hlate₁ hopen₁ hnot₁ hcol₁)
    exact hpass.imp (fun _ _ h => ⟨h.1.1, h.2.1, h.2.2.1, h.2.2.2.1, h.2.2.2.2.1, h.2.2.2.2.2.trans htext⟩)
      (fun _ h => ⟨h.2.1, h.2.2.trans htext⟩) (fun _ _ _ => trivial) fun _ => trivial

end

/-! ## What a run leaves of a string -/

/-- InHead the request line, with room in the buffer. -/
structure InHead (k : Frame) : Prop where
  routed : Routed k
  late : k.s.st.isRequestLine = false
  inv : StoreInv k.text
  nl : k.s.nl ≤ 1

section

variable {k k' : Frame} {c : Int} {cs rest : List Int} {z : List Byte}

theorem InHead.next (h : InHead k) (hc : InRange c) (hs : iterate k c = .next k') :
    InHead k' ∧ (k'.text.chars = foldedChars k ∨ ∃ b, b ≠ 255 ∧ k'.text.chars = foldedChars k ++ [b]) := by
  obtain ⟨hlate, hinv, hchars⟩ := iterate_chars h.routed h.inv h.late hc (.inl hs)
  exact ⟨⟨iterate_routed h.routed hs, hlate, hinv, iterate_nl hs⟩, hchars⟩

theorem begins_foldedChars (h : z ++ [32] <+: k.text.chars) : z ++ [32] <+: foldedChars k := by
  rw [foldedChars]
  split_ifs
  · obtain ⟨y, hy⟩ := h
    rw [← hy]
    obtain rfl | ⟨y, b, rfl⟩ := List.eq_nil_or_concat' y
    · rw [List.append_nil, List.dropLast_concat]
    · rw [← List.append_assoc, List.dropLast_concat, List.append_assoc]
      exact List.prefix_append _ _
  · exact h

theorem prefix_grown {y x x' : List Byte} (h : y <+: x) (hx : x' = x ∨ ∃ b, b ≠ 255 ∧ x' = x ++ [b]) : y <+: x' := by
  obtain rfl | ⟨b, -, rfl⟩ := hx
  · exact h
  · exact h.trans (List.prefix_append x [b])

theorem feed_ok {I : Frame → Prop} (hcs : ∀ c ∈ cs, InRange c)
    (hstep : ∀ k c k', InHead k → InRange c → I k → (iterate k c = .next k' ∨ iterate k c = .halt (.ok k')) → I k')
    (hk : InHead k) (h : I k) (hf : feed iterate k cs = .halt (.ok k', rest)) : I k' := by
  induction cs generalizing k with
  | nil => cases hf
  | cons c cs ih =>
    have hc := hcs c List.mem_cons_self
    cases hs : iterate k c with
    | next k₁ =>
      rw [feed_cons_next cs hs] at hf
      exact ih (fun c hc => hcs c (List.mem_cons_of_mem _ hc)) (hk.next hc hs).1 (hstep k c k₁ hk hc h (.inl hs)) hf
    | halt r =>
      rw [feed_cons_halt cs hs, Step.halt.injEq, Prod.mk.injEq] at hf
      exact hstep k c k' hk hc h (.inr (hf.1 ▸ hs))

theorem feed_space (hcs : ∀ c ∈ cs, InRange c) (hk : InHead k) (h : z ++ [32] <+: k.text.chars)
    (hf : feed iterate k cs = .halt (.ok k', rest)) : z ++ [32] <+: k'.text.chars := by
  refine feed_ok (I := fun k => z ++ [32] <+: k.text.chars) hcs (fun k c k' hk hc h hs => ?_) hk h hf
  exact prefix_grown (begins_foldedChars h) (iterate_chars hk.routed hk.inv hk.late hc hs).2.2

theorem feed_no255 {o : Nat} (hcs : ∀ c ∈ cs, InRange c) (hk : InHead k) (h : ∀ b ∈ k.text.chars.drop o, b ≠ 255)
    (hf : feed iterate k cs = .halt (.ok k', rest)) : ∀ b ∈ k'.text.chars.drop o, b ≠ 255 := by
  refine feed_ok (I := fun k => ∀ b ∈ k.text.chars.drop o, b ≠ 255) hcs (fun k c k' hk hc h hs => ?_) hk h hf
  have hsnoc : ∀ (x : List Byte) (b : Byte), (∀ y ∈ x.drop o, y ≠ 255) → b ≠ 255 → ∀ y ∈ (x ++ [b]).drop o, y ≠ 255 := by
    intro x b hx hb y hy
    rw [List.drop_append, List.mem_append] at hy
    obtain hy | hy := hy
    · exact hx y hy
    · rw [List.mem_singleton.mp (List.mem_of_mem_drop hy)]
      exact hb
  have hfolded : ∀ b ∈ (foldedChars k).drop o, b ≠ 255 := by
    rw [foldedChars]
    split_ifs
    · refine hsnoc _ 32 (fun y hy => h y ?_) (by decide)
      rw [List.dropLast_eq_take, List.drop_take] at hy
      exact List.mem_of_mem_take hy
    · exact h
  obtain hsame | ⟨b, hb, hput⟩ := (iterate_chars hk.routed hk.inv hk.late hc hs).2.2
  · rw [hsame]
    exact hfolded
  · rw [hput]
    exact hsnoc _ b hfolded hb

/-- A string that another one follows, or whose NUL is to come, is kept. -/
theorem feed_kept (hcs : ∀ c ∈ cs, InRange c) (hk : InHead k) (h : z <+: k.text.chars)
    (hmore : Open k ∨ z.length < k.text.chars.length) (hf : feed iterate k cs = .halt (.ok k', rest)) :
    z <+: k'.text.chars := by
  refine (feed_ok (I := fun k => z <+: k.text.chars ∧ (Open k ∨ z.length < k.text.chars.length)) hcs
    (fun k c k' hk hc h hs => ?_) hk ⟨h, hmore⟩ hf).1
  obtain ⟨hpre, hopen | hlt⟩ := h
  · obtain ⟨hopen', hsame⟩ | ⟨b, hput⟩ := iterate_open hopen hk.inv hs
    · rw [hsame]
      exact ⟨hpre, .inl hopen'⟩
    · rw [hput, List.length_append]
      exact ⟨hpre.trans (List.prefix_append _ _), .inr (Nat.lt_succ_of_le hpre.length_le)⟩
  · have hfolded : z <+: foldedChars k ∧ z.length < (foldedChars k).length := by
      rw [foldedChars]
      split_ifs
      · obtain ⟨y, hy⟩ := hpre
        obtain rfl | ⟨y, b, rfl⟩ := List.eq_nil_or_concat' y
        · rw [← hy, List.append_nil] at hlt
          exact absurd hlt (Nat.lt_irrefl _)
        · rw [← hy, ← List.append_assoc, List.dropLast_concat, List.append_assoc, List.length_append, List.length_append]
          exact ⟨List.prefix_append _ _, by simp only [List.length_singleton]; omega⟩
      · exact ⟨hpre, hlt⟩
    obtain hsame | ⟨b, -, hput⟩ := (iterate_chars hk.routed hk.inv hk.late hc hs).2.2
    · rw [hsame]
      exact ⟨hfolded.1, .inr hfolded.2⟩
    · rw [hput, List.length_append]
      exact ⟨hfolded.1.trans (List.prefix_append _ _), .inr (Nat.lt_add_right _ hfolded.2)⟩

/-- No line takes the last NUL away before the next header is collected. -/
def NulKept (k : Frame) (cs : List Int) : Prop :=
  Until iterate (fun k _ => ¬TakesNul k) (fun k c => collects k c = true) k cs

/-- **The last string is kept** up to its NUL exactly if no line takes the NUL away. -/
theorem feed_nul_iff (hcs : ∀ c ∈ cs, InRange c) (hk : InHead k) (hopen : ¬Open k) (h : k.text.chars = z ++ [0])
    (hf : feed iterate k cs = .halt (.ok k', rest)) :
    (NulKept k cs → z ++ [0] <+: k'.text.chars) ∧ (¬NulKept k cs → z ++ [32] <+: k'.text.chars) := by
  induction cs generalizing k with
  | nil => cases hf
  | cons c cs ih =>
    have hc := hcs c List.mem_cons_self
    have hcs' : ∀ c ∈ cs, InRange c := fun c hc => hcs c (List.mem_cons_of_mem _ hc)
    unfold NulKept Until
    by_cases hcol : collects k c = true
    · refine ⟨fun _ => ?_, fun hno => absurd (.inl hcol) hno⟩
      have hcollects := iterate_collects hk.nl hcol
      have hpre : z ++ [0] <+: foldedChars k := by
        rw [foldedChars_of_st (by rw [collects_state hcol]; decide), h]
      cases hs : iterate k c with
      | halt r =>
        rw [feed_cons_halt cs hs, Step.halt.injEq, Prod.mk.injEq] at hf
        rw [hs] at hcollects
        exact absurd hf.1 (hcollects k')
      | next k₁ =>
        rw [feed_cons_next cs hs] at hf
        rw [hs] at hcollects
        obtain ⟨hk₁, hgrown⟩ := hk.next hc hs
        exact feed_kept hcs' hk₁ (prefix_grown hpre hgrown) (.inl hcollects) hf
    · rw [or_iff_right hcol]
      rw [Bool.not_eq_true] at hcol
      by_cases htakes : TakesNul k
      · refine ⟨fun hkept => absurd htakes hkept.1, fun _ => ?_⟩
        have hpre : z ++ [32] <+: foldedChars k := by
          rw [foldedChars, if_pos htakes, h, List.dropLast_concat]
        cases hs : iterate k c with
        | halt r =>
          rw [feed_cons_halt cs hs, Step.halt.injEq, Prod.mk.injEq] at hf
          exact prefix_grown hpre (iterate_chars hk.routed hk.inv hk.late hc (.inr (hf.1 ▸ hs))).2.2
        | next k₁ =>
          rw [feed_cons_next cs hs] at hf
          obtain ⟨hk₁, hgrown⟩ := hk.next hc hs
          exact feed_space hcs' hk₁ (prefix_grown hpre hgrown) hf
      · rw [and_iff_right htakes]
        cases hs : iterate k c with
        | halt r =>
          rw [feed_cons_halt cs hs, Step.halt.injEq, Prod.mk.injEq] at hf
          obtain ⟨-, hsame⟩ := iterate_closed hk.routed hk.late hopen htakes hcol (.inr (hf.1 ▸ hs))
          rw [hsame, h]
          exact ⟨fun _ => List.prefix_refl _, fun hno => absurd trivial hno⟩
        | next k₁ =>
          rw [feed_cons_next cs hs] at hf
          obtain ⟨hopen₁, hsame⟩ := iterate_closed hk.routed hk.late hopen htakes hcol (.inl hs)
          exact ih hcs' (hk.next hc hs).1 hopen₁ (by rw [hsame, h]) hf

end

/-! ## Reading a value -/

/-- The characters as bytes. -/
def toBytes (w : List Int) : List Byte := w.map (BitVec.ofInt 8)

theorem toBytes_concat (w : List Int) (c : Int) : toBytes (w ++ [c]) = toBytes w ++ [BitVec.ofInt 8 c] := by
  rw [toBytes, List.map_append]
  rfl

/-- A collected value is being read, and may be continued. -/
structure Continues (k : Frame) : Prop where
  est : k.s.est = hValue
  collect : k.s.collect = true

/-- Where the parser stands when `u` has been read of a value that has a word before every line break so far; `z`
are the characters before the value. -/
inductive Folding (z : List Byte) (k : Frame) : List Int → Prop
  | lead {u : List Int} (hst : k.s.st = hValueLead) (hnl : k.s.nl = 0) (hbreaks : Breaks u)
      (hlast : ∀ y ∈ u.getLast?, isBlank y = true) (hchars : k.text.chars = z ++ toBytes (normalised u)) : Folding z k u
  | word {u : List Int} (hst : k.s.st = hValue) (hnl : k.s.nl = 0) (hbreaks : Breaks u)
      (hlast : ∃ y ∈ u.getLast?, isLinear y = false) (hchars : k.text.chars = z ++ toBytes (normalised u)) :
      Folding z k u
  | cr {u : List Int} (hst : k.s.st = hCr) (hnl : k.s.nl = 0) (hbreaks : Breaks u)
      (hchars : k.text.chars = z ++ toBytes (normalised u) ++ [0]) : Folding z k (u ++ [13])
  | nl {u eol : List Int} (hst : k.s.st = hNl) (hbreaks : Breaks u) (heol : eol ∈ lineEnds)
      (htrim : trimCr (u ++ eol.dropLast) = u) (hchars : k.text.chars = z ++ toBytes (normalised u) ++ [0]) :
      Folding z k (u ++ eol)
  | cont {u eol : List Int} {b : Int} (hst : k.s.st = hCont) (hnl : k.s.nl = 0) (hbreaks : Breaks u)
      (heol : eol ∈ lineEnds) (htrim : trimCr (u ++ eol.dropLast) = u) (hb : isBlank b = true)
      (hchars : k.text.chars = z ++ toBytes (normalised u) ++ [0]) : Folding z k (u ++ eol ++ [b])

/-- A line break without a word before it has put a space at the beginning, or behind another one. -/
def Spaced (z : List Byte) (u : List Int) (cs : List Byte) : Prop :=
  ¬Breaks u ∧ ∃ w, AtSpace w ∧ (∀ c ∈ w, c ∈ u ∨ c = 32) ∧ z ++ toBytes w ++ [32] <+: cs

section

variable {k k' k₁ : Frame} {c : Int} {u v : List Int} {z : List Byte}

theorem breaks_fold {eol : List Int} {b : Int} (heol : eol ∈ lineEnds) (htrim : trimCr (u ++ eol.dropLast) = u)
    (hb : isBlank b = true) : Breaks (u ++ eol ++ [b]) ↔ Breaks u ∧ ¬AtSpace (normalised u) := by
  have hb10 : b ≠ 10 := by
    rintro rfl
    cases hb
  have hword : EndsInWord (u ++ eol.dropLast) ↔ ¬AtSpace (normalised u) := by rw [endsInWord_iff, htrim]
  have heol : u ++ eol = u ++ eol.dropLast ++ [10] ∧ (Breaks (u ++ eol.dropLast) ↔ Breaks u) := by
    simp only [lineEnds, List.mem_cons, List.not_mem_nil, or_false] at heol
    obtain rfl | rfl := heol
    · exact ⟨by simp, by simp⟩
    · refine ⟨by simp, ?_⟩
      show Breaks (u ++ [13]) ↔ Breaks u
      rw [breaks_concat]
      exact and_iff_left fun h => absurd h (by decide)
  rw [breaks_concat, and_iff_left (fun h => absurd h hb10), heol.1, breaks_concat, heol.2, ← hword]
  exact and_congr_right fun _ => ⟨fun h => h rfl, fun h _ => h⟩

theorem normalised_fold {eol : List Int} {b : Int} (heol : eol ∈ lineEnds) (hb : isBlank b = true) :
    normalised (u ++ eol ++ [b]) = if AtSpace (normalised u) then normalised u else normalised u ++ [32] := by
  rw [List.append_assoc]
  apply normalised_linear
  · intro c hc
    obtain hc | hc := List.mem_append.mp hc
    · simp only [lineEnds, List.mem_cons, List.not_mem_nil, or_false] at heol
      obtain rfl | rfl := heol
      · rw [List.mem_singleton.mp hc]
        rfl
      · simp only [List.mem_cons, List.not_mem_nil, or_false] at hc
        obtain rfl | rfl := hc <;> rfl
    · rw [List.mem_singleton.mp hc]
      exact linear_of_blank hb
  · simp

/-! ### Turns -/

theorem eq_advance_of_brk_or (hsw : switch k c = brk k₁) (h : iterate k c = .next k' ∨ iterate k c = .halt (.ok k')) :
    k' = k₁.advance := by
  obtain h | h := h
  · exact eq_advance_of_brk hsw h
  · rw [iterate_of_halt hsw, finishTurn] at h
    by_cases hnl : k₁.s.nl > 1
    · rw [if_pos hnl, Step.halt.injEq, Halt.ok.injEq] at h
      exact h.symm
    · rw [if_neg hnl] at h
      cases h

theorem iterate_putcOr {b : Byte} {f : Frame → Frame} (hsw : switch k c = putcOr 413 b k₁ fun k => brk (f k))
    (h : iterate k c = .next k' ∨ iterate k c = .halt (.ok k')) :
    ∃ t, minuteTextintPutc b k₁.text = some t ∧ switch k c = brk (f { k₁ with text := t }) ∧
      k' = (f { k₁ with text := t }).advance := by
  unfold putcOr at hsw
  cases hp : minuteTextintPutc b k₁.text with
  | none =>
    rw [hp] at hsw
    have hret := iterate_of_halt (l := .ret 413 k₁) hsw
    rw [hret] at h
    obtain h | h := h
    · cases h
    · cases h
  | some t =>
    rw [hp] at hsw
    exact ⟨t, rfl, hsw, eq_advance_of_brk_or hsw h⟩

theorem iterate_valueChar (hk : InHead k) (hst : k.s.st = hValue)
    (h : iterate k c = .next k' ∨ iterate k c = .halt (.ok k')) :
    (c = 13 ∧ k'.s.st = hCr ∧ k'.s.nl = k.s.nl ∧ k'.text.chars = k.text.chars ++ [0] ∨
      c = 10 ∧ k'.s.st = hNl ∧ k'.s.nl = k.s.nl + 1 ∧ k'.text.chars = k.text.chars ++ [0] ∨
      c = -1 ∧ k'.text.chars = k.text.chars ++ [0] ∨
      isBlank c = true ∧ k'.s.st = hValueLead ∧ k'.s.nl = k.s.nl ∧ k'.text.chars = k.text.chars ++ [32] ∨
      c ≠ -1 ∧ isLinear c = false ∧ k'.s.st = hValue ∧ k'.s.nl = k.s.nl ∧
        k'.text.chars = k.text.chars ++ [BitVec.ofInt 8 c]) ∧
      (Continues k → Continues k') := by
  have hput : ∀ b t, minuteTextintPutc b k.text = some t → t.chars = k.text.chars ++ [b] :=
    fun b t ht => (putc_spec hk.inv.ok ht).2.1
  by_cases h13 : c = 13
  · have hsw : switch k c = putcOr 413 0 (k.mark.shift hCr) fun k => brk k := by
      simp only [switch, hst, hValueCase, if_pos h13]
    obtain ⟨t, ht, -, rfl⟩ := iterate_putcOr hsw h
    exact ⟨.inl ⟨h13, rfl, rfl, hput 0 t ht⟩, fun h => ⟨h.est, h.collect⟩⟩
  by_cases h10 : c = 10
  · have hsw : switch k c = putcOr 413 0 ((k.mark.setNl (k.s.nl + 1)).shift hNl) fun k => brk k := by
      simp only [switch, hst, hValueCase, if_neg h13, if_pos h10]
      rfl
    obtain ⟨t, ht, -, rfl⟩ := iterate_putcOr hsw h
    exact ⟨.inr (.inl ⟨h10, rfl, rfl, hput 0 t ht⟩), fun h => ⟨h.est, h.collect⟩⟩
  by_cases h1 : c = -1
  · have hsw : switch k c = putcOr 413 0 (k.mark.setNl 99) fun k => brk k := by
      simp only [switch, hst, hValueCase, if_neg h13, if_neg h10, if_pos h1]
    obtain ⟨t, ht, -, rfl⟩ := iterate_putcOr hsw h
    exact ⟨.inr (.inr (.inl ⟨h1, hput 0 t ht⟩)), fun h => ⟨h.est, h.collect⟩⟩
  by_cases hb : c = 32 ∨ c = 9
  · have hsw : switch k c = putcOr 413 32 k.mark fun k => brk ((k.setEst k.s.st).shift hValueLead) := by
      simp only [switch, hst, hValueCase, if_neg h13, if_neg h10, if_neg h1, if_pos hb]
    obtain ⟨t, ht, -, rfl⟩ := iterate_putcOr hsw h
    exact ⟨.inr (.inr (.inr (.inl ⟨decide_eq_true hb, rfl, rfl, hput 32 t ht⟩))), fun h => ⟨hst, h.collect⟩⟩
  · have hsw : switch k c = putcOr 413 (BitVec.ofInt 8 c) k.mark fun k => brk k := by
      simp only [switch, hst, hValueCase, if_neg h13, if_neg h10, if_neg h1, if_neg hb]
    obtain ⟨t, ht, -, rfl⟩ := iterate_putcOr hsw h
    have hlin : isLinear c = false := decide_eq_false (by omega)
    exact ⟨.inr (.inr (.inr (.inr ⟨h1, hlin, hst, rfl, hput _ t ht⟩))), fun h => ⟨h.est, h.collect⟩⟩

theorem InHead.reset {c' : Int} (hk : InHead k) (hc : InRange c)
    (hsw : switch k c = .next (k₁, c')) (hnl : k₁.s.nl = k.s.nl) : InHead k₁ := by
  have hr := switch_routed k c hk.routed
  have hchars := switch_chars k c hk.routed hk.inv hk.late hc
  rw [hsw] at hr hchars
  exact ⟨hr.1, hchars.1, hchars.2.1, by rw [hnl]; exact hk.nl⟩

end

section

variable {k k' : Frame} {c : Int} {u : List Int} {z : List Byte}

theorem iterate_ok_nl (h : iterate k c = .halt (.ok k')) : 1 < k'.s.nl := by
  have hi := iterate_inv (N := fun _ _ => True) (B := fun _ => True) (R := fun _ _ => True) (F := True)
    (fun k₁ c₁ _ => (switch_code k₁ c₁).imp (fun _ _ h => h) (fun _ h => h) (fun _ _ _ => trivial) id)
    (k := k) (c := c) trivial
  rw [h] at hi
  obtain ⟨k₁, -, hnl, rfl⟩ := hi
  exact hnl

theorem iterate_value_next (hk : InHead k) (hst : k.s.st = hValue) (hnl : k.s.nl = 0) (hc : c ≠ -1)
    (h : iterate k c = .next k' ∨ iterate k c = .halt (.ok k')) : iterate k c = .next k' := by
  refine h.resolve_right fun hok => ?_
  have hlt := iterate_ok_nl hok
  obtain ⟨-, -, hnl', -⟩ | ⟨-, -, hnl', -⟩ | ⟨h1, -⟩ | ⟨-, -, hnl', -⟩ | ⟨-, -, -, hnl', -⟩ :=
    (iterate_valueChar hk hst h).1
  · omega
  · omega
  · exact hc h1
  · omega
  · omega

theorem Folding.char (hk : InHead k) (hst : k.s.st = hValue) (hnl : k.s.nl = 0) (hbreaks : Breaks u)
    (h13 : 13 ∉ u.getLast?) (hchars : k.text.chars = z ++ toBytes (normalised u))
    (hblank : isBlank c = true → ¬AtSpace (normalised u)) (hc : c ≠ -1)
    (hs : iterate k c = .next k' ∨ iterate k c = .halt (.ok k')) :
    iterate k c = .next k' ∧ (Continues k → Continues k') ∧ Folding z k' (u ++ [c]) := by
  refine ⟨iterate_value_next hk hst hnl hc hs, (iterate_valueChar hk hst hs).2, ?_⟩
  obtain ⟨rfl, hst', hnl', hput⟩ | ⟨rfl, hst', -, hput⟩ | ⟨h1, -⟩ | ⟨hb, hst', hnl', hput⟩ | ⟨-, hlin, hst', hnl', hput⟩ :=
    (iterate_valueChar hk hst hs).1
  · rw [hchars] at hput
    exact .cr hst' (hnl'.trans hnl) hbreaks hput
  · rw [hchars] at hput
    refine .nl hst' hbreaks (by simp [lineEnds]) ?_ hput
    show trimCr (u ++ []) = u
    rw [List.append_nil]
    exact trimCr_of_last h13
  · exact absurd h1 hc
  · have hlin := linear_of_blank hb
    have hnorm : normalised (u ++ [c]) = normalised u ++ [32] := by
      rw [normalised_snoc, squeeze_linear hlin, if_neg (hblank hb)]
    refine .lead hst' (hnl'.trans hnl) (breaks_concat.mpr ⟨hbreaks, ?_⟩) ?_ ?_
    · rintro rfl
      cases hb
    · intro y hy
      rw [List.getLast?_concat] at hy
      rw [← Option.some.inj hy]
      exact hb
    · rw [hput, hchars, hnorm, toBytes_concat, List.append_assoc]
      rfl
  · have hnorm : normalised (u ++ [c]) = normalised u ++ [c] := by rw [normalised_snoc, squeeze_word hlin]
    refine .word hst' (hnl'.trans hnl) (breaks_concat.mpr ⟨hbreaks, ?_⟩) ⟨c, by rw [List.getLast?_concat]; rfl, hlin⟩ ?_
    · rintro rfl
      cases hlin
    · rw [hput, hchars, hnorm, toBytes_concat, List.append_assoc]

theorem Folding.leadChar (hk : InHead k) (hc : InRange c) (hst : k.s.st = hValueLead) (hest : k.s.est = hValue)
    (hnl : k.s.nl = 0) (hbreaks : Breaks u) (hlast : ∀ y ∈ u.getLast?, isBlank y = true)
    (hchars : k.text.chars = z ++ toBytes (normalised u)) (hc1 : c ≠ -1)
    (hs : iterate k c = .next k' ∨ iterate k c = .halt (.ok k')) :
    iterate k c = .next k' ∧ (Continues k → Continues k') ∧ Folding z k' (u ++ [c]) := by
  have hspace : AtSpace (normalised u) := atSpace_normalised.mpr fun y hy => linear_of_blank (hlast y hy)
  by_cases hb : isBlank c = true
  · have hlead := iterate_leadBlank hst hk.nl hb
    rw [hlead] at hs ⊢
    obtain hs | hs := hs
    swap
    · cases hs
    cases hs
    refine ⟨rfl, fun h => ⟨h.est, h.collect⟩, ?_⟩
    have hnorm : normalised (u ++ [c]) = normalised u := by
      rw [normalised_snoc, squeeze_linear (linear_of_blank hb), if_pos hspace]
    refine .lead hst hnl (breaks_concat.mpr ⟨hbreaks, ?_⟩) ?_ ?_
    · rintro rfl
      cases hb
    · intro y hy
      rw [List.getLast?_concat] at hy
      rw [← Option.some.inj hy]
      exact hb
    · rw [advance_text, hchars, hnorm]
  · have hnot : c ≠ 32 ∧ c ≠ 9 := by simpa [isBlank] using hb
    have hsw : switch k c = reset hValue k.mark c := by
      simp only [switch, hst, hValueLeadCase, if_pos hnot, hest]
    rw [iterate_reset hk.routed hsw] at hs ⊢
    have h13 : 13 ∉ u.getLast? := fun h => absurd (hlast 13 h) (by decide)
    have hchar := Folding.char (hk.reset hc hsw rfl) rfl hnl hbreaks h13 hchars (fun h => absurd h hb) hc1 hs
    exact ⟨hchar.1, fun h => hchar.2.1 ⟨h.est, h.collect⟩, hchar.2.2⟩

/-- The line break is over: its NUL is a space now, and what follows is read as behind a blank. -/
theorem iterate_foldLine (hk : InHead k) (hc : InRange c) (hst : k.s.st = hCont) (hcol : k.s.collect = true) :
    ∃ k₁, InHead k₁ ∧ k₁.s.st = hValueLead ∧ k₁.s.est = k.s.est ∧ k₁.s.nl = k.s.nl ∧ k₁.s.collect = k.s.collect ∧
      k₁.text.chars = k.text.chars.dropLast ++ [32] ∧ iterate k c = iterate k₁ c := by
  have hsw : switch k c = reset hValueLead { k with text := minuteTextintReplacec (-1) 32 k.text } c := by
    simp only [switch, hst, hContCase, if_pos hcol]
  exact ⟨_, hk.reset hc hsw rfl, rfl, rfl, rfl, rfl, (replacec_spec 32 hk.inv.ok).2.1, iterate_reset hk.routed hsw⟩

theorem Spaced.mono {x x' : List Byte} {v : List Int} (h : Spaced z u x)
    (hx : ∀ y : List Byte, y ++ [32] <+: x → y ++ [32] <+: x')
    (hv : ∀ s t, u = s ++ 10 :: t → ∃ t', v = s ++ 10 :: t') (hmem : ∀ c ∈ u, c ∈ v) : Spaced z v x' := by
  obtain ⟨hbreaks, w, hw, hsub, hpre⟩ := h
  refine ⟨fun h => hbreaks fun s t hu => ?_, w, hw, fun c hc => (hsub c hc).imp_left (hmem c), hx _ hpre⟩
  obtain ⟨t', ht'⟩ := hv s t hu
  exact h s t' ht'

theorem foldLine_cases {eol : List Int} {b : Int} (hk : InHead k) (hc : InRange c) (hv : Continues k) (hst : k.s.st = hCont)
    (hnl : k.s.nl = 0) (hbreaks : Breaks u) (heol : eol ∈ lineEnds) (htrim : trimCr (u ++ eol.dropLast) = u)
    (hb : isBlank b = true) (hchars : k.text.chars = z ++ toBytes (normalised u) ++ [0])
    (hs : iterate k c = .next k' ∨ iterate k c = .halt (.ok k')) :
    Spaced z (u ++ eol ++ [b]) k'.text.chars ∨ ∃ k₁, InHead k₁ ∧ Continues k₁ ∧ k₁.s.st = hValueLead ∧ k₁.s.nl = 0 ∧
      Breaks (u ++ eol ++ [b]) ∧ (∀ y ∈ (u ++ eol ++ [b]).getLast?, isBlank y = true) ∧
      k₁.text.chars = z ++ toBytes (normalised (u ++ eol ++ [b])) ∧ iterate k c = iterate k₁ c := by
  have hdrop : (z ++ toBytes (normalised u) ++ [0]).dropLast = z ++ toBytes (normalised u) := List.dropLast_concat
  by_cases hspace : AtSpace (normalised u)
  · refine .inl ⟨fun h => ((breaks_fold heol htrim hb).mp h).2 hspace, normalised u, hspace, fun c hc => ?_, ?_⟩
    · refine (normalised_subset hc).imp_left fun h => ?_
      exact List.mem_append_left _ (List.mem_append_left _ h)
    · have hfolded : foldedChars k = z ++ toBytes (normalised u) ++ [32] := by
        rw [foldedChars, if_pos ⟨hst, hv.collect⟩, hchars, hdrop]
      have hgrown := (iterate_chars hk.routed hk.inv hk.late hc hs).2.2
      rw [hfolded] at hgrown
      exact prefix_grown (List.prefix_refl _) hgrown
  · obtain ⟨k₁, hk₁, hst₁, hest₁, hnl₁, hcol₁, hchars₁, hsame⟩ := iterate_foldLine hk hc hst hv.collect
    have hnorm : normalised (u ++ eol ++ [b]) = normalised u ++ [32] := by
      rw [normalised_fold heol hb, if_neg hspace]
    refine .inr ⟨k₁, hk₁, ⟨hest₁.trans hv.est, hcol₁.trans hv.collect⟩, hst₁, hnl₁.trans hnl,
      (breaks_fold heol htrim hb).mpr ⟨hbreaks, hspace⟩, fun y hy => ?_, ?_, hsame⟩
    · rw [List.getLast?_concat] at hy
      rw [← Option.some.inj hy]
      exact hb
    · rw [hchars₁, hchars, hdrop, hnorm, toBytes_concat, List.append_assoc]
      rfl

/-- **A character of a value.** A blank follows every line break. -/
theorem Folding.next (hk : InHead k) (hc : InRange c) (hv : Continues k) (h : Folding z k u) (hc1 : c ≠ -1)
    (hblank : 10 ∈ u.getLast? → isBlank c = true) (hs : iterate k c = .next k' ∨ iterate k c = .halt (.ok k')) :
    (iterate k c = .next k' ∧ Continues k' ∧ Folding z k' (u ++ [c])) ∨ Spaced z u k'.text.chars := by
  cases h with
  | lead hst hnl hbreaks hlast hchars =>
    obtain ⟨hs', hv', h'⟩ := Folding.leadChar hk hc hst hv.est hnl hbreaks hlast hchars hc1 hs
    exact .inl ⟨hs', hv' hv, h'⟩
  | word hst hnl hbreaks hlast hchars =>
    obtain ⟨y, hy, hlin⟩ := hlast
    have hword : ¬AtSpace (normalised u) := by
      intro h
      rw [atSpace_normalised.mp h y hy] at hlin
      cases hlin
    have h13 : 13 ∉ u.getLast? := by
      intro h13
      rw [← Option.mem_unique h13 hy] at hlin
      cases hlin
    obtain ⟨hs', hv', h'⟩ := Folding.char hk hst hnl hbreaks h13 hchars (fun _ => hword) hc1 hs
    exact .inl ⟨hs', hv' hv, h'⟩
  | @cr w hst hnl hbreaks hchars =>
    by_cases h10 : c = 10
    · subst h10
      have hsw : switch k 10 = brk ((k.setNl (k.s.nl + 1)).shift hNl) := by simp only [switch, hst, hCrCase, if_true]
      have hnext := iterate_of_brk hsw (by rw [shift_s, setNl_s, hnl])
      rw [hnext] at hs ⊢
      obtain hs | hs := hs
      swap
      · cases hs
      cases hs
      refine .inl ⟨rfl, ⟨hv.est, hv.collect⟩, ?_⟩
      rw [List.append_assoc]
      exact .nl rfl hbreaks (by simp [lineEnds]) (trimCr_concat w) hchars
    · rw [iterate_brokenCr hk.routed hst h10] at hs
      obtain hs | hs := hs
      · cases hs
      · cases hs
  | @nl w eol hst hbreaks heol htrim hchars =>
    have hlast : 10 ∈ (w ++ eol).getLast? := by
      simp only [lineEnds, List.mem_cons, List.not_mem_nil, or_false] at heol
      obtain rfl | rfl := heol <;> simp
    have hb := hblank hlast
    have hsw : switch k c = brk ((k.mark.setNl 0).shift hCont) := by
      have hc32 := of_decide_eq_true hb
      simp only [switch, hst, hNlCase]
      rw [if_neg (by omega), if_neg (by omega), if_pos hc32]
    have hnext := iterate_of_brk hsw (Nat.zero_le 1)
    rw [hnext] at hs ⊢
    obtain hs | hs := hs
    swap
    · cases hs
    cases hs
    exact .inl ⟨rfl, ⟨hv.est, hv.collect⟩, .cont rfl rfl hbreaks heol htrim hb hchars⟩
  | @cont w eol b hst hnl hbreaks heol htrim hb hchars =>
    obtain hspaced | ⟨k₁, hk₁, hv₁, hst₁, hnl₁, hbreaks₁, hlast₁, hchars₁, hsame⟩ :=
      foldLine_cases hk hc hv hst hnl hbreaks heol htrim hb hchars hs
    · exact .inr hspaced
    · rw [hsame] at hs ⊢
      obtain ⟨hs', hv', h'⟩ := Folding.leadChar hk₁ hc hst₁ hv₁.est hnl₁ hbreaks₁ hlast₁ hchars₁ hc1 hs
      exact .inl ⟨hs', hv' hv₁, h'⟩

theorem Folding.last (hk : InHead k) (hv : Continues k) (h : Folding z k u) (hc : c = 10 ∨ c = -1)
    (h10 : 10 ∉ u.getLast?) (hs : iterate k c = .next k' ∨ iterate k c = .halt (.ok k')) :
    (Breaks u ∧ k'.text.chars = z ++ toBytes (normalised (trimCr u)) ++ [0] ∧ (c = 10 → k'.s.st = hNl)) ∨
      Spaced z u k'.text.chars := by
  have hrange : InRange c := by
    unfold InRange
    omega
  have hnot : c ≠ 32 ∧ c ≠ 9 := by omega
  have hend : ∀ {k₁ : Frame} {u : List Int}, InHead k₁ → k₁.s.st = hValue → Breaks u → 13 ∉ u.getLast? →
      k₁.text.chars = z ++ toBytes (normalised u) → (iterate k₁ c = .next k' ∨ iterate k₁ c = .halt (.ok k')) →
      Breaks u ∧ k'.text.chars = z ++ toBytes (normalised (trimCr u)) ++ [0] ∧ (c = 10 → k'.s.st = hNl) := by
    intro k₁ u hk₁ hst hbreaks h13 hchars hs
    rw [trimCr_of_last h13, ← hchars]
    obtain ⟨rfl, -⟩ | ⟨-, hst', -, hput⟩ | ⟨rfl, hput⟩ | ⟨hb, -⟩ | ⟨h1, hlin, -⟩ := (iterate_valueChar hk₁ hst hs).1
    · omega
    · exact ⟨hbreaks, hput, fun _ => hst'⟩
    · exact ⟨hbreaks, hput, fun h => absurd h (by decide)⟩
    · have := of_decide_eq_true hb
      omega
    · obtain rfl | rfl := hc
      · cases hlin
      · exact absurd rfl h1
  have hlead : ∀ {k₁ : Frame} {u : List Int}, InHead k₁ → k₁.s.st = hValueLead → k₁.s.est = hValue → Breaks u →
      (∀ y ∈ u.getLast?, isBlank y = true) → k₁.text.chars = z ++ toBytes (normalised u) →
      (iterate k₁ c = .next k' ∨ iterate k₁ c = .halt (.ok k')) →
      Breaks u ∧ k'.text.chars = z ++ toBytes (normalised (trimCr u)) ++ [0] ∧ (c = 10 → k'.s.st = hNl) := by
    intro k₁ u hk₁ hst hest hbreaks hlast hchars hs
    have hsw : switch k₁ c = reset hValue k₁.mark c := by
      simp only [switch, hst, hValueLeadCase, if_pos hnot, hest]
    rw [iterate_reset hk₁.routed hsw] at hs
    exact hend (hk₁.reset hrange hsw rfl) rfl hbreaks (fun h => absurd (hlast 13 h) (by decide)) hchars hs
  cases h with
  | lead hst hnl hbreaks hlast hchars => exact .inl (hlead hk hst hv.est hbreaks hlast hchars hs)
  | word hst hnl hbreaks hlast hchars =>
    obtain ⟨y, hy, hlin⟩ := hlast
    refine .inl (hend hk hst hbreaks (fun h13 => ?_) hchars hs)
    rw [← Option.mem_unique h13 hy] at hlin
    cases hlin
  | @cr w hst hnl hbreaks hchars =>
    obtain rfl | rfl := hc
    · have hsw : switch k 10 = brk ((k.setNl (k.s.nl + 1)).shift hNl) := by simp only [switch, hst, hCrCase, if_true]
      rw [eq_advance_of_brk_or hsw hs, trimCr_concat]
      exact .inl ⟨breaks_concat.mpr ⟨hbreaks, fun h => absurd h (by decide)⟩, hchars, fun _ => rfl⟩
    · rw [iterate_brokenCr hk.routed hst (by decide)] at hs
      obtain hs | hs := hs
      · cases hs
      · cases hs
  | @nl w eol hst hbreaks heol htrim hchars =>
    refine absurd ?_ h10
    simp only [lineEnds, List.mem_cons, List.not_mem_nil, or_false] at heol
    obtain rfl | rfl := heol <;> simp
  | @cont w eol b hst hnl hbreaks heol htrim hb hchars =>
    obtain hspaced | ⟨k₁, hk₁, hv₁, hst₁, -, hbreaks₁, hlast₁, hchars₁, hsame⟩ :=
      foldLine_cases hk hrange hv hst hnl hbreaks heol htrim hb hchars hs
    · exact .inr hspaced
    · rw [hsame] at hs
      exact .inl (hlead hk₁ hst₁ hv₁.est hbreaks₁ hlast₁ hchars₁ hs)

end

/-! ## The string stored for a value -/

/-- The string at the offset `o` is `p`: it ends at the first NUL. -/
def StringAt (t : Textint) (o : Uint) (p : List Byte) : Prop := StoredAt t o p ∧ 0 ∉ p

instance StringAt.decidable (t : Textint) (o : Uint) (p : List Byte) : Decidable (StringAt t o p) :=
  inferInstanceAs (Decidable (_ ∧ _))

/-- The value that the text begins with: its lines, with the line breaks between them. -/
def rawValue (q : List Int) : List Int := trimCr (valueLines q)

/-- The value that `q` begins with, behind the `c` on which its header is collected in `k`, is stored in single
spaces: it has no NUL and no 0xFF, a word before every line break, and no later line takes its NUL away. -/
structure FoldsRight (k : Frame) (c : Int) (q : List Int) (e : Bool) : Prop where
  bytes : ∀ y ∈ valueLines q, y ≠ 0 ∧ y ≠ -1
  breaks : Breaks (valueLines q)
  kept : ∀ tail, q = valueLines q ++ 10 :: tail →
    (feed iterate k (c :: (valueLines q ++ [10]))).Holds (fun k' => NulKept k' (tail ++ if e then [hEof] else []))
      fun _ => True

section

variable {k k' k₁ : Frame} {c : Int} {u v x cs rest : List Int} {z : List Byte}

/-- A header that is collected: its value is to be read, and its first line has no line before it. -/
theorem matched_value {r : Nat} {k : Frame} (hinv : StoreInv k.text) (hint : interpreted r = false)
    (hsel : selected k.s.hmask r = true) :
    Pass.All (fun _ _ => False)
      (fun k' => k'.s.st = hValueLead ∧ k'.s.nl = k.s.nl ∧ Continues k' ∧ k'.text.chars = k.text.chars)
      (fun _ _ => True) False (hHeaderMatched r k) := by
  simp only [interpreted, Bool.or_eq_false_iff, beq_eq_false_iff_ne] at hint
  obtain ⟨⟨⟨h₁, h₂⟩, h₃⟩, h₄⟩ := hint
  rw [hHeaderMatched, if_neg h₁, if_neg h₂, if_neg h₃, if_neg h₄, if_pos hsel]
  simp only [all_putiOr, all_brk, markUnlessUnknown_text, markUnlessUnknown_s]
  refine ⟨fun _ => trivial, fun t ht => ⟨fun _ => trivial, fun t' ht' => ⟨rfl, rfl, ⟨by simp, by simp⟩, ?_⟩⟩⟩
  exact (hinv.pair ht ht').2

theorem storedPair_collects {y : Uint × Uint} (h : storedPair k c = some y) : collects k c = true := by
  obtain hnone | ⟨r, hr, hsel, -⟩ := storedPair_cases (k := k) (c := c)
  · rw [hnone] at h
    cases h
  · exact collects_iff.mpr ⟨r, hr, hsel⟩

theorem storedPair_of_collects (h : collects k c = true) : ∃ y, storedPair k c = some y := by
  obtain ⟨r, hr, -⟩ := collects_iff.mp h
  have hrec := (Option.mem_filter_iff.mp hr).1
  exact ⟨_, by rw [storedPair, if_pos h, hrec, Option.map_some]⟩

theorem iterate_storedPair {y : Uint × Uint} (hinv : StoreInv k.text) (hy : storedPair k c = some y)
    (hs : iterate k c = .next k') :
    y.2 = k.text.text ∧ k.s.st = hHeader ∧ k'.s.st = hValueLead ∧ k'.s.nl = k.s.nl ∧ Continues k' ∧
      k'.text.chars = k.text.chars := by
  obtain hnone | ⟨r, hr, hsel, hpair⟩ := storedPair_cases (k := k) (c := c)
  · rw [hnone] at hy
    cases hy
  · obtain ⟨hrec, hint⟩ := Option.mem_filter_iff.mp hr
    have hst : k.s.st = hHeader := collects_state (collects_iff.mpr ⟨r, hr, hsel⟩)
    have hsw := switch_recognised hrec
    have hall := matched_value (k := k.clearTrie) hinv (by rwa [Bool.not_eq_true'] at hint) hsel
    rw [← hsw] at hall
    rw [hpair] at hy
    refine ⟨by rw [← Option.some.inj hy], hst, ?_⟩
    cases h : switch k c with
    | next y =>
      rw [h] at hall
      exact hall.elim
    | halt l =>
      rw [h] at hall
      cases l with
      | brk k₁ =>
        rw [eq_advance_of_brk h hs]
        obtain ⟨h₁, h₂, h₃, h₄⟩ := hall
        exact ⟨h₁, h₂, ⟨h₃.est, h₃.collect⟩, h₄⟩
      | ret n k₁ =>
        rw [iterate_of_halt h] at hs
        cases hs
      | fault =>
        rw [iterate_of_halt h] at hs
        cases hs

/-- **The lines of a value**: they are read to their end, or a line break has put a space too many. -/
theorem feed_folding (hk : InHead k) (hv : Continues k) (h : Folding z k u) (hrange : ∀ y ∈ v ++ cs, InRange y)
    (h1 : ∀ y ∈ v, y ≠ -1) (hblank : ∀ s t, u ++ v = s ++ 10 :: t → ∃ b t', t = b :: t' ∧ isBlank b = true)
    (hf : feed iterate k (v ++ cs) = .halt (.ok k', rest)) :
    (∃ k₁, feed iterate k v = .next k₁ ∧ InHead k₁ ∧ Continues k₁ ∧ Folding z k₁ (u ++ v)) ∨
      Spaced z (u ++ v) k'.text.chars := by
  induction v generalizing k u with
  | nil =>
    rw [List.append_nil]
    exact .inl ⟨k, rfl, hk, hv, h⟩
  | cons c v ih =>
    have hc : InRange c := hrange c (by simp)
    have hrange' : ∀ y ∈ v ++ cs, InRange y := fun y hy => hrange y (List.mem_cons_of_mem _ hy)
    have hb : 10 ∈ u.getLast? → isBlank c = true := by
      intro h10
      obtain ⟨w, rfl⟩ := List.getLast?_eq_some_iff.mp h10
      obtain ⟨b, t', hbt, hb⟩ := hblank w (c :: v) (by rw [List.append_assoc]; rfl)
      rw [(List.cons.inj hbt).1]
      exact hb
    have hgo {k₂ : Frame} := @Folding.next _ k₂ _ _ _ hk hc hv h (h1 c List.mem_cons_self) hb
    have hmono : ∀ y, Spaced z u y → (∀ x : List Byte, x ++ [32] <+: y → x ++ [32] <+: k'.text.chars) →
        Spaced z (u ++ c :: v) k'.text.chars := by
      intro y hsp hy
      refine hsp.mono hy (fun s t hu => ⟨t ++ c :: v, by rw [hu, List.append_assoc]; rfl⟩) fun d hd => ?_
      exact List.mem_append_left _ hd
    rw [List.cons_append] at hf
    cases hs : iterate k c with
    | halt r =>
      rw [feed_cons_halt _ hs, Step.halt.injEq, Prod.mk.injEq] at hf
      rw [hf.1] at hs
      obtain ⟨hnext, -⟩ | hsp := hgo (.inr hs)
      · rw [hs] at hnext
        cases hnext
      · exact .inr (hmono _ hsp fun _ h => h)
    | next k₂ =>
      rw [feed_cons_next _ hs] at hf
      obtain ⟨-, hv₂, h₂⟩ | hsp := hgo (.inl hs)
      · rw [feed_cons_next v hs, List.append_cons]
        refine ih (hk.next hc hs).1 hv₂ h₂ hrange' (fun y hy => h1 y (List.mem_cons_of_mem _ hy)) ?_ hf
        rw [← List.append_cons]
        exact hblank
      · exact .inr (hmono _ hsp fun y hy => feed_space hrange' (hk.next hc hs).1 hy hf)

end

section

variable {t : Textint} {o : Uint} {u v w x : List Int} {c : Int} {y z : List Byte}

theorem inRange_chars {bs : List Byte} (h : c ∈ chars bs) : InRange c := by
  obtain ⟨b, -, rfl⟩ := List.mem_map.mp h
  have := BitVec.le_toInt b
  have := BitVec.toInt_lt (x := b)
  unfold InRange
  omega

theorem prefix_of_toBytes (hu : ∀ c ∈ u, InRange c) (hv : ∀ c ∈ v, InRange c) (h : toBytes u <+: toBytes v) : u <+: v := by
  induction u generalizing v with
  | nil => exact List.nil_prefix
  | cons a u ih =>
    obtain _ | ⟨b, v⟩ := v
    · have := h.length_le
      simp [toBytes] at this
    · simp only [toBytes, List.map_cons, List.cons_prefix_cons] at h
      rw [ofInt_inj (hu a List.mem_cons_self) (hv b List.mem_cons_self) h.1, List.cons_prefix_cons]
      exact ⟨rfl, ih (fun c hc => hu c (List.mem_cons_of_mem _ hc)) (fun c hc => hv c (List.mem_cons_of_mem _ hc)) h.2⟩

theorem prefix_drop (h : z ++ y <+: t.chars) (ho : z.length = o.toNat) : y <+: t.chars.drop o.toNat := by
  obtain ⟨x, hx⟩ := h
  rw [← hx, ← ho, List.append_assoc, List.drop_left]
  exact List.prefix_append _ _

theorem trimCr_subset (h : c ∈ trimCr x) : c ∈ x := by
  rw [trimCr] at h
  split_ifs at h
  · exact List.dropLast_subset x h
  · exact h

theorem mem_trimCr (h : c ∈ x) (hc : c ≠ 13) : c ∈ trimCr x := by
  rw [trimCr]
  split_ifs with hlast
  · obtain ⟨w, rfl⟩ := List.getLast?_eq_some_iff.mp hlast
    rw [List.dropLast_concat]
    exact (List.mem_append.mp h).resolve_right fun h => hc (List.mem_singleton.mp h)
  · exact h

theorem nul_not_mem (hw : ∀ c ∈ w, InRange c ∧ c ≠ 0) : 0 ∉ toBytes w := by
  intro h
  obtain ⟨c, hc, h0⟩ := List.mem_map.mp h
  obtain ⟨hr, hne⟩ := hw c hc
  exact hne (ofInt_inj hr (d := 0) (by unfold InRange; omega) h0)

variable (hx : ∀ c ∈ x, InRange c ∧ c ≠ 0)

include hx

theorem normalised_chars : ∀ c ∈ normalised (trimCr x), InRange c ∧ c ≠ 0 := by
  intro c hc
  obtain h | rfl := normalised_subset hc
  · exact hx c (trimCr_subset h)
  · exact ⟨by unfold InRange; omega, by decide⟩

theorem stringAt_of_begins (h : z ++ toBytes (normalised (trimCr x)) ++ [0] <+: t.chars) (ho : z.length = o.toNat) :
    StringAt t o (toBytes (normalised (trimCr x))) := by
  rw [List.append_assoc] at h
  exact ⟨prefix_drop h ho, nul_not_mem (normalised_chars hx)⟩

/-- The string does not end before the space that a line break has put. -/
theorem not_stringAt_spaced (h : Spaced z x t.chars) (ho : z.length = o.toNat) :
    ¬StringAt t o (toBytes (normalised (trimCr x))) := by
  rintro ⟨hat, -⟩
  obtain ⟨-, w, hw, hsub, hpre⟩ := h
  rw [List.append_assoc] at hpre
  have hchars : ∀ c ∈ w ++ [32], InRange c ∧ c ≠ 0 := by
    intro c hc
    obtain hc | hc := List.mem_append.mp hc
    · obtain h | rfl := hsub c hc
      · exact hx c h
      · exact ⟨by unfold InRange; omega, by decide⟩
    · rw [List.mem_singleton.mp hc]
      exact ⟨by unfold InRange; omega, by decide⟩
  have hspaced : toBytes (w ++ [32]) <+: t.chars.drop o.toNat := by
    rw [toBytes_concat]
    exact prefix_drop hpre ho
  obtain hle | hle := List.prefix_or_prefix_of_prefix hat hspaced
  · exact nul_not_mem hchars (hle.subset (by simp))
  · rw [List.prefix_concat_iff] at hle
    obtain heq | hle := hle
    · refine nul_not_mem hchars ?_
      rw [heq]
      simp
    · exact normalised_single hw _ (prefix_of_toBytes (fun c hc => (hchars c hc).1)
        (fun c hc => (normalised_chars hx c hc).1) hle)

omit hx in
/-- Nor where a later line has put a space over its NUL. -/
theorem not_stringAt_open (h : z ++ toBytes (normalised (trimCr x)) ++ [32] <+: t.chars) (ho : z.length = o.toNat) :
    ¬StringAt t o (toBytes (normalised (trimCr x))) := by
  rintro ⟨hat, -⟩
  rw [List.append_assoc] at h
  have hspace := prefix_drop h ho
  have hsame := List.prefix_of_prefix_length_le hat hspace (by simp)
  have heq := hsame.eq_of_length (by simp)
  have := List.append_cancel_left heq
  simp at this

end

/-! ## Values in single spaces -/

section

variable {k k' k₁ : Frame} {c : Int} {q v tail cs rest : List Int} {e : Bool} {y : Uint × Uint} {z : List Byte} {o : Uint}

theorem inRange_eof : ∀ c ∈ (if e then [hEof] else [] : List Int), InRange c := by
  intro c hc
  split_ifs at hc
  · rw [List.mem_singleton.mp hc]
    unfold InRange hEof
    omega
  · cases hc

theorem valueLines_last : 10 ∉ (valueLines q).getLast? := by
  intro h
  obtain ⟨w, hw⟩ := List.getLast?_eq_some_iff.mp h
  obtain ⟨b, v', hv, -⟩ := valueLines_blank hw
  cases hv

theorem valueLines_bytes (hcs : ∀ c ∈ cs, InRange c) (hk : InHead k) (ho : k.text.chars.length = o.toNat)
    (h : StringAt k'.text o (toBytes (normalised (rawValue q)))) (hf : feed iterate k cs = .halt (.ok k', rest)) :
    ∀ y ∈ valueLines q, y ≠ 0 ∧ y ≠ -1 := by
  obtain ⟨hat, hnul⟩ := h
  have hmem : ∀ y ∈ valueLines q, isLinear y = false → BitVec.ofInt 8 y ∈ toBytes (normalised (rawValue q)) := by
    intro y hy hlin
    apply List.mem_map_of_mem
    exact (mem_normalised hlin).mpr (mem_trimCr hy (not_linear hlin).2.2.1)
  have h255 : ∀ b ∈ k'.text.chars.drop o.toNat, b ≠ 255 := by
    refine feed_no255 hcs hk (fun b hb => ?_) hf
    rw [← ho, List.drop_length] at hb
    cases hb
  intro y hy
  constructor
  · rintro rfl
    exact hnul (hmem 0 hy rfl)
  · rintro rfl
    exact h255 255 (hat.subset (List.mem_append_left _ (hmem (-1) hy rfl))) rfl

/-- The characters behind the lines of a value: the string is done, or a line break has put a space too many. -/
theorem feed_valueEnd (hk : InHead k) (hv : Continues k) (h : Folding z k (valueLines q)) (hcs : ∀ c ∈ cs, InRange c)
    (hc : c = 10 ∨ c = -1) (hf : feed iterate k (c :: cs) = .halt (.ok k', rest)) :
    (Breaks (valueLines q) ∧ ((c = 10 → (iterate k c).Holds (fun k₁ => NulKept k₁ cs) fun _ => True) →
        z ++ toBytes (normalised (rawValue q)) ++ [0] <+: k'.text.chars) ∧
      (c = 10 → ¬(iterate k c).Holds (fun k₁ => NulKept k₁ cs) (fun _ => True) →
        z ++ toBytes (normalised (rawValue q)) ++ [32] <+: k'.text.chars)) ∨
      Spaced z (valueLines q) k'.text.chars := by
  have hrange : InRange c := by
    unfold InRange
    omega
  cases hs : iterate k c with
  | halt r =>
    rw [feed_cons_halt cs hs, Step.halt.injEq, Prod.mk.injEq] at hf
    obtain ⟨rfl, -⟩ := hf
    obtain ⟨hbreaks, hchars, -⟩ | hsp := h.last hk hv hc valueLines_last (.inr hs)
    · exact .inl ⟨hbreaks, fun _ => hchars ▸ List.prefix_refl _, fun _ hno => absurd trivial hno⟩
    · exact .inr hsp
  | next k₁ =>
    rw [feed_cons_next cs hs] at hf
    have hk₁ := (hk.next hrange hs).1
    obtain ⟨hbreaks, hchars, hst⟩ | hsp := h.last hk hv hc valueLines_last (.inl hs)
    · obtain rfl | rfl := hc
      · have hopen : ¬Open k₁ := by
          unfold Open
          rw [hst rfl]
          simp
        obtain ⟨hkept, hgone⟩ := feed_nul_iff hcs hk₁ hopen hchars hf
        exact .inl ⟨hbreaks, fun h => hkept (h rfl), fun _ => hgone⟩
      · exact absurd hs (iterate_eof k k₁)
    · exact .inr (hsp.mono (fun y hy => feed_space hcs hk₁ hy hf) (fun s t h => ⟨t, h⟩) fun _ h => h)

/-- **The string of a header** that is collected is its value in single spaces exactly if the value folds right. -/
theorem feed_folded_iff (hk : InHead k) (hnl : k.s.nl = 0) (hc : InRange c) (hq : ∀ y ∈ q, InRange y)
    (hy : storedPair k c = some y) (hs : iterate k c = .next k₁)
    (hf : feed iterate k₁ (q ++ if e then [hEof] else []) = .halt (.ok k', rest)) :
    StringAt k'.text y.2 (toBytes (normalised (rawValue q))) ↔ FoldsRight k c q e := by
  obtain ⟨hoff, -, hst₁, hnl₁, hv₁, hchars₁⟩ := iterate_storedPair hk.inv hy hs
  have ho : k.text.chars.length = y.2.toNat := by rw [hoff, length_chars]
  have hk₁ := (hk.next hc hs).1
  have hcs : ∀ c ∈ q ++ (if e then [hEof] else []), InRange c := fun c hc =>
    (List.mem_append.mp hc).elim (hq c) (inRange_eof c)
  rw [← and_iff_right_of_imp (a := ∀ y ∈ valueLines q, y ≠ 0 ∧ y ≠ -1)
    fun h => valueLines_bytes hcs hk₁ (hchars₁ ▸ ho) h hf]
  rw [← and_iff_right_of_imp (b := FoldsRight k c q e) FoldsRight.bytes]
  apply and_congr_right
  intro hbytes
  obtain ⟨tail, hsplit, htail⟩ := valueLines_append q
  have hx : ∀ c ∈ valueLines q, InRange c ∧ c ≠ 0 := by
    intro c hc
    refine ⟨hq c ?_, (hbytes c hc).1⟩
    rw [hsplit]
    exact List.mem_append_left _ hc
  have hspaced : Spaced k.text.chars (valueLines q) k'.text.chars →
      (StringAt k'.text y.2 (toBytes (normalised (rawValue q))) ↔ FoldsRight k c q e) := fun h =>
    iff_of_false (not_stringAt_spaced hx h ho) fun hright => h.1 hright.breaks
  have hstart : Folding k.text.chars k₁ [] := by
    refine .lead hst₁ (hnl₁.trans hnl) breaks_nil (fun y hy => (Option.not_mem_none y hy).elim) ?_
    rw [hchars₁]
    exact (List.append_nil _).symm
  rw [hsplit, List.append_assoc] at hcs hf
  obtain ⟨k₂, hf₂, hk₂, hv₂, h₂⟩ | hsp := feed_folding (u := []) hk₁ hv₁ hstart hcs (fun y hy => (hbytes y hy).2)
    (fun s t h => valueLines_blank h) hf
  swap
  · exact hspaced hsp
  rw [List.nil_append] at h₂
  rw [feed_append_next _ hf₂] at hf
  have hrange₂ : ∀ y ∈ tail ++ (if e then [hEof] else []), InRange y := fun y hy => hcs y (List.mem_append_right _ hy)
  obtain rfl | ⟨tail, rfl, -⟩ := htail
  · -- The file ends with the value.
    have he : e = true := by
      by_contra he
      rw [if_neg he] at hf
      cases hf
    rw [List.nil_append, if_pos he] at hf
    obtain ⟨hbreaks, hkept, -⟩ | hsp := feed_valueEnd hk₂ hv₂ h₂ (fun _ h => (List.not_mem_nil h).elim) (.inr rfl) hf
    · refine iff_of_true (stringAt_of_begins hx (hkept fun h => absurd h (by decide)) ho) ⟨hbytes, hbreaks, ?_⟩
      intro tail htail
      cases List.append_cancel_left (hsplit.symm.trans htail)
    · exact hspaced hsp
  · have hkept : (feed iterate k (c :: (valueLines q ++ [10]))).Holds
        (fun k' => NulKept k' (tail ++ if e then [hEof] else [])) (fun _ => True) ↔
        (iterate k₂ 10).Holds (fun k' => NulKept k' (tail ++ if e then [hEof] else [])) fun _ => True := by
      rw [feed_cons_next _ hs, feed_append_next _ hf₂]
      cases h : iterate k₂ 10 with
      | next k₃ => rw [feed_cons_next _ h]; rfl
      | halt r => rw [feed_cons_halt _ h]; rfl
    obtain ⟨hbreaks, hright, hwrong⟩ | hsp := feed_valueEnd hk₂ hv₂ h₂
      (fun y hy => hrange₂ y (List.mem_cons_of_mem _ hy)) (.inl rfl) hf
    · constructor
      · intro h
        refine ⟨hbytes, hbreaks, fun tail' htail' => ?_⟩
        cases List.append_cancel_left (hsplit.symm.trans htail')
        rw [hkept]
        by_contra hno
        exact not_stringAt_open (hwrong rfl hno) ho h
      · intro h
        exact stringAt_of_begins hx (hright fun _ => hkept.mp (h.kept tail hsplit)) ho
    · exact hspaced hsp

end

section

variable {rq rq₁ : MinuteHttpRq} {hmask : Uint} {rqs₁ : MinuteHttpRqs} {io io₁ : Iobuf} {text text₁ : Textint}
  {fs : List Refill} {e : Bool} {p q : List Int} {c : Int} {k : Frame} {y : Uint × Uint}
  (hsize : 4 ∣ text.size.toNat) (he : eofAtLast e io fs)
  (h : readSession rq (minuteHttpInit hmask io text).1 io (minuteHttpInit hmask io text).2 fs =
    .code 0 rq₁ rqs₁ io₁ text₁)
  (hcs : chars (shownBytes io io.read fs) = p ++ c :: q)
  (hp : feed iterate (startFrame rq (minuteHttpInit hmask io text).1 io (minuteHttpInit hmask io text).2) p = .next k)

include hsize he h hcs hp

theorem session_pair (hy : storedPair k c = some y) : y ∈ pairs text₁.integers := by
  have hleft := left_of_code h
  rw [initSession_left rq hmask text he] at hleft
  have hr₀ : Routed (startFrame rq (minuteHttpInit hmask io text).1 io (minuteHttpInit hmask io text).2) := rfl
  obtain ⟨hok, -⟩ := storeOk_start rq hmask io hsize
  rw [sessionChars, hcs, List.append_assoc, List.cons_append] at hleft
  obtain ⟨k', rest, hf, -, rfl⟩ := runLeft_ok hr₀ hleft
  rw [feed_pairs hr₀ hok (Nat.zero_le 1) hf]
  apply List.mem_append_right
  by_contra hno
  have hall := (forall_mem_outputs (P := fun x => x ≠ y)).mp (fun x hx hxy => hno (hxy ▸ hx)) p c _ k rfl hp
  exact hall y hy rfl

theorem session_string_iff (hy : storedPair k c = some y) :
    StringAt text₁ y.2 (toBytes (normalised (rawValue q))) ↔ FoldsRight k c q e := by
  have hleft := left_of_code h
  rw [initSession_left rq hmask text he] at hleft
  have hr₀ : Routed (startFrame rq (minuteHttpInit hmask io text).1 io (minuteHttpInit hmask io text).2) := rfl
  obtain ⟨hok, -⟩ := storeOk_start rq hmask io hsize
  have hbetween : Between [] (startFrame rq (minuteHttpInit hmask io text).1 io (minuteHttpInit hmask io text).2) :=
    fun c => ⟨rfl, rfl⟩
  have hrange : ∀ d ∈ p ++ c :: q, InRange d := fun d hd => inRange_chars (hcs ▸ hd)
  rw [sessionChars, hcs, List.append_assoc, List.cons_append] at hleft
  obtain ⟨k', rest, hf, -, rfl⟩ := runLeft_ok hr₀ hleft
  obtain ⟨hstore, hnl₁⟩ := feed_storeOk hr₀ hok (Nat.zero_le 1) hp
  have hcol := storedPair_collects hy
  have hst : k.s.st = hHeader := collects_state hcol
  have hinv : StoreInv k.text := by
    refine hstore.resolve_right fun h => ?_
    rw [hst] at h
    cases h.2
  have hk : InHead k := ⟨feed_routed hr₀ hp, by rw [hst]; rfl, hinv, hnl₁⟩
  have hmid := (feed_between hr₀ hbetween hp).2 c
  rw [Mid, hst] at hmid
  rw [feed_append_next _ hp] at hf
  cases hs : iterate k c with
  | halt r =>
    have hcollects := iterate_collects hnl₁ hcol
    rw [feed_cons_halt _ hs, Step.halt.injEq, Prod.mk.injEq] at hf
    rw [hs] at hcollects
    exact absurd hf.1 (hcollects k')
  | next k₁ =>
    rw [feed_cons_next _ hs] at hf
    exact feed_folded_iff hk hmid.1 (hrange c (by simp)) (fun d hd => hrange d (by simp [hd])) hy hs hf

end

/-- **Folded values**: of a head that is read with success, a header that is collected is stored, and its string is
the value in single spaces exactly if the value folds right. -/
theorem value_folded_iff {rq rq₁ : MinuteHttpRq} {hmask : Uint} {rqs₁ : MinuteHttpRqs} {io io₁ : Iobuf}
    {text text₁ : Textint} {fs : List Refill} {e : Bool} {p q : List Int} {c : Int} {k : Frame} {y : Uint × Uint}
    (hsize : 4 ∣ text.size.toNat) (he : eofAtLast e io fs)
    (h : readSession rq (minuteHttpInit hmask io text).1 io (minuteHttpInit hmask io text).2 fs =
      .code 0 rq₁ rqs₁ io₁ text₁)
    (hcs : chars (shownBytes io io.read fs) = p ++ c :: q)
    (hp : feed iterate (startFrame rq (minuteHttpInit hmask io text).1 io (minuteHttpInit hmask io text).2) p = .next k)
    (hy : storedPair k c = some y) :
    y ∈ pairs text₁.integers ∧
      (StringAt text₁ y.2 (toBytes (normalised (rawValue q))) ↔ FoldsRight k c q e) :=
  ⟨session_pair hsize he h hcs hp hy, session_string_iff hsize he h hcs hp hy⟩

/-- A value of two lines, with a blank behind it. -/
theorem value_folded_host :
    let io := Iobuf.holding 4096 (bytes "GET / HTTP/1.1\nHost: a\r\n \tb \nAccept:\n\n")
    let text := minuteTextintInit 64 fun _ => 0
    let init := minuteHttpInit (1 <<< HttpRequestHeader.host.code) io text
    ∃ rq₁ rqs₁ io₁ text₁ k y, minuteHttpRead .zero init.1 io init.2 = .code 0 rq₁ rqs₁ io₁ text₁ ∧
      feed iterate (startFrame .zero init.1 io init.2) (chars (bytes "GET / HTTP/1.1\nHost")) = .next k ∧
      y ∈ pairs text₁.integers ∧ StringAt text₁ y.2 (bytes "a b ") ∧
      FoldsRight k 58 (chars (bytes " a\r\n \tb \nAccept:\n\n")) false := by
  intro io text init
  have he : eofAtLast false io [] := by
    show Iobuf.eof _ = false
    decide +kernel
  obtain ⟨k, hk, hpair⟩ := Step.Holds.exists_next
    (x := feed iterate (startFrame .zero init.1 io init.2) (chars (bytes "GET / HTTP/1.1\nHost")))
    (P := fun k => storedPair k 58 = some (BitVec.ofNat 32 HttpRequestHeader.host.code, 3)) (by decide +kernel)
  obtain ⟨rq₁, rqs₁, io₁, text₁, h, hat⟩ := (ReadResult.succeeds_iff (P := fun _ _ _ t => StringAt t 3 (bytes "a b "))
    (r := minuteHttpRead .zero init.1 io init.2)).mp (by decide +kernel)
  have hnorm : toBytes (normalised (rawValue (chars (bytes " a\r\n \tb \nAccept:\n\n")))) = bytes "a b " := by
    decide +kernel
  have hread : readSession .zero init.1 io init.2 [] = .code 0 rq₁ rqs₁ io₁ text₁ := h
  have hiff := value_folded_iff (q := chars (bytes " a\r\n \tb \nAccept:\n\n")) (by decide) he hread
    (by decide +kernel) hk hpair
  rw [hnorm] at hiff
  exact ⟨rq₁, rqs₁, io₁, text₁, k, _, h, hk, hiff.1, hat, hiff.2.mp hat⟩

/-! ## All the values of a head -/

/-- The text has no space at its beginning, and no two of them together. -/
def SingleSpaced (v : List Byte) : Prop := ¬[32] <+: v ∧ ¬[32, 32] <:+: v

/-- The header that is collected on the `c` in `k`, if one is, is stored with the string `v`, in single spaces. -/
def StoredAs (t : Textint) (k : Frame) (c : Int) (v : List Byte) : Prop :=
  ∀ y ∈ storedPair k c, y ∈ pairs t.integers ∧ StringAt t y.2 v ∧ SingleSpaced v

instance SingleSpaced.decidable (v : List Byte) : Decidable (SingleSpaced v) :=
  inferInstanceAs (Decidable (¬_ ∧ ¬_))

instance StoredAs.decidable (t : Textint) (k : Frame) (c : Int) (v : List Byte) : Decidable (StoredAs t k c v) :=
  match h : storedPair k c with
  | none => .isTrue fun y hy => by rw [h] at hy; cases hy
  | some y => decidable_of_iff (y ∈ pairs t.integers ∧ StringAt t y.2 v ∧ SingleSpaced v) (by simp [StoredAs, h])

theorem singleSpaced_normalised {w : List Int} (hw : ∀ c ∈ w, InRange c) : SingleSpaced (toBytes (normalised w)) := by
  have hspace : ∀ c ∈ normalised w, BitVec.ofInt 8 c = 32 → c = 32 := by
    intro c hc h32
    have hrange : InRange c := (normalised_subset hc).elim (hw c) fun h => h ▸ (by unfold InRange; omega)
    exact ofInt_inj hrange (d := 32) (by unfold InRange; omega) h32
  constructor
  · rintro ⟨t, ht⟩
    obtain ⟨a, v, hv, ha, -⟩ := List.map_eq_cons_iff.mp ht.symm
    rw [hspace a (hv ▸ List.mem_cons_self) ha] at hv
    have hnil : AtSpace [] := fun y hy => (Option.not_mem_none y hy).elim
    exact normalised_single hnil w ⟨v, hv.symm⟩
  · rintro ⟨u, t, ht⟩
    rw [List.append_assoc] at ht
    obtain ⟨x, v, hx, -, hv⟩ := List.map_eq_append_iff.mp ht.symm
    obtain ⟨a, v, rfl, ha, hv⟩ := List.map_eq_cons_iff.mp hv
    obtain ⟨b, v, rfl, hb, -⟩ := List.map_eq_cons_iff.mp hv
    rw [hspace a (hx ▸ by simp) ha, hspace b (hx ▸ by simp) hb] at hx
    refine normalised_single (atSpace_concat.mpr rfl) w (w := x ++ [32]) ⟨v, ?_⟩
    rw [hx, List.append_assoc, List.append_assoc]
    rfl

theorem inRange_rawValue {q : List Int} (hq : ∀ c ∈ q, InRange c) : ∀ c ∈ rawValue q, InRange c := by
  intro c hc
  obtain ⟨rest, hsplit, -⟩ := valueLines_append q
  exact hq c (hsplit ▸ List.mem_append_left rest (trimCr_subset hc))

/-- **All the values of a head.** Of a head that is read with success, every header that is collected is stored with its
value in single spaces exactly if every value folds right. -/
theorem values_folded_iff {rq rq₁ : MinuteHttpRq} {hmask : Uint} {rqs₁ : MinuteHttpRqs} {io io₁ : Iobuf}
    {text text₁ : Textint} {fs : List Refill} {e : Bool} (hsize : 4 ∣ text.size.toNat) (he : eofAtLast e io fs)
    (h : readSession rq (minuteHttpInit hmask io text).1 io (minuteHttpInit hmask io text).2 fs =
      .code 0 rq₁ rqs₁ io₁ text₁) :
    (∀ p c q k, chars (shownBytes io io.read fs) = p ++ c :: q →
        feed iterate (startFrame rq (minuteHttpInit hmask io text).1 io (minuteHttpInit hmask io text).2) p = .next k →
        StoredAs text₁ k c (toBytes (normalised (rawValue q)))) ↔
      ∀ p c q k, chars (shownBytes io io.read fs) = p ++ c :: q →
        feed iterate (startFrame rq (minuteHttpInit hmask io text).1 io (minuteHttpInit hmask io text).2) p = .next k →
        collects k c = true → FoldsRight k c q e := by
  constructor
  · intro hall p c q k hcs hp hcol
    obtain ⟨y, hy⟩ := storedPair_of_collects hcol
    exact (session_string_iff hsize he h hcs hp hy).mp (hall p c q k hcs hp y hy).2.1
  · intro hall p c q k hcs hp y hy
    have hat := (session_string_iff hsize he h hcs hp hy).mpr (hall p c q k hcs hp (storedPair_collects hy))
    refine ⟨session_pair hsize he h hcs hp hy, hat, singleSpaced_normalised (inRange_rawValue fun d hd => ?_)⟩
    exact inRange_chars (hcs ▸ List.mem_append_right p (List.mem_cons_of_mem c hd))

/-- Two headers, one of two lines and the other with two spaces in it. -/
theorem values_folded_two :
    let io := Iobuf.holding 4096 (bytes "GET / HTTP/1.1\nHost: a\r\n \tb \nAccept: c  d\n\n")
    let text := minuteTextintInit 64 fun _ => 0
    let init := minuteHttpInit minuteAllHeaders io text
    ∃ rq₁ rqs₁ io₁ text₁, minuteHttpRead .zero init.1 io init.2 = .code 0 rq₁ rqs₁ io₁ text₁ ∧
      ∀ p c q k, chars (io.from io.read) = p ++ c :: q → feed iterate (startFrame .zero init.1 io init.2) p = .next k →
        collects k c = true → FoldsRight k c q false := by
  intro io text init
  have he : eofAtLast false io [] := by
    show Iobuf.eof _ = false
    decide +kernel
  obtain ⟨rq₁, rqs₁, io₁, text₁, h, hall⟩ := (ReadResult.succeeds_iff
    (P := fun _ _ _ t => EachStep iterate (fun p k c =>
      StoredAs t k c (toBytes (normalised (rawValue ((chars (io.from io.read)).drop (p.length + 1))))))
      (startFrame .zero init.1 io init.2) (chars (io.from io.read)))
    (r := minuteHttpRead .zero init.1 io init.2)).mp (by decide +kernel)
  have hread : readSession .zero init.1 io init.2 [] = .code 0 rq₁ rqs₁ io₁ text₁ := h
  refine ⟨rq₁, rqs₁, io₁, text₁, h, (values_folded_iff (by decide) he hread).mp fun p c q k hcs hp => ?_⟩
  have hcs' : chars (io.from io.read) = p ++ c :: q := hcs
  have hstored := hall p c q k hcs' hp
  have hbehind : (p ++ c :: q).drop (p.length + 1) = q := by
    rw [List.append_cons, List.drop_left' (by simp)]
  rwa [hcs', hbehind] at hstored

/-- A line with only a blank leaves two spaces in the string, and an empty first line one at its beginning. -/
theorem values_folded_spaces :
    let io := Iobuf.holding 4096 (bytes "GET / HTTP/1.1\nHost: a\n \n b\n\n")
    let io' := Iobuf.holding 4096 (bytes "GET / HTTP/1.1\nHost:\n a\n\n")
    let text := minuteTextintInit 64 fun _ => 0
    let init := minuteHttpInit minuteAllHeaders io text
    let init' := minuteHttpInit minuteAllHeaders io' text
    ((feed iterate (startFrame .zero init.1 io init.2) (chars (bytes "GET / HTTP/1.1\nHost"))).Holds
        (fun k => storedPair k 58 = some (BitVec.ofNat 32 HttpRequestHeader.host.code, 3)) (fun _ => False) ∧
      toBytes (normalised (rawValue (chars (bytes " a\n \n b\n\n")))) = bytes "a b" ∧
      (minuteHttpRead .zero init.1 io init.2).Succeeds fun _ _ _ t => StringAt t 3 (bytes "a  b")) ∧
    (feed iterate (startFrame .zero init'.1 io' init'.2) (chars (bytes "GET / HTTP/1.1\nHost"))).Holds
        (fun k => storedPair k 58 = some (BitVec.ofNat 32 HttpRequestHeader.host.code, 3)) (fun _ => False) ∧
      toBytes (normalised (rawValue (chars (bytes "\n a\n\n")))) = bytes "a" ∧
      (minuteHttpRead .zero init'.1 io' init'.2).Succeeds fun _ _ _ t => StringAt t 3 (bytes " a") := by
  decide +kernel

end MinuteHttp
