import MinuteHttp.Libhttp.Store

/-!
# What is stored stays stored

BehindUrl the space that ends the URL nothing writes `rq->path` or `rq->query`, and the text buffer only
grows: its characters and its integers are appended to. The one exception is a continuation line, which
writes over the last character (`h_cont`); the collect flag under which it does so is set by a header
that is collected, and before a line of that header can end, a NUL has been put behind what was stored
(`BehindUrl`). `url_text_kept` says this of requests and of trailers, whatever pieces they come in.
-/

namespace MinuteHttp

open HttpRequestState Feed

/-- What `t₀` stores is where it was in `t`. -/
structure TextKept (t₀ t : Textint) : Prop where
  chars : t₀.chars <+: t.chars
  integers : t₀.integers <+: t.integers

theorem TextKept.refl (t : Textint) : TextKept t t := ⟨List.prefix_refl _, List.prefix_refl _⟩

/-- Room has been taken behind what `t₀` stores, so that the last character is not its own. -/
def Outgrown (t₀ t : Textint) : Prop := t₀.chars <+: t.chars.dropLast

section
variable {t₀ t t' t'' : Textint}

theorem TextKept.putc {c : Byte} (h : TextKept t₀ t) (ht : TextintOk t)
    (hp : minuteTextintPutc c t = some t') : TextintOk t' ∧ TextKept t₀ t' ∧ Outgrown t₀ t' := by
  obtain ⟨hok, hc, hi⟩ := putc_spec ht hp
  refine ⟨hok, ⟨?_, ?_⟩, ?_⟩
  · rw [hc]
    exact h.chars.trans (List.prefix_append _ _)
  · rw [hi]
    exact h.integers
  · unfold Outgrown
    rw [hc, List.dropLast_concat]
    exact h.chars

theorem TextKept.puti {i : Uint} (h : TextKept t₀ t) (ht : TextintOk t)
    (hp : minuteTextintPuti i t = some t') : TextintOk t' ∧ TextKept t₀ t' := by
  obtain ⟨hok, hc, hi⟩ := puti_spec ht hp
  refine ⟨hok, ?_, ?_⟩
  · rw [hc]
    exact h.chars
  · rw [hi]
    exact h.integers.trans (List.prefix_append _ _)

theorem TextKept.replacec {c : Byte} (h : TextKept t₀ t) (ht : TextintOk t) (hg : Outgrown t₀ t) :
    TextintOk (minuteTextintReplacec (-1) c t) ∧ TextKept t₀ (minuteTextintReplacec (-1) c t) ∧
      Outgrown t₀ (minuteTextintReplacec (-1) c t) := by
  obtain ⟨hok, hc, hi⟩ := replacec_spec c ht
  refine ⟨hok, ⟨?_, ?_⟩, ?_⟩
  · rw [hc]
    exact hg.trans (List.prefix_append _ _)
  · rw [hi]
    exact h.integers
  · unfold Outgrown
    rw [hc, List.dropLast_concat]
    exact hg

end

/-- The states up to the space that ends the URL. -/
def HttpRequestState.upToUrl : HttpRequestState → Bool
  | hInitial | hMethod | hMethodSp | hPath | hQuery | hEscaped1 | hEscaped2 => true
  | _ => false

/-- The URL and what is stored are as in `k₀`. -/
structure UrlKept (k₀ k : Frame) : Prop where
  path : k.rq.path = k₀.rq.path
  query : k.rq.query = k₀.rq.query
  text : TextKept k₀.text k.text

/-- A frame behind the URL that has come from `k₀`. Where the collect flag is set, a header has been
stored since; while its value is being read, the character to be written over is still to come. -/
structure BehindUrl (k₀ k : Frame) : Prop where
  kept : UrlKept k₀ k
  ok : TextintOk k.text
  late : k.s.st.upToUrl = false
  stored : k.s.collect = true → Open k ∨ Outgrown k₀.text k.text

theorem isValue_late {x : HttpRequestState} (h : x.isValue = true) : x.upToUrl = false := by
  cases x <;> first | rfl | cases h

theorem switch_url_kept (k₀ k : Frame) (c : Int) (hk : Routed k) (h : BehindUrl k₀ k) :
    Pass.All (fun k' _ => BehindUrl k₀ k') (BehindUrl k₀) (fun _ => UrlKept k₀) True (switch k c) := by
  obtain ⟨⟨hpath, hquery, hkept⟩, hok, hlate, hstored⟩ := h
  have hput : ∀ b t, minuteTextintPutc b k.text = some t →
      TextintOk t ∧ TextKept k₀.text t ∧ Outgrown k₀.text t := fun b t ht => hkept.putc hok ht
  -- a pass that leaves the text and the URL alone
  have hsame : ∀ k' : Frame, k'.rq.path = k.rq.path → k'.rq.query = k.rq.query → k'.text = k.text →
      k'.s.st.upToUrl = false → (k'.s.collect = true → Open k' ∨ Outgrown k₀.text k.text) →
      BehindUrl k₀ k' := by
    intro k' h₁ h₂ h₃ h₄ h₅
    exact ⟨⟨h₁.trans hpath, h₂.trans hquery, h₃ ▸ hkept⟩, h₃ ▸ hok, h₄, h₃ ▸ h₅⟩
  cases hst : k.s.st <;> simp only [switch, hst]
  case hInitial | hMethod | hMethodSp | hPath | hQuery | hEscaped1 | hEscaped2 =>
    rw [hst] at hlate
    cases hlate
  case hValueLead =>
    have hval : k.s.est.isValue = true := by simpa [Routed, hst, routed] using hk
    simp only [hValueLeadCase, all_ite, all_reset, all_brk]
    refine ⟨fun _ => hsame _ rfl rfl rfl (isValue_late hval) fun hc => ?_, fun _ =>
      hsame _ rfl rfl rfl hlate hstored⟩
    refine (hstored hc).imp_left fun ho => ?_
    have hest : k.s.est = hValue := by
      rcases ho with ho | ho
      · rw [hst] at ho
        cases ho
      · exact ho.2
    exact .inl hest
  case hCont =>
    simp only [hContCase, all_ite, all_reset]
    refine ⟨fun hc => ?_, fun hc => hsame _ rfl rfl rfl rfl fun h => absurd h hc⟩
    have hgrown : Outgrown k₀.text k.text := by
      rcases hstored hc with ho | hg
      · rcases ho with ho | ho
        · rw [hst] at ho
          cases ho
        · rw [hst] at ho
          cases ho.1
      · exact hg
    obtain ⟨hok', hkept', hgrown'⟩ := hkept.replacec hok hgrown (c := 32)
    exact ⟨⟨hpath, hquery, hkept'⟩, hok', rfl, fun _ => .inr hgrown'⟩
  case hValue =>
    have hafter : ∀ b k', minuteTextintPutc b k.text = some k'.text → k'.rq = k.rq →
        k'.s.st.upToUrl = false → BehindUrl k₀ k' := by
      intro b k' ht hrq hl
      obtain ⟨hok', hkept', hgrown'⟩ := hput b _ ht
      exact ⟨⟨by rw [hrq]; exact hpath, by rw [hrq]; exact hquery, hkept'⟩, hok', hl,
        fun _ => .inr hgrown'⟩
    simp only [hValueCase, all_ite, all_putcOr, all_brk]
    have hret : ∀ k' : Frame, k'.rq = k.rq → k'.text = k.text → UrlKept k₀ k' := by
      intro k' h₁ h₂
      exact ⟨by rw [h₁]; exact hpath, by rw [h₁]; exact hquery, h₂ ▸ hkept⟩
    refine ⟨fun _ => ⟨fun _ => hret _ rfl rfl, fun t ht => hafter 0 _ ht rfl rfl⟩, fun _ =>
      ⟨fun _ => ⟨fun _ => hret _ rfl rfl, fun t ht => hafter 0 _ ht rfl rfl⟩, fun _ =>
      ⟨fun _ => ⟨fun _ => hret _ rfl rfl, fun t ht => hafter 0 _ ht rfl hlate⟩, fun _ =>
      ⟨fun _ => ⟨fun _ => hret _ rfl rfl, fun t ht => hafter 32 _ ht rfl rfl⟩, fun _ =>
        ⟨fun _ => hret _ rfl rfl, fun t ht => hafter _ _ ht rfl hlate⟩⟩⟩⟩⟩
  case hHeader =>
    have hclosed : k.s.collect = true → Outgrown k₀.text k.text := by
      intro hc
      refine (hstored hc).resolve_left ?_
      simp [Open, hst]
    simp only [hHeaderCase, all_onWalk]
    refine ⟨fun _ => trivial, fun r t _ => ?_⟩
    simp only [all_ite, all_reset, all_brk]
    refine ⟨fun _ => hsame _ rfl rfl rfl rfl fun hc => .inr (hclosed hc), fun _ =>
      ⟨fun _ => ?_, fun _ => hsame _ (by simp) (by simp) (by simp) (by simp [hst, upToUrl]) fun hc =>
        .inr (hclosed (by simpa using hc))⟩⟩
    simp only [hHeaderMatched, all_ite, all_brk, all_putiOr]
    have hlead : ∀ k' : Frame, k'.rq = k.rq → k'.text = k.text → k'.s.st = hValueLead →
        k'.s.collect = k.s.collect → BehindUrl k₀ k' := by
      intro k' h₁ h₂ h₃ h₄
      refine hsame k' (by rw [h₁]) (by rw [h₁]) h₂ (by rw [h₃]; rfl) fun hc => ?_
      rw [h₄] at hc
      exact .inr (hclosed hc)
    refine ⟨fun _ => hlead _ (by simp) (by simp) (by simp) (by simp), fun _ =>
      ⟨fun _ => hlead _ (by simp) (by simp) (by simp) (by simp), fun _ =>
      ⟨fun _ => hlead _ (by simp) (by simp) (by simp) (by simp), fun _ =>
      ⟨fun _ => hlead _ (by simp) (by simp) (by simp) (by simp), fun _ =>
      ⟨fun _ => ⟨fun _ => ⟨hpath, hquery, hkept⟩, fun t₁ ht₁ => ?_⟩, fun _ => ?_⟩⟩⟩⟩⟩
    · -- the pair of a header that is collected
      obtain ⟨hok₁, hkept₁⟩ := hkept.puti hok ht₁
      refine ⟨fun _ => ⟨hpath, hquery, hkept₁⟩, fun t₂ ht₂ => ?_⟩
      obtain ⟨hok₂, hkept₂⟩ := hkept₁.puti hok₁ ht₂
      refine ⟨⟨by simpa using hpath, by simpa using hquery, by simpa using hkept₂⟩, by simpa using hok₂,
        by simp [upToUrl], fun _ => .inl (.inr ?_)⟩
      simp
    · refine hsame _ (by simp) (by simp) (by simp) (by simp [upToUrl]) fun hc => ?_
      simp at hc
  all_goals
    have hclosed : k.s.collect = true → Outgrown k₀.text k.text := by
      intro hc
      refine (hstored hc).resolve_left ?_
      simp [Open, hst]
    have hgo : ∀ k' : Frame, k'.rq.path = k.rq.path → k'.rq.query = k.rq.query → k'.text = k.text →
        k'.s.st.upToUrl = false → k'.s.collect = k.s.collect → BehindUrl k₀ k' := by
      intro k' h₁ h₂ h₃ h₄ h₅
      exact hsame k' h₁ h₂ h₃ h₄ fun hc => .inr (hclosed (h₅ ▸ hc))
    dsimp only [hPathSpCase, hProtCase, hProtSlashCase, hProtHttpXCase, hProtHttpXDotCase,
      hProtHttpXXCase, hCrCase, hNlCase, hHeadConnectionCase, hHeadExpectCase,
      hHeadTransferEncodingCase, hHeadFlagInitial, hHeadContentLengthCase, hHeadFlagCase,
      hSkiplineCase, hErrorCase]
    simp only [all_ite, all_onWalk, all_brk, all_reset, all_ret]
    grind [upToUrl, shift_s, shift_text, shift_rq, mark_s, mark_text, mark_rq, setNl_s, setNl_text,
      setNl_rq, clearTrie_s, clearTrie_text, clearTrie_rq, UrlKept]

/-! ## Runs -/

/-- A return leaves the URL and what is stored as they were. -/
def HaltKept (k₀ : Frame) : Halt → Prop
  | .ok k => UrlKept k₀ k
  | .ret _ k => UrlKept k₀ k
  | .fault => True
  | .spin => True

theorem iterate_behind {k₀ k : Frame} (c : Int) (hk : Routed k) (h : BehindUrl k₀ k) :
    (iterate k c).Holds (BehindUrl k₀) (HaltKept k₀) := by
  have hi := iterate_inv (N := fun k' _ => Routed k' ∧ BehindUrl k₀ k') (B := BehindUrl k₀)
    (R := fun _ => UrlKept k₀) (F := True) (fun k₁ c₁ h₁ => ?_) (c := c) ⟨hk, h⟩
  · cases hs : iterate k c with
    | next k' =>
      rw [hs] at hi
      obtain ⟨k₁, ⟨⟨h₁, h₂, h₃⟩, h₄, h₅, h₆⟩, -, rfl⟩ := hi
      exact ⟨⟨h₁, h₂, h₃⟩, h₄, h₅, h₆⟩
    | halt r =>
      rw [hs] at hi
      cases r with
      | ok k' =>
        obtain ⟨k₁, ⟨⟨h₁, h₂, h₃⟩, -⟩, -, rfl⟩ := hi
        exact ⟨h₁, h₂, h₃⟩
      | ret n k' => exact hi
      | fault => trivial
      | spin => trivial
  · obtain ⟨hr, hb⟩ := h₁
    exact ((switch_routed k₁ c₁ hr).and (switch_url_kept k₀ k₁ c₁ hr hb)).imp (fun _ _ h => ⟨h.1.1, h.2⟩)
      (fun _ h => h.2) (fun _ _ h => h.2) fun _ => trivial

theorem feed_behind {k₀ k : Frame} (cs : List Int) (hk : Routed k) (h : BehindUrl k₀ k) :
    (feed iterate k cs).Holds (BehindUrl k₀) fun r => HaltKept k₀ r.1 := by
  induction cs generalizing k with
  | nil => exact h
  | cons c cs ih =>
    have hi := iterate_behind c hk h
    rw [feed_cons]
    cases hs : iterate k c with
    | next k' =>
      rw [hs] at hi
      exact ih (iterate_routed hk hs) hi
    | halt r =>
      rw [hs] at hi
      exact hi

theorem runLeft_behind {k₀ k : Frame} {cs : List Int} {n : Nat} {rq' : MinuteHttpRq} {text' : Textint}
    (hk : Routed k) (h : BehindUrl k₀ k) (hl : runLeft (feed iterate k cs) = some (n, rq', text')) :
    rq'.path = k₀.rq.path ∧ rq'.query = k₀.rq.query ∧ TextKept k₀.text text' := by
  have hrun := feed_behind cs hk h
  have hkept : ∀ k', UrlKept k₀ k' → k'.rq = rq' → k'.text = text' →
      rq'.path = k₀.rq.path ∧ rq'.query = k₀.rq.query ∧ TextKept k₀.text text' := by
    rintro k' ⟨h₁, h₂, h₃⟩ rfl rfl
    exact ⟨h₁, h₂, h₃⟩
  cases hf : feed iterate k cs with
  | next k' =>
    rw [hf] at hrun hl
    simp only [runLeft, Option.some.injEq, Prod.mk.injEq] at hl
    exact hkept k' hrun.kept hl.2.1 hl.2.2
  | halt r =>
    obtain ⟨r, rest⟩ := r
    rw [hf] at hrun hl
    cases r with
    | ok k' =>
      simp only [runLeft, Option.some.injEq, Prod.mk.injEq] at hl
      exact hkept k' hrun hl.2.1 hl.2.2
    | ret m k' =>
      simp only [runLeft, Option.some.injEq, Prod.mk.injEq] at hl
      exact hkept k' hrun hl.2.1 hl.2.2
    | fault => cases hl
    | spin => cases hl

/-- Where the space behind the URL has been read, the buffer has room and no header is collected. -/
theorem behindUrl_pathSp {k₀ k : Frame} {p : List Int} (hk : Routed k₀) (hok : StoreOk k₀)
    (hnl : k₀.s.nl ≤ 1) (hf : feed iterate k₀ p = .next k) (hst : k.s.st = hPathSp) : BehindUrl k k := by
  have hr := feed_routed hk hf
  obtain ⟨hinv | ⟨-, hearly⟩, -⟩ := feed_storeOk hk hok hnl hf
  · refine ⟨⟨rfl, rfl, TextKept.refl _⟩, hinv.ok, by rw [hst]; rfl, fun hc => ?_⟩
    rw [Routed, hst, hc] at hr
    cases hr
  · rw [hst] at hearly
    cases hearly

/-- **The URL and its text are kept.** From where the space behind the URL has been read, no turn of a
session, whatever pieces its bytes come in, changes `rq->path`, `rq->query` or a character stored so
far; and reading trailers changes no character and no integer that was stored before. The text buffer
is aligned, as `minute_textint_init` asks of its caller. -/
theorem url_text_kept (hmask : Uint) (rq : MinuteHttpRq) (io : Iobuf) (text : Textint) (fs : List Refill)
    (e : Bool) (he : eofAtLast e io fs) :
    (4 ∣ text.size.toNat → ∀ p q k, sessionChars io io.read fs e = p ++ q →
      feed iterate (startFrame rq (minuteHttpInit hmask io text).1 io (minuteHttpInit hmask io text).2) p =
        .next k →
      k.s.st = hPathSp →
        (∀ p' q' k', q = p' ++ q' → feed iterate k p' = .next k' → UrlKept k k') ∧
        ∀ n rq' rqs' io' text', readSession rq (minuteHttpInit hmask io text).1 io
            (minuteHttpInit hmask io text).2 fs = .code n rq' rqs' io' text' →
          rq'.path = k.rq.path ∧ rq'.query = k.rq.query ∧ TextKept k.text text') ∧
    (TextintOk text → ∀ n rq' rqs' io' text',
      readSession rq (minuteHttpInitTrailers hmask io) io text fs = .code n rq' rqs' io' text' →
        rq'.path = rq.path ∧ rq'.query = rq.query ∧ TextKept text text') := by
  constructor
  · intro hsize p q k hw hf hst
    set k₀ := startFrame rq (minuteHttpInit hmask io text).1 io (minuteHttpInit hmask io text).2 with hk₀
    have hr₀ : Routed k₀ := rfl
    have hok := (storeOk_start rq hmask io hsize).1
    have hb := behindUrl_pathSp hr₀ hok (Nat.zero_le 1) hf hst
    have hr := feed_routed hr₀ hf
    constructor
    · intro p' q' k' _ hf'
      have hrun := feed_behind p' hr hb
      rw [hf'] at hrun
      exact hrun.kept
    · intro n rq' rqs' io' text' hcode
      have hleft := left_of_code hcode
      rw [initSession_left rq hmask text he, hw, ← hk₀, feed_append_next q hf] at hleft
      exact runLeft_behind hr hb hleft
  · intro hok n rq' rqs' io' text' hcode
    set k₀ := startFrame rq (minuteHttpInitTrailers hmask io) io text with hk₀
    have hr₀ : Routed k₀ := rfl
    have hb : BehindUrl k₀ k₀ := ⟨⟨rfl, rfl, TextKept.refl _⟩, hok, rfl, fun hc => by cases hc⟩
    have hleft := left_of_code hcode
    rw [trailersSession_left rq hmask text he] at hleft
    exact runLeft_behind hr₀ hb hleft

/-- A folded header behind the URL, in two pieces; the same bytes read as trailers. -/
theorem url_text_kept_folded :
    let io := Iobuf.holding 4096 (bytes "GET /a?b HTTP/1.1\nHost: c\n")
    let whole := Iobuf.holding 4096 (bytes "GET /a?b HTTP/1.1\nHost: c\n d\n\n")
    let text := (minuteHttpInit minuteAllHeaders io (minuteTextintInit 64 fun _ => 0)).2
    let init := minuteHttpInit minuteAllHeaders io text
    let fs : List Refill := [⟨whole.data, whole.write, 0⟩]
    (∃ k, feed iterate (startFrame .zero init.1 io init.2) (chars (bytes "GET /a?b ")) = .next k ∧
      k.text.chars = [0, 47, 97, 0, 98, 0] ∧
      ∀ n rq' rqs' io' text', readSession .zero init.1 io init.2 fs = .code n rq' rqs' io' text' →
        rq'.path = k.rq.path ∧ rq'.query = k.rq.query ∧ TextKept k.text text') ∧
    ∀ n rq' rqs' io' text', readSession .zero (minuteHttpInitTrailers minuteAllHeaders io) io text fs =
      .code n rq' rqs' io' text' → rq'.path = 0 ∧ rq'.query = 0 ∧ TextKept text text' := by
  intro io whole text init fs
  have he : eofAtLast false io fs := by
    refine ⟨by decide +kernel, ?_⟩
    show Iobuf.eof _ = false
    decide +kernel
  have hkept := url_text_kept minuteAllHeaders .zero io text fs false he
  constructor
  · obtain ⟨k, hf, hst, hchars⟩ := Step.Holds.exists_next
      (P := fun k : Frame => k.s.st = hPathSp ∧ k.text.chars = [0, 47, 97, 0, 98, 0])
      (x := feed iterate (startFrame .zero init.1 io init.2) (chars (bytes "GET /a?b "))) (by decide +kernel)
    have hsplit : sessionChars io io.read fs false =
        chars (bytes "GET /a?b ") ++ chars (bytes "HTTP/1.1\nHost: c\n d\n\n") := by decide +kernel
    exact ⟨k, hf, hchars, (hkept.1 (by decide) _ _ k hsplit hf hst).2⟩
  · exact hkept.2 ⟨by decide, by decide, by decide, by decide, by decide⟩

end MinuteHttp
