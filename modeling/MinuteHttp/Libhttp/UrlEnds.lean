import MinuteHttp.Libhttp.Length
import MinuteHttp.Libhttp.UrlText

/-!
# The path and the query are strings

Whoever handles a request takes `rq->path` and `rq->query` for C strings in the text buffer. In an accepted request
each of them has its NUL among the characters, whatever headers come behind (`url_terminated`).
-/

namespace MinuteHttp

open HttpRequestState Feed

/-- A string begins at `o`, behind the text's first character, and ends in the text. -/
def EndsAt (t : Textint) (o : Uint) : Prop := 1 ≤ o.toNat ∧ 0 ∈ t.chars.drop o.toNat

/-- There is a path, and a query behind it or none. -/
structure UrlEnds (rq : MinuteHttpRq) (t : Textint) : Prop where
  path : EndsAt t rq.path
  query : rq.query = 0 ∨ (rq.path.toNat < rq.query.toNat ∧ EndsAt t rq.query)

theorem EndsAt.mono {t t' : Textint} {o : Uint} (h : EndsAt t o) (ht : t.chars <+: t'.chars) : EndsAt t' o := by
  obtain ⟨w, hw⟩ := ht
  refine ⟨h.1, ?_⟩
  rw [← hw, List.drop_append]
  exact List.mem_append_left _ h.2

theorem UrlEnds.kept {k₀ k : Frame} (h : UrlEnds k₀.rq k₀.text) (hkept : UrlKept k₀ k) : UrlEnds k.rq k.text := by
  refine ⟨hkept.path ▸ h.path.mono hkept.text.chars, ?_⟩
  rw [hkept.path, hkept.query]
  exact h.query.imp_right fun hq => ⟨hq.1, hq.2.mono hkept.text.chars⟩

theorem EndsAt.of_putc {t t' : Textint} {o : Uint} (ht : TextintOk t) (hp : minuteTextintPutc 0 t = some t')
    (hpos : 1 ≤ o.toNat) (hle : o.toNat ≤ t.chars.length) : EndsAt t' o := by
  refine ⟨hpos, ?_⟩
  rw [(putc_spec ht hp).2.1, List.drop_append_of_le_length hle]
  exact List.mem_append_right _ (List.mem_singleton_self 0)

/-! ## In the URL -/

/-- The state to which an escape leads back. -/
def Frame.urlState (k : Frame) : HttpRequestState :=
  if k.s.st = hEscaped1 ∨ k.s.st = hEscaped2 then k.s.est else k.s.st

/-- The URL is still to come. -/
structure BeforeUrl (k : Frame) : Prop where
  ok : TextintOk k.text
  nl : k.s.nl = 0
  st : k.s.st = hInitial ∨ k.s.st = hMethod ∨ k.s.st = hMethodSp
  query : k.rq.query = 0

/-- What has been put of the URL's text. -/
inductive UrlSoFar (k : Frame) : Prop where
  | path (hst : k.urlState = hPath) (hpos : 1 ≤ k.rq.path.toNat) (hle : k.rq.path.toNat ≤ k.text.chars.length)
      (hquery : k.rq.query = 0) : UrlSoFar k
  | query (hst : k.urlState = hQuery) (hpath : EndsAt k.text k.rq.path) (hlt : k.rq.path.toNat < k.rq.query.toNat)
      (hle : k.rq.query.toNat ≤ k.text.chars.length) : UrlSoFar k

/-- The URL's text is being read, and no line has ended. -/
structure InUrl (k : Frame) : Prop where
  ok : TextintOk k.text
  nl : k.s.nl = 0
  url : UrlSoFar k

/-- The URL's text has just been read. -/
structure AtUrlEnd (k : Frame) : Prop where
  ok : TextintOk k.text
  nl : k.s.nl = 0
  st : k.s.st = hPathSp
  ends : UrlEnds k.rq k.text

section

variable {k k' : Frame} {t : Textint} {b : Byte}

theorem InUrl.grown (h : InUrl k) (hok : TextintOk k'.text) (hst : k'.urlState = k.urlState) (hrq : k'.rq = k.rq)
    (htext : k.text.chars <+: k'.text.chars) (hnl : k'.s.nl = k.s.nl) : InUrl k' := by
  refine ⟨hok, hnl.trans h.nl, ?_⟩
  cases h.url with
  | path hpath hpos hle hquery =>
    exact .path (hst.trans hpath) (hrq ▸ hpos) (hrq ▸ Nat.le_trans hle htext.length_le) (hrq ▸ hquery)
  | query hquery hpath hlt hle =>
    exact .query (hst.trans hquery) (hrq ▸ hpath.mono htext) (hrq ▸ hlt) (hrq ▸ Nat.le_trans hle htext.length_le)

theorem InUrl.ends (h : InUrl k) (ht : minuteTextintPutc 0 k.text = some t) : UrlEnds k.rq t := by
  cases h.url with
  | path hpath hpos hle hquery => exact ⟨.of_putc h.ok ht hpos hle, .inl hquery⟩
  | query hquery hpath hlt hle =>
    refine ⟨hpath.mono ?_, .inr ⟨hlt, .of_putc h.ok ht (by omega) hle⟩⟩
    rw [(putc_spec h.ok ht).2.1]
    exact List.prefix_append _ _

end

/-- How far the first line has come: past the URL, or to an error. -/
def UpToUrl (k : Frame) : Prop :=
  BeforeUrl k ∨ InUrl k ∨ k.s.st = hErrorBadRequest ∨ k.s.st = hErrorInternalServerError

theorem switch_upToUrl (k : Frame) (c : Int) (hk : Routed k) (h : UpToUrl k) :
    Pass.All (fun k' _ => UpToUrl k') (fun k' => BeforeUrl k' ∨ InUrl k' ∨ AtUrlEnd k') (fun _ _ => True) True
      (switch k c) := by
  obtain ⟨hok, hnl, hst, hquery⟩ | hin | h | h := h
  · have hbefore (k' : Frame) (htext : k'.text = k.text) (hnl' : k'.s.nl = k.s.nl)
        (hst : k'.s.st = hInitial ∨ k'.s.st = hMethod ∨ k'.s.st = hMethodSp) (hquery' : k'.rq.query = k.rq.query) :
        BeforeUrl k' := ⟨htext ▸ hok, hnl'.trans hnl, hst, hquery'.trans hquery⟩
    obtain hst | hst | hst := hst <;> simp only [switch, hst]
    · simp only [hInitialCase, all_ite, all_brk, all_reset]
      refine ⟨fun _ => .inl ⟨hok, hnl, .inl hst, hquery⟩, fun _ => .inl ?_⟩
      exact hbefore _ rfl rfl (.inr (.inl rfl)) rfl
    · simp only [hMethodCase, all_onWalk]
      refine ⟨fun _ => trivial, fun r t _ => ?_⟩
      simp only [all_ite, all_brk, all_reset]
      refine ⟨fun _ => .inl ?_, fun _ => ⟨fun _ => .inr (.inr (.inl rfl)), fun _ =>
        ⟨fun _ => .inl ?_, fun _ => .inr (.inr (.inr rfl))⟩⟩⟩
      · exact hbefore _ rfl rfl (.inr (.inr rfl)) rfl
      · exact hbefore _ rfl rfl (.inr (.inl hst)) rfl
    · simp only [hMethodSpCase, all_ite, all_brk, all_reset]
      refine ⟨fun _ => .inr (.inl ⟨hok, hnl, .path rfl hok.text_pos ?_ hquery⟩), fun _ => .inl ⟨hok, hnl, ?_, hquery⟩⟩
      · exact Nat.le_of_eq (length_chars k.text).symm
      · exact .inr (.inr hst)
  · have hput {b : Byte} {t : Textint} (ht : minuteTextintPutc b k.text = some t) (k' : Frame) (htext : k'.text = t)
        (hst : k'.urlState = k.urlState) (hrq : k'.rq = k.rq) (hnl : k'.s.nl = k.s.nl) : InUrl k' := by
      obtain ⟨hok, hchars, -⟩ := putc_spec hin.ok ht
      exact hin.grown (htext ▸ hok) hst hrq (by rw [htext, hchars]; exact List.prefix_append _ _) hnl
    have hsame (k' : Frame) (htext : k'.text = k.text) (hst : k'.urlState = k.urlState) (hrq : k'.rq = k.rq)
        (hnl : k'.s.nl = k.s.nl) : InUrl k' := hin.grown (htext ▸ hin.ok) hst hrq (htext ▸ List.prefix_refl _) hnl
    have hend {t : Textint} (ht : minuteTextintPutc 0 k.text = some t) (k' : Frame) (htext : k'.text = t)
        (hst : k'.s.st = hPathSp) (hrq : k'.rq = k.rq) (hnl : k'.s.nl = k.s.nl) : AtUrlEnd k' :=
      ⟨htext ▸ (putc_spec hin.ok ht).1, hnl.trans hin.nl, hst, by rw [htext, hrq]; exact hin.ends ht⟩
    have hstate (hplain : k.s.st ≠ hEscaped1 ∧ k.s.st ≠ hEscaped2) : k.urlState = k.s.st :=
      if_neg (not_or.mpr hplain)
    cases hst : k.s.st <;> simp only [switch, hst]
    case hPath =>
      have hurl : k.urlState = hPath := (hstate (by rw [hst]; decide)).trans hst
      simp only [hPathCase, all_ite, all_putcOr, all_brk, all_reset]
      refine ⟨fun _ => ⟨fun _ => trivial, fun t ht => .inr (.inl (hput ht _ rfl ?_ rfl rfl))⟩, fun _ =>
        ⟨fun _ => .inr (.inl (hsame _ rfl hurl.symm rfl rfl)), fun _ =>
        ⟨fun _ => ⟨fun _ => trivial, fun t ht => .inr (.inl ?_)⟩, fun _ =>
        ⟨fun _ => ⟨fun _ => trivial, fun t ht => .inr (.inr (hend ht _ rfl rfl rfl rfl))⟩, fun _ =>
          .inr (.inr (.inl rfl))⟩⟩⟩⟩
      · unfold Frame.urlState
        rw [mark_s]
      · -- the query begins behind the path's NUL
        obtain ⟨hok, hchars, -⟩ := putc_spec hin.ok ht
        have hpath := (hin.ends ht).path
        have hlt : k.rq.path.toNat < t.chars.length := by
          have hmem := List.length_pos_of_mem hpath.2
          rw [List.length_drop] at hmem
          omega
        refine ⟨hok, hin.nl, .query rfl hpath ?_ (Nat.le_of_eq (length_chars t).symm)⟩
        exact Nat.lt_of_lt_of_eq hlt (length_chars t)
    case hQuery =>
      have hurl : k.urlState = hQuery := (hstate (by rw [hst]; decide)).trans hst
      simp only [hQueryCase, all_ite, all_putcOr, all_brk, all_reset]
      refine ⟨fun _ => ⟨fun _ => trivial, fun t ht => .inr (.inl (hput ht _ rfl ?_ rfl rfl))⟩, fun _ =>
        ⟨fun _ => .inr (.inl (hsame _ rfl hurl.symm rfl rfl)), fun _ =>
        ⟨fun _ => ⟨fun _ => trivial, fun t ht => .inr (.inr (hend ht _ rfl rfl rfl rfl))⟩, fun _ =>
          .inr (.inr (.inl rfl))⟩⟩⟩
      unfold Frame.urlState
      rw [mark_s]
    case hEscaped1 =>
      have hurl : k.urlState = k.s.est := if_pos (.inl hst)
      simp only [hEscaped1Case, all_ite, all_brk, all_reset]
      exact ⟨fun _ => .inr (.inr (.inl rfl)), fun _ => .inr (.inl (hsame _ rfl hurl.symm rfl rfl))⟩
    case hEscaped2 =>
      have hurl : k.urlState = k.s.est := if_pos (.inr hst)
      have hest : k.s.est = hPath ∨ k.s.est = hQuery := by
        have hr : routed k.s.st k.s.est k.s.collect = true := hk
        rw [hst] at hr
        simp only [routed, Bool.and_eq_true, Bool.or_eq_true, beq_iff_eq] at hr
        exact hr.1
      simp only [hEscaped2Case, all_ite, all_putcOr, all_brk, all_reset]
      refine ⟨fun _ => .inr (.inr (.inl rfl)), fun _ => ⟨fun _ => trivial, fun t ht =>
        .inr (.inl (hput ht _ rfl ?_ rfl rfl))⟩⟩
      rw [hurl]
      obtain hest | hest := hest <;> rw [hest] <;> rfl
    all_goals
      have hurl := (hstate (by rw [hst]; decide)).trans hst
      obtain ⟨hpath, -⟩ | ⟨hquery, -⟩ := hin.url
      · cases hurl.symm.trans hpath
      · cases hurl.symm.trans hquery
  · simp only [switch, h]
    trivial
  · simp only [switch, h]
    trivial

/-! ## Runs -/

theorem iterate_upToUrl {k : Frame} (c : Int) (hk : Routed k) (h : BeforeUrl k ∨ InUrl k) :
    (iterate k c).Holds (fun k' => BeforeUrl k' ∨ InUrl k' ∨ AtUrlEnd k') fun r => ∀ k', r ≠ .ok k' := by
  have hi := iterate_inv (N := fun k' _ => Routed k' ∧ UpToUrl k')
    (B := fun k' => BeforeUrl k' ∨ InUrl k' ∨ AtUrlEnd k') (R := fun _ _ => True) (F := True)
    (fun k₁ c₁ h₁ => ?_) (c := c) ⟨hk, h.imp_right .inl⟩
  · cases hs : iterate k c with
    | next k' =>
      rw [hs] at hi
      obtain ⟨k₁, h₁, -, rfl⟩ := hi
      obtain ⟨h₁, h₂, h₃, h₄⟩ | ⟨h₁, h₂, h₃⟩ | ⟨h₁, h₂, h₃, h₄⟩ := h₁
      · exact .inl ⟨h₁, h₂, h₃, h₄⟩
      · exact .inr (.inl ((⟨h₁, h₂, h₃⟩ : InUrl k₁).grown h₁ rfl rfl (List.prefix_refl _) rfl))
      · exact .inr (.inr ⟨h₁, h₂, h₃, h₄⟩)
    | halt r =>
      rw [hs] at hi
      rintro k' rfl
      obtain ⟨k₁, h₁, hnl, -⟩ := hi
      have hzero : k₁.s.nl = 0 := by
        obtain h₁ | h₁ | h₁ := h₁ <;> exact h₁.nl
      omega
  · exact ((switch_routed k₁ c₁ h₁.1).and (switch_upToUrl k₁ c₁ h₁.1 h₁.2)).imp (fun _ _ h => ⟨h.1.1, h.2⟩)
      (fun _ h => h.2) (fun _ _ h => h.2) fun _ => trivial

/-- The URL is read before anything that could change it. -/
theorem feed_urlEnds {k k' : Frame} {cs rest : List Int} (hk : Routed k) (h : BeforeUrl k ∨ InUrl k)
    (hf : feed iterate k cs = .halt (.ok k', rest)) : UrlEnds k'.rq k'.text := by
  induction cs generalizing k with
  | nil => cases hf
  | cons c cs ih =>
    have hi := iterate_upToUrl c hk h
    rw [feed_cons] at hf
    cases hs : iterate k c with
    | next k₁ =>
      rw [hs] at hi hf
      have hr := iterate_routed hk hs
      obtain hbefore | hin | hend := hi
      · exact ih hr (.inl hbefore) hf
      · exact ih hr (.inr hin) hf
      · have hcollect : ¬k₁.s.collect = true := by
          intro hc
          rw [Routed, hend.st, hc] at hr
          cases hr
        have hb : BehindUrl k₁ k₁ :=
          ⟨⟨rfl, rfl, TextKept.refl _⟩, hend.ok, by rw [hend.st]; rfl, fun hc => absurd hc hcollect⟩
        have hrun := feed_behind cs hr hb
        have hf : feed iterate k₁ cs = .halt (.ok k', rest) := hf
        rw [hf] at hrun
        exact hend.ends.kept hrun
    | halt r =>
      rw [hs] at hi hf
      cases hf
      exact absurd rfl (hi k')

theorem beforeUrl_start (hmask : Uint) (io : Iobuf) {rq : MinuteHttpRq} {text : Textint} (hquery : rq.query = 0)
    (hpos : 1 ≤ text.size.toNat) (hsize : 4 ∣ text.size.toNat) :
    BeforeUrl (startFrame rq (minuteHttpInit hmask io text).1 io (minuteHttpInit hmask io text).2) :=
  ⟨⟨Nat.le_refl 1, hpos, Nat.le_refl _, hsize, hsize⟩, rfl, .inl rfl, hquery⟩

/-- **The strings of the URL end**: in every accepted request, whatever pieces it comes in and whatever headers are
kept, there is a path, and what begins at `rq->path` and at `rq->query` ends in the text. -/
theorem url_terminated {rq rq₁ : MinuteHttpRq} {hmask : Uint} {io io₁ : Iobuf} {text text₁ : Textint}
    {fs : List Refill} {e : Bool} {rqs₁ : MinuteHttpRqs} (hquery : rq.query = 0) (hpos : 1 ≤ text.size.toNat)
    (hsize : 4 ∣ text.size.toNat) (he : eofAtLast e io fs)
    (h : readSession rq (minuteHttpInit hmask io text).1 io (minuteHttpInit hmask io text).2 fs =
      .code 0 rq₁ rqs₁ io₁ text₁) :
    UrlEnds rq₁ text₁ := by
  have hleft := left_of_code h
  rw [initSession_left rq hmask text he] at hleft
  have hr : Routed (startFrame rq (minuteHttpInit hmask io text).1 io (minuteHttpInit hmask io text).2) := rfl
  obtain ⟨k', rest, hf, rfl, rfl⟩ := runLeft_ok hr hleft
  exact feed_urlEnds hr (.inl (beforeUrl_start hmask io hquery hpos hsize)) hf

/-- The fold takes the NUL of a header. The buffer is full of `A`s. -/
theorem url_terminated_folded :
    let io := Iobuf.holding 4096 (bytes "GET /a?%62 HTTP/1.1\nHost: a\nConnection: close\n foo\n\n")
    let text := minuteTextintInit 64 fun _ => 65
    let init := minuteHttpInit minuteAllHeaders io text
    (readSession .zero init.1 io init.2 []).Succeeds fun rq _ _ text =>
      rq.path = 1 ∧ rq.query = 4 ∧ UrlEnds rq text := by
  intro io text init
  obtain ⟨rq₁, rqs₁, io₁, text₁, h, hv⟩ := (ReadResult.succeeds_iff
    (P := fun rq _ _ _ => rq.path = 1 ∧ rq.query = 4)
    (r := readSession .zero init.1 io init.2 [])).mp (by decide +kernel)
  have he : eofAtLast false io [] := by
    show Iobuf.eof _ = false
    decide
  rw [h]
  exact ⟨rfl, hv.1, hv.2, url_terminated rfl (by decide) (by decide) he h⟩

end MinuteHttp
