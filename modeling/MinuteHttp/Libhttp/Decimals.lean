import MinuteHttp.Libhttp.Length
import MinuteHttp.Libhttp.RequestLine
import MinuteHttp.Libhttp.HeaderLine

/-!
# The decimal numbers of a request

The parser reads three numbers, each as `n * 10 + (c - '0')` in 32 bits: the two sides of the protocol's version
and the content length. Each is what its digits say modulo 2³² (`addDigit_decimal`). For the version, whose digits can
be found in the first line (`runLeft_version`), it is what they say when both sides fit (`version_exact_iff`).
-/

namespace MinuteHttp

open HttpRequestState Feed

/-! ## Digits -/

def isDigit (c : Int) : Bool := decide (48 ≤ c ∧ c ≤ 57)

/-- The value of decimal digits. -/
def decimal (ds : List Int) : Nat := ds.foldl (fun n c => n * 10 + (c - 48).toNat) 0

@[simp] theorem decimal_nil : decimal [] = 0 := rfl

@[simp] theorem decimal_snoc (ds : List Int) (c : Int) : decimal (ds ++ [c]) = decimal ds * 10 + (c - 48).toNat := by
  simp [decimal]

/-- **One more digit**, modulo 2³². -/
theorem addDigit_decimal {c : Int} (hc : isDigit c = true) (ds : List Int) :
    addDigit (BitVec.ofNat 32 (decimal ds)) c = BitVec.ofNat 32 (decimal (ds ++ [c])) := by
  obtain ⟨hlow, -⟩ := of_decide_eq_true hc
  obtain ⟨n, hn⟩ := Int.eq_ofNat_of_zero_le (Int.sub_nonneg.mpr hlow)
  apply BitVec.eq_of_toNat_eq
  rw [addDigit, hn, decimal_snoc, hn, BitVec.toNat_add, BitVec.toNat_mul]
  show (_ * 10 % 2 ^ 32 + n % 2 ^ 32) % 2 ^ 32 = _
  rw [BitVec.toNat_ofNat, BitVec.toNat_ofNat, Int.toNat_natCast]
  omega

theorem rtakeWhile_digits {b ds : List Int} (hb : b.rtakeWhile isDigit = []) (hds : ∀ c ∈ ds, isDigit c = true) :
    (b ++ ds).rtakeWhile isDigit = ds := by
  induction ds using List.reverseRecOn with
  | nil => rw [List.append_nil, hb]
  | append_singleton ds c ih =>
    rw [← List.append_assoc, List.rtakeWhile_concat_pos _ _ _ (hds c (by simp)), ih fun x hx => hds x (by simp [hx])]

theorem rdropWhile_digits {b ds : List Int} (hb : b.rtakeWhile isDigit = []) (hds : ∀ c ∈ ds, isDigit c = true) :
    (b ++ ds).rdropWhile isDigit = b := by
  have h : (b ++ ds).rdropWhile isDigit ++ (b ++ ds).rtakeWhile isDigit = b ++ ds := List.rdropWhile_append_rtakeWhile
  rw [rtakeWhile_digits hb hds] at h
  exact List.append_cancel_right h

/-! ## The version -/

theorem walkTrie_pos {c r : Int} {o : Nat} {tree : List Patricia} {i : Option Patricia} {t t' : Triestate} (hr : 0 < r)
    (h : walkTrie c o tree i t = some (r, t')) : c = 0 := by
  have hchild : ∀ p, enterChild c o tree p t ≠ some (r, t') := by
    intro p h
    simp only [enterChild, Option.bind_eq_bind, Option.bind_eq_some_iff] at h
    obtain ⟨q, -, hq⟩ := h
    split at hq
    · simp only [Option.some.injEq, Prod.mk.injEq] at hq
      omega
    · simp only [Option.some.injEq, Prod.mk.injEq] at hq
      omega
  unfold walkTrie at h
  split at h
  · simp only [Option.bind_eq_bind, Option.bind_eq_some_iff] at h
    obtain ⟨p, -, x, -, h⟩ := h
    split at h
    · next h0 => exact h0.2
    · split at h
      · exact absurd h (hchild p)
      · split at h
        · simp only [Option.some.injEq, Prod.mk.injEq] at h
          omega
        · simp only [Option.some.injEq, Prod.mk.injEq] at h
          omega
  · simp only [Option.bind_eq_bind, Option.bind_eq_some_iff] at h
    obtain ⟨p, -, h⟩ := h
    exact absurd h (hchild p)

/-- The digits on the right of the dot of a request line's version. -/
def minorDigits (line : List Int) : List Int := (line.rdropWhile fun c => c = 13).rtakeWhile isDigit

/-- The digits on the left of it. -/
def majorDigits (line : List Int) : List Int :=
  (((line.rdropWhile fun c => c = 13).rdropWhile isDigit).dropLast).rtakeWhile isDigit

/-- The characters end in a version with the digits `d₁` and `d₂`. -/
structure EndsVersion (q d₁ d₂ : List Int) : Prop where
  before : ∃ b, q = b ++ d₁ ++ [46] ++ d₂ ∧ b.rtakeWhile isDigit = []
  major : ∀ c ∈ d₁, isDigit c = true
  minor : ∀ c ∈ d₂, isDigit c = true

theorem EndsVersion.digits {q d₁ d₂ e : List Int} (h : EndsVersion q d₁ d₂) (he : e = [] ∨ e = [13]) :
    majorDigits (q ++ e) = d₁ ∧ minorDigits (q ++ e) = d₂ := by
  obtain ⟨⟨b, rfl, hb⟩, h₁, h₂⟩ := h
  have hdot : (b ++ d₁ ++ [46]).rtakeWhile isDigit = [] := List.rtakeWhile_concat_neg _ _ _ (by decide)
  have hcr : ((b ++ d₁ ++ [46] ++ d₂ ++ e).rdropWhile fun c => c = 13) = b ++ d₁ ++ [46] ++ d₂ := by
    have hlast : ((b ++ d₁ ++ [46] ++ d₂).rdropWhile fun c => c = 13) = b ++ d₁ ++ [46] ++ d₂ := by
      obtain rfl | ⟨d, x, rfl⟩ := List.eq_nil_or_concat' d₂
      · rw [List.append_nil]
        exact List.rdropWhile_concat_neg _ _ _ (by decide)
      · rw [← List.append_assoc]
        refine List.rdropWhile_concat_neg _ _ _ ?_
        have hx := of_decide_eq_true (h₂ x (by simp))
        simp only [decide_eq_true_eq]
        omega
    rcases he with rfl | rfl
    · rw [List.append_nil, hlast]
    · rw [List.rdropWhile_concat_pos _ _ _ (by decide), hlast]
  unfold majorDigits minorDigits
  rw [hcr, rtakeWhile_digits hdot h₂, rdropWhile_digits hdot h₂, List.dropLast_concat, rtakeWhile_digits hb h₁]
  exact ⟨rfl, rfl⟩

theorem EndsVersion.line {q d₁ d₂ : List Int} (h : EndsVersion q d₁ d₂) : EndsVersion (fromRequestLine q) d₁ d₂ := by
  obtain ⟨⟨b, rfl, hb⟩, h₁, h₂⟩ := h
  refine ⟨⟨b.dropWhile isNewline, ?_, ?_⟩, h₁, h₂⟩
  · -- neither a digit nor the dot is a newline
    have hrest : (d₁ ++ ([46] ++ d₂)).dropWhile isNewline = d₁ ++ ([46] ++ d₂) := by
      cases d₁ with
      | nil => rfl
      | cons c d =>
        have hc := of_decide_eq_true (h₁ c List.mem_cons_self)
        refine List.dropWhile_cons_of_neg ?_
        rw [isNewline_iff]
        omega
    rw [fromRequestLine, List.append_assoc, List.append_assoc, List.dropWhile_append, hrest, List.append_assoc,
      List.append_assoc]
    split
    · next hempty => rw [List.isEmpty_iff.mp hempty, List.nil_append]
    · rfl
  · rw [List.rtakeWhile_eq_nil_iff] at hb ⊢
    intro hl
    have hne : b ≠ [] := by
      rintro rfl
      exact hl rfl
    have hlast := hb hne
    have hsuffix : b.dropWhile isNewline <:+ b := List.dropWhile_suffix isNewline
    rwa [← hsuffix.getLast hl] at hlast

/-- A known version is set at the end of a request line that is `q`; `v` is the version that the request came with. -/
def VersionSet (v : HttpVersion) (q : List Int) (sp : HttpVersion) : Prop :=
  OnRequestLine q ∧ sp ≠ .unknownVersion ∧
    ∃ d₁ d₂, EndsVersion q d₁ d₂ ∧
      sp = serverProtocol (BitVec.ofNat 32 (decimal d₁)) (BitVec.ofNat 32 (decimal d₂)) v

/-- The characters go on behind a request line with its version. -/
def VersionRead (v : HttpVersion) (p : List Int) (sp : HttpVersion) : Prop :=
  ∃ q eol rest, p = q ++ eol ++ rest ∧ eol ∈ lineEnds ∧ VersionSet v q sp

theorem VersionRead.snoc {v : HttpVersion} {p : List Int} {sp : HttpVersion} (h : VersionRead v p sp) (c : Int) :
    VersionRead v (p ++ [c]) sp := by
  obtain ⟨q, eol, rest, rfl, heol, h⟩ := h
  exact ⟨q, eol, rest ++ [c], by rw [List.append_assoc _ rest], heol, h⟩

theorem VersionSet.read {v : HttpVersion} {q eol : List Int} {sp : HttpVersion} (h : VersionSet v q sp)
    (heol : eol ∈ lineEnds) : VersionRead v (q ++ eol) sp :=
  ⟨q, eol, [], (List.append_nil _).symm, heol, h⟩

theorem VersionRead.eq {v : HttpVersion} {p : List Int} {sp : HttpVersion} (h : VersionRead v p sp) :
    sp ≠ .unknownVersion ∧
      sp = serverProtocol (BitVec.ofNat 32 (decimal (majorDigits (firstLine p))))
        (BitVec.ofNat 32 (decimal (minorDigits (firstLine p)))) v := by
  obtain ⟨q, eol, rest, rfl, heol, ⟨hne, h10⟩, hknown, d₁, d₂, hends, hsp⟩ := h
  refine ⟨hknown, ?_⟩
  obtain ⟨e, rfl, he⟩ : ∃ e, eol = e ++ [10] ∧ (e = [] ∨ e = [13]) := by
    simp only [lineEnds, List.mem_cons, List.not_mem_nil, or_false] at heol
    rcases heol with rfl | rfl
    · exact ⟨[], rfl, .inl rfl⟩
    · exact ⟨[13], rfl, .inr rfl⟩
  have hfirst : firstLine (q ++ (e ++ [10]) ++ rest) = fromRequestLine q ++ e := by
    have hsplit : q ++ (e ++ [10]) ++ rest = q ++ (e ++ 10 :: rest) := by simp
    have hline : 10 ∉ fromRequestLine q ++ e := by
      rcases he with rfl | rfl <;> simp [h10]
    refine firstLine_eq (?_ : _ = _ ++ 10 :: rest) hline
    rw [hsplit, fromRequestLine_append hne, List.append_assoc]
  obtain ⟨h₁, h₂⟩ := hends.line.digits he
  rw [hfirst, h₁, h₂]
  exact hsp

/-- What the state says of the version when the characters `p` have been read. -/
def VersionAt (v : HttpVersion) (p : List Int) (k : Frame) : Prop :=
  match k.s.st with
  | hInitial | hMethod | hMethodSp | hPath | hQuery | hEscaped1 | hEscaped2 | hPathSp | hProt =>
    k.s.nl = 0 ∧ k.rq.serverProtocol = v ∧ k.s.httpv0 = 0 ∧ k.s.httpv1 = 0
  | hProtSlash | hProtHttpX =>
    k.s.nl = 0 ∧ k.rq.serverProtocol = v ∧ k.s.httpv1 = 0 ∧
      ∃ b d, p = b ++ d ∧ b.rtakeWhile isDigit = [] ∧ (∀ c ∈ d, isDigit c = true) ∧
        k.s.httpv0 = BitVec.ofNat 32 (decimal d)
  | hProtHttpXDot | hProtHttpXX =>
    k.s.nl = 0 ∧ k.rq.serverProtocol = v ∧
      ∃ d₁ d₂, EndsVersion p d₁ d₂ ∧ k.s.httpv0 = BitVec.ofNat 32 (decimal d₁) ∧
        k.s.httpv1 = BitVec.ofNat 32 (decimal d₂)
  | hCr => VersionRead v p k.rq.serverProtocol ∨ k.s.nl = 0 ∧ ∃ q, p = q ++ [13] ∧ VersionSet v q k.rq.serverProtocol
  | hErrorBadRequest | hErrorNotImplemented | hErrorInternalServerError | hNewline | hHeaderUnknown => True
  | _ => VersionRead v p k.rq.serverProtocol

/-- What holds within a turn on `c₀`: its character is changed in header names only, and a line end behind the version
is on the request line. -/
structure VersionTurn (p : List Int) (c₀ : Int) (k : Frame) (c : Int) : Prop where
  char : k.s.st.isRequestLine = true → c = c₀
  lf : c = 10 → c₀ = 10
  line : c₀ = 13 ∨ c₀ = 10 → k.s.st = hProtHttpXDot ∨ k.s.st = hProtHttpXX → OnRequestLine p

/-- What a turn on `c₀` leaves of it. -/
def VersionPass (v : HttpVersion) (p : List Int) (c₀ : Int) : Pass → Prop :=
  Pass.All (fun k' c' => VersionAt v p k' ∧ VersionTurn p c₀ k' c')
    (fun k' => VersionAt v (p ++ [c₀]) k' ∧ (1 < k'.s.nl → VersionRead v (p ++ [c₀]) k'.rq.serverProtocol))
    (fun _ _ => True) True

theorem switch_version {v : HttpVersion} {p : List Int} {k : Frame} {c c₀ : Int} (hk : Routed k)
    (h : VersionAt v p k) (ht : VersionTurn p c₀ k c) : VersionPass v p c₀ (switch k c) := by
  obtain ⟨hc, hlf, hon⟩ := ht
  have hturn : ∀ (k' : Frame) (x : HttpRequestState), x ≠ hProtHttpXDot → x ≠ hProtHttpXX → c = c₀ →
      VersionTurn p c₀ (k'.shift x) c := fun k' x h₁ h₂ hc' => ⟨fun _ => hc', hlf, fun _ h => (h.elim h₁ h₂).elim⟩
  have hother : ∀ (k' : Frame) (x : HttpRequestState), x.isRequestLine = false → VersionTurn p c₀ (k'.shift x) c := by
    refine fun k' x hx => ⟨fun h => ?_, hlf, fun _ h => ?_⟩
    · have h : x.isRequestLine = true := h
      rw [hx] at h
      cases h
    · have h : x = hProtHttpXDot ∨ x = hProtHttpXX := h
      rcases h with rfl | rfl <;> cases hx
  unfold VersionPass
  cases hst : k.s.st <;> simp only [switch, hst]
  case hProtSlash =>
    obtain rfl := hc (by rw [hst]; rfl)
    simp only [VersionAt, hst] at h
    obtain ⟨hnl, hsp, hv1, b, d, rfl, hb, hd, hv0⟩ := h
    simp only [hProtSlashCase, all_ite, all_brk, all_reset]
    refine ⟨fun hdigit => ⟨?_, ?_⟩, fun _ => ⟨?_, hturn _ _ (by decide) (by decide) rfl⟩⟩
    · have hdigit : isDigit c = true := decide_eq_true hdigit
      simp only [VersionAt, hst]
      refine ⟨hnl, hsp, hv1, b, d ++ [c], List.append_assoc _ _ _, hb, ?_, ?_⟩
      · intro x hx
        rcases List.mem_append.mp hx with hx | hx
        · exact hd x hx
        · rw [List.mem_singleton.mp hx]
          exact hdigit
      · rw [hv0, addDigit_decimal hdigit]
    · intro hnl'
      simp only [hnl] at hnl'
      omega
    · simp only [VersionAt, shift_s]
      exact ⟨hnl, hsp, hv1, b, d, rfl, hb, hd, hv0⟩
  case hProtHttpX =>
    obtain rfl := hc (by rw [hst]; rfl)
    simp only [VersionAt, hst] at h
    obtain ⟨hnl, hsp, hv1, b, d, rfl, hb, hd, hv0⟩ := h
    simp only [hProtHttpXCase, all_ite, all_brk, all_reset]
    refine ⟨?_, fun _ => ⟨?_, hturn _ _ (by decide) (by decide) rfl⟩⟩
    · rintro rfl
      simp only [VersionAt, shift_s]
      refine ⟨⟨hnl, hsp, d, [], ⟨⟨b, by simp, hb⟩, hd, by simp⟩, hv0, hv1⟩, ?_⟩
      intro hnl'
      simp only [hnl] at hnl'
      omega
    · simp only [VersionAt, shift_s]
  case hProtHttpXDot =>
    obtain rfl := hc (by rw [hst]; rfl)
    simp only [VersionAt, hst] at h
    obtain ⟨hnl, hsp, d₁, d₂, hends, hv0, hv1⟩ := h
    simp only [hProtHttpXDotCase, all_ite, all_brk, all_reset]
    refine ⟨fun hdigit => ⟨?_, ?_⟩, fun _ => ⟨?_, fun _ => rfl, hlf, fun h _ => hon h (.inl hst)⟩⟩
    · have hdigit : isDigit c = true := decide_eq_true hdigit
      simp only [VersionAt, hst]
      obtain ⟨⟨b, rfl, hb⟩, h₁, h₂⟩ := hends
      refine ⟨hnl, hsp, d₁, d₂ ++ [c], ⟨⟨b, by simp, hb⟩, h₁, ?_⟩, hv0, ?_⟩
      · intro x hx
        rcases List.mem_append.mp hx with hx | hx
        · exact h₂ x hx
        · rw [List.mem_singleton.mp hx]
          exact hdigit
      · rw [hv1, addDigit_decimal hdigit]
    · intro hnl'
      simp only [hnl] at hnl'
      omega
    · simp only [VersionAt, shift_s]
      exact ⟨hnl, hsp, d₁, d₂, hends, hv0, hv1⟩
  case hProtHttpXX =>
    obtain rfl := hc (by rw [hst]; rfl)
    simp only [VersionAt, hst] at h
    obtain ⟨hnl, hsp, d₁, d₂, hends, hv0, hv1⟩ := h
    have hset : c = 13 ∨ c = 10 → ¬serverProtocol k.s.httpv0 k.s.httpv1 k.rq.serverProtocol = .unknownVersion →
        VersionSet v p (serverProtocol k.s.httpv0 k.s.httpv1 k.rq.serverProtocol) := by
      intro hc hknown
      refine ⟨hon hc (.inr hst), hknown, d₁, d₂, hends, ?_⟩
      rw [hv0, hv1, hsp]
    simp only [hProtHttpXXCase, all_ite, all_brk, all_reset, all_ret]
    refine ⟨fun _ => trivial, fun hknown => ⟨?_, fun _ => ⟨?_, fun _ => ⟨?_, hturn _ _ (by decide) (by decide) rfl⟩⟩⟩⟩
    · rintro rfl
      refine ⟨?_, ?_⟩
      · simp only [VersionAt, shift_s, shift_rq]
        exact .inr ⟨hnl, p, rfl, hset (.inl rfl) hknown⟩
      · intro hnl'
        simp only [shift_s, hnl] at hnl'
        omega
    · rintro rfl
      have hread := (hset (.inr rfl) hknown).read (show [10] ∈ lineEnds by simp [lineEnds])
      refine ⟨?_, fun _ => hread⟩
      simp only [VersionAt, shift_s, shift_rq]
      exact hread
    · simp only [VersionAt, shift_s]
  case hInitial | hMethod | hMethodSp | hPath | hQuery | hEscaped1 | hPathSp =>
    obtain rfl := hc (by rw [hst]; rfl)
    simp only [VersionAt, hst] at h
    obtain ⟨hnl, hsp, hv0, hv1⟩ := h
    dsimp only [hInitialCase, hMethodCase, hMethodSpCase, hPathCase, hQueryCase, hEscaped1Case, hPathSpCase]
    simp [VersionAt, hst, hnl, hsp, hv0, hv1, hturn]
  case hProt =>
    obtain rfl := hc (by rw [hst]; rfl)
    simp only [VersionAt, hst] at h
    obtain ⟨hnl, hsp, hv0, hv1⟩ := h
    simp only [hProtCase, all_onWalk, all_ite, all_brk, all_ret, all_reset]
    refine ⟨fun _ => trivial, fun r t hw => ⟨fun hr => ⟨?_, ?_⟩, fun _ => ⟨fun _ => trivial, fun _ => ⟨fun _ => ⟨?_, ?_⟩,
      fun _ => ⟨?_, hturn _ _ (by decide) (by decide) rfl⟩⟩⟩⟩⟩
    · have hend : isDigit c = false := by
        have h0 := walkTrie_pos (by rw [hr]; decide) hw
        split at h0
        · next h47 => rw [h47]; rfl
        · rw [h0]
          rfl
      simp only [VersionAt, mark_s, shift_s]
      refine ⟨hnl, hsp, hv1, p ++ [c], [], (List.append_nil _).symm, ?_, by simp, hv0⟩
      exact List.rtakeWhile_concat_neg _ _ _ (by rw [hend]; decide)
    · intro hnl'
      simp only [mark_s, shift_s, hnl] at hnl'
      omega
    · simp only [VersionAt, mark_s, hst]
      exact ⟨hnl, hsp, hv0, hv1⟩
    · intro hnl'
      simp only [mark_s, hnl] at hnl'
      omega
    · simp only [VersionAt, shift_s]
  case hEscaped2 =>
    obtain rfl := hc (by rw [hst]; rfl)
    have hest : k.s.est = hPath ∨ k.s.est = hQuery := by
      rw [Routed, hst] at hk
      simp only [routed, Bool.and_eq_true, Bool.or_eq_true, beq_iff_eq] at hk
      exact hk.1
    simp only [VersionAt, hst] at h
    obtain ⟨hnl, hsp, hv0, hv1⟩ := h
    rcases hest with hest | hest <;> simp [hEscaped2Case, VersionAt, hst, hest, hnl, hsp, hv0, hv1, hturn]
  case hValueLead =>
    rw [Routed, hst] at hk
    simp only [VersionAt, hst] at h
    have hsnoc := h.snoc c₀
    simp only [hValueLeadCase, all_ite, all_reset, all_brk]
    refine ⟨fun _ => ?_, fun _ => ?_⟩
    · cases hest : k.s.est <;> simp [routed, hest, isValue] at hk <;>
        exact ⟨by simpa [VersionAt] using h, hother _ _ rfl⟩
    · simp [VersionAt, hst, hsnoc]
  case hCr =>
    simp only [VersionAt, hst] at h
    simp only [hCrCase, all_ite, all_reset, all_brk]
    refine ⟨fun h10 => ?_, fun _ => ?_⟩
    · obtain rfl := hlf h10
      have hread : VersionRead v (p ++ [10]) k.rq.serverProtocol := by
        obtain h | ⟨-, q, rfl, h⟩ := h
        · exact h.snoc 10
        · rw [List.append_assoc]
          exact h.read (by simp [lineEnds])
      simp [VersionAt, hread]
    · exact ⟨trivial, hother _ _ rfl⟩
  case hErrorBadRequest | hErrorNotImplemented | hErrorInternalServerError | hNewline | hHeaderUnknown => trivial
  all_goals
    simp only [VersionAt, hst] at h
    have hsnoc := h.snoc
    have hlow : ∀ k' : Frame, VersionTurn p c₀ (k'.shift hSkipline) (toLower c) := fun k' =>
      ⟨fun h => (by cases h), fun h => hlf ((toLower_eq (by decide)).mp h), fun _ h => by rcases h with h | h <;> cases h⟩
    dsimp only [hNlCase, hHeaderCase, hHeaderMatched, hHeadConnectionCase, hHeadExpectCase, hHeadTransferEncodingCase,
      hHeadFlagInitial, hHeadContentLengthCase, hHeadFlagCase, hContCase, hValueCase, hSkiplineCase]
    simp [VersionAt, hst, h, hsnoc, hlow, fun k' => hother k' hSkipline rfl, fun k' => hother k' hHeader rfl,
      fun k' => hother k' hHeadFlag rfl, fun k' => hother k' hValueLead rfl, fun k' => hother k' hCr rfl,
      fun k' => hother k' hErrorBadRequest rfl]

/-- **A turn** keeps what the state says of the version. -/
theorem iterate_version {v : HttpVersion} {p : List Int} {k : Frame} {c : Int} (hk : Routed k) (hb : Between p k)
    (h : VersionAt v p k) :
    (iterate k c).Holds (VersionAt v (p ++ [c]))
      fun r => ∀ k', r = .ok k' → VersionRead v (p ++ [c]) k'.rq.serverProtocol := by
  have hline : c = 13 ∨ c = 10 → k.s.st = hProtHttpXDot ∨ k.s.st = hProtHttpXX → OnRequestLine p := by
    intro hc hst
    have hm := hb c
    rcases hst with hst | hst
    · simp only [Mid, hst, isRequestLine, if_true] at hm
      exact hm.2.resolve_right fun h => h.2 (by omega)
    · simp only [Mid, hst, isRequestLine, if_true] at hm
      exact hm.2.resolve_right fun h => h.2 (by omega)
  have hi := iterate_inv (N := fun k₁ c₁ => (VersionAt v p k₁ ∧ VersionTurn p c k₁ c₁) ∧ Routed k₁)
    (B := fun k' => VersionAt v (p ++ [c]) k' ∧ (1 < k'.s.nl → VersionRead v (p ++ [c]) k'.rq.serverProtocol))
    (R := fun _ _ => True) (F := True)
    (fun k₁ c₁ h₁ => (Pass.All.and (switch_version h₁.2 h₁.1.1 h₁.1.2) (switch_routed k₁ c₁ h₁.2)).imp
      (fun _ _ h => ⟨h.1, h.2.1⟩) (fun _ h => h.1) (fun _ _ _ => trivial) fun _ => trivial)
    (c := c) ⟨⟨h, fun _ => rfl, id, hline⟩, hk⟩
  cases hs : iterate k c with
  | next k' =>
    rw [hs] at hi
    obtain ⟨k₁, ⟨hat, -⟩, -, rfl⟩ := hi
    exact hat
  | halt r =>
    rw [hs] at hi
    rintro k' rfl
    obtain ⟨k₁, ⟨-, hread⟩, hnl, rfl⟩ := hi
    exact hread hnl

/-- **The version that a run leaves**, by the digits of the first line. -/
theorem runLeft_version {k : Frame} {cs : List Int} (hk : Routed k) (hb : Between [] k)
    (h : VersionAt k.rq.serverProtocol [] k) {rq : MinuteHttpRq} {text : Textint}
    (hl : runLeft (feed iterate k cs) = some (0, rq, text)) :
    rq.serverProtocol ≠ .unknownVersion ∧
      rq.serverProtocol = serverProtocol (BitVec.ofNat 32 (decimal (majorDigits (firstLine cs))))
        (BitVec.ofNat 32 (decimal (minorDigits (firstLine cs)))) k.rq.serverProtocol := by
  obtain ⟨k', rest, hf, rfl, -⟩ := runLeft_ok hk hl
  obtain ⟨p, c, k₁, hsplit, hp, hc⟩ := feed_halt hf
  obtain ⟨hr₁, hb₁⟩ := feed_between hk hb hp
  have hat : VersionAt k.rq.serverProtocol p k₁ := by
    refine feed_inv_of (VersionAt k.rq.serverProtocol) h (fun q a r k₂ k₃ _ hq hat hs => ?_) hp
    obtain ⟨hr₂, hb₂⟩ := feed_between hk hb hq
    have hi := iterate_version (c := a) hr₂ hb₂ hat
    rw [hs] at hi
    exact hi
  have hlast := iterate_version (c := c) hr₁ hb₁ hat
  rw [hc] at hlast
  have hread : VersionRead k.rq.serverProtocol (p ++ [c]) k'.rq.serverProtocol := hlast k' rfl
  have hfirst : VersionRead k.rq.serverProtocol cs k'.rq.serverProtocol := by
    obtain ⟨q, eol, more, hq, heol, hset⟩ := hread
    refine ⟨q, eol, more ++ rest, ?_, heol, hset⟩
    rw [hsplit, ← List.append_assoc, ← hq]
    simp
  exact hfirst.eq

/-! ## Exact or refused -/

/-- The version is one that is known only if its two sides have the values of that version. -/
def VersionExact (sp : HttpVersion) (line : List Int) : Prop :=
  (sp = .v0_9 → decimal (majorDigits line) = 0 ∧ decimal (minorDigits line) = 9) ∧
    (sp = .v1_0 → decimal (majorDigits line) = 1 ∧ decimal (minorDigits line) = 0) ∧
    (sp = .v1_1 → decimal (majorDigits line) = 1 ∧ decimal (minorDigits line) = 1)

/-- Both sides of the version fit in 32 bits, and no version that the request came with, `v`, takes the place of an
unknown one. -/
def VersionFits (v : HttpVersion) (line : List Int) : Prop :=
  decimal (majorDigits line) < 2 ^ 32 ∧ decimal (minorDigits line) < 2 ^ 32 ∧
    (v = .unknownVersion ∨ serverProtocol (BitVec.ofNat 32 (decimal (majorDigits line)))
      (BitVec.ofNat 32 (decimal (minorDigits line))) .unknownVersion ≠ .unknownVersion)

instance VersionFits.decidable (v : HttpVersion) (line : List Int) : Decidable (VersionFits v line) :=
  inferInstanceAs (Decidable (_ ∧ _ ∧ (_ ∨ _)))

theorem version_exact_iff {v sp : HttpVersion} {line : List Int} (hknown : sp ≠ .unknownVersion)
    (hsp : sp = serverProtocol (BitVec.ofNat 32 (decimal (majorDigits line)))
      (BitVec.ofNat 32 (decimal (minorDigits line))) v) : VersionExact sp line ↔ VersionFits v line := by
  unfold VersionExact VersionFits
  generalize decimal (majorDigits line) = m at hsp ⊢
  generalize decimal (minorDigits line) = n at hsp ⊢
  constructor
  · rintro ⟨h₁, h₂, h₃⟩
    cases sp with
    | unknownVersion => exact absurd rfl hknown
    | v0_9 =>
      obtain ⟨rfl, rfl⟩ := h₁ rfl
      exact ⟨by decide, by decide, .inr (by decide)⟩
    | v1_0 =>
      obtain ⟨rfl, rfl⟩ := h₂ rfl
      exact ⟨by decide, by decide, .inr (by decide)⟩
    | v1_1 =>
      obtain ⟨rfl, rfl⟩ := h₃ rfl
      exact ⟨by decide, by decide, .inr (by decide)⟩
  · rintro ⟨hm, hn, hv⟩
    have hval : ∀ i : Nat, i < 2 ^ 32 → ∀ j : Nat, j < 2 ^ 32 → (BitVec.ofNat 32 i = BitVec.ofNat 32 j ↔ i = j) := by
      intro i hi j hj
      refine ⟨fun h => ?_, fun h => by rw [h]⟩
      have h := congrArg BitVec.toNat h
      rwa [BitVec.toNat_ofNat, BitVec.toNat_ofNat, Nat.mod_eq_of_lt hi, Nat.mod_eq_of_lt hj] at h
    have hm0 : BitVec.ofNat 32 m = (0 : Uint) ↔ m = 0 := hval m hm 0 (by decide)
    have hm1 : BitVec.ofNat 32 m = (1 : Uint) ↔ m = 1 := hval m hm 1 (by decide)
    have hn0 : BitVec.ofNat 32 n = (0 : Uint) ↔ n = 0 := hval n hn 0 (by decide)
    have hn1 : BitVec.ofNat 32 n = (1 : Uint) ↔ n = 1 := hval n hn 1 (by decide)
    have hn9 : BitVec.ofNat 32 n = (9 : Uint) ↔ n = 9 := hval n hn 9 (by decide)
    simp only [serverProtocol, hm0, hm1, hn0, hn1, hn9] at hsp hv
    split_ifs at hsp hv <;> simp_all

end MinuteHttp
