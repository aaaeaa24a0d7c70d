import MinuteHttp.Libhttp.Cursor
import Mathlib.Data.List.Infix

/-!
# Where the head of a request ends

The parser counts newlines in `s.nl`; this module says what that count has to do with the bytes.
`Between p k` ties the state after the characters `p` to the line they end in, and every turn keeps
it (`iterate_between`). It follows that the head ends at its first empty line, except in two cases
(`head_ends_iff`): a byte 0xFF, which is -1 in a signed `char` and is taken for the end of file, and
an empty line met in `h_head_flag`, which keeps line ends from the parser as long as its cursor stands
at the end of an entry without a terminal.
-/

namespace MinuteHttp

open HttpRequestState Feed

/-! ## Lines of characters -/

/-- The characters end with an empty line: `LF LF` or `LF CR LF`. -/
def EndsBlank (p : List Int) : Prop := [10, 10] <:+ p ∨ [10, 13, 10] <:+ p

/-- The next `LF` would end an empty line. -/
def AtLineStart (p : List Int) : Prop := [10] <:+ p ∨ [10, 13] <:+ p

def isNewline (x : Int) : Bool := x == 10 || x == 13

/-- The characters from the request line on: the newlines before it do not count. -/
def fromRequestLine (p : List Int) : List Int := p.dropWhile isNewline

/-- The request line has begun and not ended. -/
def OnRequestLine (p : List Int) : Prop := fromRequestLine p ≠ [] ∧ 10 ∉ fromRequestLine p

/-- The request line has ended. -/
def PastRequestLine (p : List Int) : Prop := 10 ∈ fromRequestLine p

theorem suffix_snoc {α : Type} {s p : List α} {a c : α} : s ++ [a] <:+ p ++ [c] ↔ a = c ∧ s <:+ p := by
  constructor
  · rintro ⟨t, ht⟩
    rw [← List.append_assoc] at ht
    obtain ⟨h₁, h₂⟩ := List.append_inj' ht rfl
    exact ⟨by simpa using h₂, t, h₁⟩
  · rintro ⟨rfl, t, rfl⟩
    exact ⟨t, by simp⟩

@[simp] theorem lf_suffix_snoc {p : List Int} {c : Int} : [10] <:+ p ++ [c] ↔ c = 10 := by
  have := suffix_snoc (s := []) (p := p) (a := (10 : Int)) (c := c)
  rw [List.nil_append, eq_comm] at this
  rw [this]
  simp

@[simp] theorem endsBlank_snoc {p : List Int} {c : Int} :
    EndsBlank (p ++ [c]) ↔ c = 10 ∧ AtLineStart p := by
  have h₁ := suffix_snoc (s := [10]) (p := p) (a := (10 : Int)) (c := c)
  have h₂ := suffix_snoc (s := [10, 13]) (p := p) (a := (10 : Int)) (c := c)
  simp only [List.cons_append, List.nil_append] at h₁ h₂
  unfold EndsBlank AtLineStart
  rw [h₁, h₂, eq_comm]
  tauto

@[simp] theorem atLineStart_snoc {p : List Int} {c : Int} :
    AtLineStart (p ++ [c]) ↔ c = 10 ∨ (c = 13 ∧ [10] <:+ p) := by
  have h₂ := suffix_snoc (s := [10]) (p := p) (a := (13 : Int)) (c := c)
  simp only [List.cons_append, List.nil_append] at h₂
  unfold AtLineStart
  rw [h₂, lf_suffix_snoc, @eq_comm _ 13 c]

/-! ### The request line -/

theorem isNewline_iff {x : Int} : isNewline x = true ↔ x = 10 ∨ x = 13 := by simp [isNewline]

theorem fromRequestLine_snoc (p : List Int) (c : Int) :
    fromRequestLine (p ++ [c]) =
      if fromRequestLine p = [] ∧ (c = 10 ∨ c = 13) then [] else fromRequestLine p ++ [c] := by
  unfold fromRequestLine
  rw [List.dropWhile_append]
  by_cases hp : p.dropWhile isNewline = []
  · by_cases hc : isNewline c = true
    · simp [hp, hc, isNewline_iff.mp hc]
    · have hc' := mt isNewline_iff.mpr hc
      simp [hp, hc, hc']
  · simp [hp]

theorem PastRequestLine.append {p : List Int} (h : PastRequestLine p) (q : List Int) :
    PastRequestLine (p ++ q) := by
  unfold PastRequestLine fromRequestLine at *
  rw [List.dropWhile_append, if_neg]
  · exact List.mem_append_left _ h
  · intro he
    rw [List.isEmpty_iff.mp he] at h
    cases h

@[simp] theorem pastRequestLine_snoc {p : List Int} {c : Int} :
    PastRequestLine (p ++ [c]) ↔ PastRequestLine p ∨ (c = 10 ∧ OnRequestLine p) := by
  unfold PastRequestLine OnRequestLine
  rw [fromRequestLine_snoc]
  by_cases hp : fromRequestLine p = []
  · by_cases hc : c = 10 ∨ c = 13 <;> simp [hp, hc]
    rintro rfl
    simp at hc
  · simp only [hp, false_and, if_false, List.mem_append, List.mem_singleton, not_false_iff, true_and,
      ne_eq]
    tauto

theorem OnRequestLine.snoc {p : List Int} {c : Int} (h : OnRequestLine p) (hc : c ≠ 10) :
    OnRequestLine (p ++ [c]) := by
  unfold OnRequestLine at *
  rw [fromRequestLine_snoc, if_neg (fun h' => h.1 h'.1)]
  simp [h.2, Ne.symm hc]

theorem OnRequestLine.first {p : List Int} {c : Int} (h : fromRequestLine p = [])
    (hc : ¬(c = 10 ∨ c = 13)) : OnRequestLine (p ++ [c]) := by
  unfold OnRequestLine
  rw [fromRequestLine_snoc, if_neg (fun h' => hc h'.2), h]
  simp only [not_or] at hc
  simp [Ne.symm hc.1]

theorem OnRequestLine.not_past {p : List Int} (h : OnRequestLine p) : ¬PastRequestLine p := h.2

theorem OnRequestLine.not_lf {p : List Int} (h : OnRequestLine p) : ¬[10] <:+ p := by
  rintro ⟨t, rfl⟩
  obtain ⟨hne, hlf⟩ := h
  rw [fromRequestLine_snoc] at hne hlf
  split at hne
  · exact hne rfl
  · rename_i hn
    rw [if_neg hn] at hlf
    simp at hlf

theorem OnRequestLine.not_atLineStart {p : List Int} (h : OnRequestLine p) : ¬AtLineStart p := by
  rintro (hlf | ⟨t, rfl⟩)
  · exact h.not_lf hlf
  · obtain ⟨hne, hlf⟩ := h
    rw [show t ++ [10, 13] = t ++ [10] ++ [13] by simp, fromRequestLine_snoc] at hne hlf
    split at hne
    · exact hne rfl
    · rename_i hn
      rw [if_neg hn, fromRequestLine_snoc] at hlf
      rw [fromRequestLine_snoc] at hn
      split at hlf <;> simp_all

/-! ## Walks on line ends -/

/-- Every edge has letters, and none of them is a control character or a space. -/
def Printable (tree : List Patricia) : Prop :=
  ∀ p ∈ tree, ∀ w ∈ p.letters, w ≠ [] ∧ ∀ x ∈ w, 32 < x.toNat

instance printableDecidable (w : List Char) : Decidable (∀ x ∈ w, 32 < x.toNat) :=
  List.decidableBAll (fun x => 32 < x.toNat) w

theorem utility_printable : Printable utility := by unfold Printable; decide +kernel

theorem headers_printable : Printable headers := by unfold Printable; decide +kernel

theorem Printable.charAt {tree : List Patricia} (ht : Printable tree) {p : Patricia} (hp : p ∈ tree)
    {i : Nat} {x : Int} (h : p.charAt i = some x) : (x = 0 ∧ i ≠ 0) ∨ 32 < x := by
  unfold Patricia.charAt at h
  obtain ⟨w, hw, hx⟩ := Option.bind_eq_some_iff.mp h
  obtain ⟨hne, hlt⟩ := ht p hp w hw
  by_cases hi : i < w.length
  · right
    rw [List.getElem?_append_left (by simpa using hi)] at hx
    simp only [List.getElem?_map, Option.map_eq_some_iff] at hx
    obtain ⟨y, hy, rfl⟩ := hx
    have := hlt y (List.mem_of_getElem? hy)
    omega
  · left
    rw [List.getElem?_append_right (by simpa using hi)] at hx
    have hmem := List.mem_of_getElem? hx
    simp only [List.mem_singleton] at hmem
    have : 0 < w.length := List.length_pos_iff.mpr hne
    exact ⟨hmem, by omega⟩

theorem enterChild_unlettered {tree : List Patricia} (ht : Printable tree) {c : Int} {o : Nat}
    {p : Patricia} {t t' : Triestate} {r : Int} (hc : c ≤ 32)
    (h : enterChild c o tree p t = some (r, t')) : r = -1 ∧ t' = t := by
  simp only [enterChild, Option.bind_eq_bind, Option.bind_eq_some_iff] at h
  obtain ⟨q, hq, h⟩ := h
  split at h
  · rename_i hcond
    rcases ht.charAt (List.mem_of_getElem? hq) hcond.1 with ⟨-, h0⟩ | hlt
    · exact absurd rfl h0
    · omega
  · simp only [Option.some.injEq, Prod.mk.injEq] at h
    exact ⟨h.1.symm, h.2.symm⟩

/-- No edge has a letter up to the space, except for the NUL that ends a keyword. -/
theorem walkTrie_unlettered {tree : List Patricia} (ht : Printable tree) {c : Int} {o : Nat}
    {i : Option Patricia} {t t' : Triestate} {r : Int} (hc : c ≤ 32) (hc0 : c ≠ 0)
    (h : walkTrie c o tree i t = some (r, t')) : r = -1 := by
  unfold walkTrie at h
  split at h
  · simp only [Option.bind_eq_bind, Option.bind_eq_some_iff] at h
    obtain ⟨p, hp, x, hx, h⟩ := h
    rw [if_neg (fun h' => hc0 h'.2)] at h
    split at h
    · exact (enterChild_unlettered ht hc h).1
    · rename_i hx0
      rcases ht.charAt (List.mem_of_getElem? hp) hx with ⟨h0, -⟩ | hlt
      · exact absurd h0 hx0
      · rw [if_neg (by omega)] at h
        simp_all
  · simp only [Option.bind_eq_bind, Option.bind_eq_some_iff] at h
    obtain ⟨p, -, h⟩ := h
    exact (enterChild_unlettered ht hc h).1

/-- The cursor of a flag value stands at the end of an entry without a terminal, so that a line end is
taken for a character of the value. -/
def Stuck (t : Triestate) : Prop := t.poff ≠ 0 ∧ walkTrie 0 0 utility none t = some (0, t)

theorem walkTrie_zero {o : Nat} {i : Option Patricia} {t t' : Triestate} {r : Int}
    (h : walkTrie 0 o utility i t = some (r, t')) : t' = t ∧ (r = 0 ↔ Stuck t) := by
  by_cases h0 : t.poff = 0
  · unfold walkTrie at h
    rw [if_neg (by simpa using h0)] at h
    simp only [Option.bind_eq_bind, Option.bind_eq_some_iff] at h
    obtain ⟨p, -, h⟩ := h
    obtain ⟨rfl, rfl⟩ := enterChild_unlettered utility_printable (by decide) h
    exact ⟨rfl, by simp [Stuck, h0]⟩
  · -- inside the trie neither the child index nor the initial node matters
    have hw : walkTrie 0 0 utility none t = some (r, t') ∧ t' = t := by
      unfold walkTrie at h ⊢
      rw [if_pos h0] at h ⊢
      simp only [Option.bind_eq_bind, Option.bind_eq_some_iff] at h ⊢
      obtain ⟨p, hp, x, hx, h⟩ := h
      by_cases hx0 : x = 0
      · rw [if_pos ⟨hx0, trivial⟩] at h
        refine ⟨⟨p, hp, x, hx, by rw [if_pos ⟨hx0, trivial⟩, h]⟩, ?_⟩
        simp only [Option.some.injEq, Prod.mk.injEq] at h
        exact h.2.symm
      · rw [if_neg (fun h' => hx0 h'.1), if_neg hx0, if_neg hx0] at h
        refine ⟨⟨p, hp, x, hx, by rw [if_neg (fun h' => hx0 h'.1), if_neg hx0, if_neg hx0, h]⟩, ?_⟩
        simp only [Option.some.injEq, Prod.mk.injEq] at h
        exact h.2.symm
    refine ⟨hw.2, ?_⟩
    simp [Stuck, h0, hw.1, hw.2]

theorem flagWalk_lineEnd {c : Int} (hc : c = 10 ∨ c = 13) {i : Option Patricia} {t t' : Triestate}
    {r : Int} (h : flagWalk i c t = some (r, t')) : t' = t ∧ (r = 0 ↔ Stuck t) := by
  rw [flagWalk, if_pos (by tauto)] at h
  exact walkTrie_zero h

theorem headerWalk_blank {c : Int} (hc : c ≤ 32) (hc0 : c ≠ 0) {t t' : Triestate} {r : Int}
    (h : headerWalk c t = some (r, t')) : r = -1 := by
  rw [headerWalk, if_neg (by omega)] at h
  exact walkTrie_unlettered headers_printable hc hc0 h

theorem methodWalk_lf {t t' : Triestate} {r : Int} (h : methodWalk 10 t = some (r, t')) : r = -1 :=
  walkTrie_unlettered utility_printable (by decide) (by decide) h

theorem protWalk_lf {t t' : Triestate} {r : Int} (h : protWalk 10 t = some (r, t')) : r = -1 :=
  walkTrie_unlettered utility_printable (by decide) (by decide) h

theorem toLower_eq {c n : Int} (hn : n < 65) : toLower c = n ↔ c = n := by
  unfold toLower
  split <;> omega

/-! ## Lines and states -/

/-- What the newline counter and the state say of the line that the characters `p` end in, before a
pass on `c`. -/
def Mid (p : List Int) (k : Frame) (c : Int) : Prop :=
  match k.s.st with
  | hInitial => k.s.nl = 0 ∧ fromRequestLine p = []
  | hNl => k.s.nl = 1 ∧ PastRequestLine p ∧ [10] <:+ p
  | hCr =>
    (k.s.nl = 1 ∧ PastRequestLine p ∧ AtLineStart p) ∨
      (k.s.nl = 0 ∧ (PastRequestLine p ∨ OnRequestLine p) ∧ ¬AtLineStart p)
  | hHeadFlag =>
    k.s.nl = 0 ∧ PastRequestLine p ∧ (AtLineStart p → c = 10 ∨ c = 13 → Stuck k.tstate)
  | hErrorBadRequest | hErrorNotImplemented | hErrorInternalServerError | hNewline
  | hHeaderUnknown => True
  | st =>
    k.s.nl = 0 ∧
      if st.isRequestLine then OnRequestLine p ∨ (fromRequestLine p = [] ∧ ¬(c = 10 ∨ c = 13))
      else PastRequestLine p ∧ (AtLineStart p → ¬(c = 10 ∨ c = 13))

/-- The same between two turns. -/
def Between (p : List Int) (k : Frame) : Prop := ∀ c, Mid p k c

/-- What a pass leaves of it; `c₀` is the character of the turn, which a header name sees in lower
case. `S` stands for "the turn began in `h_head_flag`", the only way to go on after an empty line. -/
def MidLeft (S : Prop) (p : List Int) (c₀ : Int) : Pass → Prop :=
  Pass.All
    (fun k' c' => Mid p k' c' ∧ (k'.s.st = hHeadFlag → AtLineStart p → c₀ = 10 → S) ∧
        (c' = 10 ↔ c₀ = 10) ∧ (c' = 13 ↔ c₀ = 13) ∧ (c' = -1 ↔ c₀ = -1))
    (fun k' =>
        if k'.s.nl ≤ 1 then
          Between (p ++ [c₀]) k' ∧ (c₀ = 10 → AtLineStart p → PastRequestLine p → S)
        else c₀ = 10 ∧ AtLineStart p)
    (fun _ _ => True) True

theorem switch_mid_requestLine (S : Prop) (p : List Int) (k : Frame) (c c₀ : Int) (hk : Routed k)
    (h : Mid p k c) (hline : k.s.st.isRequestLine = true) (hlf : c = 10 ↔ c₀ = 10)
    (hcr : c = 13 ↔ c₀ = 13) (heof : c = -1 ↔ c₀ = -1) : MidLeft S p c₀ (switch k c) := by
  have hreq : (OnRequestLine p ∨ (fromRequestLine p = [] ∧ ¬(c = 10 ∨ c = 13))) → c ≠ 10 →
      OnRequestLine (p ++ [c₀]) := by
    rintro (h | ⟨h, hc⟩) h10
    · exact h.snoc (mt hlf.mpr h10)
    · exact OnRequestLine.first h (by rw [← hlf, ← hcr]; exact hc)
  have hpchar : uriPchar c = true → c ≠ 10 := by rintro h rfl; revert h; decide
  have huric : uriUric c = true → c ≠ 10 := by rintro h rfl; revert h; decide
  have hhex : uriHex c = true → c ≠ 10 := by rintro h rfl; revert h; decide
  unfold MidLeft
  cases hst : k.s.st <;> simp only [switch, hst]
  case hMethodSp | hPath | hEscaped1 | hQuery | hPathSp | hProtSlash | hProtHttpX | hProtHttpXDot =>
    simp only [Mid, hst, isRequestLine, if_true] at h
    obtain ⟨hnl, hat⟩ := h
    have hon := hreq hat
    dsimp only [hMethodSpCase, hPathCase, hEscaped1Case, hQueryCase, hPathSpCase, hProtSlashCase,
      hProtHttpXCase, hProtHttpXDotCase]
    simp [Between, Mid, hst, isRequestLine, hnl, hlf, hcr, heof]
    grind
  case hEscaped2 =>
    have hest : k.s.est = hPath ∨ k.s.est = hQuery := by
      rw [Routed, hst] at hk
      simp only [routed, Bool.and_eq_true, Bool.or_eq_true, beq_iff_eq] at hk
      exact hk.1
    simp only [Mid, hst, isRequestLine, if_true] at h
    obtain ⟨hnl, hat⟩ := h
    have hon := hreq hat
    dsimp only [hEscaped2Case]
    rcases hest with hest | hest <;>
    · simp [Between, Mid, hst, isRequestLine, hnl, hlf, hcr, heof, hest]
      grind
  case hMethod =>
    simp only [Mid, hst, isRequestLine, if_true] at h
    obtain ⟨hnl, hat⟩ := h
    have hon := hreq hat
    have hw : ∀ r t', methodWalk c k.tstate = some (r, t') → c = 10 → r = -1 := by
      rintro r t' hw rfl
      exact methodWalk_lf hw
    simp [hMethodCase, Between, Mid, hst, isRequestLine, hnl, hlf, hcr, heof]
    grind
  case hProt =>
    simp only [Mid, hst, isRequestLine, if_true] at h
    obtain ⟨hnl, hat⟩ := h
    have hon := hreq hat
    have hw : ∀ r t', protWalk c k.tstate = some (r, t') → c = 10 → r = -1 := by
      rintro r t' hw rfl
      exact protWalk_lf hw
    simp only [hProtCase, all_onWalk, all_ite, all_brk, all_ret, all_reset]
    simp [Between, Mid, hst, isRequestLine, hnl, hlf, hcr, heof, httpProto]
    grind
  case hProtHttpXX =>
    simp only [Mid, hst, isRequestLine, if_true] at h
    obtain ⟨hnl, hat⟩ := h
    have hon := hreq hat
    simp [hProtHttpXXCase, Between, Mid, hst, isRequestLine, hnl, hlf, hcr, heof]
    have := OnRequestLine.not_lf (p := p)
    have := OnRequestLine.not_past (p := p)
    grind
  case hInitial =>
    simp only [Mid, hst] at h
    obtain ⟨hnl, hat⟩ := h
    have hsnoc := fromRequestLine_snoc p c₀
    have hpast : ¬PastRequestLine p := by simp [PastRequestLine, hat]
    simp [hInitialCase, Between, Mid, hst, isRequestLine, hnl, hat, hlf, hcr, heof]
    grind
  all_goals simp [hst, isRequestLine] at hline

theorem switch_mid (S : Prop) (p : List Int) (k : Frame) (c c₀ : Int) (hk : Routed k)
    (h : Mid p k c) (hS : k.s.st = hHeadFlag → AtLineStart p → c₀ = 10 → S)
    (hlf : c = 10 ↔ c₀ = 10) (hcr : c = 13 ↔ c₀ = 13) (heof : c = -1 ↔ c₀ = -1) (hne : c₀ ≠ -1) :
    MidLeft S p c₀ (switch k c) := by
  by_cases hline : k.s.st.isRequestLine = true
  · exact switch_mid_requestLine S p k c c₀ hk h hline hlf hcr heof
  have hstart : ∀ q : List Int, [10] <:+ q → AtLineStart q := fun q hq => .inl hq
  have hlow10 : toLower c = 10 ↔ c = 10 := toLower_eq (by decide)
  have hlow13 : toLower c = 13 ↔ c = 13 := toLower_eq (by decide)
  have hlow1 : toLower c = -1 ↔ c = -1 := toLower_eq (by decide)
  unfold MidLeft
  cases hst : k.s.st <;> simp only [switch, hst]
  case hNl =>
    simp only [Mid, hst] at h
    obtain ⟨hnl, hpast, hat⟩ := h
    have := hstart p hat
    simp [hNlCase, Between, Mid, hst, isRequestLine, hnl, hpast, hat, hlf, hcr, heof]
    grind
  case hCr =>
    simp only [Mid, hst] at h
    simp [hCrCase, Between, Mid, hst, isRequestLine, hlf, hcr, heof]
    grind
  case hHeader =>
    simp only [Mid, hst, isRequestLine] at h
    obtain ⟨hnl, hpast, hat⟩ := h
    simp only [hHeaderCase, all_onWalk, all_ite, all_reset]
    refine ⟨fun _ => trivial, fun r t' hw => ⟨fun _ => ?_, fun hr => ?_⟩⟩
    · simp only [shift_s, Mid, isRequestLine, hlow10, hlow13, hlow1]
      exact ⟨⟨hnl, hpast, hat⟩, by simp, hlf, hcr, heof⟩
    · -- a line end matches nothing in a name
      have hc : ¬(c = 10 ∨ c = 13) := by
        intro hc
        have := headerWalk_blank (by omega) (by omega) hw
        omega
      have h10 : c₀ ≠ 10 := fun h => hc (.inl (hlf.mpr h))
      have h13 : c₀ ≠ 13 := fun h => hc (.inr (hcr.mpr h))
      simp [hHeaderMatched, Between, Mid, hst, isRequestLine, hnl, hpast, h10, h13]
  case hHeadFlag =>
    simp only [Mid, hst] at h
    obtain ⟨hnl, hpast, hat⟩ := h
    have := hstart p
    have hw : ∀ r t', flagWalk k.patinitialFlag (toLower c) k.tstate = some (r, t') →
        (c = 10 ∨ c = 13) → t' = k.tstate ∧ (r = 0 ↔ Stuck k.tstate) := by
      rintro r t' hw hc
      exact flagWalk_lineEnd (by omega) hw
    simp [hHeadFlagCase, Between, Mid, hst, isRequestLine, hnl, hpast, hlf, hcr, heof, hlow10, hlow13, hlow1]
    grind
  case hValueLead =>
    simp only [Mid, hst, isRequestLine] at h
    obtain ⟨hnl, hpast, hat⟩ := h
    have := hstart p
    rw [Routed, hst] at hk
    simp only [hValueLeadCase, all_ite, all_reset, all_brk]
    refine ⟨fun hc => ?_, fun hc => ?_⟩
    · cases hest : k.s.est <;> simp [routed, hest, isValue] at hk
      all_goals simp_all [Mid, isRequestLine]
    · simp [Between, Mid, hst, isRequestLine, hnl, hpast]
      grind
  all_goals first | exact absurd (by rw [hst]; rfl) hline | skip
  all_goals
    try simp only [Mid, hst, isRequestLine] at h
    dsimp only [hHeadConnectionCase, hHeadExpectCase, hHeadTransferEncodingCase, hHeadFlagInitial,
      hHeadContentLengthCase, hContCase, hValueCase, hSkiplineCase, hErrorCase]
    try simp [Between, Mid, hst, isRequestLine, hlf, hcr, heof, hne]
  all_goals
    obtain ⟨hnl, hpast, hat⟩ := h
    have := hstart p
    grind

/-! ## Turns and runs -/

theorem iterate_between {p : List Int} {k : Frame} {c : Int} (hk : Routed k) (h : Between p k)
    (hc : c ≠ -1) :
    (iterate k c).Holds
      (fun k' => Between (p ++ [c]) k' ∧
        (EndsBlank (p ++ [c]) → PastRequestLine (p ++ [c]) → k.s.st = hHeadFlag))
      (fun r => ∀ k', r = .ok k' → EndsBlank (p ++ [c])) := by
  have hi := iterate_inv (fun k₁ c₁ h₁ => ?_) (c := c) (k := k)
    (N := fun k' c' => Routed k' ∧ Mid p k' c' ∧
      (k'.s.st = hHeadFlag → AtLineStart p → c = 10 → k.s.st = hHeadFlag) ∧
      (c' = 10 ↔ c = 10) ∧ (c' = 13 ↔ c = 13) ∧ (c' = -1 ↔ c = -1))
    (B := fun k' =>
      if k'.s.nl ≤ 1 then
        Between (p ++ [c]) k' ∧ (c = 10 → AtLineStart p → PastRequestLine p → k.s.st = hHeadFlag)
      else c = 10 ∧ AtLineStart p)
    (R := fun _ _ => True) (F := True)
    ⟨hk, h c, fun hst _ _ => hst, Iff.rfl, Iff.rfl, Iff.rfl⟩
  · cases hs : iterate k c with
    | next k' =>
      rw [hs] at hi
      obtain ⟨k₁, h₁, hnl, rfl⟩ := hi
      rw [if_pos hnl] at h₁
      refine ⟨h₁.1, ?_⟩
      rw [endsBlank_snoc, pastRequestLine_snoc]
      rintro ⟨h10, hat⟩ (hpast | ⟨-, hon⟩)
      · exact h₁.2 h10 hat hpast
      · exact absurd hat hon.not_atLineStart
    | halt r =>
      rintro k' rfl
      rw [hs] at hi
      obtain ⟨k₁, h₁, hnl, rfl⟩ := hi
      rw [if_neg (by omega)] at h₁
      exact endsBlank_snoc.mpr h₁
  · obtain ⟨hr, hm, hS, hlf, hcr, heof⟩ := h₁
    have h₂ := switch_mid (k.s.st = hHeadFlag) p k₁ c₁ c hr hm hS hlf hcr heof hc
    exact ((switch_routed k₁ c₁ hr).and h₂).imp (fun _ _ h => ⟨h.1.1, h.2⟩) (fun _ h => h.2)
      (fun _ _ _ => trivial) fun _ => trivial

theorem iterate_flag_ne_ok {k k' : Frame} {c : Int} (hst : k.s.st = hHeadFlag) (hnl : k.s.nl = 0)
    (hc : c ≠ -1) : iterate k c ≠ .halt (.ok k') := by
  intro h
  have hlow : toLower c ≠ -1 := mt (toLower_eq (by decide)).mp hc
  have hi := iterate_inv (k := k) (c := c)
    (N := fun k' c' => (k'.s.st = hHeadFlag ∨ k'.s.st = hSkipline) ∧ k'.s.nl = 0 ∧ c' ≠ -1)
    (B := fun k' => k'.s.nl ≤ 1) (R := fun _ _ => True) (F := True) ?_ ⟨.inl hst, hnl, hc⟩
  · rw [h] at hi
    obtain ⟨k₁, h₁, h₂, -⟩ := hi
    omega
  · rintro k₁ c₁ ⟨hst | hst, hnl, hc₁⟩
    · have hlow : toLower c₁ ≠ -1 := mt (toLower_eq (by decide)).mp hc₁
      simp [switch, hst, hHeadFlagCase, hnl, hlow]
    · simp [switch, hst, hSkiplineCase, hnl, hc₁]

theorem feed_between_from {k k' : Frame} {p cs : List Int} (hk : Routed k) (h : Between p k)
    (hf : feed iterate k cs = .next k') : Routed k' ∧ Between (p ++ cs) k' := by
  refine feed_inv (fun q k => Routed k ∧ Between (p ++ q) k) ⟨hk, ?_⟩ (fun q k₁ c k₂ h₁ hs => ?_) hf
  · rwa [List.append_nil]
  · have hc : c ≠ -1 := by
      rintro rfl
      exact iterate_eof k₁ k₂ hs
    have hi := iterate_between h₁.1 h₁.2 hc
    rw [hs, List.append_assoc] at hi
    exact ⟨iterate_routed h₁.1 hs, hi.1⟩

theorem feed_between {k k' : Frame} {cs : List Int} (hk : Routed k) (h : Between [] k)
    (hf : feed iterate k cs = .next k') : Routed k' ∧ Between cs k' :=
  feed_between_from hk h hf

/-- The head that was read ends with an empty line, and with the first one after the request line. -/
def EndsAtFirstBlank (w : List Int) : Prop :=
  EndsBlank w ∧ ∀ p, p <+: w → p ≠ w → PastRequestLine p → ¬EndsBlank p

/-- No character of the run is -1, and no empty line ends in the state `h_head_flag`. -/
def LineEndsSeen (k : Frame) (cs : List Int) : Prop :=
  ∀ p c q k', cs = p ++ c :: q → feed iterate k p = .next k' →
    c ≠ -1 ∧ ¬(k'.s.st = hHeadFlag ∧ EndsBlank (p ++ [c]))

theorem not_endsBlank_nil : ¬EndsBlank [] := by
  rintro (⟨t, ht⟩ | ⟨t, ht⟩) <;> simp at ht

/-- **Where a run that ends the head has read its line ends**, it has ended it at the first empty line,
and only there. -/
theorem feed_endsAtFirstBlank {k k' : Frame} {p rest : List Int} {c : Int} (hk : Routed k)
    (h : Between [] k) {k₁ : Frame} (hp : feed iterate k p = .next k₁)
    (hc : iterate k₁ c = .halt (.ok k')) :
    EndsAtFirstBlank (p ++ [c]) ↔ LineEndsSeen k (p ++ c :: rest) := by
  -- a step of the run is one before its end, or the end itself
  have hprefix : ∀ q x r k₂, p ++ c :: rest = q ++ x :: r → feed iterate k q = .next k₂ →
      (q = p ∧ x = c) ∨ ∃ s, p = q ++ x :: s := by
    intro q x r k₂ hw hq
    rcases List.append_eq_append_iff.mp hw with ⟨s, hs, hs'⟩ | ⟨s, hs, hs'⟩
    · cases s with
      | nil => simp only [List.nil_append, List.cons.injEq] at hs'; exact .inl ⟨by simpa using hs, hs'.1.symm⟩
      | cons y s =>
        -- `q` would go past the end
        exfalso
        simp only [List.cons_append, List.cons.injEq] at hs'
        obtain ⟨rfl, -⟩ := hs'
        rw [hs, feed_append_next _ hp, feed_cons_halt _ hc] at hq
        simp at hq
    · cases s with
      | nil => simp only [List.nil_append, List.cons.injEq] at hs'; exact .inl ⟨by simpa using hs.symm, hs'.1⟩
      | cons y s =>
        simp only [List.cons_append, List.cons.injEq] at hs'
        obtain ⟨rfl, -⟩ := hs'
        exact .inr ⟨s, hs⟩
  constructor
  · rintro ⟨hend, hfirst⟩ q x r k₂ hw hq
    obtain ⟨hr₂, hb₂⟩ := feed_between hk h hq
    rcases hprefix q x r k₂ hw hq with ⟨rfl, rfl⟩ | ⟨s, rfl⟩
    · have hx : x ≠ -1 := by
        rintro rfl
        simp [endsBlank_snoc] at hend
      refine ⟨hx, fun hbad => ?_⟩
      rw [hp, Step.next.injEq] at hq
      subst hq
      have hm := hb₂ 0
      simp only [Mid, hbad.1] at hm
      exact iterate_flag_ne_ok hbad.1 hm.1 hx hc
    · have hnext : ∃ k₃, iterate k₂ x = .next k₃ := by
        rw [feed_append_next _ hq, feed_cons] at hp
        cases hs : iterate k₂ x with
        | next k₃ => exact ⟨k₃, rfl⟩
        | halt r => rw [hs] at hp; simp at hp
      obtain ⟨k₃, hs⟩ := hnext
      refine ⟨by rintro rfl; exact iterate_eof k₂ k₃ hs, fun hbad => ?_⟩
      have hm := hb₂ 0
      simp only [Mid, hbad.1] at hm
      refine hfirst (q ++ [x]) ⟨s ++ [c], by simp⟩ (by simp) ?_ hbad.2
      exact hm.2.1.append [x]
  · intro hseen
    obtain ⟨hr₁, hb₁⟩ := feed_between hk h hp
    have hlast := hseen p c rest k₁ rfl hp
    have hi := iterate_between hr₁ hb₁ hlast.1
    rw [hc] at hi
    refine ⟨hi k' rfl, fun q hq hne hpast hblank => ?_⟩
    obtain rfl | ⟨q', x, rfl⟩ := List.eq_nil_or_concat' q
    · exact not_endsBlank_nil hblank
    · -- the prefix ends at a step of the run
      obtain ⟨s, hs⟩ := hq
      obtain ⟨s', rfl⟩ : ∃ s', p = q' ++ x :: s' := by
        rcases List.eq_nil_or_concat' s with rfl | ⟨s', y, rfl⟩
        · exact absurd (by simpa using hs) hne
        · refine ⟨s', ?_⟩
          have hsplit : q' ++ [x] ++ s' ++ [y] = p ++ [c] := by simpa using hs
          have := (List.append_inj' hsplit rfl).1
          simpa using this.symm
      obtain ⟨k₂, hq', hrest⟩ : ∃ k₂, feed iterate k q' = .next k₂ ∧
          feed iterate k₂ (x :: s') = .next k₁ := feed_prefix_next hp
      obtain ⟨hr₂, hb₂⟩ := feed_between hk h hq'
      have hstep := hseen q' x (s' ++ c :: rest) k₂ (by simp) hq'
      have hi := iterate_between hr₂ hb₂ hstep.1
      rw [feed_cons] at hrest
      cases hs₂ : iterate k₂ x with
      | halt r => rw [hs₂] at hrest; simp at hrest
      | next k₃ =>
        rw [hs₂] at hi
        exact hstep.2 ⟨hi.2 hblank hpast, hblank⟩

instance EndsBlank.decidable (p : List Int) : Decidable (EndsBlank p) :=
  inferInstanceAs (Decidable (_ ∨ _))

instance PastRequestLine.decidable (p : List Int) : Decidable (PastRequestLine p) :=
  inferInstanceAs (Decidable (_ ∈ _))

instance EndsAtFirstBlank.decidable (w : List Int) : Decidable (EndsAtFirstBlank w) :=
  decidable_of_iff
    (EndsBlank w ∧ ∀ p ∈ w.inits, p ≠ w → PastRequestLine p → ¬EndsBlank p) <| by
    simp only [List.mem_inits, EndsAtFirstBlank]

/-- **The head ends at the first empty line exactly where the line ends are seen.** The end of file is
not flagged, and the call returns 0. -/
theorem head_ends_iff {rq rq' : MinuteHttpRq} {hmask : Uint} {rqs' : MinuteHttpRqs} {io io' : Iobuf}
    {text text' : Textint} (heof : io.eof = false)
    (h : minuteHttpRead rq (minuteHttpInit hmask io text).1 io (minuteHttpInit hmask io text).2 =
      .code 0 rq' rqs' io' text') :
    EndsAtFirstBlank (chars (io.taken io')) ↔
      LineEndsSeen
        (startFrame rq (minuteHttpInit hmask io text).1 io (minuteHttpInit hmask io text).2)
        (chars (io.from io.read)) := by
  set k := startFrame rq (minuteHttpInit hmask io text).1 io (minuteHttpInit hmask io text).2
    with hk
  have hr : Routed k := rfl
  have hb : Between [] k := fun c => ⟨rfl, rfl⟩
  obtain ⟨k', rest, hf, -, -, rfl, -⟩ := read_ok hr h
  have hreadable : io.readable io.read = chars (io.from io.read) := by
    rw [Iobuf.readable, heof]
    simp
  have hf : feed iterate k (chars (io.from io.read)) = .halt (.ok k', rest) := hreadable ▸ hf
  obtain ⟨p, c, k₁, hw, hp, hc, htaken⟩ := chars_taken rfl hf
  rw [htaken, hw]
  exact feed_endsAtFirstBlank hr hb hp hc

/-- A head without 0xFF, and with no flag value whose line end is kept. -/
theorem head_ends_simple :
    let io := Iobuf.holding 4096 (bytes "\nGET / HTTP/1.1\r\nHost: a\r\n\r\nxyz")
    let init := minuteHttpInit minuteAllHeaders io (minuteTextintInit 64 fun _ => 0)
    LineEndsSeen (startFrame .zero init.1 io init.2) (chars (io.from io.read)) := by
  intro io init
  obtain ⟨rq', rqs', io', text', h, hend⟩ := (ReadResult.succeeds_iff
    (P := fun _ _ io' _ => EndsAtFirstBlank (chars (io.taken io')))
    (r := minuteHttpRead .zero init.1 io init.2)).mp (by decide +kernel)
  exact (head_ends_iff (by decide +kernel) h).mp hend

/-- The byte 0xFF in the value of a header ends the head in the middle of its line. -/
theorem head_ends_early :
    ∃ (hmask : Uint) (io : Iobuf) (text : Textint), io.eof = false ∧
      (minuteHttpRead .zero (minuteHttpInit hmask io text).1 io
        (minuteHttpInit hmask io text).2).Succeeds fun _ _ io' _ =>
          ¬EndsAtFirstBlank (chars (io.taken io')) :=
  ⟨minuteAllHeaders, Iobuf.holding 4096 (bytes "GET / HTTP/1.1\nX: y\xff\n\n"),
    minuteTextintInit 64 fun _ => 0, by decide +kernel, by decide +kernel⟩

end MinuteHttp
