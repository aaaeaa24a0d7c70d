import MinuteHttp.Libhttp.TextStore
import MinuteHttp.Libhttp.Resume

/-!
# The headers stored in the text buffer

A collected header is a pair of integers, its number and the offset of its value in the text, and the
value's characters with a NUL after them. While a value is being read (`Open`) the NUL is still to
come; when it has been read every stored string is terminated (`Terminated`). A continuation line
takes the last NUL away again (`h_cont`): it opens the value it continues, except where the header
before it was an interpreted one (`BadFold`). Then nothing puts the NUL back until the next collected
header does, and `store_wellFormed_iff` says that this is the only way to lose it.
-/

namespace MinuteHttp

open HttpRequestState Feed

/-! ## The stored strings -/

/-- The (name, offset) pairs among the integers. -/
def pairs : List Uint → List (Uint × Uint)
  | r :: o :: is => (r, o) :: pairs is
  | _ => []

/-- Every stored string begins after offset 0 and has a NUL among the characters. -/
def Terminated (cs : List Byte) (is : List Uint) : Prop :=
  ∀ p ∈ pairs is, 1 ≤ p.2.toNat ∧ 0 ∈ cs.drop p.2.toNat

/-- What a caller relies on when it reads the headers. -/
structure StoreWellFormed (t : Textint) : Prop where
  even : (minuteTextintIntsize t).toNat % 2 = 0
  string : ∀ j : Nat, 2 * j + 1 < (minuteTextintIntsize t).toNat →
    let o := (minuteTextintGeti ((2 * j + 1 : Nat) : Int) t).toNat
    1 ≤ o ∧ o < t.text.toNat ∧ ∃ i, o ≤ i ∧ i < t.text.toNat ∧ t.data i = 0

theorem mem_pairs {is : List Uint} {p : Uint × Uint} :
    p ∈ pairs is ↔ ∃ j, is[2 * j]? = some p.1 ∧ is[2 * j + 1]? = some p.2 := by
  induction is using pairs.induct with
  | case1 r o is ih =>
    rw [pairs, List.mem_cons, ih]
    constructor
    · rintro (rfl | ⟨j, h₁, h₂⟩)
      · exact ⟨0, rfl, rfl⟩
      · exact ⟨j + 1, by simpa [Nat.mul_add] using h₁, by simpa [Nat.mul_add] using h₂⟩
    · rintro ⟨j, h₁, h₂⟩
      cases j with
      | zero =>
        simp only [Nat.mul_zero, List.getElem?_cons_zero, Option.some.injEq, Nat.zero_add,
          List.getElem?_cons_succ] at h₁ h₂
        exact .inl (Prod.ext h₁.symm h₂.symm)
      | succ j => exact .inr ⟨j, by simpa [Nat.mul_add] using h₁, by simpa [Nat.mul_add] using h₂⟩
  | case2 is h =>
    rw [pairs]
    · simp only [List.not_mem_nil, false_iff]
      rintro ⟨j, -, h₂⟩
      match is, h with
      | [], _ => simp at h₂
      | [_], _ => simp at h₂
      | r :: o :: is', h => exact h r o is' rfl
    · exact h

theorem pairs_append {is : List Uint} (h : is.length % 2 = 0) (r o : Uint) :
    pairs (is ++ [r] ++ [o]) = pairs is ++ [(r, o)] := by
  induction is using pairs.induct with
  | case1 r' o' is ih =>
    have h : is.length % 2 = 0 := by simp only [List.length_cons] at h; omega
    simpa [pairs] using ih h
  | case2 is hne =>
    match is, hne with
    | [], _ => rfl
    | [_], _ => simp at h
    | r' :: o' :: is', hne => exact (hne r' o' is' rfl).elim

theorem getElem?_integers {t : Textint} {j : Nat} (hj : j < (minuteTextintIntsize t).toNat) :
    t.integers[j]? = some (minuteTextintGeti j t) := by
  simp [Textint.integers, hj]

theorem nul_mem_drop {t : Textint} {o : Nat} :
    (0 : Byte) ∈ t.chars.drop o ↔ ∃ i, o ≤ i ∧ i < t.text.toNat ∧ t.data i = 0 := by
  rw [List.mem_iff_getElem?]
  simp only [List.getElem?_drop, Textint.chars, Block.getElem?_slice, Nat.zero_add]
  constructor
  · rintro ⟨i, hi⟩
    split at hi
    · exact ⟨o + i, by omega, by assumption, by simpa using hi⟩
    · cases hi
  · rintro ⟨i, h₁, h₂, h₃⟩
    obtain ⟨d, rfl⟩ := Nat.exists_eq_add_of_le h₁
    exact ⟨d, by rw [if_pos h₂, h₃]⟩

theorem storeWellFormed_iff_lists {t : Textint} :
    StoreWellFormed t ↔ t.integers.length % 2 = 0 ∧ Terminated t.chars t.integers := by
  rw [length_integers]
  constructor
  · rintro ⟨heven, hs⟩
    refine ⟨heven, fun p hp => ?_⟩
    obtain ⟨j, -, hj⟩ := mem_pairs.mp hp
    have hlt : 2 * j + 1 < (minuteTextintIntsize t).toNat := by
      have := (List.getElem?_eq_some_iff.mp hj).1
      rwa [length_integers] at this
    rw [getElem?_integers hlt, Option.some.injEq] at hj
    obtain ⟨h₁, -, h₂⟩ := hs j hlt
    rw [hj] at h₁ h₂
    exact ⟨h₁, nul_mem_drop.mpr h₂⟩
  · rintro ⟨heven, hs⟩
    refine ⟨heven, fun j hj => ?_⟩
    have hp : (minuteTextintGeti ((2 * j : Nat) : Int) t,
        minuteTextintGeti ((2 * j + 1 : Nat) : Int) t) ∈ pairs t.integers :=
      mem_pairs.mpr ⟨j, getElem?_integers (by omega), getElem?_integers hj⟩
    obtain ⟨h₁, h₂⟩ := hs _ hp
    obtain ⟨i, h₃, h₄, h₅⟩ := nul_mem_drop.mp h₂
    exact ⟨h₁, by dsimp only at h₃ ⊢; omega, i, h₃, h₄, h₅⟩

/-! ## What the parser keeps of the buffer -/

/-- Whole pairs, and offsets that point into the characters put so far or to their end. -/
structure StoreInv (t : Textint) : Prop where
  ok : TextintOk t
  even : t.integers.length % 2 = 0
  offset : ∀ p ∈ pairs t.integers, 1 ≤ p.2.toNat ∧ p.2.toNat ≤ t.chars.length

/-- The states in which the buffer may have no room at all. -/
def HttpRequestState.early : HttpRequestState → Bool
  | hInitial | hMethod | hMethodSp | hPath | hEscaped1 | hEscaped2 | hErrorBadRequest
  | hErrorNotImplemented | hErrorInternalServerError | hNewline | hHeaderUnknown => true
  | _ => false

def StoreOk (k : Frame) : Prop := StoreInv k.text ∨ (k.text.ints = 0 ∧ k.s.st.early = true)

section
variable {t t' t'' : Textint}

theorem StoreInv.putc {c : Byte} (h : StoreInv t) (hp : minuteTextintPutc c t = some t') :
    StoreInv t' := by
  obtain ⟨hok, hc, hi⟩ := putc_spec h.ok hp
  refine ⟨hok, by rw [hi]; exact h.even, fun p hp => ?_⟩
  rw [hi] at hp
  have := h.offset p hp
  rw [hc, List.length_append]
  omega

theorem StoreOk.inv_of_putc {k : Frame} {c : Byte} (h : StoreOk k)
    (hp : minuteTextintPutc c k.text = some t') : StoreInv k.text := by
  obtain h | ⟨h0, -⟩ := h
  · exact h
  · -- without room for integers there is none for a character
    rw [minuteTextintPutc, h0] at hp
    simp at hp

theorem StoreInv.pair {r : Uint} (h : StoreInv t) (hr : minuteTextintPuti r t = some t')
    (ho : minuteTextintPuti t'.text t' = some t'') :
    StoreInv t'' ∧ t''.chars = t.chars := by
  obtain ⟨hok, hc, hi⟩ := puti_spec h.ok hr
  obtain ⟨hok', hc', hi'⟩ := puti_spec hok ho
  have hchars : t''.chars = t.chars := hc'.trans hc
  refine ⟨⟨hok', ?_, fun p hp => ?_⟩, hchars⟩
  · rw [hi', hi, List.length_append, List.length_append]
    have := h.even
    simp only [List.length_singleton]
    omega
  · rw [hi', hi, pairs_append h.even, List.mem_append, List.mem_singleton] at hp
    rw [hchars]
    rcases hp with hp | rfl
    · exact h.offset p hp
    · have := hok.text_pos
      rw [← hc, length_chars]
      exact ⟨this, Nat.le_refl _⟩

theorem StoreInv.replacec (c : Byte) (h : StoreInv t) : StoreInv (minuteTextintReplacec (-1) c t) := by
  obtain ⟨hok, hc, hi⟩ := replacec_spec c h.ok
  refine ⟨hok, by rw [hi]; exact h.even, fun p hp => ?_⟩
  rw [hi] at hp
  have := h.offset p hp
  have := h.ok.text_pos
  rw [hc, List.length_append, List.length_dropLast, length_chars, List.length_singleton]
  rw [length_chars] at *
  omega

/-- Every stored string is terminated. -/
def StringsTerminated (t : Textint) : Prop := Terminated t.chars t.integers

/-- Every stored string has a NUL before the last character of the text. -/
def NulBeforeLast (t : Textint) : Prop := Terminated t.chars.dropLast t.integers

theorem StoreInv.terminate (h : StoreInv t) (hp : minuteTextintPutc 0 t = some t') :
    StringsTerminated t' := by
  obtain ⟨-, hc, hi⟩ := putc_spec h.ok hp
  intro p hp
  rw [hi] at hp
  obtain ⟨h₁, h₂⟩ := h.offset p hp
  refine ⟨h₁, ?_⟩
  rw [hc, List.drop_append_of_le_length h₂]
  simp

theorem StoreInv.terminated_putc {c : Byte} (h : StoreInv t) (hp : minuteTextintPutc c t = some t')
    (hs : StringsTerminated t) : StringsTerminated t' := by
  obtain ⟨-, hc, hi⟩ := putc_spec h.ok hp
  intro p hp
  rw [hi] at hp
  obtain ⟨h₁, h₂⟩ := hs p hp
  refine ⟨h₁, ?_⟩
  rw [hc, List.drop_append_of_le_length (h.offset p hp).2]
  exact List.mem_append_left _ h₂

theorem terminated_dropLast {cs : List Byte} {is : List Uint} (h : Terminated cs.dropLast is) :
    Terminated cs is := by
  intro p hp
  refine ⟨(h p hp).1, ?_⟩
  have h₂ := (h p hp).2
  rw [List.dropLast_eq_take, List.drop_take] at h₂
  exact List.mem_of_mem_take h₂

/-- Taking the last NUL away leaves the strings that have another. -/
theorem StoreInv.terminated_replacec (h : StoreInv t) :
    StringsTerminated (minuteTextintReplacec (-1) 32 t) ↔ NulBeforeLast t := by
  obtain ⟨-, hc, hi⟩ := replacec_spec 32 h.ok
  unfold StringsTerminated NulBeforeLast
  rw [hc, hi]
  refine forall₂_congr fun p _ => and_congr_right fun _ => ?_
  rw [List.drop_append, List.mem_append]
  refine or_iff_left fun h0 => ?_
  have := List.mem_of_mem_drop h0
  simp at this

end

/-! ## Open values -/

/-- A collected value is being read. -/
def Open (k : Frame) : Prop := k.s.st = hValue ∨ (k.s.st = hValueLead ∧ k.s.est = hValue)

/-- A continuation line that takes the last NUL away and does not go on with a collected value. -/
def BadFold (k : Frame) : Prop := k.s.st = hCont ∧ k.s.collect = true ∧ k.s.est ≠ hValue

instance (k : Frame) : Decidable (BadFold k) := inferInstanceAs (Decidable (_ ∧ _))

/-- Connection, Content-Length, Expect and Transfer-Encoding. -/
def interpreted (r : Nat) : Bool :=
  r == HttpRequestHeader.connection.code || r == HttpRequestHeader.contentLength.code ||
    r == HttpRequestHeader.expect.code || r == HttpRequestHeader.transferEncoding.code

/-- A header that is to be collected is recognised on `c`. -/
def collects (k : Frame) (c : Int) : Bool :=
  k.s.st == hHeader &&
    match headerWalk (toLower c) k.tstate with
    | some (r, _) => decide (0 < r) && !interpreted r.toNat && selected k.s.hmask r.toNat
    | none => false

/-- Before a pass: unless a value is open, the strings are terminated, or `A`. -/
structure Stored (A : Prop) (k : Frame) : Prop where
  ok : StoreOk k
  nl : k.s.nl ≤ 1
  closed : ¬Open k → StoreInv k.text → StringsTerminated k.text ∨ A
  fold : BadFold k → NulBeforeLast k.text ∨ A

theorem stored_iff {A : Prop} {k : Frame} :
    Stored A k ↔ StoreOk k ∧ k.s.nl ≤ 1 ∧ (¬Open k → StoreInv k.text → StringsTerminated k.text ∨ A) ∧
      (BadFold k → NulBeforeLast k.text ∨ A) :=
  ⟨fun ⟨h₁, h₂, h₃, h₄⟩ => ⟨h₁, h₂, h₃, h₄⟩, fun ⟨h₁, h₂, h₃, h₄⟩ => ⟨h₁, h₂, h₃, h₄⟩⟩

theorem switch_stored (A : Prop) (k : Frame) (c : Int) (hk : Routed k) (h : Stored A k) :
    Pass.All (fun k' _ => Stored A k')
      (fun k' => StoreOk k' ∧
        ((k'.s.nl ≤ 1 → ¬Open k') → StoreInv k'.text → StringsTerminated k'.text ∨ A))
      (fun _ _ => True) True (switch k c) := by
  obtain ⟨hok, hnl, hclosed, hfold⟩ := h
  have hlate : k.s.st.early = false → StoreInv k.text := by
    intro h
    obtain h' | ⟨-, h'⟩ := hok
    · exact h'
    · rw [h] at h'
      cases h'
  have hputc : ∀ b t, minuteTextintPutc b k.text = some t → StoreInv k.text ∧ StoreInv t ∧
      (StringsTerminated k.text → StringsTerminated t) := by
    intro b t ht
    have hinv := hok.inv_of_putc ht
    exact ⟨hinv, hinv.putc ht, hinv.terminated_putc ht⟩
  have hputc0 : ∀ t, minuteTextintPutc 0 k.text = some t → StringsTerminated t :=
    fun t ht => (hok.inv_of_putc ht).terminate ht
  cases hst : k.s.st <;> simp only [switch, hst]
  case hEscaped2 =>
    have hest : k.s.est = hPath ∨ k.s.est = hQuery := by
      rw [Routed, hst] at hk
      simp only [routed, Bool.and_eq_true, Bool.or_eq_true, beq_iff_eq] at hk
      exact hk.1
    simp only [StoreOk, Open, BadFold, hst] at hok hclosed hfold
    rcases hest with hest | hest <;>
    · simp [hEscaped2Case, stored_iff, StoreOk, Open, BadFold, hest, early, hnl]
      grind
  case hInitial | hMethod | hMethodSp | hPath | hEscaped1 | hQuery | hPathSp | hProt | hProtSlash |
      hProtHttpX | hProtHttpXDot | hProtHttpXX | hCr | hNl =>
    simp only [hst, early] at hlate
    simp only [StoreOk, Open, BadFold, hst] at hok hclosed hfold
    dsimp only [hInitialCase, hMethodCase, hMethodSpCase, hPathCase, hEscaped1Case, hQueryCase,
      hPathSpCase, hProtCase, hProtSlashCase, hProtHttpXCase, hProtHttpXDotCase, hProtHttpXXCase,
      hCrCase, hNlCase]
    simp [stored_iff, StoreOk, Open, BadFold, hst, early, hnl]
    grind
  case hHeadConnection | hHeadExpect | hHeadTransferEncoding | hHeadContentLength | hHeadFlag |
      hSkipline =>
    have hinv := hlate (by rw [hst]; rfl)
    simp only [Open, hst] at hclosed
    dsimp only [hHeadConnectionCase, hHeadExpectCase, hHeadTransferEncodingCase, hHeadFlagInitial,
      hHeadContentLengthCase, hHeadFlagCase, hSkiplineCase]
    simp [stored_iff, StoreOk, Open, BadFold, hst, early, hnl, hinv]
    grind
  case hHeader =>
    have hinv := hlate (by rw [hst]; rfl)
    have hpair : ∀ r t t', minuteTextintPuti r k.text = some t →
        minuteTextintPuti t.text t = some t' → StoreInv t' := fun r t t' h₁ h₂ => (hinv.pair h₁ h₂).1
    simp only [Open, hst] at hclosed
    dsimp only [hHeaderCase, hHeaderMatched]
    simp [stored_iff, StoreOk, Open, BadFold, hst, early, hnl, hinv]
    grind
  case hCont =>
    have hinv := hlate (by rw [hst]; rfl)
    have hrep := hinv.replacec 32
    have hterm := hinv.terminated_replacec
    simp only [Open, hst] at hclosed
    simp only [BadFold, hst] at hfold
    simp only [hContCase, all_ite, all_reset, stored_iff, StoreOk, Open, BadFold, shift_s, shift_text]
    grind
  case hValueLead =>
    have hinv := hlate (by rw [hst]; rfl)
    rw [Routed, hst] at hk
    have hest : k.s.est.early = false := by cases he : k.s.est <;> simp_all [routed, isValue, early]
    have hcont : k.s.est ≠ hCont := by rintro he; simp [routed, he, isValue] at hk
    have hlead : k.s.est ≠ hValueLead := by rintro he; simp [routed, he, isValue] at hk
    simp only [Open, hst] at hclosed
    simp [hValueLeadCase, stored_iff, StoreOk, Open, BadFold, hst, early, hnl, hinv]
    grind
  case hValue =>
    have hinv := hlate (by rw [hst]; rfl)
    simp [hValueCase, stored_iff, StoreOk, Open, BadFold, hst, early, hnl]
    grind
  all_goals exact trivial

/-! ## Turns -/

/-- The line count goes over one only between or inside header lines, and not in `h_cont`. -/
theorem switch_nl (k : Frame) (c : Int) (hnl : k.s.nl ≤ 1) :
    Pass.All (fun k' _ => k'.s.nl ≤ 1)
      (fun k' => 1 < k'.s.nl → k'.s.st ≠ hCont ∧ k'.s.st.early = false) (fun _ _ => True) True
      (switch k c) := by
  have hlt : ¬1 < k.s.nl := by omega
  cases hst : k.s.st <;> simp only [switch, hst]
  all_goals
    dsimp only [hInitialCase, hMethodCase, hMethodSpCase, hPathCase, hEscaped1Case, hEscaped2Case,
      hQueryCase, hPathSpCase, hProtCase, hProtSlashCase, hProtHttpXCase, hProtHttpXDotCase,
      hProtHttpXXCase, hCrCase, hNlCase, hHeaderCase, hHeaderMatched, hHeadConnectionCase,
      hHeadExpectCase, hHeadTransferEncodingCase, hHeadFlagInitial, hHeadContentLengthCase,
      hHeadFlagCase, hContCase, hValueLeadCase, hValueCase, hSkiplineCase, hErrorCase]
    simp [hst, hnl, hlt, early]

theorem iterate_stored {A : Prop} {k : Frame} {c : Int} (hk : Routed k) (h : Stored A k) :
    (iterate k c).Holds
      (fun k' => StoreOk k' ∧ k'.s.nl ≤ 1 ∧
        (¬Open k' → StoreInv k'.text → StringsTerminated k'.text ∨ A))
      (fun r => ∀ k', r = .ok k' → StoreInv k'.text ∧ (StringsTerminated k'.text ∨ A)) := by
  have hi := iterate_inv (fun k₁ c₁ h₁ => ?_) (c := c) (k := k)
    (N := fun k' _ => Routed k' ∧ Stored A k')
    (B := fun k' => (StoreOk k' ∧
      ((k'.s.nl ≤ 1 → ¬Open k') → StoreInv k'.text → StringsTerminated k'.text ∨ A)) ∧
      (1 < k'.s.nl → k'.s.st ≠ hCont ∧ k'.s.st.early = false))
    (R := fun _ _ => True) (F := True) ⟨hk, h⟩
  · cases hs : iterate k c with
    | next k' =>
      rw [hs] at hi
      obtain ⟨k₁, ⟨⟨h₁, h₂⟩, -⟩, hnl, rfl⟩ := hi
      exact ⟨h₁, hnl, fun ho => h₂ fun _ => ho⟩
    | halt r =>
      rintro k' rfl
      rw [hs] at hi
      obtain ⟨k₁, ⟨⟨h₁, h₂⟩, h₃⟩, hnl, rfl⟩ := hi
      have hinv : StoreInv k₁.text := by
        obtain h' | ⟨-, h'⟩ := h₁
        · exact h'
        · rw [(h₃ hnl).2] at h'
          cases h'
      exact ⟨hinv, h₂ (fun hle => by omega) hinv⟩
  · have h₂ := (switch_stored A k₁ c₁ h₁.1 h₁.2).and (switch_nl k₁ c₁ h₁.2.nl)
    exact ((switch_routed k₁ c₁ h₁.1).and h₂).imp (fun _ _ h => ⟨h.1.1, h.2.1⟩) (fun _ h => h.2)
      (fun _ _ _ => trivial) fun _ => trivial

theorem collects_state {k : Frame} {c : Int} (h : collects k c = true) : k.s.st = hHeader := by
  unfold collects at h
  simp only [Bool.and_eq_true, beq_iff_eq] at h
  exact h.1

theorem iterate_collects {k : Frame} {c : Int} (hnl : k.s.nl ≤ 1) (h : collects k c = true) :
    (iterate k c).Holds Open fun r => ∀ k', r ≠ .ok k' := by
  have hi := iterate_inv (k := k) (c := c)
    (N := fun k' c' => k' = k ∧ c' = c) (B := fun k' => Open k' ∧ k'.s.nl ≤ 1)
    (R := fun _ _ => True) (F := True) ?_ ⟨rfl, rfl⟩
  · cases hs : iterate k c with
    | next k' =>
      rw [hs] at hi
      obtain ⟨k₁, ⟨h₁, -⟩, -, rfl⟩ := hi
      exact h₁
    | halt r =>
      rintro k' rfl
      rw [hs] at hi
      obtain ⟨k₁, ⟨-, h₁⟩, h₂, -⟩ := hi
      omega
  · rintro k₁ c₁ ⟨hk₁, hc₁⟩
    rw [hk₁, hc₁]
    have hst := collects_state h
    unfold collects at h
    simp only [hst, beq_self_eq_true, Bool.true_and] at h
    cases hw : headerWalk (toLower c) k.tstate with
    | none => simp [hw] at h
    | some x =>
      obtain ⟨r, t⟩ := x
      rw [hw] at h
      simp only [Bool.and_eq_true, decide_eq_true_eq, Bool.not_eq_true', interpreted,
        Bool.or_eq_false_iff, beq_eq_false_iff_ne, ne_eq] at h
      obtain ⟨⟨hr, hint⟩, hsel⟩ := h
      simp only [switch, hst, hHeaderCase, all_onWalk, hw]
      simp only [Option.some.injEq, Prod.mk.injEq]
      refine ⟨by simp, ?_⟩
      rintro _ _ ⟨rfl, rfl⟩
      rw [if_neg (by omega), if_pos hr]
      simp [hHeaderMatched, hint, hsel, Open, hnl]

/-! ## Runs -/

/-- Some step of the run on `cs` recognises a header to collect. -/
def CollectsLater (k : Frame) (cs : List Int) : Prop :=
  ¬Along iterate (fun k c => collects k c = false) k cs

theorem CollectsLater.cons {k : Frame} {c : Int} {cs : List Int} :
    CollectsLater k (c :: cs) ↔
      collects k c = true ∨ ∃ k', iterate k c = .next k' ∧ CollectsLater k' cs := by
  unfold CollectsLater
  rw [not_along_cons, Bool.not_eq_false]

/-- At every bad fold of the run, the strings have another NUL, or a header is collected later on. -/
def FoldsKeep (k : Frame) (cs : List Int) : Prop :=
  ∀ p c q k', cs = p ++ c :: q → feed iterate k p = .next k' → BadFold k' →
    NulBeforeLast k'.text ∨ CollectsLater k' (c :: q)

theorem FoldsKeep.next {k k' : Frame} {c : Int} {cs : List Int} (h : FoldsKeep k (c :: cs))
    (hs : iterate k c = .next k') : FoldsKeep k' cs := by
  rintro p c' q k₁ rfl hp
  exact h (c :: p) c' q k₁ rfl (by rw [feed_cons_next p hs, hp])

theorem feed_terminated {k k' : Frame} {cs rest : List Int} (hk : Routed k) (hok : StoreOk k)
    (hnl : k.s.nl ≤ 1)
    (h : ¬Open k → StoreInv k.text → StringsTerminated k.text ∨ CollectsLater k cs)
    (hfold : FoldsKeep k cs) (hf : feed iterate k cs = .halt (.ok k', rest)) :
    StringsTerminated k'.text := by
  induction cs generalizing k with
  | nil => simp at hf
  | cons c cs ih =>
    have hst : Stored (CollectsLater k (c :: cs)) k :=
      ⟨hok, hnl, h, fun hb => hfold [] c cs k rfl rfl hb⟩
    have hi := iterate_stored hk hst (c := c)
    rw [feed_cons] at hf
    cases hs : iterate k c with
    | halt r =>
      rw [hs] at hf hi
      simp only [Step.halt.injEq, Prod.mk.injEq] at hf
      refine (hi k' hf.1).2.resolve_right fun hl => ?_
      rcases CollectsLater.cons.mp hl with hl | ⟨k₁, hs₁, -⟩
      · have := iterate_collects hnl hl
        rw [hs] at this
        exact this k' hf.1
      · rw [hs] at hs₁
        cases hs₁
    | next k₁ =>
      rw [hs] at hf hi
      obtain ⟨hok', hnl', hterm⟩ := hi
      refine ih (iterate_routed hk hs) hok' hnl' (fun ho hinv => ?_) (hfold.next hs) hf
      refine (hterm ho hinv).imp_right fun hl => ?_
      rcases CollectsLater.cons.mp hl with hl | ⟨k₂, hs₂, hl⟩
      · have := iterate_collects hnl hl
        rw [hs] at this
        exact absurd this ho
      · rw [hs, Step.next.injEq] at hs₂
        exact hs₂ ▸ hl

/-! ## A NUL that is lost stays lost -/

/-- No value is being read or to be read, and some string has lost its NUL, or is about to. -/
structure Doomed (k : Frame) : Prop where
  inv : StoreInv k.text
  late : k.s.st.isRequestLine = false
  value : k.s.st ≠ hValue
  est : k.s.est ≠ hValue
  lost : StringsTerminated k.text → k.s.st = hCont ∧ k.s.collect = true ∧ ¬NulBeforeLast k.text

theorem headerWalk_start {c r : Int} {t : Triestate} (h : headerWalk c ⟨0, 0⟩ = some (r, t)) :
    r ≤ 0 := by
  unfold headerWalk walkTrie at h
  rw [if_neg (by simp)] at h
  simp only [enterChild, Option.bind_eq_bind, Option.bind_some, Option.bind_eq_some_iff] at h
  obtain ⟨q, -, h⟩ := h
  by_cases hq : q.charAt 0 = some (if c = 58 then 0 else c) ∧ q.check = patinitialHeaders.next
  · rw [if_pos hq, Option.some.injEq, Prod.mk.injEq] at h
    omega
  · rw [if_neg hq, Option.some.injEq, Prod.mk.injEq] at h
    omega

theorem collects_start {k : Frame} (c : Int) (h : k.tstate = ⟨0, 0⟩) : collects k c = false := by
  unfold collects
  rw [h]
  cases hw : headerWalk (toLower c) ⟨0, 0⟩ with
  | none => simp
  | some x =>
    obtain ⟨r, t⟩ := x
    have := headerWalk_start hw
    simp only [Bool.and_eq_false_iff, decide_eq_false_iff_not]
    exact .inr (.inl (.inl (by omega)))

theorem collects_other {k : Frame} (c : Int) (h : k.s.st ≠ hHeader) : collects k c = false := by
  cases hc : collects k c with
  | false => rfl
  | true => exact absurd (collects_state hc) h

theorem switch_doomed (k : Frame) (c : Int) (hk : Routed k) (h : Doomed k)
    (hc : collects k c = false) :
    Pass.All (fun k' c' => Doomed k' ∧ collects k' c' = false) Doomed (fun _ _ => True) True
      (switch k c) := by
  obtain ⟨hinv, hlate, hvalue, hest, hlost⟩ := h
  have hterm := hinv.terminated_replacec
  have hrep := hinv.replacec 32
  cases hst : k.s.st <;> simp only [switch, hst]
  case hCont =>
    have hkeep : StringsTerminated (minuteTextintReplacec (-1) 32 k.text) → False := by
      intro hs
      have hn := hterm.mp hs
      exact (hlost (terminated_dropLast hn)).2.2 hn
    simp only [hContCase, all_ite, all_reset]
    refine ⟨fun _ => ⟨⟨hrep, rfl, by simp, hest, fun hs => (hkeep hs).elim⟩, collects_other _ (by simp)⟩,
      fun hcol => ⟨⟨hinv, rfl, by simp, hest, fun hs => ?_⟩, collects_other _ (by simp)⟩⟩
    exact absurd (hlost hs).2.1 hcol
  case hNl =>
    have hlost : ¬StringsTerminated k.text := fun hs => by simpa [hst] using (hlost hs).1
    dsimp only [hNlCase]
    simp only [all_ite, all_brk, all_reset]
    refine ⟨fun _ => ⟨hinv, rfl, by simp, hest, fun hs => absurd hs hlost⟩, fun _ =>
      ⟨fun _ => ⟨hinv, rfl, by simp, hest, fun hs => absurd hs hlost⟩, fun _ =>
        ⟨fun _ => ⟨hinv, rfl, by simp, hest, fun hs => absurd hs hlost⟩, fun _ => ?_⟩⟩⟩
    exact ⟨⟨hinv, rfl, by simp, hest, fun hs => absurd hs hlost⟩, collects_start _ rfl⟩
  case hHeader =>
    have hlost : ¬StringsTerminated k.text := fun hs => by simpa [hst] using (hlost hs).1
    unfold collects at hc
    simp only [hst, beq_self_eq_true, Bool.true_and] at hc
    simp only [hHeaderCase, all_onWalk]
    refine ⟨fun _ => trivial, fun r t hw => ?_⟩
    rw [hw] at hc
    simp only [all_ite, all_reset, all_brk]
    refine ⟨fun _ => ⟨⟨hinv, rfl, by simp, hest, fun hs => absurd hs hlost⟩, collects_other _ (by simp)⟩,
      fun _ => ⟨fun hr => ?_, fun _ => ?_⟩⟩
    · -- an interpreted header, or one that is not selected
      simp only [hr, decide_true, Bool.true_and, interpreted, Bool.and_eq_false_iff,
        Bool.not_eq_false', Bool.or_eq_true, beq_iff_eq] at hc
      simp only [hHeaderMatched, all_ite, all_brk]
      have hd : ∀ k' : Frame, k'.text = k.text → k'.s.st = hValueLead ∨ k'.s.st = hSkipline →
          k'.s.est ≠ hValue → Doomed k' := by
        intro k' ht hs he
        refine ⟨ht ▸ hinv, ?_, ?_, he, fun hs => absurd (ht ▸ hs) hlost⟩
        · rcases hs with hs | hs <;> rw [hs] <;> rfl
        · rcases hs with hs | hs <;> rw [hs] <;> simp
      refine ⟨fun _ => hd _ (by simp) (by simp) (by simp), fun h₁ =>
        ⟨fun _ => hd _ (by simp) (by simp) (by simp), fun h₂ =>
        ⟨fun _ => hd _ (by simp) (by simp) (by simp), fun h₃ =>
        ⟨fun _ => hd _ (by simp) (by simp) (by simp), fun h₄ => ⟨fun hsel => ?_, fun _ =>
          hd _ (by simp) (by simp) (by simp)⟩⟩⟩⟩⟩
      have hsel : selected k.s.hmask r.toNat = true := hsel
      simp [h₁, h₂, h₃, h₄, hsel] at hc
    · refine ⟨by simpa using hinv, by simp [hst, isRequestLine], by simp [hst], by simpa using hest,
        fun hs => absurd (by simpa using hs) hlost⟩
  case hValueLead =>
    have hlost : ¬StringsTerminated k.text := fun hs => by simpa [hst] using (hlost hs).1
    have hval : k.s.est.isValue = true := by simpa [Routed, hst, routed] using hk
    simp only [hValueLeadCase, all_ite, all_brk, all_reset]
    refine ⟨fun _ => ⟨⟨hinv, ?_, hest, hest, fun hs => absurd hs hlost⟩, collects_other _ ?_⟩, fun _ => ?_⟩
    · show k.s.est.isRequestLine = false
      cases he : k.s.est <;> simp_all [isValue, isRequestLine]
    · show k.s.est ≠ hHeader
      rintro he
      simp [he, isValue] at hval
    · exact ⟨hinv, by simp [hst, isRequestLine], by simp [hst], hest, fun hs => absurd hs hlost⟩
  case hHeadConnection | hHeadExpect | hHeadTransferEncoding | hHeadContentLength | hHeadFlag |
      hSkipline | hCr =>
    have hlost : ¬StringsTerminated k.text := fun hs => by simpa [hst] using (hlost hs).1
    have hd : ∀ k' : Frame, k'.text = k.text → k'.s.st.isRequestLine = false → k'.s.st ≠ hValue →
        k'.s.est = k.s.est → Doomed k' := by
      intro k' ht h₁ h₂ he
      exact ⟨ht ▸ hinv, h₁, h₂, he ▸ hest, fun hs => absurd (ht ▸ hs) hlost⟩
    have hother : ∀ (k' : Frame) (c' : Int), k'.s.st ≠ hHeader → collects k' c' = false :=
      fun _ c' => collects_other c'
    dsimp only [hHeadConnectionCase, hHeadExpectCase, hHeadTransferEncodingCase, hHeadFlagInitial,
      hHeadContentLengthCase, hHeadFlagCase, hSkiplineCase, hCrCase]
    simp only [all_ite, all_brk, all_reset, all_onWalk]
    grind [isRequestLine, shift_s, shift_text, mark_s, mark_text, setNl_s, setNl_text]
  case hValue => exact absurd hst hvalue
  case hNewline | hHeaderUnknown | hErrorNotImplemented | hErrorBadRequest |
      hErrorInternalServerError => exact trivial
  all_goals simp [hst, isRequestLine] at hlate

/-- A turn that collects no header leaves a lost NUL lost, also if it is the last one. -/
theorem iterate_doomed {k : Frame} {c : Int} (hk : Routed k) (hnl : k.s.nl ≤ 1) (h : Doomed k)
    (hc : collects k c = false) :
    (iterate k c).Holds (fun k' => k'.s.nl ≤ 1 ∧ Doomed k')
      fun r => ∀ k', r = .ok k' → ¬StringsTerminated k'.text := by
  have hi := iterate_inv (fun k₁ c₁ h₁ => ?_) (c := c) (k := k)
    (N := fun k' c' => Routed k' ∧ k'.s.nl ≤ 1 ∧ Doomed k' ∧ collects k' c' = false)
    (B := fun k' => Doomed k' ∧ (1 < k'.s.nl → k'.s.st ≠ hCont ∧ k'.s.st.early = false))
    (R := fun _ _ => True) (F := True) ⟨hk, hnl, h, hc⟩
  · cases hs : iterate k c with
    | next k' =>
      rw [hs] at hi
      obtain ⟨k₁, ⟨h₁, -⟩, hnl, rfl⟩ := hi
      exact ⟨hnl, h₁.inv, h₁.late, h₁.value, h₁.est, h₁.lost⟩
    | halt r =>
      rintro k' rfl
      rw [hs] at hi
      obtain ⟨k₁, ⟨h₁, h₂⟩, hnl, rfl⟩ := hi
      exact fun hs => (h₂ hnl).1 (h₁.lost hs).1
  · obtain ⟨hr, hnl₁, hd, hc₁⟩ := h₁
    have h₂ := switch_doomed k₁ c₁ hr hd hc₁
    have h₃ := (switch_routed k₁ c₁ hr).and (h₂.and (switch_nl k₁ c₁ hnl₁))
    exact h₃.imp (fun _ _ h => ⟨h.1.1, h.2.2, h.2.1⟩) (fun _ h => h.2) (fun _ _ _ => trivial)
      fun _ => trivial

theorem feed_doomed {k k' : Frame} {cs rest : List Int} (hk : Routed k) (hnl : k.s.nl ≤ 1) (h : Doomed k)
    (hc : ¬CollectsLater k cs) (hf : feed iterate k cs = .halt (.ok k', rest)) :
    ¬StringsTerminated k'.text := by
  have hrun := feed_along (C := fun k c => collects k c = false)
    (fun k => Routed k ∧ k.s.nl ≤ 1 ∧ Doomed k)
    (fun r => ∀ k', r = .ok k' → ¬StringsTerminated k'.text) (fun k₁ c h₁ hc₁ => ?_)
    ⟨hk, hnl, h⟩ (not_not.mp hc)
  · rw [hf] at hrun
    exact hrun k' rfl
  · have hi := iterate_doomed h₁.1 h₁.2.1 h₁.2.2 hc₁
    cases hs : iterate k₁ c with
    | next k₂ =>
      rw [hs] at hi
      exact ⟨iterate_routed h₁.1 hs, hi⟩
    | halt r =>
      rw [hs] at hi
      exact hi

/-- Before the end of a run, unless the buffer has no room at all, the store has its invariant. -/
theorem feed_storeOk {k k' : Frame} {cs : List Int} (hk : Routed k) (hok : StoreOk k)
    (hnl : k.s.nl ≤ 1) (hf : feed iterate k cs = .next k') : StoreOk k' ∧ k'.s.nl ≤ 1 := by
  have hall : ∀ k : Frame, StoreOk k ∧ k.s.nl ≤ 1 → Stored True k := fun k h =>
    ⟨h.1, h.2, fun _ _ => .inr trivial, fun _ => .inr trivial⟩
  have hrun := feed_inv (fun _ k => Routed k ∧ StoreOk k ∧ k.s.nl ≤ 1) ⟨hk, hok, hnl⟩
    (fun _ k₁ c k₂ h₁ hs => ?_) hf
  · exact hrun.2
  · have hi := iterate_stored h₁.1 (hall k₁ h₁.2) (c := c)
    rw [hs] at hi
    exact ⟨iterate_routed h₁.1 hs, hi.1, hi.2.1⟩

/-- **A run terminates its strings exactly where its folds keep a NUL.** -/
theorem feed_terminated_iff {k k' : Frame} {cs rest : List Int} (hk : Routed k) (hok : StoreOk k)
    (hnl : k.s.nl ≤ 1) (h : ¬Open k → StoreInv k.text → StringsTerminated k.text)
    (hf : feed iterate k cs = .halt (.ok k', rest)) :
    StringsTerminated k'.text ↔ FoldsKeep k cs := by
  constructor
  · rintro hterm p c q k₁ rfl hp hbad
    by_contra hno
    obtain ⟨hnul, hlater⟩ := not_or.mp hno
    obtain ⟨hok₁, hnl₁⟩ := feed_storeOk hk hok hnl hp
    have hinv₁ : StoreInv k₁.text := by
      obtain h' | ⟨-, h'⟩ := hok₁
      · exact h'
      · rw [hbad.1] at h'
        cases h'
    have hd : Doomed k₁ := ⟨hinv₁, by rw [hbad.1]; rfl, by rw [hbad.1]; simp, hbad.2.2,
      fun _ => ⟨hbad.1, hbad.2.1, hnul⟩⟩
    rw [feed_append_next _ hp] at hf
    exact feed_doomed (feed_routed hk hp) hnl₁ hd hlater hf hterm
  · intro hfold
    exact feed_terminated hk hok hnl (fun ho hi => .inl (h ho hi)) hfold hf

/-! ## The whole call -/

instance Terminated.decidable (cs : List Byte) (is : List Uint) : Decidable (Terminated cs is) :=
  List.decidableBAll (fun p : Uint × Uint => 1 ≤ p.2.toNat ∧ 0 ∈ cs.drop p.2.toNat) (pairs is)

instance StoreWellFormed.decidable (t : Textint) : Decidable (StoreWellFormed t) :=
  decidable_of_iff _ storeWellFormed_iff_lists.symm

/-- The buffer `minute_http_init` sets up holds no strings, and has room for one or none at all. -/
theorem storeOk_start (rq : MinuteHttpRq) (hmask : Uint) (io : Iobuf) {text : Textint}
    (hsize : 4 ∣ text.size.toNat) :
    StoreOk (startFrame rq (minuteHttpInit hmask io text).1 io (minuteHttpInit hmask io text).2) ∧
      (minuteHttpInit hmask io text).2.integers = [] := by
  have hints : (minuteHttpInit hmask io text).2.integers = [] := by
    simp [Textint.integers, minuteTextintIntsize, minuteHttpInit]
  refine ⟨?_, hints⟩
  rcases Nat.eq_zero_or_pos text.size.toNat with h0 | hpos
  · exact .inr ⟨BitVec.eq_of_toNat_eq h0, rfl⟩
  · refine .inl ⟨⟨Nat.le_refl 1, ?_, Nat.le_refl _, hsize, hsize⟩, ?_, fun p hp => ?_⟩
    · show 1 ≤ text.size.toNat
      omega
    · show (minuteHttpInit hmask io text).2.integers.length % 2 = 0
      rw [hints]
      rfl
    · have hp : p ∈ pairs (minuteHttpInit hmask io text).2.integers := hp
      simp [hints, pairs] at hp

theorem feed_storeInv {k k' : Frame} {cs rest : List Int} (hk : Routed k) (hok : StoreOk k) (hnl : k.s.nl ≤ 1)
    (hf : feed iterate k cs = .halt (.ok k', rest)) : StoreInv k'.text := by
  obtain ⟨p, c, k₁, hw, hp, hc⟩ := feed_halt hf
  obtain ⟨hok₁, hnl₁⟩ := feed_storeOk hk hok hnl hp
  have hi := iterate_stored (A := True) (feed_routed hk hp)
    ⟨hok₁, hnl₁, fun _ _ => .inr trivial, fun _ => .inr trivial⟩ (c := c)
  rw [hc] at hi
  exact (hi k' rfl).1

/-- **The stored headers are well formed exactly where every bad fold keeps a NUL**: of the call that
returned 0, for every input, mask and text buffer of whole integers. -/
theorem store_wellFormed_iff {rq rq' : MinuteHttpRq} {hmask : Uint} {rqs' : MinuteHttpRqs}
    {io io' : Iobuf} {text text' : Textint} (hsize : 4 ∣ text.size.toNat)
    (h : minuteHttpRead rq (minuteHttpInit hmask io text).1 io (minuteHttpInit hmask io text).2 =
      .code 0 rq' rqs' io' text') :
    StoreWellFormed text' ↔
      FoldsKeep
        (startFrame rq (minuteHttpInit hmask io text).1 io (minuteHttpInit hmask io text).2)
        (io.readable io.read) := by
  obtain ⟨hok, hnone⟩ := storeOk_start rq hmask io hsize
  set k := startFrame rq (minuteHttpInit hmask io text).1 io (minuteHttpInit hmask io text).2
    with hk
  have hr : Routed k := rfl
  have hnl : k.s.nl ≤ 1 := Nat.zero_le 1
  obtain ⟨k', rest, hf, -, -, -, rfl⟩ := read_ok hr h
  have hf : feed iterate k (io.readable io.read) = .halt (.ok k', rest) := hf
  have hinv : StoreInv k'.text := feed_storeInv hr hok hnl hf
  have hterm : ¬Open k → StoreInv k.text → StringsTerminated k.text := by
    intro _ _ p hp
    have hp : p ∈ pairs (minuteHttpInit hmask io text).2.integers := hp
    simp [hnone, pairs] at hp
  rw [storeWellFormed_iff_lists, and_iff_right hinv.even]
  exact feed_terminated_iff hr hok hnl hterm hf

/-- A fold after an interpreted header, whose NUL the next collected header puts back. -/
theorem store_wellFormed_folded :
    let io := Iobuf.holding 4096 (bytes "GET / HTTP/1.1\nHost: a\nConnection: close\n foo\nVia: b\n\n")
    let init := minuteHttpInit minuteAllHeaders io (minuteTextintInit 64 fun _ => 0)
    FoldsKeep (startFrame .zero init.1 io init.2) (io.readable io.read) := by
  intro io init
  obtain ⟨rq', rqs', io', text', h, hs⟩ := (ReadResult.succeeds_iff
    (P := fun _ _ _ text' => StoreWellFormed text')
    (r := minuteHttpRead .zero init.1 io init.2)).mp (by decide +kernel)
  exact (store_wellFormed_iff (by decide) h).mp hs

/-- The fold takes the NUL of `Host`, and nothing puts it back. -/
theorem store_wellFormed_lost :
    ∃ (hmask : Uint) (io : Iobuf) (text : Textint), 4 ∣ text.size.toNat ∧
      (minuteHttpRead .zero (minuteHttpInit hmask io text).1 io
        (minuteHttpInit hmask io text).2).Succeeds fun _ _ _ text' => ¬StoreWellFormed text' :=
  ⟨minuteAllHeaders,
    Iobuf.holding 4096 (bytes "GET / HTTP/1.1\nHost: a\nConnection: close\n foo\n\n"),
    minuteTextintInit 64 fun _ => 0, by decide, by decide +kernel⟩

end MinuteHttp
