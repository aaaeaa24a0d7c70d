import MinuteHttp.Libhttp.Textint
import Mathlib.Tactic.Common

/-!
# The text/integer buffer as two lists

What a caller sees of a `textint` is the list of characters put and the list of integers put
(`Textint.chars`, `Textint.integers`). While the two ends have not met (`TextintOk`), a put appends to
one list and leaves the other alone, and `minute_textint_replacec (-1, ..)` changes the last character.
-/

namespace MinuteHttp

open Block

/-- The characters, from offset 0. -/
def Textint.chars (t : Textint) : List Byte := slice t.data 0 t.text.toNat

/-- The integers in the order in which they were put. -/
def Textint.integers (t : Textint) : List Uint :=
  (List.range (minuteTextintIntsize t).toNat).map fun j : Nat => minuteTextintGeti j t

/-- The two ends have not passed one another, and the integers are aligned. A put of an integer is refused
before `ints` gets to 0, so that it never wraps. -/
structure Textint.Apart (t : Textint) : Prop where
  text_le : t.text.toNat ≤ t.ints.toNat
  ints_le : t.ints.toNat ≤ t.size.toNat
  ints_pos : 1 ≤ t.ints.toNat
  dvd_ints : 4 ∣ t.ints.toNat
  dvd_size : 4 ∣ t.size.toNat

/-- The block is of the same size, and the memory behind it is untouched. -/
structure Textint.Within (t t' : Textint) : Prop where
  size : t'.size = t.size
  data : ∀ a, t.size.toNat ≤ a → t'.data a = t.data a

/-- The two ends have not met, the integers are aligned, and offset 0 is taken. -/
structure TextintOk (t : Textint) : Prop where
  text_pos : 1 ≤ t.text.toNat
  text_le : t.text.toNat ≤ t.ints.toNat
  ints_le : t.ints.toNat ≤ t.size.toNat
  dvd_ints : 4 ∣ t.ints.toNat
  dvd_size : 4 ∣ t.size.toNat

/-! ### Words in a block of bytes -/

theorem loadInt_congr {data data' : Nat → Byte} {k : Nat}
    (h : ∀ a, 4 * k ≤ a → a < 4 * k + 4 → data' a = data a) : loadInt data' k = loadInt data k := by
  unfold loadInt
  rw [h (4 * k) (by omega) (by omega), h (4 * k + 1) (by omega) (by omega),
    h (4 * k + 2) (by omega) (by omega), h (4 * k + 3) (by omega) (by omega)]

theorem loadInt_storeInt (data : Nat → Byte) (k : Nat) (i : Uint) :
    loadInt (storeInt data k i) k = i := by
  have hbyte : ∀ a, a < 4 → storeInt data k i (4 * k + a) = i.extractLsb' (8 * a) 8 := by
    intro a ha
    rw [storeInt, if_pos (by omega), show (4 * k + a) % 4 = a by omega]
  have h0 := hbyte 0 (by omega)
  rw [loadInt, hbyte 1 (by omega), hbyte 2 (by omega), hbyte 3 (by omega), show 4 * k = 4 * k + 0 from rfl, h0]
  apply BitVec.eq_of_getLsbD_eq
  intro j hj
  simp only [BitVec.getLsbD_append, BitVec.getLsbD_extractLsb']
  split_ifs <;> simp <;> grind

theorem storeInt_other (data : Nat → Byte) {k a : Nat} (i : Uint) (h : a < 4 * k ∨ 4 * k + 4 ≤ a) :
    storeInt data k i a = data a := by
  rw [storeInt, if_neg (by omega)]

theorem loadInt_storeInt_other (data : Nat → Byte) {k l : Nat} (i : Uint) (h : l ≠ k) :
    loadInt (storeInt data k i) l = loadInt data l :=
  loadInt_congr fun a _ _ => storeInt_other data i (by omega)

/-! ### The integers -/

variable {t t' : Textint}

theorem TextintOk.apart (ht : TextintOk t) : t.Apart :=
  ⟨ht.text_le, ht.ints_le, Nat.le_trans ht.text_pos ht.text_le, ht.dvd_ints, ht.dvd_size⟩

theorem Textint.Apart.ok (ht : t.Apart) (hpos : 1 ≤ t.text.toNat) : TextintOk t :=
  ⟨hpos, ht.text_le, ht.ints_le, ht.dvd_ints, ht.dvd_size⟩

theorem length_chars (t : Textint) : t.chars.length = t.text.toNat := length_slice _ _ _

theorem intsize_eq (ht : t.Apart) :
    (minuteTextintIntsize t).toNat = (t.size.toNat - t.ints.toNat) / 4 := by
  have hle : t.ints ≤ t.size := ht.ints_le
  rw [minuteTextintIntsize, BitVec.toNat_udiv, BitVec.toNat_sub_of_le hle]
  rfl

theorem length_integers (t : Textint) : t.integers.length = (minuteTextintIntsize t).toNat := by
  simp [Textint.integers]

theorem geti_eq {j : Nat} (hj : j < (t.size.toNat - t.ints.toNat) / 4) :
    minuteTextintGeti j t = loadInt t.data (t.size.toNat / 4 - 1 - j) := by
  have hlt := t.size.isLt
  have hneg : ¬((j : Int) < 0) := by omega
  have hidx : (t.size / 4 - 1 - BitVec.ofInt 32 (j : Int)).toNat = t.size.toNat / 4 - 1 - j := by
    have hdiv : (t.size / 4).toNat = t.size.toNat / 4 := by
      rw [BitVec.toNat_udiv]
      rfl
    have hj' : (BitVec.ofInt 32 (j : Int)).toNat = j := by
      rw [BitVec.ofInt_natCast, BitVec.toNat_ofNat, Nat.mod_eq_of_lt (by omega)]
    rw [BitVec.toNat_sub_of_le, BitVec.toNat_sub_of_le, hj', hdiv]
    · rfl
    · rw [BitVec.le_def, hdiv]
      show 1 ≤ _
      omega
    · rw [BitVec.le_def, hj', BitVec.toNat_sub_of_le, hdiv]
      · show j ≤ _ - 1
        omega
      · rw [BitVec.le_def, hdiv]
        show 1 ≤ _
        omega
  unfold minuteTextintGeti
  simp only [if_neg hneg]
  rw [hidx]

theorem integers_eq (ht : t.Apart) :
    t.integers = (List.range ((t.size.toNat - t.ints.toNat) / 4)).map
      fun j => loadInt t.data (t.size.toNat / 4 - 1 - j) := by
  unfold Textint.integers
  rw [intsize_eq ht]
  apply List.map_congr_left
  intro j hj
  exact geti_eq (List.mem_range.mp hj)

theorem integers_congr (ht : t.Apart) (ht' : t'.Apart) (hsize : t'.size = t.size)
    (hints : t'.ints = t.ints) (h : ∀ a, t.ints.toNat ≤ a → t'.data a = t.data a) :
    t'.integers = t.integers := by
  rw [integers_eq ht, integers_eq ht', hsize, hints]
  apply List.map_congr_left
  intro j hj
  have hj := List.mem_range.mp hj
  have := ht.ints_le
  have := ht.dvd_ints
  have := ht.dvd_size
  exact loadInt_congr fun a _ _ => h a (by omega)

/-! ### What the operations do to the two lists -/

theorem putc_none {c : Byte} : minuteTextintPutc c t = none ↔ t.ints.toNat ≤ t.text.toNat := by
  simp [minuteTextintPutc, BitVec.le_def]

theorem puti_none {i : Uint} (ht : t.Apart) :
    minuteTextintPuti i t = none ↔ t.ints.toNat ≤ t.text.toNat + 4 := by
  obtain ⟨q, hq⟩ := ht.dvd_ints
  have hpos := ht.ints_pos
  have hsub : (t.ints - 4).toNat = t.ints.toNat - 4 := by bv_omega
  rw [minuteTextintPuti, ite_eq_left_iff]
  simp only [BitVec.le_def, ge_iff_le, hsub, reduceCtorEq, imp_false, not_not]
  omega

theorem Textint.Apart.putc {c : Byte} (ht : t.Apart) (h : minuteTextintPutc c t = some t') :
    t'.Apart ∧ t.Within t' ∧ t'.text.toNat = t.text.toNat + 1 ∧ t'.ints = t.ints ∧
      t'.chars = t.chars ++ [c] ∧ t'.integers = t.integers := by
  have hlt : t.text.toNat < t.ints.toNat := by
    by_contra hge
    rw [putc_none.mpr (Nat.not_lt.mp hge)] at h
    cases h
  have htext : (t.text + 1).toNat = t.text.toNat + 1 := by have := t.ints.isLt; bv_omega
  have hout : ∀ a, t.ints.toNat ≤ a → blit t.data t.text.toNat [c] a = t.data a := by
    intro a ha
    apply blit_outside
    simp only [List.length_singleton]
    omega
  have ht' : Textint.Apart { t with data := blit t.data t.text.toNat [c], text := t.text + 1 } :=
    ⟨by rw [htext]; exact hlt, ht.ints_le, ht.ints_pos, ht.dvd_ints, ht.dvd_size⟩
  rw [minuteTextintPutc, if_neg (by simpa [BitVec.le_def] using hlt)] at h
  rw [← Option.some.inj h]
  refine ⟨ht', ⟨rfl, fun a ha => hout a (Nat.le_trans ht.ints_le ha)⟩, htext, rfl, ?_,
    integers_congr ht ht' rfl rfl hout⟩
  unfold Textint.chars
  simp only [htext]
  rw [slice_succ, slice_blit_outside _ (.inl (by omega)), Nat.zero_add]
  congr 2
  exact blit_inside t.data (i := 0) rfl

theorem Textint.Apart.puti {i : Uint} (ht : t.Apart) (h : minuteTextintPuti i t = some t') :
    t'.Apart ∧ t.Within t' ∧ t'.text = t.text ∧ t'.ints.toNat + 4 = t.ints.toNat ∧
      t'.chars = t.chars ∧ t'.integers = t.integers ++ [i] := by
  obtain ⟨hle, hints, hpos, ⟨q, hq⟩, ⟨z, hz⟩⟩ := id ht
  have hroom : t.text.toNat + 4 < t.ints.toNat := by
    by_contra hge
    rw [(puti_none ht).mpr (Nat.not_lt.mp hge)] at h
    cases h
  have hsub : (t.ints - 4).toNat = t.ints.toNat - 4 := by bv_omega
  have hdiv : ((t.ints - 4) / 4).toNat = q - 1 := by
    rw [BitVec.toNat_udiv, hsub]
    show (t.ints.toNat - 4) / 4 = q - 1
    omega
  have ht' : Textint.Apart
      { t with data := storeInt t.data ((t.ints - 4) / 4).toNat i, ints := t.ints - 4 } :=
    ⟨by rw [hsub]; exact Nat.le_sub_of_add_le (Nat.le_of_lt hroom),
      by rw [hsub]; exact Nat.le_trans (Nat.sub_le _ _) hints,
      by rw [hsub]; exact Nat.sub_pos_of_lt (by omega), ⟨q - 1, by rw [hsub]; omega⟩, ⟨z, hz⟩⟩
  dsimp only [minuteTextintPuti] at h
  rw [if_neg (by rw [ge_iff_le, BitVec.le_def, hsub]; omega)] at h
  rw [← Option.some.inj h]
  refine ⟨ht', ⟨rfl, fun a ha => storeInt_other t.data i (.inr ?_)⟩, rfl, by rw [hsub]; omega, ?_, ?_⟩
  · rw [hdiv]
    omega
  · show slice _ 0 t.text.toNat = slice _ 0 t.text.toNat
    apply slice_congr
    intro a _ ha
    apply storeInt_other t.data i (.inl _)
    rw [hdiv]
    omega
  · rw [integers_eq ht, integers_eq ht']
    simp only [hsub, hdiv]
    have hn : (t.size.toNat - (t.ints.toNat - 4)) / 4 = (t.size.toNat - t.ints.toNat) / 4 + 1 := by
      omega
    rw [hn, List.range_succ, List.map_append, List.map_singleton]
    congr 1
    · apply List.map_congr_left
      intro j hj
      have hj := List.mem_range.mp hj
      exact loadInt_storeInt_other t.data i (by omega)
    · rw [show t.size.toNat / 4 - 1 - (t.size.toNat - t.ints.toNat) / 4 = q - 1 by omega,
        loadInt_storeInt]

theorem putc_spec {c : Byte} (ht : TextintOk t) (h : minuteTextintPutc c t = some t') :
    TextintOk t' ∧ t'.chars = t.chars ++ [c] ∧ t'.integers = t.integers := by
  obtain ⟨hapart, -, htext, -, hchars, hints⟩ := ht.apart.putc h
  exact ⟨hapart.ok (by omega), hchars, hints⟩

theorem puti_spec {i : Uint} (ht : TextintOk t) (h : minuteTextintPuti i t = some t') :
    TextintOk t' ∧ t'.chars = t.chars ∧ t'.integers = t.integers ++ [i] := by
  obtain ⟨hapart, -, htext, -, hchars, hints⟩ := ht.apart.puti h
  exact ⟨hapart.ok (htext ▸ ht.text_pos), hchars, hints⟩

theorem Textint.Apart.setChar (ht : t.Apart) {k : Nat} (c : Byte) (hk : k < t.text.toNat) :
    Textint.Apart { t with data := blit t.data k [c] } ∧ t.Within { t with data := blit t.data k [c] } ∧
      Textint.chars { t with data := blit t.data k [c] } = t.chars.set k c ∧
      Textint.integers { t with data := blit t.data k [c] } = t.integers := by
  have hle := ht.text_le
  have hints := ht.ints_le
  have hout : ∀ a, t.ints.toNat ≤ a → blit t.data k [c] a = t.data a := by
    intro a ha
    apply blit_outside
    simp only [List.length_singleton]
    omega
  have ht' : Textint.Apart { t with data := blit t.data k [c] } :=
    ⟨ht.text_le, ht.ints_le, ht.ints_pos, ht.dvd_ints, ht.dvd_size⟩
  refine ⟨ht', ⟨rfl, fun a ha => hout a (Nat.le_trans hints ha)⟩, ?_, integers_congr ht ht' rfl rfl hout⟩
  unfold Textint.chars
  apply List.ext_getElem?
  intro j
  rw [getElem?_slice, List.getElem?_set, length_slice, getElem?_slice, Nat.zero_add]
  by_cases hj : k = j
  · subst hj
    rw [if_pos rfl, if_pos hk]
    show some (blit t.data k [c] (k + 0)) = _
    rw [blit_inside t.data rfl, if_pos hk]
  · have hj' : blit t.data k [c] j = t.data j := by
      apply blit_outside
      simp only [List.length_singleton]
      omega
    rw [if_neg hj]
    show (if j < t.text.toNat then some (blit t.data k [c] j) else none) = _
    rw [hj']

/-- With a negative offset the character is addressed from the end. -/
theorem replacec_eq (c : Byte) (hpos : 1 ≤ t.text.toNat) :
    minuteTextintReplacec (-1) c t = { t with data := blit t.data (t.text.toNat - 1) [c] } := by
  have hidx : (t.text + BitVec.ofInt 32 (-1)).toNat = t.text.toNat - 1 := by
    have : BitVec.ofInt 32 (-1) = 0xFFFFFFFF#32 := by decide
    rw [this]
    bv_omega
  unfold minuteTextintReplacec
  simp only [show ((-1 : Int) < 0) = True by simp, if_true]
  rw [hidx]

theorem replacec_spec (c : Byte) (ht : TextintOk t) :
    TextintOk (minuteTextintReplacec (-1) c t) ∧
      (minuteTextintReplacec (-1) c t).chars = t.chars.dropLast ++ [c] ∧
      (minuteTextintReplacec (-1) c t).integers = t.integers := by
  have hpos := ht.text_pos
  obtain ⟨hapart, -, hchars, hints⟩ := ht.apart.setChar c (k := t.text.toNat - 1) (by omega)
  rw [replacec_eq c hpos]
  refine ⟨hapart.ok hpos, ?_, hints⟩
  rw [hchars, ← length_chars, List.set_eq_take_append_cons_drop, if_pos (by rw [length_chars]; omega),
    List.dropLast_eq_take, List.drop_eq_nil_of_le (by omega)]

end MinuteHttp
