import MinuteHttp.Libhttp.TextStore

/-!
# The double-headed store is two sequences (`libhttp/textint.c`)

`TwoLists` is what the store is for: a list of characters and a list of integers that share `size` bytes
and know nothing of one another but how much room is left. An element is addressed from the start of its
list or, with a negative offset, from its end (`place`). Every call on the block does what the call on the
lists does and returns the same (`Stands.step`), so that the block stands for the two lists after every
sequence of calls.
-/

namespace MinuteHttp

open Block

/-! ## The calls -/

inductive TextCall where
  | putc (c : Byte)
  | puti (i : Uint)
  | replacec (offset : Int) (c : Byte)
  | replacei (offset : Int) (i : Uint)
  | clear
  deriving DecidableEq, Repr

/-- What a put returns, and the buffer behind it. -/
def putResult (t : Textint) : Option Textint → Option Int × Textint
  | some t' => (some 1, t')
  | none => (some 0, t)

/-- A call on the block, with what it returns (`clear` returns nothing). -/
def TextCall.apply (t : Textint) : TextCall → Option Int × Textint
  | putc c => putResult t (minuteTextintPutc c t)
  | puti i => putResult t (minuteTextintPuti i t)
  | replacec offset c => (some 1, minuteTextintReplacec offset c t)
  | replacei offset i => (some 1, minuteTextintReplacei offset i t)
  | clear => (none, minuteTextintClear t)

/-- A sequence of calls. -/
def Textint.run : Textint → List TextCall → List (Option Int) × Textint
  | t, [] => ([], t)
  | t, call :: calls =>
    let (r, t') := call.apply t
    let (rs, t'') := run t' calls
    (r :: rs, t'')

/-! ## The two lists -/

structure TwoLists where
  size : Nat
  chars : List Byte
  integers : List Uint
  deriving DecidableEq, Repr

namespace TwoLists

/-- The bytes that the lists take. -/
def used (s : TwoLists) : Nat := s.chars.length + 4 * s.integers.length

/-- The element that an offset addresses in a list of `n`, if there is one. -/
def place (offset : Int) (n : Nat) : Option Nat :=
  if 0 ≤ offset then if offset.toNat < n then some offset.toNat else none
  else if (-offset).toNat ≤ n then some (n - (-offset).toNat) else none

/-- A call on the two lists, `none` where its offset addresses nothing. -/
def step (s : TwoLists) : TextCall → Option (Option Int × TwoLists)
  | .putc c =>
    if s.used < s.size then some (some 1, { s with chars := s.chars ++ [c] }) else some (some 0, s)
  | .puti i =>
    if s.used + 4 < s.size then some (some 1, { s with integers := s.integers ++ [i] })
    else some (some 0, s)
  | .replacec offset c =>
    (place offset s.chars.length).map fun k => (some 1, { s with chars := s.chars.set k c })
  | .replacei offset i =>
    (place offset s.integers.length).map fun k => (some 1, { s with integers := s.integers.set k i })
  | .clear => some (none, { s with chars := [], integers := [] })

def run : TwoLists → List TextCall → Option (List (Option Int) × TwoLists)
  | s, [] => some ([], s)
  | s, call :: calls =>
    (s.step call).bind fun r => (run r.2 calls).map fun rs => (r.1 :: rs.1, rs.2)

theorem step_size {s s' : TwoLists} {call : TextCall} {r : Option Int}
    (h : s.step call = some (r, s')) : s'.size = s.size := by
  cases call with
  | putc | puti => grind [step]
  | replacec | replacei =>
    obtain ⟨_, -, heq⟩ := Option.map_eq_some_iff.mp h
    cases heq
    rfl
  | clear =>
    cases h
    rfl

theorem run_size {s s' : TwoLists} {calls : List TextCall} {rs : List (Option Int)}
    (h : s.run calls = some (rs, s')) : s'.size = s.size := by
  induction calls generalizing s rs with
  | nil =>
    cases h
    rfl
  | cons call calls ih =>
    obtain ⟨⟨r, s₁⟩, hstep, hmap⟩ := Option.bind_eq_some_iff.mp h
    obtain ⟨⟨rs₁, s₂⟩, hrest, heq⟩ := Option.map_eq_some_iff.mp hmap
    cases heq
    exact (ih hrest).trans (step_size hstep)

theorem place_natCast {k n : Nat} (h : k < n) : place k n = some k := by
  rw [place, if_pos (Int.natCast_nonneg k), Int.toNat_natCast, if_pos h]

theorem place_neg {k n : Nat} (h : k < n) : place (-1 - (k : Int)) n = some (n - 1 - k) := by
  have hk : (-(-1 - (k : Int))).toNat = k + 1 := by omega
  rw [place, if_neg (by omega), hk, if_pos (by omega), Nat.sub_sub, Nat.add_comm 1 k]

theorem place_eq_some {offset : Int} {n k : Nat} (h : place offset n = some k) :
    k < n ∧ (offset = k ∨ offset < 0 ∧ offset = (k : Int) - n) := by
  unfold place at h
  split at h
  · split at h
    · have hk := Option.some.inj h
      omega
    · exact absurd h (by simp)
  · split at h
    · have hk := Option.some.inj h
      omega
    · exact absurd h (by simp)

end TwoLists

open TwoLists

/-! ## Offsets into the block -/

variable {t t' : Textint} {offset : Int} {k : Nat}

theorem gets_place (h : place offset t.text.toNat = some k) :
    (minuteTextintGets offset t).toNat = k := by
  have hlt := t.text.isLt
  obtain ⟨hk, hfrom | ⟨hneg, hfrom⟩⟩ := place_eq_some h
  · unfold minuteTextintGets
    rw [if_neg (by omega), BitVec.toNat_add, BitVec.toNat_ofInt, hfrom]
    simp only [BitVec.ofNat_eq_ofNat, BitVec.toNat_ofNat]
    omega
  · unfold minuteTextintGets
    rw [if_pos hneg, BitVec.toNat_add, BitVec.toNat_ofInt, hfrom]
    omega

theorem word_place (ht : t.Apart)
    (h : place offset ((t.size.toNat - t.ints.toNat) / 4) = some k) :
    ((if offset < 0 then t.ints else t.size) / 4 - 1 - BitVec.ofInt 32 offset).toNat =
      t.size.toNat / 4 - 1 - k := by
  have hlt := t.size.isLt
  have hpos := ht.ints_pos
  have hle := ht.ints_le
  obtain ⟨q, hq⟩ := ht.dvd_ints
  obtain ⟨z, hz⟩ := ht.dvd_size
  have hdiv : ∀ x : Uint, (x / 4).toNat = x.toNat / 4 := fun x => by
    rw [BitVec.toNat_udiv]
    rfl
  have hone : (1 : Uint).toNat = 1 := rfl
  obtain ⟨hk, hfrom | ⟨hneg, hfrom⟩⟩ := place_eq_some h
  · rw [if_neg (by omega), BitVec.toNat_sub, BitVec.toNat_sub, BitVec.toNat_ofInt, hdiv, hone, hfrom]
    omega
  · rw [if_pos hneg, BitVec.toNat_sub, BitVec.toNat_sub, BitVec.toNat_ofInt, hdiv, hone, hfrom]
    omega

theorem geti_place (ht : t.Apart)
    (h : place offset ((t.size.toNat - t.ints.toNat) / 4) = some k) :
    minuteTextintGeti offset t = loadInt t.data (t.size.toNat / 4 - 1 - k) := by
  unfold minuteTextintGeti
  simp only [word_place ht h]

/-! ## The block stands for the two lists -/

/-- `t` holds the lists `s` in its block, and `data` behind it. -/
structure Stands (data : Nat → Byte) (t : Textint) (s : TwoLists) : Prop where
  apart : t.Apart
  size : t.size.toNat = s.size
  chars : t.chars = s.chars
  integers : t.integers = s.integers
  behind : ∀ a, s.size ≤ a → t.data a = data a

variable {data : Nat → Byte} {s s' : TwoLists} {r : Option Int}

theorem init_stands {size : Uint} (hpos : 1 ≤ size.toNat) (hdvd : 4 ∣ size.toNat) (data : Nat → Byte) :
    Stands data (minuteTextintInit size data) ⟨size.toNat, [], []⟩ where
  apart := ⟨Nat.zero_le _, Nat.le_refl _, hpos, hdvd, hdvd⟩
  size := rfl
  chars := rfl
  integers := by simp [Textint.integers, minuteTextintIntsize, minuteTextintInit]
  behind := fun _ _ => rfl

theorem Stands.chars_length (h : Stands data t s) : s.chars.length = t.text.toNat := by
  rw [← h.chars, length_chars]

theorem Stands.integers_length (h : Stands data t s) :
    s.integers.length = (t.size.toNat - t.ints.toNat) / 4 := by
  rw [← h.integers, length_integers, intsize_eq h.apart]

theorem Stands.used (h : Stands data t s) : s.used + t.ints.toNat = t.text.toNat + s.size := by
  have hle := h.apart.ints_le
  obtain ⟨q, hq⟩ := h.apart.dvd_ints
  obtain ⟨z, hz⟩ := h.apart.dvd_size
  rw [TwoLists.used, h.chars_length, h.integers_length, ← h.size]
  omega

theorem Stands.of_within (h : Stands data t s) (hw : t.Within t') (hapart : t'.Apart)
    (hsize : s'.size = s.size) (hchars : t'.chars = s'.chars) (hints : t'.integers = s'.integers) :
    Stands data t' s' where
  apart := hapart
  size := by rw [hw.size, h.size, hsize]
  chars := hchars
  integers := hints
  behind := by
    rw [hsize]
    intro a ha
    rw [hw.data a (by rw [h.size]; exact ha)]
    exact h.behind a ha

theorem Stands.putc (h : Stands data t s) (c : Byte) :
    ∃ s', s.step (.putc c) = some ((TextCall.apply t (.putc c)).1, s') ∧
      Stands data (TextCall.apply t (.putc c)).2 s' := by
  have hused := h.used
  rw [TwoLists.step, TextCall.apply]
  cases hput : minuteTextintPutc c t with
  | none =>
    have hfull := putc_none.mp hput
    rw [if_neg (by omega)]
    exact ⟨s, rfl, h⟩
  | some t' =>
    have hroom : ¬t.ints.toNat ≤ t.text.toNat := fun hfull => by
      rw [putc_none.mpr hfull] at hput
      cases hput
    obtain ⟨hapart, hwithin, -, -, hchars, hints⟩ := h.apart.putc hput
    rw [if_pos (by omega)]
    refine ⟨_, rfl, h.of_within hwithin hapart rfl ?_ ?_⟩
    · exact hchars.trans (by rw [h.chars])
    · exact hints.trans (by rw [h.integers])

theorem Stands.puti (h : Stands data t s) (i : Uint) :
    ∃ s', s.step (.puti i) = some ((TextCall.apply t (.puti i)).1, s') ∧
      Stands data (TextCall.apply t (.puti i)).2 s' := by
  have hused := h.used
  rw [TwoLists.step, TextCall.apply]
  cases hput : minuteTextintPuti i t with
  | none =>
    have hfull := (puti_none h.apart).mp hput
    rw [if_neg (by omega)]
    exact ⟨s, rfl, h⟩
  | some t' =>
    have hroom : ¬t.ints.toNat ≤ t.text.toNat + 4 := fun hfull => by
      rw [(puti_none h.apart).mpr hfull] at hput
      cases hput
    obtain ⟨hapart, hwithin, -, -, hchars, hints⟩ := h.apart.puti hput
    rw [if_pos (by omega)]
    refine ⟨_, rfl, h.of_within hwithin hapart rfl ?_ ?_⟩
    · exact hchars.trans (by rw [h.chars])
    · exact hints.trans (by rw [h.integers])

theorem Stands.replacec (h : Stands data t s) (c : Byte) (hk : place offset s.chars.length = some k) :
    Stands data (minuteTextintReplacec offset c t) { s with chars := s.chars.set k c } := by
  rw [h.chars_length] at hk
  obtain ⟨hlt, -⟩ := place_eq_some hk
  obtain ⟨hapart, hwithin, hchars, hints⟩ := h.apart.setChar c hlt
  have heq : minuteTextintReplacec offset c t = { t with data := blit t.data k [c] } := by
    have hindex := gets_place hk
    unfold minuteTextintGets at hindex
    unfold minuteTextintReplacec
    simp only [hindex]
  rw [heq]
  refine h.of_within hwithin hapart rfl ?_ ?_
  · rw [hchars, h.chars]
  · rw [hints, h.integers]

theorem Stands.replacei (h : Stands data t s) (i : Uint)
    (hk : place offset s.integers.length = some k) :
    Stands data (minuteTextintReplacei offset i t) { s with integers := s.integers.set k i } := by
  rw [h.integers_length] at hk
  obtain ⟨hlt, -⟩ := place_eq_some hk
  have hle := h.apart.text_le
  have hints := h.apart.ints_le
  obtain ⟨q, hq⟩ := h.apart.dvd_ints
  obtain ⟨z, hz⟩ := h.apart.dvd_size
  have heq : minuteTextintReplacei offset i t =
      { t with data := storeInt t.data (t.size.toNat / 4 - 1 - k) i } := by
    unfold minuteTextintReplacei
    simp only [word_place h.apart hk]
  have hapart : Textint.Apart { t with data := storeInt t.data (t.size.toNat / 4 - 1 - k) i } :=
    ⟨h.apart.text_le, h.apart.ints_le, h.apart.ints_pos, h.apart.dvd_ints, h.apart.dvd_size⟩
  rw [heq]
  refine h.of_within ⟨rfl, ?_⟩ hapart rfl ?_ ?_
  · intro a ha
    apply storeInt_other
    omega
  · rw [← h.chars]
    show slice _ 0 t.text.toNat = slice _ 0 t.text.toNat
    apply slice_congr
    intro a _ ha
    apply storeInt_other
    omega
  · rw [← h.integers, integers_eq hapart, integers_eq h.apart]
    apply List.ext_getElem?
    intro j
    rw [List.getElem?_set, List.length_map, List.length_range, List.getElem?_map, List.getElem?_map]
    by_cases hj : k = j
    · subst hj
      rw [if_pos rfl, if_pos hlt, List.getElem?_range hlt]
      exact congrArg some (loadInt_storeInt _ _ _)
    · rw [if_neg hj]
      rcases Nat.lt_or_ge j ((t.size.toNat - t.ints.toNat) / 4) with hjlt | hge
      · have hne : t.size.toNat / 4 - 1 - j ≠ t.size.toNat / 4 - 1 - k := by omega
        rw [List.getElem?_range hjlt]
        exact congrArg some (loadInt_storeInt_other t.data i hne)
      · rw [List.getElem?_eq_none (by rw [List.length_range]; exact hge)]
        rfl

theorem Stands.clear (h : Stands data t s) :
    Stands data (minuteTextintClear t) { s with chars := [], integers := [] } := by
  have hpos := h.apart.ints_pos
  have hle := h.apart.ints_le
  refine h.of_within ⟨rfl, fun _ _ => rfl⟩ ?_ rfl rfl ?_
  · exact ⟨Nat.zero_le _, Nat.le_refl _, Nat.le_trans hpos hle, h.apart.dvd_size, h.apart.dvd_size⟩
  · simp [Textint.integers, minuteTextintIntsize, minuteTextintClear]

/-- A call on the block is the call on the lists. -/
theorem Stands.step (h : Stands data t s) {call : TextCall} (hstep : s.step call = some (r, s')) :
    (call.apply t).1 = r ∧ Stands data (call.apply t).2 s' := by
  cases call with
  | putc c =>
    obtain ⟨s₁, heq, hstands⟩ := h.putc c
    rw [heq] at hstep
    cases hstep
    exact ⟨rfl, hstands⟩
  | puti i =>
    obtain ⟨s₁, heq, hstands⟩ := h.puti i
    rw [heq] at hstep
    cases hstep
    exact ⟨rfl, hstands⟩
  | replacec offset c =>
    obtain ⟨k, hk, heq⟩ := Option.map_eq_some_iff.mp hstep
    cases heq
    exact ⟨rfl, h.replacec c hk⟩
  | replacei offset i =>
    obtain ⟨k, hk, heq⟩ := Option.map_eq_some_iff.mp hstep
    cases heq
    exact ⟨rfl, h.replacei i hk⟩
  | clear =>
    cases hstep
    exact ⟨rfl, h.clear⟩

/-- Every sequence of calls on the block is the sequence on the lists. -/
theorem Stands.run (h : Stands data t s) {calls : List TextCall} {rs : List (Option Int)}
    (hrun : s.run calls = some (rs, s')) :
    (t.run calls).1 = rs ∧ Stands data (t.run calls).2 s' := by
  induction calls generalizing t s rs with
  | nil =>
    cases hrun
    exact ⟨rfl, h⟩
  | cons call calls ih =>
    obtain ⟨⟨r, s₁⟩, hstep, hmap⟩ := Option.bind_eq_some_iff.mp hrun
    obtain ⟨⟨rs₁, s₂⟩, hrest, heq⟩ := Option.map_eq_some_iff.mp hmap
    cases heq
    obtain ⟨hr, hstands⟩ := h.step hstep
    obtain ⟨hrs, hend⟩ := ih hstands hrest
    exact ⟨congrArg₂ List.cons hr hrs, hend⟩

theorem Stands.geti (h : Stands data t s) (hk : place offset s.integers.length = some k) :
    s.integers[k]? = some (minuteTextintGeti offset t) := by
  have hk' := h.integers_length ▸ hk
  rw [geti_place h.apart hk', ← h.integers, integers_eq h.apart, List.getElem?_map,
    List.getElem?_range (place_eq_some hk').1]
  rfl

theorem Stands.gets (h : Stands data t s) (hk : place offset s.chars.length = some k) :
    s.chars[k]? = some (t.data (minuteTextintGets offset t).toNat) := by
  have hk' := h.chars_length ▸ hk
  rw [gets_place hk', ← h.chars, Textint.chars, getElem?_slice, if_pos (place_eq_some hk').1,
    Nat.zero_add]

/-- **The double-headed store.** Whatever calls are made whose offsets address an element, the block
returns what the two lists return, and it reads as they do from either end. -/
theorem doubleHeaded_run (size : Uint) (hpos : 1 ≤ size.toNat) (hdvd : 4 ∣ size.toNat)
    (data : Nat → Byte) (calls : List TextCall) (rs : List (Option Int)) (s : TwoLists)
    (hrun : TwoLists.run ⟨size.toNat, [], []⟩ calls = some (rs, s)) :
    ∃ t, (minuteTextintInit size data).run calls = (rs, t) ∧
      t.text.toNat ≤ t.ints.toNat ∧ t.ints.toNat ≤ t.size.toNat ∧ t.size = size ∧
      (∀ a, size.toNat ≤ a → t.data a = data a) ∧
      (minuteTextintTextsize t).toNat = s.chars.length ∧
      (minuteTextintIntsize t).toNat = s.integers.length ∧
      (∀ k, k < s.integers.length →
        s.integers[k]? = some (minuteTextintGeti k t) ∧
        s.integers[s.integers.length - 1 - k]? = some (minuteTextintGeti (-1 - k) t)) ∧
      ∀ k, k < s.chars.length →
        s.chars[k]? = some (t.data (minuteTextintGets k t).toNat) ∧
        s.chars[s.chars.length - 1 - k]? = some (t.data (minuteTextintGets (-1 - k) t).toNat) := by
  obtain ⟨hrs, h⟩ := (init_stands hpos hdvd data).run hrun
  have hsize : s.size = size.toNat := run_size hrun
  refine ⟨_, Prod.ext hrs rfl, h.apart.text_le, h.apart.ints_le, ?_, hsize ▸ h.behind,
    h.chars_length.symm, ?_, ?_, ?_⟩
  · apply BitVec.eq_of_toNat_eq
    rw [h.size, hsize]
  · rw [intsize_eq h.apart, h.integers_length]
  · intro k hk
    exact ⟨h.geti (place_natCast hk), h.geti (place_neg hk)⟩
  · intro k hk
    exact ⟨h.gets (place_natCast hk), h.gets (place_neg hk)⟩

/-- Eight bytes: one integer, four characters, and then no more. -/
theorem doubleHeaded_run_full :
    ∃ t : Textint, (minuteTextintInit 8 fun _ => 0).run [.puti 7, .puti 8, .putc 65, .putc 66,
        .replacei (-1) 9, .replacec 0 67, .putc 68, .putc 69, .putc 70] =
          ([some 1, some 0, some 1, some 1, some 1, some 1, some 1, some 1, some 0], t) ∧
      (minuteTextintTextsize t).toNat = 4 ∧ (minuteTextintIntsize t).toNat = 1 ∧
      minuteTextintGeti 0 t = 9 ∧ t.data (minuteTextintGets (-1) t).toNat = 69 := by
  obtain ⟨t, hrun, -, -, -, -, htext, hints, hi, hs⟩ := doubleHeaded_run 8 (by decide) (by decide)
    (fun _ => 0) [.puti 7, .puti 8, .putc 65, .putc 66, .replacei (-1) 9, .replacec 0 67, .putc 68,
      .putc 69, .putc 70] _ _ rfl
  refine ⟨t, hrun, htext, hints, ?_, ?_⟩
  · exact (Option.some.inj (hi 0 (by decide)).1).symm
  · exact (Option.some.inj (hs 0 (by decide)).2).symm

end MinuteHttp
