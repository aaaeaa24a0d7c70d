import MinuteHttp.Libhttp.Blanks

/-!
# White space in a value

A value that goes on over several lines is to be read as if each run of white space in it, line breaks included,
were a single space (`normalised`). The lines of a value end where no blank follows the line end (`valueLines`).
-/

namespace MinuteHttp

/-! ## White space -/

/-- SP, HT, and the characters of a line break. -/
def isLinear (c : Int) : Bool := decide (c = 32 ∨ c = 9 ∨ c = 13 ∨ c = 10)

/-- No word is open: nothing so far, or a space. -/
def AtSpace (w : List Int) : Prop := ∀ y ∈ w.getLast?, y = 32

instance AtSpace.decidable (w : List Int) : Decidable (AtSpace w) :=
  inferInstanceAs (Decidable (∀ y ∈ w.getLast?, y = 32))

/-- One character more, where a run of white space is to be a single space, and none at the beginning. -/
def squeeze (w : List Int) (c : Int) : List Int :=
  if isLinear c then if AtSpace w then w else w ++ [32] else w ++ [c]

/-- The text without the white space at its beginning, and with a single space for every other run of it. -/
def normalised (w : List Int) : List Int := w.foldl squeeze []

/-- The lines of the value that the text begins with: all before the first line end that no blank follows. -/
def valueLines : List Int → List Int
  | [] => []
  | c :: cs => if c = 10 ∧ ∀ b ∈ cs.head?, isBlank b = false then [] else c :: valueLines cs

/-- The text without the CR of a line end. -/
def trimCr (w : List Int) : List Int := if w.getLast? = some 13 then w.dropLast else w

/-- The text ends in a word, or in a CR behind one. -/
def EndsInWord (u : List Int) : Prop := ∃ y ∈ (trimCr u).getLast?, isLinear y = false

/-- There is a word before every line break. -/
def Breaks (x : List Int) : Prop := ∀ u v, x = u ++ 10 :: v → EndsInWord u

section

variable {u v w x : List Int} {c : Int}

theorem normalised_snoc (w : List Int) (c : Int) : normalised (w ++ [c]) = squeeze (normalised w) c := by
  rw [normalised, List.foldl_append]
  rfl

theorem squeeze_word (hc : isLinear c = false) (w : List Int) : squeeze w c = w ++ [c] := by
  rw [squeeze, hc]
  rfl

theorem squeeze_linear (hc : isLinear c = true) (w : List Int) : squeeze w c = if AtSpace w then w else w ++ [32] := by
  rw [squeeze, if_pos hc]

theorem atSpace_concat : AtSpace (w ++ [c]) ↔ c = 32 := by
  rw [AtSpace, List.getLast?_concat]
  constructor
  · intro h
    exact h c rfl
  · rintro rfl y hy
    exact (Option.some.inj hy).symm

theorem not_linear (hc : isLinear c = false) : c ≠ 32 ∧ c ≠ 9 ∧ c ≠ 13 ∧ c ≠ 10 := by
  simpa [isLinear] using hc

theorem linear_of_blank (hc : isBlank c = true) : isLinear c = true := by
  have hc := of_decide_eq_true hc
  exact decide_eq_true (by omega)

/-- Whether a word is open is said by the last character. -/
theorem atSpace_normalised : AtSpace (normalised w) ↔ ∀ y ∈ w.getLast?, isLinear y = true := by
  obtain rfl | ⟨u, c, rfl⟩ := List.eq_nil_or_concat' w
  · exact ⟨fun _ y hy => (Option.not_mem_none y hy).elim, fun _ y hy => (Option.not_mem_none y hy).elim⟩
  · have hlast : (∀ y ∈ (u ++ [c]).getLast?, isLinear y = true) ↔ isLinear c = true := by
      rw [List.getLast?_concat]
      simp
    rw [hlast, normalised_snoc]
    by_cases hc : isLinear c = true
    · rw [squeeze_linear hc]
      by_cases hs : AtSpace (normalised u)
      · rw [if_pos hs]
        exact ⟨fun _ => hc, fun _ => hs⟩
      · rw [if_neg hs]
        exact ⟨fun _ => hc, fun _ => atSpace_concat.mpr rfl⟩
    · rw [Bool.not_eq_true] at hc
      rw [squeeze_word hc, atSpace_concat, hc]
      exact ⟨fun h => absurd h (not_linear hc).1, fun h => absurd h Bool.false_ne_true⟩

theorem normalised_linear (hv : ∀ c ∈ v, isLinear c = true) (hne : v ≠ []) :
    normalised (u ++ v) = if AtSpace (normalised u) then normalised u else normalised u ++ [32] := by
  induction v using List.reverseRecOn with
  | nil => exact absurd rfl hne
  | append_singleton v c ih =>
    have hc : isLinear c = true := hv c (by simp)
    rw [← List.append_assoc, normalised_snoc, squeeze_linear hc]
    by_cases hnil : v = []
    · rw [hnil, List.append_nil]
    · rw [ih (fun c hc => hv c (List.mem_append_left _ hc)) hnil]
      by_cases hs : AtSpace (normalised u)
      · rw [if_pos hs, if_pos hs]
      · rw [if_neg hs, if_pos (atSpace_concat.mpr rfl)]

/-- **Single spaces**: none at the beginning, and no two of them together. -/
theorem normalised_single (hw : AtSpace w) (x : List Int) : ¬w ++ [32] <+: normalised x := by
  induction x using List.reverseRecOn with
  | nil =>
    intro h
    have := h.length_le
    simp [normalised] at this
  | append_singleton x c ih =>
    rw [normalised_snoc]
    by_cases hc : isLinear c = true
    · rw [squeeze_linear hc]
      by_cases hs : AtSpace (normalised x)
      · rw [if_pos hs]
        exact ih
      · rw [if_neg hs, List.prefix_concat_iff, not_or]
        refine ⟨fun h => ?_, ih⟩
        rw [List.append_cancel_right h] at hw
        exact hs hw
    · rw [Bool.not_eq_true] at hc
      rw [squeeze_word hc, List.prefix_concat_iff, not_or]
      refine ⟨fun h => ?_, ih⟩
      have h32 := List.singleton_inj.mp (List.append_inj_right' h rfl)
      exact (not_linear hc).1 h32.symm

theorem mem_normalised (hc : isLinear c = false) : c ∈ normalised w ↔ c ∈ w := by
  induction w using List.reverseRecOn with
  | nil => rfl
  | append_singleton w d ih =>
    rw [normalised_snoc, List.mem_append, List.mem_singleton, ← ih]
    by_cases hd : isLinear d = true
    · have hne : c ≠ d := by
        rintro rfl
        rw [hc] at hd
        cases hd
      rw [squeeze_linear hd, or_iff_left hne]
      split_ifs
      · rfl
      · rw [List.mem_append, List.mem_singleton, or_iff_left (not_linear hc).1]
    · rw [Bool.not_eq_true] at hd
      rw [squeeze_word hd, List.mem_append, List.mem_singleton]

theorem normalised_subset (h : c ∈ normalised w) : c ∈ w ∨ c = 32 := by
  induction w using List.reverseRecOn with
  | nil => cases h
  | append_singleton w d ih =>
    rw [normalised_snoc, squeeze] at h
    split_ifs at h with hd hs
    · exact (ih h).imp_left fun h => List.mem_append_left _ h
    · obtain h | h := List.mem_append.mp h
      · exact (ih h).imp_left fun h => List.mem_append_left _ h
      · exact .inr (List.mem_singleton.mp h)
    · obtain h | h := List.mem_append.mp h
      · exact (ih h).imp_left fun h => List.mem_append_left _ h
      · exact .inl (List.mem_append_right _ h)

theorem trimCr_concat (w : List Int) : trimCr (w ++ [13]) = w := by
  rw [trimCr, if_pos List.getLast?_concat, List.dropLast_concat]

theorem trimCr_of_last (h : 13 ∉ w.getLast?) : trimCr w = w := if_neg h

theorem endsInWord_iff : EndsInWord u ↔ ¬AtSpace (normalised (trimCr u)) := by
  rw [atSpace_normalised]
  constructor
  · rintro ⟨y, hy, hw⟩ h
    rw [h y hy] at hw
    cases hw
  · intro h
    by_contra hno
    refine h fun y hy => ?_
    by_contra hw
    exact hno ⟨y, hy, Bool.not_eq_true _ ▸ hw⟩

theorem breaks_nil : Breaks [] := by
  intro u v h
  simp at h

theorem breaks_concat : Breaks (x ++ [c]) ↔ Breaks x ∧ (c = 10 → EndsInWord x) := by
  constructor
  · intro h
    refine ⟨fun u v hx => h u (v ++ [c]) (by rw [hx, List.append_assoc]; rfl), ?_⟩
    rintro rfl
    exact h x [] rfl
  · rintro ⟨h, hc⟩ u v hx
    obtain rfl | ⟨v, d, rfl⟩ := List.eq_nil_or_concat' v
    · obtain ⟨rfl, hcd⟩ := List.append_inj' hx rfl
      exact hc (List.singleton_inj.mp hcd)
    · rw [← List.cons_append, ← List.append_assoc] at hx
      exact h u v (List.append_inj_left' hx rfl)

end

/-! ## The lines of a value -/

theorem valueLines_append (q : List Int) : ∃ rest, q = valueLines q ++ rest ∧
    (rest = [] ∨ ∃ tail, rest = 10 :: tail ∧ ∀ b ∈ tail.head?, isBlank b = false) := by
  induction q with
  | nil => exact ⟨[], rfl, .inl rfl⟩
  | cons c q ih =>
    rw [valueLines]
    by_cases h : c = 10 ∧ ∀ b ∈ q.head?, isBlank b = false
    · rw [if_pos h]
      exact ⟨c :: q, rfl, .inr ⟨q, by rw [h.1], h.2⟩⟩
    · rw [if_neg h]
      obtain ⟨rest, hq, hrest⟩ := ih
      exact ⟨rest, congrArg (c :: ·) hq, hrest⟩

theorem valueLines_blank {q u v : List Int} (h : valueLines q = u ++ 10 :: v) : ∃ b v', v = b :: v' ∧ isBlank b = true := by
  induction q generalizing u with
  | nil =>
    rw [valueLines] at h
    simp at h
  | cons c q ih =>
    rw [valueLines] at h
    by_cases hc : c = 10 ∧ ∀ b ∈ q.head?, isBlank b = false
    · rw [if_pos hc] at h
      simp at h
    · rw [if_neg hc] at h
      obtain _ | ⟨d, u⟩ := u
      · rw [List.nil_append, List.cons.injEq] at h
        obtain ⟨rfl, hv⟩ := h
        obtain _ | ⟨b, q⟩ := q
        · exact absurd ⟨rfl, fun b hb => (Option.not_mem_none b hb).elim⟩ hc
        · have hb : isBlank b = true := by
            by_contra hb
            exact hc ⟨rfl, fun y hy => by rw [← Option.some.inj hy]; exact Bool.eq_false_iff.mpr hb⟩
          have h10 : b ≠ 10 := by
            rintro rfl
            cases hb
          rw [valueLines, if_neg (fun h => h10 h.1)] at hv
          exact ⟨b, _, hv.symm, hb⟩
      · rw [List.cons_append, List.cons.injEq] at h
        exact ih h.2

end MinuteHttp
