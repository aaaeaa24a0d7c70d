import MinuteHttp.Libhttp.LineNames

/-!
# The Content-Length lines of a request

Which number is to be the content length can be seen in the text: that of the last Content-Length line. The parser
takes the number of each such line at its CR (`taken_lines`), if it reads the line at all (`TellsLength`): a name that
it takes for `content-length` must stand in the text, the line must begin for the parser where it begins in the text,
and no continuation line may go on with a number. From this come when the numbers of a request are exact
(`decimals_exact_iff`) and which line ends matter (`line_ends_iff`). The lines are those of characters that may carry
a mark: whether their CR is kept.
-/

namespace MinuteHttp

open HttpRequestState Feed

variable {α : Type} (char : α → Int)

/-! ## Lines and their numbers -/

/-- The lines behind the request line. -/
def headLines (w : List α) : List (List α) :=
  ((w.dropWhile fun x => isNewline (char x)).splitOnP fun x => char x = 10).tail

/-- The line is a Content-Length line. -/
def IsLengthLine (line : List Int) : Prop :=
  58 ∈ line ∧ (line.takeWhile fun c => c ≠ 58).map toLower = headerName HttpRequestHeader.contentLength.code

instance IsLengthLine.decidable (line : List Int) : Decidable (IsLengthLine line) := inferInstanceAs (Decidable (_ ∧ _))

/-- The digits behind the colon of a line, up to its CR. -/
def numberDigits (line : List Int) : List Int :=
  ((line.dropWhile fun c => c ≠ 58).takeWhile fun c => c ≠ 13).filter isDigit

/-- The number of a Content-Length line whose CR is `kept`. -/
def lineNumber (kept : α → Bool) (line : List α) : Option Uint :=
  if IsLengthLine (line.map char) ∧ (line.find? fun x => char x = 13).any kept = true then
    some (BitVec.ofNat 32 (decimal (numberDigits (line.map char))))
  else none

/-- A Content-Length line without a CR. -/
def Unended (line : List Int) : Prop := IsLengthLine line ∧ 13 ∉ line

/-- The numbers of the Content-Length lines whose CR is `kept`. -/
def lineNumbers (kept : α → Bool) (w : List α) : List Uint := (headLines char w).filterMap (lineNumber char kept)

section

variable {char} {p : List α} {x : α}

theorem headLines_lead (h : (p.dropWhile fun x => isNewline (char x)) = []) : headLines char (p ++ [x]) = [] := by
  rw [headLines, List.dropWhile_append, h]
  cases hx : isNewline (char x) with
  | true => simp [hx]
  | false =>
    have h10 : char x ≠ 10 := fun h10 => by
      rw [h10] at hx
      cases hx
    simp [hx, List.splitOnP_cons_eq_if_modifyHead, h10]

theorem headLines_lf (hx : char x = 10) (h : (p.dropWhile fun x => isNewline (char x)) ≠ []) :
    headLines char (p ++ [x]) = headLines char p ++ [[]] := by
  have hempty := List.isEmpty_eq_false_iff.mpr h
  rw [headLines, headLines, List.dropWhile_append, hempty, if_neg (by decide),
    List.splitOnP_append_cons _ _ (by simpa using hx), List.splitOnP_nil,
    List.tail_append_of_ne_nil (List.splitOnP_ne_nil _ _)]

variable (p) in
theorem headLines_char (hx : char x ≠ 10) :
    (headLines char p = [] ∧ headLines char (p ++ [x]) = []) ∨
      ∃ ls l, headLines char p = ls ++ [l] ∧ headLines char (p ++ [x]) = ls ++ [l ++ [x]] := by
  by_cases h : (p.dropWhile fun x => isNewline (char x)) = []
  · refine .inl ⟨?_, headLines_lead h⟩
    rw [headLines, h]
    rfl
  · have hempty := List.isEmpty_eq_false_iff.mpr h
    rw [headLines, headLines, List.dropWhile_append, hempty, if_neg (by decide)]
    generalize p.dropWhile (fun x => isNewline (char x)) = q
    have hsplit : ∃ ls l, (q.splitOnP fun x => char x = 10) = ls ++ [l] ∧
        ((q ++ [x]).splitOnP fun x => char x = 10) = ls ++ [l ++ [x]] := by
      induction q with
      | nil => exact ⟨[], [], rfl, by simp [List.splitOnP_cons_eq_if_modifyHead, hx]⟩
      | cons y q ih =>
        obtain ⟨ls, l, h₁, h₂⟩ := ih
        rw [List.cons_append, List.splitOnP_cons_eq_if_modifyHead, List.splitOnP_cons_eq_if_modifyHead, h₁, h₂]
        split
        · exact ⟨[] :: ls, l, rfl, rfl⟩
        · cases ls with
          | nil => exact ⟨[], y :: l, rfl, rfl⟩
          | cons l' ls => exact ⟨(y :: l') :: ls, l, rfl, rfl⟩
    obtain ⟨ls, l, h₁, h₂⟩ := hsplit
    rw [h₁, h₂]
    cases ls with
    | nil => exact .inl ⟨rfl, rfl⟩
    | cons l' ls => exact .inr ⟨ls, l, rfl, rfl⟩

variable (char p) in
theorem getLast_headLines :
    (headLines char p).getLast?.map (List.map char) =
      if PastRequestLine ((p.map char).rdropWhile fun c => c ≠ 10) then
        some ((p.map char).rtakeWhile fun c => c ≠ 10) else none := by
  induction p using List.reverseRecOn with
  | nil => rfl
  | append_singleton p x ih =>
    rw [List.map_append, List.map_singleton]
    by_cases hx : char x = 10
    · have hfrom : fromRequestLine (p.map char) = (p.dropWhile fun x => isNewline (char x)).map char :=
        List.dropWhile_map ..
      rw [hx, List.rdropWhile_concat_neg _ _ _ (by decide), List.rtakeWhile_concat_neg _ _ _ (by decide)]
      have hpast : PastRequestLine (p.map char ++ [10]) ↔ fromRequestLine (p.map char) ≠ [] := by
        unfold PastRequestLine
        rw [fromRequestLine_snoc]
        by_cases hp : fromRequestLine (p.map char) = [] <;> simp [hp]
      by_cases h : (p.dropWhile fun x => isNewline (char x)) = []
      · rw [headLines_lead h, if_neg (fun hp => hpast.mp hp (by rw [hfrom, h]; rfl))]
        rfl
      · rw [headLines_lf hx h, if_pos (hpast.mpr (by rw [hfrom, ne_eq, List.map_eq_nil_iff]; exact h)),
          List.getLast?_concat]
        rfl
    · rw [List.rdropWhile_concat_pos _ _ _ (by simpa using hx), List.rtakeWhile_concat_pos _ _ _ (by simpa using hx)]
      obtain ⟨h₁, h₂⟩ | ⟨ls, l, h₁, h₂⟩ := headLines_char p hx
      · rw [h₁] at ih
        rw [h₂]
        split at ih
        · cases ih
        · next hpast =>
          rw [if_neg hpast]
          rfl
      · rw [h₁, List.getLast?_concat] at ih
        rw [h₂, List.getLast?_concat]
        split at ih
        · next hpast =>
          rw [if_pos hpast, Option.map_some, List.map_append, List.map_singleton]
          rw [Option.map_some, Option.some.injEq] at ih
          rw [ih]
        · cases ih

end

theorem name_no_colon : 58 ∉ headerName HttpRequestHeader.contentLength.code := by decide

theorem isLengthLine_snoc {line : List Int} {c : Int} :
    IsLengthLine (line ++ [c]) ↔
      IsLengthLine line ∨ c = 58 ∧ line.map toLower = headerName HttpRequestHeader.contentLength.code := by
  unfold IsLengthLine
  by_cases hline : 58 ∈ line
  · have htake : ((line ++ [c]).takeWhile fun c => c ≠ 58) = line.takeWhile fun c => c ≠ 58 := by
      rw [List.takeWhile_append, if_neg]
      intro hlen
      have hall := List.takeWhile_eq_self_iff.mp ((List.takeWhile_prefix _).eq_of_length hlen)
      simpa using hall 58 hline
    have hname : line.map toLower ≠ headerName HttpRequestHeader.contentLength.code := fun h =>
      name_no_colon (h ▸ List.mem_map.mpr ⟨58, hline, rfl⟩)
    rw [htake]
    simp [hline, hname]
  · have htake : (line.takeWhile fun c => c ≠ 58) = line := by
      rw [List.takeWhile_eq_self_iff]
      intro y hy
      simpa using fun h : y = 58 => hline (h ▸ hy)
    have hsnoc : ((line ++ [c]).takeWhile fun c => c ≠ 58) = line ++ ([c].takeWhile fun c => c ≠ 58) := by
      rw [List.takeWhile_append, htake, if_pos rfl]
    rw [hsnoc]
    by_cases hc : c = 58
    · simp [hline, hc]
    · simp [hline, hc, Ne.symm hc]

theorem dropWhile_colon {line : List Int} {c : Int} (hline : 58 ∈ line) :
    ((line ++ [c]).dropWhile fun c => c ≠ 58) = (line.dropWhile fun c => c ≠ 58) ++ [c] := by
  rw [List.dropWhile_append, if_neg]
  intro hempty
  have hall := List.dropWhile_eq_nil_iff.mp (List.isEmpty_iff.mp hempty)
  simpa using hall 58 hline

theorem numberDigits_colon {line : List Int} (hline : 58 ∉ line) : numberDigits (line ++ [58]) = [] := by
  have hdrop : (line.dropWhile fun c => c ≠ 58) = [] := by
    rw [List.dropWhile_eq_nil_iff]
    intro y hy
    simpa using fun h : y = 58 => hline (h ▸ hy)
  rw [numberDigits, List.dropWhile_append, hdrop]
  rfl

theorem Unended.digits {line : List Int} (h : Unended line) (c : Int) :
    numberDigits (line ++ [c]) = if isDigit c = true then numberDigits line ++ [c] else numberDigits line := by
  have hsub : ∀ y ∈ line.dropWhile fun c => c ≠ 58, y ≠ 13 := fun y hy h13 =>
    h.2 (h13 ▸ (List.dropWhile_sublist _).subset hy)
  have htake : ((line.dropWhile fun c => c ≠ 58).takeWhile fun c => c ≠ 13) = line.dropWhile fun c => c ≠ 58 := by
    rw [List.takeWhile_eq_self_iff]
    intro y hy
    simpa using hsub y hy
  rw [numberDigits, numberDigits, dropWhile_colon h.1.1, List.takeWhile_append, htake, if_pos rfl, List.filter_append]
  by_cases hc : c = 13
  · subst hc
    rw [if_neg (by decide)]
    exact List.append_nil _
  · have hstay : ([c].takeWhile fun c => c ≠ 13) = [c] := by simp [hc]
    rw [hstay]
    by_cases hd : isDigit c = true
    · simp [hd]
    · simp [hd]

theorem numberDigits_ended {line : List Int} (h : IsLengthLine line) (h13 : 13 ∈ line) (c : Int) :
    numberDigits (line ++ [c]) = numberDigits line := by
  have hname : 13 ∉ line.takeWhile fun c => c ≠ 58 := by
    intro hmem
    have hno : 13 ∉ headerName HttpRequestHeader.contentLength.code := by decide
    exact hno (h.2 ▸ List.mem_map.mpr ⟨13, hmem, rfl⟩)
  have hmem : 13 ∈ line.dropWhile fun c => c ≠ 58 := by
    rw [← List.takeWhile_append_dropWhile (p := fun c : Int => decide (c ≠ 58)) (l := line)] at h13
    exact (List.mem_append.mp h13).resolve_left hname
  rw [numberDigits, numberDigits, dropWhile_colon h.1, List.takeWhile_append, if_neg]
  intro hlen
  have hall := List.takeWhile_eq_self_iff.mp ((List.takeWhile_prefix _).eq_of_length hlen)
  simpa using hall 13 hmem

section

variable {char} {kept : α → Bool} {p l : List α} {x : α}

variable (char) in
theorem map_find_cr (l : List α) : (∃ y, (l.find? fun x => char x = 13) = some y) ↔ 13 ∈ l.map char := by
  constructor
  · rintro ⟨y, hy⟩
    have hcr := List.find?_some hy
    exact List.mem_map.mpr ⟨y, List.mem_of_find?_eq_some hy, by simpa using hcr⟩
  · intro h
    obtain ⟨y, hy, hcr⟩ := List.mem_map.mp h
    cases hf : l.find? fun x => char x = 13 with
    | some z => exact ⟨z, rfl⟩
    | none => exact absurd hcr (by simpa using List.find?_eq_none.mp hf y hy)

theorem lineNumber_cr (h : Unended (l.map char)) (hx : char x = 13) (hkept : kept x = true) :
    lineNumber char kept l = none ∧
      lineNumber char kept (l ++ [x]) = some (BitVec.ofNat 32 (decimal (numberDigits (l.map char)))) := by
  have hnone : (l.find? fun x => char x = 13) = none :=
    Option.eq_none_iff_forall_ne_some.mpr fun y hy => h.2 ((map_find_cr char l).mp ⟨y, hy⟩)
  constructor
  · rw [lineNumber, hnone, if_neg (by simp)]
  · have hdigits := h.digits 13
    rw [if_neg (by decide)] at hdigits
    rw [lineNumber, List.map_append, List.map_singleton, hx, hdigits, List.find?_append, hnone, if_pos]
    exact ⟨isLengthLine_snoc.mpr (.inl h.1), by simp [hx, hkept]⟩

theorem lineNumber_snoc (h : Unended (l.map char) → char x = 13 → kept x = false) :
    lineNumber char kept (l ++ [x]) = lineNumber char kept l := by
  simp only [lineNumber, List.map_append, List.map_singleton, isLengthLine_snoc, List.find?_append]
  cases hf : l.find? fun x => char x = 13 with
  | some y =>
    have h13 : 13 ∈ l.map char := (map_find_cr char l).mp ⟨y, hf⟩
    have hname : (l.map char).map toLower ≠ headerName HttpRequestHeader.contentLength.code := fun hn => by
      have hno : 13 ∉ headerName HttpRequestHeader.contentLength.code := by decide
      exact hno (hn ▸ List.mem_map.mpr ⟨13, h13, rfl⟩)
    rw [Option.some_or]
    by_cases hline : IsLengthLine (l.map char)
    · rw [numberDigits_ended hline h13]
      simp [hline]
    · rw [if_neg (fun h' => h'.1.elim hline fun hn => hname hn.2), if_neg (fun h' => hline h'.1)]
  | none =>
    have h13 : 13 ∉ l.map char := fun h13 => by
      obtain ⟨y, hy⟩ := (map_find_cr char l).mpr h13
      rw [hf] at hy
      cases hy
    rw [Option.none_or, if_neg, if_neg (fun h' => Bool.false_ne_true h'.2)]
    rintro ⟨hline, hany⟩
    obtain ⟨y, hy, hkept⟩ := (Option.any_eq_true _ _).mp hany
    obtain rfl := List.mem_singleton.mp (List.mem_of_find?_eq_some hy)
    have hy13 : char y = 13 := by simpa using List.find?_some hy
    obtain hline | ⟨hc, -⟩ := hline
    · rw [h ⟨hline, h13⟩ hy13] at hkept
      cases hkept
    · rw [hy13] at hc
      cases hc

theorem lineNumbers_cr (hl : l ∈ (headLines char p).getLast?) (h : Unended (l.map char)) (hx : char x = 13)
    (hkept : kept x = true) :
    lineNumbers char kept (p ++ [x]) =
      lineNumbers char kept p ++ [BitVec.ofNat 32 (decimal (numberDigits (l.map char)))] := by
  obtain ⟨h₁, -⟩ | ⟨ls, l', h₁, h₂⟩ := headLines_char p (by rw [hx]; decide : char x ≠ 10)
  · rw [h₁] at hl
    cases hl
  · rw [h₁, List.getLast?_concat] at hl
    obtain rfl := Option.some.inj hl
    obtain ⟨hnone, hsome⟩ := lineNumber_cr h hx hkept
    simp [lineNumbers, h₁, h₂, hnone, hsome]

theorem lineNumbers_snoc (h : ∀ l ∈ (headLines char p).getLast?, Unended (l.map char) → char x = 13 → kept x = false) :
    lineNumbers char kept (p ++ [x]) = lineNumbers char kept p := by
  unfold lineNumbers
  by_cases hx : char x = 10
  · by_cases hlead : (p.dropWhile fun x => isNewline (char x)) = []
    · have hp : headLines char p = [] := by
        rw [headLines, hlead]
        rfl
      rw [headLines_lead hlead, hp]
    · have hnil : lineNumber char kept ([] : List α) = none := if_neg (by simp)
      rw [headLines_lf hx hlead]
      simp [hnil]
  · obtain ⟨h₁, h₂⟩ | ⟨ls, l, h₁, h₂⟩ := headLines_char p hx
    · rw [h₁, h₂]
    · rw [h₁] at h
      have hsame := lineNumber_snoc (h l (List.getLast?_concat))
      rw [h₁, h₂, List.filterMap_append, List.filterMap_append, List.filterMap_cons, List.filterMap_cons, hsame]

theorem endsHeader_length :
    EndsHeader (p.map char ++ [char x]) HttpRequestHeader.contentLength.code ↔
      char x = 58 ∧ ∃ l ∈ (headLines char p).getLast?,
        (l.map char).map toLower = headerName HttpRequestHeader.contentLength.code := by
  have hlast := getLast_headLines char p
  unfold EndsHeader
  by_cases h10 : char x = 10
  · rw [h10, List.rtakeWhile_concat_neg _ _ _ (by decide)]
    simp
  · rw [List.rdropWhile_concat_pos _ _ _ (by simpa using h10), List.rtakeWhile_concat_pos _ _ _ (by simpa using h10),
      List.map_append, List.map_singleton]
    have hcode : HttpRequestHeader.contentLength.code ∈ headerCodes := by decide
    constructor
    · rintro ⟨hpast, -, hname⟩
      rw [if_pos hpast] at hlast
      obtain ⟨l, hl, heq⟩ := Option.map_eq_some_iff.mp hlast
      obtain ⟨hname, hcolon⟩ := List.append_inj' hname rfl
      refine ⟨(toLower_eq (by decide)).mp (List.singleton_inj.mp hcolon), l, hl, ?_⟩
      rw [heq]
      exact hname
    · rintro ⟨hx, l, hl, hname⟩
      rw [hl] at hlast
      split at hlast
      · next hpast =>
        refine ⟨hpast, hcode, ?_⟩
        rw [← Option.some.inj hlast, hname, hx]
        rfl
      · cases hlast

end

/-! ## The run -/

/-- A step that tells the Content-Length lines from their text: a name that the parser takes for `content-length` is
one, behind every such name the parser reads it as well, and no continuation line goes on with a number. -/
structure TellsLength (p : List Int) (k : Frame) (c : Int) : Prop where
  named : recognised k c = some HttpRequestHeader.contentLength.code →
    EndsHeader (p ++ [c]) HttpRequestHeader.contentLength.code
  read : EndsHeader (p ++ [c]) HttpRequestHeader.contentLength.code → k.s.st = hHeader
  fold : ¬(k.s.st = hCont ∧ k.s.collect = true ∧ k.s.est = hHeadContentLength)

instance TellsLength.decidable (p : List Int) (k : Frame) (c : Int) : Decidable (TellsLength p k c) :=
  decidable_of_iff ((recognised k c = some HttpRequestHeader.contentLength.code →
        EndsHeader (p ++ [c]) HttpRequestHeader.contentLength.code) ∧
      (EndsHeader (p ++ [c]) HttpRequestHeader.contentLength.code → k.s.st = hHeader) ∧
      ¬(k.s.st = hCont ∧ k.s.collect = true ∧ k.s.est = hHeadContentLength))
    ⟨fun h => ⟨h.1, h.2.1, h.2.2⟩, fun h => ⟨h.named, h.read, h.fold⟩⟩

/-- The parser is in front of a number or within it. -/
def AtNumber (k : Frame) : Prop :=
  k.s.st = hHeadContentLength ∨ (k.s.st = hValueLead ∧ k.s.est = hHeadContentLength)

section

variable {k k' : Frame} {c : Int}

theorem TellsLength.takes_iff {p : List Int} (h : TellsLength p k c) : Takes k c ↔ c = 13 ∧ AtNumber k := by
  have hfold := h.fold
  unfold Takes ReadsLength AtNumber
  tauto

/-- A turn on a number: it goes on, or its line ends. -/
theorem iterate_number (hk : Routed k) (h : AtNumber k) (hs : iterate k c = .next k') :
    if c = 13 ∨ c = 10 then ¬AtNumber k'
    else AtNumber k' ∧ k'.s.esc = if isDigit c = true then addDigit k.s.esc c else k.s.esc := by
  have hnumber : ∀ k₁ : Frame, Routed k₁ → k₁.s.st = hHeadContentLength → k₁.s.esc = k.s.esc → iterate k₁ c = .next k' →
      if c = 13 ∨ c = 10 then ¬AtNumber k'
      else AtNumber k' ∧ k'.s.esc = if isDigit c = true then addDigit k.s.esc c else k.s.esc := by
    intro k₁ hk₁ hst hesc hs
    by_cases h10 : c = 10
    · subst h10
      have hsw : switch k₁ 10 = reset hCr k₁ 10 := by simp [switch, hst, hHeadContentLengthCase]
      have hsw' : switch (k₁.shift hCr) 10 = brk (((k₁.shift hCr).setNl (k₁.s.nl + 1)).shift hNl) := by
        simp [switch, hCrCase]
      rw [iterate_reset hk₁ hsw] at hs
      rw [if_pos (.inr rfl), eq_advance_of_brk hsw' hs]
      rintro (hx | ⟨hx, -⟩) <;> cases hx
    · obtain ⟨hd, hst', hesc'⟩ | ⟨h13, hst'⟩ := iterate_digitTurn hk₁ hst h10 hs
      · have hlow := of_decide_eq_true hd
        rw [if_neg (by omega), if_pos hd, hesc', hesc]
        exact ⟨.inl hst', rfl⟩
      · rw [if_pos (.inl h13)]
        rintro (hx | ⟨hx, -⟩) <;> rw [hst'] at hx <;> cases hx
  obtain hst | ⟨hst, hest⟩ := h
  · exact hnumber k hk hst rfl hs
  · by_cases hblank : c ≠ 32 ∧ c ≠ 9
    · have hsw : switch k c = reset k.s.est k.mark c := by simp only [switch, hst, hValueLeadCase, if_pos hblank]
      have hr := switch_routed k c hk
      rw [hsw] at hr
      rw [iterate_reset hk hsw] at hs
      exact hnumber _ hr.1 hest rfl hs
    · have hsw : switch k c = brk k := by simp only [switch, hst, hValueLeadCase, if_neg hblank]
      have hno : ¬isDigit c = true := by
        simp only [isDigit, decide_eq_true_eq]
        omega
      rw [if_neg (by omega), if_neg hno, eq_advance_of_brk hsw hs]
      exact ⟨.inr ⟨hst, hest⟩, rfl⟩

theorem recognised_start (c : Int) (h : k.tstate = ⟨0, 0⟩) : recognised k c = none := by
  unfold recognised
  rw [h]
  split
  · cases hw : headerWalk (toLower c) ⟨0, 0⟩ with
    | none => rfl
    | some x =>
      obtain ⟨r, t⟩ := x
      have hr := headerWalk_start hw
      exact if_neg (by omega)
  · rfl

/-- No number is begun but behind the name of its header. -/
theorem switch_number (hk : Routed k) (h : ¬AtNumber k)
    (hfold : ¬(k.s.st = hCont ∧ k.s.collect = true ∧ k.s.est = hHeadContentLength)) :
    Pass.All (fun k' c' => ¬AtNumber k' ∧
        ¬(k'.s.st = hCont ∧ k'.s.collect = true ∧ k'.s.est = hHeadContentLength) ∧
        (recognised k' c' = some HttpRequestHeader.contentLength.code →
          recognised k c = some HttpRequestHeader.contentLength.code))
      (fun k' => AtNumber k' → recognised k c = some HttpRequestHeader.contentLength.code) (fun _ _ => True) True
      (switch k c) := by
  have hother : ∀ (k' : Frame) (c' : Int), k'.s.st ≠ hHeader →
      recognised k' c' ≠ some HttpRequestHeader.contentLength.code := by
    intro k' c' hst
    rw [recognised_other c' hst]
    exact Option.some_ne_none _ |>.symm
  cases hst : k.s.st <;> simp only [switch, hst]
  case hHeadContentLength => exact absurd (.inl hst) h
  case hValueLead =>
    have hest : k.s.est ≠ hHeadContentLength := fun hest => h (.inr ⟨hst, hest⟩)
    have hvalue : k.s.est.isValue = true := by
      rw [Routed, hst] at hk
      exact hk
    have hshift : k.s.est ≠ hHeader ∧ k.s.est ≠ hCont := by
      cases hx : k.s.est <;> rw [hx] at hvalue <;> first | decide | cases hvalue
    simp only [hValueLeadCase, all_ite, all_reset, all_brk]
    refine ⟨fun _ => ⟨?_, ?_, fun hr => absurd hr (hother _ _ hshift.1)⟩, fun _ hat => absurd hat h⟩
    · rintro (hx | ⟨-, hx⟩) <;> exact hest hx
    · rintro ⟨hx, -⟩
      exact hshift.2 hx
  case hHeader =>
    simp only [hHeaderCase, all_onWalk, all_ite, all_reset, all_brk]
    refine ⟨fun _ => trivial, fun r t hw => ⟨fun _ => ?_, fun _ => ⟨fun hpos => ?_, fun _ hat => ?_⟩⟩⟩
    · refine ⟨?_, fun hx => (by cases hx.1), fun hr => absurd hr (hother _ _ (by simp))⟩
      rintro (hx | ⟨hx, -⟩) <;> cases hx
    · have hrec : recognised k c = some r.toNat := by
        rw [recognised, if_pos hst, hw]
        exact if_pos hpos
      rw [hrec]
      unfold hHeaderMatched
      by_cases hlen : r.toNat = HttpRequestHeader.contentLength.code
      · rw [hlen]
        simp
      · simp [hlen, AtNumber]
    · refine absurd ?_ h
      obtain hx | ⟨hx, -⟩ := hat
      · simp [hst] at hx
      · simp [hst] at hx
  case hNl =>
    have hstart : ∀ k₁ : Frame, k₁.tstate = ⟨0, 0⟩ →
        recognised (k₁.shift hHeader) c ≠ some HttpRequestHeader.contentLength.code := by
      intro k₁ ht
      rw [recognised_start c (show (k₁.shift hHeader).tstate = ⟨0, 0⟩ from ht)]
      exact (Option.some_ne_none _).symm
    dsimp only [hNlCase]
    simp [AtNumber, hstart]
  case hCont =>
    simp only [hContCase, all_ite, all_reset]
    refine ⟨fun hcol => ⟨?_, fun hx => (by cases hx.1), fun hr => absurd hr (hother _ _ (by simp))⟩,
      fun _ => ⟨?_, fun hx => (by cases hx.1), fun hr => absurd hr (hother _ _ (by simp))⟩⟩
    · rintro (hx | ⟨-, hx⟩)
      · cases hx
      · exact hfold ⟨hst, hcol, hx⟩
    · rintro (hx | ⟨hx, -⟩) <;> cases hx
  case hEscaped2 =>
    have hest : k.s.est = hPath ∨ k.s.est = hQuery := by
      rw [Routed, hst] at hk
      simp only [routed, Bool.and_eq_true, Bool.or_eq_true, beq_iff_eq] at hk
      exact hk.1
    dsimp only [hEscaped2Case]
    rcases hest with hest | hest <;> simp [AtNumber, recognised, hst, hest]
  all_goals
    dsimp only [hInitialCase, hMethodCase, hMethodSpCase, hPathCase, hEscaped1Case, hQueryCase, hPathSpCase, hProtCase,
      hProtSlashCase, hProtHttpXCase, hProtHttpXDotCase, hProtHttpXXCase, hCrCase, hHeadConnectionCase, hHeadExpectCase,
      hHeadTransferEncodingCase, hHeadFlagInitial, hHeadFlagCase, hValueCase, hSkiplineCase, hErrorCase]
    simp [AtNumber, recognised, hst]

theorem iterate_begins {p : List Int} (hk : Routed k) (h : ¬AtNumber k) (ht : TellsLength p k c)
    (hs : iterate k c = .next k') (h' : AtNumber k') : EndsHeader (p ++ [c]) HttpRequestHeader.contentLength.code := by
  have hi := iterate_inv (N := fun k₁ c₁ => (¬AtNumber k₁ ∧
        ¬(k₁.s.st = hCont ∧ k₁.s.collect = true ∧ k₁.s.est = hHeadContentLength) ∧
        (recognised k₁ c₁ = some HttpRequestHeader.contentLength.code →
          recognised k c = some HttpRequestHeader.contentLength.code)) ∧ Routed k₁)
    (B := fun k' => AtNumber k' → recognised k c = some HttpRequestHeader.contentLength.code) (R := fun _ _ => True)
    (F := True)
    (fun k₁ c₁ h₁ => (Pass.All.and (switch_number h₁.2 h₁.1.1 h₁.1.2.1) (switch_routed k₁ c₁ h₁.2)).imp
      (fun _ _ h => ⟨⟨h.1.1, h.1.2.1, fun hr => h₁.1.2.2 (h.1.2.2 hr)⟩, h.2.1⟩) (fun _ h hat => h₁.1.2.2 (h.1 hat))
      (fun _ _ _ => trivial) fun _ => trivial) (c := c) ⟨⟨h, ht.fold, id⟩, hk⟩
  rw [hs] at hi
  obtain ⟨k₁, h₁, -, rfl⟩ := hi
  exact ht.named (h₁ h')

theorem iterate_named {k₀ : Frame} (h : Reading k₀ (headerName HttpRequestHeader.contentLength.code) k)
    (hs : iterate k 58 = .next k') : AtNumber k' ∧ k'.s.esc = 0 := by
  obtain ⟨-, hsw⟩ := h.colon (by decide)
  have hmatched : switch k 58 = brk (markUnlessUnknown
      (({ k.clearTrie with s := { k.clearTrie.s with esc := 0 } }.setEst hHeadContentLength).shift hValueLead)) := by
    rw [hsw]
    rfl
  rw [eq_advance_of_brk hmatched hs]
  constructor
  · right
    simp
  · simp

end

/-- What the line that the symbols `p` end in has to do with the state: it is a Content-Length line without a CR exactly
if the parser is at a number, which is then that of the line. -/
structure LengthAt (p : List α) (k : Frame) : Prop where
  reads : ∀ l ∈ (headLines char p).getLast?, Unended (l.map char) →
    AtNumber k ∧ k.s.esc = BitVec.ofNat 32 (decimal (numberDigits (l.map char)))
  begun : AtNumber k → ∃ l ∈ (headLines char p).getLast?, Unended (l.map char)

/-- The numbers that a run takes at the CRs that are `kept`. -/
def takenWhere (kept : α → Bool) (k : Frame) : List α → List Uint
  | [] => []
  | x :: w =>
    (if kept x = true ∧ Takes k (char x) then [k.s.esc] else []) ++
      match iterate k (char x) with
      | .next k' => takenWhere kept k' w
      | .halt _ => []

section

variable {char} {kept : α → Bool} {p w : List α} {x : α} {k k' : Frame}

theorem unended_snoc {line : List Int} {c : Int} (h : Unended line) (hc : c ≠ 13) : Unended (line ++ [c]) :=
  ⟨isLengthLine_snoc.mpr (.inl h.1), by simpa using ⟨h.2, Ne.symm hc⟩⟩

theorem unended_colon {line : List Int} (h : line.map toLower = headerName HttpRequestHeader.contentLength.code) :
    Unended (line ++ [58]) := by
  refine ⟨isLengthLine_snoc.mpr (.inr ⟨rfl, h⟩), ?_⟩
  have hno : 13 ∉ headerName HttpRequestHeader.contentLength.code := by decide
  simp only [List.mem_append, List.mem_singleton, not_or]
  exact ⟨fun hmem => hno (h ▸ List.mem_map.mpr ⟨13, hmem, rfl⟩), by decide⟩

/-- **A turn** keeps the tie between the line and the state. -/
theorem LengthAt.next {rq : MinuteHttpRq} {hmask : Uint} {io : Iobuf} {text : Textint} (h : LengthAt char p k)
    (hp : feed iterate (startFrame rq (minuteHttpInit hmask io text).1 io (minuteHttpInit hmask io text).2)
      (p.map char) = .next k) (ht : TellsLength (p.map char) k (char x)) (hs : iterate k (char x) = .next k') :
    LengthAt char (p ++ [x]) k' := by
  have hr₀ : Routed (startFrame rq (minuteHttpInit hmask io text).1 io (minuteHttpInit hmask io text).2) := rfl
  have hr := feed_routed hr₀ hp
  have hname : ¬AtNumber k → AtNumber k' → char x = 58 ∧ ∃ l ∈ (headLines char p).getLast?,
      (l.map char).map toLower = headerName HttpRequestHeader.contentLength.code := fun hat hat' =>
    endsHeader_length.mp (iterate_begins hr hat ht hs hat')
  by_cases h10 : char x = 10
  · constructor
    · intro l hl hun
      have hnil : l = [] := by
        by_cases hlead : (p.dropWhile fun x => isNewline (char x)) = []
        · rw [headLines_lead hlead] at hl
          cases hl
        · rw [headLines_lf h10 hlead, List.getLast?_concat] at hl
          exact (Option.some.inj hl).symm
      rw [hnil] at hun
      exact absurd hun.1.1 (List.not_mem_nil)
    · intro hat'
      by_cases hat : AtNumber k
      · have hturn := iterate_number hr hat hs
        rw [if_pos (.inr h10)] at hturn
        exact absurd hat' hturn
      · rw [h10] at hname
        exact absurd (hname hat hat').1 (by decide)
  · obtain ⟨hnone, hnone'⟩ | ⟨ls, l, hlast, hlast'⟩ := headLines_char p h10
    · constructor
      · intro l hl
        rw [hnone'] at hl
        cases hl
      · intro hat'
        by_cases hat : AtNumber k
        · obtain ⟨l, hl, -⟩ := h.begun hat
          rw [hnone] at hl
          cases hl
        · obtain ⟨-, l, hl, -⟩ := hname hat hat'
          rw [hnone] at hl
          cases hl
    · have hmem : l ∈ (headLines char p).getLast? := by
        rw [hlast, List.getLast?_concat]
        rfl
      have hmem' : l ++ [x] ∈ (headLines char (p ++ [x])).getLast? := by
        rw [hlast', List.getLast?_concat]
        rfl
      have hmap : (l ++ [x]).map char = l.map char ++ [char x] := List.map_append
      constructor
      · intro l' hl' hun
        obtain rfl := Option.mem_unique hmem' hl'
        rw [hmap] at hun ⊢
        obtain ⟨hline, h13⟩ := hun
        simp only [List.mem_append, List.mem_singleton, not_or] at h13
        obtain hline | ⟨hc, hname⟩ := isLengthLine_snoc.mp hline
        · -- within the number
          obtain ⟨hat, hesc⟩ := h.reads l hmem ⟨hline, h13.1⟩
          have hturn := iterate_number hr hat hs
          rw [if_neg (not_or.mpr ⟨Ne.symm h13.2, h10⟩), hesc] at hturn
          rw [Unended.digits ⟨hline, h13.1⟩]
          refine ⟨hturn.1, hturn.2.trans ?_⟩
          by_cases hd : isDigit (char x) = true
          · rw [if_pos hd, if_pos hd, addDigit_decimal hd]
          · rw [if_neg hd, if_neg hd]
        · -- behind the name
          have hends := endsHeader_length.mpr ⟨hc, l, hmem, hname⟩
          have hst := ht.read hends
          rw [hc] at hends hs ⊢
          obtain hskip | ⟨k₀, hread⟩ := (feed_headerName hends hp).2
          · rw [hskip] at hst
            cases hst
          · obtain ⟨hat', hesc'⟩ := iterate_named hread hs
            have h58 : 58 ∉ l.map char := fun h58 => name_no_colon (hname ▸ List.mem_map.mpr ⟨58, h58, rfl⟩)
            rw [numberDigits_colon h58]
            exact ⟨hat', hesc'⟩
      · intro hat'
        refine ⟨l ++ [x], hmem', ?_⟩
        rw [hmap]
        by_cases hat : AtNumber k
        · obtain ⟨l', hl', hun⟩ := h.begun hat
          obtain rfl := Option.mem_unique hmem hl'
          refine unended_snoc hun fun h13 => ?_
          have hturn := iterate_number hr hat hs
          rw [if_pos (.inl h13)] at hturn
          exact hturn hat'
        · obtain ⟨hc, l', hl', hname⟩ := hname hat hat'
          obtain rfl := Option.mem_unique hmem hl'
          rw [hc]
          exact unended_colon hname

variable (kept) in
/-- What a step takes is the number of the line that it ends. -/
theorem LengthAt.lineNumbers (h : LengthAt char p k) (ht : TellsLength (p.map char) k (char x)) :
    lineNumbers char kept (p ++ [x]) =
      lineNumbers char kept p ++ if kept x = true ∧ Takes k (char x) then [k.s.esc] else [] := by
  by_cases htakes : kept x = true ∧ Takes k (char x)
  · obtain ⟨h13, hat⟩ := ht.takes_iff.mp htakes.2
    obtain ⟨l, hl, hun⟩ := h.begun hat
    rw [if_pos htakes, (h.reads l hl hun).2, lineNumbers_cr hl hun h13 htakes.1]
  · rw [if_neg htakes, List.append_nil]
    refine lineNumbers_snoc fun l hl hun h13 => ?_
    rw [← Bool.not_eq_true]
    exact fun hkept => htakes ⟨hkept, ht.takes_iff.mpr ⟨h13, (h.reads l hl hun).1⟩⟩

/-- **The numbers that a run takes** are those of the Content-Length lines of what it reads. -/
theorem taken_lines {rq : MinuteHttpRq} {hmask : Uint} {io : Iobuf} {text : Textint} (h : LengthAt char p k)
    (hp : feed iterate (startFrame rq (minuteHttpInit hmask io text).1 io (minuteHttpInit hmask io text).2)
      (p.map char) = .next k)
    (ht : EachStep iterate TellsLength
      (startFrame rq (minuteHttpInit hmask io text).1 io (minuteHttpInit hmask io text).2) ((p ++ w).map char)) :
    MinuteHttp.lineNumbers char kept (p ++ eaten (fun k x => iterate k (char x)) k w) =
      MinuteHttp.lineNumbers char kept p ++ takenWhere char kept k w := by
  induction w generalizing p k with
  | nil => rw [eaten, takenWhere, List.append_nil, List.append_nil]
  | cons x w ih =>
    have hstep := ht (p.map char) (char x) (w.map char) k (by simp) hp
    have hnumbers := h.lineNumbers kept hstep
    rw [eaten, takenWhere]
    cases hs : iterate k (char x) with
    | halt r =>
      dsimp only
      rw [hnumbers, List.append_nil]
    | next k' =>
      dsimp only
      have hp' : feed iterate (startFrame rq (minuteHttpInit hmask io text).1 io (minuteHttpInit hmask io text).2)
          ((p ++ [x]).map char) = .next k' := by
        rw [List.map_append, feed_append_next _ hp, List.map_singleton, feed_cons_next [] hs, feed_nil]
      have hrest := ih (h.next hp hstep hs) hp' (by rwa [List.append_assoc])
      rw [List.append_assoc, List.singleton_append, hnumbers, List.append_assoc] at hrest
      exact hrest

end

theorem lengthAt_start {rq : MinuteHttpRq} {hmask : Uint} {io : Iobuf} {text : Textint} :
    LengthAt char [] (startFrame rq (minuteHttpInit hmask io text).1 io (minuteHttpInit hmask io text).2) :=
  ⟨fun l hl => (by cases hl), fun h => (by obtain h | ⟨h, -⟩ := h <;> cases h)⟩

theorem taken_lines_start {rq : MinuteHttpRq} {hmask : Uint} {io : Iobuf} {text : Textint} {k₀ : Frame} {w : List α}
    (kept : α → Bool)
    (hk₀ : startFrame rq (minuteHttpInit hmask io text).1 io (minuteHttpInit hmask io text).2 = k₀)
    (ht : EachStep iterate TellsLength k₀ (w.map char)) :
    lineNumbers char kept (eaten (fun k x => iterate k (char x)) k₀ w) = takenWhere char kept k₀ w := by
  subst hk₀
  exact taken_lines (p := []) (lengthAt_start char) rfl ht

/-! ## Exact or refused -/

theorem takenWhere_all (k : Frame) (cs : List Int) : takenWhere id (fun _ => true) k cs = taken k cs := by
  induction cs generalizing k with
  | nil => rfl
  | cons c cs ih =>
    rw [takenWhere, taken]
    simp only [id_eq, true_and]
    cases iterate k c with
    | next k' =>
      dsimp only
      rw [ih]
    | halt r => rfl

/-- The last Content-Length line of a head. -/
def lastLengthLine (head : List Int) : Option (List Int) :=
  ((headLines id head).filter fun line => IsLengthLine line).getLast?

/-- The number of the last Content-Length line that has a CR; without one the content length is `n`. -/
def lengthStored (n : Uint) (head : List Int) : Uint := (lineNumbers id (fun _ => true) head).getLast?.getD n

/-- The last Content-Length line ends in CR LF and its number fits in 32 bits, or it ends in an LF only, and has the
number of the last one that ends in CR LF. -/
def LengthFits (n : Uint) (head : List Int) : Prop :=
  ∀ line ∈ lastLengthLine head,
    if 13 ∈ line then decimal (numberDigits line) < 2 ^ 32
    else (lengthStored n head).toNat = decimal (numberDigits line)

instance LengthFits.decidable (n : Uint) (head : List Int) : Decidable (LengthFits n head) :=
  inferInstanceAs (Decidable (∀ line ∈ lastLengthLine head, if 13 ∈ line then _ else _))

theorem lengthStored_cr {head line : List Int} (n : Uint) (hlast : lastLengthLine head = some line) (h13 : 13 ∈ line) :
    lengthStored n head = BitVec.ofNat 32 (decimal (numberDigits line)) := by
  obtain ⟨ls, hls⟩ := List.getLast?_eq_some_iff.mp hlast
  have hline : IsLengthLine line := by
    have hmem : line ∈ (headLines id head).filter fun line => IsLengthLine line := by
      rw [hls]
      simp
    simpa using (List.mem_filter.mp hmem).2
  obtain ⟨y, hy⟩ := (map_find_cr (@id Int) line).mpr (by rwa [List.map_id])
  have hnumber : lineNumber id (fun _ => true) line = some (BitVec.ofNat 32 (decimal (numberDigits line))) := by
    rw [lineNumber, hy, List.map_id]
    exact if_pos ⟨hline, rfl⟩
  have hall : lineNumber id (fun _ => true) =
      fun line => if decide (IsLengthLine line) = true then lineNumber id (fun _ => true) line else none := by
    funext line
    by_cases h : IsLengthLine line
    · rw [if_pos (decide_eq_true h)]
    · rw [if_neg (by simpa using h), lineNumber, List.map_id, if_neg (fun h' => h h'.1)]
  rw [lengthStored, lineNumbers, hall, ← List.filterMap_filter, hls, List.filterMap_append]
  simp [hnumber]

theorem lengthFits_iff {n : Uint} {head : List Int} :
    LengthFits n head ↔ ∀ line ∈ lastLengthLine head, (lengthStored n head).toNat = decimal (numberDigits line) := by
  refine forall₂_congr fun line hline => ?_
  by_cases h13 : 13 ∈ line
  · rw [if_pos h13, lengthStored_cr n hline h13, BitVec.toNat_ofNat, Nat.mod_eq_iff_lt (by decide)]
  · rw [if_neg h13]

/-- **Exact or refused.** In a session that returns 0 the version is that of its two sides exactly if both fit in 32 bits.
Where every step tells the Content-Length lines from their text, the content length is the number of the last one
exactly if that line ends in CR LF and its number fits in 32 bits, or the lines before it have the same number. -/
theorem decimals_exact_iff {rq rq₁ : MinuteHttpRq} {hmask : Uint} {rqs₁ : MinuteHttpRqs} {io io₁ : Iobuf}
    {text text₁ : Textint} {fs : List Refill} {e : Bool} {cs : List Int} (he : eofAtLast e io fs)
    (hshown : sessionChars io io.read fs e = cs)
    (h : readSession rq (minuteHttpInit hmask io text).1 io (minuteHttpInit hmask io text).2 fs =
      .code 0 rq₁ rqs₁ io₁ text₁) :
    (VersionExact rq₁.serverProtocol (firstLine cs) ↔ VersionFits rq.serverProtocol (firstLine cs)) ∧
      (EachStep iterate TellsLength (startFrame rq (minuteHttpInit hmask io text).1 io (minuteHttpInit hmask io text).2)
          cs →
        ((∀ line ∈ lastLengthLine (eaten iterate (startFrame rq (minuteHttpInit hmask io text).1 io
            (minuteHttpInit hmask io text).2) cs), rq₁.contentLength.toNat = decimal (numberDigits line)) ↔
          LengthFits rq.contentLength (eaten iterate (startFrame rq (minuteHttpInit hmask io text).1 io
            (minuteHttpInit hmask io text).2) cs))) := by
  have hr : Routed (startFrame rq (minuteHttpInit hmask io text).1 io (minuteHttpInit hmask io text).2) := rfl
  have hleft := left_of_code h
  rw [initSession_left rq hmask text he, hshown] at hleft
  constructor
  · obtain ⟨hknown, hsp⟩ := runLeft_version hr (fun c => ⟨rfl, rfl⟩) ⟨rfl, rfl, rfl, rfl⟩ hleft
    exact version_exact_iff hknown hsp
  · intro ht
    have htaken := taken_lines_start id (w := cs) (fun _ => true) rfl (by rwa [List.map_id])
    have hlen := congrArg Prod.snd (runLeft_length hr hleft)
    rw [takenWhere_all] at htaken
    have hstored : rq₁.contentLength = lengthStored rq.contentLength (eaten iterate (startFrame rq
        (minuteHttpInit hmask io text).1 io (minuteHttpInit hmask io text).2) cs) := by
      rw [← htaken, lengthAfter_snd] at hlen
      exact hlen
    rw [lengthFits_iff, hstored]

/-- The last of two lengths, with many zeros before it, in two pieces. -/
theorem decimals_exact_last :
    let whole := Iobuf.holding 4096 (bytes "GET / HTTP/01.1\r\nContent-Length: 7\r\ncontent-length: 00000000000042\r\n\r\n")
    let io := Iobuf.holding 4096 (bytes "GET / HTTP/01.1\r\nContent-Length: 7\r\ncontent-le")
    let text := minuteTextintInit 64 fun _ => 0
    let init := minuteHttpInit minuteAllHeaders io text
    (readSession .zero init.1 io init.2 [⟨whole.data, whole.write, 0⟩]).Succeeds fun rq _ _ _ =>
      rq.contentLength.toNat = decimal (intsOf "42") ∧ rq.serverProtocol = .v1_1 := by
  intro whole io text init
  have he : eofAtLast false io [⟨whole.data, whole.write, 0⟩] := by
    refine ⟨by decide +kernel, ?_⟩
    show Iobuf.eof _ = false
    decide +kernel
  obtain ⟨rq₁, rqs₁, io₁, text₁, h, hv⟩ := (ReadResult.succeeds_iff (P := fun rq _ _ _ => rq.serverProtocol = .v1_1)
    (r := readSession .zero init.1 io init.2 [⟨whole.data, whole.write, 0⟩])).mp (by decide +kernel)
  obtain ⟨-, hlength⟩ := decimals_exact_iff he rfl h
  have hexact := (hlength (by decide +kernel)).mpr (by decide +kernel)
  rw [h]
  refine ⟨rfl, ?_, hv⟩
  exact hexact (intsOf "content-length: 00000000000042\r") (by decide +kernel)

/-- 2³² is read as 0. -/
theorem decimals_exact_wraps :
    let io := Iobuf.holding 4096 (bytes "GET / HTTP/1.1\r\nContent-Length: 4294967296\r\n\r\n")
    let text := minuteTextintInit 64 fun _ => 0
    let init := minuteHttpInit minuteAllHeaders io text
    lastLengthLine (eaten iterate (startFrame .zero init.1 io init.2) (chars (io.from io.read))) =
        some (intsOf "Content-Length: 4294967296\r") ∧
      numberDigits (intsOf "Content-Length: 4294967296\r") = intsOf "4294967296" ∧
      (minuteHttpRead .zero init.1 io init.2).Succeeds fun rq _ _ _ =>
        rq.contentLength.toNat ≠ decimal (intsOf "4294967296") := by
  decide +kernel

/-! ## CR LF and LF -/

theorem takenWhere_kept (k : Frame) (w : List (Int × Bool)) : takenWhere Prod.fst Prod.snd k w = takenKept k w := by
  induction w generalizing k with
  | nil => rfl
  | cons x w ih =>
    rw [takenWhere, takenKept]
    cases iterate k x.1 with
    | next k' =>
      dsimp only
      rw [ih]
    | halt r => rfl

theorem takenWhere_fst (k : Frame) (w : List (Int × Bool)) :
    takenWhere Prod.fst (fun _ => true) k w = taken k (w.map Prod.fst) := by
  induction w generalizing k with
  | nil => rfl
  | cons x w ih =>
    rw [takenWhere, List.map_cons, taken]
    simp only [true_and]
    cases iterate k x.1 with
    | next k' =>
      dsimp only
      rw [ih]
    | halt r => rfl

theorem takenKept_all {k : Frame} {w : List (Int × Bool)}
    (h : Along readAll (fun k x => x.2 = false → ¬ReadsLength k) k w) : takenKept k w = taken k (w.map Prod.fst) := by
  induction w generalizing k with
  | nil => rfl
  | cons x w ih =>
    have htakes : (x.2 = true ∧ Takes k x.1) ↔ Takes k x.1 := by
      refine ⟨fun h' => h'.2, fun h' => ⟨?_, h'⟩⟩
      cases hx : x.2 with
      | true => rfl
      | false => exact absurd h'.2 (h.1 hx)
    rw [takenKept, List.map_cons, taken, if_congr htakes rfl rfl]
    cases hs : iterate k x.1 with
    | next k' =>
      dsimp only
      rw [ih (h.next hs)]
    | halt r => rfl

/-- The last Content-Length line with a CR has the number of the last one whose CR is kept; `l` is the length without
such lines. -/
def LengthsKept (l : Bool × Uint) (w : List (Int × Bool)) : Prop :=
  lengthAfter l (lineNumbers Prod.fst Prod.snd w) = lengthAfter l (lineNumbers Prod.fst (fun _ => true) w)

instance LengthsKept.decidable (l : Bool × Uint) (w : List (Int × Bool)) : Decidable (LengthsKept l w) :=
  inferInstanceAs (Decidable (_ = _))

/-- A run that is not refused with 400 meets no CR in `h_cr`. -/
theorem along_of_runLeft {k : Frame} {w : List (Int × Bool)} {n : Nat} {rq : MinuteHttpRq} {text : Textint}
    (hk : Routed k) (hw : LfOnly w) (h : runLeft (feed iterate k (w.map Prod.fst)) = some (n, rq, text))
    (hn : n ≠ 400) : Along readAll (fun k x => x.2 = false → k.s.st ≠ hCr) k w := by
  induction w generalizing k with
  | nil => trivial
  | cons x w ih =>
    rw [List.map_cons] at h
    refine ⟨fun hx hst => ?_, ?_⟩
    · have h13 := (hw [] x w rfl hx).1
      have hsw : switch k x.1 = reset hErrorBadRequest k x.1 := by
        simp only [switch, hst, hCrCase, h13, show ¬(13 : Int) = 10 by decide, if_false]
      rw [feed_cons_halt _ (iterate_badRequest hk hsw)] at h
      exact hn (congrArg Prod.fst (Option.some.inj h)).symm
    · cases hs : readAll k x with
      | next k' =>
        have hnext : iterate k x.1 = .next k' := hs
        rw [feed_cons_next _ hnext] at h
        exact ih (iterate_routed hk hnext) hw.tail h
      | halt r => trivial

/-- **Line ends.** Two sessions over requests of which the second leaves out some CRs before an LF; the first returns,
and if it does so with 400, none of these CRs is met in `h_cr`. The second returns with the same code, the same request
and the same text buffer if no CR is left out that ends a number. Where every step tells the Content-Length lines from
their text, it does so exactly if the last number of such a line is also that of the last one whose CR is kept. -/
theorem line_ends_iff {rq rq₁ : MinuteHttpRq} {hmask : Uint} {rqs₁ : MinuteHttpRqs} {io io' io₁ : Iobuf}
    {text text₁ : Textint} {fs fs' : List Refill} {e : Bool} {w : List (Int × Bool)} {n : Nat}
    (he : eofAtLast e io fs) (he' : eofAtLast e io' fs') (hw : LfOnly w)
    (hshown : sessionChars io io.read fs e = w.map Prod.fst) (hshown' : sessionChars io' io'.read fs' e = keptChars w)
    (h : readSession rq (minuteHttpInit hmask io text).1 io (minuteHttpInit hmask io text).2 fs =
      .code n rq₁ rqs₁ io₁ text₁)
    (hcr : n = 400 → Along readAll (fun k x => x.2 = false → k.s.st ≠ hCr)
      (startFrame rq (minuteHttpInit hmask io text).1 io (minuteHttpInit hmask io text).2) w) :
    (Along readAll (fun k x => x.2 = false → ¬ReadsLength k)
        (startFrame rq (minuteHttpInit hmask io text).1 io (minuteHttpInit hmask io text).2) w →
      (readSession rq (minuteHttpInit hmask io' text).1 io' (minuteHttpInit hmask io' text).2 fs').left =
        some (n, rq₁, text₁)) ∧
    (EachStep iterate TellsLength (startFrame rq (minuteHttpInit hmask io text).1 io (minuteHttpInit hmask io text).2)
        (w.map Prod.fst) →
      ((readSession rq (minuteHttpInit hmask io' text).1 io' (minuteHttpInit hmask io' text).2 fs').left =
          some (n, rq₁, text₁) ↔
        LengthsKept rq.length (eaten readAll (startFrame rq (minuteHttpInit hmask io text).1 io
          (minuteHttpInit hmask io text).2) w))) := by
  have hall : Along readAll (fun k x => x.2 = false → k.s.st ≠ hCr)
      (startFrame rq (minuteHttpInit hmask io text).1 io (minuteHttpInit hmask io text).2) w := by
    by_cases hn : n = 400
    · exact hcr hn
    · have hleft := left_of_code h
      rw [initSession_left rq hmask text he, hshown] at hleft
      exact along_of_runLeft rfl hw hleft hn
  have hiff := session_ends rfl he he' hw hshown hshown' h hall
  constructor
  · intro hkept
    rw [hiff, takenKept_all hkept]
  · intro ht
    rw [hiff, LengthsKept]
    have hall := taken_lines_start Prod.fst (w := w) (fun _ => true) rfl ht
    have hkept := taken_lines_start Prod.fst (w := w) Prod.snd rfl ht
    rw [takenWhere_fst] at hall
    rw [takenWhere_kept] at hkept
    rw [← hall, ← hkept]
    rfl

/-- The characters of a request with the CRs left out that stand at the places `drops`. -/
def withoutCrs (cs : List Int) (drops : List Nat) : List (Int × Bool) :=
  cs.zipIdx.map fun x => (x.1, !drops.contains x.2)

/-- The first and the last line end in LF, the second request comes in two pieces. -/
theorem line_ends_mixed :
    let io := Iobuf.holding 4096 (bytes "GET / HTTP/1.1\r\nContent-Length: 5\r\nHost: a\r\n\r\n")
    let io' := Iobuf.holding 4096 (bytes "GET / HTTP/1.1\nContent-Length")
    let whole := Iobuf.holding 4096 (bytes "GET / HTTP/1.1\nContent-Length: 5\r\nHost: a\n\n")
    let text := minuteTextintInit 64 fun _ => 0
    let init := minuteHttpInit minuteAllHeaders io text
    let init' := minuteHttpInit minuteAllHeaders io' text
    ∃ rq₁ text₁, (minuteHttpRead .zero init.1 io init.2).left = some (0, rq₁, text₁) ∧
      (readSession .zero init'.1 io' init'.2 [⟨whole.data, whole.write, 0⟩]).left = some (0, rq₁, text₁) := by
  intro io io' whole text init init'
  have he : eofAtLast false io [] := by
    show Iobuf.eof _ = false
    decide +kernel
  have he' : eofAtLast false io' [⟨whole.data, whole.write, 0⟩] := by
    refine ⟨by decide +kernel, ?_⟩
    show Iobuf.eof _ = false
    decide +kernel
  obtain ⟨rq₁, rqs₁, io₁, text₁, h, -⟩ := (ReadResult.succeeds_iff (P := fun _ _ _ _ => True)
    (r := minuteHttpRead .zero init.1 io init.2)).mp (by decide +kernel)
  obtain ⟨-, hiff⟩ := line_ends_iff he he'
    (by decide +kernel : LfOnly (withoutCrs (chars (io.from io.read)) [14, 42, 44])) (by decide +kernel)
    (by decide +kernel) h nofun
  exact ⟨rq₁, text₁, left_of_code h, (hiff (by decide +kernel)).mpr (by decide +kernel)⟩

/-- The number before an LF is not taken. -/
theorem line_ends_length :
    let io := Iobuf.holding 4096 (bytes "GET / HTTP/1.1\r\nContent-Length: 5\r\n\r\n")
    let io' := Iobuf.holding 4096 (bytes "GET / HTTP/1.1\r\nContent-Length: 5\n\r\n")
    let text := minuteTextintInit 64 fun _ => 0
    let init := minuteHttpInit minuteAllHeaders io text
    let init' := minuteHttpInit minuteAllHeaders io' text
    LfOnly (withoutCrs (chars (io.from io.read)) [33]) ∧
      chars (io'.from io'.read) = keptChars (withoutCrs (chars (io.from io.read)) [33]) ∧
      ∃ rq₁ text₁, (minuteHttpRead .zero init.1 io init.2).left = some (0, rq₁, text₁) ∧
        (minuteHttpRead .zero init'.1 io' init'.2).left ≠ some (0, rq₁, text₁) := by
  intro io io' text init init'
  obtain ⟨rq₁, rqs₁, io₁, text₁, h, hc⟩ := (ReadResult.succeeds_iff (P := fun rq _ _ _ => rq.contentLength = 5)
    (r := minuteHttpRead .zero init.1 io init.2)).mp (by decide +kernel)
  obtain ⟨rq₂, rqs₂, io₂, text₂, h', hc'⟩ := (ReadResult.succeeds_iff (P := fun rq _ _ _ => rq.contentLength = 0)
    (r := minuteHttpRead .zero init'.1 io' init'.2)).mp (by decide +kernel)
  refine ⟨by decide +kernel, by decide +kernel, rq₁, text₁, left_of_code h, fun hsame => ?_⟩
  rw [left_of_code h', Option.some.injEq, Prod.mk.injEq, Prod.mk.injEq] at hsame
  rw [hsame.2.1, hc] at hc'
  exact absurd hc' (by decide)

theorem line_ends_doubled :
    let io := Iobuf.holding 4096 (bytes "GET / HTTP/1.1\r\nX: y\r\r\n\r\n")
    let io' := Iobuf.holding 4096 (bytes "GET / HTTP/1.1\r\nX: y\r\n\r\n")
    let text := minuteTextintInit 64 fun _ => 0
    let init := minuteHttpInit minuteAllHeaders io text
    let init' := minuteHttpInit minuteAllHeaders io' text
    LfOnly (withoutCrs (chars (io.from io.read)) [21]) ∧
      chars (io'.from io'.read) = keptChars (withoutCrs (chars (io.from io.read)) [21]) ∧
      (minuteHttpRead .zero init.1 io init.2).left.map Prod.fst = some 400 ∧
      (minuteHttpRead .zero init'.1 io' init'.2).left.map Prod.fst = some 0 := by
  decide +kernel

end MinuteHttp
