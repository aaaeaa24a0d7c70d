import MinuteHttp.Libhttp.HeaderLine

/-!
# Taking a header line out of a request

Two runs that differ in a header line that is not treated differ after it in little: where they are in
the ring, which initial node the flag trie had, and whether the collect flag was cleared by the line
(`Alike`). Every step keeps this, and the first header that is stored or passed over sets the flag anew
in both. It is only a continuation line that asks for the flag. `deletion_harmless` says for which lines
nothing is changed by taking them out.
-/

namespace MinuteHttp

open HttpRequestState Feed

/-! ## Two runs -/

/-- The states that go back to `est`. -/
def HttpRequestState.keepsEst : HttpRequestState → Bool
  | hValueLead | hEscaped1 | hEscaped2 => true
  | _ => false

/-- The frames differ only in what is not looked at, and, if `d`, in the collect flag. -/
structure Alike (d : Bool) (k k' : Frame) : Prop where
  rq : k'.rq = k.rq
  text : k'.text = k.text
  tstate : k'.tstate = k.tstate
  esc : k'.s.esc = k.s.esc
  httpv0 : k'.s.httpv0 = k.s.httpv0
  httpv1 : k'.s.httpv1 = k.s.httpv1
  st : k'.s.st = k.s.st
  nl : k'.s.nl = k.s.nl
  hmask : k'.s.hmask = k.s.hmask
  collect : d = false → k'.s.collect = k.s.collect
  est : k.s.st.keepsEst = true → k'.s.est = k.s.est
  fold : d = false → k.s.collect = true → k'.s.est = k.s.est
  flag : k.s.st = hHeadFlag → k'.patinitialFlag = k.patinitialFlag

theorem alike_iff {d : Bool} {k k' : Frame} :
    Alike d k k' ↔ k'.rq = k.rq ∧ k'.text = k.text ∧ k'.tstate = k.tstate ∧ k'.s.esc = k.s.esc ∧
      k'.s.httpv0 = k.s.httpv0 ∧ k'.s.httpv1 = k.s.httpv1 ∧ k'.s.st = k.s.st ∧ k'.s.nl = k.s.nl ∧
      k'.s.hmask = k.s.hmask ∧ (d = false → k'.s.collect = k.s.collect) ∧
      (k.s.st.keepsEst = true → k'.s.est = k.s.est) ∧
      (d = false → k.s.collect = true → k'.s.est = k.s.est) ∧
      (k.s.st = hHeadFlag → k'.patinitialFlag = k.patinitialFlag) :=
  ⟨fun ⟨h₁, h₂, h₃, h₄, h₅, h₆, h₇, h₈, h₉, h₁₀, h₁₁, h₁₂, h₁₃⟩ =>
    ⟨h₁, h₂, h₃, h₄, h₅, h₆, h₇, h₈, h₉, h₁₀, h₁₁, h₁₂, h₁₃⟩,
   fun ⟨h₁, h₂, h₃, h₄, h₅, h₆, h₇, h₈, h₉, h₁₀, h₁₁, h₁₂, h₁₃⟩ =>
    ⟨h₁, h₂, h₃, h₄, h₅, h₆, h₇, h₈, h₉, h₁₀, h₁₁, h₁₂, h₁₃⟩⟩

/-- A header is recognised that sets the collect flag anew: one that is stored, or passed over because
it is not selected. -/
def refreshes (k : Frame) (c : Int) : Bool :=
  match recognised k c with
  | some r => !interpreted r
  | none => false

theorem refreshes_other {k : Frame} (c : Int) (h : k.s.st ≠ hHeader) : refreshes k c = false := by
  rw [refreshes, recognised_other c h]

theorem refreshes_start {k : Frame} (c : Int) (h : k.tstate = ⟨0, 0⟩) : refreshes k c = false := by
  unfold refreshes recognised
  by_cases hst : k.s.st = hHeader
  · rw [if_pos hst, h]
    cases hw : headerWalk (toLower c) ⟨0, 0⟩ with
    | none => rfl
    | some x =>
      obtain ⟨r, t⟩ := x
      have := headerWalk_start hw
      dsimp only
      rw [if_neg (by omega)]
  · rw [if_neg hst]

theorem switch_alike {d b : Bool} {k k' : Frame} {c : Int} (hk : Routed k) (h : Alike d k k')
    (hcont : d = true → k.s.st ≠ hCont) (hb : refreshes k c = b) :
    Pass.Sim
      (fun k₁ k₁' c₁ => Alike d k₁ k₁' ∧ (d = true → k₁.s.st ≠ hCont) ∧ refreshes k₁ c₁ = b)
      (Alike (d && !b)) (fun _ k₁ k₁' => k₁'.rq = k₁.rq ∧ k₁'.text = k₁.text)
      (switch k c) (switch k' c) := by
  obtain ⟨rq, ⟨col, v0, v1, tries, m, esc, st, est, nl, hmask⟩, text, ib, t, p⟩ := k
  obtain ⟨rq', ⟨col', v0', v1', tries', m', esc', st', est', nl', hmask'⟩, text', ib', t', p'⟩ := k'
  obtain ⟨h₁, h₂, h₃, h₄, h₅, h₆, h₇, h₈, h₉, hcol, hest, hfold, hflag⟩ := h
  simp only at h₁ h₂ h₃ h₄ h₅ h₆ h₇ h₈ h₉ hcol hest hfold hflag hcont
  subst h₁ h₂ h₃ h₄ h₅ h₆ h₇ h₈ h₉
  have hother : ∀ (k₁ : Frame) (c₁ : Int), k₁.s.st ≠ hHeader → refreshes k₁ c₁ = false :=
    fun _ c₁ h => refreshes_other c₁ h
  cases st' <;> simp only [switch]
  case hEscaped2 =>
    obtain rfl : b = false := hb ▸ refreshes_other c (by simp)
    have hurl : est = hPath ∨ est = hQuery := by
      simp only [Routed, routed, Bool.and_eq_true, Bool.or_eq_true, beq_iff_eq] at hk
      exact hk.1
    obtain rfl : est' = est := hest rfl
    rcases hurl with rfl | rfl <;>
    · simp [hEscaped2Case, alike_iff, hother, keepsEst, Frame.shift]
      grind
  case hValueLead =>
    obtain rfl : b = false := hb ▸ refreshes_other c (by simp)
    obtain rfl : est' = est := hest rfl
    have hval : est'.isValue = true := by simpa [Routed, routed] using hk
    cases est' <;> simp only [isValue, Bool.false_eq_true] at hval <;>
    · simp [hValueLeadCase, alike_iff, hother, keepsEst, Frame.shift, Frame.mark]
      grind
  case hCont =>
    obtain rfl : b = false := hb ▸ refreshes_other c (by simp)
    have hd : d = false := by
      cases d with
      | false => rfl
      | true => exact absurd rfl (hcont rfl)
    obtain rfl : col' = col := hcol hd
    have hest : col' = true → est' = est := hfold hd
    simp [hContCase, alike_iff, hother, keepsEst, Frame.shift, hd]
    grind
  case hNl =>
    obtain rfl : b = false := hb ▸ refreshes_other c (by simp)
    have hstart : ∀ (k₁ : Frame) (c₁ : Int), k₁.tstate = ⟨0, 0⟩ → refreshes k₁ c₁ = false :=
      fun _ c₁ h => refreshes_start c₁ h
    simp [hNlCase, alike_iff, hstart, keepsEst, Frame.shift, Frame.mark, Frame.setNl, Frame.clearTrie]
    grind
  case hValue | hHeadFlag =>
    obtain rfl : b = false := hb ▸ refreshes_other c (by simp)
    dsimp only [hValueCase, hHeadFlagCase]
    simp [alike_iff, hother, keepsEst, Frame.shift, Frame.mark, Frame.setNl, Frame.setEst, hflag]
    grind
  case hHeader =>
    unfold hHeaderCase
    refine (sim_onWalk (by rfl)).mpr fun r t hw => ?_
    have hrec : b = (decide (0 < r) && !interpreted r.toNat) := by
      rw [← hb, refreshes, recognised, if_pos rfl, hw]
      by_cases hr : 0 < r <;> simp [hr]
    simp only [sim_ite, sim_reset, sim_brk]
    refine ⟨fun hr => ?_, fun hr => ⟨fun hpos => ?_, fun hpos => ?_⟩⟩
    · obtain rfl : b = false := by
        rw [hrec]
        simp only [Bool.and_eq_false_iff, decide_eq_false_iff_not]
        exact .inl (by omega)
      simp only [alike_iff, keepsEst, Frame.shift]
      grind
    · have hpos : decide (0 < r) = true := by simpa using hpos
      rw [hpos, Bool.true_and, interpreted] at hrec
      unfold hHeaderMatched
      simp [alike_iff, keepsEst, Frame.shift, Frame.setEst, Frame.clearTrie, markUnlessUnknown_eq]
      grind
    · obtain rfl : b = false := by
        rw [hrec]
        simp only [Bool.and_eq_false_iff, decide_eq_false_iff_not]
        exact .inl hpos
      simp [alike_iff, keepsEst, markUnlessUnknown_eq]
      grind
  all_goals
    obtain rfl : b = false := hb ▸ refreshes_other c (by simp)
    simp only [keepsEst, reduceCtorEq, false_implies, Bool.false_eq_true] at hest hflag hcont
    dsimp only [hInitialCase, hMethodCase, hMethodSpCase, hPathCase, hEscaped1Case, hQueryCase,
      hPathSpCase, hProtCase, hProtSlashCase, hProtHttpXCase, hProtHttpXDotCase, hProtHttpXXCase,
      hCrCase, hHeadConnectionCase, hHeadExpectCase, hHeadTransferEncodingCase, hHeadFlagInitial,
      hHeadContentLengthCase, hSkiplineCase, hErrorCase]
    simp [alike_iff, hother, keepsEst, Frame.shift, Frame.mark, Frame.setNl, Frame.setEst,
      Frame.clearTrie]
    try grind

theorem iterate_alike {d : Bool} {k k' : Frame} (c : Int) (hk : Routed k) (h : Alike d k k')
    (hcont : d = true → k.s.st ≠ hCont) :
    (iterate k c).Rel (Alike (d && !refreshes k c))
      (Halt.Sim (Alike (d && !refreshes k c)) fun _ k₁ k₁' => k₁'.rq = k₁.rq ∧ k₁'.text = k₁.text)
      (iterate k' c) := by
  have hi := iterate_sim
    (N := fun k₁ k₁' c₁ => (Alike d k₁ k₁' ∧ (d = true → k₁.s.st ≠ hCont) ∧
      refreshes k₁ c₁ = refreshes k c) ∧ Routed k₁)
    (B := Alike (d && !refreshes k c)) (R := fun _ k₁ k₁' => k₁'.rq = k₁.rq ∧ k₁'.text = k₁.text)
    (fun k₁ k₁' c₁ h₁ => ?_)
    (fun _ _ h => h.nl) (⟨⟨h, hcont, rfl⟩, hk⟩) (c := c)
  · obtain ⟨x, x', hs, hs', k₁, k₁', hB, rfl, rfl⟩ | ⟨r, r', hs, hs', hR⟩ := hi.cases
    · rw [hs, hs']
      exact ⟨hB.rq, hB.text, hB.tstate, hB.esc, hB.httpv0, hB.httpv1, hB.st, hB.nl, hB.hmask,
        hB.collect, hB.est, hB.fold, hB.flag⟩
    · rw [hs, hs']
      exact hR
  · obtain ⟨⟨ha, hc, hb⟩, hr⟩ := h₁
    refine ((switch_alike hr ha hc hb).and_all (switch_routed k₁ c₁ hr)).imp ?_ ?_ ?_
    · intro k₂ k₂' c₂ h₂
      exact ⟨h₂.1, h₂.2.1⟩
    · intro k₂ k₂' h₂
      exact h₂.1
    · intro n k₂ k₂' h₂
      exact h₂.1

/-- No continuation line is met before a header sets the collect flag anew. -/
def FreshFolds (k : Frame) (cs : List Int) : Prop :=
  Until iterate (fun k _ => k.s.st ≠ hCont) (fun k c => refreshes k c = true) k cs

theorem feed_alike {d : Bool} {k k' k₁ : Frame} {cs rest : List Int} (hk : Routed k)
    (h : Alike d k k') (hfresh : d = true → FreshFolds k cs)
    (hf : feed iterate k cs = .halt (.ok k₁, rest)) :
    ∃ k₁', feed iterate k' cs = .halt (.ok k₁', rest) ∧ k₁'.rq = k₁.rq ∧ k₁'.text = k₁.text := by
  induction cs generalizing d k k' with
  | nil => simp at hf
  | cons c cs ih =>
    have hcont : d = true → k.s.st ≠ hCont := by
      intro hd hst
      rcases hfresh hd with hr | ⟨hne, -⟩
      · rw [refreshes_other c (by rw [hst]; simp)] at hr
        cases hr
      · exact hne hst
    rw [feed_cons] at hf ⊢
    obtain ⟨x, x', hs, hs', hx⟩ | ⟨r, r', hs, hs', hr⟩ := (iterate_alike c hk h hcont).cases
    · rw [hs] at hf
      rw [hs']
      refine ih (iterate_routed hk hs) hx (fun hd => ?_) hf
      simp only [Bool.and_eq_true, Bool.not_eq_true'] at hd
      rcases hfresh hd.1 with hr | ⟨-, hrest⟩
      · rw [hd.2] at hr
        cases hr
      · rwa [hs] at hrest
    · rw [hs, Step.halt.injEq, Prod.mk.injEq] at hf
      obtain ⟨rfl, rfl⟩ := hf
      rw [hs']
      cases r' with
      | ok k₁' =>
        obtain ⟨k₂, k₂', hB, rfl, rfl⟩ := hr
        exact ⟨_, rfl, hB.rq, hB.text⟩
      | ret n k₁' => exact hr.elim
      | fault => exact hr.elim
      | spin => exact hr.elim

theorem feed_alike_next {k k' k₁ : Frame} {cs : List Int} (hk : Routed k) (h : Alike false k k')
    (hf : feed iterate k cs = .next k₁) :
    ∃ k₁', feed iterate k' cs = .next k₁' ∧ Alike false k₁ k₁' := by
  induction cs generalizing k k' with
  | nil =>
    cases hf
    exact ⟨k', rfl, h⟩
  | cons c cs ih =>
    rw [feed_cons] at hf ⊢
    obtain ⟨x, x', hs, hs', hx⟩ | ⟨r, r', hs, hs', -⟩ := (iterate_alike c hk h (by simp)).cases
    · rw [hs] at hf
      rw [hs']
      exact ih (iterate_routed hk hs) hx hf
    · rw [hs] at hf
      cases hf

theorem feed_alike_left {k k' : Frame} {cs : List Int} (hk : Routed k) (h : Alike false k k') :
    runLeft (feed iterate k' cs) = runLeft (feed iterate k cs) := by
  induction cs generalizing k k' with
  | nil =>
    show some _ = some _
    rw [h.rq, h.text]
  | cons c cs ih =>
    rw [feed_cons, feed_cons]
    obtain ⟨x, x', hs, hs', hx⟩ | ⟨r, r', hs, hs', hr⟩ := (iterate_alike c hk h (by simp)).cases
    · rw [hs, hs']
      exact ih (iterate_routed hk hs) hx
    · rw [hs, hs']
      cases r <;> cases r' <;> try exact hr.elim
      case ok k₁ k₁' =>
        obtain ⟨k₂, k₂', hB, rfl, rfl⟩ := hr
        show some _ = some _
        rw [advance_rq, advance_text, hB.rq, hB.text]
        rfl
      case ret n k₁ m k₁' =>
        obtain ⟨rfl, hrq, htext⟩ := hr
        show some _ = some _
        rw [hrq, htext]
      case fault => rfl
      case spin => rfl

theorem alike_start (rq : MinuteHttpRq) (hmask : Uint) (io io' : Iobuf) (text : Textint) :
    Alike false
      (startFrame rq (minuteHttpInit hmask io text).1 io (minuteHttpInit hmask io text).2)
      (startFrame rq (minuteHttpInit hmask io' text).1 io' (minuteHttpInit hmask io' text).2) :=
  ⟨rfl, rfl, rfl, rfl, rfl, rfl, rfl, rfl, rfl, fun _ => rfl, fun _ => rfl, fun _ _ => rfl, fun _ => rfl⟩

/-! ## The lines of a header -/

/-- A continuation line. -/
structure Fold where
  blank : Int
  text : List Int
  eol : List Int
  blank_eq : blank = 32 ∨ blank = 9
  text_inLine : ∀ c ∈ text, inLine c
  eol_mem : eol ∈ lineEnds

def Fold.chars (f : Fold) : List Int := f.blank :: (f.text ++ f.eol)

/-- A header line with its continuation lines. -/
structure HeaderBlock where
  name : List Int
  value : List Int
  eol : List Int
  folds : List Fold
  name_ok : LineName name
  value_inLine : ∀ c ∈ value, inLine c
  eol_mem : eol ∈ lineEnds

def HeaderBlock.line (b : HeaderBlock) : List Int := b.name ++ 58 :: b.value

def HeaderBlock.chars (b : HeaderBlock) : List Int := b.line ++ b.eol ++ b.folds.flatMap Fold.chars

/-- A continuation line does not meet the collect flag. -/
def Unfolded (k : Frame) (_ : Int) : Prop := ¬(k.s.st = hCont ∧ k.s.collect = true)

/-- A continuation line is skipped where the collect flag is clear. -/
theorem feed_fold {k₀ k : Frame} (hk : Routed k) (h : Skipped k₀ k) (f : Fold) (hff : -1 ∉ f.chars)
    (hun : Along iterate Unfolded k f.chars) :
    ∃ k', feed iterate k f.chars = .next k' ∧ Skipped k₀ k' := by
  obtain ⟨hst, hnl, ⟨hrq, htext, hmask, hesc, hv⟩, hfold⟩ := h
  have hs : switch k f.blank = brk ((k.mark.setNl 0).shift hCont) := by
    rcases f.blank_eq with h | h <;> simp [switch, hst, hNlCase, h]
  have hi := iterate_of_brk hs (by simp)
  set k₁ := ((k.mark.setNl 0).shift hCont).advance with hk₁
  have hr₁ : Routed k₁ := iterate_routed hk hi
  obtain ⟨c, cs, hcs⟩ : ∃ c cs, f.text ++ f.eol = c :: cs := by
    cases htext : f.text with
    | cons c cs => exact ⟨c, cs ++ f.eol, rfl⟩
    | nil =>
      have he := f.eol_mem
      simp only [lineEnds, List.mem_cons, List.not_mem_nil, or_false] at he
      rcases he with he | he <;> exact ⟨_, _, by rw [List.nil_append, he]⟩
  have hcol : ¬k₁.s.collect = true := by
    have hstep := hun.next hi
    rw [hcs] at hstep
    exact fun hcol => hstep.1 ⟨rfl, hcol⟩
  have hs₁ : switch k₁ c = reset hSkipline k₁ c := by
    simp [hk₁, switch, hContCase]
    intro h
    exact absurd h hcol
  have hskip : Skipping k₀ (k₁.shift hSkipline) := ⟨rfl, rfl, ⟨hrq, htext, hmask, hesc, hv⟩, hfold⟩
  have heq : feed iterate k f.chars = feed iterate (k₁.shift hSkipline) (f.text ++ f.eol) := by
    rw [Fold.chars, feed_cons_next _ hi, hcs, feed_cons, feed_cons, iterate_reset hr₁ hs₁]
  have hrun := feed_skipping hskip f.text_inLine
  rw [heq]
  cases hf : feed iterate (k₁.shift hSkipline) f.text with
  | halt r =>
    rw [hf] at hrun
    have hmem : -1 ∈ f.text := hrun
    exact absurd (List.mem_cons_of_mem _ (List.mem_append_left _ hmem)) hff
  | next k₂ =>
    rw [hf] at hrun
    rw [feed_append_next _ hf]
    exact feed_skipping_end hrun.2 f.eol_mem

theorem feed_folds {k₀ k : Frame} {fs : List Fold} (hk : Routed k) (h : Skipped k₀ k)
    (hff : -1 ∉ fs.flatMap Fold.chars) (hun : Along iterate Unfolded k (fs.flatMap Fold.chars)) :
    ∃ k', feed iterate k (fs.flatMap Fold.chars) = .next k' ∧ Skipped k₀ k' := by
  induction fs generalizing k with
  | nil => exact ⟨k, rfl, h⟩
  | cons f fs ih =>
    rw [List.flatMap_cons] at hff hun ⊢
    rw [List.mem_append, not_or] at hff
    obtain ⟨k₁, hf₁, h₁⟩ := feed_fold hk h f hff.1 hun.left
    obtain ⟨k₂, hf₂, h₂⟩ := ih (feed_routed hk hf₁) h₁ hff.2 (hun.append hf₁)
    exact ⟨k₂, (feed_append_next _ hf₁).trans hf₂, h₂⟩

/-! ## Deletion -/

/-- The header line that begins in `k` can be taken out from before `post`. -/
structure DropsOut (k : Frame) (b : HeaderBlock) (post : List Int) : Prop where
  untreated : ∀ r ∈ headerCodes, treated k.s.hmask r = true → spelled [] b.line ≠ some (headerName r)
  no_eof : -1 ∉ b.chars
  unfolded : Along iterate Unfolded k b.chars
  fresh : ∀ k₁, feed iterate k b.chars = .next k₁ → k₁.s.collect = k.s.collect ∨ FreshFolds k₁ post

/-- The run over the line and its continuation lines. -/
theorem feed_block {k : Frame} (hk : Routed k) (hat : k.s.st = hNl) {b : HeaderBlock} {post : List Int}
    (h : DropsOut k b post) : ∃ k₁, feed iterate k b.chars = .next k₁ ∧ Skipped k k₁ := by
  obtain ⟨huntreated, hff, hunf, -⟩ := h
  obtain ⟨k₁, hk₁, hread, -, htreats⟩ :=
    line_reading hk (.inl hat : AtLine k) b.name_ok b.value
  have hline := line_inLine b.name_ok b.value_inLine
  have hun : ∀ r, ¬Treats k (b.name ++ 58 :: b.value) r := fun r htr => by
    obtain ⟨hr, ht, hs⟩ := (treats_iff hk₁ hread hline r).mp ((htreats r).mp htr)
    exact huntreated r hr ht hs
  have hff' : -1 ∉ b.name ++ 58 :: b.value ∧ -1 ∉ b.folds.flatMap Fold.chars := by
    rw [HeaderBlock.chars, HeaderBlock.line, List.mem_append, List.mem_append] at hff
    exact ⟨fun h => hff (.inl (.inl h)), fun h => hff (.inr h)⟩
  have hrun := feed_untreated_line hk (.inl hat) b.name_ok b.value_inLine hun
  rw [if_neg hff'.1] at hrun
  obtain ⟨k₂, hf₂, h₂⟩ := hrun b.eol b.eol_mem
  have hf₂ : feed iterate k (b.line ++ b.eol) = .next k₂ := hf₂
  obtain ⟨k₃, hf₃, h₃⟩ := feed_folds (feed_routed hk hf₂) h₂ hff'.2 (hunf.append hf₂)
  exact ⟨k₃, (feed_append_next _ hf₂).trans hf₃, h₃⟩

/-- The frame in which the first character of a name is read. -/
def Frame.lineStart (k : Frame) : Frame := (k.mark.setNl 0).mark.clearTrie.shift hHeader

theorem iterate_lineStart {k : Frame} (hk : Routed k) (hst : k.s.st = hNl) {c : Int} (h13 : c ≠ 13)
    (h10 : c ≠ 10) (h32 : c ≠ 32) (h9 : c ≠ 9) :
    Routed k.lineStart ∧ iterate k c = iterate k.lineStart c := by
  have hs : switch k c = reset hHeader (k.mark.setNl 0).mark.clearTrie c := by
    simp [switch, hst, hNlCase, h13, h10, h32, h9]
  have hr := switch_routed k c hk
  rw [hs] at hr
  exact ⟨hr.1, iterate_reset hk hs⟩

theorem feed_blank {k : Frame} (hst : k.s.st = hNl) (hnl : k.s.nl = 1) {eol : List Int}
    (he : eol ∈ lineEnds) (rest : List Int) :
    ∃ k', feed iterate k (eol ++ rest) = .halt (.ok k', rest) ∧ k'.rq = k.rq ∧ k'.text = k.text := by
  simp only [lineEnds, List.mem_cons, List.not_mem_nil, or_false] at he
  rcases he with rfl | rfl
  · have hs : switch k 10 = brk ((k.mark.setNl (k.s.nl + 1)).shift hNl) := by
      simp [switch, hst, hNlCase]
    have hi : iterate k 10 = .halt (.ok ((k.mark.setNl (k.s.nl + 1)).shift hNl).advance) := by
      rw [iterate_of_halt hs, finishTurn, if_pos (by simp [hnl])]
    exact ⟨_, feed_cons_halt rest hi, rfl, rfl⟩
  · have hs : switch k 13 = brk (k.mark.shift hCr) := by
      simp [switch, hst, hNlCase]
    have hs' : switch (k.mark.shift hCr).advance 10 =
        brk (((k.mark.shift hCr).advance.setNl (k.s.nl + 1)).shift hNl) := by
      simp [switch, hCrCase]
    have hi' : iterate (k.mark.shift hCr).advance 10 =
        .halt (.ok (((k.mark.shift hCr).advance.setNl (k.s.nl + 1)).shift hNl).advance) := by
      rw [iterate_of_halt hs', finishTurn, if_pos (by simp [hnl])]
    refine ⟨(((k.mark.shift hCr).advance.setNl (k.s.nl + 1)).shift hNl).advance, ?_, rfl, rfl⟩
    show feed iterate k (13 :: 10 :: rest) = _
    rw [feed_cons_next _ (iterate_of_brk hs (by simp [hnl])), feed_cons_halt rest hi']

theorem feed_blank_inv {k k' : Frame} {c : Int} {cs rest : List Int} (hst : k.s.st = hNl)
    (hnl : k.s.nl = 1) (hc : c = 10 ∨ c = 13)
    (hf : feed iterate k (c :: cs) = .halt (.ok k', rest)) :
    ∃ eol ∈ lineEnds, c :: cs = eol ++ rest := by
  rcases hc with rfl | rfl
  · obtain ⟨k₁, h₁, -⟩ := feed_blank hst hnl (by simp [lineEnds] : [10] ∈ lineEnds) cs
    have := h₁.symm.trans hf
    simp only [Step.halt.injEq, Prod.mk.injEq] at this
    exact ⟨[10], by simp [lineEnds], by rw [this.2]; rfl⟩
  · have hs : switch k 13 = brk (k.mark.shift hCr) := by
      simp [switch, hst, hNlCase]
    rw [feed_cons_next cs (iterate_of_brk hs (by simp [hnl]))] at hf
    cases cs with
    | nil => simp at hf
    | cons x cs =>
      by_cases hx : x = 10
      · rw [hx] at hf ⊢
        have hs' : switch (k.mark.shift hCr).advance 10 =
            brk (((k.mark.shift hCr).advance.setNl (k.s.nl + 1)).shift hNl) := by
          simp [switch, hCrCase]
        have hi' : iterate (k.mark.shift hCr).advance 10 =
            .halt (.ok (((k.mark.shift hCr).advance.setNl (k.s.nl + 1)).shift hNl).advance) := by
          rw [iterate_of_halt hs', finishTurn, if_pos (by simp [hnl])]
        rw [feed_cons_halt cs hi'] at hf
        simp only [Step.halt.injEq, Prod.mk.injEq] at hf
        exact ⟨[13, 10], by simp [lineEnds], by rw [hf.2]; rfl⟩
      · -- anything else after a CR is an error
        exfalso
        have hi := iterate_inv (k := (k.mark.shift hCr).advance) (c := x)
          (N := fun k₁ c₁ => (k₁.s.st = hCr ∨ k₁.s.st = hErrorBadRequest) ∧ c₁ = x)
          (B := fun _ => False) (R := fun n _ => n = 400) (F := True) ?_ ⟨.inl rfl, rfl⟩
        · rw [feed_cons] at hf
          cases hi' : iterate (k.mark.shift hCr).advance x with
          | next k₁ =>
            rw [hi'] at hi
            obtain ⟨_, h, -⟩ := hi
            exact h
          | halt r =>
            rw [hi'] at hf hi
            simp only [Step.halt.injEq, Prod.mk.injEq] at hf
            rw [hf.1] at hi
            obtain ⟨_, h, -⟩ := hi
            exact h
        · rintro k₁ c₁ ⟨h | h, rfl⟩
          · simp [switch, h, hCrCase, hx]
          · simp [switch, h, hErrorCase]

/-- What a skipped line leaves behind is like what it found. -/
theorem alike_lineStart {k k' k₁ : Frame} (h : Alike false k k') (h₁ : Skipped k k₁) :
    ∃ d, (d = true → ¬k₁.s.collect = k.s.collect) ∧ Alike d k₁.lineStart k'.lineStart := by
  refine ⟨!decide (k₁.s.collect = k.s.collect), by simp, h.rq.trans h₁.untouched.rq.symm,
    h.text.trans h₁.untouched.text.symm, rfl, h.esc.trans h₁.untouched.esc.symm,
    h.httpv0.trans h₁.untouched.httpv.1.symm, h.httpv1.trans h₁.untouched.httpv.2.symm, rfl, rfl,
    h.hmask.trans h₁.untouched.hmask.symm, fun hd => ?_, fun he => (by cases he),
    fun hd hc => ?_, fun he => (by cases he)⟩
  · have hd : k₁.s.collect = k.s.collect := by simpa using hd
    exact (h.collect rfl).trans hd.symm
  · have hd : k₁.s.collect = k.s.collect := by simpa using hd
    have hc : k₁.s.collect = true := hc
    rcases h₁.fold with ⟨-, he⟩ | ⟨hf, -⟩
    · exact (h.fold rfl (hd ▸ hc)).trans he.symm
    · rw [hf] at hc
      cases hc

instance DropsOut.decidable (k : Frame) (b : HeaderBlock) (post : List Int) :
    Decidable (DropsOut k b post) :=
  have : DecidablePred fun k₁ : Frame => k₁.s.collect = k.s.collect ∨ FreshFolds k₁ post := fun k₁ =>
    @instDecidableOr _ _ _ (Until.decidable _ _ _ k₁ post)
  have : ∀ k c, Decidable (Unfolded k c) := fun _ _ => inferInstanceAs (Decidable (¬_))
  decidable_of_iff
    ((∀ r ∈ headerCodes, treated k.s.hmask r = true → spelled [] b.line ≠ some (headerName r)) ∧
      -1 ∉ b.chars ∧ Along iterate Unfolded k b.chars ∧
      (feed iterate k b.chars).Holds (fun k₁ => k₁.s.collect = k.s.collect ∨ FreshFolds k₁ post)
        fun _ => True) <| by
    constructor
    · rintro ⟨h₁, h₂, h₃, h₄⟩
      refine ⟨h₁, h₂, h₃, fun k₁ hf => ?_⟩
      rw [hf] at h₄
      exact h₄
    · rintro ⟨h₁, h₂, h₃, h₄⟩
      refine ⟨h₁, h₂, h₃, ?_⟩
      cases hf : feed iterate k b.chars with
      | next k₁ => exact h₄ k₁ hf
      | halt r => trivial

/-- `X: y` with a continuation line, before any header is stored. -/
def unknownFolded : HeaderBlock :=
  { name := chars (bytes "X"), value := chars (bytes " y"), eol := [10],
    folds := [⟨32, chars (bytes "zz"), [10], .inl rfl, by decide +kernel, by simp [lineEnds]⟩],
    name_ok := by decide +kernel, value_inLine := by decide +kernel, eol_mem := by simp [lineEnds] }

end MinuteHttp
