import MinuteHttp.Libhttp.Read
import Mathlib.Tactic.Common

/-!
# Reasoning about passes and turns

`Pass.All` states a property of every way a pass can end; the simp lemmas push it through the
constructs the cases are written in. `iterate_inv` lifts an invariant of the passes to a turn.
The facts at the end hold of every turn: it moves the cursor by one and leaves the mask alone
(`switch_frame`), and from a frame whose saved state makes sense (`Routed`) it always ends
(`iterate_ne_spin`).
-/

namespace MinuteHttp

open HttpRequestState Feed

/-- `N` of a pass that resets, `B` of one that breaks, `R` of one that returns, `F` of a fault. -/
def Pass.All (N : Frame → Int → Prop) (B : Frame → Prop) (R : Nat → Frame → Prop) (F : Prop) :
    Pass → Prop
  | .next (k, c) => N k c
  | .halt (.brk k) => B k
  | .halt (.ret n k) => R n k
  | .halt .fault => F

section All
variable {N N' : Frame → Int → Prop} {B B' : Frame → Prop} {R R' : Nat → Frame → Prop} {F F' : Prop}

@[simp ↓] theorem all_reset (x : HttpRequestState) (k : Frame) (c : Int) :
    Pass.All N B R F (reset x k c) ↔ N (k.shift x) c := Iff.rfl

@[simp ↓] theorem all_brk (k : Frame) : Pass.All N B R F (brk k) ↔ B k := Iff.rfl

@[simp ↓] theorem all_ret (n : Nat) (k : Frame) : Pass.All N B R F (ret n k) ↔ R n k := Iff.rfl

@[simp ↓] theorem all_fault : Pass.All N B R F (.halt .fault) ↔ F := Iff.rfl

@[simp ↓] theorem all_ite (p : Prop) [Decidable p] (x y : Pass) :
    Pass.All N B R F (if p then x else y) ↔
      (p → Pass.All N B R F x) ∧ (¬p → Pass.All N B R F y) := by
  by_cases hp : p <;> simp [hp]

@[simp ↓] theorem all_putcOr (code : Nat) (c : Byte) (k : Frame) (f : Frame → Pass) :
    Pass.All N B R F (putcOr code c k f) ↔
      (minuteTextintPutc c k.text = none → R code k) ∧
      ∀ t, minuteTextintPutc c k.text = some t → Pass.All N B R F (f { k with text := t }) := by
  unfold putcOr
  cases minuteTextintPutc c k.text <;> simp

@[simp ↓] theorem all_putiOr (code : Nat) (i : Uint) (k : Frame) (f : Frame → Pass) :
    Pass.All N B R F (putiOr code i k f) ↔
      (minuteTextintPuti i k.text = none → R code k) ∧
      ∀ t, minuteTextintPuti i k.text = some t → Pass.All N B R F (f { k with text := t }) := by
  unfold putiOr
  cases minuteTextintPuti i k.text <;> simp

@[simp ↓] theorem all_onWalk (walk : Triestate → Option (Int × Triestate)) (k : Frame)
    (f : Int → Frame → Pass) :
    Pass.All N B R F (onWalk walk k f) ↔
      (walk k.tstate = none → F) ∧
      ∀ r t, walk k.tstate = some (r, t) → Pass.All N B R F (f r { k with tstate := t }) := by
  unfold onWalk
  cases walk k.tstate with
  | none => simp
  | some x => obtain ⟨r, t⟩ := x; simp

theorem Pass.All.imp {p : Pass} (h : Pass.All N B R F p) (hN : ∀ k c, N k c → N' k c)
    (hB : ∀ k, B k → B' k) (hR : ∀ n k, R n k → R' n k) (hF : F → F') :
    Pass.All N' B' R' F' p := by
  match p with
  | .next (k, c) => exact hN k c h
  | .halt (.brk k) => exact hB k h
  | .halt (.ret n k) => exact hR n k h
  | .halt .fault => exact hF h

theorem Pass.All.and {p : Pass} (h : Pass.All N B R F p) (h' : Pass.All N' B' R' F' p) :
    Pass.All (fun k c => N k c ∧ N' k c) (fun k => B k ∧ B' k) (fun n k => R n k ∧ R' n k) (F ∧ F')
      p := by
  match p with
  | .next (k, c) => exact ⟨h, h'⟩
  | .halt (.brk k) => exact ⟨h, h'⟩
  | .halt (.ret n k) => exact ⟨h, h'⟩
  | .halt .fault => exact ⟨h, h'⟩

/-- What a turn does, given what its passes keep: the frame that broke out is advanced. -/
theorem iterate_inv (hpass : ∀ k c, N k c → Pass.All N B R F (switch k c))
    {k : Frame} {c : Int} (h0 : N k c) :
    match iterate k c with
    | .next k' => ∃ k₁, B k₁ ∧ k₁.s.nl ≤ 1 ∧ k' = k₁.advance
    | .halt (.ok k') => ∃ k₁, B k₁ ∧ 1 < k₁.s.nl ∧ k' = k₁.advance
    | .halt (.ret n k') => R n k'
    | .halt .fault => F
    | .halt .spin => True := by
  unfold iterate
  cases hd : drive (fun x : Frame × Int => switch x.1 x.2) passLimit (k, c) with
  | none => trivial
  | some l =>
    have hQ := drive_inv (fun x => N x.1 x.2) (fun l => Pass.All N B R F (.halt l))
      (fun x hx => ?_) h0 hd
    · cases l with
      | brk k₁ =>
        by_cases hnl : k₁.s.nl > 1
        · simp only [finishTurn, if_pos hnl]
          exact ⟨k₁, hQ, hnl, rfl⟩
        · simp only [finishTurn, if_neg hnl]
          exact ⟨k₁, hQ, by omega, rfl⟩
      | ret n k₁ => exact hQ
      | fault => exact hQ
    · have := hpass x.1 x.2 hx
      cases hs : switch x.1 x.2 with
      | next y => rw [hs] at this; exact this
      | halt l' => rw [hs] at this; exact this

end All

/-! ## Two runs side by side -/

/-- Two passes end in the same way: `N` of the frames if both reset with one character, `B` if both
break, `R` if both return one code. -/
def Pass.Sim (N : Frame → Frame → Int → Prop) (B : Frame → Frame → Prop)
    (R : Nat → Frame → Frame → Prop) : Pass → Pass → Prop
  | .next (k, c), .next (k', c') => c' = c ∧ N k k' c
  | .halt (.brk k), .halt (.brk k') => B k k'
  | .halt (.ret n k), .halt (.ret n' k') => n' = n ∧ R n k k'
  | .halt .fault, .halt .fault => True
  | _, _ => False

/-- The same of two turns' halts. -/
def Halt.Sim (B : Frame → Frame → Prop) (R : Nat → Frame → Frame → Prop) : Halt → Halt → Prop
  | .ok k, .ok k' => ∃ k₁ k₁', B k₁ k₁' ∧ k = k₁.advance ∧ k' = k₁'.advance
  | .ret n k, .ret n' k' => n' = n ∧ R n k k'
  | .fault, .fault => True
  | .spin, .spin => True
  | _, _ => False

section Sim
variable {N : Frame → Frame → Int → Prop} {B : Frame → Frame → Prop}
  {R : Nat → Frame → Frame → Prop}

@[simp ↓] theorem sim_reset (x : HttpRequestState) (k k' : Frame) (c : Int) :
    Pass.Sim N B R (reset x k c) (reset x k' c) ↔ N (k.shift x) (k'.shift x) c := by
  simp [Pass.Sim, reset]

@[simp ↓] theorem sim_brk (k k' : Frame) : Pass.Sim N B R (brk k) (brk k') ↔ B k k' := Iff.rfl

@[simp ↓] theorem sim_ret (n : Nat) (k k' : Frame) :
    Pass.Sim N B R (ret n k) (ret n k') ↔ R n k k' := by
  simp [Pass.Sim, ret]

@[simp ↓] theorem sim_ite (p : Prop) {d d' : Decidable p} (x y x' y' : Pass) :
    Pass.Sim N B R (@ite _ p d x y) (@ite _ p d' x' y') ↔
      (p → Pass.Sim N B R x x') ∧ (¬p → Pass.Sim N B R y y') := by
  by_cases hp : p <;> simp [hp]

@[simp ↓] theorem sim_putcOr {code : Nat} {c : Byte} {k k' : Frame} {f f' : Frame → Pass}
    (h : k'.text = k.text) :
    Pass.Sim N B R (putcOr code c k f) (putcOr code c k' f') ↔
      (minuteTextintPutc c k.text = none → R code k k') ∧
      ∀ t, minuteTextintPutc c k.text = some t →
        Pass.Sim N B R (f { k with text := t }) (f' { k' with text := t }) := by
  unfold putcOr
  rw [h]
  cases minuteTextintPutc c k.text <;> simp

@[simp ↓] theorem sim_putiOr {code : Nat} {i : Uint} {k k' : Frame} {f f' : Frame → Pass}
    (h : k'.text = k.text) :
    Pass.Sim N B R (putiOr code i k f) (putiOr code i k' f') ↔
      (minuteTextintPuti i k.text = none → R code k k') ∧
      ∀ t, minuteTextintPuti i k.text = some t →
        Pass.Sim N B R (f { k with text := t }) (f' { k' with text := t }) := by
  unfold putiOr
  rw [h]
  cases minuteTextintPuti i k.text <;> simp

@[simp ↓] theorem sim_onWalk {walk walk' : Triestate → Option (Int × Triestate)} {k k' : Frame}
    {f f' : Int → Frame → Pass} (h : walk' k'.tstate = walk k.tstate) :
    Pass.Sim N B R (onWalk walk k f) (onWalk walk' k' f') ↔
      ∀ r t, walk k.tstate = some (r, t) →
        Pass.Sim N B R (f r { k with tstate := t }) (f' r { k' with tstate := t }) := by
  unfold onWalk
  rw [h]
  cases walk k.tstate with
  | none => simp [Pass.Sim]
  | some x => obtain ⟨r, t⟩ := x; simp

theorem Pass.Sim.and_all {N' : Frame → Int → Prop} {B' : Frame → Prop} {R' : Nat → Frame → Prop}
    {F' : Prop} {p p' : Pass} (h : Pass.Sim N B R p p') (ha : Pass.All N' B' R' F' p) :
    Pass.Sim (fun k k' c => N k k' c ∧ N' k c) (fun k k' => B k k' ∧ B' k)
      (fun n k k' => R n k k' ∧ R' n k) p p' := by
  rcases p with ⟨k, c⟩ | l <;> rcases p' with ⟨k', c'⟩ | l'
  · exact ⟨h.1, h.2, ha⟩
  · cases l' <;> exact h.elim
  · cases l <;> exact h.elim
  · cases l <;> cases l' <;> try exact h.elim
    case brk => exact ⟨h, ha⟩
    case ret => exact ⟨h.1, h.2, ha⟩
    case fault => trivial

theorem Pass.Sim.imp {N' : Frame → Frame → Int → Prop} {B' : Frame → Frame → Prop}
    {R' : Nat → Frame → Frame → Prop} {p p' : Pass} (h : Pass.Sim N B R p p')
    (hN : ∀ k k' c, N k k' c → N' k k' c) (hB : ∀ k k', B k k' → B' k k')
    (hR : ∀ n k k', R n k k' → R' n k k') : Pass.Sim N' B' R' p p' := by
  rcases p with ⟨k, c⟩ | l <;> rcases p' with ⟨k', c'⟩ | l'
  · exact ⟨h.1, hN _ _ _ h.2⟩
  · cases l' <;> exact h.elim
  · cases l <;> exact h.elim
  · cases l <;> cases l' <;> try exact h.elim
    case brk => exact hB _ _ h
    case ret => exact ⟨h.1, hR _ _ _ h.2⟩
    case fault => trivial

/-- Passes that correspond make turns that correspond. -/
theorem iterate_sim (hpass : ∀ k k' c, N k k' c → Pass.Sim N B R (switch k c) (switch k' c))
    (hnl : ∀ k k', B k k' → k'.s.nl = k.s.nl) {k k' : Frame} {c : Int} (h0 : N k k' c) :
    (iterate k c).Rel (fun x x' => ∃ k₁ k₁', B k₁ k₁' ∧ x = k₁.advance ∧ x' = k₁'.advance)
      (Halt.Sim B R) (iterate k' c) := by
  have hd := drive_rel (fun x : Frame × Int => switch x.1 x.2)
    (fun x : Frame × Int => switch x.1 x.2) (fun x x' => x'.2 = x.2 ∧ N x.1 x'.1 x.2)
    (fun l l' => Pass.Sim N B R (.halt l) (.halt l')) (fun x x' hx => ?_)
    (n := passLimit) (show (k', c).2 = (k, c).2 ∧ N (k, c).1 (k', c).1 (k, c).2 from ⟨rfl, h0⟩)
  · unfold iterate
    revert hd
    cases drive (fun x : Frame × Int => switch x.1 x.2) passLimit (k, c) with
    | none =>
      cases drive (fun x : Frame × Int => switch x.1 x.2) passLimit (k', c) with
      | none => intro; trivial
      | some l' => exact False.elim
    | some l =>
      cases drive (fun x : Frame × Int => switch x.1 x.2) passLimit (k', c) with
      | none => exact False.elim
      | some l' =>
        intro hQ
        cases l <;> cases l' <;> try exact hQ.elim
        case brk k₁ k₁' =>
          have hn : k₁'.s.nl = k₁.s.nl := hnl _ _ hQ
          by_cases h : k₁.s.nl > 1
          · rw [finishTurn, finishTurn, if_pos h, if_pos (by omega)]
            exact ⟨k₁, k₁', hQ, rfl, rfl⟩
          · rw [finishTurn, finishTurn, if_neg h, if_neg (by omega)]
            exact ⟨k₁, k₁', hQ, rfl, rfl⟩
        case ret n k₁ n' k₁' => exact hQ
        case fault => trivial
  · obtain ⟨x, c₁⟩ := x
    obtain ⟨x', c₂⟩ := x'
    obtain ⟨hc, hN⟩ := hx
    dsimp only at hc hN ⊢
    subst hc
    have := hpass x x' c₂ hN
    cases hs : switch x c₂ with
    | next y =>
      rw [hs] at this
      cases hs' : switch x' c₂ with
      | next y' => rw [hs'] at this; exact this
      | halt l' => rw [hs'] at this; cases l' <;> exact this.elim
    | halt l =>
      rw [hs] at this
      cases hs' : switch x' c₂ with
      | next y' => rw [hs'] at this; cases l <;> exact this.elim
      | halt l' => rw [hs'] at this; exact this

end Sim

/-! ## Small facts about the frame

Those about the text and the cursor are proved by `(rfl)`, as ordinary rewrite rules, because they
discharge the side conditions of `sim_putcOr` and its like. -/

section
variable (k : Frame) (x : HttpRequestState) (n : Nat)

@[simp] theorem shift_s : (k.shift x).s = { k.s with st := x } := rfl
@[simp] theorem shift_text : (k.shift x).text = k.text := (rfl)
@[simp] theorem shift_rq : (k.shift x).rq = k.rq := rfl
@[simp] theorem shift_tstate : (k.shift x).tstate = k.tstate := (rfl)
@[simp] theorem shift_patinitialFlag : (k.shift x).patinitialFlag = k.patinitialFlag := rfl

@[simp] theorem mark_s : (k.mark).s = k.s := rfl
@[simp] theorem mark_text : (k.mark).text = k.text := (rfl)
@[simp] theorem mark_rq : (k.mark).rq = k.rq := rfl
@[simp] theorem mark_tstate : (k.mark).tstate = k.tstate := (rfl)
@[simp] theorem mark_patinitialFlag : (k.mark).patinitialFlag = k.patinitialFlag := rfl

@[simp] theorem setNl_s : (k.setNl n).s = { k.s with nl := n } := rfl
@[simp] theorem setNl_text : (k.setNl n).text = k.text := (rfl)
@[simp] theorem setNl_rq : (k.setNl n).rq = k.rq := rfl
@[simp] theorem setNl_tstate : (k.setNl n).tstate = k.tstate := (rfl)
@[simp] theorem setNl_patinitialFlag : (k.setNl n).patinitialFlag = k.patinitialFlag := rfl

@[simp] theorem setEst_s : (k.setEst x).s = { k.s with est := x } := rfl
@[simp] theorem setEst_text : (k.setEst x).text = k.text := (rfl)
@[simp] theorem setEst_rq : (k.setEst x).rq = k.rq := rfl
@[simp] theorem setEst_tstate : (k.setEst x).tstate = k.tstate := (rfl)
@[simp] theorem setEst_patinitialFlag : (k.setEst x).patinitialFlag = k.patinitialFlag := rfl

@[simp] theorem clearTrie_s : (k.clearTrie).s = k.s := rfl
@[simp] theorem clearTrie_text : (k.clearTrie).text = k.text := (rfl)
@[simp] theorem clearTrie_rq : (k.clearTrie).rq = k.rq := rfl
@[simp] theorem clearTrie_tstate : (k.clearTrie).tstate = ⟨0, 0⟩ := (rfl)
@[simp] theorem clearTrie_patinitialFlag : (k.clearTrie).patinitialFlag = k.patinitialFlag := rfl

@[simp] theorem advance_s : (k.advance).s = { k.s with m := k.s.m + 1 } := rfl
@[simp] theorem advance_text : (k.advance).text = k.text := (rfl)
@[simp] theorem advance_rq : (k.advance).rq = k.rq := rfl
@[simp] theorem advance_tstate : (k.advance).tstate = k.tstate := (rfl)
@[simp] theorem advance_patinitialFlag : (k.advance).patinitialFlag = k.patinitialFlag := rfl

theorem markUnlessUnknown_eq :
    markUnlessUnknown k = { k with b := if k.s.hmask &&& 1 = 0 then k.s.m else k.b } := by
  unfold markUnlessUnknown; split <;> rfl

@[simp] theorem markUnlessUnknown_s : (markUnlessUnknown k).s = k.s := by
  unfold markUnlessUnknown; split <;> rfl
@[simp] theorem markUnlessUnknown_text : (markUnlessUnknown k).text = k.text := by
  unfold markUnlessUnknown; split <;> rfl
@[simp] theorem markUnlessUnknown_rq : (markUnlessUnknown k).rq = k.rq := by
  unfold markUnlessUnknown; split <;> rfl
@[simp] theorem markUnlessUnknown_tstate : (markUnlessUnknown k).tstate = k.tstate := by
  unfold markUnlessUnknown; split <;> rfl
@[simp] theorem markUnlessUnknown_patinitialFlag : (markUnlessUnknown k).patinitialFlag = k.patinitialFlag := by
  unfold markUnlessUnknown; split <;> rfl

end

/-! ## What every pass keeps -/

/-- A pass moves neither the cursor into the ring nor the header mask. -/
theorem switch_frame (k : Frame) (c : Int) :
    Pass.All (fun k' _ => k'.s.m = k.s.m ∧ k'.s.hmask = k.s.hmask)
      (fun k' => k'.s.m = k.s.m ∧ k'.s.hmask = k.s.hmask) (fun _ _ => True) True (switch k c) := by
  unfold switch
  split <;> dsimp only [hInitialCase, hMethodCase, hMethodSpCase, hPathCase, hEscaped1Case,
    hEscaped2Case, hQueryCase, hPathSpCase, hProtCase, hProtSlashCase, hProtHttpXCase,
    hProtHttpXDotCase, hProtHttpXXCase, hCrCase, hNlCase, hHeaderCase, hHeaderMatched,
    hHeadConnectionCase, hHeadExpectCase, hHeadTransferEncodingCase, hHeadFlagInitial,
    hHeadContentLengthCase, hHeadFlagCase, hContCase, hValueLeadCase, hValueCase,
    hSkiplineCase, hErrorCase] <;> simp

theorem switch_code (k : Frame) (c : Int) :
    Pass.All (fun _ _ => True) (fun _ => True) (fun n _ => n < 1000) True (switch k c) := by
  unfold switch
  split <;> dsimp only [hInitialCase, hMethodCase, hMethodSpCase, hPathCase, hEscaped1Case,
    hEscaped2Case, hQueryCase, hPathSpCase, hProtCase, hProtSlashCase, hProtHttpXCase,
    hProtHttpXDotCase, hProtHttpXXCase, hCrCase, hNlCase, hHeaderCase, hHeaderMatched,
    hHeadConnectionCase, hHeadExpectCase, hHeadTransferEncodingCase, hHeadFlagInitial,
    hHeadContentLengthCase, hHeadFlagCase, hContCase, hValueLeadCase, hValueCase,
    hSkiplineCase, hErrorCase] <;> simp

end MinuteHttp
