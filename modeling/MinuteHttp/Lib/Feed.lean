import Mathlib.Data.List.Induction

/-!
# Machines that eat a list one symbol at a time

A machine is a function `step : σ → α → Step σ ρ`: on a symbol it either goes on in a new state or
halts with a result. `feed` runs it over a list and keeps the symbols it did not look at. `drive`
repeats a step without eating anything (the inner loop of a machine whose states may hand the
current symbol on to another state). The rules here are the ones every proof about such a machine
uses: feeding in pieces (`feed_append`), invariants indexed by what was eaten (`feed_inv`), and
simulation of one machine by another (`feed_rel`).
-/

namespace Feed

universe u v w

/-- The outcome of one step: go on, or stop with a result. -/
inductive Step (σ : Type u) (ρ : Type v) where
  | next (s : σ)
  | halt (r : ρ)

variable {σ σ' α ρ ρ' β β' : Type*}

/-- Run `step` over a list; a halt also returns the symbols not yet eaten. -/
def feed (step : σ → α → Step σ ρ) : σ → List α → Step σ (ρ × List α)
  | s, [] => .next s
  | s, a :: as =>
    match step s a with
    | .next s' => feed step s' as
    | .halt r => .halt (r, as)

/-- The symbols that a run eats, with the one on which it halts. -/
def eaten (step : σ → α → Step σ ρ) : σ → List α → List α
  | _, [] => []
  | s, a :: as =>
    a :: match step s a with
      | .next s' => eaten step s' as
      | .halt _ => []

/-- Repeat a step that eats nothing; `none` when it did not halt within the given number. -/
def drive (pass : σ → Step σ β) : Nat → σ → Option β
  | 0, _ => none
  | n + 1, s =>
    match pass s with
    | .next s' => drive pass n s'
    | .halt b => some b

@[simp] theorem feed_nil (step : σ → α → Step σ ρ) (s : σ) : feed step s [] = .next s := rfl

theorem feed_cons (step : σ → α → Step σ ρ) (s : σ) (a : α) (as : List α) :
    feed step s (a :: as) =
      match step s a with
      | .next s' => feed step s' as
      | .halt r => .halt (r, as) := rfl

theorem feed_cons_next {step : σ → α → Step σ ρ} {s s' : σ} {a : α} (as : List α)
    (h : step s a = .next s') : feed step s (a :: as) = feed step s' as := by
  rw [feed_cons, h]

theorem feed_cons_halt {step : σ → α → Step σ ρ} {s : σ} {a : α} {r : ρ} (as : List α)
    (h : step s a = .halt r) : feed step s (a :: as) = .halt (r, as) := by
  rw [feed_cons, h]

theorem feed_append (step : σ → α → Step σ ρ) (s : σ) (as bs : List α) :
    feed step s (as ++ bs) =
      match feed step s as with
      | .next s' => feed step s' bs
      | .halt (r, rest) => .halt (r, rest ++ bs) := by
  induction as generalizing s with
  | nil => rfl
  | cons a as ih =>
    rw [List.cons_append, feed_cons, feed_cons]
    cases step s a with
    | next s' => exact ih s'
    | halt r => rfl

theorem feed_append_next {step : σ → α → Step σ ρ} {s s' : σ} {as : List α} (bs : List α)
    (h : feed step s as = .next s') : feed step s (as ++ bs) = feed step s' bs := by
  rw [feed_append, h]

theorem feed_append_halt {step : σ → α → Step σ ρ} {s : σ} {as rest : List α} {r : ρ}
    (bs : List α) (h : feed step s as = .halt (r, rest)) :
    feed step s (as ++ bs) = .halt (r, rest ++ bs) := by
  rw [feed_append, h]

theorem feed_snoc_next {step : σ → α → Step σ ρ} {s s' : σ} {as : List α} {a : α}
    (h : feed step s (as ++ [a]) = .next s') :
    ∃ s₁, feed step s as = .next s₁ ∧ step s₁ a = .next s' := by
  rw [feed_append] at h
  cases hs : feed step s as with
  | halt r => simp [hs] at h
  | next s₁ =>
    refine ⟨s₁, rfl, ?_⟩
    simp only [hs, feed_cons] at h
    cases hstep : step s₁ a with
    | next s₂ => simpa [hstep] using h
    | halt r => rw [hstep] at h; simp at h

theorem feed_prefix_next {step : σ → α → Step σ ρ} {s s' : σ} {as bs : List α}
    (h : feed step s (as ++ bs) = .next s') :
    ∃ s₁, feed step s as = .next s₁ ∧ feed step s₁ bs = .next s' := by
  rw [feed_append] at h
  cases hs : feed step s as with
  | next s₁ => exact ⟨s₁, rfl, by simpa [hs] using h⟩
  | halt r => simp [hs] at h

theorem feed_halt {step : σ → α → Step σ ρ} {s : σ} {as rest : List α} {r : ρ}
    (h : feed step s as = .halt (r, rest)) :
    ∃ p a s', as = p ++ a :: rest ∧ feed step s p = .next s' ∧ step s' a = .halt r := by
  induction as generalizing s with
  | nil => simp at h
  | cons a as ih =>
    rw [feed_cons] at h
    cases hs : step s a with
    | halt r' =>
      rw [hs] at h
      simp only [Step.halt.injEq, Prod.mk.injEq] at h
      obtain ⟨rfl, rfl⟩ := h
      exact ⟨[], a, s, rfl, rfl, hs⟩
    | next s₁ =>
      rw [hs] at h
      obtain ⟨p, b, s', rfl, hp, hb⟩ := ih h
      exact ⟨a :: p, b, s', rfl, by rw [feed_cons_next p hs, hp], hb⟩

/-- A run halts just before `bs` exactly if it halts on the last symbol of what is before it. -/
theorem feed_append_halt_iff {step : σ → α → Step σ ρ} {s : σ} {as bs : List α} {r : ρ} :
    feed step s (as ++ bs) = .halt (r, bs) ↔ feed step s as = .halt (r, []) := by
  refine ⟨fun h => ?_, fun h => feed_append_halt bs h⟩
  rw [feed_append] at h
  cases hs : feed step s as with
  | halt x =>
    rw [hs, Step.halt.injEq, Prod.mk.injEq] at h
    exact congrArg Step.halt (Prod.ext h.1 (List.append_left_eq_self.mp h.2))
  | next s' =>
    rw [hs] at h
    obtain ⟨p, a, s₁, hbs, -⟩ := feed_halt h
    have hlen := congrArg List.length hbs
    rw [List.length_append, List.length_cons] at hlen
    omega

/-- **Invariant rule.** `P` relates the symbols eaten so far to the state; one step keeps it. -/
theorem feed_inv {step : σ → α → Step σ ρ} (P : List α → σ → Prop) {s s' : σ} {as : List α}
    (h0 : P [] s)
    (hstep : ∀ p s a s', P p s → step s a = .next s' → P (p ++ [a]) s')
    (h : feed step s as = .next s') : P as s' := by
  induction as using List.reverseRecOn generalizing s' with
  | nil => cases h; exact h0
  | append_singleton as a ih =>
    obtain ⟨s₁, h₁, h₂⟩ := feed_snoc_next h
    exact hstep _ _ _ _ (ih h₁) h₂

/-- The invariant rule where a step may use that the symbols come from the list fed. -/
theorem feed_inv_of {step : σ → α → Step σ ρ} (P : List α → σ → Prop) {s s' : σ} {as : List α}
    (h0 : P [] s)
    (hstep : ∀ p a q s₁ s₂, as = p ++ a :: q → feed step s p = .next s₁ → P p s₁ →
      step s₁ a = .next s₂ → P (p ++ [a]) s₂)
    (h : feed step s as = .next s') : P as s' := by
  suffices hs : ∀ p q, as = p ++ q → ∀ s₁, feed step s p = .next s₁ → P p s₁ from
    hs as [] (by simp) s' h
  intro p
  induction p using List.reverseRecOn with
  | nil => intro q _ s₁ h₁; cases h₁; exact h0
  | append_singleton p a ih =>
    intro q hq s₁ h₁
    obtain ⟨s₂, h₂, h₃⟩ := feed_snoc_next h₁
    have has : as = p ++ a :: q := by rw [hq, List.append_assoc]; rfl
    exact hstep p a q s₂ s₁ has h₂ (ih _ has s₂ h₂) h₃

theorem feed_through {step : σ → α → Step σ ρ} (A : σ → Prop) {C : α → Prop}
    (hstep : ∀ s a, A s → C a → ∃ s', step s a = .next s' ∧ A s') {s : σ} {as : List α} (hs : A s)
    (has : ∀ a ∈ as, C a) : ∃ s', feed step s as = .next s' ∧ A s' := by
  induction as generalizing s with
  | nil => exact ⟨s, rfl, hs⟩
  | cons a as ih =>
    obtain ⟨s₁, h₁, hA⟩ := hstep s a hs (has a List.mem_cons_self)
    rw [feed_cons_next as h₁]
    exact ih hA fun b hb => has b (List.mem_cons_of_mem a hb)

/-- Two outcomes correspond: both go on in related states, or both stop with related results. -/
def Step.Rel (R : σ → σ' → Prop) (Q : ρ → ρ' → Prop) : Step σ ρ → Step σ' ρ' → Prop
  | .next s, .next s' => R s s'
  | .halt r, .halt r' => Q r r'
  | _, _ => False

theorem Step.Rel.cases {R : σ → σ' → Prop} {Q : ρ → ρ' → Prop} {x : Step σ ρ} {x' : Step σ' ρ'}
    (h : x.Rel R Q x') :
    (∃ s s', x = .next s ∧ x' = .next s' ∧ R s s') ∨
    (∃ r r', x = .halt r ∧ x' = .halt r' ∧ Q r r') := by
  cases x <;> cases x'
  case next.next s s' => exact .inl ⟨s, s', rfl, rfl, h⟩
  case halt.halt r r' => exact .inr ⟨r, r', rfl, rfl, h⟩
  all_goals exact h.elim

/-- **Simulation rule**, on one list: related states stay related, or both stop at the same place. -/
theorem feed_rel {step : σ → α → Step σ ρ} {step' : σ' → α → Step σ' ρ'} (R : σ → σ' → Prop)
    (Q : ρ → ρ' → Prop) {s : σ} {s' : σ'} {as : List α} (h0 : R s s')
    (hstep : ∀ p a q s₁ s₂, as = p ++ a :: q → feed step s p = .next s₁ →
      feed step' s' p = .next s₂ → R s₁ s₂ → (step s₁ a).Rel R Q (step' s₂ a)) :
    (feed step s as).Rel R (fun r r' => Q r.1 r'.1 ∧ r.2 = r'.2) (feed step' s' as) := by
  induction as generalizing s s' with
  | nil => exact h0
  | cons a as ih =>
    have h := hstep [] a as s s' rfl rfl rfl h0
    obtain ⟨t, t', h₁, h₂, h⟩ | ⟨r, r', h₁, h₂, h⟩ := h.cases
    · rw [feed_cons_next as h₁, feed_cons_next as h₂]
      refine ih h fun p b q s₁ s₂ hq hp hp' hR => ?_
      exact hstep (a :: p) b q s₁ s₂ (by rw [hq]; rfl) (by rw [feed_cons_next p h₁, hp])
        (by rw [feed_cons_next p h₂, hp']) hR
    · rw [feed_cons_halt as h₁, feed_cons_halt as h₂]
      exact ⟨h, rfl⟩

/-! ## Conditions on the steps of a run -/

/-- `I` of the state if the step went on, `Q` of the result if it halted. -/
def Step.Holds (I : σ → Prop) (Q : ρ → Prop) : Step σ ρ → Prop
  | .next s => I s
  | .halt r => Q r

/-- `C` holds of every step the machine takes, of the state before it and the symbol. -/
def Along (step : σ → α → Step σ ρ) (C : σ → α → Prop) : σ → List α → Prop
  | _, [] => True
  | s, a :: as =>
    C s a ∧
      match step s a with
      | .next s' => Along step C s' as
      | .halt _ => True

instance Along.decidable (step : σ → α → Step σ ρ) (C : σ → α → Prop)
    [∀ s a, Decidable (C s a)] : ∀ s as, Decidable (Along step C s as)
  | _, [] => .isTrue trivial
  | s, a :: as =>
    let rest : Decidable (match step s a with
        | .next s' => Along step C s' as
        | .halt _ => True) :=
      match step s a with
      | .next s' => Along.decidable step C s' as
      | .halt _ => .isTrue trivial
    @instDecidableAnd _ _ _ rest

theorem Along.next {step : σ → α → Step σ ρ} {C : σ → α → Prop} {s s' : σ} {a : α} {as : List α}
    (h : Along step C s (a :: as)) (hs : step s a = .next s') : Along step C s' as := by
  have := h.2
  rwa [hs] at this

theorem Along.append {step : σ → α → Step σ ρ} {C : σ → α → Prop} {s s' : σ} {as bs : List α}
    (h : Along step C s (as ++ bs)) (hs : feed step s as = .next s') : Along step C s' bs := by
  induction as generalizing s with
  | nil =>
    cases hs
    exact h
  | cons a as ih =>
    rw [feed_cons] at hs
    cases hst : step s a with
    | next s₁ =>
      rw [hst] at hs
      exact ih (h.next hst) hs
    | halt r =>
      rw [hst] at hs
      cases hs

theorem Along.left {step : σ → α → Step σ ρ} {C : σ → α → Prop} {s : σ} {as bs : List α}
    (h : Along step C s (as ++ bs)) : Along step C s as := by
  induction as generalizing s with
  | nil => trivial
  | cons a as ih =>
    refine ⟨h.1, ?_⟩
    cases hs : step s a with
    | next s' => exact ih (Along.next h hs)
    | halt r => trivial

/-- `C` holds of every step before the first one of which `D` does. -/
def Until (step : σ → α → Step σ ρ) (C D : σ → α → Prop) : σ → List α → Prop
  | _, [] => True
  | s, a :: as =>
    D s a ∨ C s a ∧
      match step s a with
      | .next s' => Until step C D s' as
      | .halt _ => True

instance Until.decidable (step : σ → α → Step σ ρ) (C D : σ → α → Prop)
    [∀ s a, Decidable (C s a)] [∀ s a, Decidable (D s a)] : ∀ s as, Decidable (Until step C D s as)
  | _, [] => .isTrue trivial
  | s, a :: as =>
    let rest : Decidable (match step s a with
        | .next s' => Until step C D s' as
        | .halt _ => True) :=
      match step s a with
      | .next s' => Until.decidable step C D s' as
      | .halt _ => .isTrue trivial
    @instDecidableOr _ _ _ (@instDecidableAnd _ _ _ rest)

theorem not_along_cons {step : σ → α → Step σ ρ} {C : σ → α → Prop} {s : σ} {a : α} {as : List α} :
    ¬Along step C s (a :: as) ↔ ¬C s a ∨ ∃ s', step s a = .next s' ∧ ¬Along step C s' as := by
  rw [Along, not_and_or]
  refine or_congr_right ?_
  cases step s a with
  | next s' => simp
  | halt r => simp

instance Step.Holds.decidable (I : σ → Prop) (Q : ρ → Prop) [DecidablePred I] [DecidablePred Q] :
    ∀ x : Step σ ρ, Decidable (x.Holds I Q)
  | .next s => inferInstanceAs (Decidable (I s))
  | .halt r => inferInstanceAs (Decidable (Q r))

theorem Step.Holds.exists_next {P : σ → Prop} {x : Step σ ρ} (h : x.Holds P fun _ => False) :
    ∃ s, x = .next s ∧ P s := by
  cases x with
  | next s => exact ⟨s, rfl, h⟩
  | halt r => exact h.elim

/-- **Invariant rule under a condition on the steps**, with what a halting step gives. -/
theorem feed_along {step : σ → α → Step σ ρ} {C : σ → α → Prop} (I : σ → Prop) (Q : ρ → Prop)
    (hstep : ∀ s a, I s → C s a → (step s a).Holds I Q)
    {s : σ} {as : List α} (h0 : I s) (h : Along step C s as) :
    (feed step s as).Holds I fun r => Q r.1 := by
  induction as generalizing s with
  | nil => exact h0
  | cons a as ih =>
    have hs := hstep s a h0 h.1
    rw [feed_cons]
    cases hst : step s a with
    | next s' =>
      rw [hst] at hs
      exact ih hs (h.next hst)
    | halt r =>
      rw [hst] at hs
      exact hs

theorem along_iff {step : σ → α → Step σ ρ} {C : σ → α → Prop} {s : σ} {as : List α} :
    Along step C s as ↔ ∀ p a q s', as = p ++ a :: q → feed step s p = .next s' → C s' a := by
  induction as generalizing s with
  | nil => simp [Along]
  | cons a as ih =>
    constructor
    · rintro ⟨hc, hrest⟩ p b q s' hq hp
      cases p with
      | nil =>
        simp only [List.nil_append, List.cons.injEq] at hq
        simp only [feed_nil, Step.next.injEq] at hp
        rw [← hp, ← hq.1]
        exact hc
      | cons x p =>
        simp only [List.cons_append, List.cons.injEq] at hq
        obtain ⟨rfl, hq⟩ := hq
        rw [feed_cons] at hp
        cases hs : step s a with
        | next s₁ =>
          rw [hs] at hp hrest
          exact ih.mp hrest p b q s' hq hp
        | halt r => rw [hs] at hp; simp at hp
    · intro h
      refine ⟨h [] a as s rfl rfl, ?_⟩
      cases hs : step s a with
      | halt r => trivial
      | next s₁ =>
        refine ih.mpr fun p b q s' hq hp => h (a :: p) b q s' (by rw [hq]; rfl) ?_
        rw [feed_cons_next p hs, hp]

/-! ## What the steps of a run give -/

/-- `C` holds of every step of a run, of the symbols before it, the state and the symbol. -/
def EachStep (step : σ → α → Step σ ρ) (C : List α → σ → α → Prop) (s : σ) (as : List α) : Prop :=
  ∀ p a q s', as = p ++ a :: q → feed step s p = .next s' → C p s' a

/-- What the steps of a run give, in their order. -/
def outputs (step : σ → α → Step σ ρ) : (List α → σ → α → Option β) → σ → List α → List β
  | _, _, [] => []
  | out, s, a :: as =>
    (out [] s a).toList ++
      match step s a with
      | .next s' => outputs step (fun p => out (a :: p)) s' as
      | .halt _ => []

section

variable {step : σ → α → Step σ ρ} {s s' : σ} {a : α} {as : List α}

theorem eachStep_cons {C : List α → σ → α → Prop} :
    EachStep step C s (a :: as) ↔
      C [] s a ∧ (step s a).Holds (fun s' => EachStep step (fun p => C (a :: p)) s' as) fun _ => True := by
  constructor
  · intro h
    refine ⟨h [] a as s rfl rfl, ?_⟩
    cases hs : step s a with
    | halt r => trivial
    | next s₁ =>
      intro p b q s' hq hp
      exact h (a :: p) b q s' (by rw [hq]; rfl) (by rw [feed_cons_next p hs, hp])
  · rintro ⟨hc, hrest⟩ p b q s' hq hp
    obtain _ | ⟨x, p⟩ := p
    · simp only [List.nil_append, List.cons.injEq] at hq
      simp only [feed_nil, Step.next.injEq] at hp
      rw [← hp, ← hq.1]
      exact hc
    · simp only [List.cons_append, List.cons.injEq] at hq
      obtain ⟨rfl, hq⟩ := hq
      rw [feed_cons] at hp
      cases hs : step s a with
      | next s₁ =>
        rw [hs] at hp hrest
        exact hrest p b q s' hq hp
      | halt r =>
        rw [hs] at hp
        cases hp

instance EachStep.decidable (C : List α → σ → α → Prop) [∀ p s a, Decidable (C p s a)] :
    ∀ s as, Decidable (EachStep step C s as)
  | _, [] => .isTrue fun p a q s' hq => absurd hq (by simp)
  | s, a :: as =>
    let rest : ∀ x : Step σ ρ, Decidable (x.Holds (fun s' => EachStep step (fun p => C (a :: p)) s' as) fun _ => True)
      | .next s' => EachStep.decidable (fun p => C (a :: p)) s' as
      | .halt _ => .isTrue trivial
    @decidable_of_iff _ _ eachStep_cons.symm (@instDecidableAnd _ _ _ (rest (step s a)))

theorem EachStep.imp {C C' : List α → σ → α → Prop} (h : EachStep step C s as)
    (hC : ∀ p s a, C p s a → C' p s a) : EachStep step C' s as :=
  fun p a q s' hq hp => hC p s' a (h p a q s' hq hp)

theorem EachStep.left {C : List α → σ → α → Prop} {bs : List α} (h : EachStep step C s (as ++ bs)) :
    EachStep step C s as :=
  fun p a q s' hq hp => h p a (q ++ bs) s' (by rw [hq, List.append_assoc]; rfl) hp

/-- Behind the end of a run there are no steps. -/
theorem EachStep.of_halt {C : List α → σ → α → Prop} {r : ρ × List α} (h : EachStep step C s as)
    (hf : feed step s as = .halt r) (bs : List α) : EachStep step C s (as ++ bs) := by
  intro p a q s' hq hp
  obtain ⟨x, rfl, -⟩ | ⟨x, rfl, hx⟩ := List.append_eq_append_iff.mp hq
  · rw [feed_append_halt x hf] at hp
    cases hp
  · obtain _ | ⟨b, x⟩ := x
    · rw [List.append_nil, hp] at hf
      cases hf
    · rw [List.cons_append, List.cons.injEq] at hx
      obtain ⟨rfl, -⟩ := hx
      exact h p a x s' rfl hp

theorem outputs_cons_next {out : List α → σ → α → Option β} (as : List α) (h : step s a = .next s') :
    outputs step out s (a :: as) = (out [] s a).toList ++ outputs step (fun p => out (a :: p)) s' as := by
  rw [outputs, h]

theorem outputs_cons_halt {out : List α → σ → α → Option β} (as : List α) {r : ρ} (h : step s a = .halt r) :
    outputs step out s (a :: as) = (out [] s a).toList := by
  rw [outputs, h, List.append_nil]

theorem map_outputs (f : β → β') (out : List α → σ → α → Option β) (s : σ) (as : List α) :
    (outputs step out s as).map f = outputs step (fun p s a => (out p s a).map f) s as := by
  induction as generalizing out s with
  | nil => rfl
  | cons a as ih =>
    rw [outputs, outputs, List.map_append, ← Option.toList_map]
    cases step s a with
    | next s' => rw [ih]
    | halt r => rfl

theorem forall_mem_outputs {out : List α → σ → α → Option β} {P : β → Prop} :
    (∀ x ∈ outputs step out s as, P x) ↔ EachStep step (fun p s a => ∀ x ∈ out p s a, P x) s as := by
  induction as generalizing out s with
  | nil =>
    refine ⟨fun _ p a q _ hq => absurd hq (by simp), fun _ x hx => absurd hx (List.not_mem_nil)⟩
  | cons a as ih =>
    rw [eachStep_cons]
    cases hs : step s a with
    | next s' =>
      rw [outputs_cons_next as hs, List.forall_mem_append, ih]
      simp only [Option.mem_toList]
      rfl
    | halt r =>
      rw [outputs_cons_halt as hs]
      simp only [Option.mem_toList]
      exact ⟨fun h => ⟨h, trivial⟩, fun h => h.1⟩

theorem length_outputs_le {out out' : List α → σ → α → Option β}
    (h : EachStep step (fun p s a => out p s a = none ∨ out p s a = out' p s a) s as) :
    (outputs step out s as).length ≤ (outputs step out' s as).length := by
  induction as generalizing out out' s with
  | nil => exact Nat.le_refl _
  | cons a as ih =>
    obtain ⟨h₀, h⟩ := eachStep_cons.mp h
    have hle : (out [] s a).toList.length ≤ (out' [] s a).toList.length := by
      obtain h₀ | h₀ := h₀
      · rw [h₀]
        exact Nat.zero_le _
      · exact Nat.le_of_eq (by rw [h₀])
    cases hs : step s a with
    | next s' =>
      rw [hs] at h
      rw [outputs_cons_next as hs, outputs_cons_next as hs, List.length_append, List.length_append]
      exact Nat.add_le_add hle (ih h)
    | halt r =>
      rw [outputs_cons_halt as hs, outputs_cons_halt as hs]
      exact hle

/-- **Two outputs** of a run, of which each step of one is none or the other's, are the same exactly if every step is. -/
theorem outputs_eq_iff {out out' : List α → σ → α → Option β}
    (h : EachStep step (fun p s a => out p s a = none ∨ out p s a = out' p s a) s as) :
    outputs step out s as = outputs step out' s as ↔ EachStep step (fun p s a => out p s a = out' p s a) s as := by
  induction as generalizing out out' s with
  | nil => exact ⟨fun _ p a q _ hq => absurd hq (by simp), fun _ => rfl⟩
  | cons a as ih =>
    obtain ⟨h₀, h⟩ := eachStep_cons.mp h
    rw [eachStep_cons]
    cases hs : step s a with
    | halt r =>
      rw [outputs_cons_halt as hs, outputs_cons_halt as hs]
      refine ⟨fun heq => ⟨?_, trivial⟩, fun heq => by rw [heq.1]⟩
      obtain h₀ | h₀ := h₀
      · rw [h₀] at heq ⊢
        exact (Option.toList_eq_nil_iff.mp heq.symm).symm
      · exact h₀
    | next s' =>
      rw [hs] at h
      rw [outputs_cons_next as hs, outputs_cons_next as hs]
      constructor
      · intro heq
        have hlen := congrArg List.length heq
        rw [List.length_append, List.length_append] at hlen
        have hle := length_outputs_le h
        obtain h₀ | h₀ := h₀
        · have hnil : (out' [] s a).toList.length = 0 := by
            rw [h₀, Option.toList_none, List.length_nil] at hlen
            omega
          have h₁ := Option.toList_eq_nil_iff.mp (List.length_eq_zero_iff.mp hnil)
          rw [h₀, h₁] at heq
          exact ⟨h₀.trans h₁.symm, (ih h).mp heq⟩
        · rw [h₀] at heq
          exact ⟨h₀, (ih h).mp (List.append_cancel_left heq)⟩
      · rintro ⟨heq, hrest⟩
        rw [heq, (ih h).mpr hrest]

end

/-! ## Passes that eat nothing -/

/-- An invariant of the passes, and what a halting pass gives under it, hold of the whole drive. -/
theorem drive_inv {pass : σ → Step σ β} (I : σ → Prop) (Q : β → Prop)
    (hpass : ∀ s, I s → match pass s with | .next s' => I s' | .halt b => Q b)
    {n : Nat} {s : σ} {b : β} (h0 : I s) (h : drive pass n s = some b) : Q b := by
  induction n generalizing s with
  | zero => simp [drive] at h
  | succ n ih =>
    have hp := hpass s h0
    rw [drive] at h
    cases hs : pass s with
    | next s' => rw [hs] at h hp; exact ih hp h
    | halt b' =>
      rw [hs] at h hp
      cases h
      exact hp

theorem drive_succ {pass : σ → Step σ β} {n : Nat} {s : σ} {b : β} (h : drive pass n s = some b) :
    drive pass (n + 1) s = some b := by
  induction n generalizing s with
  | zero => simp [drive] at h
  | succ n ih =>
    rw [drive] at h ⊢
    cases hs : pass s with
    | next s' =>
      rw [hs] at h
      exact ih h
    | halt b' =>
      rw [hs] at h
      exact h

/-- Passes that lower a rank below the number allowed always halt in time. -/
theorem drive_isSome {pass : σ → Step σ β} (I : σ → Prop) (rank : σ → Nat)
    (hpass : ∀ s s', I s → pass s = .next s' → I s' ∧ rank s' < rank s)
    {n : Nat} {s : σ} (h0 : I s) (hn : rank s < n) : (drive pass n s).isSome := by
  induction n generalizing s with
  | zero => omega
  | succ n ih =>
    rw [drive]
    cases hs : pass s with
    | halt b => rfl
    | next s' =>
      obtain ⟨hI, hr⟩ := hpass s s' h0 hs
      exact ih hI (by omega)

/-- Two drives whose passes correspond end alike. -/
theorem drive_rel (pass : σ → Step σ β) (pass' : σ' → Step σ' β') (R : σ → σ' → Prop)
    (Q : β → β' → Prop) (hpass : ∀ s s', R s s' → (pass s).Rel R Q (pass' s'))
    {n : Nat} {s : σ} {s' : σ'} (h0 : R s s') :
    match drive pass n s, drive pass' n s' with
    | some b, some b' => Q b b'
    | none, none => True
    | _, _ => False := by
  induction n generalizing s s' with
  | zero => trivial
  | succ n ih =>
    have hp := hpass s s' h0
    rw [drive, drive]
    obtain ⟨t, t', h₁, h₂, hp⟩ | ⟨b, b', h₁, h₂, hp⟩ := hp.cases
    · rw [h₁, h₂]; exact ih hp
    · rw [h₁, h₂]; exact hp

end Feed
