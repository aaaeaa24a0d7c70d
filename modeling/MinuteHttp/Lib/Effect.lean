import Mathlib.Logic.Basic

/-!
# Computations on a state that may stop for good

An `Act` changes a state and ends with a result, or stops with a reason and no state. `Meets E Q m s`
says that `m`, started in `s`, ends with a result and a state that satisfy `Q`, or stops with a reason
that satisfies `E`: total correctness where `E` is false, partial correctness where it is true. A `Prog`
is the behaviour of a client that makes calls and acts on their answers; `Prog.run` serves the calls.
`Prog.run_keeps` is the rule for clients about which nothing is known.
-/

namespace Effect

universe u

variable {σ ε α β : Type}

abbrev Act (σ ε α : Type) := StateT σ (Except ε) α

inductive Meets (E : ε → Prop) (Q : α → σ → Prop) (m : Act σ ε α) (s : σ) : Prop where
  | ends {a : α} {s' : σ} (h : m s = .ok (a, s')) (hQ : Q a s')
  | stops {e : ε} (h : m s = .error e) (hE : E e)

/-- `m`, if `c` holds. -/
def onlyIf (c : Prop) [Decidable c] (m : Act σ ε Unit) : Act σ ε Unit := if c then m else pure ()

/-- The value of `x`, or a stop. -/
def orStop (e : ε) : Option α → Act σ ε α
  | some a => pure a
  | none => throw e

/-! ## Rules -/

section

variable {E : ε → Prop} {Q Q' : α → σ → Prop} {s : σ}

theorem meets_ok {m : Act σ ε α} {a : α} {s' : σ} (h : m s = .ok (a, s')) : Meets E Q m s ↔ Q a s' := by
  constructor
  · intro hm
    cases hm with
    | ends h' hQ =>
      rw [h] at h'
      cases h'
      exact hQ
    | stops h' _ =>
      rw [h] at h'
      cases h'
  · exact fun hQ => .ends h hQ

theorem meets_error {m : Act σ ε α} {e : ε} (h : m s = .error e) : Meets E Q m s ↔ E e := by
  constructor
  · intro hm
    cases hm with
    | ends h' _ =>
      rw [h] at h'
      cases h'
    | stops h' hE =>
      rw [h] at h'
      cases h'
      exact hE
  · exact fun hE => .stops h hE

@[simp] theorem meets_pure (a : α) : Meets E Q (pure a : Act σ ε α) s ↔ Q a s := meets_ok rfl

@[simp] theorem meets_throw (e : ε) : Meets E Q (throw e : Act σ ε α) s ↔ E e := meets_error rfl

@[simp] theorem meets_get {Q : σ → σ → Prop} : Meets E Q (get : Act σ ε σ) s ↔ Q s s := meets_ok rfl

@[simp] theorem meets_set {Q : PUnit → σ → Prop} (s' : σ) :
    Meets E Q (set s' : Act σ ε PUnit) s ↔ Q ⟨⟩ s' := meets_ok rfl

@[simp] theorem meets_modify {Q : PUnit → σ → Prop} (f : σ → σ) :
    Meets E Q (modify f : Act σ ε PUnit) s ↔ Q ⟨⟩ (f s) := meets_ok rfl

theorem bind_of_ok {m : Act σ ε α} {f : α → Act σ ε β} {a : α} {s s' : σ} (h : m s = .ok (a, s')) :
    (m >>= f) s = f a s' := by
  show (m s >>= fun p => f p.1 p.2 : Except ε (β × σ)) = _
  rw [h]
  rfl

theorem get_bind (f : σ → Act σ ε α) (s : σ) : (get >>= f) s = f s s := rfl

theorem bind_of_error {m : Act σ ε α} {f : α → Act σ ε β} {e : ε} {s : σ} (h : m s = .error e) :
    (m >>= f) s = .error e := by
  show (m s >>= fun p => f p.1 p.2 : Except ε (β × σ)) = _
  rw [h]
  rfl

theorem meets_congr {m m' : Act σ ε α} {s' : σ} (h : m s = m' s') : Meets E Q m s ↔ Meets E Q m' s' := by
  cases hm : m' s' with
  | ok p => rw [meets_ok hm, meets_ok (h.trans hm)]
  | error e => rw [meets_error hm, meets_error (h.trans hm)]

@[simp] theorem meets_bind {R : β → σ → Prop} (m : Act σ ε α) (f : α → Act σ ε β) :
    Meets E R (m >>= f) s ↔ Meets E (fun a => Meets E R (f a)) m s := by
  cases hm : m s with
  | ok p => rw [meets_ok hm, meets_congr (bind_of_ok hm)]
  | error e => rw [meets_error hm, meets_error (bind_of_error hm)]

@[simp] theorem meets_orStop (e : ε) (x : Option α) :
    Meets E Q (orStop e x : Act σ ε α) s ↔ (x = none → E e) ∧ ∀ a, x = some a → Q a s := by
  cases x <;> simp [orStop]

@[simp] theorem meets_set_pure (s' : σ) (a : α) :
    Meets E Q (set s' >>= fun _ => pure a : Act σ ε α) s ↔ Q a s' := by
  rw [meets_bind, meets_set, meets_pure]

theorem meets_onlyIf {Q : Unit → σ → Prop} (c : Prop) [Decidable c] (m : Act σ ε Unit) :
    Meets E Q (onlyIf c m) s ↔ (c → Meets E Q m s) ∧ (¬c → Q () s) := by
  unfold onlyIf
  by_cases h : c <;> simp [h]

theorem Meets.imp {m : Act σ ε α} (h : Meets E Q m s) (hQ : ∀ a s', Q a s' → Q' a s') : Meets E Q' m s := by
  cases h with
  | ends h hm => exact .ends h (hQ _ _ hm)
  | stops h hE => exact .stops h hE

theorem Meets.imp_error {E' : ε → Prop} {m : Act σ ε α} (h : Meets E Q m s) (hE : ∀ e, E e → E' e) :
    Meets E' Q m s := by
  cases h with
  | ends h hm => exact .ends h hm
  | stops h he => exact .stops h (hE _ he)

theorem Meets.and {E' : ε → Prop} {m : Act σ ε α} (h : Meets E Q m s) (h' : Meets E' Q' m s) :
    Meets E (fun a s' => Q a s' ∧ Q' a s') m s := by
  cases h with
  | ends h hQ => exact .ends h ⟨hQ, (meets_ok h).mp h'⟩
  | stops h hE => exact .stops h hE

theorem Meets.bind {R : β → σ → Prop} {m : Act σ ε α} {f : α → Act σ ε β} (h : Meets E Q m s)
    (hf : ∀ a s', Q a s' → Meets E R (f a) s') : Meets E R (m >>= f) s :=
  (meets_bind m f).mpr (h.imp hf)

theorem bind_eq_ok {m : Act σ ε α} {f : α → Act σ ε β} {b : β} {s s' : σ} :
    (m >>= f) s = .ok (b, s') ↔ ∃ a s₁, m s = .ok (a, s₁) ∧ f a s₁ = .ok (b, s') := by
  cases hm : m s with
  | ok p =>
    rw [bind_of_ok hm]
    constructor
    · exact fun h => ⟨p.1, p.2, rfl, h⟩
    · rintro ⟨a, s₁, h₁, h₂⟩
      cases h₁
      exact h₂
  | error e =>
    rw [bind_of_error hm]
    constructor
    · intro h
      cases h
    · rintro ⟨a, s₁, h₁, -⟩
      cases h₁

theorem Meets.of_total {m : Act σ ε α} (h : Meets (fun _ => False) Q m s) (hQ : ∀ a s', Q a s' → Q' a s') :
    Meets E Q' m s := by
  cases h with
  | ends h hm => exact .ends h (hQ _ _ hm)
  | stops _ hE => exact hE.elim

/-- Total correctness: the run ends. -/
theorem Meets.exists_ok {m : Act σ ε α} (h : Meets (fun _ => False) Q m s) : ∃ a s', m s = .ok (a, s') ∧ Q a s' := by
  cases h with
  | ends h hm => exact ⟨_, _, h, hm⟩
  | stops _ hE => exact hE.elim

/-- The computation has ended, in a way that `P` accepts. -/
def accepts (P : α → Bool) : Except ε α → Bool
  | .ok a => P a
  | .error _ => false

theorem accepts_iff {P : α → Bool} {x : Except ε α} : accepts P x = true ↔ ∃ a, x = .ok a ∧ P a = true := by
  cases x <;> simp [accepts]

/-- Partial correctness, said of the runs that end. -/
theorem meets_iff {m : Act σ ε α} :
    Meets (fun _ => True) Q m s ↔ ∀ a s', m s = .ok (a, s') → Q a s' := by
  cases hm : m s with
  | ok p =>
    rw [meets_ok hm]
    constructor
    · intro h a s' he
      cases he
      exact h
    · exact fun h => h p.1 p.2 rfl
  | error e => simp [meets_error hm]

end

/-! ## Invariants -/

/-- `m` keeps the invariant `I`, where it ends. -/
def Keeps (I : σ → Prop) (m : Act σ ε α) : Prop := ∀ s, I s → Meets (fun _ => True) (fun _ => I) m s

section

variable {I : σ → Prop}

theorem keeps_pure (a : α) : Keeps I (pure a : Act σ ε α) := fun _ h => (meets_pure a).mpr h

theorem keeps_throw (e : ε) : Keeps I (throw e : Act σ ε α) := fun _ _ => (meets_throw e).mpr trivial

theorem keeps_get : Keeps I (get : Act σ ε σ) := fun _ h => meets_get.mpr h

theorem keeps_modify {f : σ → σ} (h : ∀ s, I s → I (f s)) : Keeps I (modify f : Act σ ε PUnit) :=
  fun s hs => (meets_modify f).mpr (h s hs)

theorem Keeps.bind {m : Act σ ε α} {f : α → Act σ ε β} (h : Keeps I m) (hf : ∀ a, Keeps I (f a)) :
    Keeps I (m >>= f) := fun s hs => (h s hs).bind fun a s' hs' => hf a s' hs'

theorem keeps_onlyIf {c : Prop} [Decidable c] {m : Act σ ε Unit} (h : c → Keeps I m) :
    Keeps I (onlyIf c m) := fun s hs => (meets_onlyIf c m).mpr ⟨fun hc => h hc s hs, fun _ => hs⟩

end

/-! ## Frames -/

/-- `m` leaves `f` of the state as it is, where it ends. -/
def Leaves {γ : Type} (f : σ → γ) (m : Act σ ε α) : Prop :=
  ∀ s, Meets (fun _ => True) (fun _ s' => f s' = f s) m s

section

variable {γ : Type} {f : σ → γ}

theorem leaves_pure (a : α) : Leaves f (pure a : Act σ ε α) := fun _ => (meets_pure a).mpr rfl

theorem leaves_throw (e : ε) : Leaves f (throw e : Act σ ε α) := fun _ => (meets_throw e).mpr trivial

theorem leaves_get : Leaves f (get : Act σ ε σ) := fun _ => meets_get.mpr rfl

theorem leaves_modify {g : σ → σ} (h : ∀ s, f (g s) = f s) : Leaves f (modify g : Act σ ε PUnit) :=
  fun s => (meets_modify g).mpr (h s)

theorem Leaves.bind {m : Act σ ε α} {k : α → Act σ ε β} (h : Leaves f m) (hk : ∀ a, Leaves f (k a)) :
    Leaves f (m >>= k) := fun s => (h s).bind fun a s' hs' => (hk a s').imp fun _ _ ht => ht.trans hs'

theorem leaves_onlyIf {c : Prop} [Decidable c] {m : Act σ ε Unit} (h : Leaves f m) :
    Leaves f (onlyIf c m) := fun s => (meets_onlyIf c m).mpr ⟨fun _ => h s, fun _ => rfl⟩

theorem Leaves.comp {δ : Type} {m : Act σ ε α} (h : Leaves f m) (g : γ → δ) : Leaves (fun s => g (f s)) m :=
  fun s => (h s).imp fun _ _ hs => congrArg g hs

theorem Leaves.keeps {m : Act σ ε α} (h : Leaves f m) (P : γ → Prop) : Keeps (fun s => P (f s)) m :=
  fun s hs => (h s).imp fun _ _ hs' => hs' ▸ hs

end

/-! ## Indifference -/

/-- `m` does not look at what `g` changes: it does the same behind `g`, and leaves the change there. -/
def Ignores (g : σ → σ) (m : Act σ ε α) : Prop := ∀ s, m (g s) = (m s).map fun p => (p.1, g p.2)

section

variable {g : σ → σ}

theorem ignores_pure (a : α) : Ignores g (pure a : Act σ ε α) := fun _ => rfl

theorem ignores_throw (e : ε) : Ignores g (throw e : Act σ ε α) := fun _ => rfl

theorem ignores_modify {f : σ → σ} (h : ∀ s, f (g s) = g (f s)) : Ignores g (modify f : Act σ ε PUnit) :=
  fun s => congrArg (fun s' => (Except.ok (⟨⟩, s') : Except ε (PUnit × σ))) (h s)

theorem Ignores.bind {m : Act σ ε α} {k : α → Act σ ε β} (h : Ignores g m) (hk : ∀ a, Ignores g (k a)) :
    Ignores g (m >>= k) := by
  intro s
  cases hm : m s with
  | ok p => rw [bind_of_ok hm, bind_of_ok ((h s).trans (congrArg _ hm)), hk]
  | error e =>
    rw [bind_of_error hm, bind_of_error ((h s).trans (congrArg _ hm))]
    rfl

theorem ignores_get_bind {k : σ → Act σ ε α} (h : ∀ s, k (g s) = k s) (hk : ∀ s, Ignores g (k s)) :
    Ignores g (get >>= k) := by
  intro s
  rw [get_bind, get_bind, h, hk]

theorem Ignores.of_ok {m : Act σ ε α} (h : Ignores g m) {s t : σ} {a : α} (hm : m (g s) = .ok (a, t)) :
    ∃ s', m s = .ok (a, s') ∧ t = g s' := by
  rw [h] at hm
  cases hs : m s with
  | ok p =>
    rw [hs] at hm
    cases hm
    exact ⟨p.2, rfl, rfl⟩
  | error e =>
    rw [hs] at hm
    cases hm

end

/-! ## Clients -/

/-- What a client does: it ends with a result, or makes a call and goes on with the answer. -/
inductive Prog (C : Type) (A : C → Type) (α : Type) where
  | done (a : α)
  | call (c : C) (k : A c → Prog C A α)

namespace Prog

variable {C : Type} {A : C → Type}

def run (serve : (c : C) → Act σ ε (A c)) : Prog C A α → Act σ ε α
  | done a => pure a
  | call c k => serve c >>= fun a => run serve (k a)

/-- **What every call keeps, every client keeps.** -/
theorem run_keeps {I : σ → Prop} {serve : (c : C) → Act σ ε (A c)} (h : ∀ c, Keeps I (serve c))
    (p : Prog C A α) : Keeps I (p.run serve) := by
  induction p with
  | done a => exact keeps_pure a
  | call c k ih => exact (h c).bind ih

theorem run_leaves {γ : Type} {f : σ → γ} {serve : (c : C) → Act σ ε (A c)}
    (h : ∀ c, Leaves f (serve c)) (p : Prog C A α) : Leaves f (p.run serve) := by
  induction p with
  | done a => exact leaves_pure a
  | call c k ih => exact (h c).bind ih

end Prog

end Effect
