import MinuteHttp.Lib.Effect

/-!
# Clients of an interface

A client (`Prog`) that talks to a second interface talks to the first if each call on the second is a client of
the first (`Prog.translate`). `Prog.Always P p` is what is known of a client whatever its calls answer, and
`Stops E m` of a computation wherever it starts; `Prog.run_meets` puts the two together with an invariant.
-/

namespace Effect

variable {σ ε α β : Type}

/-! ## How a computation may stop -/

/-- Wherever it starts, `m` ends, or stops with a reason in `E`. -/
def Stops (E : ε → Prop) (m : Act σ ε α) : Prop := ∀ s, Meets E (fun _ _ => True) m s

/-- Where `I` holds, `m` ends with `I`, or stops with a reason in `E`. -/
def Sustains (E : ε → Prop) (I : σ → Prop) (m : Act σ ε α) : Prop := ∀ s, I s → Meets E (fun _ => I) m s

section

variable {E : ε → Prop} {I : σ → Prop}

theorem stops_pure (a : α) : Stops E (pure a : Act σ ε α) := fun _ => (meets_pure a).mpr trivial

theorem stops_get : Stops E (get : Act σ ε σ) := fun _ => meets_get.mpr trivial

theorem stops_modify (f : σ → σ) : Stops E (modify f : Act σ ε PUnit) := fun _ => (meets_modify f).mpr trivial

theorem Stops.bind {m : Act σ ε α} {f : α → Act σ ε β} (h : Stops E m) (hf : ∀ a, Stops E (f a)) :
    Stops E (m >>= f) := fun s => (h s).bind fun a s' _ => hf a s'

theorem stops_onlyIf {c : Prop} [Decidable c] {m : Act σ ε Unit} (h : Stops E m) : Stops E (onlyIf c m) :=
  fun s => (meets_onlyIf c m).mpr ⟨fun _ => h s, fun _ => trivial⟩

theorem sustains_get : Sustains E I (get : Act σ ε σ) := fun _ hs => meets_get.mpr hs

theorem Sustains.bind {m : Act σ ε α} {f : α → Act σ ε β} (h : Sustains E I m) (hf : ∀ a, Sustains E I (f a)) :
    Sustains E I (m >>= f) := fun s hs => (h s hs).bind fun a s' hs' => hf a s' hs'

theorem sustains_onlyIf {c : Prop} [Decidable c] {m : Act σ ε Unit} (h : Sustains E I m) :
    Sustains E I (onlyIf c m) := fun s hs => (meets_onlyIf c m).mpr ⟨fun _ => h s hs, fun _ => hs⟩

theorem Stops.sustains {γ : Type} {f : σ → γ} {m : Act σ ε α} (h : Stops E m) (hf : Leaves f m)
    (hI : ∀ s s', f s' = f s → I s → I s') : Sustains E I m :=
  fun s hs => ((h s).and (hf s)).imp fun _ s' hs' => hI s s' hs'.2 hs

end

/-! ## Clients -/

namespace Prog

variable {C C' : Type} {A : C → Type} {A' : C' → Type}

/-- Whatever its calls answer, the client ends with a result in `P`. -/
def Always (P : α → Prop) : Prog C A α → Prop
  | done a => P a
  | call _ k => ∀ x, (k x).Always P

def bind (p : Prog C A α) (f : α → Prog C A β) : Prog C A β :=
  match p with
  | done a => f a
  | call c k => call c fun x => (k x).bind f

/-- The client with its calls made by `f`, on another interface. -/
def translate (f : (c : C) → Prog C' A' (A c)) : Prog C A α → Prog C' A' α
  | done a => done a
  | call c k => (f c).bind fun x => (k x).translate f

section

variable {P Q : α → Prop}

theorem Always.imp {p : Prog C A α} (h : p.Always P) (hPQ : ∀ a, P a → Q a) : p.Always Q := by
  induction p with
  | done a => exact hPQ a h
  | call c k ih => exact fun x => ih x (h x)

theorem always_true (p : Prog C A α) : p.Always fun _ => True := by
  induction p with
  | done a => trivial
  | call c k ih => exact ih

theorem always_bind {p : Prog C A α} {f : α → Prog C A β} {R : β → Prop} :
    (p.bind f).Always R ↔ p.Always fun a => (f a).Always R := by
  induction p with
  | done a => rfl
  | call c k ih => exact forall_congr' ih

theorem Always.bind {p : Prog C A α} {f : α → Prog C A β} {R : β → Prop} (h : p.Always P)
    (hf : ∀ a, P a → (f a).Always R) : (p.bind f).Always R := always_bind.mpr (h.imp hf)

/-- **A client with its calls made otherwise** ends as it did. -/
theorem Always.translate {p : Prog C A α} (h : p.Always P) (f : (c : C) → Prog C' A' (A c)) :
    (p.translate f).Always P := by
  induction p with
  | done a => exact h
  | call c k ih => exact (always_true (f c)).bind fun x _ => ih x (h x)

variable {E : ε → Prop} {I : σ → Prop} {serve : (c : C) → Act σ ε (A c)}

/-- **What is known of a client and of its calls** is known of its runs. -/
theorem run_meets (h : ∀ c, Sustains E I (serve c)) {p : Prog C A α} (hp : p.Always P) {s : σ} (hs : I s) :
    Meets E (fun a s' => P a ∧ I s') (p.run serve) s := by
  induction p generalizing s with
  | done a => exact (meets_pure a).mpr ⟨hp, hs⟩
  | call c k ih => exact (h c s hs).bind fun x s' hs' => ih x (hp x) hs'

end

end Prog

end Effect
