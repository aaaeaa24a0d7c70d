import Mathlib.Data.List.Basic

/-!
# Populations

A population is a list of agents that act one at a time, each by a partial function on its own state:
`act i f` lets the agent at `i` do `f`. What `act` does is said once (`act_eq_some`), as the list split
at the agent, so that a property of every agent (`act_forall`) and a count of agents (`act_countP`) are
followed through a step without mention of the others.
-/

namespace Population

variable {α : Type*} {i : Nat} {f : α → Option α} {pop pop' : List α}

def act : Nat → (α → Option α) → List α → Option (List α)
  | _, _, [] => none
  | 0, f, a :: pop => (f a).map (· :: pop)
  | i + 1, f, a :: pop => (act i f pop).map (a :: ·)

/-- An act is the act of one agent, and the others stay as they are. -/
theorem act_eq_some (h : act i f pop = some pop') :
    ∃ pre a a' post, pop = pre ++ a :: post ∧ pop' = pre ++ a' :: post ∧ f a = some a' ∧
      pop[i]? = some a := by
  induction pop generalizing i pop' with
  | nil => simp [act] at h
  | cons b pop ih =>
    cases i with
    | zero =>
      simp only [act, Option.map_eq_some_iff] at h
      obtain ⟨b', hb, rfl⟩ := h
      exact ⟨[], b, b', pop, rfl, rfl, hb, rfl⟩
    | succ i =>
      simp only [act, Option.map_eq_some_iff] at h
      obtain ⟨pop₁, h₁, rfl⟩ := h
      obtain ⟨pre, a, a', post, rfl, rfl, hf, hi⟩ := ih h₁
      exact ⟨b :: pre, a, a', post, rfl, rfl, hf, by simpa using hi⟩

theorem act_forall (I : α → Prop) (h : act i f pop = some pop') (hI : ∀ a ∈ pop, I a)
    (hf : ∀ a a', pop[i]? = some a → f a = some a' → I a → I a') : ∀ a ∈ pop', I a := by
  obtain ⟨pre, a, a', post, rfl, rfl, hfa, hi⟩ := act_eq_some h
  have ha' := hf a a' hi hfa (hI a (by simp))
  intro b hb
  simp only [List.mem_append, List.mem_cons] at hb hI
  rcases hb with hb | rfl | hb
  · exact hI b (.inl hb)
  · exact ha'
  · exact hI b (.inr (.inr hb))

/-- How a count of agents changes: as the one that acted does. -/
theorem act_countP (p : α → Bool) (h : act i f pop = some pop') :
    ∃ a a', pop[i]? = some a ∧ f a = some a' ∧
      pop'.countP p + (p a).toNat = pop.countP p + (p a').toNat := by
  obtain ⟨pre, a, a', post, rfl, rfl, hfa, hi⟩ := act_eq_some h
  refine ⟨a, a', hi, hfa, ?_⟩
  simp only [List.countP_append, List.countP_cons]
  cases p a <;> cases p a' <;> simp <;> omega

theorem act_at {a a' : α} (hi : pop[i]? = some a) (hf : f a = some a') :
    ∃ pop', act i f pop = some pop' ∧ pop'[i]? = some a' ∧ ∀ j, j ≠ i → pop'[j]? = pop[j]? := by
  induction pop generalizing i with
  | nil => cases hi
  | cons b pop ih =>
    cases i with
    | zero =>
      obtain rfl : b = a := Option.some.inj hi
      refine ⟨a' :: pop, by rw [act, hf]; rfl, rfl, fun j hj => ?_⟩
      obtain ⟨j, rfl⟩ := Nat.exists_eq_succ_of_ne_zero hj
      rfl
    | succ i =>
      obtain ⟨pop', hact, hself, hothers⟩ := ih hi
      refine ⟨b :: pop', by rw [act, hact]; rfl, hself, fun j hj => ?_⟩
      cases j with
      | zero => rfl
      | succ j => exact hothers j fun h => hj (congrArg Nat.succ h)

theorem act_map {β : Type*} (g : α → β) (h : act i f pop = some pop')
    (hf : ∀ a a', f a = some a' → g a' = g a) : pop'.map g = pop.map g := by
  obtain ⟨pre, a, a', post, rfl, rfl, hfa, -⟩ := act_eq_some h
  simp [hf a a' hfa]

end Population
