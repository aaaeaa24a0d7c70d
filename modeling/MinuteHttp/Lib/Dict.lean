import Mathlib.Data.List.Basic

/-!
# Dictionaries

Finite maps as lists of pairs in the order in which the keys were first put. A put to a key that is
there overwrites its value in place.
-/

universe u v

abbrev Dict (κ : Type u) (α : Type v) := List (κ × α)

namespace Dict

variable {κ : Type u} {α : Type v} [DecidableEq κ]

def get (d : Dict κ α) (k : κ) : Option α :=
  match d with
  | [] => none
  | (k', a) :: d => if k' = k then some a else get d k

def put (k : κ) (a : α) : Dict κ α → Dict κ α
  | [] => [(k, a)]
  | (k', a') :: d => if k' = k then (k, a) :: d else (k', a') :: put k a d

@[simp] theorem get_nil (k : κ) : get ([] : Dict κ α) k = none := rfl

@[simp] theorem get_put_self (k : κ) (a : α) (d : Dict κ α) : get (put k a d) k = some a := by
  induction d with
  | nil => simp [put, get]
  | cons p d ih =>
    obtain ⟨k', a'⟩ := p
    by_cases h : k' = k
    · simp [put, get, h]
    · simp [put, get, h, ih]

theorem get_put_other {k k' : κ} (h : k ≠ k') (a : α) (d : Dict κ α) :
    get (put k a d) k' = get d k' := by
  induction d with
  | nil => simp [put, get, h]
  | cons p d ih =>
    obtain ⟨k₁, a₁⟩ := p
    by_cases h₁ : k₁ = k
    · subst h₁
      simp [put, get, h]
    · rw [put, if_neg h₁, get, get, ih]

theorem get_put (k k' : κ) (a : α) (d : Dict κ α) :
    get (put k a d) k' = if k = k' then some a else get d k' := by
  by_cases h : k = k'
  · rw [if_pos h, ← h, get_put_self]
  · rw [if_neg h, get_put_other h]

theorem put_eq_self {k : κ} {a : α} {d : Dict κ α} (h : get d k = some a) : put k a d = d := by
  induction d with
  | nil => simp at h
  | cons p d ih =>
    obtain ⟨k', a'⟩ := p
    by_cases hk : k' = k
    · subst hk
      rw [get, if_pos rfl, Option.some.injEq] at h
      rw [put, if_pos rfl, h]
    · rw [get, if_neg hk] at h
      rw [put, if_neg hk, ih h]

theorem isSome_get_iff {d : Dict κ α} {k : κ} : (get d k).isSome = true ↔ k ∈ d.map Prod.fst := by
  induction d with
  | nil => simp
  | cons p d ih =>
    obtain ⟨k', a⟩ := p
    by_cases h : k' = k
    · simp [get, h]
    · simp only [get, if_neg h, ih, List.map_cons, List.mem_cons]
      exact ⟨.inr, fun h' => h'.resolve_left fun he => h he.symm⟩

theorem map_fst_put (k : κ) (a : α) (d : Dict κ α) :
    (put k a d).map Prod.fst =
      if (get d k).isSome then d.map Prod.fst else d.map Prod.fst ++ [k] := by
  induction d with
  | nil => rfl
  | cons p d ih =>
    obtain ⟨k', a'⟩ := p
    by_cases h : k' = k
    · simp [put, get, h]
    · rw [put, if_neg h, get, if_neg h, List.map_cons, ih]
      split
      · rfl
      · rfl

theorem nodup_put {k : κ} {a : α} {d : Dict κ α} (h : (d.map Prod.fst).Nodup) :
    ((put k a d).map Prod.fst).Nodup := by
  rw [map_fst_put]
  split
  · exact h
  · rename_i hnew
    rw [isSome_get_iff] at hnew
    refine List.nodup_append.mpr ⟨h, List.pairwise_singleton _ k, fun x hx y hy hxy => ?_⟩
    rw [List.mem_singleton.mp hy] at hxy
    exact hnew (hxy ▸ hx)

theorem get_of_mem {k : κ} {a : α} {d : Dict κ α} (h : (d.map Prod.fst).Nodup)
    (hm : (k, a) ∈ d) : get d k = some a := by
  induction d with
  | nil => cases hm
  | cons p d ih =>
    obtain ⟨k', a'⟩ := p
    rw [List.map_cons, List.nodup_cons] at h
    rcases List.mem_cons.mp hm with heq | hm
    · cases heq
      exact if_pos rfl
    · have hne : k' ≠ k := by
        intro heq
        subst heq
        exact h.1 (List.mem_map.mpr ⟨_, hm, rfl⟩)
      rw [get, if_neg hne]
      exact ih h.2 hm

theorem mem_of_get {k : κ} {a : α} {d : Dict κ α} (h : get d k = some a) : (k, a) ∈ d := by
  induction d with
  | nil => cases h
  | cons p d ih =>
    obtain ⟨k', a'⟩ := p
    by_cases hk : k' = k
    · rw [get, if_pos hk] at h
      cases h
      cases hk
      exact .head _
    · rw [get, if_neg hk] at h
      exact .tail _ (ih h)

theorem get_map {β : Type*} (f : α → β) (d : Dict κ α) (k : κ) :
    get (d.map fun p => (p.1, f p.2)) k = (get d k).map f := by
  induction d with
  | nil => rfl
  | cons p d ih =>
    obtain ⟨k', a⟩ := p
    by_cases h : k' = k
    · simp [get, h]
    · simp [get, h, ih]

theorem eq_nil_iff {d : Dict κ α} : d = [] ↔ ∀ k, (get d k).isSome = false := by
  constructor
  · rintro rfl k
    rfl
  · intro h
    cases d with
    | nil => rfl
    | cons p d =>
      have := h p.1
      simp [get] at this

end Dict
