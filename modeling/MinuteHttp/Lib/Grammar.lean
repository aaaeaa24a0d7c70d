import Mathlib.Computability.Language
import Mathlib.Order.CompletePartialOrder

/-!
# Languages read one symbol at a time

A reader that has come to the end of a word of `L` and takes a symbol that satisfies `P` stands at the end
of a word of `L * one P` (`snoc_mem`). The inequalities say where that product is a part of a language again,
and `Over P L` that all words of `L` are made of symbols that satisfy `P`.
-/

namespace Grammar

open Computability

variable {α : Type*} {P Q : α → Prop} {L M N : Language α} {v w : List α} {c : α}

/-- One symbol that satisfies `P`. -/
def one (P : α → Prop) : Language α := {w | ∃ c, P c ∧ w = [c]}

def word (v : List α) : Language α := {v}

theorem mem_word : w ∈ word v ↔ w = v := Iff.rfl

theorem word_append (u v : List α) : word (u ++ v) = word u * word v := by
  apply Language.ext
  intro w
  rw [Language.mem_mul, mem_word]
  constructor
  · intro h
    exact ⟨u, rfl, v, rfl, h.symm⟩
  · rintro ⟨a, rfl, b, rfl, h⟩
    exact h.symm

/-- **One symbol more.** -/
theorem snoc_mem (hw : w ∈ L) (hc : P c) (h : L * one P ≤ M) : w ++ [c] ∈ M :=
  h (Language.append_mem_mul hw ⟨c, hc, rfl⟩)

theorem le_mul_kstar (L M : Language α) : L ≤ L * M∗ := by
  intro w hw
  have := Language.append_mem_mul hw (Language.nil_mem_kstar M)
  rwa [List.append_nil] at this

theorem mul_kstar_mul_le (h : N ≤ M) : L * M∗ * N ≤ L * M∗ := by
  rw [mul_assoc]
  exact mul_le_mul_right ((mul_le_mul_right h _).trans kstar_mul_le_kstar) L

/-! ## The symbols of a language -/

def Over (P : α → Prop) (L : Language α) : Prop := ∀ w ∈ L, ∀ c ∈ w, P c

theorem Over.one (h : ∀ c, Q c → P c) : Over P (one Q) := by
  rintro w ⟨c, hc, rfl⟩ x hx
  rw [List.mem_singleton.mp hx]
  exact h c hc

theorem Over.word (h : ∀ c ∈ v, P c) : Over P (word v) := by
  rintro w rfl
  exact h

theorem Over.mul (hL : Over P L) (hM : Over P M) : Over P (L * M) := by
  intro w hw c hc
  obtain ⟨a, ha, b, hb, rfl⟩ := Language.mem_mul.mp hw
  obtain hc | hc := List.mem_append.mp hc
  · exact hL a ha c hc
  · exact hM b hb c hc

theorem Over.add (hL : Over P L) (hM : Over P M) : Over P (L + M) := by
  rintro w (hw | hw)
  · exact hL w hw
  · exact hM w hw

theorem Over.kstar (hL : Over P L) : Over P L∗ := by
  intro w hw c hc
  obtain ⟨ws, rfl, hws⟩ := Language.mem_kstar.mp hw
  obtain ⟨v, hv, hcv⟩ := List.mem_flatten.mp hc
  exact hL v (hws v hv) c hcv

theorem over_one_kstar : w ∈ (Grammar.one P)∗ ↔ ∀ c ∈ w, P c := by
  constructor
  · exact fun hw => Over.kstar (Over.one fun _ h => h) w hw
  · intro h
    refine Language.mem_kstar.mpr ⟨w.map fun c => [c], ?_, ?_⟩
    · rw [← List.flatMap_def, List.flatMap_singleton']
    · intro y hy
      obtain ⟨c, hc, rfl⟩ := List.mem_map.mp hy
      exact ⟨c, h c hc, rfl⟩

end Grammar
