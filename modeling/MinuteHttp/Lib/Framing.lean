import Mathlib.Data.List.Basic

/-!
# Frames that state their length

A frame is a head that states the length of the data, the data, and a tail. Heads of different lengths are told
apart whatever follows them, so frames behind one another are read in one way only (`body_append`). An
`Outbox` is a writer that holds data back and sends it in frames; whatever it does, it neither loses nor
reorders anything (`all_emit`).
-/

structure Framing (α : Type) where
  head : Nat → List α
  tail : List α
  /-- What follows a head does not make it another one. -/
  head_inj : ∀ {m n x y}, head m ++ x = head n ++ y → m = n ∧ x = y

namespace Framing

variable {α : Type} (f : Framing α)

def frame (data : List α) : List α := f.head data.length ++ data ++ f.tail

/-- `bs` is `data` in frames none of which is empty, and the empty frame. -/
def Body (data bs : List α) : Prop :=
  ∃ chunks : List (List α), [] ∉ chunks ∧ data = chunks.flatten ∧ bs = chunks.flatMap f.frame ++ f.frame []

variable {f} {data bs x y c d : List α}

theorem frame_inj (h : f.frame c ++ x = f.frame d ++ y) : c = d ∧ x = y := by
  unfold frame at h
  simp only [List.append_assoc] at h
  obtain ⟨hlen, hrest⟩ := f.head_inj h
  obtain ⟨hdata, htail⟩ := List.append_inj hrest hlen
  exact ⟨hdata, List.append_cancel_left htail⟩

theorem Body.head (h : f.Body data bs) : ∃ n x, bs = f.head n ++ x := by
  obtain ⟨chunks, -, -, rfl⟩ := h
  cases chunks with
  | nil => exact ⟨0, [] ++ f.tail, List.append_assoc _ _ _⟩
  | cons c chunks =>
    refine ⟨c.length, c ++ f.tail ++ (chunks.flatMap f.frame ++ f.frame []), ?_⟩
    rw [List.flatMap_cons, frame]
    simp only [List.append_assoc]

theorem body_end_iff : f.Body data (f.frame []) ↔ data = [] := by
  constructor
  · rintro ⟨chunks, hne, rfl, hbs⟩
    cases chunks with
    | nil => rfl
    | cons c chunks =>
      rw [List.flatMap_cons, List.append_assoc, ← List.append_nil (f.frame [])] at hbs
      obtain ⟨rfl, -⟩ := frame_inj hbs
      exact absurd List.mem_cons_self hne
  · rintro rfl
    exact ⟨[], List.not_mem_nil, rfl, rfl⟩

theorem body_cons_iff (hc : c ≠ []) : f.Body data (f.frame c ++ bs) ↔ ∃ more, data = c ++ more ∧ f.Body more bs := by
  constructor
  · rintro ⟨chunks, hne, rfl, hbs⟩
    cases chunks with
    | nil =>
      rw [List.flatMap_nil, List.nil_append, ← List.append_nil (f.frame [])] at hbs
      exact absurd (frame_inj hbs).1 hc
    | cons d chunks =>
      rw [List.flatMap_cons, List.append_assoc] at hbs
      obtain ⟨rfl, rfl⟩ := frame_inj hbs
      exact ⟨chunks.flatten, rfl, chunks, List.not_mem_of_not_mem_cons hne, rfl, rfl⟩
  · rintro ⟨more, rfl, chunks, hne, rfl, rfl⟩
    refine ⟨c :: chunks, ?_, rfl, ?_⟩
    · rw [List.mem_cons, not_or]
      exact ⟨hc.symm, hne⟩
    · rw [List.flatMap_cons, List.append_assoc]

/-- **Whole frames at the front are the first of the body's.** -/
theorem body_append_iff {chunks : List (List α)} (hne : [] ∉ chunks) :
    f.Body data (chunks.flatMap f.frame ++ bs) ↔ ∃ more, data = chunks.flatten ++ more ∧ f.Body more bs := by
  induction chunks generalizing data with
  | nil => simp
  | cons c chunks ih =>
    have hc : c ≠ [] := fun h => hne (h ▸ List.mem_cons_self)
    rw [List.flatMap_cons, List.append_assoc, body_cons_iff hc]
    constructor
    · rintro ⟨d, rfl, hd⟩
      obtain ⟨more, rfl, hmore⟩ := (ih (List.not_mem_of_not_mem_cons hne)).mp hd
      exact ⟨more, by rw [List.flatten_cons, List.append_assoc], hmore⟩
    · rintro ⟨more, rfl, hmore⟩
      refine ⟨chunks.flatten ++ more, by rw [List.flatten_cons, List.append_assoc], ?_⟩
      exact (ih (List.not_mem_of_not_mem_cons hne)).mpr ⟨more, rfl, hmore⟩

/-- A body that ends behind these frames says just what they say. -/
theorem body_frames_iff {chunks : List (List α)} (hne : [] ∉ chunks) :
    f.Body data (chunks.flatMap f.frame ++ f.frame []) ↔ data = chunks.flatten := by
  rw [body_append_iff hne]
  simp only [body_end_iff, exists_eq_right, List.append_nil]

end Framing

/-! ## Writers -/

/-- A writer: what it holds, what it has sent in frames, and how much of that it had held before. -/
structure Outbox (α : Type) where
  held : List α
  chunks : List (List α)
  passed : Nat
  nil_not_mem : [] ∉ chunks

namespace Outbox

variable {α : Type} (b : Outbox α)

/-- All that has been written. -/
def all : List α := b.chunks.flatten ++ b.held

/-- What is held is sent with `buf` behind it, unless that is nothing. -/
def emit (buf : List α) : Outbox α :=
  if h : b.held ++ buf = [] then b
  else
    { held := [], chunks := b.chunks ++ [b.held ++ buf], passed := b.passed + b.held.length
      nil_not_mem := by simpa [b.nil_not_mem] using h }

def hold (buf : List α) : Outbox α := { b with held := b.held ++ buf }

/-- `buf` is held where there is room for it among `cap`, and sent otherwise. -/
def write (cap : Nat) (buf : List α) : Outbox α :=
  if cap < b.held.length + buf.length then b.emit buf else b.hold buf

@[simp] theorem all_hold (buf : List α) : (b.hold buf).all = b.all ++ buf := (List.append_assoc _ _ _).symm

@[simp] theorem all_emit (buf : List α) : (b.emit buf).all = b.all ++ buf := by
  unfold emit
  split
  · rename_i hnil
    rw [(List.append_eq_nil_iff.mp hnil).2, List.append_nil]
  · simp [all]

@[simp] theorem all_write (cap : Nat) (buf : List α) : (b.write cap buf).all = b.all ++ buf := by
  unfold write
  split
  · exact b.all_emit buf
  · exact b.all_hold buf

theorem held_emit (buf : List α) : (b.emit buf).held = [] := by
  unfold emit
  split
  · rename_i hnil
    exact (List.append_eq_nil_iff.mp hnil).1
  · rfl

theorem passed_emit (buf : List α) : (b.emit buf).passed = b.passed + b.held.length := by
  unfold emit
  split
  · rename_i hnil
    rw [(List.append_eq_nil_iff.mp hnil).1]
    rfl
  · rfl

theorem chunks_emit (f : Framing α) (buf : List α) (h : b.held ++ buf ≠ []) :
    (b.emit buf).chunks.flatMap f.frame = b.chunks.flatMap f.frame ++ f.frame (b.held ++ buf) := by
  rw [emit, dif_neg h, List.flatMap_append]
  simp

end Outbox
