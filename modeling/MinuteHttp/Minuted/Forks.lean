import Mathlib.Data.List.Perm.Basic

/-!
# The table of child processes (`minuted_fork` and `minuted_wait`, `minuted/minuted.c`)

What the system answers is an argument: `fork` is the pid that the `fork` of a call returns (`none`
when it fails), and `minutedReap` is one turn of the loop in `minuted_wait`, on what `waitpid` reports.
-/

namespace MinuteHttp

abbrev Pid := Nat

/-- The status `waitpid` reports: `WEXITSTATUS` or `WTERMSIG`. -/
inductive WaitStatus where
  | exited (code : Nat)
  | signaled (sig : Nat)
  deriving DecidableEq, Repr

/-- `minuted_forks` -/
structure MinutedForks where
  npids : Nat
  active : Nat
  pids : List Pid

namespace MinutedForks

/-- `minuted_forks forks = {n}`, and its `calloc`. -/
def init (n : Nat) : MinutedForks := ⟨n, 0, List.replicate n 0⟩

/-- The part of the table in use. -/
def entries (forks : MinutedForks) : List Pid := forks.pids.take forks.active

/-- The table is as long as it says, and not overfull. -/
structure Ok (forks : MinutedForks) : Prop where
  length : forks.pids.length = forks.npids
  active_le : forks.active ≤ forks.npids

end MinutedForks

/-- `minuted_fork`, in the parent: the return value and the table. -/
def minutedFork (fork : Option Pid) (forks : MinutedForks) : Int × MinutedForks :=
  if forks.active ≥ forks.npids then (-1, forks)
  else match fork with
    | some pid =>
      (0, { forks with pids := forks.pids.set forks.active pid, active := forks.active + 1 })
    | none => (-1, forks)

/-- `restart`, for a child of the table. -/
def restarts (allowRestart : Bool) : WaitStatus → Bool
  | .signaled _ => allowRestart
  | .exited code => if code ≠ 0 then allowRestart else false

/-- The entry at `i` is overwritten with the last one. -/
def MinutedForks.vacate (i : Nat) (forks : MinutedForks) : MinutedForks :=
  let active := forks.active - 1
  { forks with
    active := active
    pids := (forks.pids.set i (forks.pids.getD active 0)).set active 0 }

/-- One turn of the loop in `minuted_wait`: `waitpid` has reported `w`. -/
def minutedReap (w : Pid) (status : WaitStatus) (allowRestart : Bool) (fork : Option Pid)
    (forks : MinutedForks) : Int × MinutedForks :=
  match forks.entries.idxOf? w with
  | some i =>
    let forks := forks.vacate i
    if restarts allowRestart status then minutedFork fork forks else (-1, forks)
  | none => (-1, forks)                                                     -- a stale child

namespace MinutedForks

variable {forks : MinutedForks}

theorem init_ok (n : Nat) : (init n).Ok := ⟨List.length_replicate, Nat.zero_le n⟩

theorem Ok.length_entries (h : forks.Ok) : forks.entries.length = forks.active := by
  rw [entries, List.length_take, h.length]
  exact Nat.min_eq_left h.active_le

theorem minutedFork_full (fork : Option Pid) (h : forks.npids ≤ forks.active) :
    minutedFork fork forks = (-1, forks) := if_pos h

theorem minutedFork_none : minutedFork none forks = (-1, forks) := by
  unfold minutedFork
  split <;> rfl

theorem minutedFork_some {pid : Pid} (h : forks.active < forks.npids) :
    minutedFork (some pid) forks =
      (0, { forks with pids := forks.pids.set forks.active pid, active := forks.active + 1 }) :=
  if_neg (Nat.not_le.mpr h)

theorem Ok.fork (h : forks.Ok) (fork : Option Pid) :
    (minutedFork fork forks = (-1, forks) ∧ (fork = none ∨ forks.npids ≤ forks.active)) ∨
      ∃ pid forks', fork = some pid ∧ minutedFork fork forks = (0, forks') ∧ forks'.Ok ∧
        forks'.npids = forks.npids ∧ forks'.active = forks.active + 1 ∧
        forks'.entries = forks.entries ++ [pid] := by
  rcases Nat.lt_or_ge forks.active forks.npids with hlt | hge
  · cases fork with
    | none => exact .inl ⟨minutedFork_none, .inl rfl⟩
    | some pid =>
      have hlen : forks.active < forks.pids.length := by rw [h.length]; exact hlt
      refine .inr ⟨pid, _, rfl, minutedFork_some hlt, ⟨?_, hlt⟩, rfl, rfl, ?_⟩
      · rw [List.length_set]
        exact h.length
      · simp only [entries]
        rw [List.take_add_one, List.take_set_of_le (Nat.le_refl _), List.getElem?_set_self hlen]
        rfl
  · exact .inl ⟨minutedFork_full fork hge, .inr hge⟩

theorem set_last_perm {α : Type*} (init : List α) (x : α) {i : Nat} (hi : i < (init ++ [x]).length) :
    List.Perm (((init ++ [x]).set i x).dropLast) ((init ++ [x]).eraseIdx i) := by
  rw [List.length_append, List.length_singleton] at hi
  rcases Nat.lt_or_ge i init.length with h | h
  · rw [List.set_append_left _ _ h, List.dropLast_concat, List.eraseIdx_append_of_lt_length h]
    exact (List.set_perm_cons_eraseIdx h x).trans (List.perm_append_singleton x _).symm
  · have hi : i = init.length := by omega
    subst hi
    rw [List.set_append_right _ _ (Nat.le_refl _), List.eraseIdx_append_of_length_le (Nat.le_refl _)]
    simp

/-- A vacated entry leaves the table, and the others stay. -/
theorem Ok.vacate {i : Nat} (h : forks.Ok) (hi : i < forks.active) :
    (forks.vacate i).Ok ∧ (forks.vacate i).entries.Perm (forks.entries.eraseIdx i) := by
  obtain ⟨npids, active, pids⟩ := forks
  obtain ⟨hlen, hle⟩ := h
  cases active with
  | zero => exact absurd hi (Nat.not_lt_zero i)
  | succ n =>
    have hn : n < pids.length := by rw [hlen]; exact hle
    refine ⟨⟨?_, Nat.le_of_lt hle⟩, ?_⟩
    · simp only [MinutedForks.vacate, List.length_set]
      exact hlen
    · have hold : pids.take (n + 1) = pids.take n ++ [pids[n]] :=
        List.take_succ_eq_append_getElem hn
      have hnew : ((pids.set i pids[n]).set n 0).take n =
          ((pids.take n ++ [pids[n]]).set i pids[n]).dropLast := by
        have hn' : n < (pids.set i pids[n]).length := by rw [List.length_set]; exact hn
        rw [List.take_set_of_le (Nat.le_refl n), ← hold, ← List.take_set,
          List.take_succ_eq_append_getElem hn', List.dropLast_concat]
      have hlast : pids.getD n 0 = pids[n] := by
        rw [List.getD_eq_getElem?_getD, List.getElem?_eq_getElem hn]
        rfl
      simp only [MinutedForks.vacate, entries, Nat.add_sub_cancel, hlast, hnew, hold]
      refine set_last_perm _ _ ?_
      rw [← hold, List.length_take, Nat.min_eq_left hn]
      exact hi

/-- Reaping a child of the table vacates its entry; the result says whether the child is replaced. -/
theorem Ok.reap_vacate (h : forks.Ok) {w : Pid} (hw : w ∈ forks.entries) (status : WaitStatus)
    (allowRestart : Bool) (fork : Option Pid) :
    ∃ i, i < forks.active ∧ forks.entries.idxOf? w = some i ∧
      forks.entries.eraseIdx i = forks.entries.erase w ∧
      minutedReap w status allowRestart fork forks =
        if restarts allowRestart status then minutedFork fork (forks.vacate i)
        else (-1, forks.vacate i) := by
  obtain ⟨i, hi⟩ : ∃ i, forks.entries.idxOf? w = some i := by
    cases hidx : forks.entries.idxOf? w with
    | some i => exact ⟨i, rfl⟩
    | none => exact absurd hw (List.idxOf?_eq_none_iff.mp hidx)
  refine ⟨i, ?_, hi, ?_, ?_⟩
  · rw [← h.length_entries]
    exact (List.findIdx?_eq_some_iff_getElem.mp hi).1
  · rw [List.erase_eq_eraseIdx, hi]
  · unfold minutedReap
    rw [hi]

theorem Ok.reap (h : forks.Ok) {w : Pid} (hw : w ∈ forks.entries) (status : WaitStatus)
    (allowRestart : Bool) (fork : Option Pid) :
    ∃ forks', forks'.Ok ∧ forks'.npids = forks.npids ∧ forks'.active + 1 = forks.active ∧
      forks'.entries.Perm (forks.entries.erase w) ∧
      minutedReap w status allowRestart fork forks =
        if restarts allowRestart status then minutedFork fork forks' else (-1, forks') := by
  obtain ⟨i, hlt, -, herase, heq⟩ := h.reap_vacate hw status allowRestart fork
  obtain ⟨hok, hperm⟩ := h.vacate hlt
  refine ⟨forks.vacate i, hok, rfl, ?_, herase ▸ hperm, heq⟩
  simp only [MinutedForks.vacate]
  omega

end MinutedForks

end MinuteHttp
