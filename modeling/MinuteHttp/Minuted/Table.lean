import MinuteHttp.Minuted.Forks

/-!
# The table holds exactly the live children (`minuted_fork` and `minuted_wait`, `minuted/minuted.c`)

Beside the table stand the processes of which `waitpid` can report: `own`, the children that `fork` has
made for the table, and `stale`, the others (of the table before a reload, or adopted). The table does not
see these two lists, and they do not follow it: `own` grows when `fork` is called and returns a pid. The
system reports a child once, and gives no pid of a child that it has not reported (`Processes.canFork`).
Along every run of calls the part of the table in use is a permutation of `own` (`Kept`): a fork appends on
both sides, and a child that is reaped leaves both, whatever `waitpid` says of it.
-/

namespace MinuteHttp

/-- What `waitpid` reports, and what `fork` answers if the child is replaced. -/
structure Report where
  pid : Pid
  status : WaitStatus
  fork : Option Pid
  deriving DecidableEq, Repr

/-- `minuted_wait`: the loop goes on while the table is not empty and `waitpid` reports a child. -/
def minutedWait (allowRestart : Bool) : List Report → MinutedForks → MinutedForks
  | [], forks => forks
  | r :: reports, forks =>
    if forks.active = 0 then forks
    else minutedWait allowRestart reports (minutedReap r.pid r.status allowRestart r.fork forks).2

/-- `WEXITSTATUS` -/
def wexitstatus : WaitStatus → Nat
  | .exited code => code
  | .signaled _ => 0

/-- The table and the children that are not reaped. `running` is false once the log line for a stale
child has used its exit status as the address of a string. -/
structure Processes where
  forks : MinutedForks
  own : List Pid
  stale : List Pid
  running : Bool

inductive Event where
  | fork (answer : Option Pid)
  | wait (allowRestart : Bool) (reports : List Report)
  | adopt (pid : Pid)
  deriving DecidableEq, Repr

namespace Processes

def init (n : Nat) (stale : List Pid) : Processes := ⟨.init n, [], stale, true⟩

/-- What `fork` may return: an error, or a pid that is no child's. -/
def canFork (answer : Option Pid) (m : Processes) : Bool :=
  answer.all fun pid => 0 < pid && !(m.own ++ m.stale).contains pid

/-- The child is reported, and is no more. -/
def buried (w : Pid) (m : Processes) : Processes :=
  { m with own := m.own.erase w, stale := m.stale.erase w }

/-- `minuted_fork` gets to its call of `fork`. -/
def callsFork (forks : MinutedForks) : Bool := forks.active < forks.npids

/-- The turn of `minuted_wait` that `waitpid` reports `r` in gets to it. -/
def replaces (allowRestart : Bool) (r : Report) (forks : MinutedForks) : Bool :=
  match forks.entries.idxOf? r.pid with
  | some i => restarts allowRestart r.status && callsFork (forks.vacate i)
  | none => false

/-- The table after a call, and the child that `fork` has made if it was called. -/
def forked (called : Bool) (answer : Option Pid) (forks : MinutedForks) (m : Processes) : Processes :=
  { m with forks := forks, own := if called then m.own ++ answer.toList else m.own }

/-- One turn of the loop in `minuted_wait`. -/
def turn (allowRestart : Bool) (r : Report) (m : Processes) : Option Processes :=
  if m.running && (m.own ++ m.stale).contains r.pid && (m.buried r.pid).canFork r.fork then
    some { forked (replaces allowRestart r m.forks) r.fork
        (minutedReap r.pid r.status allowRestart r.fork m.forks).2 (m.buried r.pid) with
      running := m.forks.entries.contains r.pid || wexitstatus r.status == 0 }
  else none

def wait (allowRestart : Bool) : List Report → Processes → Option Processes
  | [], m => some m
  | r :: reports, m =>
    if m.forks.active = 0 then some m
    else (m.turn allowRestart r).bind (wait allowRestart reports)

/-- A call, or `none` where the system cannot answer so. -/
def step (m : Processes) : Event → Option Processes
  | .fork answer =>
    if m.running && m.canFork answer then
      some (m.forked (callsFork m.forks) answer (minutedFork answer m.forks).2)
    else none
  | .wait allowRestart reports => if m.running then m.wait allowRestart reports else none
  | .adopt pid =>
    if m.running && m.canFork (some pid) then some { m with stale := m.stale ++ [pid] } else none

/-- The run over a list of calls. -/
def run : Processes → List Event → Option Processes
  | m, [] => some m
  | m, e :: events => (m.step e).bind (run · events)

variable {m m' : Processes}

/-! ### The table sees what the code sees -/

theorem turn_eq_some {allowRestart : Bool} {r : Report} (h : m.turn allowRestart r = some m') :
    r.pid ∈ m.own ++ m.stale ∧ (m.buried r.pid).canFork r.fork ∧
      m' = { forked (replaces allowRestart r m.forks) r.fork
          (minutedReap r.pid r.status allowRestart r.fork m.forks).2 (m.buried r.pid) with
        running := m.forks.entries.contains r.pid || wexitstatus r.status == 0 } := by
  unfold turn at h
  split at h
  · rename_i hc
    rw [Bool.and_eq_true, Bool.and_eq_true, List.contains_iff_mem] at hc
    exact ⟨hc.1.2, hc.2, (Option.some.inj h).symm⟩
  · exact absurd h (by simp)

/-- The loop over the processes is the loop over the table. -/
theorem wait_forks {allowRestart : Bool} {reports : List Report}
    (h : m.wait allowRestart reports = some m') :
    m'.forks = minutedWait allowRestart reports m.forks := by
  induction reports generalizing m with
  | nil => rw [← Option.some.inj h]; rfl
  | cons r reports ih =>
    rw [wait] at h
    rw [minutedWait]
    by_cases hactive : m.forks.active = 0
    · rw [if_pos hactive] at h ⊢
      rw [← Option.some.inj h]
    · rw [if_neg hactive] at h ⊢
      obtain ⟨m₁, hturn, hrest⟩ := Option.bind_eq_some_iff.mp h
      obtain ⟨-, -, rfl⟩ := turn_eq_some hturn
      exact ih hrest

/-! ### The invariant -/

/-- The table in use holds the children forked into it, and is 0 behind them. -/
structure Kept (n : Nat) (m : Processes) : Prop where
  ok : m.forks.Ok
  npids : m.forks.npids = n
  perm : m.forks.entries.Perm m.own
  nodup : (m.own ++ m.stale).Nodup
  rest : ∀ i, m.forks.active ≤ i → i < n → m.forks.pids[i]? = some 0

variable {n : Nat} {answer : Option Pid}

theorem init_kept {stale : List Pid} (h : stale.Nodup) : Kept n (init n stale) where
  ok := MinutedForks.init_ok n
  npids := rfl
  perm := List.Perm.refl _
  nodup := h
  rest := by
    intro i _ hi
    apply List.getElem?_replicate_of_lt hi

theorem canFork_some {pid : Pid} (h : m.canFork (some pid)) : pid ∉ m.own ++ m.stale := by
  have hboth : 0 < pid ∧ pid ∉ m.own ++ m.stale := by simpa [canFork] using h
  exact hboth.2

theorem nodup_append_cons {own stale : List Pid} {pid : Pid} (h : (own ++ stale).Nodup)
    (hpid : pid ∉ own ++ stale) : ((own ++ [pid]) ++ stale).Nodup := by
  have hperm : ((own ++ [pid]) ++ stale).Perm (pid :: (own ++ stale)) := by
    rw [List.append_assoc]
    exact List.perm_middle
  apply hperm.nodup_iff.mpr
  exact List.nodup_cons.mpr ⟨hpid, h⟩

theorem Kept.fork (h : Kept n m) (hcan : m.canFork answer) :
    Kept n (m.forked (callsFork m.forks) answer (minutedFork answer m.forks).2) := by
  rcases h.ok.fork answer with ⟨hstay, hnone⟩ | ⟨pid, forks, rfl, heq, hok, hnpids, hactive, hentries⟩
  · -- either `fork` is not called, or it fails
    have hown : (if callsFork m.forks then m.own ++ answer.toList else m.own) = m.own := by
      rcases hnone with rfl | hfull
      · exact (ite_congr rfl (fun _ => List.append_nil _) fun _ => rfl).trans (ite_self _)
      · exact if_neg (by simpa [callsFork] using hfull)
    rw [hstay, forked, hown]
    exact h
  · have hcalls : callsFork m.forks = true := by
      have hle := hok.active_le
      exact decide_eq_true (by omega)
    rw [heq, forked, hcalls, if_pos rfl]
    refine ⟨hok, hnpids.trans h.npids, ?_, ?_, ?_⟩
    · show forks.entries.Perm (m.own ++ [pid])
      rw [hentries]
      exact h.perm.append_right [pid]
    · exact nodup_append_cons h.nodup (canFork_some hcan)
    · show ∀ i, forks.active ≤ i → i < n → forks.pids[i]? = some 0
      intro i hi hin
      have hpids : forks.pids = m.forks.pids.set m.forks.active pid := by
        unfold minutedFork at heq
        split at heq
        · simp at heq
        · simp only [Prod.mk.injEq, true_and] at heq
          rw [← heq]
      rw [hpids, List.getElem?_set_ne (by omega)]
      exact h.rest i (by omega) hin

theorem vacate_rest {forks : MinutedForks} {i : Nat} (hok : forks.Ok) (hi : i < forks.active)
    (h : ∀ j, forks.active ≤ j → j < forks.npids → forks.pids[j]? = some 0) :
    ∀ j, (forks.vacate i).active ≤ j → j < forks.npids → (forks.vacate i).pids[j]? = some 0 := by
  have hlen := hok.length
  intro j hj hjn
  simp only [MinutedForks.vacate] at hj ⊢
  rcases Nat.eq_or_lt_of_le hj with hlast | hlater
  · rw [← hlast, List.getElem?_set_self]
    rw [List.length_set]
    omega
  · rw [List.getElem?_set_ne (by omega), List.getElem?_set_ne (by omega)]
    apply h j _ hjn
    omega

theorem minutedReap_stale {forks : MinutedForks} {w : Pid} (hw : w ∉ forks.entries)
    (status : WaitStatus) (allowRestart : Bool) (answer : Option Pid) :
    minutedReap w status allowRestart answer forks = (-1, forks) := by
  unfold minutedReap
  rw [List.idxOf?_eq_none_iff.mpr hw]

/-- What one turn of the loop in `minuted_wait` keeps. -/
theorem Kept.turn {allowRestart : Bool} {r : Report} (h : Kept n m)
    (hturn : m.turn allowRestart r = some m') : Kept n m' := by
  obtain ⟨-, hcan, rfl⟩ := turn_eq_some hturn
  have hown : (m.own.erase r.pid ++ m.stale.erase r.pid).Nodup := by
    apply List.Nodup.sublist _ h.nodup
    exact List.erase_sublist.append List.erase_sublist
  by_cases hw : r.pid ∈ m.forks.entries
  · obtain ⟨i, hi, hidx, herase, heq⟩ := h.ok.reap_vacate hw r.status allowRestart r.fork
    obtain ⟨hok, hperm⟩ := h.ok.vacate hi
    rw [herase] at hperm
    have hrest := vacate_rest h.ok hi (h.npids.symm ▸ h.rest)
    -- the table without the child, before the replacement
    have hkept : Kept n { m.buried r.pid with forks := m.forks.vacate i } :=
      ⟨hok, h.npids, hperm.trans (h.perm.erase r.pid), hown, h.npids ▸ hrest⟩
    have hreplaces : replaces allowRestart r m.forks =
        (restarts allowRestart r.status && callsFork (m.forks.vacate i)) := by
      unfold replaces
      rw [hidx]
    rw [heq, hreplaces]
    by_cases hrestart : restarts allowRestart r.status
    · rw [if_pos hrestart, hrestart, Bool.true_and]
      obtain ⟨hok', hnpids', hperm', hnodup', hrest'⟩ := hkept.fork hcan
      exact ⟨hok', hnpids', hperm', hnodup', hrest'⟩
    · rw [if_neg hrestart, Bool.eq_false_iff.mpr hrestart, Bool.false_and]
      obtain ⟨hok', hnpids', hperm', hnodup', hrest'⟩ := hkept
      exact ⟨hok', hnpids', hperm', hnodup', hrest'⟩
  · have hreplaces : replaces allowRestart r m.forks = false := by
      unfold replaces
      rw [List.idxOf?_eq_none_iff.mpr hw]
    rw [minutedReap_stale hw, hreplaces]
    have hnot : r.pid ∉ m.own := fun hmem => hw (h.perm.mem_iff.mpr hmem)
    refine ⟨h.ok, h.npids, ?_, hown, h.rest⟩
    show m.forks.entries.Perm (m.own.erase r.pid)
    rw [List.erase_of_not_mem hnot]
    exact h.perm

theorem Kept.wait {allowRestart : Bool} {reports : List Report} (h : Kept n m)
    (hwait : m.wait allowRestart reports = some m') : Kept n m' := by
  induction reports generalizing m with
  | nil =>
    rw [← Option.some.inj hwait]
    exact h
  | cons r reports ih =>
    rw [Processes.wait] at hwait
    split at hwait
    · rw [← Option.some.inj hwait]
      exact h
    · obtain ⟨m₁, hturn, hrest⟩ := Option.bind_eq_some_iff.mp hwait
      exact ih (h.turn hturn) hrest

theorem Kept.step {e : Event} (h : Kept n m) (hstep : m.step e = some m') : Kept n m' := by
  cases e with
  | fork answer =>
    rw [Processes.step] at hstep
    split at hstep
    · rename_i hc
      rw [← Option.some.inj hstep]
      exact h.fork (Bool.and_eq_true_iff.mp hc).2
    · exact absurd hstep (by simp)
  | wait allowRestart reports =>
    rw [Processes.step] at hstep
    split at hstep
    · exact h.wait hstep
    · exact absurd hstep (by simp)
  | adopt pid =>
    rw [Processes.step] at hstep
    split at hstep
    · rename_i hc
      rw [← Option.some.inj hstep]
      refine ⟨h.ok, h.npids, h.perm, ?_, h.rest⟩
      show (m.own ++ (m.stale ++ [pid])).Nodup
      rw [← List.append_assoc]
      apply (List.perm_append_singleton pid _).nodup_iff.mpr
      exact List.nodup_cons.mpr ⟨canFork_some (Bool.and_eq_true_iff.mp hc).2, h.nodup⟩
    · exact absurd hstep (by simp)

theorem Kept.run {events : List Event} (h : Kept n m) (hrun : m.run events = some m') :
    Kept n m' := by
  induction events generalizing m with
  | nil =>
    rw [← Option.some.inj hrun]
    exact h
  | cons e events ih =>
    obtain ⟨m₁, hstep, hrest⟩ := Option.bind_eq_some_iff.mp hrun
    exact ih (h.step hstep) hrest

/-- **The process table.** -/
theorem table_holds_children (n : Nat) (stale : List Pid) (hstale : stale.Nodup)
    (events : List Event) (h : (init n stale).run events = some m) :
    m.forks.active ≤ m.forks.npids ∧ m.forks.npids = n ∧ m.forks.entries.length = m.forks.active ∧
      m.forks.entries.Nodup ∧ (∀ pid, pid ∈ m.forks.entries ↔ pid ∈ m.own) ∧
      ∀ i, m.forks.active ≤ i → i < m.forks.npids → m.forks.pids[i]? = some 0 := by
  have hkept := (init_kept (n := n) hstale).run h
  refine ⟨hkept.ok.active_le, hkept.npids, hkept.ok.length_entries, ?_,
    fun pid => hkept.perm.mem_iff, ?_⟩
  · apply hkept.perm.nodup_iff.mpr
    exact (List.nodup_append.mp hkept.nodup).1
  · rw [hkept.npids]
    exact hkept.rest

/-- Three children; the first is killed and replaced under its own pid, the second leaves, a child of
an earlier table is reported. -/
theorem table_holds_children_turnover :
    ∃ m, (init 3 [40]).run
        [.fork (some 7), .fork (some 8), .fork (some 9), .fork (some 10),
          .wait true [⟨7, .signaled 11, some 7⟩, ⟨40, .exited 0, none⟩, ⟨8, .exited 0, none⟩]] = some m ∧
      m.forks.pids = [9, 7, 0] ∧ m.own = [9, 7] ∧
      ∀ pid, pid ∈ m.forks.entries ↔ pid ∈ m.own := by
  refine ⟨_, rfl, by decide, by decide, ?_⟩
  apply (table_holds_children 3 [40] (by decide) _ _).2.2.2.2.1
  · exact [.fork (some 7), .fork (some 8), .fork (some 9), .fork (some 10),
      .wait true [⟨7, .signaled 11, some 7⟩, ⟨40, .exited 0, none⟩, ⟨8, .exited 0, none⟩]]
  · rfl

end Processes

end MinuteHttp
