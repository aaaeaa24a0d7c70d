import MinuteHttp.Minuted.Prefork
import Mathlib.Algebra.Order.Ring.Int

/-!
# What an action of the prefork server does

One lemma for the calls of a child (`next_child`), one for all other actions (`next_other`), and for
these what becomes of the children (`Other.befalls`), of the semaphore (`Other.sem`) and of the count
kept by the master (`Other.serving`). `next_forall` and `next_countP` are the two forms in which the
invariants use them: what every child keeps, and how a count of children changes.
-/

namespace MinuteHttp

open Population

/-- What a message adds to `serving`. -/
def MessageType.weight : MessageType → Int
  | .accepted => 1
  | .closed => -1

namespace Prefork

variable {s s' : Prefork} {a : Action}

theorem step_next : s.step a = .next s' ↔ s.next a = some s' := by
  unfold step
  cases s.next a <;> simp

theorem actAt_eq_some {i : Nat} {f : Child → Option Child} (h : s.actAt i f = some s') :
    ∃ children, act i f s.children = some children ∧ s' = { s with children := children } := by
  rw [actAt, Option.map_eq_some_iff] at h
  obtain ⟨children, hact, rfl⟩ := h
  exact ⟨children, hact, rfl⟩

/-- The control messages a call sends. -/
def sends (pid : Pid) : Call → List Message
  | .accepted => [⟨.accepted, pid⟩]
  | .closed => [⟨.closed, pid⟩]
  | _ => []

/-- A call of a child changes the semaphore and the queue, and only that child. -/
structure ChildCalls (i : Nat) (call : Call) (s s' : Prefork) (c : Child) : Prop where
  at_i : s.children[i]? = some c
  children : act i (Child.call call) s.children = some s'.children
  phase : s'.phase = s.phase
  forks : s'.forks = s.forks
  serving : s'.serving = s.serving
  queue : s'.queue = s.queue ++ sends c.pid call
  sem : s'.sem + (if call = .semWait .ok then 1 else 0) = s.sem + (if call = .semPost then 1 else 0)

theorem next_child {i : Nat} {call : Call} (h : s.next (.child i call) = some s') :
    ∃ c, ChildCalls i call s s' c := by
  simp only [next, Option.bind_eq_bind, Option.bind_eq_some_iff] at h
  obtain ⟨c, hc, s₁, hs₁, heff⟩ := h
  obtain ⟨children, hact, rfl⟩ := actAt_eq_some hs₁
  refine ⟨c, ?_⟩
  unfold effect at heff
  split at heff
  · split at heff
    · rename_i hpos
      simp only [Option.some.injEq] at heff
      subst heff
      have hsem : s.sem - 1 + 1 = s.sem := Nat.sub_add_cancel hpos
      exact ⟨hc, hact, rfl, rfl, rfl, by simp [sends], by simpa using hsem⟩
    · cases heff
  all_goals
    simp only [Option.some.injEq] at heff
    subst heff
    refine ⟨hc, hact, rfl, rfl, rfl, ?_, ?_⟩
  · simp [sends]
  · simp
  · simp [sends]
  · simp
  · simp [sends]
  · simp
  · rename_i h₁ h₂ h₃ h₄
    cases call <;> simp_all [sends]
  · rename_i h₁ h₂ h₃ h₄
    rw [if_neg h₁, if_neg h₂]

/-- What an action that is no call of a child does to the children there are. -/
inductive Befalls (a : Action) (before : List Child) : List Child → Prop where
  | none : Befalls a before before
  | sighup {i : Nat} {after : List Child} (h : act i Child.sighup before = some after) :
    Befalls a before after
  | crash {i sig : Nat} {after : List Child} (ha : a = .crash i sig)
    (h : act i (Child.crash sig) before = some after) : Befalls a before after
  | reap {i : Nat} {fork : Option Pid} {after : List Child} (ha : a = .waitpid i fork)
    (h : act i Child.reap before = some after) : Befalls a before after

theorem forked_children (r : Int × MinutedForks) (fork : Option Pid) (s : Prefork) :
    ∃ pids : List Pid, (s.forked r fork).children = s.children ++ pids.map Child.start := by
  by_cases hr : r.1 = 0
  · exact ⟨fork.toList, by simp [forked, hr]⟩
  · exact ⟨[], by simp [forked, hr]⟩

theorem kill_befalls (a : Action) (pid : Pid) {before : List Child} (h : s.children = before) :
    Befalls a before (s.kill pid).children := by
  subst h
  unfold kill
  split
  · rename_i i _
    cases hact : act i Child.sighup s.children with
    | none => exact .none
    | some children => exact .sighup hact
  · exact .none

/-- The actions that are no call of a child: signals, and the master's own. -/
inductive Other (s : Prefork) : Action → Prefork → Prop where
  | sighup {i : Nat} {children : List Child} (h : act i Child.sighup s.children = some children) :
    Other s (.sighup i) { s with children := children }
  | crash {i sig : Nat} {children : List Child} (h : act i (Child.crash sig) s.children = some children) :
    Other s (.crash i sig) { s with children := children }
  | launch {left : Nat} {fork : Option Pid} (hp : s.phase = .launching (left + 1))
    (hf : s.canFork fork = true) :
    Other s (.launch fork) ({ s with phase := .launching left }.forked (minutedFork fork s.forks) fork)
  | semPost (hp : s.phase = .launching 0) : Other s .semPost { s with phase := .waiting, sem := s.sem + 1 }
  | waitpid {i : Nat} {c : Child} {status : WaitStatus} {fork : Option Pid} {children : List Child}
    (hc : s.children[i]? = some c) (hst : c.state = .zombie status) (hp : s.phase = .waiting)
    (h : act i Child.reap s.children = some children)
    (hf : canFork fork { s with children := children } = true) :
    Other s (.waitpid i fork)
      ({ s with children := children }.forked (minutedReap c.pid status true fork s.forks) fork)
  | waitpidNone (hp : s.phase = .waiting) : Other s .waitpidNone { s with phase := .receiving }
  | receive {m : Message} {queue : List Message} {fork : Option Pid} (hp : s.phase = .receiving)
    (hq : s.queue = m :: queue) (hf : s.canFork fork = true) :
    Other s (.receive fork) ({ s with queue := queue, phase := .waiting }.control m fork)
  | receiveInterrupted (hp : s.phase = .receiving) :
    Other s .receiveInterrupted { s with phase := .waiting }

theorem next_other (h : s.next a = some s') (ha : ∀ i call, a ≠ .child i call) : Other s a s' := by
  cases a with
  | child i call => exact absurd rfl (ha i call)
  | sighup i =>
    obtain ⟨children, hact, rfl⟩ := actAt_eq_some h
    exact .sighup hact
  | crash i sig =>
    obtain ⟨children, hact, rfl⟩ := actAt_eq_some h
    exact .crash hact
  | launch fork =>
    simp only [next] at h
    split at h
    · rename_i left hp
      simp only [Option.ite_none_right_eq_some, Option.some.injEq] at h
      obtain ⟨hf, rfl⟩ := h
      exact .launch hp hf
    · cases h
  | semPost =>
    simp only [next, Option.ite_none_right_eq_some, Option.some.injEq] at h
    obtain ⟨hp, rfl⟩ := h
    exact .semPost hp
  | waitpid i fork =>
    simp only [next, Option.bind_eq_bind, Option.bind_eq_some_iff, Option.ite_none_right_eq_some] at h
    obtain ⟨c, hc, ⟨hp, -⟩, h⟩ := h
    unfold reap at h
    split at h
    · rename_i status hst
      simp only [Option.bind_eq_bind, Option.bind_eq_some_iff, Option.ite_none_right_eq_some,
        Option.some.injEq] at h
      obtain ⟨s₁, hs₁, hf, rfl⟩ := h
      obtain ⟨children, hact, rfl⟩ := actAt_eq_some hs₁
      exact .waitpid hc hst hp hact hf
    · cases h
  | waitpidNone =>
    simp only [next, Option.ite_none_right_eq_some, Option.some.injEq] at h
    obtain ⟨hp, rfl⟩ := h
    exact .waitpidNone hp
  | receive fork =>
    simp only [next] at h
    split at h
    · rename_i m queue hp hq
      simp only [Option.ite_none_right_eq_some, Option.some.injEq] at h
      obtain ⟨hf, rfl⟩ := h
      exact .receive hp hq hf
    · cases h
  | receiveInterrupted =>
    simp only [next, Option.ite_none_right_eq_some, Option.some.injEq] at h
    obtain ⟨hp, rfl⟩ := h
    exact .receiveInterrupted hp

/-- Of the children, an action that is no call disturbs one at most, and may add new ones. -/
theorem Other.befalls (h : Other s a s') :
    ∃ after pids, Befalls a s.children after ∧ s'.children = after ++ List.map Child.start pids := by
  cases h with
  | sighup h => exact ⟨_, [], .sighup h, (List.append_nil _).symm⟩
  | crash h => exact ⟨_, [], .crash rfl h, (List.append_nil _).symm⟩
  | launch =>
    obtain ⟨pids, hpids⟩ := forked_children _ _ _
    exact ⟨_, pids, .none, hpids⟩
  | waitpid hc hst hp h hf =>
    obtain ⟨pids, hpids⟩ := forked_children _ _ _
    exact ⟨_, pids, .reap rfl h, hpids⟩
  | receive hp hq hf =>
    unfold control
    split
    · dsimp only
      split
      · obtain ⟨pids, hpids⟩ := forked_children _ _ _
        exact ⟨_, pids, .none, hpids⟩
      · exact ⟨_, [], .none, (List.append_nil _).symm⟩
    · dsimp only
      split
      · refine ⟨_, [], ?_, (List.append_nil _).symm⟩
        exact kill_befalls _ _ rfl
      · exact ⟨_, [], .none, (List.append_nil _).symm⟩
  | semPost | waitpidNone | receiveInterrupted => exact ⟨_, [], .none, (List.append_nil _).symm⟩

theorem Befalls.forall {before after : List Child} (h : Befalls a before after) (I : Child → Prop)
    (hsighup : ∀ c c', Child.sighup c = some c' → I c → I c')
    (hcrash : ∀ i sig c c', a = .crash i sig → before[i]? = some c → Child.crash sig c = some c' →
      I c → I c')
    (hreap : ∀ c c', Child.reap c = some c' → I c → I c')
    (hI : ∀ c ∈ before, I c) : ∀ c ∈ after, I c := by
  cases h with
  | none => exact hI
  | sighup h => exact act_forall I h hI fun c c' _ => hsighup c c'
  | crash ha h => exact act_forall I h hI fun c c' hi => hcrash _ _ c c' ha hi
  | reap ha h => exact act_forall I h hI fun c c' _ => hreap c c'

/-- **Every child keeps what its own steps keep.** -/
theorem next_forall (I : Child → Prop) (h : s.next a = some s')
    (hstart : ∀ pid, I (Child.start pid))
    (hcall : ∀ i call c c', a = .child i call → s.children[i]? = some c → c.call call = some c' →
      I c → I c')
    (hsighup : ∀ c c', Child.sighup c = some c' → I c → I c')
    (hcrash : ∀ i sig c c', a = .crash i sig → s.children[i]? = some c → Child.crash sig c = some c' →
      I c → I c')
    (hreap : ∀ c c', Child.reap c = some c' → I c → I c')
    (hI : ∀ c ∈ s.children, I c) : ∀ c ∈ s'.children, I c := by
  by_cases ha : ∃ i call, a = .child i call
  · obtain ⟨i, call, rfl⟩ := ha
    obtain ⟨c, hc⟩ := next_child h
    exact act_forall I hc.children hI fun c c' hi => hcall i call c c' rfl hi
  · obtain ⟨after, pids, hb, hs'⟩ := (next_other h (by simpa using ha)).befalls
    have hafter := hb.forall I hsighup hcrash hreap hI
    intro c hc
    rw [hs', List.mem_append, List.mem_map] at hc
    obtain hc | ⟨pid, -, rfl⟩ := hc
    · exact hafter c hc
    · exact hstart pid

theorem Befalls.countP {before after : List Child} (h : Befalls a before after) (p : Child → Bool)
    (hsighup : ∀ c c', Child.sighup c = some c' → p c' = p c)
    (hcrash : ∀ i sig c c', a = .crash i sig → before[i]? = some c → Child.crash sig c = some c' →
      p c' = p c)
    (hreap : ∀ c c', Child.reap c = some c' → p c' = p c) : after.countP p = before.countP p := by
  cases h with
  | none => rfl
  | sighup h =>
    obtain ⟨c, c', -, hf, hn⟩ := act_countP p h
    rw [hsighup c c' hf] at hn
    exact Nat.add_right_cancel hn
  | crash ha h =>
    obtain ⟨c, c', hi, hf, hn⟩ := act_countP p h
    rw [hcrash _ _ c c' ha hi hf] at hn
    exact Nat.add_right_cancel hn
  | reap ha h =>
    obtain ⟨c, c', -, hf, hn⟩ := act_countP p h
    rw [hreap c c' hf] at hn
    exact Nat.add_right_cancel hn

/-- **A count of children changes with the calls of the children**, if signals and `waitpid` do not
change it and a new child is not counted. -/
theorem next_countP (p : Child → Bool) (h : s.next a = some s') (ha : ∀ i call, a ≠ .child i call)
    (hstart : ∀ pid, p (Child.start pid) = false)
    (hsighup : ∀ c c', Child.sighup c = some c' → p c' = p c)
    (hcrash : ∀ i sig c c', a = .crash i sig → s.children[i]? = some c → Child.crash sig c = some c' →
      p c' = p c)
    (hreap : ∀ c c', Child.reap c = some c' → p c' = p c) :
    s'.children.countP p = s.children.countP p := by
  obtain ⟨after, pids, hb, hs'⟩ := (next_other h ha).befalls
  have hnew : (pids.map Child.start).countP p = 0 := by
    rw [List.countP_eq_zero]
    intro c hc
    obtain ⟨pid, -, rfl⟩ := List.mem_map.mp hc
    simp [hstart pid]
  rw [hs', List.countP_append, hnew, hb.countP p hsighup hcrash hreap]
  rfl

/-! ## The semaphore, the phase and the count -/

@[simp] theorem forked_sem (r : Int × MinutedForks) (fork : Option Pid) :
    (s.forked r fork).sem = s.sem := rfl

@[simp] theorem forked_queue (r : Int × MinutedForks) (fork : Option Pid) :
    (s.forked r fork).queue = s.queue := rfl

@[simp] theorem forked_phase (r : Int × MinutedForks) (fork : Option Pid) :
    (s.forked r fork).phase = s.phase := rfl

@[simp] theorem forked_serving (r : Int × MinutedForks) (fork : Option Pid) :
    (s.forked r fork).serving = s.serving := rfl

@[simp] theorem forked_forks (r : Int × MinutedForks) (fork : Option Pid) :
    (s.forked r fork).forks = r.2 := rfl

theorem kill_eq (pid : Pid) (s : Prefork) : ∃ children, s.kill pid = { s with children := children } := by
  unfold kill
  split
  · exact ⟨_, rfl⟩
  · exact ⟨s.children, rfl⟩

@[simp] theorem kill_sem (pid : Pid) : (s.kill pid).sem = s.sem := by
  obtain ⟨children, h⟩ := kill_eq pid s
  rw [h]

@[simp] theorem kill_queue (pid : Pid) : (s.kill pid).queue = s.queue := by
  obtain ⟨children, h⟩ := kill_eq pid s
  rw [h]

@[simp] theorem kill_phase (pid : Pid) : (s.kill pid).phase = s.phase := by
  obtain ⟨children, h⟩ := kill_eq pid s
  rw [h]

@[simp] theorem kill_serving (pid : Pid) : (s.kill pid).serving = s.serving := by
  obtain ⟨children, h⟩ := kill_eq pid s
  rw [h]

@[simp] theorem kill_forks (pid : Pid) : (s.kill pid).forks = s.forks := by
  obtain ⟨children, h⟩ := kill_eq pid s
  rw [h]

/-- A control message changes `serving`, and nothing in the semaphore, the queue or the phase. -/
theorem control_spec (m : Message) (fork : Option Pid) (s : Prefork) :
    (s.control m fork).sem = s.sem ∧ (s.control m fork).queue = s.queue ∧
      (s.control m fork).phase = s.phase ∧
      (s.control m fork).serving = s.serving + m.type.weight := by
  unfold control
  cases m.type
  · dsimp only
    split <;> exact ⟨rfl, rfl, rfl, rfl⟩
  · dsimp only
    split <;> simp [MessageType.weight] <;> rfl

/-- The master has made its `sem_post`. -/
def posted (s : Prefork) : Bool :=
  match s.phase with
  | .launching _ => false
  | _ => true

theorem posted_congr {t : Prefork} (h : t.phase = s.phase) : t.posted = s.posted := by
  unfold posted
  rw [h]

/-- Apart from the calls of the children only the master's one `sem_post` changes the semaphore. -/
theorem Other.sem (h : Other s a s') :
    (s'.sem = s.sem ∧ s'.posted = s.posted) ∨
      (s'.sem = s.sem + 1 ∧ s.posted = false ∧ s'.posted = true) := by
  cases h with
  | sighup | crash | waitpid => exact .inl ⟨rfl, rfl⟩
  | launch hp => exact .inl ⟨rfl, by simp [posted, hp]⟩
  | semPost hp => exact .inr ⟨rfl, by simp [posted, hp], rfl⟩
  | waitpidNone hp => exact .inl ⟨rfl, by simp [posted, hp]⟩
  | @receive m queue fork hp =>
    obtain ⟨hsem, -, hphase, -⟩ := control_spec m fork { s with queue := queue, phase := .waiting }
    refine .inl ⟨hsem, ?_⟩
    rw [posted_congr hphase]
    simp [posted, hp]
  | receiveInterrupted hp => exact .inl ⟨rfl, by simp [posted, hp]⟩

/-- What the queue adds to `serving` once it has been read. -/
def pendingWeight (queue : List Message) : Int := (queue.map fun m => m.type.weight).sum

theorem Other.serving (h : Other s a s') :
    s'.serving + pendingWeight s'.queue = s.serving + pendingWeight s.queue := by
  cases h with
  | @receive m queue fork hp hq =>
    obtain ⟨-, hqueue, -, hserving⟩ := control_spec m fork { s with queue := queue, phase := .waiting }
    rw [hqueue, hserving, hq]
    simp only [pendingWeight, List.map_cons, List.sum_cons]
    omega
  | _ => rfl

end Prefork

end MinuteHttp
