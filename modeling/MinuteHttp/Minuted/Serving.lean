import MinuteHttp.Minuted.Semaphore

/-!
# The master's count of connections (`serving`)

`serving`, with what the queue will still add to it, is the number of children that have reported a
connection and not yet reported its close, as long as every `accept` gives a connection and no child is
killed between the two reports. It is the number of children that have a connection where none of them
is still on its way from `accept` to its report (`serving_counts`). But `minuted_accepted` is called
whether or not `accept` has given a connection, and nothing takes back the message of a failed one
(`serving_drifts`).
-/

namespace MinuteHttp

open Population Feed

/-- The child has a connection that it has reported, or is about to report its close. -/
def ChildState.holding : ChildState → Bool
  | handling | closing | closed => true
  | _ => false

/-- `accept` has given the child a connection, and it has not called `minuted_accepted` yet. -/
def ChildState.unreported : ChildState → Bool
  | accepted .connection _ | reporting .connection _ => true
  | _ => false

/-- The child has an accepted connection, or is about to report its close. -/
def ChildState.serves (st : ChildState) : Bool := st.unreported || st.holding

/-- Every `accept` so far that is still to be reported has given a connection. -/
def ChildState.connected : ChildState → Prop
  | accepted sock _ | reporting sock _ => sock = .connection
  | _ => True

theorem scan_connected (revents : List Bool) :
    (scan revents).connected ∧ (scan revents).holding = false := by
  obtain h | ⟨later, h⟩ := scan_cases revents <;> rw [h] <;> exact ⟨trivial, rfl⟩

/-- The messages of a call count what it does to the child's connection. -/
theorem minutedServeProcessor_holding {flag : Bool} {st st' : ChildState} {call : Call}
    (h : minutedServeProcessor flag st call = some st') (hs : st.connected)
    (hc : ∀ r, call = .accept r → r = .connection) (pid : Pid) :
    st'.connected ∧ (st'.holding.toNat : Int) =
      st.holding.toNat + Prefork.pendingWeight (Prefork.sends pid call) := by
  unfold minutedServeProcessor at h
  split at h
  case h_1 => cases flag <;> cases h <;> exact ⟨trivial, rfl⟩
  case h_8 revents =>
    cases h
    obtain ⟨hconn, hhold⟩ := scan_connected revents
    rw [hhold]
    exact ⟨hconn, rfl⟩
  case h_11 later sock =>
    cases h
    exact ⟨hc sock rfl, rfl⟩
  case h_12 sock later =>
    cases h
    exact ⟨hs, rfl⟩
  case h_14 => cases hs
  case h_15 => cases hs
  all_goals cases h <;> exact ⟨trivial, rfl⟩

theorem Child.call_holding {c c' : Child} {call : Call} (h : c.call call = some c')
    (hs : c.state.connected) (hc : ∀ r, call = .accept r → r = .connection) :
    c'.state.connected ∧ (c'.state.holding.toNat : Int) =
      c.state.holding.toNat + Prefork.pendingWeight (Prefork.sends c.pid call) := by
  obtain ⟨state, hst, rfl⟩ := Child.call_eq_some h
  exact minutedServeProcessor_holding hst hs hc c.pid

namespace Prefork

variable {s s' : Prefork} {a : Action}

/-- `serving` and the messages in the queue count the children that have a connection. -/
def ServingCounts (s : Prefork) : Prop :=
  s.serving + (s.queue.countP fun m => m.type == .accepted) -
      (s.queue.countP fun m => m.type == .closed) =
    s.children.countP fun c => c.state.serves

/-- Every `accept` gives a connection, and no child is killed between its two reports. -/
def connects (s : Prefork) : Action → Bool
  | .child _ (.accept r) => r == .connection
  | .crash i _ =>
    match s.children[i]? with
    | some c => !c.state.holding
    | none => true
  | _ => true

theorem pendingWeight_append (q₁ q₂ : List Message) :
    pendingWeight (q₁ ++ q₂) = pendingWeight q₁ + pendingWeight q₂ := by
  simp [pendingWeight]

theorem pendingWeight_eq (q : List Message) :
    pendingWeight q =
      (q.countP fun m => m.type == .accepted) - (q.countP fun m => m.type == .closed) := by
  induction q with
  | nil => rfl
  | cons m q ih =>
    have hcons : pendingWeight (m :: q) = m.type.weight + pendingWeight q := by simp [pendingWeight]
    rw [hcons, ih, List.countP_cons, List.countP_cons]
    cases m.type <;> simp [MessageType.weight] <;> omega

/-- The same, with the messages weighed instead of counted, and what every child knows of it. -/
structure Served (s : Prefork) : Prop where
  sum : s.serving + pendingWeight s.queue = s.children.countP fun c => c.state.holding
  connected : ∀ c ∈ s.children, c.state.connected

theorem Served.init : Prefork.init.Served := ⟨rfl, fun c hc => by cases hc⟩

theorem Served.next (h : s.Served) (hs : s.next a = some s') (hok : s.connects a = true) :
    s'.Served := by
  have hcrash : ∀ i sig c, a = .crash i sig → s.children[i]? = some c → c.state.holding = false := by
    rintro i sig c rfl hi
    simpa [connects, hi] using hok
  have haccept : ∀ i call r, a = .child i call → call = .accept r → r = .connection := by
    rintro i call r rfl rfl
    simpa [connects] using hok
  refine ⟨?_, ?_⟩
  · have hsum := h.sum
    by_cases ha : ∃ i call, a = .child i call
    · obtain ⟨i, call, rfl⟩ := ha
      obtain ⟨c, hc⟩ := next_child hs
      obtain ⟨c₁, c', hi, hcall, hcount⟩ := act_countP (fun c => c.state.holding) hc.children
      obtain rfl : c₁ = c := Option.some.inj (hi.symm.trans hc.at_i)
      have hconn := h.connected c₁ (List.mem_of_getElem? hi)
      have hhold := (Child.call_holding hcall hconn fun r => haccept i call r rfl).2
      rw [hc.serving, hc.queue, pendingWeight_append]
      omega
    · have ha : ∀ i call, a ≠ .child i call := by simpa using ha
      rw [(next_other hs ha).serving, next_countP (fun c => c.state.holding) hs ha (fun pid => rfl)
        (fun c c' hc => ?_) (fun i sig c c' ha hi hc => ?_) (fun c c' hc => ?_)]
      · exact hsum
      · obtain ⟨-, rfl⟩ := Child.sighup_eq_some hc
        rfl
      · simp only [Child.crash, Option.ite_none_right_eq_some, Option.some.injEq] at hc
        obtain ⟨-, rfl⟩ := hc
        exact (hcrash i sig c ha hi).symm
      · obtain ⟨⟨status, hst⟩, rfl⟩ := Child.reap_eq_some hc
        simp [hst, ChildState.holding]
  · refine next_forall (fun c => c.state.connected) hs (fun pid => trivial) ?_ (fun c c' hc h => ?_)
      (fun i sig c c' ha hi hc h => ?_) (fun c c' hc h => ?_) h.connected
    · intro i call c c' ha hi hc hI
      exact (Child.call_holding hc hI fun r => haccept i call r ha).1
    · obtain ⟨-, rfl⟩ := Child.sighup_eq_some hc
      exact h
    · simp only [Child.crash, Option.ite_none_right_eq_some, Option.some.injEq] at hc
      obtain ⟨-, rfl⟩ := hc
      trivial
    · obtain ⟨-, rfl⟩ := Child.reap_eq_some hc
      trivial

/-- A child that has a connection has reported it, or it has not. -/
theorem countP_serves (s : Prefork) :
    (s.children.countP fun c => c.state.serves) =
      (s.children.countP fun c => c.state.holding) + s.children.countP fun c => c.state.unreported := by
  induction s.children with
  | nil => rfl
  | cons c children ih =>
    have hone : c.state.serves.toNat = c.state.holding.toNat + c.state.unreported.toNat := by
      obtain ⟨pid, state, flag, signaled, waits, posts⟩ := c
      cases state with
      | accepted sock later => cases sock <;> rfl
      | reporting sock later => cases sock <;> rfl
      | _ => rfl
    simp only [List.countP_cons, ih]
    cases hs : c.state.serves <;> cases hh : c.state.holding <;> cases hu : c.state.unreported <;>
      simp [hs, hh, hu] at hone ⊢ <;> omega

/-- **The count is right, in every run in which every `accept` gives a connection and no child is killed
between its two reports, exactly where no child is between `accept` and the first of them.** -/
theorem serving_counts {actions : List Action} (hrun : feed step init actions = .next s)
    (hok : Along step (fun s a => s.connects a = true) init actions) :
    s.ServingCounts ↔ ∀ c ∈ s.children, c.state.unreported = false := by
  have h := feed_along (fun s => s.Served) (fun _ => True) (fun s a hs ha => ?_) Served.init hok
  · rw [hrun] at h
    have hsum := h.sum
    rw [pendingWeight_eq] at hsum
    have hcount := s.countP_serves
    have hnone : (∀ c ∈ s.children, c.state.unreported = false) ↔
        (s.children.countP fun c => c.state.unreported) = 0 := by
      simp [List.countP_eq_zero]
    rw [hnone]
    unfold ServingCounts
    omega
  · cases hn : s.step a with
    | next s' => exact hs.next (step_next.mp hn) ha
    | halt r => trivial

/-- Two children serve, and a third one has just been given a connection: it is one too few. -/
theorem serving_counts_accepts :
    ∃ s s', feed step init (launched ++ accepts 0 none ++ accepts 1 none) = .next s ∧ s.ServingCounts ∧
      feed step init (launched ++ accepts 0 none ++ accepts 1 none ++ [.child 2 .test,
        .child 2 (.semWait .ok), .child 2 (.poll (.ready [true])), .child 2 (.accept .connection)]) = .next s' ∧
      ¬s'.ServingCounts := by
  obtain ⟨s, hs, hnone⟩ := Step.Holds.exists_next
    (P := fun s : Prefork => ∀ c ∈ s.children, c.state.unreported = false)
    (x := feed step init (launched ++ accepts 0 none ++ accepts 1 none)) (by decide +kernel)
  obtain ⟨s', hs', hsome⟩ := Step.Holds.exists_next
    (P := fun s : Prefork => ¬∀ c ∈ s.children, c.state.unreported = false)
    (x := feed step init (launched ++ accepts 0 none ++ accepts 1 none ++ [.child 2 .test,
        .child 2 (.semWait .ok), .child 2 (.poll (.ready [true])), .child 2 (.accept .connection)]))
    (by decide +kernel)
  refine ⟨s, s', hs, (serving_counts hs (by decide +kernel)).mpr hnone, hs', fun hcounts => ?_⟩
  exact hsome ((serving_counts hs' (by decide +kernel)).mp hcounts)

/-- An `accept` that fails is reported as a connection, and the child goes on without one. -/
theorem serving_drifts :
    ∃ actions s, feed step init actions = .next s ∧ ¬s.ServingCounts := by
  obtain ⟨s, hs, hcount⟩ := Step.Holds.exists_next
    (P := fun s : Prefork => s.serving + (s.queue.countP fun m => m.type == .accepted) -
      (s.queue.countP fun m => m.type == .closed) = 1 ∧
        (s.children.countP fun c => c.state.serves) = 0)
    (x := feed step init (launched ++ [.child 0 .test, .child 0 (.semWait .ok),
      .child 0 (.poll (.ready [true])), .child 0 (.accept .again), .child 0 .semPost,
      .child 0 .accepted, .waitpidNone, .receive none])) (by decide +kernel)
  refine ⟨_, s, hs, fun h => ?_⟩
  unfold ServingCounts at h
  rw [hcount.1, hcount.2] at h
  cases h

end Prefork

end MinuteHttp
