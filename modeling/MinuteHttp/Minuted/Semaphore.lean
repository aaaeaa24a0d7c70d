import MinuteHttp.Minuted.Steps

/-!
# The accept semaphore

The semaphore passes one token around: its value and the children that have taken the token and not
given it back make one, once the master has put it there. The code keeps that as long as no `poll` is
interrupted, `poll` never counts a descriptor that is not readable, and no `accept` fails with a
descriptor still to come (`semaphore_conserved`); the first of these is what `SIGHUP` does to a child in
`poll`, and then the token is gone (`semaphore_lost`).
-/

namespace MinuteHttp

open Population Feed

/-- The child's `sem_wait` has returned, and it has not posted since. -/
def Child.owes (c : Child) : Bool := c.state.running && decide (c.posts < c.waits)

namespace ChildState

/-- After the loop. -/
def left : ChildState → Bool
  | leaving _ | zombie _ | reaped => true
  | _ => false

/-- Between `sem_wait` and `sem_post`. -/
def inSection : ChildState → Bool
  | polling | pollFailed | pollTimeout | accepting _ | accepted _ _ => true
  | _ => false

/-- An `accept` that has failed for good was the last one of its scan. -/
def scanOver : ChildState → Prop
  | accepted .failed later | reporting .failed later => true ∉ later
  | _ => True

theorem running_of_inSection {st : ChildState} (h : st.inSection = true) : st.running = true := by
  cases st <;> first | rfl | cases h

theorem not_inSection_of_left {st : ChildState} (h : st.left = true) : st.inSection = false := by
  cases st <;> first | rfl | cases h

end ChildState

theorem scan_none {later : List Bool} (h : true ∉ later) : scan later = .top := by
  induction later with
  | nil => rfl
  | cons b later ih =>
    cases b with
    | true => simp at h
    | false => exact ih (by simpa using h)

theorem scan_some {revents : List Bool} (h : true ∈ revents) :
    ∃ later, scan revents = .accepting later := by
  induction revents with
  | nil => cases h
  | cons b revents ih =>
    cases b with
    | true => exact ⟨revents, rfl⟩
    | false => exact ih (by simpa using h)

theorem scan_cases (revents : List Bool) : scan revents = .top ∨ ∃ later, scan revents = .accepting later := by
  by_cases h : true ∈ revents
  · exact .inr (scan_some h)
  · exact .inl (scan_none h)

/-- The calls after which the child still posts once for its wait. -/
def ChildState.posting (st : ChildState) : Call → Bool
  | .poll .interrupted => false
  | .poll (.ready revents) => revents.contains true
  | .accept .failed =>
    match st with
    | accepting later => !later.contains true
    | _ => true
  | _ => true

/-- A child that has posted once for each wait, but for the one whose section it is in. -/
structure Child.Posts (c : Child) : Prop where
  waits : c.waits = c.posts + c.state.inSection.toNat
  scanOver : c.state.scanOver

theorem Child.Posts.owes {c : Child} (h : c.Posts) : c.owes = c.state.inSection := by
  have hw := h.waits
  unfold Child.owes
  cases hin : c.state.inSection with
  | true =>
    rw [hin] at hw
    rw [ChildState.running_of_inSection hin, Bool.true_and, decide_eq_true_eq, hw]
    exact Nat.lt_succ_self _
  | false =>
    rw [hin] at hw
    have hlt : ¬c.posts < c.waits := by rw [hw]; exact Nat.lt_irrefl _
    rw [decide_eq_false hlt, Bool.and_false]

theorem Child.call_eq_some {c c' : Child} {call : Call} (h : c.call call = some c') :
    ∃ state, minutedServeProcessor c.sighupFlag c.state call = some state ∧
      c' = { c with
        state := state
        waits := if call = .semWait .ok then c.waits + 1 else c.waits
        posts := if call = .semPost then c.posts + 1 else c.posts
        sighupFlag := if call = .exit then false else c.sighupFlag } := by
  rw [Child.call, Option.map_eq_some_iff] at h
  obtain ⟨state, hst, rfl⟩ := h
  exact ⟨state, hst, rfl⟩

/-- The section begins with the `sem_wait` and ends with the `sem_post`. -/
theorem minutedServeProcessor_section {flag : Bool} {st st' : ChildState} {call : Call}
    (h : minutedServeProcessor flag st call = some st') (hs : st.scanOver)
    (hp : st.posting call = true) :
    st'.scanOver ∧ st'.inSection.toNat + (if call = .semPost then 1 else 0) =
      st.inSection.toNat + (if call = .semWait .ok then 1 else 0) := by
  unfold minutedServeProcessor at h
  split at h
  case h_1 => cases flag <;> cases h <;> exact ⟨trivial, rfl⟩
  case h_8 revents =>
    obtain ⟨later, hscan⟩ := scan_some (List.contains_iff_mem.mp hp)
    cases h
    rw [hscan]
    exact ⟨trivial, rfl⟩
  case h_11 later sock =>
    cases h
    cases sock with
    | failed =>
      have hlater : true ∉ later := by simpa [ChildState.posting] using hp
      exact ⟨hlater, rfl⟩
    | _ => exact ⟨trivial, rfl⟩
  case h_12 sock later =>
    cases h
    cases sock with
    | failed => exact ⟨hs, rfl⟩
    | _ => exact ⟨trivial, rfl⟩
  case h_15 later =>
    cases h
    rw [scan_none hs]
    exact ⟨trivial, rfl⟩
  all_goals cases h <;> first | exact ⟨trivial, rfl⟩ | cases hp

theorem Child.Posts.call {c c' : Child} {call : Call} (h : c.Posts) (hp : c.state.posting call = true)
    (hc : c.call call = some c') : c'.Posts := by
  obtain ⟨state, hst, rfl⟩ := Child.call_eq_some hc
  obtain ⟨hs, hin⟩ := minutedServeProcessor_section hst h.scanOver hp
  have hw := h.waits
  refine ⟨?_, hs⟩
  show (if call = .semWait .ok then c.waits + 1 else c.waits) =
    (if call = .semPost then c.posts + 1 else c.posts) + state.inSection.toNat
  split_ifs at hin ⊢ <;> omega

theorem Child.Posts.owes_call {c c' : Child} {call : Call} (h : c.Posts)
    (hp : c.state.posting call = true) (hc : c.call call = some c') :
    c'.owes.toNat + (if call = .semPost then 1 else 0) =
      c.owes.toNat + (if call = .semWait .ok then 1 else 0) := by
  have h' := h.call hp hc
  rw [h.owes, h'.owes]
  obtain ⟨state, hst, rfl⟩ := Child.call_eq_some hc
  exact (minutedServeProcessor_section hst h.scanOver hp).2

theorem Child.sighup_eq_some {c c' : Child} (h : c.sighup = some c') :
    c.state.running = true ∧ c' = { c with sighupFlag := true, signaled := true } := by
  simp only [Child.sighup, Option.ite_none_right_eq_some, Option.some.injEq] at h
  exact ⟨h.1, h.2.symm⟩

theorem Child.reap_eq_some {c c' : Child} (h : c.reap = some c') :
    (∃ status, c.state = .zombie status) ∧ c' = { c with state := .reaped } := by
  unfold Child.reap at h
  split at h
  · rename_i status hst
    cases h
    exact ⟨⟨status, hst⟩, rfl⟩
  · cases h

theorem Child.Posts.sighup {c c' : Child} (h : c.Posts) (hc : c.sighup = some c') : c'.Posts := by
  obtain ⟨-, rfl⟩ := Child.sighup_eq_some hc
  exact ⟨h.waits, h.scanOver⟩

theorem Child.Posts.reap {c c' : Child} (h : c.Posts) (hc : c.reap = some c') : c'.Posts := by
  obtain ⟨⟨status, hst⟩, rfl⟩ := Child.reap_eq_some hc
  have hw := h.waits
  rw [hst] at hw
  exact ⟨hw, trivial⟩

/-! ## The server -/

namespace Prefork

variable {s s' : Prefork} {a : Action}

/-- One token, in the semaphore or with a child, once the master has posted it; and every child posts
once for each wait, before it leaves its loop. -/
structure SemConserved (s : Prefork) : Prop where
  sum : s.sem + s.children.countP Child.owes = if s.posted then 1 else 0
  once : ∀ c ∈ s.children, c.posts ≤ c.waits ∧ c.waits ≤ c.posts + 1
  left : ∀ c ∈ s.children, c.state.left = true → c.posts = c.waits

/-- No child crashes, no `poll` is interrupted, a positive `poll` has a readable descriptor, and no
`accept` fails for good while a later descriptor is ready. -/
def postsOnce (s : Prefork) : Action → Bool
  | .child i call =>
    match s.children[i]? with
    | some c => c.state.posting call
    | none => true
  | .crash _ _ => false
  | _ => true

/-- What an action keeps: the token, and what every child knows of it. -/
structure Token (s : Prefork) : Prop where
  sum : s.sem + s.children.countP Child.owes = if s.posted then 1 else 0
  posts : ∀ c ∈ s.children, c.Posts

theorem Token.init : Prefork.init.Token := ⟨rfl, fun c hc => by cases hc⟩

theorem Token.next (h : s.Token) (hs : s.next a = some s') (hok : s.postsOnce a = true) : s'.Token := by
  have hnocrash : ∀ i sig, a ≠ .crash i sig := by
    rintro i sig rfl
    cases hok
  have hposts : ∀ c ∈ s'.children, c.Posts := by
    refine next_forall Child.Posts hs (fun pid => ⟨rfl, trivial⟩) ?_ (fun c c' hc h => h.sighup hc) ?_
      (fun c c' hc h => h.reap hc) h.posts
    · intro i call c c' ha hi hc hI
      subst ha
      simp only [postsOnce, hi] at hok
      exact hI.call hok hc
    · intro i sig c c' ha
      exact absurd ha (hnocrash i sig)
  refine ⟨?_, hposts⟩
  have hsum := h.sum
  by_cases ha : ∃ i call, a = .child i call
  · obtain ⟨i, call, rfl⟩ := ha
    obtain ⟨c, hc⟩ := next_child hs
    obtain ⟨c₁, c', hi, hcall, hcount⟩ := act_countP Child.owes hc.children
    have hmem : c₁ ∈ s.children := List.mem_of_getElem? hi
    simp only [postsOnce, hi] at hok
    have howes := (h.posts c₁ hmem).owes_call hok hcall
    have hsem := hc.sem
    rw [posted_congr hc.phase]
    omega
  · have ha : ∀ i call, a ≠ .child i call := by simpa using ha
    have hcount := next_countP Child.owes hs ha (fun pid => rfl) (fun c c' hc => ?_)
      (fun i sig c c' ha => absurd ha (hnocrash i sig)) (fun c c' hc => ?_)
    · obtain ⟨hsem, hp⟩ | ⟨hsem, hp, hp'⟩ := (next_other hs ha).sem
      · rw [hcount, hsem, hp]
        exact hsum
      · rw [hp] at hsum
        rw [hcount, hsem, hp']
        simp only [Bool.false_eq_true, if_false] at hsum
        simp only [if_true]
        omega
    · obtain ⟨-, rfl⟩ := Child.sighup_eq_some hc
      rfl
    · obtain ⟨⟨status, hst⟩, rfl⟩ := Child.reap_eq_some hc
      simp [Child.owes, hst, ChildState.running]

theorem Token.conserved (h : s.Token) : s.SemConserved := by
  refine ⟨h.sum, fun c hc => ?_, fun c hc hl => ?_⟩
  · have hw := (h.posts c hc).waits
    cases hin : c.state.inSection <;> rw [hin] at hw <;> simp only [Bool.toNat_true, Bool.toNat_false] at hw <;>
      omega
  · have hw := (h.posts c hc).waits
    rw [ChildState.not_inSection_of_left hl] at hw
    exact hw.symm

/-- **The token is conserved in every run in which every wait is answered by one post.** -/
theorem semaphore_conserved {actions : List Action} (hrun : feed step init actions = .next s)
    (hok : Along step (fun s a => s.postsOnce a = true) init actions) : s.SemConserved := by
  have h := feed_along (fun s => s.Token) (fun _ => True) (fun s a hs ha => ?_) Token.init hok
  · rw [hrun] at h
    exact Token.conserved h
  · cases hn : s.step a with
    | next s' => exact hs.next (step_next.mp hn) ha
    | halt r => trivial

/-- The master forks its first children and posts. -/
def launched : List Action :=
  (List.range initForks).map (fun i => .launch (some (i + 1))) ++ [.semPost]

/-- The child at `i` accepts a connection, and the master reads its message. -/
def accepts (i : Nat) (fork : Option Pid) : List Action :=
  [.child i .test, .child i (.semWait .ok), .child i (.poll (.ready [false, true])),
    .child i (.accept .connection), .child i .semPost, .child i .accepted, .waitpidNone, .receive fork]

theorem semaphore_conserved_accepts :
    ∃ s, feed step init (launched ++ accepts 0 none ++ accepts 1 none) = .next s ∧ s.SemConserved := by
  obtain ⟨s, hs, -⟩ := Step.Holds.exists_next (P := fun _ => True)
    (x := feed step init (launched ++ accepts 0 none ++ accepts 1 none)) (by decide +kernel)
  exact ⟨s, hs, semaphore_conserved hs (by decide +kernel)⟩

/-- A `SIGHUP` while the child is in `poll`: it leaves with the token. -/
theorem semaphore_lost :
    ∃ actions s, (∀ a ∈ actions, a.isCrash = false) ∧ feed step init actions = .next s ∧
      s.posted = true ∧ ¬s.SemConserved := by
  obtain ⟨s, hs, hp, hsum⟩ := Step.Holds.exists_next
    (P := fun s : Prefork => s.posted = true ∧ s.sem + s.children.countP Child.owes = 0)
    (x := feed step init (launched ++ [.child 0 .test, .child 0 (.semWait .ok), .sighup 0,
      .child 0 (.poll .interrupted), .child 0 .test, .child 0 .exit])) (by decide +kernel)
  refine ⟨_, s, by decide +kernel, hs, hp, fun h => ?_⟩
  have := h.sum
  rw [hsum, hp] at this
  cases this

end Prefork

end MinuteHttp
