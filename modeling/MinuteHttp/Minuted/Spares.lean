import MinuteHttp.Minuted.Serving

/-!
# Spare children

The master tests `active - serving` against `min_spares` when a connection is reported, and `active`
counts children that it has already told to exit. Without those, the spares are `active - serving` less
the signalled children, and they stay at `min_spares` or above as long as the master's test sees the
shortage that this count sees (`spares_kept`). Where a signalled child hides it, no child is forked and
nothing makes up for it when the signalled child is gone (`spares_lost`).
-/

namespace MinuteHttp

open Population Feed

/-- Not reaped yet. -/
def ChildState.present : ChildState → Bool
  | reaped => false
  | _ => true

/-- What the table depends on: whether the child is present, its pid, and whether it was signalled. -/
def Child.view (c : Child) : Bool × Pid × Bool := (c.state.present, c.pid, c.signaled)

/-- A child leaves with status 0 only when it was signalled. -/
structure Child.LeavesSignaled (c : Child) : Prop where
  flag : c.sighupFlag = true → c.signaled = true
  leaving : c.state = .leaving 0 → c.signaled = true
  exited : c.state = .zombie (.exited 0) → c.signaled = true
  uncrashed : ∀ sig, c.state ≠ .zombie (.signaled sig)

theorem present_of_running {st : ChildState} (h : st.running = true) : st.present = true := by
  cases st <;> first | rfl | cases h

theorem present_of_holding {st : ChildState} (h : st.holding = true) : st.present = true := by
  cases st <;> first | rfl | cases h

theorem scan_present (revents : List Bool) : (scan revents).present = true := by
  obtain h | ⟨later, h⟩ := scan_cases revents <;> rw [h] <;> rfl

theorem minutedServeProcessor_present {flag : Bool} {st st' : ChildState} {call : Call}
    (h : minutedServeProcessor flag st call = some st') : st.present = true ∧ st'.present = true := by
  unfold minutedServeProcessor at h
  split at h
  case h_1 => cases flag <;> cases h <;> exact ⟨rfl, rfl⟩
  case h_8 revents => cases h; exact ⟨rfl, scan_present _⟩
  case h_15 later => cases h; exact ⟨rfl, scan_present _⟩
  all_goals cases h <;> exact ⟨rfl, rfl⟩

theorem Child.call_view {c c' : Child} {call : Call} (h : c.call call = some c') : c'.view = c.view := by
  obtain ⟨state, hst, rfl⟩ := Child.call_eq_some h
  obtain ⟨hp, hp'⟩ := minutedServeProcessor_present hst
  simp only [Child.view, hp, hp']

/-- How a child comes to leave with status 0, and to be a zombie. -/
theorem minutedServeProcessor_leaves {flag : Bool} {st st' : ChildState} {call : Call}
    (h : minutedServeProcessor flag st call = some st') :
    (st' = .leaving 0 → flag = true) ∧ (st' = .zombie (.exited 0) → st = .leaving 0) ∧
      ∀ sig, st' ≠ .zombie (.signaled sig) := by
  unfold minutedServeProcessor at h
  split at h
  case h_1 => cases flag <;> cases h <;> simp
  case h_8 revents =>
    cases h
    obtain h | ⟨later, h⟩ := scan_cases revents <;> rw [h] <;> simp
  case h_15 later =>
    cases h
    obtain h | ⟨later, h⟩ := scan_cases later <;> rw [h] <;> simp
  case h_19 res => cases h; simp
  all_goals cases h <;> simp

theorem Child.LeavesSignaled.call {c c' : Child} {call : Call} (h : c.LeavesSignaled)
    (hc : c.call call = some c') : c'.LeavesSignaled := by
  obtain ⟨state, hst, rfl⟩ := Child.call_eq_some hc
  obtain ⟨hleaving, hexited, hcrash⟩ := minutedServeProcessor_leaves hst
  refine ⟨fun hf => ?_, fun hs => h.flag (hleaving hs), fun hs => h.leaving (hexited hs), hcrash⟩
  by_cases hexit : call = .exit
  · simp [hexit] at hf
  · exact h.flag (by simpa [hexit] using hf)

namespace Prefork

variable {s s' : Prefork} {a : Action}

/-- The children that are present and were told to exit. -/
def signaled (s : Prefork) : Nat := s.children.countP fun c => c.state.present && c.signaled

/-- The children in the table that serve no connection. -/
def spares (s : Prefork) : Nat :=
  s.children.countP fun c => c.state.present && s.forks.entries.contains c.pid && !c.state.holding

/-- With one connection more, the master's test sees what the count without the signalled children
sees; and a full table has no signalled child in it. -/
def seesShortage (s : Prefork) : Bool :=
  let left := (s.forks.active : Int) - (s.serving + 1)
  decide (left - s.signaled < minSpares →
    left < minSpares ∧ (s.forks.active < s.forks.npids ∨ s.signaled = 0))

/-- No child crashes or is signalled from outside, every `accept` and every `fork` that is made
succeeds, and each report of a connection is met with a test that sees the shortage. -/
def keepsSpares (s : Prefork) : Action → Bool
  | .child _ (.accept r) => r == .connection
  | .crash _ _ | .sighup _ => false
  | .launch fork => fork.isSome
  | .waitpid i fork =>
    match s.children[i]? with
    | some ⟨_, .zombie status, _, _, _, _⟩ => !restarts true status || fork.isSome
    | _ => true
  | .receive fork =>
    match s.queue with
    | ⟨.accepted, _⟩ :: _ => fork.isSome && s.seesShortage
    | _ => true
  | _ => true

/-! ## The table -/

/-- The pids of the children that are present. -/
def presentPids (views : List (Bool × Pid × Bool)) : List Pid := (views.filter (·.1)).map (·.2.1)

def signaledOf (views : List (Bool × Pid × Bool)) : Nat := views.countP fun v => v.1 && v.2.2

theorem signaled_eq (s : Prefork) : s.signaled = signaledOf (s.children.map Child.view) := by
  simp [signaled, signaledOf, List.countP_map, Function.comp_def, Child.view]

/-- The table lists the children that are present. -/
structure Tabled (s : Prefork) : Prop where
  ok : s.forks.Ok
  npids : s.forks.npids = maxForks
  entries : s.forks.entries.Perm (presentPids (s.children.map Child.view))

theorem Tabled.active_eq (h : s.Tabled) : s.forks.active = s.children.countP fun c => c.state.present := by
  rw [← h.ok.length_entries, h.entries.length_eq, presentPids, List.length_map, ← List.countP_eq_length_filter,
    List.countP_map]
  rfl

theorem Tabled.init : Prefork.init.Tabled :=
  ⟨MinutedForks.init_ok _, rfl, List.Perm.refl _⟩

theorem Tabled.forked (h : s.Tabled) (pid : Pid) :
    let s' := s.forked (minutedFork (some pid) s.forks) (some pid)
    s'.Tabled ∧ s'.signaled = s.signaled ∧
      ((s'.forks.active = s.forks.active ∧ s.forks.npids ≤ s.forks.active) ∨
        (s'.forks.active = s.forks.active + 1 ∧ s.forks.active < s.forks.npids)) := by
  obtain ⟨hf, hfull⟩ | ⟨pid', forks', hpid, hf, hok, hnpids, hactive, hentries⟩ := h.ok.fork (some pid)
  · have hfull : s.forks.npids ≤ s.forks.active := hfull.resolve_left (by simp)
    have hs' : s.forked (minutedFork (some pid) s.forks) (some pid) = s := by
      rw [hf]
      rfl
    intro s'
    show Tabled s' ∧ _
    rw [show s' = s from hs']
    exact ⟨h, rfl, .inl ⟨rfl, hfull⟩⟩
  · obtain rfl := Option.some.inj hpid
    have hlt : s.forks.active < s.forks.npids := by
      have := hok.active_le
      omega
    rw [hf]
    have hview : (s.children ++ [Child.start pid]).map Child.view =
        s.children.map Child.view ++ [(true, pid, false)] := by simp [Child.view, Child.start, ChildState.present]
    refine ⟨⟨hok, hnpids.trans h.npids, ?_⟩, ?_, .inr ⟨hactive, hlt⟩⟩
    · show forks'.entries.Perm (presentPids ((s.children ++ [Child.start pid]).map Child.view))
      rw [hentries, hview, presentPids, List.filter_append, List.map_append]
      exact h.entries.append_right _
    · rw [signaled_eq, signaled_eq]
      show signaledOf ((s.children ++ [Child.start pid]).map Child.view) = _
      rw [hview, signaledOf, List.countP_append]
      rfl

theorem Tabled.of_views {t : Prefork} (h : s.Tabled) (hf : t.forks = s.forks)
    (hv : t.children.map Child.view = s.children.map Child.view) : t.Tabled ∧ t.signaled = s.signaled := by
  refine ⟨⟨by rw [hf]; exact h.ok, by rw [hf]; exact h.npids, ?_⟩, ?_⟩
  · rw [hf, hv]
    exact h.entries
  · rw [signaled_eq, signaled_eq, hv]

theorem Tabled.kill (h : s.Tabled) (pid : Pid) :
    (s.kill pid).Tabled ∧ (s.kill pid).signaled ≤ s.signaled + 1 := by
  unfold Prefork.kill
  split
  · rename_i i _
    cases hact : act i Child.sighup s.children with
    | none => exact ⟨h, Nat.le_succ _⟩
    | some children =>
      obtain ⟨pre, c, c', post, hpre, rfl, hc, -⟩ := act_eq_some hact
      obtain ⟨hrun, rfl⟩ := Child.sighup_eq_some hc
      have hp := present_of_running hrun
      have hentries := h.entries
      rw [hpre] at hentries
      refine ⟨⟨h.ok, h.npids, ?_⟩, ?_⟩
      · simpa [presentPids, Child.view, hp] using hentries
      · simp only [signaled, hpre, Option.getD_some, List.countP_append, List.countP_cons, hp,
          Bool.true_and]
        cases c.signaled <;> simp
        omega
  · exact ⟨h, Nat.le_succ _⟩

theorem Tabled.reap (h : s.Tabled) {i : Nat} {c : Child} {children : List Child} (hc : s.children[i]? = some c)
    (hact : act i Child.reap s.children = some children) (status : WaitStatus) (fork : Option Pid) :
    ∃ forks, minutedReap c.pid status true fork s.forks =
        (if restarts true status then minutedFork fork forks else (-1, forks)) ∧
      Tabled { s with children := children, forks := forks } ∧ forks.active + 1 = s.forks.active ∧
      signaled { s with children := children, forks := forks } + c.signaled.toNat = s.signaled := by
  obtain ⟨pre, c₁, c', post, hpre, rfl, hreap, hi⟩ := act_eq_some hact
  obtain rfl : c₁ = c := Option.some.inj (hi.symm.trans hc)
  obtain ⟨⟨st, hst⟩, rfl⟩ := Child.reap_eq_some hreap
  have hp : c₁.state.present = true := by rw [hst]; rfl
  have hentries := h.entries
  have hpids : presentPids (s.children.map Child.view) =
      presentPids (pre.map Child.view) ++ c₁.pid :: presentPids (post.map Child.view) := by
    rw [hpre]
    simp [presentPids, Child.view, hp]
  have hmem : c₁.pid ∈ s.forks.entries := hentries.mem_iff.mpr (by rw [hpids]; simp)
  obtain ⟨forks, hok, hnpids, hactive, hperm, heq⟩ := h.ok.reap hmem status true fork
  refine ⟨forks, heq, ⟨hok, hnpids.trans h.npids, ?_⟩, hactive, ?_⟩
  · have hafter : presentPids ((pre ++ { c₁ with state := .reaped } :: post).map Child.view) =
        presentPids (pre.map Child.view) ++ presentPids (post.map Child.view) := by
      simp [presentPids, Child.view, ChildState.present]
    show forks.entries.Perm (presentPids ((pre ++ { c₁ with state := .reaped } :: post).map Child.view))
    rw [hafter]
    refine hperm.trans ?_
    rw [hpids] at hentries
    have hswap := hentries.trans List.perm_middle
    have herase := hswap.erase c₁.pid
    rwa [List.erase_cons_head] at herase
  · have hreaped : ChildState.reaped.present = false := rfl
    simp only [signaled, hpre, List.countP_append, List.countP_cons, hp, hreaped, Bool.true_and,
      Bool.false_and]
    cases c₁.signaled <;> simp
    omega

/-! ## The spares -/

/-- `active - serving`, less the children that were told to exit. -/
def left (s : Prefork) : Int := (s.forks.active : Int) - s.signaled - s.serving

/-- Enough spares are left, or the table is full of children that stay. -/
def Enough (s : Prefork) : Prop :=
  minSpares ≤ s.left ∨ (s.forks.npids ≤ s.forks.active ∧ s.signaled = 0)

/-- What every action keeps. -/
structure Spared (s : Prefork) : Prop where
  tabled : s.Tabled
  leaves : ∀ c ∈ s.children, c.LeavesSignaled
  launching : ∀ n, s.phase = .launching n → s.serving = 0 ∧ s.signaled = 0 ∧ s.forks.active + n = initForks
  spare : s.posted = true → s.Enough

theorem Spared.init : Prefork.init.Spared := by
  refine ⟨Tabled.init, (fun c hc => by cases hc), fun n hn => ?_, (fun hp => by cases hp)⟩
  obtain rfl : initForks = n := by injection hn
  exact ⟨rfl, rfl, rfl⟩

theorem leaves_start (pid : Pid) : (Child.start pid).LeavesSignaled :=
  ⟨(fun h => by cases h), (fun h => by cases h), (fun h => by cases h), (fun _ h => by cases h)⟩

theorem next_leaves (h : s.next a = some s') (hcrash : ∀ i sig, a ≠ .crash i sig)
    (hI : ∀ c ∈ s.children, c.LeavesSignaled) : ∀ c ∈ s'.children, c.LeavesSignaled := by
  refine next_forall Child.LeavesSignaled h leaves_start (fun i call c c' _ _ hc hI => hI.call hc)
    (fun c c' hc hI => ?_) (fun i sig c c' ha => absurd ha (hcrash i sig)) (fun c c' hc hI => ?_) hI
  · obtain ⟨-, rfl⟩ := Child.sighup_eq_some hc
    exact ⟨fun _ => rfl, fun _ => rfl, fun _ => rfl, hI.uncrashed⟩
  · obtain ⟨-, rfl⟩ := Child.reap_eq_some hc
    exact ⟨hI.flag, (fun h => by cases h), (fun h => by cases h), (fun _ h => by cases h)⟩

theorem control_accepted {m : Message} {fork : Option Pid} {t : Prefork} (hm : m.type = .accepted)
    (ht : t = { s with serving := s.serving + 1 }) :
    s.control m fork =
      if (t.forks.active : Int) - t.serving < minSpares then t.forked (minutedFork fork t.forks) fork
      else t := by
  subst ht
  unfold control
  rw [hm]

theorem control_closed {m : Message} {fork : Option Pid} {t : Prefork} (hm : m.type = .closed)
    (ht : t = { s with serving := s.serving - 1 }) :
    s.control m fork =
      if (t.forks.active : Int) - t.serving > maxSpares then t.kill m.pid else t := by
  subst ht
  unfold control
  rw [hm]

/-- The report of a connection: one spare less, and a fork if the master sees the shortage. -/
theorem Tabled.accepted (h : s.Tabled) (hspare : s.Enough) (pid : Pid) (hsees : s.seesShortage = true)
    {m : Message} (hm : m.type = .accepted) :
    (s.control m (some pid)).Tabled ∧ (s.control m (some pid)).Enough := by
  obtain ⟨t, ht⟩ : ∃ t : Prefork, t = { s with serving := s.serving + 1 } := ⟨_, rfl⟩
  have hforks : t.forks = s.forks := by rw [ht]
  have hserving : t.serving = s.serving + 1 := by rw [ht]
  obtain ⟨htab, hsig⟩ := h.of_views (t := t) hforks (by rw [ht])
  have hmin : minSpares = 3 := rfl
  simp only [seesShortage, decide_eq_true_eq, ← hserving, ← hforks, ← hsig] at hsees
  simp only [Enough, left] at hspare
  rw [control_accepted hm ht]
  split
  · obtain ⟨htab', hsig', hcase⟩ := htab.forked pid
    refine ⟨htab', ?_⟩
    have hnpids := htab'.npids.trans htab.npids.symm
    simp only [Enough, left, forked_serving, hsig', hnpids]
    rw [hserving] at hsees ⊢
    rw [hsig] at hsees ⊢
    rw [hforks] at hcase hsees ⊢
    omega
  · refine ⟨htab, ?_⟩
    simp only [Enough, left]
    rw [hserving, hsig, hforks] at *
    omega

/-- The report of a close: one spare more, and one child less that stays if there are too many. -/
theorem Tabled.closed (h : s.Tabled) (hspare : s.Enough) (fork : Option Pid) {m : Message}
    (hm : m.type = .closed) : (s.control m fork).Tabled ∧ (s.control m fork).Enough := by
  obtain ⟨t, ht⟩ : ∃ t : Prefork, t = { s with serving := s.serving - 1 } := ⟨_, rfl⟩
  have hforks : t.forks = s.forks := by rw [ht]
  have hserving : t.serving = s.serving - 1 := by rw [ht]
  obtain ⟨htab, hsig⟩ := h.of_views (t := t) hforks (by rw [ht])
  have hmin : minSpares = 3 := rfl
  have hmax : maxSpares = 6 := rfl
  simp only [Enough, left] at hspare
  rw [control_closed hm ht]
  split
  · rename_i hgt
    obtain ⟨htab', hsig'⟩ := htab.kill m.pid
    refine ⟨htab', ?_⟩
    simp only [Enough, left, kill_forks, kill_serving]
    rw [hserving, hforks] at *
    omega
  · refine ⟨htab, ?_⟩
    simp only [Enough, left]
    rw [hserving, hforks] at *
    omega

theorem Enough.congr {t : Prefork} (h : s.Enough) (hf : t.forks = s.forks)
    (hserving : t.serving = s.serving) (hsig : t.signaled = s.signaled) : t.Enough := by
  simp only [Enough, left] at h ⊢
  rwa [hf, hserving, hsig]

theorem seesShortage_congr {t : Prefork} (hf : t.forks = s.forks) (hserving : t.serving = s.serving)
    (hsig : t.signaled = s.signaled) : t.seesShortage = s.seesShortage := by
  unfold seesShortage
  rw [hf, hserving, hsig]

theorem posted_of_phase {s : Prefork} (h : s.phase = .waiting ∨ s.phase = .receiving) :
    s.posted = true ∧ ∀ n, s.phase ≠ .launching n := by
  rcases h with h | h <;> simp [posted, h]

theorem Spared.of_enough (htab : s.Tabled) (hleaves : ∀ c ∈ s.children, c.LeavesSignaled)
    (hp : s.phase = .waiting ∨ s.phase = .receiving) (h : s.Enough) : s.Spared :=
  ⟨htab, hleaves, fun n hn => absurd hn ((posted_of_phase hp).2 n), fun _ => h⟩

theorem Spared.reap (h : s.Spared) {i : Nat} {c : Child} {status : WaitStatus} {fork : Option Pid}
    {children : List Child} (hc : s.children[i]? = some c) (hst : c.state = .zombie status)
    (hp : s.phase = .waiting) (hact : act i Child.reap s.children = some children)
    (hok : restarts true status = true → fork.isSome = true) :
    let s' := { s with children := children }.forked (minutedReap c.pid status true fork s.forks) fork
    s'.Tabled ∧ s'.Enough := by
  intro s'
  have hspare := h.spare (posted_of_phase (.inl hp)).1
  obtain ⟨forks, heq, htab, hactive, hsig⟩ := h.tabled.reap hc hact status fork
  have hle := h.tabled.ok.active_le
  have hnpids := htab.npids.trans h.tabled.npids.symm
  have hc' := h.leaves c (List.mem_of_getElem? hc)
  obtain ⟨t, ht⟩ : ∃ t : Prefork, t = { s with children := children, forks := forks } := ⟨_, rfl⟩
  rw [← ht] at htab hsig
  have htf : t.forks = forks := by rw [ht]
  have hserving : t.serving = s.serving := by rw [ht]
  simp only [Enough, left] at hspare
  by_cases hr : restarts true status = true
  · obtain ⟨pid, rfl⟩ := Option.isSome_iff_exists.mp (hok hr)
    have hs' : s' = t.forked (minutedFork (some pid) t.forks) (some pid) := by
      show ({ s with children := children } : Prefork).forked _ _ = _
      rw [heq, if_pos hr, ht]
      rfl
    obtain ⟨htab', hsig', hcase⟩ := htab.forked pid
    have hnpids' := htab'.npids.trans h.tabled.npids.symm
    rw [hs']
    refine ⟨htab', ?_⟩
    simp only [Enough, left, forked_serving, hsig', hnpids', hserving]
    have hta : t.forks.active = forks.active := by rw [htf]
    have htn : t.forks.npids = s.forks.npids := by rw [htf]; exact hnpids
    omega
  · have hs' : s' = t := by
      show ({ s with children := children } : Prefork).forked _ _ = _
      rw [heq, if_neg hr, ht]
      simp [forked]
    have hsignaled : c.signaled = true := by
      cases status with
      | signaled sig => exact absurd hst (hc'.uncrashed sig)
      | exited code =>
        have hcode : code = 0 := by
          by_contra hne
          exact hr (by simp [restarts, hne])
        exact hc'.exited (by rw [hst, hcode])
    rw [hs']
    refine ⟨htab, ?_⟩
    rw [hsignaled] at hsig
    simp only [Bool.toNat_true] at hsig
    simp only [Enough, left, htf, hserving]
    simp only at hnpids
    omega

theorem Spared.next (h : s.Spared) (hs : s.next a = some s') (hok : s.keepsSpares a = true) :
    s'.Spared := by
  have hcrash : ∀ i sig, a ≠ .crash i sig := by
    rintro i sig rfl
    cases hok
  have hleaves := next_leaves hs hcrash h.leaves
  by_cases ha : ∃ i call, a = .child i call
  · obtain ⟨i, call, rfl⟩ := ha
    obtain ⟨c, hc⟩ := next_child hs
    obtain ⟨htab, hsig⟩ := h.tabled.of_views hc.forks
      (act_map Child.view hc.children fun c c' hcall => Child.call_view hcall)
    refine ⟨htab, hleaves, fun n hn => ?_, fun hp => ?_⟩
    · rw [hc.serving, hc.forks, hsig]
      exact h.launching n (hc.phase.symm.trans hn)
    · exact (h.spare (by rwa [posted_congr hc.phase] at hp)).congr hc.forks hc.serving hsig
  · have hother := next_other hs (by simpa using ha)
    have hinit : initForks = 6 := rfl
    cases hother with
    | sighup => cases hok
    | crash => cases hok
    | @launch n fork hp hf =>
      obtain ⟨pid, rfl⟩ := Option.isSome_iff_exists.mp hok
      obtain ⟨hserving, hsig, hactive⟩ := h.launching (n + 1) hp
      obtain ⟨t, ht⟩ : ∃ t : Prefork, t = { s with phase := .launching n } := ⟨_, rfl⟩
      obtain ⟨htab, htsig⟩ := h.tabled.of_views (t := t) (by rw [ht]) (by rw [ht])
      have htf : t.forks = s.forks := by rw [ht]
      obtain ⟨htab', hsig', hcase⟩ := htab.forked pid
      have hnpids : s.forks.npids = 32 := h.tabled.npids
      rw [← ht, ← htf] at hleaves ⊢
      refine ⟨htab', hleaves, fun k hk => ?_, fun hp' => ?_⟩
      · have hkn : n = k := by
          have : t.phase = .launching k := hk
          rw [ht] at this
          injection this
        have hta : t.forks.active = s.forks.active := by rw [htf]
        have htn : t.forks.npids = s.forks.npids := by rw [htf]
        refine ⟨?_, by omega, by omega⟩
        rw [forked_serving, ht]
        exact hserving
      · have : t.posted = true := hp'
        rw [ht] at this
        cases this
    | semPost hp =>
      obtain ⟨hserving, hsig, hactive⟩ := h.launching 0 hp
      obtain ⟨htab, htsig⟩ := h.tabled.of_views (t := { s with phase := .waiting, sem := s.sem + 1 }) rfl rfl
      refine Spared.of_enough htab hleaves (.inl rfl) (.inl ?_)
      have hmin : minSpares = 3 := rfl
      simp only [left, htsig]
      omega
    | @waitpid i c status fork children hc hst hp hact hf =>
      have hok' : restarts true status = true → fork.isSome = true := by
        intro hr
        obtain ⟨pid, state, _, _, _, _⟩ := c
        simp only at hst
        subst hst
        simpa [keepsSpares, hc, hr] using hok
      obtain ⟨htab, henough⟩ := h.reap hc hst hp hact hok'
      exact Spared.of_enough htab hleaves (.inl hp) henough
    | waitpidNone hp =>
      obtain ⟨htab, hsig⟩ := h.tabled.of_views (t := { s with phase := .receiving }) rfl rfl
      exact Spared.of_enough htab hleaves (.inr rfl)
        ((h.spare (posted_of_phase (.inl hp)).1).congr rfl rfl hsig)
    | receiveInterrupted hp =>
      obtain ⟨htab, hsig⟩ := h.tabled.of_views (t := { s with phase := .waiting }) rfl rfl
      exact Spared.of_enough htab hleaves (.inl rfl)
        ((h.spare (posted_of_phase (.inr hp)).1).congr rfl rfl hsig)
    | @receive m queue fork hp hq hf =>
      obtain ⟨t, ht⟩ : ∃ t : Prefork, t = { s with queue := queue, phase := .waiting } := ⟨_, rfl⟩
      have htf : t.forks = s.forks := by rw [ht]
      have hserving : t.serving = s.serving := by rw [ht]
      obtain ⟨htab, hsig⟩ := h.tabled.of_views (t := t) htf (by rw [ht])
      have hspare := (h.spare (posted_of_phase (.inr hp)).1).congr htf hserving hsig
      have hphase : (t.control m fork).phase = .waiting := by
        rw [(control_spec m fork t).2.2.1, ht]
      rw [← ht] at hleaves ⊢
      cases hm : m.type with
      | closed =>
        obtain ⟨htab', henough⟩ := htab.closed hspare fork hm
        exact Spared.of_enough htab' hleaves (.inl hphase) henough
      | accepted =>
        obtain ⟨type, pid⟩ := m
        simp only at hm
        subst hm
        simp only [keepsSpares, hq, Bool.and_eq_true] at hok
        obtain ⟨pid', rfl⟩ := Option.isSome_iff_exists.mp hok.1
        have hsees := (seesShortage_congr htf hserving hsig).trans hok.2
        obtain ⟨htab', henough⟩ := htab.accepted hspare pid' hsees (m := ⟨.accepted, pid⟩) rfl
        exact Spared.of_enough htab' hleaves (.inl hphase) henough

/-! ## Runs -/

theorem connects_of_keepsSpares (h : s.keepsSpares a = true) : s.connects a = true := by
  cases a with
  | child i call => cases call <;> first | rfl | exact h
  | crash i sig => cases h
  | _ => rfl

theorem Tabled.spares_add (h : s.Tabled) :
    s.spares + (s.children.countP fun c => c.state.holding) = s.forks.active := by
  have hspares : s.spares = s.children.countP fun c => c.state.present && !c.state.holding := by
    refine List.countP_congr fun c hc => ?_
    have hmem : c.state.present = true → c.pid ∈ s.forks.entries := fun hp => by
      rw [h.entries.mem_iff, presentPids, List.mem_map]
      refine ⟨c.view, List.mem_filter.mpr ⟨List.mem_map_of_mem hc, hp⟩, rfl⟩
    cases hp : c.state.present with
    | false => simp
    | true => simp [hmem hp]
  have hholding : (s.children.countP fun c => c.state.holding) =
      s.children.countP fun c => c.state.present && c.state.holding := by
    refine List.countP_congr fun c _ => ?_
    cases hh : c.state.holding with
    | false => simp
    | true => simp [present_of_holding hh]
  rw [hspares, hholding, h.active_eq,
    List.countP_eq_countP_filter_add s.children (fun c => c.state.present) (fun c => c.state.holding),
    List.countP_filter, List.countP_filter, Nat.add_comm]

/-- **There are enough spares in every run in which the master sees each shortage**: wherever the queue
is empty, all signalled children are reaped and the table is not full. -/
theorem spares_kept {actions : List Action} (hrun : feed step init actions = .next s)
    (hok : Along step (fun s a => s.keepsSpares a = true) init actions) (hp : s.posted = true)
    (hq : s.queue = []) (hreaped : ∀ c ∈ s.children, c.signaled = true → c.state = .reaped)
    (hlt : s.forks.active < s.forks.npids) : minSpares ≤ s.spares := by
  have h := feed_along (fun s => s.Spared ∧ s.Served) (fun _ => True) (fun s a hs ha => ?_)
    ⟨Spared.init, Served.init⟩ hok
  · rw [hrun] at h
    obtain ⟨hspared, hserved⟩ := h
    have hsum := hserved.sum
    rw [hq] at hsum
    have hsig : s.signaled = 0 := by
      refine List.countP_eq_zero.mpr fun c hc hs => ?_
      obtain ⟨hpres, hs⟩ := Bool.and_eq_true_iff.mp hs
      rw [hreaped c hc hs] at hpres
      cases hpres
    have hadd := hspared.tabled.spares_add
    have hspare := hspared.spare hp
    simp only [Enough, left, hsig] at hspare
    simp only [pendingWeight, List.map_nil, List.sum_nil] at hsum
    omega
  · cases hn : s.step a with
    | next s' =>
      exact ⟨hs.1.next (step_next.mp hn) ha, hs.2.next (step_next.mp hn) (connects_of_keepsSpares ha)⟩
    | halt r => trivial

/-- No crash and no signal from outside, and every `accept` and every `fork` succeeds. -/
def allSucceeds : Action → Bool
  | .child _ (.accept r) => r == .connection
  | .crash _ _ | .sighup _ => false
  | .launch fork | .waitpid _ fork | .receive fork => fork.isSome
  | _ => true

/-- The child at `i` is done with its connection, and the master reads its message. -/
def closes (i : Nat) : List Action :=
  [.child i .handle, .child i .close, .child i .closed, .waitpidNone, .receive (some 30)]

/-- Four connections come and go; the fourth child is told to exit, and does. -/
def burst : List Action :=
  launched ++ (List.range 4).flatMap (fun i => accepts i (some (7 + i))) ++ (List.range 4).flatMap closes

theorem spares_kept_burst :
    ∃ s, feed step init (burst ++ [.child 3 .test, .child 3 .exit, .waitpid 3 (some 30)]) = .next s ∧
      minSpares ≤ s.spares := by
  obtain ⟨s, hs, hp, hq, hreaped, hlt⟩ := Step.Holds.exists_next
    (P := fun s : Prefork => s.posted = true ∧ s.queue = [] ∧
      (∀ c ∈ s.children, c.signaled = true → c.state = .reaped) ∧ s.forks.active < s.forks.npids)
    (x := feed step init (burst ++ [.child 3 .test, .child 3 .exit, .waitpid 3 (some 30)]))
    (by decide +kernel)
  exact ⟨s, hs, spares_kept hs (by decide +kernel) hp hq hreaped hlt⟩

/-- Four more connections before the child exits: it still counts as a spare when the last of them is
reported. -/
theorem spares_lost :
    ∃ actions s, (∀ a ∈ actions, allSucceeds a = true) ∧ feed step init actions = .next s ∧
      s.posted = true ∧ s.queue = [] ∧ (∀ c ∈ s.children, c.signaled = true → c.state = .reaped) ∧
      s.forks.active < s.forks.npids ∧ ¬minSpares ≤ s.spares := by
  obtain ⟨s, hs, hP⟩ := Step.Holds.exists_next
    (P := fun s : Prefork => s.posted = true ∧ s.queue = [] ∧
      (∀ c ∈ s.children, c.signaled = true → c.state = .reaped) ∧ s.forks.active < s.forks.npids ∧
      ¬minSpares ≤ s.spares)
    (x := feed step init (burst ++ [0, 1, 2, 4].flatMap (fun i => accepts i (some (20 + i))) ++
      [.child 3 .test, .child 3 .exit, .waitpid 3 (some 30)])) (by decide +kernel)
  exact ⟨_, s, by decide +kernel, hs, hP⟩

end Prefork

end MinuteHttp
