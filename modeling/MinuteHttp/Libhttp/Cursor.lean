import MinuteHttp.Libhttp.Resume

/-!
# Where the trie cursor points

One cursor serves two tables. `CursorIn tree t` says that the accesses `walk_trie` makes with the
cursor `t` are inside `tree` (`walkTrie_isSome_iff`), and `CursorOk` ties the parser's states to the
table their cursor belongs to. Every pass keeps it but one: a continuation line goes back to the value
state of the last interpreted header (`h_cont`) with whatever cursor the lines between have left
(`FoldInside`). Where that cursor lies outside the table of the flag values, the next character of the
value reads outside it (`fold_outside_faults`).
-/

namespace MinuteHttp

open HttpRequestState Feed

/-! ## Cursors inside a table -/

/-- The cursor is outside the trie, or at most one past the letters of an entry that has some. -/
def CursorIn (tree : List Patricia) (t : Triestate) : Prop :=
  t.poff = 0 ∨ ∃ p w, tree[t.slot]? = some p ∧ p.letters = some w ∧ t.poff ≤ w.length

instance CursorIn.decidable (tree : List Patricia) (t : Triestate) : Decidable (CursorIn tree t) :=
  decidable_of_iff
    (t.poff = 0 ∨ ∃ w ∈ (tree[t.slot]?).bind Patricia.letters, t.poff ≤ w.length) <| by
    simp only [CursorIn, Option.mem_def, Option.bind_eq_some_iff]
    constructor
    · rintro (h | ⟨w, ⟨p, hp, hw⟩, hle⟩)
      · exact .inl h
      · exact .inr ⟨p, w, hp, hw, hle⟩
    · rintro (h | ⟨p, w, hp, hw, hle⟩)
      · exact .inl h
      · exact .inr ⟨w, ⟨p, hp, hw⟩, hle⟩

/-- Every block of children lies inside the table, for child indices up to `n`, and no edge is
empty. -/
def TableOk (n : Nat) (tree : List Patricia) : Prop :=
  ∀ p ∈ tree, p.offset + n < tree.length ∧ p.letters ≠ some []

theorem utility_ok : TableOk 26 utility := by unfold TableOk; decide +kernel

theorem headers_ok : TableOk 27 headers := by unfold TableOk; decide +kernel

theorem utilityTrieMap_le (c : Int) : utilityTrieMap c ≤ 26 := by
  unfold utilityTrieMap
  split
  · omega
  · split <;> omega

theorem headerTrieMap_le (c : Int) : headerTrieMap c ≤ 27 := by
  unfold headerTrieMap
  split
  · omega
  · split <;> omega

theorem charAt_eq_some {p : Patricia} {i : Nat} {x : Int} (h : p.charAt i = some x) :
    ∃ w, p.letters = some w ∧ i ≤ w.length ∧ (x ≠ 0 → i < w.length) := by
  unfold Patricia.charAt at h
  obtain ⟨w, hw, hx⟩ := Option.bind_eq_some_iff.mp h
  refine ⟨w, hw, ?_, fun h0 => ?_⟩
  · have := (List.getElem?_eq_some_iff.mp hx).1
    simp only [List.length_append, List.length_map, List.length_singleton] at this
    omega
  · by_contra hi
    have hlen : i = w.length := by
      have := (List.getElem?_eq_some_iff.mp hx).1
      simp only [List.length_append, List.length_map, List.length_singleton] at this
      omega
    rw [hlen, List.getElem?_append_right (by simp)] at hx
    simp only [List.length_map, Nat.sub_self, List.getElem?_cons_zero, Option.some.injEq] at hx
    exact h0 hx.symm

theorem charAt_of_le {p : Patricia} {w : List Char} {i : Nat} (hw : p.letters = some w)
    (hi : i ≤ w.length) : ∃ x, p.charAt i = some x := by
  unfold Patricia.charAt
  rw [hw]
  exact ⟨_, List.getElem?_eq_getElem (by simp; omega)⟩

theorem enterChild_inside {n : Nat} {tree : List Patricia} (ht : TableOk n tree) {c : Int} {o : Nat}
    {p : Patricia} {t : Triestate} (hp : p.offset + o < tree.length) (h : CursorIn tree t) :
    ∃ r t', enterChild c o tree p t = some (r, t') ∧ CursorIn tree t' := by
  have hq := List.getElem?_eq_getElem hp
  simp only [enterChild, hq, Option.bind_eq_bind, Option.bind_some]
  split
  · rename_i hc
    refine ⟨_, _, rfl, .inr ⟨tree[p.offset + o], ?_⟩⟩
    obtain ⟨w, hw, -, -⟩ := charAt_eq_some hc.1
    refine ⟨w, hq, hw, ?_⟩
    have hne : w ≠ [] := by
      rintro rfl
      exact (ht _ (List.getElem_mem hp)).2 hw
    exact List.length_pos_iff.mpr hne
  · exact ⟨_, _, rfl, h⟩

/-- **`walk_trie` accesses the table only inside exactly when the cursor is inside.** -/
theorem walkTrie_inside {n : Nat} {tree : List Patricia} (ht : TableOk n tree) {c : Int} {o : Nat}
    {i : Option Patricia} {t : Triestate} (ho : o ≤ n)
    (hi : t.poff = 0 → ∃ p, i = some p ∧ p.offset + o < tree.length) (h : CursorIn tree t) :
    ∃ r t', walkTrie c o tree i t = some (r, t') ∧ CursorIn tree t' := by
  unfold walkTrie
  by_cases h0 : t.poff = 0
  · obtain ⟨p, rfl, hp⟩ := hi h0
    rw [if_neg (by simpa using h0)]
    exact enterChild_inside ht hp h
  · rw [if_pos h0]
    obtain h' | ⟨p, w, hp, hw, hlen⟩ := h
    · exact absurd h' h0
    obtain ⟨x, hx⟩ := charAt_of_le hw hlen
    have hin : CursorIn tree t := .inr ⟨p, w, hp, hw, hlen⟩
    have hoff : p.offset + o < tree.length := by
      have := (ht p (List.mem_of_getElem? hp)).1
      omega
    simp only [hp, hx, Option.bind_eq_bind, Option.bind_some]
    split
    · exact ⟨_, _, rfl, hin⟩
    split
    · exact enterChild_inside ht hoff hin
    split
    · refine ⟨_, _, rfl, .inr ⟨p, w, hp, hw, ?_⟩⟩
      obtain ⟨w', hw', -, hlt⟩ := charAt_eq_some hx
      rw [hw] at hw'
      cases hw'
      exact hlt (by assumption)
    · exact ⟨_, _, rfl, hin⟩

theorem walkTrie_outside {tree : List Patricia} {c : Int} {o : Nat} {i : Option Patricia}
    {t : Triestate} (h : ¬CursorIn tree t) : walkTrie c o tree i t = none := by
  have h0 : t.poff ≠ 0 := fun h0 => h (.inl h0)
  cases hw : walkTrie c o tree i t with
  | none => rfl
  | some x =>
    exfalso
    unfold walkTrie at hw
    rw [if_pos h0] at hw
    simp only [Option.bind_eq_bind, Option.bind_eq_some_iff] at hw
    obtain ⟨p, hp, y, hy, -⟩ := hw
    obtain ⟨w, hw, hlen, -⟩ := charAt_eq_some hy
    exact h (.inr ⟨p, w, hp, hw, hlen⟩)

/-! ## The walks of the parser -/

theorem methodWalk_inside (c : Int) {t : Triestate} (h : CursorIn utility t) :
    ∃ r t', methodWalk c t = some (r, t') ∧ CursorIn utility t' := by
  have := utilityTrieMap_le c
  refine walkTrie_inside utility_ok this (fun _ => ⟨_, rfl, ?_⟩) h
  show 0 + utilityTrieMap c < 30
  omega

theorem protWalk_inside (c : Int) {t : Triestate} (h : CursorIn utility t) :
    ∃ r t', protWalk c t = some (r, t') ∧ CursorIn utility t' := by
  have := utilityTrieMap_le c
  refine walkTrie_inside utility_ok this (fun _ => ⟨_, rfl, ?_⟩) h
  show 1 + utilityTrieMap c < 30
  omega

theorem headerWalk_inside (c : Int) {t : Triestate} (h : CursorIn headers t) :
    ∃ r t', headerWalk c t = some (r, t') ∧ CursorIn headers t' := by
  have := headerTrieMap_le c
  refine walkTrie_inside headers_ok this (fun _ => ⟨_, rfl, ?_⟩) h
  show 0 + headerTrieMap c < 59
  omega

theorem flagWalk_inside (c : Int) {i : Option Patricia} {t : Triestate}
    (hi : t.poff = 0 → ∃ p, i = some p ∧ p.offset ≤ 3) (h : CursorIn utility t) :
    ∃ r t', flagWalk i c t = some (r, t') ∧ CursorIn utility t' := by
  have := utilityTrieMap_le c
  refine walkTrie_inside utility_ok this (fun h0 => ?_) h
  obtain ⟨p, hp, hle⟩ := hi h0
  refine ⟨p, hp, ?_⟩
  show p.offset + utilityTrieMap c < 30
  omega

/-! ## The table a state's cursor belongs to -/

def CursorOk (k : Frame) : Prop :=
  match k.s.st with
  | hMethod | hProt | hHeadConnection | hHeadExpect | hHeadTransferEncoding =>
    CursorIn utility k.tstate
  | hHeader => CursorIn headers k.tstate
  | hHeadFlag =>
    CursorIn utility k.tstate ∧ (k.tstate.poff = 0 → ∃ p, k.patinitialFlag = some p ∧ p.offset ≤ 3)
  | hValueLead => k.s.est.choosesFlag = true → CursorIn utility k.tstate
  | _ => True

/-- A continuation line that goes on with the value of an interpreted header finds the cursor in the
table of the flag values. -/
def FoldInside (k : Frame) : Prop :=
  k.s.st = hCont → k.s.collect = true → k.s.est.choosesFlag = true → CursorIn utility k.tstate

instance FoldInside.decidable (k : Frame) : Decidable (FoldInside k) := by
  unfold FoldInside
  infer_instance

theorem cursorOk_est {k : Frame} {x : HttpRequestState} (hx : x.isValue = true)
    (h : x.choosesFlag = true → CursorIn utility k.tstate) : CursorOk (k.shift x) := by
  cases x <;> simp_all [CursorOk, choosesFlag, isValue]

/-- **Every pass but a fold keeps the cursor in its state's table, and walks inside it.** -/
theorem switch_cursorOk (k : Frame) (c : Int) (hk : Routed k) (h : CursorOk k)
    (hfold : FoldInside k) :
    Pass.All (fun k' _ => CursorOk k' ∧ k'.s.st ≠ hCont) CursorOk (fun _ _ => True) False
      (switch k c) := by
  cases hst : k.s.st <;> simp only [switch, hst]
  case hEscaped2 =>
    -- `shift(s.est)`
    have hest : k.s.est = hPath ∨ k.s.est = hQuery := by
      rw [Routed, hst] at hk
      simp only [routed, Bool.and_eq_true, Bool.or_eq_true, beq_iff_eq] at hk
      exact hk.1
    rcases hest with hest | hest <;> simp [hEscaped2Case, CursorOk, hest]
  case hMethod =>
    rw [CursorOk, hst] at h
    obtain ⟨r, t, hw, hin⟩ := methodWalk_inside c h
    simp [hMethodCase, hw, CursorOk, hin, hst]
  case hProt =>
    rw [CursorOk, hst] at h
    obtain ⟨r, t, hw, hin⟩ := protWalk_inside c h
    simp [hProtCase, hw, CursorOk, hin, hst]
  case hHeader =>
    rw [CursorOk, hst] at h
    obtain ⟨r, t, hw, hin⟩ := headerWalk_inside (toLower c) h
    have h0 : CursorIn utility ⟨0, 0⟩ := .inl rfl
    simp [hHeaderCase, hHeaderMatched, hw, CursorOk, hin, hst, h0]
  case hHeadFlag =>
    rw [CursorOk, hst] at h
    obtain ⟨r, t, hw, hin⟩ := flagWalk_inside (toLower c) h.2 h.1
    simp only [hHeadFlagCase, all_onWalk, hw, Option.some.injEq, Prod.mk.injEq, all_ite, all_reset,
      all_brk]
    refine ⟨by simp, ?_⟩
    rintro r' t' ⟨rfl, rfl⟩
    refine ⟨fun _ => by simp [CursorOk], fun hr => ⟨fun _ => by simp [CursorOk], fun _ => ?_⟩⟩
    -- a walk that goes on is inside the trie
    simp only [CursorOk, hst]
    exact ⟨hin, fun h0 => absurd h0 (walkTrie_poff hw (by omega))⟩
  case hHeadConnection | hHeadExpect | hHeadTransferEncoding =>
    rw [CursorOk, hst] at h
    simp [hHeadConnectionCase, hHeadExpectCase, hHeadTransferEncodingCase, hHeadFlagInitial, CursorOk, h,
      patinitialConnection, patinitialExpect, patinitialTransfer]
  case hCont =>
    simp only [hContCase, all_ite, all_reset]
    exact ⟨fun hc => ⟨fun he => hfold hst hc he, by simp⟩, fun _ => ⟨trivial, by simp⟩⟩
  case hValueLead =>
    rw [CursorOk, hst] at h
    rw [Routed, hst] at hk
    simp only [hValueLeadCase, all_ite, all_reset, all_brk]
    refine ⟨fun _ => ⟨cursorOk_est hk h, ?_⟩, fun _ => by rw [CursorOk, hst]; exact h⟩
    intro he
    simp [routed, (show k.s.est = hCont from he), isValue] at hk
  all_goals
    dsimp only [hInitialCase, hMethodSpCase, hPathCase, hEscaped1Case, hQueryCase,
      hPathSpCase, hProtSlashCase, hProtHttpXCase, hProtHttpXDotCase, hProtHttpXXCase,
      hCrCase, hNlCase, hHeadContentLengthCase, hValueCase, hSkiplineCase, hErrorCase]
    simp [CursorOk, hst, CursorIn, choosesFlag]

/-! ## After the end of the head -/

/-- Once the newline counter says that the head is over, only line ends and skipped or collected text
are being read, or the bad request is being reported. -/
def Ended (k : Frame) : Prop :=
  1 < k.s.nl → k.s.st = hNl ∨ k.s.st = hCr ∨ k.s.st = hSkipline ∨ k.s.st = hValue ∨
    k.s.st = hErrorBadRequest ∨ (k.s.st = hValueLead ∧ k.s.est = hValue)

theorem switch_ended (k : Frame) (c : Int) (h : Ended k) :
    Pass.All (fun k' _ => Ended k') Ended (fun _ _ => True) True (switch k c) := by
  cases hst : k.s.st <;> simp only [switch, hst]
  case hValueLead =>
    simp only [hValueLeadCase, all_ite, all_reset, all_brk]
    refine ⟨fun _ hnl => ?_, fun _ => h⟩
    have := h hnl
    simp_all
  case hCont =>
    have hnl : k.s.nl ≤ 1 := by
      by_contra hnl
      have := h (by omega)
      simp_all
    simp only [hContCase, all_ite, all_reset]
    exact ⟨fun _ hnl' => absurd hnl' (show ¬1 < k.s.nl by omega),
      fun _ hnl' => absurd hnl' (show ¬1 < k.s.nl by omega)⟩
  case hEscaped2 =>
    have hnl : k.s.nl ≤ 1 := by
      by_contra hnl
      have := h (by omega)
      simp_all
    simp only [hEscaped2Case, all_ite, all_reset, all_putcOr, all_brk]
    exact ⟨fun _ hnl' => absurd hnl' (show ¬1 < k.s.nl by omega),
      fun _ => ⟨fun _ => trivial, fun _ _ hnl' => absurd hnl' (show ¬1 < k.s.nl by omega)⟩⟩
  all_goals
    simp only [Ended, hst] at h
    dsimp only [hInitialCase, hMethodCase, hMethodSpCase, hPathCase, hEscaped1Case,
      hQueryCase, hPathSpCase, hProtCase, hProtSlashCase, hProtHttpXCase, hProtHttpXDotCase,
      hProtHttpXXCase, hCrCase, hNlCase, hHeaderCase, hHeaderMatched, hHeadConnectionCase,
      hHeadExpectCase, hHeadTransferEncodingCase, hHeadFlagInitial, hHeadContentLengthCase,
      hHeadFlagCase, hValueCase, hSkiplineCase, hErrorCase]
    simp_all [Ended]

/-! ## Calls from `minute_http_init` on -/

/-- What a saved parser state keeps, as the frame of a call that starts from it. -/
structure Safe (k : Frame) : Prop where
  routed : Routed k
  inside : FlagInside k
  cursor : CursorOk k
  ended : Ended k

theorem switch_safe (k : Frame) (c : Int) (hk : Routed k) (h : CursorOk k) (he : Ended k)
    (hfold : FoldInside k) :
    Pass.All (fun k' _ => Routed k' ∧ CursorOk k' ∧ Ended k' ∧ FoldInside k') Safe (fun _ _ => True)
      False (switch k c) := by
  refine ((((switch_routed k c hk).and (switch_flagInside k c hk)).and
    (switch_cursorOk k c hk h hfold)).and (switch_ended k c he)).imp ?_ ?_ ?_ ?_
  · rintro k' c' ⟨⟨⟨h₁, -⟩, h₃⟩, h₄⟩
    exact ⟨h₁.1, h₃.1, h₄, fun hst => absurd hst h₃.2⟩
  · rintro k' ⟨⟨⟨h₁, h₂⟩, h₃⟩, h₄⟩
    exact ⟨h₁, h₂, h₃, h₄⟩
  · exact fun _ _ _ => trivial
  · rintro ⟨⟨-, hf⟩, -⟩
    exact hf

/-- No access was outside a table, and a head that ended left a state that can be gone on from. -/
def HaltSafe : Halt → Prop
  | .ok k => Safe k ∧ 1 < k.s.nl
  | .ret _ _ => True
  | .fault => False
  | .spin => False

theorem iterate_safe {k : Frame} (c : Int) (h : Safe k) (hfold : FoldInside k) :
    (iterate k c).Holds Safe HaltSafe := by
  have hi := iterate_inv (N := fun k' _ => Routed k' ∧ CursorOk k' ∧ Ended k' ∧ FoldInside k')
    (B := Safe) (R := fun _ _ => True) (F := False)
    (fun k₁ c₁ h₁ => switch_safe k₁ c₁ h₁.1 h₁.2.1 h₁.2.2.1 h₁.2.2.2) (c := c)
    ⟨h.routed, h.cursor, h.ended, hfold⟩
  have hadv : ∀ k₁, Safe k₁ → Safe k₁.advance := fun k₁ h₁ => ⟨h₁.1, h₁.2, h₁.3, h₁.4⟩
  have hspin := iterate_ne_spin (c := c) h.routed
  cases hs : iterate k c with
  | next k' =>
    rw [hs] at hi
    obtain ⟨k₁, h₁, -, rfl⟩ := hi
    exact hadv k₁ h₁
  | halt r =>
    rw [hs] at hi hspin
    cases r with
    | ok k' =>
      obtain ⟨k₁, h₁, hnl, rfl⟩ := hi
      exact ⟨hadv k₁ h₁, hnl⟩
    | ret n k' => trivial
    | fault => exact hi
    | spin => exact hspin rfl

/-- Every fold reached while reading `cs` is inside. -/
def FoldsInside (k : Frame) (cs : List Int) : Prop := Along iterate (fun k _ => FoldInside k) k cs

/-- The states that calls of `minute_http_read` lead to from `minute_http_init`: each call whose folds
are inside may be followed, whatever it returned, by a refill and another call. -/
inductive Called (hmask : Uint) :
    MinuteHttpRq → MinuteHttpRqs → Iobuf → Textint → Prop
  | init (rq : MinuteHttpRq) (io : Iobuf) (text : Textint) :
    Called hmask rq (minuteHttpInit hmask io text).1 io (minuteHttpInit hmask io text).2
  | call {rq rq' : MinuteHttpRq} {rqs rqs' : MinuteHttpRqs} {io io' : Iobuf} {text text' : Textint}
    {n : Nat} (f : Refill) (h : Called hmask rq rqs io text)
    (hfold : FoldsInside (startFrame rq rqs io text) (io.readable rqs.m))
    (hread : minuteHttpRead rq rqs io text = .code n rq' rqs' io' text') :
    Called hmask rq' rqs' (io'.refill f) text'

theorem feed_safe {k : Frame} {cs : List Int} (h : Safe k) (hfold : FoldsInside k cs) :
    (feed iterate k cs).Holds Safe fun r => HaltSafe r.1 :=
  feed_along Safe HaltSafe (fun _ c h₁ h₂ => iterate_safe c h₁ h₂) h hfold

/-- Where the head has ended no cursor is in use, so the saved one, which is older, does no harm. -/
theorem Safe.startFrame_ok {k : Frame} (h : Safe k) (hnl : 1 < k.s.nl) (rq : MinuteHttpRq)
    (io : Iobuf) (text : Textint) : Safe (startFrame rq k.s io text) := by
  refine ⟨h.routed, ?_, ?_, h.ended⟩
  · intro hst
    have hst : k.s.st = hHeadFlag := hst
    have := h.ended hnl
    simp_all
  · show CursorOk (startFrame rq k.s io text)
    rcases h.ended hnl with he | he | he | he | he | ⟨he, he'⟩ <;>
      simp [CursorOk, startFrame, he]
    simp [he', choosesFlag]

/-- A suspended call saves the cursor and leaves no flag value without one. -/
theorem Safe.startFrame_suspend {k : Frame} (h : Safe k) (rq : MinuteHttpRq) (io : Iobuf)
    (text : Textint) : Safe (startFrame rq { k.s with tries := k.tstate } io text) := by
  refine ⟨h.routed, h.inside, ?_, h.ended⟩
  have hc := h.cursor
  by_cases hst : k.s.st = hHeadFlag
  · simp only [CursorOk, hst] at hc
    simp only [CursorOk, startFrame, hst]
    exact ⟨hc.1, fun h0 => absurd h0 (h.inside hst)⟩
  · unfold CursorOk at hc ⊢
    cases hst' : k.s.st <;> simp_all [startFrame]

theorem called_safe {hmask : Uint} {rq : MinuteHttpRq} {rqs : MinuteHttpRqs} {io : Iobuf}
    {text : Textint} (h : Called hmask rq rqs io text) : Safe (startFrame rq rqs io text) := by
  induction h with
  | init rq io text =>
    refine ⟨rfl, ?_, trivial, ?_⟩
    · intro h
      simp [startFrame, minuteHttpInit, minuteHttpRqsInit] at h
    · intro h
      simp [startFrame, minuteHttpInit, minuteHttpRqsInit] at h
  | @call rq rq' rqs rqs' io io' text text' n f h hfold hread ih =>
    rw [minuteHttpRead_readable] at hread
    have hs := feed_safe ih hfold
    cases hf : feed iterate (startFrame rq rqs io text) (io.readable rqs.m) with
    | next k =>
      rw [hf] at hs hread
      simp only [outcome, suspend, ReadResult.code.injEq] at hread
      obtain ⟨-, -, rfl, -, -⟩ := hread
      exact hs.startFrame_suspend _ _ _
    | halt r =>
      obtain ⟨r, rest⟩ := r
      rw [hf] at hs hread
      cases r with
      | ok k =>
        simp only [outcome, finish, ReadResult.code.injEq] at hread
        obtain ⟨-, -, rfl, -, -⟩ := hread
        exact hs.1.startFrame_ok hs.2 _ _ _
      | ret m k =>
        -- an error leaves the saved state as the call found it
        simp only [outcome, finish, ReadResult.code.injEq] at hread
        obtain ⟨-, -, rfl, -, -⟩ := hread
        exact ⟨ih.1, ih.2, ih.3, ih.4⟩
      | fault => exact hs.elim
      | spin => exact hs.elim

/-- **No call makes an access outside a table**, in any sequence of calls whose folds are inside. -/
theorem walks_inside {hmask : Uint} {rq : MinuteHttpRq} {rqs : MinuteHttpRqs} {io : Iobuf}
    {text : Textint} (h : Called hmask rq rqs io text)
    (hfold : FoldsInside (startFrame rq rqs io text) (io.readable rqs.m)) :
    minuteHttpRead rq rqs io text ≠ .fault := by
  intro hread
  rw [minuteHttpRead_readable] at hread
  have hs := feed_safe (called_safe h) hfold
  cases hf : feed iterate (startFrame rq rqs io text) (io.readable rqs.m) with
  | next k => simp [hf, outcome, suspend] at hread
  | halt r =>
    obtain ⟨r, rest⟩ := r
    rw [hf] at hs hread
    cases r with
    | fault => exact hs
    | _ => simp [outcome, finish] at hread

/-! ## A fold that is not inside -/

/-- A flag value is about to be read with a cursor outside its table. -/
structure Astray (k : Frame) : Prop where
  folding : (k.s.st = hCont ∧ k.s.collect = true) ∨ k.s.st = hValueLead
  flag : k.s.est.choosesFlag = true
  outside : ¬CursorIn utility k.tstate
  nl : k.s.nl ≤ 1

theorem hHeadFlag_astray {k : Frame} (c : Int) (h : ¬CursorIn utility k.tstate) :
    hHeadFlagCase k c = .halt .fault := by
  rw [hHeadFlagCase, onWalk, flagWalk, walkTrie_outside h]

theorem choosesFlag_astray {k : Frame} (c : Int) (hst : k.s.st.choosesFlag = true)
    (h : ¬CursorIn utility k.tstate) (n : Nat) :
    drive (fun x : Frame × Int => switch x.1 x.2) (n + 2) (k, c) = some .fault := by
  have hflag : ∀ p, hHeadFlagCase { k.shift hHeadFlag with patinitialFlag := some p } c =
      .halt .fault := fun p => hHeadFlag_astray c h
  cases hs : k.s.st <;> rw [hs] at hst <;> simp only [choosesFlag, Bool.false_eq_true] at hst
  all_goals
    simp only [drive, switch, hs, hHeadConnectionCase, hHeadExpectCase, hHeadTransferEncodingCase,
      hHeadFlagInitial, reset]
    simp only [Frame.shift] at hflag ⊢
    rw [hflag]

/-- From `h_value_lead` or a collecting fold: blanks are passed over, and on anything else the trie
walk leaves the table. -/
theorem iterate_astray {k : Frame} (c : Int) (h : Astray k) :
    if c = 32 ∨ c = 9 then ∃ k', iterate k c = .next k' ∧ Astray k'
    else iterate k c = .halt .fault := by
  have hlead : ∀ (k : Frame) (n : Nat), k.s.st = hValueLead → k.s.est.choosesFlag = true →
      ¬CursorIn utility k.tstate →
      drive (fun x : Frame × Int => switch x.1 x.2) (n + 3) (k, c) =
        some (if c = 32 ∨ c = 9 then .brk k else .fault) := by
    intro k n hst hflag hout
    rw [drive]
    simp only [switch, hst, hValueLeadCase]
    by_cases hc : c = 32 ∨ c = 9
    · rw [if_neg (by omega), if_pos hc]
      rfl
    · rw [if_pos (by omega), if_neg hc]
      exact choosesFlag_astray (k := k.mark.shift k.s.est) c hflag hout n
  have hd : ∃ k₁, drive (fun x : Frame × Int => switch x.1 x.2) passLimit (k, c) =
      some (if c = 32 ∨ c = 9 then .brk k₁ else .fault) ∧ Astray k₁ := by
    rcases h.folding with ⟨hst, hcol⟩ | hst
    · refine ⟨{ k with text := minuteTextintReplacec (-1) 32 k.text }.shift hValueLead, ?_,
        .inr rfl, h.flag, h.outside, h.nl⟩
      rw [show passLimit = 4 + 3 + 1 from rfl, drive]
      simp only [switch, hst, hContCase, hcol, if_true, reset]
      exact hlead _ 4 rfl h.flag h.outside
    · exact ⟨k, hlead k 5 hst h.flag h.outside, h⟩
  obtain ⟨k₁, hd, h₁⟩ := hd
  rw [iterate, hd]
  by_cases hc : c = 32 ∨ c = 9
  · rw [if_pos hc, if_pos hc]
    refine ⟨k₁.advance, ?_, h₁.1, h₁.2, h₁.3, h₁.4⟩
    have := h₁.nl
    rw [finishTurn, if_neg (by omega)]
  · rw [if_neg hc, if_neg hc]
    rfl

/-- **A fold that is not inside reads outside the table** at the first character of its value. -/
theorem fold_outside_faults {k : Frame} (h : Astray k) {bs : List Int} {x : Int}
    (hbs : ∀ b ∈ bs, b = 32 ∨ b = 9) (hx : ¬(x = 32 ∨ x = 9)) (rest : List Int) :
    feed iterate k (bs ++ x :: rest) = .halt (.fault, rest) := by
  induction bs generalizing k with
  | nil =>
    have := iterate_astray x h
    rw [if_neg hx] at this
    exact feed_cons_halt rest this
  | cons b bs ih =>
    have := iterate_astray b h
    rw [if_pos (hbs b (by simp))] at this
    obtain ⟨k', hs, h'⟩ := this
    rw [List.cons_append, feed_cons_next _ hs]
    exact ih h' fun b' hb' => hbs b' (by simp [hb'])

/-- A call at whose folds the cursor is inside: the folded value goes on with that of `Connection`. -/
theorem walks_inside_folded :
    let io := Iobuf.holding 4096 (bytes "GET / HTTP/1.1\nHost: a\nConnection: x\n close\n\n")
    let init := minuteHttpInit minuteAllHeaders io (minuteTextintInit 64 fun _ => 0)
    minuteHttpRead .zero init.1 io init.2 ≠ .fault := by
  intro io init
  refine walks_inside (Called.init .zero io (minuteTextintInit 64 fun _ => 0)) ?_
  unfold FoldsInside
  decide +kernel

/-- Did the call end in an access outside a table? -/
def ReadResult.faulted : ReadResult → Bool
  | .fault => true
  | _ => false

/-- An unknown header between an interpreted one and a continuation line leaves the cursor in the
other table: slot 49 of a table of 30. -/
theorem walks_outside_unknown :
    ∃ (hmask : Uint) (io : Iobuf) (text : Textint),
      minuteHttpRead .zero (minuteHttpInit hmask io text).1 io (minuteHttpInit hmask io text).2 =
        .fault := by
  refine ⟨minuteAllHeaders, Iobuf.holding 4096
    (bytes "GET / HTTP/1.1\nHost: a\nConnection: close\nUser-Agenx: y\n close\n\n"),
    minuteTextintInit 64 fun _ => 0, ?_⟩
  have hf : ∀ r : ReadResult, r.faulted = true → r = .fault := by
    intro r hr
    cases r <;> first | rfl | cases hr
  exact hf _ (by decide +kernel)

end MinuteHttp
