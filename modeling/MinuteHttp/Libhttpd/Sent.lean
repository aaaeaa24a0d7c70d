import MinuteHttp.Libhttpd.Frames
import MinuteHttp.Libhttpd.Descriptors

/-!
# What has been sent stays sent

Whatever a computation does, it only adds to the bytes that `outfd` has accepted, and it adds nothing
once the descriptor is closed (`Outfd.Grows`). An invariant that cannot be broken in these ways (`Stable`)
is kept by every function that answers a request.
-/

namespace MinuteHttp

open Effect

structure Outfd.Grows (fd fd' : Outfd) : Prop where
  sent : fd.sent <+: fd'.sent
  closed : fd.isOpen = false → fd'.isOpen = false ∧ fd'.sent = fd.sent

theorem Outfd.Grows.refl (fd : Outfd) : fd.Grows fd := ⟨List.prefix_refl _, fun h => ⟨h, rfl⟩⟩

theorem Outfd.grows_write (fd : Outfd) (bs : List Byte) : fd.Grows (fd.write bs).2 := by
  obtain ⟨cuts, hw⟩ | ⟨hopen, n, cuts, -, hw⟩ := fd.write_cases bs
  · rw [hw]
    exact ⟨List.prefix_refl _, fun h => ⟨h, rfl⟩⟩
  · rw [hw]
    refine ⟨List.prefix_append _ _, fun h => ?_⟩
    rw [hopen] at h
    cases h

theorem Outfd.Grows.close {fd fd' : Outfd} (h : fd.Grows fd') : fd.Grows fd'.close :=
  ⟨h.sent, fun hc => ⟨rfl, (h.closed hc).2⟩⟩

/-- `I` looks at the descriptor only, and no `write` or `close` breaks it. -/
def Stable (I : HttpdResponse → Prop) : Prop := ∀ s s', s.state.outfd.Grows s'.state.outfd → I s → I s'

section

variable {I : HttpdResponse → Prop} (hI : Stable I)
include hI

theorem Stable.same {s s' : HttpdResponse} (h : s'.state.outfd = s.state.outfd) (hs : I s) : I s' :=
  hI s s' (h ▸ Outfd.Grows.refl _) hs

theorem Stable.modify {f : HttpdResponse → HttpdResponse} (h : ∀ s, (f s).state.outfd = s.state.outfd) :
    Keeps I (modify f : Httpd PUnit) := keeps_modify fun s hs => hI.same (h s) hs

theorem Stable.reads {α : Type} {m : Httpd α} (h : Leaves HttpdResponse.writing m) : Keeps I m :=
  fun s hs => (h s).imp fun _ _ hs' => hI.same (congrArg (fun x => x.2.1) hs') hs

theorem writeOutfd_stable (failed : Int → Bool) (bs : List Byte) : Keeps I (writeOutfd failed bs) := by
  refine keeps_modify fun s hs => hI s _ ?_ hs
  have hgrows := s.state.outfd.grows_write bs
  dsimp only
  split
  · exact hgrows.close
  · exact hgrows

theorem chunkLoop_stable (turns : Nat) (buf : List Byte) (chunked : Bool) :
    Keeps I (chunkLoop turns buf chunked) := by
  induction turns generalizing buf chunked with
  | zero => exact keeps_throw _
  | succ turns ih =>
    intro s hs
    simp only [chunkLoop, meets_bind, meets_get]
    split
    · exact (meets_pure _).mpr hs
    · rw [meets_bind, meets_orStop]
      refine ⟨fun _ => trivial, fun size _ => ?_⟩
      have hgrows := s.state.outfd.grows_write (size ++ (minuteIobufGather s.state.output).1 ++
        (minuteIobufGather s.state.output).2 ++ buf ++ if chunked then crlf else [])
      revert hgrows
      generalize s.state.outfd.write _ = w
      intro hgrows
      split
      · split
        · exact (meets_set_pure _ _).mpr (hI s _ hgrows hs)
        · rw [meets_bind, meets_set]
          split
          · refine (ih _ _ _ (hI s _ hgrows hs)).bind fun rr s' hs' => ?_
            split
            · exact (meets_pure _).mpr hs'
            · exact (meets_pure _).mpr hs'
          · exact (meets_pure _).mpr (hI s _ hgrows hs)
      · exact (meets_set_pure _ _).mpr (hI s _ hgrows.close hs)

theorem minuteHttpdChunk_stable (buf : List Byte) (chunked : Bool) : Keeps I (minuteHttpdChunk buf chunked) :=
  keeps_get.bind fun _ => chunkLoop_stable hI _ _ _

theorem minuteHttpdFlush_stable : Keeps I minuteHttpdFlush :=
  keeps_get.bind fun _ => (minuteHttpdChunk_stable hI _ _).bind fun _ => keeps_pure _

theorem minuteHttpdOutput_stable (append : List Byte) (chunked : Bool) :
    Keeps I (minuteHttpdOutput append chunked) := by
  intro s hs
  simp only [minuteHttpdOutput, meets_bind, meets_get]
  split
  · exact (minuteHttpdChunk_stable hI _ _).bind (fun _ => keeps_pure _) s hs
  · rw [meets_bind, meets_orStop]
    exact ⟨fun _ => trivial, fun _ _ => (meets_set _).mpr (hI.same (s := s) rfl hs)⟩

theorem Stable.headers : KeptByHeaders I :=
  keptByHeaders_of_output (fun _ _ => hI.modify fun _ => rfl) (fun append => minuteHttpdOutput_stable hI append false)
    fun count => hI.reads (minuteHttpdInRead_writing true count)

theorem minuteHttpdStandardBody_stable (status : Int) : Keeps I (minuteHttpdStandardBody status) := by
  intro s hs
  simp only [minuteHttpdStandardBody, meets_bind, meets_get, meets_orStop]
  exact ⟨fun _ => trivial, fun _ _ => (meets_set _).mpr (hI.same (s := s) rfl hs)⟩

theorem minuteHttpdChunkEnd_stable : Keeps I minuteHttpdChunkEnd :=
  keeps_get.bind fun _ => keeps_onlyIf fun _ => writeOutfd_stable hI _ _

theorem outCall_stable (c : OutCall) : Keeps I c.serve := by
  refine Keeps.bind (hI.modify fun _ => rfl) fun _ => ?_
  cases c with
  | write buf => exact keeps_get.bind fun _ => minuteHttpdOutput_stable hI _ _
  | flush => exact minuteHttpdFlush_stable hI

theorem responseCall_stable (c : ResponseCall) : Keeps I c.serve := by
  cases c with
  | out call => exact outCall_stable hI call
  | read count => exact hI.reads (minuteHttpdInRead_writing true count)

theorem endHeaders_stable : Keeps I endHeaders := (minuteHttpdChunk_stable hI _ _).bind fun _ => keeps_pure _

variable {υ : Type} (app : MinuteHttpdApp υ) (user : υ)

theorem handleBody_stable (status : Int) : Keeps I (handleBody app status user) := by
  refine keeps_get.bind fun resp => ?_
  by_cases h : hasBody resp.rq status
  · rw [if_pos h]
    refine (Prog.run_keeps (responseCall_stable hI) _).bind fun x => ?_
    obtain ⟨response, user'⟩ := x
    refine keeps_get.bind fun resp => ?_
    exact (keeps_onlyIf fun _ => minuteHttpdStandardBody_stable hI _).bind fun _ => keeps_pure _
  · rw [if_neg h]
    exact keeps_pure _

theorem handleFinish_stable : Keeps I handleFinish :=
  (minuteHttpdFlush_stable hI).bind fun _ => (minuteHttpdChunkEnd_stable hI).bind fun _ =>
    (hI.reads minuteHttpdInDiscard_writing).bind fun _ => keeps_get.bind fun _ => keeps_pure _

end

/-! ## The first write -/

/-- **A block without a size line**: what holds behind its first write, unless a later one breaks it. -/
theorem chunkLoop_first {I : HttpdResponse → Prop} (hI : Stable I) {s : HttpdResponse} {buf : List Byte}
    (hring : s.state.output.Valid) (hle : s.state.output.read.toNat ≤ s.state.output.write.toNat)
    (hfirst : ∀ s', (s'.state.outfd = (s.state.outfd.write (s.state.output.contents ++ buf)).2.close ∨
      0 < (s.state.outfd.write (s.state.output.contents ++ buf)).1 ∧
        s'.state.outfd = (s.state.outfd.write (s.state.output.contents ++ buf)).2) → I s') (turns : Nat) :
    Meets (fun _ => True) (fun _ s' => I s' ∨
      (s' = s ∧ minuteIobufUsed s.state.output + BitVec.ofNat 32 buf.length = 0)) (chunkLoop (turns + 1) buf false) s := by
  have hgather := minuteIobufGather_eq hring hle
  have haccepted := s.state.outfd.write_cases (s.state.output.contents ++ buf)
  simp only [chunkLoop, meets_bind, meets_get]
  split
  · rename_i hzero
    exact (meets_pure _).mpr (.inr ⟨rfl, hzero⟩)
  · rw [meets_bind, meets_orStop]
    refine ⟨fun _ => trivial, fun size hsize => ?_⟩
    cases hsize
    rw [List.nil_append, hgather, if_neg Bool.false_ne_true, List.append_nil]
    revert hfirst haccepted
    generalize s.state.outfd.write _ = x
    obtain ⟨accepted, fd⟩ := x
    intro hfirst haccepted
    dsimp only at hfirst haccepted ⊢
    split
    · rename_i hpos
      have hpos : 0 < accepted := by
        obtain ⟨cuts, hx⟩ | ⟨-, n, cuts, -, hx⟩ := haccepted
        · cases hx
          exact absurd hpos (by decide)
        · cases hx
          refine Int.natCast_pos.mpr (Nat.pos_of_ne_zero fun hn => ?_)
          rw [hn] at hpos
          exact absurd hpos (by decide)
      have hsent (out : Iobuf) : I { s with state.outfd := fd, state.output := out } := hfirst _ (.inr ⟨hpos, rfl⟩)
      split
      · exact (meets_set_pure _ _).mpr (.inl (hsent _))
      · rw [meets_bind, meets_set]
        split
        · refine (chunkLoop_stable hI _ _ _ _ (hsent _)).bind fun rr s' hs' => ?_
          split
          · exact (meets_pure _).mpr (.inl hs')
          · exact (meets_pure _).mpr (.inl hs')
        · exact (meets_pure _).mpr (.inl (hsent _))
    · exact (meets_set_pure _ _).mpr (.inl (hfirst _ (.inl rfl)))

theorem minuteHttpdChunk_first {I : HttpdResponse → Prop} (hI : Stable I) {s : HttpdResponse} {buf : List Byte}
    (hring : s.state.output.Valid) (hle : s.state.output.read.toNat ≤ s.state.output.write.toNat)
    (hfirst : ∀ s', (s'.state.outfd = (s.state.outfd.write (s.state.output.contents ++ buf)).2.close ∨
      0 < (s.state.outfd.write (s.state.output.contents ++ buf)).1 ∧
        s'.state.outfd = (s.state.outfd.write (s.state.output.contents ++ buf)).2) → I s') :
    Meets (fun _ => True) (fun _ s' => I s' ∨
      (s' = s ∧ minuteIobufUsed s.state.output + BitVec.ofNat 32 buf.length = 0)) (minuteHttpdChunk buf false) s := by
  simp only [minuteHttpdChunk, meets_bind, meets_get]
  exact chunkLoop_first hI hring hle hfirst _

/-- What a `write` of a block makes of the bytes sent. -/
theorem write_letter (fd : Outfd) {bs : List Byte} {c : Byte} (hbs : bs.head? = some c) :
    ((fd.write bs).1 = -1 ∨ (fd.write bs).1 = 0) ∧ (fd.write bs).2.sent = fd.sent ∨
      0 < (fd.write bs).1 ∧ ∃ more, (fd.write bs).2.sent = fd.sent ++ c :: more := by
  obtain ⟨cuts, hw⟩ | ⟨-, n, cuts, -, hw⟩ := fd.write_cases bs
  · rw [hw]
    exact .inl ⟨.inl rfl, rfl⟩
  · rw [hw]
    cases n with
    | zero => exact .inl ⟨.inr rfl, by rw [List.take_zero, List.append_nil]⟩
    | succ n =>
      obtain ⟨tail, rfl⟩ := List.head?_eq_some_iff.mp hbs
      exact .inr ⟨by dsimp only; omega, tail.take n, rfl⟩

/-! ## The reading of the head -/

theorem used_clear (io : Iobuf) : (minuteIobufClear io).used = 0 :=
  show ((0 : Uint) - 0).toNat = 0 by decide

/-- What `minute_httpd_handle` has done to the writing side when the head is read. -/
theorem handleRequest_clears {state : HttpdState} :
    Meets (fun _ => True) (fun _ s => s.state.output = minuteIobufClear state.output ∧ s.state.outfd = state.outfd)
      handleRequest (.init state) := by
  simp only [handleRequest, meets_bind, meets_modify, meets_get, meets_set]
  exact (minuteHttpdReadRequest_writing _ _).imp fun _ s' hs' =>
    ⟨congrArg (fun x => x.1) hs', congrArg (fun x => x.2.1) hs'⟩

/-- Behind `minute_httpd_start`. -/
def HttpdResponse.started (s : HttpdResponse) : HttpdResponse :=
  { s with headFlags := startFlags s.rq, pending := startPending s.rq s.pending }

theorem handleStatus_answers {υ : Type} (app : MinuteHttpdApp υ) (now : Nat) (user : υ) (s : HttpdResponse) :
    handleStatus app now user 0 s = (do
      let p ← handleHead app now user
      let user ← handleBody app p.1 p.2
      let r ← handleFinish
      pure (r, user) : Httpd (Int × υ)) s.started := rfl

end MinuteHttp
