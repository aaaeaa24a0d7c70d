import MinuteHttp.Libhttpd.Chunk
import MinuteHttp.Libhttpd.Closing

/-!
# The out ring and the generic body

The out ring stays sound in everything that writes (`responseCall_outValid`). The generic body goes into it where
there is room for it, and is left out otherwise (`minuteHttpdStandardBody_spec`).
-/

namespace MinuteHttp

open Effect

/-! ## Soundness -/

def HttpdResponse.OutValid (s : HttpdResponse) : Prop := s.state.output.Valid

theorem minuteIobufWrite_valid {src : List Byte} {io io' : Iobuf} {r : Int} (h : io.Valid)
    (hw : minuteIobufWrite src io = some (r, io')) : io'.Valid := by
  unfold minuteIobufWrite at hw
  dsimp only at hw
  split at hw
  · cases hw
    exact h
  · rename_i hroom
    have hused : (io.write + BitVec.ofNat 32 src.length - io.read).toNat ≤ io.size := by
      rw [gt_iff_lt, BitVec.lt_def, h.size.mask_add_one] at hroom
      omega
    split at hw
    · cases hd : Block.memcpyIn io.size io.data (io.write &&& io.mask).toNat src 0
        (BitVec.ofNat 32 src.length).toNat with
      | none =>
        rw [hd] at hw
        cases hw
      | some d =>
        rw [hd] at hw
        cases hw
        exact ⟨h.size, hused⟩
    · cases hd : Block.memcpyIn io.size io.data (io.write &&& io.mask).toNat src 0
        (io.mask + 1 - (io.write &&& io.mask)).toNat with
      | none =>
        rw [hd] at hw
        cases hw
      | some d =>
        rw [hd] at hw
        simp only [Option.bind_eq_bind, Option.bind_some] at hw
        cases hd' : Block.memcpyIn io.size d 0 src (io.mask + 1 - (io.write &&& io.mask)).toNat
          (BitVec.ofNat 32 src.length - (io.mask + 1 - (io.write &&& io.mask))).toNat with
        | none =>
          rw [hd'] at hw
          cases hw
        | some d' =>
          rw [hd'] at hw
          cases hw
          exact ⟨h.size, hused⟩

theorem taken_le {out : Iobuf} (h : out.Valid) {n : Uint} {k : Nat} (hk : k ≤ 8)
    (hn : ¬n < BitVec.ofNat 32 k) :
    ∃ l ≤ out.used, (if n < BitVec.ofNat 32 k + minuteIobufUsed out then n - BitVec.ofNat 32 k
      else minuteIobufUsed out) = BitVec.ofNat 32 l := by
  have hpre : (BitVec.ofNat 32 k).toNat = k := by
    rw [BitVec.toNat_ofNat]
    omega
  have hused : (minuteIobufUsed out).toNat = out.used := rfl
  have hu := h.used_le
  have hle := h.size.le
  rw [BitVec.lt_def, hpre] at hn
  refine ⟨_, ?_, (by rw [BitVec.ofNat_toNat, BitVec.setWidth_eq] : _ = BitVec.ofNat 32 (BitVec.toNat _))⟩
  split
  · rename_i hlt
    rw [BitVec.lt_def, BitVec.toNat_add, hpre, hused] at hlt
    rw [BitVec.toNat_sub, hpre]
    have := n.isLt
    omega
  · exact Nat.le_of_eq hused

/-- **A chunk leaves the ring as it is or takes from it what it holds.** -/
theorem chunkLoop_keeps {I : HttpdResponse → Prop} (hvalid : ∀ s, I s → s.OutValid)
    (hfd : ∀ s fd, I s → I { s with state.outfd := fd })
    (htake : ∀ s l, I s → l ≤ s.state.output.used → I { s with state.output := s.state.output.take l })
    (turns : Nat) (buf : List Byte) (chunked : Bool) : Keeps I (chunkLoop turns buf chunked) := by
  induction turns generalizing buf chunked with
  | zero => exact keeps_throw _
  | succ turns ih =>
    intro s h
    simp only [chunkLoop, meets_bind, meets_get]
    split
    · exact (meets_pure _).mpr h
    · rw [meets_bind, meets_orStop]
      refine ⟨fun _ => trivial, fun size hsize => ?_⟩
      have hline : size.length ≤ 8 := by
        split at hsize
        · exact length_chunkSizeLine hsize
        · cases hsize
          exact Nat.zero_le _
      generalize s.state.outfd.write _ = w
      obtain ⟨accepted, fd⟩ := w
      dsimp only
      generalize (BitVec.ofInt 32 accepted).toInt = r
      split
      · split
        · exact (meets_set_pure _ _).mpr (hfd s fd h)
        · rename_i hpre
          obtain ⟨l, hl, htaken⟩ := taken_le (hvalid s h) hline hpre
          rw [htaken, meets_bind, meets_set]
          have hsends : I { s with state := { s.state with outfd := fd, output := s.state.output.take l } } :=
            hfd _ fd (htake s l h hl)
          split
          · refine (ih _ _ _ hsends).bind fun rr s' hs' => ?_
            split
            · exact (meets_pure _).mpr hs'
            · exact (meets_pure _).mpr hs'
          · exact (meets_pure _).mpr hsends
      · exact (meets_set_pure _ _).mpr (hfd s _ h)

theorem chunkLoop_outValid (turns : Nat) (buf : List Byte) (chunked : Bool) :
    Keeps HttpdResponse.OutValid (chunkLoop turns buf chunked) :=
  chunkLoop_keeps (fun _ h => h) (fun _ _ h => h) (fun _ _ h hl => Iobuf.valid_take h hl) turns buf chunked

theorem minuteHttpdChunk_outValid (buf : List Byte) (chunked : Bool) :
    Keeps HttpdResponse.OutValid (minuteHttpdChunk buf chunked) := keeps_get.bind fun _ => chunkLoop_outValid _ _ _

theorem minuteHttpdFlush_outValid : Keeps HttpdResponse.OutValid minuteHttpdFlush :=
  keeps_get.bind fun _ => (minuteHttpdChunk_outValid _ _).bind fun _ => keeps_pure _

theorem minuteHttpdOutput_outValid (append : List Byte) (chunked : Bool) :
    Keeps HttpdResponse.OutValid (minuteHttpdOutput append chunked) := by
  intro s h
  simp only [minuteHttpdOutput, meets_bind, meets_get]
  split
  · exact (minuteHttpdChunk_outValid _ _).bind (fun _ => keeps_pure _) s h
  · rw [meets_bind, meets_orStop]
    exact ⟨fun _ => trivial, fun _ hw => (meets_set _).mpr (minuteIobufWrite_valid h hw)⟩

theorem outCall_outValid (c : OutCall) : Keeps HttpdResponse.OutValid c.serve := by
  refine Keeps.bind (keeps_modify fun _ h => h) fun _ => ?_
  cases c with
  | write buf => exact keeps_get.bind fun _ => minuteHttpdOutput_outValid _ _
  | flush => exact minuteHttpdFlush_outValid

theorem outValid_of_writing {α : Type} {m : Httpd α} (h : Leaves HttpdResponse.writing m) :
    Keeps HttpdResponse.OutValid m := (h.comp fun x => x.1).keeps Iobuf.Valid

theorem responseCall_outValid (c : ResponseCall) : Keeps HttpdResponse.OutValid c.serve := by
  cases c with
  | out call => exact outCall_outValid call
  | read count => exact outValid_of_writing (minuteHttpdInRead_writing true count)

/-! ## The generic body -/

theorem length_toString_le {x : Int} (h : x.natAbs < 10 ^ 10) : (toString x).length ≤ 11 := by
  cases x with
  | ofNat n =>
    show n.repr.length ≤ 11
    exact Nat.le_succ_of_le ((Nat.length_repr_le_iff (by decide)).mpr h)
  | negSucc n =>
    show ("-" ++ (n + 1).repr).length ≤ 11
    rw [String.length_append]
    have := (Nat.length_repr_le_iff (n := n + 1) (k := 10) (by decide)).mpr h
    show 1 + _ ≤ _
    omega

theorem length_responseText_le (code : Int) : (minuteHttpResponseText code).length ≤ 31 := by
  unfold minuteHttpResponseText
  split <;> first | decide | (split <;> decide)

theorem length_bytes (s : String) : (bytes s).length = s.length := by
  rw [bytes, List.length_map, String.length_toList]

theorem length_standardBodyText (status : Uint) :
    0 < (standardBodyText status.toInt).length ∧ (standardBodyText status.toInt).length < 200 := by
  have hmsg := length_responseText_le status.toInt
  have hnum : (toString status.toInt).length ≤ 11 := by
    apply length_toString_le
    have hlt := BitVec.two_mul_toInt_lt (x := status)
    have hle := BitVec.le_two_mul_toInt (x := status)
    omega
  unfold standardBodyText
  dsimp only
  rw [length_bytes]
  simp only [String.length_append]
  have htitle : "<html><head><title>".length = 19 := rfl
  have hmid : "</title></head><body><h1>".length = 25 := rfl
  have hend : "</h1></body></html>\n".length = 20 := rfl
  have hblank : " ".length = 1 := rfl
  omega

/-- There is room for the generic body. -/
def GenericFits (status : Int) (s : HttpdResponse) : Prop :=
  s.state.output.used + (standardBodyText status).length ≤ s.state.output.size

instance genericFitsDecidable (status : Int) (s : HttpdResponse) : Decidable (GenericFits status s) :=
  Nat.decLe _ _

/-- The generic body goes into the ring, or is left out. -/
theorem minuteHttpdStandardBody_spec {s : HttpdResponse} (h : s.OutValid) (status : Uint) :
    Meets (fun _ => False) (fun _ s' => s' = if GenericFits status.toInt s then
      { s with state.output := s.state.output.append (standardBodyText status.toInt) } else s)
      (minuteHttpdStandardBody status.toInt) s := by
  obtain ⟨hpos, hlt⟩ := length_standardBodyText status
  have hne : standardBodyText status.toInt ≠ [] := List.ne_nil_of_length_pos hpos
  simp only [minuteHttpdStandardBody, meets_bind, meets_get, meets_orStop, minuteIobufPrintf]
  by_cases hfits : GenericFits status.toInt s
  · rw [if_pos hfits, minuteIobufWrite_fits h hne hfits]
    refine ⟨fun hnone => absurd hnone (Option.some_ne_none _), fun x hx => ?_⟩
    rw [← Option.some.inj hx]
    exact (meets_set _).mpr rfl
  · rw [if_neg hfits, minuteIobufWrite_full h (by omega) (Nat.lt_of_not_le hfits)]
    refine ⟨fun hnone => absurd hnone (Option.some_ne_none _), fun x hx => ?_⟩
    rw [← Option.some.inj hx]
    exact (meets_set _).mpr rfl

/-- The calls on `minute_httpd_out` since `s`. -/
def callsSince (s s' : HttpdResponse) : List OutCall := s'.history.calls.drop s.history.calls.length

/-- At least one byte has been written. -/
def Wrote (calls : List OutCall) : Prop := ∃ buf, .write buf ∈ calls ∧ buf ≠ []

/-- An application that settles on 200, makes some calls for the body and returns `response`. -/
def replyApp (calls : List OutCall) (response : Uint) : MinuteHttpdApp Unit :=
  { silentApp 200 with
    response := fun _ _ _ user => calls.foldr (fun c p => .call (.out c) fun _ => p) (.done (response, user)) }

theorem connected_outValid (head : String) : (HttpdResponse.init (connected head)).OutValid :=
  Iobuf.valid_of 8 (by decide) rfl (show ((0 : Uint) - 0).toNat ≤ 256 by decide)

end MinuteHttp
