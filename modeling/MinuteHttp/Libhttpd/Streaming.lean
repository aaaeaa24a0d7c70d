import MinuteHttp.Libhttpd.Halting

/-!
# A head read through a ring of any size

`minute_httpd_read_request` shows the parser what the ring holds, and refills the ring where the parser stops
for more. `Fed` says how far a run of the parser over the whole stream has come at such a place, and
`Streamed` how the loop can end: as that run does, at the end of the stream, or because the ring is full of
bytes that the parser has not released (`Frame.retained`). A head is thus read as if it came in one piece,
however it is cut, exactly if the parser nowhere retains as much as the ring can hold (`request_streams_iff`); where
it does, some cuts end in 414 (`head_streams_iff`).
-/

namespace MinuteHttp

open Effect Feed

/-! ## What the parser retains -/

/-- The bytes from the mark up to the cursor: where a call stops for more, they stay in the ring. -/
def Frame.retained (k : Frame) : Nat := (k.s.m - k.b).toNat

section

variable {k k' : Frame} {c : Int} {cs : List Int}

theorem iterate_retained (h : iterate k c = .next k') : k'.retained ≤ k.retained + 1 := by
  have hm := (iterate_next_m h).1
  have h1 : (1 : Uint).toNat = 1 := rfl
  unfold Frame.retained
  rw [hm]
  obtain hb | hb := iterate_marks h
  · rw [hb, add_sub_comm, BitVec.toNat_add, h1]
    exact Nat.mod_le _ _
  · rw [hb, add_sub_comm, BitVec.sub_self, BitVec.zero_add, h1]
    exact Nat.le_add_left _ _

/-- A run that comes to retain `n` bytes or more has retained just `n` somewhere. -/
theorem feed_retained {n : Nat} (h0 : k.retained < n) (hf : feed iterate k cs = .next k')
    (hn : n ≤ k'.retained) : ∃ p q k₁, cs = p ++ q ∧ feed iterate k p = .next k₁ ∧ k₁.retained = n := by
  induction cs using List.reverseRecOn generalizing k' with
  | nil =>
    cases hf
    omega
  | append_singleton cs c ih =>
    obtain ⟨k₁, h₁, hs⟩ := feed_snoc_next hf
    have hle := iterate_retained hs
    by_cases hbefore : n ≤ k₁.retained
    · obtain ⟨p, q, k₂, rfl, hp, heq⟩ := ih h₁ hbefore
      exact ⟨p, q ++ [c], k₂, List.append_assoc _ _ _, hp, heq⟩
    · exact ⟨cs ++ [c], [], k', (List.append_nil _).symm, hf, by omega⟩

theorem feed_retained_le (hf : feed iterate k cs = .next k') : k'.retained ≤ k.retained + cs.length := by
  refine feed_inv (fun cs k' => k'.retained ≤ k.retained + cs.length) (Nat.le_refl _) (fun cs k₁ c k₂ h hs => ?_) hf
  have := iterate_retained hs
  rw [List.length_append, List.length_singleton]
  omega

theorem chars_eq_append {w : List Byte} {p q : List Int} (h : chars w = p ++ q) :
    ∃ u v, w = u ++ v ∧ p = chars u ∧ q = chars v := by
  obtain ⟨u, v, hw, hu, hv⟩ := List.map_eq_append_iff.mp h
  exact ⟨u, v, hw, hu.symm, hv.symm⟩

end

/-- The parser nowhere retains `size` bytes of the stream `w`. -/
def RetainsBelow (size : Nat) (k₀ : Frame) (w : List Byte) : Prop :=
  ∀ p q k, w = p ++ q → feed iterate k₀ (chars p) = .next k → k.retained < size

/-! ## Indices within the bytes held -/

section

variable {io : Iobuf} {m : Uint}

theorem Iobuf.sub_within (hm : io.Within m) : (io.write - m).toNat = io.used - (m - io.read).toNat := by
  have hread : (io.take (m - io.read).toNat).read = m := add_ofNat_sub io.read m
  rw [← @Iobuf.used_take io _ hm, Iobuf.used, minuteIobufUsed, hread]
  rfl

theorem Iobuf.SizeOk.from_within (h : io.SizeOk) (hm : io.Within m) :
    io.from m = io.contents.drop (m - io.read).toNat := by
  unfold Iobuf.from Iobuf.contents
  rw [h.window_eq, Iobuf.sub_within hm, Ring.drop_cells _ _ _ _ hm]
  apply Ring.cells_congr
  rw [← h.add_mod, BitVec.add_comm, BitVec.sub_add_cancel]

theorem Iobuf.from_write (io : Iobuf) : io.from io.write = [] := by
  unfold Iobuf.from
  rw [BitVec.sub_self]
  rfl

theorem Iobuf.from_append (h : io.SizeOk) {bs : List Byte} (hfit : io.used + bs.length ≤ io.size)
    (hm : io.Within m) : (io.append bs).from m = io.from m ++ bs := by
  have hm' : (io.append bs).Within m := by
    unfold Iobuf.Within
    rw [Iobuf.used_append h hfit]
    exact Nat.le_add_right_of_le hm
  have hsize : (io.append bs).SizeOk := h
  rw [hsize.from_within hm', h.from_within hm, Iobuf.contents_append h hfit]
  exact List.drop_append_of_le_length (by rw [Iobuf.length_contents]; exact hm)

theorem contents_behind (h : io.SizeOk) {k k' : Frame} {rest : List Int} (hm : io.Within k.s.m)
    (hf : feed iterate k (chars (io.from k.s.m)) = .halt (.ok k', rest)) :
    chars (Iobuf.contents { io with read := k'.s.m }) = rest := by
  obtain ⟨p, c, k₁, hp, hfeed, hc⟩ := feed_halt hf
  have hlen := congrArg List.length hp
  have hfrom := h.from_within hm
  rw [chars, List.length_map, hfrom, List.length_drop, Iobuf.length_contents, List.length_append,
    List.length_cons] at hlen
  have hpos := add_ofNat_sub io.read k.s.m
  have hend : k'.s.m = io.read + BitVec.ofNat 32 ((k.s.m - io.read).toNat + (p.length + 1)) := by
    rw [iterate_ok_m hc, (feed_m hfeed).1, BitVec.ofNat_add, ← BitVec.add_assoc, hpos, BitVec.ofNat_add,
      ← BitVec.add_assoc]
    rfl
  have htake : Iobuf.contents { io with read := k'.s.m } =
      (io.from k.s.m).drop (p.length + 1) := by
    rw [hend, hfrom, List.drop_drop]
    exact Iobuf.contents_take h (by omega)
  rw [htake, chars, List.map_drop]
  rw [chars] at hp
  rw [hp, List.append_cons, List.drop_left' (by simp)]

end


/-! ## Calls on a ring that is refilled -/

/-- The run from `k₀` over the stream `w` has come behind `p`, in a frame from which the saved state `rqs`
resumes; what it has not seen is in the ring and the descriptor. -/
structure Fed (k₀ : Frame) (w p : List Byte) (k : Frame) (rqs : MinuteHttpRqs) (s : HttpdResponse) : Prop where
  sound : s.state.Sound
  within : s.state.input.Within rqs.m
  resumes : Resumes k (startFrame s.rq rqs s.state.input s.state.text)
  fed : feed iterate k₀ (chars p) = .next k
  stream : w = p ++ (s.state.input.from rqs.m ++ s.state.infd.stream)

/-- The characters of a stream that the parser is shown to its end. -/
def streamChars (w : List Byte) (e : Bool) : List Int := chars w ++ if e then [hEof] else []

/-- The connection can go on, with the same ring. -/
structure HttpdState.Open (st : HttpdState) (size : Nat) : Prop where
  sound : st.Sound
  eof : st.input.eof = false
  size : st.input.size = size

/-- How `minute_httpd_read_request` ends on the stream `w`, with a ring of `size` bytes; `e` is whether the end
of the file was noted at the start. -/
inductive Streamed (k₀ : Frame) (w : List Byte) (e : Bool) (size : Nat) : Int → HttpdResponse → Prop where
  | parsed {n : Nat} {s : HttpdResponse}
      (hleft : runLeft (feed iterate k₀ (streamChars w e)) = some (n, s.rq, s.state.text)) (hn : n ≠ eagain)
      (hopen : e = false → s.state.Open size)
      (hrest : n = 0 → e = false →
        ∃ k, feed iterate k₀ (chars w) = .halt (.ok k, chars s.state.unread) ∧ s.state.input.read = k.s.m) :
      Streamed k₀ w e size n s
  | ended {k : Frame} {s : HttpdResponse} (hfed : feed iterate k₀ (chars w) = .next k) :
      Streamed k₀ w e size (-1) s
  | full {p q : List Byte} {k : Frame} {s : HttpdResponse} (hw : w = p ++ q)
      (hfed : feed iterate k₀ (chars p) = .next k) (hk : k.retained = size) : Streamed k₀ w e size 414 s

section

variable {k₀ k k₁ : Frame} {w p : List Byte} {rqs : MinuteHttpRqs} {s : HttpdResponse}

/-- Where a call stopped for more, the ring holds what the parser retains. -/
theorem Fed.retained (h : Fed k₀ w p k rqs s) : k.retained = (rqs.m - s.state.input.read).toNat := by
  obtain ⟨t, i, hreloc⟩ := h.resumes.relocated
  have hm : rqs.m = k.s.m := congrArg (fun k => k.s.m) hreloc
  have hb : s.state.input.read = k.b := congrArg Frame.b hreloc
  rw [hm, hb]
  rfl

theorem Fed.used (h : Fed k₀ w p k rqs s) (hend : rqs.m = s.state.input.write) :
    s.state.input.used = k.retained := by
  rw [h.retained, hend]
  rfl

theorem Fed.stream_of_end (h : Fed k₀ w p k rqs s) (hend : rqs.m = s.state.input.write) :
    w = p ++ s.state.infd.stream := by
  have hw := h.stream
  rw [hend, Iobuf.from_write, List.nil_append] at hw
  exact hw

theorem Fed.feed_eq (h : Fed k₀ w p k rqs s) (cs : List Int) :
    feed iterate k₀ (chars p ++ cs) = feed iterate k cs := feed_append_next _ h.fed

/-- **A call that stops for more.** -/
theorem httpRead_suspends (h : Fed k₀ w p k rqs s) (heof : s.state.input.eof = false)
    (hf : feed iterate k (chars (s.state.input.from rqs.m)) = .next k₁) :
    Meets (fun _ => False) (fun x s' => x.1 = (eagain : Int) ∧ x.2.m = s'.state.input.write ∧
      Fed k₀ w (p ++ s.state.input.from rqs.m) k₁ x.2 s' ∧ s'.state.infd = s.state.infd ∧
      s'.state.input.flags = s.state.input.flags ∧ s'.state.input.mask = s.state.input.mask) (httpRead rqs) s := by
  obtain ⟨k₂, k₃, h₂, h₃, hres⟩ | ⟨r, r', h₂, -, -⟩ := (feed_resumes (chars (s.state.input.from rqs.m)) h.resumes).cases
  · rw [hf] at h₂
    cases h₂
    have hread : minuteHttpRead s.rq rqs s.state.input s.state.text = suspend s.state.input k₃ := by
      rw [minuteHttpRead_eq, h₃]
      simp [conclude, heof]
    have hm : k₃.s.m = s.state.input.write := by
      rw [(feed_m h₃).1, chars, List.length_map, Iobuf.from, Iobuf.length_window]
      exact add_ofNat_sub _ _
    obtain ⟨l, hio, ⟨hl, hw⟩ | ⟨hzero, -⟩⟩ := minuteHttpRead_released h.within hread
    · have hc : Consumed s.state l
          { s.state with input := { s.state.input with read := k₃.b }, text := k₃.text } :=
        consumed_take h.sound hl hio rfl
      simp only [httpRead, meets_bind, meets_get]
      rw [hread, suspend, meets_set_pure]
      refine ⟨rfl, hm, ⟨hc.sound, hw, resumes_suspended _ hres, ?_, ?_⟩, rfl, rfl, rfl⟩
      · rw [chars_append, h.feed_eq, hf]
      · show w = p ++ s.state.input.from rqs.m ++
          (Iobuf.from { s.state.input with read := k₃.b } k₃.s.m ++ s.state.infd.stream)
        have hnil : Iobuf.from { s.state.input with read := k₃.b } k₃.s.m = [] := by
          rw [hm]
          exact Iobuf.from_write { s.state.input with read := k₃.b }
        rw [hnil, List.nil_append, List.append_assoc]
        exact h.stream
    · cases hzero
  · rw [hf] at h₂
    cases h₂


/-- **A call that is the last one** ends as the run over the whole stream does. -/
theorem Fed.last (h : Fed k₀ w p k rqs s)
    (hlast : s.state.input.eof = true ∨ ∃ r, feed iterate k (chars (s.state.input.from rqs.m)) = .halt r) :
    ∃ r r', minuteHttpRead s.rq rqs s.state.input s.state.text = finish s.state.input rqs r' ∧
      Halt.Sim Relocated (fun n k k' => Relocated k k' ∧ n ≠ 0 ∧ n ≠ eagain) r r' ∧
      (∃ rest, feed iterate k₀ (streamChars w s.state.input.eof) = .halt (r, rest)) ∧
      (s.state.input.eof = false → ∃ rest,
        feed iterate k₀ (chars w) = .halt (r, rest ++ chars s.state.infd.stream) ∧
        feed iterate (startFrame s.rq rqs s.state.input s.state.text) (chars (s.state.input.from rqs.m)) =
          .halt (r', rest)) := by
  have hw := h.stream
  obtain ⟨k₂, k₃, h₂, h₃, hres⟩ | ⟨⟨r, rest⟩, ⟨r', rest'⟩, h₂, h₃, hsim, hrest⟩ :=
    (feed_resumes (chars (s.state.input.from rqs.m)) h.resumes).cases
  · have heof : s.state.input.eof = true := by
      obtain heof | ⟨r, hr⟩ := hlast
      · exact heof
      · rw [h₂] at hr
        cases hr
    rw [h.sound.eof heof, List.append_nil] at hw
    obtain ⟨x, x', hs, -⟩ | ⟨r, r', hs, hs', hsim⟩ := (iterate_resumes hEof hres).cases
    · exact absurd hs (iterate_eof k₂ x)
    · refine ⟨r, r', ?_, hsim, ⟨[], ?_⟩, fun hopen => ?_⟩
      · rw [minuteHttpRead_eq, h₃]
        simp [conclude, heof, hs']
      · rw [streamChars, heof, if_pos rfl, hw, chars_append, List.append_assoc, h.feed_eq, feed_append_next _ h₂,
          feed_cons_halt _ hs]
      · rw [heof] at hopen
        cases hopen
  · dsimp only at hrest
    subst hrest
    have hchars : ∀ cs, feed iterate k₀ (chars w ++ cs) = .halt (r, rest ++ (chars s.state.infd.stream ++ cs)) := by
      intro cs
      rw [hw, chars_append, chars_append, List.append_assoc, List.append_assoc, h.feed_eq, feed_append_halt _ h₂]
    refine ⟨r, r', ?_, hsim, ⟨_, hchars _⟩, fun _ => ⟨rest, ?_, h₃⟩⟩
    · rw [minuteHttpRead_eq, h₃]
      rfl
    · have hall := hchars []
      rw [List.append_nil, List.append_nil] at hall
      exact hall

theorem httpRead_finishes (h : Fed k₀ w p k rqs s)
    (hlast : s.state.input.eof = true ∨ ∃ r, feed iterate k (chars (s.state.input.from rqs.m)) = .halt r) :
    Meets (fun e => e = .fault → runLeft (feed iterate k₀ (streamChars w s.state.input.eof)) = none)
      (fun x s' => x.1 ≠ (eagain : Int) ∧ Streamed k₀ w s.state.input.eof s.state.input.size x.1 s')
      (httpRead rqs) s := by
  obtain ⟨r, r', hread, hsim, ⟨rest, hall⟩, hopen⟩ := h.last hlast
  simp only [httpRead, meets_bind, meets_get]
  rw [hread]
  cases r' with
  | fault =>
    cases r with
    | fault =>
      refine (meets_throw _).mpr fun _ => ?_
      rw [hall]
      rfl
    | _ => exact hsim.elim
  | spin => exact (meets_throw _).mpr fun he => by cases he
  | ret n k' =>
    cases r with
    | ret n' k₁ =>
      obtain ⟨rfl, ⟨t, i, rfl⟩, hn, hagain⟩ := hsim
      rw [finish, meets_set_pure]
      refine ⟨fun h => hagain (Int.ofNat_inj.mp h), .parsed ?_ hagain (fun he => ?_) fun h0 => absurd h0 hn⟩
      · rw [hall]
        rfl
      · exact ⟨⟨h.sound.input, h.sound.eof, h.sound.steady⟩, he, rfl⟩
    | _ => exact hsim.elim
  | ok k' =>
    cases r with
    | ok k₁ =>
      obtain ⟨k₂, k₃, ⟨t, i, rfl⟩, rfl, rfl⟩ := hsim
      rw [finish, meets_set_pure]
      refine ⟨show ((0 : Nat) : Int) ≠ (eagain : Int) by decide,
        @Streamed.parsed _ _ _ _ 0 _ ?_ (by decide) (fun he => ?_) fun _ he => ?_⟩
      · rw [hall]
        rfl
      · obtain ⟨l, hio, ⟨hl, -⟩ | ⟨-, heof, -⟩⟩ := minuteHttpRead_released h.within hread
        · have hc : Consumed s.state l { s.state with
              input := { s.state.input with read := (Frame.relocal t i k₂).advance.s.m }
              text := (Frame.relocal t i k₂).advance.text } := consumed_take h.sound hl hio rfl
          exact ⟨hc.sound, he, rfl⟩
        · rw [he] at heof
          cases heof
      · obtain ⟨rest, hwhole, hshown⟩ := hopen he
        have hbehind := @contents_behind s.state.input h.sound.input.size _ _ _ h.within hshown
        refine ⟨k₂.advance, ?_, rfl⟩
        rw [hwhole, ← hbehind, ← chars_append]
        rfl
    | _ => exact hsim.elim

/-! ## The loop -/

theorem Fed.append (h : Fed k₀ w p k rqs s) {bs rest : List Byte} {cuts : List (Option Nat)}
    (hs : s.state.infd.stream = bs ++ rest) (hbs : bs ≠ []) (hfit : s.state.input.used + bs.length ≤ s.state.input.size)
    (hc : s.state.infd.Goes cuts) :
    Fed k₀ w p k rqs { s with state := s.state.refilled (bs.length, ⟨rest, cuts⟩, s.state.input.append bs) } := by
  obtain ⟨hcons, hused, -⟩ := refilled_consumed h.sound (.more hbs hs hfit hc)
  refine ⟨hcons.sound, hcons.within hused h.within, h.resumes, h.fed, ?_⟩
  show w = p ++ ((s.state.input.append bs).from rqs.m ++ rest)
  rw [Iobuf.from_append h.sound.input.size hfit h.within, List.append_assoc, ← hs]
  exact h.stream

theorem refillRequest_fed (h : Fed k₀ w p k rqs s) (hend : rqs.m = s.state.input.write) :
    Meets (fun _ => False) (fun ended s' =>
      (∀ status, ended = some status → Streamed k₀ w s.state.input.eof s.state.input.size status s') ∧
      (ended = none → Fed k₀ w p k rqs s' ∧ s'.state.input.eof = s.state.input.eof ∧
        s'.state.input.size = s.state.input.size)) refillRequest s := by
  rw [refillRequest]
  refine (meets_congr (bind_of_ok (readfd_eq s))).mpr ?_
  rw [meets_bind, meets_get]
  have hr := minuteIobufReadfd_refilled s.state.infd h.sound.input
  generalize minuteIobufReadfd s.state.infd s.state.input = x at hr
  cases hr with
  | full hu =>
    rw [if_pos (show (-1 : Int) < 0 by decide), meets_pure]
    refine ⟨fun status hs => ?_, fun h => by cases h⟩
    cases hs
    exact .full (h.stream_of_end hend) h.fed ((h.used hend).symm.trans hu)
  | error hc =>
    have hsteady := h.sound.steady
    unfold Infd.Steady at hsteady
    rw [hc] at hsteady
    exact absurd List.mem_cons_self hsteady
  | eof hs hc =>
    rw [if_neg (show ¬(0 : Int) < 0 by decide), if_pos ⟨rfl, eof_or _⟩, meets_pure]
    refine ⟨fun status hst => ?_, fun h => by cases h⟩
    cases hst
    have hw := h.stream_of_end hend
    rw [hs, List.append_nil] at hw
    rw [hw]
    exact .ended h.fed
  | more hbs hs hfit hc =>
    have hpos := List.length_pos_iff.mpr hbs
    rw [if_neg (by dsimp only; omega), if_neg (by dsimp only; omega), meets_pure]
    exact ⟨fun status hst => (by cases hst), fun _ => ⟨h.append hs hbs hfit hc, rfl, rfl⟩⟩

theorem refillUnless_fed (h : Fed k₀ w p k rqs s) {prefilled : Bool}
    (hend : prefilled = false → rqs.m = s.state.input.write) :
    Meets (fun _ => False) (fun ended s' =>
      (∀ status, ended = some status → Streamed k₀ w s.state.input.eof s.state.input.size status s') ∧
      (ended = none → Fed k₀ w p k rqs s' ∧ s'.state.input.eof = s.state.input.eof ∧
        s'.state.input.size = s.state.input.size)) (refillUnless prefilled) s := by
  cases prefilled with
  | true => exact (meets_pure _).mpr ⟨fun status hst => (by cases hst), fun _ => ⟨h, rfl, rfl⟩⟩
  | false => exact refillRequest_fed h (hend rfl)

/-- **The loop on the parser** ends as the run over the whole stream, or the stream ends before the head, or the
ring is full. -/
theorem readRequestLoop_streams (turns : Nat) {prefilled : Bool} (h : Fed k₀ w p k rqs s)
    (hend : prefilled = false → rqs.m = s.state.input.write) {e : Bool} {size : Nat}
    (he : s.state.input.eof = e) (hsize : s.state.input.size = size) :
    Meets (fun x => x = .fault → runLeft (feed iterate k₀ (streamChars w e)) = none) (Streamed k₀ w e size)
      (readRequestLoop turns prefilled rqs) s := by
  induction turns generalizing prefilled rqs s p k with
  | zero => exact (meets_throw _).mpr fun h => by cases h
  | succ turns ih =>
    subst he hsize
    refine Meets.bind ((refillUnless_fed h hend).imp_error fun _ hf => hf.elim) fun ended s₁ h₁ => ?_
    obtain ⟨hended, hmore⟩ := h₁
    cases ended with
    | some status => exact (meets_pure _).mpr (hended status rfl)
    | none =>
      obtain ⟨h₁, he₁, hsize₁⟩ := hmore rfl
      by_cases hlast : s₁.state.input.eof = true ∨
          ∃ r, feed iterate k (chars (s₁.state.input.from rqs.m)) = .halt r
      · rw [← he₁, ← hsize₁]
        refine (httpRead_finishes h₁ hlast).bind fun x s₂ h₂ => ?_
        obtain ⟨status, rqs'⟩ := x
        dsimp only at h₂ ⊢
        rw [if_neg h₂.1, meets_pure]
        exact h₂.2
      · obtain ⟨hopen, hgoes⟩ := not_or.mp hlast
        rw [Bool.not_eq_true] at hopen
        cases hf : feed iterate k (chars (s₁.state.input.from rqs.m)) with
        | halt r => exact absurd ⟨r, hf⟩ hgoes
        | next k₁ =>
          refine Meets.bind ((httpRead_suspends h₁ hopen hf).imp_error fun _ hf => hf.elim) fun x s₂ h₂ => ?_
          obtain ⟨status, rqs'⟩ := x
          obtain ⟨hstatus, hm, hfed, -, hflags, hmask⟩ := h₂
          dsimp only at hstatus hm hfed ⊢
          rw [if_pos hstatus]
          refine ih hfed (fun _ => hm) ?_ ?_
          · rw [← he₁]
            unfold Iobuf.eof
            rw [hflags]
          · rw [← hsize₁]
            unfold Iobuf.size
            rw [hmask]

theorem fed_start (h : s.state.Sound) (hm : rqs.m = s.state.input.read) (hr : rqs.Routed)
    (hflag : rqs.st ≠ HttpRequestState.hHeadFlag) :
    Fed (startFrame s.rq rqs s.state.input s.state.text) s.state.unread []
      (startFrame s.rq rqs s.state.input s.state.text) rqs s := by
  refine ⟨h, ?_, .refl hr fun hst => absurd hst hflag, rfl, ?_⟩
  · rw [hm]
    exact Iobuf.within_read _
  · rw [hm, h.input.size.from_read]
    rfl

/-- **The head of a request is read like the whole stream**, or the stream ends before it, or the parser has
come to retain as much as the ring holds. -/
theorem minuteHttpdReadRequest_streams (h : s.state.Sound) (hm : rqs.m = s.state.input.read) (hr : rqs.Routed)
    (hflag : rqs.st ≠ HttpRequestState.hHeadFlag) :
    Meets
      (fun x => x = .fault ∧ runLeft (feed iterate (startFrame s.rq rqs s.state.input s.state.text)
        (streamChars s.state.unread s.state.input.eof)) = none)
      (Streamed (startFrame s.rq rqs s.state.input s.state.text) s.state.unread s.state.input.eof
        s.state.input.size) (minuteHttpdReadRequest rqs) s := by
  have hends := minuteHttpdReadRequest_ends h (hm ▸ Iobuf.within_read _ : s.state.input.Within rqs.m) hr
  have hstreams : Meets (fun x => x = .fault → runLeft (feed iterate
      (startFrame s.rq rqs s.state.input s.state.text) (streamChars s.state.unread s.state.input.eof)) = none)
      (Streamed (startFrame s.rq rqs s.state.input s.state.text) s.state.unread s.state.input.eof
        s.state.input.size) (minuteHttpdReadRequest rqs) s := by
    rw [minuteHttpdReadRequest, meets_bind, meets_get]
    refine readRequestLoop_streams _ (fed_start h hm hr hflag) (fun hpre => ?_) rfl rfl
    have hzero : s.state.input.used = 0 := by
      rw [decide_eq_false_iff_not, gt_iff_lt, BitVec.lt_def, Nat.not_lt] at hpre
      exact Nat.le_zero.mp hpre
    rw [hm, (s.state.input.write_eq_read_iff.mpr hzero)]
  cases hstreams with
  | ends hok hQ => exact .ends hok hQ
  | stops herr hE =>
    have hfault := (meets_error herr).mp hends
    exact .stops herr ⟨hfault, hE hfault⟩

end

/-! ## Whatever the cuts -/

section

variable {k₀ k k₁ : Frame} {w p q r : List Byte} {rqs : MinuteHttpRqs} {s : HttpdResponse} {turns n : Nat}

theorem refillRequest_full (h : s.state.Sound) (hu : s.state.input.used = s.state.input.size) :
    refillRequest s = .ok (some 414, s) := by
  have hfull : minuteIobufReadfd s.state.infd s.state.input = (-1, s.state.infd, s.state.input) := by
    rw [minuteIobufReadfd_eq, if_pos (h.input.full_iff.mpr hu)]
  rw [refillRequest, bind_of_ok (readfd_eq s), hfull]
  rfl

theorem refillRequest_one (h : s.state.Sound) (hlt : s.state.input.used < s.state.input.size) {b : Byte}
    {rest : List Byte} {cuts : List (Option Nat)} (hs : s.state.infd.stream = b :: rest)
    (hc : s.state.infd.cuts = some 0 :: cuts) :
    refillRequest s =
      .ok (none, { s with state := s.state.refilled (1, ⟨rest, cuts⟩, s.state.input.append [b]) }) := by
  have hr : s.state.infd.readv (s.state.input.size - s.state.input.used) = (some [b], ⟨rest, cuts⟩) := by
    unfold Infd.readv
    rw [hc, hs]
    dsimp only
    rw [Nat.min_eq_left (by omega)]
    rfl
  have hone := readfd_of_some h.input hlt hr (List.cons_ne_nil b []) (by rw [List.length_singleton]; omega)
  rw [refillRequest, bind_of_ok (readfd_eq s), hone]
  rfl

/-- The calls of `readv` give one byte each, until the stream ends. -/
def Infd.OneByOne (fd : Infd) : Prop := ∃ n, fd.cuts = List.replicate n (some 0) ∧ fd.stream.length ≤ n

theorem Infd.OneByOne.goes {fd : Infd} {cuts : List (Option Nat)} {bs rest : List Byte} (h : fd.OneByOne)
    (hc : fd.Goes cuts) (hs : fd.stream = bs ++ rest) (hbs : bs = [] → rest = []) : Infd.OneByOne ⟨rest, cuts⟩ := by
  obtain ⟨n, hcuts, hn⟩ := h
  rw [hs, List.length_append] at hn
  obtain ⟨hnil, rfl⟩ | ⟨k, hk⟩ := hc
  · rw [hnil] at hcuts
    have hzero := congrArg List.length hcuts
    rw [List.length_nil, List.length_replicate] at hzero
    exact ⟨0, rfl, show rest.length ≤ 0 by omega⟩
  · rw [hk] at hcuts
    cases n with
    | zero => cases hcuts
    | succ n =>
      rw [List.replicate_succ, List.cons.injEq] at hcuts
      refine ⟨n, hcuts.2, show rest.length ≤ n from ?_⟩
      by_cases hnil : bs = []
      · rw [hbs hnil]
        exact Nat.zero_le n
      · have := List.length_pos_iff.mpr hnil
        omega

/-- Byte by byte, the loop comes to the place where the parser retains as much as the ring holds. -/
theorem readRequestLoop_fills (h : Fed k₀ w p k rqs s) (hw : w = p ++ (q ++ r)) (hend : rqs.m = s.state.input.write)
    (heof : s.state.input.eof = false) (hq : feed iterate k (chars q) = .next k₁)
    (hfull : k₁.retained = s.state.input.size) (hcuts : s.state.infd.cuts = List.replicate n (some 0))
    (hn : q.length ≤ n) (hturns : q.length < turns) :
    Meets (fun _ => False) (fun status _ => status = 414) (readRequestLoop turns false rqs) s := by
  induction q generalizing p k rqs s turns n with
  | nil =>
    cases hq
    obtain ⟨turns, rfl⟩ := Nat.exists_eq_add_of_lt hturns
    have hu := (h.used hend).trans hfull
    rw [readRequestLoop]
    exact (meets_congr (bind_of_ok (refillRequest_full h.sound hu))).mpr ((meets_pure _).mpr rfl)
  | cons b q ih =>
    obtain ⟨turns, rfl⟩ := Nat.exists_eq_add_of_lt hturns
    obtain ⟨n, rfl⟩ := Nat.exists_eq_add_of_lt hn
    rw [readRequestLoop]
    by_cases hu : s.state.input.used = s.state.input.size
    · exact (meets_congr (bind_of_ok (refillRequest_full h.sound hu))).mpr ((meets_pure _).mpr rfl)
    · have hlt := Nat.lt_of_le_of_ne h.sound.input.used_le hu
      have hstream : s.state.infd.stream = b :: (q ++ r) :=
        (List.append_cancel_left (hw.symm.trans (h.stream_of_end hend))).symm
      rw [List.replicate_succ] at hcuts
      refine (meets_congr (bind_of_ok (refillRequest_one h.sound hlt hstream hcuts))).mpr ?_
      have hfit : s.state.input.used + [b].length ≤ s.state.input.size := hlt
      have hfed := h.append hstream (List.cons_ne_nil b []) hfit (.inr ⟨0, hcuts⟩)
      obtain ⟨k₂, hstep, hrest⟩ : ∃ k₂, feed iterate k (chars [b]) = .next k₂ ∧ feed iterate k₂ (chars q) = .next k₁ :=
        feed_prefix_next hq
      have hfrom : (s.state.input.append [b]).from rqs.m = [b] := by
        rw [Iobuf.from_append h.sound.input.size hfit h.within, hend, Iobuf.from_write, List.nil_append]
      refine (httpRead_suspends hfed heof (hfrom ▸ hstep)).bind fun x s₂ h₂ => ?_
      obtain ⟨status, rqs'⟩ := x
      obtain ⟨hstatus, hm, hfed₂, hinfd, hflags, hmask⟩ := h₂
      dsimp only at hstatus hm hfed₂ ⊢
      rw [if_pos hstatus]
      have hw' : w = p ++ [b] ++ (q ++ r) := by
        rw [hw, List.append_assoc]
        rfl
      refine ih (hfrom ▸ hfed₂) hw' hm ?_ hrest ?_ (n := q.length + n) ?_ (Nat.le_add_right _ _) ?_
      · unfold Iobuf.eof at heof ⊢
        rw [hflags]
        exact heof
      · unfold Iobuf.size at hfull ⊢
        rw [hmask]
        exact hfull
      · rw [hinfd]
        rfl
      · rw [List.length_cons]
        omega

end

section

variable {s : HttpdResponse} {rqs : MinuteHttpRqs} {w rest p q : List Byte} {k k' : Frame}

theorem sound_streaming (hs : s.state.input.Valid) (heof : s.state.input.eof = false) {cuts : List (Option Nat)}
    (hcuts : none ∉ cuts) : HttpdState.Sound { s.state with infd := ⟨w, cuts⟩ } := by
  refine ⟨hs, fun he => ?_, hcuts⟩
  rw [show s.state.input.eof = true from he] at heof
  cases heof

theorem unread_streaming (hempty : s.state.input.used = 0) (cuts : List (Option Nat)) :
    HttpdState.unread { s.state with infd := ⟨w, cuts⟩ } = w := by
  have hnil : s.state.input.contents = [] := List.length_eq_zero_iff.mp (by rw [Iobuf.length_contents, hempty])
  show s.state.input.contents ++ w = w
  rw [hnil, List.nil_append]

/-- Where the parser comes to retain as much as the ring holds, the ring fills if the bytes come one by one. -/
theorem minuteHttpdReadRequest_one (h : s.state.Sound) (heof : s.state.input.eof = false)
    (hm : rqs.m = s.state.input.read) (hr : rqs.Routed) (hflag : rqs.st ≠ HttpRequestState.hHeadFlag)
    (hone : s.state.infd.OneByOne) (hw : s.state.unread = p ++ q)
    (hp : feed iterate (startFrame s.rq rqs s.state.input s.state.text) (chars p) = .next k')
    (hbig : s.state.input.size ≤ k'.retained) :
    Meets (fun _ => False) (fun status _ => status = 414) (minuteHttpdReadRequest rqs) s := by
  have hzero : (startFrame s.rq rqs s.state.input s.state.text).retained = 0 := by
    show (rqs.m - s.state.input.read).toNat = 0
    rw [hm, BitVec.sub_self]
    rfl
  obtain ⟨p₁, q₁, k₁, hsplit, hk₁, hfull⟩ := feed_retained (hzero ▸ h.input.size.pos) hp hbig
  obtain ⟨u, v, rfl, rfl, -⟩ := chars_eq_append hsplit
  have hlong := feed_retained_le hk₁
  rw [hzero, hfull, chars, List.length_map, Nat.zero_add] at hlong
  -- what the ring holds is the beginning of what fills it
  have hw' : s.state.input.contents ++ s.state.infd.stream = u ++ (v ++ q) := by
    rw [← List.append_assoc]
    exact hw
  obtain ⟨u', rfl⟩ : s.state.input.contents <+: u := by
    refine List.prefix_of_prefix_length_le ⟨_, hw'⟩ ⟨_, rfl⟩ ?_
    rw [Iobuf.length_contents]
    exact Nat.le_trans h.input.used_le hlong
  rw [List.append_assoc, List.append_cancel_left_eq] at hw'
  obtain ⟨n, hcuts, hn⟩ := hone
  have hlen : u'.length ≤ s.state.infd.stream.length := by
    rw [hw', List.length_append]
    exact Nat.le_add_right _ _
  have hstart := fed_start h hm hr hflag
  have hunread : s.state.unread = s.state.input.contents ++ (u' ++ (v ++ q)) := by rw [← hw']; rfl
  rw [chars_append] at hk₁
  obtain ⟨k₂, hk₂, hk₁⟩ := feed_prefix_next hk₁
  rw [minuteHttpdReadRequest, meets_bind, meets_get]
  by_cases hused : s.state.input.used = 0
  · have hnil : s.state.input.contents = [] := List.length_eq_zero_iff.mp (by rw [Iobuf.length_contents, hused])
    rw [hnil] at hk₂ hunread
    cases hk₂
    have hpre : decide (minuteIobufUsed s.state.input > 0) = false := by
      rw [decide_eq_false_iff_not, gt_iff_lt, BitVec.lt_def]
      exact Nat.not_lt_of_le (Nat.le_of_eq hused)
    rw [hpre]
    refine readRequestLoop_fills (q := u') (r := v ++ q) hstart hunread ?_ heof hk₁ hfull hcuts (by omega) (by omega)
    rw [hm]
    exact (s.state.input.write_eq_read_iff.mpr hused).symm
  · have hpre : decide (minuteIobufUsed s.state.input > 0) = true := by
      rw [decide_eq_true_iff, gt_iff_lt, BitVec.lt_def]
      exact Nat.pos_of_ne_zero hused
    have hfrom : s.state.input.from rqs.m = s.state.input.contents := by rw [hm, h.input.size.from_read]
    rw [hpre, readRequestLoop, refillUnless, if_pos rfl, meets_bind, meets_pure]
    refine (httpRead_suspends hstart heof (hfrom ▸ hk₂)).bind fun x s₂ h₂ => ?_
    obtain ⟨status, rqs'⟩ := x
    obtain ⟨hstatus, hend, hfed, hinfd, hflags, hmask⟩ := h₂
    dsimp only at hstatus hend hfed ⊢
    rw [if_pos hstatus]
    rw [List.nil_append, hfrom] at hfed
    refine readRequestLoop_fills (q := u') (r := v ++ q) hfed hunread hend ?_ hk₁ ?_ (hinfd ▸ hcuts) (by omega) (by omega)
    · unfold Iobuf.eof at heof ⊢
      rw [hflags]
      exact heof
    · unfold Iobuf.size at hfull ⊢
      rw [hmask]
      exact hfull

/-- Where the parser comes to retain as much as an empty ring holds, some cuts fill the ring. -/
theorem minuteHttpdReadRequest_fills (hs : s.state.input.Valid) (hempty : s.state.input.used = 0)
    (heof : s.state.input.eof = false) (hm : rqs.m = s.state.input.read) (hr : rqs.Routed)
    (hflag : rqs.st ≠ HttpRequestState.hHeadFlag) (hw : w = p ++ q)
    (hp : feed iterate (startFrame s.rq rqs s.state.input s.state.text) (chars p) = .next k')
    (hbig : s.state.input.size ≤ k'.retained) :
    ∃ cuts, none ∉ cuts ∧ Meets (fun _ => False) (fun status _ => status = 414) (minuteHttpdReadRequest rqs)
      { s with state.infd := ⟨w, cuts⟩ } := by
  have hcuts : none ∉ List.replicate w.length (some 0) := fun h => by cases (List.mem_replicate.mp h).2
  have hunread := unread_streaming (w := w) hempty (List.replicate w.length (some 0))
  exact ⟨_, hcuts, minuteHttpdReadRequest_one (s := { s with state.infd := ⟨w, List.replicate w.length (some 0)⟩ })
    (sound_streaming hs heof hcuts) heof hm hr hflag ⟨_, rfl, Nat.le_refl _⟩ (hunread.trans hw) hp hbig⟩

theorem streams_of_feed (hs : s.state.input.Valid) (hempty : s.state.input.used = 0) (heof : s.state.input.eof = false)
    (hm : rqs.m = s.state.input.read) (hr : rqs.Routed) (hflag : rqs.st ≠ HttpRequestState.hHeadFlag)
    (hhead : feed iterate (startFrame s.rq rqs s.state.input s.state.text) (chars w) = .halt (.ok k, chars rest)) :
    (∀ cuts, none ∉ cuts → Meets (fun _ => False)
        (fun status s' => status = 0 ∧ s'.rq = k.rq ∧ s'.state.text = k.text ∧ s'.state.unread = rest)
        (minuteHttpdReadRequest rqs) { s with state.infd := ⟨w, cuts⟩ }) ↔
      RetainsBelow s.state.input.size (startFrame s.rq rqs s.state.input s.state.text) w := by
  constructor
  · intro hall p q k' hw hp
    by_contra hbig
    obtain ⟨cuts, hcuts, hfills⟩ :=
      minuteHttpdReadRequest_fills hs hempty heof hm hr hflag hw hp (Nat.le_of_not_lt hbig)
    obtain ⟨status, s', hok, hstatus⟩ := hfills.exists_ok
    have hzero := ((meets_ok hok).mp (hall _ hcuts)).1
    rw [hstatus] at hzero
    exact absurd hzero (by decide)
  · intro hfits cuts hcuts
    have hstreams := minuteHttpdReadRequest_streams (s := { s with state.infd := ⟨w, cuts⟩ })
      (sound_streaming hs heof hcuts) hm hr hflag
    have hleft : runLeft (feed iterate (startFrame s.rq rqs s.state.input s.state.text)
        (streamChars w s.state.input.eof)) = some (0, k.rq, k.text) := by
      rw [heof, streamChars, if_neg (by decide), List.append_nil, hhead]
      rfl
    rw [unread_streaming hempty] at hstreams
    refine (hstreams.imp_error fun e he => ?_).imp fun status s' hs' => ?_
    · have hnone := hleft.symm.trans he.2
      cases hnone
    · cases hs' with
      | parsed hl hn hopen hrest =>
        have heq := hleft.symm.trans hl
        rw [Option.some.injEq, Prod.mk.injEq, Prod.mk.injEq] at heq
        obtain ⟨hzero, hrq, htext⟩ := heq
        obtain ⟨k₁, hk₁, -⟩ := hrest hzero.symm heof
        have hsame := hhead.symm.trans hk₁
        rw [Step.halt.injEq, Prod.mk.injEq] at hsame
        exact ⟨by rw [← hzero]; rfl, hrq.symm, htext.symm, (chars_inj hsame.2).symm⟩
      | ended hfed =>
        have hsame := hhead.symm.trans hfed
        cases hsame
      | full hw hfed hk => exact absurd hk (Nat.ne_of_lt (hfits _ _ _ hw hfed))

end

/-- The ring with no more than its first `n` bytes. -/
def Iobuf.showing (io : Iobuf) (n : Nat) : Iobuf := { io with write := io.read + BitVec.ofNat 32 n }

/-- If the call stops for more, it leaves fewer than `n` bytes in the ring. -/
def ReadResult.LeavesBelow (n : Nat) : ReadResult → Prop
  | .code c _ _ io _ => c = eagain → io.used < n
  | .fault => True
  | .spin => True

instance ReadResult.LeavesBelow.decidable (n : Nat) : ∀ r, Decidable (ReadResult.LeavesBelow n r)
  | .code c _ _ io _ => inferInstanceAs (Decidable (c = eagain → io.used < n))
  | .fault => .isTrue trivial
  | .spin => .isTrue trivial

section

variable {io : Iobuf} {rq : MinuteHttpRq} {rqs : MinuteHttpRqs} {text : Textint} {n : Nat}

theorem Iobuf.used_showing (h : io.Valid) (hn : n ≤ io.used) : (io.showing n).used = n := by
  have hle := h.size.le
  have hu := h.used_le
  have heq : minuteIobufUsed (io.showing n) = BitVec.ofNat 32 n := by
    show io.read + BitVec.ofNat 32 n - io.read = _
    rw [add_sub_comm, BitVec.sub_self, BitVec.zero_add]
  rw [Iobuf.used, heq, BitVec.toNat_ofNat]
  omega

theorem Iobuf.contents_showing (h : io.Valid) (hn : n ≤ io.used) :
    (io.showing n).contents = io.contents.take n := by
  unfold Iobuf.contents
  rw [Iobuf.used_showing h hn, Ring.take_cells _ _ _ _ hn]
  rfl

/-- What a call leaves of the first bytes is what the parser retains of them. -/
theorem leavesBelow_iff (h : io.Valid) (hopen : io.eof = false) (hm : rqs.m = io.read) (hr : rqs.Routed)
    (hn : n ≤ io.used) (size : Nat) :
    (minuteHttpRead rq rqs (io.showing n) text).LeavesBelow size ↔
      ∀ k', feed iterate (startFrame rq rqs io text) (chars (io.contents.take n)) = .next k' → k'.retained < size := by
  have hopen' : (io.showing n).eof = false := hopen
  have hsize : (io.showing n).SizeOk := h.size
  have hm' : rqs.m = (io.showing n).read := hm
  have hread : minuteHttpRead rq rqs (io.showing n) text = conclude (io.showing n) rqs
      (feed iterate (startFrame rq rqs io text) (chars (io.contents.take n))) := by
    rw [minuteHttpRead_eq, hm', hsize.from_read, Iobuf.contents_showing h hn]
    rfl
  have hk : Routed (startFrame rq rqs io text) := startFrame_routed hr rq io text
  rw [hread]
  cases hf : feed iterate (startFrame rq rqs io text) (chars (io.contents.take n)) with
  | next k =>
    have hend : (io.showing n).write = k.s.m := by
      rw [(feed_m hf).1, chars, List.length_map, List.length_take_of_le (by rw [Iobuf.length_contents]; exact hn)]
      show io.read + _ = rqs.m + _
      rw [hm]
    have hused : Iobuf.used { io.showing n with read := k.b } = k.retained := by
      show ((io.showing n).write - k.b).toNat = _
      rw [hend]
      rfl
    simp only [conclude, hopen', suspend, ReadResult.LeavesBelow, Bool.false_eq_true, if_false, forall_const,
      Step.next.injEq, forall_eq']
    rw [hused]
  | halt x =>
    obtain ⟨r, rest⟩ := x
    refine iff_of_true ?_ fun k' h => by cases h
    rw [conclude]
    cases r with
    | ok k => exact fun h => absurd h (show (0 : Nat) ≠ eagain by decide)
    | ret c k =>
      obtain ⟨p, c', k₁, -, hp, hc⟩ := feed_halt hf
      exact fun h => absurd h ((iterate_flagInside (feed_routed hk hp)).2 _ _ hc).2
    | fault => trivial
    | spin => trivial

end

/-- A head that a large ring holds as a whole is accepted where the parser, started on an empty ring, ends it. -/
theorem accepted_feed {s : HttpdResponse} {whole io' : Iobuf} {hmask : Uint} {rq' : MinuteHttpRq} {rqs' : MinuteHttpRqs}
    {text' : Textint} (hwhole : whole.Valid) (hopen : whole.eof = false) (hread : whole.read = s.state.input.read)
    (haccepted : minuteHttpRead s.rq (minuteHttpRqsInit hmask whole) whole s.state.text =
      .code 0 rq' rqs' io' text') :
    startFrame s.rq (minuteHttpRqsInit hmask whole) whole s.state.text =
        startFrame s.rq (minuteHttpRqsInit hmask s.state.input) s.state.input s.state.text ∧
      ∃ k, feed iterate (startFrame s.rq (minuteHttpRqsInit hmask s.state.input) s.state.input s.state.text)
          (chars whole.contents) = .halt (.ok k, chars io'.contents) ∧ rq' = k.rq ∧ text' = k.text := by
  have hframe : startFrame s.rq (minuteHttpRqsInit hmask whole) whole s.state.text =
      startFrame s.rq (minuteHttpRqsInit hmask s.state.input) s.state.input s.state.text := by
    unfold startFrame minuteHttpRqsInit
    rw [hread]
  have hrouted : (minuteHttpRqsInit hmask whole).Routed := rfl
  obtain ⟨k, rest, hf, rfl, -, rfl, rfl⟩ := read_ok (startFrame_routed hrouted s.rq whole s.state.text) haccepted
  have hall : whole.readable (minuteHttpRqsInit hmask whole).m = chars (whole.from whole.read) := by
    rw [Iobuf.readable, hopen, if_neg (by decide), List.append_nil]
    rfl
  rw [hall] at hf
  have hrest := contents_behind hwhole.size (whole.within_read) hf
  rw [← hrest, hwhole.size.from_read, hframe] at hf
  exact ⟨hframe, k, hf, rfl, rfl⟩

/-- **Streaming through a ring of any size.** A head is accepted that a large ring holds as a whole. Read through
a small ring it gives the same request and text and leaves the same bytes unread, however the stream is cut into
reads, exactly if the parser leaves fewer bytes than the small ring holds wherever it stops for more. -/
theorem request_streams_iff {s : HttpdResponse} {whole io' : Iobuf} {hmask : Uint} {rq' : MinuteHttpRq}
    {rqs' : MinuteHttpRqs} {text' : Textint} (hs : s.state.input.Valid) (hempty : s.state.input.used = 0)
    (heof : s.state.input.eof = false) (hwhole : whole.Valid) (hopen : whole.eof = false)
    (hread : whole.read = s.state.input.read)
    (haccepted : minuteHttpRead s.rq (minuteHttpRqsInit hmask whole) whole s.state.text =
      .code 0 rq' rqs' io' text') :
    (∀ cuts, none ∉ cuts → Meets (fun _ => False)
        (fun status s' => status = 0 ∧ s'.rq = rq' ∧ s'.state.text = text' ∧ s'.state.unread = io'.contents)
        (minuteHttpdReadRequest (minuteHttpRqsInit hmask s.state.input))
        { s with state.infd := ⟨whole.contents, cuts⟩ }) ↔
      ∀ n ≤ whole.used, (minuteHttpRead s.rq (minuteHttpRqsInit hmask whole) (whole.showing n)
        s.state.text).LeavesBelow s.state.input.size := by
  obtain ⟨hframe, k, hf, rfl, rfl⟩ := accepted_feed hwhole hopen hread haccepted
  have hrouted : (minuteHttpRqsInit hmask whole).Routed := rfl
  have hm : (minuteHttpRqsInit hmask whole).m = whole.read := rfl
  have hflag : (minuteHttpRqsInit hmask s.state.input).st ≠ HttpRequestState.hHeadFlag :=
    show HttpRequestState.hInitial ≠ HttpRequestState.hHeadFlag by decide
  have hrouted' : (minuteHttpRqsInit hmask s.state.input).Routed := rfl
  refine (streams_of_feed hs hempty heof rfl hrouted' hflag hf).trans ?_
  rw [← hframe]
  constructor
  · intro h n hn
    refine (leavesBelow_iff hwhole hopen hm hrouted hn _).mpr fun k' hk' => ?_
    exact h _ _ k' (List.take_append_drop n whole.contents).symm hk'
  · intro h p q k' hw hk'
    have hn : p.length ≤ whole.used := by
      rw [← Iobuf.length_contents, hw, List.length_append]
      exact Nat.le_add_right _ _
    refine (leavesBelow_iff hwhole hopen hm hrouted hn _).mp (h _ hn) k' ?_
    rw [hw, List.take_left']
    · exact hk'
    · rfl

/-- A connection on which nothing has come in yet, with an input ring of `size` bytes. -/
def streaming (size : Uint) : HttpdResponse :=
  .init { connected "" with input := minuteIobufInit size fun _ => 0 }

/-- The head that `whole` holds is read through a ring of `size` bytes, however it is cut. -/
def StreamsThrough (size : Uint) (whole : Iobuf) (rq : MinuteHttpRq) (text : Textint) (rest : List Byte) : Prop :=
  ∀ cuts, none ∉ cuts → Meets (fun _ => False)
    (fun status s' => status = 0 ∧ s'.rq = rq ∧ s'.state.text = text ∧ s'.state.unread = rest)
    (minuteHttpdReadRequest (minuteHttpRqsInit minuteAllHeaders (streaming size).state.input))
    { streaming size with state.infd := ⟨whole.contents, cuts⟩ }

/-- An ordinary head through a ring of 16 bytes; but with 64 blanks behind the method not through one of 64. -/
theorem request_streams_blanks :
    let short := Iobuf.holding 64 (bytes "GET /a HTTP/1.1\r\nHost: b\r\n\r\n")
    let long := Iobuf.holding 128 (bytes "GET" ++ List.replicate 64 32 ++ bytes "/ HTTP/1.1\r\n\r\n")
    (∃ rq text, StreamsThrough 16 short rq text []) ∧
    ∃ rq rqs io text, minuteHttpRead .zero (minuteHttpRqsInit minuteAllHeaders long) long (streaming 64).state.text =
      .code 0 rq rqs io text ∧ ¬StreamsThrough 64 long rq text io.contents := by
  intro short long
  constructor
  · have hwhole : short.Valid := Iobuf.valid_of 6 (by decide) rfl (by decide)
    have hopen : short.eof = false := by decide
    have hs : (streaming 16).state.input.Valid := Iobuf.valid_of 4 (by decide) rfl (by decide)
    obtain ⟨rq, rqs, io, text, haccepted, hrest⟩ := (ReadResult.succeeds_iff (P := fun _ _ io _ => io.contents = [])
      (r := minuteHttpRead .zero (minuteHttpRqsInit minuteAllHeaders short) short (streaming 16).state.text)).mp
      (by decide +kernel)
    refine ⟨rq, text, ?_⟩
    rw [StreamsThrough, ← hrest]
    exact (request_streams_iff hs (by decide) (by decide) hwhole hopen rfl haccepted).mpr (by decide +kernel)
  · have hwhole : long.Valid := Iobuf.valid_of 7 (by decide) rfl (by decide +kernel)
    have hopen : long.eof = false := by decide
    have hs : (streaming 64).state.input.Valid := Iobuf.valid_of 6 (by decide) rfl (by decide)
    obtain ⟨rq, rqs, io, text, haccepted, -⟩ := (ReadResult.succeeds_iff (P := fun _ _ _ _ => True)
      (r := minuteHttpRead .zero (minuteHttpRqsInit minuteAllHeaders long) long (streaming 64).state.text)).mp
      (by decide +kernel)
    refine ⟨rq, rqs, io, text, haccepted, fun hall => ?_⟩
    have hbelow := (request_streams_iff hs (by decide) (by decide) hwhole hopen rfl haccepted).mp hall 67
      (by decide +kernel)
    exact absurd hbelow (by decide +kernel)

/-! ## The marks of the parser -/

/-- A run that halts on the bytes has stepped on each of them that it came to. -/
theorem eachStep_bytes {k₀ : Frame} {w : List Byte} {r : Halt × List Int} {size : Nat}
    (hf : feed iterate k₀ (chars w) = .halt r) :
    EachStep iterate (fun _ k _ => k.retained < size) k₀ (chars w) ↔ RetainsBelow size k₀ w := by
  constructor
  · intro h p q k hw hp
    obtain _ | ⟨b, q⟩ := q
    · rw [List.append_nil] at hw
      rw [hw, hp] at hf
      cases hf
    · exact h (chars p) b.toInt (chars q) k (by rw [hw, chars_append]; rfl) hp
  · intro h p c q k hsplit hp
    obtain ⟨u, v, hw, rfl, -⟩ := chars_eq_append hsplit
    exact h u v k hw hp

/-- **A head and the marks.** A head that a large ring holds as a whole, and of which it is accepted, is read through a
ring of any size as it is there, however the stream is cut into reads, exactly if the parser retains fewer bytes than
the ring holds before each character of it. Otherwise some cuts fill the ring, and the answer is 414. -/
theorem head_streams_iff {s : HttpdResponse} {whole io' : Iobuf} {hmask : Uint} {rq' : MinuteHttpRq}
    {rqs' : MinuteHttpRqs} {text' : Textint} (hs : s.state.input.Valid) (hempty : s.state.input.used = 0)
    (heof : s.state.input.eof = false) (hwhole : whole.Valid) (hopen : whole.eof = false)
    (hread : whole.read = s.state.input.read)
    (haccepted : minuteHttpRead s.rq (minuteHttpRqsInit hmask whole) whole s.state.text =
      .code 0 rq' rqs' io' text') :
    ((∀ cuts, none ∉ cuts → Meets (fun _ => False)
        (fun status s' => status = 0 ∧ s'.rq = rq' ∧ s'.state.text = text' ∧ s'.state.unread = io'.contents)
        (minuteHttpdReadRequest (minuteHttpRqsInit hmask s.state.input))
        { s with state.infd := ⟨whole.contents, cuts⟩ }) ↔
      EachStep iterate (fun _ k _ => k.retained < s.state.input.size)
        (startFrame s.rq (minuteHttpRqsInit hmask s.state.input) s.state.input s.state.text)
        (chars whole.contents)) ∧
    (¬EachStep iterate (fun _ k _ => k.retained < s.state.input.size)
        (startFrame s.rq (minuteHttpRqsInit hmask s.state.input) s.state.input s.state.text)
        (chars whole.contents) →
      ∃ cuts, none ∉ cuts ∧ Meets (fun _ => False) (fun status _ => status = 414)
        (minuteHttpdReadRequest (minuteHttpRqsInit hmask s.state.input))
        { s with state.infd := ⟨whole.contents, cuts⟩ }) := by
  obtain ⟨-, k, hf, rfl, rfl⟩ := accepted_feed hwhole hopen hread haccepted
  have hrouted : (minuteHttpRqsInit hmask s.state.input).Routed := rfl
  have hflag : (minuteHttpRqsInit hmask s.state.input).st ≠ HttpRequestState.hHeadFlag :=
    show HttpRequestState.hInitial ≠ HttpRequestState.hHeadFlag by decide
  have hmarks := @eachStep_bytes _ _ _ s.state.input.size hf
  refine ⟨(streams_of_feed hs hempty heof rfl hrouted hflag hf).trans hmarks.symm, fun hno => ?_⟩
  simp only [hmarks, RetainsBelow, not_forall] at hno
  obtain ⟨p, q, k', hw, hp, hbig⟩ := hno
  exact minuteHttpdReadRequest_fills hs hempty heof rfl hrouted hflag hw hp (Nat.le_of_not_lt hbig)

/-- An ordinary head through a ring of 64 bytes. -/
theorem head_streams_ordinary :
    let whole := Iobuf.holding 128
      (bytes "GET /a?b HTTP/1.1\r\nHost: b\r\nContent-Length: 1234\r\nAccept: text/html, text/plain\r\n\r\nrest")
    ∃ rq text, StreamsThrough 64 whole rq text (bytes "rest") := by
  intro whole
  have hwhole : whole.Valid := Iobuf.valid_of 7 (by decide) rfl (by decide +kernel)
  have hopen : whole.eof = false := by decide
  have hs : (streaming 64).state.input.Valid := Iobuf.valid_of 6 (by decide) rfl (by decide)
  obtain ⟨rq, rqs, io, text, haccepted, hrest⟩ := (ReadResult.succeeds_iff
    (P := fun _ _ io _ => io.contents = bytes "rest")
    (r := minuteHttpRead .zero (minuteHttpRqsInit minuteAllHeaders whole) whole (streaming 64).state.text)).mp
    (by decide +kernel)
  refine ⟨rq, text, ?_⟩
  rw [StreamsThrough, ← hrest]
  exact (head_streams_iff hs (by decide) (by decide) hwhole hopen rfl haccepted).1.mpr (by decide +kernel)

/-- With a run of 64 blanks behind the method the head is accepted in a ring of 128 bytes, and refused with 414 in one
of 64. -/
theorem head_stuck_blanks :
    let whole := Iobuf.holding 128 (bytes "GET" ++ List.replicate 64 32 ++ bytes "/ HTTP/1.1\r\n\r\n")
    ∃ rq rqs io text, minuteHttpRead .zero (minuteHttpRqsInit minuteAllHeaders whole) whole (streaming 64).state.text =
        .code 0 rq rqs io text ∧
      ¬StreamsThrough 64 whole rq text io.contents ∧
      ∃ cuts, none ∉ cuts ∧ Meets (fun _ => False) (fun status _ => status = 414)
        (minuteHttpdReadRequest (minuteHttpRqsInit minuteAllHeaders (streaming 64).state.input))
        { streaming 64 with state.infd := ⟨whole.contents, cuts⟩ } := by
  intro whole
  have hwhole : whole.Valid := Iobuf.valid_of 7 (by decide) rfl (by decide +kernel)
  have hs : (streaming 64).state.input.Valid := Iobuf.valid_of 6 (by decide) rfl (by decide)
  obtain ⟨rq, rqs, io, text, haccepted, -⟩ := (ReadResult.succeeds_iff (P := fun _ _ _ _ => True)
    (r := minuteHttpRead .zero (minuteHttpRqsInit minuteAllHeaders whole) whole (streaming 64).state.text)).mp
    (by decide +kernel)
  have hsplit : whole.contents = whole.contents.take 67 ++ whole.contents.drop 67 := (List.take_append_drop _ _).symm
  obtain ⟨k, hk, hbig⟩ := Step.Holds.exists_next
    (x := feed iterate (startFrame .zero (minuteHttpRqsInit minuteAllHeaders (streaming 64).state.input)
      (streaming 64).state.input (streaming 64).state.text) (chars (whole.contents.take 67)))
    (P := fun k => 64 ≤ k.retained) (by decide +kernel)
  have hrouted : (minuteHttpRqsInit minuteAllHeaders (streaming 64).state.input).Routed := rfl
  obtain ⟨cuts, hcuts, hfills⟩ := minuteHttpdReadRequest_fills (s := streaming 64) hs (by decide) (by decide) rfl
    hrouted (by decide) hsplit hk hbig
  refine ⟨rq, rqs, io, text, haccepted, fun hall => ?_, cuts, hcuts, hfills⟩
  obtain ⟨status, s', hok, hstatus⟩ := hfills.exists_ok
  have hzero := ((meets_ok hok).mp (hall cuts hcuts)).1
  rw [hstatus] at hzero
  exact absurd hzero (by decide)

end MinuteHttp
