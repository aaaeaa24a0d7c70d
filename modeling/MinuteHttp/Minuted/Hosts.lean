import MinuteHttp.Libhttp.Store
import MinuteHttp.Libhttp.Length
import MinuteHttp.Minuted.Tap

/-!
# The host of a request (`minuted_tap_head` and `tap_tcl_get_header`, `minuted/tap.c`)

`minuted_tap_head` walks the stored pairs to find the vhost, and `get-header host` walks them for the
application. The first loop has no `break` and ends with the last `Host`, or with `default`; the second
stops at the first, or answers nothing. So they agree exactly where there is a `Host` and the first and
the last of them say the same (`host_same_iff`).
-/

namespace MinuteHttp

open Block HttpRequestState Feed

/-! ## The two loops -/

/-- The C string at offset `o`. Where a string is stored its header's number follows in the block, and has
zero bytes, so that the string ends inside the block. -/
def cString (t : Textint) (o : Nat) : List Byte :=
  (slice t.data o (t.size.toNat - o)).takeWhile (· ≠ 0)

/-- The indices of `for(i = 0; i < ints; i += 2)`. -/
def evens (ints : Nat) : List Nat := (List.range ((ints + 1) / 2)).map (2 * ·)

/-- `minute_textint_gets(minute_textint_geti(i+1, text), text)` -/
def storedValue (text : Textint) (i : Nat) : List Byte :=
  cString text (minuteTextintGets (minuteTextintGeti ((i : Int) + 1) text).toInt text).toNat

/-- `minute_textint_geti(i, text) == h` -/
def isStored (h : HttpRequestHeader) (text : Textint) (i : Nat) : Bool :=
  minuteTextintGeti (i : Int) text == BitVec.ofNat 32 h.code

def sDefault : List Byte := bytes "default"

/-- `host_header`, as the loop of `minuted_tap_head` leaves it. -/
def minutedTapHeadHost (text : Textint) : List Byte :=
  (evens (minuteTextintIntsize text).toNat).foldl
    (fun hostHeader i => if isStored .host text i then storedValue text i else hostHeader) sDefault

/-- `tap_tcl_get_header`: the result, or `none` for `TCL_ERROR`. -/
def tapTclGetHeader (rq : MinuteHttpRq) (text : Textint) (header : List Byte) : Option (List Byte) :=
  match minutedTapRequestHeader header with
  | .unknownHeader => none
  | .contentLength =>
    some (if hasFlag rq.flags httpContentLength then bytes (toString rq.contentLength.toInt) else [])
  | .transferEncoding => some (if hasFlag rq.flags httpTransferChunked then bytes "chunked" else [])
  | h =>
    match (evens (minuteTextintIntsize text).toNat).find? (isStored h text) with
    | some i => some (storedValue text i)
    | none => some []

/-! ## What they find -/

/-- The values of the stored `Host` headers, in order. -/
def hosts (text : Textint) : List (List Byte) :=
  ((pairs text.integers).filter fun p => p.1 == BitVec.ofNat 32 HttpRequestHeader.host.code).map
    fun p => cString text (minuteTextintGets p.2.toInt text).toNat

/-- The pairs of a list are its elements at the even indices with their neighbours. -/
theorem pairs_eq_map {is : List Uint} (h : is.length % 2 = 0) (d : Uint) :
    pairs is = (evens is.length).map fun i => (is.getD i d, is.getD (i + 1) d) := by
  unfold evens
  rw [List.map_map]
  induction is using pairs.induct with
  | case1 r o is ih =>
    have heven : is.length % 2 = 0 := by simp only [List.length_cons] at h; omega
    have hlen : ((r :: o :: is).length + 1) / 2 = (is.length + 1) / 2 + 1 := by
      simp only [List.length_cons]
      omega
    rw [pairs, ih heven, hlen, List.range_succ_eq_map, List.map_cons, List.map_map]
    rfl
  | case2 is hne =>
    obtain _ | ⟨r, _ | ⟨o, is⟩⟩ := is
    · rfl
    · simp at h
    · exact (hne r o is rfl).elim

theorem hosts_eq {text : Textint} (h : text.integers.length % 2 = 0) :
    hosts text =
      ((evens (minuteTextintIntsize text).toNat).filter (isStored .host text)).map (storedValue text) := by
  have hget : ∀ i, i < (minuteTextintIntsize text).toNat →
      text.integers.getD i 0 = minuteTextintGeti (i : Int) text := by
    intro i hi
    rw [List.getD_eq_getElem?_getD, getElem?_integers hi, Option.getD_some]
  unfold hosts
  rw [pairs_eq_map h 0, length_integers, List.filter_map, List.map_map]
  rw [length_integers] at h
  have hmem : ∀ i ∈ evens (minuteTextintIntsize text).toNat, i + 1 < (minuteTextintIntsize text).toNat := by
    intro i hi
    obtain ⟨j, hj, rfl⟩ := List.mem_map.mp hi
    have hj := List.mem_range.mp hj
    omega
  have hfilter : (evens (minuteTextintIntsize text).toNat).filter
      ((fun p : Uint × Uint => p.1 == BitVec.ofNat 32 HttpRequestHeader.host.code) ∘
        fun i => (text.integers.getD i 0, text.integers.getD (i + 1) 0)) =
      (evens (minuteTextintIntsize text).toNat).filter (isStored .host text) := by
    apply List.filter_congr
    intro i hi
    simp only [Function.comp_apply, isStored, hget i (Nat.lt_of_succ_lt (hmem i hi))]
  rw [hfilter]
  apply List.map_congr_left
  intro i hi
  simp only [Function.comp_apply, storedValue, hget (i + 1) (hmem i (List.mem_of_mem_filter hi))]
  rfl

/-- A loop that overwrites what it has found ends with the last. -/
theorem foldl_last {α β : Type*} (p : α → Bool) (f : α → β) (l : List α) (d : β) :
    l.foldl (fun acc a => if p a then f a else acc) d = (((l.filter p).map f).getLast?).getD d := by
  induction l using List.reverseRecOn with
  | nil => rfl
  | append_singleton l a ih =>
    rw [List.foldl_append, ih, List.filter_append, List.map_append, List.getLast?_append]
    by_cases ha : p a
    · simp [ha]
    · simp [ha]

theorem minutedTapHeadHost_eq {text : Textint} (h : text.integers.length % 2 = 0) :
    minutedTapHeadHost text = (hosts text).getLast?.getD sDefault := by
  rw [hosts_eq h]
  exact foldl_last _ _ _ _

theorem tapTclGetHeader_host (rq : MinuteHttpRq) {text : Textint} (h : text.integers.length % 2 = 0) :
    tapTclGetHeader rq text (bytes "host") = some ((hosts text).head?.getD []) := by
  have hname : minutedTapRequestHeader (bytes "host") = .host := by decide +kernel
  unfold tapTclGetHeader
  rw [hname, hosts_eq h, List.head?_map, List.head?_filter]
  simp only
  cases (evens (minuteTextintIntsize text).toNat).find? (isStored .host text) with
  | none => rfl
  | some i => rfl

theorem session_even {rq rq₁ : MinuteHttpRq} {hmask : Uint} {io io₁ : Iobuf} {text text₁ : Textint}
    {fs : List Refill} {e : Bool} {rqs₁ : MinuteHttpRqs} (hsize : 4 ∣ text.size.toNat)
    (he : eofAtLast e io fs)
    (h : readSession rq (minuteHttpInit hmask io text).1 io (minuteHttpInit hmask io text).2 fs =
      .code 0 rq₁ rqs₁ io₁ text₁) :
    text₁.integers.length % 2 = 0 := by
  have hleft := left_of_code h
  rw [initSession_left rq hmask text he] at hleft
  have hr : Routed (startFrame rq (minuteHttpInit hmask io text).1 io (minuteHttpInit hmask io text).2) := rfl
  obtain ⟨k', rest, hf, -, rfl⟩ := runLeft_ok hr hleft
  exact (feed_storeInv hr (storeOk_start rq hmask io hsize).1 (Nat.zero_le 1) hf).even

/-- **The vhost's host is the application's host** exactly where there is a `Host` and the first and the
last one have the same value: for every mask, however the request arrives. -/
theorem host_same_iff {rq rq₁ : MinuteHttpRq} {hmask : Uint} {io io₁ : Iobuf} {text text₁ : Textint}
    {fs : List Refill} {e : Bool} {rqs₁ : MinuteHttpRqs} (hsize : 4 ∣ text.size.toNat)
    (he : eofAtLast e io fs)
    (h : readSession rq (minuteHttpInit hmask io text).1 io (minuteHttpInit hmask io text).2 fs =
      .code 0 rq₁ rqs₁ io₁ text₁) :
    tapTclGetHeader rq₁ text₁ (bytes "host") = some (minutedTapHeadHost text₁) ↔
      hosts text₁ ≠ [] ∧ (hosts text₁).head? = (hosts text₁).getLast? := by
  have heven := session_even hsize he h
  rw [tapTclGetHeader_host rq₁ heven, minutedTapHeadHost_eq heven, Option.some.injEq]
  rcases hhosts : hosts text₁ with _ | ⟨first, later⟩
  · have hne : ([] : List Byte) ≠ sDefault := by decide
    exact ⟨fun h => absurd h hne, fun h => absurd rfl h.1⟩
  · obtain ⟨last, hlast⟩ : ∃ last, (first :: later).getLast? = some last :=
      ⟨_, List.getLast?_eq_some_getLast (List.cons_ne_nil first later)⟩
    rw [hlast]
    simp

/-- The two outer ones of three `Host` lines agree. -/
theorem host_same_iff_three :
    let io := Iobuf.holding 4096 (bytes "GET / HTTP/1.1\r\nHost: a\r\nHost: b\r\nVia: c\r\nhost:  a\r\n\r\n")
    let text := minuteTextintInit 64 fun _ => 0
    let init := minuteHttpInit minuteAllHeaders io text
    (readSession .zero init.1 io init.2 []).Succeeds fun rq _ _ text =>
      tapTclGetHeader rq text (bytes "host") = some (minutedTapHeadHost text) := by
  intro io text init
  obtain ⟨rq₁, rqs₁, io₁, text₁, h, hv⟩ := (ReadResult.succeeds_iff
    (P := fun _ _ _ text => hosts text ≠ [] ∧ (hosts text).head? = (hosts text).getLast?)
    (r := readSession .zero init.1 io init.2 [])).mp (by decide +kernel)
  have he : eofAtLast false io [] := by
    show Iobuf.eof _ = false
    decide
  rw [h]
  exact ⟨rfl, (host_same_iff (by decide) he h).mpr hv⟩

/-- The vhost is that of the last `Host`, and the application is told the first. -/
theorem host_same_other :
    let io := Iobuf.holding 4096 (bytes "GET / HTTP/1.1\r\nHost: a\r\nHost: b\r\n\r\n")
    let text := minuteTextintInit 64 fun _ => 0
    let init := minuteHttpInit minuteAllHeaders io text
    (minuteHttpRead .zero init.1 io init.2).Succeeds fun rq _ _ text =>
      minutedTapHeadHost text = bytes "b" ∧ tapTclGetHeader rq text (bytes "host") = some (bytes "a") := by
  decide +kernel

end MinuteHttp
