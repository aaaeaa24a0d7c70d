import MinuteHttp.Libhttp.Switch

/-!
# `minute_http_read` (`libhttp/http.c`)

`iterate` is one turn of the `while (1)` loop on a character: the passes through the `switch` (which
hand the character on by `reset`), then `++s.m` and the test for the end of the head. `readLoop` is
the loop with its fetch from the ring, and `minuteHttpRead` the whole call. The same machine fed from
a list (`Feed.feed iterate`) is what the proofs work on; `readLoop_eq` says that it is the loop.
-/

namespace MinuteHttp

open HttpRequestState

/-- How the loop ends in a turn: `return 0`, another `return`, a faulting access, or (never, see
`iterate_ne_spin`) more passes than the model allows. -/
inductive Halt where
  | ok (k : Frame)
  | ret (code : Nat) (k : Frame)
  | fault
  | spin

/-- `++s.m` -/
def Frame.advance (k : Frame) : Frame := { k with s := { k.s with m := k.s.m + 1 } }

/-- The end of a turn: `++s.m` and `if (s.nl > 1)`. -/
def finishTurn : Option Leave → Feed.Step Frame Halt
  | none => .halt .spin
  | some .fault => .halt .fault
  | some (.ret code k) => .halt (.ret code k)
  | some (.brk k) => if k.s.nl > 1 then .halt (.ok k.advance) else .next k.advance

/-- More passes than any chain of `reset`s makes. -/
def passLimit : Nat := 8

/-- One turn of the loop on the character `c`. -/
def iterate (k : Frame) (c : Int) : Feed.Step Frame Halt :=
  finishTurn (Feed.drive (fun x => switch x.1 x.2) passLimit (k, c))

/-- `EAGAIN` -/
def eagain : Nat := 11

/-- `H_EOF` -/
def hEof : Int := -1

/-- What a call of `minute_http_read` leaves behind. -/
inductive ReadResult where
  | code (n : Nat) (rq : MinuteHttpRq) (rqs : MinuteHttpRqs) (io : Iobuf) (text : Textint)
  | fault
  | spin

/-- The call returned 0, and `P` holds of what it left behind. -/
def ReadResult.Succeeds (P : MinuteHttpRq → MinuteHttpRqs → Iobuf → Textint → Prop) :
    ReadResult → Prop
  | .code n rq rqs io text => n = 0 ∧ P rq rqs io text
  | _ => False

instance ReadResult.Succeeds.decidable (P : MinuteHttpRq → MinuteHttpRqs → Iobuf → Textint → Prop)
    [∀ rq rqs io text, Decidable (P rq rqs io text)] : ∀ r, Decidable (ReadResult.Succeeds P r)
  | .code n rq rqs io text => inferInstanceAs (Decidable (n = 0 ∧ P rq rqs io text))
  | .fault => .isFalse id
  | .spin => .isFalse id

theorem ReadResult.succeeds_iff {P : MinuteHttpRq → MinuteHttpRqs → Iobuf → Textint → Prop}
    {r : ReadResult} :
    r.Succeeds P ↔ ∃ rq rqs io text, r = .code 0 rq rqs io text ∧ P rq rqs io text := by
  constructor
  · intro h
    cases r with
    | code n rq rqs io text =>
      obtain ⟨rfl, h⟩ := h
      exact ⟨rq, rqs, io, text, rfl, h⟩
    | fault => exact h.elim
    | spin => exact h.elim
  · rintro ⟨rq, rqs, io, text, rfl, h⟩
    exact ⟨rfl, h⟩

/-- The `return EAGAIN` branch. -/
def suspend (io : Iobuf) (k : Frame) : ReadResult :=
  .code eagain k.rq { k.s with tries := k.tstate } { io with read := k.b } k.text

/-- The other returns; an error leaves `*rqs` and `io` as the call found them. -/
def finish (io : Iobuf) (rqs : MinuteHttpRqs) : Halt → ReadResult
  | .ok k => .code 0 k.rq k.s { io with read := k.s.m } k.text
  | .ret code k => .code code k.rq rqs io k.text
  | .fault => .fault
  | .spin => .spin

/-- The `while (1)` loop, for as many turns as `fuel` says. -/
def readLoop (io : Iobuf) (rqs : MinuteHttpRqs) : Nat → Frame → ReadResult
  | 0, _ => .spin
  | fuel + 1, k =>
    let turn (c : Int) : ReadResult :=
      match iterate k c with
      | .next k' => readLoop io rqs fuel k'
      | .halt h => finish io rqs h
    if k.s.m = io.write then if io.eof then turn hEof else suspend io k
    else turn (io.at k.s.m).toInt

/-- The locals as a call sets them up. -/
def startFrame (rq : MinuteHttpRq) (rqs : MinuteHttpRqs) (io : Iobuf) (text : Textint) : Frame :=
  ⟨rq, rqs, text, io.read, rqs.tries, none⟩

/-- `minute_http_read`: one turn for each visible byte and one for the end of file. -/
def minuteHttpRead (rq : MinuteHttpRq) (rqs : MinuteHttpRqs) (io : Iobuf) (text : Textint) :
    ReadResult :=
  readLoop io rqs ((io.write - rqs.m).toNat + 1) (startFrame rq rqs io text)

/-- `minute_http_rqs_init` -/
def minuteHttpRqsInit (hmask : Uint) (io : Iobuf) : MinuteHttpRqs :=
  ⟨false, 0, 0, ⟨0, 0⟩, io.read, 0, hInitial, hInitial, 0, hmask⟩

/-- `minute_http_init`: the parser state and the text buffer. -/
def minuteHttpInit (hmask : Uint) (io : Iobuf) (text : Textint) : MinuteHttpRqs × Textint :=
  (minuteHttpRqsInit hmask io, { text with data := Block.blit text.data 0 [0], text := 1, ints := text.size })

/-- `minute_http_init_trailers` -/
def minuteHttpInitTrailers (hmask : Uint) (io : Iobuf) : MinuteHttpRqs :=
  { minuteHttpRqsInit hmask io with st := hHeader }

/-- `MINUTE_ALL_HEADERS` -/
def minuteAllHeaders : Uint := ~~~0

end MinuteHttp
