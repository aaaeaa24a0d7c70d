import MinuteHttp.Libhttp.Iobuf
import Mathlib.Tactic.Common

/-!
# Log messages (`logs` and `logva`, `minuted/main.c`; `minuted_mq_receive`, `minuted/minuted.c`)

A child formats a message into 512 bytes of its stack and sends it to the master, or prints it itself
where there is no queue. `stack` is what the buffer and the memory behind it hold before the call. The
length that is sent and printed is the one that `vsnprintf` returns, which is the length of the whole
message: both paths do what they should exactly for the messages that fit (`log_transport_iff`).
-/

namespace MinuteHttp

open Block

/-- The levels, under which `fatal`, `error`, `warn`, `info`, `debug` and `acclog` log. -/
inductive LogLevel where
  | fatal
  | error
  | warn
  | info
  | debug
  | access
  deriving DecidableEq, Repr

/-- `type`: `'F'`, `'E'`, `'W'`, `'I'`, `'D'` or `'A'`. -/
def LogLevel.type : LogLevel → Byte
  | fatal => 70
  | error => 69
  | warn => 87
  | info => 73
  | debug => 68
  | access => 65

/-- The `switch` in `logs`. -/
def logTag (type : Byte) : String :=
  if type = 70 then "[FATAL] "
  else if type = 69 then "[ERROR] "
  else if type = 87 then " [WARN] "
  else if type = 73 then " [info] "
  else if type = 68 then "[debug] "
  else ""

/-- `logs`: what is written to `stderr`, behind the time. -/
def logs (time : List Byte) (type : Byte) (msg : List Byte) : List Byte :=
  time ++ (logTag type).toList.map (fun c => BitVec.ofNat 8 c.toNat) ++ msg ++ [10]

/-- An `int` as a `size_t`. -/
def sizeT (i : Int) : Nat := (i % 2 ^ 64).toNat

/-- `vsnprintf (buf+o, size, ..)` of a text: as much of it as fits, with its terminator, and the length of
the whole; an error where that is no `int`. -/
def vsnprintf (buf : Nat → Byte) (o size : Nat) (text : List Byte) : (Nat → Byte) × Int :=
  (blit buf o (text.take (size - 1) ++ [0]), if text.length < 2 ^ 31 then text.length else -1)

/-- What becomes of a message: `perror` where the queue does not take it. -/
inductive Logged where
  | printed (out : List Byte)
  | sent (message : List Byte)
  | refused
  deriving DecidableEq, Repr

/-- `mq_send`, to a queue for messages of up to `msgsize` bytes. -/
def mqSend (msgsize : Nat) (buf : Nat → Byte) (len : Nat) : Logged :=
  if len > msgsize then .refused else .sent (slice buf 0 len)

/-- `logva`; `mqd` is the message size of the queue, if there is one. -/
def logva (mqd : Option Nat) (time : List Byte) (type : Byte) (text : List Byte)
    (stack : Nat → Byte) : Logged :=
  let (buf, len) := vsnprintf stack 1 (512 - 1) text
  match mqd with
  | none => .printed (logs time type (slice buf 1 (sizeT len)))
  | some msgsize => mqSend msgsize (blit buf 0 [type]) (sizeT (len + 1))

/-- What `mq_receive` gives. -/
inductive Received where
  | message (message : List Byte)
  | interrupted
  | timedOut
  | failed
  deriving DecidableEq, Repr

/-- `minuted_mq_receive`: what it returns, and what it prints. -/
def minutedMqReceive (time : List Byte) (msgbuf : Nat → Byte) : Received → Int × Option (List Byte)
  | .interrupted => (0, none)
  | .timedOut => (-1, none)
  | .failed => (-2, none)
  | .message message =>
    let r := message.length
    if r = 0 then (0, none)
    else
      let msgbuf := blit (blit msgbuf 0 message) r [0]
      if msgbuf 0 = 65 ∨ msgbuf 0 = 70 ∨ msgbuf 0 = 69 ∨ msgbuf 0 = 87 ∨ msgbuf 0 = 73 ∨ msgbuf 0 = 68 then
        (0, some (logs time (msgbuf 0) (slice msgbuf 1 (r - 1))))
      else (r, none)

/-- The 510 characters of a message that the buffer holds beside its type and its terminator. -/
def kept (text : List Byte) : List Byte := text.take 510

/-- The message arrives: printed by the child or sent to the master, which prints the same, it is the level
and what the buffer holds of the text, and no byte of what the memory held before. -/
structure Transported (level : LogLevel) (text : List Byte) (msgsize : Nat) : Prop where
  direct : ∀ time stack,
    logva none time level.type text stack = .printed (logs time level.type (kept text))
  sent : ∀ time stack,
    logva (some msgsize) time level.type text stack = .sent (level.type :: kept text)
  received : ∀ time stack msgbuf message,
    logva (some msgsize) time level.type text stack = .sent message →
      minutedMqReceive time msgbuf (.message message) = (0, some (logs time level.type (kept text)))

/-! ### What is read of the buffer -/

theorem sizeT_natCast {n : Nat} (h : n < 2 ^ 64) : sizeT n = n := by
  unfold sizeT
  omega

theorem slice_blit_take {α : Type*} (data : Nat → α) (o : Nat) {src : List α} {n : Nat}
    (h : n ≤ src.length) : slice (blit data o src) o n = src.take n := by
  rw [← take_slice _ o src.length n h, slice_blit]

theorem slice_blit_cons {α : Type*} (data : Nat → α) (a : α) (src : List α) {n : Nat}
    (h : n ≤ src.length) :
    slice (blit (blit data 1 src) 0 [a]) 0 (n + 1) = a :: src.take n := by
  have hhead : slice (blit (blit data 1 src) 0 [a]) 0 1 = [a] := slice_blit _ 0 [a]
  have htail : slice (blit (blit data 1 src) 0 [a]) (0 + 1) n = slice (blit data 1 src) 1 n := by
    apply slice_blit_outside
    exact .inr (Nat.le_refl 1)
  rw [Nat.add_comm n 1, slice_add, hhead, htail, slice_blit_take data 1 h]
  rfl

variable {level : LogLevel} {text : List Byte} {msgsize : Nat}

theorem minutedMqReceive_level (time : List Byte) (msgbuf : Nat → Byte) (level : LogLevel)
    (text : List Byte) :
    minutedMqReceive time msgbuf (.message (level.type :: text)) =
      (0, some (logs time level.type text)) := by
  have hword : slice (blit (blit msgbuf 0 (level.type :: text)) (text.length + 1) [0]) 0 (text.length + 1) =
      level.type :: text := by
    rw [slice_blit_outside _ (.inl (by omega))]
    exact slice_blit msgbuf 0 (level.type :: text)
  rw [Nat.add_comm text.length 1, slice_add] at hword
  obtain ⟨hhead, htail⟩ := List.append_inj (hword.trans (List.singleton_append (x := level.type)).symm)
    (length_slice _ 0 1)
  have hfirst : blit (blit msgbuf 0 (level.type :: text)) (1 + text.length) [0] 0 = level.type :=
    List.head_eq_of_cons_eq hhead
  simp only [minutedMqReceive, List.length_cons, Nat.add_sub_cancel]
  rw [if_neg (Nat.succ_ne_zero _), Nat.add_comm text.length 1, hfirst, if_pos (by cases level <;> decide)]
  exact congrArg (fun m => (0, some (logs time level.type m))) htail

/-! ### Messages that fit, and messages that do not -/

theorem vsnprintf_fits (stack : Nat → Byte) (h : text.length < 2 ^ 31) :
    vsnprintf stack 1 (512 - 1) text = (blit stack 1 (kept text ++ [0]), (text.length : Int)) := by
  unfold vsnprintf
  rw [if_pos h, kept]

theorem logva_fits (mqd : Option Nat) (time : List Byte) (type : Byte) (stack : Nat → Byte)
    (h : text.length ≤ 510) (hmqd : ∀ msgsize ∈ mqd, 512 ≤ msgsize) :
    logva mqd time type text stack =
      match mqd with
      | none => .printed (logs time type (kept text))
      | some _ => .sent (type :: kept text) := by
  have hkept : kept text = text := List.take_of_length_le h
  have hread : (kept text ++ [0]).take text.length = kept text := by
    rw [hkept, List.take_left']
    rfl
  have hlen : text.length ≤ (kept text ++ [0]).length := by
    rw [hkept, List.length_append]
    exact Nat.le_add_right _ _
  unfold logva
  rw [vsnprintf_fits stack (by omega)]
  cases mqd with
  | none =>
    simp only
    rw [sizeT_natCast (by omega), slice_blit_take stack 1 hlen, hread]
  | some msgsize =>
    have hsize := hmqd msgsize rfl
    simp only
    rw [show ((text.length : Int) + 1) = ((text.length + 1 : Nat) : Int) from rfl,
      sizeT_natCast (by omega), mqSend, if_neg (by omega), slice_blit_cons stack type _ hlen, hread]

/-- What is printed directly is as long as `vsnprintf` says. -/
theorem logva_direct_length (time : List Byte) (type : Byte) (stack : Nat → Byte) {msg : List Byte}
    (h : logva none time type text stack = .printed (logs time type msg)) :
    msg.length = sizeT (vsnprintf stack 1 (512 - 1) text).2 := by
  rcases hbuf : vsnprintf stack 1 (512 - 1) text with ⟨buf, len⟩
  rw [logva, hbuf] at h
  have hlogs : logs time type (slice buf 1 (sizeT len)) = logs time type msg := Logged.printed.inj h
  have hlen := congrArg List.length hlogs
  simp only [logs, List.length_append, length_slice] at hlen
  show msg.length = sizeT len
  omega

theorem Transported.fits (h : Transported level text msgsize) : text.length ≤ 510 := by
  have hlen := logva_direct_length [] level.type (fun _ => 0) (h.direct [] fun _ => 0)
  have hkept : (kept text).length ≤ 510 := List.length_take_le 510 text
  by_cases hint : text.length < 2 ^ 31
  · rw [vsnprintf_fits _ hint, sizeT_natCast (by omega)] at hlen
    omega
  · simp only [vsnprintf, if_neg hint] at hlen
    rw [hlen] at hkept
    exact absurd hkept (by decide)

/-- **Log transport** is right for the messages of at most 510 characters, and for no others. -/
theorem log_transport_iff (level : LogLevel) (text : List Byte) (msgsize : Nat) (hsize : 512 ≤ msgsize) :
    Transported level text msgsize ↔ text.length ≤ 510 := by
  constructor
  · exact Transported.fits
  · intro h
    have hmqd : ∀ n ∈ some msgsize, 512 ≤ n := fun n hn => Option.some.inj hn ▸ hsize
    refine ⟨fun time stack => logva_fits none time _ stack h (by simp),
      fun time stack => logva_fits (some msgsize) time _ stack h hmqd, ?_⟩
    intro time stack msgbuf message hsent
    rw [logva_fits (some msgsize) time _ stack h hmqd] at hsent
    rw [← Logged.sent.inj hsent]
    exact minutedMqReceive_level time msgbuf level (kept text)

theorem log_transport_iff_line :
    minutedMqReceive [] (fun _ => 0) (.message (73 :: [72, 105])) =
      (0, some (logs [] 73 [72, 105])) := by
  have h := (log_transport_iff .info [72, 105] 512 (by decide)).mpr (by decide)
  exact h.received [] (fun _ => 0) _ _ (h.sent [] fun _ => 0)

/-- The access log line of a request with a long path. -/
theorem log_transport_long : ¬Transported .access (List.replicate 600 97) 8192 := by
  intro h
  have hfits := h.fits
  rw [List.length_replicate] at hfits
  omega

end MinuteHttp
