import MinuteHttp.Minuted.Log
import MinuteHttp.Minuted.Prefork

/-!
# Control messages (`minuted_control_pack` to `minuted_mq_receive`, `minuted/minuted.c`)

The children tell the master of their connections over the queue that also carries their log messages, and the master
reads both into one buffer. Whatever the order in which they come, it unpacks every control message, with its type and
its pid, and nothing else, and prints every log message (`queue_heard`).
-/

namespace MinuteHttp

open Block

/-! ## Packing -/

/-- `for(i = 0; i < sizeof(pid); ++i)` in `minuted_control_pack`, for `n` bytes; a `pid_t` is signed. -/
def packPid : Nat → Uint → List Byte
  | 0, _ => []
  | n + 1, pid => pid.setWidth 8 :: packPid n (pid.sshiftRight 8)

/-- `minuted_control_pack`: the buffer and the return value. -/
def minutedControlPack (buf : Nat → Byte) (type : Byte) (pid : Uint) : (Nat → Byte) × Nat :=
  (blit buf 0 (type :: packPid 4 pid), 5)

/-- `for(i = sizeof(pid)-1; i >= 0; --i)` in `minuted_control_unpack`, from `n` bytes at `l`. -/
def unpackPid (buf : Nat → Byte) (l : Nat) : Nat → Uint → Uint
  | 0, pid => pid
  | i + 1, pid => unpackPid buf l i (pid <<< 8 ||| (buf (l + i)).setWidth 32)

/-- `minuted_control_unpack`: the type and the pid. -/
def minutedControlUnpack (buf : Nat → Byte) : Byte × Uint := (buf 0, unpackPid buf 1 4 0)

@[simp] theorem length_packPid (n : Nat) (pid : Uint) : (packPid n pid).length = n := by
  induction n generalizing pid with
  | zero => rfl
  | succ n ih => rw [packPid, List.length_cons, ih]

/-- The bits of a packed pid. The sign bit that is shifted in does not get that far. -/
theorem getElem?_packPid {n i j : Nat} {pid : Uint} (hi : i < n) (hn : 8 * i + j < 32) (hj : j < 8) :
    ∃ b, (packPid n pid)[i]? = some b ∧ b.getLsbD j = pid.getLsbD (8 * i + j) := by
  induction n generalizing i pid with
  | zero => exact absurd hi (Nat.not_lt_zero i)
  | succ n ih =>
    cases i with
    | zero =>
      refine ⟨pid.setWidth 8, rfl, ?_⟩
      rw [BitVec.getLsbD_setWidth]
      simp [hj]
    | succ i =>
      obtain ⟨b, hb, hbit⟩ : ∃ b, (packPid n (pid.sshiftRight 8))[i]? = some b ∧
          b.getLsbD j = (pid.sshiftRight 8).getLsbD (8 * i + j) := ih (Nat.lt_of_succ_lt_succ hi) (by omega)
      refine ⟨b, hb, hbit.trans ?_⟩
      rw [BitVec.getLsbD_sshiftRight]
      have hlt : 8 + (8 * i + j) < 32 := by omega
      have heq : 8 + (8 * i + j) = 8 * (i + 1) + j := by omega
      rw [if_pos hlt, heq]
      simp
      omega

theorem getLsbD_unpackPid (buf : Nat → Byte) (l n : Nat) (pid : Uint) {j : Nat} (hj : j < 32) :
    (unpackPid buf l n pid).getLsbD j =
      if j < 8 * n then (buf (l + j / 8)).getLsbD (j % 8) else pid.getLsbD (j - 8 * n) := by
  induction n generalizing pid with
  | zero => rfl
  | succ n ih =>
    rw [unpackPid, ih]
    by_cases hlow : j < 8 * n
    · rw [if_pos hlow, if_pos (by omega)]
    · rw [if_neg hlow, BitVec.getLsbD_or, BitVec.getLsbD_shiftLeft, BitVec.getLsbD_setWidth]
      by_cases hhere : j < 8 * (n + 1)
      · have hdiv : j / 8 = n := by omega
        have hmod : j % 8 = j - 8 * n := by omega
        have h8 : j - 8 * n < 8 := by omega
        rw [if_pos hhere, hdiv, hmod, decide_eq_true (Nat.lt_trans h8 (by decide)), decide_eq_true h8]
        rfl
      · rw [if_neg hhere]
        have hsub : j - 8 * n - 8 = j - 8 * (n + 1) := by omega
        have h8 : ¬j - 8 * n < 8 := by omega
        have h32 : j - 8 * n < 32 := by omega
        rw [hsub, decide_eq_true h32, decide_eq_false h8, BitVec.getLsbD_of_ge _ _ (Nat.not_lt.mp h8)]
        exact Bool.or_false _

/-- **A packed pid comes back**, whatever stands in the buffer behind it. -/
theorem unpack_packed {buf : Nat → Byte} {type : Byte} {pid : Uint} (h : slice buf 0 5 = type :: packPid 4 pid) :
    minutedControlUnpack buf = (type, pid) := by
  have hat (i : Nat) (hi : i < 5) : (type :: packPid 4 pid)[i]? = some (buf i) := by
    rw [← h, getElem?_slice, if_pos hi, Nat.zero_add]
  have htype : buf 0 = type := (Option.some.inj (hat 0 (by decide))).symm
  refine Prod.ext htype (BitVec.eq_of_getLsbD_eq fun j hj => ?_)
  show (unpackPid buf 1 4 0).getLsbD j = _
  obtain ⟨b, hb, hbit⟩ : ∃ b, (packPid 4 pid)[j / 8]? = some b ∧ b.getLsbD (j % 8) =
      pid.getLsbD (8 * (j / 8) + j % 8) := getElem?_packPid (by omega) (by omega) (by omega)
  have hbuf : buf (1 + j / 8) = b := by
    have hcell := hat (1 + j / 8) (by omega)
    rw [Nat.add_comm 1, List.getElem?_cons_succ, hb] at hcell
    rw [Nat.add_comm 1]
    exact (Option.some.inj hcell).symm
  rw [getLsbD_unpackPid buf 1 4 0 hj, if_pos hj, hbuf, hbit]
  exact congrArg pid.getLsbD (Nat.div_add_mod j 8)

/-! ## The queue -/

/-- `minuted_control_message`; `mqd` is the message size of the queue. One byte more than the packed ones is sent. -/
def minutedControlMessage (mqd : Option Nat) (type : Byte) (pid : Uint) (stack : Nat → Byte) : Option Logged :=
  mqd.map fun msgsize =>
    let (buf, len) := minutedControlPack stack type pid
    mqSend msgsize buf (len + 1)

/-- `'a'` from `minuted_accepted` and `'c'` from `minuted_closed`. -/
def MessageType.letter : MessageType → Byte
  | accepted => 97
  | closed => 99

/-- What a process puts into the queue, with what its stack holds. -/
inductive Posting where
  | log (level : LogLevel) (text : List Byte) (stack : Nat → Byte)
  | control (type : MessageType) (pid : Uint) (stack : Nat → Byte)

/-- The call that posts it. -/
def Posting.post (msgsize : Nat) : Posting → Option Logged
  | log level text stack => some (logva (some msgsize) [] level.type text stack)
  | control type pid stack => minutedControlMessage (some msgsize) type.letter pid stack

/-- `msgbuf` behind `minuted_mq_receive`. -/
def received (msgbuf : Nat → Byte) (message : List Byte) : Nat → Byte :=
  if message.length = 0 then msgbuf else blit (blit msgbuf 0 message) message.length [0]

/-- The master's loop over the messages of the queue, each with its time: what it unpacks, and what it prints. -/
def hear (msgbuf : Nat → Byte) : List (List Byte × List Byte) → List (Byte × Uint) × List (List Byte)
  | [] => ([], [])
  | (time, message) :: later =>
    let (r, out) := minutedMqReceive time msgbuf (.message message)
    let msgbuf := received msgbuf message
    let (controls, prints) := hear msgbuf later
    (if r > 0 then minutedControlUnpack msgbuf :: controls else controls, out.toList ++ prints)

/-- The control messages among what is posted. -/
def controls (posts : List Posting) : List (Byte × Uint) :=
  posts.filterMap fun
    | .log .. => none
    | .control type pid _ => some (type.letter, pid)

/-- The lines that the log messages are, each printed at its time. -/
def logLines (posts : List (List Byte × Posting)) : List (List Byte) :=
  posts.filterMap fun
    | (time, .log level text _) => some (logs time level.type (kept text))
    | (_, .control ..) => none

/-! ## What is heard -/

section

variable {msgsize : Nat} {buf stack : Nat → Byte} {m : List Byte}

theorem slice_head {n : Nat} {a : Byte} {w : List Byte} (h : slice buf 0 (n + 1) = a :: w) : buf 0 = a := by
  have hcell := congrArg (fun l => l[0]?) h
  rw [getElem?_slice, if_pos (Nat.succ_pos n)] at hcell
  exact Option.some.inj hcell

/-- The sixth byte of a control message is what the stack held. -/
theorem post_control (type : MessageType) (pid : Uint)
    (h : (Posting.control type pid stack).post msgsize = some (.sent m)) :
    m = type.letter :: packPid 4 pid ++ [stack 5] := by
  have hlen : (type.letter :: packPid 4 pid).length = 5 := by rw [List.length_cons, length_packPid]
  have hslice : slice (blit stack 0 (type.letter :: packPid 4 pid)) 0 (5 + 1) =
      type.letter :: packPid 4 pid ++ [stack 5] := by
    rw [slice_add, Nat.zero_add]
    refine congrArg₂ (· ++ ·) ?_ ?_
    · exact (congrArg (slice _ 0) hlen.symm).trans (slice_blit stack 0 _)
    · rw [slice_blit_outside _ (.inr (by omega))]
      rfl
  have hsent : mqSend msgsize (blit stack 0 (type.letter :: packPid 4 pid)) (5 + 1) = .sent m := Option.some.inj h
  unfold mqSend at hsent
  split at hsent
  · cases hsent
  · rw [← hslice]
    exact (Logged.sent.inj hsent).symm

theorem receive_control (time : List Byte) (msgbuf : Nat → Byte) (type : MessageType) (pid : Uint) (b : Byte) :
    let m := type.letter :: packPid 4 pid ++ [b]
    minutedMqReceive time msgbuf (.message m) = (6, none) ∧
      minutedControlUnpack (received msgbuf m) = (type.letter, pid) := by
  intro m
  have hlen : m.length = 6 := by
    rw [List.length_append, List.length_cons, length_packPid]
    rfl
  have hread : slice (blit (blit msgbuf 0 m) 6 [0]) 0 5 = type.letter :: packPid 4 pid := by
    rw [slice_blit_outside _ (.inl (by decide)), slice_blit_take msgbuf 0 (by omega)]
    exact List.take_left' (by rw [List.length_cons, length_packPid])
  have hfirst := slice_head hread
  constructor
  · simp only [minutedMqReceive, hlen]
    rw [if_neg (by decide), hfirst, if_neg (by cases type <;> decide)]
    rfl
  · unfold received
    rw [hlen, if_neg (by decide)]
    exact unpack_packed hread

theorem receive_log (time : List Byte) (msgbuf : Nat → Byte) {level : LogLevel} {text : List Byte}
    (h : (Posting.log level text stack).post msgsize = some (.sent m)) :
    (minutedMqReceive time msgbuf (.message m)).1 = 0 ∧
      (512 ≤ msgsize → text.length ≤ 510 →
        (minutedMqReceive time msgbuf (.message m)).2 = some (logs time level.type (kept text))) := by
  have hsent : logva (some msgsize) [] level.type text stack = .sent m := Option.some.inj h
  constructor
  · unfold logva mqSend at hsent
    dsimp only at hsent
    split at hsent
    · cases hsent
    · obtain rfl := Logged.sent.inj hsent
      cases sizeT ((vsnprintf stack 1 (512 - 1) text).2 + 1) with
      | zero => rfl
      | succ n =>
        rw [Nat.add_comm n 1, slice_add]
        have hhead : slice (blit (vsnprintf stack 1 (512 - 1) text).1 0 [level.type]) 0 1 = [level.type] :=
          slice_blit _ 0 [level.type]
        rw [hhead]
        exact congrArg Prod.fst (minutedMqReceive_level time msgbuf level _)
  · intro hsize hfits
    have hmqd : ∀ n ∈ some msgsize, 512 ≤ n := fun n hn => Option.some.inj hn ▸ hsize
    rw [logva_fits (some msgsize) [] _ stack hfits hmqd] at hsent
    rw [← Logged.sent.inj hsent]
    exact congrArg Prod.snd (minutedMqReceive_level time msgbuf level (kept text))

end

/-- **The queue keeps control messages and log messages apart**: of whatever the processes have posted, in whatever
order, the master unpacks just the control messages, each with its type and its pid, and if the log messages fit it
prints just these. -/
theorem queue_heard {msgsize : Nat} {posts : List (List Byte × Posting)} {messages : List (List Byte × List Byte)}
    (msgbuf : Nat → Byte)
    (hsent : List.Forall₂ (fun p m => m.1 = p.1 ∧ p.2.post msgsize = some (.sent m.2)) posts messages) :
    (hear msgbuf messages).1 = controls (posts.map Prod.snd) ∧
      (512 ≤ msgsize → (∀ p ∈ posts, ∀ level text stack, p.2 = .log level text stack → text.length ≤ 510) →
        (hear msgbuf messages).2 = logLines posts) := by
  induction hsent generalizing msgbuf with
  | nil => exact ⟨rfl, fun _ _ => rfl⟩
  | @cons p m posts messages hpost _ ih =>
    obtain ⟨ih₁, ih₂⟩ := ih (received msgbuf m.2)
    obtain ⟨time, post⟩ := p
    obtain ⟨time', m⟩ := m
    obtain ⟨htime, hpost⟩ := hpost
    dsimp only at htime hpost ih₁ ih₂
    subst htime
    cases post with
    | control type pid stack =>
      obtain rfl := post_control type pid hpost
      obtain ⟨hreceive, hunpack⟩ := receive_control time' msgbuf type pid (stack 5)
      simp only [hear, hreceive, hunpack]
      refine ⟨?_, fun hsize hfits => ?_⟩
      · rw [ih₁]
        rfl
      · rw [ih₂ hsize fun p hp => hfits p (.tail _ hp)]
        rfl
    | log level text stack =>
      obtain ⟨hr, hout⟩ := receive_log time' msgbuf hpost
      simp only [hear, hr]
      refine ⟨?_, fun hsize hfits => ?_⟩
      · exact ih₁
      · rw [hout hsize (hfits _ (.head _) level text stack rfl), ih₂ hsize fun p hp => hfits p (.tail _ hp)]
        rfl

/-- A log message between two control messages; one pid has its sign bit set. -/
theorem queue_heard_three :
    let stack : Nat → Byte := fun _ => 65
    let messages : List (List Byte × List Byte) := [([], [97, 1, 0, 0, 128, 65]), ([], [73, 97]),
      ([], [99, 99, 0, 0, 0, 65])]
    hear stack messages = ([(97, 0x80000001), (99, 99)], [logs [] 73 [97]]) := by
  intro stack messages
  let posts : List (List Byte × Posting) := [([], .control .accepted 0x80000001 stack), ([], .log .info [97] stack),
    ([], .control .closed 99 stack)]
  have hsent : List.Forall₂ (fun p m => m.1 = p.1 ∧ p.2.post 8192 = some (.sent m.2)) posts messages :=
    .cons ⟨rfl, by decide +kernel⟩ (.cons ⟨rfl, by decide +kernel⟩ (.cons ⟨rfl, by decide +kernel⟩ .nil))
  obtain ⟨hcontrols, hlines⟩ := queue_heard stack hsent
  refine Prod.ext hcontrols (hlines (by decide) fun p hp level text stack hlog => ?_)
  simp only [posts, List.mem_cons, List.not_mem_nil, or_false] at hp
  obtain rfl | rfl | rfl := hp
  · cases hlog
  · cases hlog
    decide
  · cases hlog

end MinuteHttp
