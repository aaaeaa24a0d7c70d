import MinuteHttp.Lib.Feed
import MinuteHttp.Lib.Population
import MinuteHttp.Minuted.Forks

/-!
# The prefork server (`minuted_serve_processor` and `minuted_serve_prefork`, `minuted/minuted.c`)

The master, its children, the accept semaphore and the message queue, one system call at a time: an
`Action` is a call of one of the processes with what the system answers, or a signal, and `step` says
what becomes of the whole. A run is a list of actions (`Feed.feed step`); an action that the system
cannot take where it stands ends it. What a child does after a call and before the next touches nothing
shared and belongs to the call. Log messages share the queue in the source; they are left out, as is
the shutdown after the master's loop.
-/

namespace MinuteHttp

open Population

/-! ## A child -/

/-- What `sem_wait` gives: 0, or -1 with `EINTR` or another error. -/
inductive SemWait where
  | ok
  | interrupted
  | failed
  deriving DecidableEq, Repr

/-- What `poll` gives; of the descriptors, in order, whether `revents & (POLLIN|POLLPRI)`. -/
inductive Polled where
  | failed
  | interrupted
  | timeout
  | ready (revents : List Bool)
  deriving DecidableEq, Repr

/-- What `accept` gives: a socket, `EAGAIN` or `EINTR`, or another error. -/
inductive Accepted where
  | connection
  | again
  | failed
  deriving DecidableEq, Repr

/-- Where a child is in `minuted_serve_processor`. -/
inductive ChildState where
  /-- `while(!sighup_flag)` -/
  | top
  /-- in `sem_wait` -/
  | waiting
  /-- in `poll` -/
  | polling
  /-- before the `sem_post` after a failed `poll` -/
  | pollFailed
  /-- before the `sem_post` after a timeout -/
  | pollTimeout
  /-- in `accept`; `later` is what `poll` said of the descriptors after this one -/
  | accepting (later : List Bool)
  /-- before the `sem_post` after `accept` -/
  | accepted (sock : Accepted) (later : List Bool)
  /-- before `minuted_accepted` -/
  | reporting (sock : Accepted) (later : List Bool)
  /-- in `minuted_tap_handle` -/
  | handling
  /-- before `close` -/
  | closing
  /-- before `minuted_closed` -/
  | closed
  /-- after the loop -/
  | leaving (res : Nat)
  /-- no longer running, and not yet reported by `waitpid` -/
  | zombie (status : WaitStatus)
  | reaped
  deriving DecidableEq, Repr

/-- A child. `signaled` (a SIGHUP has reached it), `waits` and `posts` (how often its `sem_wait` has
returned 0, and how often it has called `sem_post`) are history that the code does not keep. -/
structure Child where
  pid : Pid
  state : ChildState
  sighupFlag : Bool
  signaled : Bool
  waits : Nat
  posts : Nat
  deriving DecidableEq, Repr

/-- A child as `fork` makes it. -/
def Child.start (pid : Pid) : Child := ⟨pid, .top, false, false, 0, 0⟩

def ChildState.running : ChildState → Bool
  | zombie _ | reaped => false
  | _ => true

/-- A call of a child, with what it returns. -/
inductive Call where
  | test
  | semWait (r : SemWait)
  | poll (r : Polled)
  | semPost
  | accept (r : Accepted)
  | accepted
  | handle
  | close
  | closed
  | exit
  deriving DecidableEq, Repr

/-- The `for` loop over the descriptors, up to the next one that is ready. -/
def scan : List Bool → ChildState
  | [] => .top
  | true :: later => .accepting later
  | false :: later => scan later

/-- `minuted_serve_processor`, from call to call. -/
def minutedServeProcessor (sighupFlag : Bool) : ChildState → Call → Option ChildState
  | .top, .test => some (if sighupFlag then .leaving 0 else .waiting)
  | .waiting, .semWait .ok => some .polling
  | .waiting, .semWait .interrupted => some .top
  | .waiting, .semWait .failed => some (.leaving 3)
  | .polling, .poll .interrupted => some .top
  | .polling, .poll .failed => some .pollFailed
  | .polling, .poll .timeout => some .pollTimeout
  | .polling, .poll (.ready revents) => some (scan revents)
  | .pollFailed, .semPost => some (.leaving 4)
  | .pollTimeout, .semPost => some .top
  | .accepting later, .accept sock => some (.accepted sock later)
  | .accepted sock later, .semPost => some (.reporting sock later)
  | .reporting .connection _, .accepted => some .handling
  | .reporting .again _, .accepted => some .top
  | .reporting .failed later, .accepted => some (scan later)
  | .handling, .handle => some .closing
  | .closing, .close => some .closed
  | .closed, .closed => some .top
  | .leaving res, .exit => some (.zombie (.exited res))
  | _, _ => none

/-- A child makes a call. -/
def Child.call (call : Call) (c : Child) : Option Child :=
  (minutedServeProcessor c.sighupFlag c.state call).map fun state =>
    { c with
      state := state
      waits := if call = .semWait .ok then c.waits + 1 else c.waits
      posts := if call = .semPost then c.posts + 1 else c.posts
      -- `if(sighup_flag) sighup_flag = 0;`
      sighupFlag := if call = .exit then false else c.sighupFlag }

/-- The handler `sighup`, in a child that runs. -/
def Child.sighup (c : Child) : Option Child :=
  if c.state.running then some { c with sighupFlag := true, signaled := true } else none

/-- A signal kills the child. -/
def Child.crash (sig : Nat) (c : Child) : Option Child :=
  if c.state.running then some { c with state := .zombie (.signaled sig) } else none

/-- `waitpid` has reported the child. -/
def Child.reap (c : Child) : Option Child :=
  match c.state with
  | .zombie _ => some { c with state := .reaped }
  | _ => none

/-! ## The whole server -/

/-- `type` of a control message: `'a'` or `'c'`. -/
inductive MessageType where
  | accepted
  | closed
  deriving DecidableEq, Repr

structure Message where
  type : MessageType
  pid : Pid
  deriving DecidableEq, Repr

/-- Where the master is in `minuted_serve_prefork`. -/
inductive Phase where
  /-- `left` forks remain of the first ones -/
  | launching (left : Nat)
  /-- in `minuted_wait` -/
  | waiting
  /-- in `minuted_mq_receive` -/
  | receiving
  deriving DecidableEq, Repr

/-- `children` lists all that were ever forked, in that order. -/
structure Prefork where
  sem : Nat
  queue : List Message
  children : List Child
  phase : Phase
  forks : MinutedForks
  serving : Int

def maxForks : Nat := 32
def minSpares : Int := 3
def maxSpares : Int := 6
def initForks : Nat := 6

def Prefork.init : Prefork := ⟨0, [], [], .launching initForks, .init maxForks, 0⟩

/-- A call, with the pid that its `fork` returns if it forks, or a signal. -/
inductive Action where
  | child (i : Nat) (call : Call)
  | sighup (i : Nat)
  | crash (i : Nat) (sig : Nat)
  | launch (fork : Option Pid)
  | semPost
  | waitpid (i : Nat) (fork : Option Pid)
  | waitpidNone
  | receive (fork : Option Pid)
  | receiveInterrupted
  deriving DecidableEq, Repr

def Action.isCrash : Action → Bool
  | crash _ _ => true
  | _ => false

namespace Prefork

/-- What a call of a child does to the semaphore and the queue. -/
def effect (pid : Pid) (call : Call) (s : Prefork) : Option Prefork :=
  match call with
  | .semWait .ok => if 0 < s.sem then some { s with sem := s.sem - 1 } else none
  | .semPost => some { s with sem := s.sem + 1 }
  | .accepted => some { s with queue := s.queue ++ [⟨.accepted, pid⟩] }
  | .closed => some { s with queue := s.queue ++ [⟨.closed, pid⟩] }
  | _ => some s

/-- What `fork` may return: an error, or a pid that is 0 in no parent and belongs to no process. -/
def canFork (fork : Option Pid) (s : Prefork) : Bool :=
  fork.all fun pid => pid != 0 && s.children.all fun c => c.state == .reaped || c.pid != pid

/-- The table after a call that may have forked, and the new process if it has. -/
def forked (r : Int × MinutedForks) (fork : Option Pid) (s : Prefork) : Prefork :=
  { s with
    forks := r.2
    children := if r.1 = 0 then s.children ++ fork.toList.map Child.start else s.children }

/-- `kill (pid, SIGHUP)` -/
def kill (pid : Pid) (s : Prefork) : Prefork :=
  match s.children.findIdx? fun c => c.state.running && c.pid == pid with
  | some i => { s with children := (act i Child.sighup s.children).getD s.children }
  | none => s

/-- The `switch` on a control message. -/
def control (m : Message) (fork : Option Pid) (s : Prefork) : Prefork :=
  match m.type with
  | .accepted =>
    let s := { s with serving := s.serving + 1 }
    if (s.forks.active : Int) - s.serving < minSpares then s.forked (minutedFork fork s.forks) fork else s
  | .closed =>
    let s := { s with serving := s.serving - 1 }
    if (s.forks.active : Int) - s.serving > maxSpares then s.kill m.pid else s

/-- The children with the one at `i` changed by `f`. -/
def actAt (i : Nat) (f : Child → Option Child) (s : Prefork) : Option Prefork :=
  (act i f s.children).map fun children => { s with children := children }

/-- `waitpid` reports the child `c` at `i`. -/
def reap (i : Nat) (c : Child) (fork : Option Pid) (s : Prefork) : Option Prefork :=
  match c.state with
  | .zombie status => do
    let s ← s.actAt i Child.reap
    if s.canFork fork then some (s.forked (minutedReap c.pid status true fork s.forks) fork) else none
  | _ => none

def next (s : Prefork) : Action → Option Prefork
  | .child i call => do
    let c ← s.children[i]?
    let s ← s.actAt i (Child.call call)
    s.effect c.pid call
  | .sighup i => s.actAt i Child.sighup
  | .crash i sig => s.actAt i (Child.crash sig)
  | .launch fork =>
    match s.phase with
    | .launching (left + 1) =>
      if s.canFork fork then
        some ({ s with phase := .launching left }.forked (minutedFork fork s.forks) fork)
      else none
    | _ => none
  | .semPost =>
    if s.phase = .launching 0 then some { s with phase := .waiting, sem := s.sem + 1 } else none
  | .waitpid i fork => do
    let c ← s.children[i]?
    if s.phase = .waiting ∧ 0 < s.forks.active then s.reap i c fork else none
  | .waitpidNone => if s.phase = .waiting then some { s with phase := .receiving } else none
  | .receive fork =>
    match s.phase, s.queue with
    | .receiving, m :: queue =>
      if s.canFork fork then some ({ s with queue := queue, phase := .waiting }.control m fork) else none
    | _, _ => none
  | .receiveInterrupted =>
    if s.phase = .receiving then some { s with phase := .waiting } else none

/-- One action; an action that cannot be taken ends the run. -/
def step (s : Prefork) (a : Action) : Feed.Step Prefork Unit :=
  match s.next a with
  | some s' => .next s'
  | none => .halt ()

end Prefork

end MinuteHttp
