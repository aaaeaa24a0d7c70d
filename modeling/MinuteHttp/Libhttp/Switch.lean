import MinuteHttp.Lib.Feed
import MinuteHttp.Libhttp.Textint
import MinuteHttp.Libhttp.Trie
import MinuteHttp.Libhttp.Uri

/-!
# The states of the request parser (`minute_http_read`, `libhttp/http.c`)

One definition for each `case` of the `switch`, under the source's label. A case gets the locals of
`minute_http_read` (`Frame`) and the character at hand, and ends in one of the source's ways: `reset`
goes back to `top` with the same character, `brk` is the `break` at its end, `ret` is a `return`. A
faulting table access has its own outcome. Characters: 10 is `\n`, 13 `\r`, 32 a space, 9 a tab, and
`-1` is `H_EOF`.
-/

namespace MinuteHttp

/-- `http_request_state` -/
inductive HttpRequestState where
  | hInitial
  | hMethod
  | hMethodSp
  | hPath
  | hQuery
  | hPathSp
  | hProt
  | hProtSlash
  | hProtHttpX
  | hProtHttpXDot
  | hProtHttpXX
  | hCr
  | hNl
  | hNewline
  | hSkipline
  | hHeader
  | hHeaderUnknown
  | hEscaped1
  | hEscaped2
  | hValueLead
  | hCont
  | hValue
  | hHeadConnection
  | hHeadContentLength
  | hHeadExpect
  | hHeadTransferEncoding
  | hHeadFlag
  | hErrorNotImplemented
  | hErrorBadRequest
  | hErrorInternalServerError
  deriving DecidableEq, Repr

open HttpRequestState

/-- `minute_http_rqs`. `collect` is the bit `hrf_collect_header`, the only one of the source's `flags`;
the pointers `io` and `text` are passed beside the structure. -/
structure MinuteHttpRqs where
  collect : Bool
  httpv0 : Uint
  httpv1 : Uint
  tries : Triestate
  m : Uint
  esc : Uint
  st : HttpRequestState
  est : HttpRequestState
  nl : Nat
  hmask : Uint

/-- The locals of `minute_http_read` that outlive one turn of its loop, with what it writes through
pointers. -/
structure Frame where
  rq : MinuteHttpRq
  s : MinuteHttpRqs
  text : Textint
  b : Uint
  tstate : Triestate
  patinitialFlag : Option Patricia

/-- How a turn of the `switch` is left for good. -/
inductive Leave where
  | brk (k : Frame)
  | ret (code : Nat) (k : Frame)
  | fault

/-- One pass through the `switch`: on to another state with the character at hand, or left. -/
abbrev Pass := Feed.Step (Frame × Int) Leave

namespace Frame

/-- `shift(x)` -/
def shift (x : HttpRequestState) (k : Frame) : Frame := { k with s := { k.s with st := x } }

/-- `b = s.m` -/
def mark (k : Frame) : Frame := { k with b := k.s.m }

/-- `s.nl = n` -/
def setNl (n : Nat) (k : Frame) : Frame := { k with s := { k.s with nl := n } }

/-- `s.est = x` -/
def setEst (x : HttpRequestState) (k : Frame) : Frame := { k with s := { k.s with est := x } }

/-- `tstate.poff = 0; tstate.slot = 0` -/
def clearTrie (k : Frame) : Frame := { k with tstate := ⟨0, 0⟩ }

end Frame

/-- `reset(x)` with the character `c` -/
def reset (x : HttpRequestState) (k : Frame) (c : Int) : Pass := .next (k.shift x, c)

def brk (k : Frame) : Pass := .halt (.brk k)

def ret (code : Nat) (k : Frame) : Pass := .halt (.ret code k)

/-- `if (1 != minute_textint_putc(c, s.text)) return code;` and on. -/
def putcOr (code : Nat) (c : Byte) (k : Frame) (f : Frame → Pass) : Pass :=
  match minuteTextintPutc c k.text with
  | none => ret code k
  | some t => f { k with text := t }

/-- `if (1 != minute_textint_puti(i, s.text)) return code;` and on. -/
def putiOr (code : Nat) (i : Uint) (k : Frame) (f : Frame → Pass) : Pass :=
  match minuteTextintPuti i k.text with
  | none => ret code k
  | some t => f { k with text := t }

/-- What follows a `walk_trie` on the cursor: its result, with the cursor where the walk left it. -/
def onWalk (walk : Triestate → Option (Int × Triestate)) (k : Frame) (f : Int → Frame → Pass) :
    Pass :=
  match walk k.tstate with
  | none => .halt .fault
  | some (r, t) => f r { k with tstate := t }

/-! ## The request line -/

def hInitialCase (k : Frame) (c : Int) : Pass :=
  if c = 10 ∨ c = 13 then brk k
  else reset hMethod { k.clearTrie with s := { k.s with esc := 0 } } c

/-- The walk of `h_method`: a space ends the method. -/
def methodWalk (c : Int) : Triestate → Option (Int × Triestate) :=
  let initial : Patricia := ⟨some "", 0, 0, 0, 0⟩
  walkTrie (if c = 32 then 0 else c) (utilityTrieMap c) utility (some initial)

def hMethodCase (k : Frame) (c : Int) : Pass :=
  onWalk (methodWalk c) k fun r k =>
    if 1 ≤ r ∧ r ≤ 8 then                                                   -- http_get .. http_connect
      brk ({ k with rq := { k.rq with requestMethod := HttpMethod.ofCode r } }.shift hMethodSp).mark
    else if r = -1 then reset hErrorBadRequest k c
    else if r = 0 then brk k.mark
    else reset hErrorInternalServerError k c

def hMethodSpCase (k : Frame) (c : Int) : Pass :=
  if c ≠ 32 then
    reset hPath { k.mark with rq := { k.rq with path := k.text.text } } c
  else brk k

def hPathCase (k : Frame) (c : Int) : Pass :=
  if uriPchar c ∨ c = 47 ∨ c = 59 then                                      -- '/', ';'
    putcOr 414 (BitVec.ofInt 8 c) k fun k => brk k.mark
  else if c = 37 then                                                       -- '%'
    brk ((k.setEst hPath).shift hEscaped1).mark
  else if c = 63 then                                                       -- '?'
    putcOr 414 0 k fun k =>
      brk ({ k.mark with rq := { k.rq with query := k.text.text } }.shift hQuery)
  else if c = 32 then
    putcOr 414 0 k fun k => brk (k.mark.shift hPathSp)
  else reset hErrorBadRequest k c

def hEscaped1Case (k : Frame) (c : Int) : Pass :=
  if ¬ uriHex c then reset hErrorBadRequest k c
  else brk ({ k with s := { k.s with esc := BitVec.ofInt 32 (uriHexConv c) } }.shift hEscaped2)

def hEscaped2Case (k : Frame) (c : Int) : Pass :=
  if ¬ uriHex c then reset hErrorBadRequest k c
  else
    let escaped : Byte := ((k.s.esc <<< 4) ||| BitVec.ofInt 32 (uriHexConv c)).setWidth 8
    putcOr 414 escaped k fun k => brk ({ k with s := { k.s with esc := 0 } }.shift k.s.est)

def hQueryCase (k : Frame) (c : Int) : Pass :=
  if uriUric c then putcOr 414 (BitVec.ofInt 8 c) k fun k => brk k.mark
  else if c = 37 then brk ((k.setEst hQuery).shift hEscaped1).mark
  else if c = 32 then putcOr 414 0 k fun k => brk (k.mark.shift hPathSp)
  else reset hErrorBadRequest k c

def hPathSpCase (k : Frame) (c : Int) : Pass :=
  if c = 32 then brk k else reset hProt k.clearTrie c

/-- The walk of `h_prot`: a slash ends the protocol's name. -/
def protWalk (c : Int) : Triestate → Option (Int × Triestate) :=
  let initial : Patricia := ⟨some "", 0, 10, 1, 0⟩
  walkTrie (if c = 47 then 0 else c) (utilityTrieMap c) utility (some initial)

def hProtCase (k : Frame) (c : Int) : Pass :=
  onWalk (protWalk c) k fun r k =>
    if r = httpProto then brk (k.shift hProtSlash).mark
    else if r = -1 then ret 505 k
    else if r = 0 then brk k.mark
    else reset hErrorInternalServerError k c

/-- `n * 10 + (c - '0')` in `unsigned` -/
def addDigit (n : Uint) (c : Int) : Uint := n * 10 + BitVec.ofInt 32 (c - 48)

def hProtSlashCase (k : Frame) (c : Int) : Pass :=
  if 48 ≤ c ∧ c ≤ 57 then brk { k with s := { k.s with httpv0 := addDigit k.s.httpv0 c } }
  else reset hProtHttpX k c

def hProtHttpXCase (k : Frame) (c : Int) : Pass :=
  if c = 46 then brk (k.shift hProtHttpXDot) else reset hErrorBadRequest k c  -- '.'

def hProtHttpXDotCase (k : Frame) (c : Int) : Pass :=
  if 48 ≤ c ∧ c ≤ 57 then brk { k with s := { k.s with httpv1 := addDigit k.s.httpv1 c } }
  else reset hProtHttpXX k c

/-- The `server_protocol` that `h_prot_http_x_x` leaves: the version read, or the old value. -/
def serverProtocol (v0 v1 : Uint) (old : HttpVersion) : HttpVersion :=
  if v0 = 0 then if v1 = 9 then .v0_9 else old
  else if v0 = 1 then if v1 = 0 then .v1_0 else if v1 = 1 then .v1_1 else old
  else old

def hProtHttpXXCase (k : Frame) (c : Int) : Pass :=
  let v := serverProtocol k.s.httpv0 k.s.httpv1 k.rq.serverProtocol
  let k := { k with rq := { k.rq with serverProtocol := v } }
  if v = .unknownVersion then ret 505 k
  else if c = 13 then brk (k.shift hCr)
  else if c = 10 then brk ((k.setNl (k.s.nl + 1)).shift hNl)
  else reset hErrorBadRequest k c

/-! ## Line ends and header names -/

def hCrCase (k : Frame) (c : Int) : Pass :=
  if c = 10 then brk ((k.setNl (k.s.nl + 1)).shift hNl) else reset hErrorBadRequest k c

def hNlCase (k : Frame) (c : Int) : Pass :=
  let k := k.mark
  if c = 13 then brk (k.shift hCr)
  else if c = 10 then brk ((k.setNl (k.s.nl + 1)).shift hNl)
  else if c = 32 ∨ c = 9 then brk ((k.setNl 0).shift hCont)
  else reset hHeader (k.setNl 0).mark.clearTrie c

/-- `c - 'A' + 'a'` on the upper-case letters -/
def toLower (c : Int) : Int := if 65 ≤ c ∧ c ≤ 90 then c - 65 + 97 else c

/-- `1u << r`. The count of an x86 shift is taken modulo 32; C leaves `r ≥ 32` undefined. -/
def headerBit (r : Nat) : Uint := 1#32 <<< (r % 32)

/-- `s.hmask & (1u << r)` -/
def selected (hmask : Uint) (r : Nat) : Bool := decide (hmask &&& headerBit r ≠ 0)

/-- `if (!(s.hmask & 1)) b = s.m;` -/
def markUnlessUnknown (k : Frame) : Frame := if k.s.hmask &&& 1 = 0 then k.mark else k

/-- The `switch (r)` of `h_header` on a recognised header `r`. -/
def hHeaderMatched (r : Nat) (k : Frame) : Pass :=
  if r = HttpRequestHeader.connection.code then
    brk (markUnlessUnknown ((k.setEst hHeadConnection).shift hValueLead))
  else if r = HttpRequestHeader.contentLength.code then
    brk (markUnlessUnknown
      (({ k with s := { k.s with esc := 0 } }.setEst hHeadContentLength).shift hValueLead))
  else if r = HttpRequestHeader.expect.code then
    brk (markUnlessUnknown ((k.setEst hHeadExpect).shift hValueLead))
  else if r = HttpRequestHeader.transferEncoding.code then
    brk (markUnlessUnknown ((k.setEst hHeadTransferEncoding).shift hValueLead))
  else if selected k.s.hmask r then
    putiOr 413 (BitVec.ofNat 32 r) k fun k =>
    putiOr 413 k.text.text k fun k =>
      brk (markUnlessUnknown
        (({ k with s := { k.s with collect := true } }.setEst hValue).shift hValueLead))
  else
    brk (markUnlessUnknown
      (({ k with s := { k.s with collect := false } }.setEst hSkipline).shift hSkipline))

/-- The walk of `h_header` on a lower-cased character: `':'` ends the name. -/
def headerWalk (c : Int) : Triestate → Option (Int × Triestate) :=
  walkTrie (if c = 58 then 0 else c) (headerTrieMap c) headers (some patinitialHeaders)

def hHeaderCase (k : Frame) (c : Int) : Pass :=
  let c := toLower c
  onWalk (headerWalk c) k fun r k =>
    if r < 0 then reset hSkipline k c
    else if r > 0 then hHeaderMatched r.toNat k.clearTrie
    else brk (markUnlessUnknown k)

/-! ## Header values -/

/-- The three cases that only choose the initial node of `h_head_flag`. -/
def hHeadFlagInitial (initial : Patricia) (k : Frame) (c : Int) : Pass :=
  reset hHeadFlag { k with patinitialFlag := some initial } c

def hHeadConnectionCase := hHeadFlagInitial patinitialConnection
def hHeadExpectCase := hHeadFlagInitial patinitialExpect
def hHeadTransferEncodingCase := hHeadFlagInitial patinitialTransfer

def hHeadContentLengthCase (k : Frame) (c : Int) : Pass :=
  if 48 ≤ c ∧ c ≤ 57 then brk { k with s := { k.s with esc := addDigit k.s.esc c } }
  else if c = 13 then
    brk ({ k with rq := { k.rq with
      flags := k.rq.flags ||| BitVec.ofNat 32 httpContentLength, contentLength := k.s.esc } }.shift hCr)
  else if c = 10 then reset hCr k c
  else reset hErrorBadRequest k c

/-- The walk of `h_head_flag` on a lower-cased character: a line end ends the value. -/
def flagWalk (initial : Option Patricia) (c : Int) : Triestate → Option (Int × Triestate) :=
  walkTrie (if c = 13 ∨ c = 10 then 0 else c) (utilityTrieMap c) utility initial

def hHeadFlagCase (k : Frame) (c : Int) : Pass :=
  let c := toLower c
  onWalk (flagWalk k.patinitialFlag c) k fun r k =>
    if r < 0 then reset hSkipline k c
    else if r > 0 then
      reset hSkipline
        { k.mark with rq := { k.rq with flags := k.rq.flags ||| BitVec.ofInt 32 r } } c
    else brk k

def hContCase (k : Frame) (c : Int) : Pass :=
  if k.s.collect then
    -- a space over the previous null-termination
    reset hValueLead { k with text := minuteTextintReplacec (-1) 32 k.text } c
  else reset hSkipline k c

def hValueLeadCase (k : Frame) (c : Int) : Pass :=
  if c ≠ 32 ∧ c ≠ 9 then reset k.s.est k.mark c else brk k

def hValueCase (k : Frame) (c : Int) : Pass :=
  let k := k.mark
  if c = 13 then putcOr 413 0 (k.shift hCr) brk
  else if c = 10 then putcOr 413 0 ((k.setNl (k.s.nl + 1)).shift hNl) brk
  else if c = -1 then putcOr 413 0 (k.setNl 99) brk
  else if c = 32 ∨ c = 9 then putcOr 413 32 k fun k => brk ((k.setEst k.s.st).shift hValueLead)
  else putcOr 413 (BitVec.ofInt 8 c) k brk

def hSkiplineCase (k : Frame) (c : Int) : Pass :=
  let k := k.mark
  if c = 13 then brk (k.shift hCr)
  else if c = 10 then brk ((k.setNl (k.s.nl + 1)).shift hNl)
  else if c = -1 then brk (k.setNl 99)
  else brk k

/-! ## The `switch` -/

/-- The error states, and the `default`. -/
def hErrorCase (code : Nat) (k : Frame) : Pass := ret code k

/-- One pass from `top`. The states without a `case` fall to `default`. -/
def switch (k : Frame) (c : Int) : Pass :=
  match k.s.st with
  | hInitial => hInitialCase k c
  | hMethod => hMethodCase k c
  | hMethodSp => hMethodSpCase k c
  | hPath => hPathCase k c
  | hEscaped1 => hEscaped1Case k c
  | hEscaped2 => hEscaped2Case k c
  | hQuery => hQueryCase k c
  | hPathSp => hPathSpCase k c
  | hProt => hProtCase k c
  | hProtSlash => hProtSlashCase k c
  | hProtHttpX => hProtHttpXCase k c
  | hProtHttpXDot => hProtHttpXDotCase k c
  | hProtHttpXX => hProtHttpXXCase k c
  | hCr => hCrCase k c
  | hNl => hNlCase k c
  | hHeader => hHeaderCase k c
  | hHeadConnection => hHeadConnectionCase k c
  | hHeadContentLength => hHeadContentLengthCase k c
  | hHeadExpect => hHeadExpectCase k c
  | hHeadTransferEncoding => hHeadTransferEncodingCase k c
  | hHeadFlag => hHeadFlagCase k c
  | hCont => hContCase k c
  | hValueLead => hValueLeadCase k c
  | hValue => hValueCase k c
  | hSkipline => hSkiplineCase k c
  | hErrorNotImplemented => hErrorCase 501 k
  | hErrorBadRequest => hErrorCase 400 k
  | hErrorInternalServerError => hErrorCase 500 k
  | hNewline => hErrorCase 500 k
  | hHeaderUnknown => hErrorCase 500 k

end MinuteHttp
