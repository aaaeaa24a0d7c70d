import MinuteHttp.Lib.Effect
import MinuteHttp.Libhttp.HttpText
import MinuteHttp.Libhttp.Read
import MinuteHttp.Libhttpd.IobufUtil

/-!
# Reading and writing for one request (`libhttpd/httpd.c`)

The functions of the source up to `minute_httpd_standard_body`, as computations on `httpd_response` and
the connection state it points to. A computation stops for good at an access outside a buffer (`fault`)
and where the code goes on for ever (`spin`, out of turns). `History` is what has happened in the run;
the code has no such record and nothing here reads it.
-/

namespace MinuteHttp

open Effect

/-- `minute_httpd_state` -/
structure HttpdState where
  input : Iobuf
  output : Iobuf
  text : Textint
  infd : Infd
  outfd : Outfd

/-- A call of the application on `minute_httpd_out`. -/
inductive OutCall where
  | write (buf : List Byte)
  | flush
  deriving DecidableEq

structure History where
  /-- The header lines added, one after the other. -/
  headers : List Byte
  calls : List OutCall
  /-- `minute_httpd_in_read` has returned a negative number. -/
  broken : Bool

/-- `httpd_response`, with the state it points to -/
structure HttpdResponse where
  state : HttpdState
  rq : MinuteHttpRq
  headFlags : Uint
  pending : Int
  history : History

inductive Stop where
  | fault
  | spin
  deriving DecidableEq

abbrev Httpd (α : Type) := Act HttpdResponse Stop α

/-! ## Reading the request -/

/-- `minute_iobuf_readfd (state->infd, in)` -/
def readfd : Httpd Int := do
  let resp ← get
  let (r, infd, input) := minuteIobufReadfd resp.state.infd resp.state.input
  set { resp with state.infd := infd, state.input := input }
  pure r

/-- `minute_http_read (&resp->rq, rqs)` -/
def httpRead (rqs : MinuteHttpRqs) : Httpd (Int × MinuteHttpRqs) := do
  let resp ← get
  match minuteHttpRead resp.rq rqs resp.state.input resp.state.text with
  | .code n rq rqs input text =>
    set { resp with rq, state.input := input, state.text := text }
    pure (n, rqs)
  | .fault => throw .fault
  | .spin => throw .spin

/-- The refill at the head of the loop in `minute_httpd_read_request`: how that loop ends, if it does. -/
def refillRequest : Httpd (Option Int) := do
  let r ← readfd
  let resp ← get
  if r < 0 then pure (some 414)
  else if r = 0 ∧ resp.state.input.eof then pure (some (-1))
  else pure none

/-- `goto prefilled` goes past the first refill. -/
def refillUnless (prefilled : Bool) : Httpd (Option Int) := if prefilled then pure none else refillRequest

/-- The loop, entered behind the refill if the ring is `prefilled`. -/
def readRequestLoop : Nat → Bool → MinuteHttpRqs → Httpd Int
  | 0, _, _ => throw .spin
  | turns + 1, prefilled, rqs => do
    let ended ← refillUnless prefilled
    match ended with
    | some status => pure status
    | none =>
      let (status, rqs) ← httpRead rqs
      if status = eagain then readRequestLoop turns false rqs else pure status

/-- `minute_httpd_read_request`. All refills but the last deliver something. -/
def minuteHttpdReadRequest (rqs : MinuteHttpRqs) : Httpd Int := do
  let resp ← get
  readRequestLoop (resp.state.infd.stream.length + 2) (decide (minuteIobufUsed resp.state.input > 0)) rqs

/-! ## Reading the body -/

def pendingInit : Int := -1
def pendingEof : Int := -2
def pendingError : Int := -3

/-- `chunk_state`; `chunk_error` is the outcome `none` of a turn. -/
inductive ChunkState where
  | previous
  | previousCr
  | size
  | extension
  | cr
  deriving DecidableEq

/-- A turn of the scan for a chunk's size: on to the next character, or ended with the size or (`none`)
in error. -/
abbrev ChunkTurn := Feed.Step (ChunkState × Uint) (Option Uint)

def chunkCrCase (val : Uint) (c : Int) : ChunkTurn := if c = 10 then .halt (some val) else .halt none

def chunkExtensionCase (val : Uint) (c : Int) : ChunkTurn :=
  if c = 13 then .next (.cr, val)
  else if c = 10 then chunkCrCase val c
  else .next (.extension, val)

def chunkSizeCase (val : Uint) (c : Int) : ChunkTurn :=
  if 48 ≤ c ∧ c ≤ 57 then .next (.size, (val <<< 4) + BitVec.ofInt 32 (c - 48))
  else if 97 ≤ c ∧ c ≤ 102 then .next (.size, (val <<< 4) + BitVec.ofInt 32 (c - 97) + 0xa)
  else if 65 ≤ c ∧ c ≤ 70 then .next (.size, (val <<< 4) + BitVec.ofInt 32 (c - 65) + 0xA)
  else if c = 59 then .next (.extension, val)                               -- ';'
  else if c = 13 then .next (.cr, val)
  else if c = 10 then chunkCrCase val c
  else .halt none

def chunkPreviousCrCase (val : Uint) (c : Int) : ChunkTurn :=
  if c = 10 then .next (.size, val) else .halt none

def chunkPreviousCase (val : Uint) (c : Int) : ChunkTurn :=
  if c = 13 then .next (.previousCr, val)
  else if c = 10 then chunkPreviousCrCase val c
  else .halt none

/-- The `switch` on a character, with the states that a `reset` hands it on to. -/
def chunkTurn (x : ChunkState × Uint) (c : Int) : ChunkTurn :=
  match x.1 with
  | .previous => chunkPreviousCase x.2 c
  | .previousCr => chunkPreviousCrCase x.2 c
  | .size => chunkSizeCase x.2 c
  | .extension => chunkExtensionCase x.2 c
  | .cr => chunkCrCase x.2 c

/-- How the scan ends: without the whole line, behind the line with a size, or in error. -/
inductive ChunkScan where
  | more
  | line (val : Uint) (io : Iobuf)
  | error

/-- The `for` loop over the ring, on a copy `i` of it. -/
def chunkScan (i : Iobuf) (x : ChunkState × Uint) : Nat → ChunkScan
  | 0 => .more
  | turns + 1 =>
    if i.read < i.write then
      match chunkTurn x (i.at i.read).toInt with
      | .halt (some val) => .line val { i with read := i.read + 1 }
      | .halt none => .error
      | .next x =>
        if i.read = i.write then .error
        else chunkScan { i with read := i.read + 1 } x turns
    else .more

/-- `resp->in.pending = n` -/
def setPending (n : Int) : Httpd PUnit := modify fun resp => { resp with pending := n }

/-- `return -1`, noted in the history. -/
def breakBody : Httpd (Int × List Byte) := do
  modify fun resp => { resp with history.broken := true }
  pure (-1, [])

/-- The branch of `minute_httpd_in_read` that finds bytes of the body in the ring. `copy` is whether
`buf` is there. -/
def readPending (copy : Bool) (count : Uint) : Httpd (Int × List Byte) := do
  let resp ← get
  let io := resp.state.input
  let toread : Uint := if resp.pending > count.toNat then count else BitVec.ofInt 32 resp.pending
  if copy then
    let (bs, io) ← orStop .fault (minuteIobufRead toread io)
    set { resp with state.input := io, pending := resp.pending - bs.length }
    pure (bs.length, bs)
  else
    let toread := if io.read + toread > io.write then io.write - io.read else toread
    set { resp with state.input.read := io.read + toread, pending := resp.pending - toread.toInt }
    pure (toread.toInt, [])

/-- The end of a chunked body: the trailer section is read as header lines. -/
def readTrailers : Httpd (Int × List Byte) := do
  setPending pendingEof
  let resp ← get
  let status ← minuteHttpdReadRequest (minuteHttpInitTrailers minuteAllHeaders resp.state.input)
  if status ≠ 0 then breakBody else pure (0, [])

/-- `minute_httpd_in_read`: the return value and the bytes copied to `buf`. `entry` is at the head of
the function and not of its loop. -/
def inReadLoop (copy : Bool) (count : Uint) : Nat → Bool → Httpd (Int × List Byte)
  | 0, _ => throw .spin
  | turns + 1, entry => do
    let resp ← get
    let io := resp.state.input
    let refill : Httpd (Int × List Byte) := do
      let rfd ← readfd
      let resp ← get
      if rfd = 0 ∧ resp.state.input.eof then
        setPending pendingEof
        pure (0, [])
      else inReadLoop copy count turns false
    if entry ∧ resp.pending ≤ pendingEof then pure (0, [])
    else if resp.pending > 0 then
      if io.read < io.write then readPending copy count else refill
    else if hasFlag resp.rq.flags httpTransferChunked then
      let cs := if resp.pending = 0 then ChunkState.previous else ChunkState.size
      match chunkScan io (cs, 0) (io.write - io.read).toNat with
      | .error => do
        setPending pendingError
        breakBody
      | .line val io => do
        modify fun resp => { resp with state.input := io }
        if val = 0 then readTrailers
        else do
          setPending val.toInt
          inReadLoop copy count turns true
      | .more => refill
    else do
      setPending pendingEof
      pure (0, [])

/-- More turns than a loop on the body can make that does not go on for ever: a turn takes a byte out of
the ring, or one from the stream, or meets an error, which can leave any number in the ring. -/
def bodyTurns (st : HttpdState) : Nat :=
  2 ^ 33 * (st.infd.cuts.length + 1) + 2 * st.infd.stream.length

def minuteHttpdInRead (copy : Bool) (count : Uint) : Httpd (Int × List Byte) := do
  let resp ← get
  inReadLoop copy count (bodyTurns resp.state) true

def discardLoop : Nat → Httpd PUnit
  | 0 => throw .spin
  | turns + 1 => do
    let resp ← get
    let (r, _) ← minuteHttpdInRead false (resp.state.input.mask + 1)
    if 0 < r then discardLoop turns else pure ⟨⟩

/-- `minute_httpd_in_discard` -/
def minuteHttpdInDiscard : Httpd PUnit := do
  let resp ← get
  discardLoop (bodyTurns resp.state)

/-! ## Writing -/

/-- `NL` -/
def crlf : List Byte := bytes "\r\n"

def httpdTeChunked : Nat := 0x01
def httpdConnectionKeep : Nat := 0x02 ||| httpdTeChunked

/-- `resp->head.flags & httpd_te_chunked` -/
def HttpdResponse.teChunked (resp : HttpdResponse) : Bool := hasFlag resp.headFlags httpdTeChunked

/-- `(resp->head.flags & httpd_connection_keep) == httpd_connection_keep` -/
def HttpdResponse.connectionKeep (resp : HttpdResponse) : Bool :=
  decide (resp.headFlags &&& BitVec.ofNat 32 httpdConnectionKeep = BitVec.ofNat 32 httpdConnectionKeep)

/-- `write (state->outfd, …)`, with the descriptor closed where `failed` says so of the result. -/
def writeOutfd (failed : Int → Bool) (bs : List Byte) : Httpd PUnit :=
  modify fun resp =>
    let (r, fd) := resp.state.outfd.write bs
    { resp with state.outfd := if failed r then fd.close else fd }

/-- `minute_httpd_chunk_end` -/
def minuteHttpdChunkEnd : Httpd PUnit := do
  let resp ← get
  onlyIf (resp.teChunked = true) (writeOutfd (fun r => r < 0) (bytes "0\r\n\r\n"))

/-- `%x` -/
def hexText (n : Nat) : List Byte := (Nat.toDigits 16 n).map fun c => BitVec.ofNat 8 c.toNat

/-- What `iov[0]` holds of the chunk size: `snprintf` cuts the line to the eight bytes of `chunksz`,
but `iov_len` is that of the whole line. -/
def chunkSizeLine (total : Nat) : Option (List Byte) :=
  let line := hexText total ++ crlf
  if line.length < 8 then some line
  else if line.length = 8 then some (line.take 7 ++ [0])
  else none

/-- `minute_httpd_chunk`, for as many retries as `turns` says. -/
def chunkLoop : Nat → List Byte → Bool → Httpd Int
  | 0, _, _ => throw .spin
  | turns + 1, buf, chunked => do
    let resp ← get
    let out := resp.state.output
    let used := minuteIobufUsed out
    let total := used + BitVec.ofNat 32 buf.length
    if total = 0 then pure 0
    else do
      let size ← orStop .fault (if chunked then chunkSizeLine total.toNat else some [])
      let (a, b) := minuteIobufGather out
      let (accepted, fd) := resp.state.outfd.write (size ++ a ++ b ++ buf ++ if chunked then crlf else [])
      let r := (BitVec.ofInt 32 accepted).toInt                             -- `int r`
      if r > 0 then do
        let n := BitVec.ofInt 32 r
        let pre := BitVec.ofNat 32 size.length
        if n < pre then do
          set { resp with state.outfd := fd }
          pure (-1)
        else do
          let taken := if n < pre + used then n - pre else used
          let cwritten := if n < pre + used then 0 else n - pre - used
          set { resp with state.outfd := fd, state.output.read := out.read + taken }
          if n < total then do
            let rr ← chunkLoop turns (buf.drop cwritten.toNat) false
            if rr < 1 then pure rr else pure (r + rr)
          else pure r
      else do
        set { resp with state.outfd := fd.close }
        pure r

/-- `minute_httpd_chunk`. A retry has fewer bytes left, but for the first. -/
def minuteHttpdChunk (buf : List Byte) (chunked : Bool) : Httpd Int := do
  let resp ← get
  chunkLoop ((minuteIobufUsed resp.state.output + BitVec.ofNat 32 buf.length).toNat + 2) buf chunked

/-- `minute_httpd_flush` -/
def minuteHttpdFlush : Httpd PUnit := do
  let resp ← get
  let _ ← minuteHttpdChunk [] resp.teChunked
  pure ⟨⟩

/-- `minute_httpd_output`; it always returns the length of `append`. -/
def minuteHttpdOutput (append : List Byte) (chunked : Bool) : Httpd PUnit := do
  let resp ← get
  if minuteIobufFree resp.state.output < BitVec.ofNat 32 append.length then do
    let _ ← minuteHttpdChunk append chunked
    pure ⟨⟩
  else do
    let (_, output) ← orStop .fault (minuteIobufWrite append resp.state.output)
    set { resp with state.output := output }

/-- `minute_httpd_write` -/
def minuteHttpdWrite (buf : List Byte) : Httpd PUnit := do
  let resp ← get
  minuteHttpdOutput buf resp.teChunked

/-- `minute_httpd_print`: the length of the string becomes an `unsigned`. -/
def minuteHttpdPrint (append : List Byte) (chunked : Bool) : Httpd PUnit :=
  minuteHttpdOutput (append.take (append.length % 2 ^ 32)) chunked

/-- A header line on the wire. -/
def headerLine (header : HttpResponseHeader) (value : List Byte) : List Byte :=
  bytes (httpResponseHeaderNames.getD header.code "") ++ bytes ": " ++ value ++ crlf

/-- `minute_httpd_header`; `value` is a C string, without its NUL. -/
def minuteHttpdHeader (header : HttpResponseHeader) (value : List Byte) : Httpd PUnit := do
  modify fun resp => { resp with history.headers := resp.history.headers ++ headerLine header value }
  minuteHttpdPrint (bytes (httpResponseHeaderNames.getD header.code "")) false
  minuteHttpdOutput (bytes ": ") false
  minuteHttpdPrint value false
  minuteHttpdOutput crlf false

/-- The `head.flags` that `minute_httpd_start` sets. -/
def startFlags (rq : MinuteHttpRq) : Uint :=
  if rq.serverProtocol.code ≥ HttpVersion.v1_1.code then
    if hasFlag rq.flags httpConnectionClose then 0 else BitVec.ofNat 32 httpdConnectionKeep
  else if hasFlag rq.flags httpConnectionKeep then BitVec.ofNat 32 httpdConnectionKeep
  else 0

/-- The `in.pending` that `minute_httpd_start` sets: the length becomes an `int`. -/
def startPending (rq : MinuteHttpRq) (pending : Int) : Int :=
  if hasFlag rq.flags httpTransferChunked then pendingInit
  else if hasFlag rq.flags httpContentLength then rq.contentLength.toInt
  else pending

/-- `minute_httpd_start` -/
def minuteHttpdStart : Httpd PUnit :=
  modify fun resp =>
    { resp with headFlags := startFlags resp.rq, pending := startPending resp.rq resp.pending }

/-- The text of `minute_httpd_standard_body` -/
def standardBodyText (status : Int) : List Byte :=
  let msg := minuteHttpResponseText status
  bytes ("<html><head><title>" ++ toString status ++ " " ++ msg ++ "</title></head><body><h1>" ++
    toString status ++ " " ++ msg ++ "</h1></body></html>\n")

/-- `minute_httpd_standard_body` -/
def minuteHttpdStandardBody (status : Int) : Httpd PUnit := do
  let resp ← get
  let (_, output) ← orStop .fault (minuteIobufPrintf (standardBodyText status) resp.state.output)
  set { resp with state.output := output }

end MinuteHttp
