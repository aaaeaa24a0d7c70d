import MinuteHttp.Libhttpd.Httpd

/-!
# Handling a request (`minute_httpd_handle`, `libhttpd/httpd.c`)

The callbacks of an application are `Prog`s over the calls that the API gives them, started from the
request, the text buffer and the user data, which they hand on. The status of a request, `time (0)` and
the user data apart, all that an application and the peer can do differently is in these programs and in
the two descriptors.
-/

namespace MinuteHttp

open Effect

/-! ## Dates -/

/-- What `minute_rfc_date` uses of a `struct tm`. -/
structure Tm where
  sec : Nat
  min : Nat
  hour : Nat
  mday : Nat
  mon : Nat
  year : Nat
  wday : Nat

/-- `gmtime_r`, in years from 0 on. Years of the calculation begin in March. -/
def gmtime (t : Nat) : Tm :=
  let days := t / 86400
  let z := days + 719468
  let era := z / 146097
  let doe := z % 146097
  let yoe := (doe - doe / 1460 + doe / 36524 - doe / 146096) / 365
  let doy := doe - (365 * yoe + yoe / 4 - yoe / 100)
  let mp := (5 * doy + 2) / 153
  let mon := if mp < 10 then mp + 2 else mp - 10
  { sec := t % 60
    min := t / 60 % 60
    hour := t / 3600 % 24
    mday := doy - (153 * mp + 2) / 5 + 1
    mon
    year := yoe + era * 400 + if mon ≤ 1 then 1 else 0
    wday := (days + 4) % 7 }

/-- `%02d` -/
def twoDigits (n : Nat) : String := if n < 10 then "0" ++ toString n else toString n

/-- `minute_rfc_date`; the text is cut to the 32 bytes of `string`. -/
def minuteRfcDate (t : Nat) : List Byte :=
  let tm := gmtime t
  let day := ["Sun", "Mon", "Tue", "Wed", "Thu", "Fri", "Sat"].getD tm.wday ""
  let mon := ["Jan", "Feb", "Mar", "Apr", "May", "Jun", "Jul", "Aug", "Sep", "Oct", "Nov",
    "Dec"].getD tm.mon ""
  (bytes (day ++ ", " ++ twoDigits tm.mday ++ " " ++ mon ++ " " ++ toString tm.year ++ " " ++
    twoDigits tm.hour ++ ":" ++ twoDigits tm.min ++ ":" ++ twoDigits tm.sec ++ " GMT")).take 31

/-- `Sun, 06 Nov 1994 08:49:37 GMT`, the example in the source. -/
example : minuteRfcDate 784111777 = bytes "Sun, 06 Nov 1994 08:49:37 GMT" := by decide +kernel

/-! ## Applications -/

/-- A call on `minute_httpd_head`. -/
inductive HeadCall where
  | string (header : HttpResponseHeader) (value : List Byte)
  | timestamp (header : HttpResponseHeader) (epochtime : Uint)

/-- A call of the callback `payload`. -/
inductive PayloadCall where
  | head (call : HeadCall)
  | read (count : Uint)

/-- A call of the callback `response`. -/
inductive ResponseCall where
  | out (call : OutCall)
  | read (count : Uint)

/-- What a call answers that the application does not know: of a read the return value and the bytes. -/
@[reducible] def PayloadCall.Answer : PayloadCall → Type
  | .head _ => PUnit
  | .read _ => Int × List Byte

@[reducible] def ResponseCall.Answer : ResponseCall → Type
  | .out _ => PUnit
  | .read _ => Int × List Byte

/-- `minute_httpd_app`; `υ` is the user data. -/
structure MinuteHttpdApp (υ : Type) where
  header : MinuteHttpRq → Textint → υ → Prog HeadCall (fun _ => PUnit) (Uint × υ)
  payload : MinuteHttpRq → Textint → υ → Prog PayloadCall PayloadCall.Answer (Uint × υ)
  response : MinuteHttpRq → Textint → Uint → υ → Prog ResponseCall ResponseCall.Answer (Uint × υ)
  error : MinuteHttpRq → Uint → υ → υ

/-- `minute_httpd_header` and `minute_httpd_header_timestamp` -/
def HeadCall.serve : HeadCall → Httpd PUnit
  | string header value => minuteHttpdHeader header value
  | timestamp header epochtime => minuteHttpdHeader header (minuteRfcDate epochtime.toNat)

def PayloadCall.serve : (c : PayloadCall) → Httpd c.Answer
  | .head call => call.serve
  | .read count => minuteHttpdInRead true count

/-- A call on `minute_httpd_out`, noted in the history. -/
def OutCall.serve (c : OutCall) : Httpd PUnit := do
  modify fun resp => { resp with history.calls := resp.history.calls ++ [c] }
  match c with
  | .write buf => minuteHttpdWrite buf
  | .flush => minuteHttpdFlush

def ResponseCall.serve : (c : ResponseCall) → Httpd c.Answer
  | .out call => call.serve
  | .read count => minuteHttpdInRead true count

/-! ## The handler -/

variable {υ : Type}

/-- `enum httpd_client_status` -/
def httpdClientOkOpen : Int := 0
def httpdClientOkClose : Int := 1
def httpdClientNoRequest : Int := 2

/-- `SERVER_NAME "/" SERVER_VERSION` -/
def serverText : List Byte := bytes "minuted/0.1"

/-- A status line. It always fits `head`, which has 64 bytes. -/
def statusLine (version : HttpVersion) (status : Int) : List Byte :=
  bytes (minuteHttpVersionText version ++ " " ++ toString status ++ " " ++ minuteHttpResponseText status) ++
    crlf

/-- `if(0 >= write (state->outfd, head, nhead))` with its branch. -/
def writeStatus (version : HttpVersion) (status : Int) : Httpd PUnit :=
  writeOutfd (fun r => r ≤ 0) (statusLine version status)

/-- The headers that every response starts with. -/
def serverHeaders (now : Nat) : Httpd PUnit := do
  minuteHttpdHeader .server serverText
  minuteHttpdHeader .date (minuteRfcDate now)

/-- The empty line that ends the header block. -/
def endHeaders : Httpd PUnit := do
  let _ ← minuteHttpdChunk crlf false
  pure ⟨⟩

/-- The branch for a request that could not be parsed. -/
def handleError (app : MinuteHttpdApp υ) (now : Nat) (status : Int) (user : υ) : Httpd (Int × υ) := do
  let resp ← get
  writeStatus resp.rq.serverProtocol status
  modify fun resp => { resp with headFlags := 0 }
  serverHeaders now
  let resp ← get
  onlyIf (resp.rq.serverProtocol = .v1_1) (minuteHttpdHeader .connection (bytes "close"))
  endHeaders
  minuteHttpdStandardBody status
  minuteHttpdFlush
  minuteHttpdChunkEnd
  let resp ← get
  pure (-status, app.error resp.rq (BitVec.ofInt 32 status) user)

/-- The interim response and the callback `payload`, if the callback `header` has returned 100. -/
def handleContinue (app : MinuteHttpdApp υ) (version : HttpVersion) (status : Int) (user : υ) :
    Httpd (Int × υ) :=
  if status = 100 then do
    let resp ← get
    onlyIf (hasFlag resp.rq.flags httpExpectContinue = true) (writeStatus version status)
    let resp ← get
    let (status, user) ← (app.payload resp.rq resp.state.text user).run PayloadCall.serve
    pure (status.toInt, user)
  else pure (status, user)

/-- The headers that follow the status line. -/
def connectionHeaders : Httpd PUnit := do
  let resp ← get
  onlyIf (resp.connectionKeep = true ∧ resp.rq.serverProtocol.code < HttpVersion.v1_1.code)
    (minuteHttpdHeader .connection (bytes "keep-alive"))
  onlyIf (resp.connectionKeep = false ∧ resp.rq.serverProtocol = .v1_1)
    (minuteHttpdHeader .connection (bytes "close"))
  onlyIf (resp.teChunked = true) (minuteHttpdHeader .transferEncoding (bytes "chunked"))

/-- After `minute_httpd_start`: the callbacks that settle the status. -/
def handleCallbacks (app : MinuteHttpdApp υ) (now : Nat) (user : υ) : Httpd (Int × υ) := do
  serverHeaders now
  let resp ← get
  let (status, user) ← (app.header resp.rq resp.state.text user).run HeadCall.serve
  handleContinue app resp.rq.serverProtocol status.toInt user

/-- To the end of the header block: the final status. -/
def handleHead (app : MinuteHttpdApp υ) (now : Nat) (user : υ) : Httpd (Int × υ) := do
  let resp ← get
  let (status, user) ← handleCallbacks app now user
  writeStatus resp.rq.serverProtocol status
  connectionHeaders
  endHeaders
  pure (status, user)

/-- `resp.rq.request_method != http_head`, and a status under which `response` is called. -/
def hasBody (rq : MinuteHttpRq) (status : Int) : Prop :=
  rq.requestMethod ≠ .head ∧ status ≠ 204 ∧ status ≠ 205 ∧ status ≠ 304

instance hasBodyDecidable (rq : MinuteHttpRq) (status : Int) : Decidable (hasBody rq status) := by
  unfold hasBody
  infer_instance

/-- The callback `response`. `headermark` is taken after it, so the second half of the source's
condition always holds. -/
def handleBody (app : MinuteHttpdApp υ) (status : Int) (user : υ) : Httpd υ := do
  let resp ← get
  if hasBody resp.rq status then do
    let (response, user) ←
      (app.response resp.rq resp.state.text (BitVec.ofInt 32 status) user).run ResponseCall.serve
    let resp ← get
    let headermark := resp.state.output.write
    onlyIf (response ≠ 0 ∧ resp.state.output.write = headermark) (minuteHttpdStandardBody status)
    pure user
  else pure user

/-- The calls that finish every response, and the return value. -/
def handleFinish : Httpd Int := do
  minuteHttpdFlush
  minuteHttpdChunkEnd
  minuteHttpdInDiscard
  let resp ← get
  pure (if resp.connectionKeep then httpdClientOkOpen else httpdClientOkClose)

/-- Clearing the buffers and reading the head of the request. -/
def handleRequest : Httpd Int := do
  modify fun resp => { resp with
    state.output := minuteIobufClear resp.state.output
    state.text := minuteTextintClear resp.state.text }
  let resp ← get
  let (rqs, text) := minuteHttpInit minuteAllHeaders resp.state.input resp.state.text
  set { resp with state.text := text }
  minuteHttpdReadRequest rqs

/-- What `minute_httpd_handle` does after the head has been read with `status`. -/
def handleStatus (app : MinuteHttpdApp υ) (now : Nat) (user : υ) (status : Int) : Httpd (Int × υ) :=
  if status < 0 then pure (httpdClientNoRequest, user)
  else if status ≠ 0 then handleError app now status user
  else do
    minuteHttpdStart
    let (status, user) ← handleHead app now user
    let user ← handleBody app status user
    let r ← handleFinish
    pure (r, user)

/-- The `httpd_response` that a call sets up. -/
def HttpdResponse.init (state : HttpdState) : HttpdResponse :=
  ⟨state, .zero, 0, 0, ⟨[], [], false⟩⟩

/-- `minute_httpd_handle`: the return value, the user data and the response structure at the end, whose
`state` is what the caller keeps. -/
def minuteHttpdHandle (app : MinuteHttpdApp υ) (now : Nat) (user : υ) (state : HttpdState) :
    Except Stop ((Int × υ) × HttpdResponse) :=
  (handleRequest >>= handleStatus app now user : Httpd (Int × υ)) (.init state)

end MinuteHttp
