import MinuteHttp.Lib.Client
import MinuteHttp.Lib.Dict
import MinuteHttp.Libhttpd.Handle
import MinuteHttp.Minuted.Config
import MinuteHttp.Minuted.Hosts

/-!
# The Tcl application (`minuted/tap.c`)

`minuted_tap_handle` serves a connection with the procs of the vhosts as callbacks. What a proc does is Tcl's and
not known here: it is a client (`Prog`) of the commands and channels that it is given, started from the path, the
query and the state `τ` of the interpreters, and it ends with Tcl's result. The callbacks translate its calls into
those of the API.
-/

namespace MinuteHttp

open Effect

/-! ## Procs -/

/-- The result object of a proc, as `minuted_tap_status` looks at it: its elements, if it is a list, and what
`Tcl_GetIntFromObj` makes of them. The index 0 of an empty list gives a null pointer, which that function does not
survive. -/
structure StatusObj where
  elements : Option (List (Option Uint))
  ne_nil : elements ≠ some []

/-- `minuted_tap_status` -/
def minutedTapStatus (resObj : StatusObj) : Uint :=
  match resObj.elements with
  | some (some res :: _) => res
  | _ => 500

/-- A call of `headers`: a command on the meta object, by its words. -/
structure MetaCall where
  objv : List (List Byte)

/-- A call of `payload`. -/
inductive PayloadProcCall where
  | «meta» (call : MetaCall)
  | input (toWrite : Uint)

/-- A call of `response`. -/
inductive ResponseProcCall where
  | «meta» (call : MetaCall)
  | input (toWrite : Uint)
  | output (buf : List Byte)

/-- The result of a command. -/
abbrev MetaAnswer := TclResult × List Byte

@[reducible] def PayloadProcCall.Answer : PayloadProcCall → Type
  | .meta _ => MetaAnswer
  | .input _ => Int × List Byte

@[reducible] def ResponseProcCall.Answer : ResponseProcCall → Type
  | .meta _ => MetaAnswer
  | .input _ => Int × List Byte
  | .output _ => PUnit

/-- `tap_vhost`. A proc ends with the result object, or (`none`) not with `TCL_OK`; of `response` only that matters. -/
structure TapVhost (τ : Type) where
  noPayload : Bool
  headers : List Byte → List Byte → τ → Prog MetaCall (fun _ => MetaAnswer) (Option StatusObj × τ)
  payload : List Byte → List Byte → Option StatusObj → τ →
    Prog PayloadProcCall PayloadProcCall.Answer (Option StatusObj × τ)
  response : List Byte → List Byte → Option StatusObj → τ → Prog ResponseProcCall ResponseProcCall.Answer (Bool × τ)

/-- `tap_runtime`: the hosts of each listener, the numbers of the hosts as `Tcl_GetIntFromObj` reads them, and the
vhosts. -/
structure TapRuntime (τ : Type) where
  vhostListen : Nat → Dict (List Byte) Unit
  vhostMap : Dict (List Byte) (Option Int)
  v : List (TapVhost τ)

/-- `tap_rq_data`, with the state of the interpreters; `vhost` is an index into `rs->v`. -/
structure TapRqData (τ : Type) where
  vhost : Option Nat
  oPath : Option (List Byte)
  oQuery : Option (List Byte)
  oHost : Option (List Byte)
  method : HttpMethod
  status : Option StatusObj
  code : Int
  tcl : τ

/-! ## The commands and channels -/

variable {τ : Type}

/-- `tap_tcl_add_header` -/
def tapTclAddHeader (header value : List Byte) : Prog HeadCall (fun _ => PUnit) MetaAnswer :=
  match minutedTapResponseHeader header with
  | .unknownHeader => .done (.error, [])
  | h => .call (.string h value) fun _ => .done (.ok, [])

/-- `get-header` as a command. -/
def getHeaderAnswer (rq : MinuteHttpRq) (text : Textint) (header : List Byte) : MetaAnswer :=
  match tapTclGetHeader rq text header with
  | none => (.error, [])
  | some value => (.ok, value)

/-- `tap_tcl_headers_meta`, on the words behind the command's name. -/
def tapTclHeadersMeta (rq : MinuteHttpRq) (text : Textint) (call : MetaCall) :
    Prog HeadCall (fun _ => PUnit) MetaAnswer :=
  match call.objv with
  | [] => .done (.error, [])
  | cmd :: args =>
    match minutedTapBinarySearch cmd [bytes "add-header", bytes "get-header"] with
    | 0 =>
      match args with
      | [header, value] => tapTclAddHeader header value
      | _ => .done (.error, [])
    | 1 =>
      match args with
      | [header] => .done (getHeaderAnswer rq text header)
      | _ => .done (.error, [])
    | _ => .done (.ok, [])

/-- `tap_tcl_response_meta` -/
def tapTclResponseMeta (rq : MinuteHttpRq) (text : Textint) (call : MetaCall) : MetaAnswer :=
  match call.objv with
  | [] => (.error, [])
  | cmd :: args =>
    match minutedTapBinarySearch cmd [bytes "get-header"] with
    | 0 =>
      match args with
      | [header] => getHeaderAnswer rq text header
      | _ => (.error, [])
    | _ => (.ok, [])

/-- What `payload` is given: the meta object, and a channel whose driver is `minuted_tap_input_proc`. -/
def payloadProcCall (rq : MinuteHttpRq) (text : Textint) :
    (c : PayloadProcCall) → Prog PayloadCall PayloadCall.Answer c.Answer
  | .meta call => (tapTclHeadersMeta rq text call).translate fun c => .call (.head c) .done
  | .input toWrite => .call (.read toWrite) .done

/-- What `response` is given: the driver of its channel has `minuted_tap_output_proc` as well. -/
def responseProcCall (rq : MinuteHttpRq) (text : Textint) :
    (c : ResponseProcCall) → Prog ResponseCall ResponseCall.Answer c.Answer
  | .meta call => .done (tapTclResponseMeta rq text call)
  | .input toWrite => .call (.read toWrite) .done
  | .output buf => .call (.out (.write buf)) .done

/-! ## The callbacks -/

/-- `minuted_tap_reset` -/
def minutedTapReset (rqd : TapRqData τ) : TapRqData τ :=
  { rqd with
    vhost := none, method := .unknownMethod, code := 0, status := none, oPath := none, oQuery := none, oHost := none }

/-- `rq->path ? minute_textint_gets(rq->path, text) : ""`, and so for the query. -/
def textAt (text : Textint) (offset : Uint) : List Byte :=
  if offset ≠ 0 then cString text (minuteTextintGets offset.toInt text).toNat else []

/-- The end of `minuted_tap_head`. -/
def tapHeadEnd (rq : MinuteHttpRq) (res : Uint) (rqd : TapRqData τ) : Uint × TapRqData τ :=
  (res, { rqd with method := rq.requestMethod, code := res.toInt })

/-- The key under which the vhost of a request is looked up. -/
def tapActhost (tr : TapRuntime τ) (listenId : Nat) (text : Textint) : List Byte :=
  let host := minutedTapHeadHost text
  if ((tr.vhostListen listenId).get host).isSome then host else sDefault

/-- `minuted_tap_head` -/
def minutedTapHead (tr : TapRuntime τ) (listenId : Nat) (rq : MinuteHttpRq) (text : Textint) (rqd : TapRqData τ) :
    Prog HeadCall (fun _ => PUnit) (Uint × TapRqData τ) :=
  let path := textAt text rq.path
  let query := textAt text rq.query
  let acthost := tapActhost tr listenId text
  let rqd := { rqd with oHost := some acthost, oPath := some path, oQuery := some query }
  if ((tr.vhostListen listenId).get acthost).isNone then .done (tapHeadEnd rq 410 rqd)
  else
    match tr.vhostMap.get acthost with
    | none => .done (tapHeadEnd rq 500 rqd)
    | some none => .done (tapHeadEnd rq 500 rqd)
    | some (some i) =>
      if i < 0 ∨ i > tr.v.length then .done (tapHeadEnd rq 500 rqd)
      else
        match tr.v[i.toNat]? with
        | none => .done (tapHeadEnd rq 500 rqd)                               -- `rs->v[rs->nv]`, which no host has
        | some v =>
          ((v.headers path query rqd.tcl).translate (tapTclHeadersMeta rq text)).bind fun (r, tcl) =>
            let rqd := { rqd with vhost := some i.toNat, tcl }
            match r with
            | none => .done (tapHeadEnd rq 500 rqd)
            | some resObj => .done (tapHeadEnd rq (minutedTapStatus resObj) { rqd with status := some resObj })

/-- `rqd->vhost` -/
def TapRuntime.vhostOf (tr : TapRuntime τ) (rqd : TapRqData τ) : Option (TapVhost τ) :=
  rqd.vhost.bind fun i => tr.v[i]?

/-- `minuted_tap_payload`. It is called only if `headers` of a vhost has said so. -/
def minutedTapPayload (tr : TapRuntime τ) (rq : MinuteHttpRq) (text : Textint) (rqd : TapRqData τ) :
    Prog PayloadCall PayloadCall.Answer (Uint × TapRqData τ) :=
  match tr.vhostOf rqd with
  | none => .done (500, { rqd with code := 500 })
  | some v =>
    if v.noPayload then .done (500, { rqd with code := 500 })
    else
      ((v.payload (rqd.oPath.getD []) (rqd.oQuery.getD []) rqd.status rqd.tcl).translate
          (payloadProcCall rq text)).bind fun (r, tcl) =>
        match r with
        | none => .done (500, { rqd with code := 500, tcl })
        | some resObj =>
          let res := minutedTapStatus resObj
          .done (res, { rqd with code := res.toInt, status := some resObj, tcl })

/-- `minuted_tap_response`. The channel is closed behind the proc, and its close proc flushes. -/
def minutedTapResponse (tr : TapRuntime τ) (rq : MinuteHttpRq) (text : Textint) (rqd : TapRqData τ) :
    Prog ResponseCall ResponseCall.Answer (Uint × TapRqData τ) :=
  match tr.vhostOf rqd with
  | none => .done (1, rqd)
  | some v =>
    ((v.response (rqd.oPath.getD []) (rqd.oQuery.getD []) rqd.status rqd.tcl).translate
        (responseProcCall rq text)).bind fun (ok, tcl) =>
      .call (.out .flush) fun _ => .done (if ok then 0 else 1, { rqd with tcl })

/-- The callbacks of `minuted_tap_handle`; `minuted_tap_error` only logs. -/
def tapApp (tr : TapRuntime τ) (listenId : Nat) : MinuteHttpdApp (TapRqData τ) where
  header := minutedTapHead tr listenId
  payload := minutedTapPayload tr
  response rq text _ := minutedTapResponse tr rq text
  error _ _ rqd := rqd

/-! ## The connection -/

/-- `minuted_tap_method_name` -/
def minutedTapMethodName : HttpMethod → String
  | .unknownMethod => "???"
  | .get => "GET"
  | .post => "POST"
  | .put => "PUT"
  | .delete => "DELETE"
  | .head => "HEAD"
  | .options => "OPTIONS"
  | .trace => "TRACE"
  | .connect => "CONNECT"

/-- `acclog ("%s %s %s %s%s%s %d", …)` -/
def accessLine (name host : List Byte) (method : HttpMethod) (path query : List Byte) (code : Int) : List Byte :=
  name ++ bytes " " ++ host ++ bytes " " ++ bytes (minutedTapMethodName method) ++ bytes " " ++ path ++
    (if query = [] then [] else bytes "?") ++ query ++ bytes " " ++ bytes (toString code)

/-- `minuted_tap_access`. `name` is the address of the socket. -/
def minutedTapAccess (name : List Byte) (rqd : TapRqData τ) : List Byte :=
  accessLine name (rqd.oHost.getD (bytes "unknown")) rqd.method (rqd.oPath.getD (bytes "<none>"))
    (rqd.oQuery.getD []) rqd.code

/-- The one socket of a connection: what the peer sends, and how the calls that read it and those that write to it
end. -/
structure TapSocket where
  stream : List Byte
  readCuts : List (Option Nat)
  writeCuts : List (Option Nat)

/-- `sock` as `state->infd` -/
def TapSocket.infd (sock : TapSocket) : Infd := ⟨sock.stream, sock.readCuts⟩

/-- `sock` as `state->outfd` -/
def TapSocket.outfd (sock : TapSocket) : Outfd := ⟨true, sock.writeCuts, []⟩

/-- What the loop of `minuted_tap_handle` leaves: the return value, `rqd` and the state. -/
structure TapLeft (τ : Type) where
  r : Int
  rqd : TapRqData τ
  state : HttpdState

/-- How the loop of `minuted_tap_handle` ends: the lines logged, and what is left. A call of `minute_httpd_handle` in
which a write is refused closes the socket, and with it what is read from: it is not followed, and with `none` the
lines are those of the calls before it. -/
structure TapEnd (τ : Type) where
  log : List (List Byte)
  left : Option (TapLeft τ)

/-- The loop, for as many turns as `turns` says; `now` is the time in each of them. -/
def tapLoop (app : MinuteHttpdApp (TapRqData τ)) (name : List Byte) (now : Nat → Nat) :
    Nat → TapRqData τ → HttpdState → Except Stop (TapEnd τ)
  | 0, _, _ => .error .spin
  | turns + 1, rqd, state => do
    let ((r, rqd), resp) ← minuteHttpdHandle app (now turns) rqd state
    if resp.state.outfd.isOpen = false then pure ⟨[], none⟩
    else
      let (r, rqd) := if 0 > r then (httpdClientOkClose, { rqd with code := -r }) else (r, rqd)
      let log := if r = httpdClientOkOpen ∨ r = httpdClientOkClose then [minutedTapAccess name rqd] else []
      let rqd := minutedTapReset rqd
      if r = httpdClientOkOpen then do
        let e ← tapLoop app name now turns rqd resp.state
        pure { e with log := log ++ e.log }
      else pure ⟨log, some ⟨r, rqd, resp.state⟩⟩

/-- `minuted_tap_handle`, on the connection `sock` with the three buffers as the stack holds them. -/
def minutedTapHandle (tr : TapRuntime τ) (listenId : Nat) (name : List Byte) (now : Nat → Nat) (tcl : τ)
    (inbuf outbuf textbuf : Nat → Byte) (sock : TapSocket) : Except Stop (TapEnd τ) :=
  let state : HttpdState :=
    ⟨minuteIobufInit 0x100 inbuf, minuteIobufInit 0x400 outbuf, minuteTextintInit 0x400 textbuf, sock.infd,
      sock.outfd⟩
  tapLoop (tapApp tr listenId) name now (sock.stream.length + 2)
    (minutedTapReset ⟨none, none, none, none, .unknownMethod, none, 0, tcl⟩) state

end MinuteHttp
