import MinuteHttp.Libhttp.Iobuf

/-!
# Enumerations of `libhttp/http.h` and `libhttp/http-headers.h`

The parser's tries return an `unsigned` that stands for a header, a method, a flag or a keyword
depending on the trie, so every enumeration here has its C value as `code`.
-/

namespace MinuteHttp

/-- `enum http_version` -/
inductive HttpVersion where
  | unknownVersion
  | v0_9
  | v1_0
  | v1_1
  deriving DecidableEq, Repr

def HttpVersion.code : HttpVersion → Nat
  | .unknownVersion => 0
  | .v0_9 => 9
  | .v1_0 => 10
  | .v1_1 => 11

/-- `enum http_method` -/
inductive HttpMethod where
  | unknownMethod
  | get
  | head
  | post
  | put
  | options
  | delete
  | trace
  | connect
  deriving DecidableEq, Repr

def HttpMethod.code (m : HttpMethod) : Nat := m.ctorIdx

/-- The method a trie terminal stands for. -/
def HttpMethod.ofCode : Int → HttpMethod
  | 1 => get
  | 2 => head
  | 3 => post
  | 4 => put
  | 5 => options
  | 6 => delete
  | 7 => trace
  | 8 => connect
  | _ => unknownMethod

/-- `enum http_request_header` -/
inductive HttpRequestHeader where
  | unknownHeader
  | accept
  | acceptCharset
  | acceptEncoding
  | acceptLanguage
  | authorization
  | cacheControl
  | connection
  | contentEncoding
  | contentLanguage
  | contentLength
  | contentLocation
  | contentMd5
  | contentType
  | cookie
  | date
  | expect
  | «from»
  | host
  | ifMatch
  | ifModifiedSince
  | ifNoneMatch
  | ifRange
  | ifUnmodifiedSince
  | maxForwards
  | origin
  | pragma
  | proxyAuthorization
  | range
  | referer
  | te
  | trailer
  | transferEncoding
  | upgrade
  | userAgent
  | via
  | warning
  deriving DecidableEq, Repr

def HttpRequestHeader.code (h : HttpRequestHeader) : Nat := h.ctorIdx

/-- `http_request_header_names` -/
def httpRequestHeaderNames : List String :=
  ["X-Unknown-Header", "Accept", "Accept-Charset", "Accept-Encoding", "Accept-Language",
   "Authorization", "Cache-Control", "Connection", "Content-Encoding", "Content-Language",
   "Content-Length", "Content-Location", "Content-MD5", "Content-Type", "Cookie", "Date", "Expect",
   "From", "Host", "If-Match", "If-Modified-Since", "If-None-Match", "If-Range",
   "If-Unmodified-Since", "Max-Forwards", "Origin", "Pragma", "Proxy-Authorization", "Range",
   "Referer", "TE", "Trailer", "Transfer-Encoding", "Upgrade", "User-Agent", "Via", "Warning"]

/-- `enum http_response_header` -/
inductive HttpResponseHeader where
  | unknownHeader
  | acceptRanges
  | age
  | allow
  | cacheControl
  | connection
  | contentEncoding
  | contentLanguage
  | contentLength
  | contentLocation
  | contentMd5
  | contentDisposition
  | contentRange
  | contentType
  | date
  | etag
  | expires
  | lastModified
  | link
  | location
  | p3p
  | pragma
  | proxyAuthenticate
  | refresh
  | retryAfter
  | server
  | setCookie
  | strictTransportSecurity
  | trailer
  | transferEncoding
  | vary
  | via
  | warning
  | wwwAuthenticate
  deriving DecidableEq, Repr

def HttpResponseHeader.code (h : HttpResponseHeader) : Nat := h.ctorIdx

/-- `http_response_header_names` -/
def httpResponseHeaderNames : List String :=
  ["X-Unknown-Header", "Accept-Ranges", "Age", "Allow", "Cache-Control", "Connection",
   "Content-Encoding", "Content-Language", "Content-Length", "Content-Location", "Content-MD5",
   "Content-Disposition", "Content-Range", "Content-Type", "Date", "ETag", "Expires", "Last-Modified",
   "Link", "Location", "P3P", "Pragma", "Proxy-Authenticate", "Refresh", "Retry-After", "Server",
   "Set-Cookie", "Strict-Transport-Security", "Trailer", "Transfer-Encoding", "Vary", "Via", "Warning",
   "WWW-Authenticate"]

/-! ## `enum http_header_flags`, the bits of `minute_http_rq.flags` -/

def httpConnectionClose : Nat := 0x01
def httpConnectionKeep : Nat := 0x02
def httpExpectContinue : Nat := 0x04
def httpTransferChunked : Nat := 0x08
def httpContentLength : Nat := 0x10

/-- `flags & bit` -/
def hasFlag (flags : Uint) (bit : Nat) : Bool := decide (flags &&& BitVec.ofNat 32 bit ≠ 0)

/-- The parsed request, `minute_http_rq`. `path` and `query` are offsets into the text buffer. -/
structure MinuteHttpRq where
  flags : Uint
  serverProtocol : HttpVersion
  requestMethod : HttpMethod
  path : Uint
  query : Uint
  contentLength : Uint

/-- A zeroed `minute_http_rq`, as every caller passes it in. -/
def MinuteHttpRq.zero : MinuteHttpRq := ⟨0, .unknownVersion, .unknownMethod, 0, 0, 0⟩

end MinuteHttp
