import MinuteHttp.Libhttp.Headers

/-!
# Texts of versions and status codes (`libhttp/http-text.c`)
-/

namespace MinuteHttp

/-- `minute_http_version_text` -/
def minuteHttpVersionText : HttpVersion → String
  | .v1_1 => "HTTP/1.1"
  | _ => "HTTP/1.0"

/-- `minute_http_response_text` -/
def minuteHttpResponseText (code : Int) : String :=
  match code with
  | 100 => "Continue"
  | 101 => "Switching Protocols"
  | 200 => "OK"
  | 201 => "Created"
  | 202 => "Accepted"
  | 203 => "Non-Authoritative Information"
  | 204 => "No Content"
  | 205 => "Reset Content"
  | 206 => "Partial Content"
  | 300 => "Multiple Choices"
  | 301 => "Moved Permanently"
  | 302 => "Found"
  | 303 => "See Other"
  | 304 => "Not Modified"
  | 305 => "Use Proxy"
  | 307 => "Temporary Redirect"
  | 400 => "Bad Request"
  | 401 => "Not Authorized"
  | 402 => "Payment Required"
  | 403 => "Forbidden"
  | 404 => "Not Found"
  | 405 => "Method Not Allowed"
  | 406 => "Not Acceptable"
  | 407 => "Proxy Authentication Required"
  | 408 => "Request Timed Out"
  | 409 => "Conflict"
  | 410 => "Gone"
  | 411 => "Length Required"
  | 412 => "Precondition Failed"
  | 413 => "Request Entity Too Large"
  | 414 => "Request-URI Too Long"
  | 415 => "Unsupported Media Type"
  | 416 => "Requested Range Not Satisfiable"
  | 417 => "Expectation Failed"
  | 418 => "I'm a teapot"
  | 500 => "Internal Server Error"
  | 501 => "Not Implemented"
  | 502 => "Bad Gateway"
  | 503 => "Service Unavailable"
  | 504 => "Gateway Timeout"
  | 505 => "HTTP Version Not Supported"
  | _ =>
    match code.tdiv 100 with
    | 1 => "Informational"
    | 2 => "Successful"
    | 3 => "Redirection"
    | 4 => "Client Error"
    | 5 => "Server Error"
    | _ => "Unknown"

end MinuteHttp
