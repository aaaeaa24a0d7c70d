import Mathlib.Data.Int.Notation

/-!
# Character classes of RFC 2396, Appendix A (`libhttp/http.c`)

Characters are `int`s: a promoted signed `char`, or `H_EOF`.
-/

namespace MinuteHttp

def uriHex (c : Int) : Bool :=
  (97 ≤ c ∧ c ≤ 102) ∨ (65 ≤ c ∧ c ≤ 70) ∨ (48 ≤ c ∧ c ≤ 57)

/-- `uri_hex_conv`; the upper-case branch subtracts `'a'`, as the source does. -/
def uriHexConv (c : Int) : Int :=
  if 97 ≤ c ∧ c ≤ 102 then c + 10 - 97
  else if 65 ≤ c ∧ c ≤ 70 then c + 10 - 97
  else c - 48

def uriAlphanum (c : Int) : Bool :=
  (97 ≤ c ∧ c ≤ 122) ∨ (65 ≤ c ∧ c ≤ 90) ∨ (48 ≤ c ∧ c ≤ 57)

/-- `-_.!~*'()` -/
def uriMark (c : Int) : Bool :=
  c = 45 ∨ c = 95 ∨ c = 46 ∨ c = 33 ∨ c = 126 ∨ c = 42 ∨ c = 39 ∨ c = 40 ∨ c = 41

def uriUnreserved (c : Int) : Bool := uriAlphanum c || uriMark c

/-- `;/?:@&=+$,` -/
def uriReserved (c : Int) : Bool :=
  c = 59 ∨ c = 47 ∨ c = 63 ∨ c = 58 ∨ c = 64 ∨ c = 38 ∨ c = 61 ∨ c = 43 ∨ c = 36 ∨ c = 44

/-- unreserved or `:@&=+$,` -/
def uriPchar (c : Int) : Bool :=
  uriUnreserved c || decide (c = 58 ∨ c = 64 ∨ c = 38 ∨ c = 61 ∨ c = 43 ∨ c = 36 ∨ c = 44)

def uriUric (c : Int) : Bool := uriUnreserved c || uriReserved c

end MinuteHttp
