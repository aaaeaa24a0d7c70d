import MinuteHttp.Libhttp.Headers

/-!
# The trie tables and `walk_trie` (`libhttp/http.c`)

A table entry holds the letters of an edge (`pfx`, the source's `prefix`, whose terminating NUL is
`charAt` of its length), the `next` value its children carry in `check`, the `offset` at which the
children's block starts and the `terminal` of the keyword that ends there. The cursor `(poff, slot)`
says how many letters of the entry `slot` have been matched; `poff = 0` is "not in the table yet",
and then the walk starts from an initial node given by the caller.

An access outside the table, through a NULL `prefix` or a NULL initial node, or past the NUL of a
`prefix` has no result (`none`).
-/

namespace MinuteHttp

structure Patricia where
  pfx : Option String
  check : Nat
  next : Nat
  offset : Nat
  terminal : Nat

structure Triestate where
  poff : Nat
  slot : Nat
  deriving DecidableEq

open HttpRequestHeader in
def headers : List Patricia :=
  [⟨some "a", 0, 1, 4, 0⟩,
   ⟨none, 0, 0, 0, 0⟩,
   ⟨some "c", 0, 8, 13, 0⟩,
   ⟨some "date", 0, 99, 0, date.code⟩,
   ⟨some "expect", 0, 99, 0, expect.code⟩,
   ⟨some "from", 0, 99, 0, «from».code⟩,
   ⟨some "ccept", 1, 2, 0, accept.code⟩,
   ⟨some "host", 0, 99, 0, host.code⟩,
   ⟨some "if-", 0, 26, 30, 0⟩,
   ⟨some "charset", 3, 99, 0, acceptCharset.code⟩,
   ⟨some "e", 41, 99, 0, te.code⟩,
   ⟨some "encoding", 3, 99, 0, acceptEncoding.code⟩,
   ⟨some "max-forwards", 0, 99, 0, maxForwards.code⟩,
   ⟨some "ache-control", 8, 99, 0, cacheControl.code⟩,
   ⟨some "origin", 0, 99, 0, origin.code⟩,
   ⟨some "pr", 0, 35, 25, 0⟩,
   ⟨some "atch", 27, 99, 0, ifMatch.code⟩,
   ⟨some "r", 0, 38, 28, 0⟩,
   ⟨some "language", 3, 99, 0, acceptLanguage.code⟩,
   ⟨some "t", 0, 41, 6, 0⟩,
   ⟨some "u", 0, 46, 31, 0⟩,
   ⟨some "via", 0, 99, 0, via.code⟩,
   ⟨some "warning", 0, 99, 0, warning.code⟩,
   ⟨some "ra", 41, 43, 21, 0⟩,
   ⟨some "uthorization", 1, 99, 0, authorization.code⟩,
   ⟨some "agma", 35, 99, 0, pragma.code⟩,
   ⟨some "-", 2, 3, 7, 0⟩,
   ⟨some "o", 8, 10, 23, 0⟩,
   ⟨some "ange", 38, 99, 0, range.code⟩,
   ⟨some "iler", 43, 99, 0, trailer.code⟩,
   ⟨some "odified-since", 27, 99, 0, ifModifiedSince.code⟩,
   ⟨some "anguage", 15, 99, 0, contentLanguage.code⟩,
   ⟨some "eferer", 38, 99, 0, referer.code⟩,
   ⟨some "encoding", 13, 99, 0, contentEncoding.code⟩,
   ⟨some "nsfer-encoding", 43, 99, 0, transferEncoding.code⟩,
   ⟨some "ength", 15, 99, 0, contentLength.code⟩,
   ⟨some "n", 10, 11, 25, 0⟩,
   ⟨some "okie", 10, 99, 0, cookie.code⟩,
   ⟨some "nection", 11, 99, 0, connection.code⟩,
   ⟨some "oxy-authorization", 35, 99, 0, proxyAuthorization.code⟩,
   ⟨some "l", 13, 15, 31, 0⟩,
   ⟨some "md5", 13, 99, 0, contentMd5.code⟩,
   ⟨some "m", 26, 27, 16, 0⟩,
   ⟨some "none-match", 26, 99, 0, ifNoneMatch.code⟩,
   ⟨some "tent-", 11, 13, 29, 0⟩,
   ⟨some "ocation", 15, 99, 0, contentLocation.code⟩,
   ⟨some "pgrade", 46, 99, 0, upgrade.code⟩,
   ⟨some "range", 26, 99, 0, ifRange.code⟩,
   ⟨some "type", 13, 99, 0, contentType.code⟩,
   ⟨some "ser-agent", 46, 99, 0, userAgent.code⟩,
   ⟨some "unmodified-since", 26, 99, 0, ifUnmodifiedSince.code⟩,
   ⟨none, 0, 0, 0, 0⟩,
   ⟨none, 0, 0, 0, 0⟩,
   ⟨none, 0, 0, 0, 0⟩,
   ⟨none, 0, 0, 0, 0⟩,
   ⟨none, 0, 0, 0, 0⟩,
   ⟨none, 0, 0, 0, 0⟩,
   ⟨none, 0, 0, 0, 0⟩,
   ⟨none, 0, 0, 0, 0⟩]

def patinitialHeaders : Patricia := ⟨some "", 0, 0, 0, 0⟩

/-- `http_proto` of `enum http_keywords` -/
def httpProto : Nat := 1

/-- Methods (state 0, offset 0), the protocol name (10, 1), Connection values (20, 2),
Transfer-Encoding values (25, 3) and Expect values (30, 0), interleaved. -/
def utility : List Patricia :=
  [⟨none, 0, 0, 0, 0⟩,
   ⟨none, 0, 0, 0, 0⟩,
   ⟨some "CONNECT", 0, 99, 0, HttpMethod.connect.code⟩,
   ⟨some "DELETE", 0, 99, 0, HttpMethod.delete.code⟩,
   ⟨some "close", 20, 99, 0, httpConnectionClose⟩,
   ⟨some "chunked", 25, 99, 0, httpTransferChunked⟩,
   ⟨some "GET", 0, 99, 0, HttpMethod.get.code⟩,
   ⟨some "HEAD", 0, 99, 0, HttpMethod.head.code⟩,
   ⟨some "HTTP", 10, 99, 0, httpProto⟩,
   ⟨none, 0, 0, 0, 0⟩,
   ⟨none, 0, 0, 0, 0⟩,
   ⟨none, 0, 0, 0, 0⟩,
   ⟨some "keep-alive", 20, 99, 0, httpConnectionKeep⟩,
   ⟨none, 0, 0, 0, 0⟩,
   ⟨some "OPTIONS", 0, 99, 0, HttpMethod.options.code⟩,
   ⟨some "P", 0, 1, 2, 0⟩,
   ⟨some "OST", 1, 99, 0, HttpMethod.post.code⟩,
   ⟨none, 0, 0, 0, 0⟩,
   ⟨none, 0, 0, 0, 0⟩,
   ⟨some "TRACE", 0, 99, 0, HttpMethod.trace.code⟩,
   ⟨none, 0, 0, 0, 0⟩,
   ⟨none, 0, 0, 0, 0⟩,
   ⟨some "UT", 1, 99, 0, HttpMethod.put.code⟩,
   ⟨none, 0, 0, 0, 0⟩,
   ⟨none, 0, 0, 0, 0⟩,
   ⟨none, 0, 0, 0, 0⟩,
   ⟨some "100-continue", 30, 99, 0, httpExpectContinue⟩,
   ⟨none, 0, 0, 0, 0⟩,
   ⟨none, 0, 0, 0, 0⟩,
   ⟨none, 0, 0, 0, 0⟩]

def patinitialConnection : Patricia := ⟨some "", 0, 20, 2, 0⟩
def patinitialTransfer : Patricia := ⟨some "", 0, 25, 3, 0⟩
def patinitialExpect : Patricia := ⟨some "", 0, 30, 0, 0⟩

/-- The letters of an entry's `prefix`. -/
def Patricia.letters (p : Patricia) : Option (List Char) := p.pfx.map String.toList

/-- `p->prefix[i]`; the terminating NUL is the last character there is. -/
def Patricia.charAt (p : Patricia) (i : Nat) : Option Int :=
  p.letters.bind fun w => (w.map (fun x => (x.toNat : Int)) ++ [0])[i]?

/-- `utility_trie_map` -/
def utilityTrieMap (c : Int) : Nat :=
  if 65 ≤ c ∧ c ≤ 90 then (c - 65).toNat        -- 'A'..'Z'
  else if 97 ≤ c ∧ c ≤ 122 then (c - 97).toNat  -- 'a'..'z'
  else 26

/-- `header_trie_map` -/
def headerTrieMap (c : Int) : Nat :=
  if 97 ≤ c ∧ c ≤ 122 then (c - 97).toNat
  else if c = 45 then 26                         -- '-'
  else 27

/-- The part of `walk_trie` that enters a child of `p`. -/
def enterChild (c : Int) (offset_c : Nat) (tree : List Patricia) (p : Patricia) (t : Triestate) :
    Option (Int × Triestate) := do
  let slot := p.offset + offset_c
  let q ← tree[slot]?
  if q.charAt 0 = some c ∧ q.check = p.next then some (0, ⟨1, slot⟩) else some (-1, t)

/-- `walk_trie`: the return value and the cursor. -/
def walkTrie (c : Int) (offset_c : Nat) (tree : List Patricia) (initial : Option Patricia)
    (t : Triestate) : Option (Int × Triestate) := do
  if t.poff ≠ 0 then
    let p ← tree[t.slot]?
    let pc ← p.charAt t.poff
    if pc = 0 ∧ c = 0 then some (p.terminal, t)
    else if pc = 0 then enterChild c offset_c tree p t
    else if pc = c then some (0, { t with poff := t.poff + 1 })
    else some (-1, t)
  else
    let p ← initial
    enterChild c offset_c tree p t

end MinuteHttp
