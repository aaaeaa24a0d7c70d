import MinuteHttp.Lib.Bisect
import MinuteHttp.Libhttp.Names

/-!
# Header names in the application interface (`minuted/tap.c`)

The Tcl interface looks a header name up by binary search in `http_request_header_names`, the parser
by a walk through its trie. Both know the same names (`lookups_agree`): a name up to the case of its
letters, and nothing else. Names of response headers are looked up in the same way, but their table has
`Content-Disposition` behind `Content-MD5`, so three of them are not found (`responseHeader_found_iff`).
-/

namespace MinuteHttp

open Bisect

/-! ## The search -/

/-- `tolower` of an `unsigned char` in the C locale -/
def tolowerByte (b : Byte) : Int := toLower (b.toNat : Int)

/-- `strcasecmp`: the difference of the first two characters that differ in lower case. A string is
the list of its characters before the NUL. -/
def strcasecmp : List Byte → List Byte → Int
  | [], [] => 0
  | [], d :: _ => -tolowerByte d
  | c :: _, [] => tolowerByte c
  | c :: s, d :: t =>
    if tolowerByte c = tolowerByte d then strcasecmp s t else tolowerByte c - tolowerByte d

/-- `minuted_tap_binary_search` -/
def minutedTapBinarySearch (s : List Byte) (ls : List (List Byte)) : Int :=
  match bisect (fun mid => strcasecmp s (ls.getD mid [])) 0 ls.length with
  | some mid => mid
  | none => -1

/-- The headers in the order of the enumeration. -/
def HttpRequestHeader.all : List HttpRequestHeader :=
  [.unknownHeader, .accept, .acceptCharset, .acceptEncoding, .acceptLanguage, .authorization,
   .cacheControl, .connection, .contentEncoding, .contentLanguage, .contentLength, .contentLocation,
   .contentMd5, .contentType, .cookie, .date, .expect, .«from», .host, .ifMatch, .ifModifiedSince,
   .ifNoneMatch, .ifRange, .ifUnmodifiedSince, .maxForwards, .origin, .pragma, .proxyAuthorization,
   .range, .referer, .te, .trailer, .transferEncoding, .upgrade, .userAgent, .via, .warning]

/-- `(enum http_request_header) h` -/
def HttpRequestHeader.ofCode (h : Nat) : HttpRequestHeader := HttpRequestHeader.all.getD h .unknownHeader

/-- `http_request_header_names` as C strings -/
def requestHeaderNames : List (List Byte) := httpRequestHeaderNames.map bytes

/-- `minuted_tap_request_header` -/
def minutedTapRequestHeader (name : List Byte) : HttpRequestHeader :=
  let h := minutedTapBinarySearch name requestHeaderNames
  if h > 0 then HttpRequestHeader.ofCode h.toNat else .unknownHeader

/-! ## `strcasecmp` compares the lower-case forms -/

def lowerBytes (s : List Byte) : List Int := s.map tolowerByte

theorem tolowerByte_pos {b : Byte} (h : b ≠ 0) : 0 < tolowerByte b := by
  have hb : b.toNat ≠ 0 := fun h0 => h (BitVec.eq_of_toNat_eq h0)
  unfold tolowerByte toLower
  split <;> omega

theorem strcasecmp_eq_zero {s t : List Byte} (hs : 0 ∉ s) (ht : 0 ∉ t) :
    strcasecmp s t = 0 ↔ lowerBytes s = lowerBytes t := by
  induction s generalizing t with
  | nil =>
    cases t with
    | nil => simp [strcasecmp]
    | cons d t =>
      have := tolowerByte_pos (fun h => ht (by simp [h]) : d ≠ 0)
      simp only [strcasecmp, lowerBytes, List.map_nil, List.map_cons, reduceCtorEq, iff_false]
      omega
  | cons c s ih =>
    cases t with
    | nil =>
      have := tolowerByte_pos (fun h => hs (by simp [h]) : c ≠ 0)
      simp only [strcasecmp, lowerBytes, List.map_nil, List.map_cons, reduceCtorEq, iff_false]
      omega
    | cons d t =>
      have ih := ih (fun h => hs (List.mem_cons_of_mem _ h)) (fun h => ht (List.mem_cons_of_mem _ h))
      simp only [lowerBytes, List.map_cons, List.cons.injEq] at ih ⊢
      rw [strcasecmp]
      by_cases hcd : tolowerByte c = tolowerByte d
      · rw [if_pos hcd, ih]
        simp [hcd]
      · rw [if_neg hcd]
        simp only [hcd, false_and, iff_false]
        omega

theorem strcasecmp_congr {s s' : List Byte} (h : lowerBytes s = lowerBytes s') (t : List Byte) :
    strcasecmp s t = strcasecmp s' t := by
  induction s generalizing s' t with
  | nil =>
    cases s' with
    | nil => rfl
    | cons c s' => cases h
  | cons c s ih =>
    cases s' with
    | nil => cases h
    | cons c' s' =>
      simp only [lowerBytes, List.map_cons, List.cons.injEq] at h
      cases t with
      | nil => rw [strcasecmp, strcasecmp, h.1]
      | cons d t => rw [strcasecmp, strcasecmp, h.1, ih h.2]

/-! ## The table of names -/

/-- What is decided of the names of request headers. -/
theorem requestHeaderNames_facts :
    (∀ r ∈ headerCodes,
      lowerBytes (requestHeaderNames.getD r []) = headerName r ∧ 0 ∉ requestHeaderNames.getD r []) ∧
    (∀ i ∈ headerCodes, ∀ j ∈ headerCodes, i < j →
      strcasecmp (requestHeaderNames.getD i []) (requestHeaderNames.getD j []) < 0 ∧
      0 < strcasecmp (requestHeaderNames.getD j []) (requestHeaderNames.getD i [])) ∧
    ∀ r ∈ headerCodes, ∀ x ∈ headerName r, 0 ≤ x ∧ x < 128 := by
  decide +kernel

theorem requestHeaderNames_lower : ∀ r ∈ headerCodes,
    lowerBytes (requestHeaderNames.getD r []) = headerName r ∧ 0 ∉ requestHeaderNames.getD r [] :=
  requestHeaderNames_facts.1

/-- The names are in order, but for the first. -/
theorem requestHeaderNames_sorted : ∀ i ∈ headerCodes, ∀ j ∈ headerCodes, i < j →
    strcasecmp (requestHeaderNames.getD i []) (requestHeaderNames.getD j []) < 0 ∧
    0 < strcasecmp (requestHeaderNames.getD j []) (requestHeaderNames.getD i []) :=
  requestHeaderNames_facts.2.1

theorem headerName_ascii : ∀ r ∈ headerCodes, ∀ x ∈ headerName r, 0 ≤ x ∧ x < 128 :=
  requestHeaderNames_facts.2.2

theorem requestHeaderNames_length : requestHeaderNames.length = 37 := by decide

theorem ofCode_code : ∀ r ∈ headerCodes, (HttpRequestHeader.ofCode r).code = r := by decide

/-- The search finds a name exactly up to case. -/
theorem binarySearch_iff {n : List Byte} (h0 : 0 ∉ n) {r : Nat} (hr : r ∈ headerCodes) :
    minutedTapBinarySearch n requestHeaderNames = r ↔ lowerBytes n = headerName r := by
  obtain ⟨hpos, hle⟩ := mem_headerCodes.mp hr
  obtain ⟨hname, hnul⟩ := requestHeaderNames_lower r hr
  have hzero : strcasecmp n (requestHeaderNames.getD r []) = 0 ↔ lowerBytes n = headerName r := by
    rw [strcasecmp_eq_zero h0 hnul, hname]
  unfold minutedTapBinarySearch
  constructor
  · intro h
    cases hb : bisect (fun mid => strcasecmp n (requestHeaderNames.getD mid [])) 0
        requestHeaderNames.length with
    | none =>
      rw [hb] at h
      dsimp only at h
      omega
    | some mid =>
      rw [hb] at h
      obtain rfl : mid = r := Int.ofNat.inj h
      exact hzero.mp (bisect_sound hb).2.2
  · intro h
    have hcmp : ∀ i, strcasecmp n (requestHeaderNames.getD i []) =
        strcasecmp (requestHeaderNames.getD r []) (requestHeaderNames.getD i []) := fun i =>
      strcasecmp_congr (h.trans hname.symm) _
    have hlen : r < requestHeaderNames.length := by
      rw [requestHeaderNames_length]
      omega
    rw [bisect_complete hpos hlen (hzero.mpr h) (fun i h₁ h₂ => ?_) (fun i h₁ h₂ => ?_)]
    · have hi : i ∈ headerCodes := mem_headerCodes.mpr (by omega)
      rw [hcmp i]
      exact (requestHeaderNames_sorted i hi r hr h₂).2
    · rw [requestHeaderNames_length] at h₂
      have hi : i ∈ headerCodes := mem_headerCodes.mpr (by omega)
      rw [hcmp i]
      exact (requestHeaderNames_sorted r hr i hi h₁).1

theorem binarySearch_range (n : List Byte) (h : 0 < minutedTapBinarySearch n requestHeaderNames) :
    ∃ r ∈ headerCodes, minutedTapBinarySearch n requestHeaderNames = r := by
  unfold minutedTapBinarySearch at h ⊢
  cases hb : bisect (fun mid => strcasecmp n (requestHeaderNames.getD mid [])) 0
      requestHeaderNames.length with
  | none =>
    rw [hb] at h
    dsimp only at h
    omega
  | some mid =>
    rw [hb] at h
    dsimp only at h ⊢
    have := (bisect_sound hb).2.1
    rw [requestHeaderNames_length] at this
    exact ⟨mid, mem_headerCodes.mpr (by omega), rfl⟩

theorem requestHeader_iff {n : List Byte} (h0 : 0 ∉ n) (t : Nat) :
    (minutedTapRequestHeader n ≠ .unknownHeader ∧ (minutedTapRequestHeader n).code = t) ↔
      t ∈ headerCodes ∧ lowerBytes n = headerName t := by
  unfold minutedTapRequestHeader
  have hknown : ∀ r ∈ headerCodes, HttpRequestHeader.ofCode r ≠ .unknownHeader := by decide
  by_cases hpos : minutedTapBinarySearch n requestHeaderNames > 0
  · obtain ⟨r, hr, hs⟩ := binarySearch_range n hpos
    have hlower := (binarySearch_iff h0 hr).mp hs
    simp only [hs] at hpos ⊢
    rw [if_pos hpos, Int.toNat_natCast, ofCode_code r hr]
    constructor
    · rintro ⟨-, rfl⟩
      exact ⟨hr, hlower⟩
    · rintro ⟨ht, hlower'⟩
      exact ⟨hknown r hr, headerName_injOn r hr t ht (hlower.symm.trans hlower')⟩
  · simp only [if_neg hpos, ne_eq, not_true_eq_false, false_and, false_iff]
    rintro ⟨ht, hlower⟩
    have := (binarySearch_iff h0 ht).mpr hlower
    have := (mem_headerCodes.mp ht).1
    omega

/-! ## The walk -/

/-- The cursor after the characters of a name, if every step of the walk returned 0. -/
def walkName : List Int → Triestate → Option Triestate
  | [], t => some t
  | c :: cs, t =>
    match walkTrie c (headerTrieMap c) headers (some patinitialHeaders) t with
    | some (r, t') => if r = 0 then walkName cs t' else none
    | none => none

/-- What the terminator returns after a name, from a fresh cursor. -/
def trieRequestHeader (n : List Byte) : Option Int :=
  match walkName ((chars n).map toLower) ⟨0, 0⟩ with
  | some t => (walkTrie 0 (headerTrieMap 0) headers (some patinitialHeaders) t).map Prod.fst
  | none => none

theorem walkName_spelt {t : Triestate} (ht : Placed t) {cs : List Int}
    (hcs : ∀ c ∈ cs, c ≠ 58 ∧ c ≠ 0) :
    (∃ t', walkName cs t = some t' ∧ Placed t' ∧ spelt t' = spelt t ++ cs) ∨
    (walkName cs t = none ∧ ∀ r ∈ headerCodes, ¬spelt t ++ cs <+: headerName r) := by
  induction cs generalizing t with
  | nil => exact .inl ⟨t, rfl, ht, by simp⟩
  | cons c cs ih =>
    obtain ⟨h58, h0⟩ := hcs c (List.mem_cons_self ..)
    have hwalk : walkTrie c (headerTrieMap c) headers (some patinitialHeaders) t = headerWalk c t := by
      rw [headerWalk, if_neg h58]
    rw [walkName, hwalk]
    obtain ⟨t', hw, hp, hs⟩ | ⟨hw, hdead⟩ := headerWalk_letter ht h58 h0
    · rw [hw]
      have hrest := ih hp fun c' hc' => hcs c' (List.mem_cons_of_mem _ hc')
      rw [hs, List.append_assoc] at hrest
      exact hrest
    · rw [hw]
      refine .inr ⟨rfl, fun r hr hpre => hdead r hr (List.IsPrefix.trans ?_ hpre)⟩
      exact ⟨cs, by simp⟩

theorem trieRequestHeader_iff {n : List Byte} (h0 : 0 ∉ n) (h58 : 58 ∉ n) (t : Int) :
    (trieRequestHeader n = some t ∧ 0 < t) ↔
      ∃ r ∈ headerCodes, (chars n).map toLower = headerName r ∧ t = r := by
  have hcs : ∀ c ∈ (chars n).map toLower, c ≠ 58 ∧ c ≠ 0 := by
    intro c hc
    simp only [chars, List.map_map, List.mem_map, Function.comp] at hc
    obtain ⟨b, hb, rfl⟩ := hc
    refine ⟨fun h => h58 ?_, fun h => h0 ?_⟩
    · have := (toLower_eq (by decide)).mp h
      have hb58 : b = 58 := BitVec.eq_of_toInt_eq this
      exact hb58 ▸ hb
    · have := (toLower_eq (by decide)).mp h
      have hb0 : b = 0 := BitVec.eq_of_toInt_eq this
      exact hb0 ▸ hb
  have hwalk : ∀ t, walkTrie 0 (headerTrieMap 0) headers (some patinitialHeaders) t = headerWalk 0 t :=
    fun _ => rfl
  unfold trieRequestHeader
  obtain ⟨t', hw, hp, hs⟩ | ⟨hw, hdead⟩ := walkName_spelt (.inl rfl) hcs
  · rw [spelt_start, List.nil_append] at hs
    rw [hw]
    dsimp only
    rw [hwalk]
    obtain ⟨he, hno, -⟩ | ⟨he, hb⟩ | ⟨r, hr, he, hname⟩ := headerWalk_end hp (c := 0) (.inr rfl)
    · rw [he, hs] at *
      simp only [Option.map_some, Option.some.injEq]
      constructor
      · rintro ⟨rfl, h⟩
        omega
      · rintro ⟨r, hr, hname, -⟩
        exact absurd hname.symm (hno r hr)
    · rw [he]
      simp only [Option.map_some, Option.some.injEq]
      constructor
      · rintro ⟨rfl, h⟩
        omega
      · rintro ⟨r, hr, hname, -⟩
        rw [hs, hname] at hb
        exact absurd rfl ((branchings_stem _ hb).2 r hr)
    · rw [he]
      simp only [Option.map_some, Option.some.injEq]
      rw [hs] at hname
      have hpos := (mem_headerCodes.mp hr).1
      constructor
      · rintro ⟨rfl, -⟩
        exact ⟨r, hr, hname.symm, rfl⟩
      · rintro ⟨r', hr', hname', rfl⟩
        have := headerName_injOn r hr r' hr' (hname.trans hname')
        exact ⟨by rw [this], by omega⟩
  · rw [spelt_start, List.nil_append] at hdead
    rw [hw]
    simp only [reduceCtorEq, false_and, false_iff]
    rintro ⟨r, hr, hname, -⟩
    exact hdead r hr (hname ▸ List.prefix_refl _)

/-! ## The two agree -/

/-- On ASCII the signed and the unsigned characters are the same. -/
theorem lowerBytes_eq_iff {n : List Byte} {w : List Int} (hw : ∀ x ∈ w, 0 ≤ x ∧ x < 128) :
    lowerBytes n = w ↔ (chars n).map toLower = w := by
  induction n generalizing w with
  | nil => rfl
  | cons b n ih =>
    cases w with
    | nil => simp [lowerBytes, chars]
    | cons x w =>
      have hx := hw x (List.mem_cons_self ..)
      have ih := ih fun y hy => hw y (List.mem_cons_of_mem _ hy)
      simp only [lowerBytes, chars, List.map_cons, List.cons.injEq] at ih ⊢
      refine and_congr ?_ ih
      have hint : b.toInt = if b.toNat < 128 then (b.toNat : Int) else (b.toNat : Int) - 256 := by
        rw [BitVec.toInt_eq_toNat_cond]
        split <;> split <;> omega
      have := b.isLt
      unfold tolowerByte
      rw [hint]
      by_cases hb : b.toNat < 128
      · rw [if_pos hb]
      · rw [if_neg hb]
        unfold toLower
        split <;> split <;> omega

/-- **The trie of the parser and the table of the interface name the same headers**: of every name
without NUL and `':'`. -/
theorem lookups_agree (n : List Byte) (h0 : 0 ∉ n) (h58 : 58 ∉ n) (t : Int) :
    (trieRequestHeader n = some t ∧ 0 < t) ↔
      (minutedTapRequestHeader n ≠ .unknownHeader ∧ ((minutedTapRequestHeader n).code : Int) = t) := by
  rw [trieRequestHeader_iff h0 h58]
  constructor
  · rintro ⟨r, hr, hname, rfl⟩
    obtain ⟨h₁, h₂⟩ := (requestHeader_iff h0 r).mpr
      ⟨hr, (lowerBytes_eq_iff (headerName_ascii r hr)).mpr hname⟩
    exact ⟨h₁, by rw [h₂]⟩
  · rintro ⟨hne, rfl⟩
    obtain ⟨hr, hname⟩ := (requestHeader_iff h0 _).mp ⟨hne, rfl⟩
    exact ⟨_, hr, (lowerBytes_eq_iff (headerName_ascii _ hr)).mp hname, rfl⟩

/-- `hOST` is the header Host for both. -/
theorem lookups_agree_host :
    trieRequestHeader (bytes "hOST") = some HttpRequestHeader.host.code ∧
      minutedTapRequestHeader (bytes "hOST") = .host := by
  have hagree := (lookups_agree (bytes "hOST") (by decide +kernel) (by decide +kernel) 18).mp
    (by decide +kernel)
  refine ⟨by decide +kernel, ?_⟩
  have hcode := hagree.2
  revert hcode
  generalize minutedTapRequestHeader (bytes "hOST") = h
  cases h <;> decide

/-! ## Response headers -/

/-- The headers in the order of the enumeration. -/
def HttpResponseHeader.all : List HttpResponseHeader :=
  [.unknownHeader, .acceptRanges, .age, .allow, .cacheControl, .connection, .contentEncoding,
   .contentLanguage, .contentLength, .contentLocation, .contentMd5, .contentDisposition, .contentRange,
   .contentType, .date, .etag, .expires, .lastModified, .link, .location, .p3p, .pragma,
   .proxyAuthenticate, .refresh, .retryAfter, .server, .setCookie, .strictTransportSecurity, .trailer,
   .transferEncoding, .vary, .via, .warning, .wwwAuthenticate]

/-- `(enum http_response_header) h` -/
def HttpResponseHeader.ofCode (h : Nat) : HttpResponseHeader := HttpResponseHeader.all.getD h .unknownHeader

/-- `http_response_header_names` as C strings -/
def responseHeaderNames : List (List Byte) := httpResponseHeaderNames.map bytes

/-- `minuted_tap_response_header` -/
def minutedTapResponseHeader (name : List Byte) : HttpResponseHeader :=
  let h := minutedTapBinarySearch name responseHeaderNames
  if h > 0 then HttpResponseHeader.ofCode h.toNat else .unknownHeader

/-- The name of a header in lower case. -/
def responseName (h : HttpResponseHeader) : List Int := lowerBytes (responseHeaderNames.getD h.code [])

/-- The lookup of a name gives the header that has it, and no header for other names. -/
def FindsResponseHeader (s : List Byte) : Prop :=
  ∀ h : HttpResponseHeader, h ≠ .unknownHeader → (minutedTapResponseHeader s = h ↔ lowerBytes s = responseName h)

theorem HttpResponseHeader.mem_all (h : HttpResponseHeader) : h ∈ all := by cases h <;> decide

theorem HttpResponseHeader.ofCode_code (h : HttpResponseHeader) : ofCode h.code = h := by cases h <;> rfl

theorem responseHeaderNames_length : responseHeaderNames.length = 34 := by decide

theorem binarySearch_congr {s s' : List Byte} (h : lowerBytes s = lowerBytes s') (ls : List (List Byte)) :
    minutedTapBinarySearch s ls = minutedTapBinarySearch s' ls := by
  have hcmp : (fun mid => strcasecmp s (ls.getD mid [])) = fun mid => strcasecmp s' (ls.getD mid []) := by
    funext mid
    exact strcasecmp_congr h _
  unfold minutedTapBinarySearch
  rw [hcmp]

/-- The headers that the search does not come to: `Content-Disposition` and what should stand behind it. -/
def misplaced : List HttpResponseHeader := [.contentLocation, .contentMd5, .contentDisposition]

theorem responseHeaderNames_facts :
    (∀ r ∈ List.range 34, 0 ∉ responseHeaderNames.getD r []) ∧
    ∀ h ∈ HttpResponseHeader.all, h ≠ .unknownHeader →
      minutedTapBinarySearch (responseHeaderNames.getD h.code []) responseHeaderNames =
        if h ∈ misplaced then (-1 : Int) else (h.code : Int) := by
  decide +kernel

theorem responseHeaderNames_nul : ∀ r ∈ List.range 34, 0 ∉ responseHeaderNames.getD r [] :=
  responseHeaderNames_facts.1

theorem binarySearch_names : ∀ h ∈ HttpResponseHeader.all, h ≠ .unknownHeader →
    minutedTapBinarySearch (responseHeaderNames.getD h.code []) responseHeaderNames =
      if h ∈ misplaced then (-1 : Int) else (h.code : Int) := responseHeaderNames_facts.2

theorem binarySearch_lower {s : List Byte} {h : HttpResponseHeader} (hne : h ≠ .unknownHeader)
    (hs : lowerBytes s = responseName h) :
    minutedTapBinarySearch s responseHeaderNames = if h ∈ misplaced then (-1 : Int) else (h.code : Int) := by
  rw [binarySearch_congr hs]
  exact binarySearch_names h h.mem_all hne

theorem responseHeader_sound {s : List Byte} (h0 : 0 ∉ s) {h : HttpResponseHeader} (hne : h ≠ .unknownHeader)
    (hs : minutedTapResponseHeader s = h) : lowerBytes s = responseName h := by
  have hcode : ∀ r ∈ List.range 34, (HttpResponseHeader.ofCode r).code = r := by decide
  unfold minutedTapResponseHeader minutedTapBinarySearch at hs
  cases hb : bisect (fun mid => strcasecmp s (responseHeaderNames.getD mid [])) 0 responseHeaderNames.length with
  | none =>
    rw [hb] at hs
    exact absurd hs.symm hne
  | some mid =>
    rw [hb] at hs
    obtain ⟨-, hlt, hzero⟩ := bisect_sound hb
    have hmem : mid ∈ List.range 34 := by
      rw [List.mem_range, ← responseHeaderNames_length]
      exact hlt
    dsimp only at hs hzero
    by_cases hpos : (mid : Int) > 0
    · rw [if_pos hpos, Int.toNat_natCast] at hs
      rw [responseName, ← hs, hcode mid hmem]
      exact (strcasecmp_eq_zero h0 (responseHeaderNames_nul mid hmem)).mp hzero
    · rw [if_neg hpos] at hs
      exact absurd hs.symm hne

/-- **A name is looked up right unless it is one of the three** that the search does not come to. -/
theorem responseHeader_found_iff {s : List Byte} (h0 : 0 ∉ s) :
    FindsResponseHeader s ↔ ∀ h ∈ misplaced, lowerBytes s ≠ responseName h := by
  constructor
  · intro hfinds h hmis hs
    have hne : h ≠ .unknownHeader := by
      intro hunknown
      rw [hunknown] at hmis
      exact absurd hmis (by decide)
    have hfound := (hfinds h hne).mpr hs
    have hsearch := binarySearch_lower hne hs
    rw [if_pos hmis] at hsearch
    rw [minutedTapResponseHeader, hsearch] at hfound
    exact hne hfound.symm
  · intro hplaced h hne
    refine ⟨responseHeader_sound h0 hne, fun hs => ?_⟩
    have hsearch := binarySearch_lower hne hs
    rw [if_neg (fun hmis => hplaced h hmis hs)] at hsearch
    have hpos : 0 < h.code := Nat.pos_of_ne_zero fun hzero => hne <| by
      rw [← h.ofCode_code, hzero]
      rfl
    rw [minutedTapResponseHeader, hsearch, if_pos (by omega), Int.toNat_natCast, h.ofCode_code]

theorem responseHeader_found_etag : FindsResponseHeader (bytes "eTag") :=
  (responseHeader_found_iff (by decide +kernel)).mpr (by decide +kernel)

/-- `Content-MD5` is looked up as no header. -/
theorem responseHeader_misses : ¬FindsResponseHeader (bytes "Content-MD5") := by
  intro hfinds
  have hfound := (hfinds .contentMd5 (by decide)).mpr (by decide +kernel)
  exact absurd hfound (by decide +kernel)

end MinuteHttp
