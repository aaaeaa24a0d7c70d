import MinuteHttp.Lib.Grammar
import MinuteHttp.Libhttp.Names
import Mathlib.Data.List.DropRight

/-!
# The language of request lines

`requestLine m` is what a request line of the method `m` is to be, and `acceptedLine m` what the states up
to `h_prot_http_x_x` read as one (`switch_onLine` is the pass, `iterate_lineAt` the turn and `accepted_of_ok`
the run). It is larger: a NUL ends the method and stands for the slash of the protocol, blanks behind the `P`
of `POST` and `PUT` are skipped, because `walk_trie` returns the terminal 0 there, and no digit need come
before the dot or behind it. `requestLine_iff` says that these are all the differences.
-/

namespace MinuteHttp

open HttpRequestState Feed Grammar Computability

/-! ## The grammar -/

def space : Language Int := one fun c => c = 32

def digit : Language Int := one fun c => 48 ≤ c ∧ c ≤ 57

/-- One or more. -/
def some1 (L : Language Int) : Language Int := L * L∗

/-- `%HH` -/
def escape : Language Int := word [37] * one (fun c => uriHex c = true) * one fun c => uriHex c = true

/-- Allowed characters and escapes. -/
def urlText (P : Int → Prop) : Language Int := (one P + escape)∗

def isPathChar (c : Int) : Prop := uriPchar c = true ∨ c = 47 ∨ c = 59

def path : Language Int := urlText isPathChar

def query : Language Int := urlText fun c => uriUric c = true

def url : Language Int := path + path * word [63] * query

def methodNames : List (HttpMethod × String) :=
  [(.get, "GET"), (.head, "HEAD"), (.post, "POST"), (.put, "PUT"), (.options, "OPTIONS"), (.delete, "DELETE"),
   (.trace, "TRACE"), (.connect, "CONNECT")]

def methodName (m : HttpMethod) : Language Int := {w | ∃ s, (m, s) ∈ methodNames ∧ w = intsOf s}

/-- A request line of the method `m`, up to its LF. -/
def requestLine (m : HttpMethod) : Language Int :=
  methodName m * some1 space * url * some1 space * word (intsOf "HTTP/") * some1 digit * word [46] * some1 digit *
    (1 + word [13])

/-! ### What the parser reads -/

/-- What `walk_trie` is given as a NUL at the end of a method. -/
def blank : Language Int := one fun c => c = 32 ∨ c = 0

structure MethodEntry where
  slot : Nat
  /-- The edge comes behind the `P` of `POST` and `PUT`. -/
  behindP : Bool
  letters : String
  method : HttpMethod

/-- The entries of `utility` at which a method ends. -/
def methodEntries : List MethodEntry :=
  [⟨2, false, "CONNECT", .connect⟩, ⟨3, false, "DELETE", .delete⟩, ⟨6, false, "GET", .get⟩,
   ⟨7, false, "HEAD", .head⟩, ⟨14, false, "OPTIONS", .options⟩, ⟨16, true, "OST", .post⟩,
   ⟨19, false, "TRACE", .trace⟩, ⟨22, true, "UT", .put⟩]

/-- What may have been read before the entry. -/
def MethodEntry.stem (e : MethodEntry) : Language Int := if e.behindP then word [80] * blank∗ else 1

def acceptedMethod (m : HttpMethod) : Language Int :=
  {w | ∃ e ∈ methodEntries, e.method = m ∧ w ∈ e.stem * word (intsOf e.letters)}

/-- Up to the URL. -/
def acceptedHead (m : HttpMethod) : Language Int := acceptedMethod m * blank * space∗

/-- Up to the protocol. -/
def acceptedUrl (m : HttpMethod) : Language Int := acceptedHead m * url * some1 space

/-- Up to the dot of the protocol's version. -/
def acceptedMajor (m : HttpMethod) : Language Int :=
  acceptedUrl m * word (intsOf "HTTP") * one (fun c => c = 47 ∨ c = 0) * digit∗

def acceptedLine (m : HttpMethod) : Language Int := acceptedMajor m * word [46] * digit∗

/-! ## The walks -/

section

variable {c : Int} {o : Nat} {t t' : Triestate} {r : Int}

theorem enterChild_cases {p : Patricia} (h : enterChild c o utility p t = some (r, t')) :
    r = -1 ∨ r = 0 ∧ t' = ⟨1, p.offset + o⟩ ∧
      ∃ q, utility[p.offset + o]? = some q ∧ q.charAt 0 = some c ∧ q.check = p.next := by
  simp only [enterChild, Option.bind_eq_bind, Option.bind_eq_some_iff] at h
  obtain ⟨q, hq, h⟩ := h
  split at h
  · rename_i hc
    cases h
    exact .inr ⟨rfl, rfl, q, hq, hc⟩
  · cases h
    exact .inl rfl

theorem walkTrie_leaf {i : Option Patricia} {p : Patricia} {w : List Char} (hpos : t.poff ≠ 0)
    (hp : utility[t.slot]? = some p) (hw : p.letters = some w) (hnext : p.next = 99) (hle : t.poff ≤ w.length)
    (h : walkTrie c o utility i t = some (r, t')) :
    r = -1 ∨
    (r = 0 ∧ t' = { t with poff := t.poff + 1 } ∧ (w.map fun x => (x.toNat : Int))[t.poff]? = some c) ∨
    (r = p.terminal ∧ t' = t ∧ c = 0 ∧ t.poff = w.length) := by
  have hmem := List.mem_of_getElem? hp
  unfold walkTrie at h
  rw [if_pos hpos] at h
  simp only [hp, Option.bind_eq_bind, Option.bind_some, Option.bind_eq_some_iff] at h
  obtain ⟨x, hx, h⟩ := h
  rw [Patricia.charAt, hw, Option.bind_some] at hx
  obtain hlt | hend := Nat.lt_or_eq_of_le hle
  · rw [List.getElem?_append_left (by simpa using hlt)] at hx
    have hx0 : x ≠ 0 := by
      obtain ⟨y, hy, rfl⟩ := List.mem_map.mp (List.mem_of_getElem? hx)
      have := (utility_printable p hmem w hw).2 y hy
      omega
    rw [if_neg (fun h => hx0 h.1), if_neg hx0] at h
    split at h
    · rename_i hxc
      cases h
      rw [hxc] at hx
      exact .inr (.inl ⟨rfl, rfl, hx⟩)
    · cases h
      exact .inl rfl
  · rw [List.getElem?_append_right (by simp [hend])] at hx
    simp only [hend, List.length_map, Nat.sub_self, List.getElem?_cons_zero, Option.some.injEq] at hx
    rw [← hx] at h
    by_cases hc : c = 0
    · rw [if_pos ⟨rfl, hc⟩] at h
      cases h
      exact .inr (.inr ⟨rfl, rfl, hc, hend⟩)
    · rw [if_neg (fun h => hc h.2), if_pos rfl] at h
      obtain hr | ⟨-, -, q, hq, -, hcheck⟩ := enterChild_cases h
      · exact .inl hr
      · -- no entry is the child of a leaf
        have hnone : ∀ q ∈ utility, q.check ≠ 99 := by decide +kernel
        exact absurd (hcheck.trans hnext) (hnone q (List.mem_of_getElem? hq))

/-! ### The method -/

/-- What has been read of the method where the cursor is at `t`. -/
def MethodAt (q : List Int) (t : Triestate) : Prop :=
  (t.poff = 0 ∧ q = []) ∨ (t = ⟨1, 15⟩ ∧ q ∈ word [80] * blank∗) ∨
    ∃ e ∈ methodEntries, t.slot = e.slot ∧ t.poff ≠ 0 ∧ t.poff ≤ e.letters.toList.length ∧
      q ∈ e.stem * word ((intsOf e.letters).take t.poff)

theorem table_methods : ∀ e ∈ methodEntries, ∃ p ∈ utility[e.slot]?, p.letters = some e.letters.toList ∧
    p.next = 99 ∧ 1 ≤ p.terminal ∧ p.terminal ≤ 8 ∧ HttpMethod.ofCode p.terminal = e.method := by
  decide +kernel

/-- The letter `x` leads into the entry `i` of a method. -/
def Leads (behindP : Bool) (i : Nat) (x : Int) : Prop :=
  x ≠ 0 ∧ ∃ e ∈ methodEntries, e.slot = i ∧ e.behindP = behindP ∧ (intsOf e.letters).take 1 = [x]

instance decidableLeads (behindP : Bool) (i : Nat) (x : Int) : Decidable (Leads behindP i x) :=
  inferInstanceAs (Decidable (_ ∧ _))

theorem table_first : ∀ i < 27, ∀ p ∈ utility[i]?, p.check = 0 → ∀ x ∈ p.charAt 0,
    i = 15 ∧ x = 80 ∨ Leads false i x := by
  decide +kernel

theorem table_behindP : ∀ i < 27, ∀ p ∈ utility[2 + i]?, p.check = 1 → ∀ x ∈ p.charAt 0, Leads true (2 + i) x := by
  decide +kernel

theorem methodAt_entered {q : List Int} {e : MethodEntry} (he : e ∈ methodEntries) (hslot : t.slot = e.slot)
    (hpoff : t.poff = 1) (hq : q ∈ e.stem) (hfirst : (intsOf e.letters).take 1 = [c]) :
    MethodAt (q ++ [c]) t := by
  refine .inr (.inr ⟨e, he, hslot, by omega, ?_, ?_⟩)
  · have hlen := congrArg List.length hfirst
    rw [List.length_take, intsOf, List.length_map, List.length_singleton] at hlen
    omega
  · rw [hpoff, hfirst]
    exact Language.append_mem_mul hq rfl

theorem intsOf_length (s : String) : (intsOf s).length = s.toList.length := List.length_map _

/-- **A character of the method.** -/
theorem methodWalk_step {q : List Int} (h : MethodAt q t) (hw : methodWalk c t = some (r, t')) :
    r = -1 ∨ (r = 0 ∧ MethodAt (q ++ [c]) t') ∨
      (1 ≤ r ∧ r ≤ 8 ∧ q ++ [c] ∈ acceptedMethod (HttpMethod.ofCode r) * blank) := by
  have hmap := utilityTrieMap_le c
  have hletter {x : Int} (hx : (if c = 32 then 0 else c) = x) (h0 : x ≠ 0) : c = x := by
    split at hx
    · exact absurd hx.symm h0
    · exact hx
  have hblank (h0 : (if c = 32 then 0 else c) = 0) : c = 32 ∨ c = 0 := by
    split at h0
    · exact .inl (by assumption)
    · exact .inr h0
  unfold methodWalk at hw
  obtain ⟨hpoff, rfl⟩ | ⟨rfl, hq⟩ | ⟨e, he, hslot, hpoff, hle, hq⟩ := h
  · -- the first letter
    unfold walkTrie at hw
    rw [if_neg (fun h => h hpoff), Option.bind_eq_bind, Option.bind_some] at hw
    obtain hr | ⟨hr, rfl, p, hp, hfirst, hcheck⟩ := enterChild_cases hw
    · exact .inl hr
    · refine .inr (.inl ⟨hr, ?_⟩)
      rw [Nat.zero_add] at hp ⊢
      obtain ⟨hi, hx⟩ | ⟨hx0, e, he, hi, hbehind, htake⟩ := table_first _ (by omega) p hp hcheck _ hfirst
      · rw [hi, hletter hx (by decide)]
        exact .inr (.inl ⟨rfl, le_mul_kstar _ _ rfl⟩)
      · rw [← hletter rfl hx0] at htake
        refine methodAt_entered he hi.symm rfl ?_ htake
        rw [MethodEntry.stem, hbehind]
        rfl
  · -- behind `P`, where a blank is answered by the terminal 0
    unfold walkTrie at hw
    rw [if_pos (by decide)] at hw
    simp only [show utility[15]? = some ⟨some "P", 0, 1, 2, 0⟩ from rfl, Option.bind_eq_bind, Option.bind_some,
      show Patricia.charAt ⟨some "P", 0, 1, 2, 0⟩ 1 = some 0 from rfl] at hw
    by_cases h0 : (if c = 32 then 0 else c) = 0
    · rw [if_pos ⟨trivial, h0⟩] at hw
      cases hw
      exact .inr (.inl ⟨rfl, .inr (.inl ⟨rfl, snoc_mem hq (hblank h0) (mul_kstar_mul_le le_rfl)⟩)⟩)
    · rw [if_neg (fun h => h0 h.2), if_pos trivial] at hw
      obtain hr | ⟨hr, rfl, p, hp, hfirst, hcheck⟩ := enterChild_cases hw
      · exact .inl hr
      · obtain ⟨hx0, e, he, hi, hbehind, htake⟩ := table_behindP _ (by omega) p hp hcheck _ hfirst
        rw [← hletter rfl hx0] at htake
        refine .inr (.inl ⟨hr, methodAt_entered he hi.symm rfl ?_ htake⟩)
        rw [MethodEntry.stem, hbehind]
        exact hq
  · obtain ⟨p, hp, hletters, hnext, hlow, hhigh, hmethod⟩ := table_methods e he
    rw [← hslot] at hp
    obtain hr | ⟨hr, rfl, hx⟩ | ⟨hr, rfl, h0, hend⟩ := walkTrie_leaf hpoff hp hletters hnext hle hw
    · exact .inl hr
    · refine .inr (.inl ⟨hr, .inr (.inr ⟨e, he, hslot, Nat.succ_ne_zero _, ?_, ?_⟩)⟩)
      · have hlt := (List.getElem?_eq_some_iff.mp hx).1
        rw [List.length_map] at hlt
        exact hlt
      · have hx0 : (if c = 32 then 0 else c) ≠ 0 := by
          obtain ⟨y, hy, hyc⟩ := List.mem_map.mp (List.mem_of_getElem? hx)
          have := (utility_printable p (List.mem_of_getElem? hp) _ hletters).2 y hy
          omega
        rw [← hletter rfl hx0] at hx
        show _ ∈ e.stem * word ((intsOf e.letters).take (t.poff + 1))
        rw [List.take_add_one, show (intsOf e.letters)[t.poff]? = some c from hx, word_append, ← mul_assoc]
        exact Language.append_mem_mul hq rfl
    · refine .inr (.inr ⟨by omega, by omega, Language.append_mem_mul ⟨e, he, ?_, ?_⟩ ⟨c, hblank h0, rfl⟩⟩)
      · rw [hr, hmethod]
      · rwa [List.take_of_length_le (by rw [intsOf_length, hend])] at hq

/-! ### The protocol -/

/-- What has been read of the protocol's name. -/
def ProtAt (q : List Int) (t : Triestate) : Prop :=
  (t.poff = 0 ∧ q = []) ∨ (t.slot = 8 ∧ t.poff ≠ 0 ∧ t.poff ≤ 4 ∧ q = (intsOf "HTTP").take t.poff)

theorem table_prot : ∀ i < 27, ∀ p ∈ utility[1 + i]?, p.check = 10 → ∀ x ∈ p.charAt 0, 1 + i = 8 ∧ x = 72 := by
  decide +kernel

/-- **A character of the protocol's name.** -/
theorem protWalk_step {q : List Int} (h : ProtAt q t) (hw : protWalk c t = some (r, t')) :
    r = -1 ∨ (r = 0 ∧ ProtAt (q ++ [c]) t') ∨
      (r = httpProto ∧ q ++ [c] ∈ word (intsOf "HTTP") * one fun c => c = 47 ∨ c = 0) := by
  have hmap := utilityTrieMap_le c
  have hletter {x : Int} (hx : (if c = 47 then 0 else c) = x) (h0 : x ≠ 0) : c = x := by
    split at hx
    · exact absurd hx.symm h0
    · exact hx
  unfold protWalk at hw
  obtain ⟨hpoff, rfl⟩ | ⟨hslot, hpoff, hle, rfl⟩ := h
  · unfold walkTrie at hw
    rw [if_neg (fun h => h hpoff), Option.bind_eq_bind, Option.bind_some] at hw
    obtain hr | ⟨hr, rfl, p, hp, hfirst, hcheck⟩ := enterChild_cases hw
    · exact .inl hr
    · obtain ⟨hi, hx⟩ := table_prot _ (by omega) p hp hcheck _ hfirst
      refine .inr (.inl ⟨hr, .inr ⟨hi, Nat.one_ne_zero, Nat.le_add_left 1 3, ?_⟩⟩)
      rw [hletter hx (by decide)]
      rfl
  · have hp : utility[t.slot]? = some ⟨some "HTTP", 10, 99, 0, httpProto⟩ := by
      rw [hslot]
      rfl
    obtain hr | ⟨hr, rfl, hx⟩ | ⟨hr, rfl, h0, hend⟩ := walkTrie_leaf hpoff hp rfl rfl hle hw
    · exact .inl hr
    · refine .inr (.inl ⟨hr, .inr ⟨hslot, Nat.succ_ne_zero _, ?_, ?_⟩⟩)
      · exact (List.getElem?_eq_some_iff.mp hx).1
      · have hx0 : (if c = 47 then 0 else c) ≠ 0 := by
          obtain ⟨y, hy, hyc⟩ := List.mem_map.mp (List.mem_of_getElem? hx)
          have := (utility_printable _ (List.mem_of_getElem? hp) _ rfl).2 y hy
          omega
        rw [← hletter rfl hx0] at hx
        show _ = (intsOf "HTTP").take (t.poff + 1)
        rw [List.take_add_one, show (intsOf "HTTP")[t.poff]? = some c from hx]
        rfl
    · refine .inr (.inr ⟨hr, Language.append_mem_mul ?_ ⟨c, ?_, rfl⟩⟩)
      · exact List.take_of_length_le (Nat.le_of_eq hend.symm)
      · split at h0
        · exact .inl (by assumption)
        · exact .inr h0

end

/-! ## The states of the request line -/

section

variable {q : List Int} {m : HttpMethod} {x : HttpRequestState} {c : Int}

/-- The characters that `h_path` or `h_query` takes as they are. -/
def urlClass : HttpRequestState → Int → Prop
  | hQuery => fun c => uriUric c = true
  | _ => isPathChar

/-- What comes before the path or the query. -/
def urlBefore (m : HttpMethod) : HttpRequestState → Language Int
  | hQuery => acceptedHead m * path * word [63]
  | _ => acceptedHead m

/-- Up to a point in the path or the query. -/
def urlUpTo (m : HttpMethod) (x : HttpRequestState) : Language Int := urlBefore m x * urlText (urlClass x)

theorem urlUpTo_char (h : q ∈ urlUpTo m x) (hc : urlClass x c) : q ++ [c] ∈ urlUpTo m x :=
  snoc_mem h hc (mul_kstar_mul_le le_self_add)

theorem urlUpTo_escape (h : q ∈ urlUpTo m x * word [37] * one fun c => uriHex c = true) (hc : uriHex c = true) :
    q ++ [c] ∈ urlUpTo m x := by
  refine snoc_mem (P := fun c => uriHex c = true) h hc ?_
  rw [mul_assoc, mul_assoc, ← mul_assoc (word [37])]
  exact mul_kstar_mul_le le_add_self

theorem urlUpTo_le (hx : x = hPath ∨ x = hQuery) : urlUpTo m x ≤ acceptedHead m * url := by
  obtain rfl | rfl := hx
  · exact mul_le_mul_right (show path ≤ url from le_self_add) _
  · have hquery : path * word [63] * query ≤ url := le_add_self
    show acceptedHead m * path * word [63] * query ≤ _
    rw [mul_assoc, mul_assoc, ← mul_assoc path]
    exact mul_le_mul_right hquery _

theorem acceptedUrl_first (hx : x = hPath ∨ x = hQuery) (h : q ∈ urlUpTo m x) : q ++ [32] ∈ acceptedUrl m := by
  have hspace : space ≤ some1 space := le_mul_kstar _ _
  exact snoc_mem (P := fun c => c = 32) (urlUpTo_le hx h) rfl (mul_le_mul_right hspace _)

theorem acceptedUrl_space (h : q ∈ acceptedUrl m) : q ++ [32] ∈ acceptedUrl m := by
  rw [acceptedUrl, some1, ← mul_assoc] at *
  exact snoc_mem (P := fun c => c = 32) h rfl (mul_kstar_mul_le le_rfl)

end

/-- What has been read of the request line, in the states before the line end that completes it. -/
def OnLine (q : List Int) (k : Frame) : Prop :=
  let m := k.rq.requestMethod
  k.s.nl = 0 ∧
    match k.s.st with
    | hMethod => MethodAt q k.tstate
    | hMethodSp => q ∈ acceptedHead m
    | hPath => q ∈ urlUpTo m hPath
    | hQuery => q ∈ urlUpTo m hQuery
    | hEscaped1 => (k.s.est = hPath ∨ k.s.est = hQuery) ∧ q ∈ urlUpTo m k.s.est * word [37]
    | hEscaped2 =>
      (k.s.est = hPath ∨ k.s.est = hQuery) ∧ q ∈ urlUpTo m k.s.est * word [37] * one fun c => uriHex c = true
    | hPathSp => q ∈ acceptedUrl m
    | hProt => ∃ part, ProtAt part k.tstate ∧ q ∈ acceptedUrl m * word part
    | hProtSlash | hProtHttpX => q ∈ acceptedMajor m
    | hProtHttpXDot | hProtHttpXX => q ∈ acceptedLine m
    | hCr => q ∈ acceptedLine m * word [13]
    | hErrorBadRequest | hErrorInternalServerError => True
    | _ => False

/-- The characters begin with a request line and its LF. -/
def LineRead (q : List Int) (m : HttpMethod) : Prop :=
  ∃ line rest, q = line ++ 10 :: rest ∧ line ∈ acceptedLine m * (1 + word [13])

/-- The request line has been read. -/
def Behind (q : List Int) (k : Frame) : Prop := k.s.st.isRequestLine = false ∧ LineRead q k.rq.requestMethod

theorem LineRead.append {q : List Int} {m : HttpMethod} (h : LineRead q m) (r : List Int) : LineRead (q ++ r) m := by
  obtain ⟨line, rest, rfl, hline⟩ := h
  exact ⟨line, rest ++ r, by rw [List.append_assoc, List.cons_append], hline⟩

/-- Behind the request line no state leads back to it. -/
theorem switch_behind (k : Frame) (c : Int) (hk : Routed k) (h : k.s.st.isRequestLine = false) :
    Pass.All (fun k' _ => k'.s.st.isRequestLine = false ∧ k'.rq.requestMethod = k.rq.requestMethod)
      (fun k' => k'.s.st.isRequestLine = false ∧ k'.rq.requestMethod = k.rq.requestMethod) (fun _ _ => True) True
      (switch k c) := by
  cases hst : k.s.st <;> simp only [switch, hst]
  case hValueLead =>
    have hest : k.s.est.isValue = true := by
      rw [Routed, hst] at hk
      exact hk
    simp only [hValueLeadCase, all_ite, all_reset, all_brk]
    refine ⟨fun _ => ⟨?_, rfl⟩, fun _ => ⟨h, trivial⟩⟩
    rw [shift_s]
    cases hx : k.s.est <;> rw [hx] at hest <;> first | cases hest; done | rfl
  all_goals first | (rw [hst] at h; cases h; done) | skip
  all_goals
    dsimp only [hCrCase, hNlCase, hHeaderCase, hHeaderMatched, hHeadConnectionCase, hHeadExpectCase,
      hHeadTransferEncodingCase, hHeadFlagInitial, hHeadContentLengthCase, hHeadFlagCase, hContCase, hValueCase,
      hSkiplineCase, hErrorCase]
    simp [isRequestLine, hst]

/-- What a turn on the character `c₀` leaves of it. -/
def LinePass (q : List Int) (c₀ : Int) : Pass → Prop :=
  Pass.All (fun k' c' => Behind q k' ∨ (OnLine q k' ∧ c' = c₀))
    (fun k' => Behind (q ++ [c₀]) k' ∨ OnLine (q ++ [c₀]) k') (fun _ _ => True) True

/-- **A pass through the request line** keeps what the state says of the characters. -/
theorem switch_onLine (q : List Int) (k : Frame) (c : Int) (h : OnLine q k) : LinePass q c (switch k c) := by
  unfold LinePass
  obtain ⟨hnl, h⟩ := h
  cases hst : k.s.st <;> rw [hst] at h <;> simp only [switch, hst]
  case hMethod =>
    simp only [hMethodCase, all_onWalk, all_ite, all_reset, all_brk]
    refine ⟨fun _ => trivial, fun r t hw => ⟨fun hr => ?_, fun hr => ⟨fun _ => ?_, fun _ => ⟨fun h0 => ?_, fun _ => ?_⟩⟩⟩⟩
    · obtain rfl | ⟨rfl, -⟩ | ⟨-, -, hq⟩ := methodWalk_step h hw
      · omega
      · omega
      · exact .inr ⟨hnl, le_mul_kstar _ _ hq⟩
    · exact .inr ⟨⟨hnl, trivial⟩, trivial⟩
    · obtain rfl | ⟨-, hq⟩ | ⟨hlow, -, -⟩ := methodWalk_step h hw
      · omega
      · exact .inr ⟨hnl, by simpa [hst] using hq⟩
      · omega
    · exact .inr ⟨⟨hnl, trivial⟩, trivial⟩
  case hMethodSp =>
    simp only [hMethodSpCase, all_ite, all_reset, all_brk]
    refine ⟨fun _ => ?_, fun hc => ?_⟩
    · exact .inr ⟨⟨hnl, le_mul_kstar _ _ h⟩, trivial⟩
    · rw [not_not] at hc
      refine .inr ⟨hnl, ?_⟩
      rw [hst]
      exact snoc_mem h hc (mul_kstar_mul_le le_rfl)
  case hPath =>
    simp only [hPathCase, all_ite, all_reset, all_putcOr, all_brk]
    refine ⟨fun hc => ⟨fun _ => trivial, fun t _ => ?_⟩, fun _ => ⟨fun hc => ?_, fun _ => ⟨fun hc =>
      ⟨fun _ => trivial, fun t _ => ?_⟩, fun _ => ⟨fun hc => ⟨fun _ => trivial, fun t _ => ?_⟩, fun _ => ?_⟩⟩⟩⟩
    · refine .inr ⟨hnl, ?_⟩
      rw [mark_s, hst]
      exact urlUpTo_char h hc
    · rw [hc]
      exact .inr ⟨hnl, .inl rfl, Language.append_mem_mul h rfl⟩
    · rw [hc]
      exact .inr ⟨hnl, le_mul_kstar _ _ (Language.append_mem_mul h rfl)⟩
    · rw [hc]
      exact .inr ⟨hnl, acceptedUrl_first (.inl rfl) h⟩
    · exact .inr ⟨⟨hnl, trivial⟩, trivial⟩
  case hQuery =>
    simp only [hQueryCase, all_ite, all_reset, all_putcOr, all_brk]
    refine ⟨fun hc => ⟨fun _ => trivial, fun t _ => ?_⟩, fun _ => ⟨fun hc => ?_, fun _ => ⟨fun hc =>
      ⟨fun _ => trivial, fun t _ => ?_⟩, fun _ => ?_⟩⟩⟩
    · refine .inr ⟨hnl, ?_⟩
      rw [mark_s, hst]
      exact urlUpTo_char h hc
    · rw [hc]
      exact .inr ⟨hnl, .inr rfl, Language.append_mem_mul h rfl⟩
    · rw [hc]
      exact .inr ⟨hnl, acceptedUrl_first (.inr rfl) h⟩
    · exact .inr ⟨⟨hnl, trivial⟩, trivial⟩
  case hEscaped1 =>
    obtain ⟨hest, h⟩ := h
    simp only [hEscaped1Case, all_ite, all_reset, all_brk]
    refine ⟨fun _ => ?_, fun hc => ?_⟩
    · exact .inr ⟨⟨hnl, trivial⟩, trivial⟩
    · exact .inr ⟨hnl, hest, Language.append_mem_mul h ⟨c, not_not.mp hc, rfl⟩⟩
  case hEscaped2 =>
    obtain ⟨hest, h⟩ := h
    simp only [hEscaped2Case, all_ite, all_reset, all_putcOr, all_brk]
    refine ⟨fun _ => ?_, fun hc => ⟨fun _ => trivial, fun t _ => ?_⟩⟩
    · exact .inr ⟨⟨hnl, trivial⟩, trivial⟩
    · have hurl := urlUpTo_escape h (not_not.mp hc)
      refine .inr ⟨hnl, ?_⟩
      obtain hx | hx := hest <;>
      · rw [hx] at hurl
        simpa [hx] using hurl
  case hPathSp =>
    simp only [hPathSpCase, all_ite, all_reset, all_brk]
    refine ⟨fun hc => ?_, fun _ => ?_⟩
    · rw [hc]
      refine .inr ⟨hnl, ?_⟩
      rw [hst]
      exact acceptedUrl_space h
    · exact .inr ⟨⟨hnl, [], .inl ⟨rfl, rfl⟩, by rwa [show word [] = (1 : Language Int) from rfl, mul_one]⟩, trivial⟩
  case hProt =>
    obtain ⟨part, hpart, h⟩ := h
    obtain ⟨a, ha, b, rfl, rfl⟩ := Language.mem_mul.mp h
    simp only [hProtCase, all_onWalk, all_ite, all_reset, all_ret, all_brk]
    refine ⟨fun _ => trivial, fun r t hw => ⟨fun hr => ?_, fun hr => ⟨fun _ => trivial, fun hr' => ⟨fun h0 => ?_,
      fun _ => ?_⟩⟩⟩⟩
    · obtain hr' | ⟨hr', -⟩ | ⟨-, hname⟩ := protWalk_step hpart hw
      · exact absurd (hr.symm.trans hr') (by decide)
      · exact absurd (hr.symm.trans hr') (by decide)
      · refine .inr ⟨hnl, le_mul_kstar _ _ ?_⟩
        rw [List.append_assoc, mul_assoc]
        exact Language.append_mem_mul ha hname
    · obtain h' | ⟨-, hname⟩ | ⟨h', -⟩ := protWalk_step hpart hw
      · exact absurd h' hr'
      · refine .inr ⟨hnl, ?_⟩
        rw [mark_s, hst]
        refine ⟨b ++ [c], hname, ?_⟩
        rw [List.append_assoc]
        exact Language.append_mem_mul ha rfl
      · exact absurd h' hr
    · exact .inr ⟨⟨hnl, trivial⟩, trivial⟩
  case hProtSlash =>
    simp only [hProtSlashCase, all_ite, all_reset, all_brk]
    refine ⟨fun hc => ?_, fun _ => ?_⟩
    · refine .inr ⟨hnl, ?_⟩
      rw [hst]
      exact snoc_mem (P := fun c => 48 ≤ c ∧ c ≤ 57) h hc (mul_kstar_mul_le le_rfl)
    · exact .inr ⟨⟨hnl, h⟩, trivial⟩
  case hProtHttpX =>
    simp only [hProtHttpXCase, all_ite, all_reset, all_brk]
    refine ⟨fun hc => ?_, fun _ => ?_⟩
    · rw [hc]
      exact .inr ⟨hnl, le_mul_kstar _ _ (Language.append_mem_mul h rfl)⟩
    · exact .inr ⟨⟨hnl, trivial⟩, trivial⟩
  case hProtHttpXDot =>
    simp only [hProtHttpXDotCase, all_ite, all_reset, all_brk]
    refine ⟨fun hc => ?_, fun _ => ?_⟩
    · refine .inr ⟨hnl, ?_⟩
      rw [hst]
      exact snoc_mem (P := fun c => 48 ≤ c ∧ c ≤ 57) h hc (mul_kstar_mul_le le_rfl)
    · exact .inr ⟨⟨hnl, h⟩, trivial⟩
  case hProtHttpXX =>
    simp only [hProtHttpXXCase, all_ite, all_reset, all_ret, all_brk]
    refine ⟨fun _ => trivial, fun _ => ⟨fun hc => ?_, fun _ => ⟨fun hc => ?_, fun _ => ?_⟩⟩⟩
    · rw [hc]
      exact .inr ⟨hnl, Language.append_mem_mul h rfl⟩
    · rw [hc]
      refine .inl ⟨rfl, q, [], rfl, ?_⟩
      rw [← List.append_nil q]
      exact Language.append_mem_mul h (.inl rfl)
    · exact .inr ⟨⟨hnl, trivial⟩, trivial⟩
  case hCr =>
    simp only [hCrCase, all_ite, all_reset, all_brk]
    refine ⟨fun hc => ?_, fun _ => ?_⟩
    · rw [hc]
      have hline : acceptedLine k.rq.requestMethod * word [13] ≤ acceptedLine k.rq.requestMethod * (1 + word [13]) :=
        mul_le_mul_right le_add_self _
      exact .inl ⟨rfl, q, [], rfl, hline h⟩
    · exact .inr ⟨⟨hnl, trivial⟩, trivial⟩
  case hErrorBadRequest => trivial
  case hErrorInternalServerError => trivial
  all_goals exact h.elim

theorem Behind.snoc {q : List Int} {k k' : Frame} (h : LineRead q k.rq.requestMethod) (c : Int)
    (h' : k'.s.st.isRequestLine = false ∧ k'.rq.requestMethod = k.rq.requestMethod) : Behind (q ++ [c]) k' :=
  ⟨h'.1, h'.2 ▸ h.append [c]⟩

theorem iterate_onLine {q : List Int} {k : Frame} (c : Int) (hk : Routed k) (h : Behind q k ∨ OnLine q k) :
    (iterate k c).Holds (fun k' => Behind (q ++ [c]) k' ∨ OnLine (q ++ [c]) k')
      (fun r => ∀ k', r = .ok k' → LineRead (q ++ [c]) k'.rq.requestMethod) := by
  have hi := iterate_inv (N := fun k' c' => Routed k' ∧ (Behind q k' ∨ (OnLine q k' ∧ c' = c)))
    (B := fun k' => Behind (q ++ [c]) k' ∨ OnLine (q ++ [c]) k') (R := fun _ _ => True) (F := True)
    (fun k₁ c₁ h₁ => ?_) (k := k) (c := c) ⟨hk, h.imp_right fun h => ⟨h, rfl⟩⟩
  · cases hs : iterate k c with
    | next k' =>
      rw [hs] at hi
      obtain ⟨k₁, h₁, -, rfl⟩ := hi
      exact h₁
    | halt r =>
      rintro k' rfl
      rw [hs] at hi
      obtain ⟨k₁, h₁ | h₁, hnl, rfl⟩ := hi
      · exact h₁.2
      · -- no newline has been counted there
        exact absurd h₁.1 (by omega)
  · obtain ⟨hr, h₁⟩ := h₁
    have hs : LinePass q c (switch k₁ c₁) := by
      obtain h₁ | ⟨h₁, rfl⟩ := h₁
      · exact (switch_behind k₁ c₁ hr h₁.1).imp (fun k' _ h' => .inl ⟨h'.1, h'.2 ▸ h₁.2⟩)
          (fun k' h' => .inl (Behind.snoc h₁.2 c h')) (fun _ _ h => h) id
      · exact switch_onLine q k₁ c₁ h₁
    exact ((switch_routed k₁ c₁ hr).and hs).imp (fun _ _ h => ⟨h.1.1, h.2⟩) (fun _ h => h.2) (fun _ _ _ => trivial)
      fun _ => trivial

/-- Between two turns, with the newlines before the request line left out. -/
def LineAt (p : List Int) (k : Frame) : Prop :=
  Routed k ∧
    ((k.s.st = hInitial ∧ k.s.nl = 0 ∧ fromRequestLine p = []) ∨
      (fromRequestLine p ≠ [] ∧ (Behind (fromRequestLine p) k ∨ OnLine (fromRequestLine p) k)))

theorem iterate_lineAt {p : List Int} {k : Frame} (c : Int) (h : LineAt p k) :
    (iterate k c).Holds (LineAt (p ++ [c]))
      (fun r => ∀ k', r = .ok k' → LineRead (fromRequestLine (p ++ [c])) k'.rq.requestMethod) := by
  obtain ⟨hk, ⟨hst, hnl, hp⟩ | ⟨hp, h⟩⟩ := h
  · by_cases hc : c = 10 ∨ c = 13
    · -- a newline before the request line
      have hs : switch k c = brk k := by simp only [switch, hst, hInitialCase, if_pos hc]
      rw [iterate_of_halt (show switch k c = .halt (.brk k) from hs), finishTurn, if_neg (by omega)]
      refine ⟨hk, .inl ⟨hst, hnl, ?_⟩⟩
      rw [fromRequestLine_snoc, if_pos ⟨hp, hc⟩]
    · -- the first letter is read in `h_method`
      have hs : switch k c = reset hMethod { k.clearTrie with s := { k.s with esc := 0 } } c := by
        simp only [switch, hst, hInitialCase, if_neg hc]
      have hr := switch_routed k c hk
      rw [hs] at hr
      have hline := fromRequestLine_snoc p c
      rw [if_neg (fun h => hc h.2), hp, List.nil_append] at hline
      rw [iterate_reset hk hs]
      have hi := iterate_onLine (q := []) c hr.1 (.inr ⟨hnl, .inl ⟨rfl, rfl⟩⟩)
      revert hi
      cases hit : iterate _ c with
      | next k' =>
        intro hi
        exact ⟨iterate_routed hr.1 hit, .inr (by rw [hline]; exact ⟨List.cons_ne_nil _ _, hi⟩)⟩
      | halt r =>
        intro hi k' hr'
        rw [hline]
        exact hi k' hr'
  · have hline := fromRequestLine_snoc p c
    rw [if_neg (fun h => hp h.1)] at hline
    have hi := iterate_onLine c hk h
    revert hi
    cases hit : iterate k c with
    | next k' =>
      intro hi
      exact ⟨iterate_routed hk hit, .inr (by rw [hline]; exact ⟨by simp, hi⟩)⟩
    | halt r =>
      intro hi k' hr'
      rw [hline]
      exact hi k' hr'

/-! ## What is read as a request line -/

/-- The first line, without its LF. -/
def firstLine (p : List Int) : List Int := (fromRequestLine p).takeWhile fun c => c ≠ 10

theorem fromRequestLine_append {p : List Int} (h : fromRequestLine p ≠ []) (q : List Int) :
    fromRequestLine (p ++ q) = fromRequestLine p ++ q := by
  rw [fromRequestLine, List.dropWhile_append, if_neg]
  · rfl
  · rwa [List.isEmpty_iff]

theorem firstLine_eq {p line rest : List Int} (h : fromRequestLine p = line ++ 10 :: rest) (hline : 10 ∉ line) :
    firstLine p = line := by
  have hall : ∀ c ∈ line, decide (c ≠ 10) = true := fun c hc => decide_eq_true fun h10 => hline (h10 ▸ hc)
  rw [firstLine, h, List.takeWhile_append_of_pos hall, List.takeWhile_cons_of_neg (by decide), List.append_nil]

theorem firstLine_append {p : List Int} (h : PastRequestLine p) (q : List Int) : firstLine (p ++ q) = firstLine p := by
  obtain ⟨line, rest, hp, hline⟩ := List.eq_append_cons_of_mem h
  have hpq := fromRequestLine_append (List.ne_nil_of_mem h) q
  rw [hp, List.append_assoc, List.cons_append] at hpq
  rw [firstLine_eq hpq hline, firstLine_eq hp hline]

/-! ### Characters that are in no part of a line -/

section

variable {z : Int}

theorem urlText_over {P : Int → Prop} (hz : z ≠ 37) (hhex : uriHex z = false) (hP : ¬P z) :
    Over (· ≠ z) (urlText P) := by
  have hword : Over (· ≠ z) (word [37]) := by
    apply Over.word
    intro c hc
    rw [List.mem_singleton.mp hc]
    exact hz.symm
  have hhexes : Over (· ≠ z) (one fun c => uriHex c = true) := by
    apply Over.one
    rintro c hc rfl
    rw [hhex] at hc
    cases hc
  have hone : Over (· ≠ z) (one P) := by
    apply Over.one
    rintro c hc rfl
    exact hP hc
  exact (hone.add ((hword.mul hhexes).mul hhexes)).kstar

theorem url_over (hz : z = 0 ∨ z = 10) : Over (· ≠ z) url := by
  have hpath : Over (· ≠ z) path := by
    obtain rfl | rfl := hz <;> exact urlText_over (by decide) rfl (by unfold isPathChar; decide)
  have hquery : Over (· ≠ z) query := by
    obtain rfl | rfl := hz <;> exact urlText_over (by decide) rfl (by decide)
  have hmark : Over (· ≠ z) (word [63]) := Over.word (by obtain rfl | rfl := hz <;> decide)
  exact hpath.add ((hpath.mul hmark).mul hquery)

theorem one_over {P : Int → Prop} (h : ¬P z) : Over (· ≠ z) (one P) := by
  apply Over.one
  rintro c hc rfl
  exact h hc

theorem lineEnd_over (hz : z = 0 ∨ z = 10) : Over (· ≠ z) (1 + word [13] : Language Int) := by
  rintro w (rfl | rfl) c hc
  · cases hc
  · rw [List.mem_singleton.mp hc]
    omega

theorem acceptedLine_over {m : HttpMethod} : Over (· ≠ 10) (acceptedLine m * (1 + word [13])) := by
  have hdigits : Over (· ≠ 10) digit∗ := (one_over (by decide)).kstar
  have hspaces : Over (· ≠ 10) space∗ := (one_over (by decide)).kstar
  have hblank : Over (· ≠ 10) blank := one_over (by decide)
  have hmethod : Over (· ≠ 10) (acceptedMethod m) := by
    rintro w ⟨e, he, -, hw⟩
    have hstem : Over (· ≠ 10) e.stem := by
      rw [MethodEntry.stem]
      split
      · exact (Over.word (by decide)).mul hblank.kstar
      · rintro v rfl c hc
        cases hc
    have hletters : ∀ e ∈ methodEntries, ∀ c ∈ intsOf e.letters, c ≠ 10 := by decide
    exact hstem.mul (Over.word (hletters e he)) w hw
  have hurl : Over (· ≠ 10) (acceptedUrl m) :=
    (((hmethod.mul hblank).mul hspaces).mul (url_over (.inr rfl))).mul ((one_over (by decide)).mul hspaces)
  exact (((((hurl.mul (Over.word (by decide))).mul (one_over (by decide))).mul hdigits).mul
    (Over.word (by decide))).mul hdigits).mul (lineEnd_over (.inr rfl))

theorem requestLine_over {m : HttpMethod} : Over (· ≠ 0) (requestLine m) := by
  have hdigits : Over (· ≠ 0) (some1 digit) := (one_over (by decide)).mul (one_over (by decide)).kstar
  have hspaces : Over (· ≠ 0) (some1 space) := (one_over (by decide)).mul (one_over (by decide)).kstar
  have hmethod : Over (· ≠ 0) (methodName m) := by
    rintro w ⟨s, hs, rfl⟩
    have hnames : ∀ x ∈ methodNames, ∀ c ∈ intsOf x.2, c ≠ 0 := by decide
    exact hnames (m, s) hs
  exact (((((((hmethod.mul hspaces).mul (url_over (.inl rfl))).mul hspaces).mul (Over.word (by decide))).mul
    hdigits).mul (Over.word (by decide))).mul hdigits).mul (lineEnd_over (.inl rfl))

end

/-- **What the parser reads as a request line**: the first line of a head on which the call returns 0. -/
theorem accepted_of_ok {rq rq' : MinuteHttpRq} {hmask : Uint} {rqs' : MinuteHttpRqs} {io io' : Iobuf}
    {text text' : Textint}
    (h : minuteHttpRead rq (minuteHttpInit hmask io text).1 io (minuteHttpInit hmask io text).2 =
      .code 0 rq' rqs' io' text') :
    PastRequestLine (chars (io.from io.read)) ∧
      firstLine (chars (io.from io.read)) ∈ acceptedLine rq'.requestMethod * (1 + word [13]) := by
  set k := startFrame rq (minuteHttpInit hmask io text).1 io (minuteHttpInit hmask io text).2
    with hk
  have hr : Routed k := rfl
  have hstart : LineAt [] k := ⟨hr, .inl ⟨rfl, rfl, rfl⟩⟩
  obtain ⟨k', rest, hf, rfl, -⟩ := read_ok hr h
  obtain ⟨p, c, k₁, hw, hp, hc⟩ := feed_halt hf
  have hat : LineAt p k₁ := feed_inv LineAt hstart (fun p s a s' hs hstep => ?_) hp
  · have hlast := iterate_lineAt c hat
    rw [hc] at hlast
    obtain ⟨line, rest', hsplit, hline⟩ := hlast k' rfl
    have hpast : PastRequestLine (p ++ [c]) := by
      rw [PastRequestLine, hsplit]
      simp
    have hfirst : firstLine (io.readable io.read) = line := by
      rw [show io.readable io.read = p ++ [c] ++ rest by rw [List.append_assoc]; exact hw, firstLine_append hpast,
        firstLine_eq hsplit fun h10 => acceptedLine_over line hline 10 h10 rfl]
    have hreadable : PastRequestLine (io.readable io.read) := by
      rw [show io.readable io.read = p ++ [c] ++ rest by rw [List.append_assoc]; exact hw]
      exact hpast.append rest
    -- the end of file is no part of the line
    have hbytes : PastRequestLine (chars (io.from io.read)) := by
      rw [Iobuf.readable] at hreadable
      split at hreadable
      · exact (pastRequestLine_snoc.mp hreadable).resolve_right fun h => absurd h.1 (by decide)
      · rwa [List.append_nil] at hreadable
    rw [Iobuf.readable, firstLine_append hbytes] at hfirst
    rw [hfirst]
    exact ⟨hbytes, hline⟩
  · have hi := iterate_lineAt a hs
    rw [hstep] at hi
    exact hi

/-! ## Request lines that the grammar has -/

/-- Behind the last slash. -/
def versionPart (line : List Int) : List Int := line.rtakeWhile fun c => c ≠ 47

/-- No NUL, no blank behind a first `P`, and something on either side of the last dot of the version. -/
structure WellFormed (line : List Int) : Prop where
  nul : 0 ∉ line
  method : ¬[80, 32] <+: line
  major : ¬[46] <+: versionPart line
  minor : ¬([46] <:+ line ∨ [46, 13] <:+ line)

theorem versionPart_append {a b : List Int} (hb : 47 ∉ b) : versionPart (a ++ [47] ++ b) = b := by
  have hall : ∀ c ∈ b.reverse, decide (c ≠ 47) = true := by
    intro c hc
    rw [List.mem_reverse] at hc
    exact decide_eq_true fun h => hb (h ▸ hc)
  rw [versionPart, List.rtakeWhile, List.reverse_append, List.takeWhile_append_of_pos hall, List.reverse_append,
    List.reverse_reverse, List.reverse_append, List.reverse_singleton, List.singleton_append,
    List.takeWhile_cons_of_neg (by decide), List.reverse_nil, List.nil_append]

theorem mem_some1 {P : Int → Prop} {w : List Int} : w ∈ some1 (one P) ↔ w ≠ [] ∧ ∀ c ∈ w, P c := by
  constructor
  · intro h
    refine ⟨?_, (Over.one fun _ h => h).mul (Over.one fun _ h => h).kstar w h⟩
    obtain ⟨a, ⟨c, -, rfl⟩, b, -, rfl⟩ := Language.mem_mul.mp h
    exact List.cons_ne_nil _ _
  · rintro ⟨hne, h⟩
    obtain ⟨c, w, rfl⟩ := List.exists_cons_of_ne_nil hne
    have hc : [c] ∈ one P := ⟨c, h c List.mem_cons_self, rfl⟩
    have hw : w ∈ (one P)∗ := over_one_kstar.mpr fun x hx => h x (List.mem_cons_of_mem c hx)
    exact Language.append_mem_mul hc hw

section

variable {a d₁ d₂ e : List Int}

/-- The two sides of the dot, seen from the end of the line. -/
theorem version_sides (h₁ : ∀ c ∈ d₁, 48 ≤ c ∧ c ≤ 57) (h₂ : ∀ c ∈ d₂, 48 ≤ c ∧ c ≤ 57) (he : e = [] ∨ e = [13]) :
    ([46] <+: versionPart (a ++ [47] ++ (d₁ ++ [46] ++ d₂ ++ e)) ↔ d₁ = []) ∧
      ([46] <:+ a ++ [47] ++ (d₁ ++ [46] ++ d₂ ++ e) ∨ [46, 13] <:+ a ++ [47] ++ (d₁ ++ [46] ++ d₂ ++ e) ↔ d₂ = []) := by
  have hno : 47 ∉ d₁ ++ [46] ++ d₂ ++ e := by
    simp only [List.mem_append, List.mem_singleton, not_or]
    refine ⟨⟨⟨fun h => absurd (h₁ 47 h).1 (by decide), by decide⟩, fun h => absurd (h₂ 47 h).1 (by decide)⟩, ?_⟩
    obtain rfl | rfl := he <;> decide
  rw [versionPart_append hno]
  constructor
  · cases d₁ with
    | nil => simp
    | cons x d =>
      have := h₁ x List.mem_cons_self
      simp only [List.cons_append, List.cons_prefix_cons, List.nil_prefix, and_true, reduceCtorEq, iff_false]
      omega
  · obtain rfl | ⟨d, x, rfl⟩ := List.eq_nil_or_concat' d₂
    · refine iff_of_true ?_ rfl
      obtain rfl | rfl := he
      · exact .inl ⟨a ++ [47] ++ d₁, by simp⟩
      · exact .inr ⟨a ++ [47] ++ d₁, by simp⟩
    · refine iff_of_false ?_ (by simp)
      have := h₂ x (by simp)
      rintro (h | h)
      all_goals
        obtain ⟨t, ht⟩ := h
        have hlast := congrArg List.reverse ht
        obtain rfl | rfl := he <;> simp at hlast <;> omega

end

theorem requestLine_wellFormed {m : HttpMethod} {line : List Int} (h : line ∈ requestLine m) : WellFormed line := by
  have hnul : 0 ∉ line := fun h0 => requestLine_over line h 0 h0 rfl
  simp only [requestLine, Language.mem_mul] at h
  obtain ⟨_, ⟨_, ⟨_, ⟨_, ⟨_, ⟨_, ⟨_, ⟨_, ⟨s, hs, rfl⟩, s₁, -, rfl⟩, u, -, rfl⟩, s₂, -, rfl⟩, _, rfl, rfl⟩,
    d₁, hd₁, rfl⟩, _, rfl, rfl⟩, d₂, hd₂, rfl⟩, e, he, rfl⟩ := h
  obtain ⟨hne₁, hall₁⟩ := mem_some1.mp hd₁
  obtain ⟨hne₂, hall₂⟩ := mem_some1.mp hd₂
  have hsides := version_sides (a := intsOf s ++ s₁ ++ u ++ s₂ ++ intsOf "HTTP") hall₁ hall₂ he
  have hline : intsOf s ++ s₁ ++ u ++ s₂ ++ intsOf "HTTP/" ++ d₁ ++ [46] ++ d₂ ++ e =
      intsOf s ++ s₁ ++ u ++ s₂ ++ intsOf "HTTP" ++ [47] ++ (d₁ ++ [46] ++ d₂ ++ e) := by
    rw [show intsOf "HTTP/" = intsOf "HTTP" ++ [47] from rfl]
    simp only [List.append_assoc]
  refine ⟨hnul, fun hpre => ?_, ?_, ?_⟩
  · have hnames : ∀ x ∈ methodNames, 2 ≤ (intsOf x.2).length ∧ ¬[80, 32] <+: intsOf x.2 := by decide
    obtain ⟨hlen, hno⟩ := hnames (m, s) hs
    rw [hline] at hpre
    refine hno (List.prefix_of_prefix_length_le hpre ?_ hlen)
    simp only [List.append_assoc]
    exact List.prefix_append _ _
  · rw [hline]
    exact mt hsides.1.mp hne₁
  · rw [hline]
    exact mt hsides.2.mp hne₂

theorem blank_space {w : List Int} (h : w ∈ blank∗) (h0 : 0 ∉ w) : ∀ c ∈ w, c = 32 := by
  intro c hc
  obtain rfl | rfl := over_one_kstar.mp h c hc
  · rfl
  · exact absurd hc h0

/-- **The method's name**, where no blank stands behind the `P`. -/
theorem acceptedMethod_name {m : HttpMethod} {w r : List Int} (h : w ∈ acceptedMethod m) (h0 : 0 ∉ w)
    (hP : ¬[80, 32] <+: w ++ r) : w ∈ methodName m := by
  obtain ⟨e, he, rfl, hw⟩ := h
  obtain ⟨stem, hstem, letters, rfl, rfl⟩ := Language.mem_mul.mp hw
  have hnames : ∀ e ∈ methodEntries, ∃ x ∈ methodNames, x.1 = e.method ∧
      (if e.behindP then [80] else []) ++ intsOf e.letters = intsOf x.2 := by decide
  obtain ⟨⟨m, s⟩, hs, rfl, hletters⟩ := hnames e he
  refine ⟨s, hs, ?_⟩
  rw [← hletters]
  congr 1
  rw [MethodEntry.stem] at hstem
  split at hstem
  · obtain ⟨p, rfl, blanks, hblanks, rfl⟩ := Language.mem_mul.mp hstem
    cases blanks with
    | nil => rw [if_pos (by assumption)]; rfl
    | cons c blanks =>
      have hno : 0 ∉ c :: blanks := fun h => h0 (List.mem_append_left _ (List.mem_append_right _ h))
      have hc := blank_space hblanks hno c List.mem_cons_self
      rw [hc] at hP
      exact absurd (by simp) hP
  · rw [if_neg (by assumption)]
    exact hstem

/-- **The parser reads no other line as a request line.** -/
theorem accepted_wellFormed {m : HttpMethod} {line : List Int} (h : line ∈ acceptedLine m * (1 + word [13]))
    (hline : WellFormed line) : line ∈ requestLine m := by
  simp only [acceptedLine, acceptedMajor, acceptedUrl, acceptedHead, Language.mem_mul] at h
  obtain ⟨_, ⟨_, ⟨_, ⟨_, ⟨_, ⟨_, ⟨_, ⟨_, ⟨_, ⟨w, hw, _, ⟨x, hx, rfl⟩, rfl⟩, s₁, hs₁, rfl⟩, u, hu, rfl⟩, s₂, hs₂, rfl⟩,
    _, rfl, rfl⟩, _, ⟨c, hc, rfl⟩, rfl⟩, d₁, hd₁, rfl⟩, _, rfl, rfl⟩, d₂, hd₂, rfl⟩, e, he, rfl⟩ := h
  obtain ⟨h0, hP, hmajor, hminor⟩ := hline
  obtain rfl : x = 32 := hx.resolve_right fun h => h0 (by simp [h])
  obtain rfl : c = 47 := hc.resolve_right fun h => h0 (by simp [h])
  have hline : w ++ [32] ++ s₁ ++ u ++ s₂ ++ intsOf "HTTP" ++ [47] ++ d₁ ++ [46] ++ d₂ ++ e =
      w ++ [32] ++ s₁ ++ u ++ s₂ ++ intsOf "HTTP" ++ [47] ++ (d₁ ++ [46] ++ d₂ ++ e) := by
    simp only [List.append_assoc]
  have hsides := version_sides (a := w ++ [32] ++ s₁ ++ u ++ s₂ ++ intsOf "HTTP") (over_one_kstar.mp hd₁)
    (over_one_kstar.mp hd₂) he
  rw [← hline] at hsides
  have hname : w ∈ methodName m := by
    simp only [List.append_assoc] at hP
    exact acceptedMethod_name hw (fun h => h0 (by simp [h])) hP
  have hspaces : [32] ++ s₁ ∈ some1 space := Language.append_mem_mul ⟨32, rfl, rfl⟩ hs₁
  have hd₁ : d₁ ∈ some1 digit := mem_some1.mpr ⟨fun h => hmajor (hsides.1.mpr h), over_one_kstar.mp hd₁⟩
  have hd₂ : d₂ ∈ some1 digit := mem_some1.mpr ⟨fun h => hminor (hsides.2.mpr h), over_one_kstar.mp hd₂⟩
  have hmem := Language.append_mem_mul (Language.append_mem_mul (Language.append_mem_mul (Language.append_mem_mul
    (Language.append_mem_mul (Language.append_mem_mul (Language.append_mem_mul (Language.append_mem_mul hname hspaces)
    hu) hs₂) (show intsOf "HTTP/" ∈ word (intsOf "HTTP/") from rfl)) hd₁) (show [46] ∈ word [46] from rfl)) hd₂) he
  rw [show intsOf "HTTP/" = intsOf "HTTP" ++ [47] from rfl] at hmem
  simp only [List.append_assoc] at hmem ⊢
  exact hmem

/-- **Which first lines are request lines** among those on which a call returns 0. -/
theorem requestLine_iff {rq rq' : MinuteHttpRq} {hmask : Uint} {rqs' : MinuteHttpRqs} {io io' : Iobuf}
    {text text' : Textint}
    (h : minuteHttpRead rq (minuteHttpInit hmask io text).1 io (minuteHttpInit hmask io text).2 =
      .code 0 rq' rqs' io' text') :
    PastRequestLine (chars (io.from io.read)) ∧
        firstLine (chars (io.from io.read)) ∈ requestLine rq'.requestMethod ↔
      WellFormed (firstLine (chars (io.from io.read))) := by
  obtain ⟨hpast, haccepted⟩ := accepted_of_ok h
  constructor
  · rintro ⟨-, hline⟩
    exact requestLine_wellFormed hline
  · intro hline
    exact ⟨hpast, accepted_wellFormed haccepted hline⟩

instance WellFormed.decidable (line : List Int) : Decidable (WellFormed line) :=
  decidable_of_iff (0 ∉ line ∧ ¬[80, 32] <+: line ∧ ¬[46] <+: versionPart line ∧ ¬([46] <:+ line ∨ [46, 13] <:+ line))
    ⟨fun h => ⟨h.1, h.2.1, h.2.2.1, h.2.2.2⟩, fun h => ⟨h.nul, h.method, h.major, h.minor⟩⟩

/-- An escape and a query, behind an empty line. -/
theorem requestLine_query :
    let io := Iobuf.holding 4096 (bytes "\r\nPOST /a%41?b=c  HTTP/1.1\r\n\r\n")
    PastRequestLine (chars (io.from io.read)) ∧ firstLine (chars (io.from io.read)) ∈ requestLine .post := by
  intro io
  set init := minuteHttpInit minuteAllHeaders io (minuteTextintInit 64 fun _ => 0) with hinit
  obtain ⟨rq', rqs', io', text', h, hm, hline⟩ := (ReadResult.succeeds_iff
    (P := fun rq' _ _ _ => rq'.requestMethod = .post ∧ WellFormed (firstLine (chars (io.from io.read))))
    (r := minuteHttpRead .zero init.1 io init.2)).mp (by decide +kernel)
  rw [← hm]
  exact (requestLine_iff h).mpr hline

/-- `P OST` is taken for `POST`. -/
theorem requestLine_blank :
    let io := Iobuf.holding 4096 (bytes "P OST / HTTP/1.1\r\n\r\n")
    let init := minuteHttpInit minuteAllHeaders io (minuteTextintInit 64 fun _ => 0)
    (minuteHttpRead .zero init.1 io init.2).Succeeds fun rq' _ _ _ =>
      ¬firstLine (chars (io.from io.read)) ∈ requestLine rq'.requestMethod := by
  intro io init
  obtain ⟨rq', rqs', io', text', h, hline⟩ := (ReadResult.succeeds_iff
    (P := fun _ _ _ _ => ¬WellFormed (firstLine (chars (io.from io.read))))
    (r := minuteHttpRead .zero init.1 io init.2)).mp (by decide +kernel)
  exact ReadResult.succeeds_iff.mpr ⟨rq', rqs', io', text', h, fun hmem => hline (requestLine_wellFormed hmem)⟩

end MinuteHttp
