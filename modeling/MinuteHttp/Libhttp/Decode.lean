import MinuteHttp.Libhttp.RequestLine
import MinuteHttp.Libhttp.UrlText

/-!
# Percent-encoded bytes come back

`Encodes P p w` says that the characters `w` write the bytes `p`, each as it is where `P` allows it or as `%`
and two hexadecimal digits. `url_round_trip_iff` says of which encodings the parser stores the bytes
again. It takes a lower-case digit for what it is, and a first digit of either case, since only its low four
bits get into the byte. `uri_hex_conv` makes the second digit 32 too small where it is upper-case, though,
which sets the three upper bits of the byte: that does no harm to the bytes from `0xE0` on, and makes
`%2F` the byte `0xEF`.
-/

namespace MinuteHttp

open HttpRequestState Feed Grammar Computability

/-! ## Encodings -/

/-- The hexadecimal digits in either letter case, each with its value. -/
def hexDigits : List (Int × Nat) := (intsOf "0123456789abcdef").zipIdx ++ (intsOf "ABCDEF").zipIdx 10

/-- The characters write the bytes, those that satisfy `P` literally or escaped. -/
inductive Encodes (P : Int → Prop) : List Byte → List Int → Prop where
  | nil : Encodes P [] []
  | literal {b : Byte} {p : List Byte} {w : List Int} : P b.toInt → Encodes P p w → Encodes P (b :: p) (b.toInt :: w)
  | escape {hi lo : Int} {h l : Nat} {p : List Byte} {w : List Int} : (hi, h) ∈ hexDigits → (lo, l) ∈ hexDigits →
      Encodes P p w → Encodes P (BitVec.ofNat 8 (16 * h + l) :: p) (37 :: hi :: lo :: w)

/-- A query behind its question mark, or nothing. -/
def EncodesQuery : Option (List Byte) → List Int → Prop
  | none, v => v = []
  | some q, v => ∃ u, v = 63 :: u ∧ Encodes (urlClass hQuery) q u

/-- An upper-case second digit comes only behind a first digit of value 14 or 15. -/
def EscapesKept (w : List Int) : Prop :=
  ∀ hi lo, [37, hi, lo] <:+: w → 65 ≤ lo ∧ lo ≤ 70 → hi ∈ intsOf "EFef"

/-- The string at the offset `o` is `p`. -/
def StoredAt (t : Textint) (o : Uint) (p : List Byte) : Prop := p ++ [0] <+: t.chars.drop o.toNat

instance StoredAt.decidable (t : Textint) (o : Uint) (p : List Byte) : Decidable (StoredAt t o p) :=
  inferInstanceAs (Decidable (_ <+: _))

section

variable {c hi lo : Int} {h l : Nat} {w : List Int}

theorem escapesKept_nil : EscapesKept [] := by
  intro hi lo hw
  simp at hw

theorem escapesKept_cons (hc : c ≠ 37) : EscapesKept (c :: w) ↔ EscapesKept w := by
  unfold EscapesKept
  refine forall_congr' fun x => forall_congr' fun y => ?_
  rw [List.infix_cons_iff, List.cons_prefix_cons]
  simp [hc.symm]

theorem escapesKept_escape (hhi : hi ≠ 37) (hlo : lo ≠ 37) :
    EscapesKept (37 :: hi :: lo :: w) ↔ (65 ≤ lo ∧ lo ≤ 70 → hi ∈ intsOf "EFef") ∧ EscapesKept w := by
  have hrest : EscapesKept (hi :: lo :: w) ↔ EscapesKept w := (escapesKept_cons hhi).trans (escapesKept_cons hlo)
  rw [← hrest]
  constructor
  · intro hw
    exact ⟨hw hi lo ⟨[], w, rfl⟩, fun x y hxy => hw x y (hxy.trans (List.suffix_cons 37 _).isInfix)⟩
  · rintro ⟨hcase, hw⟩ x y hxy
    rcases List.infix_cons_iff.mp hxy with hpre | hin
    · simp only [List.cons_prefix_cons, List.nil_prefix, and_true] at hpre
      obtain ⟨-, rfl, rfl⟩ := hpre
      exact hcase
    · exact hw x y hin

/-- What `h_escaped_1` and `h_escaped_2` put for two digits. -/
def escapedByte (hi lo : Int) : Byte :=
  ((BitVec.ofInt 32 (uriHexConv hi) <<< 4) ||| BitVec.ofInt 32 (uriHexConv lo)).setWidth 8

theorem hexDigits_hex : ∀ x ∈ hexDigits, uriHex x.1 = true ∧ x.1 ≠ 37 := by decide +kernel

/-- **Which escapes are read as the byte they write.** -/
theorem escapedByte_iff (hhi : (hi, h) ∈ hexDigits) (hlo : (lo, l) ∈ hexDigits) :
    escapedByte hi lo = BitVec.ofNat 8 (16 * h + l) ↔ (65 ≤ lo ∧ lo ≤ 70 → hi ∈ intsOf "EFef") := by
  have hall : ∀ x ∈ hexDigits, ∀ y ∈ hexDigits, (escapedByte x.1 y.1 = BitVec.ofNat 8 (16 * x.2 + y.2) ↔
      (65 ≤ y.1 ∧ y.1 ≤ 70 → x.1 ∈ intsOf "EFef")) := by decide +kernel
  exact hall (hi, h) hhi (lo, l) hlo

end

/-! ## Up to the URL -/

section

variable {k : Frame} {c : Int} {cs : List Int}

/-- No line end has been counted, the text is `t`, and the parser stands in the state `x`. -/
structure Upto (x : HttpRequestState) (t : Textint) (k : Frame) : Prop where
  st : k.s.st = x
  nl : k.s.nl = 0
  text : k.text = t

variable {t : Textint}

/-- Where a walk over the letters of a method comes to. -/
def methodWalks (w : List Int) (u : Triestate) : Option Triestate :=
  w.foldlM (fun u c => (methodWalk c u).bind fun x => if x.1 = 0 then some x.2 else none) u

theorem feed_methodWalks {u : Triestate} (h : Upto hMethod t k) (hw : methodWalks cs k.tstate = some u) :
    ∃ k', feed iterate k cs = .next k' ∧ Upto hMethod t k' ∧ k'.tstate = u := by
  induction cs generalizing k with
  | nil => exact ⟨k, rfl, h, Option.some.inj hw⟩
  | cons c cs ih =>
    obtain ⟨hst, hnl, htext⟩ := h
    rw [methodWalks, List.foldlM_cons, Option.bind_eq_bind, Option.bind_eq_some_iff] at hw
    obtain ⟨v, hv, hw⟩ := hw
    rw [Option.bind_eq_some_iff] at hv
    obtain ⟨⟨r, v'⟩, hwalk, hr⟩ := hv
    dsimp only at hr
    split at hr
    · rename_i h0
      obtain rfl := Option.some.inj hr
      have hs : switch k c = brk ({ k with tstate := v' } : Frame).mark := by
        rw [switch, hst]
        simp only [hMethodCase, onWalk, hwalk]
        rw [h0]
        rfl
      have hit := iterate_of_brk hs (by simp [hnl])
      rw [feed_cons_next cs hit]
      exact ih ⟨hst, hnl, htext⟩ hw
    · cases hr

theorem methodNames_walk : ∀ x ∈ methodNames, ∃ u ∈ methodWalks (intsOf x.2) ⟨0, 0⟩,
    ∃ y ∈ methodWalk 32 u, 1 ≤ y.1 ∧ y.1 ≤ 8 := by decide +kernel

theorem methodName_first : ∀ x ∈ methodNames, ∃ c ∈ (intsOf x.2).head?, c ≠ 10 ∧ c ≠ 13 := by decide +kernel

/-- **A method and the spaces behind it**, with the newlines before it. -/
theorem feed_beforeUrl {m : HttpMethod} {lead name sp : List Int} (hk : Routed k) (h : Upto hInitial t k)
    (hlead : ∀ c ∈ lead, c = 10 ∨ c = 13) (hname : name ∈ methodName m) (hsp : sp ∈ some1 space) :
    ∃ k', feed iterate k (lead ++ name ++ sp) = .next k' ∧ Upto hMethodSp t k' := by
  obtain ⟨s, hs, rfl⟩ := hname
  obtain ⟨hne, hsp⟩ := mem_some1.mp hsp
  have hnewline : ∀ k c, Upto hInitial t k → c = 10 ∨ c = 13 → ∃ k', iterate k c = .next k' ∧ Upto hInitial t k' := by
    intro k c hup hc
    have hs : switch k c = brk k := by simp only [switch, hup.st, hInitialCase, if_pos hc]
    exact ⟨_, iterate_of_brk hs (by simp [hup.nl]), ⟨hup.st, hup.nl, hup.text⟩⟩
  have hblank : ∀ k c, Upto hMethodSp t k → c = 32 → ∃ k', iterate k c = .next k' ∧ Upto hMethodSp t k' := by
    intro k c hup hc
    have hs : switch k c = brk k := by simp [switch, hup.st, hMethodSpCase, hc]
    exact ⟨_, iterate_of_brk hs (by simp [hup.nl]), ⟨hup.st, hup.nl, hup.text⟩⟩
  obtain ⟨k₁, h₁, hup₁⟩ := feed_through (Upto hInitial t) hnewline h hlead
  obtain ⟨c, hc, hc10, hc13⟩ := methodName_first (m, s) hs
  obtain ⟨cs, hcs⟩ : ∃ cs, intsOf s = c :: cs := List.head?_eq_some_iff.mp hc
  have hfirst : switch k₁ c = reset hMethod { k₁.clearTrie with s := { k₁.s with esc := 0 } } c := by
    simp only [switch, hup₁.st, hInitialCase, hc10, hc13, or_self, if_false]
  obtain ⟨u, hu, ⟨r, v⟩, hv, hr₁, hr₂⟩ := methodNames_walk (m, s) hs
  obtain ⟨k₂, h₂, hup₂, hu₂⟩ := feed_methodWalks
    (k := Frame.shift hMethod { k₁.clearTrie with s := { k₁.s with esc := 0 } }) (t := t)
    ⟨rfl, hup₁.nl, hup₁.text⟩ hu
  rw [hcs, ← feed_reset (feed_routed hk h₁) hfirst, ← hcs] at h₂
  obtain ⟨x, xs, rfl⟩ := List.exists_cons_of_ne_nil hne
  have hx : x = 32 := hsp x List.mem_cons_self
  subst hx
  have hend : switch k₂ 32 = brk (Frame.shift hMethodSp
      { k₂ with tstate := v, rq := { k₂.rq with requestMethod := HttpMethod.ofCode r } }).mark := by
    rw [switch, hup₂.st]
    simp only [hMethodCase, onWalk, hu₂, Option.mem_def.mp hv]
    rw [if_pos ⟨hr₁, hr₂⟩]
  obtain ⟨k₃, h₃, hup₃⟩ : ∃ k', iterate k₂ 32 = .next k' ∧ Upto hMethodSp t k' :=
    ⟨_, iterate_of_brk hend (by simp [hup₂.nl]), ⟨rfl, hup₂.nl, hup₂.text⟩⟩
  obtain ⟨k₄, h₄, hup₄⟩ := feed_through (Upto hMethodSp t) hblank hup₃
    fun c hc => hsp c (List.mem_cons_of_mem 32 hc)
  refine ⟨k₄, ?_, hup₄⟩
  rw [List.append_assoc, feed_append_next _ h₁, feed_append_next _ h₂, feed_cons_next xs h₃]
  exact h₄

/-! ## The URL -/

variable {x : HttpRequestState} {p : List Byte} {w : List Int}

theorem putc_room {c : Byte} (ht : TextintOk t) (hroom : t.text.toNat < t.ints.toNat) :
    ∃ t', minuteTextintPutc c t = some t' ∧ TextintOk t' ∧ t'.ints = t.ints ∧
      t'.text.toNat = t.text.toNat + 1 ∧ t'.chars = t.chars ++ [c] := by
  have hlt : t.text < t.ints := hroom
  obtain ⟨t', ht'⟩ : ∃ t', minuteTextintPutc c t = some t' := by
    unfold minuteTextintPutc
    exact ⟨_, if_neg (by simpa using hlt)⟩
  obtain ⟨hok, hc, -⟩ := putc_spec ht ht'
  have hints : t'.ints = t.ints := by
    unfold minuteTextintPutc at ht'
    rw [if_neg (by simpa using hlt)] at ht'
    exact (Option.some.inj ht') ▸ rfl
  refine ⟨t', ht', hok, hints, ?_, hc⟩
  have hlen := congrArg List.length hc
  rwa [List.length_append, length_chars, length_chars] at hlen

/-- **The characters of an encoding** are taken in the state of the path or of the query; what is stored for
them is as long as what they write, and the same if the escapes are kept. -/
theorem feed_encoded (hx : x = hPath ∨ x = hQuery) (hw : Encodes (urlClass x) p w) (h : Upto x t k)
    (ht : TextintOk t) (hroom : t.text.toNat + p.length ≤ t.ints.toNat) :
    ∃ k' q, feed iterate k w = .next k' ∧ Upto x k'.text k' ∧ k'.rq = k.rq ∧ TextintOk k'.text ∧
      k'.text.ints = t.ints ∧ k'.text.chars = t.chars ++ q ∧ q.length = p.length ∧ (q = p ↔ EscapesKept w) := by
  induction hw generalizing k t with
  | nil =>
    refine ⟨k, [], rfl, ⟨h.st, h.nl, rfl⟩, rfl, ?_⟩
    rw [h.text, List.append_nil]
    exact ⟨ht, rfl, rfl, rfl, fun _ => escapesKept_nil, fun _ => rfl⟩
  | @literal b p w hb hw ih =>
    obtain ⟨hst, hnl, rfl⟩ := h
    rw [List.length_cons] at hroom
    obtain ⟨t₁, hput, hok₁, hints₁, htext₁, hchars₁⟩ := putc_room (c := b) ht (by omega)
    have hs : switch k b.toInt = brk ({ k with text := t₁ } : Frame).mark := by
      rcases hx with rfl | rfl
      · simp only [switch, hst, hPathCase, if_pos (show _ ∨ _ ∨ _ from hb), putcOr, BitVec.ofInt_toInt, hput]
      · simp only [switch, hst, hQueryCase, if_pos (show uriUric b.toInt = true from hb), putcOr, BitVec.ofInt_toInt, hput]
    obtain ⟨k₁, h₁, hup₁, hrq₁⟩ : ∃ k', iterate k b.toInt = .next k' ∧ Upto x t₁ k' ∧ k'.rq = k.rq :=
      ⟨_, iterate_of_brk hs (by simp [hnl]), ⟨hst, hnl, rfl⟩, rfl⟩
    obtain ⟨k', q, h', hup', hrq', hok', hints', hchars', hlen', hiff⟩ := ih hup₁ hok₁ (by rw [htext₁, hints₁]; omega)
    refine ⟨k', b :: q, ?_, hup', hrq'.trans hrq₁, hok', hints'.trans hints₁, ?_, ?_, ?_⟩
    · rw [feed_cons_next w h₁, h']
    · rw [hchars', hchars₁, List.append_assoc, List.singleton_append]
    · rw [List.length_cons, List.length_cons, hlen']
    · have h37 : b.toInt ≠ 37 := by
        intro h
        rw [h] at hb
        rcases hx with rfl | rfl
        · exact absurd hb (by unfold urlClass isPathChar; decide)
        · exact absurd hb (by unfold urlClass; decide)
      rw [escapesKept_cons h37, List.cons_inj_right, hiff]
  | @escape hi lo d l p w hhi hlo hw ih =>
    obtain ⟨hst, hnl, rfl⟩ := h
    obtain ⟨hhex₁, h37₁⟩ := hexDigits_hex _ hhi
    obtain ⟨hhex₂, h37₂⟩ := hexDigits_hex _ hlo
    rw [List.length_cons] at hroom
    obtain ⟨t₁, hput, hok₁, hints₁, htext₁, hchars₁⟩ := putc_room (c := escapedByte hi lo) ht (by omega)
    have hs₁ : switch k 37 = brk ((k.setEst x).shift hEscaped1).mark := by
      have hno : ¬(uriPchar 37 = true ∨ (37 : Int) = 47 ∨ (37 : Int) = 59) := by decide
      have hno' : ¬uriUric 37 = true := by decide
      rcases hx with rfl | rfl
      · simp only [switch, hst, hPathCase, if_neg hno, if_true]
      · simp only [switch, hst, hQueryCase, if_neg hno', if_true]
    obtain ⟨k₁, h₁, hup₁, hest₁, hrq₁⟩ : ∃ k', iterate k 37 = .next k' ∧ Upto hEscaped1 k.text k' ∧ k'.s.est = x ∧
        k'.rq = k.rq := ⟨_, iterate_of_brk hs₁ (by simp [hnl]), ⟨rfl, hnl, rfl⟩, rfl, rfl⟩
    have hs₂ : switch k₁ hi =
        brk (Frame.shift hEscaped2 { k₁ with s := { k₁.s with esc := BitVec.ofInt 32 (uriHexConv hi) } }) := by
      simp only [switch, hup₁.st, hEscaped1Case, hhex₁, not_true_eq_false, if_false]
    obtain ⟨k₂, h₂, hup₂, hest₂, hesc₂, hrq₂⟩ : ∃ k', iterate k₁ hi = .next k' ∧ Upto hEscaped2 k.text k' ∧
        k'.s.est = x ∧ k'.s.esc = BitVec.ofInt 32 (uriHexConv hi) ∧ k'.rq = k.rq :=
      ⟨_, iterate_of_brk hs₂ (by simp [hup₁.nl]), ⟨rfl, hup₁.nl, hup₁.text⟩, hest₁, rfl, hrq₁⟩
    have hs₃ : switch k₂ lo =
        brk (Frame.shift x { k₂ with text := t₁, s := { k₂.s with esc := 0 } }) := by
      have hput' : minuteTextintPutc (((k₂.s.esc <<< 4) ||| BitVec.ofInt 32 (uriHexConv lo)).setWidth 8) k₂.text =
          some t₁ := by
        rw [hup₂.text, hesc₂]
        exact hput
      simp only [switch, hup₂.st, hEscaped2Case, hhex₂, not_true_eq_false, if_false, putcOr, hput', hest₂]
    obtain ⟨k₃, h₃, hup₃, hrq₃⟩ : ∃ k', iterate k₂ lo = .next k' ∧ Upto x t₁ k' ∧ k'.rq = k.rq :=
      ⟨_, iterate_of_brk hs₃ (by simp [hup₂.nl]), ⟨rfl, hup₂.nl, rfl⟩, hrq₂⟩
    obtain ⟨k', q, h', hup', hrq', hok', hints', hchars', hlen', hiff⟩ := ih hup₃ hok₁ (by rw [htext₁, hints₁]; omega)
    refine ⟨k', escapedByte hi lo :: q, ?_, hup', hrq'.trans hrq₃, hok', hints'.trans hints₁, ?_, ?_, ?_⟩
    · rw [feed_cons_next _ h₁, feed_cons_next _ h₂, feed_cons_next _ h₃, h']
    · rw [hchars', hchars₁, List.append_assoc, List.singleton_append]
    · rw [List.length_cons, List.length_cons, hlen']
    · rw [escapesKept_escape h37₁ h37₂, List.cons_eq_cons, escapedByte_iff hhi hlo, hiff]

/-- What is stored at an offset, known up to its NUL, is the string wanted or another one as long. -/
theorem storedAt_iff {o : Uint} {a q : List Byte} (hchars : a ++ q ++ [0] <+: t.chars) (ho : a.length = o.toNat)
    (hlen : q.length = p.length) : StoredAt t o p ↔ q = p := by
  obtain ⟨z, hz⟩ := hchars
  have hdrop : t.chars.drop o.toNat = q ++ [0] ++ z := by
    rw [← hz, ← ho, List.append_assoc, List.append_assoc, List.drop_left, List.append_assoc]
  unfold StoredAt
  rw [hdrop]
  constructor
  · intro hpre
    have hsame := List.prefix_of_prefix_length_le hpre (List.prefix_append (q ++ [0]) z) (by simp [hlen])
    have heq := hsame.eq_of_length (by simp [hlen])
    exact (List.append_cancel_right heq).symm
  · rintro rfl
    exact List.prefix_append _ _

variable {query : Option (List Byte)} {v : List Int}

theorem url_first (hw : Encodes isPathChar p w) (hv : EncodesQuery query v) (hne : w ++ v ≠ []) :
    ∃ c cs, w ++ v = c :: cs ∧ c ≠ 32 := by
  cases hw with
  | nil =>
    cases query with
    | none => exact absurd hv hne
    | some q =>
      obtain ⟨u, rfl, -⟩ := hv
      exact ⟨63, u, rfl, by decide⟩
  | @literal b p w hb hw =>
    refine ⟨_, _, rfl, ?_⟩
    intro h
    rw [h] at hb
    exact absurd hb (by unfold isPathChar; decide)
  | @escape hi lo d l p w hhi hlo hw => exact ⟨_, _, rfl, by decide⟩

/-- As many characters as the URL takes in the text buffer. -/
def urlRoom (p : List Byte) (query : Option (List Byte)) : Nat :=
  p.length + 1 + (query.elim 0 fun q => q.length + 1)

theorem iterate_urlEnd (hx : x = hPath ∨ x = hQuery) (h : Upto x t k) (ht : TextintOk t)
    (hroom : t.text.toNat < t.ints.toNat) :
    ∃ k', iterate k 32 = .next k' ∧ Upto hPathSp k'.text k' ∧ k'.rq = k.rq ∧ TextintOk k'.text ∧
      k'.text.chars = t.chars ++ [0] := by
  obtain ⟨hst, hnl, rfl⟩ := h
  obtain ⟨t₁, hput, hok₁, -, -, hchars₁⟩ := putc_room (c := 0) ht hroom
  have hs : switch k 32 = brk (Frame.shift hPathSp (Frame.mark { k with text := t₁ })) := by
    have hno : ¬(uriPchar 32 = true ∨ (32 : Int) = 47 ∨ (32 : Int) = 59) := by decide
    have hno' : ¬uriUric 32 = true := by decide
    rcases hx with rfl | rfl
    · simp only [switch, hst, hPathCase, if_neg hno, putcOr, hput, if_true]
      rfl
    · simp only [switch, hst, hQueryCase, if_neg hno', putcOr, hput, if_true]
      rfl
  exact ⟨_, iterate_of_brk hs (by simp [hnl]), ⟨rfl, hnl, rfl⟩, rfl, hok₁, hchars₁⟩

/-- **A URL and the space behind it**: what is stored at `rq->path` and at `rq->query` then, and in every text
that grows from there. -/
theorem feed_url (hk : Routed k) (hw : Encodes isPathChar p w) (hv : EncodesQuery query v) (hne : w ++ v ≠ [])
    (h : Upto hMethodSp t k) (ht : TextintOk t) (hroom : t.text.toNat + urlRoom p query ≤ t.ints.toNat) :
    ∃ k', feed iterate k (w ++ v ++ [32]) = .next k' ∧ Upto hPathSp k'.text k' ∧ TextintOk k'.text ∧
      ∀ t', TextKept k'.text t' → (StoredAt t' k'.rq.path p ↔ EscapesKept w) ∧
        ∀ q, query = some q → (StoredAt t' k'.rq.query q ↔ EscapesKept v) := by
  obtain ⟨c, cs, hcs, hc⟩ := url_first hw hv hne
  have hfirst : switch k c = reset hPath { k.mark with rq := { k.rq with path := k.text.text } } c := by
    simp only [switch, h.st, hMethodSpCase, ne_eq, hc, not_false_eq_true, if_true]
  rw [hcs, List.cons_append, feed_reset hk hfirst, ← List.cons_append, ← hcs]
  set k₀ := Frame.shift hPath { k.mark with rq := { k.rq with path := k.text.text } } with hk₀
  have hup₀ : Upto hPath t k₀ := ⟨rfl, h.nl, h.text⟩
  have hpath₀ : k₀.rq.path = t.text := congrArg Textint.text h.text
  obtain ⟨k₁, p₁, h₁, hup₁, hrq₁, hok₁, hints₁, hchars₁, hlen₁, hiff₁⟩ :=
    feed_encoded (.inl rfl) hw hup₀ ht (by unfold urlRoom at hroom; omega)
  have htext₁ : k₁.text.text.toNat = t.text.toNat + p.length := by
    rw [← length_chars, hchars₁, List.length_append, length_chars, hlen₁]
  have hstart : t.chars.length = t.text.toNat := length_chars t
  rw [List.append_assoc, feed_append_next _ h₁]
  cases query with
  | none =>
    obtain rfl : v = [] := hv
    simp only [urlRoom, Option.elim_none] at hroom
    obtain ⟨k₂, h₂, hup₂, hrq₂, hok₂, hchars₂⟩ :=
      iterate_urlEnd (.inl rfl) hup₁ hok₁ (by rw [htext₁, hints₁]; omega)
    refine ⟨k₂, feed_cons_next [] h₂, hup₂, hok₂, fun t' ht' => ⟨?_, fun q hq => by cases hq⟩⟩
    rw [hrq₂, hrq₁, hpath₀, ← hiff₁]
    apply storedAt_iff _ hstart hlen₁
    rw [← hchars₁, ← hchars₂]
    exact ht'.chars
  | some q =>
    obtain ⟨u, rfl, hu⟩ := hv
    simp only [urlRoom, Option.elim_some] at hroom
    obtain ⟨t₂, hput, hok₂, hints₂, htext₂, hchars₂⟩ :=
      putc_room (c := 0) hok₁ (by rw [htext₁, hints₁]; omega)
    have hs : switch k₁ 63 = brk (Frame.shift hQuery
        { Frame.mark { k₁ with text := t₂ } with rq := { k₁.rq with query := t₂.text } }) := by
      have hno : ¬(uriPchar 63 = true ∨ (63 : Int) = 47 ∨ (63 : Int) = 59) := by decide
      simp only [switch, hup₁.st, hPathCase, if_neg hno, putcOr, hput, if_true,
        show ¬(63 : Int) = 37 by decide, if_false]
    obtain ⟨k₂, h₂, hup₂, hpath₂, hquery₂⟩ : ∃ k', iterate k₁ 63 = .next k' ∧ Upto hQuery t₂ k' ∧
        k'.rq.path = t.text ∧ k'.rq.query = t₂.text :=
      ⟨_, iterate_of_brk hs (by simp [hup₁.nl]), ⟨rfl, hup₁.nl, rfl⟩, by rw [← hpath₀, ← hrq₁]; rfl, rfl⟩
    obtain ⟨k₃, q₃, h₃, hup₃, hrq₃, hok₃, hints₃, hchars₃, hlen₃, hiff₃⟩ :=
      feed_encoded (.inr rfl) hu hup₂ hok₂ (by rw [htext₂, hints₂, hints₁, htext₁]; omega)
    have htext₃ : k₃.text.text.toNat = t₂.text.toNat + q.length := by
      rw [← length_chars, hchars₃, List.length_append, length_chars, hlen₃]
    obtain ⟨k₄, h₄, hup₄, hrq₄, hok₄, hchars₄⟩ :=
      iterate_urlEnd (.inr rfl) hup₃ hok₃ (by rw [htext₃, hints₃, htext₂, hints₂, hints₁, htext₁]; omega)
    refine ⟨k₄, ?_, hup₄, hok₄, fun t' ht' => ⟨?_, ?_⟩⟩
    · rw [List.cons_append, feed_cons_next _ h₂, feed_append_next _ h₃, feed_cons_next _ h₄]
      rfl
    · rw [hrq₄, hrq₃, hpath₂, ← hiff₁]
      apply storedAt_iff _ hstart hlen₁
      rw [← hchars₁, ← hchars₂]
      refine List.IsPrefix.trans ?_ ht'.chars
      rw [hchars₄, hchars₃, List.append_assoc]
      exact List.prefix_append _ _
    · intro q' hq'
      obtain rfl := Option.some.inj hq'
      rw [hrq₄, hrq₃, hquery₂, escapesKept_cons (by decide), ← hiff₃]
      apply storedAt_iff _ (length_chars t₂) hlen₃
      rw [← hchars₃, ← hchars₄]
      exact ht'.chars

/-! ## What is stored stays -/

/-- The states that read the text of the URL. -/
def HttpRequestState.inUrl : HttpRequestState → Bool
  | hPath | hQuery | hEscaped1 | hEscaped2 => true
  | _ => false

/-- The path begins where it did, and the text has only grown. -/
structure PathKept (k₀ k : Frame) : Prop where
  path : k.rq.path = k₀.rq.path
  text : TextKept k₀.text k.text
  ok : TextintOk k.text

theorem switch_path_kept (k₀ k : Frame) (c : Int) (hk : Routed k) (hst : k.s.st.inUrl = true ∨ k.s.st = hErrorBadRequest)
    (h : PathKept k₀ k) :
    Pass.All (fun k' _ => PathKept k₀ k' ∧ k'.s.st = hErrorBadRequest)
      (fun k' => PathKept k₀ k' ∧ (k'.s.st.inUrl = true ∨ k'.s.st = hPathSp)) (fun _ => PathKept k₀) True
      (switch k c) := by
  obtain ⟨hpath, htext, hok⟩ := h
  have hput : ∀ b t', minuteTextintPutc b k.text = some t' → ∀ k' : Frame, k'.rq.path = k.rq.path → k'.text = t' →
      PathKept k₀ k' := by
    intro b t' ht' k' hp' hk'
    obtain ⟨hok', htext', -⟩ := htext.putc hok ht'
    exact ⟨hp'.trans hpath, hk' ▸ htext', hk' ▸ hok'⟩
  have hsame : ∀ k' : Frame, k'.rq.path = k.rq.path → k'.text = k.text → PathKept k₀ k' := by
    intro k' hp' hk'
    exact ⟨hp'.trans hpath, hk' ▸ htext, hk' ▸ hok⟩
  cases hst' : k.s.st <;> simp only [switch, hst']
  case hPath =>
    simp only [hPathCase, all_ite, all_putcOr, all_brk, all_reset]
    refine ⟨fun _ => ⟨fun _ => hsame _ rfl rfl, fun t ht => ⟨hput _ t ht _ rfl rfl, .inl ?_⟩⟩, fun _ =>
      ⟨fun _ => ⟨hsame _ rfl rfl, .inl rfl⟩, fun _ =>
      ⟨fun _ => ⟨fun _ => hsame _ rfl rfl, fun t ht => ⟨hput _ t ht _ rfl rfl, .inl rfl⟩⟩, fun _ =>
      ⟨fun _ => ⟨fun _ => hsame _ rfl rfl, fun t ht => ⟨hput _ t ht _ rfl rfl, .inr rfl⟩⟩, fun _ =>
        ⟨hsame _ rfl rfl, rfl⟩⟩⟩⟩⟩
    rw [mark_s, hst']
    rfl
  case hQuery =>
    simp only [hQueryCase, all_ite, all_putcOr, all_brk, all_reset]
    refine ⟨fun _ => ⟨fun _ => hsame _ rfl rfl, fun t ht => ⟨hput _ t ht _ rfl rfl, .inl ?_⟩⟩, fun _ =>
      ⟨fun _ => ⟨hsame _ rfl rfl, .inl rfl⟩, fun _ =>
      ⟨fun _ => ⟨fun _ => hsame _ rfl rfl, fun t ht => ⟨hput _ t ht _ rfl rfl, .inr rfl⟩⟩, fun _ =>
        ⟨hsame _ rfl rfl, rfl⟩⟩⟩⟩
    rw [mark_s, hst']
    rfl
  case hEscaped1 =>
    simp only [hEscaped1Case, all_ite, all_brk, all_reset]
    exact ⟨fun _ => ⟨hsame _ rfl rfl, rfl⟩, fun _ => ⟨hsame _ rfl rfl, .inl rfl⟩⟩
  case hEscaped2 =>
    have hest : k.s.est = hPath ∨ k.s.est = hQuery := by
      have hr : routed k.s.st k.s.est k.s.collect = true := hk
      rw [hst'] at hr
      simp only [routed, Bool.and_eq_true, Bool.or_eq_true, beq_iff_eq] at hr
      exact hr.1
    simp only [hEscaped2Case, all_ite, all_putcOr, all_brk, all_reset]
    refine ⟨fun _ => ⟨hsame _ rfl rfl, rfl⟩, fun _ => ⟨fun _ => hsame _ rfl rfl, fun t ht =>
      ⟨hput _ t ht _ rfl rfl, .inl ?_⟩⟩⟩
    rw [shift_s]
    rcases hest with hest | hest <;> rw [hest] <;> rfl
  case hErrorBadRequest => exact hsame _ rfl rfl
  all_goals
    rw [hst'] at hst
    rcases hst with hst | hst <;> cases hst

theorem iterate_path_kept {k₀ k : Frame} (c : Int) (hk : Routed k) (hst : k.s.st.inUrl = true) (h : PathKept k₀ k) :
    (iterate k c).Holds (fun k' => PathKept k₀ k' ∧ (k'.s.st.inUrl = true ∨ k'.s.st = hPathSp))
      fun r => ∀ k', r = .ok k' ∨ (∃ n, r = .ret n k') → PathKept k₀ k' := by
  have hi := iterate_inv (N := fun k' _ => Routed k' ∧ PathKept k₀ k' ∧ (k'.s.st.inUrl = true ∨ k'.s.st = hErrorBadRequest))
    (B := fun k' => PathKept k₀ k' ∧ (k'.s.st.inUrl = true ∨ k'.s.st = hPathSp)) (R := fun _ => PathKept k₀)
    (F := True) (fun k₁ c₁ h₁ => ?_) (c := c) ⟨hk, h, .inl hst⟩
  · cases hs : iterate k c with
    | next k' =>
      rw [hs] at hi
      obtain ⟨k₁, ⟨⟨h₁, h₂, h₃⟩, h₄⟩, -, rfl⟩ := hi
      exact ⟨⟨h₁, h₂, h₃⟩, h₄⟩
    | halt r =>
      rw [hs] at hi
      rintro k' (rfl | ⟨n, rfl⟩)
      · obtain ⟨k₁, ⟨⟨h₁, h₂, h₃⟩, -⟩, -, rfl⟩ := hi
        exact ⟨h₁, h₂, h₃⟩
      · exact hi
  · obtain ⟨hr, hkept, hst₁⟩ := h₁
    exact ((switch_routed k₁ c₁ hr).and (switch_path_kept k₀ k₁ c₁ hr hst₁ hkept)).imp
      (fun _ _ h => ⟨h.1.1, h.2.1, .inr h.2.2⟩) (fun _ h => h.2) (fun _ _ h => h.2) fun _ => trivial

/-- **From inside the URL on**, a run keeps where the path begins and what has been stored. -/
theorem runLeft_path_kept {k₀ k : Frame} {cs : List Int} {n : Nat} {rq' : MinuteHttpRq} {t' : Textint} (hk : Routed k)
    (hst : k.s.st.inUrl = true) (h : PathKept k₀ k) (hl : runLeft (feed iterate k cs) = some (n, rq', t')) :
    rq'.path = k₀.rq.path ∧ TextKept k₀.text t' := by
  have hdone : ∀ k' : Frame, PathKept k₀ k' → k'.rq = rq' → k'.text = t' → rq'.path = k₀.rq.path ∧ TextKept k₀.text t' := by
    rintro k' ⟨hpath, htext, -⟩ rfl rfl
    exact ⟨hpath, htext⟩
  induction cs generalizing k with
  | nil =>
    simp only [feed_nil, runLeft, Option.some.injEq, Prod.mk.injEq] at hl
    exact hdone k h hl.2.1 hl.2.2
  | cons c cs ih =>
    have hi := iterate_path_kept c hk hst h
    rw [feed_cons] at hl
    cases hs : iterate k c with
    | next k' =>
      rw [hs] at hi hl
      obtain ⟨hkept, hst' | hst'⟩ := hi
      · exact ih (iterate_routed hk hs) hst' hkept hl
      · -- behind the URL
        have hr := iterate_routed hk hs
        have hcollect : ¬k'.s.collect = true := by
          intro hc
          rw [Routed, hst', hc] at hr
          cases hr
        have hb : BehindUrl k' k' :=
          ⟨⟨rfl, rfl, TextKept.refl _⟩, hkept.ok, by rw [hst']; rfl, fun hc => absurd hc hcollect⟩
        obtain ⟨hpath, -, htext⟩ := runLeft_behind hr hb hl
        exact ⟨hpath.trans hkept.path, hkept.text.chars.trans htext.chars, hkept.text.integers.trans htext.integers⟩
    | halt r =>
      rw [hs] at hi hl
      cases r with
      | ok k' =>
        simp only [runLeft, Option.some.injEq, Prod.mk.injEq] at hl
        exact hdone k' (hi k' (.inl rfl)) hl.2.1 hl.2.2
      | ret m k' =>
        simp only [runLeft, Option.some.injEq, Prod.mk.injEq] at hl
        exact hdone k' (hi k' (.inr ⟨m, rfl⟩)) hl.2.1 hl.2.2
      | fault => cases hl
      | spin => cases hl

end

/-! ## Whole requests -/

section

variable {m : HttpMethod} {lead name sp w v sp' rest : List Int} {p : List Byte} {query : Option (List Byte)}

theorem textintOk_init (hmask : Uint) (io : Iobuf) {text : Textint} (hsize : 4 ∣ text.size.toNat)
    (hroom : 1 ≤ text.size.toNat) : TextintOk (minuteHttpInit hmask io text).2 :=
  ⟨Nat.le_refl 1, hroom, Nat.le_refl _, hsize, hsize⟩

theorem feed_noUrl {k : Frame} {t : Textint} (hk : Routed k) (h : Upto hMethodSp t k) (ht : TextintOk t)
    (hroom : t.text.toNat < t.ints.toNat) :
    ∃ k', feed iterate k [72] = .next k' ∧ k'.s.st.inUrl = true ∧ k'.rq.path = t.text ∧ TextintOk k'.text ∧
      k'.text.chars = t.chars ++ [72] := by
  obtain ⟨hst, hnl, rfl⟩ := h
  obtain ⟨t₁, hput, hok₁, -, -, hchars₁⟩ := putc_room (c := 72) ht hroom
  have hfirst : switch k 72 = reset hPath { k.mark with rq := { k.rq with path := k.text.text } } 72 := by
    simp [switch, hst, hMethodSpCase]
  have hput' : minuteTextintPutc (BitVec.ofInt 8 72) k.text = some t₁ := hput
  have hletter : uriPchar 72 = true ∨ (72 : Int) = 47 ∨ (72 : Int) = 59 := by decide
  set k₀ := Frame.shift hPath { k.mark with rq := { k.rq with path := k.text.text } } with hk₀
  have hs : switch k₀ 72 = brk (Frame.mark { k₀ with text := t₁ }) := by
    simp only [switch, hk₀, shift_s, hPathCase, if_pos hletter, putcOr, shift_text, mark_text, hput']
  have hit := iterate_of_brk hs (show k.s.nl ≤ 1 by omega)
  rw [feed_reset hk hfirst, feed_cons_next [] hit]
  exact ⟨_, rfl, rfl, rfl, hok₁, hchars₁⟩

/-- **Percent-decoding round trip**, exactly where it holds. A request, in whatever pieces it comes, whose URL
writes the bytes `p` and behind a question mark those of `query`, and fits the text buffer: whatever its
session returns with, the string at `rq->path` is `p` where the URL is not empty and its escapes are kept, and
likewise the one at `rq->query`. -/
theorem url_round_trip_iff {rq rq' : MinuteHttpRq} {hmask : Uint} {rqs' : MinuteHttpRqs} {io io' : Iobuf}
    {text text' : Textint} {fs : List Refill} {e : Bool} {n : Nat} (hsize : 4 ∣ text.size.toNat)
    (he : eofAtLast e io fs) (hlead : ∀ c ∈ lead, c = 10 ∨ c = 13) (hname : name ∈ methodName m)
    (hsp : sp ∈ some1 space) (hw : Encodes isPathChar p w) (hv : EncodesQuery query v) (hsp' : sp' ∈ some1 space)
    (hshown : sessionChars io io.read fs e = lead ++ name ++ sp ++ (w ++ v) ++ sp' ++ intsOf "HTTP/" ++ rest)
    (hroom : 1 + urlRoom p query ≤ text.size.toNat)
    (h : readSession rq (minuteHttpInit hmask io text).1 io (minuteHttpInit hmask io text).2 fs =
      .code n rq' rqs' io' text') :
    (StoredAt text' rq'.path p ↔ w ++ v ≠ [] ∧ EscapesKept w) ∧
      ∀ q, query = some q → (StoredAt text' rq'.query q ↔ EscapesKept v) := by
  set t := (minuteHttpInit hmask io text).2 with ht
  set k := startFrame rq (minuteHttpInit hmask io text).1 io t with hk
  have hr : Routed k := rfl
  have hroom' : t.text.toNat + urlRoom p query ≤ t.ints.toNat := hroom
  have hok : TextintOk t := textintOk_init hmask io hsize (by omega)
  have hup : Upto hInitial t k := ⟨rfl, rfl, rfl⟩
  have hleft := left_of_code h
  rw [initSession_left rq hmask text he, hshown, ← hk] at hleft
  by_cases hne : w ++ v = []
  · obtain ⟨rfl, rfl⟩ := List.append_eq_nil_iff.mp hne
    have hno : query = none := by
      cases query with
      | none => rfl
      | some q =>
        obtain ⟨u, hu, -⟩ := hv
        cases hu
    subst hno
    obtain rfl : p = [] := by
      cases hw
      rfl
    have hspaces : sp ++ sp' ∈ some1 space := by
      obtain ⟨hne₁, h₁⟩ := mem_some1.mp hsp
      obtain ⟨-, h₂⟩ := mem_some1.mp hsp'
      exact mem_some1.mpr ⟨by simp [hne₁], fun c hc => (List.mem_append.mp hc).elim (h₁ c) (h₂ c)⟩
    obtain ⟨k₁, h₁, hup₁⟩ := feed_beforeUrl hr hup hlead hname hspaces
    have hr₁ := feed_routed hr h₁
    obtain ⟨k₂, h₂, hst₂, hpath₂, hok₂, hchars₂⟩ := feed_noUrl hr₁ hup₁ hok (by unfold urlRoom at hroom'; omega)
    have hsplit : lead ++ name ++ sp ++ ([] ++ []) ++ sp' ++ intsOf "HTTP/" ++ rest =
        lead ++ name ++ (sp ++ sp') ++ ([72] ++ (intsOf "TTP/" ++ rest)) := by
      rw [show intsOf "HTTP/" = [72] ++ intsOf "TTP/" from rfl]
      simp only [List.append_assoc, List.nil_append]
    rw [hsplit, feed_append_next _ h₁, feed_append_next _ h₂] at hleft
    obtain ⟨hpath, htext⟩ := runLeft_path_kept (feed_routed hr₁ h₂) hst₂ ⟨rfl, TextKept.refl _, hok₂⟩ hleft
    refine ⟨iff_of_false (fun hstored => ?_) fun hcond => hcond.1 rfl, fun q hq => by cases hq⟩
    obtain ⟨z, hz⟩ := htext.chars
    have hdrop : text'.chars.drop t.text.toNat = 72 :: z := by
      rw [← hz, hchars₂, List.append_assoc, ← length_chars t, List.drop_left]
      rfl
    rw [StoredAt, hpath, hpath₂, hdrop, List.nil_append, List.cons_prefix_cons] at hstored
    exact absurd hstored.1 (by decide)
  · obtain ⟨x, xs, rfl⟩ := List.exists_cons_of_ne_nil (mem_some1.mp hsp').1
    have hx : x = 32 := (mem_some1.mp hsp').2 x List.mem_cons_self
    subst hx
    obtain ⟨k₁, h₁, hup₁⟩ := feed_beforeUrl hr hup hlead hname hsp
    have hr₁ := feed_routed hr h₁
    obtain ⟨k₂, h₂, hup₂, hok₂, hstored⟩ := feed_url hr₁ hw hv hne hup₁ hok hroom'
    have hr₂ := feed_routed hr₁ h₂
    have hsplit : lead ++ name ++ sp ++ (w ++ v) ++ 32 :: xs ++ intsOf "HTTP/" ++ rest =
        lead ++ name ++ sp ++ (w ++ v ++ [32] ++ (xs ++ intsOf "HTTP/" ++ rest)) := by
      simp only [List.append_assoc, List.cons_append, List.nil_append]
    rw [hsplit, feed_append_next _ h₁, feed_append_next _ h₂] at hleft
    have hcollect : ¬k₂.s.collect = true := by
      intro hc
      rw [Routed, hup₂.st, hc] at hr₂
      cases hr₂
    have hb : BehindUrl k₂ k₂ :=
      ⟨⟨rfl, rfl, TextKept.refl _⟩, hok₂, by rw [hup₂.st]; rfl, fun hc => absurd hc hcollect⟩
    obtain ⟨hpath, hquery, htext⟩ := runLeft_behind hr₂ hb hleft
    obtain ⟨hpathIff, hqueryIff⟩ := hstored text' htext
    rw [hpath, hquery, hpathIff]
    exact ⟨⟨fun hkept => ⟨hne, hkept⟩, fun hcond => hcond.2⟩, hqueryIff⟩

end

/-- Escapes with digits of either case and a query, cut behind the first digit of an escape. -/
theorem url_round_trip_mixed :
    let io := Iobuf.holding 4096 (bytes "\r\nGET  /a%c")
    let whole := Iobuf.holding 4096 (bytes "\r\nGET  /a%c3%EF?%41= HTTP/1.1\r\n\r\n")
    let text := minuteTextintInit 64 fun _ => 0
    let init := minuteHttpInit minuteAllHeaders io text
    (readSession .zero init.1 io init.2 [⟨whole.data, whole.write, 0⟩]).Succeeds fun rq' _ _ text' =>
      StoredAt text' rq'.path [47, 97, 0xC3, 0xEF] ∧ StoredAt text' rq'.query [65, 61] := by
  intro io whole text init
  have he : eofAtLast false io [⟨whole.data, whole.write, 0⟩] := by
    refine ⟨by decide +kernel, ?_⟩
    show Iobuf.eof _ = false
    decide +kernel
  have hw : Encodes isPathChar [47, 97, 0xC3, 0xEF] (intsOf "/a%c3%EF") := by
    have hslash : isPathChar (BitVec.toInt (47 : Byte)) := by unfold isPathChar; decide
    have ha : isPathChar (BitVec.toInt (97 : Byte)) := by unfold isPathChar; decide
    exact .literal hslash (.literal ha (.escape (h := 12) (l := 3) (by decide) (by decide)
      (.escape (h := 14) (l := 15) (by decide) (by decide) .nil)))
  have hv : EncodesQuery (some [65, 61]) (intsOf "?%41=") := by
    have heq : urlClass hQuery (BitVec.toInt (61 : Byte)) := by unfold urlClass; decide
    exact ⟨intsOf "%41=", by decide, .escape (h := 4) (l := 1) (by decide) (by decide) (.literal heq .nil)⟩
  have hkept : EscapesKept (intsOf "/a%c3%EF") := by
    show EscapesKept (47 :: 97 :: 37 :: 99 :: 51 :: 37 :: 69 :: 70 :: [])
    rw [escapesKept_cons (by decide), escapesKept_cons (by decide), escapesKept_escape (by decide) (by decide),
      escapesKept_escape (by decide) (by decide)]
    exact ⟨by decide, by decide, escapesKept_nil⟩
  have hkept' : EscapesKept (intsOf "?%41=") := by
    show EscapesKept (63 :: 37 :: 52 :: 49 :: 61 :: [])
    rw [escapesKept_cons (by decide), escapesKept_escape (by decide) (by decide), escapesKept_cons (by decide)]
    exact ⟨by decide, escapesKept_nil⟩
  obtain ⟨rq', rqs', io', text', h, -⟩ := (ReadResult.succeeds_iff (P := fun _ _ _ _ => True)
    (r := readSession .zero init.1 io init.2 [⟨whole.data, whole.write, 0⟩])).mp (by decide +kernel)
  have hlead : ∀ c ∈ ([13, 10] : List Int), c = 10 ∨ c = 13 := by decide
  have hname : intsOf "GET" ∈ methodName .get := ⟨"GET", by decide, rfl⟩
  have hsp : [32, 32] ∈ some1 space := mem_some1.mpr (by decide)
  have hsp' : [32] ∈ some1 space := mem_some1.mpr (by decide)
  have hshown : sessionChars io io.read [⟨whole.data, whole.write, 0⟩] false =
      [13, 10] ++ intsOf "GET" ++ [32, 32] ++ (intsOf "/a%c3%EF" ++ intsOf "?%41=") ++ [32] ++ intsOf "HTTP/" ++
        intsOf "1.1\r\n\r\n" := by decide +kernel
  have hstored := url_round_trip_iff (by decide) he hlead hname hsp hw hv hsp' hshown (by decide) h
  exact ReadResult.succeeds_iff.mpr ⟨rq', rqs', io', text', h, hstored.1.mpr ⟨by decide, hkept⟩,
    (hstored.2 _ rfl).mpr hkept'⟩

/-- `%2F` is stored as the byte `0xEF`. -/
theorem url_round_trip_upper :
    let io := Iobuf.holding 4096 (bytes "GET /%2F HTTP/1.1\r\n\r\n")
    let init := minuteHttpInit minuteAllHeaders io (minuteTextintInit 64 fun _ => 0)
    Encodes isPathChar [47, 47] (intsOf "/%2F") ∧
      (minuteHttpRead .zero init.1 io init.2).Succeeds fun rq' _ _ text' =>
        ¬StoredAt text' rq'.path [47, 47] ∧ StoredAt text' rq'.path [47, 0xEF] := by
  intro io init
  have hslash : isPathChar (BitVec.toInt (47 : Byte)) := by unfold isPathChar; decide
  exact ⟨.literal hslash (.escape (h := 2) (l := 15) (by decide) (by decide) .nil), by decide +kernel⟩

end MinuteHttp
