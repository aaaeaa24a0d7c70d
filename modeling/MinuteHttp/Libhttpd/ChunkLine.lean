import MinuteHttp.Libhttp.Contents
import MinuteHttp.Libhttpd.Closing

/-!
# The size line of a chunk

The scan of `minute_httpd_in_read` is a machine that eats the bytes held (`chunkScan_eq`). It counts the
digits in 32 bits and keeps no note of whether there were any, so a line without digits is the last chunk,
and so is a size of `2 ^ 32`; from `2 ^ 31` on the `int` counter is negative, which is a control code
(`sizeRight_iff`).
-/

namespace MinuteHttp

open Effect Feed

/-! ## Digits -/

def hexDigit (c : Byte) : Option Nat :=
  if 48 ≤ c.toNat ∧ c.toNat ≤ 57 then some (c.toNat - 48)
  else if 97 ≤ c.toNat ∧ c.toNat ≤ 102 then some (c.toNat - 97 + 10)
  else if 65 ≤ c.toNat ∧ c.toNat ≤ 70 then some (c.toNat - 65 + 10)
  else none

def isHex (c : Byte) : Bool := (hexDigit c).isSome

/-- The number that `ds` says behind digits that say `v`. -/
def hexValue (v : Nat) (ds : List Byte) : Nat := ds.foldl (fun v c => 16 * v + (hexDigit c).getD 0) v

@[simp] theorem hexValue_nil (v : Nat) : hexValue v [] = v := rfl

@[simp] theorem hexValue_cons (v : Nat) (c : Byte) (ds : List Byte) :
    hexValue v (c :: ds) = hexValue (16 * v + (hexDigit c).getD 0) ds := rfl

theorem shift_digit (v d : Nat) :
    (BitVec.ofNat 32 v <<< 4) + BitVec.ofNat 32 d = BitVec.ofNat 32 (16 * v + d) := by
  apply BitVec.eq_of_toNat_eq
  simp only [BitVec.toNat_add, BitVec.toNat_shiftLeft, BitVec.toNat_ofNat, Nat.shiftLeft_eq]
  omega

theorem toInt_of_lt {c : Byte} (h : c.toNat < 128) : c.toInt = c.toNat := by
  rw [BitVec.toInt_eq_toNat_cond, if_pos (by omega)]

theorem digit_bits {n b : Nat} (h : b ≤ n) : BitVec.ofInt 32 ((n : Int) - b) = BitVec.ofNat 32 (n - b) := by
  rw [← Int.ofNat_sub h, BitVec.ofInt_natCast]

theorem letter_bits {n b : Nat} (h : b ≤ n) (v : Uint) :
    v + BitVec.ofInt 32 ((n : Int) - b) + 10 = v + BitVec.ofNat 32 (n - b + 10) := by
  rw [digit_bits h, BitVec.add_assoc, BitVec.ofNat_add]
  rfl

theorem chunkSizeCase_digit {c : Byte} {d : Nat} (h : hexDigit c = some d) (v : Nat) :
    chunkSizeCase (BitVec.ofNat 32 v) c.toInt = .next (.size, BitVec.ofNat 32 (16 * v + d)) := by
  unfold hexDigit at h
  unfold chunkSizeCase
  rw [← shift_digit]
  by_cases hdigit : 48 ≤ c.toNat ∧ c.toNat ≤ 57
  · rw [if_pos hdigit] at h
    cases h
    rw [toInt_of_lt (by omega), if_pos (by omega)]
    exact congrArg (fun b => Step.next (_, _ + b)) (digit_bits hdigit.1)
  · rw [if_neg hdigit] at h
    by_cases hlower : 97 ≤ c.toNat ∧ c.toNat ≤ 102
    · rw [if_pos hlower] at h
      cases h
      rw [toInt_of_lt (by omega), if_neg (by omega), if_pos (by omega)]
      exact congrArg (fun b => Step.next (_, b)) (letter_bits hlower.1 _)
    · rw [if_neg hlower] at h
      by_cases hupper : 65 ≤ c.toNat ∧ c.toNat ≤ 70
      · rw [if_pos hupper] at h
        cases h
        rw [toInt_of_lt (by omega), if_neg (by omega), if_neg (by omega), if_pos (by omega)]
        exact congrArg (fun b => Step.next (_, b)) (letter_bits hupper.1 _)
      · rw [if_neg hupper] at h
        cases h

theorem toInt_eq_lf (c : Byte) : c.toInt = 10 ↔ c = 10 := @BitVec.toInt_inj 8 c 10

theorem toInt_eq_cr (c : Byte) : c.toInt = 13 ↔ c = 13 := @BitVec.toInt_inj 8 c 13

theorem toInt_eq_semicolon (c : Byte) : c.toInt = 59 ↔ c = 59 := @BitVec.toInt_inj 8 c 59

theorem chunkSizeCase_other {c : Byte} (h : hexDigit c = none) (v : Uint) :
    chunkSizeCase v c.toInt =
      if c = 59 then .next (.extension, v)
      else if c = 13 then .next (.cr, v)
      else if c = 10 then .halt (some v)
      else .halt none := by
  have hlow : ¬(48 ≤ c.toInt ∧ c.toInt ≤ 57) ∧ ¬(97 ≤ c.toInt ∧ c.toInt ≤ 102) ∧
      ¬(65 ≤ c.toInt ∧ c.toInt ≤ 70) := by
    have hlt := c.isLt
    unfold hexDigit at h
    rw [BitVec.toInt_eq_toNat_cond]
    split at h
    · cases h
    · split at h
      · cases h
      · split at h
        · cases h
        · split
          · omega
          · omega
  unfold chunkSizeCase chunkCrCase
  rw [if_neg hlow.1, if_neg hlow.2.1, if_neg hlow.2.2]
  rw [ite_congr (propext (toInt_eq_semicolon c)) (fun _ => rfl) (fun _ => rfl)]
  rw [ite_congr (propext (toInt_eq_cr c)) (fun _ => rfl) (fun _ => rfl)]
  by_cases hlf : c = 10
  · rw [if_pos ((toInt_eq_lf c).mpr hlf), if_pos ((toInt_eq_lf c).mpr hlf), if_pos hlf]
  · rw [if_neg (fun h => hlf ((toInt_eq_lf c).mp h)), if_neg hlf]

/-! ## The line -/

/-- The digits of a line, and what stands behind them. -/
def sizeDigits (line : List Byte) : List Byte := line.takeWhile isHex

def sizeTail (line : List Byte) : List Byte := line.dropWhile isHex

/-- Behind the digits comes an extension or nothing, and CR is only at the end. -/
def TailOk (t : List Byte) : Prop := (∀ c ∈ t.head?, c = 59 ∨ c = 13) ∧ 13 ∉ t.dropLast

instance decidableTailOk (t : List Byte) : Decidable (TailOk t) :=
  inferInstanceAs (Decidable (_ ∧ _))

theorem feed_digits {ds : List Byte} (hds : ∀ c ∈ ds, isHex c = true) (v : Nat) (l : List Byte) :
    feed chunkTurn (.size, BitVec.ofNat 32 v) (chars (ds ++ l)) =
      feed chunkTurn (.size, BitVec.ofNat 32 (hexValue v ds)) (chars l) := by
  induction ds generalizing v with
  | nil => rfl
  | cons c ds ih =>
    obtain ⟨d, hd⟩ := Option.isSome_iff_exists.mp (hds c List.mem_cons_self)
    have hturn : chunkTurn (.size, BitVec.ofNat 32 v) c.toInt = .next (.size, BitVec.ofNat 32 (16 * v + d)) :=
      chunkSizeCase_digit hd v
    show feed chunkTurn _ (c.toInt :: chars (ds ++ l)) = _
    rw [feed_cons_next _ hturn, ih (fun c hc => hds c (List.mem_cons_of_mem _ hc)), hexValue_cons, hd]
    rfl

theorem feed_cr (c : Byte) (l : List Byte) (v : Uint) :
    feed chunkTurn (.cr, v) (chars (c :: l)) = .halt (if c = 10 then some v else none, chars l) := by
  have hturn : chunkTurn (.cr, v) c.toInt = .halt (if c = 10 then some v else none) := by
    show chunkCrCase v c.toInt = _
    unfold chunkCrCase
    rw [ite_congr (propext (toInt_eq_lf c)) (fun _ => rfl) (fun _ => rfl)]
    split
    · rfl
    · rfl
  exact feed_cons_halt _ hturn

theorem chunkExtensionCase_eq (v : Uint) {c : Byte} (h : c ≠ 10) :
    chunkTurn (.extension, v) c.toInt = .next (if c = 13 then .cr else .extension, v) := by
  show chunkExtensionCase v c.toInt = _
  unfold chunkExtensionCase
  rw [ite_congr (propext (toInt_eq_cr c)) (fun _ => rfl) (fun _ => rfl)]
  rw [if_neg (fun hc => h ((toInt_eq_lf c).mp hc))]
  split
  · rfl
  · rfl

theorem cr_within_cons {c : Byte} (h : c ≠ 13) {t : List Byte} :
    13 ∈ (c :: t).dropLast ↔ 13 ∈ t.dropLast := by
  cases t with
  | nil => rfl
  | cons c' t =>
    rw [List.dropLast_cons_cons, List.mem_cons]
    exact or_iff_right fun hc => h hc.symm

theorem cr_within (c : Byte) (t : List Byte) : 13 ∈ ((13 : Byte) :: c :: t).dropLast := by
  rw [List.dropLast_cons_cons]
  exact List.mem_cons_self

/-- An extension ends with the line, and in error where CR stands within it. -/
theorem feed_extension {t : List Byte} (hlf : 10 ∉ t) (rest : List Byte) (v : Uint) :
    ∃ q, feed chunkTurn (.extension, v) (chars (t ++ 10 :: rest)) =
        .halt (if 13 ∈ t.dropLast then none else some v, q) ∧ (13 ∉ t.dropLast → q = chars rest) := by
  induction t with
  | nil => exact ⟨chars rest, rfl, fun _ => rfl⟩
  | cons c t ih =>
    have hc : c ≠ 10 := fun h => hlf (by rw [h]; exact List.mem_cons_self)
    have ht : 10 ∉ t := fun h => hlf (List.mem_cons_of_mem _ h)
    show ∃ q, feed chunkTurn _ (c.toInt :: chars (t ++ 10 :: rest)) = _ ∧ _
    rw [feed_cons_next _ (chunkExtensionCase_eq v hc)]
    by_cases hcr : c = 13
    · rw [if_pos hcr]
      cases t with
      | nil => exact ⟨chars rest, rfl, fun _ => rfl⟩
      | cons c' t =>
        have hc' : c' ≠ 10 := fun h => ht (by rw [h]; exact List.mem_cons_self)
        rw [hcr]
        refine ⟨chars (t ++ 10 :: rest), ?_, fun h => absurd (cr_within c' t) h⟩
        rw [if_pos (cr_within c' t), List.cons_append, feed_cr, if_neg hc']
    · rw [if_neg hcr]
      rw [ite_congr (propext (cr_within_cons hcr)) (fun _ => rfl) (fun _ => rfl), cr_within_cons hcr]
      exact ih ht

/-- **What the machine makes of a line.** -/
theorem feed_sizeLine {line : List Byte} (hlf : 10 ∉ line) (rest : List Byte) :
    ∃ q, feed chunkTurn (.size, 0) (chars (line ++ 10 :: rest)) =
        .halt (if TailOk (sizeTail line) then some (BitVec.ofNat 32 (hexValue 0 (sizeDigits line))) else none, q) ∧
      (TailOk (sizeTail line) → q = chars rest) := by
  have hline : line ++ 10 :: rest = sizeDigits line ++ (sizeTail line ++ 10 :: rest) := by
    rw [← List.append_assoc]
    exact congrArg (· ++ 10 :: rest) List.takeWhile_append_dropWhile.symm
  have hds : ∀ c ∈ sizeDigits line, isHex c = true := List.all_eq_true.mp List.all_takeWhile
  have hlf' : 10 ∉ sizeTail line := fun h => hlf ((List.dropWhile_suffix _).subset h)
  rw [hline, show (0 : Uint) = BitVec.ofNat 32 0 from rfl, feed_digits hds]
  generalize BitVec.ofNat 32 (hexValue 0 (sizeDigits line)) = v
  have hhead : ∀ c ∈ (sizeTail line).head?, hexDigit c = none := by
    intro c hc
    have hnot := List.head?_dropWhile_not isHex line
    rw [show (line.dropWhile isHex).head? = some c from hc] at hnot
    exact Option.not_isSome_iff_eq_none.mp (Bool.eq_false_iff.mp hnot)
  generalize sizeTail line = t at hlf' hhead
  cases t with
  | nil => exact ⟨chars rest, rfl, fun _ => rfl⟩
  | cons c t =>
    have hc : c ≠ 10 := fun h => hlf' (by rw [h]; exact List.mem_cons_self)
    have ht : 10 ∉ t := fun h => hlf' (List.mem_cons_of_mem _ h)
    have hturn : chunkTurn (.size, v) c.toInt = _ := chunkSizeCase_other (hhead c rfl) v
    by_cases hext : c = 59
    · have hok : TailOk (c :: t) ↔ 13 ∉ t.dropLast := by
        rw [TailOk, cr_within_cons (by rw [hext]; decide)]
        refine and_iff_right fun d hd => .inl ?_
        rw [← hext]
        exact (Option.some.inj hd).symm
      rw [if_pos hext] at hturn
      obtain ⟨q, hq, hrest⟩ := feed_extension ht rest v
      refine ⟨q, ?_, fun h => hrest (hok.mp h)⟩
      rw [ite_congr (propext hok) (fun _ => rfl) (fun _ => rfl), ite_not, ← hq]
      exact feed_cons_next _ hturn
    · rw [if_neg hext] at hturn
      by_cases hcr : c = 13
      · rw [if_pos hcr] at hturn
        rw [show chars (c :: t ++ 10 :: rest) = c.toInt :: chars (t ++ 10 :: rest) from rfl,
          feed_cons_next _ hturn, hcr]
        cases t with
        | nil => exact ⟨chars rest, rfl, fun _ => rfl⟩
        | cons c' t =>
          have hc' : c' ≠ 10 := fun h => ht (by rw [h]; exact List.mem_cons_self)
          have hok : ¬TailOk (13 :: c' :: t) := fun h => h.2 (cr_within c' t)
          refine ⟨chars (t ++ 10 :: rest), ?_, fun h => absurd h hok⟩
          rw [if_neg hok, List.cons_append, feed_cr, if_neg hc']
      · rw [if_neg hcr, if_neg hc] at hturn
        have hok : ¬TailOk (c :: t) := fun h => (h.1 c rfl).elim hext hcr
        refine ⟨chars (t ++ 10 :: rest), ?_, fun h => absurd h hok⟩
        rw [if_neg hok]
        exact feed_cons_halt _ hturn

/-! ## The scan -/

/-- What the outcome of the machine is for the scan. -/
def scanned (i : Iobuf) : Step (ChunkState × Uint) (Option Uint × List Int) → ChunkScan
  | .next _ => .more
  | .halt (none, _) => .error
  | .halt (some val, rest) => .line val (i.take (i.used - rest.length))

theorem Iobuf.contents_eq_cons {i : Iobuf} (h : i.Valid) {n : Nat} (hn : i.used = n + 1) :
    i.contents = i.at i.read :: (i.take 1).contents := by
  have hle : 1 ≤ i.used := by omega
  rw [Iobuf.contents_take h.size hle, Iobuf.contents, hn, Ring.cells_succ, Iobuf.at, h.size.and_mask]
  rfl

theorem scanned_take {i : Iobuf} (hused : 1 ≤ i.used) {x : ChunkState × Uint} :
    scanned (i.take 1) (feed chunkTurn x (chars (i.take 1).contents)) =
      scanned i (feed chunkTurn x (chars (i.take 1).contents)) := by
  cases hfeed : feed chunkTurn x (chars (i.take 1).contents) with
  | next x => rfl
  | halt r =>
    obtain ⟨val, rest⟩ := r
    cases val with
    | none => rfl
    | some val =>
      obtain ⟨p, c, -, hsplit, -, -⟩ := feed_halt hfeed
      have hlen := congrArg List.length hsplit
      have hused' := Iobuf.used_take hused
      rw [chars, List.length_map, Iobuf.length_contents, List.length_append, List.length_cons] at hlen
      show ChunkScan.line val ((i.take 1).take ((i.take 1).used - rest.length)) = .line val (i.take (i.used - rest.length))
      rw [Iobuf.take_take]
      congr 2
      omega

theorem Iobuf.read_lt_write {i : Iobuf} (hle : i.read ≤ i.write) (hused : 0 < i.used) : i.read < i.write := by
  rw [BitVec.lt_def]
  rw [BitVec.le_def] at hle
  refine Nat.lt_of_le_of_ne hle fun heq => ?_
  rw [Iobuf.used, minuteIobufUsed, BitVec.eq_of_toNat_eq heq, BitVec.sub_self] at hused
  exact absurd hused (Nat.lt_irrefl 0)

/-- **The scan is the machine** on the bytes held, where `write` is not behind `read`. -/
theorem chunkScan_eq {i : Iobuf} (h : i.Valid) (hle : i.read ≤ i.write) (x : ChunkState × Uint) :
    chunkScan i x i.used = scanned i (feed chunkTurn x (chars i.contents)) := by
  have hn : ∃ n, i.used = n := ⟨_, rfl⟩
  obtain ⟨n, hn⟩ := hn
  rw [hn]
  induction n generalizing i x with
  | zero =>
    have hnil : i.contents = [] := List.eq_nil_of_length_eq_zero (by rw [Iobuf.length_contents, hn])
    rw [hnil]
    rfl
  | succ n ih =>
    have hlt := Iobuf.read_lt_write hle (by omega)
    have hle' : (i.take 1).read ≤ (i.take 1).write := by
      rw [BitVec.lt_def] at hlt
      have hw := i.write.isLt
      rw [BitVec.le_def]
      show (i.read + 1).toNat ≤ i.write.toNat
      rw [BitVec.toNat_add]
      show (_ + 1) % _ ≤ _
      omega
    have hused : (i.take 1).used = n := by
      rw [Iobuf.used_take (by omega), hn, Nat.add_sub_cancel]
    rw [chunkScan, if_pos hlt, Iobuf.contents_eq_cons h hn]
    show _ = scanned i (feed chunkTurn x ((i.at i.read).toInt :: chars (i.take 1).contents))
    cases hturn : chunkTurn x (i.at i.read).toInt with
    | next y =>
      rw [feed_cons_next _ hturn, ← scanned_take (by omega)]
      dsimp only
      rw [if_neg (fun heq => by rw [heq] at hlt; exact absurd hlt (BitVec.lt_irrefl _))]
      exact ih (Iobuf.valid_take h (by omega)) hle' y hused
    | halt r =>
      rw [feed_cons_halt _ hturn]
      cases r with
      | none => rfl
      | some val =>
        have hone : i.used - (chars (i.take 1).contents).length = 1 := by
          rw [chars, List.length_map, Iobuf.length_contents, hused, hn, Nat.add_sub_cancel_left]
        show _ = ChunkScan.line val (i.take (i.used - _))
        rw [hone]
        rfl

theorem chunkScan_behind {i : Iobuf} (h : ¬i.read ≤ i.write) (x : ChunkState × Uint) (turns : Nat) :
    chunkScan i x turns = .more := by
  cases turns with
  | zero => rfl
  | succ turns =>
    rw [chunkScan, if_neg]
    rw [BitVec.le_def] at h
    rw [BitVec.lt_def]
    omega

/-! ## In the loop -/

/-- Where the scan begins. -/
def sizeState (pending : Int) : ChunkState × Uint := (if pending = 0 then .previous else .size, 0)

/-- The scan that `minute_httpd_in_read` makes where a chunk's size is pending. -/
def sizeScan (s : HttpdResponse) : ChunkScan :=
  chunkScan s.state.input (sizeState s.pending) (s.state.input.write - s.state.input.read).toNat

/-- How `minute_httpd_in_read` goes on behind the scan. -/
def sizeTurn (copy : Bool) (count : Uint) (turns : Nat) : ChunkScan → Httpd (Int × List Byte)
  | .error => do
    setPending pendingError
    breakBody
  | .line val io => do
    modify fun resp => { resp with state.input := io }
    if val = 0 then readTrailers
    else do
      setPending val.toInt
      inReadLoop copy count turns true
  | .more => do
    let rfd ← readfd
    let resp ← get
    if rfd = 0 ∧ resp.state.input.eof then
      setPending pendingEof
      pure (0, [])
    else inReadLoop copy count turns false

variable {s : HttpdResponse}

theorem inReadLoop_size (hchunked : hasFlag s.rq.flags httpTransferChunked = true)
    (hpending : s.pending = 0 ∨ s.pending = pendingInit) (copy : Bool) (count : Uint) (turns : Nat)
    (entry : Bool) :
    inReadLoop copy count (turns + 1) entry s = sizeTurn copy count turns (sizeScan s) s := by
  have hinit : pendingInit = -1 := rfl
  have heof : pendingEof = -2 := rfl
  rw [inReadLoop, get_bind]
  dsimp only
  rw [if_neg (fun h => by omega), if_neg (by omega), if_pos hchunked]
  unfold sizeScan sizeState
  cases chunkScan s.state.input (if s.pending = 0 then .previous else .size, 0)
      (s.state.input.write - s.state.input.read).toNat with
  | more => rfl
  | line val io => rfl
  | error => rfl

/-- What stands before the line: the end of the line before, or nothing before the first one. -/
def SizeStart (pending : Int) (start : List Byte) : Prop :=
  pending = pendingInit ∧ start = [] ∨ pending = 0 ∧ (start = crlf ∨ start = [10])

theorem feed_start {pending : Int} {start : List Byte} (h : SizeStart pending start) (l : List Byte) :
    feed chunkTurn (sizeState pending) (chars (start ++ l)) =
      feed chunkTurn (.size, 0) (chars l) := by
  obtain ⟨rfl, rfl⟩ | ⟨rfl, rfl | rfl⟩ := h
  · rfl
  · rfl
  · rfl

/-- A size is what the digits say, and what is in error, or not all there yet, is not taken for one. -/
def SizeRight (start line : List Byte) (s : HttpdResponse) : Prop :=
  match sizeScan s with
  | .line val _ => sizeDigits line ≠ [] ∧ val.toInt = hexValue 0 (sizeDigits line)
  | .error => True
  | .more => s.state.input.used ≤ (start ++ line).length

theorem toInt_ofNat_eq_iff (v : Nat) : (BitVec.ofNat 32 v).toInt = v ↔ v < 2 ^ 31 := by
  rw [BitVec.toInt_eq_toNat_cond, BitVec.toNat_ofNat]
  split
  · omega
  · omega

theorem chunkTurn_halt_some {x : ChunkState × Uint} {c : Int} {val : Uint}
    (h : chunkTurn x c = .halt (some val)) : c = 10 := by
  obtain ⟨cs, v⟩ := x
  by_contra hc
  cases cs with
  | previous => grind [chunkTurn, chunkPreviousCase, chunkPreviousCrCase]
  | previousCr => grind [chunkTurn, chunkPreviousCrCase]
  | size => grind [chunkTurn, chunkSizeCase, chunkCrCase]
  | extension => grind [chunkTurn, chunkExtensionCase, chunkCrCase]
  | cr => grind [chunkTurn, chunkCrCase]

theorem feed_no_lf {w : List Byte} (hlf : 10 ∉ w) {x : ChunkState × Uint} {val : Uint} {q : List Int} :
    feed chunkTurn x (chars w) ≠ .halt (some val, q) := by
  intro h
  obtain ⟨p, c, y, hsplit, -, hturn⟩ := feed_halt h
  have hmem : c ∈ chars w := by
    rw [hsplit]
    exact List.mem_append_right _ List.mem_cons_self
  obtain ⟨b, hb, hbc⟩ := List.mem_map.mp hmem
  rw [chunkTurn_halt_some hturn] at hbc
  rw [(toInt_eq_lf b).mp hbc] at hb
  exact hlf hb

section

variable {start line rest : List Byte} (hvalid : s.state.input.Valid) (hstart : SizeStart s.pending start)
  (hlf : 10 ∉ line)
include hvalid

theorem sizeScan_eq (hle : s.state.input.read ≤ s.state.input.write) :
    sizeScan s = scanned s.state.input
      (feed chunkTurn (sizeState s.pending) (chars s.state.input.contents)) :=
  chunkScan_eq hvalid hle _

include hstart hlf

/-- Of a line that is not all there, nothing is taken. -/
theorem sizeRight_part (hheld : s.state.input.contents <+: start ++ line) : SizeRight start line s := by
  obtain ⟨q, hq⟩ := hheld
  have hused : s.state.input.used ≤ (start ++ line).length := by
    rw [← hq, List.length_append, Iobuf.length_contents]
    exact Nat.le_add_right _ _
  unfold SizeRight
  by_cases hle : s.state.input.read ≤ s.state.input.write
  · rw [sizeScan_eq hvalid hle]
    cases hfeed : feed chunkTurn (sizeState s.pending) (chars s.state.input.contents) with
    | next x => exact hused
    | halt r =>
      obtain ⟨val, l⟩ := r
      cases val with
      | none => trivial
      | some val =>
        exfalso
        have happ := feed_append_halt (chars q) hfeed
        rw [← chars_append, hq, feed_start hstart] at happ
        exact feed_no_lf hlf happ
  · rw [sizeScan, chunkScan_behind hle]
    exact hused

theorem sizeRight_whole (hheld : s.state.input.contents = start ++ line ++ 10 :: rest) :
    SizeRight start line s ↔ s.state.input.read < s.state.input.write ∧
      (TailOk (sizeTail line) → sizeDigits line ≠ [] ∧ hexValue 0 (sizeDigits line) < 2 ^ 31) := by
  have hlen : s.state.input.used = (start ++ line).length + (rest.length + 1) := by
    rw [← Iobuf.length_contents, hheld, List.length_append, List.length_cons]
  unfold SizeRight
  by_cases hle : s.state.input.read ≤ s.state.input.write
  · have hlt := Iobuf.read_lt_write hle (by omega)
    obtain ⟨q, hq, -⟩ := feed_sizeLine hlf rest
    rw [sizeScan_eq hvalid hle, hheld, List.append_assoc, feed_start hstart, hq]
    rw [and_iff_right hlt]
    by_cases hok : TailOk (sizeTail line)
    · rw [if_pos hok]
      show _ ∧ (BitVec.ofNat 32 _).toInt = _ ↔ _
      rw [toInt_ofNat_eq_iff]
      exact ⟨fun h _ => h, fun h => h hok⟩
    · rw [if_neg hok]
      exact iff_of_true trivial fun h => absurd h hok
  · rw [sizeScan, chunkScan_behind hle]
    refine iff_of_false ?_ fun h => ?_
    · show ¬s.state.input.used ≤ _
      omega
    · rw [BitVec.le_def] at hle
      have hlt := h.1
      rw [BitVec.lt_def] at hlt
      omega

/-- **Exactly when the size of a chunk is read right**, with any part of the line, and of what follows it,
in the ring: `read` must be below `write`, and of a line that the scan takes for one there must be a digit,
and the size must fit `int`. -/
theorem sizeRight_iff (hchunked : hasFlag s.rq.flags httpTransferChunked = true)
    (hheld : s.state.input.contents <+: start ++ line ++ 10 :: rest) :
    (∀ copy count turns entry,
      inReadLoop copy count (turns + 1) entry s = sizeTurn copy count turns (sizeScan s) s) ∧
    (SizeRight start line s ↔ s.state.input.used ≤ (start ++ line).length ∨
      s.state.input.read < s.state.input.write ∧
        (TailOk (sizeTail line) → sizeDigits line ≠ [] ∧ hexValue 0 (sizeDigits line) < 2 ^ 31)) := by
  have hpending : s.pending = 0 ∨ s.pending = pendingInit := hstart.symm.imp And.left And.left
  refine ⟨inReadLoop_size hchunked hpending, ?_⟩
  by_cases hpart : s.state.input.used ≤ (start ++ line).length
  · have hprefix : s.state.input.contents <+: start ++ line := by
      refine List.prefix_of_prefix_length_le hheld (List.prefix_append _ _) ?_
      rwa [Iobuf.length_contents]
    exact iff_of_true (sizeRight_part hvalid hstart hlf hprefix) (.inl hpart)
  · have hprefix : start ++ line ++ [10] <+: s.state.input.contents := by
      refine List.prefix_of_prefix_length_le ⟨rest, ?_⟩ hheld ?_
      · rw [List.append_assoc]
        rfl
      · rw [Iobuf.length_contents, List.length_append, List.length_singleton]
        omega
    obtain ⟨rest', hrest⟩ := hprefix
    rw [or_iff_right hpart]
    refine @sizeRight_whole s start line rest' hvalid hstart hlf ?_
    rw [← hrest, List.append_assoc]
    rfl

end

/-- A chunked request of whose body `text` is in a ring of 64 bytes. -/
def chunkedHolding (text : String) (pending : Int) : HttpdResponse :=
  let s := HttpdResponse.init { connected "" with input := Iobuf.holding 64 (bytes text) }
  { s with rq.flags := BitVec.ofNat 32 httpTransferChunked, pending }

theorem sizeRight_hex : SizeRight crlf (bytes "1a;x=y\r") (chunkedHolding "\r\n1a;x=y\r\nabc" 0) :=
  (@sizeRight_iff (chunkedHolding "\r\n1a;x=y\r\nabc" 0) crlf (bytes "1a;x=y\r") (bytes "abc")
    (Iobuf.valid_of 6 (by decide) rfl (by decide)) (.inr ⟨rfl, .inl rfl⟩) (by decide) (by decide)
    ⟨[], by decide⟩).2.mpr (.inr (by decide))

/-- The size `2 ^ 32 + 3` is taken for three bytes, and a line without digits for the last chunk. -/
theorem size_misread :
    (∃ s', minuteHttpdInRead true 16 (chunkedHolding "100000003\r\nabcdef" pendingInit) =
      .ok ((3, bytes "abc"), s')) ∧
    ¬SizeRight [] (bytes "100000003\r") (chunkedHolding "100000003\r\nabcdef" pendingInit) ∧
    (∃ s', minuteHttpdInRead true 16 (chunkedHolding ";x\r\n\r\n\n" pendingInit) = .ok ((0, []), s')) ∧
    ¬SizeRight [] (bytes ";x\r") (chunkedHolding ";x\r\n\r\n\n" pendingInit) := by
  have hthree : accepts (fun x => decide (x.1 = (3, bytes "abc")))
      (minuteHttpdInRead true 16 (chunkedHolding "100000003\r\nabcdef" pendingInit)) = true := by
    decide +kernel
  have hlast : accepts (fun x => decide (x.1 = (0, [])))
      (minuteHttpdInRead true 16 (chunkedHolding ";x\r\n\r\n\n" pendingInit)) = true := by
    decide +kernel
  obtain ⟨⟨x, s₁⟩, hs₁, hx⟩ := accepts_iff.mp hthree
  obtain ⟨⟨y, s₂⟩, hs₂, hy⟩ := accepts_iff.mp hlast
  rw [← of_decide_eq_true hx, ← of_decide_eq_true hy]
  refine ⟨⟨s₁, hs₁⟩, fun h => ?_, ⟨s₂, hs₂⟩, fun h => ?_⟩
  · have hval : ((3 : Uint).toInt : Int) = hexValue 0 (sizeDigits (bytes "100000003\r")) := h.2
    exact absurd hval (by decide)
  · exact h.1 (by decide)

end MinuteHttp
