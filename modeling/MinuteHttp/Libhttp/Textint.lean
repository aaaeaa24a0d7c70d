import MinuteHttp.Libhttp.Iobuf

/-!
# The double-headed text/integer buffer (`libhttp/textint.c`)

Characters grow up from offset 0, integers (four bytes each, little-endian) grow down from `size`,
all in one block. A put that is refused returns 0 in C and is `none` here; it changes nothing.
-/

namespace MinuteHttp

open Block

structure Textint where
  text : Uint
  ints : Uint
  size : Uint
  data : Nat → Byte

def minuteTextintInit (size : Uint) (data : Nat → Byte) : Textint := ⟨0, size, size, data⟩

def minuteTextintClear (t : Textint) : Textint := { t with text := 0, ints := t.size }

def minuteTextintTextsize (t : Textint) : Uint := t.text

def minuteTextintIntsize (t : Textint) : Uint := (t.size - t.ints) / 4

/-- `((int*)data)[k]`, from its four bytes. -/
def loadInt (data : Nat → Byte) (k : Nat) : Uint :=
  data (4 * k + 3) ++ data (4 * k + 2) ++ data (4 * k + 1) ++ data (4 * k)

/-- `((int*)data)[k] = i` -/
def storeInt (data : Nat → Byte) (k : Nat) (i : Uint) : Nat → Byte := fun a =>
  if a / 4 = k then i.extractLsb' (8 * (a % 4)) 8 else data a

/-- `minute_textint_putc` -/
def minuteTextintPutc (c : Byte) (t : Textint) : Option Textint :=
  let lo := t.text
  let hi := t.ints
  if lo ≥ hi then none
  else some { t with data := blit t.data lo.toNat [c], text := t.text + 1 }

/-- `minute_textint_puti` -/
def minuteTextintPuti (i : Uint) (t : Textint) : Option Textint :=
  let lo := t.text
  let hi := t.ints - 4
  if lo ≥ hi then none
  else some { t with data := storeInt t.data (hi / 4).toNat i, ints := t.ints - 4 }

/-- `minute_textint_geti` -/
def minuteTextintGeti (offset : Int) (t : Textint) : Uint :=
  let o := (if offset < 0 then t.ints else t.size) / 4 - 1
  loadInt t.data (o - BitVec.ofInt 32 offset).toNat

/-- `minute_textint_gets`: the offset of the character pointed to. -/
def minuteTextintGets (offset : Int) (t : Textint) : Uint :=
  (if offset < 0 then t.text else 0) + BitVec.ofInt 32 offset

/-- `minute_textint_replacec` -/
def minuteTextintReplacec (offset : Int) (c : Byte) (t : Textint) : Textint :=
  let o := if offset < 0 then t.text else 0
  { t with data := blit t.data (o + BitVec.ofInt 32 offset).toNat [c] }

/-- `minute_textint_replacei` -/
def minuteTextintReplacei (offset : Int) (i : Uint) (t : Textint) : Textint :=
  let o := (if offset < 0 then t.ints else t.size) / 4 - 1
  { t with data := storeInt t.data (o - BitVec.ofInt 32 offset).toNat i }

end MinuteHttp
