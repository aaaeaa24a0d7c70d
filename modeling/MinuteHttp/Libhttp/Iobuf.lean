import MinuteHttp.Lib.Block
import Mathlib.Algebra.Order.Ring.Int

/-!
# The input/output ring buffer (`libhttp/iobuf.c`)

`read` and `write` are absolute 32-bit indices that only grow and wrap at `2 ^ 32`; an access is
masked. Of the data block the ring owns the offsets up to `mask`. A copy that leaves the block it copies
from or to is undefined in C; such a call has no result here (`none`).
-/

namespace MinuteHttp

open Block

/-- `char`: eight bits. Where C promotes one to `int` it is signed, so that is `BitVec.toInt`. -/
abbrev Byte := BitVec 8

/-- `unsigned`: thirty-two bits, wrapping. -/
abbrev Uint := BitVec 32

structure Iobuf where
  read : Uint
  write : Uint
  mask : Uint
  flags : Uint
  data : Nat → Byte

/-- `IOBUF_EOF` -/
def iobufEof : Uint := 1

/-- `io->flags & IOBUF_EOF` -/
def Iobuf.eof (io : Iobuf) : Bool := decide (io.flags &&& iobufEof ≠ 0)

/-- `mask + 1`, the number of bytes of the data block. -/
def Iobuf.size (io : Iobuf) : Nat := io.mask.toNat + 1

/-- `buf[i&mask]` -/
def Iobuf.at (io : Iobuf) (i : Uint) : Byte := io.data (i &&& io.mask).toNat

def minuteIobufUsed (io : Iobuf) : Uint := io.write - io.read

def minuteIobufFree (io : Iobuf) : Uint := io.mask + 1 - minuteIobufUsed io

def minuteIobufInit (size : Uint) (data : Nat → Byte) : Iobuf := ⟨0, 0, size - 1, 0, data⟩

def minuteIobufClear (io : Iobuf) : Iobuf := { io with read := 0, write := 0 }

/-- The bytes of a string literal, without its NUL. -/
def bytes (s : String) : List Byte := s.toList.map fun c => BitVec.ofNat 8 c.toNat

/-- A ring of `size` bytes that holds `w` from index 0 on. -/
def Iobuf.holding (size : Uint) (w : List Byte) : Iobuf :=
  { minuteIobufInit size (fun i => w.getD i 0) with write := BitVec.ofNat 32 w.length }

/-! ## Operations -/

/-- `minute_iobuf_put`; `none` is the return value 0, which leaves the buffer as it is. -/
def minuteIobufPut (c : Byte) (io : Iobuf) : Option Iobuf :=
  let r := io.read
  let w := io.write
  let ri := r &&& io.mask
  let wi := w &&& io.mask
  if r < w ∧ ri = wi then none
  else some { io with data := blit io.data wi.toNat [c], write := w + 1 }

/-- `minute_iobuf_write` of the block `src`: the return value and the buffer. -/
def minuteIobufWrite (src : List Byte) (io : Iobuf) : Option (Int × Iobuf) :=
  let sz := BitVec.ofNat 32 src.length
  let b := io.read
  let e := io.write
  let ne := e + sz
  let ei := e &&& io.mask
  let nei := ne &&& io.mask
  if ne - b > io.mask + 1 then some (-1, io)
  else if nei > ei then do
    let d ← memcpyIn io.size io.data ei.toNat src 0 sz.toNat
    some (sz.toInt, { io with data := d, write := ne })
  else do
    let split := io.mask + 1 - ei
    let d ← memcpyIn io.size io.data ei.toNat src 0 split.toNat
    let d ← memcpyIn io.size d 0 src split.toNat (sz - split).toNat
    some (sz.toInt, { io with data := d, write := ne })

/-- `minute_iobuf_read` of at most `sz` bytes: the bytes copied out (the return value is their
number) and the buffer. -/
def minuteIobufRead (sz : Uint) (io : Iobuf) : Option (List Byte × Iobuf) :=
  let b := io.read
  let e := if io.write - b > sz then b + sz else io.write
  let l := e - b
  let bi := b &&& io.mask
  let ei := e &&& io.mask
  if ei < bi then do
    let tail := io.mask + 1 - bi
    let x ← memcpyOut io.size io.data bi.toNat tail.toNat
    let y ← memcpyOut io.size io.data 0 (l - tail).toNat
    some (x ++ y, { io with read := e })
  else if l ≠ 0 then do
    let x ← memcpyOut io.size io.data bi.toNat l.toNat
    some (x, { io with read := e })
  else some ([], { io with read := e })

end MinuteHttp
