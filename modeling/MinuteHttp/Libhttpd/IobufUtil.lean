import MinuteHttp.Libhttp.Iobuf

/-!
# Rings and descriptors (`libhttpd/iobuf-util.c`)

Of the peer there is what it sends and how the calls on the two descriptors end. A `readv` of some free
bytes fails, or delivers at least one byte of what is to come, or finds the end of it. A `write` or
`writev` fails, or accepts some of the bytes offered; a descriptor that was closed accepts none.
-/

namespace MinuteHttp

open Block

/-- The descriptor that is read. `cuts` is how the coming calls end: `none` is an error, and `some k` at
most `k + 1` bytes; after these a call delivers all there is room for. -/
structure Infd where
  stream : List Byte
  cuts : List (Option Nat)

/-- `readv` into `n` bytes; `none` is the return value -1. -/
def Infd.readv (fd : Infd) (n : Nat) : Option (List Byte) × Infd :=
  match fd.cuts with
  | [] => (some (fd.stream.take n), { fd with stream := fd.stream.drop n })
  | none :: cuts => (none, { fd with cuts })
  | some k :: cuts => (some (fd.stream.take (min (k + 1) n)), ⟨fd.stream.drop (min (k + 1) n), cuts⟩)

/-- The descriptor that is written. `cuts` is how the coming calls end: `none` is an error, and `some k`
at most `k` bytes; after these all is accepted. `sent` is what has been accepted so far. -/
structure Outfd where
  isOpen : Bool
  cuts : List (Option Nat)
  sent : List Byte

/-- `write`, or `writev` of segments that are `bs` together. -/
def Outfd.write (bs : List Byte) (fd : Outfd) : Int × Outfd :=
  if fd.isOpen = false then (-1, fd)
  else
    match fd.cuts with
    | [] => (bs.length, { fd with sent := fd.sent ++ bs })
    | none :: cuts => (-1, { fd with cuts })
    | some k :: cuts => ((bs.take k).length, { fd with cuts, sent := fd.sent ++ bs.take k })

/-- `close (outfd); outfd = -1;` -/
def Outfd.close (fd : Outfd) : Outfd := { fd with isOpen := false }

/-- `minute_iobuf_readfd`: the return value, and what the call leaves. Its `r` is unsigned, so the test
for an error never holds, and an error moves `write` as if it were a count. -/
def minuteIobufReadfd (fd : Infd) (io : Iobuf) : Int × Infd × Iobuf :=
  let b := io.read
  let e := io.write
  let bi := b &&& io.mask
  let ei := e &&& io.mask
  let len₀ := (if bi > ei then bi - ei else io.mask + 1 - ei).toNat
  let len₁ := (if bi > ei then 0 else bi).toNat
  if b ≠ e ∧ ei = bi then (-1, fd, io)
  else
    match fd.readv (len₀ + len₁) with
    | (none, fd) => (-1, fd, { io with write := e - 1 })
    | (some [], fd) => (0, fd, { io with flags := io.flags ||| iobufEof })
    | (some bs, fd) =>
      let data := blit (blit io.data ei.toNat (bs.take len₀)) 0 (bs.drop len₀)
      (bs.length, fd, { io with data, write := e + BitVec.ofNat 32 bs.length })

/-- `minute_iobuf_gather`: the bytes of the two segments, which the caller has zeroed. -/
def minuteIobufGather (io : Iobuf) : List Byte × List Byte :=
  let b := io.read
  let e := io.write
  let bi := (b &&& io.mask).toNat
  let ei := (e &&& io.mask).toNat
  if e > b then
    (slice io.data bi (if bi < ei then ei - bi else io.size - bi),
     slice io.data 0 (if bi < ei then 0 else ei))
  else ([], [])

/-- `minute_iobuf_printf` of a text. A text longer than the ring is cut by `vsnprintf`, but its length is
not, so it is refused all the same. -/
def minuteIobufPrintf (text : List Byte) (io : Iobuf) : Option (Int × Iobuf) := minuteIobufWrite text io

end MinuteHttp
