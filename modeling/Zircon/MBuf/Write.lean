import Zircon.MBuf.Basic

/-! `WriteStream` and `WriteDatagram` (`object/mbuf.cc`). A stream write fills the last cell, then
as many new cells as the rest needs, and keeps what it copied before a fault. A datagram write
copies into new cells only, and splices them onto the chain once every copy has succeeded. -/

namespace Zircon.MBufChain

variable (P : PageSize)

/-- The locals of a write (`pos`), the chain's `size_`, and the calls made so far. -/
structure WriteState where
  pos : Nat
  size : Nat
  events : List Event
  wraps : Bool

/-- `copy_len = min(buf.rem(), len - pos)` of `write_buffer`. -/
def writeLen (len : Nat) (buf : MBuf) (s : WriteState) : Nat := min (buf.rem P) (len - s.pos)

/-- `src.byte_offset(pos).copy_array_from_user(buf.data_ + buf.len_, copy_len)`. -/
def writeEvent (src : UserIn) (len : Nat) (buf : MBuf) (s : WriteState) : Event :=
  .copyFromUser s.pos buf.page_ buf.len_ (writeLen P len buf s) (src.copy s.pos (writeLen P len buf s))

/-- `write_buffer(buf)`: `copy_len` bytes from `src + pos` go to `buf.data_ + buf.len_`; on
success `pos`, `len_` and `size_` move past them. -/
def writeBuffer (src : UserIn) (len : Nat) (buf : MBuf) (s : WriteState) :
    Status × MBuf × WriteState :=
  let n := writeLen P len buf s
  let status := src.copy s.pos n
  let s := { s with
    events := s.events ++ [writeEvent P src len buf s]
    wraps := s.wraps || decide (MBuf.kPayloadSize P < buf.len_) }
  if status = .ok then
    (.ok, buf.copyIn buf.len_ src.bytes s.pos n,
      { s with
        pos := s.pos + n
        size := s.size + n
        wraps := s.wraps || decide (2 ^ 32 ≤ buf.len_ + n) })
  else (status, buf, s)

/-- The first step of `WriteStream`: `write_buffer` on the last cell if it has room. The `size_t`
`rem()` of a cell holding more than `kPayloadSize` bytes wraps, and the code would write into it;
that shows as `wraps`. -/
def fillTail (src : UserIn) (len : Nat) (buffers : List MBuf) (s : WriteState) :
    Status × List MBuf × WriteState :=
  match buffers.getLast? with
  | some back =>
    if 0 < back.rem P then
      let w := writeBuffer P src len back s
      (w.1, if w.1 = .ok then buffers.dropLast ++ [w.2.1] else buffers, w.2.2)
    else (.ok, buffers, { s with wraps := s.wraps || decide (MBuf.kPayloadSize P < back.len_) })
  | none => (.ok, buffers, s)

/-- The loop of `WriteStream` over the cells `AllocMBufs` gave: `write_buffer` on the front one,
which then moves to the back of `buffers_`. On a fault the cells still in the list are freed. -/
def fillBuffers (src : UserIn) (len : Nat) :
    List MBuf → List MBuf → WriteState → Status × List MBuf × WriteState
  | buffers, [], s => (.ok, buffers, s)
  | buffers, buf :: bufs, s =>
    if (writeBuffer P src len buf s).1 = .ok then
      fillBuffers src len (buffers ++ [(writeBuffer P src len buf s).2.1]) bufs
        (writeBuffer P src len buf s).2.2
    else
      ((writeBuffer P src len buf s).1, buffers,
        { (writeBuffer P src len buf s).2.2 with
          events := (writeBuffer P src len buf s).2.2.events ++ freeMBufs P (buf :: bufs) })

/-- The status of a stream write that met no fault: `ZX_ERR_SHOULD_WAIT` if nothing was
written. -/
def writtenStatus (pos : Nat) : Status := if pos = 0 then .errShouldWait else .ok

/-- How a write returns: the chain with `buffers` and `size_`, and `*written = pos`. -/
def writeResult (c : MBufChain) (status : Status) (buffers : List MBuf) (s : WriteState) :
    Result :=
  ⟨⟨buffers, c.readCursorOff_, s.size⟩, s.pos, status, s.events, s.wraps⟩

section WriteResult

variable {c : MBufChain} {status : Status} {buffers : List MBuf} {s : WriteState}

@[simp] theorem writeResult_chain :
    (writeResult c status buffers s).chain = ⟨buffers, c.readCursorOff_, s.size⟩ := rfl

@[simp] theorem writeResult_count : (writeResult c status buffers s).count = s.pos := rfl

@[simp] theorem writeResult_status : (writeResult c status buffers s).status = status := rfl

@[simp] theorem writeResult_events : (writeResult c status buffers s).events = s.events := rfl

@[simp] theorem writeResult_wraps : (writeResult c status buffers s).wraps = s.wraps := rfl

end WriteResult

/-- `WriteStream(src, len, written)`: `len` is capped at `kSizeMax - size_`; the last cell is
filled first, then `NumBuffersForPayload(len - pos)` new cells if bytes remain. A fault returns at
once, keeping what was copied before it. -/
def writeStream (c : MBufChain) (allocPages : Nat → Option (List FreshPage)) (src : UserIn)
    (len : Nat) : Result :=
  let len := min (kSizeMax P - c.size_) len
  let t := fillTail P src len c.buffers_ ⟨0, c.size_, [], decide (kSizeMax P < c.size_)⟩
  if t.1 ≠ .ok then writeResult c t.1 t.2.1 t.2.2
  else if t.2.2.pos = len then writeResult c (writtenStatus t.2.2.pos) t.2.1 t.2.2
  else
    let a := allocMBufs P allocPages (MBuf.numBuffersForPayload P (len - t.2.2.pos))
    let s := { t.2.2 with events := t.2.2.events ++ a.2 }
    match a.1 with
    | none => writeResult c (writtenStatus s.pos) t.2.1 s
    | some bufs =>
      let f := fillBuffers P src len t.2.1 bufs s
      writeResult c (if f.1 = .ok then writtenStatus f.2.2.pos else f.1) f.2.1 f.2.2

/-- The copy loop of `WriteDatagram`: each cell in turn gets `min(kPayloadSize, len - pos)` bytes
from `src + pos` at the start of its payload; `none` once a copy faults. -/
def fillDatagram (src : UserIn) (len : Nat) :
    List MBuf → WriteState → Option (List MBuf) × WriteState
  | [], s => (some [], s)
  | buf :: bufs, s =>
    let n := min (MBuf.kPayloadSize P) (len - s.pos)
    let status := src.copy s.pos n
    let s := { s with events := s.events ++ [.copyFromUser s.pos buf.page_ 0 n status] }
    if status = .ok then
      let r := fillDatagram src len bufs
        { s with pos := s.pos + n, wraps := s.wraps || decide (2 ^ 32 ≤ buf.len_ + n) }
      (r.1.map (buf.copyIn 0 src.bytes s.pos n :: ·), r.2)
    else (none, s)

/-- `bufs.front().pkt_len_ = len`. -/
def setPktLen (len : Nat) : List MBuf → List MBuf
  | [] => []
  | b :: bs => { b with pktLen_ := len } :: bs

/-- `WriteDatagram(src, len, written)`: refuses an empty datagram, one longer than `kSizeMax`, and
one that does not fit; otherwise fills `NumBuffersForPayload(len)` new cells and splices them on.
A fault frees the new cells (the pages `AllocMBufs` gave) and leaves the chain as it was. The
`size_t` sum `len + size_` wraps past `2 ^ 64`, where the code would go on; that shows as
`wraps`. -/
def writeDatagram (c : MBufChain) (allocPages : Nat → Option (List FreshPage)) (src : UserIn)
    (len : Nat) : Result :=
  if len = 0 then ⟨c, 0, .errInvalidArgs, [], false⟩
  else if kSizeMax P < len then ⟨c, 0, .errOutOfRange, [], false⟩
  else if kSizeMax P < len + c.size_ then
    ⟨c, 0, .errShouldWait, [], decide (2 ^ 64 ≤ len + c.size_)⟩
  else
    let a := allocMBufs P allocPages (MBuf.numBuffersForPayload P len)
    match a.1 with
    | none => ⟨c, 0, .errShouldWait, a.2, false⟩
    | some bufs =>
      let f := fillDatagram P src len bufs ⟨0, c.size_, a.2, false⟩
      match f.1 with
      | none => ⟨c, 0, .errInvalidArgs, f.2.events ++ freeMBufs P bufs, f.2.wraps⟩
      | some filled =>
        ⟨⟨c.buffers_ ++ setPktLen len filled, c.readCursorOff_, c.size_ + len⟩, len, .ok,
          f.2.events, f.2.wraps || decide (2 ^ 32 ≤ len)⟩

end Zircon.MBufChain
