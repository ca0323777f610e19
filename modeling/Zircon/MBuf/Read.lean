import Zircon.MBuf.Basic

/-! `ReadHelper` (`object/mbuf.cc`), the one traversal behind `Read` and `Peek`. The template is
instantiated on a `const` chain for `Peek` and on a mutable one for `Read`; here that is the flag
`isConst`. Each pass of the loop copies from the cell at the iterator; a peek then moves the
iterator on, a read unlinks the cell when it is used up (or, for a datagram, at once). After the
loop a datagram read drains the rest of its datagram, and the cells unlinked go to `FreeMBufs`. -/

namespace Zircon.MBufChain

variable (P : PageSize)

/-- The locals of `ReadHelper`'s loop, with the chain's `size_`, which a read updates as it goes,
and the calls made so far. -/
structure ReadState where
  pos : Nat
  readOff : Nat
  size : Nat
  status : Status
  freeList : List MBuf
  events : List Event
  wraps : Bool

/-- `copy_len = min(len_ - read_off, len - pos)`. -/
def copyLen (len : Nat) (buf : MBuf) (s : ReadState) : Nat :=
  min (buf.len_ - s.readOff) (len - s.pos)

/-- `dst.byte_offset(pos).copy_array_to_user(buf.data_ + read_off, copy_len)`. -/
def copyEvent (dst : UserOut) (len : Nat) (buf : MBuf) (s : ReadState) : Event :=
  .copyToUser s.pos buf.page_ s.readOff (slice buf.data_ s.readOff (copyLen len buf s))
    (dst.copy s.pos (copyLen len buf s))

/-- The copy at the top of the loop: `copy_len` bytes of `buf` from `read_off` on go to
`dst + pos`, and `pos` moves past them if the copy succeeds. -/
def copyOut (dst : UserOut) (len : Nat) (buf : MBuf) (s : ReadState) : ReadState :=
  let n := copyLen len buf s
  let status := dst.copy s.pos n
  { s with
    pos := if status = .ok then s.pos + n else s.pos
    status
    events := s.events ++ [copyEvent dst len buf s]
    wraps := s.wraps || decide (buf.len_ < s.readOff) }

/-- What a read does after copying `n` bytes of `buf`: on success `read_off` and `size_` move by
`n`; then `buf` is unlinked onto the free list if it is used up, or at once for a datagram,
whose unread rest of the cell comes off `size_` too. The flag says whether `buf` was unlinked. -/
def consume (datagram : Bool) (buf : MBuf) (n : Nat) (s : ReadState) : Bool × ReadState :=
  let s := if s.status = .ok then
    { s with
      readOff := s.readOff + n
      size := s.size - n
      wraps := s.wraps || decide (s.size < n) || decide (2 ^ 32 ≤ s.readOff + n) }
    else s
  if s.readOff = buf.len_ ∨ datagram = true then
    (true, { s with
      size := if datagram then s.size - (buf.len_ - s.readOff) else s.size
      freeList := buf :: s.freeList
      readOff := 0
      wraps := s.wraps ||
        (datagram && (decide (buf.len_ < s.readOff) || decide (s.size < buf.len_ - s.readOff))) })
  else (false, s)

/-- One pass of the loop over the cell `buf` at the iterator. The flag says whether the iterator
moved on: a peek always moves it (`read_off = 0; ++iter`), a read when it unlinks `buf`. -/
def readIter (isConst datagram : Bool) (dst : UserOut) (len : Nat) (buf : MBuf) (s : ReadState) :
    Bool × ReadState :=
  if isConst then (true, { copyOut dst len buf s with readOff := 0 })
  else consume datagram buf (copyLen len buf s) (copyOut dst len buf s)

/-- The loop of `ReadHelper` from the iterator on, while `pos < len`, the iterator is not at the
end and no copy has failed. For a read the iterator is always `begin()`; a pass that unlinks
nothing ends the loop (`readIter_keep`), and the model stops there. Returns the cells from the
iterator on and the locals. -/
def readLoop (isConst datagram : Bool) (dst : UserOut) (len : Nat) :
    List MBuf → ReadState → List MBuf × ReadState
  | [], s => ([], s)
  | buf :: rest, s =>
    if s.pos < len ∧ s.status = .ok then
      if (readIter isConst datagram dst len buf s).1 then
        readLoop isConst datagram dst len rest (readIter isConst datagram dst len buf s).2
      else (buf :: rest, (readIter isConst datagram dst len buf s).2)
    else (buf :: rest, s)

/-- The drain after a datagram read: the cells that continue the datagram (`pkt_len_ == 0`) at
the front are unlinked and their unread bytes taken off `size_`. -/
def drain : List MBuf → ReadState → List MBuf × ReadState
  | [], s => ([], s)
  | buf :: rest, s =>
    if buf.pktLen_ = 0 then
      drain rest { s with
        size := s.size - (buf.len_ - s.readOff)
        freeList := buf :: s.freeList
        readOff := 0
        wraps := s.wraps || decide (buf.len_ < s.readOff) ||
          decide (s.size < buf.len_ - s.readOff) }
    else (buf :: rest, s)

/-- The locals when the loop starts. -/
def ReadState.init (c : MBufChain) : ReadState := ⟨0, c.readCursorOff_, c.size_, .ok, [], [], false⟩

/-- How a read returns, with the cells left and the locals `d` at the end: the cursor is stored
(`update_cursor`), the cells unlinked go to `FreeMBufs` if there are any, and `*actual = pos`. -/
def readResult (d : List MBuf × ReadState) : Result :=
  ⟨⟨d.1, d.2.readOff, d.2.size⟩, d.2.pos, d.2.status,
    d.2.events ++ (if d.2.freeList.isEmpty then [] else freeMBufs P d.2.freeList), d.2.wraps⟩

/-- `ReadHelper(chain, dst, len, datagram, actual)`: nothing to read if `size_ == 0`; a datagram
read reads at most the first datagram. A read then drains the rest of a datagram. -/
def readHelper (isConst : Bool) (c : MBufChain) (dst : UserOut) (len : Nat) (datagram : Bool) :
    Result :=
  if c.size_ = 0 then ⟨c, 0, .ok, [], false⟩
  else
    let len := if datagram = true ∧ c.frontPktLen < len then c.frontPktLen else len
    let r := readLoop isConst datagram dst len c.buffers_ (ReadState.init c)
    if isConst then ⟨c, r.2.pos, r.2.status, r.2.events, r.2.wraps⟩
    else readResult P (if datagram then drain r.1 r.2 else r)

/-- `Read(dst, len, datagram, actual)`. -/
def read (c : MBufChain) (dst : UserOut) (len : Nat) (datagram : Bool) : Result :=
  readHelper P false c dst len datagram

/-- `Peek(dst, len, datagram, actual) const`. -/
def peek (c : MBufChain) (dst : UserOut) (len : Nat) (datagram : Bool) : Result :=
  readHelper P true c dst len datagram

section ReadResult

variable {d : List MBuf × ReadState}

@[simp] theorem readResult_chain : (readResult P d).chain = ⟨d.1, d.2.readOff, d.2.size⟩ := rfl

@[simp] theorem readResult_count : (readResult P d).count = d.2.pos := rfl

@[simp] theorem readResult_status : (readResult P d).status = d.2.status := rfl

@[simp] theorem readResult_events :
    (readResult P d).events =
      d.2.events ++ (if d.2.freeList.isEmpty then [] else freeMBufs P d.2.freeList) := rfl

@[simp] theorem readResult_wraps : (readResult P d).wraps = d.2.wraps := rfl

/-- Freeing the cells unlinked copies nothing to the user. -/
theorem userBytes_readResult (i : Nat) :
    userBytes (readResult P d).events i = userBytes d.2.events i := by
  rw [readResult_events]
  split
  · rw [List.append_nil]
  · exact userBytes_append_of_toUser fun e mem => toUser_freeMBufs P mem i

end ReadResult

/-- A read of an empty chain (`size_ == 0`) changes nothing and returns 0. -/
theorem readHelper_empty {isConst : Bool} {c : MBufChain} {dst : UserOut} {len : Nat}
    {datagram : Bool} (empty : c.size_ = 0) :
    readHelper P isConst c dst len datagram = ⟨c, 0, .ok, [], false⟩ := by
  simp [readHelper, empty]

/-- A datagram read of a chain holding bytes reads at most the first datagram, then drains the
rest of it. -/
theorem read_datagram_eq {c : MBufChain} {dst : UserOut} {len : Nat} (nonempty : c.size_ ≠ 0) :
    c.read P dst len true = readResult P
      (drain (readLoop false true dst (min len c.frontPktLen) c.buffers_ (.init c)).1
        (readLoop false true dst (min len c.frontPktLen) c.buffers_ (.init c)).2) := by
  have clamp : (if c.frontPktLen < len then c.frontPktLen else len) = min len c.frontPktLen := by
    split <;> omega
  simp [read, readHelper, nonempty, clamp]

/-- The loop ends once `dst` is full or a copy has failed. -/
theorem readLoop_stop {isConst datagram : Bool} {dst : UserOut} {len : Nat} {bs : List MBuf}
    {s : ReadState} (stop : ¬(s.pos < len ∧ s.status = .ok)) :
    readLoop isConst datagram dst len bs s = (bs, s) := by
  cases bs with
  | nil => rfl
  | cons b bs => rw [readLoop, if_neg stop]

/-- A stream read of a chain holding bytes is the loop from the cursor, then `readResult`. -/
theorem read_stream_eq {c : MBufChain} {dst : UserOut} {len : Nat} (nonempty : c.size_ ≠ 0) :
    c.read P dst len false = readResult P (readLoop false false dst len c.buffers_ (.init c)) := by
  simp [read, readHelper, nonempty]

/-! ### The copy and the bookkeeping of one pass -/

section Pass

variable {dst : UserOut} {len : Nat} {buf : MBuf} {s : ReadState}

@[simp] theorem copyOut_readOff : (copyOut dst len buf s).readOff = s.readOff := rfl

@[simp] theorem copyOut_size : (copyOut dst len buf s).size = s.size := rfl

@[simp] theorem copyOut_freeList : (copyOut dst len buf s).freeList = s.freeList := rfl

@[simp] theorem copyOut_status : (copyOut dst len buf s).status = dst.copy s.pos (copyLen len buf s) :=
  rfl

theorem copyOut_pos :
    (copyOut dst len buf s).pos =
      if dst.copy s.pos (copyLen len buf s) = .ok then s.pos + copyLen len buf s else s.pos :=
  rfl

@[simp] theorem copyOut_events :
    (copyOut dst len buf s).events = s.events ++ [copyEvent dst len buf s] :=
  rfl

theorem copyOut_wraps : (copyOut dst len buf s).wraps = (s.wraps || decide (buf.len_ < s.readOff)) :=
  rfl

theorem copyEvent_readsFrom (off_le : s.readOff ≤ buf.len_) :
    (copyEvent dst len buf s).ReadsFrom buf s.readOff :=
  ⟨rfl, le_rfl, by simp only [length_slice, copyLen]; omega, by rw [length_slice]⟩

theorem toUser_copyEvent (i : Nat) :
    (copyEvent dst len buf s).toUser i =
      if dst.copy s.pos (copyLen len buf s) = .ok ∧ s.pos ≤ i ∧ i < s.pos + copyLen len buf s then
        (slice buf.data_ s.readOff (copyLen len buf s))[i - s.pos]?
      else none := by
  by_cases ok : dst.copy s.pos (copyLen len buf s) = .ok
  · by_cases lo : s.pos ≤ i
    · by_cases hi : i < s.pos + copyLen len buf s
      · simp [copyEvent, Event.toUser, ok, lo, hi]
      · simp [copyEvent, Event.toUser, ok, lo, hi, List.getElem?_eq_none]; omega
    · simp [copyEvent, Event.toUser, ok, lo]
  · simp only [copyEvent, Event.toUser, ok, false_and, if_false]
    split <;> simp_all

/-- A successful copy writes its bytes at `pos`. -/
theorem userBytes_copyEvent_ok (copied : dst.copy s.pos (copyLen len buf s) = .ok)
    (events : List Event) (i : Nat) :
    userBytes (events ++ [copyEvent dst len buf s]) i =
      if s.pos ≤ i ∧ i < s.pos + (slice buf.data_ s.readOff (copyLen len buf s)).length then
        (slice buf.data_ s.readOff (copyLen len buf s))[i - s.pos]?
      else userBytes events i := by
  rw [userBytes_append_singleton, toUser_copyEvent, length_slice]
  by_cases range : s.pos ≤ i ∧ i < s.pos + copyLen len buf s
  · rw [if_pos ⟨copied, range⟩, if_pos range, List.getElem?_eq_getElem (by simp; omega)]
    rfl
  · rw [if_neg (by tauto), if_neg range]
    rfl

/-- A faulted copy writes nothing. -/
theorem userBytes_copyEvent_fault (fault : dst.copy s.pos (copyLen len buf s) ≠ .ok)
    (events : List Event) (i : Nat) :
    userBytes (events ++ [copyEvent dst len buf s]) i = userBytes events i := by
  rw [userBytes_append_singleton, toUser_copyEvent, if_neg (by tauto)]
  rfl

/-- A read pass that does not unlink its cell ends the loop: its copy faulted, or it filled
`dst` (when `copy_len` is `len_ - read_off` the cell is used up). -/
theorem readIter_keep {datagram : Bool} (off_le : s.readOff ≤ buf.len_) (pos_le : s.pos ≤ len)
    (keep : (readIter false datagram dst len buf s).1 = false) :
    ¬((readIter false datagram dst len buf s).2.pos < len ∧
      (readIter false datagram dst len buf s).2.status = .ok) := by
  have n_le := Nat.min_le_right (buf.len_ - s.readOff) (len - s.pos)
  simp only [readIter, consume, copyOut_status, copyOut_readOff, Bool.false_eq_true,
    ↓reduceIte] at keep ⊢
  by_cases ok : dst.copy s.pos (copyLen len buf s) = .ok
  · simp only [if_pos ok] at keep ⊢
    split at keep
    · cases keep
    · next kept =>
      rw [if_neg kept]
      simp only [copyOut_pos, if_pos ok]
      simp only [copyLen, not_or] at kept n_le ⊢
      omega
  · simp only [if_neg ok] at keep ⊢
    split at keep
    · cases keep
    · next kept =>
      rw [if_neg kept]
      exact fun h => ok h.2

end Pass

/-- A peek leaves the chain as it was, whatever its copies do. -/
@[simp] theorem peek_chain (c : MBufChain) (dst : UserOut) (len : Nat) (datagram : Bool) :
    (c.peek P dst len datagram).chain = c := by
  unfold peek readHelper
  split <;> rfl

end Zircon.MBufChain
