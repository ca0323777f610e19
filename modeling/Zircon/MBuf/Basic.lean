import Zircon.Status

/-! The data of an `MBufChain` (`object/mbuf.h`): the page-sized cells and the chain of them, the
user buffers that writes copy from and reads copy to, and the calls an operation makes outside the
chain, to the page allocator, to the kernel counters and to user memory. The allocator's pages and
user memory are inputs of each operation, so that every theorem holds whatever they do. -/

namespace Zircon

/-- A physical page (`vm_page_t`), named by its address. -/
structure VmPage where
  paddr : Nat
  deriving DecidableEq, Repr

/-- A page as `AllocPages` hands it out, with the bytes it still holds from its last use. -/
structure FreshPage where
  page : VmPage
  stale : Nat → UInt8

/-- `MBuf::kHeaderSize`: two list links, `len_`, `pkt_len_` and `page_`. -/
def kHeaderSize : Nat := 8 * 2 + 4 * 2 + 8

/-- The `PAGE_SIZE` the kernel is built with (`<vm/page.h>`, outside this repository). A page has
room for an `MBuf` header and some payload, and 128 payloads fit the `uint32_t` in which
`pkt_len_` keeps a datagram's length. -/
structure PageSize where
  val : Nat
  header_lt : kHeaderSize < val
  sizeMax_lt : 128 * (val - kHeaderSize) < 2 ^ 32

/-- A 4 KiB page. -/
def pageSize4K : PageSize := ⟨4096, by decide, by decide⟩

/-- The bytes `f off`, ..., `f (off + n - 1)`. -/
def slice (f : Nat → UInt8) (off n : Nat) : List UInt8 :=
  (List.range n).map fun i => f (off + i)

@[simp] theorem length_slice (f : Nat → UInt8) (off n : Nat) : (slice f off n).length = n := by
  simp [slice]

@[simp] theorem slice_zero (f : Nat → UInt8) (off : Nat) : slice f off 0 = [] := rfl

theorem slice_add (f : Nat → UInt8) (off n m : Nat) :
    slice f off (n + m) = slice f off n ++ slice f (off + n) m := by
  simp [slice, List.range_add, Nat.add_assoc]

theorem slice_append (f : Nat → UInt8) {off off' n m : Nat} (h : off' = off + n) :
    slice f off n ++ slice f off' m = slice f off (n + m) := by
  rw [h, slice_add]

theorem slice_congr {f g : Nat → UInt8} {off off' n : Nat}
    (h : ∀ i < n, f (off + i) = g (off' + i)) : slice f off n = slice g off' n := by
  simp only [slice, List.map_inj_left, List.mem_range]
  exact h

theorem take_slice (f : Nat → UInt8) (off n k : Nat) :
    (slice f off n).take k = slice f off (min k n) := by
  rw [slice, slice, ← List.map_take, List.take_range]

theorem drop_slice (f : Nat → UInt8) (off n k : Nat) :
    (slice f off n).drop k = slice f (off + k) (n - k) := by
  rcases Nat.le_total k n with hk | hk
  · obtain ⟨m, rfl⟩ := Nat.exists_eq_add_of_le hk
    rw [slice_add, List.drop_left' (length_slice _ _ _), Nat.add_sub_cancel_left]
  · rw [List.drop_eq_nil_of_le (by simpa using hk), Nat.sub_eq_zero_of_le hk, slice_zero]

/-- An `MBuf`: one page, holding a header and `kPayloadSize` bytes of `data_`, of which the
first `len_` are valid. `pktLen_` is a datagram's length on its first cell and 0 elsewhere. -/
structure MBuf where
  len_ : Nat
  pktLen_ : Nat
  page_ : VmPage
  data_ : Nat → UInt8

namespace MBuf

variable (P : PageSize)

/-- `kPayloadSize = PAGE_SIZE - kHeaderSize`. -/
def kPayloadSize : Nat := P.val - kHeaderSize

theorem kPayloadSize_pos : 0 < kPayloadSize P := Nat.sub_pos_of_lt P.header_lt

theorem kPayloadSize_lt : 128 * kPayloadSize P < 2 ^ 32 := P.sizeMax_lt

/-- `NumBuffersForPayload(payload)`: the cells a payload of that many bytes fills. -/
def numBuffersForPayload (payload : Nat) : Nat := 1 + (payload - 1) / kPayloadSize P

/-- A payload of `r > 0` bytes needs more than `NumBuffersForPayload(r) - 1` full cells and no
more than `NumBuffersForPayload(r)`. -/
theorem numBuffersForPayload_fits {r : Nat} (pos : 0 < r) :
    (numBuffersForPayload P r - 1) * kPayloadSize P < r ∧
      r ≤ numBuffersForPayload P r * kPayloadSize P := by
  have split := Nat.div_add_mod (r - 1) (kPayloadSize P)
  have small := Nat.mod_lt (r - 1) (kPayloadSize_pos P)
  simp only [numBuffersForPayload, Nat.add_sub_cancel_left, Nat.add_mul, Nat.one_mul,
    Nat.mul_comm ((r - 1) / kPayloadSize P)]
  omega

/-- `rem()`: the free room after the valid bytes. -/
def rem (b : MBuf) : Nat := kPayloadSize P - b.len_

/-- `MBuf(page)`: an empty cell on the page, its payload whatever the page held. -/
def ofPage (p : FreshPage) : MBuf := ⟨0, 0, p.page, p.stale⟩

/-- The valid bytes `data_[0, len_)`. -/
def bytes (b : MBuf) : List UInt8 := slice b.data_ 0 b.len_

/-- `copy_array_from_user` of `n` bytes from offset `pos` of `src` to `data_ + off`, then
`len_ += n`. -/
def copyIn (b : MBuf) (off : Nat) (src : Nat → UInt8) (pos n : Nat) : MBuf :=
  { b with
    len_ := b.len_ + n
    data_ := fun i => if off ≤ i ∧ i < off + n then src (pos + (i - off)) else b.data_ i }

@[simp] theorem length_bytes (b : MBuf) : b.bytes.length = b.len_ := by simp [bytes]

@[simp] theorem copyIn_len (b : MBuf) (off : Nat) (src : Nat → UInt8) (pos n : Nat) :
    (b.copyIn off src pos n).len_ = b.len_ + n := rfl

@[simp] theorem copyIn_pktLen (b : MBuf) (off : Nat) (src : Nat → UInt8) (pos n : Nat) :
    (b.copyIn off src pos n).pktLen_ = b.pktLen_ := rfl

@[simp] theorem copyIn_page (b : MBuf) (off : Nat) (src : Nat → UInt8) (pos n : Nat) :
    (b.copyIn off src pos n).page_ = b.page_ := rfl

/-- Appending at `len_` keeps the valid bytes and adds the copied ones after them. -/
theorem bytes_copyIn (b : MBuf) (src : Nat → UInt8) (pos n : Nat) :
    (b.copyIn b.len_ src pos n).bytes = b.bytes ++ slice src pos n := by
  simp only [bytes, copyIn_len, slice_add, Nat.zero_add]
  congr 1
  · exact slice_congr fun i hi => by simp [copyIn]; omega
  · exact slice_congr fun i hi => by simp [copyIn, hi]

end MBuf

/-- `MBufChain::kSizeMax`: the most bytes a chain holds. -/
def kSizeMax (P : PageSize) : Nat := 128 * MBuf.kPayloadSize P

theorem kSizeMax_div_kPayloadSize (P : PageSize) : kSizeMax P / MBuf.kPayloadSize P = 128 :=
  Nat.mul_div_cancel _ (MBuf.kPayloadSize_pos P)

/-- The user buffer a write copies from (`user_in_ptr<const char>`): the byte at each offset, and
the status `src.byte_offset(pos).copy_array_from_user(dst, n)` returns. A copy is all or nothing. -/
structure UserIn where
  bytes : Nat → UInt8
  copy : Nat → Nat → Status

/-- The user buffer a read copies to (`user_out_ptr<char>`): the status
`dst.byte_offset(pos).copy_array_to_user(src, n)` returns. -/
structure UserOut where
  copy : Nat → Nat → Status

/-- A call an operation of the chain makes outside it. -/
inductive Event where
  /-- `AllocPages(num, 0, &pages)`, with the pages handed out if it succeeded. -/
  | allocPages (num : Nat) (pages : Option (List VmPage))
  /-- `FreeList(&pages)`. -/
  | freeList (pages : List VmPage)
  /-- `kcounter_add(mbuf_total_bytes_count, delta)`. -/
  | kcounterAdd (delta : Int)
  /-- `copy_array_from_user` of `n` bytes from offset `pos` of the user buffer to byte `off` of
  the payload on `page`. -/
  | copyFromUser (pos : Nat) (page : VmPage) (off n : Nat) (status : Status)
  /-- `copy_array_to_user` of `bytes`, read from byte `off` of the payload on `page`, to offset
  `pos` of the user buffer. -/
  | copyToUser (pos : Nat) (page : VmPage) (off : Nat) (bytes : List UInt8) (status : Status)

namespace Event

/-- Whether the call succeeded: an allocation that handed out pages, a copy that returned `ok`. -/
def ok : Event → Bool
  | allocPages _ pages => pages.isSome
  | copyFromUser _ _ _ _ status | copyToUser _ _ _ _ status => status == .ok
  | freeList _ | kcounterAdd _ => true

/-- The pages a successful `AllocPages` handed out. -/
def obtained : Event → List VmPage
  | allocPages _ (some pages) => pages
  | _ => []

/-- The pages passed to `FreeList`. -/
def freed : Event → List VmPage
  | freeList pages => pages
  | _ => []

/-- What the call adds to `mbuf.total_bytes`. -/
def counter : Event → Int
  | kcounterAdd delta => delta
  | _ => 0

/-- The call is a `copy_array_to_user` of bytes `data_[off, off + n)` of the cell `b`, inside its
valid bytes and from `start` on. -/
def ReadsFrom (b : MBuf) (start : Nat) : Event → Prop
  | copyToUser _ page off bytes _ =>
    page = b.page_ ∧ start ≤ off ∧ off + bytes.length ≤ b.len_ ∧ bytes = slice b.data_ off bytes.length
  | _ => False

/-- The call is a `copy_array_from_user` of `n` bytes to `data_[len_, len_ + n)` of the cell `b`,
inside a payload of `bound` bytes. -/
def WritesTo (bound : Nat) (b : MBuf) : Event → Prop
  | copyFromUser _ page off n _ => page = b.page_ ∧ off = b.len_ ∧ off + n ≤ bound
  | _ => False

/-- The byte a successful `copy_array_to_user` puts at offset `i` of the user buffer. -/
def toUser (e : Event) (i : Nat) : Option UInt8 :=
  match e with
  | copyToUser pos _ _ bytes .ok => if pos ≤ i then bytes[i - pos]? else none
  | _ => none

/-- Whether the call is a `copy_array_to_user`. -/
def isCopyToUser : Event → Bool
  | copyToUser .. => true
  | _ => false

/-- Whether the call is a copy to or from the user, which takes no page, frees none and leaves
the counter alone. -/
def isCopy : Event → Bool
  | copyFromUser .. | copyToUser .. => true
  | _ => false

theorem isCopy_of_copyToUser {e : Event} (copy : e.isCopyToUser = true) : e.isCopy = true := by
  cases e <;> simp_all [isCopyToUser, isCopy]

theorem toUser_of_not_copyToUser {e : Event} (other : e.isCopyToUser = false) (i : Nat) :
    e.toUser i = none := by
  cases e <;> simp_all [isCopyToUser, toUser]

end Event

/-- The byte the calls of a trace leave at offset `i` of the user buffer, the last copy there
winning. -/
def userBytes (events : List Event) (i : Nat) : Option UInt8 :=
  events.foldl (fun acc e => (e.toUser i).or acc) none

@[simp] theorem userBytes_nil (i : Nat) : userBytes [] i = none := rfl

@[simp] theorem userBytes_append_singleton (events : List Event) (e : Event) (i : Nat) :
    userBytes (events ++ [e]) i = (e.toUser i).or (userBytes events i) := by
  simp [userBytes]

/-- Calls that copy nothing to the user leave its buffer as it was. -/
theorem userBytes_append_of_toUser {events more : List Event} {i : Nat}
    (none : ∀ e ∈ more, e.toUser i = none) : userBytes (events ++ more) i = userBytes events i := by
  induction more using List.reverseRecOn with
  | nil => rw [List.append_nil]
  | append_singleton more e ih =>
    rw [← List.append_assoc, userBytes_append_singleton, none e (by simp),
      ih fun e' mem => none e' (by simp [mem])]
    rfl

/-- The user buffer depends on the `copy_array_to_user` calls alone. -/
theorem userBytes_filter_copyToUser (events : List Event) (i : Nat) :
    userBytes (events.filter Event.isCopyToUser) i = userBytes events i := by
  induction events using List.reverseRecOn with
  | nil => rfl
  | append_singleton events e ih =>
    cases copy : e.isCopyToUser
    · simp [List.filter_singleton, copy, ih, Event.toUser_of_not_copyToUser copy]
    · simp [List.filter_singleton, copy, ih]

/-- The chain: its cells from the read cursor's to the write cursor's, the offset of the read
cursor in the first, and the number of unread bytes. -/
structure MBufChain where
  buffers_ : List MBuf
  readCursorOff_ : Nat
  size_ : Nat

namespace MBufChain

variable (P : PageSize)

/-- `MBufChain()`: no cells. -/
def empty : MBufChain := ⟨[], 0, 0⟩

/-- `pkt_len_` of `buffers_.front()`. The code calls `front()` only when `size_ != 0`, where the
list is not empty; the model reads 0 on an empty list. -/
def frontPktLen (c : MBufChain) : Nat :=
  match c.buffers_ with
  | b :: _ => b.pktLen_
  | [] => 0

/-- `size(datagram)`: the unread bytes, or those of the first datagram. -/
def size (c : MBufChain) (datagram : Bool) : Nat :=
  if datagram ∧ c.size_ ≠ 0 then c.frontPktLen else c.size_

/-- `is_full()`. -/
def isFull (c : MBufChain) : Bool := kSizeMax P ≤ c.size_

/-- `is_empty()`. -/
def isEmpty (c : MBufChain) : Bool := c.size_ = 0

/-- `max_size()`. -/
def maxSize : Nat := kSizeMax P

/-- What an operation leaves behind: the chain, the count it stores through its `size_t*`
(`*written` or `*actual`), its status and the calls it made, in order. `wraps` records whether
one of its `size_t` or `uint32_t` computations left its range: an unsigned subtraction below zero
(`kSizeMax - size_`, `rem()` of a cell holding more than `kPayloadSize` bytes, `len_ - read_off`,
the updates of `size_`), the sum `len + size_` past `2 ^ 64`, or a `uint32_t` that lost bits.
While it is false the `Nat` arithmetic of the model is the code's. -/
structure Result where
  chain : MBufChain
  count : Nat
  status : Status
  events : List Event
  wraps : Bool

/-- `AllocMBufs(num)`: `AllocPages` for `num` pages. On success an `MBuf` is built on each page
(its constructor adds `sizeof(MBuf)`, which is `PAGE_SIZE`, to the counter) and pushed to the
front of the list returned. -/
def allocMBufs (allocPages : Nat → Option (List FreshPage)) (num : Nat) :
    Option (List MBuf) × List Event :=
  match allocPages num with
  | none => (none, [.allocPages num none])
  | some pages =>
    (some (pages.map MBuf.ofPage).reverse,
      .allocPages num (some (pages.map (·.page))) :: pages.map fun _ => .kcounterAdd P.val)

variable {P}

/-- A failed `AllocMBufs` shows in the trace as a failed `AllocPages`. -/
theorem allocMBufs_none {allocPages : Nat → Option (List FreshPage)} {num : Nat}
    (fail : (allocMBufs P allocPages num).1 = none) :
    ∃ e ∈ (allocMBufs P allocPages num).2, e.ok = false := by
  cases h : allocPages num <;> simp_all [allocMBufs, Event.ok]

/-- The cells of a successful `AllocMBufs`: one empty cell on each page handed out. -/
theorem allocMBufs_some {allocPages : Nat → Option (List FreshPage)} {num : Nat}
    {bufs : List MBuf} (alloc : (allocMBufs P allocPages num).1 = some bufs) :
    ∃ pages, allocPages num = some pages ∧ bufs = (pages.map MBuf.ofPage).reverse := by
  cases h : allocPages num <;> simp_all [allocMBufs]

variable (P)

/-- `FreeMBufs(bufs)`: each cell is destroyed (its destructor takes `sizeof(MBuf)` off the
counter) and its page pushed to the front of a list, which goes to `FreeList` in one call. -/
def freeMBufs (bufs : List MBuf) : List Event :=
  bufs.map (fun _ => .kcounterAdd (-P.val)) ++ [.freeList (bufs.map (·.page_)).reverse]

/-- Freeing cells copies nothing. -/
theorem not_isCopy_freeMBufs {bufs : List MBuf} {e : Event} (mem : e ∈ freeMBufs P bufs) :
    e.isCopy = false := by
  simp only [freeMBufs, List.mem_append, List.mem_map, List.mem_singleton] at mem
  rcases mem with ⟨_, _, rfl⟩ | rfl <;> rfl

theorem not_copyToUser_freeMBufs {bufs : List MBuf} {e : Event} (mem : e ∈ freeMBufs P bufs) :
    e.isCopyToUser = false := by
  cases copy : e.isCopyToUser
  · rfl
  · simpa [Event.isCopy_of_copyToUser copy] using not_isCopy_freeMBufs P mem

theorem toUser_freeMBufs {bufs : List MBuf} {e : Event} (mem : e ∈ freeMBufs P bufs) (i : Nat) :
    e.toUser i = none :=
  Event.toUser_of_not_copyToUser (not_copyToUser_freeMBufs P mem) i

/-- `~MBufChain()`: `FreeMBufs(buffers_)`. -/
def destroy (c : MBufChain) : List Event := freeMBufs P c.buffers_

end MBufChain

end Zircon
