import Zircon.MBuf.Stream
import Zircon.MBuf.Datagram

/-! Whole runs of a chain seen from its two users, the writer and the reader (`object/mbuf.cc`).
A session records, in order, what each `WriteStream` or `WriteDatagram` took from `src` and what
each `Read` put in `dst[0, *actual)`. Over every session from `MBufChain()` a stream delivers
the bytes written, in order and once each, and still holds the rest; a datagram chain delivers a
prefix of each datagram written, one per read, in order, and still holds the rest. Peeks change
nothing. -/

namespace Zircon.MBufChain

variable (P : PageSize)

/-- The bytes the `copy_array_to_user` calls of an operation left in `dst[0, *actual)`. -/
def delivered (r : Result) : List UInt8 := (List.range r.count).filterMap (userBytes r.events)

/-- The first `n` entries of a list, looked up one by one. -/
theorem filterMap_range_getElem {α : Type} (l : List α) (n : Nat) :
    (List.range n).filterMap (l[·]?) = l.take n := by
  induction n with
  | zero => rfl
  | succ n ih =>
    simp only [List.range_succ, List.filterMap_append, ih, List.take_succ, List.filterMap_cons,
      List.filterMap_nil]
    cases l[n]? <;> rfl

/-- A call that copied the first `*actual` bytes of `l` to the user delivered `l[0, *actual)`. -/
theorem delivered_eq_take {r : Result} {l : List UInt8}
    (user : ∀ i < r.count, userBytes r.events i = l[i]?) : delivered r = l.take r.count := by
  rw [delivered, ← filterMap_range_getElem]
  exact List.filterMap_congr fun i mem => user i (List.mem_range.mp mem)

/-- A call that reported no byte delivered none. -/
@[simp] theorem delivered_of_count_zero {r : Result} (zero : r.count = 0) : delivered r = [] := by
  rw [delivered, zero]
  rfl

/-! ### Streams -/

/-- A stream run from `MBufChain()`, with the bytes its writes took, `src[0, *written)` of each in
turn, and the bytes its reads delivered, in turn. -/
inductive StreamSession : MBufChain → List UInt8 → List UInt8 → Prop
  | empty : StreamSession empty [] []
  | write {c : MBufChain} {sent got : List UInt8} (allocPages : Nat → Option (List FreshPage))
      (src : UserIn) (len : Nat) (session : StreamSession c sent got)
      (fresh : PagesFresh c allocPages) :
      StreamSession (c.writeStream P allocPages src len).chain
        (sent ++ slice src.bytes 0 (c.writeStream P allocPages src len).count) got
  | read {c : MBufChain} {sent got : List UInt8} (dst : UserOut) (len : Nat)
      (session : StreamSession c sent got) :
      StreamSession (c.read P dst len false).chain sent (got ++ delivered (c.read P dst len false))
  | peek {c : MBufChain} {sent got : List UInt8} (dst : UserOut) (len : Nat)
      (session : StreamSession c sent got) :
      StreamSession (c.peek P dst len false).chain sent got

variable {P}

/-- A session is a run of the chain. -/
theorem StreamSession.reach {c : MBufChain} {sent got : List UInt8}
    (session : StreamSession P c sent got) : ∃ t, Reach P false c t := by
  induction session with
  | empty => exact ⟨[], .empty⟩
  | write allocPages src len _ fresh ih =>
    exact ih.elim fun _ reach => ⟨_, .step (.write allocPages src len) reach fresh⟩
  | read dst len _ ih => exact ih.elim fun _ reach => ⟨_, .step (.read dst len) reach trivial⟩
  | peek dst len _ ih => exact ih.elim fun _ reach => ⟨_, .step (.peek dst len) reach trivial⟩

/-- What a stream session has done: the bytes its reads delivered, then the bytes the chain still
holds, are the bytes its writes took, and at most `kSizeMax` of those are held. -/
theorem stream_session_fifo {c : MBufChain} {sent got : List UInt8}
    (session : StreamSession P c sent got) :
    got ++ contents c = sent ∧ sent.length ≤ got.length + kSizeMax P := by
  obtain ⟨t, reach⟩ := session.reach
  have inv := streamInv_of_reach reach
  have held : (contents c).length ≤ kSizeMax P := inv.size_eq ▸ inv.bounded
  suffices fifo : got ++ contents c = sent by
    refine ⟨fifo, ?_⟩
    rw [← fifo, List.length_append]
    omega
  clear held inv reach t
  induction session with
  | empty => rfl
  | write allocPages src len session fresh ih =>
    obtain ⟨t, reach⟩ := session.reach
    rw [(writeStream_stream (streamInv_of_reach reach) fresh).2.appended, ← List.append_assoc, ih]
  | read dst len session ih =>
    obtain ⟨t, reach⟩ := session.reach
    have post := (@read_stream P _ dst len (streamInv_of_reach reach)).2
    rw [post.rest, delivered_eq_take post.delivered, List.append_assoc, List.take_append_drop, ih]
  | peek dst len _ ih => rwa [peek_chain]

/-- The session of the stream run: 5000 bytes written, then 3 read. -/
theorem stream_session_fifo_sample :
    ∃ sent got, StreamSession pageSize4K streamSample sent got ∧
      got ++ contents streamSample = sent ∧ sent.length ≤ got.length + kSizeMax pageSize4K :=
  let session : StreamSession pageSize4K streamSample _ _ :=
    .read okDst 3 (.write (freshPages 0) countingSrc 5000 .empty
      (freshPages_fresh fun _ mem => nomatch mem))
  ⟨_, _, session, stream_session_fifo session⟩

/-! ### Datagrams -/

variable (P)

/-- A datagram run from `MBufChain()`, with the datagrams its writes took, `src[0, len)` of each
that returned `ZX_OK`, and what its reads delivered, one entry for each read that entered its
loop: the chain held bytes and `len` was not 0. -/
inductive DatagramSession : MBufChain → List (List UInt8) → List (List UInt8) → Prop
  | empty : DatagramSession empty [] []
  | write {c : MBufChain} {sent got : List (List UInt8)} (allocPages : Nat → Option (List FreshPage))
      (src : UserIn) (len : Nat) (session : DatagramSession c sent got)
      (fresh : PagesFresh c allocPages) :
      DatagramSession (c.writeDatagram P allocPages src len).chain
        (if (c.writeDatagram P allocPages src len).status = .ok then sent ++ [slice src.bytes 0 len]
          else sent) got
  | read {c : MBufChain} {sent got : List (List UInt8)} (dst : UserOut) (len : Nat)
      (session : DatagramSession c sent got) :
      DatagramSession (c.read P dst len true).chain sent
        (if 0 < c.size_ ∧ 0 < len then got ++ [delivered (c.read P dst len true)] else got)
  | peek {c : MBufChain} {sent got : List (List UInt8)} (dst : UserOut) (len : Nat)
      (session : DatagramSession c sent got) :
      DatagramSession (c.peek P dst len true).chain sent got

variable {P}

/-- A session is a run of the chain. -/
theorem DatagramSession.reach {c : MBufChain} {sent got : List (List UInt8)}
    (session : DatagramSession P c sent got) : ∃ t, Reach P true c t := by
  induction session with
  | empty => exact ⟨[], .empty⟩
  | write allocPages src len _ fresh ih =>
    exact ih.elim fun _ reach => ⟨_, .step (.write allocPages src len) reach fresh⟩
  | read dst len _ ih => exact ih.elim fun _ reach => ⟨_, .step (.read dst len) reach trivial⟩
  | peek dst len _ ih => exact ih.elim fun _ reach => ⟨_, .step (.peek dst len) reach trivial⟩

/-- A read that does not enter its loop leaves a chain of datagram shape as it was. -/
theorem read_datagram_idle {c : MBufChain} {dst : UserOut} {len : Nat} (inv : DatagramInv P c)
    (idle : ¬(0 < c.size_ ∧ 0 < len)) : (c.read P dst len true).chain = c := by
  by_cases empty : c.size_ = 0
  · rw [read, readHelper_empty P empty]
  · rw [show len = 0 by omega, read_datagram_zero inv]

/-- A read that enters its loop takes the first datagram and delivers a prefix of it. -/
theorem read_datagram_takes {c : MBufChain} {dst : UserOut} {len : Nat} (inv : DatagramInv P c)
    (go : 0 < c.size_ ∧ 0 < len) :
    ∃ d, datagrams c = d :: datagrams (c.read P dst len true).chain ∧
      delivered (c.read P dst len true) <+: d := by
  cases split : segments c.buffers_ with
  | nil =>
    have := inv.size_eq_zero_iff.mpr (by simpa [split] using flatten_segments c.buffers_)
    omega
  | cons seg segs =>
    have reads := (@read_datagram P c dst len inv go.2 seg segs split).2
    refine ⟨seg.flatMap MBuf.bytes, by rw [reads.rest]; simp [datagrams, split], ?_⟩
    rw [delivered_eq_take reads.delivered]
    exact List.take_prefix _ _

/-- `WriteDatagram` appends `src[0, len)` to the datagrams when it returns `ZX_OK` and leaves them
as they were otherwise. -/
theorem writeDatagram_datagrams {c : MBufChain} {allocPages : Nat → Option (List FreshPage)}
    {src : UserIn} {len : Nat} (inv : DatagramInv P c) (fresh : PagesFresh c allocPages) :
    datagrams (c.writeDatagram P allocPages src len).chain =
      if (c.writeDatagram P allocPages src len).status = .ok then
        datagrams c ++ [slice src.bytes 0 len]
      else datagrams c := by
  split
  · next ok => exact ((writeDatagram_post inv fresh).1.appended ok).2
  · next fail => rw [((writeDatagram_ok_or_unchanged c allocPages src len).resolve_left fail).2]

/-- What a datagram session has done: the datagrams its writes took are those its reads took, in
order, then those the chain still holds; and each read delivered a prefix of the one it took. -/
theorem datagram_session_fifo {c : MBufChain} {sent got : List (List UInt8)}
    (session : DatagramSession P c sent got) :
    ∃ taken, taken ++ datagrams c = sent ∧ List.Forall₂ (· <+: ·) got taken := by
  induction session with
  | empty => exact ⟨[], rfl, .nil⟩
  | @write c sent got allocPages src len session fresh ih =>
    obtain ⟨t, reach⟩ := session.reach
    obtain ⟨taken, held, prefixes⟩ := ih
    refine ⟨taken, ?_, prefixes⟩
    rw [writeDatagram_datagrams (datagramInv_of_reach reach) fresh, ← held]
    split <;> simp only [List.append_assoc]
  | @read c sent got dst len session ih =>
    obtain ⟨t, reach⟩ := session.reach
    have inv := datagramInv_of_reach reach
    by_cases go : 0 < c.size_ ∧ 0 < len
    · obtain ⟨taken, held, prefixes⟩ := ih
      obtain ⟨d, front, starts⟩ := @read_datagram_takes P c dst len inv go
      rw [if_pos go]
      exact ⟨taken ++ [d], by rw [List.append_assoc, List.singleton_append, ← front, held],
        List.rel_append prefixes (.cons starts .nil)⟩
    · rwa [if_neg go, read_datagram_idle inv go]
  | peek dst len _ ih => rwa [peek_chain]

/-- The session of the datagram run: datagrams of 3 and 5000 bytes written, then a read of 2 bytes
that takes the first. -/
theorem datagram_session_fifo_sample :
    ∃ sent got, DatagramSession pageSize4K datagramSample sent got ∧
      ∃ taken, taken ++ datagrams datagramSample = sent ∧ List.Forall₂ (· <+: ·) got taken :=
  let session : DatagramSession pageSize4K datagramSample _ _ :=
    .read okDst 2 (.write (freshPages 1) countingSrc 5000
      (.write (freshPages 0) countingSrc 3 .empty (freshPages_fresh fun _ mem => nomatch mem))
      (freshPages_fresh (by decide)))
  ⟨_, _, session, datagram_session_fifo session⟩

end Zircon.MBufChain
