import Zircon.MBuf.Pages

/-! What the operations touch (`object/mbuf.cc`). Along every run a read or a peek copies to the
user only valid bytes it has not consumed: `data_[read_cursor_off_, len_)` of the first cell and
`data_[0, len_)` of the others. A write copies from the user only into the room of a cell,
`data_[len_, len_ + n)` with `len_ + n ≤ kPayloadSize`, of the last cell or of a cell it has just
built on a page it obtained. And no operation's unsigned arithmetic goes below zero or loses bits
in a `uint32_t`: its `wraps` flag stays false. -/

namespace Zircon.MBufChain

/-- The valid bytes still to be read, as each cell with the offset they start at: the read cursor
in the first cell, 0 in the others. -/
def unreadFrom : List MBuf → Nat → List (MBuf × Nat)
  | [], _ => []
  | b :: bs, off => (b, off) :: bs.map (·, 0)

theorem unreadFrom_zero (bs : List MBuf) : unreadFrom bs 0 = bs.map (·, 0) := by
  cases bs <;> rfl

/-! ### Reads and peeks -/

section Read

variable {isConst datagram : Bool} {dst : UserOut} {len : Nat}

/-- After a pass that moves on, by unlinking the cell or by moving the iterator, the next cell is
read from offset 0. -/
theorem readIter_restart {b : MBuf} {s : ReadState}
    (moved : (readIter isConst datagram dst len b s).1 = true) :
    (readIter isConst datagram dst len b s).2.readOff = 0 := by
  cases isConst
  · exact readIter_readOff moved
  · rfl

theorem readIter_events (b : MBuf) (s : ReadState) :
    (readIter isConst datagram dst len b s).2.events = s.events ++ [copyEvent dst len b s] := by
  cases isConst
  · exact (@consume_sameCopies datagram b (copyOut dst len b s) (copyLen len b s)).events
  · rfl

/-- Every copy of the loop of a read or a peek reads valid bytes not yet consumed. -/
theorem readLoop_reads : ∀ (bs : List MBuf) (s : ReadState), (∀ b ∈ bs.head?, s.readOff ≤ b.len_) →
    ∃ calls, (readLoop isConst datagram dst len bs s).2.events = s.events ++ calls ∧
      ∀ e ∈ calls, ∃ p ∈ unreadFrom bs s.readOff, e.ReadsFrom p.1 p.2
  | [], s, _ => ⟨[], by simp [readLoop], (fun _ mem => nomatch mem)⟩
  | b :: rest, s, off_le => by
    have first : (copyEvent dst len b s).ReadsFrom b s.readOff := copyEvent_readsFrom (off_le b rfl)
    rw [readLoop]
    split
    · split
      · next moved =>
        obtain ⟨calls, events, reads⟩ := readLoop_reads rest (readIter isConst datagram dst len b s).2
          (fun _ _ => by rw [readIter_restart moved]; exact Nat.zero_le _)
        refine ⟨copyEvent dst len b s :: calls, by rw [events, readIter_events]; simp, ?_⟩
        rintro e (_ | ⟨_, mem⟩)
        · exact ⟨(b, s.readOff), .head _, first⟩
        · obtain ⟨p, hp, reads⟩ := reads e mem
          rw [readIter_restart moved, unreadFrom_zero] at hp
          exact ⟨p, .tail _ hp, reads⟩
      · refine ⟨[copyEvent dst len b s], readIter_events b s, ?_⟩
        rintro e (_ | ⟨_, ⟨⟩⟩)
        exact ⟨(b, s.readOff), .head _, first⟩
    · exact ⟨[], by simp, (fun _ mem => nomatch mem)⟩

/-- A peek's loop leaves the `wraps` flag: `len_ - read_off` never goes below zero. -/
theorem readLoop_peek_wraps : ∀ (bs : List MBuf) (s : ReadState),
    (∀ b ∈ bs.head?, s.readOff ≤ b.len_) → (readLoop true datagram dst len bs s).2.wraps = s.wraps
  | [], _, _ => rfl
  | b :: rest, s, off_le => by
    rw [readLoop]
    split
    · rw [readIter_peek, if_pos rfl,
        readLoop_peek_wraps rest { copyOut dst len b s with readOff := 0 } (fun _ _ => Nat.zero_le _)]
      simp [copyOut_wraps, Nat.not_lt.mpr (off_le b rfl)]
    · rfl

variable (P)

/-- A peek from a cursor within the first cell copies only valid unread bytes and does not wrap. -/
theorem peek_reads (c : MBufChain) (dst : UserOut) (len : Nat) (datagram : Bool)
    (off_le : ∀ b ∈ c.buffers_.head?, c.readCursorOff_ ≤ b.len_) :
    (c.peek P dst len datagram).wraps = false ∧ ∀ e ∈ (c.peek P dst len datagram).events,
      ∃ p ∈ unreadFrom c.buffers_ c.readCursorOff_, e.ReadsFrom p.1 p.2 := by
  by_cases empty : c.size_ = 0
  · rw [peek, readHelper_empty P empty]
    exact ⟨rfl, (fun _ mem => nomatch mem)⟩
  simp only [peek, readHelper, if_neg empty, if_true]
  generalize (if datagram = true ∧ c.frontPktLen < len then c.frontPktLen else len) = len'
  obtain ⟨calls, events, reads⟩ := @readLoop_reads true datagram dst len' c.buffers_ (.init c) off_le
  refine ⟨readLoop_peek_wraps _ _ off_le, fun e mem => reads e ?_⟩
  rw [events] at mem
  simpa [ReadState.init] using mem

/-- The copies a read makes are those of the peek with the same arguments. -/
theorem read_reads (c : MBufChain) (dst : UserOut) (len : Nat) (datagram : Bool)
    (off_le : ∀ b ∈ c.buffers_.head?, c.readCursorOff_ ≤ b.len_) :
    ∀ e ∈ (c.read P dst len datagram).events, e.isCopyToUser →
      ∃ p ∈ unreadFrom c.buffers_ c.readCursorOff_, e.ReadsFrom p.1 p.2 := by
  intro e mem copy
  refine (peek_reads P c dst len datagram off_le).2 e ?_
  rw [(peek_read P c dst len datagram off_le).2.2.1]
  exact List.mem_filter.mpr ⟨mem, copy⟩

end Read

/-! ### Writes -/

section Write

variable {P : PageSize} {src : UserIn} {len : Nat}

/-- The cells `AllocMBufs` returns are empty, each on a page it obtained. -/
theorem allocMBufs_fresh {allocPages : Nat → Option (List FreshPage)} {num : Nat} {bufs : List MBuf}
    (alloc : (allocMBufs P allocPages num).1 = some bufs) :
    ∀ b ∈ bufs, b.len_ = 0 ∧ b.page_ ∈ obtainedOf (allocMBufs P allocPages num).2 := by
  obtain ⟨fresh, got, rfl⟩ := allocMBufs_some alloc
  intro b mem
  obtain ⟨f, hf, rfl⟩ := List.mem_map.mp (List.mem_reverse.mp mem)
  refine ⟨rfl, ?_⟩
  simp only [allocMBufs, got, obtainedOf_cons, Event.obtained]
  exact List.mem_append_left _ (List.mem_map_of_mem _ hf)

/-- `AllocMBufs` copies nothing. -/
theorem not_isCopy_allocMBufs {allocPages : Nat → Option (List FreshPage)} {num : Nat} :
    ∀ e ∈ (allocMBufs P allocPages num).2, e.isCopy = false := by
  intro e mem
  cases got : allocPages num <;> simp only [allocMBufs, got, List.mem_cons, List.mem_map,
    List.mem_singleton, List.not_mem_nil, or_false] at mem
  · rw [mem]; rfl
  · rcases mem with rfl | ⟨_, _, rfl⟩ <;> rfl

/-- Filling the last cell copies into its room only. -/
theorem fillTail_writes (bs : List MBuf) (s : WriteState) : ∃ calls,
    (fillTail P src len bs s).2.2.events = s.events ++ calls ∧
      ∀ e ∈ calls, ∃ b ∈ bs.getLast?, e.WritesTo (MBuf.kPayloadSize P) b := by
  unfold fillTail
  split
  · next back last =>
    split
    · next room =>
      refine ⟨[writeEvent P src len back s], writeBuffer_events back s, ?_⟩
      rintro e (_ | ⟨_, ⟨⟩⟩)
      have := @writeLen_le_rem P len back s
      simp only [MBuf.rem] at this room
      exact ⟨back, last, rfl, rfl, by omega⟩
    · exact ⟨[], by simp, (fun _ mem => nomatch mem)⟩
  · exact ⟨[], by simp, (fun _ mem => nomatch mem)⟩

/-- The loop of `WriteStream` over empty cells copies into their room only. -/
theorem fillBuffers_writes : ∀ (bufs buffers : List MBuf) (s : WriteState), (∀ b ∈ bufs, b.len_ = 0) →
    ∃ extra, (fillBuffers P src len buffers bufs s).2.2.events = s.events ++ extra ∧
      ∀ e ∈ extra, e.isCopy → ∃ b ∈ bufs, e.WritesTo (MBuf.kPayloadSize P) b
  | [], _, _, _ => ⟨[], by simp [fillBuffers], (fun _ mem => nomatch mem)⟩
  | buf :: bufs, buffers, s, empty => by
    have first : (writeEvent P src len buf s).WritesTo (MBuf.kPayloadSize P) buf := by
      have room := @writeLen_le_rem P len buf s
      have zero := empty buf (.head _)
      simp only [MBuf.rem] at room
      exact ⟨rfl, rfl, by omega⟩
    rw [fillBuffers]
    split
    · obtain ⟨extra, events, writes⟩ := fillBuffers_writes bufs
        (buffers ++ [(writeBuffer P src len buf s).2.1]) (writeBuffer P src len buf s).2.2
        fun b mem => empty b (.tail _ mem)
      refine ⟨writeEvent P src len buf s :: extra, by rw [events, writeBuffer_events]; simp, ?_⟩
      rintro e (_ | ⟨_, mem⟩) copy
      · exact ⟨buf, .head _, first⟩
      · obtain ⟨b, hb, w⟩ := writes e mem copy
        exact ⟨b, .tail _ hb, w⟩
    · refine ⟨writeEvent P src len buf s :: freeMBufs P (buf :: bufs),
        by simp [writeBuffer_events], ?_⟩
      rintro e (_ | ⟨_, mem⟩) copy
      · exact ⟨buf, .head _, first⟩
      · simp [not_isCopy_freeMBufs P mem] at copy

/-- The copy loop of `WriteDatagram` over empty cells copies into their room only. -/
theorem fillDatagram_writes (bufs : List MBuf) (s : WriteState) (empty : ∀ b ∈ bufs, b.len_ = 0) :
    ∃ calls, (fillDatagram P src len bufs s).2.events = s.events ++ calls ∧
      ∀ e ∈ calls, ∃ b ∈ bufs, e.WritesTo (MBuf.kPayloadSize P) b := by
  induction bufs, s using fillDatagram.induct P src len with
  | case1 s => exact ⟨[], by simp [fillDatagram], (fun _ mem => nomatch mem)⟩
  | case2 buf bufs s n status s' copied ih =>
    obtain ⟨calls, events, writes⟩ := ih fun b mem => empty b (.tail _ mem)
    rw [fillDatagram]
    dsimp only at copied events ⊢
    rw [if_pos copied]
    refine ⟨.copyFromUser s.pos buf.page_ 0 n status :: calls, by rw [events]; simp, ?_⟩
    rintro e (_ | ⟨_, mem⟩)
    · exact ⟨buf, .head _, rfl, (empty buf (.head _)).symm,
      (Nat.zero_add _).trans_le (Nat.min_le_left _ _)⟩
    · obtain ⟨b, hb, w⟩ := writes e mem
      exact ⟨b, .tail _ hb, w⟩
  | case3 buf bufs s n status fault =>
    rw [fillDatagram]
    dsimp only at fault ⊢
    rw [if_neg fault]
    refine ⟨[_], rfl, ?_⟩
    rintro e (_ | ⟨_, ⟨⟩⟩)
    exact ⟨buf, .head _, rfl, (empty buf (.head _)).symm,
      (Nat.zero_add _).trans_le (Nat.min_le_left _ _)⟩

variable (P)

/-- Where a write may copy from the user: the room of the last cell of `bs`, or of an empty cell on
a page obtained by the calls `events`. -/
def WritesInto (bs : List MBuf) (events : List Event) (e : Event) : Prop :=
  ∃ b, e.WritesTo (MBuf.kPayloadSize P) b ∧
    (b ∈ bs.getLast? ∨ (b.len_ = 0 ∧ b.page_ ∈ obtainedOf events))

/-- `WriteStream` copies from the user into the room of the last cell and of the cells it adds. -/
theorem writeStream_writes (c : MBufChain) (allocPages : Nat → Option (List FreshPage))
    (src : UserIn) (len : Nat) :
    ∀ e ∈ (c.writeStream P allocPages src len).events, e.isCopy →
      WritesInto P c.buffers_ (c.writeStream P allocPages src len).events e := by
  unfold writeStream
  dsimp only
  generalize min (kSizeMax P - c.size_) len = len'
  obtain ⟨calls, events, tail⟩ :=
    @fillTail_writes P src len' c.buffers_ ⟨0, c.size_, [], decide (kSizeMax P < c.size_)⟩
  generalize fillTail P src len' c.buffers_ _ = t at events ⊢
  simp only [List.nil_append] at events
  have last : ∀ events', ∀ e ∈ t.2.2.events, WritesInto P c.buffers_ events' e := fun _ e mem => by
    rw [events] at mem
    obtain ⟨b, hb, w⟩ := tail e mem
    exact ⟨b, w, .inl hb⟩
  split
  · exact fun e mem _ => last _ e mem
  split
  · exact fun e mem _ => last _ e mem
  have fresh := @allocMBufs_fresh P allocPages (MBuf.numBuffersForPayload P (len' - t.2.2.pos))
  have noCopy := @not_isCopy_allocMBufs P allocPages (MBuf.numBuffersForPayload P (len' - t.2.2.pos))
  generalize allocMBufs P allocPages _ = a at fresh noCopy ⊢
  obtain ⟨_ | bufs, allocEvents⟩ := a
  · intro e mem copy
    rcases List.mem_append.mp mem with mem | mem
    · exact last _ e mem
    · simp [noCopy e mem] at copy
  · dsimp only at fresh ⊢
    obtain ⟨extra, fillEvents, writes⟩ := @fillBuffers_writes P src len' bufs t.2.1
      { t.2.2 with events := t.2.2.events ++ allocEvents } fun b mem => (fresh rfl b mem).1
    rw [writeResult_events, fillEvents]
    intro e mem copy
    rcases List.mem_append.mp mem with mem | mem
    · rcases List.mem_append.mp mem with mem | mem
      · exact last _ e mem
      · simp [noCopy e mem] at copy
    · obtain ⟨b, hb, w⟩ := writes e mem copy
      obtain ⟨empty, got⟩ := fresh rfl b hb
      exact ⟨b, w, .inr ⟨empty, by simp [got]⟩⟩

/-- `WriteDatagram` copies from the user into the room of the cells it builds. -/
theorem writeDatagram_writes (c : MBufChain) (allocPages : Nat → Option (List FreshPage))
    (src : UserIn) (len : Nat) :
    ∀ e ∈ (c.writeDatagram P allocPages src len).events, e.isCopy →
      WritesInto P c.buffers_ (c.writeDatagram P allocPages src len).events e := by
  unfold writeDatagram
  split
  · exact fun _ mem => nomatch mem
  split
  · exact fun _ mem => nomatch mem
  split
  · exact fun _ mem => nomatch mem
  dsimp only
  have fresh := @allocMBufs_fresh P allocPages (MBuf.numBuffersForPayload P len)
  have noCopy := @not_isCopy_allocMBufs P allocPages (MBuf.numBuffersForPayload P len)
  generalize allocMBufs P allocPages _ = a at fresh noCopy ⊢
  obtain ⟨_ | bufs, allocEvents⟩ := a
  · exact fun e mem copy => by simp [noCopy e mem] at copy
  dsimp only at fresh ⊢
  obtain ⟨calls, events, writes⟩ := @fillDatagram_writes P src len bufs ⟨0, c.size_, allocEvents, false⟩
    fun b mem => (fresh rfl b mem).1
  have into : ∀ more, ∀ e ∈ allocEvents ++ calls ++ more, e.isCopy →
      (∀ e ∈ more, e.isCopy = false) → WritesInto P c.buffers_ (allocEvents ++ calls ++ more) e := by
    intro more e mem copy quiet
    rcases List.mem_append.mp mem with mem | mem
    · rcases List.mem_append.mp mem with mem | mem
      · simp [noCopy e mem] at copy
      · obtain ⟨b, hb, w⟩ := writes e mem
        obtain ⟨empty, got⟩ := fresh rfl b hb
        exact ⟨b, w, .inr ⟨empty, by simp [got]⟩⟩
    · simp [quiet e mem] at copy
  generalize fillDatagram P src len bufs _ = f at events ⊢
  obtain ⟨_ | filled, fs⟩ := f
  · dsimp only at events ⊢
    rw [events]
    exact fun e mem copy => into _ e mem copy fun e mem => not_isCopy_freeMBufs P mem
  · dsimp only at events ⊢
    rw [events, ← List.append_nil (allocEvents ++ calls)]
    exact fun e mem copy => into [] e mem copy fun _ mem => nomatch mem

end Write

/-! ### Every run -/

section Runs

variable {P : PageSize} {datagram : Bool} {c : MBufChain} {t : List Event}

/-- A datagram read never wraps, whatever its length. -/
theorem read_datagram_wraps (inv : DatagramInv P c) (dst : UserOut) (len : Nat) :
    (c.read P dst len true).wraps = false := by
  by_cases zero : len = 0
  · rw [zero, read_datagram_zero inv]
  cases split : segments c.buffers_ with
  | nil =>
    have : c.size_ = 0 :=
      inv.size_eq_zero_iff.mpr (by simpa [split] using flatten_segments c.buffers_)
    rw [read, readHelper_empty P this]
  | cons seg segs => exact (read_datagram inv (Nat.pos_of_ne_zero zero) split).2.wraps

variable (P)

/-- What the operations on `c` copy, and that their arithmetic stays exact. A read copies to the
user only valid bytes it has not consumed, and so does a peek, which copies nothing else; a write
whose allocator keeps its promise copies from the user only into the room of the last cell or of a
cell it built. None of them sets `wraps`: `size_ -= copy_len`, `size_ -= len_ - read_off`,
`kSizeMax - size_` and `len_ - read_off` stay non-negative, and `read_off + copy_len`,
`len_ + copy_len` and the datagram length stored in `pkt_len_` fit a `uint32_t`. -/
structure InBounds (datagram : Bool) (c : MBufChain) : Prop where
  read : ∀ dst len, (c.read P dst len datagram).wraps = false ∧
    ∀ e ∈ (c.read P dst len datagram).events, e.isCopyToUser →
      ∃ p ∈ unreadFrom c.buffers_ c.readCursorOff_, e.ReadsFrom p.1 p.2
  peek : ∀ dst len, (c.peek P dst len datagram).wraps = false ∧
    ∀ e ∈ (c.peek P dst len datagram).events,
      ∃ p ∈ unreadFrom c.buffers_ c.readCursorOff_, e.ReadsFrom p.1 p.2
  write : ∀ allocPages src len, PagesFresh c allocPages →
    (Op.run P datagram c (.write allocPages src len)).wraps = false ∧
    ∀ e ∈ (Op.run P datagram c (.write allocPages src len)).events, e.isCopy →
      WritesInto P c.buffers_ (Op.run P datagram c (.write allocPages src len)).events e

variable {P}

theorem copies_in_bounds (reach : Reach P datagram c t) : InBounds P datagram c := by
  have off_le := cursor_of_reach reach
  refine ⟨fun dst len => ⟨?_, read_reads P c dst len datagram off_le⟩,
    fun dst len => peek_reads P c dst len datagram off_le, fun allocPages src len fresh => ?_⟩
  · cases datagram
    · exact (read_stream (streamInv_of_reach reach)).2.wraps
    · exact read_datagram_wraps (datagramInv_of_reach reach) dst len
  · cases datagram
    · exact ⟨(writeStream_stream (streamInv_of_reach reach) fresh).2.wraps,
        writeStream_writes P c allocPages src len⟩
    · exact ⟨(writeDatagram_post (datagramInv_of_reach reach) fresh).1.wraps,
        writeDatagram_writes P c allocPages src len⟩

/-- The bounds hold on the stream sample, whose cursor is inside its first cell, and on the datagram
sample. -/
theorem copies_in_bounds_sample :
    InBounds pageSize4K false streamSample ∧ InBounds pageSize4K true datagramSample :=
  ⟨streamSample_reach.2.2.elim fun _ reach => copies_in_bounds reach,
    datagramSample_reach.2.2.elim fun _ reach => copies_in_bounds reach⟩

end Runs

end Zircon.MBufChain
