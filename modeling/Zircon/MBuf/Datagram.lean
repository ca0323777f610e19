import Zircon.MBuf.Run
import Zircon.MBuf.DatagramRead
import Zircon.MBuf.DatagramWrite

/-! A chain used for datagrams. Its shape (`DatagramInv`): no read cursor, and the cells split into
datagrams (`segments`), each a first cell that records the datagram's length in `pkt_len_` and the
cells that continue it. `WriteDatagram`, `Read` and `Peek` keep the shape from any state, and on
every chain of that shape a write appends a whole datagram to the queue of datagrams or leaves the
chain as it was, and a read removes exactly the first datagram and delivers a prefix of it. -/

namespace Zircon.MBufChain

variable (P : PageSize)

/-- The cells of one datagram: the first has as `pkt_len_` the datagram's length, at least 1 and
the sum of the cells' `len_`, the others have `pkt_len_ = 0`; each holds 1 to `kPayloadSize`
bytes and all but the last are full. -/
structure Segment (seg : List MBuf) : Prop where
  ne_nil : seg ≠ []
  head : ∀ h ∈ seg.head?, 0 < h.pktLen_ ∧ h.pktLen_ = lens seg
  tail : ∀ b ∈ seg.tail, b.pktLen_ = 0
  cells : ∀ b ∈ seg, 0 < b.len_ ∧ b.len_ ≤ MBuf.kPayloadSize P
  full : ∀ b ∈ seg.dropLast, b.len_ = MBuf.kPayloadSize P

/-- The shape of a datagram chain: the read cursor at 0, the cells split into datagrams, and
`size_` their total length, at most `kSizeMax`. -/
structure DatagramInv (c : MBufChain) : Prop where
  cursor : c.readCursorOff_ = 0
  parts : ∀ seg ∈ segments c.buffers_, Segment P seg
  size : c.size_ = lens c.buffers_
  bounded : c.size_ ≤ kSizeMax P

/-- What `WriteDatagram(src, len)` on `c` returns as `r`: on `ZX_OK` it wrote all `len` bytes and
appended `src[0, len)` to the datagrams, and it returns `ZX_OK` whenever the datagram is not empty,
fits, and every call succeeds; none of its arithmetic wraps. -/
structure WritesDatagram (c : MBufChain) (src : UserIn) (len : Nat) (r : Result) : Prop where
  appended : r.status = .ok → r.count = len ∧ datagrams r.chain = datagrams c ++ [slice src.bytes 0 len]
  succeeds : 1 ≤ len → len + c.size false ≤ kSizeMax P → (∀ e ∈ r.events, e.ok) → r.status = .ok
  wraps : r.wraps = false

/-- What a datagram read of at most `len` bytes from `c`, whose first datagram is `d`, returns as
`r`: it removes `d` and nothing else, delivers `d[0, *actual)`, all `len` bytes of it or all of
it unless a copy faults, and none of its arithmetic wraps. -/
structure ReadsDatagram (c : MBufChain) (len : Nat) (d : List UInt8) (r : Result) : Prop where
  rest : datagrams r.chain = (datagrams c).tail
  delivered : ∀ i < r.count, userBytes r.events i = d[i]?
  count_le : r.count ≤ min len d.length
  complete : r.status = .ok → r.count = min len d.length
  wraps : r.wraps = false

/-- A chain that implements a FIFO queue of datagrams, of at most `kSizeMax` bytes in all:
`size()` counts their bytes and `size(true)` those of the first, `WriteDatagram` appends one and
`Read` removes the first. -/
structure DatagramQueue (c : MBufChain) : Prop where
  size : c.size false = ((datagrams c).map List.length).sum
  sizeHead : ∀ d ∈ (datagrams c).head?, c.size true = d.length
  write : ∀ allocPages src len, PagesFresh c allocPages →
    WritesDatagram P c src len (c.writeDatagram P allocPages src len)
  read : ∀ dst len, 1 ≤ len → ∀ d ∈ (datagrams c).head?,
    ReadsDatagram c len d (c.read P dst len true)

variable {P}

theorem DatagramInv.empty : DatagramInv P empty :=
  ⟨rfl, fun _ h => by simp [MBufChain.empty, segments] at h, rfl, Nat.zero_le _⟩

/-! ### The shape -/

section Shape

variable {seg : List MBuf} {c : MBufChain}

/-- A datagram's cells are the cells its length needs. -/
theorem Segment.length_eq (s : Segment P seg) :
    seg.length = MBuf.numBuffersForPayload P (lens seg) := by
  have kP_pos := MBuf.kPayloadSize_pos P
  cases last : seg.getLast? with
  | none => exact absurd (List.getLast?_eq_none_iff.mp last) s.ne_nil
  | some back =>
    obtain ⟨front, rfl⟩ := List.getLast?_eq_some_iff.mp last
    have full : lens front = front.length * MBuf.kPayloadSize P :=
      lens_of_full fun b mem => s.full b (by simpa using mem)
    obtain ⟨pos, le⟩ := s.cells back (by simp)
    rw [lens_append, full, lens_cons, lens_nil, Nat.add_zero, MBuf.numBuffersForPayload,
      show front.length * MBuf.kPayloadSize P + back.len_ - 1 =
        (back.len_ - 1) + MBuf.kPayloadSize P * front.length by rw [Nat.mul_comm]; omega,
      Nat.add_mul_div_left _ _ kP_pos, Nat.div_eq_of_lt (by omega)]
    simp only [List.length_append, List.length_singleton]
    omega

theorem Segment.head_ne (s : Segment P seg) : ∀ h ∈ seg.head?, h.pktLen_ ≠ 0 :=
  fun h mem => Nat.pos_iff_ne_zero.mp (s.head h mem).1

/-- A datagram's cells are one part. -/
theorem Segment.segments_eq (s : Segment P seg) : segments seg = [seg] := by
  cases seg with
  | nil => exact absurd rfl s.ne_nil
  | cons h tl => exact segments_of_tail h s.tail

/-- Datagrams split back into themselves, so the split of the cells is the only one. -/
theorem segments_flatten_of_segment {segs : List (List MBuf)} (parts : ∀ seg ∈ segs, Segment P seg) :
    segments segs.flatten = segs :=
  segments_flatten fun seg mem => by
    cases seg with
    | nil => exact absurd rfl (parts _ mem).ne_nil
    | cons h tl => exact ⟨h, tl, rfl, (parts _ mem).head_ne h rfl, (parts _ mem).tail⟩

/-- Datagrams laid end to end begin with a datagram's first cell. -/
theorem head_flatten {segs : List (List MBuf)} (parts : ∀ seg ∈ segs, Segment P seg) :
    ∀ h ∈ segs.flatten.head?, h.pktLen_ ≠ 0 := by
  cases segs with
  | nil => simp
  | cons seg segs =>
    have s := parts seg (.head _)
    cases seg with
    | nil => exact absurd rfl s.ne_nil
    | cons h tl => simpa using s.head_ne h rfl

/-- The first datagram is the bytes of the first part. -/
theorem datagrams_head {d : List UInt8} (mem : d ∈ (datagrams c).head?) :
    ∃ seg segs, segments c.buffers_ = seg :: segs ∧ d = seg.flatMap MBuf.bytes := by
  unfold datagrams at mem
  cases split : segments c.buffers_ with
  | nil => simp [split] at mem
  | cons seg segs =>
    simp only [split, List.map_cons, List.head?_cons, Option.mem_some_iff] at mem
    exact ⟨seg, segs, rfl, mem.symm⟩

theorem DatagramInv.size_eq_sum (inv : DatagramInv P c) :
    c.size_ = ((datagrams c).map List.length).sum := by
  have total := lens_flatten (segments c.buffers_)
  rw [flatten_segments] at total
  rw [inv.size, total, datagrams, List.map_map]
  congr 1
  exact List.map_congr_left fun seg _ => (length_flatMap_bytes seg).symm

/-- The first cell of a datagram chain begins a datagram. -/
theorem DatagramInv.front (inv : DatagramInv P c) {seg : List MBuf} {segs : List (List MBuf)}
    (split : segments c.buffers_ = seg :: segs) :
    c.frontPktLen = lens seg ∧ c.buffers_ = seg ++ segs.flatten ∧ 0 < lens seg := by
  have s := inv.parts seg (by simp [split])
  have flat := flatten_segments c.buffers_
  rw [split, List.flatten_cons] at flat
  cases seg with
  | nil => exact absurd rfl s.ne_nil
  | cons h tl =>
    obtain ⟨pos, pkt⟩ := s.head h rfl
    refine ⟨?_, flat.symm, by omega⟩
    rw [frontPktLen, ← flat]
    exact pkt

theorem DatagramInv.size_eq_zero_iff (inv : DatagramInv P c) : c.size_ = 0 ↔ c.buffers_ = [] := by
  constructor
  · intro empty
    cases split : segments c.buffers_ with
    | nil => simpa [split] using flatten_segments c.buffers_
    | cons seg segs =>
      obtain ⟨-, flat, pos⟩ := inv.front split
      rw [inv.size, flat, lens_append] at empty
      omega
  · intro bs
    rw [inv.size, bs, lens_nil]

end Shape

/-! ### `WriteDatagram` -/

section Write

variable {c : MBufChain} {allocPages : Nat → Option (List FreshPage)} {src : UserIn} {len : Nat}

theorem lens_setPktLen (bs : List MBuf) : lens (setPktLen len bs) = lens bs := by cases bs <;> rfl

theorem flatMap_bytes_setPktLen (bs : List MBuf) :
    (setPktLen len bs).flatMap MBuf.bytes = bs.flatMap MBuf.bytes := by cases bs <;> rfl

/-- The cells `WriteDatagram` fills, with the length set on the first, are one datagram. -/
theorem segment_setPktLen {filled : List MBuf} (cells : StreamCells P filled) (ne : filled ≠ [])
    (total : lens filled = len) (pos : 0 < len) : Segment P (setPktLen len filled) := by
  cases filled with
  | nil => exact absurd rfl ne
  | cons h tl =>
    refine ⟨List.cons_ne_nil _ _, fun b mem => ?_, fun b mem => (cells.cells b (.tail _ mem)).2.2,
      fun b mem => ?_, fun b mem => ?_⟩
    · cases Option.mem_some_iff.mp mem
      exact ⟨pos, by rw [lens_setPktLen, total]⟩
    · rcases List.mem_cons.mp mem with rfl | mem
      · exact ⟨(cells.cells h (.head _)).1, (cells.cells h (.head _)).2.1⟩
      · exact ⟨(cells.cells b (.tail _ mem)).1, (cells.cells b (.tail _ mem)).2.1⟩
    · cases tl with
      | nil => simp [setPktLen] at mem
      | cons t tl =>
        rw [setPktLen, List.dropLast_cons₂] at mem
        rcases List.mem_cons.mp mem with rfl | mem
        · exact cells.full h (by simp)
        · exact cells.full b (by rw [List.dropLast_cons₂]; exact .tail _ mem)

/-- `WriteDatagram` on a chain of datagram shape: it appends one whole datagram or changes
nothing, and keeps the shape. -/
theorem writeDatagram_post (inv : DatagramInv P c) (fresh : PagesFresh c allocPages) :
    WritesDatagram P c src len (c.writeDatagram P allocPages src len) ∧
      DatagramInv P (c.writeDatagram P allocPages src len).chain := by
  have size : c.size false = c.size_ := by simp [MBufChain.size]
  unfold writeDatagram
  split
  · exact ⟨⟨(fun h => nomatch h), by omega, rfl⟩, inv⟩
  split
  · exact ⟨⟨(fun h => nomatch h), by omega, rfl⟩, inv⟩
  split
  · next short _ =>
    have small := MBuf.kPayloadSize_lt P
    have bounded := inv.bounded
    unfold kSizeMax at short bounded
    exact ⟨⟨(fun h => nomatch h), by omega, decide_eq_false (by omega)⟩, inv⟩
  next zero too_long too_full =>
  dsimp only
  have alloc_none := @allocMBufs_none P allocPages (MBuf.numBuffersForPayload P len)
  have alloc_some := @allocMBufs_some P allocPages (MBuf.numBuffersForPayload P len)
  generalize allocMBufs P allocPages _ = a at alloc_none alloc_some ⊢
  obtain ⟨_ | bufs, events⟩ := a
  · obtain ⟨e, mem, bad⟩ := alloc_none rfl
    exact ⟨⟨(fun h => nomatch h), fun _ _ all => by simp [all e mem] at bad, rfl⟩, inv⟩
  obtain ⟨pages, got, rfl⟩ := alloc_some rfl
  dsimp only
  have fits := MBuf.numBuffersForPayload_fits P (Nat.pos_of_ne_zero zero)
  have one : pages.length ≠ 0 := by
    rw [(fresh _ _ got).1, MBuf.numBuffersForPayload]
    simp
  rw [← (fresh _ _ got).1] at fits
  have := Nat.sub_one_mul pages.length (MBuf.kPayloadSize P)
  have := Nat.le_mul_of_pos_left (MBuf.kPayloadSize P) (Nat.pos_of_ne_zero one)
  obtain ⟨-, wraps, done, fault⟩ := @fillDatagram_spec P src len (pages.map MBuf.ofPage).reverse
    ⟨0, c.size_, events, false⟩ (by simp [MBuf.ofPage]) (Nat.zero_le _)
    (by simpa using fits.2) (by simp only [List.length_reverse, List.length_map]; omega)
  generalize fillDatagram P src len _ _ = f at wraps done fault ⊢
  obtain ⟨_ | filled, fs⟩ := f
  · obtain ⟨e, mem, bad⟩ := fault rfl
    exact ⟨⟨(fun h => nomatch h), fun _ _ all => by simp [all e (List.mem_append_left _ mem)] at bad,
      wraps⟩, inv⟩
  obtain ⟨length, -, bytes, shape⟩ := done _ rfl
  dsimp only at wraps bytes ⊢
  have total : lens filled = len := by
    rw [← length_flatMap_bytes, bytes, length_slice]; omega
  have seg := segment_setPktLen shape (by
    rw [← List.length_pos, length, List.length_reverse, List.length_map]; omega) total
    (Nat.pos_of_ne_zero zero)
  have split : segments (c.buffers_ ++ setPktLen len filled) =
      segments c.buffers_ ++ [setPktLen len filled] := by
    rw [segments_append _ seg.head_ne, seg.segments_eq]
  refine ⟨⟨fun _ => ⟨rfl, ?_⟩, fun _ _ _ => rfl, ?_⟩, ⟨inv.cursor, ?_, ?_, ?_⟩⟩
  · simp [datagrams, split, flatMap_bytes_setPktLen, bytes]
  · rw [wraps, Bool.false_or, decide_eq_false]
    have := MBuf.kPayloadSize_lt P
    simp only [kSizeMax] at too_long
    omega
  · rw [split]
    intro s mem
    rcases List.mem_append.mp mem with mem | mem
    · exact inv.parts s mem
    · rw [List.mem_singleton.mp mem]; exact seg
  · simp only [lens_append, lens_setPktLen, total, inv.size]
  · show c.size_ + len ≤ kSizeMax P
    omega

end Write

/-! ### `Read` and `Peek` -/

section Read

variable {c : MBufChain} {dst : UserOut} {len : Nat}

/-- A datagram read of at least one byte removes the first datagram and nothing else. -/
theorem read_datagram (inv : DatagramInv P c) (pos : 0 < len) {seg : List MBuf}
    {segs : List (List MBuf)} (split : segments c.buffers_ = seg :: segs) :
    (c.read P dst len true).chain = ⟨segs.flatten, 0, lens segs.flatten⟩ ∧
      ReadsDatagram c len (seg.flatMap MBuf.bytes) (c.read P dst len true) := by
  obtain ⟨frontLen, flat, seg_pos⟩ := inv.front split
  have s := inv.parts seg (by simp [split])
  have parts : ∀ seg' ∈ segs, Segment P seg' := fun seg' mem => inv.parts seg' (by simp [split, mem])
  have nonempty : c.size_ ≠ 0 := by rw [inv.size, flat, lens_append]; omega
  have fits := MBuf.kPayloadSize_lt P
  rw [read_datagram_eq P nonempty, frontLen, flat]
  have post := @readLoop_datagram dst (min len (lens seg)) seg segs.flatten (.init c)
    (fun b mem => by have := (s.cells b mem).2; omega) inv.cursor (by rw [← flat]; exact inv.size)
    (Nat.zero_le _) (by simp only [ReadState.init]; omega) rfl
  generalize readLoop false true dst _ _ _ = r at post ⊢
  obtain ⟨⟨front, back, seg_eq, left, free, progress⟩, readOff, size, -, pos_le, done, user, wraps⟩ :=
    post
  have tail : ∀ b ∈ back, b.pktLen_ = 0 := by
    cases front with
    | nil => exact absurd rfl (progress (by simp only [ReadState.init]; omega))
    | cons f front => exact fun b mem => s.tail b (by rw [seg_eq]; simp [mem])
  rw [left, drain_tail tail (head_flatten parts) readOff (by rw [size, left, lens_append]; omega)]
  simp only [ReadState.init] at user wraps
  refine ⟨by simp only [readResult_chain, readOff, size, left, lens_append, Nat.add_sub_cancel_left],
    ⟨?_, fun i lt => ?_, ?_, fun ok => ?_, wraps⟩⟩
  · simp only [datagrams, readResult_chain, segments_flatten_of_segment parts, split, List.map_cons,
      List.tail_cons]
  · rw [userBytes_readResult P, user, if_pos ⟨Nat.zero_le _, lt⟩]
    rfl
  · rw [readResult_count, length_flatMap_bytes]
    exact pos_le
  · rw [readResult_count, length_flatMap_bytes]
    exact done ok

/-- A datagram read of no bytes does nothing: the drain stops at the first cell. -/
theorem read_datagram_zero (inv : DatagramInv P c) : c.read P dst 0 true = ⟨c, 0, .ok, [], false⟩ := by
  by_cases empty : c.size_ = 0
  · rw [read, readHelper_empty P empty]
  cases split : segments c.buffers_ with
  | nil => exact absurd (by simpa [split] using flatten_segments c.buffers_) ((inv.size_eq_zero_iff).not.mp empty)
  | cons seg segs =>
    obtain ⟨-, flat, -⟩ := inv.front split
    have s := inv.parts seg (by simp [split])
    rw [read_datagram_eq P empty, Nat.zero_min, readLoop_stop (by simp [ReadState.init])]
    cases seg with
    | nil => exact absurd rfl s.ne_nil
    | cons h tl =>
      rw [flat, List.cons_append, drain, if_neg (s.head_ne h rfl), ← List.cons_append, ← flat]
      rfl

/-- A datagram read keeps the shape. -/
theorem read_datagram_inv (inv : DatagramInv P c) : DatagramInv P (c.read P dst len true).chain := by
  by_cases zero : len = 0
  · rw [zero, read_datagram_zero inv]; exact inv
  cases split : segments c.buffers_ with
  | nil =>
    have : c.size_ = 0 := inv.size_eq_zero_iff.mpr (by simpa [split] using flatten_segments c.buffers_)
    rw [read, readHelper_empty P this]; exact inv
  | cons seg segs =>
    rw [(read_datagram inv (Nat.pos_of_ne_zero zero) split).1]
    have parts : ∀ seg' ∈ segs, Segment P seg' :=
      fun seg' mem => inv.parts seg' (by simp [split, mem])
    obtain ⟨-, flat, -⟩ := inv.front split
    have := inv.bounded
    have := inv.size
    refine ⟨rfl, by rw [segments_flatten_of_segment parts]; exact parts, rfl, ?_⟩
    rw [flat, lens_append] at *
    show lens segs.flatten ≤ kSizeMax P
    omega

end Read

theorem stepDatagram_inv {c : MBufChain} (op : Op) (inv : DatagramInv P c) (allowed : op.Allowed c) :
    DatagramInv P (op.run P true c).chain := by
  cases op with
  | write allocPages src len => exact (writeDatagram_post inv allowed).2
  | read dst len => exact read_datagram_inv inv
  | peek dst len => simpa [Op.run] using inv

/-! ### Every datagram run -/

section Runs

variable {c : MBufChain} {t : List Event}

/-- Every chain a datagram run reaches has the datagram shape. -/
theorem datagramInv_of_reach (reach : Reach P true c t) : DatagramInv P c :=
  reach.inv DatagramInv.empty fun _ op inv allowed => stepDatagram_inv op inv allowed

theorem datagram_invariant (reach : Reach P true c t) :
    DatagramInv P c ∧ (segments c.buffers_).flatten = c.buffers_ ∧
      (∀ segs : List (List MBuf), segs.flatten = c.buffers_ → (∀ seg ∈ segs, Segment P seg) →
        segs = segments c.buffers_) ∧
      (∀ seg ∈ segments c.buffers_, seg.length = MBuf.numBuffersForPayload P (lens seg)) ∧
      c.size_ = ((segments c.buffers_).map lens).sum ∧
      (∀ b ∈ c.buffers_.head?, 0 < b.pktLen_) ∧ (c.size_ = 0 ↔ c.buffers_ = []) := by
  have inv := datagramInv_of_reach reach
  refine ⟨inv, flatten_segments _, fun segs flat parts => by
      rw [← flat, segments_flatten_of_segment parts],
    fun seg mem => (inv.parts seg mem).length_eq, ?_, fun b mem => ?_, inv.size_eq_zero_iff⟩
  · rw [inv.size, ← lens_flatten, flatten_segments]
  · cases split : segments c.buffers_ with
    | nil =>
      have empty := flatten_segments c.buffers_
      rw [split, List.flatten_nil] at empty
      rw [← empty] at mem
      cases mem
    | cons seg segs =>
      obtain ⟨-, flat, -⟩ := inv.front split
      have s := inv.parts seg (by simp [split])
      cases seg with
      | nil => exact absurd rfl s.ne_nil
      | cons h tl =>
        rw [flat] at mem
        cases Option.mem_some_iff.mp mem
        exact (s.head b rfl).1

/-- The shape after two datagram writes and a read: one datagram of 5000 bytes in two cells. -/
theorem datagram_invariant_sample :
    DatagramInv pageSize4K datagramSample ∧
      (segments datagramSample.buffers_).flatten = datagramSample.buffers_ ∧
      (∀ segs : List (List MBuf), segs.flatten = datagramSample.buffers_ →
        (∀ seg ∈ segs, Segment pageSize4K seg) → segs = segments datagramSample.buffers_) ∧
      (∀ seg ∈ segments datagramSample.buffers_,
        seg.length = MBuf.numBuffersForPayload pageSize4K (lens seg)) ∧
      datagramSample.size_ = ((segments datagramSample.buffers_).map lens).sum ∧
      (∀ b ∈ datagramSample.buffers_.head?, 0 < b.pktLen_) ∧
      (datagramSample.size_ = 0 ↔ datagramSample.buffers_ = []) :=
  datagramSample_reach.2.2.elim fun _ reach => datagram_invariant reach

theorem datagram_refines_fifo (reach : Reach P true c t) : DatagramQueue P c := by
  have inv := datagramInv_of_reach reach
  refine ⟨by rw [MBufChain.size, if_neg (by simp), inv.size_eq_sum], fun d mem => ?_,
    fun _ _ _ fresh => (writeDatagram_post inv fresh).1, fun dst len pos d mem => ?_⟩
  all_goals obtain ⟨seg, segs, split, rfl⟩ := datagrams_head mem
  · obtain ⟨frontLen, flat, pos⟩ := inv.front split
    have nonempty : c.size_ ≠ 0 := by rw [inv.size, flat, lens_append]; omega
    rw [MBufChain.size, if_pos ⟨rfl, nonempty⟩, frontLen, length_flatMap_bytes]
  · exact (read_datagram inv pos split).2

/-- The chain left by two datagram writes and a read is a queue of one datagram. -/
theorem datagram_refines_fifo_sample : DatagramQueue pageSize4K datagramSample :=
  datagramSample_reach.2.2.elim fun _ reach => datagram_refines_fifo reach

end Runs

/-! ### A failed `WriteDatagram` -/

/-- `WriteDatagram` returns `ZX_OK`, or it stores 0 in `*written` and leaves the chain as it was:
each early return precedes every change, and the cells it allocated go back on a fault. -/
theorem writeDatagram_ok_or_unchanged (c : MBufChain) (allocPages : Nat → Option (List FreshPage))
    (src : UserIn) (len : Nat) :
    (c.writeDatagram P allocPages src len).status = .ok ∨
      (c.writeDatagram P allocPages src len).count = 0 ∧
        (c.writeDatagram P allocPages src len).chain = c := by
  unfold writeDatagram
  split
  · exact .inr ⟨rfl, rfl⟩
  split
  · exact .inr ⟨rfl, rfl⟩
  split
  · exact .inr ⟨rfl, rfl⟩
  dsimp only
  split
  · exact .inr ⟨rfl, rfl⟩
  split
  · exact .inr ⟨rfl, rfl⟩
  · exact .inl rfl

theorem writeDatagram_atomic (c : MBufChain) (allocPages : Nat → Option (List FreshPage))
    (src : UserIn) (len : Nat) (fail : (c.writeDatagram P allocPages src len).status ≠ .ok) :
    (c.writeDatagram P allocPages src len).count = 0 ∧
      (c.writeDatagram P allocPages src len).chain = c :=
  (writeDatagram_ok_or_unchanged c allocPages src len).resolve_left fail

/-- A datagram of 5000 bytes on an empty chain of 4 KiB pages takes two cells; the copy into the
second faults. -/
theorem writeDatagram_atomic_second_page :
    (empty.writeDatagram pageSize4K (fun _ => some [⟨⟨1⟩, fun _ => 0⟩, ⟨⟨2⟩, fun _ => 0⟩])
        ⟨fun _ => 7, fun pos _ => if pos = 0 then .ok else .errInvalidArgs⟩ 5000).status ≠ .ok ∧
      (empty.writeDatagram pageSize4K (fun _ => some [⟨⟨1⟩, fun _ => 0⟩, ⟨⟨2⟩, fun _ => 0⟩])
        ⟨fun _ => 7, fun pos _ => if pos = 0 then .ok else .errInvalidArgs⟩ 5000).count = 0 ∧
      (empty.writeDatagram pageSize4K (fun _ => some [⟨⟨1⟩, fun _ => 0⟩, ⟨⟨2⟩, fun _ => 0⟩])
        ⟨fun _ => 7, fun pos _ => if pos = 0 then .ok else .errInvalidArgs⟩ 5000).chain = empty :=
  have fail : (empty.writeDatagram pageSize4K (fun _ => some [⟨⟨1⟩, fun _ => 0⟩, ⟨⟨2⟩, fun _ => 0⟩])
      ⟨fun _ => 7, fun pos _ => if pos = 0 then .ok else .errInvalidArgs⟩ 5000).status ≠ .ok := by
    decide
  ⟨fail, writeDatagram_atomic _ _ _ _ fail⟩

end Zircon.MBufChain
