import Zircon.MBuf.Run
import Zircon.MBuf.StreamRead
import Zircon.MBuf.StreamWrite

/-! A chain used as a stream. Its shape (`StreamInv`) holds from `MBufChain()` on, since
`WriteStream`, `Read` and `Peek` keep it from any state; and on every chain of that shape a write
appends `src[0, written)` to the unread bytes (`contents`) and a read delivers and removes a prefix
of them, so that the chain implements a FIFO queue of at most `kSizeMax` bytes. -/

namespace Zircon.MBufChain

variable (P : PageSize)

/-- The shape of a stream chain: the cells of a stream, the read cursor inside the first, and
`size_` the bytes after the cursor, at most `kSizeMax`. -/
structure StreamInv (c : MBufChain) : Prop where
  cells : StreamCells P c.buffers_
  cursor : Cursor c.buffers_ c.readCursorOff_
  size : c.size_ + c.readCursorOff_ = lens c.buffers_
  bounded : c.size_ ≤ kSizeMax P

/-- What a stream read of at most `len` bytes from `c` returns as `r`: it delivers the first
`*actual` unread bytes to `dst[0, *actual)` and removes them, all `len` of them or all there are
unless a copy faults, and none of its arithmetic wraps. -/
structure ReadsPrefix (c : MBufChain) (len : Nat) (r : Result) : Prop where
  delivered : ∀ i < r.count, userBytes r.events i = (contents c)[i]?
  rest : contents r.chain = (contents c).drop r.count
  count_le : r.count ≤ min len (contents c).length
  complete : r.status = .ok → r.count = min len (contents c).length
  wraps : r.wraps = false

/-- What a stream write of `len` bytes of `src` to `c` returns as `r`: it appends `src[0, *written)`
to the unread bytes, no more than `len` or the room left, all of that unless a call fails, at least
one byte when it returns `ZX_OK`, and none of its arithmetic wraps. -/
structure AppendsPrefix (c : MBufChain) (src : UserIn) (len : Nat) (r : Result) : Prop where
  appended : contents r.chain = contents c ++ slice src.bytes 0 r.count
  count_le : r.count ≤ min len (kSizeMax P - (contents c).length)
  ok_pos : r.status = .ok → 1 ≤ r.count
  complete : (∀ e ∈ r.events, e.ok) → r.count = min len (kSizeMax P - (contents c).length)
  wraps : r.wraps = false

/-- A chain that implements a FIFO queue of at most `kSizeMax` bytes, its unread bytes: `size()`
counts them, `WriteStream` appends to them and `Read` takes from their front. -/
structure StreamQueue (c : MBufChain) : Prop where
  size : c.size false = (contents c).length
  write : ∀ allocPages src len, PagesFresh c allocPages →
    AppendsPrefix P c src len (c.writeStream P allocPages src len)
  read : ∀ dst len, ReadsPrefix c len (c.read P dst len false)

variable {P}

theorem StreamInv.empty : StreamInv P empty :=
  ⟨⟨by simp [MBufChain.empty], by simp [MBufChain.empty]⟩, rfl, rfl, Nat.zero_le _⟩

section Shape

variable {c : MBufChain}

/-- `size_` counts the unread bytes. -/
theorem StreamInv.size_eq (inv : StreamInv P c) : c.size_ = (contents c).length := by
  have := cursor_le_lens inv.cursor
  rw [contents, length_unread]
  have := inv.size
  omega

/-- A chain of stream shape holds bytes exactly when it holds cells. -/
theorem StreamInv.size_eq_zero_iff (inv : StreamInv P c) : c.size_ = 0 ↔ c.buffers_ = [] := by
  have size := inv.size
  have cursor := inv.cursor
  constructor
  · intro empty
    cases bs : c.buffers_ with
    | nil => rfl
    | cons b rest =>
      rw [bs] at cursor size
      have := (inv.cells.cells b (by simp [bs])).1
      simp only [Cursor] at cursor
      simp only [lens_cons] at size
      omega
  · intro bs
    rw [bs] at cursor size
    simp only [Cursor] at cursor
    simpa [cursor] using size

/-- `size(true)` of a stream chain is 0: no cell begins a datagram. -/
theorem StreamInv.size_true (inv : StreamInv P c) : c.size true = 0 := by
  unfold MBufChain.size frontPktLen
  split
  · next nonempty =>
    split
    · next b rest bs => exact (inv.cells.cells b (by simp [bs])).2.2
    · rfl
  · next empty => simpa using empty

/-- A stream chain has at most `kSizeMax / kPayloadSize + 1` cells: all but the last are full, the
last holds a byte, and the bytes before the cursor are fewer than a cell's. -/
theorem StreamInv.length_le (inv : StreamInv P c) :
    c.buffers_.length ≤ kSizeMax P / MBuf.kPayloadSize P + 1 := by
  have kP_pos := MBuf.kPayloadSize_pos P
  rw [kSizeMax, Nat.mul_div_cancel _ kP_pos]
  cases last : c.buffers_.getLast? with
  | none => simp_all
  | some back =>
    obtain ⟨front, split⟩ := List.getLast?_eq_some_iff.mp last
    have size := inv.size
    have cursor := cursor_le_lens inv.cursor
    have bounded := inv.bounded
    have back_pos := (inv.cells.cells back (by simp [split])).1
    have full : lens front = front.length * MBuf.kPayloadSize P :=
      lens_of_full fun b mem => inv.cells.full b (by simp [split, mem])
    have off_lt : c.readCursorOff_ < MBuf.kPayloadSize P := by
      cases bs : c.buffers_ with
      | nil => simp [bs] at split
      | cons b _ =>
        have := inv.cursor
        rw [bs] at this
        exact Nat.lt_of_lt_of_le this (inv.cells.cells b (by simp [bs])).2.1
    rw [split, lens_append, full] at size
    rw [split] at cursor ⊢
    simp only [lens_cons, lens_nil, kSizeMax] at size bounded
    have : front.length * MBuf.kPayloadSize P < 129 * MBuf.kPayloadSize P := by omega
    have := Nat.lt_of_mul_lt_mul_right this
    simp only [List.length_append, List.length_singleton]
    omega

end Shape

/-! ### The operations keep the shape -/

section Ops

variable {c : MBufChain} {allocPages : Nat → Option (List FreshPage)} {src : UserIn}
  {dst : UserOut} {len : Nat}

theorem StreamCells.suffix {front rest : List MBuf} (cells : StreamCells P (front ++ rest)) :
    StreamCells P rest := by
  refine ⟨fun b mem => cells.cells b (List.mem_append_right _ mem), fun b mem => cells.full b ?_⟩
  cases rest with
  | nil => simp at mem
  | cons r rs => rw [List.dropLast_append_cons]; exact List.mem_append_right _ mem

/-- `WriteStream` keeps the shape and appends `src[0, *written)` to the unread bytes. -/
theorem writeStream_stream (inv : StreamInv P c) (fresh : PagesFresh c allocPages) :
    StreamInv P (c.writeStream P allocPages src len).chain ∧
      AppendsPrefix P c src len (c.writeStream P allocPages src len) := by
  obtain ⟨g, cursor, ok_pos, complete⟩ := @writeStream_post P c allocPages src len inv.cells
    fun num pages got => (fresh num pages got).1
  have lens_eq := congrArg List.length g.bytes
  simp only [length_flatMap_bytes, List.length_append, length_slice, Nat.sub_zero] at lens_eq
  have size := g.size
  have pos_le := g.pos_le
  dsimp only at size pos_le
  have := inv.size
  have := inv.bounded
  have off_le := cursor_le_lens inv.cursor
  have length := inv.size_eq
  have wraps := g.wraps
  dsimp only at wraps
  refine ⟨⟨g.cells, cursor ▸ g.front _ inv.cursor, by rw [cursor, size, lens_eq]; omega,
    by rw [size]; omega⟩, ⟨?_, by omega, ok_pos, fun all => by rw [complete all]; omega,
    by rw [wraps, decide_eq_false (Nat.not_lt.mpr inv.bounded)]⟩⟩
  simp only [contents, unread, cursor, g.bytes, Nat.sub_zero]
  rw [List.drop_append_of_le_length (by rw [length_flatMap_bytes]; exact off_le)]

/-- A stream read keeps the shape and delivers a prefix of the unread bytes. -/
theorem read_stream (inv : StreamInv P c) :
    StreamInv P (c.read P dst len false).chain ∧ ReadsPrefix c len (c.read P dst len false) := by
  by_cases empty : c.size_ = 0
  · rw [read, readHelper_empty P empty]
    have := inv.size_eq
    exact ⟨inv, ⟨fun i h => absurd h (Nat.not_lt_zero _), rfl, Nat.zero_le _,
      fun _ => by dsimp only; omega, rfl⟩⟩
  rw [read_stream_eq P empty]
  have fits := MBuf.kPayloadSize_lt P
  have post := @readLoop_stream dst len c.buffers_ (.init c)
    (fun b mem => ⟨(inv.cells.cells b mem).1, by have := (inv.cells.cells b mem).2.1; omega⟩)
    inv.cursor inv.size (Nat.zero_le _) rfl
  generalize readLoop false false dst len c.buffers_ (.init c) = r at post
  obtain ⟨⟨front, split, _⟩, cursor, size, _, pos_le, read_le, remains, done, user, wraps⟩ := post
  simp only [ReadState.init, Nat.sub_zero] at read_le remains user wraps
  have left := congrArg List.length remains
  simp only [length_unread, List.length_drop] at left
  have := cursor_le_lens cursor
  have := inv.size
  have := inv.bounded
  have length : (contents c).length = lens c.buffers_ - c.readCursorOff_ := length_unread _ _
  refine ⟨⟨(split ▸ inv.cells).suffix, cursor, size, by simp only [readResult_chain]; omega⟩,
    ⟨fun i lt => ?_, remains, by rw [readResult_count]; omega, fun ok => ?_, wraps⟩⟩
  · rw [userBytes_readResult P, user, if_pos ⟨Nat.zero_le _, lt⟩]
    rfl
  · rw [readResult_count]
    rcases done ok with filled | gone
    · omega
    · rw [gone, lens_nil] at left
      omega

theorem stepStream_inv {c : MBufChain} (op : Op) (inv : StreamInv P c) (allowed : op.Allowed c) :
    StreamInv P (op.run P false c).chain := by
  cases op with
  | write allocPages src len => exact (writeStream_stream inv allowed).1
  | read dst len => exact (read_stream inv).1
  | peek dst len => simpa [Op.run] using inv

end Ops

/-! ### Every stream run -/

section Runs

variable {c : MBufChain} {t : List Event}

/-- Every chain a stream run reaches has the stream shape. -/
theorem streamInv_of_reach (reach : Reach P false c t) : StreamInv P c :=
  reach.inv StreamInv.empty fun _ op inv allowed => stepStream_inv op inv allowed

theorem stream_invariant (reach : Reach P false c t) :
    StreamInv P c ∧ (c.size_ = 0 ↔ c.buffers_ = []) ∧ c.size true = 0 ∧
      c.buffers_.length ≤ kSizeMax P / MBuf.kPayloadSize P + 1 ∧
      kSizeMax P / MBuf.kPayloadSize P + 1 = 129 :=
  have inv := streamInv_of_reach reach
  ⟨inv, inv.size_eq_zero_iff, inv.size_true, inv.length_le, by rw [kSizeMax_div_kPayloadSize]⟩

/-- The shape after writing 5000 bytes and reading 3: a full cell, then one of 936 bytes. -/
theorem stream_invariant_sample :
    StreamInv pageSize4K streamSample ∧ (streamSample.size_ = 0 ↔ streamSample.buffers_ = []) ∧
      streamSample.size true = 0 ∧
      streamSample.buffers_.length ≤ kSizeMax pageSize4K / MBuf.kPayloadSize pageSize4K + 1 ∧
      kSizeMax pageSize4K / MBuf.kPayloadSize pageSize4K + 1 = 129 :=
  streamSample_reach.2.2.elim fun _ reach => stream_invariant reach

theorem stream_refines_fifo (reach : Reach P false c t) : StreamQueue P c := by
  have inv := streamInv_of_reach reach
  refine ⟨?_, fun _ _ _ fresh => (writeStream_stream inv fresh).2, fun _ _ => (read_stream inv).2⟩
  rw [MBufChain.size, if_neg (by simp), inv.size_eq]

/-- The chain left by writing 5000 bytes and reading 3 is a queue of 4997 bytes. -/
theorem stream_refines_fifo_sample : StreamQueue pageSize4K streamSample :=
  streamSample_reach.2.2.elim fun _ reach => stream_refines_fifo reach

end Runs

end Zircon.MBufChain
