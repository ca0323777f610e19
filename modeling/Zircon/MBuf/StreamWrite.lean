import Zircon.MBuf.Write
import Zircon.MBuf.Contents

/-! The fills of `WriteStream`: the last cell first (`fillTail`), then the new cells
(`fillBuffers`). Each appends the bytes it copies, `src[pos, pos')`, to the cells and keeps them in
stream shape (`Grows`). Given the cells `AllocMBufs` hands out for the rest, the second fill
reaches `len` unless a copy faults. -/

namespace Zircon.MBufChain

variable (P : PageSize)

/-- Cells of a stream: each holds 1 to `kPayloadSize` bytes and begins no datagram, and all but
the last are full. -/
structure StreamCells (bs : List MBuf) : Prop where
  cells : ∀ b ∈ bs, 0 < b.len_ ∧ b.len_ ≤ MBuf.kPayloadSize P ∧ b.pktLen_ = 0
  full : ∀ b ∈ bs.dropLast, b.len_ = MBuf.kPayloadSize P

/-- What a fill does from cells `bs` and locals `s`, ending with `bs'` and `s'`: the cells keep
their shape and gain `src[pos, pos')` at the end, the first cell does not shrink, `size_` counts
the new bytes, and the calls made are added to the trace. -/
structure Grows (src : UserIn) (len : Nat) (bs : List MBuf) (s : WriteState) (bs' : List MBuf)
    (s' : WriteState) : Prop where
  cells : StreamCells P bs'
  front : ∀ off, Cursor bs off → Cursor bs' off
  bytes : bs'.flatMap MBuf.bytes = bs.flatMap MBuf.bytes ++ slice src.bytes s.pos (s'.pos - s.pos)
  pos_ge : s.pos ≤ s'.pos
  pos_le : s'.pos ≤ len
  size : s'.size = s.size + (s'.pos - s.pos)
  wraps : s'.wraps = s.wraps
  events : ∃ calls, s'.events = s.events ++ calls

variable {P}

section Grows

variable {src : UserIn} {len : Nat} {bs bs' bs'' : List MBuf} {s s' s'' : WriteState}

/-- A fill that copied nothing. -/
theorem Grows.stay (cells : StreamCells P bs) (pos_le : s.pos ≤ len) (pos : s'.pos = s.pos)
    (size : s'.size = s.size) (wraps : s'.wraps = s.wraps)
    (events : ∃ calls, s'.events = s.events ++ calls) : Grows P src len bs s bs s' :=
  ⟨cells, fun _ h => h, by simp [pos], by omega, by omega, by omega, wraps, events⟩

/-- Calls made after a fill (an allocation, a `FreeMBufs`) are only more calls. -/
theorem Grows.log (g : Grows P src len bs s bs' s') (more : List Event) :
    Grows P src len bs s bs' { s' with events := s'.events ++ more } :=
  ⟨g.cells, g.front, g.bytes, g.pos_ge, g.pos_le, g.size, g.wraps, by
    obtain ⟨calls, events⟩ := g.events
    exact ⟨calls ++ more, by simp [events]⟩⟩

theorem Grows.trans (g : Grows P src len bs s bs' s') (g' : Grows P src len bs' s' bs'' s'') :
    Grows P src len bs s bs'' s'' := by
  obtain ⟨_, front, bytes, pos_ge, _, size, wraps, calls, events⟩ := g
  obtain ⟨cells', front', bytes', pos_ge', pos_le', size', wraps', calls', events'⟩ := g'
  refine ⟨cells', fun off h => front' off (front off h), ?_, by omega, pos_le', by omega,
    wraps'.trans wraps, ⟨calls ++ calls', by rw [events', events, List.append_assoc]⟩⟩
  rw [bytes', bytes, List.append_assoc, slice_append _ (by omega)]
  congr 2
  omega

end Grows

/-! ### `write_buffer` -/

section WriteBuffer

variable {src : UserIn} {len : Nat} {buf : MBuf} {s : WriteState}

theorem writeLen_le_rem : writeLen P len buf s ≤ buf.rem P := Nat.min_le_left _ _

theorem writeLen_le : writeLen P len buf s ≤ len - s.pos := Nat.min_le_right _ _

/-- A copy that succeeds appends its bytes to the cell and moves `pos` and `size_` past them. -/
theorem writeBuffer_ok (copied : src.copy s.pos (writeLen P len buf s) = .ok)
    (room : buf.len_ ≤ MBuf.kPayloadSize P) :
    writeBuffer P src len buf s = (.ok, buf.copyIn buf.len_ src.bytes s.pos (writeLen P len buf s),
      ⟨s.pos + writeLen P len buf s, s.size + writeLen P len buf s,
        s.events ++ [writeEvent P src len buf s], s.wraps⟩) := by
  have fits := MBuf.kPayloadSize_lt P
  have : buf.len_ + writeLen P len buf s < 4294967296 := by
    have := @writeLen_le_rem P len buf s
    simp only [MBuf.rem] at this; omega
  simp [writeBuffer, copied, Nat.not_lt.mpr room, Nat.not_le.mpr this]

/-- A copy that faults changes nothing but the trace. -/
theorem writeBuffer_fault (fault : src.copy s.pos (writeLen P len buf s) ≠ .ok)
    (room : buf.len_ ≤ MBuf.kPayloadSize P) :
    writeBuffer P src len buf s = (src.copy s.pos (writeLen P len buf s), buf,
      ⟨s.pos, s.size, s.events ++ [writeEvent P src len buf s], s.wraps⟩) := by
  simp [writeBuffer, fault, Nat.not_lt.mpr room]

theorem writeEvent_not_ok (fault : src.copy s.pos (writeLen P len buf s) ≠ .ok) :
    (writeEvent P src len buf s).ok = false := by
  simp [writeEvent, Event.ok, fault]

end WriteBuffer

/-! ### The last cell -/

section FillTail

variable {src : UserIn} {len : Nat} {bs : List MBuf} {s : WriteState}

/-- `fillTail` fills the last cell as far as it can; if bytes remain after it, that cell is
full; if it faults, it copied nothing and says so in the trace. -/
theorem fillTail_grows (cells : StreamCells P bs) (pos_le : s.pos ≤ len) :
    Grows P src len bs s (fillTail P src len bs s).2.1 (fillTail P src len bs s).2.2 ∧
      ((fillTail P src len bs s).1 = .ok → (fillTail P src len bs s).2.2.pos ≠ len →
        ∀ b ∈ (fillTail P src len bs s).2.1.getLast?, b.len_ = MBuf.kPayloadSize P) ∧
      ((fillTail P src len bs s).1 ≠ .ok →
        ∃ e ∈ (fillTail P src len bs s).2.2.events, e.ok = false) := by
  have stay : Grows P src len bs s bs s :=
    .stay cells pos_le rfl rfl rfl ⟨[], by simp⟩
  cases last : bs.getLast? with
  | none =>
    simp only [fillTail, last]
    exact ⟨stay, fun _ _ b mem => absurd mem (Option.not_mem_none b), fun bad => absurd rfl bad⟩
  | some back =>
    obtain ⟨front, rfl⟩ := List.getLast?_eq_some_iff.mp last
    have backCell := cells.cells back (by simp)
    by_cases room : 0 < back.rem P
    swap
    · simp only [fillTail, last, room, if_false]
      refine ⟨.stay cells pos_le rfl rfl (by simp [Nat.not_lt.mpr backCell.2.1]) ⟨[], by simp⟩,
        fun _ _ b mem => ?_, fun bad => absurd rfl bad⟩
      simp only [last, Option.mem_def, Option.some.injEq] at mem
      subst mem
      simp only [MBuf.rem] at room
      omega
    by_cases copied : src.copy s.pos (writeLen P len back s) = .ok
    · have n_le := @writeLen_le_rem P len back s
      have n_le' := @writeLen_le P len back s
      have choice : writeLen P len back s = back.rem P ∨ writeLen P len back s = len - s.pos := by
        unfold writeLen; omega
      simp only [fillTail, last, room, if_true, writeBuffer_ok copied backCell.2.1,
        List.dropLast_concat]
      refine ⟨⟨⟨fun b mem => ?_, fun b mem => ?_⟩, fun off h => ?_, ?_, by dsimp only; omega,
        by dsimp only; omega, by dsimp only; omega, rfl, ⟨_, rfl⟩⟩, fun _ notDone b mem => ?_,
        fun bad => absurd rfl bad⟩
      · rcases List.mem_append.mp mem with mem | mem
        · exact cells.cells b (List.mem_append_left _ mem)
        · simp only [List.mem_singleton] at mem
          subst mem
          simp only [MBuf.rem, MBuf.copyIn_len, MBuf.copyIn_pktLen] at n_le ⊢
          omega
      · simpa using cells.full b (by simpa using mem)
      · cases front with
        | nil => simp only [Cursor, List.nil_append, MBuf.copyIn_len] at h ⊢; omega
        | cons _ _ => exact h
      · simp [MBuf.bytes_copyIn]
      · rw [List.getLast?_concat, Option.mem_some_iff] at mem
        subst mem
        simp only [MBuf.rem, MBuf.copyIn_len] at choice room notDone ⊢
        omega
    · simp only [fillTail, last, room, if_true, writeBuffer_fault copied backCell.2.1, copied,
        if_false]
      exact ⟨.stay cells pos_le rfl rfl rfl ⟨_, rfl⟩, False.elim,
        fun _ => ⟨_, List.mem_append_right _ (List.mem_singleton_self _),
          writeEvent_not_ok copied⟩⟩

end FillTail

/-! ### The new cells -/

section FillBuffers

variable {src : UserIn} {len : Nat} {buffers : List MBuf} {b : MBuf} {s : WriteState}

/-- A cell of 1 to `kPayloadSize` bytes behind full cells keeps the stream shape. -/
theorem StreamCells.push (cells : StreamCells P buffers)
    (full : ∀ c ∈ buffers.getLast?, c.len_ = MBuf.kPayloadSize P)
    (cell : 0 < b.len_ ∧ b.len_ ≤ MBuf.kPayloadSize P ∧ b.pktLen_ = 0) :
    StreamCells P (buffers ++ [b]) := by
  refine ⟨fun c mem => ?_, fun c mem => ?_⟩
  · rcases List.mem_append.mp mem with mem | mem
    · exact cells.cells c mem
    · rw [List.mem_singleton.mp mem]; exact cell
  · rw [List.dropLast_concat] at mem
    cases last : buffers.getLast? with
    | none => simp_all
    | some back =>
      obtain ⟨front, rfl⟩ := List.getLast?_eq_some_iff.mp last
      rcases List.mem_append.mp mem with mem | mem
      · exact cells.full c (by simpa using mem)
      · exact full c (by simp_all)

/-- `write_buffer` on a new cell, behind full cells and with bytes left to write, gives it
`min(kPayloadSize, len - pos)` bytes and puts it at the back. -/
theorem Grows.push_fresh (cells : StreamCells P buffers)
    (full : ∀ c ∈ buffers.getLast?, c.len_ = MBuf.kPayloadSize P) (fresh : b.len_ = 0 ∧ b.pktLen_ = 0)
    (pos_lt : s.pos < len) :
    Grows P src len buffers s (buffers ++ [b.copyIn b.len_ src.bytes s.pos (writeLen P len b s)])
      ⟨s.pos + writeLen P len b s, s.size + writeLen P len b s,
        s.events ++ [writeEvent P src len b s], s.wraps⟩ := by
  have n_eq : writeLen P len b s = min (MBuf.kPayloadSize P) (len - s.pos) := by
    simp [writeLen, MBuf.rem, fresh.1]
  have n_pos := MBuf.kPayloadSize_pos P
  refine ⟨cells.push full ⟨?_, ?_, fresh.2⟩, fun off h => ?_, ?_, by dsimp only; omega,
    by dsimp only; omega, by dsimp only; omega, rfl, ⟨_, rfl⟩⟩
  · simp only [MBuf.copyIn_len, fresh.1]; omega
  · simp only [MBuf.copyIn_len, fresh.1]; omega
  · cases buffers with
    | nil => simp only [Cursor, List.nil_append, MBuf.copyIn_len] at h ⊢; omega
    | cons _ _ => exact h
  · simp only [List.flatMap_append, List.flatMap_singleton, MBuf.bytes_copyIn,
      Nat.add_sub_cancel_left]
    simp [MBuf.bytes, fresh.1]

/-- The loop over the new cells: given as many as the bytes left need, and not one more, it
copies them all unless a copy faults, and a fault shows in the trace. -/
theorem fillBuffers_grows : ∀ {bufs buffers : List MBuf} {s : WriteState}, StreamCells P buffers →
    (∀ c ∈ buffers.getLast?, c.len_ = MBuf.kPayloadSize P) →
    (∀ b ∈ bufs, b.len_ = 0 ∧ b.pktLen_ = 0) → s.pos ≤ len →
    len - s.pos ≤ bufs.length * MBuf.kPayloadSize P →
    (bufs.length - 1) * MBuf.kPayloadSize P < len - s.pos →
    Grows P src len buffers s (fillBuffers P src len buffers bufs s).2.1
        (fillBuffers P src len buffers bufs s).2.2 ∧
      ((fillBuffers P src len buffers bufs s).1 = .ok →
        (fillBuffers P src len buffers bufs s).2.2.pos = len) ∧
      ((fillBuffers P src len buffers bufs s).1 ≠ .ok →
        ∃ e ∈ (fillBuffers P src len buffers bufs s).2.2.events, e.ok = false)
  | [], _, _, _, _, _, _, enough, short => by simp at enough short; omega
  | b :: more, buffers, s, cells, full, fresh, pos_le, enough, short => by
    have room : b.len_ ≤ MBuf.kPayloadSize P := by rw [(fresh b (.head _)).1]; exact Nat.zero_le _
    have n_eq : writeLen P len b s = min (MBuf.kPayloadSize P) (len - s.pos) := by
      simp [writeLen, MBuf.rem, (fresh b (.head _)).1]
    by_cases copied : src.copy s.pos (writeLen P len b s) = .ok
    · have pos_lt : s.pos < len := by
        simp only [List.length_cons, Nat.add_sub_cancel] at short
        exact Nat.lt_of_sub_pos (Nat.lt_of_le_of_lt (Nat.zero_le _) short)
      have step := @Grows.push_fresh P src len buffers b s cells full (fresh b (.head _)) pos_lt
      rw [fillBuffers, writeBuffer_ok copied room, if_pos rfl]
      cases more with
      | nil =>
        rw [fillBuffers]
        refine ⟨step, fun _ => ?_, fun h => absurd rfl h⟩
        simp only [List.length_singleton, Nat.one_mul] at enough
        dsimp only; omega
      | cons m more' =>
        simp only [List.length_cons, Nat.add_sub_cancel, Nat.add_mul, Nat.one_mul] at enough short
        have n_full : writeLen P len b s = MBuf.kPayloadSize P := by rw [n_eq]; omega
        have ih := fillBuffers_grows (s := ⟨s.pos + writeLen P len b s,
            s.size + writeLen P len b s, s.events ++ [writeEvent P src len b s], s.wraps⟩)
          step.cells (by simp [n_full, (fresh b (.head _)).1])
          (fun c mem => fresh c (.tail _ mem)) (by dsimp only; omega)
          (by simp only [List.length_cons, Nat.add_mul, Nat.one_mul]; omega)
          (by simp only [List.length_cons, Nat.add_sub_cancel, Nat.add_mul, Nat.one_mul]; omega)
        exact ⟨step.trans ih.1, ih.2⟩
    · rw [fillBuffers, writeBuffer_fault copied room, if_neg copied]
      exact ⟨.stay cells pos_le rfl rfl rfl ⟨_, List.append_assoc _ _ _⟩, fun h => absurd h copied,
        fun _ => ⟨_, by simp, writeEvent_not_ok copied⟩⟩

end FillBuffers

/-! ### `WriteStream` -/

variable (P) in
/-- What `WriteStream(src, len)` does from the chain `c`, returning `r`: with `len` capped at
`kSizeMax - size_`, the cells grow by `src[0, *written)`, the read cursor stays, `*written` is not
0 when the status is `ZX_OK`, and it is the whole capped `len` when every call succeeded. -/
structure WriteStreamPost (c : MBufChain) (src : UserIn) (len : Nat) (r : Result) : Prop where
  grows : Grows P src (min (kSizeMax P - c.size_) len) c.buffers_
    ⟨0, c.size_, [], decide (kSizeMax P < c.size_)⟩ r.chain.buffers_
    ⟨r.count, r.chain.size_, r.events, r.wraps⟩
  cursor : r.chain.readCursorOff_ = c.readCursorOff_
  ok_pos : r.status = .ok → 0 < r.count
  complete : (∀ e ∈ r.events, e.ok) → r.count = min (kSizeMax P - c.size_) len

theorem writtenStatus_ok {pos : Nat} (ok : writtenStatus pos = .ok) : 0 < pos := by
  unfold writtenStatus at ok
  split at ok
  · cases ok
  · omega

theorem writeStream_post {c : MBufChain} {allocPages : Nat → Option (List FreshPage)}
    {src : UserIn} {len : Nat} (cells : StreamCells P c.buffers_)
    (exact : ∀ num pages, allocPages num = some pages → pages.length = num) :
    WriteStreamPost P c src len (c.writeStream P allocPages src len) := by
  unfold writeStream
  dsimp only
  set L := min (kSizeMax P - c.size_) len
  have tail := @fillTail_grows P src L c.buffers_ ⟨0, c.size_, [], decide (kSizeMax P < c.size_)⟩
    cells (Nat.zero_le _)
  generalize fillTail P src L c.buffers_ _ = t at tail ⊢
  obtain ⟨status, tbufs, ts⟩ := t
  obtain ⟨g, last, fault⟩ := tail
  dsimp only at g last fault ⊢
  by_cases tail_ok : status = .ok
  swap
  · rw [if_pos tail_ok]
    obtain ⟨e, mem, bad⟩ := fault tail_ok
    exact ⟨g, rfl, fun ok => absurd ok tail_ok, fun all => by simp [all e mem] at bad⟩
  rw [if_neg (not_not.mpr tail_ok)]
  by_cases done : ts.pos = L
  · rw [if_pos done]
    exact ⟨g, rfl, writtenStatus_ok, fun _ => done⟩
  rw [if_neg done]
  have pos_lt : ts.pos < L := Nat.lt_of_le_of_ne g.pos_le done
  have alloc_none := @allocMBufs_none P allocPages (MBuf.numBuffersForPayload P (L - ts.pos))
  have alloc_some := @allocMBufs_some P allocPages (MBuf.numBuffersForPayload P (L - ts.pos))
  generalize allocMBufs P allocPages _ = a at alloc_none alloc_some ⊢
  obtain ⟨_ | bufs, events⟩ := a
  · obtain ⟨e, mem, bad⟩ := alloc_none rfl
    exact ⟨g.log events, rfl, writtenStatus_ok, fun all => by
      simp [all e (List.mem_append_right _ mem)] at bad⟩
  · obtain ⟨pages, got, rfl⟩ := alloc_some rfl
    have fits := MBuf.numBuffersForPayload_fits P (show 0 < L - ts.pos by omega)
    rw [← exact _ _ got] at fits
    obtain ⟨g', filled, fault'⟩ := @fillBuffers_grows P src L (pages.map MBuf.ofPage).reverse tbufs
      { ts with events := ts.events ++ events } g.cells (last tail_ok done)
      (by simp [MBuf.ofPage]) g.pos_le (by simpa using fits.2) (by simpa using fits.1)
    dsimp only
    split
    · next fill_ok =>
      exact ⟨(g.log events).trans g', rfl, fun _ => by rw [writeResult_count, filled fill_ok]; omega,
        fun _ => filled fill_ok⟩
    · next fill_fault =>
      obtain ⟨e, mem, bad⟩ := fault' fill_fault
      exact ⟨(g.log events).trans g', rfl, fun ok => absurd ok fill_fault,
        fun all => by simp [all e mem] at bad⟩

end Zircon.MBufChain
