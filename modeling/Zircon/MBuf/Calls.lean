import Zircon.MBuf.Pages

/-! What the operations ask of the page allocator (`object/mbuf.cc`). A stream write calls
`AllocPages` at most once: only when the bytes it may take, `len` capped at `kSizeMax - size_`, do
not fit in the free room of the last cell and the copy into that room succeeded, and then for
`NumBuffersForPayload` of the bytes beyond that room. A datagram write calls it once, for the cells
of the datagram, exactly when the datagram passes its checks. Both hold on every chain whose
`size_` is at most `kSizeMax` and whose cells hold at most `kPayloadSize` bytes, where the `size_t`
arithmetic of the code is that of the model. A read or a peek of 0 bytes makes no call at all and
changes nothing, along every run of either mode; for a datagram read this rests on the front cell
beginning a datagram, so the drain after the loop has nothing to take. -/

namespace Zircon.MBufChain

/-- The number of pages an `AllocPages` call asks for. -/
def requestOf : Event → Option Nat
  | .allocPages num _ => some num
  | _ => none

/-- The sizes of the `AllocPages` calls of a trace, in order. -/
def requestsOf (events : List Event) : List Nat := events.filterMap requestOf

variable (P : PageSize)

/-- The free room of the last cell, `buffers_.back().rem()`, and 0 without cells. -/
def tailRoom (bs : List MBuf) : Nat := (bs.getLast?.map (MBuf.rem P)).getD 0

section Requests

variable {events events' : List Event}

@[simp] theorem requestsOf_nil : requestsOf [] = [] := rfl

@[simp] theorem requestsOf_append : requestsOf (events ++ events') = requestsOf events ++ requestsOf events' :=
  List.filterMap_append _ _ _

/-- User copies ask for no page. -/
theorem requestsOf_copies (copies : ∀ e ∈ events, e.isCopy) : requestsOf events = [] :=
  List.filterMap_eq_nil_iff.mpr fun e mem => by
    cases e <;> first | rfl | exact absurd (copies _ mem) Bool.false_ne_true

/-- `FreeMBufs` asks for no page. -/
@[simp] theorem requestsOf_freeMBufs (bufs : List MBuf) : requestsOf (freeMBufs P bufs) = [] := by
  simp [freeMBufs, requestsOf, requestOf, List.filterMap_map, Function.comp_def]

/-- `AllocMBufs(num)` calls `AllocPages` for `num` pages, once, whatever it returns. -/
@[simp] theorem requestsOf_allocMBufs (allocPages : Nat → Option (List FreshPage)) (num : Nat) :
    requestsOf (allocMBufs P allocPages num).2 = [num] := by
  unfold allocMBufs
  split <;> simp [requestsOf, requestOf, List.filterMap_map, Function.comp_def]

end Requests

section Writes

variable {P} {src : UserIn} {len : Nat}

/-- The loop over the new cells makes copies, and frees the cells left on a fault: no
`AllocPages`. -/
theorem fillBuffers_requests : ∀ (bufs buffers : List MBuf) (s : WriteState),
    requestsOf (fillBuffers P src len buffers bufs s).2.2.events = requestsOf s.events
  | [], _, _ => rfl
  | buf :: bufs, buffers, s => by
    have copy : requestsOf [writeEvent P src len buf s] = [] := rfl
    rw [fillBuffers]
    split
    · rw [fillBuffers_requests, writeBuffer_events, requestsOf_append, copy, List.append_nil]
    · rw [requestsOf_append, writeBuffer_events, requestsOf_append, copy, requestsOf_freeMBufs,
        List.append_nil, List.append_nil]

/-- The fill of the last cell from `pos = 0` succeeds unless it copied into the room and that copy
faulted; on success `pos` is as much of the room as `len` uses. It asks for no page. -/
theorem fillTail_room (bs : List MBuf) (s : WriteState) (start : s.pos = 0) :
    ((fillTail P src len bs s).1 = .ok ↔
        tailRoom P bs = 0 ∨ src.copy 0 (min (tailRoom P bs) len) = .ok) ∧
      ((fillTail P src len bs s).1 = .ok →
        (fillTail P src len bs s).2.2.pos = min (tailRoom P bs) len) ∧
      requestsOf (fillTail P src len bs s).2.2.events = requestsOf s.events := by
  obtain ⟨-, calls, events, copies⟩ := @fillTail_pages P src len bs s
  refine ⟨?_, ?_, by rw [events, requestsOf_append, requestsOf_copies copies, List.append_nil]⟩
  all_goals
    unfold fillTail tailRoom
    cases last : bs.getLast? with
    | none => simp [start]
    | some back =>
      simp only [Option.map_some', Option.getD_some]
      by_cases room : 0 < back.rem P
      · simp only [if_pos room, writeBuffer, writeLen, start, Nat.sub_zero]
        by_cases copied : src.copy 0 (min (back.rem P) len) = .ok <;>
          simp [copied, Nat.pos_iff_ne_zero.mp room]
      · simp [room, start, show back.rem P = 0 by omega]

/-! A write keeps its `size_t` arithmetic in range on a chain whose `size_` is at most `kSizeMax`
and whose cells hold at most `kPayloadSize` bytes: every reachable chain. -/

theorem writeBuffer_wraps {buf : MBuf} {s : WriteState} (room : buf.len_ ≤ MBuf.kPayloadSize P) :
    (writeBuffer P src len buf s).2.2.wraps = s.wraps := by
  by_cases copied : src.copy s.pos (writeLen P len buf s) = .ok
  · rw [writeBuffer_ok copied room]
  · rw [writeBuffer_fault copied room]

theorem fillTail_wraps {bs : List MBuf} {s : WriteState}
    (cells : ∀ b ∈ bs, b.len_ ≤ MBuf.kPayloadSize P) :
    (fillTail P src len bs s).2.2.wraps = s.wraps := by
  unfold fillTail
  cases last : bs.getLast? with
  | none => rfl
  | some back =>
    have room := cells back (List.mem_of_getLast?_eq_some last)
    dsimp only
    split
    · exact writeBuffer_wraps room
    · simp [Nat.not_lt.mpr room]

theorem fillBuffers_wraps : ∀ {bufs buffers : List MBuf} {s : WriteState},
    (∀ b ∈ bufs, b.len_ ≤ MBuf.kPayloadSize P) →
      (fillBuffers P src len buffers bufs s).2.2.wraps = s.wraps
  | [], _, _, _ => rfl
  | buf :: bufs, buffers, s, cells => by
    have room := @writeBuffer_wraps P src len buf s (cells buf (.head _))
    rw [fillBuffers]
    split
    · rw [fillBuffers_wraps fun b mem => cells b (.tail _ mem), room]
    · exact room

/-- The cells `AllocMBufs` gives are empty. -/
theorem allocMBufs_empty {allocPages : Nat → Option (List FreshPage)} {num : Nat} {bufs : List MBuf}
    (alloc : (allocMBufs P allocPages num).1 = some bufs) : ∀ b ∈ bufs, b.len_ = 0 := by
  obtain ⟨pages, -, rfl⟩ := allocMBufs_some alloc
  intro b mem
  obtain ⟨p, -, rfl⟩ := List.mem_map.mp (List.mem_reverse.mp mem)
  rfl

theorem writeStream_wraps {c : MBufChain} {allocPages : Nat → Option (List FreshPage)}
    (bounded : c.size_ ≤ kSizeMax P) (cells : ∀ b ∈ c.buffers_, b.len_ ≤ MBuf.kPayloadSize P) :
    (c.writeStream P allocPages src len).wraps = false := by
  unfold writeStream
  dsimp only
  generalize min (kSizeMax P - c.size_) len = len'
  have tail := @fillTail_wraps P src len' c.buffers_ ⟨0, c.size_, [], decide (kSizeMax P < c.size_)⟩
    cells
  generalize fillTail P src len' c.buffers_ _ = t at tail ⊢
  have start : t.2.2.wraps = false := tail.trans (decide_eq_false (Nat.not_lt.mpr bounded))
  split
  · exact start
  split
  · exact start
  generalize alloc : allocMBufs P allocPages _ = a
  obtain ⟨_ | bufs, allocEvents⟩ := a
  · exact start
  · rw [writeResult_wraps, fillBuffers_wraps fun b mem =>
      (allocMBufs_empty (congrArg Prod.fst alloc) b mem).trans_le (Nat.zero_le _)]
    exact start

variable (P)

/-- On a chain with `size_ ≤ kSizeMax` whose cells hold at most `kPayloadSize` bytes (every
reachable chain), `WriteStream` stays in the range of its `size_t` arithmetic, and calls
`AllocPages` once, for `NumBuffersForPayload` of the bytes beyond the free room of the last cell,
when it may take more bytes than that room holds and its copy into the room succeeded; and
otherwise not at all. -/
theorem writeStream_requests (c : MBufChain) (allocPages : Nat → Option (List FreshPage))
    (src : UserIn) (len : Nat) (bounded : c.size_ ≤ kSizeMax P)
    (cells : ∀ b ∈ c.buffers_, b.len_ ≤ MBuf.kPayloadSize P) :
    (c.writeStream P allocPages src len).wraps = false ∧
      requestsOf (c.writeStream P allocPages src len).events =
        if tailRoom P c.buffers_ < min (kSizeMax P - c.size_) len ∧
            (tailRoom P c.buffers_ = 0 ∨ src.copy 0 (tailRoom P c.buffers_) = .ok) then
          [MBuf.numBuffersForPayload P (min (kSizeMax P - c.size_) len - tailRoom P c.buffers_)]
        else [] := by
  refine ⟨writeStream_wraps bounded cells, ?_⟩
  unfold writeStream
  dsimp only
  generalize min (kSizeMax P - c.size_) len = len'
  obtain ⟨ok_iff, pos_eq, requests⟩ :=
    @fillTail_room P src len' c.buffers_ ⟨0, c.size_, [], decide (kSizeMax P < c.size_)⟩ rfl
  generalize fillTail P src len' c.buffers_ _ = t at ok_iff pos_eq requests ⊢
  by_cases ok : t.1 = .ok
  swap
  · rw [if_pos ok, writeResult_events, requests, if_neg fun go => ok (ok_iff.mpr (.inr ?_))]
    · rfl
    · rw [Nat.min_eq_left go.1.le]
      exact go.2.resolve_left fun zero => ok (ok_iff.mpr (.inl zero))
  have pos := pos_eq ok
  rw [if_neg (not_not.mpr ok)]
  by_cases done : t.2.2.pos = len'
  · rw [if_pos done, writeResult_events, requests, if_neg (by omega)]
    rfl
  have room : t.2.2.pos = tailRoom P c.buffers_ := by omega
  have tailOk := ok_iff.mp ok
  rw [Nat.min_eq_left (by omega)] at tailOk
  rw [if_neg done, if_pos ⟨by omega, tailOk⟩, room]
  have alloc := requestsOf_allocMBufs P allocPages
    (MBuf.numBuffersForPayload P (len' - tailRoom P c.buffers_))
  generalize allocMBufs P allocPages _ = a at alloc ⊢
  obtain ⟨_ | bufs, allocEvents⟩ := a
  · rw [writeResult_events, requestsOf_append, requests, alloc]
    rfl
  · rw [writeResult_events, fillBuffers_requests, requestsOf_append, requests, alloc]
    rfl

/-- 5000 more bytes on the stream sample fill the 3128 bytes of room in its last cell and ask
for one page for the other 1872. -/
theorem writeStream_requests_sample :
    (streamSample.writeStream pageSize4K (freshPages 2) countingSrc 5000).wraps = false ∧
      requestsOf (streamSample.writeStream pageSize4K (freshPages 2) countingSrc 5000).events =
        [1] :=
  let calls := writeStream_requests pageSize4K streamSample (freshPages 2) countingSrc 5000
    (by decide) (by decide)
  ⟨calls.1, calls.2.trans (by decide)⟩

end Writes

/-! ### Reads of no bytes -/

section Zero

variable {P}

/-- A stream read of 0 bytes leaves any chain as it is and makes no call. -/
theorem read_stream_zero (c : MBufChain) (dst : UserOut) :
    c.read P dst 0 false = ⟨c, 0, .ok, [], false⟩ := by
  by_cases empty : c.size_ = 0
  · exact readHelper_empty P empty
  · rw [read_stream_eq P empty, readLoop_stop (by simp [ReadState.init])]
    rfl

/-- A peek of 0 bytes, in either mode, leaves any chain as it is and makes no call. -/
theorem peek_zero (c : MBufChain) (dst : UserOut) (datagram : Bool) :
    c.peek P dst 0 datagram = ⟨c, 0, .ok, [], false⟩ := by
  by_cases empty : c.size_ = 0
  · exact readHelper_empty P empty
  · simp only [peek, readHelper, if_neg empty, Nat.not_lt_zero, and_false, ↓reduceIte]
    rw [readLoop_stop (by simp [ReadState.init])]
    rfl

/-- Along every run of either mode, `Read` and `Peek` of 0 bytes leave the chain as it is, return
0 and `ZX_OK`, and make no call: no copy, no `FreeList`. A datagram read of 0 bytes keeps the
datagram it would otherwise discard. -/
theorem read_peek_zero {datagram : Bool} {c : MBufChain} {t : List Event}
    (reach : Reach P datagram c t) (dst : UserOut) :
    c.read P dst 0 datagram = ⟨c, 0, .ok, [], false⟩ ∧
      c.peek P dst 0 datagram = ⟨c, 0, .ok, [], false⟩ := by
  refine ⟨?_, peek_zero c dst datagram⟩
  cases datagram
  · exact read_stream_zero c dst
  · exact read_datagram_zero (datagramInv_of_reach reach)

/-- A read of 0 bytes keeps the datagram the datagram sample holds. -/
theorem read_peek_zero_sample :
    datagramSample.read pageSize4K okDst 0 true = ⟨datagramSample, 0, .ok, [], false⟩ ∧
      datagramSample.peek pageSize4K okDst 0 true = ⟨datagramSample, 0, .ok, [], false⟩ :=
  datagramSample_reach.2.2.elim fun _ reach => read_peek_zero reach okDst

end Zero

end Zircon.MBufChain
