import Zircon.MBuf.Stream
import Zircon.MBuf.Datagram

/-! `Peek` against `Read` (`object/mbuf.cc`): both run `ReadHelper`, and the loop of a peek makes
the copies the loop of a read makes. After a pass a read unlinks the cell at the front and a peek
moves the iterator on, and both start the next cell at offset 0; where a stream read keeps its
cell, its loop has ended (`readIter_keep`), and the peek's ends at the next test. The relation
`SameCopies` between a read's locals and a peek's is kept by every pass, so that a peek returns
what the read would, makes the same `copy_array_to_user` calls, and changes nothing. -/

namespace Zircon.MBufChain

/-- A peek's locals `s'` against a read's `s`: the same `pos`, status and calls so far. -/
structure SameCopies (s s' : ReadState) : Prop where
  pos : s'.pos = s.pos
  status : s'.status = s.status
  events : s'.events = s.events

theorem SameCopies.symm {s s' : ReadState} (same : SameCopies s s') : SameCopies s' s :=
  ⟨same.pos.symm, same.status.symm, same.events.symm⟩

theorem SameCopies.trans {s s' s'' : ReadState} (h : SameCopies s s') (h' : SameCopies s' s'') :
    SameCopies s s'' :=
  ⟨h'.pos.trans h.pos, h'.status.trans h.status, h'.events.trans h.events⟩

/-! ### One pass -/

section Pass

variable {datagram : Bool} {dst : UserOut} {len : Nat} {b : MBuf} {s : ReadState}

/-- A peek moves on after every pass, at offset 0. -/
theorem readIter_peek : readIter true datagram dst len b s = (true, { copyOut dst len b s with readOff := 0 }) :=
  rfl

/-- The bookkeeping of a read after its copy leaves `pos`, the status and the calls alone. -/
theorem consume_sameCopies (n : Nat) : SameCopies s (consume datagram b n s).2 := by
  dsimp only [consume]
  split <;> split <;> exact ⟨rfl, rfl, rfl⟩

/-- The copy of a pass depends on the locals through `pos`, `read_off` and the calls only. -/
theorem copyOut_sameCopies (dst : UserOut) (len : Nat) (b : MBuf) {s s' : ReadState}
    (same : SameCopies s s') (off : s'.readOff = s.readOff) :
    SameCopies (copyOut dst len b s) (copyOut dst len b s') := by
  obtain ⟨pos, -, events⟩ := same
  exact ⟨by simp only [copyOut, copyLen, pos, off], by simp only [copyOut, copyLen, pos, off],
    by simp only [copyOut, copyEvent, copyLen, pos, off, events]⟩

/-- A read pass that unlinks its cell starts the next one at offset 0. -/
theorem readIter_readOff (popped : (readIter false datagram dst len b s).1 = true) :
    (readIter false datagram dst len b s).2.readOff = 0 := by
  revert popped
  simp only [readIter, consume, Bool.false_eq_true, ↓reduceIte]
  split <;> split <;> simp_all

/-- A pass never moves `pos` past `len`. -/
theorem copyOut_pos_le (pos_le : s.pos ≤ len) : (copyOut dst len b s).pos ≤ len := by
  have := Nat.min_le_right (b.len_ - s.readOff) (len - s.pos)
  rw [copyOut_pos]
  split <;> simp only [copyLen] at * <;> omega

end Pass

/-! ### The loop -/

/-- From locals that make the same copies and a cursor inside the first cell, the loops of a read
and of a peek make the same copies and end with the same `pos` and status. -/
theorem readLoop_sameCopies {datagram : Bool} {dst : UserOut} {len : Nat} :
    ∀ {bs : List MBuf} {s s' : ReadState}, SameCopies s s' → s'.readOff = s.readOff →
      (∀ b ∈ bs.head?, s.readOff ≤ b.len_) → s.pos ≤ len →
      SameCopies (readLoop false datagram dst len bs s).2 (readLoop true datagram dst len bs s').2
  | [], _, _, same, _, _, _ => same
  | b :: rest, s, s', same, off, off_le, pos_le => by
    by_cases go : s.pos < len ∧ s.status = .ok
    · have go' : s'.pos < len ∧ s'.status = .ok := by rw [same.pos, same.status]; exact go
      have consumed := @consume_sameCopies datagram b (copyOut dst len b s) (copyLen len b s)
      have pass : SameCopies (readIter false datagram dst len b s).2 (copyOut dst len b s') :=
        consumed.symm.trans (copyOut_sameCopies dst len b same off)
      have pos_le' : (readIter false datagram dst len b s).2.pos ≤ len :=
        consumed.pos.trans_le (copyOut_pos_le pos_le)
      rw [readLoop, if_pos go, readLoop, if_pos go', readIter_peek, if_pos rfl]
      cases popped : (readIter false datagram dst len b s).1
      · have stop := readIter_keep (off_le b rfl) pos_le popped
        rw [← pass.pos, ← pass.status] at stop
        simp only [Bool.false_eq_true, ↓reduceIte]
        rw [readLoop_stop (s := { copyOut dst len b s' with readOff := 0 }) stop]
        exact ⟨pass.pos, pass.status, pass.events⟩
      · rw [if_pos rfl]
        exact readLoop_sameCopies ⟨pass.pos, pass.status, pass.events⟩ (readIter_readOff popped).symm
          (fun _ _ => by rw [readIter_readOff popped]; exact Nat.zero_le _) pos_le'
    · have go' : ¬(s'.pos < len ∧ s'.status = .ok) := by rw [same.pos, same.status]; exact go
      rw [readLoop_stop go, readLoop_stop go']
      exact same

/-- Every call a peek's loop makes is a `copy_array_to_user`. -/
theorem readLoop_peek_copies {datagram : Bool} {dst : UserOut} {len : Nat} :
    ∀ {bs : List MBuf} {s : ReadState}, ∃ calls,
      (readLoop true datagram dst len bs s).2.events = s.events ++ calls ∧
        ∀ e ∈ calls, e.isCopyToUser = true
  | [], s => ⟨[], by simp [readLoop], by simp⟩
  | b :: rest, s => by
    rw [readLoop]
    split
    · rw [readIter_peek, if_pos rfl]
      obtain ⟨calls, events, copies⟩ :=
        @readLoop_peek_copies datagram dst len rest { copyOut dst len b s with readOff := 0 }
      refine ⟨copyEvent dst len b s :: calls, by rw [events]; simp, ?_⟩
      rintro e (_ | ⟨_, mem⟩)
      · rfl
      · exact copies e mem
    · exact ⟨[], by simp, by simp⟩

/-! ### `Peek` and `Read` -/

section Helper

variable (P : PageSize)

/-- The drain after a datagram read copies nothing and leaves `pos` and the status alone. -/
theorem drain_sameCopies : ∀ (bs : List MBuf) (s : ReadState), SameCopies s (drain bs s).2
  | [], _ => ⟨rfl, rfl, rfl⟩
  | b :: rest, s => by
    rw [drain]
    split
    · refine SameCopies.trans ?_ (drain_sameCopies rest _)
      exact ⟨rfl, rfl, rfl⟩
    · exact ⟨rfl, rfl, rfl⟩

/-- From a cursor inside the first cell, a peek returns what a read returns, its calls are the
read's `copy_array_to_user` calls, and it leaves the chain as it was. -/
theorem peek_read (c : MBufChain) (dst : UserOut) (len : Nat) (datagram : Bool)
    (off_le : ∀ b ∈ c.buffers_.head?, c.readCursorOff_ ≤ b.len_) :
    (c.peek P dst len datagram).count = (c.read P dst len datagram).count ∧
      (c.peek P dst len datagram).status = (c.read P dst len datagram).status ∧
      (c.peek P dst len datagram).events =
        (c.read P dst len datagram).events.filter Event.isCopyToUser ∧
      (c.peek P dst len datagram).chain = c := by
  by_cases empty : c.size_ = 0
  · simp [peek, read, readHelper_empty P empty]
  simp only [peek, read, readHelper, if_neg empty, if_true, Bool.false_eq_true, ↓reduceIte]
  generalize (if datagram = true ∧ c.frontPktLen < len then c.frontPktLen else len) = len'
  have same := @readLoop_sameCopies datagram dst len' c.buffers_ (.init c) (.init c)
    ⟨rfl, rfl, rfl⟩ rfl off_le (Nat.zero_le _)
  obtain ⟨calls, events, copies⟩ := @readLoop_peek_copies datagram dst len' c.buffers_ (.init c)
  generalize readLoop true datagram dst len' c.buffers_ (.init c) = R' at same events
  generalize readLoop false datagram dst len' c.buffers_ (.init c) = R at same
  have drained : SameCopies R.2 (if datagram then drain R.1 R.2 else R).2 := by
    split
    · exact drain_sameCopies _ _
    · exact ⟨rfl, rfl, rfl⟩
  generalize (if datagram then drain R.1 R.2 else R) = D at drained
  have frees : (if D.2.freeList.isEmpty then [] else freeMBufs P D.2.freeList).filter
      Event.isCopyToUser = [] := by
    split
    · rfl
    · exact List.filter_eq_nil_iff.mpr fun e mem => by simp [not_copyToUser_freeMBufs P mem]
  refine ⟨same.pos.trans drained.pos.symm, same.status.trans drained.status.symm, ?_, trivial⟩
  rw [readResult_events, List.filter_append, frees, List.append_nil, drained.events,
    ← same.events, events]
  exact (List.filter_eq_self.mpr copies).symm

/-- What a peek of `c` does against a read of `c` with the same arguments: it returns the same
`*actual` and status, its calls are exactly the read's `copy_array_to_user` calls, in order, it
leaves the chain as it was, and a read after it puts the same bytes in `dst`. -/
structure PeeksAsRead (c : MBufChain) (dst : UserOut) (len : Nat) (datagram : Bool) : Prop where
  count : (c.peek P dst len datagram).count = (c.read P dst len datagram).count
  status : (c.peek P dst len datagram).status = (c.read P dst len datagram).status
  copies : (c.peek P dst len datagram).events =
    (c.read P dst len datagram).events.filter Event.isCopyToUser
  unchanged : (c.peek P dst len datagram).chain = c
  delivers : ∀ i, userBytes (c.peek P dst len datagram).events i =
    userBytes (((c.peek P dst len datagram).chain).read P dst len datagram).events i

end Helper

/-! ### Every run -/

section Runs

variable {P : PageSize} {datagram : Bool} {c : MBufChain} {t : List Event}

/-- On every chain a run reaches the cursor lies within the first cell. -/
theorem cursor_of_reach (reach : Reach P datagram c t) :
    ∀ b ∈ c.buffers_.head?, c.readCursorOff_ ≤ b.len_ := by
  cases datagram with
  | false => exact cursor_le_head (streamInv_of_reach reach).cursor
  | true => rw [(datagramInv_of_reach reach).cursor]; exact fun _ _ => Nat.zero_le _

theorem peek_refines_read (reach : Reach P datagram c t) (dst : UserOut) (len : Nat) :
    PeeksAsRead P c dst len datagram := by
  obtain ⟨count, status, copies, unchanged⟩ := peek_read P c dst len datagram (cursor_of_reach reach)
  refine ⟨count, status, copies, unchanged, fun i => ?_⟩
  rw [unchanged, copies, userBytes_filter_copyToUser]

/-- A peek of 4100 bytes of the stream sample crosses into its second cell as the read does, and a
peek of 2 bytes of the datagram sample reads its datagram as the read does. -/
theorem peek_refines_read_sample :
    PeeksAsRead pageSize4K streamSample okDst 4100 false ∧
      PeeksAsRead pageSize4K datagramSample okDst 2 true :=
  ⟨streamSample_reach.2.2.elim fun _ reach => peek_refines_read reach okDst 4100,
    datagramSample_reach.2.2.elim fun _ reach => peek_refines_read reach okDst 2⟩

end Runs

end Zircon.MBufChain
