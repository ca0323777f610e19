import Zircon.MBuf.Read
import Zircon.MBuf.Contents

/-! The loop of `ReadHelper` on a stream read. From cells of stream shape, with the cursor inside
the first, each pass copies the next bytes of the unread ones to the next bytes of `dst`, so that
the loop as a whole delivers a prefix of the unread bytes and leaves the rest: `readLoop_stream`.
-/

namespace Zircon.MBufChain

/-! ### One pass -/

section Pass

variable {dst : UserOut} {len : Nat} {b : MBuf} {s : ReadState}

/-- A pass that copies the rest of the first cell unlinks it. -/
theorem readIter_stream_pop (ok : dst.copy s.pos (copyLen len b s) = .ok)
    (used : s.readOff + copyLen len b s = b.len_) (room : copyLen len b s ≤ s.size)
    (fits : b.len_ < 2 ^ 32) :
    readIter false false dst len b s = (true, ⟨s.pos + copyLen len b s, 0, s.size - copyLen len b s,
      .ok, b :: s.freeList, s.events ++ [copyEvent dst len b s], s.wraps⟩) := by
  have : ¬ b.len_ < s.readOff := by omega
  simp [readIter, consume, copyOut, ok, used, this, Nat.not_lt.mpr room,
    Nat.not_le.mpr (show b.len_ < 4294967296 from fits)]

/-- A pass that fills `dst` before the end of the first cell keeps it. -/
theorem readIter_stream_keep (ok : dst.copy s.pos (copyLen len b s) = .ok)
    (short : s.readOff + copyLen len b s ≠ b.len_) (off_le : s.readOff ≤ b.len_)
    (room : copyLen len b s ≤ s.size) (fits : b.len_ < 2 ^ 32) :
    readIter false false dst len b s = (false, ⟨s.pos + copyLen len b s, s.readOff + copyLen len b s,
      s.size - copyLen len b s, .ok, s.freeList, s.events ++ [copyEvent dst len b s], s.wraps⟩) := by
  have : ¬ b.len_ < s.readOff := by omega
  have : s.readOff + copyLen len b s < 4294967296 := by simp only [copyLen] at *; omega
  simp [readIter, consume, copyOut, ok, short, *, Nat.not_lt.mpr room, Nat.not_le.mpr this]

/-- A pass whose copy faults changes the status and nothing else. -/
theorem readIter_stream_fault (fault : dst.copy s.pos (copyLen len b s) ≠ .ok)
    (off_lt : s.readOff < b.len_) :
    readIter false false dst len b s = (false, ⟨s.pos, s.readOff, s.size,
      dst.copy s.pos (copyLen len b s), s.freeList, s.events ++ [copyEvent dst len b s], s.wraps⟩) := by
  simp [readIter, consume, copyOut, fault, Nat.ne_of_lt off_lt, Nat.not_lt.mpr off_lt.le]

end Pass

/-! ### The loop -/

/-- What the loop of a stream read does from cells `bs` with locals `s`, ending at `r`. -/
structure StreamReadPost (len : Nat) (bs : List MBuf) (s : ReadState) (r : List MBuf × ReadState) :
    Prop where
  popped : ∃ front, bs = front ++ r.1 ∧ r.2.freeList = front.reverse ++ s.freeList
  cursor : Cursor r.1 r.2.readOff
  size : r.2.size + r.2.readOff = lens r.1
  pos_ge : s.pos ≤ r.2.pos
  pos_le : r.2.pos ≤ len
  read_le : r.2.pos - s.pos ≤ lens bs - s.readOff
  remains : unread r.1 r.2.readOff = (unread bs s.readOff).drop (r.2.pos - s.pos)
  done : r.2.status = .ok → r.2.pos = len ∨ r.1 = []
  user : ∀ i, userBytes r.2.events i =
    if s.pos ≤ i ∧ i < r.2.pos then (unread bs s.readOff)[i - s.pos]? else userBytes s.events i
  wraps : r.2.wraps = s.wraps

section Post

variable {dst : UserOut} {len : Nat} {b : MBuf} {rest : List MBuf} {s : ReadState}

theorem StreamReadPost.nil (cursor : Cursor [] s.readOff) (size : s.size + s.readOff = lens [])
    (pos_le : s.pos ≤ len) : StreamReadPost len [] s ([], s) :=
  ⟨⟨[], by simp⟩, cursor, size, le_rfl, pos_le, by simp, by simp, fun _ => .inr rfl,
    fun i => by dsimp only; rw [if_neg (by omega)], rfl⟩

theorem StreamReadPost.stop {bs : List MBuf} (cursor : Cursor bs s.readOff)
    (size : s.size + s.readOff = lens bs) (pos_le : s.pos ≤ len) (stop : ¬s.pos < len) :
    StreamReadPost len bs s (bs, s) :=
  ⟨⟨[], by simp⟩, cursor, size, le_rfl, pos_le, by simp, by simp, fun _ => .inl (by dsimp only; omega),
    fun i => by dsimp only; rw [if_neg (by omega)], rfl⟩

/-- A pass that used up the first cell, then the loop over the others. -/
theorem StreamReadPost.pop {r : List MBuf × ReadState} (off_lt : s.readOff < b.len_)
    (copied : dst.copy s.pos (copyLen len b s) = .ok) (used : s.readOff + copyLen len b s = b.len_)
    (ih : StreamReadPost len rest ⟨s.pos + copyLen len b s, 0, s.size - copyLen len b s, .ok,
      b :: s.freeList, s.events ++ [copyEvent dst len b s], s.wraps⟩ r) :
    StreamReadPost len (b :: rest) s r := by
  obtain ⟨⟨front, split, free⟩, cursor, size, pos_ge, pos_le, read_le, remains, done, user, wraps⟩ :=
    ih
  dsimp only at free pos_ge read_le remains user wraps
  have slices := unread_cons_split rest off_lt.le
    (show copyLen len b s ≤ b.len_ - s.readOff from Nat.min_le_left _ _)
  rw [used, unread_cons_len] at slices
  refine ⟨⟨b :: front, by rw [List.cons_append, ← split], by rw [free]; simp⟩, cursor, size,
    by omega, pos_le, by simp only [lens_cons] at read_le ⊢; omega, ?_, done, ?_, wraps⟩
  · have e : r.2.pos - s.pos = copyLen len b s + (r.2.pos - (s.pos + copyLen len b s)) := by omega
    rw [remains, slices, e, ← List.drop_drop, List.drop_left' (length_slice _ _ _)]
  · rw [slices]
    exact writes_append (userBytes_copyEvent_ok copied s.events) (by simpa using user)
      (by simp; omega)

/-- A pass that filled `dst` before the end of the first cell. -/
theorem StreamReadPost.keep (cursor : Cursor (b :: rest) s.readOff)
    (size : s.size + s.readOff = lens (b :: rest)) (pos_lt : s.pos < len)
    (copied : dst.copy s.pos (copyLen len b s) = .ok) (short : s.readOff + copyLen len b s ≠ b.len_) :
    StreamReadPost len (b :: rest) s (b :: rest, ⟨s.pos + copyLen len b s,
      s.readOff + copyLen len b s, s.size - copyLen len b s, .ok, s.freeList,
      s.events ++ [copyEvent dst len b s], s.wraps⟩) := by
  have off_lt : s.readOff < b.len_ := cursor
  have n_le : copyLen len b s ≤ b.len_ - s.readOff := Nat.min_le_left _ _
  have filled : copyLen len b s = len - s.pos := by simp only [copyLen] at *; omega
  have slices := unread_cons_split rest off_lt.le n_le
  refine ⟨⟨[], by simp⟩, by dsimp only [Cursor]; omega, by simp only [lens_cons] at size ⊢; omega,
    by dsimp only; omega, by dsimp only; omega, by simp only [lens_cons]; omega,
    by simp [unread_add], fun _ => .inl (by dsimp only; omega), fun i => ?_, rfl⟩
  rw [userBytes_copyEvent_ok copied, length_slice, slices]
  by_cases range : s.pos ≤ i ∧ i < s.pos + copyLen len b s
  · rw [if_pos range, if_pos range, List.getElem?_append_left (by simp; omega)]
  · rw [if_neg range, if_neg range]

/-- A pass whose copy faulted. -/
theorem StreamReadPost.fault (cursor : Cursor (b :: rest) s.readOff)
    (size : s.size + s.readOff = lens (b :: rest)) (pos_le : s.pos ≤ len)
    (fault : dst.copy s.pos (copyLen len b s) ≠ .ok) :
    StreamReadPost len (b :: rest) s (b :: rest, ⟨s.pos, s.readOff, s.size,
      dst.copy s.pos (copyLen len b s), s.freeList, s.events ++ [copyEvent dst len b s], s.wraps⟩) :=
  ⟨⟨[], by simp⟩, cursor, size, le_rfl, pos_le, by simp, by simp, fun ok => absurd ok fault,
    fun i => by dsimp only; rw [userBytes_copyEvent_fault fault, if_neg (by omega)], rfl⟩

end Post

/-- The loop of a stream read, from cells of stream shape with the cursor in the first. -/
theorem readLoop_stream {dst : UserOut} {len : Nat} :
    ∀ {bs : List MBuf} {s : ReadState}, (∀ b ∈ bs, 0 < b.len_ ∧ b.len_ < 2 ^ 32) →
      Cursor bs s.readOff → s.size + s.readOff = lens bs → s.pos ≤ len → s.status = .ok →
      StreamReadPost len bs s (readLoop false false dst len bs s)
  | [], s, _, cursor, size, pos_le, _ => by
    rw [readLoop]
    exact .nil cursor size pos_le
  | b :: rest, s, cells, cursor, size, pos_le, ok => by
    obtain ⟨len_pos, fits⟩ := cells b (.head _)
    have off_lt : s.readOff < b.len_ := cursor
    have room : copyLen len b s ≤ s.size := by
      simp only [lens_cons, copyLen] at size ⊢; omega
    by_cases go : s.pos < len
    · by_cases copied : dst.copy s.pos (copyLen len b s) = .ok
      · by_cases used : s.readOff + copyLen len b s = b.len_
        · rw [readLoop, if_pos ⟨go, ok⟩, readIter_stream_pop copied used room fits, if_pos rfl]
          exact .pop off_lt copied used (readLoop_stream (fun c hc => cells c (.tail _ hc))
            (cursor_zero fun c hc => (cells c (.tail _ hc)).1)
            (by simp only [lens_cons] at size; dsimp only; omega)
            (by have := Nat.min_le_right (b.len_ - s.readOff) (len - s.pos)
                dsimp only [copyLen]; omega) rfl)
        · rw [readLoop, if_pos ⟨go, ok⟩, readIter_stream_keep copied used off_lt.le room fits]
          exact .keep cursor size go copied used
      · rw [readLoop, if_pos ⟨go, ok⟩, readIter_stream_fault copied off_lt]
        exact .fault cursor size pos_le copied
    · rw [readLoop, if_neg (by simp [go])]
      exact .stop cursor size pos_le go

end Zircon.MBufChain
