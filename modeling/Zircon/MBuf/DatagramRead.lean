import Zircon.MBuf.Read
import Zircon.MBuf.Contents

/-! The loop of `ReadHelper` on a datagram read, and the drain after it. Every pass unlinks its cell
and takes the whole cell off `size_`, whether its copy succeeded or not. Given that the cells ahead
hold at least `len` bytes, the loop stops within them; the drain then unlinks the cells that
continue the datagram, so that the read removes exactly the first datagram. -/

namespace Zircon.MBufChain

/-! ### One pass -/

section Pass

variable {dst : UserOut} {len : Nat} {b : MBuf} {s : ReadState}

/-- A pass of a datagram read from the start of a cell copies what fits and unlinks the cell. -/
theorem readIter_datagram (off : s.readOff = 0) (room : b.len_ ≤ s.size) (fits : b.len_ < 2 ^ 32) :
    readIter false true dst len b s = (true, ⟨(copyOut dst len b s).pos, 0, s.size - b.len_,
      dst.copy s.pos (copyLen len b s), b :: s.freeList, s.events ++ [copyEvent dst len b s],
      s.wraps⟩) := by
  have n_le : copyLen len b s ≤ b.len_ := by simp only [copyLen, off]; omega
  by_cases ok : dst.copy s.pos (copyLen len b s) = .ok
  · have : ¬s.size < copyLen len b s := by omega
    have : ¬2 ^ 32 ≤ copyLen len b s := by omega
    have : ¬s.size - copyLen len b s < b.len_ - copyLen len b s := by omega
    have : ¬b.len_ < copyLen len b s := by omega
    simp [readIter, consume, copyOut, ok, off, *]
    omega
  · have : ¬s.size < b.len_ := by omega
    simp [readIter, consume, copyOut, ok, off, this]

end Pass

/-! ### The loop -/

/-- What the loop of a datagram read does from the cells `cells` of a datagram, with `rest` after
them, starting at the beginning of a cell with locals `s`, ending at `r`. -/
structure DatagramReadPost (len : Nat) (cells rest : List MBuf) (s : ReadState)
    (r : List MBuf × ReadState) : Prop where
  popped : ∃ front back, cells = front ++ back ∧ r.1 = back ++ rest ∧
    r.2.freeList = front.reverse ++ s.freeList ∧ (s.pos < len → front ≠ [])
  readOff : r.2.readOff = 0
  size : r.2.size = lens r.1
  pos_ge : s.pos ≤ r.2.pos
  pos_le : r.2.pos ≤ len
  done : r.2.status = .ok → r.2.pos = len
  user : ∀ i, userBytes r.2.events i =
    if s.pos ≤ i ∧ i < r.2.pos then (cells.flatMap MBuf.bytes)[i - s.pos]? else userBytes s.events i
  wraps : r.2.wraps = s.wraps

section Post

variable {dst : UserOut} {len : Nat} {b : MBuf} {cells rest : List MBuf} {s : ReadState}

theorem DatagramReadPost.stop (off : s.readOff = 0) (size : s.size = lens (cells ++ rest))
    (pos_le : s.pos ≤ len) (stop : ¬s.pos < len) :
    DatagramReadPost len cells rest s (cells ++ rest, s) :=
  ⟨⟨[], cells, rfl, rfl, rfl, fun go => absurd go stop⟩, off, size, le_rfl, pos_le,
    fun _ => by dsimp only; omega, fun i => by dsimp only; rw [if_neg (by omega)], rfl⟩

/-- A pass whose copy faulted unlinks its cell and ends the loop. -/
theorem DatagramReadPost.fault (size : s.size = lens (b :: cells ++ rest))
    (pos_lt : s.pos < len) (fault : dst.copy s.pos (copyLen len b s) ≠ .ok) :
    DatagramReadPost len (b :: cells) rest s (cells ++ rest, ⟨(copyOut dst len b s).pos, 0,
      s.size - b.len_, dst.copy s.pos (copyLen len b s), b :: s.freeList,
      s.events ++ [copyEvent dst len b s], s.wraps⟩) := by
  have pos : (copyOut dst len b s).pos = s.pos := by simp [copyOut_pos, fault]
  refine ⟨⟨[b], cells, rfl, rfl, rfl, fun _ => List.cons_ne_nil _ _⟩, rfl, ?_, by rw [pos],
    by rw [pos]; omega, fun ok => absurd ok fault, fun i => ?_, rfl⟩
  · simp only [List.cons_append, lens_cons] at size ⊢; omega
  · rw [userBytes_copyEvent_fault fault, pos, if_neg (by omega)]

/-- A pass whose copy succeeded, then the loop over the cells after it. -/
theorem DatagramReadPost.pass {r : List MBuf × ReadState} (off : s.readOff = 0)
    (ok : dst.copy s.pos (copyLen len b s) = .ok)
    (ih : DatagramReadPost len cells rest ⟨s.pos + copyLen len b s, 0, s.size - b.len_, .ok,
      b :: s.freeList, s.events ++ [copyEvent dst len b s], s.wraps⟩ r) :
    DatagramReadPost len (b :: cells) rest s r := by
  obtain ⟨⟨front, back, split, left, free, _⟩, readOff, size, pos_ge, pos_le, done, user, wraps⟩ := ih
  dsimp only at free pos_ge user wraps
  refine ⟨⟨b :: front, back, by rw [split]; rfl, left, by rw [free]; simp, fun _ => List.cons_ne_nil _ _⟩,
    readOff, size, by omega, pos_le, done, fun i => ?_, wraps⟩
  have n_le : copyLen len b s ≤ b.len_ := by simp only [copyLen, off]; omega
  have first : b.bytes.take (copyLen len b s) = slice b.data_ s.readOff (copyLen len b s) := by
    rw [MBuf.bytes, take_slice, off, Nat.min_eq_left n_le]
  rw [writes_append (h := fun i => userBytes r.2.events i) (userBytes_copyEvent_ok ok s.events)
    (by simpa using user) (by simpa using pos_ge) i]
  by_cases range : s.pos ≤ i ∧ i < r.2.pos
  · rw [if_pos range, if_pos range, List.flatMap_cons]
    by_cases full : copyLen len b s = b.len_
    · rw [off, full]; rfl
    · have short : i - s.pos < copyLen len b s := by simp only [copyLen, off] at full ⊢; omega
      rw [List.getElem?_append_left (by simpa using short),
        List.getElem?_append_left (by simp only [MBuf.length_bytes]; omega), ← first,
        List.getElem?_take, if_pos short]
  · rw [if_neg range, if_neg range]

end Post

/-- The loop of a datagram read over cells that hold at least the `len - pos` bytes still wanted:
it stops within them. -/
theorem readLoop_datagram {dst : UserOut} {len : Nat} :
    ∀ {cells rest : List MBuf} {s : ReadState}, (∀ b ∈ cells, b.len_ < 2 ^ 32) → s.readOff = 0 →
      s.size = lens (cells ++ rest) → s.pos ≤ len → len ≤ s.pos + lens cells → s.status = .ok →
      DatagramReadPost len cells rest s (readLoop false true dst len (cells ++ rest) s)
  | [], rest, s, _, off, size, pos_le, enough, ok => by
    have stop : ¬s.pos < len := by simp only [lens_nil] at enough; omega
    rw [List.nil_append, readLoop_stop fun go => stop go.1]
    exact .stop off size pos_le stop
  | b :: cells, rest, s, fits, off, size, pos_le, enough, ok => by
    by_cases go : s.pos < len
    · have room : b.len_ ≤ s.size := by simp only [List.cons_append, lens_cons] at size; omega
      rw [List.cons_append, readLoop, if_pos ⟨go, ok⟩,
        readIter_datagram off room (fits b (.head _)), if_pos rfl]
      by_cases copied : dst.copy s.pos (copyLen len b s) = .ok
      · have pos : (copyOut dst len b s).pos = s.pos + copyLen len b s := by
          simp [copyOut_pos, copied]
        rw [pos, copied]
        have n_le : copyLen len b s ≤ len - s.pos := Nat.min_le_right _ _
        exact .pass off copied (readLoop_datagram (fun c hc => fits c (.tail _ hc)) rfl
          (by simp only [List.cons_append, lens_cons] at size; dsimp only; omega)
          (by dsimp only; omega)
          (by simp only [lens_cons, copyLen, off] at enough ⊢; omega) rfl)
      · rw [readLoop_stop fun h => copied h.2]
        exact .fault size go copied
    · rw [readLoop_stop fun h => go h.1]
      exact .stop off size pos_le go

/-! ### The drain -/

/-- The drain unlinks the cells that continue the datagram and stops at the next datagram. -/
theorem drain_tail {back rest : List MBuf} {s : ReadState} (tail : ∀ b ∈ back, b.pktLen_ = 0)
    (head : ∀ h ∈ rest.head?, h.pktLen_ ≠ 0) (off : s.readOff = 0) (room : lens back ≤ s.size) :
    drain (back ++ rest) s =
      (rest, { s with size := s.size - lens back, freeList := back.reverse ++ s.freeList }) := by
  induction back generalizing s with
  | nil =>
    cases rest with
    | nil => rfl
    | cons h rest => rw [List.nil_append, drain, if_neg (head h rfl)]; simp
  | cons b back ih =>
    have fits : ¬s.size < b.len_ := by simp only [lens_cons] at room; omega
    rw [List.cons_append, drain, if_pos (tail b (.head _)),
      ih (fun c hc => tail c (.tail _ hc)) rfl (by simp only [lens_cons, off] at room ⊢; omega)]
    simp [off, fits, Nat.sub_sub]

end Zircon.MBufChain
