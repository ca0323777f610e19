import Zircon.MBuf.Basic

/-! What a chain holds, read off its cells: the unread bytes (the valid bytes of the cells after the
read cursor), and, for a chain of datagrams, the datagrams. These are the abstract queues that the
two modes of the chain implement. -/

namespace Zircon

/-- The valid bytes of the cells `bs`, less the first `off`. -/
def unread (bs : List MBuf) (off : Nat) : List UInt8 := (bs.flatMap MBuf.bytes).drop off

/-- The sum of the cells' `len_`. -/
def lens : List MBuf → Nat
  | [] => 0
  | b :: bs => b.len_ + lens bs

@[simp] theorem lens_nil : lens [] = 0 := rfl

@[simp] theorem lens_cons (b : MBuf) (bs : List MBuf) : lens (b :: bs) = b.len_ + lens bs := rfl

@[simp] theorem lens_append (bs bs' : List MBuf) : lens (bs ++ bs') = lens bs + lens bs' := by
  induction bs <;> simp_all [Nat.add_assoc]

/-- Cells of `k` bytes each hold `k` bytes apiece. -/
theorem lens_of_full {bs : List MBuf} {k : Nat} (full : ∀ b ∈ bs, b.len_ = k) :
    lens bs = bs.length * k := by
  induction bs with
  | nil => simp
  | cons b bs ih =>
    rw [lens_cons, full b (.head _), ih fun b mem => full b (.tail _ mem), List.length_cons,
      Nat.succ_mul, Nat.add_comm]

theorem lens_flatten (segs : List (List MBuf)) : lens segs.flatten = (segs.map lens).sum := by
  induction segs with
  | nil => rfl
  | cons seg segs ih => simp [ih]

@[simp] theorem length_flatMap_bytes (bs : List MBuf) : (bs.flatMap MBuf.bytes).length = lens bs := by
  induction bs <;> simp_all

@[simp] theorem length_unread (bs : List MBuf) (off : Nat) :
    (unread bs off).length = lens bs - off := by
  rw [unread, List.length_drop, length_flatMap_bytes]

@[simp] theorem unread_nil (off : Nat) : unread [] off = [] := by simp [unread]

theorem unread_cons {b : MBuf} (bs : List MBuf) {off : Nat} (h : off ≤ b.len_) :
    unread (b :: bs) off = slice b.data_ off (b.len_ - off) ++ unread bs 0 := by
  simp [unread, List.drop_append_of_le_length, h, MBuf.bytes, drop_slice]

theorem unread_add (bs : List MBuf) (off n : Nat) :
    unread bs (off + n) = (unread bs off).drop n := by
  simp [unread, Nat.add_comm]

theorem unread_cons_split {b : MBuf} (rest : List MBuf) {off n : Nat} (off_le : off ≤ b.len_)
    (h : n ≤ b.len_ - off) :
    unread (b :: rest) off = slice b.data_ off n ++ unread (b :: rest) (off + n) := by
  have take : (unread (b :: rest) off).take n = slice b.data_ off n := by
    rw [unread_cons _ off_le, List.take_append_of_le_length (by simpa using h), take_slice,
      Nat.min_eq_left h]
  rw [unread_add, ← take, List.take_append_drop]

theorem unread_cons_len (b : MBuf) (rest : List MBuf) : unread (b :: rest) b.len_ = unread rest 0 := by
  simp [unread_cons rest (le_refl b.len_)]

/-- The read cursor of the cells `bs` at `off`: inside the first cell, or 0 if there is none. -/
def Cursor : List MBuf → Nat → Prop
  | [], off => off = 0
  | b :: _, off => off < b.len_

theorem cursor_zero {bs : List MBuf} (cells : ∀ b ∈ bs, 0 < b.len_) : Cursor bs 0 := by
  cases bs with
  | nil => rfl
  | cons b _ => exact cells b (.head _)

/-- The cursor never passes the valid bytes. -/
theorem cursor_le_lens {bs : List MBuf} {off : Nat} (cursor : Cursor bs off) : off ≤ lens bs := by
  cases bs with
  | nil => exact Nat.le_of_eq cursor
  | cons b _ => simp only [lens_cons]; exact Nat.le_add_right_of_le (Nat.le_of_lt cursor)

/-- The cursor lies within the first cell. -/
theorem cursor_le_head {bs : List MBuf} {off : Nat} (cursor : Cursor bs off) :
    ∀ b ∈ bs.head?, off ≤ b.len_ := by
  cases bs with
  | nil => rintro _ ⟨⟩
  | cons b _ => rintro _ ⟨⟩; exact Nat.le_of_lt cursor

/-- Writing `U` at `p` and then `V` right after it writes `U ++ V` at `p`. -/
theorem writes_append {f g h : Nat → Option UInt8} {U V : List UInt8} {p q : Nat}
    (hg : ∀ i, g i = if p ≤ i ∧ i < p + U.length then U[i - p]? else f i)
    (hh : ∀ i, h i = if p + U.length ≤ i ∧ i < q then V[i - (p + U.length)]? else g i)
    (hq : p + U.length ≤ q) :
    ∀ i, h i = if p ≤ i ∧ i < q then (U ++ V)[i - p]? else f i := by
  intro i
  rw [hh, hg]
  by_cases lo : p + U.length ≤ i
  · by_cases hi : i < q
    · rw [if_pos ⟨lo, hi⟩, if_pos ⟨by omega, hi⟩, List.getElem?_append_right (by omega)]
      congr 1; omega
    · rw [if_neg (by omega), if_neg (by omega), if_neg (by omega)]
  · rw [if_neg (by omega)]
    by_cases lo' : p ≤ i
    · rw [if_pos ⟨lo', by omega⟩, if_pos ⟨lo', by omega⟩, List.getElem?_append_left (by omega)]
    · rw [if_neg (by omega), if_neg (by omega)]

/-! ### Datagrams -/

/-- A cell put in front of the parts: it joins the first part if that one continues a datagram
(`pkt_len_ == 0`), and is a part of its own otherwise. -/
def addCell (b : MBuf) : List (List MBuf) → List (List MBuf)
  | (c :: seg) :: segs => if c.pktLen_ = 0 then (b :: c :: seg) :: segs else [b] :: (c :: seg) :: segs
  | segs => [b] :: segs

/-- The cells split before each cell that begins a datagram (`pkt_len_ != 0`): each part is a
datagram's first cell with the cells after it up to the next first cell. -/
def segments : List MBuf → List (List MBuf)
  | [] => []
  | b :: bs => addCell b (segments bs)

section Segments

variable {b c : MBuf} {seg : List MBuf} {segs : List (List MBuf)}

@[simp] theorem addCell_nil : addCell b [] = [[b]] := rfl

theorem addCell_continue (cont : c.pktLen_ = 0) :
    addCell b ((c :: seg) :: segs) = (b :: c :: seg) :: segs := if_pos cont

theorem addCell_begin (head : c.pktLen_ ≠ 0) :
    addCell b ((c :: seg) :: segs) = [b] :: (c :: seg) :: segs := if_neg head

theorem addCell_append (more : List (List MBuf)) :
    addCell b ((c :: seg) :: segs ++ more) = addCell b ((c :: seg) :: segs) ++ more := by
  by_cases cont : c.pktLen_ = 0
  · rw [List.cons_append, addCell_continue cont, addCell_continue cont]; rfl
  · rw [List.cons_append, addCell_begin cont, addCell_begin cont]; rfl

end Segments

/-- The first part begins with the first cell. -/
theorem segments_cons (b : MBuf) (bs : List MBuf) :
    ∃ seg segs, segments (b :: bs) = (b :: seg) :: segs := by
  cases bs with
  | nil => exact ⟨[], [], rfl⟩
  | cons b' bs =>
    obtain ⟨seg, segs, split⟩ := segments_cons b' bs
    rw [segments, split]
    by_cases cont : b'.pktLen_ = 0
    · exact ⟨_, _, addCell_continue cont⟩
    · exact ⟨_, _, addCell_begin cont⟩

@[simp] theorem flatten_segments (bs : List MBuf) : (segments bs).flatten = bs := by
  induction bs with
  | nil => rfl
  | cons b bs ih =>
    cases bs with
    | nil => rfl
    | cons b' bs =>
      obtain ⟨seg, segs, split⟩ := segments_cons b' bs
      rw [split] at ih
      rw [segments, split]
      by_cases cont : b'.pktLen_ = 0
      · rw [addCell_continue cont, List.flatten_cons, List.cons_append, ← List.flatten_cons, ih]
      · rw [addCell_begin cont, List.flatten_cons, ih]; rfl

/-- A cell followed by cells that continue a datagram is one part. -/
theorem segments_of_tail (h : MBuf) {tl : List MBuf} (tail : ∀ b ∈ tl, b.pktLen_ = 0) :
    segments (h :: tl) = [h :: tl] := by
  induction tl generalizing h with
  | nil => rfl
  | cons t tl ih =>
    rw [segments, ih t fun b mem => tail b (.tail _ mem), addCell_continue (tail t (.head _))]

/-- Cells ahead of a datagram's first cell do not change how the rest splits. -/
theorem segments_append (xs : List MBuf) {ys : List MBuf} (head : ∀ h ∈ ys.head?, h.pktLen_ ≠ 0) :
    segments (xs ++ ys) = segments xs ++ segments ys := by
  induction xs with
  | nil => rfl
  | cons x xs ih =>
    cases xs with
    | nil =>
      cases ys with
      | nil => rfl
      | cons y ys =>
        obtain ⟨seg, segs, split⟩ := segments_cons y ys
        rw [List.singleton_append, segments, split, addCell_begin (head y rfl)]
        rfl
    | cons x' xs =>
      obtain ⟨seg, segs, split⟩ := segments_cons x' xs
      rw [List.cons_append, segments, ih, split, addCell_append, segments, split]

/-- Datagrams laid end to end split back into themselves. -/
theorem segments_flatten {segs : List (List MBuf)}
    (parts : ∀ seg ∈ segs, ∃ h tl, seg = h :: tl ∧ h.pktLen_ ≠ 0 ∧ ∀ b ∈ tl, b.pktLen_ = 0) :
    segments segs.flatten = segs := by
  induction segs with
  | nil => rfl
  | cons seg segs ih =>
    obtain ⟨h, tl, rfl, -, tail⟩ := parts seg (.head _)
    have head : ∀ h ∈ segs.flatten.head?, h.pktLen_ ≠ 0 := by
      cases segs with
      | nil => simp
      | cons seg' segs' =>
        obtain ⟨h', tl', rfl, head', -⟩ := parts seg' (.tail _ (.head _))
        simpa using head'
    rw [List.flatten_cons, segments_append _ head, segments_of_tail h tail,
      ih fun seg mem => parts seg (.tail _ mem)]
    rfl

namespace MBufChain

/-- The datagrams of a chain, oldest first: the valid bytes of each part of its cells. -/
def datagrams (c : MBufChain) : List (List UInt8) :=
  (segments c.buffers_).map fun seg => seg.flatMap MBuf.bytes

/-- The unread bytes of a chain: `data_[0, len_)` of each cell, with the first `read_cursor_off_`
dropped. -/
def contents (c : MBufChain) : List UInt8 := unread c.buffers_ c.readCursorOff_

end MBufChain

end Zircon
