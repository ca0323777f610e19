import Zircon.MBuf.Peek

/-! The pages of a chain (`object/mbuf.cc`). `AllocMBufs` builds a cell on each page `AllocPages`
hands out, and the cell's constructor adds `sizeof(MBuf)` to `mbuf.total_bytes`; `FreeMBufs`
destroys cells, each destructor taking `sizeof(MBuf)` off, and hands their pages to `FreeList`.
Every operation keeps the books: the pages under the cells before, with the pages it obtained, are
as a multiset the pages under the cells after with the pages it freed, and the counter moves by
`sizeof(MBuf)` for each page obtained or freed. Over a run from `MBufChain()` each page handed out
is then under exactly one cell or has been freed once, and `~MBufChain()` frees the rest. -/

namespace Zircon.MBufChain

/-- The pages under the cells. -/
def pagesOf (bs : List MBuf) : List VmPage := bs.map (·.page_)

/-- The pages the `AllocPages` calls of a trace handed out. -/
def obtainedOf (events : List Event) : List VmPage := events.flatMap Event.obtained

/-- The pages the `FreeList` calls of a trace took back. -/
def freedOf (events : List Event) : List VmPage := events.flatMap Event.freed

/-- What the calls of a trace add to `mbuf.total_bytes`. -/
def counterOf (events : List Event) : Int := (events.map Event.counter).sum

section Accounting

variable {bs bs' : List MBuf} {events events' : List Event}

@[simp] theorem pagesOf_nil : pagesOf [] = [] := rfl

@[simp] theorem pagesOf_cons (b : MBuf) : pagesOf (b :: bs) = b.page_ :: pagesOf bs := rfl

@[simp] theorem pagesOf_append : pagesOf (bs ++ bs') = pagesOf bs ++ pagesOf bs' :=
  List.map_append _ _ _

@[simp] theorem pagesOf_reverse : pagesOf bs.reverse = (pagesOf bs).reverse := List.map_reverse _ _

@[simp] theorem length_pagesOf : (pagesOf bs).length = bs.length := List.length_map _ _

@[simp] theorem obtainedOf_nil : obtainedOf [] = [] := rfl

@[simp] theorem obtainedOf_cons (e : Event) : obtainedOf (e :: events) = e.obtained ++ obtainedOf events :=
  List.flatMap_cons _ _ _

@[simp] theorem obtainedOf_append : obtainedOf (events ++ events') = obtainedOf events ++ obtainedOf events' :=
  List.flatMap_append _ _ _

@[simp] theorem freedOf_nil : freedOf [] = [] := rfl

@[simp] theorem freedOf_cons (e : Event) : freedOf (e :: events) = e.freed ++ freedOf events :=
  List.flatMap_cons _ _ _

@[simp] theorem freedOf_append : freedOf (events ++ events') = freedOf events ++ freedOf events' :=
  List.flatMap_append _ _ _

@[simp] theorem counterOf_nil : counterOf [] = 0 := rfl

@[simp] theorem counterOf_cons (e : Event) : counterOf (e :: events) = e.counter + counterOf events :=
  List.sum_cons

@[simp] theorem counterOf_append : counterOf (events ++ events') = counterOf events + counterOf events' := by
  induction events with
  | nil => simp
  | cons e events ih => simp only [List.cons_append, counterOf_cons, ih, Int.add_assoc]

/-- Calls that each add `delta` to the counter, one per element of `xs`. -/
theorem counterOf_kcounterAdd {α : Type} (delta : Int) (xs : List α) :
    counterOf (xs.map fun _ => .kcounterAdd delta) = xs.length * delta := by
  induction xs with
  | nil => simp
  | cons x xs ih =>
    simp only [List.map_cons, counterOf_cons, ih, Event.counter, List.length_cons, Nat.cast_succ]
    ring

/-- A user copy takes no page, frees none and leaves the counter alone. -/
theorem quiet_of_isCopy {e : Event} (copy : e.isCopy) : e.obtained = [] ∧ e.freed = [] ∧ e.counter = 0 := by
  cases e with
  | copyFromUser | copyToUser => exact ⟨rfl, rfl, rfl⟩
  | allocPages | freeList | kcounterAdd => cases copy

theorem copies_quiet (copies : ∀ e ∈ events, e.isCopy) :
    obtainedOf events = [] ∧ freedOf events = [] ∧ counterOf events = 0 := by
  induction events with
  | nil => exact ⟨rfl, rfl, rfl⟩
  | cons e events ih =>
    obtain ⟨ob, fr, co⟩ := ih fun e' mem => copies e' (.tail _ mem)
    obtain ⟨eob, efr, eco⟩ := quiet_of_isCopy (copies e (.head _))
    rw [obtainedOf_cons, freedOf_cons, counterOf_cons, ob, fr, co, eob, efr, eco]
    exact ⟨rfl, rfl, rfl⟩

/-- The pages the calls obtain are none, or those one call of `allocPages` hands out. -/
def ObtainsFrom (allocPages : Nat → Option (List FreshPage)) (events : List Event) : Prop :=
  obtainedOf events = [] ∨ ∃ num fresh, allocPages num = some fresh ∧
    obtainedOf events = fresh.map (·.page)

theorem ObtainsFrom.append_copies {allocPages : Nat → Option (List FreshPage)}
    (h : ObtainsFrom allocPages events) (none : obtainedOf events' = []) :
    ObtainsFrom allocPages (events ++ events') := by
  rw [ObtainsFrom, obtainedOf_append, none, List.append_nil]
  exact h

theorem ObtainsFrom.copies_append {allocPages : Nat → Option (List FreshPage)}
    (none : obtainedOf events = []) (h : ObtainsFrom allocPages events') :
    ObtainsFrom allocPages (events ++ events') := by
  rw [ObtainsFrom, obtainedOf_append, none, List.nil_append]
  exact h

end Accounting

variable (P : PageSize)

/-- The calls `events` take the pages under the cells from `before` to `after`: the pages before
and the pages they obtained are, as a multiset, the pages after and the pages they freed; and they
add `sizeof(MBuf)` to the counter for each page obtained and take it off for each page freed. -/
structure Books (before after : List VmPage) (events : List Event) : Prop where
  pages : (before ++ obtainedOf events).Perm (after ++ freedOf events)
  counter : counterOf events = P.val * ((obtainedOf events).length - (freedOf events).length : Int)

variable {P}

section Books

variable {a b c : List VmPage} {events events' : List Event}

theorem Books.copies (copies : ∀ e ∈ events, e.isCopy) : Books P a a events := by
  obtain ⟨ob, fr, co⟩ := copies_quiet copies
  exact ⟨by rw [ob, fr], by rw [ob, fr, co]; simp⟩

theorem Books.nil : Books P a a [] := .copies fun _ mem => nomatch mem

theorem Books.trans (h : Books P a b events) (h' : Books P b c events') :
    Books P a c (events ++ events') := by
  refine ⟨List.perm_iff_count.mpr fun x => ?_, ?_⟩
  · have first := List.perm_iff_count.mp h.pages x
    have second := List.perm_iff_count.mp h'.pages x
    simp only [obtainedOf_append, freedOf_append, List.count_append] at first second ⊢
    omega
  · rw [counterOf_append, h.counter, h'.counter, obtainedOf_append, freedOf_append,
      List.length_append, List.length_append]
    push_cast
    ring

theorem Books.perm_left {a' : List VmPage} (perm : a.Perm a') (h : Books P a b events) :
    Books P a' b events :=
  ⟨(perm.append_right _).symm.trans h.pages, h.counter⟩

theorem Books.congr_after {b' : List VmPage} (same : b = b') (h : Books P a b events) :
    Books P a b' events :=
  same ▸ h

/-- The counter moves by `sizeof(MBuf)` for each cell gained or lost. -/
theorem Books.counter_eq (h : Books P a b events) :
    counterOf events = P.val * ((b.length : Int) - a.length) := by
  have length := h.pages.length_eq
  rw [h.counter]
  simp only [List.length_append] at length
  congr 1
  omega

end Books

/-! ### `AllocMBufs` and `FreeMBufs` -/

section AllocFree

variable (P)

theorem counterOf_freeMBufs (bufs : List MBuf) :
    counterOf (freeMBufs P bufs) = -(P.val * bufs.length : Int) := by
  rw [freeMBufs, counterOf_append, counterOf_kcounterAdd]
  simp only [counterOf_cons, Event.counter, counterOf_nil]
  ring

@[simp] theorem obtainedOf_freeMBufs (bufs : List MBuf) : obtainedOf (freeMBufs P bufs) = [] := by
  simp [freeMBufs, obtainedOf, Event.obtained]

@[simp] theorem freedOf_freeMBufs (bufs : List MBuf) :
    freedOf (freeMBufs P bufs) = (pagesOf bufs).reverse := by
  simp [freeMBufs, freedOf, Event.freed, pagesOf]

/-- `FreeMBufs(bufs)` hands the pages under `bufs` back and takes `sizeof(MBuf)` off for each. -/
theorem books_freeMBufs (a : List VmPage) (bufs : List MBuf) :
    Books P (a ++ pagesOf bufs) a (freeMBufs P bufs) := by
  refine ⟨?_, ?_⟩
  · rw [obtainedOf_freeMBufs, freedOf_freeMBufs, List.append_nil]
    exact (List.reverse_perm _).symm.append_left a
  · rw [counterOf_freeMBufs, obtainedOf_freeMBufs, freedOf_freeMBufs]
    simp

variable {P}

/-- `AllocMBufs(num)` either fails and changes nothing, or obtains the pages of the cells it
returns and adds `sizeof(MBuf)` for each; the pages are those `AllocPages` handed out. -/
theorem books_allocMBufs (a : List VmPage) {allocPages : Nat → Option (List FreshPage)}
    {num : Nat} :
    (∀ bufs, (allocMBufs P allocPages num).1 = some bufs →
      Books P a (a ++ pagesOf bufs) (allocMBufs P allocPages num).2) ∧
    ((allocMBufs P allocPages num).1 = none → Books P a a (allocMBufs P allocPages num).2) ∧
    ObtainsFrom allocPages (allocMBufs P allocPages num).2 := by
  cases alloc : allocPages num with
  | none =>
    have fail : allocMBufs P allocPages num = (none, [.allocPages num none]) := by
      simp [allocMBufs, alloc]
    rw [fail]
    exact ⟨(fun _ h => nomatch h), fun _ => ⟨by simp [obtainedOf, freedOf, Event.obtained, Event.freed],
      by simp [obtainedOf, freedOf, Event.obtained, Event.freed, Event.counter]⟩, .inl rfl⟩
  | some fresh =>
    have ob : obtainedOf (allocMBufs P allocPages num).2 = fresh.map (·.page) := by
      simp [allocMBufs, alloc, obtainedOf, Event.obtained]
    have fr : freedOf (allocMBufs P allocPages num).2 = [] := by
      simp [allocMBufs, alloc, freedOf, Event.freed]
    have co : counterOf (allocMBufs P allocPages num).2 = P.val * fresh.length := by
      simp only [allocMBufs, alloc, counterOf_cons, counterOf_kcounterAdd, Event.counter]
      ring
    refine ⟨fun bufs some => ⟨?_, ?_⟩, fun none => by simp [allocMBufs, alloc] at none,
      .inr ⟨num, fresh, alloc, ob⟩⟩
    · simp only [allocMBufs, alloc, Option.some.injEq] at some
      rw [ob, fr, List.append_nil, ← some, pagesOf_reverse]
      have same : pagesOf (fresh.map MBuf.ofPage) = fresh.map (·.page) := by
        simp [pagesOf, MBuf.ofPage]
      rw [same]
      exact (List.reverse_perm _).symm.append_left a
    · rw [co, ob, fr]
      simp

end AllocFree

/-! ### Reads -/

section Read

variable {datagram : Bool} {dst : UserOut} {len : Nat}

/-- A read pass puts its cell on the free list exactly when it unlinks it. -/
theorem consume_freeList (b : MBuf) (n : Nat) (s : ReadState) :
    (consume datagram b n s).2.freeList =
      if (consume datagram b n s).1 then b :: s.freeList else s.freeList := by
  dsimp only [consume]
  split <;> split <;> simp_all

/-- The loop of a read unlinks cells from the front onto its free list, and makes copies only. -/
theorem readLoop_unlinks : ∀ (bs : List MBuf) (s : ReadState), ∃ front calls,
    bs = front ++ (readLoop false datagram dst len bs s).1 ∧
      (readLoop false datagram dst len bs s).2.freeList = front.reverse ++ s.freeList ∧
      (readLoop false datagram dst len bs s).2.events = s.events ++ calls ∧ ∀ e ∈ calls, e.isCopy
  | [], s => ⟨[], [], rfl, rfl, by simp [readLoop], fun _ mem => nomatch mem⟩
  | b :: rest, s => by
    have events : (readIter false datagram dst len b s).2.events =
        s.events ++ [copyEvent dst len b s] :=
      (@consume_sameCopies datagram b (copyOut dst len b s) (copyLen len b s)).events
    have free : (readIter false datagram dst len b s).2.freeList =
        if (readIter false datagram dst len b s).1 then b :: s.freeList else s.freeList :=
      consume_freeList b (copyLen len b s) (copyOut dst len b s)
    rw [readLoop]
    split
    · split
      · next popped =>
        obtain ⟨front, calls, split, freeList, events', copies⟩ :=
          readLoop_unlinks rest (readIter false datagram dst len b s).2
        refine ⟨b :: front, copyEvent dst len b s :: calls, by rw [List.cons_append, ← split],
          by simp [freeList, free, popped], by simp [events', events], ?_⟩
        rintro e (_ | ⟨_, mem⟩)
        · rfl
        · exact copies e mem
      · next kept =>
        refine ⟨[], [copyEvent dst len b s], rfl, by simp [free, kept], events, ?_⟩
        rintro e (_ | ⟨_, ⟨⟩⟩)
        rfl
    · exact ⟨[], [], rfl, by simp, by simp, fun _ mem => nomatch mem⟩

/-- The drain unlinks cells from the front onto the free list and makes no call. -/
theorem drain_unlinks (bs : List MBuf) (s : ReadState) : ∃ front,
    bs = front ++ (drain bs s).1 ∧ (drain bs s).2.freeList = front.reverse ++ s.freeList ∧
      (drain bs s).2.events = s.events := by
  induction bs, s using drain.induct with
  | case1 s => exact ⟨[], rfl, rfl, rfl⟩
  | case2 b rest s tail ih =>
    obtain ⟨front, split, freeList, events⟩ := ih
    rw [drain, if_pos tail]
    exact ⟨b :: front, by rw [List.cons_append, ← split], by simp [freeList], events⟩
  | case3 b rest s head =>
    rw [drain, if_neg head]
    exact ⟨[], rfl, rfl, rfl⟩

variable (P)

/-- A read unlinks cells from the front of the chain and frees exactly them, in one `FreeMBufs`;
its other calls are copies. -/
theorem read_unlinks (c : MBufChain) (dst : UserOut) (len : Nat) (datagram : Bool) :
    ∃ unlinked calls, c.buffers_ = unlinked ++ (c.read P dst len datagram).chain.buffers_ ∧
      (c.read P dst len datagram).events =
        calls ++ (if unlinked.isEmpty then [] else freeMBufs P unlinked.reverse) ∧
      ∀ e ∈ calls, e.isCopy := by
  by_cases empty : c.size_ = 0
  · rw [read, readHelper_empty P empty]
    exact ⟨[], [], rfl, rfl, fun _ mem => nomatch mem⟩
  simp only [read, readHelper, if_neg empty, Bool.false_eq_true, ↓reduceIte]
  generalize (if datagram = true ∧ c.frontPktLen < len then c.frontPktLen else len) = len'
  obtain ⟨front, calls, split, freeList, events, copies⟩ :=
    @readLoop_unlinks datagram dst len' c.buffers_ (.init c)
  generalize readLoop false datagram dst len' c.buffers_ (.init c) = R at split freeList events
  have drained : ∃ unlinked, c.buffers_ = unlinked ++ (if datagram then drain R.1 R.2 else R).1 ∧
      (if datagram then drain R.1 R.2 else R).2.freeList = unlinked.reverse ∧
      (if datagram then drain R.1 R.2 else R).2.events = calls := by
    split
    · obtain ⟨back, split', freeList', events'⟩ := drain_unlinks R.1 R.2
      exact ⟨front ++ back, by rw [split, List.append_assoc, ← split'],
        by simp [freeList', freeList, ReadState.init], by rw [events', events]; rfl⟩
    · exact ⟨front, split, by simp [freeList, ReadState.init], by rw [events]; rfl⟩
  generalize (if datagram then drain R.1 R.2 else R) = D at drained
  obtain ⟨unlinked, split, freeList, events⟩ := drained
  refine ⟨unlinked, calls, split, ?_, copies⟩
  rw [readResult_events, events, freeList]
  cases unlinked <;> simp

/-- A read frees the pages of the cells it unlinks, and keeps the books. -/
theorem books_read (c : MBufChain) (dst : UserOut) (len : Nat) (datagram : Bool) :
    Books P (pagesOf c.buffers_) (pagesOf (c.read P dst len datagram).chain.buffers_)
      (c.read P dst len datagram).events ∧
    obtainedOf (c.read P dst len datagram).events = [] ∧
    ∃ unlinked, c.buffers_ = unlinked ++ (c.read P dst len datagram).chain.buffers_ ∧
      freedOf (c.read P dst len datagram).events = pagesOf unlinked := by
  obtain ⟨unlinked, calls, split, events, copies⟩ := read_unlinks P c dst len datagram
  obtain ⟨ob, fr, -⟩ := copies_quiet copies
  rw [events]
  generalize (c.read P dst len datagram).chain.buffers_ = rest at split ⊢
  rw [split]
  cases none : unlinked.isEmpty
  case true =>
    rw [List.isEmpty_iff.mp none]
    simp only [List.isEmpty_nil, ↓reduceIte, List.append_nil, List.nil_append]
    exact ⟨.copies copies, ob, [], rfl, fr⟩
  simp only [Bool.false_eq_true, if_false]
  have perm : (pagesOf rest ++ pagesOf unlinked.reverse).Perm (pagesOf (unlinked ++ rest)) := by
    rw [pagesOf_reverse, pagesOf_append]
    exact List.perm_append_comm.trans ((List.reverse_perm _).append_right _)
  refine ⟨(Books.copies copies).trans ((books_freeMBufs P _ _).perm_left perm), ?_, unlinked, rfl, ?_⟩
  · rw [obtainedOf_append, ob, obtainedOf_freeMBufs]; rfl
  · rw [freedOf_append, fr, freedOf_freeMBufs, pagesOf_reverse, List.reverse_reverse]; rfl

/-- A peek copies only and changes nothing. -/
theorem books_peek (c : MBufChain) (dst : UserOut) (len : Nat) (datagram : Bool) :
    Books P (pagesOf c.buffers_) (pagesOf (c.peek P dst len datagram).chain.buffers_)
      (c.peek P dst len datagram).events ∧ obtainedOf (c.peek P dst len datagram).events = [] := by
  have copies : ∀ e ∈ (c.peek P dst len datagram).events, e.isCopy := by
    by_cases empty : c.size_ = 0
    · rw [peek, readHelper_empty P empty]
      exact fun _ mem => nomatch mem
    simp only [peek, readHelper, if_neg empty, if_true]
    obtain ⟨calls, events, copies⟩ := @readLoop_peek_copies datagram dst
      (if datagram = true ∧ c.frontPktLen < len then c.frontPktLen else len) c.buffers_ (.init c)
    rw [events]
    exact fun e mem => Event.isCopy_of_copyToUser (copies e (by simpa [ReadState.init] using mem))
  rw [peek_chain]
  exact ⟨.copies copies, (copies_quiet copies).1⟩

end Read

/-! ### Writes -/

section Write

variable {src : UserIn} {len : Nat}

theorem writeBuffer_page (buf : MBuf) (s : WriteState) :
    (writeBuffer P src len buf s).2.1.page_ = buf.page_ := by
  dsimp only [writeBuffer]
  split <;> rfl

theorem writeBuffer_events (buf : MBuf) (s : WriteState) :
    (writeBuffer P src len buf s).2.2.events = s.events ++ [writeEvent P src len buf s] := by
  dsimp only [writeBuffer]
  split <;> rfl

/-- Filling the last cell keeps the pages under the cells and copies only. -/
theorem fillTail_pages (bs : List MBuf) (s : WriteState) :
    pagesOf (fillTail P src len bs s).2.1 = pagesOf bs ∧ ∃ calls,
      (fillTail P src len bs s).2.2.events = s.events ++ calls ∧ ∀ e ∈ calls, e.isCopy := by
  unfold fillTail
  split
  · next back last =>
    split
    · refine ⟨?_, [writeEvent P src len back s], writeBuffer_events back s, ?_⟩
      · dsimp only
        split
        · conv_rhs => rw [← List.dropLast_append_getLast? back last]
          simp [writeBuffer_page]
        · rfl
      · rintro e (_ | ⟨_, ⟨⟩⟩)
        rfl
    · exact ⟨rfl, [], by simp, fun _ mem => nomatch mem⟩
  · exact ⟨rfl, [], by simp, fun _ mem => nomatch mem⟩

/-- The loop of `WriteStream` moves each cell it fills from `bufs` to the chain, and frees the
cells left when a copy faults. -/
theorem fillBuffers_books : ∀ (bufs buffers : List MBuf) (s : WriteState), ∃ extra,
    (fillBuffers P src len buffers bufs s).2.2.events = s.events ++ extra ∧
      Books P (pagesOf buffers ++ pagesOf bufs) (pagesOf (fillBuffers P src len buffers bufs s).2.1)
        extra ∧ obtainedOf extra = []
  | [], buffers, s => ⟨[], by simp [fillBuffers], by simpa [fillBuffers] using Books.nil, rfl⟩
  | buf :: bufs, buffers, s => by
    rw [fillBuffers]
    split
    · obtain ⟨extra, events, books, ob⟩ :=
        fillBuffers_books bufs (buffers ++ [(writeBuffer P src len buf s).2.1])
          (writeBuffer P src len buf s).2.2
      have same : pagesOf (buffers ++ [(writeBuffer P src len buf s).2.1]) ++ pagesOf bufs =
          pagesOf buffers ++ pagesOf (buf :: bufs) := by
        simp [writeBuffer_page]
      rw [same] at books
      have copy : Books P (pagesOf buffers ++ pagesOf (buf :: bufs))
          (pagesOf buffers ++ pagesOf (buf :: bufs)) [writeEvent P src len buf s] :=
        .copies fun e mem => by rw [List.mem_singleton.mp mem]; rfl
      exact ⟨writeEvent P src len buf s :: extra, by rw [events, writeBuffer_events]; simp,
        copy.trans books, by simp [ob, writeEvent, Event.obtained]⟩
    · have copy : Books P (pagesOf buffers ++ pagesOf (buf :: bufs))
          (pagesOf buffers ++ pagesOf (buf :: bufs)) [writeEvent P src len buf s] :=
        .copies fun e mem => by rw [List.mem_singleton.mp mem]; rfl
      exact ⟨writeEvent P src len buf s :: freeMBufs P (buf :: bufs),
        by simp [writeBuffer_events], copy.trans (books_freeMBufs P _ _),
        by simp [writeEvent, Event.obtained]⟩

variable (P)

/-- `WriteStream` keeps the books, and obtains its pages from one `AllocPages` call at most. -/
theorem books_writeStream (c : MBufChain) (allocPages : Nat → Option (List FreshPage))
    (src : UserIn) (len : Nat) :
    Books P (pagesOf c.buffers_) (pagesOf (c.writeStream P allocPages src len).chain.buffers_)
      (c.writeStream P allocPages src len).events ∧
    ObtainsFrom allocPages (c.writeStream P allocPages src len).events := by
  unfold writeStream
  dsimp only
  generalize min (kSizeMax P - c.size_) len = len'
  obtain ⟨same, calls, events, copies⟩ :=
    @fillTail_pages P src len' c.buffers_ ⟨0, c.size_, [], decide (kSizeMax P < c.size_)⟩
  generalize fillTail P src len' c.buffers_ _ = t at same events ⊢
  simp only [List.nil_append] at events
  have tail : Books P (pagesOf c.buffers_) (pagesOf t.2.1) t.2.2.events := by
    rw [events, same]
    exact .copies copies
  have quiet : ObtainsFrom allocPages t.2.2.events := .inl (by rw [events, (copies_quiet copies).1])
  split
  · exact ⟨tail, quiet⟩
  split
  · exact ⟨tail, quiet⟩
  obtain ⟨allocSome, allocNone, obtained⟩ :=
    @books_allocMBufs P (pagesOf t.2.1) allocPages (MBuf.numBuffersForPayload P (len' - t.2.2.pos))
  generalize allocMBufs P allocPages _ = a at allocSome allocNone obtained ⊢
  obtain ⟨_ | bufs, allocEvents⟩ := a
  · dsimp only at allocNone obtained ⊢
    exact ⟨tail.trans (allocNone rfl), .copies_append (by rw [events, (copies_quiet copies).1]) obtained⟩
  · dsimp only at allocSome obtained ⊢
    obtain ⟨extra, fillEvents, fill, fillObtained⟩ := @fillBuffers_books P src len' bufs t.2.1
      { t.2.2 with events := t.2.2.events ++ allocEvents }
    dsimp only at fillEvents fill
    rw [List.append_assoc] at fillEvents
    rw [writeResult_events, fillEvents]
    exact ⟨tail.trans ((allocSome bufs rfl).trans fill),
      .copies_append (by rw [events, (copies_quiet copies).1]) (obtained.append_copies fillObtained)⟩

/-- The copy loop of `WriteDatagram` copies only, and the cells it fills sit on the pages of the
cells it was given. -/
theorem fillDatagram_pages (bufs : List MBuf) (s : WriteState) : ∃ calls,
    (fillDatagram P src len bufs s).2.events = s.events ++ calls ∧ (∀ e ∈ calls, e.isCopy) ∧
      ∀ filled, (fillDatagram P src len bufs s).1 = some filled → pagesOf filled = pagesOf bufs := by
  induction bufs, s using fillDatagram.induct P src len with
  | case1 s =>
    refine ⟨[], by simp [fillDatagram], (fun _ mem => nomatch mem), ?_⟩
    rintro _ ⟨⟩
    rfl
  | case2 buf bufs s n status s' copied ih =>
    obtain ⟨calls, events, copies, pages⟩ := ih
    rw [fillDatagram]
    dsimp only at copied events pages ⊢
    rw [if_pos copied]
    refine ⟨.copyFromUser s.pos buf.page_ 0 n status :: calls, by rw [events]; simp, ?_,
      fun filled some => ?_⟩
    · rintro e (_ | ⟨_, mem⟩)
      · rfl
      · exact copies e mem
    · obtain ⟨rest, got, rfl⟩ := Option.map_eq_some'.mp some
      simp [pages rest got]
  | case3 buf bufs s n status fault =>
    rw [fillDatagram]
    dsimp only at fault ⊢
    rw [if_neg fault]
    refine ⟨[_], rfl, ?_, (fun _ none => nomatch none)⟩
    rintro e (_ | ⟨_, ⟨⟩⟩)
    rfl

theorem pagesOf_setPktLen (n : Nat) (bs : List MBuf) : pagesOf (setPktLen n bs) = pagesOf bs := by
  cases bs <;> rfl

/-- `WriteDatagram` keeps the books, and obtains its pages from one `AllocPages` call at most. -/
theorem books_writeDatagram (c : MBufChain) (allocPages : Nat → Option (List FreshPage))
    (src : UserIn) (len : Nat) :
    Books P (pagesOf c.buffers_) (pagesOf (c.writeDatagram P allocPages src len).chain.buffers_)
      (c.writeDatagram P allocPages src len).events ∧
    ObtainsFrom allocPages (c.writeDatagram P allocPages src len).events := by
  have nothing : Books P (pagesOf c.buffers_) (pagesOf c.buffers_) [] ∧ ObtainsFrom allocPages [] :=
    ⟨.nil, .inl rfl⟩
  unfold writeDatagram
  split
  · exact nothing
  split
  · exact nothing
  split
  · exact nothing
  dsimp only
  obtain ⟨allocSome, allocNone, obtained⟩ :=
    @books_allocMBufs P (pagesOf c.buffers_) allocPages (MBuf.numBuffersForPayload P len)
  generalize allocMBufs P allocPages _ = a at allocSome allocNone obtained ⊢
  obtain ⟨_ | bufs, allocEvents⟩ := a
  · exact ⟨allocNone rfl, obtained⟩
  dsimp only at allocSome obtained ⊢
  obtain ⟨calls, events, copies, pages⟩ :=
    @fillDatagram_pages P src len bufs ⟨0, c.size_, allocEvents, false⟩
  generalize fillDatagram P src len bufs _ = f at events pages ⊢
  obtain ⟨_ | filled, fs⟩ := f
  · dsimp only at events ⊢
    rw [events, List.append_assoc]
    exact ⟨(allocSome bufs rfl).trans ((Books.copies copies).trans (books_freeMBufs P _ _)),
      obtained.append_copies (by rw [obtainedOf_append, (copies_quiet copies).1, obtainedOf_freeMBufs]; rfl)⟩
  · dsimp only at events pages ⊢
    rw [events]
    refine ⟨((allocSome bufs rfl).trans (.copies copies)).congr_after ?_,
      obtained.append_copies (copies_quiet copies).1⟩
    simp only [pagesOf_append, pagesOf_setPktLen, pages filled rfl]

end Write

/-! ### Every run -/

section Runs

variable {datagram : Bool} {c : MBufChain} {t : List Event}

/-- Every operation keeps the books. -/
theorem books_run (op : Op) (c : MBufChain) :
    Books P (pagesOf c.buffers_) (pagesOf (op.run P datagram c).chain.buffers_)
      (op.run P datagram c).events := by
  cases op with
  | write allocPages src len =>
    cases datagram
    · exact (books_writeStream P c allocPages src len).1
    · exact (books_writeDatagram P c allocPages src len).1
  | read dst len => exact (books_read P c dst len datagram).1
  | peek dst len => exact (books_peek P c dst len datagram).1

/-- What an allowed operation obtains is fresh: its pages are distinct and under no cell. -/
theorem nodup_run {op : Op} (allowed : op.Allowed c) (nodup : (pagesOf c.buffers_).Nodup) :
    (pagesOf c.buffers_ ++ obtainedOf (op.run P datagram c).events).Nodup := by
  cases op with
  | write allocPages src len =>
    have obtains : ObtainsFrom allocPages (Op.run P datagram c (.write allocPages src len)).events := by
      cases datagram
      · exact (books_writeStream P c allocPages src len).2
      · exact (books_writeDatagram P c allocPages src len).2
    rcases obtains with none | ⟨num, fresh, alloc, pages⟩
    · rw [none, List.append_nil]
      exact nodup
    · obtain ⟨-, distinct, notHeld⟩ := allowed num fresh alloc
      rw [pages]
      refine List.nodup_append.mpr ⟨nodup, distinct, fun p held got => ?_⟩
      obtain ⟨f, mem, rfl⟩ := List.mem_map.mp got
      exact notHeld f mem held
  | read dst len =>
    rw [Op.run, (books_read P c dst len datagram).2.1, List.append_nil]
    exact nodup
  | peek dst len =>
    rw [Op.run, (books_peek P c dst len datagram).2, List.append_nil]
    exact nodup

/-- Along a run the books balance from the empty chain, and the cells sit on distinct pages. -/
theorem books_of_reach (reach : Reach P datagram c t) :
    Books P [] (pagesOf c.buffers_) t ∧ (pagesOf c.buffers_).Nodup := by
  induction reach with
  | empty => exact ⟨.nil, List.nodup_nil⟩
  | @step c t op _ allowed ih =>
    have step := @books_run P datagram op c
    exact ⟨ih.1.trans step, (step.pages.nodup_iff.mp (nodup_run allowed ih.2)).sublist
      (List.sublist_append_left _ _)⟩

variable (P)

/-- The pages and `mbuf.total_bytes` after a run that reached `c` with the calls `t`: each page
handed out is under one cell or has been passed to `FreeList`, as a multiset, and no two cells share
a page; the counter holds `sizeof(MBuf)` for each cell. An allowed operation loses no page (every
cell of `alloc_bufs`, `bufs` and `free_list` ends up in the chain or freed), frees no page left under
a cell and none twice, and moves the counter by `sizeof(MBuf)` for each cell gained or lost; a read
frees exactly the cells it unlinks from the front; and `~MBufChain()` then frees every page still
held, so that every page handed out has been freed. -/
structure PageLedger (datagram : Bool) (c : MBufChain) (t : List Event) : Prop where
  heldOrFreed : (obtainedOf t).Perm (pagesOf c.buffers_ ++ freedOf t)
  distinct : (pagesOf c.buffers_).Nodup
  counter : counterOf t = P.val * c.buffers_.length
  step : ∀ op : Op, op.Allowed c →
    (pagesOf c.buffers_ ++ obtainedOf (op.run P datagram c).events).Perm
      (pagesOf (op.run P datagram c).chain.buffers_ ++ freedOf (op.run P datagram c).events) ∧
    (pagesOf (op.run P datagram c).chain.buffers_ ++ freedOf (op.run P datagram c).events).Nodup ∧
    counterOf (op.run P datagram c).events =
      P.val * (((op.run P datagram c).chain.buffers_.length : Int) - c.buffers_.length)
  read : ∀ dst len, ∃ unlinked, c.buffers_ = unlinked ++ (c.read P dst len datagram).chain.buffers_ ∧
    freedOf (c.read P dst len datagram).events = pagesOf unlinked
  destroyed : (obtainedOf (t ++ c.destroy P)).Perm (freedOf (t ++ c.destroy P)) ∧
    counterOf (t ++ c.destroy P) = 0

variable {P}

theorem pages_never_leak (reach : Reach P datagram c t) : PageLedger P datagram c t := by
  obtain ⟨books, distinct⟩ := books_of_reach reach
  have destroyed : Books P [] [] (t ++ c.destroy P) := books.trans (books_freeMBufs P [] c.buffers_)
  refine ⟨by simpa using books.pages, distinct, by simpa using books.counter_eq, fun op allowed => ?_,
    fun dst len => (books_read P c dst len datagram).2.2, by simpa using destroyed.pages,
    by simpa using destroyed.counter_eq⟩
  have step := @books_run P datagram op c
  exact ⟨step.pages, step.pages.nodup_iff.mp (nodup_run allowed distinct), by
    simpa using step.counter_eq⟩

/-- The books of the sample runs: three pages obtained by the datagram run, one of them freed. -/
theorem pages_never_leak_sample :
    (∃ t, PageLedger pageSize4K false streamSample t) ∧
      ∃ t, PageLedger pageSize4K true datagramSample t :=
  ⟨streamSample_reach.2.2.elim fun t reach => ⟨t, pages_never_leak reach⟩,
    datagramSample_reach.2.2.elim fun t reach => ⟨t, pages_never_leak reach⟩⟩

end Runs

end Zircon.MBufChain
