import Zircon.MBuf.Read
import Zircon.MBuf.Write

/-! The runs of one chain. A chain backs either a stream or a datagram endpoint, never both
(`object/mbuf.h`), so a run fixes the mode: its writes are `WriteDatagram` or `WriteStream`, and
its reads and peeks pass the mode as `datagram`. What the page allocator and user memory do is
part of each operation, so a run ranges over every allocator outcome and every fault. -/

namespace Zircon.MBufChain

variable (P : PageSize)

/-- An operation on the chain, with what its collaborators do: the pages `AllocPages` hands out
for a request of each size (or `none` where it fails), and the user buffer. -/
inductive Op where
  | write (allocPages : Nat → Option (List FreshPage)) (src : UserIn) (len : Nat)
  | read (dst : UserOut) (len : Nat)
  | peek (dst : UserOut) (len : Nat)

/-- The operation on a chain used in datagram mode or in stream mode. -/
def Op.run (datagram : Bool) (c : MBufChain) : Op → Result
  | .write allocPages src len =>
    if datagram then c.writeDatagram P allocPages src len else c.writeStream P allocPages src len
  | .read dst len => c.read P dst len datagram
  | .peek dst len => c.peek P dst len datagram

/-- What `AllocPages` promises a chain: exactly the pages asked for, each once, none of them
already holding one of its cells. -/
def PagesFresh (c : MBufChain) (allocPages : Nat → Option (List FreshPage)) : Prop :=
  ∀ num pages, allocPages num = some pages →
    pages.length = num ∧ (pages.map (·.page)).Nodup ∧
      ∀ p ∈ pages, p.page ∉ c.buffers_.map (·.page_)

/-- The allocator of a write keeps its promise. -/
def Op.Allowed (c : MBufChain) : Op → Prop
  | .write allocPages _ _ => PagesFresh c allocPages
  | .read .. | .peek .. => True

/-- The chains a chain used in one mode goes through from `MBufChain()` on, each with every call
made so far. -/
inductive Reach (datagram : Bool) : MBufChain → List Event → Prop
  | empty : Reach datagram empty []
  | step {c : MBufChain} {t : List Event} (op : Op) (reach : Reach datagram c t)
      (allowed : op.Allowed c) :
      Reach datagram (op.run P datagram c).chain (t ++ (op.run P datagram c).events)

variable {P}

/-- A property of chains that `MBufChain()` has and every operation keeps holds all along a run. -/
theorem Reach.inv {datagram : Bool} {Inv : MBufChain → Prop} (init : Inv MBufChain.empty)
    (step : ∀ c (op : Op), Inv c → op.Allowed c → Inv (op.run P datagram c).chain)
    {c : MBufChain} {t : List Event} (reach : Reach P datagram c t) : Inv c := by
  induction reach with
  | empty => exact init
  | step op _ allowed ih => exact step _ op ih allowed

/-! ### Runs given as lists of operations -/

variable (P)

/-- The chain after the operations of a list, in turn. -/
def runOps (datagram : Bool) : MBufChain → List Op → MBufChain
  | c, [] => c
  | c, op :: ops => runOps datagram (op.run P datagram c).chain ops

/-- Each operation of a list is allowed on the chain it meets. -/
def AllowedAlong (datagram : Bool) : MBufChain → List Op → Prop
  | _, [] => True
  | c, op :: ops => op.Allowed c ∧ AllowedAlong datagram (op.run P datagram c).chain ops

variable {P}

/-- A run goes on through a list of operations, each allowed where it is made. -/
theorem Reach.runOps {datagram : Bool} :
    ∀ {c : MBufChain} {t : List Event} (ops : List Op), Reach P datagram c t →
      AllowedAlong P datagram c ops → ∃ t', Reach P datagram (runOps P datagram c ops) t'
  | _, t, [], reach, _ => ⟨t, reach⟩
  | _, _, op :: ops, reach, ⟨allowed, rest⟩ => Reach.runOps ops (.step op reach allowed) rest

/-! ### Sample runs -/

/-- An allocator that hands out `num` zeroed pages at physical addresses `first`, `first + 1`,
and so on. -/
def freshPages (first : Nat) : Nat → Option (List FreshPage) :=
  fun num => some ((List.range num).map fun i => ⟨⟨first + i⟩, fun _ => 0⟩)

/-- `freshPages first` keeps its promise to a chain whose pages are all below `first`. -/
theorem freshPages_fresh {c : MBufChain} {first : Nat}
    (below : ∀ b ∈ c.buffers_, b.page_.paddr < first) : PagesFresh c (freshPages first) := by
  intro num pages given
  cases given
  refine ⟨by simp, ?_, fun p mem used => ?_⟩
  · rw [List.map_map]
    exact (List.nodup_range num).map fun i j same => by
      simpa using congrArg VmPage.paddr same
  · obtain ⟨i, -, rfl⟩ := List.mem_map.mp mem
    obtain ⟨b, cell, page⟩ := List.mem_map.mp used
    have := below b cell
    rw [page] at this
    exact absurd this (by simp)

/-- A user buffer whose byte at offset `i` is `i` (mod 256) and whose copies all succeed. -/
def countingSrc : UserIn := ⟨fun i => i.toUInt8, fun _ _ => .ok⟩

/-- A user buffer whose copies all succeed. -/
def okDst : UserOut := ⟨fun _ _ => .ok⟩

/-- A stream run: `WriteStream` of 5000 bytes, which fills one cell and part of a second, then
`Read` of 3 bytes. -/
def streamRun : List Op := [.write (freshPages 0) countingSrc 5000, .read okDst 3]

/-- A datagram run: `WriteDatagram` of 3 bytes, then of 5000 bytes, then `Read` of 2 bytes, which
takes the first datagram and discards its last byte. -/
def datagramRun : List Op :=
  [.write (freshPages 0) countingSrc 3, .write (freshPages 1) countingSrc 5000, .read okDst 2]

/-- The chain the stream run reaches. -/
def streamSample : MBufChain := runOps pageSize4K false empty streamRun

/-- The chain the datagram run reaches. -/
def datagramSample : MBufChain := runOps pageSize4K true empty datagramRun

/-- The stream run reaches a chain of two cells holding 4997 bytes. -/
theorem streamSample_reach :
    streamSample.buffers_.length = 2 ∧ streamSample.size_ = 4997 ∧
      ∃ t, Reach pageSize4K false streamSample t :=
  ⟨by decide, by decide, Reach.runOps streamRun .empty
    (And.intro (freshPages_fresh fun _ mem => nomatch mem) (And.intro trivial trivial))⟩

/-- The datagram run reaches a chain that holds the second datagram, 5000 bytes in two cells. -/
theorem datagramSample_reach :
    datagramSample.buffers_.length = 2 ∧ datagramSample.size_ = 5000 ∧
      ∃ t, Reach pageSize4K true datagramSample t :=
  ⟨by decide, by decide, Reach.runOps datagramRun .empty
    (And.intro (freshPages_fresh fun _ mem => nomatch mem)
      (And.intro (freshPages_fresh (by decide)) (And.intro trivial trivial)))⟩

end Zircon.MBufChain
