import Zircon.Status

/-! `ZirconPhysmemReader::PhysToPtr` (`lib/acpi_lite/zircon.cc`): the kernel virtual address of a
physical range `[phys, phys + length)`, through a cached mapping that covers the range's pages or a
new mapping of them. The page arithmetic is that of `align.h` for a `PAGE_SIZE` of
`2 ^ PAGE_SIZE_SHIFT`, both outside this repository, on 64-bit `uintptr_t`; what the VM system
returns is an input. A call that returns a pointer returns it from the first mapping of
`mappings_` whose physical range, as `Query` reports it, holds the pages, or from a new mapping of
exactly those pages. The pages are rounded from the last byte, `phys_end`, and a `phys_end` that
begins a page leaves that page out; elsewhere the pointer returned has all `length` bytes inside
its mapping. A call puts at most one mapping in `mappings_`, at the front, and none ever leaves. -/

namespace Zircon.Acpi

/-- `~x` on a `uintptr_t`. -/
def complement (x : Nat) : Nat := x ^^^ (2 ^ 64 - 1)

/-- `ROUNDDOWN(a, b) = a & ~(b - 1)`. -/
def roundDown (a b : Nat) : Nat := a &&& complement (b - 1)

/-- `ROUNDUP(a, b) = (a + (b - 1)) & ~(b - 1)`, the sum a `uintptr_t`. -/
def roundUp (a b : Nat) : Nat := ((a + (b - 1)) % 2 ^ 64) &&& complement (b - 1)

/-- `zx::result<const void*>`. -/
inductive PtrResult where
  | ok (ptr : Nat)
  | error (status : Status)
  deriving DecidableEq, Repr

/-- An entry of `mappings_`: the mapping's kernel virtual base and its size. -/
structure Mapping where
  base : Nat
  size : Nat
  deriving DecidableEq, Repr

/-- What the calls into the VM system return: `Query` of a virtual address (its status and the
physical address mapped there), the allocation of a `Mapping`, `VmObjectPhysical::Create`,
`CreateVmMapping` of a size (its status and the base of the new mapping) and `MapRange`. -/
structure Vm where
  query : Nat → Status × Nat
  allocMapping : Bool
  createPhysical : Nat → Nat → Status
  createVmMapping : Nat → Status × Nat
  mapRange : Nat → Nat → Status

/-- `InRange(offset, len, min, max)` (`kernel/range_check.h`): `[offset, offset + len)` lies within
`[min, max)`. -/
def inRange (offset len min max : Nat) : Bool := decide (min ≤ offset ∧ offset + len ≤ max)

/-- `paddr_base = ROUNDDOWN_PAGE_SIZE(phys)` and `size = ROUNDUP_PAGE_SIZE(phys_end) - paddr_base`. -/
def pageRange (shift phys physEnd : Nat) : Nat × Nat :=
  (roundDown phys (2 ^ shift),
    (roundUp physEnd (2 ^ shift) + 2 ^ 64 - roundDown phys (2 ^ shift)) % 2 ^ 64)

/-- The loop over `mappings_`: `Query` each mapping's base and return `base + (phys - map_paddr)`
from the first whose physical range holds the pages; a failed `Query` returns its status. -/
def searchMappings (vm : Vm) (paddrBase size phys : Nat) : List Mapping → Option PtrResult
  | [] => none
  | m :: ms =>
    if (vm.query m.base).1 ≠ .ok then some (.error (vm.query m.base).1)
    else if inRange paddrBase size (vm.query m.base).2
        (((vm.query m.base).2 + m.size) % 2 ^ 64) then
      some (.ok ((m.base + (phys + 2 ^ 64 - (vm.query m.base).2) % 2 ^ 64) % 2 ^ 64))
    else searchMappings vm paddrBase size phys ms

/-- `PhysToPtr(phys, length)` with `mappings_`: the result and `mappings_` after the call. A new
mapping of `size` bytes at `paddr_base` goes to the front of the list. -/
def physToPtr (shift : Nat) (vm : Vm) (mappings : List Mapping) (phys length : Nat) :
    PtrResult × List Mapping :=
  if length = 0 ∨ phys = 0 then (.error .errInvalidArgs, mappings)
  else if 2 ^ 64 ≤ phys + (length - 1) then (.error .errOutOfRange, mappings)
  else
    let range := pageRange shift phys (phys + (length - 1))
    match searchMappings vm range.1 range.2 phys mappings with
    | some result => (result, mappings)
    | none =>
      if !vm.allocMapping then (.error .errNoMemory, mappings)
      else if vm.createPhysical range.1 range.2 ≠ .ok then
        (.error (vm.createPhysical range.1 range.2), mappings)
      else
        let created := vm.createVmMapping range.2
        if created.1 ≠ .ok then (.error created.1, mappings)
        else if vm.mapRange created.2 range.2 ≠ .ok then
          (.error (vm.mapRange created.2 range.2), mappings)
        else (.ok ((created.2 + (phys + 2 ^ 64 - range.1) % 2 ^ 64) % 2 ^ 64),
          ⟨created.2, range.2⟩ :: mappings)

/-! ### The page arithmetic -/

section Rounding

variable {shift : Nat}

/-- For a power of two, the mask of `ROUNDDOWN` clears the bits below it. -/
theorem roundDown_eq {a : Nat} (lt : a < 2 ^ 64) (small : shift ≤ 64) :
    roundDown a (2 ^ shift) = a - a % 2 ^ shift := by
  have split := Nat.div_add_mod a (2 ^ shift)
  rw [show a - a % 2 ^ shift = 2 ^ shift * (a / 2 ^ shift) by omega]
  apply Nat.eq_of_testBit_eq
  intro i
  simp only [roundDown, complement, Nat.testBit_and, Nat.testBit_xor,
    Nat.testBit_two_pow_sub_one, Nat.testBit_mul_pow_two, ← Nat.shiftRight_eq_div_pow,
    Nat.testBit_shiftRight]
  by_cases below : i < shift
  · simp [below, show i < 64 by omega, Nat.not_le.mpr below]
  · by_cases word : i < 64
    · simp [below, word, Nat.add_sub_cancel' (Nat.le_of_not_lt below), Nat.le_of_not_lt below]
    · have : a < 2 ^ i :=
        Nat.lt_of_lt_of_le lt (Nat.pow_le_pow_right (by decide) (Nat.le_of_not_lt word))
      simp [below, word, Nat.add_sub_cancel' (Nat.le_of_not_lt below), Nat.testBit_lt_two_pow this]

theorem roundUp_eq_roundDown (a b : Nat) : roundUp a b = roundDown ((a + (b - 1)) % 2 ^ 64) b := rfl

/-- Rounding down to a multiple of `p`: at most `a`, within `p` of it, and a multiple. -/
theorem sub_mod_spec (a : Nat) {p : Nat} (pos : 0 < p) :
    a - a % p ≤ a ∧ a < a - a % p + p ∧ (a - a % p) % p = 0 := by
  have := Nat.mod_lt a pos
  have := Nat.mod_le a p
  exact ⟨Nat.sub_le _ _, by omega, Nat.sub_mod_eq_zero_of_mod_eq (Nat.mod_mod a p).symm⟩

/-- `a + p - 1` rounded down to a multiple of `p` passes `a` exactly when `a` is not one. -/
theorem lt_roundUp_iff (a : Nat) {p : Nat} (pos : 0 < p) :
    a < (a + (p - 1)) - (a + (p - 1)) % p ↔ a % p ≠ 0 := by
  have split := Nat.div_add_mod a p
  have small := Nat.mod_lt a pos
  by_cases zero : a % p = 0
  · have up : (a + (p - 1)) % p = p - 1 := by
      rw [show a + (p - 1) = (p - 1) + p * (a / p) by omega, Nat.add_mul_mod_self_left,
        Nat.mod_eq_of_lt (show p - 1 < p by omega)]
    rw [up]
    simp only [zero, ne_eq, not_true_eq_false, iff_false]
    omega
  · have up : (a + (p - 1)) % p = a % p - 1 := by
      rw [show a + (p - 1) = (a % p - 1) + p * (a / p + 1) by rw [Nat.mul_add]; omega,
        Nat.add_mul_mod_self_left, Nat.mod_eq_of_lt (show a % p - 1 < p by omega)]
    rw [up]
    simp only [zero, ne_eq, not_false_eq_true, iff_true]
    omega

/-- Where rounding `phys_end` up does not wrap, `paddr_base` is `phys` rounded down and
`paddr_base + size` is `phys_end` rounded up. -/
theorem pageRange_eq {phys physEnd : Nat} (small : shift ≤ 64) (le : phys ≤ physEnd)
    (noWrap : physEnd + (2 ^ shift - 1) < 2 ^ 64) :
    (pageRange shift phys physEnd).1 = phys - phys % 2 ^ shift ∧
      (pageRange shift phys physEnd).1 + (pageRange shift phys physEnd).2 =
        physEnd + (2 ^ shift - 1) - (physEnd + (2 ^ shift - 1)) % 2 ^ shift := by
  have pos : 0 < 2 ^ shift := Nat.two_pow_pos shift
  have base := sub_mod_spec phys pos
  have up := sub_mod_spec (physEnd + (2 ^ shift - 1)) pos
  simp only [pageRange, roundUp_eq_roundDown, Nat.mod_eq_of_lt noWrap]
  rw [roundDown_eq noWrap small, roundDown_eq (show phys < 2 ^ 64 by omega) small]
  generalize physEnd + (2 ^ shift - 1) - (physEnd + (2 ^ shift - 1)) % 2 ^ shift = u at up ⊢
  generalize phys - phys % 2 ^ shift = b at base ⊢
  rw [show u + 2 ^ 64 - b = u - b + 2 ^ 64 by omega, Nat.add_mod_right,
    Nat.mod_eq_of_lt (show u - b < 2 ^ 64 by omega)]
  omega

/-- The pages `PhysToPtr` maps for `[phys, phys + length)`, when rounding up `phys_end` does not
wrap: they begin and end on a page boundary, begin at or before `phys`, and hold every byte before
`phys_end`; `phys_end` itself only when it does not begin a page. -/
theorem pageRange_covers {phys length : Nat} (small : shift ≤ 64) (nonempty : 0 < length)
    (noWrap : phys + (length - 1) + (2 ^ shift - 1) < 2 ^ 64) :
    (pageRange shift phys (phys + (length - 1))).1 % 2 ^ shift = 0 ∧
      ((pageRange shift phys (phys + (length - 1))).1 +
        (pageRange shift phys (phys + (length - 1))).2) % 2 ^ shift = 0 ∧
      (pageRange shift phys (phys + (length - 1))).1 ≤ phys ∧
      phys + (length - 1) ≤ (pageRange shift phys (phys + (length - 1))).1 +
        (pageRange shift phys (phys + (length - 1))).2 ∧
      (phys + length ≤ (pageRange shift phys (phys + (length - 1))).1 +
        (pageRange shift phys (phys + (length - 1))).2 ↔
        (phys + (length - 1)) % 2 ^ shift ≠ 0) := by
  have pos : 0 < 2 ^ shift := Nat.two_pow_pos shift
  have base := sub_mod_spec phys pos
  have up := sub_mod_spec (phys + (length - 1) + (2 ^ shift - 1)) pos
  have last := lt_roundUp_iff (phys + (length - 1)) pos
  obtain ⟨baseEq, endEq⟩ := pageRange_eq small (Nat.le_add_right _ _) noWrap
  rw [endEq, baseEq]
  exact ⟨base.2.2, up.2.2, base.1, by omega, by rw [← last]; omega⟩

/-- With 4 KiB pages, `PhysToPtr(PAGE_SIZE, PAGE_SIZE + 1)` maps one page, and its last byte
`2 * PAGE_SIZE` is outside it. -/
theorem pageRange_covers_page_end :
    pageRange 12 4096 (4096 + (4097 - 1)) = (4096, 4096) ∧
      ¬4096 + 4097 ≤ (pageRange 12 4096 (4096 + (4097 - 1))).1 +
        (pageRange 12 4096 (4096 + (4097 - 1))).2 :=
  ⟨by decide, fun h =>
    (@pageRange_covers 12 4096 4097 (by decide) (by decide) (by decide)).2.2.2.2.mp h (by decide)⟩

end Rounding

/-! ### The search of `mappings_` -/

/-- The search loop goes on past `m`: `Query` of its base succeeds, and the physical range it
reports fails `InRange`. -/
def Passes (vm : Vm) (paddrBase size : Nat) (m : Mapping) : Prop :=
  (vm.query m.base).1 = .ok ∧
    inRange paddrBase size (vm.query m.base).2 (((vm.query m.base).2 + m.size) % 2 ^ 64) = false

/-- The search loop returns from `m`: it passes every mapping before `m` in `ms`, `Query` of the
base of `m` reports `mapPaddr`, and the range from there passes `InRange`. -/
def FirstHit (vm : Vm) (paddrBase size : Nat) (ms : List Mapping) (m : Mapping) (mapPaddr : Nat) :
    Prop :=
  ∃ before after, ms = before ++ m :: after ∧ (∀ m' ∈ before, Passes vm paddrBase size m') ∧
    vm.query m.base = (.ok, mapPaddr) ∧
    inRange paddrBase size mapPaddr ((mapPaddr + m.size) % 2 ^ 64) = true

section Search

variable {vm : Vm} {paddrBase size phys : Nat}

/-- The mapping a search returns from is one of `mappings_`, and its physical range holds the
pages. -/
theorem FirstHit.covers {ms : List Mapping} {m : Mapping} {mapPaddr : Nat}
    (first : FirstHit vm paddrBase size ms m mapPaddr) :
    m ∈ ms ∧ vm.query m.base = (.ok, mapPaddr) ∧ mapPaddr ≤ paddrBase ∧
      paddrBase + size ≤ mapPaddr + m.size := by
  obtain ⟨before, after, rfl, -, query, hit⟩ := first
  simp only [inRange, decide_eq_true_eq] at hit
  exact ⟨by simp, query, hit.1, hit.2.trans (Nat.mod_le _ _)⟩

/-- A search that returns a pointer returns it from the first mapping it does not pass. -/
theorem firstHit_of_searchMappings {ptr : Nat} : ∀ {ms : List Mapping},
    searchMappings vm paddrBase size phys ms = some (.ok ptr) →
      ∃ m mapPaddr, FirstHit vm paddrBase size ms m mapPaddr ∧
        ptr = (m.base + (phys + 2 ^ 64 - mapPaddr) % 2 ^ 64) % 2 ^ 64
  | [], found => nomatch found
  | m :: ms, found => by
    rw [searchMappings] at found
    split at found
    · cases found
    split at found
    · next ok hit =>
      cases found
      exact ⟨m, _, ⟨[], ms, rfl, (fun _ mem => nomatch mem), Prod.ext (not_not.mp ok) rfl, hit⟩, rfl⟩
    · next ok miss =>
      obtain ⟨m', mapPaddr, ⟨before, after, rfl, passes, rest⟩, ptr⟩ :=
        firstHit_of_searchMappings found
      refine ⟨m', mapPaddr, ⟨m :: before, after, rfl, ?_, rest⟩, ptr⟩
      exact List.forall_mem_cons.mpr ⟨⟨not_not.mp ok, Bool.eq_false_iff.mpr miss⟩, passes⟩

end Search

/-! ### `PhysToPtr` -/

section PhysToPtr

variable {shift : Nat} {vm : Vm}

/-- Everything a call that returns a pointer did, with `paddr_base` and `size` of its pages: it
passed both checks of its arguments, and its search of `mappings_` returned the pointer, or missed
and each call into the VM system succeeded, and the new mapping went to the front. -/
theorem physToPtr_eq_ok {mappings mappings' : List Mapping} {phys length ptr paddrBase size : Nat}
    (range : pageRange shift phys (phys + (length - 1)) = (paddrBase, size)) :
    physToPtr shift vm mappings phys length = (.ok ptr, mappings') ↔
      0 < length ∧ 0 < phys ∧ phys + (length - 1) < 2 ^ 64 ∧
        ((searchMappings vm paddrBase size phys mappings = some (.ok ptr) ∧ mappings' = mappings) ∨
          (searchMappings vm paddrBase size phys mappings = none ∧ vm.allocMapping = true ∧
            vm.createPhysical paddrBase size = .ok ∧ (vm.createVmMapping size).1 = .ok ∧
            vm.mapRange (vm.createVmMapping size).2 size = .ok ∧
            mappings' = ⟨(vm.createVmMapping size).2, size⟩ :: mappings ∧
            ptr = ((vm.createVmMapping size).2 + (phys + 2 ^ 64 - paddrBase) % 2 ^ 64) % 2 ^ 64)) := by
  have error {e : Status} : ¬(PtrResult.error e, mappings) = (.ok ptr, mappings') := by simp
  unfold physToPtr
  by_cases bad : length = 0 ∨ phys = 0
  · rw [if_pos bad]
    exact iff_of_false error fun ⟨_, _, _⟩ => by omega
  by_cases wrap : 2 ^ 64 ≤ phys + (length - 1)
  · rw [if_neg bad, if_pos wrap]
    exact iff_of_false error fun ⟨_, _, _⟩ => by omega
  simp only [if_neg bad, if_neg wrap, range]
  have checks : 0 < length ∧ 0 < phys ∧ phys + (length - 1) < 2 ^ 64 := by omega
  simp only [checks, true_and]
  cases found : searchMappings vm paddrBase size phys mappings with
  | some result =>
    simp only [Prod.mk.injEq, Option.some.injEq, reduceCtorEq, false_and, or_false]
    exact and_congr_right' eq_comm
  | none =>
    simp only [reduceCtorEq, false_and, true_and, false_or]
    cases alloc : vm.allocMapping
    · exact iff_of_false error fun ⟨alloc, _⟩ => Bool.false_ne_true alloc
    rw [Bool.not_true, if_neg Bool.false_ne_true]
    by_cases physical : vm.createPhysical paddrBase size = .ok
    swap
    · rw [if_pos physical]
      exact iff_of_false error fun ⟨_, ok, _⟩ => physical ok
    rw [if_neg (not_not.mpr physical)]
    by_cases created : (vm.createVmMapping size).1 = .ok
    swap
    · rw [if_pos created]
      exact iff_of_false error fun ⟨_, _, ok, _⟩ => created ok
    rw [if_neg (not_not.mpr created)]
    by_cases mapped : vm.mapRange (vm.createVmMapping size).2 size = .ok
    swap
    · rw [if_pos mapped]
      exact iff_of_false error fun ⟨_, _, _, ok, _⟩ => mapped ok
    rw [if_neg (not_not.mpr mapped)]
    simp only [Prod.mk.injEq, PtrResult.ok.injEq, physical, created, mapped, true_and]
    exact and_comm.trans (and_congr eq_comm eq_comm)

/-- `phys - map_paddr` on `uintptr_t` does not wrap when `map_paddr ≤ phys`. -/
theorem sub_mod_of_le {a b : Nat} (le : b ≤ a) (lt : a < 2 ^ 64) :
    (a + 2 ^ 64 - b) % 2 ^ 64 = a - b := by
  rw [show a + 2 ^ 64 - b = a - b + 2 ^ 64 by omega, Nat.add_mod_right, Nat.mod_eq_of_lt (by omega)]

/-- A VM system that maps every physical page `2 ^ 40` above it, as a physmap does, and makes its
next mapping at `2 ^ 40 + next`. -/
def physmapVm (next : Nat) : Vm :=
  ⟨fun v => (.ok, v - 2 ^ 40), true, fun _ _ => .ok, fun _ => (.ok, 2 ^ 40 + next), fun _ _ => .ok⟩

/-- Where `phys_end` does not begin a page and rounding it up does not wrap, the pointer
`PhysToPtr` returns is `length` bytes inside a mapping: a cached one at the physical address
`Query` reports, or the new one at `paddr_base`; at offset `phys - map_paddr` of it, with the
range's last byte before the mapping's end. -/
theorem physToPtr_in_mapping {mappings mappings' : List Mapping}
    {phys length ptr paddrBase size : Nat} (small : shift ≤ 64)
    (noWrap : phys + (length - 1) + (2 ^ shift - 1) < 2 ^ 64)
    (notBoundary : (phys + (length - 1)) % 2 ^ shift ≠ 0)
    (range : pageRange shift phys (phys + (length - 1)) = (paddrBase, size))
    (h : physToPtr shift vm mappings phys length = (.ok ptr, mappings')) :
    ∃ m ∈ mappings', ∃ mapPaddr,
      ((m ∈ mappings ∧ vm.query m.base = (.ok, mapPaddr)) ∨
        (m = ⟨(vm.createVmMapping size).2, size⟩ ∧ mapPaddr = paddrBase)) ∧
      ptr = (m.base + (phys - mapPaddr)) % 2 ^ 64 ∧ mapPaddr ≤ phys ∧
      phys - mapPaddr + length ≤ m.size := by
  have pos : 0 < 2 ^ shift := Nat.two_pow_pos shift
  have base := sub_mod_spec phys pos
  have last := (lt_roundUp_iff (phys + (length - 1)) pos).mpr notBoundary
  have pages := pageRange_eq small (Nat.le_add_right phys (length - 1)) noWrap
  simp only [range] at pages
  have phys_lt : phys < 2 ^ 64 := by omega
  have below : paddrBase ≤ phys := pages.1 ▸ base.1
  have ends : phys + length ≤ paddrBase + size := by omega
  obtain ⟨-, -, -, ⟨found, rfl⟩ | ⟨-, -, -, -, -, rfl, rfl⟩⟩ := (physToPtr_eq_ok range).mp h
  · obtain ⟨m, mapPaddr, first, rfl⟩ := firstHit_of_searchMappings found
    obtain ⟨mem, query, le, covers⟩ := first.covers
    exact ⟨m, mem, mapPaddr, .inl ⟨mem, query⟩, by rw [sub_mod_of_le (le.trans below) phys_lt],
      le.trans below, by omega⟩
  · exact ⟨_, .head _, paddrBase, .inr ⟨rfl, rfl⟩, by rw [sub_mod_of_le below phys_lt], below,
      show _ ≤ size by omega⟩

/-- The pointer `PhysToPtr(1, 10)` returns from the cached mapping of the page at 0 is 10 bytes
inside it. -/
theorem physToPtr_in_mapping_second_mapping :
    ∃ m ∈ [(⟨2 ^ 40 + 8192, 4096⟩ : Mapping), ⟨2 ^ 40, 4096⟩], ∃ mapPaddr,
      ((m ∈ [(⟨2 ^ 40 + 8192, 4096⟩ : Mapping), ⟨2 ^ 40, 4096⟩] ∧
          (physmapVm 0).query m.base = (.ok, mapPaddr)) ∨
        (m = ⟨((physmapVm 0).createVmMapping 4096).2, 4096⟩ ∧ mapPaddr = 0)) ∧
      2 ^ 40 + 1 = (m.base + (1 - mapPaddr)) % 2 ^ 64 ∧ mapPaddr ≤ 1 ∧ 1 - mapPaddr + 10 ≤ m.size :=
  @physToPtr_in_mapping 12 (physmapVm 0) [⟨2 ^ 40 + 8192, 4096⟩, ⟨2 ^ 40, 4096⟩]
    [⟨2 ^ 40 + 8192, 4096⟩, ⟨2 ^ 40, 4096⟩] 1 10 (2 ^ 40 + 1) 0 4096 (by decide) (by decide)
    (by decide) (by decide) (by decide)

/-- A VM system whose mappings are all made at `2 ^ 40` and all map physical address 0. -/
def lowPageVm : Vm :=
  ⟨fun _ => (.ok, 0), true, fun _ _ => .ok, fun _ => (.ok, 2 ^ 40), fun _ _ => .ok⟩

/-- With 4 KiB pages, `PhysToPtr(PAGE_SIZE, 1)` computes no pages at all. After `PhysToPtr(1, 10)`
has cached the mapping of `[0, 4096)`, the call takes that mapping, which does not hold byte
4096, and returns the address one past its end; on an empty cache it makes a mapping of 0 bytes. -/
theorem physToPtr_page_boundary :
    pageRange 12 4096 (4096 + (1 - 1)) = (4096, 0) ∧
      physToPtr 12 lowPageVm [] 1 10 = (.ok (2 ^ 40 + 1), [⟨2 ^ 40, 4096⟩]) ∧
      physToPtr 12 lowPageVm [⟨2 ^ 40, 4096⟩] 4096 1 =
        (.ok (2 ^ 40 + 4096), [⟨2 ^ 40, 4096⟩]) ∧
      physToPtr 12 lowPageVm [] 4096 1 = (.ok (2 ^ 40), [⟨2 ^ 40, 0⟩]) := by
  decide

/-! ### `mappings_` over a run of calls -/

/-- A call leaves `mappings_` as it was, or its search of `mappings_` missed and it returns a
pointer into a new mapping of its pages, which it puts at the front. -/
theorem physToPtr_mappings (shift : Nat) (vm : Vm) (mappings : List Mapping) (phys length : Nat) :
    (physToPtr shift vm mappings phys length).2 = mappings ∨
      searchMappings vm (pageRange shift phys (phys + (length - 1))).1
          (pageRange shift phys (phys + (length - 1))).2 phys mappings = none ∧
        ∃ ptr, physToPtr shift vm mappings phys length =
          (.ok ptr, ⟨(vm.createVmMapping (pageRange shift phys (phys + (length - 1))).2).2,
            (pageRange shift phys (phys + (length - 1))).2⟩ :: mappings) := by
  generalize h : physToPtr shift vm mappings phys length = result
  unfold physToPtr at h
  by_cases bad : length = 0 ∨ phys = 0
  · rw [if_pos bad] at h
    exact .inl (h ▸ rfl)
  by_cases wrap : 2 ^ 64 ≤ phys + (length - 1)
  · rw [if_neg bad, if_pos wrap] at h
    exact .inl (h ▸ rfl)
  rw [if_neg bad, if_neg wrap] at h
  dsimp only at h
  split at h
  · exact .inl (h ▸ rfl)
  next missed =>
  split at h
  · exact .inl (h ▸ rfl)
  split at h
  · exact .inl (h ▸ rfl)
  split at h
  · exact .inl (h ▸ rfl)
  split at h
  · exact .inl (h ▸ rfl)
  · exact .inr ⟨missed, _, h.symm⟩

/-- `mappings_` of the reader after the calls `PhysToPtr(phys, length)`, each with what the VM
system did in it. -/
def mappingsAfter (shift : Nat) : List Mapping → List (Vm × Nat × Nat) → List Mapping
  | mappings, [] => mappings
  | mappings, (vm, phys, length) :: calls =>
    mappingsAfter shift (physToPtr shift vm mappings phys length).2 calls

/-- Over any run of calls, whatever the VM system does, no mapping leaves `mappings_`: the list
only grows at the front, by at most one mapping a call. -/
theorem mappingsAfter_grows (shift : Nat) :
    ∀ (mappings : List Mapping) (calls : List (Vm × Nat × Nat)),
      mappings <:+ mappingsAfter shift mappings calls ∧
        (mappingsAfter shift mappings calls).length ≤ mappings.length + calls.length
  | mappings, [] => ⟨List.suffix_refl _, Nat.le_add_right _ _⟩
  | mappings, (vm, phys, length) :: calls => by
    obtain ⟨suffix, length_le⟩ := mappingsAfter_grows shift (physToPtr shift vm mappings phys length).2 calls
    rw [mappingsAfter, List.length_cons]
    rcases physToPtr_mappings shift vm mappings phys length with same | ⟨-, ptr, added⟩
    · rw [same] at suffix length_le ⊢
      exact ⟨suffix, by omega⟩
    · simp only [added, List.length_cons] at suffix length_le ⊢
      exact ⟨(List.suffix_cons _ _).trans suffix, by omega⟩

end PhysToPtr

end Zircon.Acpi
