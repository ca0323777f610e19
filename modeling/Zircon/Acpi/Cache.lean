import Zircon.Acpi.PhysToPtr

/-! The cache `mappings_` of `ZirconPhysmemReader` (`lib/acpi_lite/zircon.cc`) over whole runs of
`PhysToPtr`. The code keeps each mapping's base and size only, and asks `Query` at every search
which physical address the mapping holds. Here each entry also carries `paddr_base` of the call
that made it, and a VM system is consistent with the entries when `Query` of each base reports
that address; on such entries the search loop is a search of the entries themselves, and
`PhysToPtr` is a cache in front of a reader with no mappings (`cachedPhysToPtr`).

Over every run from the empty cache whose VM systems stay consistent, no entry holds the pages of
an entry made after it, since a mapping is made only when the search missed; and once a call has
succeeded, every later call for a range inside its range hits the cache and leaves it as it is, as
long as rounding the last byte up does not wrap. Whatever the VM system does, every cached mapping spans whole pages. -/

namespace Zircon.Acpi

/-- An entry of `mappings_` with `paddr_base` of the call that made it: the physical address its
`VmObjectPhysical` begins at. -/
structure CachedMapping where
  mapping : Mapping
  paddr : Nat
  deriving DecidableEq, Repr

namespace CachedMapping

/-- The test of the search loop on an entry whose `Query` reports the address it was made for:
`InRange(paddr_base, size, map_paddr, map_paddr + mapping->size())`. -/
def serves (e : CachedMapping) (paddrBase size : Nat) : Bool :=
  inRange paddrBase size e.paddr ((e.paddr + e.mapping.size) % 2 ^ 64)

/-- `mapping->base() + (phys - map_paddr)` in the entry. -/
def ptrAt (e : CachedMapping) (phys : Nat) : Nat :=
  (e.mapping.base + (phys + 2 ^ 64 - e.paddr) % 2 ^ 64) % 2 ^ 64

/-- The search of the entries by the addresses they were made for: the pointer at `phys` in the
first entry that holds the pages. -/
def lookup (entries : List CachedMapping) (paddrBase size phys : Nat) : Option PtrResult :=
  (entries.find? (·.serves paddrBase size)).map fun e => .ok (e.ptrAt phys)

end CachedMapping

open CachedMapping

/-- `Query` of each entry's base succeeds and reports the address the entry was made for. -/
def Reports (vm : Vm) (entries : List CachedMapping) : Prop :=
  ∀ e ∈ entries, vm.query e.mapping.base = (.ok, e.paddr)

/-- The entry of the mapping `PhysToPtr(phys, length)` makes when its search misses. -/
def madeEntry (shift : Nat) (vm : Vm) (phys length : Nat) : CachedMapping :=
  ⟨⟨(vm.createVmMapping (pageRange shift phys (phys + (length - 1))).2).2,
    (pageRange shift phys (phys + (length - 1))).2⟩, (pageRange shift phys (phys + (length - 1))).1⟩

/-- The entries after `PhysToPtr(phys, length)`: the call's new mapping in front when it made one. -/
def entriesAfter (shift : Nat) (vm : Vm) (entries : List CachedMapping) (phys length : Nat) :
    List CachedMapping :=
  if (physToPtr shift vm (entries.map (·.mapping)) phys length).2 = entries.map (·.mapping) then
    entries
  else madeEntry shift vm phys length :: entries

/-- Calls of `PhysToPtr`, each with a VM system consistent with the entries it starts from. -/
inductive CacheSteps (shift : Nat) : List CachedMapping → List CachedMapping → Prop
  | refl (entries : List CachedMapping) : CacheSteps shift entries entries
  | call {entries entries' : List CachedMapping} (vm : Vm) (phys length : Nat)
      (reports : Reports vm entries)
      (rest : CacheSteps shift (entriesAfter shift vm entries phys length) entries') :
      CacheSteps shift entries entries'

/-- The reader as a cache in front of one with no mappings: the entries are searched by the
physical addresses they were made for; on a miss the call is that of a reader with no mappings,
and the mapping it made is remembered. -/
def cachedPhysToPtr (shift : Nat) (vm : Vm) (entries : List CachedMapping) (phys length : Nat) :
    PtrResult × List CachedMapping :=
  if length = 0 ∨ phys = 0 then (.error .errInvalidArgs, entries)
  else if 2 ^ 64 ≤ phys + (length - 1) then (.error .errOutOfRange, entries)
  else
    match lookup entries (pageRange shift phys (phys + (length - 1))).1
        (pageRange shift phys (phys + (length - 1))).2 phys with
    | some result => (result, entries)
    | none =>
      ((physToPtr shift vm [] phys length).1,
        if (physToPtr shift vm [] phys length).2 = [] then entries
        else madeEntry shift vm phys length :: entries)

/-- No entry holds the pages of an entry made after it. -/
def NoRedundant (entries : List CachedMapping) : Prop :=
  entries.Pairwise fun newer older => older.serves newer.paddr newer.mapping.size = false

section Cache

variable {shift : Nat} {vm : Vm} {entries entries' : List CachedMapping} {phys length : Nat}

/-! ### One call -/

/-- On entries the VM system reports, the search loop of `PhysToPtr`, which asks `Query` of every
mapping, is the search of the entries by the addresses they were made for. -/
theorem searchMappings_reports {paddrBase size : Nat} :
    ∀ {entries : List CachedMapping}, Reports vm entries →
      searchMappings vm paddrBase size phys (entries.map (·.mapping)) =
        lookup entries paddrBase size phys
  | [], _ => rfl
  | e :: entries, reports => by
    have rest := @searchMappings_reports paddrBase size entries fun e' mem => reports e' (.tail _ mem)
    rw [List.map_cons, searchMappings, reports e (.head _), lookup, List.find?_cons]
    cases served : e.serves paddrBase size
    · rw [serves] at served
      simp only [ne_eq, not_true_eq_false, if_false, served, Bool.false_eq_true, ↓reduceIte, rest,
        lookup]
    · rw [serves] at served
      simp only [ne_eq, not_true_eq_false, if_false, served, if_true, Option.map_some', ptrAt]

/-- A call that passes its checks and whose search of `mappings_` returns returns that, and keeps
`mappings_`. -/
theorem physToPtr_of_hit {mappings : List Mapping} {result : PtrResult}
    (checks : ¬(length = 0 ∨ phys = 0) ∧ ¬2 ^ 64 ≤ phys + (length - 1))
    (hit : searchMappings vm (pageRange shift phys (phys + (length - 1))).1
      (pageRange shift phys (phys + (length - 1))).2 phys mappings = some result) :
    physToPtr shift vm mappings phys length = (result, mappings) := by
  rw [physToPtr, if_neg checks.1, if_neg checks.2]
  simp only [hit]

/-- A call that passes its checks and misses `mappings_` does what it does with no mappings, and
keeps `mappings_` behind the mapping it made. -/
theorem physToPtr_of_miss {mappings : List Mapping}
    (checks : ¬(length = 0 ∨ phys = 0) ∧ ¬2 ^ 64 ≤ phys + (length - 1))
    (missed : searchMappings vm (pageRange shift phys (phys + (length - 1))).1
      (pageRange shift phys (phys + (length - 1))).2 phys mappings = none) :
    physToPtr shift vm mappings phys length =
      ((physToPtr shift vm [] phys length).1, (physToPtr shift vm [] phys length).2 ++ mappings) := by
  simp only [physToPtr, if_neg checks.1, if_neg checks.2, missed, searchMappings]
  split_ifs <;> rfl

/-- A call that returns a pointer passed both checks of its arguments. -/
theorem physToPtr_checks {mappings : List Mapping} {ptr : Nat}
    (ok : (physToPtr shift vm mappings phys length).1 = .ok ptr) :
    ¬(length = 0 ∨ phys = 0) ∧ ¬2 ^ 64 ≤ phys + (length - 1) := by
  unfold physToPtr at ok
  by_cases bad : length = 0 ∨ phys = 0
  · rw [if_pos bad] at ok
    cases ok
  by_cases wrap : 2 ^ 64 ≤ phys + (length - 1)
  · rw [if_neg bad, if_pos wrap] at ok
    cases ok
  exact ⟨bad, wrap⟩

variable (shift vm entries phys length)

/-- A call keeps the entries, and `mappings_` with them; or its search missed, it returned a pointer
into a mapping of its pages, and the entry of that mapping went in front. -/
theorem entriesAfter_cases :
    (entriesAfter shift vm entries phys length = entries ∧
        (physToPtr shift vm (entries.map (·.mapping)) phys length).2 = entries.map (·.mapping)) ∨
      (searchMappings vm (pageRange shift phys (phys + (length - 1))).1
          (pageRange shift phys (phys + (length - 1))).2 phys (entries.map (·.mapping)) = none ∧
        (∃ ptr, physToPtr shift vm (entries.map (·.mapping)) phys length =
          (.ok ptr, (madeEntry shift vm phys length).mapping :: entries.map (·.mapping))) ∧
        entriesAfter shift vm entries phys length = madeEntry shift vm phys length :: entries) := by
  rcases physToPtr_mappings shift vm (entries.map (·.mapping)) phys length with
    same | ⟨missed, ptr, made⟩
  · exact .inl ⟨if_pos same, same⟩
  · have changed : (physToPtr shift vm (entries.map (·.mapping)) phys length).2 ≠
        entries.map (·.mapping) := by
      rw [made]
      exact List.cons_ne_self _ _
    exact .inr ⟨missed, ⟨ptr, made⟩, if_neg changed⟩

/-- The mappings of the entries after a call are `mappings_` after it. -/
theorem entriesAfter_mappings :
    (entriesAfter shift vm entries phys length).map (·.mapping) =
      (physToPtr shift vm (entries.map (·.mapping)) phys length).2 := by
  rcases entriesAfter_cases shift vm entries phys length with
    ⟨same, unchanged⟩ | ⟨-, ⟨ptr, made⟩, added⟩
  · rw [same, unchanged]
  · rw [added, made]
    rfl

variable {shift vm entries phys length}

/-- On a VM system consistent with the entries, `PhysToPtr` is the cache in front of a reader with
no mappings: it returns what `cachedPhysToPtr` returns, and its entries after the call are those
of `cachedPhysToPtr`. -/
theorem physToPtr_refines_cache (reports : Reports vm entries) :
    (physToPtr shift vm (entries.map (·.mapping)) phys length).1 =
        (cachedPhysToPtr shift vm entries phys length).1 ∧
      entriesAfter shift vm entries phys length = (cachedPhysToPtr shift vm entries phys length).2 := by
  by_cases bad : length = 0 ∨ phys = 0
  · simp only [entriesAfter, physToPtr, cachedPhysToPtr, if_pos bad, if_true, and_self]
  by_cases wrap : 2 ^ 64 ≤ phys + (length - 1)
  · simp only [entriesAfter, physToPtr, cachedPhysToPtr, if_neg bad, if_pos wrap, if_true, and_self]
  rw [cachedPhysToPtr, if_neg bad, if_neg wrap, ← searchMappings_reports reports]
  cases found : searchMappings vm (pageRange shift phys (phys + (length - 1))).1
      (pageRange shift phys (phys + (length - 1))).2 phys (entries.map (·.mapping)) with
  | some result =>
    have hit := physToPtr_of_hit ⟨bad, wrap⟩ found
    exact ⟨by rw [hit], by rw [entriesAfter, hit, if_pos rfl]⟩
  | none =>
    have miss := physToPtr_of_miss ⟨bad, wrap⟩ found
    exact ⟨by rw [miss], by simp only [entriesAfter, miss, List.append_left_eq_self]⟩

/-- With the page `[0, 4096)` cached at `2 ^ 40`, `PhysToPtr(1, 10)` is the cache's answer. -/
theorem physToPtr_refines_cache_cached_page :
    (physToPtr 12 lowPageVm [⟨2 ^ 40, 4096⟩] 1 10).1 =
        (cachedPhysToPtr 12 lowPageVm [⟨⟨2 ^ 40, 4096⟩, 0⟩] 1 10).1 ∧
      entriesAfter 12 lowPageVm [⟨⟨2 ^ 40, 4096⟩, 0⟩] 1 10 =
        (cachedPhysToPtr 12 lowPageVm [⟨⟨2 ^ 40, 4096⟩, 0⟩] 1 10).2 :=
  @physToPtr_refines_cache 12 lowPageVm [⟨⟨2 ^ 40, 4096⟩, 0⟩] 1 10
    (fun _ mem => by rw [List.mem_singleton.mp mem]; rfl)

/-- A call the VM system answers consistently keeps `NoRedundant`: it makes a mapping only when
no entry holds its pages. -/
theorem noRedundant_entriesAfter (reports : Reports vm entries) (inv : NoRedundant entries) :
    NoRedundant (entriesAfter shift vm entries phys length) := by
  rcases entriesAfter_cases shift vm entries phys length with ⟨same, -⟩ | ⟨missed, -, added⟩
  · rwa [same]
  · rw [searchMappings_reports reports, lookup, Option.map_eq_none', List.find?_eq_none] at missed
    rw [added]
    exact .cons (fun older mem => Bool.eq_false_iff.mpr (missed older mem)) inv

/-- After a call that returned a pointer, an entry holds the call's pages, when rounding the last
byte up does not wrap. -/
theorem served_after_ok {ptr : Nat} (small : shift ≤ 64)
    (noWrap : phys + (length - 1) + (2 ^ shift - 1) < 2 ^ 64) (reports : Reports vm entries)
    (ok : (physToPtr shift vm (entries.map (·.mapping)) phys length).1 = .ok ptr) :
    ∃ e ∈ entriesAfter shift vm entries phys length,
      e.serves (pageRange shift phys (phys + (length - 1))).1
        (pageRange shift phys (phys + (length - 1))).2 = true := by
  rcases entriesAfter_cases shift vm entries phys length with
    ⟨same, unchanged⟩ | ⟨-, -, added⟩
  · have result : physToPtr shift vm (entries.map (·.mapping)) phys length =
        (.ok ptr, entries.map (·.mapping)) := Prod.ext ok unchanged
    obtain ⟨-, -, -, ⟨hit, -⟩ | ⟨-, -, -, -, -, made, -⟩⟩ :=
      (physToPtr_eq_ok Prod.mk.eta.symm).mp result
    · rw [searchMappings_reports reports, lookup, Option.map_eq_some'] at hit
      obtain ⟨e, found, -⟩ := hit
      have served := List.find?_some found
      rw [same]
      exact ⟨e, List.mem_of_find?_eq_some found, served⟩
    · exact absurd made.symm (List.cons_ne_self _ _)
  · have range := pageRange_eq small (Nat.le_add_right phys (length - 1)) noWrap
    have fits := sub_mod_spec (phys + (length - 1) + (2 ^ shift - 1)) (Nat.two_pow_pos shift)
    rw [added]
    refine ⟨_, .head _, ?_⟩
    simp only [serves, madeEntry, inRange, decide_eq_true_eq]
    rw [Nat.mod_eq_of_lt (by omega)]
    exact ⟨le_rfl, le_rfl⟩

/-! ### Runs -/

/-- Entries only go in front: every entry stays for the rest of a run. -/
theorem CacheSteps.suffix (steps : CacheSteps shift entries entries') : entries <:+ entries' := by
  induction steps with
  | refl => exact List.suffix_refl _
  | @call entries _ vm phys length _ _ ih =>
    rcases entriesAfter_cases shift vm entries phys length with ⟨same, -⟩ | ⟨-, -, added⟩
    · rwa [same] at ih
    · rw [added] at ih
      exact (List.suffix_cons _ _).trans ih

/-- The mappings of the entries follow `mappings_` of the code over the same calls. -/
theorem CacheSteps.mappingsAfter (steps : CacheSteps shift entries entries') :
    ∃ calls, mappingsAfter shift (entries.map (·.mapping)) calls = entries'.map (·.mapping) := by
  induction steps with
  | refl => exact ⟨[], rfl⟩
  | @call entries _ vm phys length _ _ ih =>
    obtain ⟨calls, after⟩ := ih
    refine ⟨(vm, phys, length) :: calls, ?_⟩
    rw [Acpi.mappingsAfter, ← entriesAfter_mappings, after]

/-- Every run the VM systems answer consistently keeps `NoRedundant`. -/
theorem CacheSteps.noRedundant (steps : CacheSteps shift entries entries')
    (inv : NoRedundant entries) : NoRedundant entries' := by
  induction steps with
  | refl => exact inv
  | call _ _ _ reports _ ih => exact ih (noRedundant_entriesAfter reports inv)

/-- Over every run from the empty cache whose VM systems report the cached mappings as they were
made, no cached mapping holds the pages of a mapping cached after it. -/
theorem cache_no_redundant (run : CacheSteps shift [] entries) : NoRedundant entries :=
  run.noRedundant .nil

/-- With 4 KiB pages and a physmap, `PhysToPtr(1, 10)` and then `PhysToPtr(8192, 10)` cache the
pages at 0 and at 8192, each once, and neither mapping holds the other's page. -/
theorem cache_no_redundant_two_pages :
    NoRedundant [⟨⟨2 ^ 40 + 8192, 4096⟩, 8192⟩, ⟨⟨2 ^ 40, 4096⟩, 0⟩] :=
  @cache_no_redundant 12 _ (.call (physmapVm 0) 1 10 (fun _ mem => nomatch mem)
    (by
      rw [show entriesAfter 12 (physmapVm 0) [] 1 10 = [⟨⟨2 ^ 40, 4096⟩, 0⟩] by decide]
      refine .call (physmapVm 8192) 8192 10 (fun _ mem => by rw [List.mem_singleton.mp mem]; rfl) ?_
      rw [show entriesAfter 12 (physmapVm 8192) [⟨⟨2 ^ 40, 4096⟩, 0⟩] 8192 10 =
        [⟨⟨2 ^ 40 + 8192, 4096⟩, 8192⟩, ⟨⟨2 ^ 40, 4096⟩, 0⟩] by decide]
      exact .refl _))

/-- Rounding down to a page is monotone. -/
theorem sub_mod_mono {a b p : Nat} (le : a ≤ b) : a - a % p ≤ b - b % p := by
  have split := Nat.div_add_mod a p
  have split' := Nat.div_add_mod b p
  have := Nat.mul_le_mul_left p (Nat.div_le_div_right (c := p) le)
  omega

/-- The pages of a range inside `[phys, phys + length)` lie inside the pages of that range, when
rounding its last byte up does not wrap. -/
theorem pageRange_mono {phys' length' : Nat} (small : shift ≤ 64)
    (noWrap : phys + (length - 1) + (2 ^ shift - 1) < 2 ^ 64) (nonempty : 0 < length')
    (within : phys ≤ phys' ∧ phys' + length' ≤ phys + length) :
    (pageRange shift phys (phys + (length - 1))).1 ≤
        (pageRange shift phys' (phys' + (length' - 1))).1 ∧
      (pageRange shift phys' (phys' + (length' - 1))).1 +
          (pageRange shift phys' (phys' + (length' - 1))).2 ≤
        (pageRange shift phys (phys + (length - 1))).1 +
          (pageRange shift phys (phys + (length - 1))).2 := by
  have last : phys' + (length' - 1) ≤ phys + (length - 1) := by omega
  obtain ⟨base, top⟩ := pageRange_eq small (Nat.le_add_right phys (length - 1)) noWrap
  obtain ⟨base', top'⟩ := pageRange_eq small (Nat.le_add_right phys' (length' - 1))
    (Nat.lt_of_le_of_lt (Nat.add_le_add_right last _) noWrap)
  rw [top, top', base, base']
  exact ⟨sub_mod_mono within.1, sub_mod_mono (Nat.add_le_add_right last _)⟩

/-- An entry that holds some pages holds every range of pages inside them. -/
theorem serves_mono {e : CachedMapping} {paddrBase size paddrBase' size' : Nat}
    (served : e.serves paddrBase size = true) (le : paddrBase ≤ paddrBase')
    (fits : paddrBase' + size' ≤ paddrBase + size) : e.serves paddrBase' size' = true := by
  simp only [serves, inRange, decide_eq_true_eq] at served ⊢
  omega

/-- Once `PhysToPtr(phys, length)` has returned a pointer, every later call for a range inside
`[phys, phys + length)` returns one, from `mappings_` and without changing it, after any run of
calls, as long as the VM system reports the cached mappings as they were made and rounding
`phys_end` up does not wrap. -/
theorem physToPtr_hits_cache {vm' : Vm} {ptr phys' length' : Nat} (small : shift ≤ 64)
    (noWrap : phys + (length - 1) + (2 ^ shift - 1) < 2 ^ 64) (reports : Reports vm entries)
    (ok : (physToPtr shift vm (entries.map (·.mapping)) phys length).1 = .ok ptr)
    (later : CacheSteps shift (entriesAfter shift vm entries phys length) entries')
    (reports' : Reports vm' entries') (nonempty : 0 < length')
    (within : phys ≤ phys' ∧ phys' + length' ≤ phys + length) :
    ∃ ptr', physToPtr shift vm' (entries'.map (·.mapping)) phys' length' =
      (.ok ptr', entries'.map (·.mapping)) := by
  obtain ⟨e, mem, served⟩ := served_after_ok small noWrap reports ok
  obtain ⟨below, above⟩ := pageRange_mono small noWrap nonempty within
  have checks := physToPtr_checks ok
  have found : (entries'.find? (·.serves (pageRange shift phys' (phys' + (length' - 1))).1
      (pageRange shift phys' (phys' + (length' - 1))).2)).isSome :=
    List.find?_isSome.mpr ⟨e, later.suffix.subset mem, serves_mono served below above⟩
  obtain ⟨e', found⟩ := Option.isSome_iff_exists.mp found
  refine ⟨e'.ptrAt phys', physToPtr_of_hit ⟨by omega, by omega⟩ ?_⟩
  rw [searchMappings_reports reports', lookup, found]
  rfl

/-- After `PhysToPtr(1, 10)` has cached the page `[0, 4096)`, `PhysToPtr(5, 3)` hits it. -/
theorem physToPtr_hits_cache_first_page :
    ∃ ptr', physToPtr 12 lowPageVm [⟨2 ^ 40, 4096⟩] 5 3 = (.ok ptr', [⟨2 ^ 40, 4096⟩]) :=
  @physToPtr_hits_cache 12 lowPageVm [] [⟨⟨2 ^ 40, 4096⟩, 0⟩] 1 10 lowPageVm (2 ^ 40 + 1) 5 3
    (by decide) (by decide) (fun _ mem => nomatch mem) (by decide)
    (by rw [show entriesAfter 12 lowPageVm [] 1 10 = [⟨⟨2 ^ 40, 4096⟩, 0⟩] by decide]
        exact .refl _)
    (fun _ mem => by rw [List.mem_singleton.mp mem]; rfl) (by decide) (by decide)

/-! ### Whole pages -/

/-- The size `PhysToPtr` computes is a whole number of pages, wherever `phys_end` lies. -/
theorem pageRange_size_dvd (physEnd : Nat) (small : shift ≤ 64) (lt : phys < 2 ^ 64) :
    2 ^ shift ∣ (pageRange shift phys physEnd).2 := by
  have pos := Nat.two_pow_pos shift
  have up := sub_mod_spec ((physEnd + (2 ^ shift - 1)) % 2 ^ 64) pos
  have base := sub_mod_spec phys pos
  simp only [pageRange, roundUp_eq_roundDown]
  rw [roundDown_eq (Nat.mod_lt _ (Nat.two_pow_pos 64)) small, roundDown_eq lt small,
    Nat.dvd_mod_iff (Nat.pow_dvd_pow 2 small)]
  exact Nat.dvd_sub' (Nat.dvd_add (Nat.dvd_of_mod_eq_zero up.2.2) (Nat.pow_dvd_pow 2 small))
    (Nat.dvd_of_mod_eq_zero base.2.2)

/-- A call keeps every mapping of `mappings_` a whole number of pages. -/
theorem physToPtr_whole_pages {mappings : List Mapping} (small : shift ≤ 64)
    (whole : ∀ m ∈ mappings, 2 ^ shift ∣ m.size) :
    ∀ m ∈ (physToPtr shift vm mappings phys length).2, 2 ^ shift ∣ m.size := by
  rcases physToPtr_mappings shift vm mappings phys length with same | ⟨-, ptr, made⟩
  · rwa [same]
  · obtain ⟨-, -, fits, -⟩ := (physToPtr_eq_ok Prod.mk.eta.symm).mp made
    rw [made]
    exact List.forall_mem_cons.mpr ⟨pageRange_size_dvd _ small (by omega), whole⟩

/-- Over every run from the empty cache, whatever the VM system does, every mapping in
`mappings_` spans a whole number of pages. -/
theorem mappingsAfter_whole_pages (small : shift ≤ 64) (calls : List (Vm × Nat × Nat)) :
    ∀ m ∈ mappingsAfter shift [] calls, 2 ^ shift ∣ m.size := by
  suffices run : ∀ (mappings : List Mapping) (calls : List (Vm × Nat × Nat)),
      (∀ m ∈ mappings, 2 ^ shift ∣ m.size) →
        ∀ m ∈ mappingsAfter shift mappings calls, 2 ^ shift ∣ m.size from
    run [] calls fun _ mem => nomatch mem
  intro mappings calls
  induction calls generalizing mappings with
  | nil => exact id
  | cons call calls ih => exact fun whole => ih _ (physToPtr_whole_pages small whole)

/-- With 4 KiB pages, the mapping `PhysToPtr(1, 10)` makes, which `PhysToPtr(4096, 1)` then
hits, is a whole page. -/
theorem mappingsAfter_whole_pages_two_calls : 2 ^ 12 ∣ (⟨2 ^ 40, 4096⟩ : Mapping).size :=
  mappingsAfter_whole_pages (by decide) [(lowPageVm, 1, 10), (lowPageVm, 4096, 1)] _ (by decide)

end Cache

end Zircon.Acpi
