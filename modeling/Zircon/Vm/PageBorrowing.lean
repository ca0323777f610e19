import Zircon.Status

/-! `PhysicalPageBorrowingConfig` (`vm/include/vm/physical_page_borrowing_config.h`): three
`ktl::atomic<bool>` flags, each `false` at construction, each with a setter that stores to it and
a getter that loads it. A run is the sequence of stores made, each atomic; whatever they are, a
getter returns the value of the last store to its own flag, or `false` before the first, since no
setter touches another flag; and stores to different flags may interleave in any order. -/

namespace Zircon.Vm

/-- The three flags. -/
inductive Flag where
  | borrowingOnMru
  | loaning
  | replaceOnUnloan
  deriving DecidableEq, Repr

/-- The value of each flag: `borrowing_on_mru_enabled_`, `loaning_enabled_`, `replace_on_unloan_`. -/
structure PhysicalPageBorrowingConfig where
  borrowingOnMruEnabled : Bool
  loaningEnabled : Bool
  replaceOnUnloan : Bool
  deriving DecidableEq, Repr

namespace PhysicalPageBorrowingConfig

/-- `PhysicalPageBorrowingConfig()`: each flag initialised to `false`. -/
def init : PhysicalPageBorrowingConfig := ⟨false, false, false⟩

/-- `load(ktl::memory_order_relaxed)` of a flag. -/
def load (c : PhysicalPageBorrowingConfig) : Flag → Bool
  | .borrowingOnMru => c.borrowingOnMruEnabled
  | .loaning => c.loaningEnabled
  | .replaceOnUnloan => c.replaceOnUnloan

/-- `store(enabled, ktl::memory_order_relaxed)` to a flag. -/
def store (c : PhysicalPageBorrowingConfig) : Flag → Bool → PhysicalPageBorrowingConfig
  | .borrowingOnMru, enabled => { c with borrowingOnMruEnabled := enabled }
  | .loaning, enabled => { c with loaningEnabled := enabled }
  | .replaceOnUnloan, enabled => { c with replaceOnUnloan := enabled }

def setBorrowingOnMruEnabled (c : PhysicalPageBorrowingConfig) (enabled : Bool) :
    PhysicalPageBorrowingConfig :=
  c.store .borrowingOnMru enabled

def isBorrowingOnMruEnabled (c : PhysicalPageBorrowingConfig) : Bool := c.load .borrowingOnMru

def setLoaningEnabled (c : PhysicalPageBorrowingConfig) (enabled : Bool) :
    PhysicalPageBorrowingConfig :=
  c.store .loaning enabled

def isLoaningEnabled (c : PhysicalPageBorrowingConfig) : Bool := c.load .loaning

def setReplaceOnUnloanEnabled (c : PhysicalPageBorrowingConfig) (enabled : Bool) :
    PhysicalPageBorrowingConfig :=
  c.store .replaceOnUnloan enabled

def isReplaceOnUnloanEnabled (c : PhysicalPageBorrowingConfig) : Bool := c.load .replaceOnUnloan

@[simp] theorem load_store_self (c : PhysicalPageBorrowingConfig) (flag : Flag) (enabled : Bool) :
    (c.store flag enabled).load flag = enabled := by
  cases flag <;> rfl

/-- A store leaves the other flags alone. -/
@[simp] theorem load_store_of_ne (c : PhysicalPageBorrowingConfig) {flag other : Flag}
    (ne : other ≠ flag) (enabled : Bool) : (c.store flag enabled).load other = c.load other := by
  cases flag <;> cases other <;> first | rfl | exact absurd rfl ne

/-- Two configurations whose flags all load the same are the same. -/
theorem ext_load {c c' : PhysicalPageBorrowingConfig} (same : ∀ flag, c.load flag = c'.load flag) :
    c = c' := by
  obtain ⟨mru, loaning, unloan⟩ := c
  obtain ⟨mru', loaning', unloan'⟩ := c'
  rw [show mru = mru' from same .borrowingOnMru, show loaning = loaning' from same .loaning,
    show unloan = unloan' from same .replaceOnUnloan]

/-- The configuration after a run of stores, from construction. -/
def run (stores : List (Flag × Bool)) : PhysicalPageBorrowingConfig :=
  stores.foldl (fun c s => c.store s.1 s.2) init

@[simp] theorem run_concat (stores : List (Flag × Bool)) (s : Flag × Bool) :
    run (stores ++ [s]) = (run stores).store s.1 s.2 := by
  rw [run, List.foldl_append, List.foldl_cons, List.foldl_nil, ← run]

/-- A flag after a run holds what it holds after the run's stores to that flag alone. -/
theorem load_run_filter (flag : Flag) (stores : List (Flag × Bool)) :
    (run stores).load flag = (run (stores.filter (·.1 = flag))).load flag := by
  induction stores using List.reverseRecOn with
  | nil => rfl
  | append_singleton stores s ih =>
    by_cases same : s.1 = flag
    · simp [same]
    · simp [same, load_store_of_ne _ (Ne.symm same), ih]

/-- The value of the last store to a flag in a run, `false` if there is none. -/
def lastStored (flag : Flag) (stores : List (Flag × Bool)) : Bool :=
  ((stores.filter (·.1 = flag)).getLast?.map (·.2)).getD false

/-- After any run of stores, each flag holds the value last stored to it, or `false`. -/
theorem load_run (flag : Flag) (stores : List (Flag × Bool)) :
    (run stores).load flag = lastStored flag stores := by
  induction stores using List.reverseRecOn with
  | nil => cases flag <;> rfl
  | append_singleton stores s ih =>
    rw [run, List.foldl_append, List.foldl_cons, List.foldl_nil, ← run, lastStored,
      List.filter_append, List.filter_singleton]
    by_cases same : s.1 = flag
    · simp [same]
    · simp [same, load_store_of_ne _ (Ne.symm same), ih, lastStored]

/-- The stores of several threads to the flags may interleave in any order: two runs that make
the same stores to each flag, in the same order for that flag, leave the same configuration. -/
theorem run_eq_of_filter_eq {stores stores' : List (Flag × Bool)}
    (same : ∀ flag, stores.filter (·.1 = flag) = stores'.filter (·.1 = flag)) :
    run stores = run stores' :=
  ext_load fun flag => by rw [load_run_filter, same, ← load_run_filter]

/-- Enabling loaning and disabling borrowing on MRU, in either order, give the same
configuration. -/
example :
    run [(.loaning, true), (.borrowingOnMru, false)] = run [(.borrowingOnMru, false), (.loaning, true)] :=
  run_eq_of_filter_eq fun flag => by cases flag <;> rfl

end PhysicalPageBorrowingConfig

end Zircon.Vm
