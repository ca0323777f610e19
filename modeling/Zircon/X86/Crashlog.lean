import Zircon.Status

/-! `arch_render_crashlog_registers` (`arch/x86/crashlog.cc`): the registers of a crash as text,
one line `label: value` for each of 25 registers and an empty line after them, or `missing` when
no interrupt frame was captured. Each value goes through `%#18` `PRIx64` (`%#18lx` for `cr2`,
the same conversion of a 64-bit `unsigned long`), modelled as C defines it: lowercase hexadecimal
digits behind `0x` unless the value is 0, right-justified with spaces in a field of 18
characters. Every 64-bit value fills that field exactly, so the report of a frame always has the
same length, and a reader that knows the format gets every register back from it. -/

namespace Zircon.Crashlog

/-- The fields of the interrupt frame `iframe_t` that the report prints. -/
structure Iframe where
  cs : UInt64
  ip : UInt64
  flags : UInt64
  rax : UInt64
  rbx : UInt64
  rcx : UInt64
  rdx : UInt64
  rsi : UInt64
  rdi : UInt64
  rbp : UInt64
  userSp : UInt64
  r8 : UInt64
  r9 : UInt64
  r10 : UInt64
  r11 : UInt64
  r12 : UInt64
  r13 : UInt64
  r14 : UInt64
  r15 : UInt64
  vector : UInt64
  errCode : UInt64

/-- `crashlog_regs_t`: the interrupt frame, if one was captured, and the registers saved beside
it. -/
structure CrashlogRegs where
  iframe : Option Iframe
  cr2 : UInt64
  fsbase : UInt64
  gsbase : UInt64
  swapgsGsbase : UInt64

/-! ### The conversion `%#18x` -/

/-- What `%#x` prints for `v`: its lowercase hexadecimal digits, behind `0x` unless `v` is 0. -/
def altHex (v : Nat) : List Char := if v = 0 then ['0'] else '0' :: 'x' :: Nat.toDigits 16 v

/-- `s` right-justified in a field of `width` characters: printf's minimum field width, padding
with spaces on the left when neither `-` nor `0` is given. -/
def padLeft (width : Nat) (s : List Char) : List Char := List.replicate (width - s.length) ' ' ++ s

/-- `%#18` `PRIx64` of a `uint64_t`. -/
def hex18 (v : UInt64) : List Char := padLeft 18 (altHex v.toNat)

/-- A 64-bit value has at most 16 hexadecimal digits. -/
theorem length_altHex_le (v : UInt64) : (altHex v.toNat).length ≤ 18 := by
  have digits := Nat.toDigitsCore_length 16 (by decide) (v.toNat + 1) v.toNat 16
    (v.toNat_lt_size.trans_le (by decide)) (by decide)
  unfold altHex
  split
  · simp
  · simp only [List.length_cons, Nat.toDigits]
    omega

/-- Every 64-bit value fills the field of 18 characters exactly. -/
@[simp] theorem length_hex18 (v : UInt64) : (hex18 v).length = 18 := by
  have := length_altHex_le v
  rw [hex18, padLeft, List.length_append, List.length_replicate]
  omega

/-! ### The report -/

/-- The labels of the format string, in order. -/
def registerLabels : List String :=
  ["          CS", "          RIP", "          EFL", "          CR2", "          RAX",
    "          RBX", "          RCX", "          RDX", "          RSI", "          RDI",
    "          RBP", "          RSP", "           R8", "           R9", "          R10",
    "          R11", "          R12", "          R13", "          R14", "          R15",
    "       vector", "         errc", "       fsbase", "       gsbase", "swapgs gsbase"]

/-- The arguments of the format string, in order. -/
def registerValues (f : Iframe) (regs : CrashlogRegs) : List UInt64 :=
  [f.cs, f.ip, f.flags, regs.cr2, f.rax, f.rbx, f.rcx, f.rdx, f.rsi, f.rdi, f.rbp, f.userSp,
    f.r8, f.r9, f.r10, f.r11, f.r12, f.r13, f.r14, f.r15, f.vector, f.errCode, regs.fsbase,
    regs.gsbase, regs.swapgsGsbase]

/-- One line of the format: `label: %#18x\n`. -/
def registerLine (label : String) (v : UInt64) : List Char :=
  label.toList ++ [':', ' '] ++ hex18 v ++ ['\n']

/-- The lines of some labels and values, then the empty line that ends the format. -/
def registerLines (labels : List String) (values : List UInt64) : List Char :=
  (labels.zip values).flatMap (fun row => registerLine row.1 row.2) ++ ['\n']

/-- `arch_render_crashlog_registers(target, regs)`: the text it writes to `target`. -/
def archRenderCrashlogRegisters (regs : CrashlogRegs) : String :=
  match regs.iframe with
  | none => "missing"
  | some f => String.mk (registerLines registerLabels (registerValues f regs))

/-- A line has its label, two characters, the field of 18 and a newline. -/
theorem length_registerLine (label : String) (v : UInt64) :
    (registerLine label v).length = label.length + 21 := by
  have := String.length_data label
  simp only [registerLine, List.length_append, length_hex18, List.length_cons, List.length_nil]
  unfold String.toList
  omega

theorem length_registerLines :
    ∀ (labels : List String) (values : List UInt64), labels.length = values.length →
      (registerLines labels values).length = (labels.map fun label => label.length + 21).sum + 1
  | [], [], _ => rfl
  | label :: labels, v :: values, same => by
    have rest := length_registerLines labels values (Nat.succ.inj same)
    simp only [registerLines, List.length_append, List.length_singleton] at rest
    simp only [registerLines, List.zip_cons_cons, List.flatMap_cons, List.length_append,
      length_registerLine, List.map_cons, List.sum_cons, List.length_singleton] at rest ⊢
    omega

/-- The lines of a frame take 850 characters: all labels have 13 characters but that of `CS`,
which has 12. -/
theorem length_registerLines_frame (f : Iframe) (regs : CrashlogRegs) :
    (registerLines registerLabels (registerValues f regs)).length = 850 := by
  rw [length_registerLines _ _ rfl]
  rfl

/-- A report is 7 characters without a frame and 850 with one, whatever the registers hold. -/
theorem archRenderCrashlogRegisters_length (regs : CrashlogRegs) :
    (archRenderCrashlogRegisters regs).length = if regs.iframe.isSome then 850 else 7 := by
  obtain ⟨_ | f, cr2, fsbase, gsbase, swapgsGsbase⟩ := regs
  · rfl
  · exact length_registerLines_frame f _

/-! ### Reading a report back -/

/-- The value of a lowercase hexadecimal digit. -/
def hexDigitValue (c : Char) : Option Nat :=
  if '0' ≤ c ∧ c ≤ '9' then some (c.toNat - '0'.toNat)
  else if 'a' ≤ c ∧ c ≤ 'f' then some (c.toNat - 'a'.toNat + 10)
  else none

/-- The number hexadecimal digits write, after the digits worth `acc`. -/
def hexNumber (acc : Nat) : List Char → Option Nat
  | [] => some acc
  | c :: cs => (hexDigitValue c).bind fun d => hexNumber (acc * 16 + d) cs

/-- The value in a field of `%#x` output: spaces, then `0`, or `0x` and digits. -/
def readField (cs : List Char) : Option Nat :=
  match cs.dropWhile (· == ' ') with
  | ['0'] => some 0
  | '0' :: 'x' :: ds => hexNumber 0 ds
  | _ => none

/-- The values of lines with these labels, in order, up to the empty line that ends them. -/
def readLines : List String → List Char → Option (List Nat)
  | [], cs => if cs = ['\n'] then some [] else none
  | label :: labels, cs =>
    match cs.dropPrefix? (label.toList ++ [':', ' ']) with
    | none => none
    | some rest =>
      match readField (rest.take 18), rest.drop 18 with
      | some v, '\n' :: more => (readLines labels more).map (v :: ·)
      | _, _ => none

/-- A report read back: `none` for `missing`, or the value of each register. -/
def readReport (text : String) : Option (Option (List Nat)) :=
  if text = "missing" then some none else (readLines registerLabels text.toList).map some

theorem hexDigitValue_digitChar : ∀ d < 16, hexDigitValue (Nat.digitChar d) = some d := by
  decide

/-- The digits `toDigits` writes read back as the number, whatever follows them. -/
theorem hexNumber_toDigitsCore :
    ∀ (fuel n : Nat) (ds : List Char), n < fuel →
      hexNumber 0 (Nat.toDigitsCore 16 fuel n ds) = hexNumber n ds
  | 0, _, _, lt => absurd lt (Nat.not_lt_zero _)
  | fuel + 1, n, ds, lt => by
    have digit := hexDigitValue_digitChar (n % 16) (Nat.mod_lt _ (by decide))
    have split := Nat.div_add_mod n 16
    rw [Nat.toDigitsCore]
    split
    · next small =>
      rw [hexNumber, digit, Option.some_bind, show 0 * 16 + n % 16 = n by omega]
    · next big =>
      rw [hexNumber_toDigitsCore fuel (n / 16) _ (by omega), hexNumber, digit, Option.some_bind,
        show n / 16 * 16 + n % 16 = n by omega]

/-- The field of a 64-bit value reads back as the value. -/
theorem readField_hex18 (v : UInt64) : readField (hex18 v) = some v.toNat := by
  have spaces : ∀ c ∈ List.replicate (18 - (altHex v.toNat).length) ' ', (c == ' ') = true :=
    fun c mem => by rw [List.eq_of_mem_replicate mem]; rfl
  rw [readField, hex18, padLeft, List.dropWhile_append_of_pos spaces]
  by_cases zero : v.toNat = 0
  · rw [altHex, if_pos zero, zero]
    rfl
  · rw [altHex, if_neg zero, List.dropWhile_cons_of_neg (by decide)]
    exact hexNumber_toDigitsCore (v.toNat + 1) v.toNat [] (Nat.lt_succ_self _)

/-- Lines written with some labels read back, with the same labels, as their values. -/
theorem readLines_registerLines :
    ∀ (labels : List String) (values : List UInt64), labels.length = values.length →
      readLines labels (registerLines labels values) = some (values.map UInt64.toNat)
  | [], [], _ => rfl
  | label :: labels, v :: values, same => by
    have text : registerLines (label :: labels) (v :: values) =
        (label.toList ++ [':', ' ']) ++ (hex18 v ++ '\n' :: registerLines labels values) := by
      simp [registerLines, registerLine]
    rw [text, readLines, List.dropPrefix?_append_of_beq _ (beq_self_eq_true _)]
    dsimp only
    rw [List.take_left' (length_hex18 v), List.drop_left' (length_hex18 v), readField_hex18]
    exact congrArg (Option.map (v.toNat :: ·)) (readLines_registerLines labels values (Nat.succ.inj same))

/-- Reading a report back gives every register it was rendered from, and `none` without a
frame. -/
theorem readReport_render (regs : CrashlogRegs) :
    readReport (archRenderCrashlogRegisters regs) =
      some (regs.iframe.map fun f => (registerValues f regs).map UInt64.toNat) := by
  obtain ⟨_ | f, cr2, fsbase, gsbase, swapgsGsbase⟩ := regs
  · rfl
  · have text : archRenderCrashlogRegisters ⟨some f, cr2, fsbase, gsbase, swapgsGsbase⟩ ≠
        "missing" := fun missing => by
      have long : (archRenderCrashlogRegisters ⟨some f, cr2, fsbase, gsbase, swapgsGsbase⟩).length =
          850 := length_registerLines_frame f _
      rw [missing] at long
      exact absurd long (by decide)
    rw [readReport, if_neg text, archRenderCrashlogRegisters]
    exact congrArg (Option.map some) (readLines_registerLines _ _ rfl)

end Zircon.Crashlog
