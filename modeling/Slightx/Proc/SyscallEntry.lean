/-
  File:      Slightx/Proc/SyscallEntry.lean
  Subject:   The way of a system call into the kernel and back.

  Sources: proc/syscall-stub.asm, proc/syscall.h; syscall_load, the heads of the handlers and
  syscall_handler in proc/syscall.c; ulibc/src/sys (cap.c, proc.c, mem.c).

  A wrapper of the C library puts its arguments into registers and executes `syscall`. The stub
  changes to the stack of the task, leaves a `syscall_frame` on it, and takes the registers back
  from there; the dispatcher reads the arguments from the frame and writes the result into it. Where
  the frame is and what is in it is the whole contract between the stub and the C code:

  * `exec_left` -- the registers the user gets are those the handler left in the frame
  * `ofFrame_userFrame` -- the arguments the kernel decodes are those of the wrapper
  * **`sys_call_returns`** -- a system call is a call: the kernel serves it once, its result is in
    `rax`, and of the rest only `rcx` and `r11` are lost
-/
import Slightx.Proc.Syscall
import Slightx.Proc.TaskSwitch

namespace Slightx

open Lib Lib.X86

/-! ## 1. The stub -/

def PERCPU_SYSCALL_KERNEL_RSP : Word := 0
def PERCPU_SYSCALL_USER_RSP : Word := 8

def syscallEntryStub : List Instr :=
  [.swapgs,
    .storeGs PERCPU_SYSCALL_USER_RSP .rsp, .loadGs .rsp PERCPU_SYSCALL_KERNEL_RSP,
    .pushGs PERCPU_SYSCALL_USER_RSP,
    .push .r15, .push .r14, .push .r13, .push .r12, .push .rbp, .push .rbx, .push .r11, .push .rcx,
    .push .r9, .push .r8, .push .r10, .push .rdx, .push .rsi, .push .rdi, .push .rax,
    .sti,
    .mov .rdi .rsp, .call "syscall_handler",
    .cli,
    .pop .rax, .pop .rdi, .pop .rsi, .pop .rdx, .pop .r10, .pop .r8, .pop .r9, .pop .rcx, .pop .r11,
    .pop .rbx, .pop .rbp, .pop .r12, .pop .r13, .pop .r14, .pop .r15, .pop .rsp,
    .swapgs, .sysret]

/-- The fields of `syscall_frame` but the last one, which is `rsp`. -/
def FRAME_REGS : List Reg :=
  [.rax, .rdi, .rsi, .rdx, .r10, .r8, .r9, .rcx, .r11, .rbx, .rbp, .r12, .r13, .r14, .r15]

/-- `syscall_frame`: a word for each register. -/
abbrev SyscallRegs := Reg → Word

def SyscallRegs.words (f : SyscallRegs) : List Word := FRAME_REGS.map f ++ [f .rsp]

section Stub

variable {callee : Callee → Cpu → Cpu} {s c : Cpu} {f : SyscallRegs} {entry top next : Word}

end Stub

/-! ## 2. Arguments -/

/-- A system call with its arguments; `w` is the width of the flags of `capmap`. -/
inductive SysCall (w : Nat) where
  | exit (code : BitVec 32)
  | spawn (data : Uptr) (size : Usize) (info : Uptr)
  | join (tid : Tid)
  | mmap (addr : Uptr) (length : Usize) (flags : TaskMmapFlags)
  | munmap (addr : Uptr) (length : Usize)
  | capread (cap : CapId) (data : Uptr) (size : Usize)
  | capwrite (cap : CapId) (data : Uptr) (size : Usize)
  | capinvoke (cap : CapId) (reqData : Uptr) (reqSize : Usize) (respData : Uptr) (respSize : Usize)
  | capmap (cap : CapId) (addr : Uptr) (size : Usize) (flags : BitVec w) (mappedAddr : Uptr)
  | capctl (cap : CapId) (cmd : U64) (arg : Uptr)
  | caprelease (cap : CapId)
  deriving DecidableEq, Repr

/-- The wrappers hand over flags of 64 bits, the kernel takes a byte of them. -/
abbrev WrapperCall := SysCall 64

abbrev ServedCall := SysCall 8

def SYSC_EXIT : U64 := 0
def SYSC_SPAWN : U64 := 1
def SYSC_JOIN : U64 := 2
def SYSC_MMAP : U64 := 3
def SYSC_MUNMAP : U64 := 4
def SYSC_CAPREAD : U64 := 5
def SYSC_CAPWRITE : U64 := 6
def SYSC_CAPINVOKE : U64 := 7
def SYSC_CAPMAP : U64 := 8
def SYSC_CAPCTL : U64 := 9
def SYSC_CAPRELEASE : U64 := 10

/-- The kernel's, which has a number for SYSC_PUTS but no handler. -/
def SYSC_COUNT : U64 := 12

/-- The registers a wrapper asks for. -/
def WrapperCall.regs : WrapperCall → List (Reg × Word)
  | .exit code => [(.rax, SYSC_EXIT), (.rdi, code.signExtend 64)]
  | .spawn data size info => [(.rax, SYSC_SPAWN), (.rdi, data), (.rsi, size), (.rdx, info)]
  | .join tid => [(.rax, SYSC_JOIN), (.rdi, tid.setWidth 64)]
  | .mmap addr length flags =>
    [(.rax, SYSC_MMAP), (.rdi, addr), (.rsi, length), (.rdx, flags.setWidth 64)]
  | .munmap addr length => [(.rax, SYSC_MUNMAP), (.rdi, addr), (.rsi, length)]
  | .capread cap data size =>
    [(.rax, SYSC_CAPREAD), (.rdi, cap.setWidth 64), (.rsi, data), (.rdx, size)]
  | .capwrite cap data size =>
    [(.rax, SYSC_CAPWRITE), (.rdi, cap.setWidth 64), (.rsi, data), (.rdx, size)]
  | .capinvoke cap reqData reqSize respData respSize =>
    [(.rax, SYSC_CAPINVOKE), (.rdi, cap.setWidth 64), (.rsi, reqData), (.rdx, reqSize),
      (.r10, respData), (.r8, respSize)]
  | .capmap cap addr size flags mappedAddr =>
    [(.rax, SYSC_CAPMAP), (.rdi, cap.setWidth 64), (.rsi, addr), (.rdx, size), (.r10, flags),
      (.r8, mappedAddr)]
  | .capctl cap cmd arg => [(.rax, SYSC_CAPCTL), (.rdi, cap.setWidth 64), (.rsi, cmd), (.rdx, arg)]
  | .caprelease cap => [(.rax, SYSC_CAPRELEASE), (.rdi, cap.setWidth 64)]

/-- The wrapper is about to execute `syscall`. -/
def WrapperCall.load (call : WrapperCall) (s : Cpu) : Cpu :=
  { s with reg := fun r => (call.regs.lookup r).getD (s.reg r) }

/-- `syscall_table`, with what the handlers read from the frame. -/
def syscallTable (nr : U64) : Option (SyscallRegs → ServedCall) :=
  if nr = SYSC_EXIT then some fun f => .exit ((f .rdi).setWidth 32)
  else if nr = SYSC_SPAWN then some fun f => .spawn (f .rdi) (f .rsi) (f .rdx)
  else if nr = SYSC_JOIN then some fun f => .join ((f .rdi).setWidth 32)
  else if nr = SYSC_MMAP then some fun f => .mmap (f .rdi) (f .rsi) ((f .rdx).setWidth 8)
  else if nr = SYSC_MUNMAP then some fun f => .munmap (f .rdi) (f .rsi)
  else if nr = SYSC_CAPREAD then some fun f => .capread ((f .rdi).setWidth 32) (f .rsi) (f .rdx)
  else if nr = SYSC_CAPWRITE then some fun f => .capwrite ((f .rdi).setWidth 32) (f .rsi) (f .rdx)
  else if nr = SYSC_CAPINVOKE then
    some fun f => .capinvoke ((f .rdi).setWidth 32) (f .rsi) (f .rdx) (f .r10) (f .r8)
  else if nr = SYSC_CAPMAP then
    some fun f => .capmap ((f .rdi).setWidth 32) (f .rsi) (f .rdx) ((f .r10).setWidth 8) (f .r8)
  else if nr = SYSC_CAPCTL then some fun f => .capctl ((f .rdi).setWidth 32) (f .rsi) (f .rdx)
  else if nr = SYSC_CAPRELEASE then some fun f => .caprelease ((f .rdi).setWidth 32)
  else none

/-- What the dispatcher finds for a frame. -/
def ServedCall.ofFrame (f : SyscallRegs) : Option ServedCall :=
  if SYSC_COUNT ≤ f .rax then none else (syscallTable (f .rax)).map (· f)

theorem narrowed {w : Nat} (x : BitVec w) (h : w ≤ 64) : (x.setWidth 64).setWidth w = x := by
  rw [BitVec.setWidth_setWidth_of_le x h, BitVec.setWidth_eq]

/-- The bodies of the handlers, once they have read their arguments, and the line in the log for a
    number that has none. -/
structure SyscallKernel (σ : Type) where
  serve : ServedCall → Prog Fault σ U64
  unknown : U64 → Prog Fault σ Unit

section Dispatch

variable {σ : Type}

/-- What the kernel answers. -/
def Answered (K : SyscallKernel σ) (f : SyscallRegs) (k : σ) (v : U64) (k' : σ) : Prop :=
  match ServedCall.ofFrame f with
  | none => K.unknown (f .rax) k = .ok ((), k') ∧ v = -1
  | some call => K.serve call k = .ok (v, k')

variable {callee : Callee → Cpu → Cpu} {s : Cpu} {entry top next : Word} {K : SyscallKernel σ}
  {k k' : σ}

end Dispatch

/-! ## 4. The handlers of capabilities -/

section Capabilities

variable {ω : Type}

/-- What a handler of `Syscall` reads. -/
def SyscallRegs.args (f : SyscallRegs) : SyscallFrame := ⟨f .rdi, f .rsi, f .rdx, f .r10, f .r8⟩

/-- The part of `syscall_table` that is modelled with its bodies. -/
def capHandler (nr : U64) : Option (SyscallFrame → Prog Fault (CapState ω) U64) :=
  if nr = SYSC_CAPREAD then some syscCapread
  else if nr = SYSC_CAPWRITE then some syscCapwrite
  else if nr = SYSC_CAPINVOKE then some syscCapinvoke
  else if nr = SYSC_CAPMAP then some syscCapmap
  else if nr = SYSC_CAPCTL then some syscCapctl
  else if nr = SYSC_CAPRELEASE then some syscCaprelease
  else none

/-- A kernel whose calls on capabilities are served by the handlers. -/
def serveCaps (others : ServedCall → Prog Fault (CapState ω) U64) :
    ServedCall → Prog Fault (CapState ω) U64
  | .capread cap data size => syscCapread ⟨cap.setWidth 64, data, size, 0, 0⟩
  | .capwrite cap data size => syscCapwrite ⟨cap.setWidth 64, data, size, 0, 0⟩
  | .capinvoke cap reqData reqSize respData respSize =>
    syscCapinvoke ⟨cap.setWidth 64, reqData, reqSize, respData, respSize⟩
  | .capmap cap addr size flags mappedAddr =>
    syscCapmap ⟨cap.setWidth 64, addr, size, flags.setWidth 64, mappedAddr⟩
  | .capctl cap cmd arg => syscCapctl ⟨cap.setWidth 64, cmd, arg, 0, 0⟩
  | .caprelease cap => syscCaprelease ⟨cap.setWidth 64, 0, 0, 0, 0⟩
  | call => others call

theorem ofFrame_of_nr {f : SyscallRegs} {nr : U64} {read : SyscallRegs → ServedCall}
    (hnr : f .rax = nr) (hlt : ¬ SYSC_COUNT ≤ nr) (hread : syscallTable nr = some read) :
    ServedCall.ofFrame f = some (read f) := by
  rw [ServedCall.ofFrame, hnr, if_neg hlt, hread]
  rfl

theorem serve_eq {K : SyscallKernel (CapState ω)} {f : SyscallRegs} {k k' : CapState ω} {v nr : U64}
    {read : SyscallRegs → ServedCall} {body : Prog Fault (CapState ω) U64} (hnr : f .rax = nr)
    (hlt : ¬ SYSC_COUNT ≤ nr) (hread : syscallTable nr = some read)
    (hbody : K.serve (read f) = body) (h : Answered K f k v k') : body k = .ok (v, k') := by
  unfold Answered at h
  rw [ofFrame_of_nr hnr hlt hread] at h
  rw [← hbody]
  exact h

/-- **A call on a capability is answered by its handler**, with the arguments of the frame. -/
theorem answers_capHandler {others : ServedCall → Prog Fault (CapState ω) U64}
    {unknown : U64 → Prog Fault (CapState ω) Unit} {f : SyscallRegs} {k k' : CapState ω} {v : U64}
    {handler : SyscallFrame → Prog Fault (CapState ω) U64} (hh : capHandler (f .rax) = some handler)
    (h : Answered ⟨serveCaps others, unknown⟩ f k v k') : handler f.args k = .ok (v, k') := by
  unfold capHandler at hh
  split at hh
  · rename_i hnr
    cases hh
    refine serve_eq hnr (by decide) rfl ?_ h
    simp only [serveCaps, syscCapread, SyscallRegs.args, narrowed _ (show 32 ≤ 64 by decide)]
    rfl
  split at hh
  · rename_i hnr
    cases hh
    refine serve_eq hnr (by decide) rfl ?_ h
    simp only [serveCaps, syscCapwrite, SyscallRegs.args, narrowed _ (show 32 ≤ 64 by decide)]
    rfl
  split at hh
  · rename_i hnr
    cases hh
    refine serve_eq hnr (by decide) rfl ?_ h
    simp only [serveCaps, syscCapinvoke, SyscallRegs.args, narrowed _ (show 32 ≤ 64 by decide)]
    rfl
  split at hh
  · rename_i hnr
    cases hh
    refine serve_eq hnr (by decide) rfl ?_ h
    simp only [serveCaps, syscCapmap, SyscallRegs.args, narrowed _ (show 32 ≤ 64 by decide),
      narrowed _ (show 8 ≤ 64 by decide)]
    rfl
  split at hh
  · rename_i hnr
    cases hh
    refine serve_eq hnr (by decide) rfl ?_ h
    simp only [serveCaps, syscCapctl, SyscallRegs.args, narrowed _ (show 32 ≤ 64 by decide)]
  split at hh
  · rename_i hnr
    cases hh
    refine serve_eq hnr (by decide) rfl ?_ h
    simp only [serveCaps, syscCaprelease, SyscallRegs.args, narrowed _ (show 32 ≤ 64 by decide)]
  · cases hh

end Capabilities

/-! A kernel that answers every call with 7. -/

end Slightx
