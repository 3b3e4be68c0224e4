/-
  File:      Slightx/Proc/Syscall.lean
  Subject:   System calls on capabilities.

  Sources: kernel/proc/syscall.h, kernel/proc/abi.h, kernel/src/proc/syscall.c.

  A handler reads its arguments from the saved registers and works on the capability table of the
  current task. The five handlers that use a capability differ in their checks, the right they
  ask for and the callback they run; what they share is `capOperate`.
-/
import Slightx.Proc.Capabilities

namespace Slightx

open Lib

/-! ## 1. Arguments -/

/-- The registers of `syscall_frame` that carry arguments. -/
structure SyscallFrame where
  rdi : U64
  rsi : U64
  rdx : U64
  r10 : U64
  r8 : U64
  deriving DecidableEq, Repr

/-- A bad argument. A handler returns the negative. -/
def EINVAL : U64 := 1

/-- The object does not support the operation. -/
def ENOSUP : U64 := 3

/-- A range that is not the user's. -/
def EFAULT : U64 := 4

/-- The first address behind the user half. -/
def USER_VA_END : U64 := 0x0000800000000000

/-- Does the range lie in the user half? A range that wraps does not, an empty one does. -/
def isUserRangeOk (addr : Uptr) (len : Usize) : Bool :=
  if len = 0 then true
  else if addr + len < addr then false
  else if USER_VA_END < addr + len then false
  else true

/-- The same for a buffer. -/
def isUserPtrOk (p : Uptr) (len : Usize) : Bool := isUserRangeOk p len

/-! ## 2. Handlers -/

section Handlers

variable {ω α : Type}

/-- A callback runs on the rest of the machine. -/
def onRest (x : Prog Fault ω α) : Prog Fault (CapState ω) α :=
  zoom (fun s => s.heap.rest) (fun s rest => { s with heap := { s.heap with rest } }) x

/-- `cap_table_get(…); if (obj == NULL) return -EINVAL; if (obj->ops->op == NULL) return -ENOSUP;
    return obj->ops->op(obj, …);` -/
def capOperate (cap : CapId) (right : CapRights)
    (op : CapOps ω → Option (Uptr → Prog Fault ω U64)) : Prog Fault (CapState ω) U64 := do
  let obj ← capTableGet cap right
  if obj = 0 then return -EINVAL
  else
    match op ((← get).heap.obj obj).ops with
    | none => return -ENOSUP
    | some run => onRest (run obj)

/-- `sysc_capread`: the capability fills a buffer of the task. -/
def syscCapread (frame : SyscallFrame) : Prog Fault (CapState ω) U64 := do
  let cap : CapId := frame.rdi.setWidth 32
  let data := frame.rsi
  let len := frame.rdx
  if ¬ isUserPtrOk data len then return -EFAULT
  else
    let msg ← makeSpan data len
    capOperate cap CAP_RIGHT_READ fun ops => ops.read.map fun read obj => read obj msg

/-- `sysc_capwrite`: the capability takes a buffer of the task. -/
def syscCapwrite (frame : SyscallFrame) : Prog Fault (CapState ω) U64 := do
  let cap : CapId := frame.rdi.setWidth 32
  let data := frame.rsi
  let len := frame.rdx
  if ¬ isUserPtrOk data len then return -EFAULT
  else
    let msg ← makeConstSpan data len
    capOperate cap CAP_RIGHT_WRITE fun ops => ops.write.map fun write obj => write obj msg

/-- `sysc_capinvoke`: a request and the buffer for its response. -/
def syscCapinvoke (frame : SyscallFrame) : Prog Fault (CapState ω) U64 := do
  let cap : CapId := frame.rdi.setWidth 32
  let reqData := frame.rsi
  let reqLen := frame.rdx
  let respData := frame.r10
  let respLen := frame.r8
  if ¬ isUserPtrOk reqData reqLen then return -EFAULT
  else if ¬ isUserPtrOk respData respLen then return -EFAULT
  else
    let req ← makeConstSpan reqData reqLen
    let resp ← makeSpan respData respLen
    capOperate cap CAP_RIGHT_INVOKE fun ops =>
      ops.invoke.map fun invoke obj => invoke obj req resp

/-- `sysc_capmap`: here the length is checked, and both addresses may be null. -/
def syscCapmap (frame : SyscallFrame) : Prog Fault (CapState ω) U64 := do
  let cap : CapId := frame.rdi.setWidth 32
  let addr := frame.rsi
  let size := frame.rdx
  let flags : U8 := frame.r10.setWidth 8
  let mappedAddr := frame.r8
  if size = 0 then return -EINVAL
  else if addr ≠ 0 ∧ ¬ isUserRangeOk addr size then return -EFAULT
  else if mappedAddr ≠ 0 ∧ ¬ isUserPtrOk mappedAddr 8 then return -EFAULT
  else
    capOperate cap CAP_RIGHT_MAP fun ops =>
      ops.map.map fun map obj => map obj addr size flags mappedAddr

/-- `sysc_capctl`: a command and its argument, which are not checked here. -/
def syscCapctl (frame : SyscallFrame) : Prog Fault (CapState ω) U64 := do
  let cap : CapId := frame.rdi.setWidth 32
  let cmd := frame.rsi
  let arg := frame.rdx
  capOperate cap CAP_RIGHT_CTL fun ops => ops.ctl.map fun ctl obj => ctl obj cmd arg

/-- `sysc_caprelease` answers 0, whatever the slot holds. -/
def syscCaprelease (frame : SyscallFrame) : Prog Fault (CapState ω) U64 := do
  capTableDel (frame.rdi.setWidth 32)
  return 0

end Handlers

end Slightx
