/-
  File:      Slightx/Proc/TaskStart.lean
  Subject:   The first switch to a task.

  Sources: proc/task-trampoline.asm; the section "context" of task_init in proc/task.c.

  task_init leaves words on the kernel stack as if the task had called task_context_switch from a
  trampoline. The first switch to it returns into the trampoline, which takes them off again:

  * `initContext_result` -- the words of a new user task
  * `exec_usermodeTrampoline` -- the way to user mode, whatever the words are
  * **`user_task_starts`** -- a task made by task_init is parked, and the first switch to it leads
    to its entry point in user mode, with its startup data and nothing of the kernel's
  * `exec_kernelmodeTrampoline` -- a kernel task calls its function, and ends when it returns
-/
import Slightx.Proc.TaskSwitch

namespace Slightx

open Lib Lib.X86

/-! ## 1. The trampolines -/

def taskKernelmodeTrampoline : List Instr :=
  [.pop .rax, .pop .rdi, .callReg .rax, .xor .rdi .rdi, .call "task_exit"]

def taskUsermodeTrampoline : List Instr :=
  [.pop .r15, .pop .rax, .pop .rbx, .pop .rcx, .pop .rdx,
    .push .rdx, .push .rbx, .pushImm 0x202, .push .rcx, .push .rax,
    .xor .rax .rax, .xor .rbx .rbx, .xor .rcx .rcx, .xor .rdx .rdx, .xor .rsi .rsi,
    .mov .rdi .r15,
    .xor .rbp .rbp, .xor .r8 .r8, .xor .r9 .r9, .xor .r10 .r10, .xor .r11 .r11, .xor .r12 .r12,
    .xor .r13 .r13, .xor .r14 .r14, .xor .r15 .r15,
    .swapgs, .iretq]

/-- The words a user task finds on its stack: its startup data, where it starts, its stack and its
    segments. -/
structure UserEntry where
  info : Word
  rip : Word
  rsp : Word
  cs : Word
  ss : Word

def UserEntry.words (e : UserEntry) : List Word := [e.info, e.rip, e.rsp, e.cs, e.ss]

section Trampoline

variable {callee : Callee → Cpu → Cpu} {s : Cpu} {e : UserEntry} {rs : List Reg} {code : List Instr}

/-- The registers `rs` are cleared, and the flags are left to the result. -/
structure RegsCleared (rs : List Reg) (s s' : Cpu) : Prop where
  zero : ∀ r ∈ rs, s'.reg r = 0
  reg : ∀ r ∉ rs, s'.reg r = s.reg r
  mem : s'.mem = s.mem
  gs : s'.gsBase = s.gsBase ∧ s'.kernelGsBase = s.kernelGsBase

theorem regsCleared_cons {q : Reg} {s' : Cpu} (h : RegsCleared rs (step callee (.xor q q) s) s') :
    RegsCleared (q :: rs) s s' where
  zero := fun r hr => by
    by_cases hr' : r ∈ rs
    · exact h.zero r hr'
    · obtain rfl : r = q := (List.mem_cons.mp hr).resolve_right hr'
      rw [h.reg r hr']
      simp only [step, Cpu.set, Function.update_self, BitVec.xor_self]
      rfl
  reg := fun r hr => by
    rw [List.mem_cons, not_or] at hr
    rw [h.reg r hr.2]
    exact Function.update_of_ne hr.1 ..
  mem := h.mem
  gs := h.gs

variable (callee) in
/-- Registers cleared one after the other. -/
theorem exec_clears (rs : List Reg) (s : Cpu) : ∃ s', RegsCleared rs s s' ∧ ∀ code,
    exec callee (rs.map (fun r => .xor r r) ++ code) s = exec callee code s' := by
  induction rs generalizing s with
  | nil => exact ⟨s, ⟨fun _ h => absurd h List.not_mem_nil, fun _ _ => rfl, rfl, rfl, rfl⟩,
      fun _ => rfl⟩
  | cons q rs ih =>
    obtain ⟨s', hs', hcode⟩ := ih (step callee (.xor q q) s)
    refine ⟨s', regsCleared_cons hs', fun code => ?_⟩
    rw [List.map_cons, List.cons_append, exec_cons rfl, hcode]

/-- What the registers are when user code runs first. -/
structure AtEntry (e : UserEntry) (s s' : Cpu) : Prop where
  rip : s'.rip = e.rip
  rsp : s'.reg .rsp = e.rsp
  rdi : s'.reg .rdi = e.info
  zero : ∀ r, r ≠ .rsp → r ≠ .rdi → s'.reg r = 0
  cs : s'.cs = e.cs.setWidth 16
  ss : s'.ss = e.ss.setWidth 16
  rflags : s'.rflags = 0x202
  gs : s'.gsBase = s.kernelGsBase ∧ s'.kernelGsBase = s.gsBase

/-- The registers the words are taken into. -/
def UserEntry.reg (e : UserEntry) : Reg → Word
  | .r15 => e.info
  | .rax => e.rip
  | .rbx => e.rsp
  | .rcx => e.cs
  | .rdx => e.ss
  | _ => 0

theorem taskUsermodeTrampoline_eq : taskUsermodeTrampoline =
    [Reg.r15, .rax, .rbx, .rcx, .rdx].map .pop ++ (.push .rdx :: .push .rbx :: .pushImm 0x202 ::
      .push .rcx :: .push .rax :: ([Reg.rax, .rbx, .rcx, .rdx, .rsi].map (fun r => .xor r r) ++
        (.mov .rdi .r15 :: ([Reg.rbp, .r8, .r9, .r10, .r11, .r12, .r13, .r14, .r15].map
          (fun r => .xor r r) ++ [.swapgs, .iretq])))) := rfl

/-- **The way to user mode**: the five words, and nothing else of the kernel's. -/
theorem exec_usermodeTrampoline (h : Holds s.mem (s.reg .rsp).toNat e.words)
    (hroom : (s.reg .rsp).toNat + 40 < 2 ^ 64) :
    AtEntry e s (exec callee taskUsermodeTrampoline s) := by
  rw [taskUsermodeTrampoline_eq, exec_pops (f := e.reg) h (by decide) hroom]
  let popped : Cpu := { s with reg := fun r => if r ∈ [Reg.r15, .rax, .rbx, .rcx, .rdx] then e.reg r
    else if r = .rsp then s.reg .rsp + BitVec.ofNat 64 (8 * 5) else s.reg r }
  have hsp : (popped.reg .rsp).toNat = (s.reg .rsp).toNat + 40 := toNat_field (d := 40) hroom
  let back : List Word := [e.ss, e.rsp, 0x202, e.cs, e.rip]
  have hstack : Holds (popped.pushes back).mem ((popped.pushes back).reg .rsp).toNat
      [e.rip, e.cs, 0x202, e.rsp, e.ss] := by
    have hempty : Holds popped.mem (popped.reg .rsp).toNat [] := trivial
    exact holds_pushes hempty (by rw [hsp]; exact Nat.le_add_left ..)
  change AtEntry e s (exec callee _ popped)
  iterate 5 rw [exec_cons rfl]
  have hpushes : ∀ {rest : List Instr}, exec callee rest (step callee (.push .rax)
      (step callee (.push .rcx) (step callee (.pushImm 0x202) (step callee (.push .rbx)
        (step callee (.push .rdx) popped))))) = exec callee rest (popped.pushes back) := by
    intro rest
    iterate 5 rw [← pushes_push]
    rw [pushes_nil]
    rfl
  rw [hpushes]
  obtain ⟨s₁, h₁, hcode₁⟩ := exec_clears callee [.rax, .rbx, .rcx, .rdx, .rsi] (popped.pushes back)
  rw [hcode₁, exec_cons rfl]
  obtain ⟨s₂, h₂, hcode₂⟩ := exec_clears callee
    [.rbp, .r8, .r9, .r10, .r11, .r12, .r13, .r14, .r15] (step callee (.mov .rdi .r15) s₁)
  rw [hcode₂, exec_cons rfl, exec_cons rfl, exec_nil]
  have hinfo : s₁.reg .r15 = e.info := h₁.reg .r15 (by decide)
  have hrsp : s₂.reg .rsp = (popped.pushes back).reg .rsp :=
    (h₂.reg .rsp (by decide)).trans (h₁.reg .rsp (by decide))
  have hmem : s₂.mem = (popped.pushes back).mem := h₂.mem.trans h₁.mem
  have hlast : Holds s₂.swapgs.mem (s₂.swapgs.reg .rsp).toNat
      [e.rip, e.cs, 0x202, e.rsp, e.ss] := by
    change Holds s₂.mem (s₂.reg .rsp).toNat _
    rw [hrsp, hmem]
    exact hstack
  have hgs : s₂.gsBase = s.gsBase ∧ s₂.kernelGsBase = s.kernelGsBase :=
    ⟨h₂.gs.1.trans h₁.gs.1, h₂.gs.2.trans h₁.gs.2⟩
  rw [step, step, iretq_eq hlast]
  refine ⟨rfl, ?_, ?_, fun r hsp hdi => ?_, rfl, rfl, rfl, hgs.2, hgs.1⟩
  · simp only [Function.update_self]
  · have hdi : Reg.rdi ≠ .rsp := by decide
    simp only [Function.update_of_ne hdi]
    exact (h₂.reg .rdi (by decide)).trans hinfo
  · simp only [Function.update_of_ne hsp]
    by_cases hr : r ∈ [Reg.rbp, .r8, .r9, .r10, .r11, .r12, .r13, .r14, .r15]
    · exact h₂.zero r hr
    · refine ((h₂.reg r hr).trans (Function.update_of_ne hdi ..)).trans (h₁.zero r ?_)
      cases r <;> simp at hr hsp hdi ⊢

variable (callee) in
/-- **A kernel task calls its function**, with its argument and the stack the words leave, and ends
    when the function returns. -/
theorem exec_kernelmodeTrampoline {fn arg : Word}
    (h : Holds s.mem (s.reg .rsp).toNat [fn, arg]) (hroom : (s.reg .rsp).toNat + 16 < 2 ^ 64) :
    ∃ c : Cpu, c.reg .rdi = arg ∧ c.reg .rsp = s.reg .rsp + 16 ∧ c.mem = s.mem ∧
      exec callee taskKernelmodeTrampoline s =
        callee (.symbol "task_exit") (step callee (.xor .rdi .rdi) (callee (.addr fn) c)) := by
  let words : Reg → Word := fun r => if r = .rax then fn else arg
  have hwords : Holds s.mem (s.reg .rsp).toNat ([Reg.rax, .rdi].map words) := h
  have hcode : taskKernelmodeTrampoline =
      [Reg.rax, .rdi].map .pop ++ [.callReg .rax, .xor .rdi .rdi, .call "task_exit"] := rfl
  rw [hcode, exec_pops hwords (by decide) hroom]
  iterate 3 rw [exec_cons rfl]
  let c : Cpu := { s with reg := fun r => if r ∈ [Reg.rax, .rdi] then words r
    else if r = .rsp then s.reg .rsp + BitVec.ofNat 64 (8 * 2) else s.reg r }
  exact ⟨c, rfl, rfl, rfl, rfl⟩

end Trampoline

/-! ## 2. The words of a new task -/

/-- The words a run of `pushWords` leaves. -/
def stackWith (f : Uptr → U64) (sp : Uptr) : List U64 → Uptr → U64
  | [] => f
  | w :: ws => stackWith (Function.update f (sp - 8) w) (sp - 8) ws

section Words

variable {η ω : Type} {env : KernelEnv η ω} {ndebug : Bool} {umem : Mem} {self : Uptr}
  {desc : TaskDesc} {s s' : InitState η ω} {t : TaskRecord} {m : Mem} {f : Uptr → U64} {sp : Uptr}
  {ws : List U64}

theorem pushWords_eq : pushWords sp ws s =
    .ok (sp - BitVec.ofNat 64 (8 * ws.length), { s with stack := stackWith s.stack sp ws }) := by
  induction ws generalizing sp s with
  | nil =>
    have h : sp - BitVec.ofNat 64 (8 * ([] : List U64).length) = sp := by simp
    rw [h]
    rfl
  | cons w ws ih =>
    have h : sp - 8 - BitVec.ofNat 64 (8 * ws.length) =
        sp - BitVec.ofNat 64 (8 * (w :: ws).length) := by
      rw [List.length_cons, Nat.mul_succ]
      bv_omega
    have hrest := @ih { s with stack := Function.update s.stack (sp - 8) w } (sp - 8)
    rw [h] at hrest
    exact hrest

/-- The words above the stack pointer stay. -/
theorem stackWith_above {a : Uptr} (ha : sp.toNat ≤ a.toNat) (hroom : 8 * ws.length ≤ sp.toNat) :
    stackWith f sp ws a = f a := by
  induction ws generalizing f sp with
  | nil => rfl
  | cons w ws ih =>
    rw [List.length_cons] at hroom
    have hsp : (sp - 8).toNat = sp.toNat - 8 := toNat_sub_eight (by omega)
    have hne : a ≠ sp - 8 := fun he => by
      rw [he] at ha
      omega
    rw [stackWith, ih (by omega) (by omega), Function.update_of_ne hne]

/-- **A memory that shows the stack holds the words**, the last one on top. -/
theorem holds_stackWith (hroom : 8 * ws.length ≤ sp.toNat) (halign : sp.toNat % 8 = 0)
    (hm : ∀ a : Uptr, a.toNat % 8 = 0 → sp.toNat - 8 * ws.length ≤ a.toNat →
      a.toNat + 8 ≤ sp.toNat → load64 m a.toNat = stackWith f sp ws a) :
    Holds m (sp.toNat - 8 * ws.length) ws.reverse := by
  induction ws generalizing f sp with
  | nil => trivial
  | cons w ws ih =>
    rw [List.length_cons] at hroom hm ⊢
    have hsp : (sp - 8).toNat = sp.toNat - 8 := toNat_sub_eight (by omega)
    have hrest := @ih (Function.update f (sp - 8) w) (sp - 8) (by omega) (by omega)
      fun a ha hl hr => hm a ha (by omega) (by omega)
    have ha : (sp - 8).toNat - 8 * ws.length = sp.toNat - 8 * (ws.length + 1) := by omega
    rw [ha] at hrest
    have hlen : sp.toNat - 8 * (ws.length + 1) + 8 * ws.reverse.length = (sp - 8).toNat := by
      rw [List.length_reverse]
      omega
    rw [List.reverse_cons, holds_append, hlen]
    refine ⟨hrest, ?_, trivial⟩
    rw [hm (sp - 8) (by omega) (by omega) (by omega), stackWith,
      stackWith_above (Nat.le_refl _) (by omega), Function.update_self]

/-- The top of the new task's stack. -/
def TaskStack.top (k : TaskStack) : Uptr := (k.base + k.size) &&& ~~~0xF

/-- Where the first switch to a new task returns to. -/
def startRip (env : KernelEnv η ω) (desc : TaskDesc) : U64 :=
  if desc.flags &&& TH_TASK_FLAG_KERNEL ≠ 0 then env.kernelmodeTrampoline
  else env.usermodeTrampoline

/-- What the trampoline finds on the stack, the first word on top. -/
def startArgs (desc : TaskDesc) : List U64 :=
  if desc.flags &&& TH_TASK_FLAG_KERNEL ≠ 0 then [desc.entrypoint.fn, desc.entrypoint.arg]
  else
    [if desc.entrypoint.arg = 0 then 0 else USER_STARTUP_BASE, desc.entrypoint.fn, USER_STACK_TOP,
      userSegment 8, userSegment 7]

def startWords (env : KernelEnv η ω) (desc : TaskDesc) : List U64 :=
  startRip env desc :: startArgs desc

/-- The context of a new task. -/
def startContext (env : KernelEnv η ω) (desc : TaskDesc) (kstack : TaskStack) : TaskContext :=
  { rsp := kstack.top - BitVec.ofNat 64 (8 * (startWords env desc).length)
    rbp := 0, rbx := 0, r12 := 0, r13 := 0, r14 := 0, r15 := 0
    rip := startRip env desc, rflags := 0x202 }

theorem startArgs_length_le : (startArgs desc).length ≤ 5 := by
  unfold startArgs
  split
  · exact (show 2 ≤ 5 by decide)
  · exact Nat.le_refl 5

theorem initStartup_result {pmap : PageMap} {arg : Uptr} {v v' : VmmState} {w : U64}
    (h : initStartup ndebug env.pages1gb pmap umem arg v = .ok (w, v')) :
    w = if arg = 0 then 0 else USER_STARTUP_BASE := by
  have hw : wp (initStartup ndebug env.pages1gb pmap umem arg) v fun a _ => a = w :=
    ⟨w, v', h, rfl⟩
  unfold initStartup at hw
  by_cases harg : arg = 0
  · rw [if_pos harg, wp_pure] at hw
    rw [if_pos harg, ← hw]
  · rw [if_neg harg] at hw ⊢
    simp only [wp_bind] at hw
    obtain ⟨_, _, _, hw⟩ := hw
    obtain ⟨_, _, _, hw⟩ := wp_assertIn hw
    exact ((wp_pure _ _ _).mp hw).symm

/-- The context of a new task, and the words it leaves on the stack. -/
theorem initContext_result {pmap : PageMap} {kstack : TaskStack} {c : TaskContext}
    (h : initContext env ndebug umem desc kstack pmap s = .ok (c, s')) :
    c = startContext env desc kstack ∧
      ∃ f, s'.stack = stackWith f kstack.top (startWords env desc).reverse := by
  have hw : wp (initContext env ndebug umem desc kstack pmap) s fun a u => a = c ∧ u = s' :=
    ⟨c, s', h, rfl, rfl⟩
  unfold initContext at hw
  dsimp only at hw
  unfold startContext startWords startRip startArgs
  by_cases hkernel : desc.flags &&& TH_TASK_FLAG_KERNEL ≠ 0
  · rw [if_pos hkernel, wp_bind, wp_of_eq pushWords_eq, wp_pure] at hw
    obtain ⟨rfl, rfl⟩ := hw
    rw [if_pos hkernel, if_pos hkernel]
    exact ⟨rfl, s.stack, rfl⟩
  · rw [if_neg hkernel, wp_bind] at hw
    unfold inInitVmm at hw
    rw [wp_zoom] at hw
    obtain ⟨info, vmm, hinfo, hw⟩ := hw
    rw [wp_bind, wp_of_eq pushWords_eq, wp_pure] at hw
    obtain ⟨rfl, rfl⟩ := hw
    rw [if_neg hkernel, if_neg hkernel, ← initStartup_result hinfo]
    exact ⟨rfl, s.stack, rfl⟩

/-- A run of `task_init` ends with its section of the context. -/
theorem taskInitIn_context (hrun : taskInitIn env ndebug umem self desc s = .ok (t, s')) :
    t.context = startContext env desc t.kstack ∧
      ∃ f, s'.stack = stackWith f t.kstack.top (startWords env desc).reverse := by
  have hw : wp (taskInitIn env ndebug umem self desc) s fun a u => a = t ∧ u = s' :=
    ⟨t, s', hrun, rfl, rfl⟩
  unfold taskInitIn at hw
  rw [wp_bind] at hw
  have hw := wp_assertIn hw
  rw [wp_bind] at hw
  have hw := wp_assertIn hw
  simp only [wp_bind] at hw
  obtain ⟨kstack, s₁, -, ustack, s₂, -, pmap, s₃, -, _, s₄, -, context, s₅, h₅, hw⟩ := hw
  rw [wp_pure] at hw
  obtain ⟨rfl, rfl⟩ := hw
  exact initContext_result h₅

/-! ## 3. The first switch -/

/-- The task area that the record names. -/
def TaskArea.Of (A : TaskArea) (t : TaskRecord) : Prop :=
  A.kstackBase = t.kstack.base.toNat ∧ A.kstackTop = t.kstack.base.toNat + t.kstack.size.toNat

/-- The memory shows the context and the stack of a new task. -/
structure ShowsTask (A : TaskArea) (m : Mem) (t : TaskRecord) (stack : Uptr → U64) : Prop where
  context : Holds m A.context t.context.words
  stack : ∀ a : Uptr, a.toNat % 8 = 0 → A.kstackBase ≤ a.toNat → a.toNat + 8 ≤ A.kstackTop →
    load64 m a.toNat = stack a

/-- The stack of a new task has room for the words, and does not wrap. -/
structure StackFits (k : TaskStack) : Prop where
  room : 80 ≤ k.size.toNat
  fits : k.base.toNat + k.size.toNat < 2 ^ 64

theorem toNat_top {k : TaskStack} (h : StackFits k) :
    k.top.toNat = (k.base.toNat + k.size.toNat) / 16 * 16 := by
  have hfits := h.fits
  have hsum : (k.base + k.size).toNat = k.base.toNat + k.size.toNat := by
    rw [BitVec.toNat_add, Nat.mod_eq_of_lt hfits]
  rw [TaskStack.top, toNat_and_field 4 60 (by decide), hsum]
  omega

/-- **A new task is parked.** -/
theorem parks_new {A : TaskArea} (hrun : taskInitIn env ndebug umem self desc s = .ok (t, s'))
    (hA : A.Of t) (hfits : StackFits t.kstack) (hm : ShowsTask A m t s'.stack) :
    Parks A m ⟨t.context, m⟩ ∧
      Holds m t.context.rsp.toNat (startWords env desc) ∧
      t.context.rsp.toNat + 8 * (startWords env desc).length = t.kstack.top.toNat := by
  obtain ⟨hctx, f, hf⟩ := taskInitIn_context hrun
  obtain ⟨hbase, htop⟩ := hA
  have hargs : (startArgs desc).length ≤ 5 := startArgs_length_le
  have hlen : (startWords env desc).length = (startArgs desc).length + 1 := rfl
  have hroom := hfits.room
  have htopNat := toNat_top hfits
  have hrsp : t.context.rsp.toNat = t.kstack.top.toNat - 8 * (startWords env desc).length := by
    have hlt := t.kstack.top.isLt
    rw [hctx]
    simp only [startContext, BitVec.toNat_sub, BitVec.toNat_ofNat]
    omega
  have hwords : Holds m t.context.rsp.toNat (startWords env desc) := by
    have hstack := @holds_stackWith m f t.kstack.top (startWords env desc).reverse
      (by rw [List.length_reverse]; omega) (by omega)
      fun a ha hl hr => by
        rw [List.length_reverse] at hl
        rw [hm.stack a ha (by omega) (by omega), hf]
    rw [List.reverse_reverse, List.length_reverse, ← hrsp] at hstack
    exact hstack
  have hrip : load64 m t.context.rsp.toNat = t.context.rip := by
    rw [hwords.1, hctx]
    rfl
  refine ⟨⟨hm.context, ⟨?_, ?_⟩, hrip, fun _ _ _ => rfl⟩, hwords, ?_⟩
  · dsimp only
    omega
  · dsimp only
    omega
  · omega

variable {ι : Type} [DecidableEq ι] {area : ι → TaskArea} {callee : Callee → Cpu → Cpu}
  {c c₀ c₂ c₃ : Switching ι} {u : ι}

/-- The tasks once the new one is there. -/
def withTask (c : Switching ι) (u : ι) (t : TaskRecord) : Switching ι :=
  { c with parked := Function.update c.parked u (some ⟨t.context, c.cpu.mem⟩) }

/-- The new task is made while a CPU runs: the memory shows it, and its areas are its own. -/
structure NewTaskIn (area : ι → TaskArea) (c : Switching ι) (u : ι) (t : TaskRecord)
    (stack : Uptr → U64) : Prop where
  free : c.parked u = none
  ne : u ≠ c.running
  place : (area u).Of t
  fits : StackFits t.kstack
  shows : ShowsTask (area u) c.cpu.mem t stack

/-- What the first switch to a new task leaves to the trampoline. -/
structure FirstRun (env : KernelEnv η ω) (desc : TaskDesc) (t : TaskRecord) (cpu : Cpu) : Prop where
  rip : cpu.rip = startRip env desc
  args : Holds cpu.mem (cpu.reg .rsp).toNat (startArgs desc)
  top : (cpu.reg .rsp).toNat + 8 * (startArgs desc).length = t.kstack.top.toNat

/-- Once the new task is there, all tasks are parked as they should be. -/
theorem withTask_parked (hrun : taskInitIn env ndebug umem self desc s = .ok (t, s'))
    (hareas : AreasOk area) (h₀ : ∀ v, c₀.parked v = none)
    (hbefore : SwitchRun callee area (fun _ => True) c₀ c)
    (hmade : NewTaskIn area c u t s'.stack) : AllParked area (withTask c u t) := by
  obtain ⟨hparks, -⟩ := parks_new hrun hmade.place hmade.fits hmade.shows
  have hall := parks_run hareas ⟨h₀ _, fun v q hv => by rw [h₀ v] at hv; cases hv⟩ hbefore
  have hstep : SwitchStep callee area c (.made u) (withTask c u t) :=
    .made u _ hmade.free hmade.ne hparks
  exact parks_step hareas hall hstep

theorem first_run (hrun : taskInitIn env ndebug umem self desc s = .ok (t, s'))
    (hareas : AreasOk area) (h₀ : ∀ v, c₀.parked v = none)
    (hbefore : SwitchRun callee area (fun _ => True) c₀ c) (hmade : NewTaskIn area c u t s'.stack)
    (haway : SwitchRun callee area (fun e => e ≠ .switch u ∧ e ≠ .freed u) (withTask c u t) c₂)
    (hfirst : SwitchStep callee area c₂ (.switch u) c₃) : FirstRun env desc t c₃.cpu := by
  obtain ⟨-, hwords, hlen⟩ := parks_new hrun hmade.place hmade.fits hmade.shows
  have hall₁ := withTask_parked hrun hareas h₀ hbefore hmade
  have hres := parked_resumes hareas hall₁ (Function.update_self ..) haway hfirst
  have hlen' : (startWords env desc).length = (startArgs desc).length + 1 := rfl
  have hlt := t.kstack.top.isLt
  have hrsp : (c₃.cpu.reg .rsp).toNat = t.context.rsp.toNat + 8 := by
    rw [hres.rsp]
    exact toNat_field (d := 8) (by dsimp only; omega)
  have htop : t.kstack.top.toNat ≤ (area u).kstackTop := by
    have := toNat_top hmade.fits
    have := hmade.place.2
    omega
  refine ⟨?_, ?_, by omega⟩
  · rw [hres.rip, (taskInitIn_context hrun).1]
    rfl
  · rw [hrsp]
    exact holds_congr hwords.2 fun x hl hr => hres.stack x hl (by omega)

/-- Where a new user task starts. -/
def userEntry (desc : TaskDesc) : UserEntry :=
  { info := if desc.entrypoint.arg = 0 then 0 else USER_STARTUP_BASE
    rip := desc.entrypoint.fn, rsp := USER_STACK_TOP, cs := userSegment 8, ss := userSegment 7 }

/-- The task stands in the trampoline, on its kernel stack, where the words of its entry are all that
    is left. -/
structure InTrampoline (env : KernelEnv η ω) (desc : TaskDesc) (A : TaskArea) (t : TaskRecord)
    (cpu : Cpu) : Prop where
  rip : cpu.rip = env.usermodeTrampoline
  base : A.kstackBase ≤ (cpu.reg .rsp).toNat
  top : (cpu.reg .rsp).toNat + 8 * (userEntry desc).words.length = t.kstack.top.toNat
  stop : t.kstack.top.toNat ≤ A.kstackTop
  words : Holds cpu.mem (cpu.reg .rsp).toNat (userEntry desc).words

/-- **A user task starts at its entry point.** `task_init` leaves it parked, and it stays so whatever
    tasks are made, run, switch and end; the first switch to it leads to the trampoline on its own
    kernel stack, and this to its entry point in user mode, on its user stack, with its startup data
    as the argument and nothing of the kernel's in its registers. -/
theorem user_task_starts (hrun : taskInitIn env ndebug umem self desc s = .ok (t, s'))
    (huser : desc.flags &&& TH_TASK_FLAG_KERNEL = 0) (hareas : AreasOk area)
    (h₀ : ∀ v, c₀.parked v = none) (hbefore : SwitchRun callee area (fun _ => True) c₀ c)
    (hmade : NewTaskIn area c u t s'.stack)
    (haway : SwitchRun callee area (fun e => e ≠ .switch u ∧ e ≠ .freed u) (withTask c u t) c₂)
    (hfirst : SwitchStep callee area c₂ (.switch u) c₃) :
    Parks (area u) c.cpu.mem ⟨t.context, c.cpu.mem⟩ ∧
      c₂.parked u = some ⟨t.context, c.cpu.mem⟩ ∧
      Parks (area u) c₂.cpu.mem ⟨t.context, c.cpu.mem⟩ ∧
      InTrampoline env desc (area u) t c₃.cpu ∧
      AtEntry (userEntry desc) c₃.cpu (exec callee taskUsermodeTrampoline c₃.cpu) := by
  have hall := withTask_parked hrun hareas h₀ hbefore hmade
  have hparked : (withTask c u t).parked u = some ⟨t.context, c.cpu.mem⟩ := Function.update_self ..
  have hstill := parked_run hareas hall hparked haway
  have hfr := first_run hrun hareas h₀ hbefore hmade haway hfirst
  have hargs : startArgs desc = (userEntry desc).words := if_neg (not_not.mpr huser)
  have hlen : (userEntry desc).words.length = 5 := rfl
  have htop := hfr.top
  have hwords := hfr.args
  rw [hargs] at htop hwords
  have hlt := t.kstack.top.isLt
  have hplace := hmade.place
  have hroom := hmade.fits.room
  have hround := toNat_top hmade.fits
  unfold TaskArea.Of at hplace
  refine ⟨hall.parks u _ hparked, hstill, (parks_run hareas hall haway).parks u _ hstill,
    ⟨hfr.rip.trans (if_neg (not_not.mpr huser)), by omega, htop, by omega, hwords⟩,
    exec_usermodeTrampoline hwords (by omega)⟩

/-- **A kernel task starts with a call of its function**, with its argument, on a stack aligned as a
    call wants it; when the function returns the task ends. -/
theorem kernel_task_starts (hrun : taskInitIn env ndebug umem self desc s = .ok (t, s'))
    (hkernel : desc.flags &&& TH_TASK_FLAG_KERNEL ≠ 0) (hareas : AreasOk area)
    (h₀ : ∀ v, c₀.parked v = none) (hbefore : SwitchRun callee area (fun _ => True) c₀ c)
    (hmade : NewTaskIn area c u t s'.stack)
    (haway : SwitchRun callee area (fun e => e ≠ .switch u ∧ e ≠ .freed u) (withTask c u t) c₂)
    (hfirst : SwitchStep callee area c₂ (.switch u) c₃) :
    c₃.cpu.rip = env.kernelmodeTrampoline ∧
      ∃ k : Cpu, k.reg .rdi = desc.entrypoint.arg ∧ (k.reg .rsp).toNat = t.kstack.top.toNat ∧
        t.kstack.top.toNat % 16 = 0 ∧
        exec callee taskKernelmodeTrampoline c₃.cpu = callee (.symbol "task_exit")
          (step callee (.xor .rdi .rdi) (callee (.addr desc.entrypoint.fn) k)) := by
  have hfr := first_run hrun hareas h₀ hbefore hmade haway hfirst
  have hargs : startArgs desc = [desc.entrypoint.fn, desc.entrypoint.arg] := if_pos hkernel
  have hlen : (startArgs desc).length = 2 := by
    rw [hargs]
    rfl
  have htop := hfr.top
  have hlt := t.kstack.top.isLt
  have hwords := hfr.args
  rw [hargs] at hwords
  obtain ⟨k, hdi, hsp, -, hexec⟩ := exec_kernelmodeTrampoline callee hwords (by omega)
  refine ⟨hfr.rip.trans (if_pos hkernel), k, hdi, ?_, ?_, hexec⟩
  · rw [hsp]
    exact (toNat_field (d := 16) (by omega)).trans (by omega)
  · rw [toNat_top hmade.fits]
    exact Nat.mul_mod_left ..

end Words

/-! A user task made and switched to, while the first task runs. -/

/-- The memory that shows the words of a stack. -/
def memOf (stack : Uptr → U64) : Mem :=
  fun x => (stack (BitVec.ofNat 64 (x / 8 * 8))).extractLsb' (8 * (x % 8)) 8

theorem load64_memOf {stack : Uptr → U64} {a : Uptr} (ha : a.toNat % 8 = 0) :
    load64 (memOf stack) a.toNat = stack a := by
  refine load64_of_bytes fun k hk => ?_
  have hdiv : (a.toNat + k) / 8 * 8 = a.toNat := by omega
  have hmod : (a.toNat + k) % 8 = k := by omega
  rw [memOf, hdiv, hmod, BitVec.ofNat_toNat, BitVec.setWidth_eq]

/-- The memory that shows a new task. -/
def newTaskMem (A : TaskArea) (t : TaskRecord) (stack : Uptr → U64) : Mem :=
  stored (memOf stack) A.context t.context.words

theorem shows_newTaskMem {A : TaskArea} {t : TaskRecord} {stack : Uptr → U64}
    (hA : A.context + SIZEOF_CONTEXT ≤ A.kstackBase) :
    ShowsTask A (newTaskMem A t stack) t stack where
  context := holds_stored
  stack := fun a ha hl hr => by
    refine (load64_sameOff sameOff_stored fun k hk hx => ?_).trans (load64_memOf ha)
    have hlen : 8 * t.context.words.length = SIZEOF_CONTEXT := rfl
    omega

def userTaskDesc : TaskDesc :=
  { taskId := 2, kstackSize := 0x4000, ustackSize := 16, entrypoint := ⟨0x400000, 0⟩
    pin := ⟨false, 0⟩, flags := 0, uid := 0, gid := 0 }

theorem returns_user (ndebug : Bool) : ∃ t s,
    taskInitIn smallKernel ndebug (fun _ => 0) 0x5000 userTaskDesc smallStart = .ok (t, s) ∧
      t.kstack = ⟨0x40100000, 0x40100000, 0x4000⟩ := by
  have hkstack : initKstack smallKernel ndebug userTaskDesc smallStart =
      .ok (⟨0x40100000, 0x40100000, 0x4000⟩, smallStart) := by
    cases ndebug
    · rfl
    · rfl
  have hustack : ∃ u, u.size = 16 ∧
      initUstack smallKernel ndebug userTaskDesc smallStart = .ok (u, smallStart) := by
    cases ndebug
    · exact ⟨_, rfl, rfl⟩
    · exact ⟨_, rfl, rfl⟩
  have hpmap : ∃ p,
      allocate smallKernel ndebug SIZEOF_PAGE_MAP smallStart = .ok (p, smallStart) := by
    cases ndebug
    · exact ⟨_, rfl⟩
    · exact ⟨_, rfl⟩
  obtain ⟨u, hsize, hu⟩ := hustack
  obtain ⟨p, hp⟩ := hpmap
  have hw : wp (taskInitIn smallKernel ndebug (fun _ => 0) 0x5000 userTaskDesc) smallStart
      fun t _ => t.kstack = ⟨0x40100000, 0x40100000, 0x4000⟩ := by
    unfold taskInitIn
    rw [wp_bind, wp_assertIn_of (by decide), wp_bind, wp_assertIn_of (by decide), wp_bind,
      wp_of_eq hkstack, wp_bind, wp_of_eq hu, wp_bind]
    unfold initMemory inInitVmm
    rw [wp_bind, wp_of_eq hp, wp_bind, wp_zoom]
    refine wp_mono (returns_makePageMap (List.cons_ne_nil _ _)) fun pmap m _ => ?_
    rw [if_pos (by decide), wp_bind, wp_zoom]
    unfold mapUstack
    rw [hsize]
    have hpages : (16 / MM_VIRT_PAGE_SIZE).toNat = 0 := by decide
    rw [hpages]
    refine wp_mono (wp_forUp (fun _ _ => True) trivial
      fun i t hi _ => absurd hi (Nat.not_lt_zero i)) fun _ m' _ => ?_
    rw [wp_pure, wp_bind]
    obtain ⟨s₁, h₁⟩ := returns_capabilities ndebug { smallStart with vmm := m' }
    rw [wp_of_eq h₁]
    exact ⟨_, _, rfl, rfl⟩
  obtain ⟨t, s, hrun, hk⟩ := hw
  exact ⟨t, s, hrun, hk⟩

def startAreas : Bool → TaskArea
  | false => ⟨0x1000, 0x2000, 0x3000⟩
  | true => ⟨0x4000, 0x40100000, 0x40104000⟩

theorem startAreas_ok : AreasOk startAreas where
  room := fun t => by cases t <;> decide
  own := fun t x h h' => by
    cases t <;>
      simp only [startAreas, TaskArea.InContext, TaskArea.InStack, SIZEOF_CONTEXT] at h h' <;> omega
  apart := fun t u x hne h h' => by
    cases t <;> cases u <;>
      simp only [startAreas, TaskArea.Has, TaskArea.InContext, TaskArea.InStack, SIZEOF_CONTEXT,
        ne_eq, not_true_eq_false] at hne h h' <;> omega

/-- The first task works, and switches to the new one. -/
theorem user_task_starts_first : ∃ (t : TaskRecord) (m : Mem) (cpu : Cpu),
    Parks (startAreas true) m ⟨t.context, m⟩ ∧ cpu.rip = 0x8000 ∧
      (cpu.reg .rsp).toNat + 40 = 0x40104000 ∧
      AtEntry (userEntry userTaskDesc) cpu (exec (fun _ s => s) taskUsermodeTrampoline cpu) := by
  let callee : Callee → Cpu → Cpu := fun _ s => s
  obtain ⟨t, s, hrun, hk⟩ := returns_user false
  let cpu : Cpu := { firstCaller with mem := newTaskMem (startAreas true) t s.stack }
  let c : Switching Bool := ⟨cpu, false, fun _ => none⟩
  have hmade : NewTaskIn startAreas c true t s.stack := {
    free := rfl
    ne := show true ≠ false by decide
    place := by
      rw [TaskArea.Of, hk]
      decide
    fits := by
      rw [hk]
      exact ⟨by decide, by decide⟩
    shows := shows_newTaskMem (by decide) }
  let worked : Cpu := { cpu with reg := Function.update cpu.reg .r8 7 }
  have hwork : SwitchStep callee startAreas (withTask c true t) .work
      { withTask c true t with cpu := worked } := .work worked fun _ _ _ _ _ => rfl
  have haway := SwitchRun.step (P := fun e => e ≠ .switch true ∧ e ≠ .freed true) .nil
    ⟨by decide, by decide⟩ hwork
  have htop : (startAreas false).TopAt (firstCaller.reg .rsp) := ⟨by decide, by decide⟩
  have hcan : CanSwitch startAreas { withTask c true t with cpu := worked } true
      ⟨t.context, c.cpu.mem⟩ :=
    ⟨show false ≠ true by decide, by simp only [withTask, Function.update_self], rfl, rfl, htop⟩
  have hfirst : SwitchStep callee startAreas { withTask c true t with cpu := worked }
      (.switch true) _ := .switch true ⟨t.context, c.cpu.mem⟩ hcan
  obtain ⟨hparks, -, -, htramp, hentry⟩ :=
    user_task_starts hrun (by decide) startAreas_ok (fun _ => rfl) .nil hmade haway hfirst
  have hktop : t.kstack.top.toNat = 0x40104000 := by
    rw [hk]
    decide
  exact ⟨t, _, _, hparks, htramp.rip, htramp.top.trans hktop, hentry⟩

end Slightx
