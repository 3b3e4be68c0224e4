/-
  File:      Slightx/Proc/TaskSwitch.lean
  Subject:   Switching from one task to another.

  Source: proc/task-switch.asm, as scheduler_yield calls it (proc/scheduler/controller.c).

  The code keeps the callee-saved registers of the old task in its `context`, reads those of the
  new one and returns on the new stack. A CPU runs one task after the other; what a task that is
  parked will go on with is a record beside the machine, and the theorem is that the memory never
  loses it:

  * `switched_exec` -- one execution of the code
  * `parks_run` -- the parked tasks in any run of switches and of work between them
  * **`switch_returns`** -- for the task that calls it, a switch is a call that keeps the
    callee-saved registers and the stack, however many tasks ran before it returns
-/
import Slightx.Lib.X86
import Slightx.Proc.TaskInit

namespace Slightx

open Lib Lib.X86

/-! ## 1. The code -/

def taskContextSwitch : List Instr :=
  [.store .rdi 0 .rsp, .store .rdi 8 .rbp, .store .rdi 16 .rbx, .store .rdi 24 .r12,
    .store .rdi 32 .r13, .store .rdi 40 .r14, .store .rdi 48 .r15,
    .load .rax .rsp 0, .store .rdi 56 .rax,
    .pushfq, .pop .rax, .store .rdi 64 .rax,
    .load .rsp .rsi 0, .load .rbp .rsi 8, .load .rbx .rsi 16, .load .r12 .rsi 24,
    .load .r13 .rsi 32, .load .r14 .rsi 40, .load .r15 .rsi 48,
    .load .rax .rsi 64, .push .rax, .popfq, .ret]

/-- The registers of `task_context`, in the order of its fields. -/
def CONTEXT_REGS : List Reg := [.rsp, .rbp, .rbx, .r12, .r13, .r14, .r15]

def TaskContext.reg (c : TaskContext) : Reg → Word
  | .rsp => c.rsp
  | .rbp => c.rbp
  | .rbx => c.rbx
  | .r12 => c.r12
  | .r13 => c.r13
  | .r14 => c.r14
  | .r15 => c.r15
  | _ => 0

/-- `task_context` as it stands in memory. -/
def TaskContext.words (c : TaskContext) : List Word := CONTEXT_REGS.map c.reg ++ [c.rip, c.rflags]

def SIZEOF_CONTEXT : Nat := 72

/-- What the code keeps of the task that calls it: `rip` is its return address. -/
def contextOf (s : Cpu) : TaskContext :=
  { rsp := s.reg .rsp, rbp := s.reg .rbp, rbx := s.reg .rbx, r12 := s.reg .r12, r13 := s.reg .r13,
    r14 := s.reg .r14, r15 := s.reg .r15, rip := s.top, rflags := s.rflags }

/-! ## 2. One switch -/

/-- The bytes of a task: its `context` and its kernel stack. -/
structure TaskArea where
  context : Nat
  kstackBase : Nat
  kstackTop : Nat

def TaskArea.InContext (A : TaskArea) (x : Nat) : Prop :=
  A.context ≤ x ∧ x < A.context + SIZEOF_CONTEXT

def TaskArea.InStack (A : TaskArea) (x : Nat) : Prop := A.kstackBase ≤ x ∧ x < A.kstackTop

def TaskArea.Has (A : TaskArea) (x : Nat) : Prop := A.InContext x ∨ A.InStack x

/-- The top of the stack is `sp`, with a word on it and room for another one. -/
def TaskArea.TopAt (A : TaskArea) (sp : Word) : Prop :=
  A.kstackBase + 8 ≤ sp.toNat ∧ sp.toNat + 8 ≤ A.kstackTop

/-- The areas are inside the address space, and no two share a byte. -/
structure AreasOk {ι : Type} (area : ι → TaskArea) : Prop where
  room : ∀ t, (area t).context + SIZEOF_CONTEXT < 2 ^ 64 ∧ (area t).kstackTop < 2 ^ 64
  own : ∀ t x, (area t).InContext x → ¬ (area t).InStack x
  apart : ∀ t u x, t ≠ u → (area t).Has x → ¬ (area u).Has x

/-- What a parked task goes on with: its registers, and its stack from `context.rsp` on. -/
structure Parked where
  context : TaskContext
  stack : Mem

/-- The memory holds what the task goes on with. -/
structure Parks (A : TaskArea) (m : Mem) (p : Parked) : Prop where
  context : Holds m A.context p.context.words
  top : A.TopAt p.context.rsp
  rip : load64 m p.context.rsp.toNat = p.context.rip
  stack : ∀ x, p.context.rsp.toNat ≤ x → x < A.kstackTop → m x = p.stack x

/-- The CPU goes on with the task: its return address is taken off the stack. -/
structure Resumes (A : TaskArea) (p : Parked) (s : Cpu) : Prop where
  reg : ∀ r ∈ CONTEXT_REGS, r ≠ .rsp → s.reg r = p.context.reg r
  rsp : s.reg .rsp = p.context.rsp + 8
  rip : s.rip = p.context.rip
  rflags : s.rflags = p.context.rflags
  stack : ∀ x, p.context.rsp.toNat + 8 ≤ x → x < A.kstackTop → s.mem x = p.stack x

/-- The words the code writes: the old context, and one word below each of the two tops. -/
def Touches (A : TaskArea) (old new : Word) (x : Nat) : Prop :=
  A.InContext x ∨ (old.toNat - 8 ≤ x ∧ x < old.toNat) ∨ (new.toNat - 8 ≤ x ∧ x < new.toNat)

/-- The code ran on `s`, from the task at `A` to the one at `B`. -/
structure Switched (A B : TaskArea) (p : Parked) (s s' : Cpu) : Prop where
  resumes : Resumes B p s'
  gs : s'.gsBase = s.gsBase ∧ s'.kernelGsBase = s.kernelGsBase
  keeps : Holds s'.mem A.context (contextOf s).words
  same : SameOff (Touches A (s.reg .rsp) p.context.rsp) s.mem s'.mem

section Exec

variable {ι : Type} {area : ι → TaskArea} {callee : Callee → Cpu → Cpu} {s : Cpu} {p : Parked}
  {t u : ι} {w w' : Word}

theorem taskContextSwitch_eq : taskContextSwitch =
    saves .rdi 0 CONTEXT_REGS ++ (.load .rax .rsp 0 :: .store .rdi 56 .rax :: .pushfq ::
      .pop .rax :: .store .rdi 64 .rax :: (restores .rsi 0 CONTEXT_REGS ++
        [.load .rax .rsi 64, .push .rax, .popfq, .ret])) := rfl

theorem not_inContext (hareas : AreasOk area) (hsp : (area t).TopAt w) {x : Nat}
    (hl : w.toNat - 8 ≤ x) (hr : x < w.toNat + 8) : ¬ (area t).InContext x := by
  obtain ⟨hb, ht⟩ := hsp
  exact fun h => hareas.own t x h ⟨by omega, by omega⟩

/-- The code does not touch the other task's context, nor the stack it goes on with. -/
theorem not_touches (hareas : AreasOk area) (hne : t ≠ u) (hold : (area t).TopAt w)
    (hnew : (area u).TopAt w') {x : Nat}
    (hx : (area u).InContext x ∨ (w'.toNat ≤ x ∧ (area u).InStack x)) :
    ¬ Touches (area t) w w' x := by
  obtain ⟨hb, ht⟩ := hold
  obtain ⟨hb', ht'⟩ := hnew
  have hu : (area u).Has x := hx.imp id And.right
  rintro (h | ⟨hl, hr⟩ | ⟨hl, hr⟩)
  · exact hareas.apart t u x hne (.inl h) hu
  · exact hareas.apart t u x hne (.inr ⟨by omega, by omega⟩) hu
  · rcases hx with hx | hx
    · exact hareas.own u x hx ⟨by omega, by omega⟩
    · omega

/-- The memory once the old task is kept. -/
def savedMem (A : TaskArea) (s : Cpu) : Mem :=
  let m := store64 (stored s.mem A.context (CONTEXT_REGS.map s.reg)) (A.context + 56) s.top
  store64 (store64 m (s.reg .rsp - 8).toNat s.rflags) (A.context + 64) s.rflags

theorem sameOff_savedMem (htop : (area t).TopAt (s.reg .rsp)) :
    SameOff (Touches (area t) (s.reg .rsp) w) s.mem (savedMem (area t) s) := by
  have hsp : (s.reg .rsp - 8).toNat = (s.reg .rsp).toNat - 8 := toNat_sub_eight (by
    have := htop.1
    omega)
  have hctx : ∀ x, (area t).context ≤ x → x < (area t).context + 72 →
      Touches (area t) (s.reg .rsp) w x := fun x hl hr => .inl ⟨hl, hr⟩
  refine sameOff_trans (sameOff_trans (sameOff_trans
    (sameOff_mono sameOff_stored fun x hx => hctx x hx.1 ?_)
    (sameOff_store64 fun x hl hr => hctx x (by omega) (by omega)))
    (sameOff_store64 fun x hl hr => .inr (.inl ⟨?_, ?_⟩)))
    (sameOff_store64 fun x hl hr => hctx x (by omega) (by omega))
  · exact Nat.lt_of_lt_of_le hx.2 (Nat.add_le_add_left (show 8 * 7 ≤ 72 by decide) _)
  · omega
  · have := htop.1
    omega

/-- **The old task is kept**: the flags pushed are not pushed into its context. -/
theorem holds_savedMem (hareas : AreasOk area) (htop : (area t).TopAt (s.reg .rsp)) :
    Holds (savedMem (area t) s) (area t).context (contextOf s).words := by
  let a := (area t).context
  let regs := CONTEXT_REGS.map s.reg
  have hsp : (s.reg .rsp - 8).toNat = (s.reg .rsp).toNat - 8 := toNat_sub_eight (by
    have := htop.1
    omega)
  have hside : (s.reg .rsp - 8).toNat + 8 ≤ a ∨ a + 72 ≤ (s.reg .rsp - 8).toNat := by
    have h₁ := not_inContext hareas htop (x := a)
    have h₂ := not_inContext hareas htop (x := (s.reg .rsp).toNat - 8) (by omega) (by omega)
    simp only [TaskArea.InContext, SIZEOF_CONTEXT] at h₁ h₂
    have := htop.1
    omega
  have hrip : Holds (store64 (stored s.mem a regs) (a + 56) s.top) a (regs ++ [s.top]) :=
    holds_append.mpr
      ⟨holds_store holds_stored (.inr (Nat.le_refl _)), load64_store64_same .., trivial⟩
  have hflags : Holds (store64 (store64 (stored s.mem a regs) (a + 56) s.top)
      (s.reg .rsp - 8).toNat s.rflags) a (regs ++ [s.top]) := by
    refine holds_store hrip (hside.imp id fun h => Nat.le_trans ?_ h)
    exact Nat.add_le_add_left (show 8 * 8 ≤ 72 by decide) a
  have hall : Holds (savedMem (area t) s) a ((regs ++ [s.top]) ++ [s.rflags]) :=
    holds_append.mpr ⟨holds_store hflags (.inr (Nat.le_refl _)), load64_store64_same .., trivial⟩
  exact hall

/-- The first half of the code, which keeps the old task. -/
theorem exec_saved (hareas : AreasOk area) (hdi : (s.reg .rdi).toNat = (area t).context)
    (htop : (area t).TopAt (s.reg .rsp)) :
    exec callee taskContextSwitch s = exec callee
      (restores .rsi 0 CONTEXT_REGS ++ [.load .rax .rsi 64, .push .rax, .popfq, .ret])
      { s with reg := Function.update s.reg .rax s.rflags, mem := savedMem (area t) s } := by
  have hroom := (hareas.room t).1
  rw [SIZEOF_CONTEXT] at hroom
  have h56 : (s.reg .rdi + 56).toNat = (area t).context + 56 :=
    (toNat_field (d := 56) (by omega)).trans (congrArg (· + 56) hdi)
  have h64 : (s.reg .rdi + 64).toNat = (area t).context + 64 :=
    (toNat_field (d := 64) (by omega)).trans (congrArg (· + 64) hdi)
  have hroom' : (s.reg .rdi).toNat + 0 + 8 * CONTEXT_REGS.length < 2 ^ 64 := by
    have : CONTEXT_REGS.length = 7 := rfl
    omega
  have htop₁ : load64 (stored s.mem (area t).context (CONTEXT_REGS.map s.reg)) (s.reg .rsp).toNat =
      s.top :=
    load64_sameOff sameOff_stored fun k hk hx =>
      not_inContext hareas htop (x := (s.reg .rsp).toNat + k) (by omega) (by omega)
        ⟨hx.1, Nat.lt_of_lt_of_le hx.2 (Nat.add_le_add_left (show 8 * 7 ≤ 72 by decide) _)⟩
  rw [taskContextSwitch_eq, exec_saves hroom', hdi, Nat.add_zero]
  iterate 5 rw [exec_cons rfl]
  congr 1
  have hzero : s.reg .rsp + 0 = s.reg .rsp := BitVec.add_zero _
  have hrax : Reg.rsp ≠ .rax := by decide
  have hrdi : Reg.rdi ≠ .rax ∧ Reg.rdi ≠ .rsp := by decide
  simp only [step, Cpu.set, Cpu.push, Cpu.top, Function.update_self, Function.update_of_ne hrax,
    Function.update_of_ne hrdi.1, Function.update_of_ne hrdi.2, hzero, htop₁, h56, h64,
    load64_store64_same, BitVec.sub_add_cancel, savedMem]
  congr 1
  funext r
  by_cases hr : r = .rax
  · subst hr
    rw [Function.update_self, Function.update_self]
  by_cases hr' : r = .rsp
  · subst hr'
    rw [Function.update_of_ne hr, Function.update_self, Function.update_of_ne hr]
  · simp only [Function.update_of_ne hr, Function.update_of_ne hr']

/-- The second half, which goes on with the new task. -/
theorem exec_resumed (hareas : AreasOk area) (hsi : (s.reg .rsi).toNat = (area u).context)
    (hctx : Holds s.mem (area u).context p.context.words) :
    exec callee (restores .rsi 0 CONTEXT_REGS ++ [.load .rax .rsi 64, .push .rax, .popfq, .ret]) s =
      { s with
        reg := Function.update (Function.update
          (fun r => if r ∈ CONTEXT_REGS then p.context.reg r else s.reg r) .rax p.context.rflags)
          .rsp (p.context.rsp + 8)
        rflags := p.context.rflags
        rip := load64 (store64 s.mem (p.context.rsp - 8).toNat p.context.rflags) p.context.rsp.toNat
        mem := store64 s.mem (p.context.rsp - 8).toNat p.context.rflags } := by
  have hroom := (hareas.room u).1
  rw [SIZEOF_CONTEXT] at hroom
  have h64 : (s.reg .rsi + 64).toNat = (area u).context + 64 :=
    (toNat_field (d := 64) (by omega)).trans (congrArg (· + 64) hsi)
  have hrflags : load64 s.mem ((area u).context + 64) = p.context.rflags :=
    holds_get (i := 8) hctx (show 8 < 9 by decide)
  have hroom' : (s.reg .rsi).toNat + 0 + 8 * CONTEXT_REGS.length < 2 ^ 64 := by
    have : CONTEXT_REGS.length = 7 := rfl
    omega
  have hregs : Holds s.mem ((s.reg .rsi).toNat + 0) (CONTEXT_REGS.map p.context.reg) := by
    rw [hsi]
    exact (holds_append.mp hctx).1
  have hsi' : Reg.rsi ∉ CONTEXT_REGS := by decide
  have hsp : Reg.rsp ∈ CONTEXT_REGS := by decide
  have hrax : Reg.rsp ≠ .rax := by decide
  have hrsp : p.context.reg .rsp = p.context.rsp := rfl
  rw [exec_restores hregs hsi' hroom']
  iterate 4 rw [exec_cons rfl]
  rw [exec_nil]
  simp only [step, Cpu.set, Cpu.push, Cpu.top, if_neg hsi', if_pos hsp, h64, hrflags, hrsp,
    Function.update_self, Function.update_of_ne hrax, Function.update_idem, load64_store64_same,
    BitVec.sub_add_cancel]

variable (callee) in
/-- **One execution of `task_context_switch`.** -/
theorem switched_exec (hareas : AreasOk area) (hne : t ≠ u)
    (hdi : (s.reg .rdi).toNat = (area t).context) (hsi : (s.reg .rsi).toNat = (area u).context)
    (htop : (area t).TopAt (s.reg .rsp)) (hp : Parks (area u) s.mem p) :
    Switched (area t) (area u) p s (exec callee taskContextSwitch s) := by
  have hsaved := sameOff_savedMem (w := p.context.rsp) htop
  have hquiet : ∀ x, (area u).InContext x ∨ (p.context.rsp.toNat ≤ x ∧ (area u).InStack x) →
      savedMem (area t) s x = s.mem x :=
    fun x hx => hsaved x (not_touches hareas hne htop hp.top hx)
  have hctx : Holds (savedMem (area t) s) (area u).context p.context.words :=
    holds_congr hp.context fun x hl hr => hquiet x (.inl ⟨hl, hr⟩)
  obtain ⟨hbase, htop'⟩ := hp.top
  have hnew : (p.context.rsp - 8).toNat = p.context.rsp.toNat - 8 := toNat_sub_eight (by omega)
  have hbelow : SameOff (fun x => p.context.rsp.toNat - 8 ≤ x ∧ x < p.context.rsp.toNat)
      (savedMem (area t) s)
      (store64 (savedMem (area t) s) (p.context.rsp - 8).toNat p.context.rflags) :=
    sameOff_store64 fun x hl hr => ⟨by omega, by omega⟩
  have hstack : ∀ x, p.context.rsp.toNat ≤ x → x < (area u).kstackTop →
      store64 (savedMem (area t) s) (p.context.rsp - 8).toNat p.context.rflags x = s.mem x := by
    intro x hl hr
    rw [hbelow x (by omega)]
    exact hquiet x (.inr ⟨hl, by omega, hr⟩)
  have hrsi : Function.update s.reg .rax s.rflags .rsi = s.reg .rsi :=
    Function.update_of_ne (by decide) ..
  let kept : Cpu :=
    { s with reg := Function.update s.reg .rax s.rflags, mem := savedMem (area t) s }
  have hexec : exec callee taskContextSwitch s = _ :=
    (exec_saved hareas hdi htop).trans
      (exec_resumed (s := kept) hareas ((congrArg BitVec.toNat hrsi).trans hsi) hctx)
  rw [hexec]
  refine ⟨⟨fun r hr hsp => ?_, ?_, ?_, rfl, fun x hl hr => ?_⟩, ⟨rfl, rfl⟩, ?_, ?_⟩
  · have hrax : r ≠ .rax := ne_of_mem_of_not_mem hr (by decide)
    simp only [Function.update_of_ne hsp, Function.update_of_ne hrax, if_pos hr]
  · simp only [Function.update_self]
  · refine Eq.trans (load64_congr fun k hk => ?_) hp.rip
    exact hstack _ (by omega) (by omega)
  · exact (hstack x (by omega) hr).trans (hp.stack x (by omega) hr)
  · refine holds_sameOff (holds_savedMem hareas htop) hbelow fun x hl hr hx => ?_
    exact hareas.apart t u x hne (.inl ⟨hl, hr⟩) (.inr ⟨by omega, by omega⟩)
  · exact sameOff_trans hsaved (sameOff_mono hbelow fun x hx => .inr (.inr hx))

end Exec

/-! ## 3. The tasks of one CPU -/

/-- A CPU, the task that runs on it, and what the others go on with. -/
structure Switching (ι : Type) where
  cpu : Cpu
  running : ι
  parked : ι → Option Parked

inductive SwitchEvent (ι : Type) where
  | work
  | made (u : ι)
  | freed (u : ι)
  | switch (u : ι)
  deriving DecidableEq

def parkedNow (s : Cpu) : Parked := ⟨contextOf s, s.mem⟩

/-- `scheduler_yield` is about to call `task_context_switch` for another task. -/
structure CanSwitch {ι : Type} (area : ι → TaskArea) (s : Switching ι) (u : ι) (p : Parked) :
    Prop where
  ne : s.running ≠ u
  parked : s.parked u = some p
  prev : (s.cpu.reg .rdi).toNat = (area s.running).context
  next : (s.cpu.reg .rsi).toNat = (area u).context
  top : (area s.running).TopAt (s.cpu.reg .rsp)

/-- The memory holds what the parked tasks go on with. -/
structure AllParked {ι : Type} (area : ι → TaskArea) (s : Switching ι) : Prop where
  running : s.parked s.running = none
  parks : ∀ u p, s.parked u = some p → Parks (area u) s.cpu.mem p

section Parked

variable {ι : Type} {area : ι → TaskArea} {callee : Callee → Cpu → Cpu} {s : Switching ι} {u : ι}
  {p : Parked}

theorem parks_congr {A : TaskArea} {m m' : Mem} (h : Parks A m p)
    (hm : ∀ x, A.Has x → m' x = m x) : Parks A m' p where
  context := holds_congr h.context fun x hl hr => hm x (.inl ⟨hl, hr⟩)
  top := h.top
  rip := by
    obtain ⟨hb, ht⟩ := h.top
    rw [← h.rip]
    exact load64_congr fun k hk => hm _ (.inr ⟨by omega, by omega⟩)
  stack := fun x hl hr => by
    obtain ⟨hb, ht⟩ := h.top
    rw [hm x (.inr ⟨by omega, hr⟩)]
    exact h.stack x hl hr

/-- The task that called is parked with its return address. -/
theorem parks_switched (hareas : AreasOk area) (hall : AllParked area s)
    (h : CanSwitch area s u p) : Parks (area s.running) (exec callee taskContextSwitch s.cpu).mem (parkedNow s.cpu) := by
  have hp := hall.parks u p h.parked
  have hsw := switched_exec callee hareas h.ne h.prev h.next h.top hp
  obtain ⟨hb, ht⟩ := h.top
  obtain ⟨hb', ht'⟩ := hp.top
  have hsame : ∀ x, (s.cpu.reg .rsp).toNat ≤ x → x < (area s.running).kstackTop →
      (exec callee taskContextSwitch s.cpu).mem x = s.cpu.mem x := by
    intro x hl hr
    refine hsw.same x ?_
    rintro (hx | hx | hx)
    · exact hareas.own _ x hx ⟨by omega, hr⟩
    · omega
    · exact hareas.apart _ u x h.ne (.inr ⟨by omega, hr⟩) (.inr ⟨by omega, by omega⟩)
  refine ⟨hsw.keeps, h.top, ?_, hsame⟩
  exact load64_congr fun k hk => hsame _ (Nat.le_add_right ..) (by
    have : (parkedNow s.cpu).context.rsp = s.cpu.reg .rsp := rfl
    rw [this]
    omega)

theorem parks_other (hareas : AreasOk area) (hall : AllParked area s) (h : CanSwitch area s u p)
    {v : ι} {q : Parked} (hv : s.parked v = some q) (hvu : v ≠ u) :
    Parks (area v) (exec callee taskContextSwitch s.cpu).mem q := by
  have hp := hall.parks u p h.parked
  have hsw := switched_exec callee hareas h.ne h.prev h.next h.top hp
  have hvt : v ≠ s.running := fun hvt => by
    rw [hvt, hall.running] at hv
    cases hv
  obtain ⟨hb, ht⟩ := h.top
  obtain ⟨hb', ht'⟩ := hp.top
  refine parks_congr (hall.parks v q hv) fun x hx => hsw.same x ?_
  rintro (hx' | hx' | hx')
  · exact hareas.apart v _ x hvt hx (.inl hx')
  · exact hareas.apart v _ x hvt hx (.inr ⟨by omega, by omega⟩)
  · exact hareas.apart v u x hvu hx (.inr ⟨by omega, by omega⟩)

end Parked

/-- Between two switches the code that runs, interrupts and the other CPUs do what they like, save
    in the areas of the parked tasks. A new task is parked from the start. -/
inductive SwitchStep {ι : Type} [DecidableEq ι] (callee : Callee → Cpu → Cpu)
    (area : ι → TaskArea) (s : Switching ι) : SwitchEvent ι → Switching ι → Prop where
  | work (cpu : Cpu)
      (h : ∀ u p x, s.parked u = some p → (area u).Has x → cpu.mem x = s.cpu.mem x) :
      SwitchStep callee area s .work { s with cpu }
  | made (u : ι) (p : Parked) (hu : s.parked u = none) (hne : u ≠ s.running)
      (hp : Parks (area u) s.cpu.mem p) :
      SwitchStep callee area s (.made u) { s with parked := Function.update s.parked u (some p) }
  | freed (u : ι) :
      SwitchStep callee area s (.freed u) { s with parked := Function.update s.parked u none }
  | switch (u : ι) (p : Parked) (h : CanSwitch area s u p) :
      SwitchStep callee area s (.switch u)
        { cpu := exec callee taskContextSwitch s.cpu
          running := u
          parked := Function.update
            (Function.update s.parked s.running (some (parkedNow s.cpu))) u none }

/-- A run whose events meet `P`. -/
inductive SwitchRun {ι : Type} [DecidableEq ι] (callee : Callee → Cpu → Cpu) (area : ι → TaskArea)
    (P : SwitchEvent ι → Prop) (s₀ : Switching ι) : Switching ι → Prop where
  | nil : SwitchRun callee area P s₀ s₀
  | step {s s' : Switching ι} {e : SwitchEvent ι} (h : SwitchRun callee area P s₀ s) (he : P e)
      (hs : SwitchStep callee area s e s') : SwitchRun callee area P s₀ s'

/-- A call has returned: the callee-saved registers, the stack above the return address and the
    flags are those of the call. -/
structure Returned (A : TaskArea) (s s' : Cpu) : Prop where
  reg : ∀ r ∈ CONTEXT_REGS, r ≠ .rsp → s'.reg r = s.reg r
  rsp : s'.reg .rsp = s.reg .rsp + 8
  rip : s'.rip = s.top
  rflags : s'.rflags = s.rflags
  stack : ∀ x, (s.reg .rsp).toNat + 8 ≤ x → x < A.kstackTop → s'.mem x = s.mem x

section Runs

variable {ι : Type} [DecidableEq ι] {area : ι → TaskArea} {callee : Callee → Cpu → Cpu}
  {s s' s₀ s₁ s₂ s₃ : Switching ι} {e : SwitchEvent ι} {t u : ι} {p : Parked}

theorem update_some {α : Type} {f : ι → Option α} {x : Option α} {q : α}
    (h : Function.update f u x t = some q) : (t = u ∧ x = some q) ∨ (t ≠ u ∧ f t = some q) := by
  by_cases htu : t = u
  · subst htu
    rw [Function.update_self] at h
    exact .inl ⟨rfl, h⟩
  · rw [Function.update_of_ne htu] at h
    exact .inr ⟨htu, h⟩

/-- **One step**: nothing a parked task goes on with is lost. -/
theorem parks_step (hareas : AreasOk area) (hall : AllParked area s)
    (h : SwitchStep callee area s e s') : AllParked area s' := by
  cases h with
  | work cpu h =>
    exact ⟨hall.running, fun u p hu => parks_congr (hall.parks u p hu) fun x hx => h u p x hu hx⟩
  | made u p hu hne hp =>
    refine ⟨(Function.update_of_ne (Ne.symm hne) ..).trans hall.running, fun v q hv => ?_⟩
    rcases update_some hv with ⟨rfl, hq⟩ | ⟨hvu, hv⟩
    · cases hq
      exact hp
    · exact hall.parks v q hv
  | freed u =>
    refine ⟨?_, fun v q hv => ?_⟩
    · by_cases hu : s.running = u
      · subst hu
        exact Function.update_self ..
      · exact (Function.update_of_ne hu ..).trans hall.running
    · rcases update_some hv with ⟨rfl, hq⟩ | ⟨hvu, hv⟩
      · cases hq
      · exact hall.parks v q hv
  | switch u p h =>
    refine ⟨Function.update_self .., fun v q hv => ?_⟩
    rcases update_some hv with ⟨rfl, hq⟩ | ⟨hvu, hv⟩
    · cases hq
    rcases update_some hv with ⟨rfl, hq⟩ | ⟨hvt, hv⟩
    · cases hq
      exact parks_switched hareas hall h
    · exact parks_other hareas hall h hv hvu

theorem parks_run {P : SwitchEvent ι → Prop} (hareas : AreasOk area) (h₀ : AllParked area s₀)
    (h : SwitchRun callee area P s₀ s) : AllParked area s := by
  induction h with
  | nil => exact h₀
  | step _ _ hs ih => exact parks_step hareas ih hs

/-- Away from the events that name it, a parked task stays as it is. -/
theorem parked_step (hp : s.parked t = some p) (hall : AllParked area s)
    (he : e ≠ .switch t ∧ e ≠ .freed t) (h : SwitchStep callee area s e s') :
    s'.parked t = some p := by
  cases h with
  | work => exact hp
  | made u q hu hne hq =>
    have htu : t ≠ u := fun htu => by
      rw [← htu, hp] at hu
      cases hu
    exact (Function.update_of_ne htu ..).trans hp
  | freed u =>
    have htu : t ≠ u := fun htu => he.2 (by rw [htu])
    exact (Function.update_of_ne htu ..).trans hp
  | switch u q h =>
    have htr : t ≠ s.running := fun htr => by
      rw [htr, hall.running] at hp
      cases hp
    have htu : t ≠ u := fun htu => he.1 (by rw [htu])
    exact ((Function.update_of_ne htu ..).trans (Function.update_of_ne htr ..)).trans hp

theorem parked_run (hareas : AreasOk area) (h₀ : AllParked area s₀) (hp : s₀.parked t = some p)
    (h : SwitchRun callee area (fun e => e ≠ .switch t ∧ e ≠ .freed t) s₀ s) :
    s.parked t = some p := by
  induction h with
  | nil => exact hp
  | step h he hs ih => exact parked_step ih (parks_run hareas h₀ h) he hs

/-- A parked task that is switched to goes on with what it was parked with. -/
theorem parked_resumes (hareas : AreasOk area) (hall : AllParked area s₁)
    (hp : s₁.parked t = some p)
    (haway : SwitchRun callee area (fun e => e ≠ .switch t ∧ e ≠ .freed t) s₁ s₂)
    (hback : SwitchStep callee area s₂ (.switch t) s₃) : Resumes (area t) p s₃.cpu := by
  have hall₂ := parks_run hareas hall haway
  have hp₂ := parked_run hareas hall hp haway
  cases hback with
  | switch _ q h =>
    obtain rfl : q = p := by
      have := h.parked.symm.trans hp₂
      cases this
      rfl
    exact (switched_exec callee hareas h.ne h.prev h.next h.top (hall₂.parks _ _ hp₂)).resumes

/-- **A switch is a call that returns.** Whatever tasks are made, run, switch and end between the
    call of `task_context_switch` and the switch back, the caller goes on behind its call with its
    callee-saved registers, its flags and its stack. -/
theorem switch_returns (hareas : AreasOk area) (h₀ : ∀ u, s₀.parked u = none)
    (hrun : SwitchRun callee area (fun _ => True) s₀ s)
    (hout : SwitchStep callee area s (.switch u) s₁)
    (haway : SwitchRun callee area (fun e => e ≠ .switch s.running ∧ e ≠ .freed s.running) s₁ s₂)
    (hback : SwitchStep callee area s₂ (.switch s.running) s₃) :
    Returned (area s.running) s.cpu s₃.cpu := by
  have hall := parks_run hareas ⟨h₀ _, fun v q hv => by rw [h₀ v] at hv; cases hv⟩ hrun
  have hall₁ := parks_step hareas hall hout
  have hparked : s₁.parked s.running = some (parkedNow s.cpu) := by
    cases hout with
    | switch u p h => exact (Function.update_of_ne h.ne ..).trans (Function.update_self ..)
  have hres := parked_resumes hareas hall₁ hparked haway hback
  have hregs : CONTEXT_REGS.map (contextOf s.cpu).reg = CONTEXT_REGS.map s.cpu.reg := rfl
  exact ⟨fun r hr hsp => (hres.reg r hr hsp).trans (List.map_inj_left.mp hregs r hr), hres.rsp,
    hres.rip, hres.rflags, hres.stack⟩

end Runs

/-! Two tasks: the second one is made, and each calls the other. -/

def twoAreas : Bool → TaskArea
  | false => ⟨0x1000, 0x2000, 0x3000⟩
  | true => ⟨0x4000, 0x5000, 0x6000⟩

theorem twoAreas_ok : AreasOk twoAreas where
  room := fun t => by cases t <;> decide
  own := fun t x h h' => by
    cases t <;>
      simp only [twoAreas, TaskArea.InContext, TaskArea.InStack, SIZEOF_CONTEXT] at h h' <;> omega
  apart := fun t u x hne h h' => by
    cases t <;> cases u <;>
      simp only [twoAreas, TaskArea.Has, TaskArea.InContext, TaskArea.InStack, SIZEOF_CONTEXT,
        ne_eq, not_true_eq_false] at hne h h' <;> omega

/-- The registers of a CPU that is about to switch. -/
def callerRegs (prev next sp : Word) : Reg → Word
  | .rdi => prev
  | .rsi => next
  | .rsp => sp
  | _ => 7

def firstCaller : Cpu :=
  { reg := callerRegs 0x1000 0x4000 0x2800, creg := fun _ => 0, sreg := fun _ => 0, cs := 0,
    ss := 0, rip := 0, rflags := 0, gsBase := 0, kernelGsBase := 0, star := 0, lstar := 0, fmask := 0,
    mem := store64 (fun _ => 0) 0x4000 0x5800 }

def newTask : Parked :=
  ⟨{ rsp := 0x5800, rbp := 0, rbx := 0, r12 := 0, r13 := 0, r14 := 0, r15 := 0, rip := 0,
      rflags := 0 }, fun _ => 0⟩

theorem parks_newTask : Parks (twoAreas true) firstCaller.mem newTask where
  context := by
    refine ⟨load64_store64_same .., ?_⟩
    refine holds_congr (m := fun _ => 0) ?_ fun x hl hr => ?_
    · exact ⟨load64_zero _, load64_zero _, load64_zero _, load64_zero _, load64_zero _,
        load64_zero _, load64_zero _, load64_zero _, trivial⟩
    · have : x ≠ 0 := by omega
      simp only [firstCaller, store64]
      rw [if_neg (by simp only [twoAreas] at hl; omega)]
  top := ⟨by decide, by decide⟩
  rip := (load64_store64_ne _ _ (by decide)).trans (load64_zero _)
  stack := fun x hl hr => by
    simp only [firstCaller, store64, newTask]
    rw [if_neg (by simp only [newTask] at hl; have : (0x5800 : Word).toNat = 0x5800 := rfl; omega)]

theorem switch_returns_two : ∃ s₃ : Switching Bool, s₃.running = false ∧
    Returned (twoAreas false) firstCaller s₃.cpu := by
  let callee : Callee → Cpu → Cpu := fun _ s => s
  let s₀ : Switching Bool := ⟨firstCaller, false, fun _ => none⟩
  let s : Switching Bool := { s₀ with parked := Function.update s₀.parked true (some newTask) }
  let s₁ : Switching Bool :=
    { cpu := exec callee taskContextSwitch firstCaller, running := true
      parked := Function.update (Function.update s.parked false (some (parkedNow firstCaller)))
        true none }
  let s₂ : Switching Bool :=
    { s₁ with cpu := { s₁.cpu with reg := callerRegs 0x4000 0x1000 0x5808 } }
  have hmade : SwitchStep callee twoAreas s₀ (.made true) s :=
    .made true newTask rfl (by decide) parks_newTask
  have hout : SwitchStep callee twoAreas s (.switch true) s₁ :=
    .switch true newTask ⟨by decide, rfl, rfl, rfl, ⟨by decide, by decide⟩⟩
  have hwork : SwitchStep callee twoAreas s₁ .work s₂ := .work _ fun _ _ _ _ _ => rfl
  have hback : SwitchStep callee twoAreas s₂ (.switch false) _ :=
    .switch false (parkedNow firstCaller) ⟨by decide, rfl, rfl, rfl, ⟨by decide, by decide⟩⟩
  exact ⟨_, rfl, switch_returns twoAreas_ok (fun _ => rfl) (.step .nil trivial hmade) hout
    (.step .nil ⟨by decide, by decide⟩ hwork) hback⟩

end Slightx
