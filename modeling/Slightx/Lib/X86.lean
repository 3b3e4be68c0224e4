/-
  File:      Slightx/Lib/X86.lean
  Subject:   Straight-line x86-64 code.

  A CPU in 64-bit mode with a byte memory, the instructions the entry and the switching code of a
  kernel is made of, and what blocks of them do to a stack:

  * `step`, `exec` -- one instruction, a list of them; a jump goes forward only and skips
    instructions, a call is a step of the function called;
  * `interrupt`, `syscall` -- what the CPU itself does before the first instruction of an entry;
  * `Holds` -- words that stand one after the other, such as those of a stack, the top first;
  * `exec_pushes`, `holds_pushed` -- registers pushed one after the other;
  * `exec_pops` -- registers popped from a stack that holds a word for each of them;
  * `exec_saves`, `exec_restores` -- registers kept in a structure, and read back from it
-/
import Mathlib.Logic.Function.Basic
import Slightx.Lib.Memory

namespace Slightx.Lib.X86

/-! ## 1. The CPU -/

inductive Reg where
  | rax | rbx | rcx | rdx | rsi | rdi | rbp | rsp
  | r8 | r9 | r10 | r11 | r12 | r13 | r14 | r15
  deriving DecidableEq, Repr

/-- The control registers an interrupt frame shows. -/
inductive Creg where
  | cr0 | cr2 | cr3 | cr4
  deriving DecidableEq, Repr

/-- The data segments that 64-bit code still loads. -/
inductive Sreg where
  | ds | es
  deriving DecidableEq, Repr

/-- `rip` is where the code goes on once it has left the instructions at hand. -/
@[ext]
structure Cpu where
  reg : Reg → Word
  creg : Creg → Word
  sreg : Sreg → BitVec 16
  cs : BitVec 16
  ss : BitVec 16
  rip : Word
  rflags : Word
  gsBase : Word
  kernelGsBase : Word
  star : Word
  lstar : Word
  fmask : Word
  mem : Mem

/-- The bits of `rflags` that arithmetic sets: CF, PF, AF, ZF, SF, OF. -/
def STATUS : Word := 0x8D5

/-- The interrupt flag. -/
def IF : Word := 0x200

/-- The flags an interrupt gate clears: IF, TF, NT, RF and VM. -/
def GATE_CLEARS : Word := 0x34300

def evenParity (w : Word) : Bool := (List.range 8).countP (fun i => w.getLsbD i) % 2 == 0

/-- The status bits that only depend on the result. -/
def resultStatus (r : Word) : Word :=
  (if evenParity r then 0x4 else 0) ||| (if r = 0 then 0x40 else 0) ||| (if r.msb then 0x80 else 0)

def addStatus (a b : Word) : Word :=
  resultStatus (a + b) ||| (if a + b < a then 0x1 else 0) ||| ((a ^^^ b ^^^ (a + b)) &&& 0x10) |||
    (if a.msb = b.msb ∧ (a + b).msb ≠ a.msb then 0x800 else 0)

def withStatus (rflags status : Word) : Word := rflags &&& ~~~STATUS ||| status

def zeroFlag (rflags : Word) : Bool := rflags.getLsbD 6

namespace Cpu

def set (s : Cpu) (r : Reg) (w : Word) : Cpu := { s with reg := Function.update s.reg r w }

def push (s : Cpu) (w : Word) : Cpu :=
  { s with
    reg := Function.update s.reg .rsp (s.reg .rsp - 8)
    mem := store64 s.mem (s.reg .rsp - 8).toNat w }

/-- The word on top of the stack. -/
def top (s : Cpu) : Word := load64 s.mem (s.reg .rsp).toNat

/-- The word under the top of the stack, `i` words deep. -/
def under (s : Cpu) (i : Nat) : Word := load64 s.mem ((s.reg .rsp).toNat + 8 * i)

def swapgs (s : Cpu) : Cpu := { s with gsBase := s.kernelGsBase, kernelGsBase := s.gsBase }

/-- User code runs at level 3. -/
def user (s : Cpu) : Bool := s.cs &&& 3 == 3

/-- The return from an interrupt: five words of the stack say where it goes. -/
def iretq (s : Cpu) : Cpu :=
  { s with
    rip := s.under 0
    cs := (s.under 1).setWidth 16
    rflags := s.under 2
    reg := Function.update s.reg .rsp (s.under 3)
    ss := (s.under 4).setWidth 16 }

/-- The return from a system call: `rcx` and `r11` say where it goes. -/
def sysret (s : Cpu) : Cpu :=
  { s with
    rip := s.reg .rcx
    rflags := s.reg .r11 &&& 0x3C7FD7 ||| 2
    cs := (s.star.extractLsb' 48 16 + 16) ||| 3
    ss := (s.star.extractLsb' 48 16 + 8) ||| 3 }

/-- An interrupt gate is entered: `stack` is the stack the CPU chose, `err` the error code of the
    exceptions that have one. -/
def interrupt (s : Cpu) (stack : Word) (selector : BitVec 16) (entry : Word)
    (err : Option Word) : Cpu :=
  let t : Cpu := { s with reg := Function.update s.reg .rsp (stack &&& ~~~0xF) }
  let t := (s.ss.setWidth 64 :: s.reg .rsp :: s.rflags :: s.cs.setWidth 64 :: s.rip ::
    err.toList).foldl push t
  { t with
    rip := entry
    cs := selector
    ss := if s.user then 0 else s.ss
    rflags := s.rflags &&& ~~~GATE_CLEARS }

end Cpu

/-! ## 2. Instructions -/

/-- A function that is called: by its name, or by its address. -/
inductive Callee where
  | symbol (name : String)
  | addr (a : Word)

inductive Instr where
  | push (r : Reg)
  | pushImm (w : Word)
  | pushGs (disp : Word)
  | pop (r : Reg)
  | pushfq
  | popfq
  | mov (dst src : Reg)
  | movAx (imm : BitVec 16)
  | load (dst base : Reg) (disp : Word)
  | store (base : Reg) (disp : Word) (src : Reg)
  | loadGs (dst : Reg) (disp : Word)
  | storeGs (disp : Word) (src : Reg)
  | fromCr (dst : Reg) (c : Creg)
  | toCr (c : Creg) (src : Reg)
  | fromSeg (s : Sreg)
  | toSeg (s : Sreg)
  | lea (dst base : Reg) (disp : Word)
  | addImm (dst : Reg) (imm : Word)
  | xor (dst src : Reg)
  | testMem (base : Reg) (disp imm : Word)
  | jz (skip : Nat)
  | swapgs
  | sti
  | cli
  | call (f : String)
  | callReg (r : Reg)
  | ret
  | iretq
  | sysret

section Code

variable (callee : Callee → Cpu → Cpu)

/-- One instruction; the jump is `exec`'s. `fromSeg` and `toSeg` go through `ax`. -/
def step : Instr → Cpu → Cpu
  | .push r, s => s.push (s.reg r)
  | .pushImm w, s => s.push w
  | .pushGs disp, s => s.push (load64 s.mem (s.gsBase + disp).toNat)
  | .pop r, s => { s with
      reg := Function.update (Function.update s.reg .rsp (s.reg .rsp + 8)) r s.top }
  | .pushfq, s => s.push s.rflags
  | .popfq, s => { s with
      rflags := s.top, reg := Function.update s.reg .rsp (s.reg .rsp + 8) }
  | .mov dst src, s => s.set dst (s.reg src)
  | .movAx imm, s => s.set .rax ((s.reg .rax).extractLsb' 16 48 ++ imm)
  | .load dst base disp, s => s.set dst (load64 s.mem (s.reg base + disp).toNat)
  | .store base disp src, s => { s with
      mem := store64 s.mem (s.reg base + disp).toNat (s.reg src) }
  | .loadGs dst disp, s => s.set dst (load64 s.mem (s.gsBase + disp).toNat)
  | .storeGs disp src, s => { s with
      mem := store64 s.mem (s.gsBase + disp).toNat (s.reg src) }
  | .fromCr dst c, s => s.set dst (s.creg c)
  | .toCr c src, s => { s with creg := Function.update s.creg c (s.reg src) }
  | .fromSeg sg, s => s.set .rax ((s.reg .rax).extractLsb' 16 48 ++ s.sreg sg)
  | .toSeg sg, s => { s with sreg := Function.update s.sreg sg ((s.reg .rax).setWidth 16) }
  | .lea dst base disp, s => s.set dst (s.reg base + disp)
  | .addImm dst imm, s => { s.set dst (s.reg dst + imm) with
      rflags := withStatus s.rflags (addStatus (s.reg dst) imm) }
  | .xor dst src, s => { s.set dst (s.reg dst ^^^ s.reg src) with
      rflags := withStatus s.rflags (resultStatus (s.reg dst ^^^ s.reg src)) }
  | .testMem base disp imm, s => { s with
      rflags := withStatus s.rflags
        (resultStatus (load64 s.mem (s.reg base + disp).toNat &&& imm)) }
  | .jz _, s => s
  | .swapgs, s => s.swapgs
  | .sti, s => { s with rflags := s.rflags ||| IF }
  | .cli, s => { s with rflags := s.rflags &&& ~~~IF }
  | .call f, s => callee (.symbol f) s
  | .callReg r, s => callee (.addr (s.reg r)) s
  | .ret, s => { s with rip := s.top, reg := Function.update s.reg .rsp (s.reg .rsp + 8) }
  | .iretq, s => s.iretq
  | .sysret, s => s.sysret

/-- How many instructions the jump skips. -/
def skips : Instr → Cpu → Nat
  | .jz n, s => if zeroFlag s.rflags then n else 0
  | _, _ => 0

/-- The code runs to its end, the first instructions skipped. -/
def execFrom : List Instr → Nat → Cpu → Cpu
  | [], _, s => s
  | _ :: code, k + 1, s => execFrom code k s
  | i :: code, 0, s => execFrom code (skips i s) (step callee i s)

def exec (code : List Instr) (s : Cpu) : Cpu := execFrom callee code 0 s

end Code

section Exec

variable {callee : Callee → Cpu → Cpu} {s : Cpu} {i : Instr} {code : List Instr}

theorem exec_nil : exec callee [] s = s := rfl

theorem exec_cons (h : skips i s = 0) :
    exec callee (i :: code) s = exec callee code (step callee i s) := by
  rw [exec, execFrom, h]
  rfl

end Exec

/-! ## 3. Words in a row -/

/-- The words stand one after the other from `a` on. -/
def Holds (m : Mem) : Nat → List Word → Prop
  | _, [] => True
  | a, w :: ws => load64 m a = w ∧ Holds m (a + 8) ws

/-- The words written one after the other from `a` on. -/
def stored (m : Mem) : Nat → List Word → Mem
  | _, [] => m
  | a, w :: ws => stored (store64 m a w) (a + 8) ws

/-- The words pushed below `sp`, one after the other. -/
def pushed (m : Mem) (sp : Word) : List Word → Mem
  | [] => m
  | w :: ws => pushed (store64 m (sp - 8).toNat w) (sp - 8) ws

section Holds

variable {m m' : Mem} {a b : Nat} {sp w : Word} {ws vs : List Word}

theorem holds_append :
    Holds m a (ws ++ vs) ↔ Holds m a ws ∧ Holds m (a + 8 * ws.length) vs := by
  induction ws generalizing a with
  | nil => simp [Holds]
  | cons w ws ih =>
    have ha : a + 8 * (w :: ws).length = a + 8 + 8 * ws.length := by
      rw [List.length_cons]
      omega
    rw [List.cons_append, Holds, ih, ha, Holds, and_assoc]

theorem holds_congr (h : Holds m a ws)
    (hm : ∀ x, a ≤ x → x < a + 8 * ws.length → m' x = m x) : Holds m' a ws := by
  induction ws generalizing a with
  | nil => trivial
  | cons w ws ih =>
    rw [List.length_cons] at hm
    refine ⟨?_, ih h.2 fun x hl hr => hm x (by omega) (by omega)⟩
    rw [← h.1]
    exact load64_congr fun k hk => hm (a + k) (by omega) (by omega)

theorem holds_sameOff {S : Nat → Prop} (h : Holds m a ws) (hm : SameOff S m m')
    (hS : ∀ x, a ≤ x → x < a + 8 * ws.length → ¬ S x) : Holds m' a ws :=
  holds_congr h fun x hl hr => hm x (hS x hl hr)

theorem holds_store (h : Holds m a ws) (hb : b + 8 ≤ a ∨ a + 8 * ws.length ≤ b) :
    Holds (store64 m b w) a ws :=
  holds_sameOff h (S := fun x => b ≤ x ∧ x < b + 8) (sameOff_store64 fun _ hl hr => ⟨hl, hr⟩)
    fun x hl hr hs => by omega

theorem holds_get {i : Nat} (h : Holds m a ws) (hi : i < ws.length) :
    load64 m (a + 8 * i) = ws[i] := by
  induction ws generalizing a i with
  | nil => cases hi
  | cons w ws ih =>
    cases i with
    | zero => exact h.1
    | succ i =>
      have ha : a + 8 * (i + 1) = a + 8 + 8 * i := by omega
      rw [ha]
      exact ih h.2 (Nat.lt_of_succ_lt_succ hi)

theorem sameOff_stored : SameOff (fun x => a ≤ x ∧ x < a + 8 * ws.length) m (stored m a ws) := by
  induction ws generalizing m a with
  | nil => exact sameOff_refl _ _
  | cons w ws ih =>
    refine sameOff_trans (sameOff_store64 fun x hl hr => ?_) (sameOff_mono ih fun x hx => ?_)
    · rw [List.length_cons]
      omega
    · rw [List.length_cons]
      omega

theorem holds_stored : Holds (stored m a ws) a ws := by
  induction ws generalizing m a with
  | nil => trivial
  | cons w ws ih =>
    refine ⟨?_, ih⟩
    rw [stored, load64_sameOff sameOff_stored fun k hk => by omega, load64_store64_same]

/-- What a return from an interrupt finds on the stack. -/
theorem iretq_eq {s : Cpu} {rip cs rflags rsp ss : Word}
    (h : Holds s.mem (s.reg .rsp).toNat [rip, cs, rflags, rsp, ss]) :
    s.iretq = { s with
      rip := rip, cs := cs.setWidth 16, rflags := rflags, ss := ss.setWidth 16
      reg := Function.update s.reg .rsp rsp } := by
  have h₀ : s.under 0 = rip := holds_get (i := 0) h (show 0 < 5 by decide)
  have h₁ : s.under 1 = cs := holds_get (i := 1) h (show 1 < 5 by decide)
  have h₂ : s.under 2 = rflags := holds_get (i := 2) h (show 2 < 5 by decide)
  have h₃ : s.under 3 = rsp := holds_get (i := 3) h (show 3 < 5 by decide)
  have h₄ : s.under 4 = ss := holds_get (i := 4) h (show 4 < 5 by decide)
  rw [Cpu.iretq, h₀, h₁, h₂, h₃, h₄]

theorem toNat_field {x : Word} {d : Nat} (h : x.toNat + d < 2 ^ 64) :
    (x + BitVec.ofNat 64 d).toNat = x.toNat + d := by
  rw [BitVec.toNat_add, BitVec.toNat_ofNat]
  omega

theorem toNat_sub_eight (h : 8 ≤ sp.toNat) : (sp - 8).toNat = sp.toNat - 8 := by
  rw [BitVec.toNat_sub]
  have := sp.isLt
  simp
  omega

/-- **A push stands on top of what was there**: the last word pushed is the top. -/
theorem holds_pushed (h : Holds m sp.toNat vs) (hroom : 8 * ws.length ≤ sp.toNat) :
    Holds (pushed m sp ws) (sp.toNat - 8 * ws.length) (ws.reverse ++ vs) := by
  induction ws generalizing m sp vs with
  | nil => exact h
  | cons w ws ih =>
    rw [List.length_cons] at hroom ⊢
    have hsp : (sp - 8).toNat = sp.toNat - 8 := toNat_sub_eight (by omega)
    have htop : Holds (store64 m (sp - 8).toNat w) (sp - 8).toNat (w :: vs) := by
      refine ⟨load64_store64_same .., ?_⟩
      have ha : (sp - 8).toNat + 8 = sp.toNat := by omega
      rw [ha]
      exact holds_store h (Or.inl (by omega))
    have hrest := ih htop (by omega)
    have ha : (sp - 8).toNat - 8 * ws.length = sp.toNat - 8 * (ws.length + 1) := by omega
    rw [ha] at hrest
    rw [pushed, List.reverse_cons, List.append_assoc]
    exact hrest

end Holds

/-! ## 4. Blocks of pushes and pops -/

/-- The words pushed one after the other. -/
def Cpu.pushes (s : Cpu) (ws : List Word) : Cpu :=
  { s with
    reg := Function.update s.reg .rsp (s.reg .rsp - BitVec.ofNat 64 (8 * ws.length))
    mem := pushed s.mem (s.reg .rsp) ws }

section Blocks

variable {callee : Callee → Cpu → Cpu} {s : Cpu} {code : List Instr} {rs : List Reg} {r : Reg}
  {w : Word} {ws vs : List Word}

theorem pushes_nil : s.pushes [] = s := by
  simp [Cpu.pushes, pushed]

theorem pushes_push : (s.push w).pushes ws = s.pushes (w :: ws) := by
  have h : s.reg .rsp - 8 - BitVec.ofNat 64 (8 * ws.length) =
      s.reg .rsp - BitVec.ofNat 64 (8 * (w :: ws).length) := by
    rw [List.length_cons, Nat.mul_succ]
    bv_omega
  simp only [Cpu.pushes, Cpu.push, pushed, Function.update_self, Function.update_idem, h]

theorem toNat_pushes (h : 8 * ws.length ≤ (s.reg .rsp).toNat) :
    ((s.pushes ws).reg .rsp).toNat = (s.reg .rsp).toNat - 8 * ws.length := by
  have hlt := (s.reg .rsp).isLt
  simp only [Cpu.pushes, Function.update_self, BitVec.toNat_sub, BitVec.toNat_ofNat]
  omega

theorem holds_pushes (h : Holds s.mem (s.reg .rsp).toNat vs)
    (hroom : 8 * ws.length ≤ (s.reg .rsp).toNat) :
    Holds (s.pushes ws).mem ((s.pushes ws).reg .rsp).toNat (ws.reverse ++ vs) := by
  rw [toNat_pushes hroom]
  exact holds_pushed h hroom

theorem step_pop (h : Holds s.mem (s.reg .rsp).toNat (w :: ws)) : step callee (.pop r) s =
    { s with reg := Function.update (Function.update s.reg .rsp (s.reg .rsp + 8)) r w } := by
  rw [step, Cpu.top, h.1]

/-- **Registers popped one after the other**, from a stack that holds `f r` for each `r`. -/
theorem exec_pops {f : Reg → Word} (h : Holds s.mem (s.reg .rsp).toNat (rs.map f))
    (hrsp : .rsp ∉ rs) (hroom : (s.reg .rsp).toNat + 8 * rs.length < 2 ^ 64) :
    exec callee (rs.map .pop ++ code) s = exec callee code { s with
      reg := fun r => if r ∈ rs then f r
        else if r = .rsp then s.reg .rsp + BitVec.ofNat 64 (8 * rs.length) else s.reg r } := by
  induction rs generalizing s with
  | nil =>
    have hreg : (fun r => if r ∈ ([] : List Reg) then f r
        else if r = .rsp then s.reg .rsp + BitVec.ofNat 64 (8 * ([] : List Reg).length)
          else s.reg r) = s.reg := by
      funext r
      by_cases hr : r = .rsp
      · simp [hr]
      · simp [hr]
    rw [hreg]
    rfl
  | cons q rs ih =>
    rw [List.mem_cons, not_or] at hrsp
    rw [List.length_cons] at hroom
    have hq : (s.reg .rsp + 8).toNat = (s.reg .rsp).toNat + 8 := by
      rw [BitVec.toNat_add]
      exact Nat.mod_eq_of_lt (by simp; omega)
    have hstep : step callee (.pop q) s = { s with
        reg := Function.update (Function.update s.reg .rsp (s.reg .rsp + 8)) q (f q) } :=
      step_pop h
    have hsp : (step callee (.pop q) s).reg .rsp = s.reg .rsp + 8 := by
      simp only [hstep, Function.update_of_ne hrsp.1, Function.update_self]
    have hmem : (step callee (.pop q) s).mem = s.mem := rfl
    rw [List.map_cons, List.cons_append, exec_cons rfl,
      ih (by rw [hmem, hsp, hq]; exact h.2) hrsp.2 (by rw [hsp, hq]; omega), hsp]
    have hlen : s.reg .rsp + 8 + BitVec.ofNat 64 (8 * rs.length) =
        s.reg .rsp + BitVec.ofNat 64 (8 * (rs.length + 1)) := by bv_omega
    rw [hstep, hlen, List.length_cons]
    congr 2
    funext r
    dsimp only
    by_cases hr : r ∈ rs
    · rw [if_pos hr, if_pos (List.mem_cons_of_mem q hr)]
    by_cases hrq : r = q
    · rw [if_neg hr, if_neg (hrq ▸ Ne.symm hrsp.1), if_pos (hrq ▸ List.mem_cons_self), hrq,
        Function.update_self]
    have hmem : r ∉ q :: rs := fun hm => hr ((List.mem_cons.mp hm).resolve_left hrq)
    rw [if_neg hr, if_neg hmem, Function.update_of_ne hrq]
    by_cases hrsp' : r = .rsp
    · rw [if_pos hrsp', if_pos hrsp']
    · rw [if_neg hrsp', if_neg hrsp', Function.update_of_ne hrsp']

/-- The registers kept in a structure at `base`, from the field at `d` on. -/
def saves (base : Reg) : Nat → List Reg → List Instr
  | _, [] => []
  | d, r :: rs => .store base (BitVec.ofNat 64 d) r :: saves base (d + 8) rs

/-- The registers read from a structure at `base`, from the field at `d` on. -/
def restores (base : Reg) : Nat → List Reg → List Instr
  | _, [] => []
  | d, r :: rs => .load r base (BitVec.ofNat 64 d) :: restores base (d + 8) rs

theorem exec_saves {base : Reg} {d : Nat} (h : (s.reg base).toNat + d + 8 * rs.length < 2 ^ 64) :
    exec callee (saves base d rs ++ code) s =
      exec callee code { s with mem := stored s.mem ((s.reg base).toNat + d) (rs.map s.reg) } := by
  induction rs generalizing s d with
  | nil => rfl
  | cons r rs ih =>
    rw [List.length_cons] at h
    rw [saves, List.cons_append, exec_cons rfl, step, toNat_field (by omega),
      ih (by dsimp only; omega)]
    rfl

theorem exec_restores {f : Reg → Word} {base : Reg} {d : Nat}
    (h : Holds s.mem ((s.reg base).toNat + d) (rs.map f)) (hbase : base ∉ rs)
    (hroom : (s.reg base).toNat + d + 8 * rs.length < 2 ^ 64) :
    exec callee (restores base d rs ++ code) s =
      exec callee code { s with reg := fun r => if r ∈ rs then f r else s.reg r } := by
  induction rs generalizing s d with
  | nil => rfl
  | cons q rs ih =>
    rw [List.mem_cons, not_or] at hbase
    rw [List.length_cons] at hroom
    have hstep : step callee (.load q base (BitVec.ofNat 64 d)) s = s.set q (f q) := by
      rw [step, toNat_field (by omega), h.1]
    have hsame : (s.set q (f q)).reg base = s.reg base := Function.update_of_ne hbase.1 ..
    rw [restores, List.cons_append, exec_cons rfl, hstep,
      ih (by rw [hsame]; exact h.2) hbase.2 (by rw [hsame]; omega)]
    congr 2
    funext r
    by_cases hr : r ∈ rs
    · rw [if_pos hr, if_pos (List.mem_cons_of_mem q hr)]
    by_cases hrq : r = q
    · rw [if_neg hr, if_pos (hrq ▸ List.mem_cons_self), hrq]
      exact Function.update_self ..
    · have hmem : r ∉ q :: rs := fun hm => hr ((List.mem_cons.mp hm).resolve_left hrq)
      rw [if_neg hr, if_neg hmem]
      exact Function.update_of_ne hrq ..

end Blocks

end Slightx.Lib.X86
