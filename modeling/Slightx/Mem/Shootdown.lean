/-
  File:      Slightx/Mem/Shootdown.lean
  Subject:   The TLB shootdown, called by any number of processors at once.

  Sources: kernel/mem/vmm.c (`vmm_shootdown_range`, `vmm_tlb_flush_handle`), kernel/boot/lapic.c,
  klibc/sync/lock.c.

  Each read and each write of what the processors share is one step. A sent flush is one message to
  every other processor; it is delivered at any later time, on top of whatever its processor does,
  and the call below the handler goes on when the handler has returned.

  * `RoundInv` -- who holds the lock, what is in flight and what has been counted;
  * `shootdown_complete` -- when a call returns, the others have invalidated its pages
-/
import Mathlib.Data.Fintype.Card
import Slightx.Lib.Machine
import Slightx.Mem.Vmm

namespace Slightx

open Lib Function

/-! ## 1. Steps -/

structure ShootCall where
  vaBase : Uptr
  pageCount : Usize
  deriving DecidableEq, Repr

/-- The page the loops invalidate at `i`. -/
def ShootCall.page (k : ShootCall) (i : Usize) : Uptr := k.vaBase + i * MM_VIRT_PAGE_SIZE

/-- Where a processor is in `vmm_shootdown_range`. -/
inductive CallPoint where
  | away
  /-- the loop for one processor -/
  | single (i : Usize)
  /-- `spinlock_acquire`: the exchange, and the loop that only reads -/
  | exchange
  | spin
  | setBase
  | setCount
  | clearAck
  | send
  | invalidate (i : Usize)
  | wait
  | release
  deriving DecidableEq

/-- Where a processor is in the handler of a flush, and what it has read. -/
inductive FlushPoint where
  | loadAck
  | loadBase
  | loadCount (base : Uptr)
  | invalidate (call : ShootCall) (i : Usize)
  | addAck
  | eoi
  deriving DecidableEq

/-- What is written down of a run; no step reads it. -/
inductive ShootEntry (n : Nat) where
  | acquired (c : Fin n) (call : ShootCall)
  | invalidated (c : Fin n) (va : Uptr)
  | returned (c : Fin n) (call : ShootCall)
  deriving DecidableEq

/-- `n` processors. A message carries the number of the round that sent it, and `counted` has the
    numbers of the messages in `tlbShootdownAck`; no step reads `round`, `counted` and `log` (the
    last entry first). -/
structure ShootSys (n : Nat) where
  tlbShootdownLock : Bool
  tlbShootdownBase : Uptr
  tlbShootdownCount : Usize
  tlbShootdownAck : Nat
  call : Fin n → ShootCall
  pc : Fin n → CallPoint
  flight : Fin n → List Nat
  handler : Fin n → Option (Nat × FlushPoint)
  round : Nat
  counted : List Nat
  log : List (ShootEntry n)

inductive ShootEvent (n : Nat) where
  /-- `vmm_shootdown_range` is called -/
  | call (c : Fin n) (k : ShootCall)
  /-- the next step of the call of a processor -/
  | run (c : Fin n)
  | deliver (d : Fin n)
  /-- the next step of the handler of a processor -/
  | handle (d : Fin n)

variable {n : Nat}

def shootInit (n : Nat) : ShootSys n :=
  { tlbShootdownLock := false
    tlbShootdownBase := 0
    tlbShootdownCount := 0
    tlbShootdownAck := 0
    call := fun _ => ⟨0, 0⟩
    pc := fun _ => .away
    flight := fun _ => []
    handler := fun _ => none
    round := 0
    counted := []
    log := [] }

/-- The start of `vmm_shootdown_range`, up to the lock. -/
def vmmShootdownBegin (s : ShootSys n) (c : Fin n) (k : ShootCall) : ShootSys n :=
  if k.pageCount = 0 then { s with log := .returned c k :: s.log }
  else { s with
    call := update s.call c k
    pc := update s.pc c (if n ≤ 1 then .single 0 else .exchange) }

/-- `lapic_send_tlb_flush_ipi`: one message to all but the sender. -/
def lapicSendTlbFlushIpi (s : ShootSys n) (c : Fin n) : ShootSys n :=
  { s with flight := fun d => if d = c then s.flight d else s.flight d ++ [s.round] }

def vmmShootdownStep (s : ShootSys n) (c : Fin n) : Option (ShootSys n) :=
  match s.pc c with
  | .away => none
  | .single i =>
      if i < (s.call c).pageCount then
        some { s with
          pc := update s.pc c (.single (i + 1))
          log := .invalidated c ((s.call c).page i) :: s.log }
      else
        some { s with pc := update s.pc c .away, log := .returned c (s.call c) :: s.log }
  | .exchange =>
      if s.tlbShootdownLock then some { s with pc := update s.pc c .spin }
      else
        some { s with
          tlbShootdownLock := true
          pc := update s.pc c .setBase
          log := .acquired c (s.call c) :: s.log }
  | .spin =>
      if s.tlbShootdownLock then some s else some { s with pc := update s.pc c .exchange }
  | .setBase =>
      some { s with tlbShootdownBase := (s.call c).vaBase, pc := update s.pc c .setCount }
  | .setCount =>
      some { s with tlbShootdownCount := (s.call c).pageCount, pc := update s.pc c .clearAck }
  | .clearAck =>
      some { s with
        tlbShootdownAck := 0
        round := s.round + 1
        counted := []
        pc := update s.pc c .send }
  | .send => some { lapicSendTlbFlushIpi s c with pc := update s.pc c (.invalidate 0) }
  | .invalidate i =>
      if i < (s.call c).pageCount then
        some { s with
          pc := update s.pc c (.invalidate (i + 1))
          log := .invalidated c ((s.call c).page i) :: s.log }
      else some { s with pc := update s.pc c .wait }
  | .wait =>
      if s.tlbShootdownAck < n - 1 then some s else some { s with pc := update s.pc c .release }
  | .release =>
      some { s with
        tlbShootdownLock := false
        pc := update s.pc c .away
        log := .returned c (s.call c) :: s.log }

/-- `lapic_tlb_flush_handler` with `vmm_tlb_flush_handle`. -/
def vmmTlbFlushStep (s : ShootSys n) (d : Fin n) : Option (ShootSys n) :=
  match s.handler d with
  | none => none
  | some (r, .loadAck) => some { s with handler := update s.handler d (some (r, .loadBase)) }
  | some (r, .loadBase) =>
      some { s with handler := update s.handler d (some (r, .loadCount s.tlbShootdownBase)) }
  | some (r, .loadCount base) =>
      some { s with
        handler := update s.handler d (some (r, .invalidate ⟨base, s.tlbShootdownCount⟩ 0)) }
  | some (r, .invalidate k i) =>
      if i < k.pageCount then
        some { s with
          handler := update s.handler d (some (r, .invalidate k (i + 1)))
          log := .invalidated d (k.page i) :: s.log }
      else some { s with handler := update s.handler d (some (r, .addAck)) }
  | some (r, .addAck) =>
      some { s with
        tlbShootdownAck := s.tlbShootdownAck + 1
        counted := r :: s.counted
        handler := update s.handler d (some (r, .eoi)) }
  | some (_, .eoi) => some { s with handler := update s.handler d none }

/-- A flush is delivered where no handler runs. -/
def lapicDeliver (s : ShootSys n) (d : Fin n) : Option (ShootSys n) :=
  match s.handler d, s.flight d with
  | none, r :: m =>
      some { s with
        flight := update s.flight d m
        handler := update s.handler d (some (r, .loadAck)) }
  | _, _ => none

def shootStep (s : ShootSys n) : ShootEvent n → Option (ShootSys n)
  | .call c k =>
      if s.pc c = .away ∧ s.handler c = none then some (vmmShootdownBegin s c k) else none
  | .run c => if s.handler c = none then vmmShootdownStep s c else none
  | .deliver d => lapicDeliver s d
  | .handle d => vmmTlbFlushStep s d

/-! ## 2. Rounds -/

/-- The points at which a processor has the lock. -/
def CallPoint.holds : CallPoint → Bool
  | .away | .single _ | .exchange | .spin => false
  | _ => true

/-- The points at which its flushes are sent and not all counted. -/
def CallPoint.sent : CallPoint → Bool
  | .invalidate _ | .wait | .release => true
  | _ => false

/-- A flush is on its way to the processor, or its handler has not counted it yet. -/
def ShootSys.due (s : ShootSys n) (d : Fin n) : Bool :=
  match s.handler d with
  | none | some (_, .eoi) => !(s.flight d).isEmpty
  | some _ => true

def ShootSys.outstanding (s : ShootSys n) : Finset (Fin n) :=
  Finset.univ.filter fun d => s.due d = true

/-- The processor whose call begins or ends with the entry. -/
def ShootEntry.caller : ShootEntry n → Option (Fin n)
  | .acquired c _ | .returned c _ => some c
  | .invalidated _ _ => none

/-- The processor has invalidated each page of the call. -/
def Invalidated (k : ShootCall) (d : Fin n) (mid : List (ShootEntry n)) : Prop :=
  ∀ i, i < k.pageCount → .invalidated d (k.page i) ∈ mid

/-- **A flushed processor**: each page of the call is invalidated since the call has the lock. -/
def Flushed (log : List (ShootEntry n)) (c : Fin n) (k : ShootCall) (d : Fin n) : Prop :=
  ∃ mid rest, log = mid ++ .acquired c k :: rest ∧ (∀ e ∈ mid, e.caller ≠ some c) ∧
    Invalidated k d mid

/-- Each call that has returned had flushed the others. -/
def LogOk (log : List (ShootEntry n)) : Prop :=
  ∀ newer older c k, log = newer ++ .returned c k :: older → 0 < k.pageCount →
    ∀ d, d ≠ c → Flushed older c k d

/-- What a handler has read, and the pages it has invalidated. -/
def Follows (k : ShootCall) (d : Fin n) (mid : List (ShootEntry n)) : FlushPoint → Prop
  | .loadAck | .loadBase => True
  | .loadCount base => base = k.vaBase
  | .invalidate k' i => k' = k ∧ ∀ j, j < i → j < k.pageCount → .invalidated d (k.page j) ∈ mid
  | .addAck | .eoi => Invalidated k d mid

/-- A processor the round flushes: its flush is on its way, is handled, or was. -/
def Target (s : ShootSys n) (k : ShootCall) (mid : List (ShootEntry n)) (d : Fin n) : Prop :=
  match s.handler d with
  | none | some (_, .eoi) =>
      s.flight d = [s.round] ∨ (s.flight d = [] ∧ Invalidated k d mid)
  | some (r, p) => s.flight d = [] ∧ r = s.round ∧ Follows k d mid p

/-- **The round** of the processor that has the lock and is at `p`; `mid` is written since. -/
structure RoundInv (s : ShootSys n) (o : Fin n) (p : CallPoint) (mid : List (ShootEntry n)) :
    Prop where
  split : ∃ rest, s.log = mid ++ .acquired o (s.call o) :: rest
  own : ∀ e ∈ mid, e.caller ≠ some o
  base : p ≠ .setBase → s.tlbShootdownBase = (s.call o).vaBase
  count : p ≠ .setBase → p ≠ .setCount → s.tlbShootdownCount = (s.call o).pageCount
  cleared : p = .send → s.tlbShootdownAck = 0
  target : p.sent = true → ∀ d, d ≠ o → Target s (s.call o) mid d
  balance : p.sent = true → s.tlbShootdownAck + s.outstanding.card = n - 1
  done : p = .release → n - 1 ≤ s.tlbShootdownAck

structure ShootInv (s : ShootSys n) : Prop where
  log : LogOk s.log
  single : ∀ c i, s.pc c = .single i → n ≤ 1
  counted : ∀ r ∈ s.counted, r = s.round
  length : s.counted.length = s.tlbShootdownAck
  lock : s.tlbShootdownLock = true ↔ ∃ c, (s.pc c).holds = true
  alone : ∀ c c', (s.pc c).holds = true → (s.pc c').holds = true → c = c'
  due : ∀ d, s.due d = true → ∃ o, o ≠ d ∧ (s.pc o).sent = true
  round : ∀ o, (s.pc o).holds = true → ∃ mid, RoundInv s o (s.pc o) mid

section Rounds

variable {s s' : ShootSys n} {c d o : Fin n} {k : ShootCall} {p : CallPoint}
  {e : ShootEvent n} {es : List (ShootEvent n)} {log mid add : List (ShootEntry n)}

theorem holds_sent (h : p.sent = true) : p.holds = true := by
  cases p <;> first | rfl | cases h

theorem sent_ne (h : p.sent = true) : p ≠ .setBase ∧ p ≠ .setCount := by
  cases p <;> first | (cases h; done) | exact ⟨nofun, nofun⟩

theorem logOk_cons {x : ShootEntry n} (h : LogOk log)
    (hx : ∀ c k, x = .returned c k → 0 < k.pageCount → ∀ d, d ≠ c → Flushed log c k d) :
    LogOk (x :: log) := by
  intro newer older c k hlog hk d hd
  cases newer with
  | nil =>
      obtain ⟨rfl, rfl⟩ := List.cons.inj hlog
      exact hx c k rfl hk d hd
  | cons y newer =>
      exact h newer older c k (List.cons.inj hlog).2 hk d hd

theorem logOk_invalidated {va : Uptr} (h : LogOk log) : LogOk (.invalidated d va :: log) :=
  logOk_cons h fun _ _ he => by cases he

theorem logOk_append (h : LogOk log) (hadd : ∀ x ∈ add, ∃ va, x = .invalidated d va) :
    LogOk (add ++ log) := by
  induction add with
  | nil => exact h
  | cons x add ih =>
      obtain ⟨va, rfl⟩ := hadd x List.mem_cons_self
      exact logOk_cons (ih fun y hy => hadd y (List.mem_cons_of_mem _ hy)) nofun

theorem invalidated_mono (h : Invalidated k d mid) : Invalidated k d (add ++ mid) :=
  fun i hi => List.mem_append_right add (h i hi)

theorem follows_mono {q : FlushPoint} (h : Follows k d mid q) : Follows k d (add ++ mid) q := by
  cases q with
  | loadAck => trivial
  | loadBase => trivial
  | loadCount base => exact h
  | invalidate k' i => exact ⟨h.1, fun j hj hk => List.mem_append_right add (h.2 j hj hk)⟩
  | addAck => exact invalidated_mono h
  | eoi => exact invalidated_mono h

theorem target_mono (h : Target s k mid d) : Target s k (add ++ mid) d := by
  unfold Target at h ⊢
  split
  · rename_i hh
    rw [hh] at h
    exact h.imp_right fun h => ⟨h.1, invalidated_mono h.2⟩
  · rename_i hh
    rw [hh] at h
    exact h.imp_right fun h => ⟨h.1, invalidated_mono h.2⟩
  · rename_i r q hne hh
    rw [hh] at h
    cases q with
    | eoi => exact absurd rfl hne
    | loadAck => exact h
    | loadBase => exact h
    | loadCount base => exact h
    | invalidate k' i => exact ⟨h.1, h.2.1, follows_mono h.2.2⟩
    | addAck => exact ⟨h.1, h.2.1, follows_mono h.2.2⟩

/-! ## 3. Steps of a call -/

/-- A step of a processor that has not the lock, before it and after it. -/
theorem inv_outside (new : List (ShootEntry n)) {call : Fin n → ShootCall} (h : ShootInv s)
    (hc : (s.pc c).holds = false) (hp : p.holds = false) (hsingle : ∀ i, p = .single i → n ≤ 1)
    (hcall : ∀ o, o ≠ c → call o = s.call o) (hlog : LogOk (new ++ s.log))
    (hadd : ∀ x ∈ new, ∀ o, x.caller = some o → o = c) :
    ShootInv { s with call := call, pc := update s.pc c p, log := new ++ s.log } := by
  have hne : ∀ o, (s.pc o).holds = true → o ≠ c := fun o ho he => by
    rw [he, hc] at ho
    cases ho
  have hne' : ∀ o, (update s.pc c p o).holds = true → o ≠ c := fun o ho he => by
    rw [he, update_self, hp] at ho
    cases ho
  have hpc : ∀ o, o ≠ c → update s.pc c p o = s.pc o := fun o ho => update_of_ne ho _ _
  refine ⟨hlog, fun o i ho => ?_, h.counted, h.length, ?_, fun o o' ho ho' => ?_,
    fun d hd => ?_, fun o ho => ?_⟩
  · replace ho : update s.pc c p o = .single i := ho
    by_cases hoc : o = c
    · rw [hoc, update_self] at ho
      exact hsingle i ho
    · rw [hpc o hoc] at ho
      exact h.single o i ho
  · refine h.lock.trans ⟨fun hex => ?_, fun hex => ?_⟩
    · obtain ⟨o, ho⟩ := hex
      refine ⟨o, ?_⟩
      show (update s.pc c p o).holds = true
      rw [hpc o (hne o ho)]
      exact ho
    · obtain ⟨o, ho⟩ := hex
      have hoc := hne' o ho
      replace ho : (update s.pc c p o).holds = true := ho
      rw [hpc o hoc] at ho
      exact ⟨o, ho⟩
  · have hoc := hne' o ho
    have hoc' := hne' o' ho'
    replace ho : (update s.pc c p o).holds = true := ho
    replace ho' : (update s.pc c p o').holds = true := ho'
    rw [hpc o hoc] at ho
    rw [hpc o' hoc'] at ho'
    exact h.alone o o' ho ho'
  · obtain ⟨o, hod, ho⟩ := h.due d hd
    refine ⟨o, hod, ?_⟩
    show (update s.pc c p o).sent = true
    rw [hpc o (hne o (holds_sent ho))]
    exact ho
  · have hoc := hne' o ho
    have hpo := hpc o hoc
    replace ho : (update s.pc c p o).holds = true := ho
    rw [hpo] at ho
    obtain ⟨mid, hr⟩ := h.round o ho
    obtain ⟨rest, hsplit⟩ := hr.split
    refine ⟨new ++ mid, ?_⟩
    change RoundInv _ o (update s.pc c p o) _
    rw [hpo]
    refine ⟨⟨rest, ?_⟩, fun x hx => ?_, ?_, ?_, ?_, ?_, ?_, ?_⟩
    · show new ++ s.log = new ++ mid ++ .acquired o (call o) :: rest
      rw [hcall o hoc, hsplit, List.append_assoc]
    · rcases List.mem_append.mp hx with hx | hx
      · exact fun hxo => hoc (hadd x hx o hxo)
      · exact hr.own x hx
    · show s.pc o ≠ .setBase → s.tlbShootdownBase = (call o).vaBase
      rw [hcall o hoc]
      exact hr.base
    · show s.pc o ≠ .setBase → s.pc o ≠ .setCount → s.tlbShootdownCount = (call o).pageCount
      rw [hcall o hoc]
      exact hr.count
    · exact hr.cleared
    · show (s.pc o).sent = true → ∀ d, d ≠ o → Target s (call o) (new ++ mid) d
      rw [hcall o hoc]
      exact fun hs d hd => target_mono (hr.target hs d hd)
    · exact hr.balance
    · exact hr.done

/-- A step of the processor that has the lock and keeps it. -/
theorem inv_holder (h : ShootInv s) (ho : (s.pc o).holds = true) (hp : p.holds = true)
    (hpc : s'.pc = update s.pc o p) (hlock : s'.tlbShootdownLock = s.tlbShootdownLock)
    (hlog : LogOk s'.log) (hcounted : ∀ r ∈ s'.counted, r = s'.round)
    (hlength : s'.counted.length = s'.tlbShootdownAck)
    (hdue : ∀ d, s'.due d = true → o ≠ d ∧ p.sent = true) (hround : RoundInv s' o p mid) :
    ShootInv s' := by
  have hown : ∀ c, (s'.pc c).holds = true → c = o := fun c hc => by
    by_cases hco : c = o
    · exact hco
    · rw [hpc, update_of_ne hco] at hc
      exact h.alone c o hc ho
  have hpo : s'.pc o = p := by rw [hpc, update_self]
  refine ⟨hlog, fun c i hc => ?_, hcounted, hlength, ?_, fun c c' hc hc' => ?_, fun d hd => ?_,
    fun c hc => ?_⟩
  · by_cases hco : c = o
    · rw [hco, hpo] at hc
      rw [hc] at hp
      cases hp
    · rw [hpc, update_of_ne hco] at hc
      exact h.single c i hc
  · rw [hlock, h.lock]
    refine ⟨fun _ => ⟨o, ?_⟩, fun _ => ⟨o, ho⟩⟩
    rw [hpo]
    exact hp
  · rw [hown c hc, hown c' hc']
  · refine ⟨o, (hdue d hd).1, ?_⟩
    rw [hpo]
    exact (hdue d hd).2
  · rw [hown c hc, hpo]
    exact ⟨mid, hround⟩

theorem due_holder (h : ShootInv s) (ho : (s.pc o).holds = true) (hd : s.due d = true) :
    o ≠ d ∧ (s.pc o).sent = true := by
  obtain ⟨o', hne, ho'⟩ := h.due d hd
  rw [h.alone o o' ho (holds_sent ho')]
  exact ⟨hne, ho'⟩

/-- Before the flushes of a round are sent nothing is due. -/
theorem not_due (h : ShootInv s) (ho : (s.pc o).holds = true) (hs : (s.pc o).sent = false)
    (d : Fin n) : s.due d = false := by
  refine Bool.eq_false_iff.mpr fun hd => ?_
  have := (due_holder h ho hd).2
  rw [hs] at this
  cases this

theorem idle_of_not_due (h : s.due d = false) :
    s.flight d = [] ∧ (s.handler d = none ∨ ∃ r, s.handler d = some (r, .eoi)) := by
  unfold ShootSys.due at h
  split at h
  · rename_i hh
    rw [Bool.not_eq_false', List.isEmpty_iff] at h
    exact ⟨h, Or.inl hh⟩
  · rename_i r hh
    rw [Bool.not_eq_false', List.isEmpty_iff] at h
    exact ⟨h, Or.inr ⟨r, hh⟩⟩
  · cases h

theorem target_idle (h : s.due d = false) : Target s k mid d ↔ Invalidated k d mid := by
  obtain ⟨hf, hh⟩ := idle_of_not_due h
  unfold Target
  rcases hh with hh | ⟨r, hh⟩
  · rw [hh, hf]
    simp
  · rw [hh, hf]
    simp

/-- When all flushes of a round are counted, the others have invalidated the pages. -/
theorem round_done (h : RoundInv s o p mid) (hs : p.sent = true)
    (ha : n - 1 ≤ s.tlbShootdownAck) :
    (∀ d, s.due d = false) ∧ ∀ d, d ≠ o → Invalidated (s.call o) d mid := by
  have hnone : s.outstanding = ∅ := by
    have := h.balance hs
    exact Finset.card_eq_zero.mp (by omega)
  have hdue : ∀ d, s.due d = false := fun d => by
    refine Bool.eq_false_iff.mpr fun hd => ?_
    have hin : d ∈ s.outstanding := Finset.mem_filter.mpr ⟨Finset.mem_univ d, hd⟩
    rw [hnone] at hin
    exact absurd hin (Finset.notMem_empty d)
  exact ⟨hdue, fun d hd => (target_idle (hdue d)).mp (h.target hs d hd)⟩

/-- `lapic_send_tlb_flush_ipi`: all but the sender are due. -/
theorem send_due (h : ∀ d, s.due d = false) (o d : Fin n) :
    (lapicSendTlbFlushIpi s o).due d = true ↔ d ≠ o := by
  obtain ⟨hf, hh⟩ := idle_of_not_due (h d)
  unfold ShootSys.due lapicSendTlbFlushIpi
  rcases hh with hh | ⟨r, hh⟩
  · rw [hh]
    by_cases hd : d = o <;> simp [hd, hf]
    rw [← hd, hf]
  · rw [hh]
    by_cases hd : d = o <;> simp [hd, hf]
    rw [← hd, hf]

theorem send_target (h : s.due d = false) (hd : d ≠ o) :
    Target (lapicSendTlbFlushIpi s o) k mid d := by
  obtain ⟨hf, hh⟩ := idle_of_not_due h
  unfold Target lapicSendTlbFlushIpi
  rcases hh with hh | ⟨r, hh⟩
  · rw [hh]
    simp [hd, hf]
  · rw [hh]
    simp [hd, hf]

theorem inv_send (h : ShootInv s) (ho : s.pc o = .send) :
    ShootInv { lapicSendTlbFlushIpi s o with pc := update s.pc o (.invalidate 0) } := by
  have hholds : (s.pc o).holds = true := by rw [ho]; rfl
  have hnot : ∀ d, s.due d = false := not_due h hholds (by rw [ho]; rfl)
  obtain ⟨mid, hr⟩ := h.round o hholds
  rw [ho] at hr
  refine inv_holder h hholds (p := .invalidate 0) rfl rfl rfl h.log h.counted h.length
    (fun d hd => ⟨fun hod => (send_due hnot o d).mp hd hod.symm, rfl⟩)
    (show RoundInv _ o _ mid from ?_)
  refine ⟨hr.split, hr.own, fun _ => hr.base nofun, fun _ _ => hr.count nofun nofun,
    nofun, fun _ d hd => send_target (hnot d) hd, fun _ => ?_, nofun⟩
  have hout : (lapicSendTlbFlushIpi s o).outstanding = Finset.univ.erase o := by
    ext d
    simp [ShootSys.outstanding, send_due hnot]
  show s.tlbShootdownAck + (lapicSendTlbFlushIpi s o).outstanding.card = n - 1
  rw [hr.cleared rfl, hout, Finset.card_erase_of_mem (Finset.mem_univ o), Finset.card_univ,
    Fintype.card_fin]
  omega

/-- The lock is free: the exchange takes it. -/
theorem inv_acquired (h : ShootInv s) (hc : s.pc c = .exchange) (hl : s.tlbShootdownLock = false) :
    ShootInv { s with
      tlbShootdownLock := true
      pc := update s.pc c .setBase
      log := .acquired c (s.call c) :: s.log } := by
  have hnone : ∀ o, (s.pc o).holds = false := fun o => by
    refine Bool.eq_false_iff.mpr fun ho => ?_
    have := h.lock.mpr ⟨o, ho⟩
    rw [hl] at this
    cases this
  have hown : ∀ o, (update s.pc c .setBase o).holds = true → o = c := fun o ho => by
    by_cases hoc : o = c
    · exact hoc
    · rw [update_of_ne hoc, hnone o] at ho
      cases ho
  refine ⟨logOk_cons h.log nofun, fun o i ho => ?_, h.counted, h.length, ?_,
    fun o o' ho ho' => (hown o ho).trans (hown o' ho').symm, fun d hd => ?_, fun o ho => ?_⟩
  · replace ho : update s.pc c .setBase o = .single i := ho
    by_cases hoc : o = c
    · rw [hoc, update_self] at ho
      cases ho
    · rw [update_of_ne hoc] at ho
      exact h.single o i ho
  · refine ⟨fun _ => ⟨c, ?_⟩, fun _ => rfl⟩
    show (update s.pc c .setBase c).holds = true
    rw [update_self]
    rfl
  · obtain ⟨o, _, ho⟩ := h.due d hd
    have := holds_sent ho
    rw [hnone o] at this
    cases this
  · obtain rfl := hown o ho
    refine ⟨[], ?_⟩
    change RoundInv _ o (update s.pc o .setBase o) []
    rw [update_self]
    exact ⟨⟨s.log, rfl⟩, fun x hx => absurd hx List.not_mem_nil, fun hs => absurd rfl hs,
      fun hs => absurd rfl hs, nofun, nofun, nofun, nofun⟩

/-- The call returns, and the lock is free. -/
theorem inv_released (h : ShootInv s) (ho : s.pc o = .release) :
    ShootInv { s with
      tlbShootdownLock := false
      pc := update s.pc o .away
      log := .returned o (s.call o) :: s.log } := by
  have hholds : (s.pc o).holds = true := by rw [ho]; rfl
  obtain ⟨mid, hr⟩ := h.round o hholds
  rw [ho] at hr
  obtain ⟨hdue, hinv⟩ := round_done hr rfl (hr.done rfl)
  have hnone : ∀ c, (update s.pc o .away c).holds = false := fun c => by
    by_cases hco : c = o
    · rw [hco, update_self]
      rfl
    · rw [update_of_ne hco]
      exact Bool.eq_false_iff.mpr fun hc => hco (h.alone c o hc hholds)
  have hnot : ∀ c, ¬(update s.pc o .away c).holds = true := fun c => Bool.eq_false_iff.mp (hnone c)
  refine ⟨logOk_cons h.log fun c k he hk d hd => ?_, fun c i hc => ?_, h.counted, h.length, ?_,
    fun c _ hc => absurd hc (hnot c), fun d hd => absurd hd (Bool.eq_false_iff.mp (hdue d)),
    fun c hc => absurd hc (hnot c)⟩
  · cases he
    obtain ⟨rest, hsplit⟩ := hr.split
    exact ⟨mid, rest, hsplit, hr.own, hinv d hd⟩
  · replace hc : update s.pc o .away c = .single i := hc
    by_cases hco : c = o
    · rw [hco, update_self] at hc
      cases hc
    · rw [update_of_ne hco] at hc
      exact h.single c i hc
  · refine ⟨nofun, fun hex => ?_⟩
    obtain ⟨c, hc⟩ := hex
    exact absurd hc (hnot c)

theorem inv_setBase (h : ShootInv s) (ho : s.pc o = .setBase) :
    ShootInv { s with
      tlbShootdownBase := (s.call o).vaBase
      pc := update s.pc o .setCount } := by
  have hholds : (s.pc o).holds = true := by rw [ho]; rfl
  have hnot : ∀ d, s.due d = false := not_due h hholds (by rw [ho]; rfl)
  obtain ⟨mid, hr⟩ := h.round o hholds
  refine inv_holder h hholds (p := .setCount) rfl rfl rfl h.log h.counted h.length
    (fun d hd => absurd hd (Bool.eq_false_iff.mp (hnot d))) (show RoundInv _ o _ mid from ?_)
  exact ⟨hr.split, hr.own, fun _ => rfl, fun _ hs => absurd rfl hs, nofun, nofun, nofun, nofun⟩

theorem inv_setCount (h : ShootInv s) (ho : s.pc o = .setCount) :
    ShootInv { s with
      tlbShootdownCount := (s.call o).pageCount
      pc := update s.pc o .clearAck } := by
  have hholds : (s.pc o).holds = true := by rw [ho]; rfl
  have hnot : ∀ d, s.due d = false := not_due h hholds (by rw [ho]; rfl)
  obtain ⟨mid, hr⟩ := h.round o hholds
  rw [ho] at hr
  refine inv_holder h hholds (p := .clearAck) rfl rfl rfl h.log h.counted h.length
    (fun d hd => absurd hd (Bool.eq_false_iff.mp (hnot d))) (show RoundInv _ o _ mid from ?_)
  exact ⟨hr.split, hr.own, fun _ => hr.base nofun, fun _ _ => rfl, nofun, nofun, nofun, nofun⟩

theorem inv_clearAck (h : ShootInv s) (ho : s.pc o = .clearAck) :
    ShootInv { s with
      tlbShootdownAck := 0
      round := s.round + 1
      counted := []
      pc := update s.pc o .send } := by
  have hholds : (s.pc o).holds = true := by rw [ho]; rfl
  have hnot : ∀ d, s.due d = false := not_due h hholds (by rw [ho]; rfl)
  obtain ⟨mid, hr⟩ := h.round o hholds
  rw [ho] at hr
  refine inv_holder h hholds (p := .send) rfl rfl rfl h.log (fun r hm => absurd hm List.not_mem_nil)
    rfl (fun d hd => absurd hd (Bool.eq_false_iff.mp (hnot d))) (show RoundInv _ o _ mid from ?_)
  exact ⟨hr.split, hr.own, fun _ => hr.base nofun, fun _ _ => hr.count nofun nofun, fun _ => rfl,
    nofun, nofun, nofun⟩

theorem inv_invalidate {i : Usize} {va : Uptr} (h : ShootInv s) (ho : s.pc o = .invalidate i) :
    ShootInv { s with
      pc := update s.pc o (.invalidate (i + 1))
      log := .invalidated o va :: s.log } := by
  have hholds : (s.pc o).holds = true := by rw [ho]; rfl
  obtain ⟨mid, hr⟩ := h.round o hholds
  rw [ho] at hr
  obtain ⟨rest, hsplit⟩ := hr.split
  refine inv_holder h hholds (p := .invalidate (i + 1)) rfl rfl rfl (logOk_invalidated h.log)
    h.counted h.length (fun d hd => ⟨(due_holder h hholds hd).1, rfl⟩)
    (show RoundInv _ o _ ([.invalidated o va] ++ mid) from ?_)
  refine ⟨⟨rest, congrArg (List.cons _) hsplit⟩, fun x hx => ?_, fun _ => hr.base nofun,
    fun _ _ => hr.count nofun nofun, nofun, fun _ d hd => ?_, fun _ => hr.balance rfl, nofun⟩
  · rcases List.mem_cons.mp hx with rfl | hx
    · exact nofun
    · exact hr.own x hx
  · exact target_mono (hr.target rfl d hd)

theorem inv_waiting {i : Usize} (h : ShootInv s) (ho : s.pc o = .invalidate i) :
    ShootInv { s with pc := update s.pc o .wait } := by
  have hholds : (s.pc o).holds = true := by rw [ho]; rfl
  obtain ⟨mid, hr⟩ := h.round o hholds
  rw [ho] at hr
  refine inv_holder h hholds (p := .wait) rfl rfl rfl h.log h.counted h.length
    (fun d hd => ⟨(due_holder h hholds hd).1, rfl⟩) (show RoundInv _ o _ mid from ?_)
  exact ⟨hr.split, hr.own, fun _ => hr.base nofun, fun _ _ => hr.count nofun nofun, nofun,
    fun _ => hr.target rfl, fun _ => hr.balance rfl, nofun⟩

theorem inv_counted (h : ShootInv s) (ho : s.pc o = .wait) (ha : n - 1 ≤ s.tlbShootdownAck) :
    ShootInv { s with pc := update s.pc o .release } := by
  have hholds : (s.pc o).holds = true := by rw [ho]; rfl
  obtain ⟨mid, hr⟩ := h.round o hholds
  rw [ho] at hr
  refine inv_holder h hholds (p := .release) rfl rfl rfl h.log h.counted h.length
    (fun d hd => ⟨(due_holder h hholds hd).1, rfl⟩) (show RoundInv _ o _ mid from ?_)
  exact ⟨hr.split, hr.own, fun _ => hr.base nofun, fun _ _ => hr.count nofun nofun, nofun,
    fun _ => hr.target rfl, fun _ => hr.balance rfl, fun _ => ha⟩

/-- **One step of a call.** -/
theorem inv_shootdown (h : ShootInv s) (hs : vmmShootdownStep s c = some s') : ShootInv s' := by
  unfold vmmShootdownStep at hs
  split at hs
  · cases hs
  · rename_i i hc
    have hn := h.single c i hc
    have hout : (s.pc c).holds = false := by rw [hc]; rfl
    split at hs
    · cases hs
      exact inv_outside [_] h hout rfl (fun _ _ => hn) (fun _ _ => rfl) (logOk_invalidated h.log)
        (by simp [ShootEntry.caller])
    · cases hs
      refine inv_outside [_] h hout rfl nofun (fun _ _ => rfl) ?_ (by simp [ShootEntry.caller])
      exact logOk_cons h.log fun _ _ _ _ d hd => absurd (Fin.ext (by omega)) hd
  · rename_i hc
    have hout : (s.pc c).holds = false := by rw [hc]; rfl
    split at hs
    · cases hs
      exact inv_outside [] h hout rfl nofun (fun _ _ => rfl) h.log (by simp)
    · rename_i hl
      cases hs
      exact inv_acquired h hc (Bool.eq_false_iff.mpr hl)
  · rename_i hc
    have hout : (s.pc c).holds = false := by rw [hc]; rfl
    split at hs
    · cases hs
      exact h
    · cases hs
      exact inv_outside [] h hout rfl nofun (fun _ _ => rfl) h.log (by simp)
  · rename_i hc
    cases hs
    exact inv_setBase h hc
  · rename_i hc
    cases hs
    exact inv_setCount h hc
  · rename_i hc
    cases hs
    exact inv_clearAck h hc
  · rename_i hc
    cases hs
    exact inv_send h hc
  · rename_i i hc
    split at hs
    · cases hs
      exact inv_invalidate h hc
    · cases hs
      exact inv_waiting h hc
  · rename_i hc
    split at hs
    · cases hs
      exact h
    · rename_i ha
      cases hs
      exact inv_counted h hc (by omega)
  · rename_i hc
    cases hs
    exact inv_released h hc

/-! ## 4. Steps of a handler -/

theorem due_of_ne {x : Fin n} (hf : s'.flight x = s.flight x) (hh : s'.handler x = s.handler x) :
    s'.due x = s.due x := by
  unfold ShootSys.due
  rw [hf, hh]

theorem target_of_ne {x : Fin n} (hf : s'.flight x = s.flight x)
    (hh : s'.handler x = s.handler x) (hround : s'.round = s.round) (h : Target s k mid x) :
    Target s' k mid x := by
  unfold Target at h ⊢
  rw [hf, hh, hround]
  exact h

/-- A step of what is under way on one processor: its message, its handler, the counter. -/
theorem inv_handled (new : List (ShootEntry n)) {f : List Nat} {q : Option (Nat × FlushPoint)}
    {ack : Nat} {counted : List Nat} (h : ShootInv s)
    (hs : s' = { s with
      tlbShootdownAck := ack
      counted := counted
      flight := update s.flight d f
      handler := update s.handler d q
      log := new ++ s.log })
    (hnew : ∀ x ∈ new, ∃ va, x = .invalidated d va)
    (hcounted : ∀ r ∈ counted, r = s.round) (hlength : counted.length = ack)
    (hdue : (s'.due d = s.due d ∧ ack = s.tlbShootdownAck) ∨
      (s.due d = true ∧ s'.due d = false ∧ ack = s.tlbShootdownAck + 1))
    (htarget : ∀ k mid, s.tlbShootdownBase = k.vaBase → s.tlbShootdownCount = k.pageCount →
      Target s k mid d → Target s' k (new ++ mid) d) : ShootInv s' := by
  have hflight : ∀ x, x ≠ d → s'.flight x = s.flight x := fun x hx => by
    rw [hs]
    exact update_of_ne hx _ _
  have hhandler : ∀ x, x ≠ d → s'.handler x = s.handler x := fun x hx => by
    rw [hs]
    exact update_of_ne hx _ _
  have hother : ∀ x, x ≠ d → s'.due x = s.due x := fun x hx =>
    due_of_ne (hflight x hx) (hhandler x hx)
  have hsub : ∀ x, s'.due x = true → s.due x = true := fun x hx => by
    by_cases hxd : x = d
    · rw [hxd] at hx ⊢
      rcases hdue with ⟨he, _⟩ | ⟨he, _, _⟩
      · rw [← he]
        exact hx
      · exact he
    · rw [← hother x hxd]
      exact hx
  have hack : s.tlbShootdownAck ≤ ack := by omega
  have hbalance : ack + s'.outstanding.card = s.tlbShootdownAck + s.outstanding.card := by
    rcases hdue with ⟨hd, ha⟩ | ⟨hd, hd', ha⟩
    · have hout : s'.outstanding = s.outstanding := by
        ext x
        by_cases hxd : x = d
        · simp [ShootSys.outstanding, hxd, hd]
        · simp [ShootSys.outstanding, hother x hxd]
      rw [hout, ha]
    · have hin : d ∈ s.outstanding := Finset.mem_filter.mpr ⟨Finset.mem_univ d, hd⟩
      have hout : s'.outstanding = s.outstanding.erase d := by
        ext x
        by_cases hxd : x = d
        · simp [ShootSys.outstanding, hxd, hd']
        · simp [ShootSys.outstanding, hother x hxd, hxd]
      have hpos := Finset.card_pos.mpr ⟨d, hin⟩
      rw [hout, Finset.card_erase_of_mem hin]
      omega
  have hlog : LogOk (new ++ s.log) := logOk_append h.log hnew
  subst hs
  refine ⟨hlog, h.single, hcounted, hlength, h.lock, h.alone, fun x hx => h.due x (hsub x hx),
    fun o ho => ?_⟩
  obtain ⟨mid, hr⟩ := h.round o ho
  obtain ⟨rest, hsplit⟩ := hr.split
  refine ⟨new ++ mid, ⟨rest, ?_⟩, fun x hx => ?_, hr.base, hr.count, fun hp => ?_,
    fun hp x hx => ?_, fun hp => hbalance.trans (hr.balance hp), fun hp => (hr.done hp).trans hack⟩
  · show new ++ s.log = new ++ mid ++ .acquired o (s.call o) :: rest
    rw [hsplit, List.append_assoc]
  · rcases List.mem_append.mp hx with hx | hx
    · obtain ⟨va, rfl⟩ := hnew x hx
      exact nofun
    · exact hr.own x hx
  · rcases hdue with ⟨_, ha⟩ | ⟨hd, _, _⟩
    · exact ha.trans (hr.cleared hp)
    · have hsent := (due_holder h ho hd).2
      rw [show s.pc o = .send from hp] at hsent
      cases hsent
  · have hpc : (s.pc o).sent = true := hp
    by_cases hxd : x = d
    · rw [hxd] at hx ⊢
      obtain ⟨hb, hc⟩ := sent_ne hpc
      exact htarget _ mid (hr.base hb) (hr.count hb hc) (hr.target hp d hx)
    · exact target_mono (target_of_ne (hflight x hxd) (hhandler x hxd) rfl (hr.target hp x hx))

theorem due_busy {r : Nat} {q : FlushPoint} (hh : s.handler d = some (r, q)) (hq : q ≠ .eoi) :
    s.due d = true := by
  unfold ShootSys.due
  rw [hh]
  cases q <;> first | rfl | exact absurd rfl hq

theorem target_busy {r : Nat} {q : FlushPoint} (hh : s.handler d = some (r, q)) (hq : q ≠ .eoi) :
    Target s k mid d ↔ s.flight d = [] ∧ r = s.round ∧ Follows k d mid q := by
  unfold Target
  rw [hh]
  cases q <;> first | rfl | exact absurd rfl hq

/-- A step of a handler that is not yet done, and does not count. -/
theorem inv_follows (new : List (ShootEntry n)) {r : Nat} {q q' : FlushPoint} (h : ShootInv s)
    (hh : s.handler d = some (r, q)) (hq : q ≠ .eoi) (hq' : q' ≠ .eoi)
    (hnew : ∀ x ∈ new, ∃ va, x = .invalidated d va)
    (hfollows : ∀ k mid, s.tlbShootdownBase = k.vaBase → s.tlbShootdownCount = k.pageCount →
      Follows k d mid q → Follows k d (new ++ mid) q') :
    ShootInv { s with handler := update s.handler d (some (r, q')), log := new ++ s.log } := by
  have hhd : update s.handler d (some (r, q')) d = some (r, q') := update_self _ _ _
  refine inv_handled (d := d) new (f := s.flight d) h (by rw [update_eq_self]) hnew h.counted
    h.length (Or.inl ⟨?_, rfl⟩) fun k mid hb hc ht => ?_
  · rw [due_busy hh hq]
    exact due_busy hhd hq'
  · obtain ⟨hf, hr, hfol⟩ := (target_busy hh hq).mp ht
    exact (target_busy hhd hq').mpr ⟨hf, hr, hfollows k mid hb hc hfol⟩

theorem due_target (h : ShootInv s) (hd : s.due d = true) : ∃ k mid, Target s k mid d := by
  obtain ⟨o, hne, ho⟩ := h.due d hd
  obtain ⟨mid, hr⟩ := h.round o (holds_sent ho)
  exact ⟨_, mid, hr.target ho d hne.symm⟩

/-- The acknowledgement is one of the round. -/
theorem inv_addAck {r : Nat} (h : ShootInv s) (hh : s.handler d = some (r, .addAck)) :
    ShootInv { s with
      tlbShootdownAck := s.tlbShootdownAck + 1
      counted := r :: s.counted
      handler := update s.handler d (some (r, .eoi)) } := by
  have hd : s.due d = true := due_busy hh nofun
  obtain ⟨k, mid, ht⟩ := due_target h hd
  obtain ⟨hf, hr, _⟩ := (target_busy hh nofun).mp ht
  have hhd : update s.handler d (some (r, .eoi)) d = some (r, .eoi) := update_self _ _ _
  refine inv_handled (d := d) [] (f := s.flight d) (q := some (r, .eoi)) h
    (by rw [update_eq_self, List.nil_append]) nofun (fun x hx => ?_) (congrArg (· + 1) h.length)
    (Or.inr ⟨hd, ?_, rfl⟩) fun k mid _ _ ht => ?_
  · rcases List.mem_cons.mp hx with rfl | hx
    · exact hr
    · exact h.counted x hx
  · unfold ShootSys.due
    dsimp only
    rw [hhd, hf]
    rfl
  · obtain ⟨_, _, hfol⟩ := (target_busy hh nofun).mp ht
    unfold Target
    dsimp only
    rw [hhd]
    exact Or.inr ⟨hf, hfol⟩

theorem inv_eoi {r : Nat} (h : ShootInv s) (hh : s.handler d = some (r, .eoi)) :
    ShootInv { s with handler := update s.handler d none } := by
  have hhd : update s.handler d none d = none := update_self _ _ _
  refine inv_handled (d := d) [] (f := s.flight d) (q := none) h
    (by rw [update_eq_self, List.nil_append]) nofun h.counted h.length (Or.inl ⟨?_, rfl⟩)
    fun k mid _ _ ht => ?_
  · unfold ShootSys.due
    dsimp only
    rw [hhd, hh]
  · unfold Target at ht ⊢
    dsimp only
    rw [hhd]
    rw [hh] at ht
    exact ht

/-- **One step of a handler.** -/
theorem inv_flush (h : ShootInv s) (hs : vmmTlbFlushStep s d = some s') : ShootInv s' := by
  unfold vmmTlbFlushStep at hs
  split at hs
  · cases hs
  · rename_i r hh
    cases hs
    exact inv_follows [] h hh nofun nofun nofun fun _ _ _ _ _ => trivial
  · rename_i r hh
    cases hs
    exact inv_follows [] h hh nofun nofun nofun fun _ _ hb _ _ => hb
  · rename_i r base hh
    cases hs
    refine inv_follows [] h hh nofun nofun nofun fun k mid _ hc hfol => ⟨?_, ?_⟩
    · rw [hc, show base = k.vaBase from hfol]
    · exact fun j hj => absurd hj (BitVec.not_lt_zero)
  · rename_i r k' i hh
    split at hs
    · rename_i hi
      cases hs
      refine inv_follows [_] h hh nofun nofun (fun x hx => ⟨_, List.mem_singleton.mp hx⟩)
        fun k mid _ _ hfol => ⟨hfol.1, fun j hj hjk => ?_⟩
      obtain ⟨rfl, hdone⟩ := hfol
      by_cases hji : j = i
      · rw [hji]
        exact List.mem_cons_self
      · refine List.mem_cons_of_mem _ (hdone j ?_ hjk)
        bv_omega
    · rename_i hi
      cases hs
      refine inv_follows [] h hh nofun nofun nofun fun k mid _ _ hfol j hjk => ?_
      obtain ⟨rfl, hdone⟩ := hfol
      refine hdone j ?_ hjk
      bv_omega
  · rename_i r hh
    cases hs
    exact inv_addAck h hh
  · rename_i r hh
    cases hs
    exact inv_eoi h hh

/-- A flush that is delivered is the only one, and one of the round. -/
theorem inv_deliver (h : ShootInv s) (hs : lapicDeliver s d = some s') : ShootInv s' := by
  unfold lapicDeliver at hs
  split at hs
  · rename_i r m hh hf
    cases hs
    have hd : s.due d = true := by
      unfold ShootSys.due
      rw [hh, hf]
      rfl
    have hhd : update s.handler d (some (r, .loadAck)) d = some (r, .loadAck) := update_self _ _ _
    refine inv_handled (d := d) [] (f := m) h rfl nofun h.counted h.length (Or.inl ⟨?_, rfl⟩)
      fun k mid _ _ ht => ?_
    · rw [hd]
      exact due_busy hhd nofun
    · unfold Target at ht
      rw [hh, hf] at ht
      rcases ht with hone | ⟨hnil, _⟩
      · obtain ⟨hr, hm⟩ := List.cons.inj hone
        refine (target_busy (q := .loadAck) hhd nofun).mpr ⟨?_, hr, trivial⟩
        show update s.flight d m d = []
        rw [update_self, hm]
      · cases hnil
  · cases hs

theorem inv_shootCall (h : ShootInv s) (hc : s.pc c = .away) :
    ShootInv (vmmShootdownBegin s c k) := by
  have hout : (s.pc c).holds = false := by rw [hc]; rfl
  unfold vmmShootdownBegin
  split
  · rename_i hk
    have h' := inv_outside [.returned c k] h hout (p := .away) rfl nofun (fun _ _ => rfl)
      (logOk_cons h.log fun c' k' he hpos => ?_) (by simp [ShootEntry.caller])
    · rw [show update s.pc c .away = s.pc from by rw [← hc, update_eq_self]] at h'
      exact h'
    · cases he
      rw [hk] at hpos
      exact absurd hpos (by decide)
  · refine inv_outside [] h hout ?_ (fun i hi => ?_) (fun o ho => update_of_ne ho _ _) h.log
      (by simp)
    · split <;> rfl
    · split at hi
      · assumption
      · cases hi

/-- **One step.** -/
theorem inv_shootStep (h : ShootInv s) (hs : shootStep s e = some s') : ShootInv s' := by
  cases e with
  | call c k =>
      rw [shootStep] at hs
      split at hs
      · rename_i hc
        cases hs
        exact inv_shootCall h hc.1
      · cases hs
  | run c =>
      rw [shootStep] at hs
      split at hs
      · exact inv_shootdown h hs
      · cases hs
  | deliver d => exact inv_deliver h hs
  | handle d => exact inv_flush h hs

theorem inv_shootInit : ShootInv (shootInit n) := by
  refine ⟨fun newer older c k hlog => ?_, nofun, fun r hr => absurd hr List.not_mem_nil, rfl,
    ⟨nofun, fun hex => ?_⟩, nofun, nofun, nofun⟩
  · have := List.append_eq_nil_iff.mp hlog.symm
    cases this.2
  · obtain ⟨c, hc⟩ := hex
    cases hc

/-- **The shootdown is complete.** In every run, when a call returns, every other processor has
    invalidated each page of its range since the call has the lock; and the counter counts
    acknowledgements of the current round only. -/
theorem shootdown_complete
    (hrun : Runs shootStep (fun _ _ => True) (shootInit n) es s) :
    (∀ newer older c k, s.log = newer ++ .returned c k :: older → 0 < k.pageCount →
      ∀ d, d ≠ c → Flushed older c k d) ∧
    s.counted.length = s.tlbShootdownAck ∧ ∀ r ∈ s.counted, r = s.round := by
  have h : ShootInv s :=
    runs_inv ShootInv inv_shootInit (fun _ _ _ ht _ hs => inv_shootStep ht hs) hrun
  exact ⟨h.log, h.length, h.counted⟩

end Rounds

/-- A call of the first of two processors: the second one handles its flush. -/
def onePage : List (ShootEvent 2) :=
  [.call 0 ⟨0x1000, 1⟩, .run 0, .run 0, .run 0, .run 0, .run 0, .deliver 1, .handle 1, .handle 1,
    .run 0, .handle 1, .handle 1, .handle 1, .run 0, .handle 1, .run 0, .handle 1, .run 0]

theorem shootdown_complete_two : ∃ s older,
    Runs shootStep (fun _ _ => True) (shootInit 2) onePage s ∧
      s.log = .returned 0 ⟨0x1000, 1⟩ :: older ∧ Flushed older 0 ⟨0x1000, 1⟩ 1 := by
  have hrun : Runs shootStep (fun _ _ => True) (shootInit 2) onePage _ := runs_exec rfl
  exact ⟨_, _, hrun, rfl,
    (shootdown_complete hrun).1 [] _ 0 ⟨0x1000, 1⟩ rfl (by decide) 1 (by decide)⟩

end Slightx
