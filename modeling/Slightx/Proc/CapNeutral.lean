/-
  File:      Slightx/Proc/CapNeutral.lean
  Subject:   The references that capability system calls take.

  `cap_table_get` counts the reference it returns, for its caller to drop. The handlers that use
  a capability do not drop it: each call that finds its object leaves a reference that nobody
  holds.

  * `SyscEffect` -- what a handler that returns has done to the table and the counters;
  * **`capSysc_neutral_iff`** -- a handler keeps the counters of a table in balance exactly when
    it releases a capability or finds no object; so a run of such calls stays in balance
-/
import Slightx.Proc.Syscall
import Slightx.Proc.CapLife

namespace Slightx

open Lib

/-! ## 1. The handlers -/

inductive CapSysc where
  | read
  | write
  | invoke
  | map
  | ctl
  | release
  deriving DecidableEq, Repr

def capSysc {ω : Type} : CapSysc → SyscallFrame → Prog Fault (CapState ω) U64
  | .read => syscCapread
  | .write => syscCapwrite
  | .invoke => syscCapinvoke
  | .map => syscCapmap
  | .ctl => syscCapctl
  | .release => syscCaprelease

/-- The right a handler asks for. -/
def CapSysc.right : CapSysc → CapRights
  | .read => CAP_RIGHT_READ
  | .write => CAP_RIGHT_WRITE
  | .invoke => CAP_RIGHT_INVOKE
  | .map => CAP_RIGHT_MAP
  | .ctl => CAP_RIGHT_CTL
  | .release => 0

/-- The checks of a handler before it looks its capability up. -/
def CapSysc.argsOk : CapSysc → SyscallFrame → Prop
  | .read, frame => isUserPtrOk frame.rsi frame.rdx
  | .write, frame => isUserPtrOk frame.rsi frame.rdx
  | .invoke, frame => isUserPtrOk frame.rsi frame.rdx ∧ isUserPtrOk frame.r10 frame.r8
  | .map, frame => frame.rdx ≠ 0 ∧ (frame.rsi ≠ 0 → isUserRangeOk frame.rsi frame.rdx) ∧
      (frame.r8 ≠ 0 → isUserPtrOk frame.r8 8)
  | .ctl, _ => True
  | .release, _ => True

def SyscallFrame.cap (frame : SyscallFrame) : CapId := frame.rdi.setWidth 32

section Neutral

variable {ω : Type} {s s' : CapState ω} {k : CapSysc} {frame : SyscallFrame} {r : U64}

/-- **The call finds an object to use**: it passes its checks, and the id is bound with the right
    it asks for. -/
def Finds (s : CapState ω) (k : CapSysc) (frame : SyscallFrame) : Prop :=
  k ≠ .release ∧ k.argsOk frame ∧
    ∃ c, s.table.caps frame.cap = some c ∧ c.rights &&& k.right = k.right

/-- What a handler that returns has done. -/
inductive SyscEffect (s : CapState ω) (k : CapSysc) (frame : SyscallFrame) :
    CapState ω → Prop where
  | miss (h : ¬ Finds s k frame) : SyscEffect s k frame s
  | take {c : Cap} {rest : ω} (h : Finds s k frame) (hb : s.table.caps frame.cap = some c) :
      SyscEffect s k frame { s with heap := { s.heap.incref c.obj with rest } }
  | release {s' : CapState ω} (hk : k = .release) (was : Bool)
      (h : CallEffect s (.del frame.cap) (.released was) s') : SyscEffect s k frame s'

/-- `capOperate` takes a reference where it finds an object, and nothing else. -/
theorem capOperate_effect {right : CapRights} {cap : CapId}
    {op : CapOps ω → Option (Uptr → Prog Fault ω U64)}
    (hw : wp (capOperate cap right op) s fun _ u => u = s') :
    (s' = s ∧ ¬ ∃ c, s.table.caps cap = some c ∧ c.rights &&& right = right) ∨
    ∃ c rest, s.table.caps cap = some c ∧ c.rights &&& right = right ∧
      s' = { s with heap := { s.heap.incref c.obj with rest } } := by
  unfold capOperate at hw
  rw [wp_bind, wp_capTableGet] at hw
  cases hb : s.table.caps cap with
  | none =>
      rw [hb] at hw
      dsimp only at hw
      rw [if_pos (by rfl), wp_pure] at hw
      exact Or.inl ⟨hw.symm, by rintro ⟨c, hc, _⟩; cases hc⟩
  | some c =>
      have ho : c.obj ≠ 0 := by
        obtain ⟨_, ho, _, rfl⟩ := live_of_caps hb
        exact ho
      rw [hb] at hw
      dsimp only at hw
      by_cases hr : c.rights &&& right = right
      · rw [if_pos hr, if_neg ho, wp_bind, wp_get] at hw
        refine Or.inr ⟨c, ?_⟩
        split at hw
        · rw [wp_pure] at hw
          exact ⟨(s.heap.incref c.obj).rest, rfl, hr, hw.symm⟩
        · unfold onRest at hw
          rw [wp_zoom] at hw
          obtain ⟨_, rest, _, hw⟩ := hw
          exact ⟨rest, rfl, hr, hw.symm⟩
      · rw [if_neg hr, if_pos (by rfl), wp_pure] at hw
        refine Or.inl ⟨hw.symm, ?_⟩
        rintro ⟨c', hc, hr'⟩
        cases hc
        exact hr hr'

theorem syscEffect_operate {op : CapOps ω → Option (Uptr → Prog Fault ω U64)} (hk : k ≠ .release)
    (hargs : k.argsOk frame) (hw : wp (capOperate frame.cap k.right op) s fun _ u => u = s') :
    SyscEffect s k frame s' := by
  rcases capOperate_effect hw with ⟨rfl, hno⟩ | ⟨c, rest, hb, hr, rfl⟩
  · exact .miss fun hf => hno hf.2.2
  · exact .take ⟨hk, hargs, c, hb, hr⟩ hb

/-- A call that fails its checks changes nothing. -/
theorem syscEffect_refused {e : U64} (hargs : ¬ k.argsOk frame)
    (hw : wp (pure e : Prog Fault (CapState ω) U64) s fun _ u => u = s') :
    SyscEffect s k frame s' := by
  rw [wp_pure] at hw
  rw [← hw]
  exact .miss fun hf => hargs hf.2.1

/-- **Everything a handler can do** when it returns. -/
theorem capSysc_effect (hi : s.table.InOrder) (h : capSysc k frame s = .ok (r, s')) :
    SyscEffect s k frame s' := by
  have hw : wp (capSysc k frame) s fun _ u => u = s' := ⟨_, _, h, rfl⟩
  cases k with
  | read =>
      unfold capSysc syscCapread at hw
      dsimp only at hw
      split at hw
      · rename_i hbad
        exact syscEffect_refused (k := .read) hbad hw
      · rename_i hok
        rw [wp_bind, wp_makeSpan] at hw
        exact syscEffect_operate (k := .read) (by decide) (Classical.not_not.mp hok) hw.2
  | write =>
      unfold capSysc syscCapwrite at hw
      dsimp only at hw
      split at hw
      · rename_i hbad
        exact syscEffect_refused (k := .write) hbad hw
      · rename_i hok
        rw [wp_bind, wp_makeConstSpan] at hw
        exact syscEffect_operate (k := .write) (by decide) (Classical.not_not.mp hok) hw.2
  | invoke =>
      unfold capSysc syscCapinvoke at hw
      dsimp only at hw
      split at hw
      · rename_i hbad
        exact syscEffect_refused (k := .invoke) (fun hargs => hbad hargs.1) hw
      · rename_i hreq
        split at hw
        · rename_i hbad
          exact syscEffect_refused (k := .invoke) (fun hargs => hbad hargs.2) hw
        · rename_i hresp
          rw [wp_bind, wp_makeConstSpan, wp_bind, wp_makeSpan] at hw
          exact syscEffect_operate (k := .invoke) (by decide)
            ⟨Classical.not_not.mp hreq, Classical.not_not.mp hresp⟩ hw.2.2
  | map =>
      unfold capSysc syscCapmap at hw
      dsimp only at hw
      split at hw
      · rename_i hbad
        exact syscEffect_refused (k := .map) (fun hargs => hargs.1 hbad) hw
      · rename_i hsize
        split at hw
        · rename_i hbad
          exact syscEffect_refused (k := .map) (fun hargs => hbad.2 (hargs.2.1 hbad.1)) hw
        · rename_i haddr
          split at hw
          · rename_i hbad
            exact syscEffect_refused (k := .map) (fun hargs => hbad.2 (hargs.2.2 hbad.1)) hw
          · rename_i hmapped
            refine syscEffect_operate (k := .map) (by decide) ⟨hsize, fun hne => ?_, fun hne => ?_⟩
              hw
            · exact Classical.byContradiction fun hb => haddr ⟨hne, hb⟩
            · exact Classical.byContradiction fun hb => hmapped ⟨hne, hb⟩
  | ctl =>
      unfold capSysc syscCapctl at hw
      exact syscEffect_operate (k := .ctl) (by decide) trivial hw
  | release =>
      have hcall : capCall (.del frame.cap) s =
          .ok (.released (s.table.caps frame.cap).isSome, s') := by
        unfold capSysc syscCaprelease at hw
        rw [wp_bind] at hw
        obtain ⟨_, u, hdel, hu⟩ := hw
        rw [wp_pure] at hu
        subst hu
        show (capTableDel frame.cap s >>= fun p => _) = _
        rw [show capTableDel frame.cap s = _ from hdel]
        rfl
      exact .release rfl _ (capCall_inv hi hcall).1

/-! ## 2. Balance -/

/-- **The counters are in balance**: the counter of each of the objects is the number of slots of
    the table that refer to it, and of references `outside` the system calls. The slots refer to
    these objects. -/
structure Balanced (objs : Uptr → Prop) (outside : Uptr → Nat) (s : CapState ω) : Prop where
  order : s.table.InOrder
  count : ∀ obj, objs obj → (s.heap.obj obj).refcount.toNat = s.table.slotRefs 0 obj + outside obj
  slots : ∀ i, i.toNat < s.table.capacity.toNat → (s.table.slots i).obj ≠ 0 →
    objs (s.table.slots i).obj

variable {objs : Uptr → Prop} {outside : Uptr → Nat}

/-- The counters after a decrement. -/
theorem refcount_decref (h : CapHeap ω) (self : Uptr) :
    (fun p => ((h.decref self).obj p).refcount) =
      Function.update (fun p => (h.obj p).refcount) self ((h.obj self).refcount - 1) := by
  unfold CapHeap.decref
  split
  · rw [finish_obj]
    exact refcount_setRefcount _ _ _
  · exact refcount_setRefcount _ _ _

/-- A released capability takes its slot's count along. -/
theorem balanced_release {id : CapId} {was : Bool} (hb : Balanced objs outside s)
    (h : CallEffect s (.del id) (.released was) s') : Balanced objs outside s' := by
  cases h with
  | noop _ => exact hb
  | @del _ c hc =>
      obtain ⟨free, hsi⟩ := hb.order
      obtain ⟨hlt, ho, _, rfl⟩ := live_of_caps hc
      refine ⟨⟨_, slotsInv_vacate hsi hlt ho⟩, fun obj hobj => ?_, fun i hi hne => ?_⟩
      · have hcount := hb.count obj hobj
        have hv := slotRefs_vacate (o := obj) hsi.small hlt ho
        have hdec := congrFun (refcount_decref s.heap (s.table.slots (capIdGetIndex id)).obj) obj
        dsimp only at hdec ⊢
        rw [hdec]
        by_cases he : obj = (s.table.slots (capIdGetIndex id)).obj
        · rw [if_pos he] at hv
          rw [← he] at hdec ⊢
          have hone : (1 : U32).toNat = 1 := rfl
          rw [Function.update_self, BitVec.toNat_sub_of_le, hone]
          · omega
          · rw [BitVec.le_def, hone]
            omega
        · rw [if_neg he] at hv
          rw [Function.update_of_ne he]
          omega
      · by_cases he : i = capIdGetIndex id
        · rw [he, vacate_same] at hne
          exact absurd rfl hne
        · rw [vacate_ne _ he] at hne ⊢
          exact hb.slots i hi hne

/-- A reference that nobody drops. -/
theorem not_balanced_take {id : CapId} {c : Cap} {rest : ω} (hb : Balanced objs outside s)
    (hc : s.table.caps id = some c) :
    ¬ Balanced objs outside { s with heap := { s.heap.incref c.obj with rest } } := by
  intro hb'
  obtain ⟨hlt, ho, _, rfl⟩ := live_of_caps hc
  have hobj := hb.slots _ hlt ho
  have hcount := hb.count _ hobj
  have hcount' := hb'.count _ hobj
  have hinc := congrFun (refcount_setRefcount s.heap (s.table.slots (capIdGetIndex id)).obj
    ((s.heap.obj (s.table.slots (capIdGetIndex id)).obj).refcount + 1))
    (s.table.slots (capIdGetIndex id)).obj
  rw [Function.update_self] at hinc
  rw [← hcount] at hcount'
  have hsame := BitVec.eq_of_toNat_eq hcount'
  dsimp only at hsame hinc
  rw [show ((s.heap.incref (s.table.slots (capIdGetIndex id)).obj).obj _).refcount = _ from hinc]
    at hsame
  generalize (s.heap.obj (s.table.slots (capIdGetIndex id)).obj).refcount = m at hsame
  bv_omega

/-- One call. -/
theorem balanced_step (hb : Balanced objs outside s) (h : capSysc k frame s = .ok (r, s')) :
    Balanced objs outside s' ↔ ¬ Finds s k frame := by
  cases capSysc_effect hb.order h with
  | miss hno => exact ⟨fun _ => hno, fun _ => hb⟩
  | take hf hc => exact ⟨fun hb' => absurd hb' (not_balanced_take hb hc), fun hno => absurd hf hno⟩
  | release hk was he => exact ⟨fun _ hf => hf.1 hk, fun _ => balanced_release hb he⟩

/-- Calls one after another, of which none finds an object to use. -/
inductive MissRun (s : CapState ω) : CapState ω → Prop where
  | start : MissRun s s
  | call {t u : CapState ω} {k : CapSysc} {frame : SyscallFrame} {r : U64} (h : MissRun s t)
      (hm : ¬ Finds t k frame) (hc : capSysc k frame t = .ok (r, u)) : MissRun s u

theorem balanced_run (hb : Balanced objs outside s) (h : MissRun s s') :
    Balanced objs outside s' := by
  induction h with
  | start => exact hb
  | call _ hm hc ih => exact (balanced_step ih hc).mpr hm

/-- **Capability system calls are neutral exactly when they find no object to use**: a call from
    a balanced table leaves it balanced if and only if it releases a capability or finds no
    object, in a run of such calls every state is balanced, and there the release of the last
    reference ends the object. -/
theorem capSysc_neutral_iff {ω : Type} {objs : Uptr → Prop} {outside : Uptr → Nat}
    {s₀ s : CapState ω} (hb : Balanced objs outside s₀) (hr : MissRun s₀ s) :
    Balanced objs outside s ∧
    (∀ k frame r s', capSysc k frame s = .ok (r, s') →
      (Balanced objs outside s' ↔ ¬ Finds s k frame)) ∧
    ∀ frame c, s.table.caps frame.cap = some c → s.table.slotRefs 0 c.obj + outside c.obj = 1 →
      ∃ s', capSysc .release frame s = .ok (0, s') ∧
        s'.heap = (s.heap.lower c.obj).finish c.obj := by
  have hs := balanced_run hb hr
  refine ⟨hs, fun k frame r s' h => balanced_step hs h, fun frame c hc hone => ?_⟩
  obtain ⟨hlt, ho, _, rfl⟩ := live_of_caps hc
  have hcount := hs.count _ (hs.slots _ hlt ho)
  have hw : wp (capSysc .release frame) s fun r s' => r = 0 ∧
      s'.heap = (s.heap.lower (s.table.slots (capIdGetIndex frame.cap)).obj).finish
        (s.table.slots (capIdGetIndex frame.cap)).obj := by
    unfold capSysc syscCaprelease
    rw [wp_bind, wp_capTableDel]
    rw [show frame.rdi.setWidth 32 = frame.cap from rfl, hc]
    dsimp only
    rw [wp_pure]
    refine ⟨rfl, if_pos ?_⟩
    exact BitVec.eq_of_toNat_eq (hcount.trans hone)
  obtain ⟨r, s', hrun, rfl, hheap⟩ := hw
  exact ⟨s', hrun, hheap⟩

/-! ## 3. A task with one capability -/

/-- `console_cap_write`, with the texts the console has printed as the rest of the machine. -/
def consoleCapWrite (obj : Uptr) (msg : Span) : Prog Fault (List Span) U64 := do
  assert (obj ≠ 0) "cap != NULL"
  modify fun printed => printed ++ [msg]
  return msg.size

/-- The table of `task_init` after `cap_table_init`, and the console after `make_console_cap`. -/
def consoleMade : CapState (List Span) where
  table := (freshCaps 16).table
  heap :=
    { obj := Function.update (fun _ => ⟨⟨none, none, none, none, none, none⟩, 0, 0⟩) 8
        ⟨⟨none, none, some consoleCapWrite, none, none, none⟩, 1, 0⟩
      log := []
      rest := [] }

/-- The capabilities a task starts with: the console is bound, and its maker drops its reference. -/
def consoleSetup : Prog Fault (CapState (List Span)) Bool := do
  let ok ← capTableSet 0x00010000 8 CAP_RIGHT_WRITE 0
  onHeap (capObjDecref 8)
  return ok

/-- `cap_table_set` fills a slot of the empty table, and `cap_obj_decref` leaves the table alone. -/
theorem consoleSetup_fills {s : CapState (List Span)} (hs : consoleSetup consoleMade = .ok (true, s)) :
    s.table.InOrder ∧ ∃ u idx, SlotsKept consoleMade.table u ∧ idx.toNat < u.capacity.toNat ∧
      (u.slots idx).obj = 0 ∧ 0x00010000 = capIdMake idx (u.slots idx).gen ∧
      s.table = u.fill idx 8 CAP_RIGHT_WRITE 0 := by
  have hstart : CapStart 16 consoleMade := freshCaps_start (by decide)
  obtain ⟨⟨free, hinv⟩, -⟩ := capStart_inv hstart
  have hw : wp consoleSetup consoleMade fun ok u => ok = true ∧ u = s := ⟨_, _, hs, rfl, rfl⟩
  unfold consoleSetup at hw
  rw [wp_bind] at hw
  obtain ⟨ok, s₁, -, hw, heff, horder⟩ := wp_and hw (wp_capTableSet hinv (by decide))
  rw [wp_bind, wp_onHeap, wp_capObjDecref, wp_pure] at hw
  obtain ⟨-, rfl, rfl⟩ := hw
  cases heff with
  | set ho hk hc he hid => exact ⟨horder, _, _, hk, hc, he, hid, rfl⟩

/-- What `task_init` leaves: a table of 16 slots with the console under `CONSOLE_CAP_ID`, for writing
    only; this slot is the only reference to it. -/
theorem consoleTask : ∃ s : CapState (List Span), consoleSetup consoleMade = .ok (true, s) ∧
    Balanced (· = 8) (fun _ => 0) s ∧ s.table.caps 0x00010000 = some ⟨8, CAP_RIGHT_WRITE, 0⟩ ∧
    (s.heap.obj 8).refcount = 1 ∧ (s.heap.obj 8).ops.write = some consoleCapWrite ∧
    s.heap.rest = [] := by
  obtain ⟨s, hs, hcount, hwrite, hrest⟩ : ∃ s, consoleSetup consoleMade = .ok (true, s) ∧
      (s.heap.obj 8).refcount = 1 ∧ (s.heap.obj 8).ops.write = some consoleCapWrite ∧
      s.heap.rest = [] := ⟨_, rfl, rfl, rfl, rfl⟩
  obtain ⟨horder, u, idx, hk, hc, he, hid, htable⟩ := consoleSetup_fills hs
  have ho : (8 : Uptr) ≠ 0 := by decide
  have hsmall : u.capacity.toNat ≤ 0xFFFF := by
    obtain ⟨free, hi⟩ := horder
    have := hi.small
    rw [htable] at this
    exact this
  have hnew : ∀ i, i.toNat < u.capacity.toNat → (u.slots i).obj = 0 := by
    intro i hlt
    rcases Nat.lt_or_ge i.toNat consoleMade.table.capacity.toNat with h | h
    · exact (hk.same i h).1.trans (capStart_empty (freshCaps_start (by decide)) i h)
    · exact (hk.new i h hlt).1
  refine ⟨s, hs, ⟨horder, fun obj hobj => ?_, fun i hlt hne => ?_⟩, ?_, hcount, hwrite, hrest⟩
  · subst hobj
    rw [hcount, htable, slotRefs_fill hsmall hc he ho, slotRefs_empty hsmall hnew, if_pos rfl]
    rfl
  · rw [htable] at hlt hne ⊢
    by_cases h : i = idx
    · rw [h]
      exact congrArg CapSlot.obj (setSlot_same u idx _)
    · have hsame : (u.fill idx 8 CAP_RIGHT_WRITE 0).slots i = u.slots i := setSlot_ne u _ h
      rw [hsame] at hne
      exact absurd (hnew i hlt) hne
  · rw [htable, hid, caps_fill hc ho, Function.update_self]

/-- **A reference that stays**: a task prints on its console. The call returns the size of the text,
    and the console has one reference more than anybody holds. -/
theorem capwrite_leaks : ∃ (s s' : CapState (List Span)) (frame : SyscallFrame),
    consoleSetup consoleMade = .ok (true, s) ∧ Balanced (· = 8) (fun _ => 0) s ∧
      capSysc .write frame s = .ok (5, s') ∧ s'.heap.rest = [⟨0x400000, 5⟩] ∧
      ¬ Balanced (· = 8) (fun _ => 0) s' := by
  obtain ⟨s, hs, hb, hc, -, hops, hrest⟩ := consoleTask
  let frame : SyscallFrame := { rdi := 0x00010000, rsi := 0x400000, rdx := 5, r10 := 0, r8 := 0 }
  have hcap : frame.cap = 0x00010000 := rfl
  have hright : CAP_RIGHT_WRITE &&& CAP_RIGHT_WRITE = CAP_RIGHT_WRITE := by decide
  have hargs : isUserPtrOk frame.rsi frame.rdx = true := by decide
  have hw : wp (capSysc .write frame) s fun r u => r = 5 ∧ u.heap.rest = [⟨0x400000, 5⟩] := by
    unfold capSysc syscCapwrite capOperate
    dsimp only
    rw [if_neg (not_not.mpr hargs), wp_bind, wp_makeConstSpan]
    refine ⟨by decide, ?_⟩
    rw [wp_bind, wp_capTableGet, show frame.rdi.setWidth 32 = frame.cap from rfl, hcap, hc]
    dsimp only
    rw [if_pos hright, if_neg (by decide), wp_bind, wp_get]
    have hwrite : ((s.heap.incref 8).obj 8).ops.write = some consoleCapWrite := by
      unfold CapHeap.incref CapHeap.setRefcount
      dsimp only
      rw [Function.update_self]
      exact hops
    rw [hwrite, Option.map_some]
    dsimp only
    unfold onRest
    rw [wp_zoom]
    unfold consoleCapWrite
    rw [wp_bind, wp_assert, wp_bind, wp_modify, wp_pure]
    refine ⟨by decide, rfl, ?_⟩
    show s.heap.rest ++ [_] = _
    rw [hrest]
    rfl
  obtain ⟨r, s', hr, rfl, hprinted⟩ := hw
  refine ⟨s, s', frame, hs, hb, hr, hprinted, fun hb' => ?_⟩
  exact (balanced_step hb hr).mp hb' ⟨by decide, hargs, _, hcap ▸ hc, hright⟩

/-- The task asks its console for something it has no right to, which changes nothing, and releases
    it: the console is ended. -/
theorem capSysc_neutral_console : ∃ (s s' : CapState (List Span)) (frame : SyscallFrame),
    consoleSetup consoleMade = .ok (true, s) ∧ capSysc .ctl frame s = .ok (-EINVAL, s) ∧
      s.table.caps frame.cap = some ⟨8, CAP_RIGHT_WRITE, 0⟩ ∧
      capSysc .release frame s = .ok (0, s') ∧ s'.heap = (s.heap.lower 8).finish 8 := by
  obtain ⟨s, hs, hb, hc, hcount, -⟩ := consoleTask
  let frame : SyscallFrame := { rdi := 0x00010000, rsi := 0, rdx := 0, r10 := 0, r8 := 0 }
  have hcap : frame.cap = 0x00010000 := rfl
  have hno : CAP_RIGHT_WRITE &&& CAP_RIGHT_CTL ≠ CAP_RIGHT_CTL := by decide
  have hmiss : ¬ Finds s .ctl frame := fun hf => by
    obtain ⟨-, -, c, hbound, hright⟩ := hf
    rw [hcap, hc] at hbound
    cases hbound
    exact hno hright
  have hw : wp (capSysc .ctl frame) s fun r u => r = -EINVAL ∧ u = s := by
    unfold capSysc syscCapctl capOperate
    rw [wp_bind, wp_capTableGet, show frame.rdi.setWidth 32 = frame.cap from rfl, hcap, hc]
    dsimp only
    rw [if_neg hno, if_pos rfl, wp_pure]
    exact ⟨rfl, rfl⟩
  obtain ⟨r, u, hctl, rfl, rfl⟩ := hw
  have hone : u.table.slotRefs 0 8 + 0 = 1 := by
    have h := hb.count 8 rfl
    rw [hcount] at h
    exact h.symm
  obtain ⟨s', hr, hheap⟩ := (capSysc_neutral_iff hb (.call .start hmiss hctl)).2.2 frame _ hc hone
  exact ⟨u, s', frame, hs, hctl, hc, hr, hheap⟩

end Neutral

end Slightx
