/-
  File:      Slightx/Proc/CapLife.lean
  Subject:   The life of capability objects that several tables share.

  Any number of tables and any number of running calls. A step is a critical section of one
  table's lock or an atomic operation on a counter; `cap_table_del` is two of them, and so is
  `cap_obj_decref` when it ends the object. What a call holds between its steps is `refs` and
  `ending`, whoever the caller is, so every interleaving is a run of these steps.

  * `slotRefs_fill`, `slotRefs_vacate`, … -- the slots of a table that name an object;
  * `view_step` -- a step is a step of counted references (`Counted.Step`);
  * **`cap_lifetime`** -- so counters count, and objects end once and not while they are named
-/
import Slightx.Proc.CapMap
import Slightx.Lib.Counted
import Slightx.Lib.Machine
import Mathlib.Algebra.BigOperators.Fin
import Mathlib.Algebra.Order.BigOperators.Group.Finset

namespace Slightx

open Lib

/-! ## 1. The slots that name an object -/

/-- The slots from `first` on that refer to `obj`. -/
def CapTable.slotRefs (t : CapTable) (first : Nat) (obj : Uptr) : Nat :=
  ∑ i ∈ Finset.range t.capacity.toNat,
    if obj ≠ 0 ∧ first ≤ i ∧ (t.slots (BitVec.ofNat 16 i)).obj = obj then 1 else 0

/-- A sum of which one term changes. -/
theorem sum_change {ι : Type} [DecidableEq ι] {s : Finset ι} {f g : ι → Nat} {a : ι} (ha : a ∈ s)
    (h : ∀ i ∈ s, i ≠ a → g i = f i) : ∑ i ∈ s, g i + f a = ∑ i ∈ s, f i + g a := by
  have herase : ∑ i ∈ s.erase a, g i = ∑ i ∈ s.erase a, f i := by
    refine Finset.sum_congr rfl fun i hi => ?_
    obtain ⟨hne, hs⟩ := Finset.mem_erase.mp hi
    exact h i hs hne
  rw [← Finset.add_sum_erase s f ha, ← Finset.add_sum_erase s g ha, herase]
  omega

section SlotRefs

variable {t t' : CapTable} {idx : U16} {obj o : Uptr} {d : Nat}

theorem slotRefs_kept (h : SlotsKept t t') (hc : t'.capacity.toNat ≤ 0xFFFF) :
    t'.slotRefs 0 o = t.slotRefs 0 o := by
  unfold CapTable.slotRefs
  have hof : ∀ i ∈ Finset.range t'.capacity.toNat, (BitVec.ofNat 16 i).toNat = i := by
    intro i hi
    have hlt := Finset.mem_range.mp hi
    exact toNat_ofNat_index (by omega)
  rw [← Finset.sum_subset (Finset.range_mono h.grow)]
  · refine Finset.sum_congr rfl fun i hi => ?_
    have hi' := Finset.range_mono h.grow hi
    rw [(h.same (BitVec.ofNat 16 i) (by rw [hof i hi']; exact Finset.mem_range.mp hi)).1]
  · intro i hi hnot
    refine if_neg fun hb => hb.1 ?_
    rw [← hb.2.2]
    refine (h.new _ ?_ ?_).1
    · rw [hof i hi]
      exact Nat.not_lt.mp fun hlt => hnot (Finset.mem_range.mpr hlt)
    · rw [hof i hi]
      exact Finset.mem_range.mp hi

/-- Two tables of one size that differ in slot `idx`. -/
theorem slotRefs_slot (t' : CapTable) (o : Uptr) (hsmall : t.capacity.toNat ≤ 0xFFFF) (hc : idx.toNat < t.capacity.toNat)
    (hcap : t'.capacity = t.capacity) (hne : ∀ i, i ≠ idx → t'.slots i = t.slots i) :
    t'.slotRefs 0 o + (if o ≠ 0 ∧ (t.slots idx).obj = o then 1 else 0) =
      t.slotRefs 0 o + if o ≠ 0 ∧ (t'.slots idx).obj = o then 1 else 0 := by
  have hidx : BitVec.ofNat 16 idx.toNat = idx :=
    BitVec.eq_of_toNat_eq (toNat_ofNat_index idx.isLt)
  unfold CapTable.slotRefs
  rw [hcap]
  have hsum := sum_change (s := Finset.range t.capacity.toNat) (a := idx.toNat)
    (f := fun i => if o ≠ 0 ∧ 0 ≤ i ∧ (t.slots (BitVec.ofNat 16 i)).obj = o then 1 else 0)
    (g := fun i => if o ≠ 0 ∧ 0 ≤ i ∧ (t'.slots (BitVec.ofNat 16 i)).obj = o then 1 else 0)
    (Finset.mem_range.mpr hc) fun i hi hi' => by
      have hlt := Finset.mem_range.mp hi
      have hof : (BitVec.ofNat 16 i).toNat = i := toNat_ofNat_index (by omega)
      have hn : BitVec.ofNat 16 i ≠ idx := fun he => hi' (hof ▸ congrArg BitVec.toNat he)
      rw [hne _ hn]
  simp only [hidx, Nat.zero_le, true_and] at hsum ⊢
  exact hsum

theorem ref_iff (ho : obj ≠ 0) :
    (if o ≠ 0 ∧ obj = o then 1 else 0) = if o = obj then 1 else 0 :=
  if_congr ⟨fun hb => hb.2.symm, fun he => ⟨he ▸ ho, he.symm⟩⟩ rfl rfl

theorem slotRefs_fill (hsmall : t.capacity.toNat ≤ 0xFFFF) (hc : idx.toNat < t.capacity.toNat)
    (he : (t.slots idx).obj = 0) (ho : obj ≠ 0) (rights : CapRights) (flags : U32) :
    (t.fill idx obj rights flags).slotRefs 0 o = t.slotRefs 0 o + if o = obj then 1 else 0 := by
  have h := slotRefs_slot (t.fill idx obj rights flags) o hsmall hc rfl
    fun i hi => setSlot_ne t _ hi
  have hs : ((t.fill idx obj rights flags).slots idx).obj = obj :=
    congrArg CapSlot.obj (setSlot_same t idx _)
  rw [hs, he, if_neg fun hb => hb.1 hb.2.symm, ref_iff ho] at h
  exact h

theorem slotRefs_vacate (hsmall : t.capacity.toNat ≤ 0xFFFF) (hc : idx.toNat < t.capacity.toNat)
    (ho : (t.slots idx).obj ≠ 0) :
    (t.vacate idx).slotRefs 0 o + (if o = (t.slots idx).obj then 1 else 0) = t.slotRefs 0 o := by
  have h := slotRefs_slot (t.vacate idx) o hsmall hc rfl fun i hi => vacate_ne t hi
  have hs : ((t.vacate idx).slots idx).obj = 0 := congrArg CapSlot.obj (vacate_same t idx)
  rw [hs, if_neg (c := o ≠ 0 ∧ (0 : Uptr) = o) fun hb => hb.1 hb.2.symm, ref_iff ho] at h
  exact h

/-- One slot less. -/
theorem slotRefs_succ (hd : d < t.capacity.toNat) :
    t.slotRefs (d + 1) o +
      (if o ≠ 0 ∧ (t.slots (BitVec.ofNat 16 d)).obj = o then 1 else 0) = t.slotRefs d o := by
  unfold CapTable.slotRefs
  have hsum := sum_change (s := Finset.range t.capacity.toNat) (a := d)
    (f := fun i => if o ≠ 0 ∧ d ≤ i ∧ (t.slots (BitVec.ofNat 16 i)).obj = o then 1 else 0)
    (g := fun i => if o ≠ 0 ∧ d + 1 ≤ i ∧ (t.slots (BitVec.ofNat 16 i)).obj = o then 1 else 0)
    (Finset.mem_range.mpr hd) fun i _ hi => if_congr
      ⟨fun hb => ⟨hb.1, by omega, hb.2.2⟩, fun hb => ⟨hb.1, by omega, hb.2.2⟩⟩ rfl rfl
  rw [if_neg (c := o ≠ 0 ∧ d + 1 ≤ d ∧ _) fun hb => absurd hb.2.1 (Nat.not_succ_le_self d)] at hsum
  simp only [Nat.le_refl, true_and] at hsum
  exact hsum

theorem slotRefs_end (hd : t.capacity.toNat ≤ d) : t.slotRefs d o = 0 := by
  refine Finset.sum_eq_zero fun i hi => if_neg fun hb => ?_
  have hlt := Finset.mem_range.mp hi
  omega

/-- An empty table refers to nothing. -/
theorem slotRefs_empty (hsmall : t.capacity.toNat ≤ 0xFFFF)
    (h : ∀ i, i.toNat < t.capacity.toNat → (t.slots i).obj = 0) : t.slotRefs d o = 0 := by
  refine Finset.sum_eq_zero fun i hi => if_neg fun hb => hb.1 ?_
  have hlt := Finset.mem_range.mp hi
  have hof : (BitVec.ofNat 16 i).toNat = i := toNat_ofNat_index (by omega)
  rw [← hb.2.2]
  exact h _ (by rw [hof]; exact hlt)

end SlotRefs

/-! ## 2. Steps -/

/-- `n` tables over one heap of objects, and what the running calls hold. -/
structure LifeState (ω : Type) (n : Nat) where
  tables : Fin n → CapTable
  /-- `some d`: the table is in its `cap_table_deinit`, and `d` slots have been dropped -/
  dropped : Fin n → Option Nat
  heap : CapHeap ω
  /-- the references that are neither in a slot nor dropped -/
  refs : List Uptr
  /-- the objects whose last reference was dropped, and which have not been ended yet -/
  ending : List Uptr
  /-- how often `cap_obj_init` has made an object at an address -/
  made : Uptr → Nat

section Life

variable {ω : Type} {n : Nat}

/-- The slots of table `t` that name `obj`: a table on its end counts the slots still to drop. -/
def LifeState.slotsAt (s : LifeState ω n) (obj : Uptr) (t : Fin n) : Nat :=
  (s.tables t).slotRefs ((s.dropped t).getD 0) obj

/-- The slots and the undropped references that name `obj`. -/
def LifeState.named (s : LifeState ω n) (obj : Uptr) : Nat :=
  s.refs.count obj + ∑ t, s.slotsAt obj t

def LifeState.deallocated (s : LifeState ω n) (obj : Uptr) : Nat :=
  s.heap.log.count (.deallocate obj)

def LifeState.released (s : LifeState ω n) (obj : Uptr) : Nat :=
  s.heap.log.count (.release obj)

/-- Table `t` with the heap, as a call on that table sees them. -/
def LifeState.at (s : LifeState ω n) (t : Fin n) : CapState ω := ⟨s.tables t, s.heap⟩

/-- The state after a critical section of table `t`. -/
def LifeState.put (s : LifeState ω n) (t : Fin n) (c : CapState ω) (refs : List Uptr) :
    LifeState ω n :=
  { s with tables := Function.update s.tables t c.table, heap := c.heap, refs }

/-- `cap_obj_init` has made an object, and its caller holds the reference. -/
def LifeState.create (s : LifeState ω n) (obj : Uptr) (heap : CapHeap ω) : LifeState ω n :=
  { s with
    heap
    refs := obj :: s.refs
    made := Function.update s.made obj (s.made obj + 1) }

/-- `cap_obj_decref` up to its atomic operation, on a reference to `obj`. -/
def LifeState.lower (s : LifeState ω n) (obj : Uptr) : LifeState ω n :=
  { s with
    heap := s.heap.lower obj
    ending := if (s.heap.obj obj).refcount = 1 then obj :: s.ending else s.ending }

/-- The reference to `obj` is the one that is dropped. -/
def LifeState.giveUp (s : LifeState ω n) (obj : Uptr) : LifeState ω n :=
  { s with refs := s.refs.erase obj }

/-- The rest of `cap_obj_decref` for an object whose counter was 1. -/
def LifeState.finish (s : LifeState ω n) (obj : Uptr) : LifeState ω n :=
  { s with heap := s.heap.finish obj, ending := s.ending.erase obj }

/-- `cap_table_deinit` of table `t` is through with `d` slots. -/
def LifeState.dropTo (s : LifeState ω n) (t : Fin n) (d : Nat) : LifeState ω n :=
  { s with dropped := Function.update s.dropped t (some d) }

/-- The `memset` at the end of `cap_table_deinit`. -/
def LifeState.clear (s : LifeState ω n) (t : Fin n) : LifeState ω n :=
  { s with
    tables := Function.update s.tables t
      { s.tables t with capacity := 0, nextUnused := 0, freeHead := 0 } }

/-- **One step.** A call of a table not in its end; the atomic half of a `cap_obj_decref` and its
    other half; the rounds of a `cap_table_deinit`. Objects are put into tables by callers that
    know them to be named, and made where no object is. -/
inductive LifeStep (s : LifeState ω n) : LifeState ω n → Prop where
  | init {obj : Uptr} {ops : CapOps ω} {heap : CapHeap ω} (hfree : s.made obj = s.deallocated obj)
      (h : capObjInit obj ops s.heap = .ok ((), heap)) :
      LifeStep s (s.create obj heap)
  | add {t : Fin n} {obj : Uptr} {rights : CapRights} {flags : U32} {id : CapId} {c : CapState ω}
      (ht : s.dropped t = none) (hobj : 0 < s.named obj)
      (h : capTableAdd obj rights flags (s.at t) = .ok (id, c)) : LifeStep s (s.put t c s.refs)
  | set {t : Fin n} {hint : CapId} {obj : Uptr} {rights : CapRights} {flags : U32} {ok : Bool}
      {c : CapState ω} (ht : s.dropped t = none) (hobj : 0 < s.named obj)
      (h : capTableSet hint obj rights flags (s.at t) = .ok (ok, c)) :
      LifeStep s (s.put t c s.refs)
  | get {t : Fin n} {id : CapId} {rights : CapRights} {obj : Uptr} {c : CapState ω}
      (ht : s.dropped t = none) (h : capTableGet id rights (s.at t) = .ok (obj, c)) :
      LifeStep s (s.put t c (if obj = 0 then s.refs else obj :: s.refs))
  | del {t : Fin n} {id : CapId} {obj : Option Uptr} {table : CapTable} (ht : s.dropped t = none)
      (h : capTableDelLocked id (s.tables t) = .ok (obj, table)) :
      LifeStep s (s.put t ⟨table, s.heap⟩ (obj.toList ++ s.refs))
  | decref {obj : Uptr} (hobj : obj ∈ s.refs) : LifeStep s ((s.giveUp obj).lower obj)
  | finish {obj : Uptr} (hobj : obj ∈ s.ending) : LifeStep s (s.finish obj)
  | deinit {t : Fin n} (ht : s.dropped t = none) : LifeStep s (s.dropTo t 0)
  | deinitEmpty {t : Fin n} {d : Nat} (ht : s.dropped t = some d)
      (hd : d < (s.tables t).capacity.toNat)
      (hobj : ((s.tables t).slots (BitVec.ofNat 16 d)).obj = 0) : LifeStep s (s.dropTo t (d + 1))
  | deinitDrop {t : Fin n} {d : Nat} {obj : Uptr} (ht : s.dropped t = some d)
      (hd : d < (s.tables t).capacity.toNat)
      (hobj : ((s.tables t).slots (BitVec.ofNat 16 d)).obj = obj) (hne : obj ≠ 0) :
      LifeStep s ((s.dropTo t (d + 1)).lower obj)
  | deinitEnd {t : Fin n} {d : Nat} (ht : s.dropped t = some d)
      (hd : (s.tables t).capacity.toNat ≤ d) : LifeStep s (s.clear t)

/-- The states of a run from fresh tables and no objects, with less than 2 ^ 32 references to an
    object at a time. -/
inductive LifeReachable : LifeState ω n → Prop where
  | start {s : LifeState ω n} (ht : ∀ t, ∃ initialCapacity, CapStart initialCapacity (s.at t))
      (hd : ∀ t, s.dropped t = none) (hl : s.heap.log = []) (hr : s.refs = [])
      (he : s.ending = []) (hm : ∀ obj, s.made obj = 0) : LifeReachable s
  | step {s s' : LifeState ω n} (h : LifeReachable s) (hs : LifeStep s s')
      (hfit : ∀ obj, s'.named obj < 2 ^ 32) : LifeReachable s'

/-! ## 3. Steps of counted references -/

/-- The counted references of a state. -/
def LifeState.view (s : LifeState ω n) : Counted Uptr 32 where
  names := s.named
  count := fun obj => (s.heap.obj obj).refcount
  ending := fun obj => s.ending.count obj
  made := s.made
  ended := s.deallocated

/-- Tables are in order until their end. -/
structure TablesOk (s : LifeState ω n) : Prop where
  small : ∀ t, (s.tables t).capacity.toNat ≤ 0xFFFF
  order : ∀ t, s.dropped t = none → (s.tables t).InOrder

variable {s s' : LifeState ω n} {t : Fin n} {c : CapState ω} {obj o : Uptr} {refs : List Uptr}
  {heap : CapHeap ω}

/-! ### Names -/

/-- The names after a step that touches one table. -/
theorem sum_slotsAt (h : ∀ x, x ≠ t → s'.slotsAt o x = s.slotsAt o x) :
    ∑ x, s'.slotsAt o x + s.slotsAt o t = ∑ x, s.slotsAt o x + s'.slotsAt o t :=
  sum_change (Finset.mem_univ t) fun x _ hx => h x hx

theorem slotsAt_put_ne {x : Fin n} (hx : x ≠ t) :
    (s.put t c refs).slotsAt o x = s.slotsAt o x := by
  unfold LifeState.slotsAt LifeState.put
  dsimp only
  rw [Function.update_of_ne hx]

theorem slotsAt_put (ht : s.dropped t = none) :
    (s.put t c refs).slotsAt o t = c.table.slotRefs 0 o := by
  unfold LifeState.slotsAt LifeState.put
  dsimp only
  rw [Function.update_self, ht]
  rfl

/-- What a section of table `t` does to the names of an object. -/
theorem named_put (c : CapState ω) (refs : List Uptr) (o : Uptr) (ht : s.dropped t = none) :
    (s.put t c refs).named o + (s.tables t).slotRefs 0 o + s.refs.count o =
      s.named o + c.table.slotRefs 0 o + refs.count o := by
  have hsum := @sum_slotsAt ω n s (s.put t c refs) t o fun x hx => slotsAt_put_ne hx
  have hold : s.slotsAt o t = (s.tables t).slotRefs 0 o := by
    unfold LifeState.slotsAt
    rw [ht]
    rfl
  rw [slotsAt_put ht, hold] at hsum
  unfold LifeState.named
  show refs.count o + _ + _ + _ = _
  omega

/-! ### Views -/

/-- One name more, for `obj`. -/
theorem names_succ {f g : Uptr → Nat} (h : ∀ o, f o = g o + if o = obj then 1 else 0) :
    f = Function.update g obj (g obj + 1) := by
  funext o
  rw [h o]
  by_cases ho : o = obj
  · rw [if_pos ho, ho, Function.update_self]
  · rw [if_neg ho, Function.update_of_ne ho, Nat.add_zero]

/-- One name less. -/
theorem names_pred {f g : Uptr → Nat} (h : ∀ o, f o + (if o = obj then 1 else 0) = g o) :
    f = Function.update g obj (g obj - 1) := by
  funext o
  have ho' := h o
  by_cases ho : o = obj
  · rw [if_pos ho] at ho'
    rw [ho, Function.update_self, ← ho, ← ho', Nat.add_sub_cancel]
  · rw [if_neg ho, Nat.add_zero] at ho'
    rw [Function.update_of_ne ho, ho']

theorem refcount_setRefcount (h : CapHeap ω) (self : Uptr) (m : U32) :
    (fun p => ((h.setRefcount self m).obj p).refcount) =
      Function.update (fun p => (h.obj p).refcount) self m := by
  funext p
  unfold CapHeap.setRefcount
  dsimp only
  by_cases hp : p = self
  · rw [hp, Function.update_self, Function.update_self]
  · rw [Function.update_of_ne hp, Function.update_of_ne hp]

theorem count_cons_eq (l : List Uptr) (o : Uptr) :
    (obj :: l).count o = l.count o + if o = obj then 1 else 0 := by
  rw [List.count_cons]
  exact congrArg (_ + ·) (if_congr (by rw [beq_iff_eq]; exact eq_comm) rfl rfl)

theorem count_erase_eq {l : List Uptr} (h : obj ∈ l) (o : Uptr) :
    (l.erase obj).count o + (if o = obj then 1 else 0) = l.count o := by
  have hperm := (List.perm_cons_erase h).count_eq o
  rw [hperm, count_cons_eq]

/-- What the end of an object adds to the log. -/
theorem finish_log (h : CapHeap ω) (self : Uptr) :
    (h.finish self).log = h.log ++ [.deallocate self] ∨
      (h.finish self).log = h.log ++ [.release self, .deallocate self] := by
  unfold CapHeap.finish CapHeap.event
  split
  · exact Or.inr (List.append_assoc _ _ _)
  · exact Or.inl rfl

theorem finish_obj (h : CapHeap ω) (self : Uptr) : (h.finish self).obj = h.obj := by
  unfold CapHeap.finish CapHeap.event
  split
  · rfl
  · rfl

theorem finish_deallocated (h : CapHeap ω) (self : Uptr) (o : Uptr) :
    (h.finish self).log.count (.deallocate o) =
      h.log.count (.deallocate o) + if o = self then 1 else 0 := by
  have hone : ∀ p : Uptr, List.count (CapEvent.deallocate o) [.deallocate p] =
      if o = p then 1 else 0 := by
    intro p
    rw [List.count_singleton]
    exact if_congr (by rw [beq_iff_eq]; exact ⟨fun h => by injection h with h; exact h.symm,
      fun h => by rw [h]⟩) rfl rfl
  rcases finish_log h self with hl | hl
  · rw [hl, List.count_append, hone]
  · rw [hl, List.append_cons, List.count_append, List.count_append, hone, List.count_singleton,
      if_neg (by simp), Nat.add_zero]

theorem capTableAdd_inv {rights : CapRights} {flags : U32} {id : CapId} {c c' : CapState ω}
    (hi : c.table.InOrder) (h : capTableAdd obj rights flags c = .ok (id, c')) :
    CallEffect c (.add obj rights flags) (.id id) c' ∧ c'.table.InOrder := by
  refine capCall_inv hi ?_
  show (capTableAdd obj rights flags c >>= fun p => _) = _
  rw [h]
  rfl

theorem capTableSet_inv {hint : CapId} {rights : CapRights} {flags : U32} {ok : Bool}
    {c c' : CapState ω} (hi : c.table.InOrder)
    (h : capTableSet hint obj rights flags c = .ok (ok, c')) :
    CallEffect c (.set hint obj rights flags) (.ok ok) c' ∧ c'.table.InOrder := by
  refine capCall_inv hi ?_
  show (capTableSet hint obj rights flags c >>= fun p => _) = _
  rw [h]
  rfl

/-- A section that fills a slot and counts the reference in it. -/
theorem view_fill {rights : CapRights} {flags : U32} {u : CapTable} {idx : U16}
    (ht : s.dropped t = none) (ho : obj ≠ 0) (hk : SlotsKept (s.tables t) u)
    (hu : u.capacity.toNat ≤ 0xFFFF) (hc : idx.toNat < u.capacity.toNat)
    (he : (u.slots idx).obj = 0) :
    (s.put t ⟨u.fill idx obj rights flags, s.heap.incref obj⟩ s.refs).view = s.view.share obj := by
  refine Counted.ext (names_succ fun o => ?_) (refcount_setRefcount _ _ _) rfl rfl rfl
  have hn := named_put ⟨u.fill idx obj rights flags, s.heap.incref obj⟩ s.refs o ht
  dsimp only at hn
  rw [slotRefs_fill hu hc he ho, slotRefs_kept hk hu] at hn
  show (s.put t _ s.refs).named o = s.named o + _
  omega

/-- A section that changes neither references nor counters. -/
theorem view_kept {u : CapTable} (ht : s.dropped t = none) (hk : SlotsKept (s.tables t) u)
    (hu : u.capacity.toNat ≤ 0xFFFF) : (s.put t ⟨u, s.heap⟩ s.refs).view = s.view := by
  refine Counted.ext (funext fun o => ?_) rfl rfl rfl rfl
  have hn := named_put ⟨u, s.heap⟩ s.refs o ht
  dsimp only at hn
  rw [slotRefs_kept hk hu] at hn
  show (s.put t _ s.refs).named o = s.named o
  omega

/-- The atomic half of a decrement, where a name goes with it. -/
theorem view_lower (hn : ∀ o, s'.named o + (if o = obj then 1 else 0) = s.named o)
    (hh : s'.heap = s.heap) (he : s'.ending = s.ending) (hm : s'.made = s.made) :
    (s'.lower obj).view = s.view.drop obj := by
  refine Counted.ext (names_pred hn) ?_ ?_ hm ?_
  · show (fun p => ((s'.heap.lower obj).obj p).refcount) = _
    rw [hh]
    exact refcount_setRefcount _ _ _
  · funext o
    show (if (s'.heap.obj obj).refcount = 1 then obj :: s'.ending else s'.ending).count o = _
    rw [hh, he]
    unfold LifeState.view Counted.drop
    dsimp only
    split
    · rw [count_cons_eq]
      by_cases ho : o = obj
      · rw [ho, Function.update_self, if_pos rfl]
      · rw [Function.update_of_ne ho, if_neg ho, Nat.add_zero]
    · rfl
  · show (fun o => (s'.heap.lower obj).log.count (.deallocate o)) = _
    rw [hh]
    rfl

/-- A round of a table's end. -/
theorem named_dropTo {d : Nat} (d' : Nat) (o : Uptr) (hd : (s.dropped t).getD 0 = d) :
    (s.dropTo t d').named o + (s.tables t).slotRefs d o =
      s.named o + (s.tables t).slotRefs d' o := by
  have hne : ∀ x, x ≠ t → (s.dropTo t d').slotsAt o x = s.slotsAt o x := by
    intro x hx
    unfold LifeState.slotsAt LifeState.dropTo
    dsimp only
    rw [Function.update_of_ne hx]
  have hsum := sum_slotsAt (t := t) (o := o) hne
  have hold : s.slotsAt o t = (s.tables t).slotRefs d o := by
    unfold LifeState.slotsAt
    rw [hd]
  have hnew : (s.dropTo t d').slotsAt o t = (s.tables t).slotRefs d' o := by
    unfold LifeState.slotsAt LifeState.dropTo
    dsimp only
    rw [Function.update_self]
    rfl
  rw [hold, hnew] at hsum
  show s.refs.count o + _ + _ = s.refs.count o + _ + _
  omega

theorem view_create {ops : CapOps ω} (hn : s.named obj = 0)
    (h : capObjInit obj ops s.heap = .ok ((), heap)) :
    (s.create obj heap).view = s.view.make obj := by
  have hnames : (s.create obj heap).named = Function.update s.named obj (s.named obj + 1) := by
    refine names_succ fun o => ?_
    show (obj :: s.refs).count o + _ = _
    rw [count_cons_eq]
    exact Nat.add_right_comm _ _ _
  rw [hn] at hnames
  have hw : wp (capObjInit obj ops) s.heap fun _ h => h = heap := ⟨_, _, h, rfl⟩
  unfold capObjInit at hw
  rw [wp_bind, wp_assert, wp_modify] at hw
  obtain ⟨_, rfl⟩ := hw
  refine Counted.ext hnames (funext fun o => ?_) rfl rfl rfl
  show (Function.update s.heap.obj obj _ o).refcount =
    Function.update (fun p => (s.heap.obj p).refcount) obj 1 o
  by_cases ho : o = obj
  · rw [ho, Function.update_self, Function.update_self]
  · rw [Function.update_of_ne ho, Function.update_of_ne ho]

/-- `cap_table_get` counts the reference that it returns. -/
theorem view_get (ht : s.dropped t = none) :
    (s.put t ⟨s.tables t, s.heap.incref obj⟩ (obj :: s.refs)).view = s.view.share obj := by
  refine Counted.ext (names_succ fun o => ?_) (refcount_setRefcount _ _ _) rfl rfl rfl
  have hn := named_put ⟨s.tables t, s.heap.incref obj⟩ (obj :: s.refs) o ht
  rw [count_cons_eq] at hn
  dsimp only at hn
  show (s.put t _ _).named o = s.named o + _
  omega

/-- A vacated slot's reference is the caller's, for the decrement that follows. -/
theorem view_vacate {idx : U16} (hsmall : (s.tables t).capacity.toNat ≤ 0xFFFF)
    (ht : s.dropped t = none) (hc : idx.toNat < (s.tables t).capacity.toNat)
    (ho : ((s.tables t).slots idx).obj ≠ 0) :
    (s.put t ⟨(s.tables t).vacate idx, s.heap⟩ (((s.tables t).slots idx).obj :: s.refs)).view =
      s.view := by
  refine Counted.ext (funext fun o => ?_) rfl rfl rfl rfl
  have hn := named_put ⟨(s.tables t).vacate idx, s.heap⟩
    (((s.tables t).slots idx).obj :: s.refs) o ht
  have hv := slotRefs_vacate (o := o) hsmall hc ho
  rw [count_cons_eq] at hn
  dsimp only at hn
  show (s.put t _ _).named o = s.named o
  omega

theorem view_giveUp (hobj : obj ∈ s.refs) :
    ((s.giveUp obj).lower obj).view = s.view.drop obj := by
  refine view_lower (fun o => ?_) rfl rfl rfl
  show (s.refs.erase obj).count o + _ + _ = s.refs.count o + _
  rw [← count_erase_eq hobj o]
  exact Nat.add_right_comm _ _ _

theorem view_finish (hobj : obj ∈ s.ending) : (s.finish obj).view = s.view.finish obj := by
  refine Counted.ext rfl ?_ (names_pred (count_erase_eq hobj)) rfl
    (names_succ fun o => finish_deallocated s.heap obj o)
  show (fun o => ((s.heap.finish obj).obj o).refcount) = _
  rw [finish_obj]
  rfl

/-- A round that drops nothing. -/
theorem view_dropTo {d d' : Nat} (hd : (s.dropped t).getD 0 = d)
    (h : ∀ o, (s.tables t).slotRefs d' o = (s.tables t).slotRefs d o) :
    (s.dropTo t d').view = s.view := by
  refine Counted.ext (funext fun o => ?_) rfl rfl rfl rfl
  have hn := named_dropTo d' o hd
  rw [h o] at hn
  exact Nat.add_right_cancel hn

theorem view_dropTo_lower {d : Nat} (ht : s.dropped t = some d)
    (hd : d < (s.tables t).capacity.toNat)
    (hobj : ((s.tables t).slots (BitVec.ofNat 16 d)).obj = obj) (hne : obj ≠ 0) :
    ((s.dropTo t (d + 1)).lower obj).view = s.view.drop obj := by
  refine view_lower (fun o => ?_) rfl rfl rfl
  have hn := named_dropTo (d := d) (d + 1) o (by rw [ht]; rfl)
  have hs := slotRefs_succ (o := o) hd
  rw [hobj, ref_iff hne] at hs
  omega

theorem view_clear {d : Nat} (ht : s.dropped t = some d) (hd : (s.tables t).capacity.toNat ≤ d) :
    (s.clear t).view = s.view := by
  refine Counted.ext (funext fun o => ?_) rfl rfl rfl rfl
  show s.refs.count o + _ = s.refs.count o + _
  refine congrArg (_ + ·) (Finset.sum_congr rfl fun x _ => ?_)
  unfold LifeState.slotsAt LifeState.clear
  dsimp only
  by_cases hx : x = t
  · rw [hx, Function.update_self, ht, Option.getD_some, slotRefs_end hd]
    exact slotRefs_end (Nat.zero_le _)
  · rw [Function.update_of_ne hx]

/-- An object in a slot has a name. -/
theorem named_of_slot (hlt : 0 < s.slotsAt obj t) : 0 < s.named obj := by
  have hle : s.slotsAt obj t ≤ ∑ x, s.slotsAt obj x :=
    Finset.single_le_sum (fun _ _ => Nat.zero_le _) (Finset.mem_univ t)
  unfold LifeState.named
  omega

theorem named_of_ref (h : obj ∈ s.refs) : 0 < s.named obj := by
  have hpos := List.count_pos_iff.mpr h
  unfold LifeState.named
  omega

theorem named_of_bound {id : CapId} {b : Cap} (hok : TablesOk s) (ht : s.dropped t = none)
    (hb : (s.tables t).caps id = some b) : b.obj ≠ 0 ∧ 0 < s.named b.obj := by
  obtain ⟨hc, ho, _, rfl⟩ := live_of_caps hb
  refine ⟨ho, named_of_slot (t := t) ?_⟩
  have hv := slotRefs_vacate (o := ((s.tables t).slots (capIdGetIndex id)).obj) (hok.small t) hc ho
  rw [if_pos rfl] at hv
  show 0 < (s.tables t).slotRefs ((s.dropped t).getD 0) ((s.tables t).slots (capIdGetIndex id)).obj
  rw [ht, Option.getD_none, ← hv]
  exact Nat.succ_pos _

theorem step_of_view {a : Counted Uptr 32} (h : s'.view = a) (hs : s.view.Step a) :
    s.view.Step s'.view := by
  rw [h]
  exact hs

/-- **Every step is a step of counted references.** -/
theorem view_step (hok : TablesOk s) (hinv : s.view.Inv) (hs : LifeStep s s') :
    s.view.Step s'.view := by
  cases hs with
  | init hfree h => exact step_of_view (view_create (counted_gone hinv hfree).1 h) (.make hfree)
  | @add t _ _ _ _ _ ht hobj h =>
      obtain ⟨heff, free, hi⟩ := capTableAdd_inv (hok.order t ht) h
      cases heff with
      | add ho hk hc he _ => exact step_of_view (view_fill ht ho hk hi.small hc he) (.share hobj)
  | @set t _ _ _ _ _ _ ht hobj h =>
      obtain ⟨heff, free, hi⟩ := capTableSet_inv (hok.order t ht) h
      cases heff with
      | set ho hk hc he _ => exact step_of_view (view_fill ht ho hk hi.small hc he) (.share hobj)
      | refuse hk => exact step_of_view (view_kept ht hk hi.small) .idle
  | @get t id rights obj c ht h =>
      have hw := (wp_capTableGet (s.at t) id rights fun p u => p = obj ∧ u = c).mp
        ⟨_, _, h, rfl, rfl⟩
      have hmiss : 0 = obj ∧ s.at t = c → s.view.Step
          (s.put t c (if obj = 0 then s.refs else obj :: s.refs)).view := by
        rintro ⟨rfl, rfl⟩
        rw [if_pos (by rfl)]
        exact step_of_view (view_kept ht slotsKept_refl (hok.small t)) .idle
      cases hb : (s.tables t).caps id with
      | none =>
          rw [show (s.at t).table = s.tables t from rfl, hb] at hw
          exact hmiss hw
      | some b =>
          rw [show (s.at t).table = s.tables t from rfl, hb] at hw
          dsimp only at hw
          split at hw
          · obtain ⟨rfl, rfl⟩ := hw
            obtain ⟨ho, hpos⟩ := named_of_bound hok ht hb
            rw [if_neg ho]
            exact step_of_view (view_get ht) (.share hpos)
          · exact hmiss hw
  | @del t id obj table ht h =>
      have hw := (wp_capTableDelLocked (s.tables t) id fun p u => p = obj ∧ u = table).mp
        ⟨_, _, h, rfl, rfl⟩
      cases hb : (s.tables t).caps id with
      | none =>
          rw [hb] at hw
          obtain ⟨rfl, rfl⟩ := hw
          exact step_of_view (view_kept ht slotsKept_refl (hok.small t)) .idle
      | some b =>
          rw [hb] at hw
          obtain ⟨rfl, rfl⟩ := hw
          obtain ⟨hc, ho, _, rfl⟩ := live_of_caps hb
          exact step_of_view (view_vacate (hok.small t) ht hc ho) .idle
  | decref hobj => exact step_of_view (view_giveUp hobj) (.drop (named_of_ref hobj))
  | finish hobj =>
      exact step_of_view (view_finish hobj) (.finish (List.count_pos_iff.mpr hobj))
  | deinit ht => exact step_of_view (view_dropTo (by rw [ht]; rfl) fun _ => rfl) .idle
  | @deinitEmpty t d ht hd hobj =>
      refine step_of_view (view_dropTo (d := d) (by rw [ht]; rfl) fun o => ?_) .idle
      have hsucc := slotRefs_succ (o := o) hd
      rw [hobj, if_neg fun hb => hb.1 hb.2.symm] at hsucc
      exact hsucc
  | @deinitDrop t d obj ht hd hobj hne =>
      refine step_of_view (view_dropTo_lower ht hd hobj hne) (.drop (named_of_slot (t := t) ?_))
      show 0 < (s.tables t).slotRefs ((s.dropped t).getD 0) obj
      rw [ht, Option.getD_some, ← slotRefs_succ hd, if_pos ⟨hne, hobj⟩]
      exact Nat.succ_pos _
  | deinitEnd ht hd => exact step_of_view (view_clear ht hd) .idle

/-! ## 4. Runs -/

theorem tablesOk_put (hok : TablesOk s) (hi : c.table.InOrder) : TablesOk (s.put t c refs) := by
  obtain ⟨free, hsi⟩ := hi
  refine ⟨fun x => ?_, fun x hx => ?_⟩
  · show (Function.update s.tables t c.table x).capacity.toNat ≤ 0xFFFF
    by_cases h : x = t
    · rw [h, Function.update_self]
      exact hsi.small
    · rw [Function.update_of_ne h]
      exact hok.small x
  · show (Function.update s.tables t c.table x).InOrder
    by_cases h : x = t
    · rw [h, Function.update_self]
      exact ⟨free, hsi⟩
    · rw [Function.update_of_ne h]
      exact hok.order x hx

theorem tablesOk_dropTo (hok : TablesOk s) (t : Fin n) (d : Nat) : TablesOk (s.dropTo t d) := by
  refine ⟨hok.small, fun x hx => hok.order x ?_⟩
  have hx : Function.update s.dropped t (some d) x = none := hx
  by_cases h : x = t
  · rw [h, Function.update_self] at hx
    cases hx
  · rwa [Function.update_of_ne h] at hx

theorem tablesOk_step (hok : TablesOk s) (hs : LifeStep s s') : TablesOk s' := by
  cases hs with
  | init _ _ => exact ⟨hok.small, hok.order⟩
  | @add t _ _ _ _ _ ht _ h => exact tablesOk_put hok (capTableAdd_inv (hok.order t ht) h).2
  | @set t _ _ _ _ _ _ ht _ h => exact tablesOk_put hok (capTableSet_inv (hok.order t ht) h).2
  | @get t id rights obj c ht h =>
      refine tablesOk_put hok ?_
      have hcall : capCall (.get id rights) (s.at t) =
          .ok (.obj (if obj = 0 then none else some obj), c) := by
        show (capTableGet id rights (s.at t) >>= fun p => _) = _
        rw [h]
        rfl
      exact (capCall_inv (hok.order t ht) hcall).2
  | @del t id obj table ht h =>
      refine tablesOk_put hok ?_
      have hw := (wp_capTableDelLocked (s.tables t) id fun _ u => u = table).mp ⟨_, _, h, rfl⟩
      obtain ⟨free, hi⟩ := hok.order t ht
      cases hb : (s.tables t).caps id with
      | none =>
          rw [hb] at hw
          exact hw ▸ ⟨free, hi⟩
      | some b =>
          rw [hb] at hw
          obtain ⟨hc, ho, _⟩ := live_of_caps hb
          exact hw ▸ ⟨_, slotsInv_vacate hi hc ho⟩
  | decref _ => exact ⟨hok.small, hok.order⟩
  | finish _ => exact ⟨hok.small, hok.order⟩
  | @deinit t ht => exact tablesOk_dropTo hok t 0
  | @deinitEmpty t d _ _ _ => exact tablesOk_dropTo hok t (d + 1)
  | @deinitDrop t d _ _ _ _ _ =>
      have hdrop := tablesOk_dropTo hok t (d + 1)
      exact ⟨hdrop.small, hdrop.order⟩
  | @deinitEnd t d ht _ =>
      refine ⟨fun x => ?_, fun x hx => ?_⟩
      · show (Function.update s.tables t _ x).capacity.toNat ≤ 0xFFFF
        by_cases h : x = t
        · rw [h, Function.update_self]
          exact Nat.zero_le _
        · rw [Function.update_of_ne h]
          exact hok.small x
      · have hne : x ≠ t := by
          rintro rfl
          rw [show s.dropped x = none from hx] at ht
          cases ht
        show (Function.update s.tables t _ x).InOrder
        rw [Function.update_of_ne hne]
        exact hok.order x hx

/-- The log grows when an object is ended, and at no other step. -/
theorem log_step (hok : TablesOk s) (hs : LifeStep s s') :
    s'.heap.log = s.heap.log ∨ ∃ obj ∈ s.ending, s' = s.finish obj := by
  cases hs with
  | @init obj ops heap _ h =>
      have hw : wp (capObjInit obj ops) s.heap fun _ h => h = heap := ⟨_, _, h, rfl⟩
      unfold capObjInit at hw
      rw [wp_bind, wp_assert, wp_modify] at hw
      refine Or.inl ?_
      show heap.log = s.heap.log
      rw [← hw.2]
  | @add t _ _ _ _ _ ht _ h =>
      cases (capTableAdd_inv (hok.order t ht) h).1 with
      | add _ _ _ _ _ => exact Or.inl rfl
  | @set t _ _ _ _ _ _ ht _ h =>
      cases (capTableSet_inv (hok.order t ht) h).1 with
      | set _ _ _ _ _ => exact Or.inl rfl
      | refuse _ => exact Or.inl rfl
  | @get t id rights obj c ht h =>
      have hw := (wp_capTableGet (s.at t) id rights fun _ u => u.heap.log = s.heap.log).mpr (by
        split
        · split
          · rfl
          · rfl
        · rfl)
      exact Or.inl ((wp_of_eq h).mp hw)
  | del _ _ => exact Or.inl rfl
  | decref _ => exact Or.inl rfl
  | finish hobj => exact Or.inr ⟨_, hobj, rfl⟩
  | deinit _ => exact Or.inl rfl
  | deinitEmpty _ _ _ => exact Or.inl rfl
  | deinitDrop _ _ _ _ => exact Or.inl rfl
  | deinitEnd _ _ => exact Or.inl rfl

/-- The release callbacks that have run are no more than the deallocations. -/
theorem released_step (hok : TablesOk s) (h : s.released o ≤ s.deallocated o)
    (hs : LifeStep s s') : s'.released o ≤ s'.deallocated o := by
  unfold LifeState.released LifeState.deallocated at h ⊢
  rcases log_step hok hs with hl | ⟨obj, _, rfl⟩
  · rw [hl]
    exact h
  · have hd := finish_deallocated s.heap obj o
    have hr : (s.heap.finish obj).log.count (.release o) ≤
        s.heap.log.count (.release o) + if o = obj then 1 else 0 := by
      rcases finish_log s.heap obj with hl | hl
      · rw [hl, List.count_append]
        simp
      · rw [hl, List.count_append]
        by_cases ho : o = obj
        · simp [ho]
        · simp [ho, Ne.symm ho]
    show (s.heap.finish obj).log.count (.release o) ≤ (s.heap.finish obj).log.count (.deallocate o)
    omega

/-- Fresh tables name nothing. -/
theorem named_start (ht : ∀ t, ∃ initialCapacity, CapStart initialCapacity (s.at t))
    (hr : s.refs = []) (o : Uptr) : s.named o = 0 := by
  unfold LifeState.named
  rw [hr, List.count_nil, Nat.zero_add]
  refine Finset.sum_eq_zero fun t _ => ?_
  obtain ⟨_, h⟩ := ht t
  obtain ⟨free, hsi⟩ := (capStart_inv h).1
  exact slotRefs_empty hsi.small (capStart_empty h)

/-- **The invariants of every run.** -/
theorem lifeReachable_inv (h : LifeReachable s) :
    TablesOk s ∧ s.view.Inv ∧ ∀ o, s.released o ≤ s.deallocated o := by
  induction h with
  | @start s ht hd hl hr he hm =>
      have hnamed : ∀ o, s.view.names o = 0 := named_start ht hr
      have hended : ∀ o, s.view.ended o = 0 := by
        intro o
        show s.heap.log.count _ = 0
        rw [hl, List.count_nil]
      have hlives : ∀ o, s.view.lives o = 0 := by
        intro o
        show s.ending.count o + (if 0 < s.view.names o then 1 else 0) = 0
        rw [he, hnamed, List.count_nil]
        rfl
      refine ⟨⟨fun t => ?_, fun t _ => ?_⟩, ⟨fun o hpos => ?_, fun o => ?_, fun o => ?_⟩,
        fun o => ?_⟩
      · obtain ⟨_, h⟩ := ht t
        obtain ⟨free, hi⟩ := (capStart_inv h).1
        exact hi.small
      · obtain ⟨_, h⟩ := ht t
        exact (capStart_inv h).1
      · exact absurd hpos (by rw [show s.view.made o = 0 from hm o]; exact Nat.lt_irrefl 0)
      · rw [hended, hlives]
        exact hm o
      · rw [hlives]
        exact Nat.zero_le 1
      · unfold LifeState.released LifeState.deallocated
        rw [hl]
        exact Nat.le_refl 0
  | step _ hs hfit ih =>
      obtain ⟨hok, hinv, hrel⟩ := ih
      exact ⟨tablesOk_step hok hs, counted_step hinv (view_step hok hinv hs) hfit,
        fun o => released_step hok (hrel o) hs⟩

/-- **The life of an object**, in every state of every run of any number of tables: its counter
    is the number of slots and undropped references that name it; it is released and deallocated
    once for each time it is made, at most, and not while it is named; and a step that ends an
    object ends one that nothing names, before and after. -/
theorem cap_lifetime {ω : Type} {n : Nat} {s : LifeState ω n} (h : LifeReachable s) :
    (∀ obj, 0 < s.made obj → (s.heap.obj obj).refcount.toNat = s.named obj) ∧
    (∀ obj, s.released obj ≤ s.deallocated obj ∧ s.deallocated obj ≤ s.made obj ∧
      (0 < s.named obj → s.deallocated obj < s.made obj)) ∧
    ∀ s', LifeStep s s' → s'.heap.log = s.heap.log ∨ ∃ obj, s.named obj = 0 ∧ s'.named obj = 0 ∧
      s.deallocated obj + 1 = s.made obj ∧ s'.made = s.made ∧
      (s'.heap.log = s.heap.log ++ [.deallocate obj] ∨
        s'.heap.log = s.heap.log ++ [.release obj, .deallocate obj]) := by
  obtain ⟨hok, hinv, hrel⟩ := lifeReachable_inv h
  refine ⟨hinv.count, fun obj => ⟨hrel obj, ?_, fun hpos => ?_⟩, fun s' hs => ?_⟩
  · have hm := hinv.made obj
    exact Nat.le_trans (Nat.le_add_right _ _) (Nat.le_of_eq hm.symm)
  · have hm := (counted_named hinv hpos).2
    exact Nat.lt_of_lt_of_eq (Nat.lt_succ_self _) hm.symm
  · rcases log_step hok hs with hl | ⟨obj, hobj, rfl⟩
    · exact Or.inl hl
    · obtain ⟨hn, _, hm⟩ := counted_ending hinv (List.count_pos_iff.mpr hobj)
      exact Or.inr ⟨obj, hn, hn, hm.symm, rfl, finish_log s.heap obj⟩

/-! ## 5. A run of two tables -/

/-- The steps, by the calls they are of. -/
inductive LifeCall (ω : Type) (n : Nat) where
  | init (obj : Uptr) (ops : CapOps ω)
  | add (t : Fin n) (obj : Uptr) (rights : CapRights)
  | set (t : Fin n) (hint : CapId) (obj : Uptr) (rights : CapRights)
  | get (t : Fin n) (id : CapId) (rights : CapRights)
  | del (t : Fin n) (id : CapId)
  | decref (obj : Uptr)
  | finish (obj : Uptr)
  | deinit (t : Fin n)

/-- One round of `cap_table_deinit`. -/
def lifeRound (s : LifeState ω n) (t : Fin n) : Option (LifeState ω n) :=
  match s.dropped t with
  | none => some (s.dropTo t 0)
  | some d =>
      if d < (s.tables t).capacity.toNat then
        let obj := ((s.tables t).slots (BitVec.ofNat 16 d)).obj
        if obj = 0 then some (s.dropTo t (d + 1)) else some ((s.dropTo t (d + 1)).lower obj)
      else some (s.clear t)

/-- A step, computed. -/
def lifeExec (s : LifeState ω n) : LifeCall ω n → Option (LifeState ω n)
  | .init obj ops =>
      if s.made obj = s.deallocated obj then
        (capObjInit obj ops s.heap).toOption.map fun r => s.create obj r.2
      else none
  | .add t obj rights =>
      if s.dropped t = none ∧ 0 < s.named obj then
        (capTableAdd obj rights 0 (s.at t)).toOption.map fun r => s.put t r.2 s.refs
      else none
  | .set t hint obj rights =>
      if s.dropped t = none ∧ 0 < s.named obj then
        (capTableSet hint obj rights 0 (s.at t)).toOption.map fun r => s.put t r.2 s.refs
      else none
  | .get t id rights =>
      if s.dropped t = none then
        (capTableGet id rights (s.at t)).toOption.map fun r =>
          s.put t r.2 (if r.1 = 0 then s.refs else r.1 :: s.refs)
      else none
  | .del t id =>
      if s.dropped t = none then
        (capTableDelLocked id (s.tables t)).toOption.map fun r =>
          s.put t ⟨r.2, s.heap⟩ (r.1.toList ++ s.refs)
      else none
  | .decref obj => if obj ∈ s.refs then some ((s.giveUp obj).lower obj) else none
  | .finish obj => if obj ∈ s.ending then some (s.finish obj) else none
  | .deinit t => lifeRound s t

theorem lifeExec_step {e : LifeCall ω n} (h : lifeExec s e = some s') : LifeStep s s' := by
  cases e with
  | init obj ops =>
      obtain ⟨hfree, h⟩ := Option.ite_none_right_eq_some.mp h
      obtain ⟨r, hr, rfl⟩ := Option.map_eq_some_iff.mp h
      exact .init hfree (ok_of_toOption hr)
  | add t obj rights =>
      obtain ⟨⟨ht, hobj⟩, h⟩ := Option.ite_none_right_eq_some.mp h
      obtain ⟨r, hr, rfl⟩ := Option.map_eq_some_iff.mp h
      exact .add ht hobj (ok_of_toOption hr)
  | set t hint obj rights =>
      obtain ⟨⟨ht, hobj⟩, h⟩ := Option.ite_none_right_eq_some.mp h
      obtain ⟨r, hr, rfl⟩ := Option.map_eq_some_iff.mp h
      exact .set ht hobj (ok_of_toOption hr)
  | get t id rights =>
      obtain ⟨ht, h⟩ := Option.ite_none_right_eq_some.mp h
      obtain ⟨r, hr, rfl⟩ := Option.map_eq_some_iff.mp h
      exact .get ht (ok_of_toOption hr)
  | del t id =>
      obtain ⟨ht, h⟩ := Option.ite_none_right_eq_some.mp h
      obtain ⟨r, hr, rfl⟩ := Option.map_eq_some_iff.mp h
      exact .del ht (ok_of_toOption hr)
  | decref obj =>
      obtain ⟨hobj, h⟩ := Option.ite_none_right_eq_some.mp h
      cases h
      exact .decref hobj
  | finish obj =>
      obtain ⟨hobj, h⟩ := Option.ite_none_right_eq_some.mp h
      cases h
      exact .finish hobj
  | deinit t =>
      change lifeRound s t = some s' at h
      unfold lifeRound at h
      split at h
      · rename_i ht
        cases h
        exact .deinit ht
      · rename_i d ht
        split at h
        · rename_i hd
          dsimp only at h
          split at h
          · rename_i hobj
            cases h
            exact .deinitEmpty ht hd hobj
          · rename_i hne
            cases h
            exact .deinitDrop ht hd rfl hne
        · rename_i hd
          cases h
          exact .deinitEnd ht (Nat.not_lt.mp hd)

/-- The references and the slots are fewer than a counter can count. -/
def LifeState.Small (s : LifeState ω n) : Prop :=
  s.refs.length + ∑ t, (s.tables t).capacity.toNat < 2 ^ 32

instance (s : LifeState ω n) : Decidable s.Small := inferInstanceAs (Decidable (_ < _))

theorem slotRefs_le {t : CapTable} {d : Nat} {o : Uptr} : t.slotRefs d o ≤ t.capacity.toNat := by
  have hone : ∀ i ∈ Finset.range t.capacity.toNat,
      (if o ≠ 0 ∧ d ≤ i ∧ (t.slots (BitVec.ofNat 16 i)).obj = o then 1 else 0) ≤ 1 := by
    intro i _
    split
    · exact Nat.le_refl 1
    · exact Nat.zero_le 1
  have h := Finset.sum_le_card_nsmul _ _ 1 hone
  rw [Finset.card_range, smul_eq_mul, Nat.mul_one] at h
  exact h

theorem named_fits (h : s.Small) (o : Uptr) : s.named o < 2 ^ 32 :=
  Nat.lt_of_le_of_lt
    (Nat.add_le_add List.count_le_length (Finset.sum_le_sum fun _ _ => slotRefs_le)) h

def lifeStep (s : LifeState ω n) (e : LifeCall ω n) : Option (LifeState ω n) :=
  (lifeExec s e).bind fun s' => if s'.Small then some s' else none

theorem lifeReachable_exec {es : List (LifeCall ω n)} (h : LifeReachable s)
    (hrun : exec lifeStep s es = some s') : LifeReachable s' := by
  refine runs_inv LifeReachable h (fun t e t' ht _ hs => ?_) (runs_exec hrun)
  obtain ⟨u, hu, hs⟩ := Option.bind_eq_some_iff.mp hs
  obtain ⟨hsmall, hs⟩ := Option.ite_none_right_eq_some.mp hs
  cases hs
  exact .step ht (lifeExec_step hu) (named_fits hsmall)

/-- Two tables of two slots, and no objects. -/
def twoTables : LifeState Unit 2 where
  tables := fun _ => (freshCaps 2).table
  dropped := fun _ => none
  heap := (freshCaps 2).heap
  refs := []
  ending := []
  made := fun _ => 0

theorem twoTables_reachable : LifeReachable twoTables :=
  .start (fun _ => ⟨2, freshCaps_start (by decide)⟩) (fun _ => rfl) rfl rfl rfl fun _ => rfl

/-- An object with a release callback is put into both tables and used through the first one; its
    maker drops it, the first table deletes it, and the second is ended. -/
def sharedObject : List (LifeCall Unit 2) :=
  [.init 8 ⟨some fun _ w => w, none, none, none, none, none⟩, .add 0 8 CAP_RIGHT_WRITE,
    .set 1 0x00010001 8 CAP_RIGHT_READ, .decref 8, .get 0 0x00010000 CAP_RIGHT_WRITE,
    .del 0 0x00010000, .decref 8, .decref 8, .deinit 1, .deinit 1, .deinit 1]

/-- In the middle of the run three names count, and at its end the object is ended, once. -/
theorem cap_lifetime_shared : ∃ m s s' : LifeState Unit 2,
    exec lifeStep twoTables (sharedObject.take 5) = some m ∧ m.named 8 = 3 ∧
      (m.heap.obj 8).refcount.toNat = m.named 8 ∧ m.deallocated 8 < m.made 8 ∧
    exec lifeStep twoTables sharedObject = some s ∧ s.heap.log = [] ∧ LifeStep s s' ∧
      s'.heap.log = [.release 8, .deallocate 8] ∧ s'.named 8 = 0 ∧
      s.deallocated 8 + 1 = s.made 8 := by
  obtain ⟨m, hm, hnamed, hmade⟩ : ∃ m, exec lifeStep twoTables (sharedObject.take 5) = some m ∧
      m.named 8 = 3 ∧ m.made 8 = 1 := ⟨_, rfl, rfl, rfl⟩
  obtain ⟨s, hs, hending, hlog, hlog'⟩ : ∃ s, exec lifeStep twoTables sharedObject = some s ∧
      s.ending = [8] ∧ s.heap.log = [] ∧ (s.finish 8).heap.log = [.release 8, .deallocate 8] :=
    ⟨_, rfl, rfl, rfl, rfl⟩
  have hstep : LifeStep s (s.finish 8) := .finish (by rw [hending]; exact List.mem_singleton_self 8)
  obtain ⟨hcount, hends, -⟩ := cap_lifetime (lifeReachable_exec twoTables_reachable hm)
  obtain ⟨-, -, hlast⟩ := cap_lifetime (lifeReachable_exec twoTables_reachable hs)
  refine ⟨m, s, s.finish 8, hm, hnamed, hcount 8 (by omega), (hends 8).2.2 (by omega), hs, hlog,
    hstep, hlog', ?_⟩
  rcases hlast _ hstep with hsame | ⟨obj, -, hn, hd, -, hone | htwo⟩
  · rw [hlog', hlog] at hsame
    cases hsame
  · rw [hlog', hlog] at hone
    cases hone
  · rw [hlog', hlog] at htwo
    cases htwo
    exact ⟨hn, hd⟩

end Life

end Slightx
