/-
  File:      Slightx/Proc/Capabilities.lean
  Subject:   Capability objects and capability tables.

  Sources: kernel/proc/capabilities.h, kernel/src/proc/capabilities.c.

  A `cap_obj *` is an address and `NULL` is 0; what the addresses hold is the heap of objects
  (`CapHeap`), which all tables share. A table owns a block of slots, named by `u16` indices: the
  block never holds more than 0xFFFF of them. Growing it keeps what it held, and the memory
  behind it is whatever it is until the loop that follows has filled it.

  A table function is one critical section of the table's lock, but for `cap_table_del`, which
  drops its reference after the release of the lock (`capTableDelLocked` is the section). The
  callbacks of an object act on the rest of the machine, `ω`, which the tables know nothing of.
  The allocators do not appear: `cap_obj` and the slots live in the kernel heap.
-/
import Slightx.Klibc.Core
import Slightx.Lib.Chain

namespace Slightx

open Lib

/-! ## 1. Objects -/

/-- `struct cap_ops`: the callbacks of an object, `none` for `NULL`. -/
structure CapOps (ω : Type) where
  release : Option (Uptr → ω → ω)
  read : Option (Uptr → Span → Prog Fault ω U64)
  write : Option (Uptr → Span → Prog Fault ω U64)
  invoke : Option (Uptr → Span → Span → Prog Fault ω U64)
  map : Option (Uptr → Uptr → Usize → U8 → Uptr → Prog Fault ω U64)
  ctl : Option (Uptr → U64 → Uptr → Prog Fault ω U64)

/-- `struct cap_obj`. -/
structure CapObj (ω : Type) where
  ops : CapOps ω
  refcount : U32
  flags : U32

/-- What the end of an object asks for. -/
inductive CapEvent where
  /-- `ops->release(obj)` -/
  | release (obj : Uptr)
  /-- `deallocate(a, obj, sizeof(cap_obj))` -/
  | deallocate (obj : Uptr)
  deriving DecidableEq, Repr

/-- The objects, the events of their ends so far, and the rest of the machine. -/
structure CapHeap (ω : Type) where
  obj : Uptr → CapObj ω
  log : List CapEvent
  rest : ω

section Objects

variable {ω : Type}

def CapHeap.setRefcount (h : CapHeap ω) (self : Uptr) (n : U32) : CapHeap ω :=
  { h with obj := Function.update h.obj self { h.obj self with refcount := n } }

def CapHeap.event (h : CapHeap ω) (e : CapEvent) : CapHeap ω := { h with log := h.log ++ [e] }

def capObjInit (self : Uptr) (ops : CapOps ω) : Prog Fault (CapHeap ω) Unit := do
  assert (self ≠ 0) "self != NULL"
  modify fun h => { h with obj := Function.update h.obj self { ops, refcount := 1, flags := 0 } }

def capObjIncref (self : Uptr) : Prog Fault (CapHeap ω) Uptr := do
  assert (self ≠ 0) "self != NULL"
  modify fun h => h.setRefcount self ((h.obj self).refcount + 1)
  return self

/-- What follows when the count was 1. -/
def CapHeap.finish (h : CapHeap ω) (self : Uptr) : CapHeap ω :=
  match (h.obj self).ops.release with
  | some release =>
      ({ h with rest := release self h.rest }.event (.release self)).event (.deallocate self)
  | none => h.event (.deallocate self)

/-- `atomic_fetch_sub_explicit(&self->refcount, 1, …)` -/
def capObjFetchSub (self : Uptr) : Prog Fault (CapHeap ω) U32 := do
  let old := ((← get).obj self).refcount
  modify fun h => h.setRefcount self (old - 1)
  return old

def capObjDecref (self : Uptr) : Prog Fault (CapHeap ω) Unit := do
  assert (self ≠ 0) "self != NULL"
  let old ← capObjFetchSub self
  let _ ← (if old = 1 then modify fun h => h.finish self else pure ())

def CapHeap.incref (h : CapHeap ω) (self : Uptr) : CapHeap ω :=
  h.setRefcount self ((h.obj self).refcount + 1)

/-- The counter one lower. -/
def CapHeap.lower (h : CapHeap ω) (self : Uptr) : CapHeap ω :=
  h.setRefcount self ((h.obj self).refcount - 1)

def CapHeap.decref (h : CapHeap ω) (self : Uptr) : CapHeap ω :=
  if (h.obj self).refcount = 1 then (h.lower self).finish self else h.lower self

@[simp] theorem wp_capObjIncref (self : Uptr) (h : CapHeap ω) (Q : Uptr → CapHeap ω → Prop) :
    wp (capObjIncref self) h Q ↔ self ≠ 0 ∧ Q self (h.incref self) := by
  unfold capObjIncref
  rw [wp_bind, wp_assert, wp_bind, wp_modify, wp_pure]
  rfl

@[simp] theorem wp_capObjDecref (self : Uptr) (h : CapHeap ω) (Q : Unit → CapHeap ω → Prop) :
    wp (capObjDecref self) h Q ↔ self ≠ 0 ∧ Q () (h.decref self) := by
  unfold capObjDecref capObjFetchSub CapHeap.decref
  rw [wp_bind, wp_assert, wp_bind, wp_bind, wp_get, wp_bind, wp_modify, wp_pure, wp_bind]
  split
  · rw [wp_modify, wp_pure]
    rfl
  · rw [wp_pure, wp_pure]
    rfl

end Objects

/-! ## 2. Capability ids -/

abbrev CapId := U32

abbrev CapRights := U32

def CAP_INVALID_INDEX : U16 := 0xFFFF

def CAP_RIGHT_READ : CapRights := 1 <<< 0

def CAP_RIGHT_WRITE : CapRights := 1 <<< 1

def CAP_RIGHT_INVOKE : CapRights := 1 <<< 2

def CAP_RIGHT_MAP : CapRights := 1 <<< 3

def CAP_RIGHT_CTL : CapRights := 1 <<< 4

def capIdMake (index gen : U16) : CapId := (gen.setWidth 32 <<< 16) ||| index.setWidth 32

def capIdGetIndex (id : CapId) : U16 := (id &&& 0xFFFF).setWidth 16

def capIdGetGen (id : CapId) : U16 := (id >>> 16).setWidth 16

theorem toNat_capIdGetIndex (id : CapId) : (capIdGetIndex id).toNat = id.toNat % 2 ^ 16 := by
  unfold capIdGetIndex
  rw [BitVec.toNat_setWidth, BitVec.toNat_and]
  show (id.toNat &&& (2 ^ 16 - 1)) % 2 ^ 16 = _
  rw [Nat.and_two_pow_sub_one_eq_mod, Nat.mod_mod]

theorem toNat_capIdGetGen (id : CapId) : (capIdGetGen id).toNat = id.toNat / 2 ^ 16 := by
  unfold capIdGetGen
  have hid := id.isLt
  rw [BitVec.toNat_setWidth, BitVec.toNat_ushiftRight, Nat.shiftRight_eq_div_pow]
  omega

theorem toNat_capIdMake (index gen : U16) :
    (capIdMake index gen).toNat = gen.toNat * 2 ^ 16 + index.toNat := by
  have hi := index.isLt
  have hg := gen.isLt
  unfold capIdMake
  rw [BitVec.toNat_or, BitVec.toNat_shiftLeft, BitVec.toNat_setWidth, BitVec.toNat_setWidth,
    Nat.mod_eq_of_lt (a := gen.toNat) (by omega), Nat.mod_eq_of_lt (a := index.toNat) (by omega),
    Nat.shiftLeft_eq, Nat.mod_eq_of_lt (by omega), ← Nat.shiftLeft_eq,
    ← Nat.shiftLeft_add_eq_or_of_lt hi]

@[simp] theorem capIdGetIndex_make (index gen : U16) :
    capIdGetIndex (capIdMake index gen) = index := by
  apply BitVec.eq_of_toNat_eq
  have hi := index.isLt
  rw [toNat_capIdGetIndex, toNat_capIdMake]
  omega

@[simp] theorem capIdGetGen_make (index gen : U16) :
    capIdGetGen (capIdMake index gen) = gen := by
  apply BitVec.eq_of_toNat_eq
  have hi := index.isLt
  rw [toNat_capIdGetGen, toNat_capIdMake]
  omega

/-- An id is its index and its generation. -/
theorem capIdMake_get (id : CapId) : capIdMake (capIdGetIndex id) (capIdGetGen id) = id := by
  apply BitVec.eq_of_toNat_eq
  rw [toNat_capIdMake, toNat_capIdGetIndex, toNat_capIdGetGen]
  omega

/-! ## 3. Tables -/

/-- `struct cap_slot`; an empty slot holds `NULL`. -/
structure CapSlot where
  obj : Uptr
  rights : CapRights
  flags : U32
  gen : U16
  nextFree : U16
  deriving DecidableEq, Repr

/-- A slot as `cap_table_init` and the growing of a table leave it. -/
def CapSlot.unused : CapSlot :=
  { obj := 0, rights := 0, flags := 0, gen := 1, nextFree := CAP_INVALID_INDEX }

/-- `struct cap_table`, without the allocator and the lock. -/
@[ext]
structure CapTable where
  slots : U16 → CapSlot
  capacity : Usize
  nextUnused : U16
  freeHead : U16

def CapTable.setSlot (t : CapTable) (i : U16) (slot : CapSlot) : CapTable :=
  { t with slots := Function.update t.slots i slot }

@[simp] theorem setSlot_same (t : CapTable) (i : U16) (slot : CapSlot) :
    (t.setSlot i slot).slots i = slot := by
  show Function.update t.slots i slot i = slot
  rw [Function.update_self]

theorem setSlot_ne (t : CapTable) {i j : U16} (slot : CapSlot) (h : j ≠ i) :
    (t.setSlot i slot).slots j = t.slots j := by
  show Function.update t.slots i slot j = t.slots j
  rw [Function.update_of_ne h]

/-- A table and the heap of objects its functions work on. -/
structure CapState (ω : Type) where
  table : CapTable
  heap : CapHeap ω

section Tables

variable {ω α : Type}

/-- A loop without an end: like `panic`, it returns to nobody. -/
def hang {σ : Type} : Prog Fault σ α := throw (.panic "endless loop")

def onTable (x : Prog Fault CapTable α) : Prog Fault (CapState ω) α :=
  zoom CapState.table (fun s t => { s with table := t }) x

def onHeap (x : Prog Fault (CapHeap ω) α) : Prog Fault (CapState ω) α :=
  zoom CapState.heap (fun s h => { s with heap := h }) x

/-- `for (i = first; i < first + n; i++) slots[i] = …`, the loop that prepares new slots. -/
def prepareSlots (first n : Nat) : Prog Fault CapTable Unit :=
  forUp n fun k => modify fun t => t.setSlot (BitVec.ofNat 16 (first + k)) .unused

/-- Twice the capacity, at most 0xFFFF. -/
def capTableNewCapacity (oldCapacity : Usize) : Usize :=
  let newCapacity := if oldCapacity = 0 then 1 else oldCapacity * 2
  if 0xFFFF < newCapacity then 0xFFFF else newCapacity

def capTableEnsureCapacity : Prog Fault CapTable Unit := do
  let t ← get
  if t.nextUnused.toNat < t.capacity.toNat then return ()
  else if t.capacity = 0xFFFF then return ()
  else
    let oldCapacity := t.capacity
    let newCapacity := capTableNewCapacity oldCapacity
    set { t with capacity := newCapacity }
    prepareSlots oldCapacity.toNat (newCapacity.toNat - oldCapacity.toNat)

/-- The `while` loop of `cap_table__free_list_remove`. It changes nothing before its last round,
    so a loop that has not ended after a round for each index runs in a circle. -/
def freeListScan (idx : U16) : (rounds : Nat) → (prev : U16) → Prog Fault CapTable Bool
  | 0, _ => hang
  | rounds + 1, prev => do
      if prev = CAP_INVALID_INDEX then return false
      else
        let t ← get
        let cur := (t.slots prev).nextFree
        if cur = CAP_INVALID_INDEX then return false
        else if cur = idx then
          set (t.setSlot prev { t.slots prev with nextFree := (t.slots cur).nextFree })
          return true
        else freeListScan idx rounds cur

def capTableFreeListRemove (idx : U16) : Prog Fault CapTable Bool := do
  assert (idx ≠ CAP_INVALID_INDEX) "idx != CAP_INVALID_INDEX"
  let t ← get
  if t.freeHead = CAP_INVALID_INDEX then return false
  else if t.freeHead = idx then
    set { t with freeHead := (t.slots idx).nextFree }
    return true
  else freeListScan idx 0x10000 t.freeHead

def capTableInit (initialCapacity : Usize) : Prog Fault CapTable Unit := do
  assert (initialCapacity.toNat ≤ 0xFFFF) "initial_capacity <= 0xFFFF"
  modify fun t =>
    { t with capacity := initialCapacity, nextUnused := 0, freeHead := CAP_INVALID_INDEX }
  prepareSlots 0 initialCapacity.toNat

/-- The first half of `cap_table_add`: the index of the slot it fills. -/
def capTableTake : Prog Fault CapTable U16 := do
  let t ← get
  if t.freeHead ≠ CAP_INVALID_INDEX then
    let idx := t.freeHead
    set { t with freeHead := (t.slots idx).nextFree }
    return idx
  else
    capTableEnsureCapacity
    let t ← get
    assert (t.nextUnused.toNat < t.capacity.toNat) "self->next_unused < self->capacity"
    let idx := t.nextUnused
    set { t with nextUnused := t.nextUnused + 1 }
    return idx

/-- The assignments to the slot that `cap_table_add` and `cap_table_set` fill. -/
def CapTable.fill (t : CapTable) (idx : U16) (obj : Uptr) (rights : CapRights) (flags : U32) :
    CapTable :=
  t.setSlot idx { t.slots idx with obj, rights, flags, nextFree := CAP_INVALID_INDEX }

def capTableAdd (obj : Uptr) (rights : CapRights) (flags : U32) :
    Prog Fault (CapState ω) CapId := do
  assert (obj ≠ 0) "obj != NULL"
  let idx ← onTable capTableTake
  let slot := (← get).table.slots idx
  assert (slot.obj = 0) "slot->obj == NULL"
  let obj ← onHeap (capObjIncref obj)
  onTable (modify fun t => t.fill idx obj rights flags)
  return capIdMake idx slot.gen

/-- The first `while` loop of `cap_table_set`: grow until `idx` is a slot. A round that does not
    end the loop enlarges the capacity, which never exceeds 0xFFFF. -/
def growTo (idx : U16) : (rounds : Nat) → Prog Fault CapTable Bool
  | 0 => hang
  | rounds + 1 => do
      let t ← get
      if t.capacity.toNat ≤ idx.toNat then
        let oldCapacity := t.capacity
        capTableEnsureCapacity
        if (← get).capacity = oldCapacity then return false
        else growTo idx rounds
      else return true

/-- `for (u16 i = idx; i > self->next_unused; i--)`: the skipped slots, highest index first, go
    to the front of the free list. -/
def freeSkipped (idx : U16) (skipped : Nat) : Prog Fault CapTable Unit :=
  forUp skipped fun k => modify fun t =>
    let freeIdx := idx - BitVec.ofNat 16 k - 1
    { t.setSlot freeIdx { t.slots freeIdx with nextFree := t.freeHead } with freeHead := freeIdx }

/-- The slot `idx` leaves the free list, or the part of the table never used so far. -/
def capTableClaim (idx : U16) : Prog Fault CapTable Bool := do
  let t ← get
  if idx.toNat < t.nextUnused.toNat then capTableFreeListRemove idx
  else
    freeSkipped idx (idx.toNat - t.nextUnused.toNat)
    modify fun t => { t with nextUnused := idx + 1 }
    return true

def capTableSet (hint : CapId) (obj : Uptr) (rights : CapRights) (flags : U32) :
    Prog Fault (CapState ω) Bool := do
  assert (obj ≠ 0) "obj != NULL"
  let idx := capIdGetIndex hint
  let gen := capIdGetGen hint
  if idx = CAP_INVALID_INDEX ∨ gen = 0 then return false
  else if ¬ (← onTable (growTo idx 0x10000)) then return false
  else
    let slot := (← get).table.slots idx
    if slot.obj ≠ 0 ∨ slot.gen ≠ gen then return false
    else if ¬ (← onTable (capTableClaim idx)) then return false
    else
      let obj ← onHeap (capObjIncref obj)
      onTable (modify fun t => t.fill idx obj rights flags)
      return true

/-- The object, or `NULL` (0). -/
def capTableGet (id : CapId) (requiredRights : CapRights) : Prog Fault (CapState ω) Uptr := do
  let t := (← get).table
  let idx := capIdGetIndex id
  let gen := capIdGetGen id
  if t.capacity.toNat ≤ idx.toNat then return 0
  else
    let slot := t.slots idx
    if slot.obj = 0 then return 0
    else if slot.gen ≠ gen then return 0
    else if slot.rights &&& requiredRights ≠ requiredRights then return 0
    else onHeap (capObjIncref slot.obj)

/-- The slot of a released capability: empty, one generation later, on the free list. -/
def CapTable.vacate (t : CapTable) (idx : U16) : CapTable :=
  let gen := (t.slots idx).gen + 1
  let gen := if gen = 0 then 1 else gen
  { t.setSlot idx { obj := 0, rights := 0, flags := 0, gen, nextFree := t.freeHead } with
    freeHead := idx }

/-- `cap_table_del` up to the release of the lock: the object to drop, if any. -/
def capTableDelLocked (id : CapId) : Prog Fault CapTable (Option Uptr) := do
  let t ← get
  let idx := capIdGetIndex id
  let gen := capIdGetGen id
  if t.capacity.toNat ≤ idx.toNat then return none
  else
    let slot := t.slots idx
    if slot.obj = 0 ∨ slot.gen ≠ gen then return none
    else
      set (t.vacate idx)
      return some slot.obj

def capTableDel (id : CapId) : Prog Fault (CapState ω) Unit := do
  match ← onTable (capTableDelLocked id) with
  | none => return ()
  | some obj => onHeap (capObjDecref obj)

/-- One round of the loop of `cap_table_deinit`. -/
def capTableDrop (i : Nat) : Prog Fault (CapState ω) Unit := do
  let obj := ((← get).table.slots (BitVec.ofNat 16 i)).obj
  let _ ← (if obj ≠ 0 then onHeap (capObjDecref obj) else pure ())

/-- The end of a table: every slot's reference is dropped, and the table is zeroed. -/
def capTableDeinit : Prog Fault (CapState ω) Unit := do
  forUp (← get).table.capacity.toNat capTableDrop
  onTable (modify fun t => { t with capacity := 0, nextUnused := 0, freeHead := 0 })

end Tables

end Slightx
