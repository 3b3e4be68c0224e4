/-
  File:      Slightx/Proc/CapGrow.lean
  Subject:   How far a capability table grows, and what happens when it cannot.

  `cap_table__ensure_capacity` looks at `next_unused`: it doubles the block when every slot has been
  used, and does nothing otherwise. So the loop of `cap_table_set` grows a block once at most, and
  an `add` to a block that cannot grow goes on without a slot.

  * `CapTable.reach` -- the capacity that the loop of `cap_table_set` gets to;
  * `capTableSet_exact` -- the hints of vacant slots that are refused are those beyond it;
  * `AddSys` -- a table with its lock, whose block may be `NULL`: an access outside the block is a
    fault (`AddFault.outside`);
  * `capTableAdd_exact` -- an `add` meets its contract while there is a slot or room for one, in
    both builds; otherwise it leaves the block, or fails its assertion
-/
import Slightx.Proc.CapMap

namespace Slightx

open Lib

/-! ## 1. The slots a hint can reach -/

/-- The hinted slot is vacant and has the hinted generation; the slots behind the block are vacant
    and of generation 1. -/
def CapTable.Vacant (t : CapTable) (hint : CapId) : Prop :=
  if (capIdGetIndex hint).toNat < t.capacity.toNat then
    (t.slots (capIdGetIndex hint)).obj = 0 ∧ (t.slots (capIdGetIndex hint)).gen = capIdGetGen hint
  else capIdGetGen hint = 1

instance (t : CapTable) (hint : CapId) : Decidable (t.Vacant hint) :=
  inferInstanceAs (Decidable (ite _ _ _))

/-- A block whose slots have all been used is doubled, once. -/
def CapTable.reach (t : CapTable) : Nat :=
  if t.nextUnused.toNat < t.capacity.toNat then t.capacity.toNat
  else min 0xFFFF (max 1 (t.capacity.toNat * 2))

section Reach

variable {t t' : CapTable} {held : Option U16} {free : List U16} {idx : U16}

theorem capacity_le_reach (hi : SlotsInv t held free) : t.capacity.toNat ≤ t.reach := by
  have hsmall := hi.small
  unfold CapTable.reach
  split
  · exact Nat.le_refl _
  · omega

theorem toNat_newCapacity {c : Usize} (h : c.toNat < 0xFFFF) :
    (capTableNewCapacity c).toNat = min 0xFFFF (max 1 (c.toNat * 2)) := by
  have hdbl : (c * 2).toNat = c.toNat * 2 := by
    rw [BitVec.toNat_mul]
    exact Nat.mod_eq_of_lt (show c.toNat * 2 < 2 ^ 64 by omega)
  have hmax : (0xFFFF : Usize).toNat = 0xFFFF := rfl
  unfold capTableNewCapacity
  by_cases h0 : c = 0
  · subst h0
    decide
  · have hpos : c.toNat ≠ 0 := fun h => h0 (BitVec.eq_of_toNat_eq h)
    rw [if_neg h0]
    dsimp only
    split
    · rename_i hlt
      rw [BitVec.lt_def, hdbl, hmax] at hlt
      rw [hmax]
      omega
    · rename_i hle
      rw [BitVec.lt_def, hdbl, hmax] at hle
      rw [hdbl]
      omega

/-- One call of `cap_table__ensure_capacity` gets there, and a second one stays. -/
theorem wp_ensureCapacity_reach (hi : SlotsInv t held free) :
    wp capTableEnsureCapacity t fun _ t' => t'.capacity.toNat = t.reach ∧ t'.reach = t.reach := by
  have hsmall := hi.small
  have hused := hi.used
  unfold capTableEnsureCapacity
  rw [wp_bind, wp_get]
  split
  · rename_i hlt
    rw [wp_pure]
    exact ⟨(if_pos hlt).symm, rfl⟩
  · rename_i hfull
    split
    · rename_i hmax
      rw [wp_pure]
      refine ⟨?_, rfl⟩
      unfold CapTable.reach
      rw [if_neg hfull, hmax]
      rfl
    · rename_i hmax
      have hne : t.capacity.toNat ≠ 0xFFFF := fun h => hmax (BitVec.eq_of_toNat_eq h)
      have hcap := toNat_newCapacity (c := t.capacity) (by omega)
      have hreach : t.reach = (capTableNewCapacity t.capacity).toNat := by
        unfold CapTable.reach
        rw [if_neg hfull, hcap]
      rw [wp_bind, wp_set, wp_prepareSlots (by omega)]
      refine ⟨hreach.symm, ?_⟩
      rw [hreach]
      refine if_pos ?_
      show t.nextUnused.toNat < (capTableNewCapacity t.capacity).toNat
      omega

/-- The loop of `cap_table_set` ends with a slot for the indices within reach. -/
theorem wp_growTo_reach {rounds : Nat} (idx : U16) (hi : SlotsInv t held free)
    (hr : 0xFFFF < t.capacity.toNat + rounds) :
    wp (growTo idx rounds) t fun ok _ => ok = true ↔ idx.toNat < t.reach := by
  induction rounds generalizing t with
  | zero => exact absurd hr (Nat.not_lt.mpr hi.small)
  | succ rounds ih =>
      unfold growTo
      rw [wp_bind, wp_get]
      split
      · rename_i hle
        dsimp only
        rw [wp_bind]
        refine wp_mono (wp_and (wp_capTableEnsureCapacity hi) (wp_ensureCapacity_reach hi))
          fun _ u hu => ?_
        obtain ⟨⟨hg, _⟩, hcap, hreach⟩ := hu
        rw [wp_bind, wp_get]
        split
        · rename_i he
          rw [wp_pure, ← hcap, he]
          exact ⟨fun h => absurd h (by decide), fun h => absurd h (Nat.not_lt.mpr hle)⟩
        · rename_i hne
          have hlt : t.capacity.toNat < u.capacity.toNat := by
            refine Nat.lt_of_le_of_ne hg.grow fun he => hne ?_
            exact (BitVec.eq_of_toNat_eq he).symm
          rw [← hreach]
          exact ih (slotsInv_grown hi hg) (by omega)
      · rename_i hlt
        rw [wp_pure]
        exact ⟨fun _ => Nat.lt_of_lt_of_le (Nat.not_le.mp hlt) (capacity_le_reach hi), fun _ => rfl⟩

/-- Growing makes no difference to which slots are vacant. -/
theorem vacant_grown (hg : Grown t t') {hint : CapId}
    (hc : (capIdGetIndex hint).toNat < t'.capacity.toNat) :
    t.Vacant hint ↔ (t'.slots (capIdGetIndex hint)).obj = 0 ∧
      (t'.slots (capIdGetIndex hint)).gen = capIdGetGen hint := by
  unfold CapTable.Vacant
  split
  · rename_i hlt
    rw [hg.slots _ hlt]
  · rename_i hge
    rw [hg.new _ (Nat.not_lt.mp hge) hc]
    exact ⟨fun h => ⟨rfl, h.symm⟩, fun h => h.2.symm⟩

/-- **What `cap_table_set` answers.** -/
theorem wp_capTableSet_reach {ω : Type} {s : CapState ω} (hi : SlotsInv s.table none free)
    {hint : CapId} {obj : Uptr} (ho : obj ≠ 0) (rights : CapRights) (flags : U32)
    (hidx : (capIdGetIndex hint).toNat < 0xFFFF) (hgen : capIdGetGen hint ≠ 0) :
    wp (capTableSet hint obj rights flags) s fun ok _ =>
      ok = true ↔ (capIdGetIndex hint).toNat < s.table.reach ∧ s.table.Vacant hint := by
  unfold capTableSet
  rw [wp_bind, wp_assert]
  refine ⟨ho, ?_⟩
  dsimp only
  rw [if_neg fun h => h.elim (ne_invalid hidx) hgen, wp_bind, wp_onTable]
  refine wp_mono (wp_and (wp_growTo _ hi (by omega)) (wp_growTo_reach _ hi (by omega)))
    fun ok u hu => ?_
  obtain ⟨⟨hg, hok⟩, hreach⟩ := hu
  cases ok with
  | false =>
      rw [if_pos (by decide), wp_pure]
      exact ⟨fun h => absurd h (by decide), fun h => absurd (hreach.mpr h.1) (by decide)⟩
  | true =>
      have hc := hok.mp rfl
      have hvac := vacant_grown hg hc
      rw [if_neg (by decide), wp_bind, wp_get]
      dsimp only
      split
      · rename_i hor
        rw [wp_pure]
        refine ⟨fun h => absurd h (by decide), fun h => ?_⟩
        obtain ⟨hobj, hg⟩ := hvac.mp h.2
        exact hor.elim (fun h => absurd hobj h) fun h => absurd hg h
      · rename_i hor
        have hobj := Classical.not_not.mp fun h => hor (Or.inl h)
        have heq := Classical.not_not.mp fun h => hor (Or.inr h)
        rw [wp_bind, wp_onTable]
        refine wp_mono (wp_capTableClaim (slotsInv_grown hi hg) hc hobj) fun ok' v hv => ?_
        obtain ⟨rfl, _⟩ := hv
        rw [if_neg (by decide), wp_bind, wp_onHeap, wp_capObjIncref]
        refine ⟨ho, ?_⟩
        rw [wp_bind, wp_onTable, wp_modify, wp_pure]
        exact ⟨fun _ => ⟨hreach.mp rfl, hvac.mpr ⟨hobj, heq⟩⟩, fun _ => rfl⟩

end Reach

/-- **`cap_table_set` fills the vacant slots within reach**: it answers as it should, in every state
    of a run, unless the hint has generation 1 and an index behind what the block grows to. -/
theorem capTableSet_exact {ω : Type} {s : CapState ω} (h : CapReachable s) {hint : CapId}
    {obj : Uptr} (ho : obj ≠ 0) (rights : CapRights) (flags : U32)
    (hidx : (capIdGetIndex hint).toNat < 0xFFFF) (hgen : capIdGetGen hint ≠ 0) :
    wp (capTableSet hint obj rights flags) s (fun ok _ => ok = true ↔ s.table.Vacant hint) ↔
      (capIdGetGen hint = 1 → (capIdGetIndex hint).toNat < s.table.reach) := by
  obtain ⟨free, hi⟩ := capReachable_inv h
  have hanswer := wp_capTableSet_reach hi ho rights flags hidx hgen
  constructor
  · intro hw h1
    obtain ⟨ok, _, _, hok, hreach⟩ := wp_and hw hanswer
    by_cases hlt : (capIdGetIndex hint).toNat < s.table.capacity.toNat
    · exact Nat.lt_of_lt_of_le hlt (capacity_le_reach hi)
    · have hvac : s.table.Vacant hint := by
        unfold CapTable.Vacant
        rw [if_neg hlt]
        exact h1
      exact (hreach.mp (hok.mpr hvac)).1
  · intro hcond
    refine wp_mono hanswer fun ok _ hok => ?_
    rw [hok]
    refine ⟨fun h => h.2, fun hvac => ⟨?_, hvac⟩⟩
    by_cases hlt : (capIdGetIndex hint).toNat < s.table.capacity.toNat
    · exact Nat.lt_of_lt_of_le hlt (capacity_le_reach hi)
    · unfold CapTable.Vacant at hvac
      rw [if_neg hlt] at hvac
      exact hcond hvac

/-- The second slot of a block of two. -/
theorem capTableSet_exact_two : wp (capTableSet 0x00010001 8 0 0) (freshCaps 2) fun ok _ =>
    ok = true ↔ (freshCaps 2).table.Vacant 0x00010001 :=
  (capTableSet_exact ⟨2, _, _, freshCaps_start (by decide), .start⟩ (by decide) 0 0 (by decide)
    (by decide)).mpr fun _ => by decide

/-- A table with sixteen slots, none of them used, refuses the twenty-first one. -/
theorem capTableSet_refuses : ∃ s : CapState Unit, CapReachable s ∧ s.table.Vacant 0x00010014 ∧
    wp (capTableSet 0x00010014 8 0 0) s fun ok _ => ok = false := by
  refine ⟨freshCaps 16, ⟨16, _, _, freshCaps_start (by decide), .start⟩, by decide, ?_⟩
  exact ⟨false, _, rfl, rfl⟩

/-! ## 2. A block that does not grow -/

/-- The ways a call stops when its accesses to the slots are watched. -/
inductive AddFault where
  | fault (f : Fault)
  /-- an access outside the slot array -/
  | outside (i : U16)
  deriving DecidableEq, Repr

/-- A table with its lock. `slotsNull` says that `slots` is `NULL`, as a `reallocate` that fails
    leaves it. -/
structure AddSys (ω : Type) where
  table : CapTable
  slotsNull : Bool
  locked : Bool
  heap : CapHeap ω

section Watched

variable {ω : Type}

/-- `self->slots[i]`, read. -/
def slotAt (i : U16) : Prog AddFault (AddSys ω) CapSlot := do
  let s ← get
  if s.slotsNull ∨ s.table.capacity.toNat ≤ i.toNat then throw (.outside i)
  else return s.table.slots i

/-- `self->slots[i]`, written. -/
def putSlot (i : U16) (slot : CapSlot) : Prog AddFault (AddSys ω) Unit := do
  let s ← get
  if s.slotsNull ∨ s.table.capacity.toNat ≤ i.toNat then throw (.outside i)
  else set { s with table := s.table.setSlot i slot }

/-- `assert` in a build with `NDEBUG` or without it. -/
def assertAdd (ndebug : Bool) (cond : Prop) [Decidable cond] (text : String) :
    Prog AddFault (AddSys ω) Unit :=
  if ndebug = true ∨ cond then pure () else throw (.fault (.assertion text))

/-- `cap_table__ensure_capacity`; `grows` is whether `reallocate` returns a block. -/
def ensureCapacityIn (grows : Bool) : Prog AddFault (AddSys ω) Unit := do
  let s ← get
  let t := s.table
  if t.nextUnused.toNat < t.capacity.toNat then return ()
  else if t.capacity = 0xFFFF then return ()
  else
    let oldCapacity := t.capacity
    let newCapacity := capTableNewCapacity oldCapacity
    set { s with table := { t with capacity := newCapacity }, slotsNull := !grows }
    forUp (newCapacity.toNat - oldCapacity.toNat) fun k =>
      putSlot (BitVec.ofNat 16 (oldCapacity.toNat + k)) .unused

def takeIn (ndebug grows : Bool) : Prog AddFault (AddSys ω) U16 := do
  let s ← get
  if s.table.freeHead ≠ CAP_INVALID_INDEX then
    let idx := s.table.freeHead
    let slot ← slotAt idx
    set { s with table := { s.table with freeHead := slot.nextFree } }
    return idx
  else
    ensureCapacityIn grows
    let s ← get
    assertAdd ndebug (s.table.nextUnused.toNat < s.table.capacity.toNat)
      "self->next_unused < self->capacity"
    let idx := s.table.nextUnused
    set { s with table := { s.table with nextUnused := s.table.nextUnused + 1 } }
    return idx

/-- `cap_table_add`, with the lock and every access to the slots. -/
def addIn (ndebug grows : Bool) (obj : Uptr) (rights : CapRights) (flags : U32) :
    Prog AddFault (AddSys ω) CapId := do
  assertAdd ndebug (obj ≠ 0) "obj != NULL"
  modify fun s => { s with locked := true }
  let idx ← takeIn ndebug grows
  let slot ← slotAt idx
  assertAdd ndebug (slot.obj = 0) "slot->obj == NULL"
  modify fun s => { s with heap := s.heap.incref obj }
  putSlot idx { slot with obj, rights, flags, nextFree := CAP_INVALID_INDEX }
  modify fun s => { s with locked := false }
  return capIdMake idx slot.gen

/-- The state of a table between two calls. -/
def CapState.atRest (s : CapState ω) : AddSys ω :=
  { table := s.table, slotsNull := false, locked := false, heap := s.heap }

/-- The object is bound to an id that was free, at an index below the capacity. -/
structure AddInstalls (s : CapState ω) (obj : Uptr) (rights : CapRights) (flags : U32) (id : CapId)
    (u : AddSys ω) : Prop where
  index : (capIdGetIndex id).toNat < u.table.capacity.toNat
  fresh : s.table.caps id = none
  caps : u.table.caps = Function.update s.table.caps id (some ⟨obj, rights, flags⟩)
  block : u.slotsNull = false
  lock : u.locked = false

/-- Failure is reported by the index that no slot has, and nothing has changed. -/
structure AddRefuses (s : CapState ω) (id : CapId) (u : AddSys ω) : Prop where
  index : capIdGetIndex id = CAP_INVALID_INDEX
  table : u.table = s.table
  block : u.slotsNull = false
  lock : u.locked = false

/-- The free list has a slot, or one has never been used, or the block can grow. -/
def CapTable.HasSlot (t : CapTable) (grows : Bool) : Prop :=
  t.freeHead ≠ CAP_INVALID_INDEX ∨ t.nextUnused.toNat < t.capacity.toNat ∨
    t.capacity.toNat < 0xFFFF ∧ grows = true

variable {s : AddSys ω} {i : U16} {ndebug grows : Bool} {free : List U16} {obj : Uptr}
  {rights : CapRights} {flags : U32}

theorem wp_slotAt (hb : s.slotsNull = false) (hi : i.toNat < s.table.capacity.toNat)
    (Q : CapSlot → AddSys ω → Prop) : wp (slotAt i) s Q ↔ Q (s.table.slots i) s := by
  unfold slotAt
  rw [wp_bind, wp_get, if_neg, wp_pure]
  rw [hb]
  exact fun h => h.elim (fun h => nomatch h) (Nat.not_le.mpr hi)

theorem wp_putSlot (hb : s.slotsNull = false) (hi : i.toNat < s.table.capacity.toNat)
    (slot : CapSlot) (Q : Unit → AddSys ω → Prop) :
    wp (putSlot i slot) s Q ↔ Q () { s with table := s.table.setSlot i slot } := by
  unfold putSlot
  rw [wp_bind, wp_get, if_neg, wp_set]
  rw [hb]
  exact fun h => h.elim (fun h => nomatch h) (Nat.not_le.mpr hi)

theorem not_wp_putSlot (h : s.slotsNull = true ∨ s.table.capacity.toNat ≤ i.toNat) (slot : CapSlot)
    (Q : Unit → AddSys ω → Prop) : ¬ wp (putSlot i slot) s Q := by
  unfold putSlot
  rw [wp_bind, wp_get, if_pos h, wp_throw]
  exact id

theorem not_wp_slotAt (h : s.slotsNull = true ∨ s.table.capacity.toNat ≤ i.toNat)
    (Q : CapSlot → AddSys ω → Prop) : ¬ wp (slotAt i) s Q := by
  unfold slotAt
  rw [wp_bind, wp_get, if_pos h, wp_throw]
  exact id

theorem wp_assertAdd {cond : Prop} [Decidable cond] (h : cond) (text : String)
    (Q : Unit → AddSys ω → Prop) : wp (assertAdd ndebug cond text) s Q ↔ Q () s := by
  unfold assertAdd
  rw [if_pos (Or.inr h), wp_pure]

/-- The loop over the new slots of a block that has grown. -/
theorem wp_putSlots (hb : s.slotsNull = false) {first n : Nat}
    (h : first + n = s.table.capacity.toNat) (hs : s.table.capacity.toNat ≤ 0xFFFF) :
    wp (forUp n fun k => putSlot (BitVec.ofNat 16 (first + k)) .unused) s fun _ u =>
      u = { s with table := s.table.prepared first n } := by
  refine wp_forUp (fun k u => u = { s with table := s.table.prepared first k })
    (by rw [prepared_zero]) fun k u hk hu => ?_
  subst hu
  have hof : (BitVec.ofNat 16 (first + k)).toNat = first + k := toNat_ofNat_index (by omega)
  refine (wp_putSlot ?_ ?_ _ _).mpr ?_
  · exact hb
  · show (BitVec.ofNat 16 (first + k)).toNat < s.table.capacity.toNat
    omega
  · show _ = { s with table := s.table.prepared first (k + 1) }
    rw [← prepared_succ (by omega)]

/-- **A block that can grow** grows as if no one watched. -/
theorem wp_ensureCapacityIn (hb : s.slotsNull = false)
    (hgrow : s.table.nextUnused.toNat < s.table.capacity.toNat ∨
      s.table.capacity.toNat < 0xFFFF ∧ grows = true) {Q : Unit → AddSys ω → Prop}
    (h : wp capTableEnsureCapacity s.table fun _ t => Q () { s with table := t }) :
    wp (ensureCapacityIn grows) s Q := by
  unfold capTableEnsureCapacity at h
  unfold ensureCapacityIn
  rw [wp_bind, wp_get] at h ⊢
  dsimp only at h ⊢
  split
  · rename_i hlt
    rw [if_pos hlt, wp_pure] at h
    exact (wp_pure _ _ _).mpr h
  · rename_i hfull
    obtain ⟨hlt, rfl⟩ := hgrow.resolve_left hfull
    have hmax : s.table.capacity ≠ 0xFFFF := by
      intro he
      rw [he] at hlt
      exact absurd hlt (by decide)
    have hnew := newCapacity_lt hlt
    rw [if_neg hfull, if_neg hmax, wp_bind, wp_set, wp_prepareSlots (by omega)] at h
    rw [if_neg hmax, wp_bind, wp_set]
    refine wp_mono (wp_putSlots rfl ?_ hnew.2) fun _ u hu => ?_
    · show s.table.capacity.toNat + _ = (capTableNewCapacity s.table.capacity).toNat
      omega
    · subst hu
      have hnull : s = { s with slotsNull := false } := by
        rw [← hb]
      rw [hnull] at h
      exact h

/-- **A block that cannot grow** is left by the first access behind it. -/
theorem not_wp_ensureCapacityIn (hfull : s.table.capacity.toNat ≤ s.table.nextUnused.toNat)
    (hlt : s.table.capacity.toNat < 0xFFFF) (Q : Unit → AddSys ω → Prop) :
    ¬ wp (ensureCapacityIn false) s Q := by
  have hmax : s.table.capacity ≠ 0xFFFF := by
    intro he
    rw [he] at hlt
    exact absurd hlt (by decide)
  have hnew := newCapacity_lt hlt
  have hloop : ∀ (n : Nat) (t : AddSys ω) (R : Unit → AddSys ω → Prop), t.slotsNull = true →
      ¬ wp (forUp (n + 1) fun k =>
        putSlot (BitVec.ofNat 16 (s.table.capacity.toNat + k)) .unused) t R := by
    intro n
    induction n with
    | zero =>
        intro t R ht
        rw [forUp, wp_bind, forUp, wp_pure]
        exact not_wp_putSlot (Or.inl ht) _ _
    | succ n ih =>
        intro t R ht
        rw [forUp, wp_bind]
        exact ih t _ ht
  unfold ensureCapacityIn
  rw [wp_bind, wp_get]
  dsimp only
  rw [if_neg (Nat.not_lt.mpr hfull), if_neg hmax, wp_bind, wp_set]
  obtain ⟨n, hn⟩ : ∃ n, (capTableNewCapacity s.table.capacity).toNat - s.table.capacity.toNat
      = n + 1 := ⟨_, (Nat.succ_pred_eq_of_pos (by omega)).symm⟩
  rw [hn]
  exact hloop n _ _ rfl

theorem wp_takeIn (hi : SlotsInv s.table none free) (hb : s.slotsNull = false)
    (hslot : s.table.HasSlot grows) {Q : U16 → AddSys ω → Prop}
    (h : wp capTableTake s.table fun idx t => Q idx { s with table := t }) :
    wp (takeIn ndebug grows) s Q := by
  unfold capTableTake at h
  unfold takeIn
  rw [wp_bind, wp_get] at h ⊢
  split
  · rename_i hh
    rw [if_pos hh] at h
    have hmem := (hi.mem s.table.freeHead).mp (by
      obtain ⟨rest, hfree, _⟩ := chain_start hi.chain hh
      rw [hfree]
      exact List.mem_cons_self)
    dsimp only at h ⊢
    rw [wp_bind, wp_set, wp_pure] at h
    rw [wp_bind, wp_slotAt hb (Nat.lt_of_lt_of_le hmem.1 hi.used), wp_bind, wp_set, wp_pure]
    exact h
  · rename_i hh
    rw [if_neg hh, wp_bind] at h
    rw [wp_bind]
    refine wp_ensureCapacityIn hb (hslot.resolve_left hh) (wp_mono h fun _ t ht => ?_)
    rw [wp_bind, wp_get, wp_bind, wp_assert] at ht
    obtain ⟨hlt, ht⟩ := ht
    rw [wp_bind, wp_get, wp_bind, wp_assertAdd hlt]
    rw [wp_bind, wp_set, wp_pure] at ht ⊢
    exact ht

/-- Without a slot the call stops, whichever build it is. -/
theorem not_wp_takeIn (hi : SlotsInv s.table none free) (hslot : ¬ s.table.HasSlot grows)
    {Q : U16 → AddSys ω → Prop}
    (hQ : ∀ idx u, u.table.capacity.toNat ≤ idx.toNat → ¬ Q idx u) :
    ¬ wp (takeIn ndebug grows) s Q := by
  unfold CapTable.HasSlot at hslot
  have hh : s.table.freeHead = CAP_INVALID_INDEX :=
    Classical.not_not.mp fun h => hslot (Or.inl h)
  have hfull : ¬ s.table.nextUnused.toNat < s.table.capacity.toNat :=
    fun h => hslot (Or.inr (Or.inl h))
  unfold takeIn
  rw [wp_bind, wp_get, if_neg fun h => h hh, wp_bind]
  by_cases hlt : s.table.capacity.toNat < 0xFFFF
  · have hgrows : grows = false := by
      cases grows with
      | false => rfl
      | true => exact absurd (Or.inr (Or.inr ⟨hlt, rfl⟩)) hslot
    rw [hgrows]
    exact not_wp_ensureCapacityIn (Nat.not_lt.mp hfull) hlt _
  · have hmax : s.table.capacity = 0xFFFF := by
      refine BitVec.eq_of_toNat_eq ?_
      have hsmall := hi.small
      show _ = 0xFFFF
      omega
    unfold ensureCapacityIn
    rw [wp_bind, wp_get]
    dsimp only
    rw [if_neg hfull, if_pos hmax, wp_pure, wp_bind, wp_get, wp_bind]
    unfold assertAdd
    split
    · rw [wp_pure, wp_bind, wp_set, wp_pure]
      exact hQ _ _ (Nat.not_lt.mp hfull)
    · rw [wp_throw]
      exact fun h => h

end Watched

/-- **What `cap_table_add` does for its contract**: it installs the object while there is a slot or
    room for one; otherwise it leaves the slot array or fails its assertion, in both builds. -/
theorem capTableAdd_exact {ω : Type} {s : CapState ω} (h : CapReachable s) (ndebug grows : Bool)
    {obj : Uptr} (ho : obj ≠ 0) (rights : CapRights) (flags : U32) :
    wp (addIn ndebug grows obj rights flags) s.atRest (fun id u =>
      AddInstalls s obj rights flags id u ∨ AddRefuses s id u) ↔ s.table.HasSlot grows := by
  obtain ⟨free, hi⟩ := capReachable_inv h
  constructor
  · intro hw
    refine Classical.byContradiction fun hslot => ?_
    unfold addIn at hw
    rw [wp_bind, wp_assertAdd ho, wp_bind, wp_modify, wp_bind] at hw
    refine not_wp_takeIn (s := { s.atRest with locked := true }) hi hslot
      (fun idx u hle hq => ?_) hw
    rw [wp_bind] at hq
    exact not_wp_slotAt (Or.inr hle) _ hq
  · intro hslot
    have hroom : s.table.Room := by
      have hused := hi.used
      have hsmall := hi.small
      rcases hslot with hh | hlt | ⟨hlt, _⟩
      · exact Or.inl hh
      · exact Or.inr (by omega)
      · exact Or.inr (by omega)
    unfold addIn
    rw [wp_bind, wp_assertAdd ho, wp_bind, wp_modify, wp_bind]
    refine wp_takeIn (s := { s.atRest with locked := true }) hi rfl hslot ?_
    refine wp_mono (wp_capTableTake hi hroom) fun idx t ht => ?_
    obtain ⟨⟨free', hit⟩, hk, _⟩ := ht
    have hcaps : t.caps = s.table.caps := caps_kept hk
    have hheld := hit.held idx rfl
    have hc := Nat.lt_of_lt_of_le hheld.1 hit.used
    rw [wp_bind, wp_slotAt rfl hc, wp_bind, wp_assertAdd hheld.2, wp_bind, wp_modify, wp_bind,
      wp_putSlot rfl hc, wp_bind, wp_modify, wp_pure]
    refine Or.inl ⟨?_, ?_, ?_, rfl, rfl⟩
    · rw [capIdGetIndex_make]
      exact hc
    · rw [← hcaps]
      exact caps_empty hheld.2
    · rw [← hcaps]
      exact caps_fill hc ho rights flags

/-- The first slot of a block of one. -/
theorem capTableAdd_exact_one : wp (addIn false true 8 0 0) (freshCaps 1).atRest fun id u =>
    AddInstalls (freshCaps 1) 8 0 0 id u ∨ AddRefuses (freshCaps 1) id u :=
  (capTableAdd_exact ⟨1, _, _, freshCaps_start (by decide), .start⟩ false true (by decide) 0 0).mpr
    (Or.inr (Or.inl (by decide)))

/-- A block of one slot is full, and the allocator refuses to grow it: the `NULL` that
    `reallocate` returned is written to. -/
theorem capTableAdd_leaves : ∃ s : CapState Unit, CapReachable s ∧
    Stops (addIn false false 8 0 0) s.atRest (.outside 1) ∧
    Stops (addIn true false 8 0 0) s.atRest (.outside 1) := by
  have hadd : ∃ s, capCall (.add 8 0 0) (freshCaps 1) = .ok (.id 0x00010000, s) ∧
      Stops (addIn false false 8 0 0) s.atRest (.outside 1) ∧
      Stops (addIn true false 8 0 0) s.atRest (.outside 1) := ⟨_, rfl, rfl, rfl⟩
  obtain ⟨s, hs, hstop⟩ := hadd
  exact ⟨s, ⟨1, _, _, freshCaps_start (by decide), .call .start hs⟩, hstop⟩

end Slightx
