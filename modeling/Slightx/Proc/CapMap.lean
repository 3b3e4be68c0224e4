/-
  File:      Slightx/Proc/CapMap.lean
  Subject:   A capability table is a map from ids to capabilities.

  What a table is for: an id is bound to an object with rights and flags, or it is not. The calls
  of the table are calls of that map (`MapStep`), whatever the slots, the free list and the
  growing of the block do underneath:

  * `CallEffect` -- everything a call can do to a table in order, with the slot it takes;
  * `wp_capCall`, `capCall_inv` -- a call of a table in order does one of these things and leaves
    the table in order;
  * **`capTable_refines`** -- so in every run the calls are those of the map;
  * **`freeList_exact`** -- and in every state of it the free list has the vacated slots, each
    once, and nothing else
-/
import Slightx.Proc.CapTable

namespace Slightx

open Lib

/-! ## 1. The map -/

structure Cap where
  obj : Uptr
  rights : CapRights
  flags : U32
  deriving DecidableEq, Repr

abbrev CapMap := CapId → Option Cap

/-- The capabilities of a table: the live slots, each under the id of its generation. -/
def CapTable.caps (t : CapTable) : CapMap := fun id =>
  let slot := t.slots (capIdGetIndex id)
  if (capIdGetIndex id).toNat < t.capacity.toNat ∧ slot.obj ≠ 0 ∧ slot.gen = capIdGetGen id then
    some ⟨slot.obj, slot.rights, slot.flags⟩
  else none

section Caps

variable {t t' : CapTable} {id : CapId} {idx : U16} {c : Cap}

theorem caps_some (hc : (capIdGetIndex id).toNat < t.capacity.toNat)
    (ho : (t.slots (capIdGetIndex id)).obj ≠ 0)
    (hg : (t.slots (capIdGetIndex id)).gen = capIdGetGen id) :
    t.caps id = some ⟨(t.slots (capIdGetIndex id)).obj, (t.slots (capIdGetIndex id)).rights,
      (t.slots (capIdGetIndex id)).flags⟩ :=
  if_pos ⟨hc, ho, hg⟩

theorem caps_none (h : ¬ ((capIdGetIndex id).toNat < t.capacity.toNat ∧
    (t.slots (capIdGetIndex id)).obj ≠ 0 ∧ (t.slots (capIdGetIndex id)).gen = capIdGetGen id)) :
    t.caps id = none :=
  if_neg h

/-- A bound id names a live slot by its generation. -/
theorem live_of_caps (h : t.caps id = some c) :
    (capIdGetIndex id).toNat < t.capacity.toNat ∧ (t.slots (capIdGetIndex id)).obj ≠ 0 ∧
      (t.slots (capIdGetIndex id)).gen = capIdGetGen id ∧
      c = ⟨(t.slots (capIdGetIndex id)).obj, (t.slots (capIdGetIndex id)).rights,
        (t.slots (capIdGetIndex id)).flags⟩ := by
  by_cases hb : (capIdGetIndex id).toNat < t.capacity.toNat ∧
      (t.slots (capIdGetIndex id)).obj ≠ 0 ∧ (t.slots (capIdGetIndex id)).gen = capIdGetGen id
  · rw [caps_some hb.1 hb.2.1 hb.2.2] at h
    cases h
    exact ⟨hb.1, hb.2.1, hb.2.2, rfl⟩
  · rw [caps_none hb] at h
    cases h

theorem caps_kept (h : SlotsKept t t') : t'.caps = t.caps := by
  funext id
  rcases Nat.lt_or_ge (capIdGetIndex id).toNat t.capacity.toNat with hlt | hge
  · obtain ⟨ho, hr, hf, hg⟩ := h.same _ hlt
    have hlt' := Nat.lt_of_lt_of_le hlt h.grow
    unfold CapTable.caps
    simp only [ho, hr, hf, hg, hlt, hlt', true_and]
  · rw [caps_none (t := t) fun hb => absurd hb.1 (Nat.not_lt.mpr hge)]
    refine caps_none fun hb => ?_
    exact hb.2.1 (h.new _ hge hb.1).1

/-- The id of an empty slot is unbound. -/
theorem caps_empty (ho : (t.slots idx).obj = 0) : t.caps (capIdMake idx (t.slots idx).gen) = none := by
  refine caps_none fun hb => hb.2.1 ?_
  rw [capIdGetIndex_make]
  exact ho

/-- A filled slot binds the id of its generation. -/
theorem caps_fill {obj : Uptr} (hc : idx.toNat < t.capacity.toNat) (ho : obj ≠ 0) (rights : CapRights) (flags : U32) :
    (t.fill idx obj rights flags).caps =
      Function.update t.caps (capIdMake idx (t.slots idx).gen) (some ⟨obj, rights, flags⟩) := by
  funext id
  by_cases hid : id = capIdMake idx (t.slots idx).gen
  · subst hid
    rw [Function.update_self]
    unfold CapTable.caps CapTable.fill
    rw [capIdGetIndex_make, capIdGetGen_make, setSlot_same]
    exact if_pos ⟨hc, ho, rfl⟩
  · rw [Function.update_of_ne hid]
    unfold CapTable.caps CapTable.fill
    by_cases hi : capIdGetIndex id = idx
    · have hg : (t.slots idx).gen ≠ capIdGetGen id := by
        intro hg
        rw [hg, ← hi, capIdMake_get] at hid
        exact hid rfl
      rw [hi, setSlot_same]
      dsimp only
      rw [if_neg fun hb => hg hb.2.2, if_neg fun hb => hg hb.2.2]
    · rw [setSlot_ne _ _ hi]
      rfl

/-- A vacated slot unbinds the id it had. -/
theorem caps_vacate (idx : U16) :
    (t.vacate idx).caps = Function.update t.caps (capIdMake idx (t.slots idx).gen) none := by
  funext id
  by_cases hi : capIdGetIndex id = idx
  · rw [caps_none (t := t.vacate idx) fun hb => hb.2.1 (by rw [hi, vacate_same])]
    by_cases hid : id = capIdMake idx (t.slots idx).gen
    · rw [hid, Function.update_self]
    · rw [Function.update_of_ne hid]
      refine (caps_none fun hb => hid ?_).symm
      rw [← capIdMake_get id, ← hb.2.2, hi]
  · have hid : id ≠ capIdMake idx (t.slots idx).gen := by
      rintro rfl
      exact hi (capIdGetIndex_make _ _)
    rw [Function.update_of_ne hid]
    unfold CapTable.caps
    rw [vacate_ne _ hi]
    rfl

end Caps

/-! ## 2. Calls -/

inductive CapCall where
  | add (obj : Uptr) (rights : CapRights) (flags : U32)
  | set (hint : CapId) (obj : Uptr) (rights : CapRights) (flags : U32)
  | get (id : CapId) (requiredRights : CapRights)
  | del (id : CapId)
  deriving DecidableEq, Repr

inductive CapRet where
  | id (id : CapId)
  | ok (ok : Bool)
  /-- `none` for `NULL` -/
  | obj (obj : Option Uptr)
  /-- `cap_table_del` returns nothing; this is whether it found the id bound -/
  | released (was : Bool)
  deriving DecidableEq, Repr

def capCall {ω : Type} : CapCall → Prog Fault (CapState ω) CapRet
  | .add obj rights flags => do return .id (← capTableAdd obj rights flags)
  | .set hint obj rights flags => do return .ok (← capTableSet hint obj rights flags)
  | .get id requiredRights => do
      let obj ← capTableGet id requiredRights
      return .obj (if obj = 0 then none else some obj)
  | .del id => do
      let was := ((← get).table.caps id).isSome
      capTableDel id
      return .released was

/-- What the asserts of a call ask for. -/
def CapCall.Proper : CapCall → Prop
  | .add obj _ _ => obj ≠ 0
  | .set _ obj _ _ => obj ≠ 0
  | .get _ _ => True
  | .del _ => True

/-- The map does the same call. -/
inductive MapStep (m : CapMap) : CapCall → CapRet → CapMap → Prop where
  | add {obj : Uptr} {rights : CapRights} {flags : U32} {id : CapId} (h : m id = none) :
      MapStep m (.add obj rights flags) (.id id) (Function.update m id (some ⟨obj, rights, flags⟩))
  | set {hint : CapId} {obj : Uptr} {rights : CapRights} {flags : U32} (h : m hint = none) :
      MapStep m (.set hint obj rights flags) (.ok true)
        (Function.update m hint (some ⟨obj, rights, flags⟩))
  | refuse {hint : CapId} {obj : Uptr} {rights : CapRights} {flags : U32} :
      MapStep m (.set hint obj rights flags) (.ok false) m
  | get {id : CapId} {rights : CapRights} :
      MapStep m (.get id rights)
        (.obj ((m id).bind fun c => if c.rights &&& rights = rights then some c.obj else none)) m
  | del {id : CapId} :
      MapStep m (.del id) (.released (m id).isSome) (Function.update m id none)

inductive MapRun : List (CapCall × CapRet) → CapMap → Prop where
  | start : MapRun [] fun _ => none
  | call {tr : List (CapCall × CapRet)} {m m' : CapMap} {c : CapCall} {r : CapRet}
      (h : MapRun tr m) (hc : MapStep m c r m') : MapRun (tr ++ [(c, r)]) m'

/-! ## 3. What a call does -/

/-- **Everything a call can do** to the slots and to the heap, for a table in order. -/
inductive CallEffect {ω : Type} (s : CapState ω) : CapCall → CapRet → CapState ω → Prop where
  | add {obj : Uptr} {rights : CapRights} {flags : U32} {u : CapTable} {idx : U16} (ho : obj ≠ 0)
      (hk : SlotsKept s.table u) (hc : idx.toNat < u.capacity.toNat) (he : (u.slots idx).obj = 0)
      (hf : u.capacity ≠ s.table.capacity → s.table.Full) :
      CallEffect s (.add obj rights flags) (.id (capIdMake idx (u.slots idx).gen))
        { table := u.fill idx obj rights flags, heap := s.heap.incref obj }
  | set {hint : CapId} {obj : Uptr} {rights : CapRights} {flags : U32} {u : CapTable} {idx : U16}
      (ho : obj ≠ 0) (hk : SlotsKept s.table u) (hc : idx.toNat < u.capacity.toNat)
      (he : (u.slots idx).obj = 0) (hid : hint = capIdMake idx (u.slots idx).gen) :
      CallEffect s (.set hint obj rights flags) (.ok true)
        { table := u.fill idx obj rights flags, heap := s.heap.incref obj }
  | refuse {hint : CapId} {obj : Uptr} {rights : CapRights} {flags : U32} {u : CapTable}
      (hk : SlotsKept s.table u) :
      CallEffect s (.set hint obj rights flags) (.ok false) { s with table := u }
  | get {id : CapId} {rights : CapRights} {c : Cap} (hb : s.table.caps id = some c)
      (hr : c.rights &&& rights = rights) :
      CallEffect s (.get id rights) (.obj (some c.obj)) { s with heap := s.heap.incref c.obj }
  | miss {id : CapId} {rights : CapRights}
      (hb : ∀ c, s.table.caps id = some c → c.rights &&& rights ≠ rights) :
      CallEffect s (.get id rights) (.obj none) s
  | del {id : CapId} {c : Cap} (hb : s.table.caps id = some c) :
      CallEffect s (.del id) (.released true)
        { table := s.table.vacate (capIdGetIndex id), heap := s.heap.decref c.obj }
  | noop {id : CapId} (hb : s.table.caps id = none) : CallEffect s (.del id) (.released false) s

section Effects

variable {ω : Type} {s s' : CapState ω} {free : List U16} {obj : Uptr} {rights : CapRights}
  {flags : U32} {id : CapId} {c : CapCall} {r : CapRet}

/-- The table after a call is in order. -/
def CapTable.InOrder (t : CapTable) : Prop := ∃ free, SlotsInv t none free

theorem wp_capTableAdd (hi : SlotsInv s.table none free) (hr : s.table.Room) (ho : obj ≠ 0) :
    wp (capTableAdd obj rights flags) s (fun id s' =>
      CallEffect s (.add obj rights flags) (.id id) s' ∧ s'.table.InOrder) := by
  unfold capTableAdd
  rw [wp_bind, wp_assert]
  refine ⟨ho, ?_⟩
  rw [wp_bind, wp_onTable]
  refine wp_mono (wp_capTableTake hi hr) fun idx u hu => ?_
  obtain ⟨⟨free', hiu⟩, hk, hf⟩ := hu
  have hheld := hiu.held idx rfl
  rw [wp_bind, wp_get, wp_bind, wp_assert]
  refine ⟨hheld.2, ?_⟩
  rw [wp_bind, wp_onHeap, wp_capObjIncref]
  refine ⟨ho, ?_⟩
  rw [wp_bind, wp_onTable, wp_modify, wp_pure]
  exact ⟨.add ho hk (Nat.lt_of_lt_of_le hheld.1 hiu.used) hheld.2 hf, free',
    slotsInv_fill hiu ho rights flags⟩

theorem wp_capTableSet (hi : SlotsInv s.table none free) (ho : obj ≠ 0) :
    wp (capTableSet id obj rights flags) s (fun ok s' =>
      CallEffect s (.set id obj rights flags) (.ok ok) s' ∧ s'.table.InOrder) := by
  unfold capTableSet
  rw [wp_bind, wp_assert]
  refine ⟨ho, ?_⟩
  dsimp only
  split
  · rw [wp_pure]
    exact ⟨.refuse slotsKept_refl, free, hi⟩
  · rw [wp_bind, wp_onTable]
    refine wp_mono (wp_growTo (capIdGetIndex id) hi (by omega)) fun ok u hu => ?_
    obtain ⟨hg, hok⟩ := hu
    have hiu := slotsInv_grown hi hg
    have hk := slotsKept_grown hg
    split
    · rw [wp_pure]
      exact ⟨.refuse hk, free, hiu⟩
    · rename_i htrue
      have hc := hok.mp (Classical.not_not.mp htrue)
      rw [wp_bind, wp_get]
      dsimp only
      split
      · rw [wp_pure]
        exact ⟨.refuse hk, free, hiu⟩
      · rename_i hlive
        have hlive : (u.slots (capIdGetIndex id)).obj = 0 ∧
            (u.slots (capIdGetIndex id)).gen = capIdGetGen id :=
          ⟨Classical.not_not.mp fun h => hlive (Or.inl h),
            Classical.not_not.mp fun h => hlive (Or.inr h)⟩
        rw [wp_bind, wp_onTable]
        refine wp_mono (wp_capTableClaim hiu hc hlive.1) fun ok' v hv => ?_
        obtain ⟨rfl, ⟨free', hiv⟩, hkv, hcap⟩ := hv
        rw [if_neg (by simp), wp_bind, wp_onHeap, wp_capObjIncref]
        refine ⟨ho, ?_⟩
        rw [wp_bind, wp_onTable, wp_modify, wp_pure]
        have hsame := hkv.same _ hc
        refine ⟨.set ho (slotsKept_trans hk hkv) (hcap ▸ hc) (hsame.1.trans hlive.1) ?_, free',
          slotsInv_fill hiv ho rights flags⟩
        rw [hsame.2.2.2, hlive.2, capIdMake_get]

theorem wp_capTableGet (s : CapState ω) (id : CapId) (rights : CapRights)
    (Q : Uptr → CapState ω → Prop) :
    wp (capTableGet id rights) s Q ↔
      match s.table.caps id with
      | some c => if c.rights &&& rights = rights then Q c.obj { s with heap := s.heap.incref c.obj }
          else Q 0 s
      | none => Q 0 s := by
  unfold capTableGet
  rw [wp_bind, wp_get]
  dsimp only
  split
  · rename_i hge
    rw [caps_none fun hb => absurd hb.1 (Nat.not_lt.mpr hge), wp_pure]
  · rename_i hlt
    split
    · rename_i h0
      rw [caps_none fun hb => hb.2.1 h0, wp_pure]
    · rename_i h0
      split
      · rename_i hg
        rw [caps_none fun hb => hg hb.2.2, wp_pure]
      · rename_i hg
        rw [caps_some (Nat.not_le.mp hlt) h0 (Classical.not_not.mp hg)]
        dsimp only
        by_cases hr : (s.table.slots (capIdGetIndex id)).rights &&& rights = rights
        · rw [if_neg fun h => h hr, if_pos hr, wp_onHeap, wp_capObjIncref]
          exact ⟨fun h => h.2, fun h => ⟨h0, h⟩⟩
        · rw [if_pos hr, if_neg hr, wp_pure]

theorem wp_capTableDelLocked (t : CapTable) (id : CapId) (Q : Option Uptr → CapTable → Prop) :
    wp (capTableDelLocked id) t Q ↔
      match t.caps id with
      | some c => Q (some c.obj) (t.vacate (capIdGetIndex id))
      | none => Q none t := by
  unfold capTableDelLocked
  rw [wp_bind, wp_get]
  dsimp only
  split
  · rename_i hge
    rw [caps_none fun hb => absurd hb.1 (Nat.not_lt.mpr hge), wp_pure]
  · rename_i hlt
    split
    · rename_i hor
      rw [caps_none fun hb => hor.elim hb.2.1 fun hg => hg hb.2.2, wp_pure]
    · rename_i hor
      rw [caps_some (Nat.not_le.mp hlt) (fun h => hor (Or.inl h))
        (Classical.not_not.mp fun h => hor (Or.inr h)), wp_bind, wp_set, wp_pure]

theorem wp_capTableDel (s : CapState ω) (id : CapId) (Q : Unit → CapState ω → Prop) :
    wp (capTableDel id) s Q ↔
      match s.table.caps id with
      | some c => Q () { table := s.table.vacate (capIdGetIndex id), heap := s.heap.decref c.obj }
      | none => Q () s := by
  unfold capTableDel
  rw [wp_bind, wp_onTable, wp_capTableDelLocked]
  cases hb : s.table.caps id with
  | none => exact wp_pure _ _ _
  | some c =>
      have ho : c.obj ≠ 0 := by
        obtain ⟨_, ho, _, rfl⟩ := live_of_caps hb
        exact ho
      dsimp only
      rw [wp_onHeap, wp_capObjDecref]
      exact ⟨fun h => h.2, fun h => ⟨ho, h⟩⟩

/-- **A call of a table in order** returns, and does what `CallEffect` says. -/
theorem wp_capCall (hi : SlotsInv s.table none free) (hp : c.Proper)
    (hr : ∀ obj rights flags, c = .add obj rights flags → s.table.Room) :
    wp (capCall c) s (fun r s' => CallEffect s c r s' ∧ s'.table.InOrder) := by
  cases c with
  | add obj rights flags =>
      refine (wp_bind _ _ _ _).mpr ?_
      refine wp_mono (wp_capTableAdd hi (hr _ _ _ rfl) hp) fun id u hu => ?_
      exact (wp_pure _ _ _).mpr hu
  | set hint obj rights flags =>
      refine (wp_bind _ _ _ _).mpr ?_
      refine wp_mono (wp_capTableSet hi hp) fun ok u hu => ?_
      exact (wp_pure _ _ _).mpr hu
  | get id rights =>
      refine (wp_bind _ _ _ _).mpr ((wp_capTableGet _ _ _ _).mpr ?_)
      cases hb : s.table.caps id with
      | none =>
          refine (wp_pure _ _ _).mpr ⟨.miss fun c hc => ?_, free, hi⟩
          rw [hb] at hc
          cases hc
      | some c =>
          have ho : c.obj ≠ 0 := by
            obtain ⟨_, ho, _, rfl⟩ := live_of_caps hb
            exact ho
          dsimp only
          by_cases hr : c.rights &&& rights = rights
          · rw [if_pos hr, wp_pure, if_neg ho]
            exact ⟨.get hb hr, free, hi⟩
          · rw [if_neg hr]
            refine (wp_pure _ _ _).mpr ⟨.miss fun c' hc => ?_, free, hi⟩
            rw [hb] at hc
            cases hc
            exact hr
  | del id =>
      refine (wp_bind _ _ _ _).mpr ((wp_get _ _).mpr ?_)
      refine (wp_bind _ _ _ _).mpr ((wp_capTableDel _ _ _).mpr ?_)
      cases hb : s.table.caps id with
      | none => exact (wp_pure _ _ _).mpr ⟨.noop hb, free, hi⟩
      | some c =>
          have hl := live_of_caps hb
          exact (wp_pure _ _ _).mpr ⟨.del hb, _, slotsInv_vacate hi hl.1 hl.2.1⟩

/-- A call that returns was proper, and an `add` had room. -/
theorem proper_of_returns (hi : SlotsInv s.table none free) (h : capCall c s = .ok (r, s')) :
    c.Proper ∧ ∀ obj rights flags, c = .add obj rights flags → s.table.Room := by
  have hw : wp (capCall c) s fun _ _ => True := ⟨r, s', h, trivial⟩
  cases c with
  | add obj rights flags =>
      have hw := (wp_bind _ _ _ _).mp hw
      unfold capTableAdd at hw
      rw [wp_bind, wp_assert] at hw
      refine ⟨hw.1, fun _ _ _ _ => Classical.byContradiction fun hr => ?_⟩
      have htake := hw.2
      rw [wp_bind, wp_onTable] at htake
      exact not_wp_capTableTake hi hr _ htake
  | set hint obj rights flags =>
      have hw := (wp_bind _ _ _ _).mp hw
      unfold capTableSet at hw
      rw [wp_bind, wp_assert] at hw
      exact ⟨hw.1, fun _ _ _ he => by cases he⟩
  | get id rights => exact ⟨trivial, fun _ _ _ he => by cases he⟩
  | del id => exact ⟨trivial, fun _ _ _ he => by cases he⟩

theorem capCall_inv (hi : s.table.InOrder) (h : capCall c s = .ok (r, s')) :
    CallEffect s c r s' ∧ s'.table.InOrder := by
  obtain ⟨free, hi⟩ := hi
  obtain ⟨hp, hr⟩ := proper_of_returns hi h
  exact (wp_of_eq h).mp (wp_capCall hi hp hr)

/-- **One call is one call of the map.** -/
theorem mapStep_of_effect (h : CallEffect s c r s') : MapStep s.table.caps c r s'.table.caps := by
  cases h with
  | add ho hk hc he _ =>
      dsimp only
      rw [caps_fill hc ho, caps_kept hk]
      exact .add (caps_kept hk ▸ caps_empty he)
  | set ho hk hc he hid =>
      dsimp only
      rw [caps_fill hc ho, caps_kept hk, ← hid]
      exact .set (caps_kept hk ▸ hid ▸ caps_empty he)
  | refuse hk =>
      dsimp only
      rw [caps_kept hk]
      exact .refuse
  | @get id rights c hb hr =>
      have hstep := @MapStep.get s.table.caps id rights
      rw [hb, Option.bind_some, if_pos hr] at hstep
      exact hstep
  | @miss id rights hb =>
      have hstep := @MapStep.get s.table.caps id rights
      cases hc : s.table.caps id with
      | none =>
          rw [hc] at hstep
          exact hstep
      | some c =>
          rw [hc, Option.bind_some, if_neg (hb c hc)] at hstep
          exact hstep
  | @del id c hb =>
      have hl := live_of_caps hb
      have hstep := @MapStep.del s.table.caps id
      rw [hb] at hstep
      dsimp only
      rw [caps_vacate, hl.2.2.1, capIdMake_get]
      exact hstep
  | @noop id hb =>
      have hstep := @MapStep.del s.table.caps id
      rw [hb, Function.update_eq_self_iff.mpr hb.symm] at hstep
      exact hstep

end Effects

/-! ## 4. Runs -/

section Runs

variable {ω : Type}

/-- A table that `cap_table_init` has just set up. -/
def CapStart (initialCapacity : Usize) (s : CapState ω) : Prop :=
  ∃ t, capTableInit initialCapacity t = .ok ((), s.table)

/-- The calls of a run and what they returned. Between two of them anything may happen to the
    heap, which other tables share. -/
inductive CapSteps (s : CapState ω) : List (CapCall × CapRet) → CapState ω → Prop where
  | start : CapSteps s [] s
  | call {tr : List (CapCall × CapRet)} {t u : CapState ω} {c : CapCall} {r : CapRet}
      (h : CapSteps s tr t) (hc : capCall c t = .ok (r, u)) : CapSteps s (tr ++ [(c, r)]) u
  | others {tr : List (CapCall × CapRet)} {t : CapState ω} (h : CapSteps s tr t)
      (heap : CapHeap ω) : CapSteps s tr { t with heap }

/-- A state of a run from the start. -/
def CapReachable (s : CapState ω) : Prop :=
  ∃ initialCapacity s₀ tr, CapStart initialCapacity s₀ ∧ CapSteps s₀ tr s

variable {s t u : CapState ω} {tr : List (CapCall × CapRet)} {initialCapacity : Usize}

theorem capStart_inv (h : CapStart initialCapacity s) :
    s.table.InOrder ∧ s.table.caps = fun _ => none := by
  obtain ⟨t, h⟩ := h
  have hle : initialCapacity.toNat ≤ 0xFFFF := by
    have hw : wp (capTableInit initialCapacity) t fun _ _ => True := ⟨_, _, h, trivial⟩
    unfold capTableInit at hw
    rw [wp_bind, wp_assert] at hw
    exact hw.1
  obtain ⟨hi, hc, _, ho⟩ := (wp_of_eq h).mp (wp_capTableInit hle t)
  refine ⟨⟨[], hi⟩, funext fun id => caps_none fun hb => hb.2.1 (ho _ ?_)⟩
  rw [← hc]
  exact hb.1

theorem capStart_empty (h : CapStart initialCapacity s) (i : U16)
    (hi : i.toNat < s.table.capacity.toNat) : (s.table.slots i).obj = 0 := by
  have hcaps := (capStart_inv h).2
  refine Classical.byContradiction fun ho => ?_
  have hb := @caps_some s.table (capIdMake i (s.table.slots i).gen)
  rw [capIdGetIndex_make, capIdGetGen_make, hcaps] at hb
  cases hb hi ho rfl

/-- **The tables of a run are in order.** -/
theorem capSteps_inv (hs : s.table.InOrder) (h : CapSteps s tr u) : u.table.InOrder := by
  induction h with
  | start => exact hs
  | call _ hc ih => exact (capCall_inv ih hc).2
  | others _ _ ih => exact ih

theorem capReachable_inv (h : CapReachable s) : s.table.InOrder := by
  obtain ⟨_, s₀, tr, h₀, h⟩ := h
  exact capSteps_inv (capStart_inv h₀).1 h

theorem mapRun_of_steps (h₀ : CapStart initialCapacity s) (h : CapSteps s tr u) :
    MapRun tr u.table.caps := by
  induction h with
  | start =>
      rw [(capStart_inv h₀).2]
      exact .start
  | call h hc ih =>
      have hi := capSteps_inv (capStart_inv h₀).1 h
      exact .call ih (mapStep_of_effect (capCall_inv hi hc).1)
  | others _ _ ih => exact ih

/-- How many slots are live. -/
def CapTable.live (t : CapTable) : Nat :=
  (List.range t.capacity.toNat).countP fun i => (t.slots (BitVec.ofNat 16 i)).obj ≠ 0

/-- With a slot to spare an `add` finds room. -/
theorem room_of_live {t : CapTable} (hi : t.InOrder) (h : t.live < 0xFFFF) : t.Room := by
  obtain ⟨free, hi⟩ := hi
  refine Classical.byContradiction fun hr => ?_
  unfold CapTable.Room at hr
  have hh : t.freeHead = CAP_INVALID_INDEX := Classical.not_not.mp fun h => hr (Or.inl h)
  have hn : ¬ t.nextUnused.toNat < 0xFFFF := fun h => hr (Or.inr h)
  have hcap : t.capacity.toNat = 0xFFFF := by
    have hsmall := hi.small
    have hused := hi.used
    omega
  have hall : t.live = 0xFFFF := by
    unfold CapTable.live
    rw [hcap, List.countP_eq_length.mpr, List.length_range]
    intro i hm
    have hlt := List.mem_range.mp hm
    have hof : (BitVec.ofNat 16 i).toNat = i := toNat_ofNat_index (by omega)
    refine decide_eq_true (live_of_no_free hi hh ?_)
    rw [hof]
    omega
  omega

/-- What the callers of the table promise: an object, and for an `add` less than 0xFFFF live
    slots. -/
def CapCall.Asked (c : CapCall) (t : CapTable) : Prop :=
  c.Proper ∧ ∀ obj rights flags, c = .add obj rights flags → t.live < 0xFFFF

theorem capCall_returns {c : CapCall} (hi : s.table.InOrder) (hc : c.Asked s.table) :
    ∃ r u, capCall c s = .ok (r, u) := by
  obtain ⟨free, hsi⟩ := hi
  obtain ⟨r, u, h, _⟩ := wp_capCall hsi hc.1 fun o r f he => room_of_live ⟨free, hsi⟩ (hc.2 o r f he)
  exact ⟨r, u, h⟩

/-- **A capability table refines a map from ids to capabilities**: it starts empty, every run of
    its calls is a run of the map, and in every state of a run each call returns and is a call of
    the map. -/
theorem capTable_refines {ω : Type} {initialCapacity : Usize}
    (hcap : initialCapacity.toNat ≤ 0xFFFF) :
    (∀ (t : CapTable) (heap : CapHeap ω), ∃ s : CapState ω, s.heap = heap ∧
      capTableInit initialCapacity t = .ok ((), s.table) ∧ s.table.caps = fun _ => none) ∧
    ∀ (s₀ s : CapState ω) (tr : List (CapCall × CapRet)), CapStart initialCapacity s₀ →
      CapSteps s₀ tr s → MapRun tr s.table.caps ∧
      ∀ c : CapCall, c.Asked s.table → ∃ r s', capCall c s = .ok (r, s') ∧
        MapStep s.table.caps c r s'.table.caps := by
  refine ⟨fun t heap => ?_, fun s₀ s tr h₀ h => ⟨mapRun_of_steps h₀ h, fun c hc => ?_⟩⟩
  · obtain ⟨_, t', hr, _⟩ := wp_capTableInit hcap t
    exact ⟨⟨t', heap⟩, rfl, hr, (capStart_inv (s := ⟨t', heap⟩) ⟨t, hr⟩).2⟩
  · have hi := capSteps_inv (capStart_inv h₀).1 h
    obtain ⟨r, u, hr⟩ := capCall_returns hi hc
    exact ⟨r, u, hr, mapStep_of_effect (capCall_inv hi hr).1⟩

/-- **The free list is exact** in every state of a run: it ends, passes no index twice, and has
    the indices below `next_unused` whose slot is empty; the slots from there on are as new. So
    the block grows only when every slot is live, and `cap_table_set` never misses a vacated slot
    on the list. -/
theorem freeList_exact {ω : Type} {s : CapState ω} (h : CapReachable s) :
    (∃ free, Chain s.table.next CAP_INVALID_INDEX s.table.freeHead free ∧ free.Nodup ∧
      ∀ i, i ∈ free ↔ i.toNat < s.table.nextUnused.toNat ∧ (s.table.slots i).obj = 0) ∧
    (∀ i, s.table.nextUnused.toNat ≤ i.toNat → i.toNat < s.table.capacity.toNat →
      (s.table.slots i).obj = 0 ∧ (s.table.slots i).gen = 1) ∧
    (∀ obj rights flags id s', capTableAdd obj rights flags s = .ok (id, s') →
      s'.table.capacity ≠ s.table.capacity →
      ∀ i, i.toNat < s.table.capacity.toNat → (s.table.slots i).obj ≠ 0) ∧
    (∀ idx t, growTo idx 0x10000 s.table = .ok (true, t) → (t.slots idx).obj = 0 →
      idx.toNat < t.nextUnused.toNat → ∃ t', capTableFreeListRemove idx t = .ok (true, t')) := by
  have hi := capReachable_inv h
  obtain ⟨free, hsi⟩ := hi
  refine ⟨⟨free, hsi.chain, chain_nodup hsi.chain, fun i => ?_⟩, hsi.unused, ?_, ?_⟩
  · rw [hsi.mem i]
    exact ⟨fun hm => ⟨hm.1, hm.2.1⟩, fun hm => ⟨hm.1, hm.2, by simp⟩⟩
  · intro obj rights flags id s' hadd hne
    have hcall : capCall (.add obj rights flags) s = .ok (.id id, s') := by
      show (capTableAdd obj rights flags s >>= fun p => _) = _
      rw [hadd]
      rfl
    cases (capCall_inv ⟨free, hsi⟩ hcall).1 with
    | add _ _ _ _ hf => exact hf hne
  · intro idx t hgrow ho hu
    obtain ⟨hg, _⟩ := (wp_of_eq hgrow).mp (wp_growTo idx hsi (by omega))
    obtain ⟨ok, t', hr, rfl, _⟩ := wp_capTableFreeListRemove (slotsInv_grown hsi hg) hu ho
    exact ⟨t', hr⟩

/-- A fresh table over a heap without objects. -/
def freshCaps (n : Usize) : CapState Unit where
  table := CapTable.prepared ⟨fun _ => .unused, n, 0, CAP_INVALID_INDEX⟩ 0 n.toNat
  heap := { obj := fun _ => ⟨⟨none, none, none, none, none, none⟩, 0, 0⟩, log := [], rest := () }

theorem freshCaps_start {n : Usize} (h : n.toNat ≤ 0xFFFF) : CapStart n (freshCaps n) := by
  have hw : wp (capTableInit n) ⟨fun _ => .unused, n, 0, CAP_INVALID_INDEX⟩
      fun _ t => t = (freshCaps n).table := by
    unfold capTableInit
    rw [wp_bind, wp_assert, wp_bind, wp_modify, wp_prepareSlots (by omega)]
    exact ⟨h, rfl⟩
  obtain ⟨_, t, hr, rfl⟩ := hw
  exact ⟨_, hr⟩

/-- The second slot of two is filled by a hint: the first one, skipped, is on the list. -/
theorem freshCaps_set : ∃ s : CapState Unit,
    capCall (.set 0x00010001 8 0 0) (freshCaps 2) = .ok (.ok true, s) ∧ s.table.freeHead = 0 ∧
      s.table.nextUnused = 2 := by
  have hset : ((capCall (.set 0x00010001 8 0 0) (freshCaps 2)).map fun p : CapRet × CapState Unit =>
      (p.1, p.2.table.freeHead, p.2.table.nextUnused)) = .ok (.ok true, 0, 2) := by rfl
  cases hr : capCall (.set 0x00010001 8 0 0) (freshCaps 2) with
  | error e =>
      rw [hr] at hset
      cases hset
  | ok p =>
      rw [hr] at hset
      injection hset with hset
      injection hset with hret hset
      injection hset with hhead hunused
      exact ⟨p.2, by rw [← hret], hhead, hunused⟩

theorem capTable_refines_set : ∃ s : CapState Unit,
    capCall (.set 0x00010001 8 0 0) (freshCaps 2) = .ok (.ok true, s) ∧
      MapRun [(.set 0x00010001 8 0 0, .ok true)] s.table.caps := by
  obtain ⟨s, hs, _⟩ := freshCaps_set
  have href := (@capTable_refines Unit 2 (by decide)).2 (freshCaps 2) s _
    (freshCaps_start (by decide)) (.call .start hs)
  exact ⟨s, hs, href.1⟩

theorem freeList_exact_set : ∃ s : CapState Unit, CapReachable s ∧ s.table.freeHead = 0 ∧
    s.table.nextUnused = 2 ∧ ∃ free, Chain s.table.next CAP_INVALID_INDEX 0 free ∧
      ∀ i, i ∈ free ↔ i.toNat < 2 ∧ (s.table.slots i).obj = 0 := by
  obtain ⟨s, hs, hhead, hunused⟩ := freshCaps_set
  have hreach : CapReachable s :=
    ⟨2, freshCaps 2, _, freshCaps_start (by decide), .call .start hs⟩
  obtain ⟨free, hchain, _, hmem⟩ := (freeList_exact hreach).1
  rw [hhead] at hchain
  rw [hunused] at hmem
  exact ⟨s, hreach, hhead, hunused, free, hchain, hmem⟩

end Runs

end Slightx
