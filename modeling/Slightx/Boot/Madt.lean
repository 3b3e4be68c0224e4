/-
  File:      Slightx/Boot/Madt.lean
  Subject:   The address of the local APIC in the MADT.

  Sources: kernel/boot/madt.c, kernel/boot/madt.h.

  The entries are of the lengths that they tell. Pointers are addresses without a width, since a
  table lies inside of the address space. A read of the walk outside of the entries is a fault
  here, so a run without such a fault has read nothing else.

  * `visited_head` -- the entries behind an entry are the ones behind its successor
  * `ends_madtWalk` -- the walk ends: with the last override where no entry is broken, with a panic
    where one is
  * `madtMmioLoad_selects` -- the base that is taken, and when none is
-/
import Mathlib.Logic.Relation
import Slightx.Boot.Acpi

namespace Slightx

open Lib Relation

def ACPI_SIG_MADT : U32 := acpiSig32 0x41 0x50 0x49 0x43

def MADT_LAPIC_OVERRIDE : U8 := 5

/-! ## 1. The walk -/

section Walk

variable {σ : Type} (mem : Mem) (entries tableEnd : Nat)

/-- A byte of the entries. -/
def entryByte (addr : Nat) : Prog Fault σ U8 :=
  if entries ≤ addr ∧ addr < tableEnd then return mem addr
  else throw (.pageFault (BitVec.ofNat 64 addr))

/-- `override->addr` of the entry at `entry` -/
def overrideAddr (entry : Nat) : Prog Fault σ U64 :=
  if entries ≤ entry + 4 ∧ entry + 12 ≤ tableEnd then return load64 mem (entry + 4)
  else throw (.pageFault (BitVec.ofNat 64 (entry + 4)))

/-- `base` after the entry at `entry`. -/
def nextBase (entry : Nat) (len : U8) (base : U64) : Prog Fault σ U64 := do
  if (← entryByte mem entries tableEnd entry) = MADT_LAPIC_OVERRIDE ∧ 12 ≤ len.toNat then
    overrideAddr mem entries tableEnd entry
  else return base

/-- The loop of `madt_mmio_load`; each turn goes on by two bytes at least. -/
def madtWalk (ptr : Nat) (base : U64) : Prog Fault σ U64 :=
  if ptr + 2 ≤ tableEnd then do
    let len ← entryByte mem entries tableEnd (ptr + 1)
    if len.toNat < 2 then do
      let type ← entryByte mem entries tableEnd ptr
      panic s!"[acpi] MADT entry type {type.toNat} has invalid len {len.toNat}"
    else if tableEnd - ptr < len.toNat then do
      let type ← entryByte mem entries tableEnd ptr
      panic s!"[acpi] MADT entry type {type.toNat} overruns table"
    else do
      let base ← nextBase mem entries tableEnd ptr len base
      madtWalk (ptr + len.toNat) base
  else return base
termination_by tableEnd - ptr

end Walk

/-- `base` at the end of the walk through the table at `m`. -/
def madtBase {σ : Type} (mem : Mem) (m : Uptr) : Prog Fault σ U64 := do
  let entries := m.toNat + 44
  let tableEnd := m.toNat + (sdtLength mem m).toNat
  if tableEnd < entries then
    panic s!"[acpi] MADT length {(sdtLength mem m).toNat} truncates entries"
  else
    let base ← madtWalk mem entries tableEnd entries ((load32 mem (m.toNat + 36)).setWidth 64)
    if base = 0 then panic "[acpi] MADT advertised LAPIC base of 0" else return base

structure MadtState where
  acpi : AcpiState
  madtLapicMmio : Uptr

def inAcpi {α : Type} (x : Prog Fault AcpiState α) : Prog Fault MadtState α :=
  zoom MadtState.acpi (fun s acpi => { s with acpi }) x

def madtMmioLoad (env : AcpiEnv) : Prog Fault MadtState Unit := do
  let m ← inAcpi (acpiFind env ACPI_SIG_MADT)
  if m = 0 then panic "[acpi] could not find MADT"
  else
    let base ← madtBase env.mem m
    let va ← inAcpi (acpiP2v env base)
    modify fun s => { s with madtLapicMmio := va }

/-! ## 2. The entries of a table -/

section Entries

variable (mem : Mem) (tableEnd : Nat)

/-- `entry->len` -/
def entryLen (entry : Nat) : Nat := (mem (entry + 1)).toNat

/-- There is an entry at `entry`: a leftover byte is none. -/
def IsEntry (entry : Nat) : Prop := entry + 2 ≤ tableEnd

/-- An entry whose length is below the one of its header, or goes beyond the table. -/
def Broken (entry : Nat) : Prop :=
  IsEntry tableEnd entry ∧ (entryLen mem entry < 2 ∨ tableEnd < entry + entryLen mem entry)

/-- `next` is where the entry at `entry` ends. -/
def EntryNext (entry next : Nat) : Prop :=
  IsEntry tableEnd entry ∧ ¬ Broken mem tableEnd entry ∧ next = entry + entryLen mem entry

/-- The walk from `first` comes to `entry`. -/
def Visited (first entry : Nat) : Prop := ReflTransGen (EntryNext mem tableEnd) first entry

/-- An override of the address, with all its fields. -/
def IsOverride (entry : Nat) : Prop :=
  IsEntry tableEnd entry ∧ mem entry = MADT_LAPIC_OVERRIDE ∧ 12 ≤ entryLen mem entry

/-- `selected` is the address of the last override among the entries from `first` on, or `base`. -/
def Selects (first : Nat) (base selected : U64) : Prop :=
  (∃ entry, Visited mem tableEnd first entry ∧ IsOverride mem tableEnd entry ∧
    (∀ e, Visited mem tableEnd first e → IsOverride mem tableEnd e → e ≤ entry) ∧
    selected = load64 mem (entry + 4)) ∨
  ((∀ e, Visited mem tableEnd first e → ¬ IsOverride mem tableEnd e) ∧ selected = base)

end Entries

/-- **A table that gives the base `base`**: it has the fixed part, none of its entries is broken,
    and `base` is the address of its last override, or the one of the fixed part, and not 0. -/
structure MadtAccepts (mem : Mem) (m : Uptr) (base : U64) : Prop where
  length : 44 ≤ (sdtLength mem m).toNat
  whole : ∀ entry, Visited mem (m.toNat + (sdtLength mem m).toNat) (m.toNat + 44) entry →
    ¬ Broken mem (m.toNat + (sdtLength mem m).toNat) entry
  selects : Selects mem (m.toNat + (sdtLength mem m).toNat) (m.toNat + 44)
    ((load32 mem (m.toNat + 36)).setWidth 64) base
  base : base ≠ 0

/-! ## 3. The walk ends -/

section Walking

variable {mem : Mem} {first tableEnd entry e : Nat} {base selected selected' : U64}

/-- The entries from `entry` on are `entry` and the ones from its successor on. -/
theorem visited_head (hentry : IsEntry tableEnd entry) (hwhole : ¬ Broken mem tableEnd entry) :
    Visited mem tableEnd entry e ↔
      e = entry ∨ Visited mem tableEnd (entry + entryLen mem entry) e := by
  unfold Visited
  rw [ReflTransGen.cases_head_iff]
  refine or_congr eq_comm ⟨?_, fun h => ⟨_, ⟨hentry, hwhole, rfl⟩, h⟩⟩
  rintro ⟨next, ⟨-, -, rfl⟩, h⟩
  exact h

/-- Nothing follows an entry without a header, or a broken one. -/
theorem visited_last (hlast : ¬ IsEntry tableEnd entry ∨ Broken mem tableEnd entry)
    (h : Visited mem tableEnd entry e) : e = entry := by
  obtain rfl | ⟨next, ⟨hentry, hwhole, -⟩, -⟩ := ReflTransGen.cases_head h
  · rfl
  · obtain hnone | hbroken := hlast
    · exact absurd hentry hnone
    · exact absurd hbroken hwhole

/-- The walk goes forward. -/
theorem visited_le (h : Visited mem tableEnd first e) : first ≤ e := by
  induction h with
  | refl => exact Nat.le_refl _
  | tail _ hnext ih =>
      obtain ⟨-, -, rfl⟩ := hnext
      exact Nat.le_trans ih (Nat.le_add_right _ _)

theorem selects_last (hlast : ¬ IsEntry tableEnd entry) : Selects mem tableEnd entry base base := by
  refine .inr ⟨fun e he ho => ?_, rfl⟩
  rw [visited_last (.inl hlast) he] at ho
  exact hlast ho.1

/-- An override before the others is the choice only if there are no others. -/
theorem selects_step (hentry : IsEntry tableEnd entry) (hwhole : ¬ Broken mem tableEnd entry)
    {next : U64}
    (hnext : IsOverride mem tableEnd entry ∧ next = load64 mem (entry + 4) ∨
      ¬ IsOverride mem tableEnd entry ∧ next = base)
    (h : Selects mem tableEnd (entry + entryLen mem entry) next selected) :
    Selects mem tableEnd entry base selected := by
  obtain ⟨e, he, ho, hmax, rfl⟩ | ⟨hnone, rfl⟩ := h
  · refine .inl ⟨e, (visited_head hentry hwhole).mpr (.inr he), ho, fun e' he' ho' => ?_, rfl⟩
    obtain rfl | he' := (visited_head hentry hwhole).mp he'
    · exact Nat.le_trans (Nat.le_add_right _ _) (visited_le he)
    · exact hmax e' he' ho'
  · obtain ⟨ho, rfl⟩ | ⟨ho, rfl⟩ := hnext
    · refine .inl ⟨entry, .refl, ho, fun e' he' ho' => ?_, rfl⟩
      obtain rfl | he' := (visited_head hentry hwhole).mp he'
      · exact Nat.le_refl _
      · exact absurd ho' (hnone e' he')
    · refine .inr ⟨fun e' he' ho' => ?_, rfl⟩
      obtain rfl | he' := (visited_head hentry hwhole).mp he'
      · exact ho ho'
      · exact hnone e' he' ho'

/-- One address is selected. -/
theorem selects_unique (h : Selects mem tableEnd first base selected)
    (h' : Selects mem tableEnd first base selected') : selected = selected' := by
  obtain ⟨e, he, ho, hmax, rfl⟩ | ⟨hnone, rfl⟩ := h
  · obtain ⟨e', he', ho', hmax', rfl⟩ | ⟨hnone', -⟩ := h'
    · rw [Nat.le_antisymm (hmax' e he ho) (hmax e' he' ho')]
    · exact absurd ho (hnone' e he)
  · obtain ⟨e', he', ho', -⟩ | ⟨-, rfl⟩ := h'
    · exact absurd ho' (hnone e' he')
    · rfl

section Ends

variable {σ : Type} {entries : Nat} {s : σ}

theorem ends_entryByte {addr : Nat} (hlow : entries ≤ addr) (hhigh : addr < tableEnd)
    (Q : U8 → σ → Prop) (E : Fault → Prop) :
    ends (entryByte mem entries tableEnd addr) s Q E ↔ Q (mem addr) s := by
  unfold entryByte
  rw [if_pos ⟨hlow, hhigh⟩]
  exact ends_pure _ _ _ _

theorem ends_nextBase (hlow : entries ≤ entry) (hentry : IsEntry tableEnd entry)
    (hwhole : ¬ Broken mem tableEnd entry) (E : Fault → Prop) :
    ends (nextBase mem entries tableEnd entry (mem (entry + 1)) base) s
      (fun next t => t = s ∧
        (IsOverride mem tableEnd entry ∧ next = load64 mem (entry + 4) ∨
          ¬ IsOverride mem tableEnd entry ∧ next = base)) E := by
  have hheader : entry + 2 ≤ tableEnd := hentry
  unfold nextBase
  rw [ends_bind, ends_entryByte hlow (by omega)]
  split
  · rename_i htype
    have hfits : entry + 12 ≤ tableEnd := by
      have hlong : 12 ≤ entryLen mem entry := htype.2
      have hin : ¬ tableEnd < entry + entryLen mem entry := fun h => hwhole ⟨hentry, .inr h⟩
      omega
    unfold overrideAddr
    rw [if_pos ⟨by omega, hfits⟩]
    exact ⟨rfl, .inl ⟨⟨hentry, htype⟩, rfl⟩⟩
  · rename_i htype
    exact ⟨rfl, .inr ⟨fun ho => htype ho.2, rfl⟩⟩

/-- What the walk from `ptr` does. -/
theorem ends_madtWalk (ptr : Nat) (base : U64) (hlow : entries ≤ ptr) :
    ends (madtWalk mem entries tableEnd ptr base) s
      (fun selected t => t = s ∧ Selects mem tableEnd ptr base selected ∧
        ∀ e, Visited mem tableEnd ptr e → ¬ Broken mem tableEnd e)
      fun fault => (∃ text, fault = .panic text) ∧
        ∃ e, Visited mem tableEnd ptr e ∧ Broken mem tableEnd e := by
  induction ptr, base using madtWalk.induct tableEnd generalizing s with
  | case2 ptr base hend =>
      rw [madtWalk, if_neg hend, ends_pure]
      refine ⟨rfl, selects_last hend, fun e he hbroken => ?_⟩
      rw [visited_last (.inl hend) he] at hbroken
      exact hend hbroken.1
  | case1 ptr base hentry ih =>
      rw [madtWalk, if_pos hentry, ends_bind, ends_entryByte (by omega) (by omega)]
      split
      · rename_i hshort
        rw [ends_bind, ends_entryByte hlow (by omega), ends_panic]
        exact ⟨⟨_, rfl⟩, ptr, .refl, hentry, .inl hshort⟩
      · rename_i hlen
        split
        · rename_i hover
          rw [ends_bind, ends_entryByte hlow (by omega), ends_panic]
          exact ⟨⟨_, rfl⟩, ptr, .refl, hentry, .inr (by unfold entryLen; omega)⟩
        · rename_i hfits
          have hwhole : ¬ Broken mem tableEnd ptr := fun hbroken => by
            obtain ⟨-, hshort | hover⟩ := hbroken
            · exact hlen hshort
            · unfold entryLen at hover
              omega
          rw [ends_bind]
          refine ends_mono (ends_nextBase hlow hentry hwhole fun _ => False) ?_ fun _ h => h.elim
          rintro next t ⟨rfl, hnext⟩
          refine ends_mono (ih (mem (ptr + 1)) hlen hfits next (by omega)) ?_ ?_
          · rintro selected t ⟨rfl, hselects, hnone⟩
            refine ⟨rfl, selects_step hentry hwhole hnext hselects, fun e he => ?_⟩
            obtain rfl | he := (visited_head hentry hwhole).mp he
            · exact hwhole
            · exact hnone e he
          · rintro fault ⟨htext, e, he, hbroken⟩
            exact ⟨htext, e, (visited_head hentry hwhole).mpr (.inr he), hbroken⟩

end Ends

end Walking

/-! ## 4. The base -/

theorem ends_madtBase {σ : Type} (mem : Mem) (m : Uptr) (s : σ) :
    ends (madtBase mem m) s (fun base t => t = s ∧ MadtAccepts mem m base)
      fun fault => (∃ text, fault = .panic text) ∧ ∀ base, ¬ MadtAccepts mem m base := by
  unfold madtBase
  dsimp only
  split
  · rename_i hshort
    rw [ends_panic]
    exact ⟨⟨_, rfl⟩, fun base h => absurd h.length (by omega)⟩
  · rename_i hlen
    rw [ends_bind]
    refine ends_mono (ends_madtWalk _ _ (Nat.le_refl _)) ?_ ?_
    · rintro selected t ⟨rfl, hselects, hwhole⟩
      split
      · rename_i hzero
        rw [ends_panic]
        refine ⟨⟨_, rfl⟩, fun base h => h.base ?_⟩
        rw [selects_unique h.selects hselects]
        exact hzero
      · rename_i hne
        exact ⟨rfl, by omega, hwhole, hselects, hne⟩
    · rintro fault ⟨htext, e, he, hbroken⟩
      exact ⟨htext, fun base h => h.whole e he hbroken⟩

/-- **The base of the local APIC**: for every table the walk ends, without a read outside of the
    entries; it panics exactly where the table gives no base, and the base it returns is the one of
    the table. With the table that `acpi_find` returns, `madt_mmio_load` keeps that base. -/
theorem madtMmioLoad_selects (env : AcpiEnv) (s : MadtState) :
    (∀ m, ends (madtBase env.mem m) s (fun base t => t = s ∧ MadtAccepts env.mem m base)
      fun fault => (∃ text, fault = .panic text) ∧ ∀ base, ¬ MadtAccepts env.mem m base) ∧
    ∀ m acpi, acpiFind env ACPI_SIG_MADT s.acpi = .ok (m, acpi) → m ≠ 0 →
      ends (madtMmioLoad env) s
        (fun _ t => ∃ base offset, MadtAccepts env.mem m base ∧ env.hhdm = some offset ∧
          t = ⟨acpi, base + offset⟩)
        fun fault => (∃ text, fault = .panic text) ∧ ∀ base, ¬ MadtAccepts env.mem m base := by
  refine ⟨fun m => ends_madtBase env.mem m s, fun m acpi hfind hm => ?_⟩
  obtain ⟨offset, hhhdm⟩ := acpiFind_hhdm hfind hm
  unfold madtMmioLoad inAcpi
  rw [ends_bind, ends_zoom, ends_of_eq hfind, if_neg hm, ends_bind]
  refine ends_mono (ends_madtBase env.mem m _) ?_ fun _ h => h
  rintro base t ⟨rfl, hbase⟩
  unfold acpiP2v
  rw [ends_bind, ends_zoom, hhhdm]
  exact ⟨base, offset, hbase, rfl, rfl⟩

/-- The MADT above 4 GiB with an entry of a processor, an override and a leftover byte. -/
def overrideMachine : AcpiEnv :=
  let hdr : List U8 := [0x41, 0x50, 0x49, 0x43, 65, 0, 0, 0, 1, 0xe3]
  let rest : List U8 := [0, 0, 0xc0, 0xfe, 1, 0, 0, 0, 0, 8, 0, 0, 1, 0, 0, 0,
    5, 12, 0, 0, 0, 0, 0xe0, 0xfe, 0, 0, 0, 0, 7]
  { highMachine 2 with
    mem := withBytes (withBytes highTables 0xffff800100003000 hdr) 0xffff800100003024 rest }

theorem wp_madtBase_override (s : MadtState) (Q : U64 → MadtState → Prop) :
    wp (madtBase overrideMachine.mem 0xffff800100003000) s Q ↔ Q 0xfee00000 s := by
  have hwalk : madtWalk overrideMachine.mem 0xffff80010000302c 0xffff800100003041
      0xffff80010000302c 0xfec00000 s = .ok (0xfee00000, s) := by
    rw [madtWalk]
    show madtWalk _ _ _ 0xffff800100003034 0xfec00000 s = _
    rw [madtWalk]
    show madtWalk _ _ _ 0xffff800100003040 0xfee00000 s = _
    rw [madtWalk]
    rfl
  unfold madtBase
  dsimp only
  rw [if_neg (by decide +kernel), wp_bind]
  show wp (madtWalk _ 0xffff80010000302c 0xffff800100003041 0xffff80010000302c 0xfec00000) s _ ↔ _
  rw [wp_of_eq hwalk, if_neg (by decide), wp_pure]

set_option maxRecDepth 2000 in
theorem madtMmioLoad_selects_override : ∃ base,
    MadtAccepts overrideMachine.mem 0xffff800100003000 base ∧
      (0xffff8000fee00000 : Uptr) = base + 0xffff800000000000 := by
  have hfind : acpiFind overrideMachine ACPI_SIG_MADT ⟨0xffff800000002000, []⟩ =
      .ok (0xffff800100003000, ⟨0xffff800000002000, [(0xffff800000002024, 8)]⟩) := rfl
  have hends := (madtMmioLoad_selects overrideMachine ⟨⟨0xffff800000002000, []⟩, 0⟩).2 _ _ hfind
    (by decide)
  have hmmio : wp (madtMmioLoad overrideMachine) ⟨⟨0xffff800000002000, []⟩, 0⟩
      fun _ t => t.madtLapicMmio = 0xffff8000fee00000 := by
    unfold madtMmioLoad inAcpi
    rw [wp_bind, wp_zoom, wp_of_eq hfind, if_neg (by decide), wp_bind]
    exact (wp_madtBase_override _ _).mpr ⟨(), _, rfl, rfl⟩
  obtain ⟨u, t, hrun, ht⟩ := hmmio
  obtain ⟨base, offset, hbase, hoffset, rfl⟩ := (ends_of_eq hrun).mp hends
  cases hoffset
  exact ⟨base, hbase, ht.symm⟩

end Slightx
