/-
  File:      Slightx/Boot/Acpi.lean
  Subject:   The root table of ACPI and the search for a table in it.

  Sources: kernel/boot/acpi.c, kernel/boot/acpi.h, kernel/mem/hhdm.c.

  The root table is chosen by the revision of the RSDP, the width of its entries by the revision of
  the bootloader's response, and neither looks at the signature of the table. `reads` is a record of
  the entries read, which no code looks at.

  * `wp_acpiGetEntry`, `wp_acpiFindLoop` -- what is found, in terms of the width the code takes
  * `acpiFinds_iff` -- the search goes through the entries of the root table exactly where the two
    widths agree and the table has a whole header, or the table is too short for an entry
-/
import Slightx.Klibc.Core

namespace Slightx

open Lib

/-! ## 1. Tables in memory -/

/-- The word of four bytes at `a`, lowest byte first. -/
def load32 (m : Mem) (a : Nat) : U32 := m (a + 3) ++ m (a + 2) ++ m (a + 1) ++ m a

/-- `ACPI_SIG32`; a `char` is signed. -/
def acpiSig32 (a b c d : U8) : U32 :=
  a.signExtend 32 ||| b.signExtend 32 <<< 8 ||| c.signExtend 32 <<< 16 ||| d.signExtend 32 <<< 24

/-- The signature of the four characters at `a`. -/
def acpiSignature (m : Mem) (a : Nat) : U32 := acpiSig32 (m a) (m (a + 1)) (m (a + 2)) (m (a + 3))

def ACPI_SIG_RSDT : U32 := acpiSig32 0x52 0x53 0x44 0x54
def ACPI_SIG_XSDT : U32 := acpiSig32 0x58 0x53 0x44 0x54

def acpiVerifyChecksum (m : Mem) (buffer len : Nat) : Bool :=
  runUp len (fun i sum => sum + m (buffer + i)) 0 == (0 : U8)

/-- `hdr->length` -/
def sdtLength (m : Mem) (hdr : Uptr) : U32 := load32 m (hdr.toNat + 4)

def SIZEOF_ACPI_SDT_HDR : Usize := 36

/-! ## 2. The bootloader's answers -/

/-- `limine_rsdp_response` -/
structure RsdpResponse where
  revision : U64
  address : Uptr

structure AcpiEnv where
  mem : Mem
  rsdp : Option RsdpResponse
  /-- the offset of the direct map -/
  hhdm : Option U64

structure AcpiState where
  sdt : Uptr
  /-- address and width of every entry read -/
  reads : List (Nat × Nat)
  deriving DecidableEq

section Acpi

variable (env : AcpiEnv)

def acpiP2v (pa : U64) : Prog Fault AcpiState Uptr :=
  match env.hhdm with
  | some offset => return pa + offset
  | none => throw (.assertion "hhdm_response != NULL")

/-- `rsdp_response->revision` -/
def responseRevision : Prog Fault AcpiState U64 :=
  match env.rsdp with
  | some resp => return resp.revision
  | none => throw (.pageFault 0)

def acpiGetRsdt : Prog Fault AcpiState Uptr := do
  if (← responseRevision env) < 2 then return (← get).sdt else return 0

def acpiGetXsdt : Prog Fault AcpiState Uptr := do
  if 2 ≤ (← responseRevision env) then return (← get).sdt else return 0

def acpiCountEntries : Prog Fault AcpiState Usize := do
  let rsdt ← acpiGetRsdt env
  let xsdt ← acpiGetXsdt env
  if rsdt ≠ 0 then
    return ((sdtLength env.mem rsdt).setWidth 64 - SIZEOF_ACPI_SDT_HDR) / 4
  else if xsdt ≠ 0 then
    return ((sdtLength env.mem xsdt).setWidth 64 - SIZEOF_ACPI_SDT_HDR) / 8
  else return 0

/-- The entries of 32 bits, and those of 64 bits. -/
def readEntry32 (rsdt : Uptr) (index : Nat) : Prog Fault AcpiState U64 := do
  let addr := rsdt.toNat + 36 + 4 * index
  modify fun s => { s with reads := s.reads ++ [(addr, 4)] }
  return (load32 env.mem addr).setWidth 64

def readEntry64 (xsdt : Uptr) (index : Nat) : Prog Fault AcpiState U64 := do
  let addr := xsdt.toNat + 36 + 8 * index
  modify fun s => { s with reads := s.reads ++ [(addr, 8)] }
  return load64 env.mem addr

def acpiGetEntry (index : Nat) : Prog Fault AcpiState Uptr := do
  if index < (← acpiCountEntries env).toNat then
    let rsdt ← acpiGetRsdt env
    let xsdt ← acpiGetXsdt env
    let pa ← (if rsdt ≠ 0 then readEntry32 env rsdt index
      else if xsdt ≠ 0 then readEntry64 env xsdt index
      else pure 0)
    acpiP2v env pa
  else return 0

/-- The signature and the checksum of `rsdp` and `hdr`, and which table is the root. -/
def acpiLoad : Prog Fault AcpiState Unit := do
  match env.rsdp with
  | none => throw (.assertion "rsdp_response != NULL")
  | some resp =>
      let rsdp := resp.address.toNat
      let revision := env.mem (rsdp + 15)
      if (revision < 2 ∧ ¬ acpiVerifyChecksum env.mem rsdp 20) ∨
          (2 ≤ revision ∧
            ¬ acpiVerifyChecksum env.mem rsdp (load32 env.mem (rsdp + 20)).toNat) then
        panic "[acpi] invalid RSDP checksum"
      else
        let xsdtAddr := load64 env.mem (rsdp + 24)
        let hdr ← acpiP2v env (if 2 ≤ revision ∧ xsdtAddr ≠ 0 then xsdtAddr
          else (load32 env.mem (rsdp + 16)).setWidth 64)
        -- `hdr->signature` of a `NULL` pointer
        if hdr = 0 then throw (.pageFault 0)
        else if acpiSignature env.mem hdr.toNat ≠ ACPI_SIG_RSDT ∧
            acpiSignature env.mem hdr.toNat ≠ ACPI_SIG_XSDT then
          panic "[acpi] invalid RSDT/XSDT signature"
        else if ¬ acpiVerifyChecksum env.mem hdr.toNat (sdtLength env.mem hdr).toNat then
          panic "[acpi] invalid RSDT/XSDT checksum"
        else modify fun s => { s with sdt := hdr }

/-- A table that `acpi_find` takes. -/
def acpiMatches (signature : U32) (entry : Uptr) : Bool :=
  entry ≠ 0 && acpiSignature env.mem entry.toNat == signature &&
    acpiVerifyChecksum env.mem entry.toNat (sdtLength env.mem entry).toNat

/-- The loop of `acpi_find`, from `i` on, over the `left` entries that are left: the count that it
    takes again at each turn is the same. -/
def acpiFindLoop (signature : U32) : (left i : Nat) → Prog Fault AcpiState Uptr
  | 0, _ => return 0
  | left + 1, i => do
      let entry ← acpiGetEntry env i
      if acpiMatches env signature entry then return entry
      else acpiFindLoop signature left (i + 1)

def acpiFind (signature : U32) : Prog Fault AcpiState Uptr := do
  let count ← acpiCountEntries env
  acpiFindLoop env signature count.toNat 0

end Acpi

/-! ## 3. The entries of the root table -/

/-- Entry `i` of the table at `sdt`, with entries of `width` bytes. -/
def tableEntry (m : Mem) (sdt : Uptr) (width i : Nat) : U64 :=
  if width = 4 then (load32 m (sdt.toNat + 36 + 4 * i)).setWidth 64
  else load64 m (sdt.toNat + 36 + 8 * i)

/-- The tables of entries `i`, `i + 1`, ..., through the direct map. -/
def tablesFrom (m : Mem) (sdt : Uptr) (offset : U64) (width i left : Nat) : List Uptr :=
  (List.range' i left).map fun j => tableEntry m sdt width j + offset

/-- The width of the entries, by the signature of the table. -/
def rootWidth (m : Mem) (sdt : Uptr) : Nat :=
  if acpiSignature m sdt.toNat = ACPI_SIG_XSDT then 8 else 4

def rootCount (m : Mem) (sdt : Uptr) : Nat := ((sdtLength m sdt).toNat - 36) / rootWidth m sdt

/-- The tables that the root table points to, in its order. -/
def rootTables (m : Mem) (sdt : Uptr) (offset : U64) : List Uptr :=
  tablesFrom m sdt offset (rootWidth m sdt) 0 (rootCount m sdt)

/-- The first table of `tables` with the signature and a valid checksum, or `NULL`. -/
def firstTable (env : AcpiEnv) (signature : U32) (tables : List Uptr) : Uptr :=
  (tables.find? (acpiMatches env signature)).getD 0

/-- A read inside of the entries of the table. -/
def InTable (m : Mem) (sdt : Uptr) (r : Nat × Nat) : Prop :=
  sdt.toNat + 36 ≤ r.1 ∧ r.1 + r.2 ≤ sdt.toNat + (sdtLength m sdt).toNat

/-- **The search is one through the root table**: the entries are counted by the signature of the
    table, and each search returns their first match and reads nothing beyond the table. -/
structure AcpiFinds (env : AcpiEnv) (s : AcpiState) (offset : U64) : Prop where
  count : wp (acpiCountEntries env) s fun n t => n.toNat = rootCount env.mem s.sdt ∧ t = s
  find : ∀ signature, wp (acpiFind env signature) s fun p t =>
    p = firstTable env signature (rootTables env.mem s.sdt offset) ∧
      ∃ new, t.reads = s.reads ++ new ∧ ∀ r ∈ new, InTable env.mem s.sdt r

/-! ## 4. The search with the width that the code takes -/

/-- The width that the revision of the response stands for. -/
def responseWidth (resp : RsdpResponse) : Nat := if resp.revision < 2 then 4 else 8

theorem responseWidth_lt {resp : RsdpResponse} (hrev : resp.revision < 2) :
    responseWidth resp = 4 :=
  if_pos hrev

theorem responseWidth_ge {resp : RsdpResponse} (hrev : ¬ resp.revision < 2) :
    responseWidth resp = 8 :=
  if_neg hrev

/-- The count that the code takes; the subtraction wraps. -/
def responseCount (m : Mem) (sdt : Uptr) (width : Nat) : Usize :=
  ((sdtLength m sdt).setWidth 64 - SIZEOF_ACPI_SDT_HDR) / BitVec.ofNat 64 width

section Find

variable {env : AcpiEnv} {s : AcpiState} {resp : RsdpResponse} {offset : U64}

theorem acpiLoad_sdt {s₀ : AcpiState} (hload : acpiLoad env s₀ = .ok ((), s)) : s.sdt ≠ 0 := by
  have hends : ends (acpiLoad env) s₀ (fun _ t => t.sdt ≠ 0) fun _ => True := by
    unfold acpiLoad
    cases env.rsdp with
    | none => exact trivial
    | some resp =>
        dsimp only
        split
        · exact trivial
        · refine ends_bind_last fun hdr t => ?_
          split
          · exact trivial
          · rename_i hne
            split
            · exact trivial
            · split
              · exact trivial
              · exact (ends_modify _ _ _ _).mpr hne
  exact @ends_ok _ _ _ (acpiLoad env) s₀ (fun _ t => t.sdt ≠ 0) _ () s hends hload

theorem wp_acpiP2v (hhhdm : env.hhdm = some offset) (pa : U64) (Q : Uptr → AcpiState → Prop) :
    wp (acpiP2v env pa) s Q ↔ Q (pa + offset) s := by
  unfold acpiP2v
  rw [hhhdm]
  exact wp_pure _ _ _

theorem wp_responseRevision (hrsdp : env.rsdp = some resp) (Q : U64 → AcpiState → Prop) :
    wp (responseRevision env) s Q ↔ Q resp.revision s := by
  unfold responseRevision
  rw [hrsdp]
  exact wp_pure _ _ _

/-- One of the two pointers is the table, by the revision of the response, and the other `NULL`. -/
theorem wp_acpiGetRsdt (hrsdp : env.rsdp = some resp) (Q : Uptr → AcpiState → Prop) :
    wp (acpiGetRsdt env) s Q ↔ Q (if resp.revision < 2 then s.sdt else 0) s := by
  unfold acpiGetRsdt
  rw [wp_bind, wp_responseRevision hrsdp]
  split
  · rw [wp_bind, wp_get, wp_pure]
  · rw [wp_pure]

theorem wp_acpiGetXsdt (hrsdp : env.rsdp = some resp) (Q : Uptr → AcpiState → Prop) :
    wp (acpiGetXsdt env) s Q ↔ Q (if resp.revision < 2 then 0 else s.sdt) s := by
  unfold acpiGetXsdt
  rw [wp_bind, wp_responseRevision hrsdp]
  by_cases hrev : resp.revision < 2
  · rw [if_neg (BitVec.not_le.mpr hrev), if_pos hrev, wp_pure]
  · rw [if_pos (BitVec.not_lt.mp hrev), if_neg hrev, wp_bind, wp_get, wp_pure]

theorem wp_acpiCountEntries (hrsdp : env.rsdp = some resp) (hsdt : s.sdt ≠ 0)
    (Q : Usize → AcpiState → Prop) :
    wp (acpiCountEntries env) s Q ↔ Q (responseCount env.mem s.sdt (responseWidth resp)) s := by
  unfold acpiCountEntries
  rw [wp_bind, wp_acpiGetRsdt hrsdp, wp_bind, wp_acpiGetXsdt hrsdp]
  by_cases hrev : resp.revision < 2
  · rw [if_pos hrev, if_pos hrev, if_pos hsdt, wp_pure, responseWidth_lt hrev]
    rfl
  · rw [if_neg hrev, if_neg hrev, if_neg (fun h => h rfl), if_pos hsdt, wp_pure,
      responseWidth_ge hrev]
    rfl

/-- The read of entry `i`. -/
def entryRead (sdt : Uptr) (width i : Nat) : Nat × Nat := (sdt.toNat + 36 + width * i, width)

theorem wp_acpiGetEntry (hrsdp : env.rsdp = some resp) (hhhdm : env.hhdm = some offset)
    (hsdt : s.sdt ≠ 0) {i : Nat}
    (hi : i < (responseCount env.mem s.sdt (responseWidth resp)).toNat)
    (Q : Uptr → AcpiState → Prop) :
    wp (acpiGetEntry env i) s Q ↔
      Q (tableEntry env.mem s.sdt (responseWidth resp) i + offset)
        { s with reads := s.reads ++ [entryRead s.sdt (responseWidth resp) i] } := by
  unfold acpiGetEntry
  rw [wp_bind, wp_acpiCountEntries hrsdp hsdt, if_pos hi, wp_bind, wp_acpiGetRsdt hrsdp, wp_bind,
    wp_acpiGetXsdt hrsdp, wp_bind]
  by_cases hrev : resp.revision < 2
  · rw [if_pos hrev, if_pos hrev, if_pos hsdt, responseWidth_lt hrev]
    unfold readEntry32
    rw [wp_bind, wp_modify, wp_pure, wp_acpiP2v hhhdm]
    rfl
  · rw [if_neg hrev, if_neg hrev, if_neg (fun h => h rfl), if_pos hsdt, responseWidth_ge hrev]
    unfold readEntry64
    rw [wp_bind, wp_modify, wp_pure, wp_acpiP2v hhhdm]
    rfl

/-- From entry `i` on, the first match is found, and the entries read are `i`, `i + 1`, ... -/
theorem wp_acpiFindLoop (hrsdp : env.rsdp = some resp) (hhhdm : env.hhdm = some offset)
    (hsdt : s.sdt ≠ 0) (signature : U32) {left i : Nat}
    (hcount : i + left ≤ (responseCount env.mem s.sdt (responseWidth resp)).toNat) :
    wp (acpiFindLoop env signature left i) s fun p t =>
      p = firstTable env signature
        (tablesFrom env.mem s.sdt offset (responseWidth resp) i left) ∧
      ∃ n, n ≤ left ∧
        t.reads = s.reads ++ (List.range' i n).map (entryRead s.sdt (responseWidth resp)) := by
  induction left generalizing s i with
  | zero => exact (wp_pure _ _ _).mpr ⟨rfl, 0, Nat.le_refl _, (List.append_nil _).symm⟩
  | succ left ih =>
      rw [acpiFindLoop, wp_bind, wp_acpiGetEntry hrsdp hhhdm hsdt (by omega)]
      unfold tablesFrom firstTable
      rw [List.range'_succ, List.map_cons, List.find?_cons]
      split
      · rename_i hmatch
        rw [wp_pure, hmatch]
        exact ⟨rfl, 1, by omega, rfl⟩
      · rename_i hmatch
        rw [Bool.not_eq_true] at hmatch
        rw [hmatch]
        have hrest : i + 1 + left ≤
            (responseCount env.mem s.sdt (responseWidth resp)).toNat := by omega
        refine wp_mono (@ih { s with reads := s.reads ++ [entryRead s.sdt _ i] } hsdt (i + 1)
          hrest) ?_
        rintro p t ⟨hp, n, hn, hreads⟩
        refine ⟨hp, n + 1, by omega, ?_⟩
        rw [hreads, List.range'_succ, List.map_cons, List.append_assoc]
        rfl

/-- Without a direct map no table is found. -/
theorem ends_acpiFindLoop_none (hnone : env.hhdm = none) (signature : U32) (left i : Nat) :
    ends (acpiFindLoop env signature left i) s (fun p _ => p = 0) fun _ => True := by
  induction left generalizing s i with
  | zero => exact rfl
  | succ left ih =>
      have hentry : ends (acpiGetEntry env i) s (fun p _ => p = 0) fun _ => True := by
        refine ends_bind_last fun count t => ?_
        split
        · refine ends_bind_last fun rsdt t => ends_bind_last fun xsdt t =>
            ends_bind_last fun pa t => ?_
          unfold acpiP2v
          rw [hnone]
          exact trivial
        · exact rfl
      rw [acpiFindLoop, ends_bind]
      refine ends_mono hentry ?_ fun _ _ => trivial
      rintro p t rfl
      exact ih _

theorem acpiFind_hhdm {signature : U32} {p : Uptr} {t : AcpiState}
    (hfind : acpiFind env signature s = .ok (p, t)) (hp : p ≠ 0) :
    ∃ offset, env.hhdm = some offset := by
  cases hhhdm : env.hhdm with
  | some offset => exact ⟨offset, rfl⟩
  | none =>
      have hends : ends (acpiFind env signature) s (fun p _ => p = 0) fun _ => True :=
        ends_bind_last fun count t => ends_acpiFindLoop_none hhhdm signature count.toNat 0
      exact absurd ((ends_of_eq hfind).mp hends) hp

theorem toNat_responseCount (m : Mem) (sdt : Uptr) {width : Nat} (hwidth : width < 2 ^ 64) :
    (responseCount m sdt width).toNat =
      ((sdtLength m sdt).toNat + (2 ^ 64 - 36)) % 2 ^ 64 / width := by
  have hext : ((sdtLength m sdt).setWidth 64).toNat = (sdtLength m sdt).toNat := by
    rw [BitVec.toNat_setWidth]
    have hlt : (sdtLength m sdt).toNat < 2 ^ 32 := (sdtLength m sdt).isLt
    omega
  have hhdr : SIZEOF_ACPI_SDT_HDR.toNat = 36 := rfl
  unfold responseCount
  rw [BitVec.toNat_udiv, ofNat_toNat_lt hwidth, BitVec.toNat_sub, hext, hhdr, Nat.add_comm]

/-- With `length - 36` where the table has a whole header. -/
theorem toNat_responseCount_whole {m : Mem} {sdt : Uptr} {width : Nat} (hwidth : width < 2 ^ 64)
    (hlen : 36 ≤ (sdtLength m sdt).toNat) :
    (responseCount m sdt width).toNat = ((sdtLength m sdt).toNat - 36) / width := by
  have hlt : (sdtLength m sdt).toNat < 2 ^ 32 := (sdtLength m sdt).isLt
  rw [toNat_responseCount m sdt hwidth, show ((sdtLength m sdt).toNat + (2 ^ 64 - 36)) % 2 ^ 64 =
    (sdtLength m sdt).toNat - 36 by omega]

theorem responseWidth_cases (resp : RsdpResponse) :
    responseWidth resp = 4 ∧ ¬ 2 ≤ resp.revision ∨
      responseWidth resp = 8 ∧ 2 ≤ resp.revision := by
  by_cases hrev : resp.revision < 2
  · exact .inl ⟨responseWidth_lt hrev, BitVec.not_le.mpr hrev⟩
  · exact .inr ⟨responseWidth_ge hrev, BitVec.not_lt.mp hrev⟩

theorem rootWidth_cases (m : Mem) (sdt : Uptr) :
    rootWidth m sdt = 4 ∧ acpiSignature m sdt.toNat ≠ ACPI_SIG_XSDT ∨
      rootWidth m sdt = 8 ∧ acpiSignature m sdt.toNat = ACPI_SIG_XSDT := by
  by_cases hsig : acpiSignature m sdt.toNat = ACPI_SIG_XSDT
  · exact .inr ⟨if_pos hsig, hsig⟩
  · exact .inl ⟨if_neg hsig, hsig⟩

theorem responseWidth_eq_rootWidth : responseWidth resp = rootWidth env.mem s.sdt ↔
    (2 ≤ resp.revision ↔ acpiSignature env.mem s.sdt.toNat = ACPI_SIG_XSDT) := by
  obtain ⟨hw, hrev⟩ | ⟨hw, hrev⟩ := responseWidth_cases resp
  · obtain ⟨hr, hsig⟩ | ⟨hr, hsig⟩ := rootWidth_cases env.mem s.sdt
    · exact iff_of_true (hw.trans hr.symm) (iff_of_false hrev hsig)
    · rw [hw, hr]
      exact iff_of_false (by decide) fun h => hrev (h.mpr hsig)
  · obtain ⟨hr, hsig⟩ | ⟨hr, hsig⟩ := rootWidth_cases env.mem s.sdt
    · rw [hw, hr]
      exact iff_of_false (by decide) fun h => hsig (h.mp hrev)
    · exact iff_of_true (hw.trans hr.symm) (iff_of_true hrev hsig)

theorem rootCount_short {m : Mem} {sdt : Uptr} (hshort : (sdtLength m sdt).toNat < 40) :
    rootCount m sdt = 0 := by
  have hcases := rootWidth_cases m sdt
  exact Nat.div_eq_of_lt (by omega)

/-- The code takes the count of the table where it takes its width, or there is no entry. -/
theorem responseCount_eq_rootCount (hlen : 36 ≤ (sdtLength env.mem s.sdt).toNat)
    (hwidth : responseWidth resp = rootWidth env.mem s.sdt ∨
      (sdtLength env.mem s.sdt).toNat < 40) :
    (responseCount env.mem s.sdt (responseWidth resp)).toNat = rootCount env.mem s.sdt := by
  have hcases := responseWidth_cases resp
  rw [toNat_responseCount_whole (by omega) hlen]
  obtain hsame | hshort := hwidth
  · rw [hsame]
    rfl
  · rw [rootCount_short hshort]
    exact Nat.div_eq_of_lt (by omega)

/-- Where the code takes another count than the table has, or the same with another width. -/
theorem width_of_responseCount
    (hcount : (responseCount env.mem s.sdt (responseWidth resp)).toNat = rootCount env.mem s.sdt) :
    36 ≤ (sdtLength env.mem s.sdt).toNat ∧ (responseWidth resp = rootWidth env.mem s.sdt ∨
      (sdtLength env.mem s.sdt).toNat < 40) := by
  have hlt : (sdtLength env.mem s.sdt).toNat < 2 ^ 32 := (sdtLength env.mem s.sdt).isLt
  unfold rootCount at hcount
  obtain ⟨hw, -⟩ | ⟨hw, -⟩ := responseWidth_cases resp
  all_goals
    obtain ⟨hr, -⟩ | ⟨hr, -⟩ := rootWidth_cases env.mem s.sdt
    all_goals
      rw [toNat_responseCount _ _ (by omega), hw, hr] at hcount
      omega

end Find

/-- **When the search is one through the root table**: the revision of the bootloader's response
    and the signature of the table tell the same width, or the table has no entry of either width;
    and the table is not cut off inside of its header. -/
theorem acpiFinds_iff {env : AcpiEnv} {resp : RsdpResponse} {offset : U64} {s₀ s : AcpiState}
    (hrsdp : env.rsdp = some resp) (hhhdm : env.hhdm = some offset)
    (hload : acpiLoad env s₀ = .ok ((), s)) :
    AcpiFinds env s offset ↔
      36 ≤ (sdtLength env.mem s.sdt).toNat ∧
        ((2 ≤ resp.revision ↔ acpiSignature env.mem s.sdt.toNat = ACPI_SIG_XSDT) ∨
          (sdtLength env.mem s.sdt).toNat < 40) := by
  have hsdt := acpiLoad_sdt hload
  rw [← responseWidth_eq_rootWidth]
  refine ⟨fun h => ?_, fun ⟨hlen, hwidth⟩ => ⟨?_, fun signature => ?_⟩⟩
  · exact width_of_responseCount ((wp_acpiCountEntries hrsdp hsdt _).mp h.count).1
  · rw [wp_acpiCountEntries hrsdp hsdt]
    exact ⟨responseCount_eq_rootCount hlen hwidth, rfl⟩
  · have hcount := responseCount_eq_rootCount hlen hwidth
    unfold acpiFind
    rw [wp_bind, wp_acpiCountEntries hrsdp hsdt, hcount]
    refine wp_mono (wp_acpiFindLoop hrsdp hhhdm hsdt signature (by omega)) ?_
    rintro p t ⟨hp, n, hn, hreads⟩
    have hsame : rootCount env.mem s.sdt = 0 ∨ responseWidth resp = rootWidth env.mem s.sdt :=
      (hwidth.imp_right rootCount_short).symm
    refine ⟨?_, _, hreads, fun r hr => ?_⟩
    · rw [hp]
      unfold rootTables
      obtain hzero | hsame := hsame
      · rw [hzero]
        rfl
      · rw [hsame]
    · obtain ⟨i, hi, rfl⟩ := List.mem_map.mp hr
      rw [List.mem_range'_1] at hi
      have hsame : responseWidth resp = rootWidth env.mem s.sdt :=
        hsame.resolve_left (by omega)
      unfold entryRead
      rw [hsame]
      have hlast : rootWidth env.mem s.sdt * (i + 1) ≤ (sdtLength env.mem s.sdt).toNat - 36 :=
        calc rootWidth env.mem s.sdt * (i + 1)
            ≤ rootWidth env.mem s.sdt * rootCount env.mem s.sdt :=
              Nat.mul_le_mul_left _ (by omega)
          _ ≤ (sdtLength env.mem s.sdt).toNat - 36 := Nat.mul_div_le _ _
      rw [Nat.mul_succ] at hlast
      exact ⟨Nat.le_add_right _ _, by dsimp only; omega⟩

/-! ## 5. A machine with one table above 4 GiB -/

/-- `bytes` at `a`, and the rest of `m`. -/
def withBytes (m : Mem) (a : Nat) (bytes : List U8) : Mem := fun i =>
  if a ≤ i ∧ i < a + bytes.length then bytes.getD (i - a) 0 else m i

/-- An RSDP of revision 2 at 0x1000, an XSDT of one entry at 0x2000 and a MADT at 0x100003000, the
    last two at these physical addresses. -/
def highTables : Mem :=
  let rsdp : List U8 := [0x52, 0x53, 0x44, 0x20, 0x50, 0x54, 0x52, 0x20, 0x5a, 0x4f, 0x45, 0x4d,
    0x20, 0x20, 0x20, 2, 0, 0, 0, 0, 36, 0, 0, 0, 0, 0x20]
  let xsdt : List U8 := [0x58, 0x53, 0x44, 0x54, 44, 0, 0, 0, 1, 0x5f]
  let entries : List U8 := [0, 0x30, 0, 0, 1]
  let madt : List U8 := [0x41, 0x50, 0x49, 0x43, 36, 0, 0, 0, 1, 0xbe]
  withBytes (withBytes (withBytes (withBytes (fun _ => 0) 0x1000 rsdp) 0xffff800000002000 xsdt)
    0xffff800000002024 entries) 0xffff800100003000 madt

/-- The machine, with the revision that the bootloader tells. -/
def highMachine (revision : U64) : AcpiEnv where
  mem := highTables
  rsdp := some ⟨revision, 0x1000⟩
  hhdm := some 0xffff800000000000

theorem acpiFinds_iff_same :
    AcpiFinds (highMachine 2) ⟨0xffff800000002000, []⟩ 0xffff800000000000 :=
  (@acpiFinds_iff (highMachine 2) _ _ ⟨0, []⟩ _ rfl rfl rfl).mpr
    ⟨by decide +kernel, .inl (by decide +kernel)⟩

/-- A bootloader that tells revision 0 makes the code read the entry as two addresses of 32 bits. -/
theorem acpiFinds_iff_narrow :
    acpiLoad (highMachine 0) ⟨0, []⟩ = .ok ((), ⟨0xffff800000002000, []⟩) ∧
      ¬ AcpiFinds (highMachine 0) ⟨0xffff800000002000, []⟩ 0xffff800000000000 := by
  refine ⟨rfl, fun h => ?_⟩
  have hrun : acpiFind (highMachine 0) (acpiSig32 0x41 0x50 0x49 0x43) ⟨0xffff800000002000, []⟩ =
      .ok (0, ⟨0xffff800000002000, [(0xffff800000002024, 4), (0xffff800000002028, 4)]⟩) := rfl
  have hfound : (0 : Uptr) = firstTable (highMachine 0) (acpiSig32 0x41 0x50 0x49 0x43)
      (rootTables highTables 0xffff800000002000 0xffff800000000000) :=
    ((wp_of_eq hrun).mp (h.find _)).1
  exact absurd hfound (by decide +kernel)

end Slightx
