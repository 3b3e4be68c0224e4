/-
  File:      Slightx/Proc/SpawnChecks.lean
  Subject:   What `sysc_spawn` reads of its caller.

  Sources: kernel/proc/syscall.c, kernel/proc/spawn.c (`spawn_user_task`), kernel/proc/task.c,
  klibc/mem/span.c.

  The memory of the caller is `umem`, and the state is the log of what was read of it. The fields
  of the startup information are logged once for each function that uses them, and the length of a
  string once for each loop. `spawnReads` goes on to the end of the copies; a call that is stopped
  on the way, by an allocator without memory, has read a part of it.

  * `isUserRangeOk_iff` -- the check of a range, without wrap-around
  * `ends_spawnChecks` -- what a call that passes the checks has read, and what it may rely on
  * `initStartup_reads` -- `task_init` makes the same of two memories that agree on what is logged
  * `spawnReads_iff` -- a call that passes the checks reads nothing but user memory, unless a count
    is so large that its product with the size of a string is taken modulo 2 ^ 64
-/
import Slightx.Proc.Syscall
import Slightx.Proc.TaskInit

namespace Slightx

open Lib

/-! ## 1. The checks -/

/-- A read of `size` bytes. -/
structure UserRead where
  addr : Uptr
  size : Nat
  deriving DecidableEq, Repr

/-- The reads so far, the last one first. -/
abbrev ReadLog := List UserRead

def readUser (addr : Uptr) (size : Nat) : Prog Fault ReadLog Unit :=
  modify fun log => ⟨addr, size⟩ :: log

section Reads

variable (umem : Mem)

def readUser64 (addr : Uptr) : Prog Fault ReadLog U64 := do
  readUser addr 8
  return load64 umem addr.toNat

/-- `items` and `count` of one of the lists. -/
def readStrv (v : Uptr) : Prog Fault ReadLog Strv := do
  let items ← readUser64 umem v
  let count ← readUser64 umem (v + 8)
  return { items, count }

/-- The loops of `sysc_spawn`. -/
def checkStrs (v : Strv) : Prog Fault ReadLog Bool :=
  forUpWhile v.count.toNat fun i => do
    let data ← readUser64 umem (strAddr v.items i)
    let length ← readUser64 umem (strAddr v.items i + 8)
    return isUserRangeOk data length

/-- The checks of `sysc_spawn`: `false` where it answers `-EFAULT`. -/
def spawnChecks (data : Uptr) (len : Usize) (info : Uptr) : Prog Fault ReadLog Bool := do
  if !isUserPtrOk data len then return false
  else if info = 0 then return true
  else if !isUserPtrOk info SIZEOF_STARTUP_INFO then return false
  else do
    let args ← readStrv umem info
    if !isUserPtrOk args.items (args.count * SIZEOF_STR) then return false
    else do
      let envvars ← readStrv umem (info + 16)
      if !isUserPtrOk envvars.items (envvars.count * SIZEOF_STR) then return false
      else do
        if ← checkStrs umem args then checkStrs umem envvars else return false

/-! ## 2. What follows -/

/-- `make_const_span`, and the copy of the binary page by page. -/
def readBinary (data : Uptr) (len : Usize) : Prog Fault ReadLog Unit := do
  let binary ← makeConstSpan data len
  let binPageCount := (binary.size + MM_VIRT_PAGE_SIZE - 1) / MM_VIRT_PAGE_SIZE
  forUp binPageCount.toNat fun i => do
    let offset := BitVec.ofNat 64 i * MM_VIRT_PAGE_SIZE
    let copyLen := binary.size - offset
    let copyLen := if MM_VIRT_PAGE_SIZE < copyLen then MM_VIRT_PAGE_SIZE else copyLen
    readUser (binary.data + offset) copyLen.toNat

/-- The reads of a loop of `task_user_startup_info__get_size`. -/
def readLengths (v : Strv) : Prog Fault ReadLog Unit :=
  forUp v.count.toNat fun i => readUser (strAddr v.items i + 8) 8

/-- The reads of a loop of `task_init` over the strings. -/
def readStrs (v : Strv) : Prog Fault ReadLog Unit :=
  forUp v.count.toNat fun i => do
    let length ← readUser64 umem (strAddr v.items i + 8)
    let data ← readUser64 umem (strAddr v.items i)
    readUser data length.toNat

/-- What `task_init` reads for the startup data. -/
def readStartup (info : Uptr) : Prog Fault ReadLog Unit := do
  let args ← readStrv umem info
  let envvars ← readStrv umem (info + 16)
  readLengths args
  readLengths envvars
  readStrs umem args
  readStrs umem envvars

/-- The reads of `spawn_user_task`. -/
def spawnReads (data : Uptr) (len : Usize) (info : Uptr) : Prog Fault ReadLog Unit := do
  readBinary data len
  if info = 0 then return else readStartup umem info

end Reads

/-! ## 3. Ranges -/

/-- All of the bytes are user memory. -/
def UserBytes (addr n : Nat) : Prop := ∀ j, j < n → addr + j < USER_VA_END.toNat

/-- Nothing but user memory was read. -/
def UserOnly (log : ReadLog) : Prop := ∀ r ∈ log, UserBytes r.addr.toNat r.size

theorem isUserRangeOk_iff (addr len : U64) :
    isUserRangeOk addr len = true ↔ len = 0 ∨ addr.toNat + len.toNat ≤ 2 ^ 47 := by
  have hend : USER_VA_END.toNat = 2 ^ 47 := rfl
  have haddr := addr.isLt
  have hlen := len.isLt
  have hsum : (addr + len).toNat = (addr.toNat + len.toNat) % 2 ^ 64 := BitVec.toNat_add addr len
  unfold isUserRangeOk
  by_cases h0 : len = 0
  · rw [if_pos h0]
    exact ⟨fun _ => Or.inl h0, fun _ => rfl⟩
  · have hpos : len.toNat ≠ 0 := fun h => h0 (BitVec.eq_of_toNat_eq h)
    rw [if_neg h0]
    by_cases hwrap : addr + len < addr
    · rw [if_pos hwrap]
      rw [BitVec.lt_def, hsum] at hwrap
      exact iff_of_false nofun fun h => h.elim h0 fun h => by omega
    · rw [if_neg hwrap]
      rw [BitVec.lt_def, hsum] at hwrap
      by_cases hlast : USER_VA_END < addr + len
      · rw [if_pos hlast]
        rw [BitVec.lt_def, hsum, hend] at hlast
        exact iff_of_false nofun fun h => h.elim h0 fun h => by omega
      · rw [if_neg hlast]
        rw [BitVec.lt_def, hsum, hend] at hlast
        exact iff_of_true rfl (Or.inr (by omega))

/-- A checked range is user memory. -/
theorem userBytes_of_ok {addr len : U64} (h : isUserRangeOk addr len = true) :
    UserBytes addr.toNat len.toNat := by
  have hend : USER_VA_END.toNat = 2 ^ 47 := rfl
  intro j hj
  rcases (isUserRangeOk_iff addr len).mp h with rfl | hle
  · exact absurd hj (Nat.not_lt_zero j)
  · omega

/-- The product with the size of a string is exact. -/
def CountFits (v : Strv) : Prop := v.count.toNat < 2 ^ 59

/-- The array was checked, and so were the strings. -/
structure StrvChecked (umem : Mem) (v : Strv) : Prop where
  items : isUserRangeOk v.items (v.count * SIZEOF_STR) = true
  strs : ∀ i, i < v.count.toNat → isUserRangeOk (strData umem v i) (strLength umem v i) = true

section Strv

variable {umem : Mem} {v : Strv} {i : Nat}

theorem toNat_arrayBytes (hfits : CountFits v) :
    (v.count * SIZEOF_STR).toNat = 32 * v.count.toNat := by
  unfold CountFits at hfits
  rw [BitVec.toNat_mul, show SIZEOF_STR.toNat = 32 from rfl]
  omega

/-- Where the product is exact, each string is in the array that was checked. -/
theorem strAddr_checked (h : isUserRangeOk v.items (v.count * SIZEOF_STR) = true)
    (hfits : CountFits v) (hi : i < v.count.toNat) :
    (strAddr v.items i).toNat = v.items.toNat + 32 * i ∧
      (strAddr v.items i).toNat + 32 ≤ 2 ^ 47 := by
  have hbytes := toNat_arrayBytes hfits
  have hle : v.items.toNat + 32 * v.count.toNat ≤ 2 ^ 47 := by
    rcases (isUserRangeOk_iff _ _).mp h with h0 | hle
    · rw [h0] at hbytes
      change 0 = _ at hbytes
      omega
    · rw [hbytes] at hle
      exact hle
  have hto : (strAddr v.items i).toNat = v.items.toNat + 32 * i := by
    unfold strAddr
    rw [BitVec.toNat_add, BitVec.toNat_mul, BitVec.toNat_ofNat, show SIZEOF_STR.toNat = 32 from rfl]
    omega
  exact ⟨hto, by omega⟩

/-- The words of a string that are read. -/
theorem userBytes_str (h : isUserRangeOk v.items (v.count * SIZEOF_STR) = true)
    (hfits : CountFits v) (hi : i < v.count.toNat) :
    UserBytes (strAddr v.items i).toNat 8 ∧ UserBytes (strAddr v.items i + 8).toNat 8 := by
  have hend : USER_VA_END.toNat = 2 ^ 47 := rfl
  obtain ⟨-, hle⟩ := strAddr_checked h hfits hi
  have h8 : (strAddr v.items i + 8).toNat = (strAddr v.items i).toNat + 8 := by
    rw [BitVec.toNat_add, show (8 : U64).toNat = 8 from rfl]
    omega
  exact ⟨fun j hj => by omega, fun j hj => by omega⟩

/-- A count too large goes all around: some string is beyond user memory. -/
theorem strAddr_around (hbig : ¬ CountFits v) :
    ∃ i, i < v.count.toNat ∧ USER_VA_END.toNat ≤ (strAddr v.items i).toNat := by
  have hend : USER_VA_END.toNat = 2 ^ 47 := rfl
  unfold CountFits at hbig
  have hitems := v.items.isLt
  by_cases hlow : v.items.toNat < 2 ^ 63
  · refine ⟨2 ^ 58, by omega, ?_⟩
    unfold strAddr
    rw [BitVec.toNat_add, BitVec.toNat_mul, BitVec.toNat_ofNat, show SIZEOF_STR.toNat = 32 from rfl]
    omega
  · refine ⟨0, by omega, ?_⟩
    unfold strAddr
    rw [BitVec.toNat_add, BitVec.toNat_mul, BitVec.toNat_ofNat, show SIZEOF_STR.toNat = 32 from rfl]
    omega

end Strv

/-! ## 4. Programs that read user memory only -/

/-- As long as the program runs, nothing but user memory is read. -/
def OnlyUser {α : Type} (x : Prog Fault ReadLog α) : Prop :=
  ∀ log, UserOnly log → ends x log (fun _ log' => UserOnly log') fun _ => True

section OnlyUser

variable {α β : Type} {umem : Mem} {v : Strv} {addr data info : Uptr} {len : Usize} {n : Nat}

theorem onlyUser_pure (a : α) : OnlyUser (pure a) := fun _ h => h

theorem onlyUser_bind {x : Prog Fault ReadLog α} {f : α → Prog Fault ReadLog β} (hx : OnlyUser x)
    (hf : ∀ a, OnlyUser (f a)) : OnlyUser (x >>= f) := by
  intro log h
  rw [ends_bind]
  exact ends_mono (hx log h) (fun a log' h' => hf a log' h') fun _ _ => trivial

theorem onlyUser_read (h : UserBytes addr.toNat n) : OnlyUser (readUser addr n) := by
  intro log hlog r hr
  rcases List.mem_cons.mp hr with rfl | hr
  · exact h
  · exact hlog r hr

theorem readUser64_bind (f : U64 → Prog Fault ReadLog α) :
    (readUser64 umem addr >>= f) = (readUser addr 8 >>= fun _ => f (load64 umem addr.toNat)) := rfl

/-- A word that is read is the word in memory. -/
theorem onlyUser_read64 {f : U64 → Prog Fault ReadLog α} (h : UserBytes addr.toNat 8)
    (hf : OnlyUser (f (load64 umem addr.toNat))) : OnlyUser (readUser64 umem addr >>= f) := by
  rw [readUser64_bind]
  exact onlyUser_bind (onlyUser_read h) fun _ => hf

theorem onlyUser_forUp {body : Nat → Prog Fault ReadLog Unit}
    (h : ∀ i, i < n → OnlyUser (body i)) : OnlyUser (forUp n body) :=
  fun _ hlog => ends_forUp (fun _ log => UserOnly log) hlog fun i log hi hlog => h i hi log hlog

theorem onlyUser_forUpWhile {body : Nat → Prog Fault ReadLog Bool}
    (h : ∀ i, i < n → OnlyUser (body i)) : OnlyUser (forUpWhile n body) := by
  intro log hlog
  have hsame : ∀ (b : Bool) (t : ReadLog),
      (if b = true then UserOnly t else UserOnly t) ↔ UserOnly t :=
    fun b t => by rw [ite_self]
  have hloop : ends (forUpWhile n body) log
      (fun b t => if b = true then UserOnly t else UserOnly t) fun _ => True :=
    ends_forUpWhile (fun _ log => UserOnly log) UserOnly hlog fun i t hi ht =>
      ends_mono (h i hi t ht) (fun b log' h' => (hsame b log').mpr h') fun _ _ => trivial
  exact ends_mono hloop (fun b log' h' => (hsame b log').mp h') fun _ _ => trivial

theorem onlyUser_constSpan {f : Span → Prog Fault ReadLog α} (hf : OnlyUser (f ⟨data, len⟩)) :
    OnlyUser (makeConstSpan data len >>= f) := by
  intro log h
  unfold makeConstSpan assert
  split
  · exact hf log h
  · trivial

/-- The fields of the startup information are behind a checked pointer. -/
theorem userBytes_info (h : isUserRangeOk info SIZEOF_STARTUP_INFO = true) {k : Uptr}
    (hk : k.toNat + 8 ≤ 32) : UserBytes (info + k).toNat 8 := by
  have hend : USER_VA_END.toNat = 2 ^ 47 := rfl
  have hsize : SIZEOF_STARTUP_INFO.toNat = 32 := rfl
  rcases (isUserRangeOk_iff _ _).mp h with h0 | hle
  · exact absurd h0 (by decide)
  · rw [hsize] at hle
    have hto : (info + k).toNat = info.toNat + k.toNat := by
      rw [BitVec.toNat_add]
      omega
    intro j hj
    omega

theorem userBytes_first (h : isUserRangeOk info SIZEOF_STARTUP_INFO = true) :
    UserBytes info.toNat 8 := by
  have hzero := userBytes_info h (show (0 : Uptr).toNat + 8 ≤ 32 by decide)
  rwa [show info + 0 = info from BitVec.add_zero info] at hzero

theorem onlyUser_readStrv {f : Strv → Prog Fault ReadLog α} (h : UserBytes addr.toNat 8)
    (h' : UserBytes (addr + 8).toNat 8)
    (hf : OnlyUser (f ⟨load64 umem addr.toNat, load64 umem (addr + 8).toNat⟩)) :
    OnlyUser (readStrv umem addr >>= f) := by
  have heq : (readStrv umem addr >>= f) = (readUser64 umem addr >>= fun items =>
      readUser64 umem (addr + 8) >>= fun count => f ⟨items, count⟩) := rfl
  rw [heq]
  exact onlyUser_read64 h (onlyUser_read64 h' hf)

theorem onlyUser_checkStrs (h : isUserRangeOk v.items (v.count * SIZEOF_STR) = true)
    (hfits : CountFits v) : OnlyUser (checkStrs umem v) :=
  onlyUser_forUpWhile fun _ hi =>
    onlyUser_read64 (userBytes_str h hfits hi).1
      (onlyUser_read64 (userBytes_str h hfits hi).2 (onlyUser_pure _))

theorem onlyUser_readLengths (h : StrvChecked umem v) (hfits : CountFits v) :
    OnlyUser (readLengths v) :=
  onlyUser_forUp fun _ hi => onlyUser_read (userBytes_str h.items hfits hi).2

theorem onlyUser_readStrs (h : StrvChecked umem v) (hfits : CountFits v) :
    OnlyUser (readStrs umem v) :=
  onlyUser_forUp fun i hi =>
    onlyUser_read64 (userBytes_str h.items hfits hi).2
      (onlyUser_read64 (userBytes_str h.items hfits hi).1
        (onlyUser_read (userBytes_of_ok (h.strs i hi))))

/-- **The binary**: its pages are pieces of the checked range. -/
theorem onlyUser_readBinary (h : isUserRangeOk data len = true) :
    OnlyUser (readBinary data len) := by
  have hend : USER_VA_END.toNat = 2 ^ 47 := rfl
  have hpage : MM_VIRT_PAGE_SIZE.toNat = 4096 := rfl
  refine onlyUser_constSpan (onlyUser_forUp fun i hi => onlyUser_read ?_)
  dsimp only at hi ⊢
  rcases (isUserRangeOk_iff _ _).mp h with rfl | hle
  · exact absurd hi (by decide +revert)
  · rw [BitVec.toNat_udiv, hpage] at hi
    have hround : (len + MM_VIRT_PAGE_SIZE - 1).toNat = len.toNat + 4095 := by
      rw [BitVec.toNat_sub, BitVec.toNat_add, hpage, show (1 : U64).toNat = 1 from rfl]
      omega
    rw [hround] at hi
    have hoff : (BitVec.ofNat 64 i * MM_VIRT_PAGE_SIZE).toNat = i * 4096 := by
      rw [BitVec.toNat_mul, BitVec.toNat_ofNat, hpage]
      omega
    have hdata : (data + BitVec.ofNat 64 i * MM_VIRT_PAGE_SIZE).toNat = data.toNat + i * 4096 := by
      rw [BitVec.toNat_add, hoff]
      omega
    have hrest : (len - BitVec.ofNat 64 i * MM_VIRT_PAGE_SIZE).toNat = len.toNat - i * 4096 := by
      rw [BitVec.toNat_sub, hoff]
      omega
    rw [hdata]
    intro j hj
    split at hj
    · rename_i hlt
      rw [BitVec.lt_def, hrest, hpage] at hlt
      rw [hpage] at hj
      omega
    · rw [hrest] at hj
      omega

end OnlyUser

/-! ## 5. What the checks ensure -/

/-- Startup information that passes the checks. -/
structure InfoChecked (umem : Mem) (info : Uptr) (log : ReadLog) : Prop where
  range : isUserRangeOk info SIZEOF_STARTUP_INFO = true
  args : StrvChecked umem (startupInfoAt umem info).args
  envvars : StrvChecked umem (startupInfoAt umem info).envvars
  /-- every string of the lists was looked at -/
  argsRead : ∀ i, i < (startupInfoAt umem info).args.count.toNat →
    ⟨strAddr (startupInfoAt umem info).args.items i, 8⟩ ∈ log
  envvarsRead : ∀ i, i < (startupInfoAt umem info).envvars.count.toNat →
    ⟨strAddr (startupInfoAt umem info).envvars.items i, 8⟩ ∈ log

/-- A call that passes the checks. -/
structure SpawnChecked (umem : Mem) (data : Uptr) (len : Usize) (info : Uptr) (log : ReadLog) :
    Prop where
  binary : isUserRangeOk data len = true
  startup : info ≠ 0 → InfoChecked umem info log

/-- The loop that got to its end. -/
structure StrsRead (umem : Mem) (v : Strv) (n : Nat) (log log' : ReadLog) : Prop where
  ok : ∀ i, i < n → isUserRangeOk (strData umem v i) (strLength umem v i) = true
  read : ∀ i, i < n → ⟨strAddr v.items i, 8⟩ ∈ log'
  kept : ∀ r ∈ log, r ∈ log'

section Checked

variable {umem : Mem} {v : Strv} {data info : Uptr} {len : Usize} {log : ReadLog} {E : Fault → Prop}

theorem ends_checkStrs (v : Strv) (log : ReadLog) : ends (checkStrs umem v) log
    (fun ok log' => ok = true → StrsRead umem v v.count.toNat log log') E := by
  have hloop : ends (checkStrs umem v) log
      (fun ok log' => if ok = true then StrsRead umem v v.count.toNat log log' else True) E := by
    refine ends_forUpWhile (fun i log' => StrsRead umem v i log log') (fun _ => True)
      ⟨fun i hi => absurd hi (Nat.not_lt_zero i), fun i hi => absurd hi (Nat.not_lt_zero i),
        fun _ hr => hr⟩ fun i log' hi h => ?_
    show if isUserRangeOk (strData umem v i) (strLength umem v i) = true then
      StrsRead umem v (i + 1) log (⟨strAddr v.items i + 8, 8⟩ :: ⟨strAddr v.items i, 8⟩ :: log')
      else True
    split
    · rename_i hok
      refine ⟨fun j hj => ?_, fun j hj => ?_, fun r hr =>
        List.mem_cons_of_mem _ (List.mem_cons_of_mem _ (h.kept r hr))⟩
      · rcases Nat.lt_succ_iff_lt_or_eq.mp hj with hj | rfl
        · exact h.ok j hj
        · exact hok
      · rcases Nat.lt_succ_iff_lt_or_eq.mp hj with hj | rfl
        · exact List.mem_cons_of_mem _ (List.mem_cons_of_mem _ (h.read j hj))
        · exact List.mem_cons_of_mem _ List.mem_cons_self
    · trivial
  exact ends_mono hloop (fun ok log' h hok => by rwa [if_pos hok] at h) fun _ he => he

theorem ends_readStrv {α : Type} {addr : Uptr} {f : Strv → Prog Fault ReadLog α}
    {Q : α → ReadLog → Prop} : ends (readStrv umem addr >>= f) log Q E ↔
      ends (f ⟨load64 umem addr.toNat, load64 umem (addr + 8).toNat⟩)
        (⟨addr + 8, 8⟩ :: ⟨addr, 8⟩ :: log) Q E := Iff.rfl

theorem envvars_count (info : Uptr) : info + 16 + 8 = info + 24 := BitVec.add_assoc info 16 8

/-- The checks of the startup information. -/
theorem ends_checkInfo (hinfo : isUserPtrOk info SIZEOF_STARTUP_INFO = true) (log : ReadLog) :
    ends (do
      let args ← readStrv umem info
      if !isUserPtrOk args.items (args.count * SIZEOF_STR) then return false
      else do
        let envvars ← readStrv umem (info + 16)
        if !isUserPtrOk envvars.items (envvars.count * SIZEOF_STR) then return false
        else do
          if ← checkStrs umem args then checkStrs umem envvars else return false) log
      (fun ok log' => ok = true → InfoChecked umem info log') E := by
  rw [ends_readStrv]
  split
  · exact nofun
  · rename_i hargs
    rw [ends_readStrv, envvars_count]
    split
    · exact nofun
    · rename_i henvvars
      rw [Bool.not_eq_true, Bool.not_eq_false'] at hargs henvvars
      rw [ends_bind]
      refine ends_mono (ends_checkStrs _ _) (fun ok log₁ h₁ => ?_) fun _ he => he
      split
      · rename_i hok
        have h₁ := h₁ hok
        refine ends_mono (ends_checkStrs _ _) (fun ok log₂ h₂ hok₂ => ?_) fun _ he => he
        have h₂ := h₂ hok₂
        exact ⟨hinfo, ⟨hargs, h₁.ok⟩, ⟨henvvars, h₂.ok⟩, fun i hi => h₂.kept _ (h₁.read i hi),
          h₂.read⟩
      · exact nofun

/-- **A call that passes the checks.** -/
theorem ends_spawnChecks (log : ReadLog) : ends (spawnChecks umem data len info) log
    (fun ok log' => ok = true → SpawnChecked umem data len info log') E := by
  unfold spawnChecks
  split
  · exact nofun
  · rename_i hbinary
    rw [Bool.not_eq_true, Bool.not_eq_false'] at hbinary
    split
    · rename_i h0
      exact fun _ => ⟨hbinary, fun h => absurd h0 h⟩
    · split
      · exact nofun
      · rename_i hinfo
        rw [Bool.not_eq_true, Bool.not_eq_false'] at hinfo
        exact ends_mono (ends_checkInfo hinfo log) (fun _ _ h hok => ⟨hbinary, fun _ => h hok⟩)
          fun _ he => he

/-- The checks themselves, where the counts fit. -/
theorem onlyUser_spawnChecks (hfits : info ≠ 0 → CountFits (startupInfoAt umem info).args ∧
    CountFits (startupInfoAt umem info).envvars) : OnlyUser (spawnChecks umem data len info) := by
  unfold spawnChecks
  split
  · exact onlyUser_pure _
  · split
    · exact onlyUser_pure _
    · rename_i h0
      obtain ⟨hargsFit, henvvarsFit⟩ := hfits h0
      split
      · exact onlyUser_pure _
      · rename_i hinfo
        rw [Bool.not_eq_true, Bool.not_eq_false'] at hinfo
        refine onlyUser_readStrv (userBytes_first hinfo) (userBytes_info hinfo (by decide)) ?_
        split
        · exact onlyUser_pure _
        · rename_i hargs
          rw [Bool.not_eq_true, Bool.not_eq_false'] at hargs
          refine onlyUser_readStrv (userBytes_info hinfo (by decide)) ?_ ?_
          · rw [envvars_count]
            exact userBytes_info hinfo (by decide)
          · rw [envvars_count]
            split
            · exact onlyUser_pure _
            · rename_i henvvars
              rw [Bool.not_eq_true, Bool.not_eq_false'] at henvvars
              refine onlyUser_bind (onlyUser_checkStrs hargs hargsFit) fun ok => ?_
              split
              · exact onlyUser_checkStrs henvvars henvvarsFit
              · exact onlyUser_pure _

/-- What follows them. -/
theorem onlyUser_spawnReads (h : SpawnChecked umem data len info log)
    (hfits : info ≠ 0 → CountFits (startupInfoAt umem info).args ∧
      CountFits (startupInfoAt umem info).envvars) : OnlyUser (spawnReads umem data len info) := by
  refine onlyUser_bind (onlyUser_readBinary h.binary) fun _ => ?_
  split
  · exact onlyUser_pure _
  · rename_i h0
    obtain ⟨hargsFit, henvvarsFit⟩ := hfits h0
    have hinfo := h.startup h0
    refine onlyUser_readStrv (userBytes_first hinfo.range)
      (userBytes_info hinfo.range (by decide)) ?_
    refine onlyUser_readStrv (userBytes_info hinfo.range (by decide)) ?_ ?_
    · rw [envvars_count]
      exact userBytes_info hinfo.range (by decide)
    · rw [envvars_count]
      exact onlyUser_bind (onlyUser_readLengths hinfo.args hargsFit) fun _ =>
        onlyUser_bind (onlyUser_readLengths hinfo.envvars henvvarsFit) fun _ =>
          onlyUser_bind (onlyUser_readStrs hinfo.args hargsFit) fun _ =>
            onlyUser_readStrs hinfo.envvars henvvarsFit

end Checked

/-! ## 6. What `task_init` depends on -/

/-- The program returns, and its log has all that was logged and the reads `R`. -/
def LogsAll {α : Type} (x : Prog Fault ReadLog α) (R : UserRead → Prop) : Prop :=
  ∀ log, wp x log fun _ log' => ∀ r, r ∈ log ∨ R r → r ∈ log'

/-- Two memories agree on what is logged. -/
def AgreeOn (umem umem' : Mem) (log : ReadLog) : Prop :=
  ∀ r ∈ log, ∀ j, j < r.size → umem (r.addr.toNat + j) = umem' (r.addr.toNat + j)

section Agree

variable {α β : Type} {umem umem' : Mem} {v : Strv} {addr info : Uptr} {n : Nat} {log : ReadLog}
  {R S : UserRead → Prop}

theorem logs_bind {x : Prog Fault ReadLog α} {f : α → Prog Fault ReadLog β} (hx : LogsAll x R)
    (hf : ∀ a, LogsAll (f a) S) : LogsAll (x >>= f) fun r => R r ∨ S r := by
  intro log
  rw [wp_bind]
  refine wp_mono (hx log) fun a log₁ h₁ => wp_mono (hf a log₁) fun b log₂ h₂ r hr => ?_
  rcases hr with hr | hr | hr
  · exact h₂ r (Or.inl (h₁ r (Or.inl hr)))
  · exact h₂ r (Or.inl (h₁ r (Or.inr hr)))
  · exact h₂ r (Or.inr hr)

theorem logs_read (addr : Uptr) (n : Nat) : LogsAll (readUser addr n) fun r => r = ⟨addr, n⟩ := by
  intro log
  refine (wp_modify _ _ _).mpr fun r hr => ?_
  rcases hr with hr | rfl
  · exact List.mem_cons_of_mem _ hr
  · exact List.mem_cons_self

theorem logs_read64 {f : U64 → Prog Fault ReadLog α}
    (hf : LogsAll (f (load64 umem addr.toNat)) R) :
    LogsAll (readUser64 umem addr >>= f) fun r => r = ⟨addr, 8⟩ ∨ R r := by
  rw [readUser64_bind]
  exact logs_bind (logs_read addr 8) fun _ => hf

theorem logs_readStrv {f : Strv → Prog Fault ReadLog α}
    (hf : LogsAll (f ⟨load64 umem addr.toNat, load64 umem (addr + 8).toNat⟩) R) :
    LogsAll (readStrv umem addr >>= f) fun r => r = ⟨addr, 8⟩ ∨ r = ⟨addr + 8, 8⟩ ∨ R r :=
  logs_read64 (f := fun items => readUser64 umem (addr + 8) >>= fun count => f ⟨items, count⟩)
    (logs_read64 (f := fun count => f ⟨load64 umem addr.toNat, count⟩) hf)

theorem logs_forUp {body : Nat → Prog Fault ReadLog Unit} {R : Nat → UserRead → Prop}
    (h : ∀ i, i < n → LogsAll (body i) (R i)) :
    LogsAll (forUp n body) fun r => ∃ i, i < n ∧ R i r := by
  intro log
  refine wp_forUp (fun k log' => ∀ r, (r ∈ log ∨ ∃ i, i < k ∧ R i r) → r ∈ log') (fun r hr => ?_)
    fun k log₁ hk h₁ => wp_mono (h k hk log₁) fun _ log₂ h₂ r hr => ?_
  · rcases hr with hr | ⟨i, hi, -⟩
    · exact hr
    · exact absurd hi (Nat.not_lt_zero i)
  · rcases hr with hr | ⟨i, hi, hr⟩
    · exact h₂ r (Or.inl (h₁ r (Or.inl hr)))
    · rcases Nat.lt_succ_iff_lt_or_eq.mp hi with hi | rfl
      · exact h₂ r (Or.inl (h₁ r (Or.inr ⟨i, hi, hr⟩)))
      · exact h₂ r (Or.inr hr)

/-- What is read of a list: its strings, and their bytes. -/
def StrRead (umem : Mem) (v : Strv) (r : UserRead) : Prop :=
  ∃ i, i < v.count.toNat ∧ (r = ⟨strAddr v.items i + 8, 8⟩ ∨ r = ⟨strAddr v.items i, 8⟩ ∨
    r = ⟨strData umem v i, (strLength umem v i).toNat⟩)

theorem logs_readStrs (v : Strv) : LogsAll (readStrs umem v) (StrRead umem v) :=
  logs_forUp fun _ _ => logs_read64 (logs_read64 (logs_read _ _))

/-- What `task_init` reads for the startup data. -/
inductive StartupRead (umem : Mem) (info : Uptr) : UserRead → Prop where
  | items : StartupRead umem info ⟨info, 8⟩
  | count : StartupRead umem info ⟨info + 8, 8⟩
  | envItems : StartupRead umem info ⟨info + 16, 8⟩
  | envCount : StartupRead umem info ⟨info + 24, 8⟩
  | args {r : UserRead} (h : StrRead umem (startupInfoAt umem info).args r) :
      StartupRead umem info r
  | envvars {r : UserRead} (h : StrRead umem (startupInfoAt umem info).envvars r) :
      StartupRead umem info r

theorem logs_readStartup (info : Uptr) :
    LogsAll (readStartup umem info) (StartupRead umem info) := by
  have hlogs : LogsAll (readStartup umem info) _ :=
    logs_readStrv (logs_readStrv (logs_bind (logs_forUp fun _ _ => logs_read _ _) fun _ =>
      logs_bind (logs_forUp fun _ _ => logs_read _ _) fun _ =>
        logs_bind (logs_readStrs _) fun _ => logs_readStrs _))
  intro log
  refine wp_mono (hlogs log) fun _ log' h r hr => h r ?_
  rw [envvars_count]
  refine hr.imp_right fun hr => ?_
  cases hr with
  | items => exact Or.inl rfl
  | count => exact Or.inr (Or.inl rfl)
  | envItems => exact Or.inr (Or.inr (Or.inl rfl))
  | envCount => exact Or.inr (Or.inr (Or.inr (Or.inl rfl)))
  | args h => exact Or.inr (Or.inr (Or.inr (Or.inr (Or.inr (Or.inr (Or.inl h))))))
  | envvars h => exact Or.inr (Or.inr (Or.inr (Or.inr (Or.inr (Or.inr (Or.inr h))))))

theorem load64_agree (h : AgreeOn umem umem' log) (hr : ⟨addr, 8⟩ ∈ log) :
    load64 umem addr.toNat = load64 umem' addr.toNat :=
  load64_congr fun k hk => h _ hr k hk

/-- The lists of two memories that agree are copied alike. -/
structure SameStrs (umem umem' : Mem) (v : Strv) : Prop where
  data : ∀ i, i < v.count.toNat → strData umem v i = strData umem' v i
  length : ∀ i, i < v.count.toNat → strLength umem v i = strLength umem' v i
  bytes : ∀ i, i < v.count.toNat → ∀ j, j < (strLength umem v i).toNat →
    umem (strData umem v i + BitVec.ofNat 64 j).toNat =
      umem' (strData umem v i + BitVec.ofNat 64 j).toNat

theorem sameStrs_of_agree (h : AgreeOn umem umem' log) (huser : UserOnly log)
    (hr : ∀ r, StrRead umem v r → r ∈ log) : SameStrs umem umem' v := by
  have hend : USER_VA_END.toNat = 2 ^ 47 := rfl
  refine ⟨fun i hi => load64_agree h (hr _ ⟨i, hi, Or.inr (Or.inl rfl)⟩),
    fun i hi => load64_agree h (hr _ ⟨i, hi, Or.inl rfl⟩), fun i hi j hj => ?_⟩
  have hmem := hr _ ⟨i, hi, Or.inr (Or.inr rfl)⟩
  have hlow := huser _ hmem j hj
  have hto : (strData umem v i + BitVec.ofNat 64 j).toNat = (strData umem v i).toNat + j := by
    have hlt := (strLength umem v i).isLt
    rw [BitVec.toNat_add, BitVec.toNat_ofNat]
    dsimp only at hlow
    omega
  rw [hto]
  exact h _ hmem j hj

theorem strvSize_same (h : SameStrs umem umem' v) (total : Usize) :
    strvSize umem v total = strvSize umem' v total := by
  have hloop : ∀ n, n ≤ v.count.toNat →
      runUp n (fun i total => total + alignSizeUp (strLength umem v i) MAX_ALIGN) total =
        runUp n (fun i total => total + alignSizeUp (strLength umem' v i) MAX_ALIGN) total := by
    intro n hn
    induction n with
    | zero => rfl
    | succ n ih =>
        rw [runUp, runUp, ih (by omega), h.length n (by omega)]
  exact hloop _ (Nat.le_refl _)

theorem memcpyFrom_same (ndebug : Bool) (dst src : Uptr) {len : Usize}
    (h : ∀ j, j < len.toNat → umem (src + BitVec.ofNat 64 j).toNat =
      umem' (src + BitVec.ofNat 64 j).toNat) :
    memcpyFrom ndebug umem dst src len = memcpyFrom ndebug umem' dst src len := by
  unfold memcpyFrom
  rw [forUp_congr fun j hj => by rw [h j hj]]

theorem copyStr_same (ndebug : Bool) (pmap : PageMap) (h : SameStrs umem umem' v) (base : Uptr)
    {i : Nat} (hi : i < v.count.toNat) :
    copyStr ndebug pmap umem v base i = copyStr ndebug pmap umem' v base i := by
  have hcopy : ∀ dst, memcpyFrom ndebug umem dst (strData umem v i) (strLength umem v i) =
      memcpyFrom ndebug umem' dst (strData umem v i) (strLength umem v i) :=
    fun dst => memcpyFrom_same ndebug dst _ (h.bytes i hi)
  unfold copyStr
  simp only [hcopy, ← h.data i hi, ← h.length i hi]

theorem copyStrv_same (ndebug : Bool) (pmap : PageMap) (h : SameStrs umem umem' v) (items : Uptr) :
    copyStrv ndebug pmap umem v items = copyStrv ndebug pmap umem' v items := by
  have hloop : (fun base => forUp v.count.toNat (copyStr ndebug pmap umem v base)) =
      fun base => forUp v.count.toNat (copyStr ndebug pmap umem' v base) :=
    funext fun base => forUp_congr fun i hi => copyStr_same ndebug pmap h base hi
  exact congrArg (fun f => taskVaddrToPhys pmap items >>= f) hloop

theorem initStartup_same (ndebug pages1gb : Bool) (pmap : PageMap)
    (hinfo : startupInfoAt umem info = startupInfoAt umem' info)
    (hargs : SameStrs umem umem' (startupInfoAt umem info).args)
    (henvvars : SameStrs umem umem' (startupInfoAt umem info).envvars) :
    initStartup ndebug pages1gb pmap umem info = initStartup ndebug pages1gb pmap umem' info := by
  have hsize : taskUserStartupInfoGetSize umem (startupInfoAt umem info) =
      taskUserStartupInfoGetSize umem' (startupInfoAt umem info) := by
    unfold taskUserStartupInfoGetSize
    dsimp only
    rw [strvSize_same hargs, strvSize_same henvvars]
  have hcopy : copyStartupInfo ndebug pmap umem (startupInfoAt umem info) =
      copyStartupInfo ndebug pmap umem' (startupInfoAt umem info) := by
    unfold copyStartupInfo
    simp only [copyStrv_same ndebug pmap hargs, copyStrv_same ndebug pmap henvvars]
  unfold initStartup
  rw [← hinfo]
  dsimp only
  rw [hsize, hcopy]

/-- **The log is complete**: `task_init` makes the same of two memories that agree on it. -/
theorem initStartup_reads (ndebug pages1gb : Bool) (pmap : PageMap) (umem : Mem) (info : Uptr) :
    ∃ log, readStartup umem info [] = .ok ((), log) ∧
      ∀ umem', UserOnly log → AgreeOn umem umem' log →
        initStartup ndebug pages1gb pmap umem info =
          initStartup ndebug pages1gb pmap umem' info := by
  obtain ⟨_, log, hrun, hlog⟩ := @logs_readStartup umem info []
  have hread : ∀ r, StartupRead umem info r → r ∈ log := fun r hr => hlog r (Or.inr hr)
  refine ⟨log, hrun, fun umem' huser hagree => initStartup_same ndebug pages1gb pmap ?_
    (sameStrs_of_agree hagree huser fun r hr => hread r (.args hr))
    (sameStrs_of_agree hagree huser fun r hr => hread r (.envvars hr))⟩
  unfold startupInfoAt
  rw [load64_agree hagree (hread _ .items), load64_agree hagree (hread _ .count),
    load64_agree hagree (hread _ .envItems), load64_agree hagree (hread _ .envCount)]

end Agree

/-! ## 7. No kernel address is followed -/

/-- The checks read user memory only, and so does the rest of the call. -/
structure FollowsUser (umem : Mem) (data : Uptr) (len : Usize) (info : Uptr) (log : ReadLog) :
    Prop where
  checks : UserOnly log
  spawn : ends (spawnReads umem data len info) log (fun _ log' => UserOnly log') fun _ => True

/-- Where the counts fit, the checks read user memory only, whether the call passes or is
    refused. -/
theorem checksRead_user {umem : Mem} {data info : Uptr} {len : Usize} {ok : Bool} {log : ReadLog}
    (hfits : info ≠ 0 → CountFits (startupInfoAt umem info).args ∧
      CountFits (startupInfoAt umem info).envvars)
    (h : spawnChecks umem data len info [] = .ok (ok, log)) : UserOnly log := by
  have hnil : UserOnly [] := fun r hr => absurd hr List.not_mem_nil
  exact ends_ok (onlyUser_spawnChecks hfits [] hnil) h

/-- **A call that passes the checks follows no kernel address, exactly if the counts fit.** A
    count from 2 ^ 59 on wraps in the product that is checked, and the loops over the strings go
    all around the address space. -/
theorem spawnReads_iff {umem : Mem} {data info : Uptr} {len : Usize} {log : ReadLog}
    (h : spawnChecks umem data len info [] = .ok (true, log)) :
    FollowsUser umem data len info log ↔
      (info ≠ 0 → (startupInfoAt umem info).args.count.toNat < 2 ^ 59 ∧
        (startupInfoAt umem info).envvars.count.toNat < 2 ^ 59) := by
  have hchecked : SpawnChecked umem data len info log :=
    ends_ok (ends_spawnChecks (E := fun _ => True) []) h rfl
  constructor
  · intro hf h0
    have hinfo := hchecked.startup h0
    refine ⟨?_, ?_⟩
    · by_contra hbig
      obtain ⟨i, hi, hhigh⟩ := strAddr_around hbig
      exact absurd (hf.checks _ (hinfo.argsRead i hi) 0 (Nat.succ_pos 7)) (Nat.not_lt.mpr hhigh)
    · by_contra hbig
      obtain ⟨i, hi, hhigh⟩ := strAddr_around hbig
      exact absurd (hf.checks _ (hinfo.envvarsRead i hi) 0 (Nat.succ_pos 7)) (Nat.not_lt.mpr hhigh)
  · intro hfits
    have hlog := checksRead_user hfits h
    exact ⟨hlog, onlyUser_spawnReads hchecked hfits log hlog⟩

/-- Checks that pass are passed. -/
theorem wp_checkStrs {umem : Mem} {v : Strv}
    (h : ∀ i, i < v.count.toNat → isUserRangeOk (strData umem v i) (strLength umem v i) = true)
    (log : ReadLog) : wp (checkStrs umem v) log fun ok _ => ok = true := by
  have hloop : ends (checkStrs umem v) log (fun ok _ => if ok = true then True else False)
      fun _ => False := by
    refine ends_forUpWhile (fun _ _ => True) (fun _ => False) trivial fun i log' hi _ => ?_
    show if isUserRangeOk (strData umem v i) (strLength umem v i) = true then True else False
    rw [if_pos (h i hi)]
    trivial
  refine wp_mono (wp_of_ends hloop) fun ok _ hok => ?_
  split at hok
  · assumption
  · exact hok.elim

theorem check_ok {ok : Bool} (h : ok = true) : ¬ (!ok) = true := by
  rw [h]
  decide

theorem spawnChecks_passes {umem : Mem} {data info : Uptr} {len : Usize}
    (hbinary : isUserRangeOk data len = true)
    (hinfo : isUserRangeOk info SIZEOF_STARTUP_INFO = true)
    (hargs : StrvChecked umem (startupInfoAt umem info).args)
    (henvvars : StrvChecked umem (startupInfoAt umem info).envvars) :
    ∃ log, spawnChecks umem data len info [] = .ok (true, log) := by
  have hw : wp (spawnChecks umem data len info) [] fun ok _ => ok = true := by
    unfold spawnChecks
    rw [if_neg (check_ok (show isUserPtrOk data len = true from hbinary))]
    by_cases h0 : info = 0
    · rw [if_pos h0, wp_pure]
    · rw [if_neg h0, if_neg (check_ok (show isUserPtrOk _ _ = true from hinfo))]
      refine wp_of_ends ?_
      rw [ends_readStrv]
      split
      · rename_i hbad
        exact absurd hbad (check_ok hargs.items)
      · rw [ends_readStrv, envvars_count]
        split
        · rename_i hbad
          exact absurd hbad (check_ok henvvars.items)
        · rw [ends_bind]
          refine ends_of_wp (wp_mono (wp_checkStrs hargs.strs _) fun ok log hok => ?_)
          rw [if_pos hok]
          exact ends_of_wp (wp_checkStrs henvvars.strs _)
  obtain ⟨ok, log, hrun, rfl⟩ := hw
  exact ⟨log, hrun⟩

/-- One argument of five characters. -/
def oneArgument : Mem :=
  store64 (store64 (store64 (store64 (fun _ => 0) 0x1000 0x2000) 0x1008 1) 0x2000 0x3000) 0x2008 5

theorem spawnReads_iff_one : ∃ log,
    spawnChecks oneArgument 0x400000 4096 0x1000 [] = .ok (true, log) ∧
    FollowsUser oneArgument 0x400000 4096 0x1000 log := by
  have hargs : StrvChecked oneArgument (startupInfoAt oneArgument 0x1000).args := by
    refine ⟨by decide +kernel, fun i hi => ?_⟩
    have hcount : (startupInfoAt oneArgument 0x1000).args.count.toNat = 1 := by decide +kernel
    obtain rfl : i = 0 := by omega
    decide +kernel
  have henvvars : StrvChecked oneArgument (startupInfoAt oneArgument 0x1000).envvars := by
    have hcount : (startupInfoAt oneArgument 0x1000).envvars.count.toNat = 0 := by decide +kernel
    exact ⟨by decide +kernel, fun i hi => by omega⟩
  obtain ⟨log, hlog⟩ := @spawnChecks_passes _ 0x400000 0x1000 4096 (by decide) (by decide) hargs
    henvvars
  exact ⟨log, hlog, (spawnReads_iff hlog).mpr fun _ => by decide +kernel⟩

/-- An array in the kernel's half with a count of 2 ^ 59, in memory that is zero elsewhere. -/
def hugeCount : Mem :=
  store64 (store64 (fun _ => 0) 0x1010 0xFFFF800000000000) 0x1018 (1 <<< 59)

theorem hugeCount_zero {a : Nat} (h : a + 8 ≤ 0x1010 ∨ 0x1020 ≤ a) : load64 hugeCount a = 0 := by
  unfold hugeCount
  rw [load64_store64_ne _ _ (by omega), load64_store64_ne _ _ (by omega)]
  exact load64_zero a

theorem hugeCount_args :
    (startupInfoAt hugeCount 0x1010).args = ⟨0xFFFF800000000000, 1 <<< 59⟩ := by
  have hitems : load64 hugeCount 0x1010 = 0xFFFF800000000000 := by
    unfold hugeCount
    rw [load64_store64_ne _ _ (by decide)]
    exact load64_store64_same _ _ _
  show Strv.mk (load64 hugeCount 0x1010) (load64 hugeCount 0x1018) = _
  rw [hitems, show load64 hugeCount 0x1018 = 1 <<< 59 from load64_store64_same _ _ _]

theorem hugeCount_envvars : (startupInfoAt hugeCount 0x1010).envvars = ⟨0, 0⟩ := by
  show Strv.mk (load64 hugeCount 0x1020) (load64 hugeCount 0x1028) = _
  rw [hugeCount_zero (by decide), hugeCount_zero (by decide)]

/-- The two words are fields of no string: only the first two of its four words are read. -/
theorem hugeCount_checked : StrvChecked hugeCount (startupInfoAt hugeCount 0x1010).args := by
  rw [hugeCount_args]
  refine ⟨by decide, fun i _ => (isUserRangeOk_iff _ _).mpr (Or.inl (hugeCount_zero ?_))⟩
  have hto : (strAddr 0xFFFF800000000000 i + 8).toNat =
      (0xFFFF800000000000 + i * 32 + 8) % 2 ^ 64 := by
    unfold strAddr
    rw [BitVec.toNat_add, BitVec.toNat_add, BitVec.toNat_mul, BitVec.toNat_ofNat,
      show SIZEOF_STR.toNat = 32 from rfl, show (8 : U64).toNat = 8 from rfl,
      show (0xFFFF800000000000 : U64).toNat = 0xFFFF800000000000 from rfl]
    omega
  rw [show strAddr (Strv.mk 0xFFFF800000000000 (1 <<< 59)).items i = strAddr 0xFFFF800000000000 i
    from rfl, hto]
  omega

/-- The checks let this array pass: its size is 0 modulo 2 ^ 64. The first string they look at is
    in the kernel's half. Here every address can be read; on the machine the loop goes on to the
    first address without a page, and that fault is one of the kernel. -/
theorem spawnReads_kernel : ∃ log,
    spawnChecks hugeCount 0x400000 4096 0x1010 [] = .ok (true, log) ∧
    ⟨0xFFFF800000000000, 8⟩ ∈ log ∧ ¬ FollowsUser hugeCount 0x400000 4096 0x1010 log := by
  obtain ⟨log, hlog⟩ := @spawnChecks_passes _ 0x400000 0x1010 4096
    (by decide) (by decide) hugeCount_checked
    ⟨by rw [hugeCount_envvars]; decide,
      fun i hi => by rw [hugeCount_envvars] at hi; exact absurd hi (Nat.not_lt_zero i)⟩
  have hinfo : InfoChecked hugeCount 0x1010 log :=
    (ends_ok (ends_spawnChecks (E := fun _ => True) []) hlog rfl).startup (by decide)
  have hread := hinfo.argsRead 0 (by rw [hugeCount_args]; decide)
  rw [hugeCount_args] at hread
  exact ⟨log, hlog, hread, fun hf => absurd (hf.checks _ hread 0 (Nat.succ_pos 7)) (by decide)⟩

end Slightx
