/-
  File:      Slightx/Proc/StartupLayout.lean
  Subject:   The size of the startup region and what is laid out in it.

  Sources: kernel/proc/task.c, klibc/mem/arena.c.

  `task_user_startup_info__get_size` adds rounded sizes up; the copy asks an arena of that size for
  the unrounded ones, in another order of sums.

  * `layout_fits` -- an arena lays a list of sizes out where the rounded sizes fit
  * `lays_copyStartupInfo` -- the copy moves its arena as the layout of `startupRequests` does
  * `toNat_getSize_mod` -- the size predicted is the sum of the rounded sizes, modulo 2^64
  * `startup_layout` -- so the layout fills the region exactly, each block apart from the others
-/
import Mathlib.Algebra.GroupWithZero.Nat
import Slightx.Proc.TaskInit

namespace Slightx

open Lib

/-! ## 1. Layouts of an arena -/

/-- One allocation after the other, up to the first that fails. -/
def Arena.layout (a : Arena) : List Usize → Except Fault (List ArenaBlock × Arena)
  | [] => .ok ([], a)
  | sz :: sizes =>
      match a.allocate sz with
      | (.error e, _) => .error e
      | (.ok p, a) => (a.layout sizes).map fun r => (⟨p, sz⟩ :: r.1, r.2)

/-- `n`, up to the next multiple of 16. -/
def rounded (n : Nat) : Nat := n + gap n 16

def totalRounded (sizes : List Nat) : Nat := (sizes.map rounded).sum

/-- Where a block begins in the region at `base`. -/
def ArenaBlock.from (b : ArenaBlock) (base : Uptr) : Nat := (b.start - base).toNat

section Layout

variable {a : Arena} {sizes sizes' : List Usize}

theorem layout_append : a.layout (sizes ++ sizes') =
    (a.layout sizes).bind fun r => (r.2.layout sizes').map fun r' => (r.1 ++ r'.1, r'.2) := by
  induction sizes generalizing a with
  | nil =>
      simp only [List.nil_append, Arena.layout, Except.bind]
      cases a.layout sizes' <;> rfl
  | cons sz sizes ih =>
      rw [List.cons_append, Arena.layout, Arena.layout]
      split
      · rfl
      · rw [ih]
        rename_i a' _
        cases a'.layout sizes with
        | error e => rfl
        | ok r =>
            simp only [Except.map, Except.bind]
            cases r.2.layout sizes' <;> rfl

/-- `allocate`, where the rounded size fits. -/
theorem allocate_fits {sz : Usize} (hle : a.offset.toNat ≤ a.memory.size.toNat)
    (hfits : a.offset.toNat + rounded sz.toNat ≤ a.memory.size.toNat) :
    ∃ o : Usize, a.allocate sz = (.ok (a.memory.data + a.offset), { a with offset := o }) ∧
      o.toNat = a.offset.toNat + rounded sz.toNat := by
  have hsize := a.memory.size.isLt
  have hmod : (sz.toNat + gap sz.toNat 16) % 2 ^ 64 = rounded sz.toNat :=
    Nat.mod_eq_of_lt (by unfold rounded at hfits; omega)
  obtain ⟨hfull, -⟩ | ⟨-, o, hok, ho⟩ := arena_allocate_cases hle sz
  · unfold Arena.room at hfull
    omega
  · exact ⟨o, hok, hmod ▸ ho⟩

/-- **A list of sizes is laid out where the rounded sizes fit**: the blocks have the sizes asked
    for, follow one another and do not leave the room between the two offsets. -/
theorem layout_fits (hle : a.offset.toNat ≤ a.memory.size.toNat)
    (hfits : a.offset.toNat + totalRounded (sizes.map BitVec.toNat) ≤ a.memory.size.toNat) :
    ∃ (blocks : List ArenaBlock) (o : Usize),
      a.layout sizes = .ok (blocks, { a with offset := o }) ∧
        o.toNat = a.offset.toNat + totalRounded (sizes.map BitVec.toNat) ∧
        blocks.map ArenaBlock.size = sizes ∧
        (∀ b ∈ blocks, a.offset.toNat ≤ b.from a.memory.data ∧
          b.from a.memory.data + b.size.toNat ≤ o.toNat) ∧
        blocks.Pairwise fun b c =>
          b.from a.memory.data + b.size.toNat ≤ c.from a.memory.data := by
  induction sizes generalizing a with
  | nil =>
      exact ⟨[], a.offset, rfl, rfl, rfl, fun b hb => absurd hb List.not_mem_nil, .nil⟩
  | cons sz sizes ih =>
      have htotal : totalRounded ((sz :: sizes).map BitVec.toNat) =
          rounded sz.toNat + totalRounded (sizes.map BitVec.toNat) := rfl
      rw [htotal] at hfits
      obtain ⟨o, hok, ho⟩ := @allocate_fits a sz hle (by omega)
      obtain ⟨blocks, o', hrun, ho', hsizes, hin, hpair⟩ :=
        @ih { a with offset := o } (by dsimp only; omega) (by dsimp only; omega)
      have hfrom : (ArenaBlock.mk (a.memory.data + a.offset) sz).from a.memory.data
          = a.offset.toNat := by
        unfold ArenaBlock.from
        rw [BitVec.add_comm, BitVec.add_sub_cancel]
      have hsz : sz.toNat ≤ rounded sz.toNat := Nat.le_add_right _ _
      refine ⟨⟨a.memory.data + a.offset, sz⟩ :: blocks, o', ?_, ?_, ?_, fun b hb => ?_, ?_⟩
      · rw [Arena.layout, hok]
        dsimp only
        rw [hrun]
        rfl
      · rw [htotal]
        dsimp only at ho'
        omega
      · rw [List.map_cons, hsizes]
      · obtain rfl | hb := List.mem_cons.mp hb
        · rw [hfrom]
          dsimp only at ho' ⊢
          omega
        · obtain ⟨hlow, hhigh⟩ := hin b hb
          dsimp only at hlow
          exact ⟨by omega, hhigh⟩
      · refine List.pairwise_cons.mpr ⟨fun c hc => ?_, hpair⟩
        obtain ⟨hlow, -⟩ := hin c hc
        rw [hfrom]
        dsimp only at hlow ⊢
        omega

end Layout

/-! ## 2. The copy and its arena -/

/-- The release assertion of `arena_allocate`. -/
def arenaFull : Fault := .assertion "a->memory.size - a->offset >= sz"

/-- The program never stops with `arenaFull`. -/
def Quiet {σ α : Type} (x : Prog Fault σ α) : Prop :=
  ∀ s, ends x s (fun _ _ => True) fun f => f ≠ arenaFull

/-- The program does to its arena what laying the sizes out does, and fails the release assertion
    only where the layout fails. -/
def Lays {α : Type} (x : Prog Fault CopyState α) (sizes : List Usize) : Prop :=
  ∀ s, ends x s (fun _ s' => ∃ blocks, s.tmp.layout sizes = .ok (blocks, s'.tmp))
    fun f => f = arenaFull → ∃ e, s.tmp.layout sizes = .error e

section Lays

variable {σ α β : Type} {x : Prog Fault CopyState α} {sizes sizes' : List Usize}

theorem quiet_pure (v : α) : Quiet (pure v : Prog Fault σ α) := fun _ => True.intro

theorem quiet_panic (text : String) : Quiet (panic text : Prog Fault σ α) := by
  intro s h
  cases h

theorem quiet_bind {y : Prog Fault σ α} {g : α → Prog Fault σ β} (hy : Quiet y)
    (hg : ∀ v, Quiet (g v)) : Quiet (y >>= g) := by
  intro s
  rw [ends_bind]
  exact ends_mono (hy s) (fun v s' _ => hg v s') fun _ hf => hf

theorem quiet_ite {c : Prop} [Decidable c] {y z : Prog Fault σ α} (hy : Quiet y) (hz : Quiet z) :
    Quiet (if c then y else z) := by
  split
  · exact hy
  · exact hz

theorem quiet_assertIn {ndebug : Bool} {c : Prop} [Decidable c] {text : String}
    (h : Fault.assertion text ≠ arenaFull) :
    Quiet (assertIn ndebug c text : Prog Fault σ Unit) := by
  unfold assertIn assert
  exact quiet_ite (quiet_pure _) (quiet_ite (quiet_pure _) fun _ => h)

theorem lays_pure (v : α) : Lays (pure v) [] := fun _ => ⟨[], rfl⟩

theorem lays_bind {g : α → Prog Fault CopyState β} (hx : Lays x sizes)
    (hg : ∀ v, Lays (g v) sizes') : Lays (x >>= g) (sizes ++ sizes') := by
  intro s
  rw [ends_bind]
  refine ends_mono (hx s) (fun v s' ⟨blocks, hrun⟩ => ?_) fun f hf hfull => ?_
  · refine ends_mono (hg v s') (fun w s'' ⟨blocks', hrun'⟩ => ⟨blocks ++ blocks', ?_⟩)
      fun f hf hfull => ?_
    · rw [layout_append, hrun]
      simp only [Except.bind, hrun', Except.map]
    · obtain ⟨e, he⟩ := hf hfull
      refine ⟨e, ?_⟩
      rw [layout_append, hrun]
      simp only [Except.bind, he, Except.map]
  · obtain ⟨e, he⟩ := hf hfull
    refine ⟨e, ?_⟩
    rw [layout_append, he]
    rfl

/-- What comes before the allocations. -/
theorem lays_after {g : α → Prog Fault CopyState β} (hx : Lays x []) (hg : ∀ v, Lays (g v) sizes) :
    Lays (x >>= g) sizes :=
  lays_bind hx hg

/-- A quiet program that keeps the arena. -/
theorem lays_quiet (hq : Quiet x) (hk : Keeps CopyState.tmp x) : Lays x [] := by
  intro s
  have h := hq s
  unfold ends at h ⊢
  split
  · rename_i v s' hx
    exact ⟨[], by rw [hk s v s' hx]; rfl⟩
  · rename_i f hx
    rw [hx] at h
    exact fun hfull => absurd hfull h

theorem lays_modify {f : CopyState → CopyState} (hf : ∀ s, (f s).tmp = s.tmp) :
    Lays (modify f) [] := fun s => ⟨[], by rw [hf]; rfl⟩

theorem lays_arenaAllocate (sz : Usize) : Lays (arenaAllocate sz) [sz] := by
  intro s
  unfold arenaAllocate
  rw [ends_bind, ends_get, ends_bind]
  unfold assertRelease
  by_cases hfits : alignSizeUp sz MAX_ALIGN ≤ s.tmp.memory.size - s.tmp.offset
  · have hok : s.tmp.allocate sz = (.ok (s.tmp.memory.data + s.tmp.offset),
        { s.tmp with offset := s.tmp.offset + alignSizeUp sz MAX_ALIGN }) := if_pos hfits
    rw [if_pos hfits]
    exact ⟨[⟨s.tmp.memory.data + s.tmp.offset, sz⟩], by rw [Arena.layout, hok]; rfl⟩
  · have hfull : s.tmp.allocate sz = (.error arenaFull, s.tmp) := if_neg hfits
    rw [if_neg hfits]
    exact fun _ => ⟨arenaFull, by rw [Arena.layout, hfull]⟩

theorem lays_forUp {n : Nat} {body : Nat → Prog Fault CopyState Unit} {f : Nat → List Usize}
    (h : ∀ i, i < n → Lays (body i) (f i)) : Lays (forUp n body) ((List.range n).flatMap f) := by
  induction n with
  | zero => exact lays_pure ()
  | succ n ih =>
      rw [List.range_succ, List.flatMap_append, List.flatMap_singleton]
      exact lays_bind (ih fun i hi => h i (Nat.lt_succ_of_lt hi)) fun _ => h n (Nat.lt_succ_self n)

end Lays

/-! ## 3. The layout of the startup data -/

/-- The sizes the copy asks for, in the order it asks. -/
def startupRequests (umem : Mem) (info : StartupInfo) : List Usize :=
  [SIZEOF_STARTUP_INFO, info.args.count * SIZEOF_STR, info.envvars.count * SIZEOF_STR] ++
    (List.range info.args.count.toNat).map (strLength umem info.args) ++
    (List.range info.envvars.count.toNat).map (strLength umem info.envvars)

/-- The sizes of the objects: the structure, the two arrays, every string. -/
def startupSizes (umem : Mem) (info : StartupInfo) : List Nat :=
  [32, info.args.count.toNat * 32, info.envvars.count.toNat * 32] ++
    (List.range info.args.count.toNat).map (fun i => (strLength umem info.args i).toNat) ++
    (List.range info.envvars.count.toNat).map (fun i => (strLength umem info.envvars i).toNat)

section Copy

variable {ndebug : Bool} {pmap : PageMap} {umem : Mem}

theorem quiet_pdLoad (pd : Uptr) (index : Nat) : Quiet (pdLoad pd index) := fun _ => True.intro

theorem quiet_vmmTranslateFrom (pml4 va : Uptr) : Quiet (vmmTranslateFrom pml4 va) :=
  quiet_bind (quiet_pdLoad _ _) fun _ =>
    quiet_ite (quiet_panic _) (quiet_ite (quiet_pure _) (quiet_bind (quiet_pdLoad _ _) fun _ =>
      quiet_ite (quiet_panic _) (quiet_ite (quiet_pure _) (quiet_bind (quiet_pdLoad _ _) fun _ =>
        quiet_ite (quiet_panic _) (quiet_ite (quiet_pure _) (quiet_bind (quiet_pdLoad _ _) fun _ =>
          quiet_ite (quiet_panic _) (quiet_pure _)))))))

theorem quiet_vmmTranslate (va : Uptr) : Quiet (vmmTranslate pmap va) := by
  unfold vmmTranslate vmmTranslateImpl
  split
  · exact quiet_bind (quiet_pdLoad _ _) fun _ =>
      quiet_ite (quiet_panic _) (quiet_ite (quiet_pure _) (quiet_vmmTranslateFrom _ _))
  · exact quiet_vmmTranslateFrom _ _
  · exact quiet_panic _

theorem lays_taskVaddrToPhys (va : Uptr) : Lays (taskVaddrToPhys pmap va) [] := by
  refine lays_quiet (fun s => ?_) (keeps_zoom _ fun _ _ => rfl)
  unfold taskVaddrToPhys
  rw [ends_zoom]
  exact quiet_vmmTranslate va s.vmm

theorem lays_writeWord (addr : Uptr) (w : U64) : Lays (writeWord addr w) [] :=
  lays_modify fun _ => rfl

theorem lays_writeByte (addr : Uptr) (b : U8) : Lays (writeByte addr b) [] :=
  lays_modify fun _ => rfl

theorem lays_readWord (addr : Uptr) : Lays (readWord addr) [] := fun _ => ⟨[], rfl⟩

theorem lays_memcpyFrom (dst src : Uptr) (n : Usize) :
    Lays (memcpyFrom ndebug umem dst src n) [] := by
  unfold memcpyFrom
  refine lays_after (lays_quiet (quiet_assertIn (by decide)) keeps_assertIn) fun _ => ?_
  have hnone : (List.range n.toNat).flatMap (fun _ => ([] : List Usize)) = [] :=
    List.flatMap_eq_nil_iff.mpr fun _ _ => rfl
  rw [← hnone]
  exact lays_forUp fun j _ => lays_writeByte _ _

theorem lays_copyStr (v : Strv) (base : Uptr) (i : Nat) :
    Lays (copyStr ndebug pmap umem v base i) [strLength umem v i] := by
  unfold copyStr
  refine lays_after (lays_writeWord _ _) fun _ => lays_after (lays_writeWord _ _) fun _ =>
    lays_after (lays_writeByte _ _) fun _ => lays_bind (lays_arenaAllocate _) fun data => ?_
  exact lays_after (lays_writeWord _ _) fun _ => lays_after (lays_taskVaddrToPhys _) fun _ =>
    lays_memcpyFrom _ _ _

theorem lays_copyStrv (v : Strv) (items : Uptr) : Lays (copyStrv ndebug pmap umem v items)
    ((List.range v.count.toNat).map (strLength umem v)) := by
  unfold copyStrv
  refine lays_after (lays_taskVaddrToPhys _) fun base => ?_
  rw [List.map_eq_flatMap]
  exact lays_forUp fun i _ => lays_copyStr v base i

/-- **The copy lays the startup data out**, whatever its translations and copies do. -/
theorem lays_copyStartupInfo (info : StartupInfo) :
    Lays (copyStartupInfo ndebug pmap umem info) (startupRequests umem info) := by
  have hsizes : startupRequests umem info =
      [SIZEOF_STARTUP_INFO] ++ ([info.args.count * SIZEOF_STR] ++
        ([info.envvars.count * SIZEOF_STR] ++
          ((List.range info.args.count.toNat).map (strLength umem info.args) ++
            (List.range info.envvars.count.toNat).map (strLength umem info.envvars)))) :=
    List.append_assoc _ _ _
  rw [hsizes]
  unfold copyStartupInfo
  refine lays_bind (lays_arenaAllocate _) fun s => lays_after (lays_taskVaddrToPhys _) fun si => ?_
  refine lays_after (lays_writeWord _ _) fun _ => lays_bind (lays_arenaAllocate _) fun args => ?_
  refine lays_after (lays_writeWord _ _) fun _ => lays_after (lays_writeWord _ _) fun _ => ?_
  refine lays_bind (lays_arenaAllocate _) fun envvars => lays_after (lays_writeWord _ _) fun _ => ?_
  refine lays_after (lays_readWord _) fun argsp => lays_bind (lays_copyStrv _ _) fun _ => ?_
  exact lays_after (lays_readWord _) fun envp => lays_copyStrv _ _

end Copy

/-! ## 4. The size predicted -/

section Size

variable {umem : Mem} {info : StartupInfo}

theorem totalRounded_append (sizes sizes' : List Nat) :
    totalRounded (sizes ++ sizes') = totalRounded sizes + totalRounded sizes' := by
  unfold totalRounded
  rw [List.map_append, List.sum_append]

theorem totalRounded_one (n : Nat) : totalRounded [n] = rounded n := Nat.add_zero _

theorem le_rounded (n : Nat) : n ≤ rounded n := Nat.le_add_right _ _

theorem toNat_add_rounded (total sz : Usize) :
    (total + alignSizeUp sz MAX_ALIGN).toNat = (total.toNat + rounded sz.toNat) % 2 ^ 64 := by
  have hsz : (alignSizeUp sz MAX_ALIGN).toNat = rounded sz.toNat % 2 ^ 64 :=
    toNat_alignSizeUp_gap (by decide)
  rw [BitVec.toNat_add, hsz, Nat.add_mod_mod]

/-- The loop adds the rounded lengths up. -/
theorem toNat_strvSize (v : Strv) (total : Usize) : (strvSize umem v total).toNat = (total.toNat +
    totalRounded ((List.range v.count.toNat).map fun i => (strLength umem v i).toNat)) % 2 ^ 64 := by
  unfold strvSize
  generalize v.count.toNat = n
  induction n with
  | zero => exact (Nat.mod_eq_of_lt total.isLt).symm
  | succ n ih =>
      have hlast : totalRounded ([n].map fun i => (strLength umem v i).toNat) =
          rounded (strLength umem v n).toNat := totalRounded_one _
      rw [List.range_succ, List.map_append, totalRounded_append, hlast, runUp, toNat_add_rounded,
        ih, Nat.mod_add_mod, Nat.add_assoc]

/-- An array, up to a multiple of 2^64. -/
theorem toNat_add_array (total count : Usize) :
    (total + alignSizeUp (count * SIZEOF_STR) MAX_ALIGN).toNat =
      (total.toNat + rounded (count.toNat * 32)) % 2 ^ 64 := by
  have haligned : ∀ n, n % 16 = 0 → rounded n = n := fun n hn => by
    unfold rounded gap
    rw [if_pos hn, Nat.add_zero]
  have hbytes : (count * SIZEOF_STR).toNat = count.toNat * 32 % 2 ^ 64 := BitVec.toNat_mul _ _
  rw [toNat_add_rounded, hbytes, haligned _ (by omega), haligned _ (by omega), Nat.add_mod_mod]

theorem toNat_arraySize {count : Usize} (h : count.toNat * 32 < 2 ^ 64) :
    (count * SIZEOF_STR).toNat = count.toNat * 32 := by
  rw [BitVec.toNat_mul]
  exact Nat.mod_eq_of_lt h

theorem totalRounded_startupSizes : totalRounded (startupSizes umem info) =
    32 + rounded (info.args.count.toNat * 32) + rounded (info.envvars.count.toNat * 32) +
      totalRounded ((List.range info.args.count.toNat).map fun i =>
        (strLength umem info.args i).toNat) +
      totalRounded ((List.range info.envvars.count.toNat).map fun i =>
        (strLength umem info.envvars i).toNat) := by
  unfold startupSizes
  rw [totalRounded_append, totalRounded_append]
  have hthree : ∀ a b : Nat, totalRounded [32, a, b] = 32 + rounded a + rounded b := by
    intro a b
    have h32 : rounded 32 = 32 := by decide
    unfold totalRounded
    simp only [List.map_cons, List.map_nil, List.sum_cons, List.sum_nil, h32]
    omega
  rw [hthree]

/-- The requests are the sizes of the objects: the products are exact. -/
theorem toNat_startupRequests (h : totalRounded (startupSizes umem info) < 2 ^ 64) :
    (startupRequests umem info).map BitVec.toNat = startupSizes umem info := by
  rw [totalRounded_startupSizes] at h
  have hargs := le_rounded (info.args.count.toNat * 32)
  have henvvars := le_rounded (info.envvars.count.toNat * 32)
  unfold startupRequests startupSizes
  rw [List.map_append, List.map_append, List.map_map, List.map_map]
  have hthree : [SIZEOF_STARTUP_INFO, info.args.count * SIZEOF_STR,
      info.envvars.count * SIZEOF_STR].map BitVec.toNat =
      [32, info.args.count.toNat * 32, info.envvars.count.toNat * 32] := by
    simp only [List.map_cons, List.map_nil]
    rw [toNat_arraySize (by omega), toNat_arraySize (by omega)]
    rfl
  rw [hthree]
  rfl

/-- **The size predicted is the sum of the rounded sizes**, as long as that is a size. -/
theorem toNat_getSize_mod : (taskUserStartupInfoGetSize umem info).toNat =
    totalRounded (startupSizes umem info) % 2 ^ 64 := by
  have h0 : (alignSizeUp SIZEOF_STARTUP_INFO MAX_ALIGN).toNat = 32 := by decide
  have h1 := toNat_add_array (alignSizeUp SIZEOF_STARTUP_INFO MAX_ALIGN) info.args.count
  have h2 := toNat_add_array (alignSizeUp SIZEOF_STARTUP_INFO MAX_ALIGN +
    alignSizeUp (info.args.count * SIZEOF_STR) MAX_ALIGN) info.envvars.count
  rw [h1, h0, Nat.mod_add_mod] at h2
  unfold taskUserStartupInfoGetSize
  dsimp only
  rw [toNat_strvSize, toNat_strvSize, Nat.mod_add_mod, h2, Nat.add_assoc (_ % _), Nat.mod_add_mod,
    totalRounded_startupSizes, Nat.add_assoc (32 + _ + _)]

theorem toNat_getSize (h : totalRounded (startupSizes umem info) < 2 ^ 64) :
    (taskUserStartupInfoGetSize umem info).toNat = totalRounded (startupSizes umem info) := by
  rw [toNat_getSize_mod, Nat.mod_eq_of_lt h]

end Size

/-- The arena `task_init` lays the startup data out in. -/
def startupArena (umem : Mem) (info : StartupInfo) : Arena :=
  ⟨⟨USER_STARTUP_BASE, taskUserStartupInfoGetSize umem info⟩, 0⟩

/-- **The region has the size of what is laid out in it**: the size predicted is the offset the
    arena ends at, the release assertion never fails, and the blocks of the structure, the arrays
    and the strings follow one another inside the region. -/
theorem startup_layout (ndebug : Bool) (pmap : PageMap) (umem : Mem) (info : StartupInfo)
    (htotal : totalRounded (startupSizes umem info) < 2 ^ 64) :
    (∃ blocks, (startupArena umem info).layout (startupRequests umem info) =
        .ok (blocks, { startupArena umem info with
          offset := taskUserStartupInfoGetSize umem info }) ∧
      blocks.map (fun b => b.size.toNat) = startupSizes umem info ∧
      (∀ b ∈ blocks, b.from USER_STARTUP_BASE + b.size.toNat ≤
        (taskUserStartupInfoGetSize umem info).toNat) ∧
      blocks.Pairwise fun b c =>
        b.from USER_STARTUP_BASE + b.size.toNat ≤ c.from USER_STARTUP_BASE) ∧
    ∀ vmm, ends (copyStartupInfo ndebug pmap umem info) ⟨vmm, startupArena umem info⟩
      (fun _ s => s.tmp.offset = taskUserStartupInfoGetSize umem info) fun f => f ≠ arenaFull := by
  have hget := toNat_getSize htotal
  have hreq := toNat_startupRequests htotal
  have hzero : (startupArena umem info).offset.toNat = 0 := rfl
  have hsize : (startupArena umem info).memory.size.toNat =
    totalRounded (startupSizes umem info) := hget
  obtain ⟨blocks, o, hrun, ho, hsizes, hin, hpair⟩ :=
    @layout_fits (startupArena umem info) (startupRequests umem info)
      (by rw [hzero]; exact Nat.zero_le _)
      (Nat.le_of_eq (by rw [hreq, hzero, hsize, Nat.zero_add]))
  have ho' : o = taskUserStartupInfoGetSize umem info := by
    apply BitVec.eq_of_toNat_eq
    rw [ho, hget, hreq, hzero, Nat.zero_add]
  subst ho'
  refine ⟨⟨blocks, hrun, ?_, fun b hb => (hin b hb).2, hpair⟩, fun vmm => ?_⟩
  · rw [← hreq, ← hsizes, List.map_map]
    rfl
  · refine ends_mono (lays_copyStartupInfo info ⟨vmm, startupArena umem info⟩)
      (fun _ s ⟨blocks', hrun'⟩ => ?_) fun f hf hfull => ?_
    · rw [hrun] at hrun'
      have harena := congrArg Prod.snd (Except.ok.inj hrun')
      exact congrArg Arena.offset harena.symm
    · obtain ⟨e, he⟩ := hf hfull
      rw [hrun] at he
      cases he

/-- Two arguments of 5 and 16 characters, an environment variable of 33. -/
def threeStrings : Mem :=
  store64 (store64 (store64 (fun _ => 0) 0x1008 5) 0x1028 16) 0x2008 33

theorem startup_layout_three :
    (taskUserStartupInfoGetSize threeStrings ⟨⟨0x1000, 2⟩, ⟨0x2000, 1⟩⟩).toNat = 208 ∧
      ∃ blocks, ((startupArena threeStrings ⟨⟨0x1000, 2⟩, ⟨0x2000, 1⟩⟩).layout
          (startupRequests threeStrings ⟨⟨0x1000, 2⟩, ⟨0x2000, 1⟩⟩)).map (fun r => r.1) =
          .ok blocks ∧
        blocks.map (fun b => b.size.toNat) = [32, 64, 32, 5, 16, 33] := by
  have htotal : totalRounded (startupSizes threeStrings ⟨⟨0x1000, 2⟩, ⟨0x2000, 1⟩⟩) < 2 ^ 64 := by
    decide +kernel
  obtain ⟨⟨blocks, hrun, hsizes, -⟩, -⟩ :=
    startup_layout false ⟨.PML4, 0⟩ threeStrings ⟨⟨0x1000, 2⟩, ⟨0x2000, 1⟩⟩ htotal
  refine ⟨by decide +kernel, blocks, by rw [hrun]; rfl, hsizes.trans ?_⟩
  decide +kernel

end Slightx
