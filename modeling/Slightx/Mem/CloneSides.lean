/-
  File:      Slightx/Mem/CloneSides.lean
  Subject:   A page map and its copy, side by side.

  What `vmm_clone_page_map` shares with its source are the tables behind entries without the user
  bit. In the kernel's half that is meant; in the user half such a table, which `vmm_map` makes for
  a page without user access, would serve both page maps.

  * `Clonable` -- the page maps that are cloned: no user page of 4 KB and, in the user half, no
    table without the user bit; in the kernel's half, none with it
  * `clonable_of_cloned` -- no other copy has a user half of its own
  * `Sides`, `sides_run` -- page maps whose user halves share no table, and the calls for user
    pages of either
  * `vmmClonePageMap_iff` -- a page map gets its clone exactly if it is `Clonable` and the frames
    suffice
-/
import Slightx.Mem.VmmClone
import Slightx.Mem.UserHalf
import Slightx.Mem.KernelHalf

namespace Slightx

open Lib

/-! ## 1. What can be cloned -/

/-- The page numbers of the user half. -/
abbrev userKeys (top : Nat) : Nat := 256 * 512 ^ (top - 1)

/-- All tables from table `tbl` on have the user bit, and no page of 4 KB has it. -/
def UserTree (m : Mem) : (level : Nat) → (tbl : Uptr) → Prop
  | 0, _ => True
  | level + 1, tbl => ∀ i, i < 512 → ptePresent (pteAt m tbl i) = true →
      pteLarge (pteAt m tbl i) = false →
        if level = 0 then (pteAt m tbl i).getLsbD 2 = false
        else (pteAt m tbl i).getLsbD 2 = true ∧ UserTree m level (pteP2v (pteAt m tbl i))

/-- **The page maps that are cloned**: in the user half all tables have the user bit, and no page
    of 4 KB has it; behind the top-level entries of the kernel's half no table has it. -/
structure Clonable (m : Mem) (pmap : PageMap) : Prop where
  user : ∀ i, i < 256 → ptePresent (pteAt m pmap.directory i) = true →
    pteLarge (pteAt m pmap.directory i) = false → (pteAt m pmap.directory i).getLsbD 2 = true ∧
      UserTree m (pmap.level.num - 1) (pteP2v (pteAt m pmap.directory i))
  kernel : ∀ i, 256 ≤ i → i < 512 → pteUserTable (pteAt m pmap.directory i) = false

/-- A table of the user half. -/
def UserTable (m : Mem) (pmap : PageMap) (u : Uptr) : Prop :=
  ∃ key M g, key < userKeys pmap.level.num ∧ M < pmap.level.num ∧
    Reach 512 pageKind (pteAt m) key pmap.level.num pmap.directory M u g

section Trees

variable {own own' : Uptr → Option (Nat × Nat)} {s₀ s' : VmmState} {t c u v : Uptr} {m : Mem}
  {K L M p i key : Nat} {g : Hit → Hit} {pmap q : PageMap}

theorem noPage_userTree (h : UserTree m L t) (hL : L ≠ 0) : NoPage m L t := by
  induction L generalizing t with
  | zero => exact absurd rfl hL
  | succ L ih =>
      intro i hi he
      obtain ⟨hp, hl, hu⟩ := pteUserTable_iff.mp he
      have hentry := h i hi hp hl
      split at hentry
      · rw [hu] at hentry
        cases hentry
      · rename_i hL
        exact ih hentry.2 hL

theorem noPage_clonable (hnum : pmap.level.num = 4 ∨ pmap.level.num = 5) (h : Clonable m pmap) :
    NoPage m pmap.level.num pmap.directory := by
  obtain ⟨T, hT⟩ : ∃ T, pmap.level.num = T + 1 := ⟨pmap.level.num - 1, by omega⟩
  have huser := h.user
  rw [hT, Nat.add_sub_cancel] at huser
  rw [hT]
  intro i hi he
  by_cases hlow : i < 256
  · obtain ⟨hp, hl, -⟩ := pteUserTable_iff.mp he
    exact noPage_userTree (huser i hlow hp hl).2 (by omega)
  · rw [h.kernel i (by omega) hi] at he
    cases he

/-- **Where all tables have the user bit, a copy leads to new tables only**, copies themselves. -/
theorem cloned_reach (h : Cloned own own' s₀.mem s'.mem L p c t)
    (htree : UserTree s₀.mem L t) (hnone : own c = none) (hkey : key / 512 ^ L = p)
    (hreach : Reach 512 pageKind (pteAt s'.mem) key L c M u g) :
    own u = none ∧ ∃ t', Cloned own own' s₀.mem s'.mem M (key / 512 ^ M) u t' ∧
      UserTree s₀.mem M t' := by
  induction hreach with
  | here => exact ⟨hnone, t, hkey ▸ h, htree⟩
  | @down M u v g f hdown hk ih =>
      obtain ⟨-, t', hcloned, htree'⟩ := ih
      have hi := slot_lt key M
      obtain ⟨hp', hl', hM, hv, -⟩ := pageKind_next hk
      have hentry := hcloned.2.2 (slot key M) hi
      unfold EntryCloned at hentry
      split at hentry
      · rename_i he
        obtain ⟨w, hw, hfresh, hlink, hbelow⟩ := hentry
        have hvw : v = w := by
          rw [hv, hlink]
          exact (isTable_link hw (Or.inr rfl)).table
        obtain ⟨hp, hl, -⟩ := pteUserTable_iff.mp he
        have hchild := htree' (slot key M) hi hp hl
        rw [if_neg (by omega)] at hchild
        rw [hvw, div_pow_digit 512 key M]
        exact ⟨hfresh, _, hbelow, hchild.2⟩
      · rename_i he
        unfold copyPte at hentry
        split at hentry
        · rename_i hp
          rw [hentry] at hl'
          have hchild := htree' (slot key M) hi hp hl'
          rw [if_neg (by omega)] at hchild
          exact absurd (pteUserTable_iff.mpr ⟨hp, hl', hchild.1⟩) he
        · rw [hentry] at hp'
          exact absurd hp' (by decide)

theorem userKey_digit {T : Nat} (hkey : key < 256 * 512 ^ T) : slot key T < 256 := by
  have hlt : key / 512 ^ T < 256 := Nat.div_lt_of_lt_mul (by rw [Nat.mul_comm]; exact hkey)
  exact Nat.lt_of_le_of_lt (Nat.mod_le _ _) hlt

theorem userKeys_lt {T : Nat} (hnum : T = 4 ∨ T = 5) (hkey : key < userKeys T) : key < 512 ^ T := by
  unfold userKeys at hkey
  rcases hnum with rfl | rfl <;> omega

/-- The tables of the copy's user half are new. -/
theorem userTable_new (hnum : pmap.level.num = 4 ∨ pmap.level.num = 5)
    (h : MapCloned own own' s₀ s' pmap q) (hok : Clonable s₀.mem pmap)
    (hu : UserTable s'.mem q u) : own u = none ∧ ∃ L p t,
      Cloned own own' s₀.mem s'.mem L p u t ∧ UserTree s₀.mem L t := by
  obtain ⟨key, M, g, hkey, hM, hreach⟩ := hu
  obtain ⟨T, hT⟩ : ∃ T, pmap.level.num = T + 1 := ⟨pmap.level.num - 1, by omega⟩
  have hcloned := h.cloned
  have huser := hok.user
  rw [h.level, hT] at hkey hM hreach
  rw [hT] at hcloned
  rw [userKeys, Nat.add_sub_cancel] at hkey
  rw [hT, Nat.add_sub_cancel] at huser
  obtain ⟨v, f, g', hk, hreach'⟩ := reach_uncons hreach (by omega)
  have hdigit := userKey_digit hkey
  have hi := slot_lt key T
  obtain ⟨hp', hl', -, hv, -⟩ := pageKind_next hk
  have hentry := hcloned.2.2 (slot key T) hi
  unfold EntryCloned at hentry
  split at hentry
  · rename_i he
    obtain ⟨w, hw, hfresh, hlink, hbelow⟩ := hentry
    have hvw : v = w := by
      rw [hv, hlink]
      exact (isTable_link hw (Or.inr rfl)).table
    obtain ⟨hp, hl, -⟩ := pteUserTable_iff.mp he
    have hupper : key / 512 ^ T = 0 * 512 + slot key T := by
      rw [Nat.zero_mul, Nat.zero_add]
      exact (Nat.mod_eq_of_lt (Nat.lt_trans (Nat.div_lt_of_lt_mul (by rw [Nat.mul_comm]; exact hkey))
        (by decide))).symm
    rw [hvw] at hreach'
    obtain ⟨hnone, t', hc', ht'⟩ := cloned_reach hbelow (huser _ hdigit hp hl).2 hfresh hupper
      hreach'
    exact ⟨hnone, M, _, t', hc', ht'⟩
  · rename_i he
    unfold copyPte at hentry
    split at hentry
    · rename_i hp
      rw [show pteAt s'.mem q.directory (key / 512 ^ T % 512) = _ from hentry] at hl'
      exact absurd (pteUserTable_iff.mpr ⟨hp, hl', (huser _ hdigit hp hl').1⟩) he
    · rw [show pteAt s'.mem q.directory (key / 512 ^ T % 512) = _ from hentry] at hp'
      exact absurd hp' (by decide)

end Trees

/-! ## 2. What a copy with a user half of its own comes from -/

/-- A key whose lookup passes entry `i` of a table with prefix `p`. -/
theorem prefix_digit {key L p i : Nat} (hi : i < 512) (h : key / 512 ^ L = p * 512 + i) :
    key / 512 ^ (L + 1) = p ∧ slot key L = i := by
  rw [Nat.pow_succ, ← Nat.div_div_eq_div_mul]
  unfold slot
  omega

section Back

variable {own own' : Uptr → Option (Nat × Nat)} {s₀ s' : VmmState} {t c u v : Uptr} {m m₀ : Mem}
  {L M p i key : Nat} {e e' : U64} {pmap q : PageMap}

/-- A copy was made without coming by the entry of a page. -/
theorem noPage_of_cloned (h : Cloned own own' m₀ m L p c t) : NoPage m₀ L t := by
  induction L generalizing p c t with
  | zero => exact h.elim
  | succ L ih =>
      intro i hi he
      have hentry := h.2.2 i hi
      rw [EntryCloned, if_pos he] at hentry
      obtain ⟨v, -, -, -, hbelow⟩ := hentry
      exact ih hbelow

/-- What is no user table is shared. -/
theorem entryCloned_other {below : Uptr → Uptr → Prop} (h : EntryCloned own below e' e)
    (hp : ptePresent e = true) (he : pteUserTable e ≠ true) : e' = e := by
  rw [EntryCloned, if_neg he, copyPte, if_pos hp] at h
  exact h

/-- Lookups of `keys` come by no table that both `c` and `t` lead to. -/
def Apart (m m₀ : Mem) (keys : Nat → Prop) (L : Nat) (c t : Uptr) : Prop :=
  ∀ key M u g g', keys key → M < L → Reach 512 pageKind (pteAt m) key L c M u g →
    ¬ Reach 512 pageKind (pteAt m₀) key L t M u g'

section Apart

variable {keys : Nat → Prop}

theorem apart_next (h : Apart m m₀ keys (L + 1) c t)
    (hkeys : ∀ key, key / 512 ^ L = p * 512 + i → keys key) (hi : i < 512)
    (hc : IsTable (pteAt m c i) v) (ht : IsTable (pteAt m₀ t i) u) :
    Apart m m₀ (fun key => key / 512 ^ L = p * 512 + i) L v u := by
  intro key M w g g' hkey hM hcopy hsource
  obtain ⟨-, rfl⟩ := prefix_digit hi hkey
  exact h key M w _ _ (hkeys key hkey) (by omega)
    (reach_cons (isTable_kind hc (by omega)) hcopy)
    (reach_cons (isTable_kind ht (by omega)) hsource)

/-- Equal entries lead to one table. -/
theorem not_apart_same (h : Apart m m₀ keys (L + 1) c t)
    (hkeys : ∀ key, key / 512 ^ L = p * 512 + i → keys key) (hi : i < 512) (hL : L ≠ 0)
    (hsame : pteAt m c i = pteAt m₀ t i) (ht : IsTable (pteAt m₀ t i) u) : False := by
  have hkey : (p * 512 + i) * 512 ^ L / 512 ^ L = p * 512 + i :=
    Nat.mul_div_cancel _ (Nat.pow_pos (by decide))
  have hc : IsTable (pteAt m c i) u := by
    rw [hsame]
    exact ht
  obtain ⟨-, hdigit⟩ := prefix_digit hi hkey
  rw [← hdigit] at hc ht
  exact h _ L u _ _ (hkeys _ hkey) (Nat.lt_succ_self L)
    (.down .here (isTable_kind hc (by omega))) (.down .here (isTable_kind ht (by omega)))

/-- So an entry whose table is not shared is that of a user table. -/
theorem userTree_entry (h₀ : VmmInv own s₀) (ht : own t = some (L + 1, p)) (hL : L ≠ 0)
    (hi : i < 512) (hp : ptePresent (pteAt s₀.mem t i) = true)
    (hl : pteLarge (pteAt s₀.mem t i) = false)
    (hentry : EntryCloned own (Cloned own own' s₀.mem m L (p * 512 + i)) (pteAt m c i)
      (pteAt s₀.mem t i))
    (h : Apart m s₀.mem keys (L + 1) c t)
    (hkeys : ∀ key, key / 512 ^ L = p * 512 + i → keys key)
    (hbelow : ∀ v u, Cloned own own' s₀.mem m L (p * 512 + i) v u →
      Apart m s₀.mem (fun key => key / 512 ^ L = p * 512 + i) L v u → UserTree s₀.mem L u) :
    (pteAt s₀.mem t i).getLsbD 2 = true ∧ UserTree s₀.mem L (pteP2v (pteAt s₀.mem t i)) := by
  have htable := isTable_of_small h₀ ht hL hi hp hl
  by_cases he : pteUserTable (pteAt s₀.mem t i) = true
  · rw [EntryCloned, if_pos he] at hentry
    obtain ⟨v, hv, -, hlink, hcloned⟩ := hentry
    have hcopy : IsTable (pteAt m c i) v := by
      rw [hlink]
      exact isTable_link hv (Or.inr rfl)
    exact ⟨(pteUserTable_iff.mp he).2.2,
      hbelow v _ hcloned (apart_next h hkeys hi hcopy htable)⟩
  · exact (not_apart_same h hkeys hi hL (entryCloned_other hentry hp he) htable).elim

end Apart

/-- **If no table is reached from a table and from its copy, all tables from there on have the user
    bit.** -/
theorem userTree_of_apart (h₀ : VmmInv own s₀) (h : Cloned own own' s₀.mem m L p c t)
    (hapart : Apart m s₀.mem (fun key => key / 512 ^ L = p) L c t) : UserTree s₀.mem L t := by
  induction L generalizing p c t with
  | zero => exact trivial
  | succ L ih =>
      obtain ⟨-, ht, hentries⟩ := h
      intro i hi hp hl
      have hentry := hentries i hi
      by_cases hL : L = 0
      · rw [if_pos hL]
        by_contra hu
        rw [Bool.not_eq_false] at hu
        rw [EntryCloned, if_pos (pteUserTable_iff.mpr ⟨hp, hl, hu⟩)] at hentry
        obtain ⟨v, -, -, -, hbelow⟩ := hentry
        rw [hL] at hbelow
        exact hbelow
      · rw [if_neg hL]
        exact userTree_entry h₀ ht hL hi hp hl hentry hapart
          (fun key hkey => (prefix_digit hi hkey).1) fun v u hvu hbelow => ih hvu hbelow

/-- The tables of the source are where they were. -/
theorem userTable_source (h₀ : VmmInv own s₀) (hr : MapRoot own pmap)
    (hc : Cloning own own' s₀ s') (hkey : key < userKeys pmap.level.num) (hM : M < pmap.level.num)
    {g : Hit → Hit} (hreach : Reach 512 pageKind (pteAt s₀.mem) key pmap.level.num pmap.directory M
      u g) : UserTable s'.mem pmap u := by
  have hroot := mapRoot_label hr (userKeys_lt (mapRoot_num hr) hkey)
  obtain ⟨-, g', hreach'⟩ := stage_same h₀ hc.same ⟨hroot, g, hreach⟩
  exact ⟨key, M, g', hkey, hM, hreach'⟩

/-- **A copy that shares the kernel's half, and no table of the user half, was made of a page map
    that is `Clonable`.** -/
theorem clonable_of_cloned (h₀ : VmmInv own s₀) (hr : MapRoot own pmap)
    (h : MapCloned own own' s₀ s' pmap q)
    (hapart : ∀ u, UserTable s'.mem q u → ¬ UserTable s'.mem pmap u)
    (hshared : ∀ i, 256 ≤ i → i < 512 →
      SameTable (pteAt s'.mem pmap.directory i) (pteAt s'.mem q.directory i)) :
    Clonable s₀.mem pmap := by
  have hnum := mapRoot_num hr
  obtain ⟨T, hT⟩ : ∃ T, pmap.level.num = T + 1 := ⟨pmap.level.num - 1, by omega⟩
  have hcloned := h.cloned
  rw [hT] at hcloned
  obtain ⟨-, ht, hentries⟩ := hcloned
  have hdir : own pmap.directory ≠ none := by rw [hr.root]; exact Option.some_ne_none _
  have hboth : Apart s'.mem s₀.mem (fun key => key < userKeys pmap.level.num) pmap.level.num
      q.directory pmap.directory := by
    intro key M u g g' hkey hM hc hs
    refine hapart u ⟨key, M, g, ?_, ?_, ?_⟩ (userTable_source h₀ hr h.cloning hkey hM hs)
    all_goals rw [h.level]
    all_goals assumption
  rw [hT] at hboth
  refine ⟨fun i hi hp hl => ?_, fun i hlo hi => ?_⟩
  · have hi512 : i < 512 := by omega
    rw [hT, Nat.add_sub_cancel]
    refine userTree_entry h₀ ht (by omega) hi512 hp hl (hentries i hi512) hboth (fun key hkey => ?_)
      fun v u hvu hbelow => userTree_of_apart h₀ hvu hbelow
    rw [userKeys, Nat.add_sub_cancel]
    exact (Nat.div_lt_iff_lt_mul (Nat.pow_pos (by decide))).mp (by omega)
  · by_contra he
    rw [Bool.not_eq_false] at he
    have hentry := hentries i hi
    rw [EntryCloned, if_pos he] at hentry
    obtain ⟨v, hv, hfresh, hlink, -⟩ := hentry
    obtain ⟨htable, hchild⟩ := child_user h₀ ht (by omega) hi he
    have hsame := hshared i hlo hi
    rw [h.cloning.same _ hdir i hi, hlink] at hsame
    rcases hsame with ⟨habsent, -⟩ | ⟨d, hd, hd'⟩
    · rw [htable.present] at habsent
      cases habsent
    · rw [← htable.table, hd.table, ← hd'.table, (isTable_link hv (Or.inr rfl)).table, hfresh]
        at hchild
      cases hchild

end Back

/-! ## 3. Page maps side by side -/

open Classical in
/-- The labels of the tables that lookups from the directory of `pmap` come by. -/
noncomputable def ownPart (own : Uptr → Option (Nat × Nat)) (pmap : PageMap) (s : VmmState) :
    Uptr → Option (Nat × Nat) := fun u =>
  if ∃ key M, Stage own s pmap.level.num pmap.directory key M u then own u else none

/-- Tables `own` labels for pages of the user half have no label in `own'`. -/
def UserApart (own own' : Uptr → Option (Nat × Nat)) (top : Nat) : Prop :=
  ∀ u L key, key < userKeys top → own u = some (L, key / 512 ^ L) → own' u = none

/-- **Two page maps in one memory** whose user halves share no table. -/
structure Sides (own own' : Uptr → Option (Nat × Nat)) (p q : PageMap) (s : VmmState) : Prop where
  left : VmmInv own s ∧ MapRoot own p
  right : VmmInv own' s ∧ MapRoot own' q
  level : q.level = p.level
  apart : UserApart own own' p.level.num
  apart' : UserApart own' own p.level.num

/-- A call for a user page of `pmap`. -/
inductive UserCall (pages1gb : Bool) (pmap : PageMap) (s s' : VmmState) : Prop where
  | map {va pa flags : U64} {size : Usize} {L : Nat} (ha : MapArgs va pa flags size)
      (hsize : LeafLevel size L) (hva : va.toNat < 4096 * 512 ^ pmap.level.num / 2)
      (hrun : vmmMap pages1gb pmap va pa flags size s = .ok ((), s'))
  | unmap {va : U64} (hva : va.toNat < 4096 * 512 ^ pmap.level.num / 2)
      (hrun : vmmUnmap pmap va s = .ok ((), s'))

/-- Calls for user pages of either page map. -/
def UserRun (pages1gb : Bool) (p q : PageMap) : VmmState → VmmState → Prop :=
  Relation.ReflTransGen fun s s' => UserCall pages1gb p s s' ∨ UserCall pages1gb q s s'

section Sides

variable {own own' own₁ : Uptr → Option (Nat × Nat)} {s s' : VmmState} {t u : Uptr}
  {pages1gb : Bool} {p q pmap : PageMap} {va pa flags : U64} {L top : Nat}

theorem ownPart_eq {l : Nat × Nat} : ownPart own pmap s u = some l ↔
    own u = some l ∧ ∃ key M, Stage own s pmap.level.num pmap.directory key M u := by
  unfold ownPart
  split
  · rename_i h
    exact ⟨fun hu => ⟨hu, h⟩, fun hu => hu.1⟩
  · rename_i h
    exact ⟨fun hu => (by cases hu), fun hu => absurd hu.2 h⟩

/-- The tables of one page map are labelled for themselves. -/
theorem vmmInv_part (h : VmmInv own s) : VmmInv (ownPart own pmap s) s := by
  refine ⟨fun t L r i u f ht hi hk => ?_, fun t L r ht => h.frame t L r (ownPart_eq.mp ht).1,
    fun t L r i ht hi => h.entries t L r i (ownPart_eq.mp ht).1 hi, fun f hf => ?_, h.nodup⟩
  · obtain ⟨hown, key, M, hs⟩ := ownPart_eq.mp ht
    have hlabel := stage_label h hs
    rw [hown] at hlabel
    cases hlabel
    obtain ⟨K, rfl, hu⟩ := h.labelled t _ _ i u f hown hi hk
    refine ⟨K, rfl, ownPart_eq.mpr ⟨hu, (key / 512 ^ (K + 1) * 512 + i) * 512 ^ K, K, ?_⟩⟩
    have hkey : (key / 512 ^ (K + 1) * 512 + i) * 512 ^ K / 512 ^ K =
        key / 512 ^ (K + 1) * 512 + i := Nat.mul_div_cancel _ (Nat.pow_pos (by decide))
    obtain ⟨hupper, hdigit⟩ := prefix_digit hi hkey
    obtain ⟨hroot, g, hreach⟩ := hs
    rw [← hdigit] at hk
    exact ⟨by rw [hroot, div_pow_congr hupper (reach_level hreach)], _,
      .down (reach_key hreach hupper) hk⟩
  · refine ⟨(h.free f hf).1, ?_⟩
    unfold ownPart
    rw [(h.free f hf).2, ite_self]

theorem mapRoot_part (hr : MapRoot own pmap) : MapRoot (ownPart own pmap s) pmap := by
  refine ⟨hr.level, ownPart_eq.mpr ⟨hr.root, 0, pmap.level.num, ?_, id, .here⟩⟩
  rw [Nat.zero_div]
  exact hr.root

theorem sides_symm (h : Sides own own' p q s) : Sides own' own q p s := by
  refine ⟨h.right, h.left, h.level.symm, ?_, ?_⟩
  · rw [h.level]
    exact h.apart'
  · rw [h.level]
    exact h.apart

theorem userKey_lt (ht : top = 4 ∨ top = 5) (hva : va.toNat < 4096 * 512 ^ top / 2) :
    pageNumber top va < userKeys top := by
  unfold pageNumber userKeys
  rcases ht with rfl | rfl <;> omega

/-- Tables that keep their entries keep the walks. -/
theorem hwWalk_same (h : VmmInv own s) (hr : MapRoot own pmap)
    (hsame : ∀ u, own u ≠ none → ∀ j, j < 512 → pteAt s'.mem u j = pteAt s.mem u j) (x : U64) :
    hwWalk s'.mem pmap x = hwWalk s.mem pmap x := by
  have hroot := mapRoot_label hr (pageNumber_lt pmap.level.num x)
  exact look_congr (by decide) h.labelled (fun u M _ hu =>
    hsame u (by rw [hu]; exact Option.some_ne_none _) _ (slot_lt _ M)) hroot

/-- What a call for a user page of `p` leaves of `q`. -/
structure Kept (own' own₁ : Uptr → Option (Nat × Nat)) (p q : PageMap) (s s' : VmmState) :
    Prop where
  sides : Sides own₁ own' p q s'
  same : ∀ u, own' u ≠ none → ∀ j, j < 512 → pteAt s'.mem u j = pteAt s.mem u j

theorem kept_put (h : Sides own own' p q s) (ha : LeafArgs pa flags L)
    (hva : va.toNat < 4096 * 512 ^ p.level.num / 2)
    (hp : Put p va pa flags own s own₁ s' L) : Kept own' own₁ p q s s' := by
  obtain ⟨⟨hinv, hr⟩, ⟨hinv', hr'⟩, hlevel, hapart, hapart'⟩ := h
  have hkey := userKey_lt (mapRoot_num hr) hva
  have hgrow := leads_put hinv hr ha hp
  have hsame : ∀ u, own' u ≠ none → ∀ j, j < 512 → pteAt s'.mem u j = pteAt s.mem u j := by
    intro u hu j hj
    obtain ⟨⟨M, r⟩, hM⟩ := Option.ne_none_iff_exists'.mp hu
    refine put_off hinv hr ha hp (hinv'.frame u M r hM) (fun hf => hu (hinv'.free u hf).2)
      (fun K k hk hupper => ?_) hj
    rw [hupper] at hk
    exact hu (hapart u K _ hkey hk)
  refine ⟨⟨⟨hgrow.inv, mapRoot_grow hr hgrow⟩, ⟨vmmInv_same hinv' hsame
    (fun f hf => hinv'.free f (hgrow.suffix.subset hf)) hgrow.inv.nodup, hr'⟩, hlevel, ?_, ?_⟩,
    hsame⟩
  · intro u M key hkey hu
    by_contra hne
    rcases hgrow.fresh u (by rw [hu]; exact Option.some_ne_none _) with hold | hold
    · obtain ⟨⟨K, k⟩, hK⟩ := Option.ne_none_iff_exists'.mp hold
      have hkeep := hgrow.keep u K k hK
      rw [hu] at hkeep
      cases hkeep
      exact hne (hapart u M key hkey hK)
    · exact hne (hinv'.free u hold).2
  · intro u M key hkey hu
    by_contra hne
    rcases hgrow.fresh u hne with hold | hold
    · exact hold (hapart' u M key hkey hu)
    · rw [(hinv'.free u hold).2] at hu
      cases hu

theorem kept_cleared (h : Sides own own' p q s) (hva : va.toNat < 4096 * 512 ^ p.level.num / 2)
    (hc : Cleared s (pageNumber p.level.num va) p.level.num p.directory s') :
    Kept own' own p q s s' := by
  obtain ⟨⟨hinv, hr⟩, ⟨hinv', hr'⟩, hlevel, hapart, hapart'⟩ := h
  have hkey := userKey_lt (mapRoot_num hr) hva
  cases hc with
  | missed _ hs =>
      subst hs
      exact ⟨⟨⟨hinv, hr⟩, ⟨hinv', hr'⟩, hlevel, hapart, hapart'⟩, fun _ _ _ _ => rfl⟩
  | @found K t g hit _ hreach _ hs =>
      subst hs
      have hi := slot_lt (pageNumber p.level.num va) K
      have ht := reach_label (by decide) hinv.labelled
        (mapRoot_label hr (pageNumber_lt p.level.num va)) hreach
      have hgrow := grow_stored hinv ht hi entryOk_zero fun u f hk => by
        exact absurd (pageKind_next hk).1 (by decide)
      have hsame : ∀ u, own' u ≠ none → ∀ j, j < 512 →
          pteAt (s.stored t (slot (pageNumber p.level.num va) K) 0).mem u j = pteAt s.mem u j := by
        intro u hu j hj
        obtain ⟨⟨M, r⟩, hM⟩ := Option.ne_none_iff_exists'.mp hu
        refine (pteAt_store64 (hinv.frame t _ _ ht) (hinv'.frame u M r hM) hi hj).trans
          (if_neg fun heq => hu ?_)
        rw [heq.1]
        exact hapart t _ _ hkey ht
      exact ⟨⟨⟨hgrow.inv, hr⟩, ⟨vmmInv_same hinv' hsame hinv'.free hinv'.nodup, hr'⟩, hlevel,
        hapart, hapart'⟩, hsame⟩

/-- **A call for a user page of one side.** -/
theorem kept_call (h : Sides own own' p q s) (hc : UserCall pages1gb p s s') :
    ∃ own₁, Kept own' own₁ p q s s' := by
  obtain ⟨hinv, hr⟩ := h.left
  cases hc with
  | map ha hsize hva hrun =>
      obtain ⟨own₁, hp⟩ := ends_ok (ends_vmmMap_put pages1gb hsize ha hinv hr) hrun
      exact ⟨own₁, kept_put h (leafArgs_of_leafLevel hsize ha) hva hp⟩
  | @unmap va hva hrun =>
      exact ⟨own, kept_cleared h hva ((wp_of_eq hrun).mp (wp_vmmUnmap_cleared va hinv hr))⟩

/-- The sides stay apart in every run of calls for user pages. -/
theorem sides_run (h : Sides own own' p q s) (hrun : UserRun pages1gb p q s s') :
    ∃ own₁ own₂, Sides own₁ own₂ p q s' := by
  induction hrun with
  | refl => exact ⟨own, own', h⟩
  | tail _ hc ih =>
      obtain ⟨own₁, own₂, ih⟩ := ih
      rcases hc with hc | hc
      · obtain ⟨own₃, hkept⟩ := kept_call ih hc
        exact ⟨own₃, own₂, hkept.sides⟩
      · obtain ⟨own₃, hkept⟩ := kept_call (sides_symm ih) hc
        exact ⟨own₁, own₃, sides_symm hkept.sides⟩

end Sides

/-- After any calls for user pages of either, one for `p` changes nothing for `q`. -/
def Independent (pages1gb : Bool) (p q : PageMap) (s : VmmState) : Prop :=
  ∀ s₁ s₂, UserRun pages1gb p q s s₁ → UserCall pages1gb p s₁ s₂ → ∀ x,
    hwWalk s₂.mem q x = hwWalk s₁.mem q x

/-- **Page maps side by side do not see each other's user pages.** -/
theorem independent_of_sides {own own' : Uptr → Option (Nat × Nat)} {p q : PageMap} {s : VmmState}
    (pages1gb : Bool) (h : Sides own own' p q s) : Independent pages1gb p q s := by
  intro s₁ s₂ hrun hc x
  obtain ⟨own₁, own₂, hsides⟩ := sides_run h hrun
  obtain ⟨own₃, hkept⟩ := kept_call hsides hc
  exact hwWalk_same hsides.right.1 hsides.right.2 hkept.same x

/-! ## 4. The first pages of a page map -/

section Fresh

variable {own own' own₁ : Uptr → Option (Nat × Nat)} {s s' s₁ : VmmState} {root t u c : Uptr}
  {tf : U64} {key top K M q j : Nat}

theorem leads_top (hl : Leads key top root tf own s own' s' top t) :
    t = root ∧ own' = own ∧ s' = s := by
  cases hl with
  | root => exact ⟨rfl, rfl, rfl⟩
  | down h _ => exact absurd (leads_level h) (by omega)

/-- The first step of a way down. -/
theorem leads_uncons (hl : Leads key (top + 1) root tf own s own' s' K t) (hK : K ≤ top) :
    ∃ c own₁ s₁, Descended own own₁ s s₁ root (slot key top) top (key / 512 ^ (top + 1)) tf c ∧
      Leads key top c tf own₁ s₁ own' s' K t := by
  induction hl with
  | root => exact absurd hK (Nat.not_succ_le_self top)
  | @down own₁ own₂ s₁ s₂ K t c h hd ih =>
      rcases Nat.lt_or_eq_of_le hK with hlt | rfl
      · obtain ⟨c', own₃, s₃, hfirst, hrest⟩ := ih hlt
        exact ⟨c', own₃, s₃, hfirst, hrest.down hd⟩
      · obtain ⟨rfl, rfl, rfl⟩ := leads_top h
        exact ⟨c, own₂, s₂, hd, .root⟩

/-- A way down writes no table above it. -/
theorem leads_above (h : VmmInv own s) (hroot : own root = some (top, key / 512 ^ top))
    (hl : Leads key top root tf own s own' s' K t) (hK : K ≠ 0) (hu : own u = some (M, q))
    (hM : top < M) (hj : j < 512) : pteAt s'.mem u j = pteAt s.mem u j := by
  induction hl with
  | root => rfl
  | @down own₁ own₂ s₁ s₂ K t c hw hd ih =>
      obtain ⟨hgrow, hstage⟩ := leads_stage h hroot hw (Nat.succ_ne_zero K)
      have hlev := leads_level hw
      have ht := stage_label hgrow.inv hstage
      have hu₁ := hgrow.keep _ _ _ hu
      refine (hd.edit u j (by rw [hu₁]; exact Option.some_ne_none _) hj fun hsame => ?_).trans
        (ih (Nat.succ_ne_zero K))
      rw [hsame.1, ht] at hu₁
      cases hu₁
      omega

/-- Where an entry is absent, a descent makes an empty table. -/
theorem descended_created {i p : Nat} (hd : Descended own own₁ s s₁ t i K p tf c)
    (habsent : ptePresent (pteAt s.mem t i) = false) :
    pteAt s₁.mem t i = c ||| tf ∧ ∀ j, j < 512 → pteAt s₁.mem c j = 0 := by
  cases hd.how with
  | created _ hnew hsub => exact ⟨hnew, hsub⟩
  | shared hold _ =>
      rw [hold.present] at habsent
      cases habsent
  | split hold _ _ _ _ =>
      rw [hold] at habsent
      cases habsent

/-- **A way down from an absent entry**: the entry leads to a new table, which was empty, and the
    rest of the way goes on from there. -/
theorem leads_created {i : Nat} (h : VmmInv own s)
    (hroot : own root = some (top + 1, key / 512 ^ (top + 1)))
    (hl : Leads key (top + 1) root tf own s own' s' K t) (hK : K ≠ 0) (hKt : K ≤ top) (e : U64)
    (hi : i < 512) (habsent : ptePresent (pteAt s.mem root (slot key top)) = false) :
    ∃ c own₁ s₁, VmmInv own₁ s₁ ∧ own₁ c = some (top, key / 512 ^ top) ∧ FrameOk c ∧
      (∀ j, j < 512 → pteAt s₁.mem c j = 0) ∧ Leads key top c tf own₁ s₁ own' s' K t ∧
      ∀ j, j < 512 → pteAt (s'.stored t i e).mem root j =
        if j = slot key top then c ||| tf else pteAt s.mem root j := by
  obtain ⟨c, own₁, s₁, hd, hrest⟩ := leads_uncons hl hKt
  obtain ⟨hgrow, hstage⟩ := leads_stage h hroot (.down .root hd) (show top ≠ 0 by omega)
  have hc := stage_label hgrow.inv hstage
  have hroot₁ := hgrow.keep _ _ _ hroot
  obtain ⟨hnew, hsub⟩ := descended_created hd habsent
  obtain ⟨hgrow', hstage'⟩ := leads_stage hgrow.inv hc hrest hK
  have ht := stage_label hgrow'.inv hstage'
  have hroot' := hgrow'.keep _ _ _ hroot₁
  have hne : root ≠ t := fun he => by
    rw [he, ht] at hroot'
    cases hroot'
    omega
  refine ⟨c, own₁, s₁, hgrow.inv, hc, hgrow.inv.frame _ _ _ hc, hsub, hrest, fun j hj => ?_⟩
  rw [editAt_stored hgrow'.inv ht hi e root j (by rw [hroot']; exact Option.some_ne_none _) hj
    fun hsame => hne hsame.1, leads_above hgrow.inv hc hrest hK hroot₁ (Nat.lt_succ_self top) hj]
  split
  · rename_i he
    rw [he, hnew]
  · rename_i he
    exact hd.edit root j (by rw [hroot]; exact Option.some_ne_none _) hj fun hsame => he hsame.2

end Fresh

section Single

variable {m : Mem} {t : Uptr} {L i : Nat}

/-- A table with one user table behind its entries. -/
theorem cloneFrames_single (hi : i < 512)
    (h : ∀ j, j < 512 → j ≠ i → pteUserTable (pteAt m t j) = false) :
    cloneFrames m (L + 1) t = entryFrames (pteAt m t i) (cloneFrames m L (pteP2v (pteAt m t i))) := by
  have hupTo : ∀ n, n ≤ 512 → framesUpTo m L t n =
      if i < n then entryFrames (pteAt m t i) (cloneFrames m L (pteP2v (pteAt m t i))) else 0 := by
    intro n
    induction n with
    | zero => exact fun _ => rfl
    | succ n ih =>
        intro hn
        rw [framesUpTo_succ, ih (by omega)]
        by_cases hin : n = i
        · subst hin
          simp
        · have hnone : entryFrames (pteAt m t n) (cloneFrames m L (pteP2v (pteAt m t n))) = 0 := by
            rw [entryFrames, h n (by omega) hin]
            rfl
          rw [hnone, Nat.add_zero]
          exact if_congr (by omega) rfl rfl
  exact (hupTo 512 (Nat.le_refl _)).trans (if_pos hi)

/-- The link to a new table. -/
theorem userTable_link {c : Uptr} (hc : FrameOk c) :
    pteUserTable (c ||| MM_PT_USER_TABLE_FLAGS) = true ∧
      pteUserTable (c ||| MM_PT_KERN_TABLE_FLAGS) = false := by
  have hbit : ∀ fl : U64, (c ||| fl).getLsbD 2 = fl.getLsbD 2 := fun fl =>
    or_bit hc (Or.inl (by decide))
  have htable := isTable_link hc (Or.inr rfl)
  refine ⟨pteUserTable_iff.mpr ⟨htable.present, htable.small, (hbit _).trans rfl⟩, ?_⟩
  refine Bool.eq_false_iff.mpr fun he => ?_
  rw [pteUserTable_iff, hbit] at he
  exact absurd he.2.2 (by decide)

end Single

section FirstPage

variable {own own' : Uptr → Option (Nat × Nat)} {s s' s₁ : VmmState} {pmap : PageMap}
  {va pa flags e : U64} {t : Uptr} {key : Nat}

/-- The two tables on the way of the first user page of 2 MB. -/
theorem clonable_leads (h : VmmInv own s) (hnum : pmap.level.num = 4)
    (hroot : own pmap.directory = some (4, key / 512 ^ 4)) (hslot : slot key 3 < 256)
    (hlow : ∀ i, i < 256 → pteAt s.mem pmap.directory i = 0)
    (hhigh : ∀ i, 256 ≤ i → i < 512 → pteUserTable (pteAt s.mem pmap.directory i) = false)
    (hl : Leads key 4 pmap.directory MM_PT_USER_TABLE_FLAGS own s own' s₁ 2 t)
    (hlarge : pteLarge e = true) :
    Clonable (s₁.stored t (slot key 1) e).mem pmap ∧
      cloneFrames (s₁.stored t (slot key 1) e).mem 4 pmap.directory = 2 := by
  have hzero : ptePresent (0 : U64) = false := by decide
  have hzeroUser : pteUserTable (0 : U64) = false := by decide
  obtain ⟨c₃, own₃, s₃, hinv₃, hc₃, hf₃, hempty₃, hl₃, hdir⟩ := leads_created h hroot hl (by decide)
    (by decide) e (slot_lt key 1) (by rw [hlow _ hslot]; exact hzero)
  obtain ⟨c₂, own₂, s₂, hinv₂, hc₂, hf₂, hempty₂, hl₂, hmid⟩ := leads_created hinv₃ hc₃ hl₃
    (by decide) (by decide) e (slot_lt key 1) (by rw [hempty₃ _ (slot_lt key 2)]; exact hzero)
  obtain ⟨rfl, rfl, rfl⟩ := leads_top hl₂
  have hleaf : ∀ j, j < 512 → pteAt (s₁.stored t (slot key 1) e).mem t j =
      if j = slot key 1 then e else 0 := by
    intro j hj
    refine (pteAt_store64 hf₂ hf₂ (slot_lt key 1) hj).trans ?_
    rw [hempty₂ j hj]
    exact if_congr (and_iff_right rfl) rfl rfl
  generalize (s₁.stored t (slot key 1) e).mem = m at *
  have hlinked₃ : IsTable (c₃ ||| MM_PT_USER_TABLE_FLAGS) c₃ := isTable_link hf₃ (Or.inr rfl)
  have hlinked₂ : IsTable (t ||| MM_PT_USER_TABLE_FLAGS) t := isTable_link hf₂ (Or.inr rfl)
  have htree₂ : UserTree m 2 t := by
    intro j hj hp hsmall
    rw [hleaf j hj] at hp hsmall
    split at hsmall
    · rw [hlarge] at hsmall
      cases hsmall
    · rename_i hne
      rw [if_neg hne, hzero] at hp
      cases hp
  have htree₃ : UserTree m 3 c₃ := by
    intro j hj hp hsmall
    rw [if_neg (by decide : ¬ 2 = 0)]
    rw [hmid j hj] at hp ⊢
    split
    · rename_i he
      refine ⟨(pteUserTable_iff.mp (userTable_link hf₂).1).2.2, ?_⟩
      rw [isTable_pteP2v hlinked₂]
      exact htree₂
    · rename_i hne
      rw [if_neg hne, hempty₃ j hj, hzero] at hp
      cases hp
  refine ⟨⟨fun i hi hp hsmall => ?_, fun i hlo hhi => ?_⟩, ?_⟩
  · rw [hdir i (by omega)] at hp ⊢
    split
    · refine ⟨(pteUserTable_iff.mp (userTable_link hf₃).1).2.2, ?_⟩
      rw [isTable_pteP2v hlinked₃, hnum]
      exact htree₃
    · rename_i hne
      rw [if_neg hne, hlow i hi, hzero] at hp
      cases hp
  · rw [hdir i hhi, if_neg (by omega)]
    exact hhigh i hlo hhi
  · have hnone₂ : cloneFrames m 2 t = 0 := by
      refine (cloneFrames_single (slot_lt key 1) fun j hj hne => ?_).trans ?_
      · rw [hleaf j hj, if_neg hne]
        exact hzeroUser
      · rw [hleaf _ (slot_lt key 1), if_pos rfl, entryFrames, pteUserTable, hlarge]
        simp
    have hone₃ : cloneFrames m 3 c₃ = 1 := by
      refine (cloneFrames_single (slot_lt key 2) fun j hj hne => ?_).trans ?_
      · rw [hmid j hj, if_neg hne, hempty₃ j hj]
        exact hzeroUser
      · rw [hmid _ (slot_lt key 2), if_pos rfl, entryFrames, if_pos (userTable_link hf₂).1,
          isTable_pteP2v hlinked₂, hnone₂]
    refine (cloneFrames_single (slot_lt key 3) fun j hj hne => ?_).trans ?_
    · rw [hdir j hj, if_neg hne]
      by_cases hj' : j < 256
      · rw [hlow j hj']
        exact hzeroUser
      · exact hhigh j (by omega) hj
    · rw [hdir _ (slot_lt key 3), if_pos rfl, entryFrames, if_pos (userTable_link hf₃).1,
        isTable_pteP2v hlinked₃, hone₃]

/-- **The first user page of 2 MB** leaves a page map that is cloned with a frame for each of the two
    tables on its way. -/
theorem clonable_first (h : VmmInv own s) (hr : MapRoot own pmap) (hlevel : pmap.level = .PML4)
    (ha : LeafArgs pa flags 2) (huser : flags.getLsbD 2 = true)
    (hslot : slot (pageNumber pmap.level.num va) 3 < 256)
    (hlow : ∀ i, i < 256 → pteAt s.mem pmap.directory i = 0)
    (hhigh : ∀ i, 256 ≤ i → i < 512 → pteUserTable (pteAt s.mem pmap.directory i) = false)
    (hp : Put pmap va pa flags own s own' s' 2) :
    Clonable s'.mem pmap ∧ cloneFrames s'.mem pmap.level.num pmap.directory = 2 := by
  have hnum : pmap.level.num = 4 := by
    rw [hlevel]
    rfl
  have hroot := mapRoot_label hr (pageNumber_lt pmap.level.num va)
  obtain ⟨s₁, t, hw, rfl⟩ := hp
  unfold Way at hw
  rw [tableFlags_user huser] at hw
  generalize hkey : pageNumber pmap.level.num va = key at hw hslot hroot ⊢
  rw [hnum] at hw hroot
  rw [hnum]
  exact clonable_leads h hnum hroot hslot hlow hhigh hw (leafPte_large ha (by decide))

/-- A kernel page behind an absent top-level entry makes a table without the user bit there. -/
theorem put_kernel {T L : Nat} (h : VmmInv own s) (hr : MapRoot own pmap)
    (hnum : pmap.level.num = T + 1) (hL : L ≠ 0) (hLT : L ≤ T)
    (hkern : wayFlags flags = MM_PT_KERN_TABLE_FLAGS)
    (habsent : ptePresent (pteAt s.mem pmap.directory (topSlot pmap va)) = false)
    (hp : Put pmap va pa flags own s own' s' L) :
    ptePresent (pteAt s'.mem pmap.directory (topSlot pmap va)) = true ∧
    ∀ j, j < 512 → pteUserTable (pteAt s.mem pmap.directory j) = false →
      pteUserTable (pteAt s'.mem pmap.directory j) = false := by
  have hroot := mapRoot_label hr (pageNumber_lt pmap.level.num va)
  obtain ⟨s₁, t, hw, rfl⟩ := hp
  unfold topSlot at habsent ⊢
  rw [hnum, Nat.add_sub_cancel] at habsent ⊢
  unfold Way at hw
  rw [hnum, hkern] at hw
  rw [hnum] at hroot
  obtain ⟨c, -, -, -, -, hc, -, -, hentries⟩ := leads_created h hroot hw hL hLT
    (leafPte pa flags L) (slot_lt _ (L - 1)) habsent
  refine ⟨?_, fun j hj hold => ?_⟩
  · rw [hentries _ (slot_lt _ T), if_pos rfl]
    exact (isTable_link hc (Or.inl rfl)).present
  · rw [hentries j hj]
    split
    · exact (userTable_link hc).2
    · exact hold

/-- The walk of a user page that was just mapped. -/
theorem walk_userPut {L : Nat} (h : VmmInv own s) (hr : MapRoot own pmap) (ha : LeafArgs pa flags L)
    (huser : flags.getLsbD 2 = true) (hp : Put pmap va pa flags own s own' s' L) :
    ∃ hit, hwWalk s'.mem pmap va = some hit ∧ hit.user = true ∧
      hit.entry = leafPte pa flags L ∧ hit.level = L := by
  have hroot := mapRoot_label hr (pageNumber_lt pmap.level.num va)
  have hlev := ha.level
  obtain ⟨K, rfl⟩ : ∃ K, L = K + 1 := ⟨L - 1, by omega⟩
  obtain ⟨s₁, t, hw, rfl⟩ := hp
  obtain ⟨hgrow, hstage⟩ := leads_stage h hroot hw (Nat.succ_ne_zero K)
  have hway := userWay_leads h hroot hw (Nat.succ_ne_zero K) (tableFlags_user huser)
  obtain ⟨g, hreach, hg⟩ := @userWay_stored _ _ _ _ _ _ _ (leafPte pa flags (K + 1)) hgrow.inv
    hstage hway
  obtain ⟨b, hb⟩ := reach_user hreach
  have hkind : pageKind (K + 1) (pteAt (s₁.stored t (slot (pageNumber pmap.level.num va) K)
      (leafPte pa flags (K + 1))).mem t (slot (pageNumber pmap.level.num va) K)) =
      .leaf (.leaf (K + 1) (leafPte pa flags (K + 1))) := by
    rw [pteAt_stored hgrow.inv (stage_label hgrow.inv hstage) (slot_lt _ K)]
    exact leafPte_kind ha
  refine ⟨g (.leaf (K + 1) (leafPte pa flags (K + 1))), ?_, hg _, (hb _).2,
    reach_hitLevel hreach _⟩
  exact (walk_reach hreach).trans (by rw [walk_leaf hkind]; rfl)

end FirstPage

/-! ## 5. Clones -/

/-- `q` is a clone of `pmap`: it resolves every address as the source does, with the same
    permissions; the tables of its user half are its own, and calls for user pages of either are
    not seen by the other; the kernel's half is shared. -/
structure Clone (pages1gb : Bool) (pmap q : PageMap) (s s' : VmmState) : Prop where
  resolves : ∀ x, resolve s'.mem q x = resolve s.mem pmap x
  perms : ∀ x, effective s'.mem q x = effective s.mem pmap x
  apart : ∀ u, UserTable s'.mem q u → ¬ UserTable s'.mem pmap u
  later : Independent pages1gb pmap q s' ∧ Independent pages1gb q pmap s'
  shared : ∀ i, 256 ≤ i → i < 512 →
    SameTable (pteAt s'.mem pmap.directory i) (pteAt s'.mem q.directory i)

/-- The kernel's page map as the bootloader leaves it: tables that form a tree, which can be
    written and executed through. -/
structure KernelTables (fiveLevel : Bool) (kmap : PageMap) (s : VmmState) : Prop where
  level : kmap.level = if fiveLevel then .PML5 else .PML4
  tables : ∃ own, VmmInv own s ∧ own kmap.directory = some (kmap.level.num, 0) ∧
    Entries TableBits own s

/-- The page maps made by `vmm_make_page_map` and any calls of `vmm_map` for pages of 4 KB and of
    2 MB. -/
inductive SourceRun (pages1gb fiveLevel : Bool) : PageMap → VmmState → Prop where
  | make {kmap p : PageMap} {s s' : VmmState} (h : KernelTables fiveLevel kmap s)
      (hrun : vmmMakePageMap fiveLevel kmap s = .ok (p, s')) : SourceRun pages1gb fiveLevel p s'
  | map {p : PageMap} {s s' : VmmState} {va pa flags : U64} {size : Usize} {L : Nat}
      (h : SourceRun pages1gb fiveLevel p s) (ha : MapArgs va pa flags size)
      (hsize : LeafLevel size L) (hrun : vmmMap pages1gb p va pa flags size s = .ok ((), s')) :
      SourceRun pages1gb fiveLevel p s'

section Clones

variable {own own' : Uptr → Option (Nat × Nat)} {s s₀ s' : VmmState} {t u : Uptr}
  {pages1gb fiveLevel : Bool} {p q pmap kmap : PageMap} {va pa flags x : U64} {L M k : Nat}

/-- A source is a tree of tables that can be written and executed through. -/
theorem sourceRun_inv (h : SourceRun pages1gb fiveLevel pmap s) :
    ∃ own, VmmInv own s ∧ MapRoot own pmap ∧ Entries TableBits own s := by
  induction h with
  | @make kmap p s s' h hrun =>
      obtain ⟨own, hinv, hroot, hbits⟩ := h.tables
      cases hfree : s.free with
      | nil =>
          have hstops : Stops (vmmMakePageMap fiveLevel kmap) s noFrames :=
            stops_bind_left (pmmAllocFrame_stops hfree)
          rw [show _ = _ from hstops] at hrun
          cases hrun
      | cons c rest =>
          obtain ⟨rfl, hcopied, hrest⟩ :=
            (wp_of_eq hrun).mp (wp_vmmMakePageMap hinv h.level hroot hfree)
          refine ⟨_, vmmInv_copied hinv hroot hfree hcopied hrest, ⟨?_, Function.update_self _ _ _⟩,
            fun u L r j hu hj => ?_⟩
          · rw [h.level]
            cases fiveLevel with
            | false => exact Or.inl rfl
            | true => exact Or.inr rfl
          · rcases copied_entry hinv hroot hcopied hu hj with h0 | ⟨v, hv, he⟩
            · rw [h0]
              exact tableBits_inherited.zero L
            · rw [he]
              exact hbits v L r j hv hj
  | map _ ha hsize hrun ih =>
      obtain ⟨own, hinv, hr, hbits⟩ := ih
      have hleaf := leafArgs_of_leafLevel hsize ha
      have hlev := hleaf.level
      obtain ⟨own', hp⟩ := ends_ok (ends_vmmMap_put pages1gb hsize ha hinv hr) hrun
      have hgrow := leads_put hinv hr hleaf hp
      exact ⟨own', hgrow.inv, mapRoot_grow hr hgrow, entries_put tableBits_inherited hinv hbits hr
        (by omega) (tableBits_leaf hleaf) hp⟩

/-- A table of the copy for a page of the user half. -/
theorem userStage_new (hr : MapRoot own pmap) (h : MapCloned own own' s₀ s' pmap q)
    (hok : Clonable s₀.mem pmap)
    (hu : ownPart own' q s' u = some (L, k / 512 ^ L)) (hk : k < userKeys pmap.level.num) :
    own u = none := by
  obtain ⟨hown, key, M, hs⟩ := ownPart_eq.mp hu
  have hlabel := stage_label h.cloning.grow.inv hs
  rw [hown] at hlabel
  obtain ⟨rfl, hupper⟩ : L = M ∧ k / 512 ^ L = key / 512 ^ M := by
    injection hlabel with hlabel
    exact Prod.mk.inj hlabel
  obtain ⟨-, g, hreach⟩ := hs
  have hle := reach_level hreach
  by_cases htop : L = q.level.num
  · subst htop
    cases hreach with
    | here => exact h.fresh
    | down hd _ =>
        have := reach_level hd
        omega
  · refine (userTable_new (mapRoot_num hr) h hok ⟨k, L, g, ?_, by omega, reach_key hreach hupper⟩).1
    rw [h.level]
    exact hk

/-- **The copy of a page map that is `Clonable` stands beside it.** -/
theorem sides_of_cloned (h₀ : VmmInv own s₀) (hr : MapRoot own pmap)
    (h : MapCloned own own' s₀ s' pmap q) (hok : Clonable s₀.mem pmap) :
    Sides own (ownPart own' q s') pmap q s' := by
  have hgrow := h.cloning.grow
  have hr' : MapRoot own' q := by
    refine ⟨by rw [h.level]; exact hr.level, ?_⟩
    rw [h.level]
    exact (cloned_labels h.cloned).1
  refine ⟨⟨vmmInv_same h₀ h.cloning.same (fun f hf => h₀.free f (hgrow.suffix.subset hf))
    hgrow.inv.nodup, hr⟩, ⟨vmmInv_part hgrow.inv, mapRoot_part hr'⟩, h.level,
    fun u L k hk hu => ?_, fun u L k hk hu => userStage_new hr h hok hu hk⟩
  by_contra hne
  obtain ⟨⟨M, r⟩, hM⟩ := Option.ne_none_iff_exists'.mp hne
  have hkeep := hgrow.keep u _ _ hu
  rw [(ownPart_eq.mp hM).1] at hkeep
  cases hkeep
  rw [userStage_new hr h hok hM hk] at hu
  cases hu

/-- The copy leads every walk where the source does. -/
theorem hwWalk_cloned (h₀ : VmmInv own s₀) (hbits : Entries TableBits own s₀)
    (h : MapCloned own own' s₀ s' pmap q) (x : U64) : hwWalk s'.mem q x = hwWalk s₀.mem pmap x := by
  unfold hwWalk
  rw [h.level]
  exact cloned_walk h₀ hbits h.cloning h.cloned (Nat.div_eq_of_lt (pageNumber_lt _ x))

/-- **A copy of a page map that is `Clonable` is a clone.** -/
theorem clone_of_cloned (pages1gb : Bool) (h₀ : VmmInv own s₀) (hr : MapRoot own pmap)
    (hbits : Entries TableBits own s₀) (h : MapCloned own own' s₀ s' pmap q)
    (hok : Clonable s₀.mem pmap) : Clone pages1gb pmap q s₀ s' := by
  have hnum := mapRoot_num hr
  have hsides := sides_of_cloned h₀ hr h hok
  have hwalk := hwWalk_cloned h₀ hbits h
  refine ⟨fun x => ?_, fun x => ?_, fun u hu hu' => ?_,
    ⟨independent_of_sides _ hsides, independent_of_sides _ (sides_symm hsides)⟩,
    fun i hlo hi => ?_⟩
  · unfold resolve
    rw [hwalk]
  · unfold effective
    rw [hwalk]
  · obtain ⟨key, M, g, hkey, -, hreach⟩ := hu'
    have hlabel := reach_label (by decide) hsides.left.1.labelled
      (mapRoot_label hr (userKeys_lt hnum hkey)) hreach
    rw [(userTable_new hnum h hok hu).1] at hlabel
    cases hlabel
  · obtain ⟨T, hT⟩ : ∃ T, pmap.level.num = T + 1 := ⟨pmap.level.num - 1, by omega⟩
    have hcloned := h.cloned
    rw [hT] at hcloned
    obtain ⟨-, ht, hentries⟩ := hcloned
    have hentry := hentries i hi
    have hsame := h.cloning.same _ (by rw [ht]; exact Option.some_ne_none _) i hi
    rw [EntryCloned, hok.kernel i hlo hi, if_neg (by decide), copyPte] at hentry
    rw [hsame, hentry]
    cases hp : ptePresent (pteAt s₀.mem pmap.directory i) with
    | false =>
        refine Or.inl ⟨hp, ?_⟩
        rw [if_neg (by decide)]
        decide
    | true =>
        rw [if_pos rfl]
        exact sameTable_refl h₀ ht (by omega) hi

/-- **`vmm_clone_page_map` makes a clone exactly of the page maps that are `Clonable`**, with a free
    frame for the directory and one for each table that is copied. -/
theorem vmmClonePageMap_iff (h : SourceRun pages1gb fiveLevel pmap s) :
    (∃ q s', vmmClonePageMap pmap s = .ok (q, s') ∧ Clone pages1gb pmap q s s') ↔
      Clonable s.mem pmap ∧ cloneFrames s.mem pmap.level.num pmap.directory < s.free.length := by
  obtain ⟨own, hinv, hr, hbits⟩ := sourceRun_inv h
  have hends := ends_vmmClonePageMap hinv hr
  constructor
  · intro hclone
    obtain ⟨q, s', hrun, hclone⟩ := hclone
    obtain ⟨own', hc⟩ := ends_ok hends hrun
    have hframes := hc.frames
    exact ⟨clonable_of_cloned hinv hr hc hclone.apart hclone.shared, by omega⟩
  · intro hok
    obtain ⟨hok, hfree⟩ := hok
    obtain ⟨q, s', hrun, own', hc⟩ : wp (vmmClonePageMap pmap) s fun q s' =>
        ∃ own', MapCloned own own' s s' pmap q := by
      refine wp_of_ends (ends_mono hends (fun _ _ hc => hc) fun _ hstop => ?_)
      rcases hstop with hfew | hpage
      · omega
      · exact hpage (noPage_clonable (mapRoot_num hr) hok)
    exact ⟨q, s', hrun, clone_of_cloned pages1gb hinv hr hbits hc hok⟩

/-- The kernel's page map after any calls of its own. -/
theorem kernelTables_built (h : Built pages1gb kmap s)
    (hlevel : kmap.level = if fiveLevel then .PML5 else .PML4) : KernelTables fiveLevel kmap s := by
  obtain ⟨own, hperm⟩ := built_permInv h
  exact ⟨hlevel, own, hperm.page.inv, hperm.page.root.root, hperm.bits⟩

end Clones

/-- The kernel's page map has a page, and a page map made after it gets a user page of 2 MB: two
    tables are copied for its clone, and the kernel's stay shared. -/
theorem vmmClonePageMap_two_tables : wp (do
      vmmMap true zeroedMap 0xFFFFFFFF80000000 0x200000 MM_PT_FLAG_WRITE MM_PAGE_4KB
      let p ← vmmMakePageMap false zeroedMap
      vmmMap true p 0x400000 0x600000 MM_PT_FLAG_USER MM_PAGE_2MB
      return p) zeroedState fun p s =>
        cloneFrames s.mem 4 p.directory = 2 ∧ ptePresent (pteAt s.mem p.directory 511) = true ∧
        (∃ hit, hwWalk s.mem p 0x400000 = some hit ∧ hit.user = true ∧ hit.level = 2) ∧
        ∃ q s', vmmClonePageMap p s = .ok (q, s') ∧ Clone true p q s s' := by
  have hmap := isPageMap_empty zeroedMap_empty
  have hkargs : MapArgs 0xFFFFFFFF80000000 0x200000 MM_PT_FLAG_WRITE MM_PAGE_4KB := kernelPage_args
  have huargs : MapArgs 0x400000 0x600000 MM_PT_FLAG_USER MM_PAGE_2MB :=
    ⟨Or.inr (Or.inl rfl), rfl, rfl, by simp, rfl⟩
  have hfour : zeroedMap.level.num = 4 := rfl
  have hnine : zeroedState.free.length = 9 := rfl
  have hzero : ∀ i, i < 512 → pteAt zeroedState.mem zeroedMap.directory i = 0 := fun i _ =>
    load64_zero _
  have hcanon : Canonical zeroedMap.level.num 0xFFFFFFFF80000000 := by
    refine Or.inr ?_
    simp [zeroedMap, PageMapLevel.num]
  -- the kernel's page
  obtain ⟨_, s₁, hrun₁, own₁, hput₁⟩ := wp_vmmMap_4KB true hkargs hmap.inv hmap.root
    (zeroedState_frames (by decide))
  have hbuilt : Built true zeroedMap s₁ := .map (.empty zeroedMap_empty) hkargs hcanon
    (zeroedState_frames (by decide)) hrun₁
  have hleaf₁ := leafArgs_of_leafLevel (Or.inl ⟨rfl, rfl⟩) hkargs
  have hgrow₁ := leads_put hmap.inv hmap.root hleaf₁ hput₁
  have hroot₁ := mapRoot_grow hmap.root hgrow₁
  have hframes₁ := put_frames hput₁
  obtain ⟨hpresent₁, hnone₁⟩ := put_kernel hmap.inv hmap.root hfour (by decide) (by decide) rfl
    (by rw [hzero _ (by decide)]; decide) hput₁
  -- the page map made after it
  obtain ⟨c, rest, hfree⟩ := List.exists_cons_of_length_pos (l := s₁.free) (by omega)
  obtain ⟨p, s₂, hrun₂, rfl, hcopied, hfree₂⟩ :=
    @wp_vmmMakePageMap zeroedMap _ s₁ _ _ _ false hgrow₁.inv rfl hroot₁.root hfree
  have hsource₂ : SourceRun true false _ s₂ := .make (kernelTables_built hbuilt rfl) hrun₂
  obtain ⟨own₂, hinv₂, hr₂, -⟩ := sourceRun_inv hsource₂
  have hframes₂ : s₁.free.length = s₂.free.length + 1 := by rw [hfree, hfree₂]; rfl
  -- the user page
  obtain ⟨_, s₃, hrun₃, own₃, hput₃⟩ := wp_vmmMap_2MB true huargs hinv₂ hr₂ (by omega)
  have hframes₃ := put_frames hput₃
  have hleaf₃ := leafArgs_of_leafLevel (Or.inr ⟨rfl, rfl⟩) huargs
  have htop₃ := (topMapped_put hinv₂ hr₂ hleaf₃ hput₃).top
  have hhigh₂ : ∀ i, 256 ≤ i → i < 512 →
      pteUserTable (pteAt s₂.mem c i) = false := fun i hlo hhi => by
    rw [hcopied.upper i hlo hhi]
    exact hnone₁ i hhi (by rw [hzero i hhi]; decide)
  obtain ⟨hok, htwo⟩ := clonable_first hinv₂ hr₂ rfl hleaf₃ rfl
    (show slot (pageNumber 4 0x400000) 3 < 256 by decide) hcopied.lower hhigh₂ hput₃
  have hpresent₃ : ptePresent (pteAt s₃.mem c 511) = true := by
    rw [htop₃.off _ _ 511 hr₂.root (by decide) fun hsame =>
        absurd hsame.2 (show ¬ 511 = slot (pageNumber 4 0x400000) 3 by decide),
      hcopied.upper 511 (by decide) (by decide)]
    exact hpresent₁
  rw [wp_bind, wp_of_eq (show vmmMap true _ _ _ _ _ zeroedState = _ from hrun₁), wp_bind,
    wp_of_eq hrun₂, wp_bind, wp_of_eq (show vmmMap true _ _ _ _ _ s₂ = _ from hrun₃), wp_pure]
  obtain ⟨hit, hwalk, huser, -, hlev⟩ := walk_userPut hinv₂ hr₂ hleaf₃ rfl hput₃
  refine ⟨htwo, hpresent₃, ⟨hit, hwalk, huser, hlev⟩,
    (vmmClonePageMap_iff (.map hsource₂ huargs (Or.inr ⟨rfl, rfl⟩) hrun₃)).mpr ⟨hok, ?_⟩⟩
  rw [htwo]
  simp only [hfour] at hframes₃
  omega

/-! ## 6. User pages of 4 KB -/

section UserPage

variable {own own' : Uptr → Option (Nat × Nat)} {s s' : VmmState} {t : Uptr}
  {pages1gb fiveLevel : Bool} {pmap : PageMap} {va pa flags : U64} {L key : Nat} {hit : Hit}

/-- Where no entry of level 1 is taken for a table, no page of 4 KB has user access. -/
theorem noPage_walk (h : VmmInv own s) (ht : own t = some (L, key / 512 ^ L))
    (hpage : NoPage s.mem L t) (hw : walk s.mem key L t = some hit) (huser : hit.user = true)
    (hentry : hit.entry.getLsbD 2 = true) (hlev : hit.level = 1) : pteLarge hit.entry = true := by
  induction L generalizing t hit with
  | zero => exact hpage.elim
  | succ L ih =>
      have hi := slot_lt key L
      cases hk : pageKind (L + 1) (pteAt s.mem t (slot key L)) with
      | absent =>
          unfold walk at hw
          rw [look, hk] at hw
          cases hw
      | leaf r =>
          rw [walk_leaf hk] at hw
          obtain ⟨rfl, -, -, hp, -⟩ := pageKind_leaf hk
          cases hw
          by_contra hl
          rw [Bool.not_eq_true] at hl
          have hbelow := hpage _ hi (pteUserTable_iff.mpr ⟨hp, hl, hentry⟩)
          obtain rfl : L = 0 := Nat.succ.inj hlev
          exact hbelow
      | next u f =>
          obtain ⟨htable, rfl, h1⟩ := isTable_of_next (h.entries t _ _ _ ht hi) hk
          rw [walk_next htable (by omega)] at hw
          obtain ⟨sub, hsub, rfl⟩ := Option.map_eq_some_iff.mp hw
          simp only [Hit.under, Bool.and_eq_true] at huser hentry hlev ⊢
          have hbelow := hpage _ hi
            (pteUserTable_iff.mpr ⟨htable.present, htable.small, huser.1⟩)
          rw [isTable_pteP2v htable] at hbelow
          exact ih (labelled_next (by decide) h.labelled ht hk) hbelow hsub huser.2 hentry hlev

/-- **A user page of 4 KB is taken for a table**: after the call that maps it the page map is not
    `Clonable`, and `vmm_clone_page_map` does not return. -/
theorem vmmClonePageMap_user (h : SourceRun pages1gb fiveLevel pmap s)
    (ha : MapArgs va pa flags MM_PAGE_4KB) (huser : flags.getLsbD 2 = true)
    (hlarge : flags.getLsbD 7 = false)
    (hrun : vmmMap pages1gb pmap va pa flags MM_PAGE_4KB s = .ok ((), s')) :
    ¬ Clonable s'.mem pmap ∧ ∀ q s'', vmmClonePageMap pmap s' ≠ .ok (q, s'') := by
  obtain ⟨own, hinv, hr, -⟩ := sourceRun_inv h
  have hleaf := leafArgs_of_leafLevel (Or.inl ⟨rfl, rfl⟩) ha
  obtain ⟨own', hp⟩ := ends_ok (ends_vmmMap_put pages1gb (Or.inl ⟨rfl, rfl⟩) ha hinv hr) hrun
  have hgrow := leads_put hinv hr hleaf hp
  have hr' := mapRoot_grow hr hgrow
  obtain ⟨hit, hw, hwalk, hentry, hlev⟩ := walk_userPut hinv hr hleaf huser hp
  have hpage : ¬ NoPage s'.mem pmap.level.num pmap.directory := by
    intro hpage
    have hroot := mapRoot_label hr' (pageNumber_lt pmap.level.num va)
    have hbit : hit.entry.getLsbD 2 = true := by
      rw [hentry]
      exact (congrArg Perms.user (leafPte_perms hleaf)).trans huser
    have hl := noPage_walk hgrow.inv hroot hpage hw hwalk hbit hlev
    rw [hentry, pteLarge_eq, leafPte, or_bit (leafArgs_frame hleaf) (Or.inl (by decide)), leafFlags,
      if_pos rfl, BitVec.getLsbD_or, hlarge] at hl
    exact absurd hl (by decide)
  refine ⟨fun hok => hpage (noPage_clonable (mapRoot_num hr) hok), fun q s'' hclone => ?_⟩
  obtain ⟨own₂, hc⟩ := ends_ok (ends_vmmClonePageMap hgrow.inv hr') hclone
  exact hpage (noPage_of_cloned hc.cloned)

end UserPage

/-- A page map that was just made, and one user page of 4 KB in it. -/
theorem vmmClonePageMap_one_page : wp (do
      let p ← vmmMakePageMap false zeroedMap
      vmmMap true p 0x400000 0x200000 MM_PT_FLAG_USER MM_PAGE_4KB
      return p) zeroedState fun p s => SourceRun true false p s ∧
        ¬ ∃ q s', vmmClonePageMap p s = .ok (q, s') ∧ Clone true p q s s' := by
  have hkernel : KernelTables false zeroedMap zeroedState :=
    @kernelTables_built _ true false _ (.empty zeroedMap_empty) rfl
  have hmap := isPageMap_empty zeroedMap_empty
  have hargs : MapArgs 0x400000 0x200000 MM_PT_FLAG_USER MM_PAGE_4KB :=
    ⟨Or.inl rfl, rfl, rfl, by simp, rfl⟩
  obtain ⟨p, s, hrun, rfl, hcopied, hfree⟩ :=
    @wp_vmmMakePageMap zeroedMap _ zeroedState _ _ _ false hmap.inv rfl hmap.root.root rfl
  have hsource : SourceRun true false _ s := .make hkernel hrun
  obtain ⟨own, hinv, hr, -⟩ := sourceRun_inv hsource
  rw [wp_bind, wp_of_eq hrun, wp_bind]
  obtain ⟨_, s', hrun', own', hp⟩ := wp_vmmMap_4KB true hargs hinv hr (by rw [hfree]; decide)
  rw [wp_of_eq (show vmmMap true _ _ _ _ _ s = _ from hrun'), wp_pure]
  refine ⟨.map hsource hargs (Or.inl ⟨rfl, rfl⟩) hrun', fun hclone => ?_⟩
  obtain ⟨q, s'', hrun'', -⟩ := hclone
  exact (vmmClonePageMap_user hsource hargs rfl rfl hrun').2 q s'' hrun''

end Slightx
