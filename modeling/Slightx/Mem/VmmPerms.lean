/-
  File:      Slightx/Mem/VmmPerms.lean
  Subject:   The permissions of a page map.

  The processor takes user and write access from all levels of the walk. `vmm_map` gives its
  tables write access and, on the way of a user page, user access, so in every state of a run the
  permissions of an address are those of its leaf (`effective_eq`):

  * `UserOpen` -- a user leaf has user tables above it, an invariant of all runs;
  * `splitEntry_perms` -- but the pieces of a large page lose the user and the global bit;
  * `wp_vmmMap_perms` -- so a call keeps its promise unless it puts such a page into pieces:
    a 2 MB page it maps 4 KB into, or the 1 GB page it has just written itself
    (`LosesPerms`).
-/
import Slightx.Mem.VmmMap

namespace Slightx

open Lib

/-! ## 1. Permissions -/

structure Perms where
  user : Bool
  write : Bool
  nx : Bool
  global : Bool
  deriving DecidableEq, Repr

/-- The permission bits of an entry, or of the flags of a call. -/
def entryPerms (e : U64) : Perms :=
  { user := e.getLsbD 2, write := e.getLsbD 1, nx := e.getLsbD 63, global := e.getLsbD 8 }

/-- User and write access are the conjunction over all levels, no execution the disjunction. -/
def Hit.perms (h : Hit) : Perms :=
  { user := h.user && h.entry.getLsbD 2
    write := h.write && h.entry.getLsbD 1
    nx := h.nx || h.entry.getLsbD 63
    global := h.entry.getLsbD 8 }

/-- The effective permissions of an address. -/
def effective (m : Mem) (pmap : PageMap) (va : U64) : Option Perms :=
  (hwWalk m pmap va).map Hit.perms

def permsView : View Perms := ⟨fun h _ => entryPerms h.entry, fun _ _ _ => rfl⟩

/-- The leaf itself and its level. -/
def entryView : View (U64 × Nat) := ⟨fun h _ => (h.entry, h.level), fun _ _ _ => rfl⟩

/-! ## 2. The bits of the entries `vmm_map` writes -/

section Entries

variable {pa flags e tf : U64} {L K j : Nat}

/-- A leaf has the permissions asked for. -/
theorem leafPte_perms (ha : LeafArgs pa flags L) : entryPerms (leafPte pa flags L) = entryPerms flags := by
  have hbit : ∀ k, k = 1 ∨ k = 2 ∨ k = 63 ∨ k = 8 →
      (leafPte pa flags L).getLsbD k = flags.getLsbD k := by
    intro k hk
    unfold leafPte leafFlags
    rw [or_bit (leafArgs_frame ha) (by omega)]
    rcases hk with rfl | rfl | rfl | rfl
    all_goals split
    all_goals simp [MM_PT_FLAG_VALID, MM_PT_FLAG_LARGE]
  unfold entryPerms
  rw [hbit 1 (by omega), hbit 2 (by omega), hbit 63 (by omega), hbit 8 (by omega)]

/-- **The pieces of a large page lose the user and the global bit.** -/
theorem splitEntry_perms (hK : K = 1 ∨ K = 2) (hj : j < 512) :
    entryPerms (splitEntry K e j) =
      { user := false, write := e.getLsbD 1, nx := e.getLsbD 63, global := false } := by
  have hbase := toNat_splitBase e hK hj
  have hsmall : j * pageBytes K < 2 ^ 31 := by
    rcases hK with rfl | rfl
    all_goals simp only [pageBytes]
    all_goals omega
  have haligned : j * pageBytes K % 2 ^ 12 = 0 := by
    rcases hK with rfl | rfl
    all_goals simp only [pageBytes]
    all_goals omega
  have hbit : ∀ k, k < 12 ∨ 63 ≤ k → (splitEntry K e j).getLsbD k = (splitFlags K e).getLsbD k := by
    intro k hk
    unfold splitEntry
    rw [BitVec.getLsbD_or]
    have hclear : ((e &&& MM_PT_PADDR_MASK) + BitVec.ofNat 64 j * splitSize K).getLsbD k = false := by
      rcases hk with hk | hk
      · exact getLsbD_of_aligned (n := 12) (by omega) hk
      · exact getLsbD_of_lt (n := 63) (by omega) hk
    rw [hclear, Bool.false_or]
  unfold entryPerms
  rw [hbit 1 (by omega), hbit 2 (by omega), hbit 63 (by omega), hbit 8 (by omega)]
  unfold splitFlags mmPtDefaultFlags
  split
  all_goals simp [MM_PT_FLAG_VALID, MM_PT_FLAG_LARGE, MM_PT_FLAG_WRITE, MM_PT_FLAG_NX]

/-- Splitting keeps the permissions of a page that has neither bit. -/
theorem splitOk_perms
    (h : ptePresent e = true → pteLarge e = true → e.getLsbD 2 = false ∧ e.getLsbD 8 = false) :
    SplitOk permsView K e := by
  intro hp hl hK key
  obtain ⟨h2, h8⟩ := h hp hl
  show entryPerms (splitEntry K e (slot key (K - 1))) = entryPerms e
  rw [splitEntry_perms hK (slot_lt _ _), entryPerms, h2, h8]

/-- Tables can be written and executed through. -/
def TableBits (L : Nat) (e : U64) : Prop :=
  ptePresent e = true → pteLarge e = false → L ≠ 1 → e.getLsbD 1 = true ∧ e.getLsbD 63 = false

/-- There are no leaves of 1 GB. -/
def NoHuge (L : Nat) (e : U64) : Prop := L = 3 → ptePresent e = true → pteLarge e = false

theorem tableBits_inherited : Inherited TableBits := by
  refine ⟨fun K c tf hK hc htf _ _ _ => ?_, fun K e c hK he h _ _ h1 => ?_, fun L hp => ?_,
    fun K e j _ _ hK hj _ _ hl h1 => ?_⟩
  · rw [or_bit hc (by omega), or_bit hc (by omega)]
    rcases htf with rfl | rfl <;> exact ⟨rfl, rfl⟩
  · obtain ⟨hw, hx⟩ := h he.present he.small h1
    rw [BitVec.getLsbD_or, BitVec.getLsbD_or, hw, hx]
    exact ⟨rfl, rfl⟩
  · exact absurd hp (by decide)
  · rcases hK with rfl | rfl
    · exact absurd rfl h1
    · rw [splitEntry_large] at hl
      cases hl

theorem noHuge_inherited : Inherited NoHuge := by
  refine ⟨fun K c tf hK hc htf _ _ => (isTable_link hc htf).small,
    fun K e c hK he _ _ _ => (isTable_user he).small, fun L _ hp => ?_,
    fun K e j _ _ hK _ _ h3 => by omega⟩
  exact absurd hp (by decide)

/-- So nothing is put into pieces above level 2. -/
theorem splitOk_noHuge {α : Type} {v : View α} {M : Nat} (hM : 2 ≤ M) (h : NoHuge (M + 1) e) :
    SplitOk v M e := by
  intro hp hl hK
  rw [h (by omega) hp] at hl
  cases hl

theorem tableBits_leaf (ha : LeafArgs pa flags L) : TableBits L (leafPte pa flags L) := by
  intro _ hl h1
  rw [leafPte_large ha h1] at hl
  cases hl

end Entries

/-! ## 3. The way to a user leaf -/

section Reach

variable {m : Mem} {key K L : Nat} {t u : Uptr} {g : Hit → Hit}

/-- What a way makes of the user bit. -/
theorem reach_user (h : Reach 512 pageKind (pteAt m) key L t K u g) :
    ∃ b, ∀ hit, (g hit).user = (b && hit.user) ∧ (g hit).entry = hit.entry := by
  induction h with
  | here => exact ⟨true, fun hit => ⟨(Bool.true_and _).symm, rfl⟩⟩
  | @down K u v g f hd hk ih =>
      obtain ⟨b, hb⟩ := ih
      obtain ⟨-, -, -, -, rfl⟩ := pageKind_next hk
      refine ⟨b && (pteAt m u (slot key K)).getLsbD 2, fun hit => ⟨?_, (hb _).2⟩⟩
      rw [Function.comp_apply, (hb _).1, Bool.and_assoc]
      rfl

/-- A way whose tables all have the user bit. -/
def UserWay (m : Mem) (key L : Nat) (t : Uptr) (K : Nat) (u : Uptr) : Prop :=
  ∃ g, Reach 512 pageKind (pteAt m) key L t K u g ∧ ∀ hit, (g hit).user = hit.user

/-- User leaves have user tables above them. -/
def UserOpen (m : Mem) (top : Nat) (root : Uptr) : Prop :=
  ∀ key hit, key < 512 ^ top → walk m key top root = some hit → hit.entry.getLsbD 2 = true →
    hit.user = true

/-- The walk of a key whose leaf is a user leaf takes a user way. -/
theorem userWay_of_hit {hit : Hit} (h : Reach 512 pageKind (pteAt m) key L t K u g)
    (hw : walk m key L t = some hit) (huser : hit.user = true) : UserWay m key L t K u := by
  obtain ⟨b, hb⟩ := reach_user h
  unfold walk at hw
  rw [look_reach h] at hw
  obtain ⟨hit', -, rfl⟩ := Option.map_eq_some_iff.mp hw
  rw [(hb hit').1, Bool.and_eq_true] at huser
  refine ⟨g, h, fun hit => ?_⟩
  rw [(hb hit).1, huser.1, Bool.true_and]

end Reach

section Steps

variable {own own' : Uptr → Option (Nat × Nat)} {s s' : VmmState} {t c root : Uptr}
  {key top K p i : Nat} {tf pa flags : U64}

theorem userWay_next (h : VmmInv own s) (hs : Stage own s top root key (K + 1) t) (hK : K ≠ 0)
    (hd : Descended own own' s s' t (slot key K) K (key / 512 ^ (K + 1)) tf c)
    (hw : UserWay s.mem key top root (K + 1) t) (huser : tf = MM_PT_USER_TABLE_FLAGS) :
    UserWay s'.mem key top root K c := by
  obtain ⟨g, hreach, hg⟩ := hw
  have ht := stage_label h hs
  have hreach' := reach_edit (by omega) h.labelled hd.edit ht (Nat.le_refl _) hs.1 hreach
  refine ⟨_, .down hreach' (isTable_kind hd.table (by omega)), fun hit => ?_⟩
  rw [Function.comp_apply, hg]
  show ((pteAt s'.mem t (slot key K)).getLsbD 2 && hit.user) = hit.user
  rw [hd.user huser, Bool.true_and]

theorem userWay_stored {e : U64} (h : VmmInv own s) (hs : Stage own s top root key (K + 1) t)
    (hw : UserWay s.mem key top root (K + 1) t) :
    UserWay (s.stored t (slot key K) e).mem key top root (K + 1) t := by
  obtain ⟨g, hreach, hg⟩ := hw
  have ht := stage_label h hs
  exact ⟨g, reach_edit (by omega) h.labelled (editAt_stored h ht (slot_lt key K) e) ht
    (Nat.le_refl _) hs.1 hreach, hg⟩

/-- The way of a user page is a user way. -/
theorem userWay_leads (h : VmmInv own s) (hroot : own root = some (top, key / 512 ^ top))
    (hl : Leads key top root tf own s own' s' K t) (hK : K ≠ 0)
    (huser : tf = MM_PT_USER_TABLE_FLAGS) : UserWay s'.mem key top root K t := by
  induction hl with
  | root => exact ⟨id, .here, fun _ => rfl⟩
  | @down own₁ own₂ s₁ s₂ K t c hw hd ih =>
      obtain ⟨hgrow, hstage⟩ := leads_stage h hroot hw (Nat.succ_ne_zero K)
      exact userWay_next hgrow.inv hstage hK hd (ih (Nat.succ_ne_zero K)) huser

/-- **A descent keeps user leaves open**: it adds user bits to tables, and the pieces it makes are
    no user leaves. -/
theorem userOpen_descended (h : VmmInv own s) (hroot : own root = some (top, 0))
    (ht : own t = some (K + 1, p)) (hK : K ≠ 0) (hi : i < 512)
    (hd : Descended own own' s s' t i K p tf c) (ho : UserOpen s.mem top root) :
    UserOpen s'.mem top root := by
  intro key hit hkey hw huser
  have hr : own root = some (top, key / 512 ^ top) := by
    rw [Nat.div_eq_of_lt hkey]
    exact hroot
  rcases look_edit (by omega) h.labelled hd.edit ht hr with hsame | ⟨g, hreach, hdigit⟩
  · exact ho key hit hkey (hsame.symm.trans hw) huser
  obtain ⟨b, hb⟩ := reach_user hreach
  have hlabel := reach_label (by omega) h.labelled hr hreach
  rw [ht] at hlabel
  cases hlabel
  have hdigit' : slot key K = i := hdigit
  subst hdigit'
  have hreach' := reach_edit (by omega) h.labelled hd.edit ht (Nat.le_refl _) hr hreach
  rw [walk_reach hreach', walk_next hd.table hK] at hw
  obtain ⟨_, hunder, rfl⟩ := Option.map_eq_some_iff.mp hw
  obtain ⟨sub, hsub, rfl⟩ := Option.map_eq_some_iff.mp hunder
  rw [(hb _).2] at huser
  obtain ⟨K, rfl⟩ := Nat.exists_eq_succ_of_ne_zero hK
  cases hd.how with
  | created _ _ hempty =>
      rw [walk_absent (by rw [hempty _ (slot_lt key K)]; rfl)] at hsub
      cases hsub
  | shared hold hnew =>
      have hc := child_label h ht hK hi hold
      rw [← div_pow_digit] at hc
      have hsub' : walk s.mem key (K + 1) c = some sub :=
        (look_edit_below (by omega) h.labelled hd.edit ht (Nat.le_refl _) hc).symm.trans hsub
      have hbefore : walk s.mem key top root =
          some (g (.under (pteAt s.mem t (slot key (K + 1))) sub)) := by
        rw [walk_reach hreach, walk_next hold hK, hsub']
        rfl
      have hopen := ho key _ hkey hbefore (by rw [(hb _).2]; exact huser)
      rw [(hb _).1, Bool.and_eq_true] at hopen ⊢
      refine ⟨hopen.1, ?_⟩
      have hinner := hopen.2
      simp only [Hit.under, Bool.and_eq_true] at hinner ⊢
      refine ⟨?_, hinner.2⟩
      rcases hnew with hnew | hnew
      · rw [hnew]
        exact hinner.1
      · rw [hnew, BitVec.getLsbD_or, hinner.1, Bool.true_or]
  | split hp hl hK' _ hpieces =>
      have hok := h.entries t _ _ _ ht hi hp (by omega)
      rw [if_pos hl] at hok
      have hj := slot_lt key K
      have hkind := splitEntry_kind hK' hok.2 hj
      rw [← hpieces _ hj] at hkind
      rw [walk_leaf hkind] at hsub
      cases hsub
      have hperms := congrArg Perms.user (splitEntry_perms (e := pteAt s.mem t (slot key (K + 1)))
        hK' hj)
      rw [← hpieces _ hj] at hperms
      exact absurd (hperms.symm.trans huser) (by simp)

theorem userOpen_leads (h : VmmInv own s) (hroot : own root = some (top, 0))
    (hkey : key < 512 ^ top) (hl : Leads key top root tf own s own' s' K t) (hK : K ≠ 0)
    (ho : UserOpen s.mem top root) : UserOpen s'.mem top root := by
  have hroot' : own root = some (top, key / 512 ^ top) := by
    rw [Nat.div_eq_of_lt hkey]
    exact hroot
  induction hl with
  | root => exact ho
  | @down own₁ own₂ s₁ s₂ K t c hw hd ih =>
      obtain ⟨hgrow, hstage⟩ := leads_stage h hroot' hw (Nat.succ_ne_zero K)
      exact userOpen_descended hgrow.inv (hgrow.keep _ _ _ hroot) (stage_label hgrow.inv hstage) hK
        (slot_lt key K) hd (ih (Nat.succ_ne_zero K))

/-- **A leaf at the end of a user way keeps user leaves open.** -/
theorem userOpen_leaf {L vpn : Nat} (h : VmmInv own s) (hroot : own root = some (top, 0))
    (hs : Stage own s top root vpn L t) (ha : LeafArgs pa flags L)
    (hway : flags.getLsbD 2 = true → UserWay s.mem vpn top root L t)
    (ho : UserOpen s.mem top root) :
    UserOpen (s.stored t (slot vpn (L - 1)) (leafPte pa flags L)).mem top root := by
  have hlev := ha.level
  obtain ⟨K, rfl⟩ : ∃ K, L = K + 1 := ⟨L - 1, by omega⟩
  simp only [Nat.add_sub_cancel] at *
  intro key hit hkey hw huser
  have hr : own root = some (top, key / 512 ^ top) := by
    rw [Nat.div_eq_of_lt hkey]
    exact hroot
  have ht := stage_label h hs
  have hi := slot_lt vpn K
  have hedit := editAt_stored h ht hi (leafPte pa flags (K + 1))
  rcases look_edit (by omega) h.labelled hedit ht hr with hsame | ⟨g, hreach, hdigit⟩
  · exact ho key hit hkey (hsame.symm.trans hw) huser
  have hlead : key / 512 ^ (K + 1) = vpn / 512 ^ (K + 1) := by
    have hlabel := reach_label (by omega) h.labelled hr hreach
    rw [ht] at hlabel
    injection hlabel with hlabel
    exact (Prod.mk.inj hlabel).2.symm
  have hkind : pageKind (K + 1) (pteAt (s.stored t (slot vpn K) (leafPte pa flags (K + 1))).mem t
      (slot key K)) = .leaf (.leaf (K + 1) (leafPte pa flags (K + 1))) := by
    rw [show slot key K = slot vpn K from hdigit, pteAt_stored h ht hi]
    exact leafPte_kind ha
  have hback : ∀ g', Reach 512 pageKind (pteAt s.mem) key top root (K + 1) t g' →
      hit = g' (.leaf (K + 1) (leafPte pa flags (K + 1))) := by
    intro g' hreach'
    rw [walk_reach (reach_edit (by omega) h.labelled hedit ht (Nat.le_refl _) hr hreach'),
      walk_leaf hkind] at hw
    cases hw
    rfl
  obtain ⟨b, hb⟩ := reach_user hreach
  have hflags : flags.getLsbD 2 = true := by
    rw [hback g hreach, (hb _).2] at huser
    exact (congrArg Perms.user (leafPte_perms ha)).symm.trans huser
  obtain ⟨g', hreach', hg'⟩ := hway hflags
  rw [hback g' (reach_key hreach' hlead), hg']
  rfl

end Steps

/-! ## 4. The invariant -/

/-- A page map with the permissions of its leaves. -/
structure PermInv (own : Uptr → Option (Nat × Nat)) (pmap : PageMap) (s : VmmState) : Prop where
  page : IsPageMap own pmap s
  bits : Entries TableBits own s
  huge : Entries NoHuge own s
  user_open : UserOpen s.mem pmap.level.num pmap.directory

section Inv

variable {pmap : PageMap} {va pa flags : U64} {own own' : Uptr → Option (Nat × Nat)}
  {s s' : VmmState} {L : Nat}

theorem permInv_put (h : PermInv own pmap s) (ha : LeafArgs pa flags L) (hL : L ≠ 3)
    (hv : va.toNat % pageBytes L = 0) (hp : Put pmap va pa flags own s own' s' L) :
    PermInv own' pmap s' := by
  have hlev := ha.level
  have hinv := h.page.inv
  have hr := h.page.root
  refine ⟨(isPageMap_put h.page ha hv hp).1, entries_put tableBits_inherited hinv h.bits hr
    (by omega) (tableBits_leaf ha) hp, entries_put noHuge_inherited hinv h.huge hr (by omega)
    (fun h3 => absurd h3 hL) hp, ?_⟩
  obtain ⟨s₁, t, hw, rfl⟩ := hp
  have hkey := pageNumber_lt pmap.level.num va
  have hroot := mapRoot_label hr hkey
  obtain ⟨hgrow, hstage⟩ := leads_stage hinv hroot hw (by omega)
  exact userOpen_leaf hgrow.inv (hgrow.keep _ _ _ hr.root) hstage ha
    (fun huser => userWay_leads hinv hroot hw (by omega) (tableFlags_user huser))
    (userOpen_leads hinv hr.root hkey hw (by omega) h.user_open)

theorem permInv_pieces {n : Nat} (h : PermInv own pmap s) (ha : MapArgs va pa flags MM_PAGE_1GB)
    (hn : n ≤ 512) (hp : Pieces pmap va pa flags own s n own' s') : PermInv own' pmap s' := by
  induction hp with
  | zero => exact h
  | @succ n _ _ _ _ _ hput ih =>
      exact permInv_put (ih (by omega)) (leafArgs_piece ha (by omega)) (by omega)
        (mapArgs_piece ha (by omega)).va_aligned hput

/-- After the end of a call for 1 GB there is no leaf of 1 GB in its place. -/
theorem permInv_closed {pml3 : Uptr} (h : IsPageMap own pmap s) (hbits : Entries TableBits own s)
    (hhuge : ∀ u L q j, own u = some (L, q) → j < 512 →
      ¬ (u = pml3 ∧ j = slot (pageNumber pmap.level.num va) 2) → NoHuge L (pteAt s.mem u j))
    (ho : UserOpen s.mem pmap.level.num pmap.directory) (ha : MapArgs va pa flags MM_PAGE_1GB)
    (hs : Stage own s pmap.level.num pmap.directory (pageNumber pmap.level.num va) 3 pml3)
    (hway : flags.getLsbD 2 = true →
      UserWay s.mem (pageNumber pmap.level.num va) pmap.level.num pmap.directory 3 pml3)
    (hc : Closed pmap va pa flags pml3 own s own' s') : PermInv own' pmap s' := by
  have hpage := (isPageMap_closed h ha hs hc).1
  have hleaf := leafArgs_closed ha
  have ht := stage_label h.inv hs
  have hi := slot_lt (pageNumber pmap.level.num va) 2
  have htf := tableFlags_way flags
  obtain ⟨s₁, c, hd, rfl⟩ := hc
  have hstage := stage_descended h.inv hs (by omega) hd
  have hc := stage_label hd.grow.inv hstage
  have hbits₁ := inherited_descended tableBits_inherited h.inv hbits ht (by omega) hi htf hd
  have hhuge₁ : Entries NoHuge own' s₁ := by
    refine entries_descended h.inv ht (by omega) hd hhuge hi
      (inherited_entry noHuge_inherited (by omega) htf hd fun hold _ _ => hold.small)
      (noHuge_inherited.zero 2) fun j _ _ _ _ h3 => by omega
  have ho₁ := userOpen_descended h.inv h.root.root ht (by omega) hi hd ho
  have hopen := userOpen_leaf hd.grow.inv (hd.grow.keep _ _ _ h.root.root) hstage hleaf
    (fun huser => userWay_next h.inv hs (by omega) hd (hway huser) (tableFlags_user huser)) ho₁
  exact ⟨hpage, entries_stored hbits₁ hd.grow.inv hc (slot_lt _ 1) (tableBits_leaf hleaf),
    entries_stored hhuge₁ hd.grow.inv hc (slot_lt _ 1) (fun h3 => by omega), hopen⟩

end Inv

/-! ## 5. What a call does to the permissions -/

/-- The pages of the range have the permissions `p` after the call, and all other mapped pages those
    they had. -/
def PermsPages (pmap : PageMap) (vpn n : Nat) (p : Perms) (s s' : VmmState) : Prop :=
  (∀ key, key < 512 ^ pmap.level.num → vpn ≤ key → key < vpn + n →
    permsView.look s'.mem key pmap.level.num pmap.directory = some p) ∧
  ∀ key, key < 512 ^ pmap.level.num → ¬ (vpn ≤ key ∧ key < vpn + n) →
    permsView.look s.mem key pmap.level.num pmap.directory ≠ none →
    permsView.look s'.mem key pmap.level.num pmap.directory =
      permsView.look s.mem key pmap.level.num pmap.directory

/-- The call puts a page with the user or the global bit into pieces: its own, of 1 GB, or one of
    2 MB it maps 4 KB into. -/
def LosesPerms (pages1gb : Bool) (pmap : PageMap) (va flags : U64) (size : Usize) (m : Mem) :
    Prop :=
  (size = MM_PAGE_1GB ∧ pages1gb = true ∧
    (flags.getLsbD 2 = true ∨ flags.getLsbD 8 = true)) ∨
  (size = MM_PAGE_4KB ∧ ∃ hit, hwWalk m pmap va = some hit ∧ hit.level = 2 ∧
    (hit.entry.getLsbD 2 = true ∨ hit.entry.getLsbD 8 = true))

section Outcomes

variable {pmap : PageMap} {va pa flags : U64} {own own' own₁ : Uptr → Option (Nat × Nat)}
  {s s' s₁ : VmmState} {p : Perms} {t c root : Uptr} {key top vpn K n : Nat} {tf : U64}

theorem permsPages_of_maps (hr : MapRoot own pmap)
    (h : Maps permsView own own' s s' pmap.level.num pmap.directory vpn n fun _ => p) :
    PermsPages pmap vpn n p s s' :=
  ⟨fun key hkey => h.here key (mapRoot_label hr hkey),
    fun key hkey hout _ => h.other _ _ key (mapRoot_label hr hkey) hout⟩

/-- The last step of a way. -/
theorem leads_last (hl : Leads key top root tf own s own' s' K t) (hK : K < top) :
    ∃ own₁ s₁ u, Leads key top root tf own s own₁ s₁ (K + 1) u ∧
      Descended own₁ own' s₁ s' u (slot key K) K (key / 512 ^ (K + 1)) tf t := by
  cases hl with
  | root => omega
  | down h hd => exact ⟨_, _, _, h, hd⟩

/-- A page of a large page that was put into pieces. -/
theorem perms_of_split {key' : Nat} (h : VmmInv own s) (hs : Stage own s top root key (K + 1) t)
    (hK : K ≠ 0) (hd : Descended own own' s s' t (slot key K) K (key / 512 ^ (K + 1)) tf c)
    (hp : ptePresent (pteAt s.mem t (slot key K)) = true)
    (hl : pteLarge (pteAt s.mem t (slot key K)) = true)
    (hkey : key' / 512 ^ K = key / 512 ^ K) :
    ∃ p, permsView.look s'.mem key' top root = some p ∧ p.user = false ∧ p.global = false := by
  obtain ⟨K, rfl⟩ := Nat.exists_eq_succ_of_ne_zero hK
  obtain ⟨-, g, hreach⟩ := stage_descended h hs hK hd
  have hi := slot_lt key (K + 1)
  have hj := slot_lt key' K
  have hok := h.entries t _ _ _ (stage_label h hs) hi hp (by omega)
  rw [if_pos hl] at hok
  cases hd.how with
  | created hold _ _ =>
      rw [hold] at hp
      cases hp
  | shared hold _ =>
      rw [hold.small] at hl
      cases hl
  | split _ _ hK' _ hpieces =>
      have hkind := splitEntry_kind hK' hok.2 hj
      have hperms := splitEntry_perms (e := pteAt s.mem t (slot key (K + 1))) hK' hj
      rw [← hpieces _ hj] at hkind hperms
      refine ⟨_, ?_, congrArg Perms.user hperms, congrArg Perms.global hperms⟩
      rw [view_reach (reach_key hreach hkey), view_leaf hkind]
      rfl

/-- **2 MB**: nothing is put into pieces. -/
theorem permsPages_2MB (h : PermInv own pmap s) (ha : MapArgs va pa flags MM_PAGE_2MB)
    (hp : Put pmap va pa flags own s own' s' 2) :
    PermsPages pmap (pageNumber pmap.level.num va) 512 (entryPerms flags) s s' := by
  have hleaf := leafArgs_of_mapArgs (L := 2) ha (by omega) rfl
  have hmaps := maps_put (v := permsView) (w := fun _ => entryPerms flags) noHuge_inherited
    h.page.inv h.huge h.page.root hleaf ha.va_aligned (fun M e hM he => splitOk_noHuge hM he)
    (fun key _ _ => leafPte_perms hleaf) hp
  exact permsPages_of_maps h.page.root hmaps

/-- **1 GB without such pages**: nothing is put into pieces. -/
theorem permsPages_pieces {pml3 : Uptr} (h : PermInv own pmap s)
    (ha : MapArgs va pa flags MM_PAGE_1GB)
    (hs : Stage own s pmap.level.num pmap.directory (pageNumber pmap.level.num va) 3 pml3)
    (hp : Pieces pmap va pa flags own s 512 own₁ s₁)
    (hc : Closed pmap va pa flags pml3 own₁ s₁ own' s') :
    PermInv own' pmap s' ∧ Maps permsView own own' s s' pmap.level.num pmap.directory
      (pageNumber pmap.level.num va) (512 * 512) fun _ => entryPerms flags := by
  have hinv := h.page.inv
  have hkey := pageNumber_lt pmap.level.num va
  have h₁ := permInv_pieces h ha (Nat.le_refl _) hp
  have hmaps := maps_pieces (v := permsView) (w := fun _ => entryPerms flags) noHuge_inherited
    hinv h.huge h.page.root ha (Nat.le_refl _) (fun k hk h3 => by omega)
    (fun M e hM he => splitOk_noHuge hM he)
    (fun k key hk _ _ => leafPte_perms (leafArgs_piece ha hk)) hp
  have hs₁ := stage_pieces hinv h.page.root ha (Nat.le_refl _) hs hp (by omega)
  have ht := stage_label h₁.page.inv hs₁
  have hi := slot_lt (pageNumber pmap.level.num va) 2
  have hclosed := maps_closed (v := permsView) (w := fun _ => entryPerms flags) h₁.page.inv h₁.page.root ha hs₁
    (splitOk_noHuge (Nat.le_refl 2) (h₁.huge _ _ _ _ ht hi))
    (fun key _ _ => leafPte_perms (leafArgs_closed ha)) hc
  -- the way of a user page is open, for its first page has been mapped already
  have hway : flags.getLsbD 2 = true →
      UserWay s₁.mem (pageNumber pmap.level.num va) pmap.level.num pmap.directory 3 pml3 := by
    intro huser
    obtain ⟨-, g, hreach⟩ := hs₁
    have hhere := hmaps.here _ (mapRoot_label h.page.root hkey) (Nat.le_refl _) (by omega)
    obtain ⟨hit, hw, hperms⟩ := Option.map_eq_some_iff.mp hhere
    refine userWay_of_hit hreach hw (h₁.user_open _ _ hkey hw ?_)
    exact (congrArg Perms.user hperms).trans huser
  refine ⟨permInv_closed h₁.page h₁.bits (fun u L q j hu hj _ => h₁.huge u L q j hu hj)
    h₁.user_open ha hs₁ hway hc, ?_⟩
  exact (maps_append (k := 0) hmaps hclosed (Nat.zero_le _) :)

/-- A walk that ends at level 2 ends at the entry of the table there. -/
theorem large_of_look {x : U64} (hl : entryView.look s.mem key 2 t = some (x, 2)) :
    pageKind 2 (pteAt s.mem t (slot key 1)) = .leaf (.leaf 2 x) := by
  obtain ⟨hit, hw, hx⟩ := Option.map_eq_some_iff.mp hl
  cases hk : pageKind 2 (pteAt s.mem t (slot key 1)) with
  | absent =>
      unfold walk at hw
      rw [look, hk] at hw
      cases hw
  | leaf r =>
      rw [walk_leaf hk] at hw
      obtain ⟨rfl, -⟩ := pageKind_leaf hk
      cases hw
      cases hx
      rfl
  | next u f =>
      unfold walk at hw
      rw [look, hk] at hw
      obtain ⟨-, -, -, -, rfl⟩ := pageKind_next hk
      obtain ⟨sub, hsub, rfl⟩ := Option.map_eq_some_iff.mp hw
      have hlev := level_of_walk hsub
      have h2 : sub.level = 2 := congrArg Prod.snd hx
      omega

/-- A large page has another page beside the one mapped. -/
theorem exists_neighbour (ht : top = 4 ∨ top = 5) (hv : vpn < 512 ^ top) :
    ∃ key, key / 512 ^ 1 = vpn / 512 ^ 1 ∧ key ≠ vpn ∧ key < 512 ^ top := by
  refine ⟨vpn / 512 * 512 + (vpn + 1) % 512, by omega, by omega, ?_⟩
  rcases ht with rfl | rfl <;> omega

/-- **4 KB**: the large page around it, if there is one, is put into pieces. -/
theorem permsPages_4KB (h : PermInv own pmap s) (ha : MapArgs va pa flags MM_PAGE_4KB)
    (hp : Put pmap va pa flags own s own' s' 1) :
    PermsPages pmap (pageNumber pmap.level.num va) 1 (entryPerms flags) s s' ↔
      ¬ ∃ hit, hwWalk s.mem pmap va = some hit ∧ hit.level = 2 ∧
        (hit.entry.getLsbD 2 = true ∨ hit.entry.getLsbD 8 = true) := by
  have hinv := h.page.inv
  have hr := h.page.root
  have hnum := mapRoot_num hr
  have hkey := pageNumber_lt pmap.level.num va
  have hroot := mapRoot_label hr hkey
  have hleaf := leafArgs_of_mapArgs (L := 1) ha (by omega) rfl
  have htf := tableFlags_way flags
  obtain ⟨s₂, c, hw, rfl⟩ := hp
  obtain ⟨own₁, s₁, t, hw, hd⟩ := leads_last hw (by omega)
  obtain ⟨hgrow, hstage⟩ := leads_stage hinv hroot hw (by omega)
  have ht := stage_label hgrow.inv hstage
  have hentry := steady_leads (v := entryView) noHuge_inherited hinv h.huge htf hroot hw (by omega)
    fun M e hM he => splitOk_noHuge hM he
  have hperms := steady_leads (v := permsView) noHuge_inherited hinv h.huge htf hroot hw (by omega)
    fun M e hM he => splitOk_noHuge hM he
  have hput := maps_leaf (v := permsView) (w := fun _ => entryPerms flags) hd.grow.inv
    (stage_descended hgrow.inv hstage (by omega) hd) hleaf (Nat.mod_one _)
    fun key _ _ => leafPte_perms hleaf
  have hlook : entryView.look s.mem (pageNumber pmap.level.num va) pmap.level.num pmap.directory =
      entryView.look s₁.mem (pageNumber pmap.level.num va) 2 t := by
    obtain ⟨-, g, hreach⟩ := hstage
    rw [← hentry.same _ _ _ hroot, view_reach hreach]
  constructor
  · intro hpages hlarge
    obtain ⟨hit, hwalk, hlev, hbits⟩ := hlarge
    have hkind : pageKind 2 (pteAt s₁.mem t (slot (pageNumber pmap.level.num va) 1)) =
        .leaf (.leaf 2 hit.entry) := by
      refine large_of_look (hlook.symm.trans ?_)
      show (hwWalk s.mem pmap va).map _ = _
      rw [hwalk, ← hlev]
      rfl
    obtain ⟨-, -, -, hpresent, hlarge⟩ := pageKind_leaf hkind
    -- another page of it
    obtain ⟨key, hsame, hne, hlt⟩ := exists_neighbour hnum hkey
    have hout : ¬ (pageNumber pmap.level.num va ≤ key ∧ key < pageNumber pmap.level.num va + 1) := by
      omega
    have hr₁ := mapRoot_label hr hlt
    obtain ⟨p, hp, hp2, hp8⟩ := perms_of_split hgrow.inv hstage (by omega) hd
      hpresent (hlarge (by omega)) hsame
    have hbefore : permsView.look s.mem key pmap.level.num pmap.directory =
        some (entryPerms hit.entry) := by
      obtain ⟨-, g, hreach⟩ := hstage
      have hslot : slot key 1 = slot (pageNumber pmap.level.num va) 1 := congrArg (· % 512) hsame
      rw [← hslot] at hkind
      rw [← hperms.same _ _ _ hr₁, view_reach (reach_key hreach (div_pow_congr hsame (by omega))),
        view_leaf hkind]
      rfl
    have hafter := hput.other _ _ key (hd.grow.keep _ _ _ (hgrow.keep _ _ _ hr₁)) hout
    have hkept := hpages.2 key hlt hout (by rw [hbefore]; exact Option.some_ne_none _)
    rw [hbefore] at hkept
    have hcontra := (hafter.trans hp).symm.trans hkept
    cases hcontra
    rcases hbits with h2 | h8
    · exact absurd (h2.symm.trans hp2) (by simp)
    · exact absurd (h8.symm.trans hp8) (by simp)
  · intro hgood
    have hsplit : SplitOk permsView 1 (pteAt s₁.mem t (slot (pageNumber pmap.level.num va) 1)) := by
      refine splitOk_perms fun hp hl => ?_
      by_contra hbits
      have hok := hgrow.inv.entries _ _ _ _ ht (slot_lt _ 1) hp (by omega)
      rw [if_pos hl] at hok
      rw [view_leaf (pageKind_large hp hl (Or.inl rfl) hok.2)] at hlook
      obtain ⟨hit, hwalk, hx⟩ := Option.map_eq_some_iff.mp hlook
      refine hgood ⟨hit, hwalk, congrArg Prod.snd hx, ?_⟩
      rw [show hit.entry = _ from congrArg Prod.fst hx]
      simp only [not_and_or, Bool.not_eq_false] at hbits
      exact hbits
    have hsteady := steady_trans hperms (steady_descended hgrow.inv ht (by omega) hsplit hd)
    exact permsPages_of_maps hr (maps_of_steady hsteady hput)

theorem second_piece_lt (ht : top = 4 ∨ top = 5) (hv : vpn < 512 ^ top)
    (ha : vpn % 512 ^ 2 = 0) : vpn + 512 < 512 ^ top := by
  rcases ht with rfl | rfl <;> omega

/-- **1 GB in one page**: it is put into pieces at once. -/
theorem permsPages_leaf_1GB {pml3 : Uptr} (h : PermInv own pmap s)
    (ha : MapArgs va pa flags MM_PAGE_1GB)
    (hw : Way pmap va (wayFlags flags) own s own₁ s₁ 3 pml3)
    (hc : Closed pmap va pa flags pml3 own₁
      (s₁.stored pml3 (slot (pageNumber pmap.level.num va) 2) (leafPte pa flags 3)) own' s') :
    PermInv own' pmap s' ∧
      (PermsPages pmap (pageNumber pmap.level.num va) (512 * 512) (entryPerms flags) s s' ↔
        ¬ (flags.getLsbD 2 = true ∨ flags.getLsbD 8 = true)) := by
  have hinv := h.page.inv
  have hr := h.page.root
  have hkey := pageNumber_lt pmap.level.num va
  have hroot := mapRoot_label hr hkey
  have hleaf := leafArgs_of_mapArgs (L := 3) ha (by omega) rfl
  have hi := slot_lt (pageNumber pmap.level.num va) 2
  obtain ⟨hgrow, hstage⟩ := leads_stage hinv hroot hw (by omega)
  have ht := stage_label hgrow.inv hstage
  have hput : Put pmap va pa flags own s own₁ _ 3 := ⟨s₁, pml3, hw, rfl⟩
  have hmaps := maps_put (v := permsView) (w := fun _ => entryPerms flags) noHuge_inherited hinv
    h.huge hr hleaf ha.va_aligned (fun M e hM he => splitOk_noHuge (by omega) he)
    (fun key _ _ => leafPte_perms hleaf) hput
  have hpage := (isPageMap_put h.page hleaf ha.va_aligned hput).1
  have hbits := entries_put tableBits_inherited hinv h.bits hr (by omega) (tableBits_leaf hleaf) hput
  have hhuge := entries_leads noHuge_inherited hinv h.huge (tableFlags_way flags) hroot hw (by omega)
  have hedit := editAt_stored hgrow.inv ht hi (leafPte pa flags 3)
  have hread := pteAt_stored (e := leafPte pa flags 3) hgrow.inv ht hi
  have hstage' := stage_stored (e := leafPte pa flags 3) hgrow.inv ht hi hstage (Nat.le_refl _)
  have hwayS : flags.getLsbD 2 = true →
      UserWay s₁.mem (pageNumber pmap.level.num va) pmap.level.num pmap.directory 3 pml3 :=
    fun huser => userWay_leads hinv hroot hw (by omega) (tableFlags_user huser)
  have hopen := userOpen_leaf hgrow.inv (hgrow.keep _ _ _ hr.root) hstage hleaf hwayS
    (userOpen_leads hinv hr.root hkey hw (by omega) h.user_open)
  have hperm := permInv_closed hpage hbits (fun u L q j hu hj hne => by
    rw [hedit u j (by rw [hu]; exact Option.some_ne_none _) hj hne]
    exact hhuge u L q j hu hj) hopen ha hstage'
    (fun huser => userWay_stored hgrow.inv hstage (hwayS huser)) hc
  refine ⟨hperm, fun hpages hbad => ?_, fun hgood => ?_⟩
  · obtain ⟨s₃, c, hd, rfl⟩ := hc
    have hleaf₂ := leafArgs_closed ha
    have hva : va.toNat % 2 ^ 30 = 0 := ha.va_aligned
    have haligned : pageNumber pmap.level.num va % 512 ^ (3 - 1) = 0 :=
      pageNumber_aligned (mapRoot_num hr) hleaf.level ha.va_aligned
    have hlast := maps_leaf (v := permsView) (w := fun _ => entryPerms flags) hd.grow.inv
      (stage_descended hpage.inv hstage' (by omega) hd) hleaf₂ (by omega)
      fun key _ _ => leafPte_perms hleaf₂
    have hlt := second_piece_lt (mapRoot_num hr) hkey haligned
    -- the second piece
    have hsecond : (pageNumber pmap.level.num va + 512) / 512 ^ 2 =
        pageNumber pmap.level.num va / 512 ^ 2 := by omega
    obtain ⟨p, hp, hp2, hp8⟩ := perms_of_split hpage.inv hstage' (by omega) hd
      (by rw [hread]; exact leafPte_present hleaf)
      (by rw [hread]; exact leafPte_large hleaf (by omega)) hsecond
    have hr₁ := mapRoot_label hr hlt
    have hafter := hlast.other _ _ _ (hd.grow.keep _ _ _ (hgrow.keep _ _ _ hr₁)) (by omega)
    have hasked := hpages.1 _ hlt (by omega) (by omega)
    have hcontra := (hafter.trans hp).symm.trans hasked
    cases hcontra
    rcases hbad with h2 | h8
    · exact absurd (h2.symm.trans hp2) (by simp)
    · exact absurd (h8.symm.trans hp8) (by simp)
  · have hsplit : SplitOk permsView 2 (leafPte pa flags 3) := by
      refine splitOk_perms fun _ _ => ?_
      have hperms := leafPte_perms hleaf
      simp only [not_or, Bool.not_eq_true] at hgood
      exact ⟨(congrArg Perms.user hperms).trans hgood.1,
        (congrArg Perms.global hperms).trans hgood.2⟩
    rw [← hread] at hsplit
    have hclosed := maps_closed (v := permsView) (w := fun _ => entryPerms flags) hpage.inv
      (mapRoot_grow hr hgrow) ha hstage' hsplit (fun key _ _ => leafPte_perms (leafArgs_closed ha)) hc
    exact permsPages_of_maps hr (maps_append (k := 0) hmaps hclosed (Nat.zero_le _) :)

/-- **What `vmm_map` does to the permissions of the pages.** -/
theorem wp_vmmMap_perms (pages1gb : Bool) {size : Usize} (h : PermInv own pmap s)
    (ha : MapArgs va pa flags size) (hfree : mapFrames pages1gb size ≤ s.free.length) :
    wp (vmmMap pages1gb pmap va pa flags size) s fun _ s' => (∃ own', PermInv own' pmap s') ∧
      (PermsPages pmap (pageNumber pmap.level.num va) (size.toNat / 4096) (entryPerms flags) s s' ↔
        ¬ LosesPerms pages1gb pmap va flags size s.mem) := by
  have hinv := h.page.inv
  have hr := h.page.root
  have hroot := mapRoot_label hr (pageNumber_lt pmap.level.num va)
  unfold vmmMap LosesPerms
  unfold mapFrames at hfree
  rcases ha.sizes with rfl | rfl | rfl
  · rw [if_neg fun h => absurd h.1 (by decide)] at hfree
    refine wp_mono (wp_vmmMap_4KB pages1gb ha hinv hr hfree) fun _ s' hp => ?_
    obtain ⟨own', hp⟩ := hp
    refine ⟨⟨own', permInv_put h (leafArgs_of_mapArgs ha (by omega) rfl) (by omega) ha.va_aligned
      hp⟩, (permsPages_4KB h ha hp).trans (not_congr ?_)⟩
    refine ⟨fun hbad => Or.inr ⟨rfl, hbad⟩, fun hbad => ?_⟩
    rcases hbad with hbad | hbad
    · exact absurd hbad.1 (by decide)
    · exact hbad.2
  · rw [if_neg fun h => absurd h.1 (by decide)] at hfree
    refine wp_mono (wp_vmmMap_2MB pages1gb ha hinv hr (by omega)) fun _ s' hp => ?_
    obtain ⟨own', hp⟩ := hp
    refine ⟨⟨own', permInv_put h (leafArgs_of_mapArgs ha (by omega) rfl) (by omega) ha.va_aligned
      hp⟩, fun _ hbad => ?_, fun _ => permsPages_2MB h ha hp⟩
    rcases hbad with hbad | hbad
    · exact absurd hbad.1 (by decide)
    · exact absurd hbad.1 (by decide)
  cases pages1gb with
  | true =>
      rw [if_neg (by decide)] at hfree
      refine wp_mono (wp_vmmMap_leaf_1GB ha hinv hr (by omega)) fun _ s' hp => ?_
      obtain ⟨own₁, s₁, pml3, hw, own', hc⟩ := hp
      obtain ⟨hperm, hiff⟩ := permsPages_leaf_1GB h ha hw hc
      refine ⟨⟨own', hperm⟩, hiff.trans (not_congr ?_)⟩
      refine ⟨fun hbad => Or.inl ⟨rfl, rfl, hbad⟩, fun hbad => ?_⟩
      rcases hbad with hbad | hbad
      · exact hbad.2.2
      · exact absurd hbad.1 (by decide)
  | false =>
      rw [if_pos (by decide)] at hfree
      refine wp_mono (wp_vmmMap_pieces_1GB ha hinv hr hfree) fun _ s' hp => ?_
      obtain ⟨own₁, s₁, pml3, own₂, s₂, hw, hp, own', hc⟩ := hp
      have htf := tableFlags_way flags
      have hkey := pageNumber_lt pmap.level.num va
      obtain ⟨hgrow, hstage⟩ := leads_stage hinv hroot hw (by omega)
      have hsteady := steady_leads (v := permsView) noHuge_inherited hinv h.huge htf hroot hw
        (by omega) fun M e hM he => splitOk_noHuge (by omega) he
      have h₁ : PermInv own₁ pmap s₁ :=
        ⟨⟨hgrow.inv, entries_leads plain_inherited hinv h.page.plain htf hroot hw (by omega),
          mapRoot_grow hr hgrow⟩, entries_leads tableBits_inherited hinv h.bits htf hroot hw
          (by omega), entries_leads noHuge_inherited hinv h.huge htf hroot hw (by omega),
          userOpen_leads hinv hr.root hkey hw (by omega) h.user_open⟩
      obtain ⟨hperm, hmaps⟩ := permsPages_pieces h₁ ha hstage hp hc
      refine ⟨⟨own', hperm⟩, fun _ hbad => ?_,
        fun _ => permsPages_of_maps hr (maps_of_steady hsteady hmaps)⟩
      rcases hbad with hbad | hbad
      · exact absurd hbad.2.1 (by decide)
      · exact absurd hbad.1 (by decide)

/-- Clearing an entry keeps the invariant. -/
theorem wp_vmmUnmap_perms (va : U64) (h : PermInv own pmap s) :
    wp (vmmUnmap pmap va) s fun _ s' => PermInv own pmap s' := by
  have hinv := h.page.inv
  have hr := h.page.root
  have hroot := mapRoot_label hr (pageNumber_lt pmap.level.num va)
  refine wp_mono (wp_vmmUnmap_cleared va hinv hr) fun _ s' hc => ?_
  have hu := unmaps_cleared hinv h.page.plain hroot hc
  cases hc with
  | missed _ hs =>
      rw [hs]
      exact h
  | @found K u g hit hw hreach hlev hs =>
      subst hs
      have hi := slot_lt (pageNumber pmap.level.num va) K
      have ht := reach_label (by omega) hinv.labelled hroot hreach
      have hedit := editAt_stored hinv ht hi 0
      refine ⟨⟨hu.grow.inv, hu.plain, hr⟩,
        entries_stored h.bits hinv ht hi (tableBits_inherited.zero _),
        entries_stored h.huge hinv ht hi (noHuge_inherited.zero _), fun key hit' hkey hw' huser => ?_⟩
      have hr' := mapRoot_label hr hkey
      rcases look_edit (by omega) hinv.labelled hedit ht hr' with hsame | ⟨g', hreach', hdigit⟩
      · exact h.user_open key hit' hkey (hsame.symm.trans hw') huser
      · have hdigit' : slot key K = slot (pageNumber pmap.level.num va) K := hdigit
        rw [walk_reach (reach_edit (by omega) hinv.labelled hedit ht (Nat.le_refl _) hr' hreach'),
          walk_absent (by rw [hdigit', pteAt_stored hinv ht hi]; rfl)] at hw'
        cases hw'

end Outcomes

/-! ## 6. Addresses and runs -/

section Runs

variable {pages1gb : Bool} {pmap : PageMap} {va pa x flags : U64} {s s' : VmmState} {size : Usize}
  {own : Uptr → Option (Nat × Nat)}

/-- Tables can be written and executed through, on every walk. -/
theorem bits_of_walk {key L : Nat} {t : Uptr} {hit : Hit} (h : VmmInv own s)
    (hb : Entries TableBits own s) (ht : own t = some (L, key / 512 ^ L))
    (hw : walk s.mem key L t = some hit) : hit.write = true ∧ hit.nx = false := by
  induction L generalizing t hit with
  | zero => cases hw
  | succ L ih =>
      have hi := slot_lt key L
      cases hk : pageKind (L + 1) (pteAt s.mem t (slot key L)) with
      | absent =>
          unfold walk at hw
          rw [look, hk] at hw
          cases hw
      | leaf r =>
          rw [walk_leaf hk] at hw
          obtain ⟨rfl, -⟩ := pageKind_leaf hk
          cases hw
          exact ⟨rfl, rfl⟩
      | next u f =>
          obtain ⟨htable, rfl, h1⟩ := isTable_of_next (h.entries t _ _ _ ht hi) hk
          rw [walk_next htable (by omega)] at hw
          obtain ⟨sub, hsub, rfl⟩ := Option.map_eq_some_iff.mp hw
          obtain ⟨hwrite, hnx⟩ := hb t _ _ _ ht hi htable.present htable.small h1
          obtain ⟨hwrite', hnx'⟩ := ih (labelled_next (by omega) h.labelled ht hk) hsub
          exact ⟨by rw [Hit.under, hwrite, hwrite']; rfl, by rw [Hit.under, hnx, hnx']; rfl⟩

/-- **The effective permissions are those of the leaf.** -/
theorem effective_eq (h : PermInv own pmap s) (x : U64) : effective s.mem pmap x =
    permsView.look s.mem (pageNumber pmap.level.num x) pmap.level.num pmap.directory := by
  have hkey := pageNumber_lt pmap.level.num x
  unfold effective hwWalk View.look
  cases hw : walk s.mem (pageNumber pmap.level.num x) pmap.level.num pmap.directory with
  | none => rfl
  | some hit =>
      obtain ⟨hwrite, hnx⟩ := bits_of_walk h.page.inv h.bits (mapRoot_label h.page.root hkey) hw
      have huser := h.user_open _ hit hkey hw
      show some hit.perms = some (entryPerms hit.entry)
      unfold Hit.perms entryPerms
      rw [hwrite, hnx, Bool.true_and, Bool.false_or]
      cases hbit : hit.entry.getLsbD 2 with
      | false => rw [Bool.and_false]
      | true => rw [huser hbit]; rfl

/-- Every page has a canonical address. -/
theorem exists_canonical {top key : Nat} (ht : top = 4 ∨ top = 5) (hk : key < 512 ^ top) :
    ∃ x, Canonical top x ∧ pageNumber top x = key := by
  unfold Canonical pageNumber
  by_cases hlow : 4096 * key < 4096 * 512 ^ top / 2
  · refine ⟨BitVec.ofNat 64 (4096 * key), ?_⟩
    rcases ht with rfl | rfl
    all_goals rw [ofNat_toNat_lt (by omega)]
    all_goals omega
  · refine ⟨BitVec.ofNat 64 (2 ^ 64 - 4096 * 512 ^ top + 4096 * key), ?_⟩
    rcases ht with rfl | rfl
    all_goals rw [ofNat_toNat_lt (by omega)]
    all_goals omega

/-- Every address of the range has the permissions asked for, and every other mapped address those
    it had. -/
def PermsAsked (pmap : PageMap) (va flags : U64) (size : Usize) (s s' : VmmState) : Prop :=
  ∀ x, Canonical pmap.level.num x →
    if va.toNat ≤ x.toNat ∧ x.toNat < va.toNat + size.toNat then
      effective s'.mem pmap x = some (entryPerms flags)
    else effective s.mem pmap x ≠ none → effective s'.mem pmap x = effective s.mem pmap x

theorem permsAsked_iff {own' : Uptr → Option (Nat × Nat)} (h : PermInv own pmap s)
    (h' : PermInv own' pmap s') (ha : MapArgs va pa flags size)
    (hva : Canonical pmap.level.num va) : PermsAsked pmap va flags size s s' ↔
      PermsPages pmap (pageNumber pmap.level.num va) (size.toNat / 4096) (entryPerms flags) s s' := by
  have hnum := mapRoot_num h.page.root
  have hrange := fun x hx => pageNumber_range (x := x) hnum ha.sizes ha.va_aligned hva hx
  constructor
  · intro hp
    refine ⟨fun key hkey hlo hhi => ?_, fun key hkey hout hmapped => ?_⟩
    · obtain ⟨x, hx, rfl⟩ := exists_canonical hnum hkey
      have hasked := hp x hx
      rw [if_pos ((hrange x hx).mp ⟨hlo, hhi⟩), effective_eq h'] at hasked
      exact hasked
    · obtain ⟨x, hx, rfl⟩ := exists_canonical hnum hkey
      have hkept := hp x hx
      rw [if_neg fun hin => hout ((hrange x hx).mpr hin), effective_eq h', effective_eq h] at hkept
      exact hkept hmapped
  · intro hp x hx
    have hkey := pageNumber_lt pmap.level.num x
    rw [effective_eq h', effective_eq h]
    split
    · rename_i hin
      obtain ⟨hlo, hhi⟩ := (hrange x hx).mpr hin
      exact hp.1 _ hkey hlo hhi
    · rename_i hout
      exact hp.2 _ hkey fun hin => hout ((hrange x hx).mp hin)

theorem permInv_empty (h : EmptyMap pmap s) :
    PermInv (fun u => if u = pmap.directory then some (pmap.level.num, 0) else none) pmap s := by
  have hpage := isPageMap_empty h
  have hentry : ∀ t L p i, (if t = pmap.directory then some (pmap.level.num, 0) else none) =
      some (L, p) → i < 512 → pteAt s.mem t i = 0 := by
    intro t L p i ht hi
    by_cases hdir : t = pmap.directory
    · rw [hdir]
      exact h.empty i hi
    · rw [if_neg hdir] at ht
      cases ht
  refine ⟨hpage, fun t L p i ht hi => ?_, fun t L p i ht hi => ?_, fun key hit hkey hw => ?_⟩
  · rw [hentry t L p i ht hi]
    exact tableBits_inherited.zero L
  · rw [hentry t L p i ht hi]
    exact noHuge_inherited.zero L
  · have hnum := mapRoot_num hpage.root
    obtain ⟨L, hL⟩ : ∃ L, pmap.level.num = L + 1 := ⟨pmap.level.num - 1, by omega⟩
    rw [hL, walk_absent (by rw [h.empty _ (slot_lt _ _)]; rfl)] at hw
    cases hw

/-- Every state of a run has the permissions of its leaves. -/
theorem built_permInv (h : Built pages1gb pmap s) : ∃ own, PermInv own pmap s := by
  induction h with
  | empty h => exact ⟨_, permInv_empty h⟩
  | map _ ha hva hfree hrun ih =>
      obtain ⟨own, hperm⟩ := ih
      exact ((wp_of_eq hrun).mp (wp_vmmMap_perms pages1gb hperm ha hfree)).1
  | unmap _ hva hrun ih =>
      obtain ⟨own, hperm⟩ := ih
      exact ⟨own, (wp_of_eq hrun).mp (wp_vmmUnmap_perms _ hperm)⟩

/-- **A call gives the permissions asked for and keeps all others exactly when it puts no page with
    the user or the global bit into pieces**, in every state a run reaches. -/
theorem vmmMap_perms_iff (h : Built pages1gb pmap s) (ha : MapArgs va pa flags size)
    (hva : Canonical pmap.level.num va) (hfree : mapFrames pages1gb size ≤ s.free.length) :
    wp (vmmMap pages1gb pmap va pa flags size) s (fun _ s' => PermsAsked pmap va flags size s s') ↔
      ¬ LosesPerms pages1gb pmap va flags size s.mem := by
  obtain ⟨own, hperm⟩ := built_permInv h
  have hcall := wp_vmmMap_perms pages1gb hperm ha hfree
  constructor
  · intro hasked
    obtain ⟨_, s', -, hboth, hp⟩ := wp_and hcall hasked
    obtain ⟨⟨own', hperm'⟩, hiff⟩ := hboth
    exact hiff.mp ((permsAsked_iff hperm hperm' ha hva).mp hp)
  · intro hgood
    refine wp_mono hcall fun _ s' hs' => ?_
    obtain ⟨⟨own', hperm'⟩, hiff⟩ := hs'
    exact (permsAsked_iff hperm hperm' ha hva).mpr (hiff.mpr hgood)

end Runs

/-- The arguments of a call for a user page at 1 GB. -/
theorem userArgs {size : Usize} (hs : size = MM_PAGE_2MB ∨ size = MM_PAGE_1GB) :
    MapArgs 0x40000000 0x40000000 (MM_PT_FLAG_WRITE ||| MM_PT_FLAG_USER) size := by
  refine ⟨Or.inr hs, ?_, ?_, by simp, rfl⟩
  all_goals rcases hs with rfl | rfl <;> rfl

theorem userArgs_canonical : Canonical zeroedMap.level.num 0x40000000 := by
  refine Or.inl ?_
  simp [zeroedMap, PageMapLevel.num]

/-- A user page of 2 MB beside a page of the kernel: both have the permissions they were asked for
    with. -/
theorem vmmMap_perms_iff_beside : ∃ s,
    vmmMap true zeroedMap 0xFFFFFFFF80000000 0x200000 MM_PT_FLAG_WRITE MM_PAGE_4KB zeroedState =
      .ok ((), s) ∧
    resolve s.mem zeroedMap 0xFFFFFFFF80000123 = some 0x200123 ∧
    wp (vmmMap true zeroedMap 0x40000000 0x40000000 (MM_PT_FLAG_WRITE ||| MM_PT_FLAG_USER)
      MM_PAGE_2MB) s fun _ s' => PermsAsked zeroedMap 0x40000000
        (MM_PT_FLAG_WRITE ||| MM_PT_FLAG_USER) MM_PAGE_2MB s s' := by
  have hargs : MapArgs 0xFFFFFFFF80000000 0x200000 MM_PT_FLAG_WRITE MM_PAGE_4KB :=
    ⟨Or.inl rfl, rfl, rfl, by simp, rfl⟩
  have hva : ∀ x : U64, 0xFFFFFFFF80000000 ≤ x.toNat → Canonical zeroedMap.level.num x := by
    intro x hx
    refine Or.inr ?_
    simp only [zeroedMap, PageMapLevel.num]
    omega
  have hmap := isPageMap_empty zeroedMap_empty
  obtain ⟨_, s, hrun, hput, hmapped⟩ := wp_and
    (wp_vmmMap_4KB true hargs hmap.inv hmap.root (zeroedState_frames (by decide)))
    (wp_vmmMap_resolve hmap hargs (hva _ (by simp)) (zeroedState_frames (by decide)))
  obtain ⟨own, hput⟩ := hput
  have hframes := put_frames hput
  have hbuilt : Built true zeroedMap s := .map (.empty zeroedMap_empty) hargs (hva _ (by simp))
    (zeroedState_frames (by decide)) hrun
  have hfree : mapFrames true MM_PAGE_2MB ≤ s.free.length := by
    have hnine : zeroedState.free.length = 9 := rfl
    have hnum : zeroedMap.level.num = 4 := rfl
    rw [mapFrames, if_neg (by decide)]
    omega
  refine ⟨s, hrun, ?_, (vmmMap_perms_iff hbuilt (userArgs (Or.inl rfl)) userArgs_canonical
    hfree).mpr fun hbad => ?_⟩
  · rw [hmapped.2 0xFFFFFFFF80000123 (hva _ (by simp))]
    rfl
  · rcases hbad with hbad | hbad
    · exact absurd hbad.1 (by decide)
    · exact absurd hbad.1 (by decide)

/-- A user page of 1 GB loses user access. -/
theorem vmmMap_1GB_loses_user : Built true zeroedMap zeroedState ∧
    MapArgs 0x40000000 0x40000000 (MM_PT_FLAG_WRITE ||| MM_PT_FLAG_USER) MM_PAGE_1GB ∧
    ¬ wp (vmmMap true zeroedMap 0x40000000 0x40000000 (MM_PT_FLAG_WRITE ||| MM_PT_FLAG_USER)
      MM_PAGE_1GB) zeroedState fun _ s' => PermsAsked zeroedMap 0x40000000
        (MM_PT_FLAG_WRITE ||| MM_PT_FLAG_USER) MM_PAGE_1GB zeroedState s' := by
  have hargs := userArgs (Or.inr rfl)
  have hperm := permInv_empty zeroedMap_empty
  refine ⟨.empty zeroedMap_empty, hargs, fun hasked => ?_⟩
  obtain ⟨_, s', -, hboth, hp⟩ := wp_and
    (wp_vmmMap_perms true hperm hargs (zeroedState_frames (by decide))) hasked
  obtain ⟨⟨own', hperm'⟩, hiff⟩ := hboth
  exact hiff.mp ((permsAsked_iff hperm hperm' hargs userArgs_canonical).mp hp)
    (Or.inl ⟨rfl, rfl, Or.inl rfl⟩)

end Slightx
