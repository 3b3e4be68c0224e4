/-
  File:      Slightx/Mem/UserHalf.lean
  Subject:   The user halves of several page maps in one memory.

  Every task has a page map of its own. The page maps share the tables of the kernel's half; a
  table below an address of the user half belongs to one page map, and has no large pages.

  * `UserMaps` -- the page maps of a family of tasks, side by side;
  * `userMaps_put`, `wp_vmmUnmap_user` -- a call for a page of one task changes this page, and no
    other page of any task;
  * `wp_vmmTranslate_user` -- the translation of a mapped page;
  * `userMaps_same` -- memory that holds no table may change, and so may the free frames
-/
import Slightx.Mem.VmmCost
import Slightx.Mem.VmmTranslate

namespace Slightx

open Lib

/-! ## 1. Well-formed page maps -/

section WellFormed

variable {own : Uptr → Option (Nat × Nat)} {s s' : VmmState} {t u : Uptr} {L p key : Nat}

/-- A labelled table is well-formed all the way down. -/
theorem wellFormed_of_inv (h : VmmInv own s) (hplain : Entries Plain own s)
    (ht : own t = some (L, p)) : WellFormed s.mem L t := by
  induction L generalizing t p with
  | zero => exact trivial
  | succ L ih =>
      intro i hi hp
      have hleaf := hplain t _ _ i ht hi hp
      have hentry := h.entries t _ _ i ht hi hp
      by_cases hL : L = 0
      · subst hL
        exact ⟨(hleaf (Or.inl rfl)).1, fun h0 => absurd h0 (Nat.lt_irrefl 0)⟩
      have hentry := hentry (by omega)
      cases hl : pteLarge (pteAt s.mem t i) with
      | true =>
          rw [if_pos hl] at hentry
          exact ⟨(hleaf (Or.inr hl)).1, fun _ => by rw [if_pos rfl]; exact hentry⟩
      | false =>
          rw [if_neg (by simp [hl])] at hentry
          refine ⟨hentry, fun _ => ?_⟩
          rw [if_neg (by decide)]
          exact ih (child_label h ht hL hi ⟨hp, hl, hentry, rfl⟩)

/-- The invariant depends on the entries of tables and on the free frames only. -/
theorem vmmInv_same (h : VmmInv own s)
    (hsame : ∀ u, own u ≠ none → ∀ j, j < 512 → pteAt s'.mem u j = pteAt s.mem u j)
    (hfree : ∀ f ∈ s'.free, FrameOk f ∧ own f = none) (hnodup : s'.free.Nodup) :
    VmmInv own s' := by
  refine ⟨fun t L p i u f ht hi hk => ?_, h.frame, fun t L p i ht hi => ?_, hfree, hnodup⟩
  · rw [hsame t (by rw [ht]; exact Option.some_ne_none _) i hi] at hk
    exact h.labelled t L p i u f ht hi hk
  · rw [hsame t (by rw [ht]; exact Option.some_ne_none _) i hi]
    exact h.entries t L p i ht hi

theorem isPageMap_same {pmap : PageMap} (h : IsPageMap own pmap s)
    (hsame : ∀ u, own u ≠ none → ∀ j, j < 512 → pteAt s'.mem u j = pteAt s.mem u j)
    (hfree : ∀ f ∈ s'.free, FrameOk f ∧ own f = none) (hnodup : s'.free.Nodup) :
    IsPageMap own pmap s' := by
  refine ⟨vmmInv_same h.inv hsame hfree hnodup, fun t L p i ht hi => ?_, h.root⟩
  rw [hsame t (by rw [ht]; exact Option.some_ne_none _) i hi]
  exact h.plain t L p i ht hi

/-- What is mapped depends on the entries of tables only. -/
theorem look_same (h : VmmInv own s)
    (hsame : ∀ u, own u ≠ none → ∀ j, j < 512 → pteAt s'.mem u j = pteAt s.mem u j)
    (ht : own t = some (L, key / 512 ^ L)) :
    pageView.look s'.mem key L t = pageView.look s.mem key L t := by
  refine view_congr (look_congr (by decide) h.labelled (fun u M _ hu => ?_) ht)
  exact hsame u (by rw [hu]; exact Option.some_ne_none _) _ (slot_lt key M)

/-- Nor do ways down and what they lack depend on more. -/
theorem stage_same {top M : Nat} {root : Uptr} (h : VmmInv own s)
    (hsame : ∀ u, own u ≠ none → ∀ j, j < 512 → pteAt s'.mem u j = pteAt s.mem u j)
    (hs : Stage own s top root key M u) : Stage own s' top root key M u := by
  obtain ⟨hroot, g, hreach⟩ := hs
  refine ⟨hroot, g, ?_⟩
  induction hreach with
  | here => exact .here
  | @down M u v g f hd hk ih =>
      have hu := reach_label (by decide) h.labelled hroot hd
      rw [← hsame u (by rw [hu]; exact Option.some_ne_none _) _ (slot_lt key M)] at hk
      exact .down ih hk

theorem lacks_same (h : VmmInv own s)
    (hsame : ∀ u, own u ≠ none → ∀ j, j < 512 → pteAt s'.mem u j = pteAt s.mem u j)
    (ht : own t = some (L, key / 512 ^ L)) : lacks s'.mem key L t = lacks s.mem key L t := by
  refine lack_congr (by decide) h.labelled (fun u M _ hu => ?_) ht
  exact hsame u (by rw [hu]; exact Option.some_ne_none _) _ (slot_lt key M)

end WellFormed

/-! ## 2. Pages of the user half -/

/-- The pages below 2^47. -/
abbrev userPages : Nat := 2 ^ 35

/-- Below an address of the user half there are no large pages. -/
def SmallPages (own : Uptr → Option (Nat × Nat)) (s : VmmState) : Prop :=
  ∀ t L key, own t = some (L + 1, key / 512 ^ (L + 1)) → key < userPages → L ≠ 0 →
    ptePresent (pteAt s.mem t (slot key L)) = true → pteLarge (pteAt s.mem t (slot key L)) = false

/-- The page frame behind page `key`. -/
abbrev userPage (m : Mem) (pmap : PageMap) (key : Nat) : Option Nat :=
  pageView.look m key pmap.level.num pmap.directory

section Small

variable {own own' : Uptr → Option (Nat × Nat)} {s s' : VmmState} {t c u root : Uptr}
  {key key' K L top : Nat} {tf e va : U64} {pmap : PageMap}

theorem pageNumber_user (ht : top = 4 ∨ top = 5) (hva : va.toNat < 2 ^ 47) :
    pageNumber top va = va.toNat / 4096 := by
  unfold pageNumber
  rcases ht with rfl | rfl <;> omega

theorem user_key (ht : top = 4 ∨ top = 5) (hva : va.toNat < 2 ^ 47) :
    pageNumber top va < userPages := by
  rw [pageNumber_user ht hva]
  unfold userPages
  omega

theorem level_of_small (h : VmmInv own s) (hs : SmallPages own s) (hkey : key < userPages)
    (ht : own t = some (L, key / 512 ^ L)) {hit : Hit} (hw : walk s.mem key L t = some hit) :
    hit.level = 1 := by
  induction L generalizing t hit with
  | zero => cases hw
  | succ L ih =>
      have hi := slot_lt key L
      unfold walk at hw
      rw [look] at hw
      cases hk : pageKind (L + 1) (pteAt s.mem t (slot key L)) with
      | absent => rw [hk] at hw; cases hw
      | leaf r =>
          rw [hk] at hw
          cases hw
          obtain ⟨rfl, -, -, hp, hl⟩ := pageKind_leaf hk
          by_contra hL
          have hL0 : L ≠ 0 := fun h0 => hL (by rw [h0]; rfl)
          rw [hs t L key ht hkey hL0 hp] at hl
          exact absurd (hl (by omega)) (by decide)
      | next v f =>
          rw [hk] at hw
          obtain ⟨-, -, -, -, rfl⟩ := pageKind_next hk
          obtain ⟨hit', hw', rfl⟩ := Option.map_eq_some_iff.mp hw
          have hlev : hit'.level = 1 := ih (labelled_next (by decide) h.labelled ht hk) hw'
          exact hlev

theorem smallPages_same (h : SmallPages own s)
    (hsame : ∀ u, own u ≠ none → ∀ j, j < 512 → pteAt s'.mem u j = pteAt s.mem u j) :
    SmallPages own s' := by
  intro t L key ht hkey hL hp
  rw [hsame t (by rw [ht]; exact Option.some_ne_none _) _ (slot_lt key L)] at hp ⊢
  exact h t L key ht hkey hL hp

/-- A descent for a page of the user half makes no large pages. -/
theorem smallPages_descended (h : VmmInv own s) (hs : SmallPages own s) (hkey : key < userPages)
    (ht : own t = some (K + 1, key / 512 ^ (K + 1))) (hK : K ≠ 0)
    (hd : Descended own own' s s' t (slot key K) K (key / 512 ^ (K + 1)) tf c) :
    SmallPages own' s' := by
  intro u L key' hu hkey' hL hp
  have hj := slot_lt key' L
  by_cases hold : own u = none
  · -- a new table is empty
    obtain rfl := hd.known u (by rw [hu]; exact Option.some_ne_none _) hold
    cases hd.how with
    | created _ _ hsub =>
        rw [hsub _ hj] at hp
        exact absurd hp (by decide)
    | shared hold' _ =>
        rw [child_label h ht hK (slot_lt key K) hold'] at hold
        cases hold
    | split hp' hl _ _ _ =>
        rw [hs t K key ht hkey hK hp'] at hl
        cases hl
  · by_cases hsame : u = t ∧ slot key' L = slot key K
    · rw [hsame.1, hsame.2]
      exact hd.table.small
    · rw [hd.edit u _ hold hj hsame] at hp ⊢
      obtain ⟨⟨M, q⟩, hM⟩ := Option.ne_none_iff_exists'.mp hold
      have hkeep := hd.grow.keep u M q hM
      rw [hu] at hkeep
      cases hkeep
      exact hs u L key' hM hkey' hL hp

/-- Nor does a whole way. -/
theorem smallPages_leads (h : VmmInv own s) (hs : SmallPages own s) (hkey : key < userPages)
    (hroot : own root = some (top, key / 512 ^ top))
    (hl : Leads key top root tf own s own' s' K t) (hK : K ≠ 0) : SmallPages own' s' := by
  induction hl with
  | root => exact hs
  | @down own₁ own₂ s₁ s₂ K t c hw hd ih =>
      obtain ⟨hgrow, hstage⟩ := leads_stage h hroot hw (Nat.succ_ne_zero K)
      exact smallPages_descended hgrow.inv (ih (Nat.succ_ne_zero K)) hkey
        (stage_label hgrow.inv hstage) hK hd

/-- Entries of level 1 are no concern. -/
theorem smallPages_stored {p i : Nat} (h : VmmInv own s) (hs : SmallPages own s)
    (ht : own t = some (1, p)) (hi : i < 512) : SmallPages own (s.stored t i e) := by
  intro u L key hu hkey hL hp
  have hne : ¬ (u = t ∧ slot key L = i) := by
    intro hsame
    rw [hsame.1, ht] at hu
    injection hu with hu
    have hlev : 1 = L + 1 := congrArg Prod.fst hu
    omega
  have hedit := editAt_stored h ht hi e u _ (by rw [hu]; exact Option.some_ne_none _)
    (slot_lt key L) hne
  rw [hedit] at hp ⊢
  exact hs u L key hu hkey hL hp

/-- A way changes tables of its own page number only. -/
theorem leads_off {q j : Nat} (h : VmmInv own s) (hroot : own root = some (top, key / 512 ^ top))
    (hl : Leads key top root tf own s own' s' K t) (hK : K ≠ 0) (hu : own u = some (L, q))
    (hq : q ≠ key / 512 ^ L) (hj : j < 512) : pteAt s'.mem u j = pteAt s.mem u j := by
  induction hl with
  | root => rfl
  | @down own₁ own₂ s₁ s₂ K t c hw hd ih =>
      obtain ⟨hgrow, hstage⟩ := leads_stage h hroot hw (Nat.succ_ne_zero K)
      have ht := stage_label hgrow.inv hstage
      have hu₁ := hgrow.keep u L q hu
      rw [hd.edit u j (by rw [hu₁]; exact Option.some_ne_none _) hj fun hsame => ?_]
      · exact ih (Nat.succ_ne_zero K)
      · rw [hsame.1, ht] at hu₁
        cases hu₁
        exact hq rfl

/-- Memory off all tables: nothing that is no table changed. -/
theorem grow_off {j : Nat} (hg : Grow own own' s s') (hu : FrameOk u) (hnew : own' u = none)
    (hj : j < 512) : pteAt s'.mem u j = pteAt s.mem u j := by
  refine load64_sameOff hg.touch fun x hx hin => ?_
  obtain ⟨t, ht, hin⟩ := hin
  obtain ⟨⟨L, p⟩, hL⟩ := Option.ne_none_iff_exists'.mp ht
  have hne : u ≠ t := fun hut => ht (hut ▸ hnew)
  have hapart := frames_apart (hg.inv.frame t L p hL) hu hne
  obtain ⟨hlo, hhi⟩ := hin
  omega

/-- **A call for a page changes the tables of its page number only**, among those that were there. -/
theorem put_off {pa flags : U64} {j : Nat} (h : VmmInv own s) (hr : MapRoot own pmap)
    (ha : LeafArgs pa flags K) (hp : Put pmap va pa flags own s own' s' K) (hu : FrameOk u)
    (hfree : u ∉ s.free)
    (hq : ∀ L q, own u = some (L, q) → q ≠ pageNumber pmap.level.num va / 512 ^ L)
    (hj : j < 512) : pteAt s'.mem u j = pteAt s.mem u j := by
  have hlev := ha.level
  have hroot := mapRoot_label hr (pageNumber_lt pmap.level.num va)
  cases hown : own u with
  | none =>
      refine grow_off (leads_put h hr ha hp) hu ?_ hj
      by_contra hnew
      rcases (leads_put h hr ha hp).fresh u hnew with hold | hold
      · exact hold hown
      · exact hfree hold
  | some label =>
      obtain ⟨L, q⟩ := label
      obtain ⟨s₁, t, hw, rfl⟩ := hp
      obtain ⟨K, rfl⟩ : ∃ M, K = M + 1 := ⟨K - 1, by omega⟩
      obtain ⟨hgrow, hstage⟩ := leads_stage h hroot hw (Nat.succ_ne_zero K)
      have ht := stage_label hgrow.inv hstage
      have hi := slot_lt (pageNumber pmap.level.num va) K
      have hu₁ := hgrow.keep u L q hown
      rw [← leads_off h hroot hw (Nat.succ_ne_zero K) hown (hq L q hown) hj]
      refine editAt_stored hgrow.inv ht hi _ u j (by rw [hu₁]; exact Option.some_ne_none _) hj ?_
      intro hsame
      rw [hsame.1, ht] at hu₁
      cases hu₁
      exact hq _ _ hown rfl

/-- **The translation of a page that has an entry of its own.** -/
theorem wp_vmmTranslate_page {f : Nat} (h : IsPageMap own pmap s)
    (hlev : ∀ hit, hwWalk s.mem pmap va = some hit → hit.level = 1) (haligned : va.toNat % 4096 = 0)
    (hpage : userPage s.mem pmap (pageNumber pmap.level.num va) = some f) :
    wp (vmmTranslate pmap va) s fun a s' => a.toNat = 4096 * f ∧ s' = s := by
  have hspec := translateSpec_exact h.root.level (wellFormed_of_inv h.inv h.plain h.root.root)
    fun hit hw => Or.inl (hlev hit hw)
  have hres := resolve_eq s.mem (mapRoot_num h.root) va
  rw [show pageView.look _ _ _ _ = _ from hpage, haligned] at hres
  unfold TranslateSpec at hspec
  rw [hres] at hspec
  obtain ⟨-, a, ha, hpa⟩ := hspec
  exact ⟨a, s, ha, hpa, rfl⟩

/-- **The translation of a page of the user half.** -/
theorem wp_vmmTranslate_user {f : Nat} (h : IsPageMap own pmap s) (hs : SmallPages own s)
    (hva : va.toNat < 2 ^ 47) (haligned : va.toNat % 4096 = 0)
    (hpage : userPage s.mem pmap (va.toNat / 4096) = some f) :
    wp (vmmTranslate pmap va) s fun a s' => a.toNat = 4096 * f ∧ s' = s := by
  have hnum := mapRoot_num h.root
  have hroot := mapRoot_label h.root (pageNumber_lt pmap.level.num va)
  rw [← pageNumber_user hnum hva] at hpage
  exact wp_vmmTranslate_page h
    (fun hit hw => level_of_small h.inv hs (user_key hnum hva) hroot hw) haligned hpage

end Small

/-! ## 3. Page maps side by side -/

/-- **The page maps of a family of tasks**: each is one, their user halves have small pages and
    share no table. -/
structure UserMaps {ι : Type} (own : ι → Uptr → Option (Nat × Nat)) (pmap : ι → PageMap)
    (s : VmmState) : Prop where
  page : ∀ k, IsPageMap (own k) (pmap k) s
  small : ∀ k, SmallPages (own k) s
  apart : ∀ k k' t L key, k ≠ k' → key < userPages → own k t = some (L, key / 512 ^ L) →
    own k' t = none

/-- Page `key` of task `k` goes to `p` now, and all other user pages where they went. -/
def PageSet {ι : Type} (pmap : ι → PageMap) (s s' : VmmState) (k : ι) (key : Nat)
    (p : Option Nat) : Prop :=
  ∀ k' key', key' < userPages → (k' = k ∧ key' = key → userPage s'.mem (pmap k') key' = p) ∧
    (¬ (k' = k ∧ key' = key) → userPage s'.mem (pmap k') key' = userPage s.mem (pmap k') key')

section UserMaps

variable {ι : Type} {own : ι → Uptr → Option (Nat × Nat)} {pmap : ι → PageMap} {s s' : VmmState}
  {own' : Uptr → Option (Nat × Nat)} {va pa flags : U64} {k : ι} {key : Nat}

theorem userMaps_root (h : UserMaps own pmap s) (k : ι) (hkey : key < userPages) :
    own k (pmap k).directory = some ((pmap k).level.num, key / 512 ^ (pmap k).level.num) := by
  refine mapRoot_label (h.page k).root ?_
  unfold userPages at hkey
  rcases mapRoot_num (h.page k).root with hl | hl
  · rw [hl]
    omega
  · rw [hl]
    omega

/-- Empty directories, each for itself. -/
theorem userMaps_empty (h : ∀ k, EmptyMap (pmap k) s)
    (hne : ∀ k k', k ≠ k' → (pmap k).directory ≠ (pmap k').directory) :
    UserMaps (fun k u => if u = (pmap k).directory then some ((pmap k).level.num, 0) else none) pmap
      s := by
  have hdir : ∀ {k t l}, (if t = (pmap k).directory then some ((pmap k).level.num, 0) else none) =
      some l → t = (pmap k).directory := by
    intro k t l ht
    by_contra hother
    rw [if_neg hother] at ht
    cases ht
  refine ⟨fun k => isPageMap_empty (h k), fun k t L key ht hkey hL hp => ?_,
    fun k k' t L key hkk hkey ht => if_neg fun he => ?_⟩
  · rw [hdir ht, (h k).empty _ (slot_lt key L)] at hp
    exact absurd hp (by decide)
  · exact hne k k' hkk ((hdir ht).symm.trans he)

/-- Memory off the tables may change, and other frames may be free. -/
theorem userMaps_same (h : UserMaps own pmap s)
    (hsame : ∀ k u, own k u ≠ none → ∀ j, j < 512 → pteAt s'.mem u j = pteAt s.mem u j)
    (hfree : ∀ f ∈ s'.free, FrameOk f ∧ ∀ k, own k f = none) (hnodup : s'.free.Nodup) :
    UserMaps own pmap s' ∧ ∀ k key, key < userPages →
      userPage s'.mem (pmap k) key = userPage s.mem (pmap k) key := by
  refine ⟨⟨fun k => isPageMap_same (h.page k) (hsame k) (fun f hf => ?_) hnodup,
    fun k => smallPages_same (h.small k) (hsame k), h.apart⟩, fun k key hkey => ?_⟩
  · exact ⟨(hfree f hf).1, (hfree f hf).2 k⟩
  · exact look_same (h.page k).inv (hsame k) (userMaps_root h k hkey)

/-- Other frames may be free. -/
theorem userMaps_free (h : UserMaps own pmap s) {free : List Uptr}
    (hfree : ∀ f ∈ free, FrameOk f ∧ ∀ k, own k f = none) (hnodup : free.Nodup) :
    UserMaps own pmap { s with free } := by
  refine ⟨fun k => ?_, fun k => smallPages_same (h.small k) fun _ _ _ _ => rfl, h.apart⟩
  exact isPageMap_same (h.page k) (fun _ _ _ _ => rfl)
    (fun f hf => ⟨(hfree f hf).1, (hfree f hf).2 k⟩) hnodup

/-- **A call for a page of one task.** -/
theorem userMaps_put [DecidableEq ι] (h : UserMaps own pmap s) (k : ι)
    (ha : MapArgs va pa flags MM_PAGE_4KB) (hva : va.toNat < 2 ^ 47)
    (hp : Put (pmap k) va pa flags (own k) s own' s' 1) :
    UserMaps (Function.update own k own') pmap s' ∧
      PageSet pmap s s' k (va.toNat / 4096) (some (pa.toNat / 4096)) := by
  have hmap := h.page k
  have hnum := mapRoot_num hmap.root
  have hleaf := leafArgs_of_mapArgs (L := 1) ha (by omega) rfl
  have hkey := pageNumber_user hnum hva
  have hlow := user_key hnum hva
  have hroot := mapRoot_label hmap.root (pageNumber_lt (pmap k).level.num va)
  obtain ⟨hmap', hmaps⟩ := isPageMap_put hmap hleaf ha.va_aligned hp
  have hgrow := hmaps.grow
  have hsmall : SmallPages own' s' := by
    obtain ⟨s₁, t, hw, rfl⟩ := hp
    obtain ⟨hgrow₁, hstage⟩ := leads_stage hmap.inv hroot hw (by decide)
    exact smallPages_stored hgrow₁.inv (smallPages_leads hmap.inv (h.small k) hlow hroot hw
      (by decide)) (stage_label hgrow₁.inv hstage) (slot_lt _ 0)
  -- the tables of the other tasks
  have hsame : ∀ k', k' ≠ k → ∀ u, own k' u ≠ none → ∀ j, j < 512 →
      pteAt s'.mem u j = pteAt s.mem u j := by
    intro k' hne u hu j hj
    obtain ⟨⟨M, r⟩, hM⟩ := Option.ne_none_iff_exists'.mp hu
    refine put_off hmap.inv hmap.root hleaf hp ((h.page k').inv.frame u M r hM) (fun hf => ?_)
      (fun L q hq hlab => ?_) hj
    · exact hu ((h.page k').inv.free u hf).2
    · rw [hlab] at hq
      exact hu (h.apart k k' u L _ (Ne.symm hne) hlow hq)
  have hother : ∀ k', k' ≠ k → IsPageMap (own k') (pmap k') s' := fun k' hne =>
    isPageMap_same (h.page k') (hsame k' hne)
      (fun f hf => (h.page k').inv.free f (hgrow.suffix.subset hf)) hgrow.inv.nodup
  refine ⟨⟨fun k' => ?_, fun k' => ?_, fun a b t L key hab hkey' hlab => ?_⟩, fun k' key hkey' => ?_⟩
  · by_cases hk : k' = k
    · subst hk
      rw [Function.update_self]
      exact hmap'
    · rw [Function.update_of_ne hk]
      exact hother k' hk
  · by_cases hk : k' = k
    · subst hk
      rw [Function.update_self]
      exact hsmall
    · rw [Function.update_of_ne hk]
      exact smallPages_same (h.small k') (hsame k' hk)
  · by_cases hka : a = k
    · subst hka
      rw [Function.update_self] at hlab
      rw [Function.update_of_ne (Ne.symm hab)]
      by_contra hb
      rcases hgrow.fresh t (by rw [hlab]; exact Option.some_ne_none _) with hold | hold
      · obtain ⟨⟨M, q⟩, hM⟩ := Option.ne_none_iff_exists'.mp hold
        have hkeep := hgrow.keep t M q hM
        rw [hlab] at hkeep
        cases hkeep
        exact hb (h.apart a b t L key hab hkey' hM)
      · exact hb ((h.page b).inv.free t hold).2
    · rw [Function.update_of_ne hka] at hlab
      by_cases hkb : b = k
      · subst hkb
        rw [Function.update_self]
        by_contra hb
        rcases hgrow.fresh t hb with hold | hold
        · exact hold (h.apart a b t L key hab hkey' hlab)
        · rw [((h.page a).inv.free t hold).2] at hlab
          cases hlab
      · rw [Function.update_of_ne hkb]
        exact h.apart a b t L key hab hkey' hlab
  · constructor
    · intro hsame
      obtain ⟨rfl, rfl⟩ := hsame
      rw [← hkey]
      refine (hmaps.here _ hroot (Nat.le_refl _) (by omega)).trans ?_
      rw [Nat.add_sub_cancel]
    · intro hne
      by_cases hk : k' = k
      · subst hk
        refine hmaps.other _ _ key (userMaps_root h k' hkey') fun hin => hne ⟨rfl, ?_⟩
        simp only [Nat.sub_self, Nat.pow_zero] at hin
        omega
      · exact look_same (h.page k').inv (hsame k' hk) (userMaps_root h k' hkey')

/-- **A call of `vmm_unmap` for a page of one task.** -/
theorem wp_vmmUnmap_user (h : UserMaps own pmap s) (k : ι) (hva : va.toNat < 2 ^ 47) :
    wp (vmmUnmap (pmap k) va) s fun _ s' => UserMaps own pmap s' ∧ s'.free = s.free ∧
      PageSet pmap s s' k (va.toNat / 4096) none ∧ ∀ top root key M u, M ≠ 0 →
        Stage (own k) s top root key M u → Stage (own k) s' top root key M u := by
  have hmap := h.page k
  have hnum := mapRoot_num hmap.root
  have hkey := pageNumber_user hnum hva
  have hlow := user_key hnum hva
  have hroot := mapRoot_label hmap.root (pageNumber_lt (pmap k).level.num va)
  refine wp_mono (wp_vmmUnmap_cleared va hmap.inv hmap.root) fun _ s' hc => ?_
  have hunmaps := unmaps_cleared hmap.inv hmap.plain hroot hc
  cases hc with
  | missed hw hs =>
      subst hs
      refine ⟨h, rfl, fun k' key hkey' => ⟨fun hsame => ?_, fun _ => rfl⟩, fun _ _ _ _ _ _ hs => hs⟩
      obtain ⟨rfl, rfl⟩ := hsame
      rw [← hkey, userPage, View.look, show walk _ _ _ _ = _ from hw]
      rfl
  | @found K u g hit hw hreach hlev hs =>
      subst hs
      have hsmall := level_of_small hmap.inv (h.small k) hlow hroot hw
      obtain rfl : K = 0 := by omega
      have hi := slot_lt (pageNumber (pmap k).level.num va) 0
      have hu := reach_label (by decide) hmap.inv.labelled hroot hreach
      have hsame : ∀ k', k' ≠ k → ∀ v, own k' v ≠ none → ∀ j, j < 512 →
          pteAt (s.stored u (slot (pageNumber (pmap k).level.num va) 0) 0).mem v j =
            pteAt s.mem v j := by
        intro k' hne v hv j hj
        obtain ⟨⟨M, r⟩, hM⟩ := Option.ne_none_iff_exists'.mp hv
        refine (pteAt_store64 (hmap.inv.frame u _ _ hu) ((h.page k').inv.frame v M r hM) hi hj).trans
          (if_neg fun hsame => ?_)
        rw [hsame.1, h.apart k k' u _ _ (Ne.symm hne) hlow hu] at hM
        cases hM
      refine ⟨⟨fun k' => ?_, fun k' => ?_, h.apart⟩, rfl,
        fun k' key hkey' => ⟨fun hsame => ?_, fun hne => ?_⟩,
        fun top root key M v hM hs => ?_⟩
      · by_cases hk : k' = k
        · subst hk
          exact ⟨hunmaps.grow.inv, hunmaps.plain, hmap.root⟩
        · exact isPageMap_same (h.page k') (hsame k' hk) (h.page k').inv.free (h.page k').inv.nodup
      · by_cases hk : k' = k
        · subst hk
          exact smallPages_stored hmap.inv (h.small k') hu hi
        · exact smallPages_same (h.small k') (hsame k' hk)
      · obtain ⟨rfl, rfl⟩ := hsame
        rw [← hkey]
        refine (hunmaps.found hit hw _ hroot).trans ?_
        rw [if_pos rfl]
      · by_cases hk : k' = k
        · subst hk
          refine (hunmaps.found hit hw key (userMaps_root h k' hkey')).trans ?_
          rw [hsmall, Nat.sub_self, Nat.pow_zero, Nat.div_one, Nat.div_one, if_neg]
          intro hsame
          exact hne ⟨rfl, by omega⟩
        · exact look_same (h.page k').inv (hsame k' hk) (userMaps_root h k' hkey')
      · exact stage_stored hmap.inv hu hi hs (by omega)

end UserMaps

end Slightx
