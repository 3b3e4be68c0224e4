/-
  File:      Slightx/Mem/VmmCost.lean
  Subject:   The frames a call of `vmm_map` takes.

  `pd_get_or_create` takes a frame exactly where the way down lacks a table, and its `pmm_alloc`
  panics where no frame is left. So a call for a page of 4 KB returns exactly if the free frames
  suffice for the tables its way lacks:

  * `ends_vmmMap_way` -- what every descent keeps holds where the leaf is written;
  * `Dug` -- a way down, with the frames it took;
  * `ends_vmmMap_4KB` -- what a call takes, and when it stops;
  * `put_lack` -- afterwards a way lacks the tables it did, less those of the page's way;
  * `card_lacking_succ` -- so a range of pages costs the tables it lacks, each counted once
-/
import Slightx.Mem.VmmMap
import Mathlib.Data.Finset.Union
import Mathlib.Order.Interval.Finset.Nat
import Mathlib.Algebra.Order.BigOperators.Group.Finset

namespace Slightx

open Lib

/-! ## 1. `pd_get_or_create` without a free frame -/

/-- `pmm_alloc` where no frame is left. -/
def noFrames : Fault := .panic "[pmm] No free pages available"

/-- The tables the walk of `key` lacks from table `t` of level `L` on. -/
abbrev lacks (m : Mem) (key L : Nat) (t : Uptr) : Nat := lack 512 pageKind (pteAt m) key L t

/-- How a descent came by the table `c` behind the entry `e`: it was there, or is the first free
    frame. -/
inductive Came (e : U64) (s s' : VmmState) (c : Uptr) : Prop where
  | there (hold : IsTable e c) (hfree : s'.free = s.free)
  | made (hold : ∀ u, ¬ IsTable e u) (hfree : s.free = c :: s'.free)

/-- The state after a free frame was taken. -/
def VmmState.taken (s : VmmState) (f : Uptr) (rest : List Uptr) : VmmState :=
  { mem := fill s.mem f.toNat 4096 0, free := rest }

/-- No table changes when a free frame is zeroed. -/
theorem taken_pte {own : Uptr → Option (Nat × Nat)} {s : VmmState} {f u : Uptr} {rest : List Uptr}
    {j : Nat} (h : VmmInv own s) (hfree : s.free = f :: rest) (hu : own u ≠ none) (hj : j < 512) :
    pteAt (s.taken f rest).mem u j = pteAt s.mem u j := by
  have hmem : f ∈ s.free := by rw [hfree]; exact List.mem_cons_self
  obtain ⟨hframe, hnone⟩ := h.free f hmem
  obtain ⟨⟨L, p⟩, hL⟩ := Option.ne_none_iff_exists'.mp hu
  refine (pteAt_fill hframe (h.frame u L p hL) hj).trans (if_neg fun huf => hu ?_)
  rw [huf]
  exact hnone

section Descend

variable {own own' : Uptr → Option (Nat × Nat)} {s s' : VmmState} {t c r u : Uptr}
  {i K L M p key : Nat} {tf : U64} {level : PageMapLevel} {g : Hit → Hit}

theorem pmmAllocFrame_stops (h : s.free = []) : Stops pmmAllocFrame s noFrames := by
  have hget : (get : Prog Fault VmmState VmmState) s = .ok (s, s) := rfl
  refine stops_bind_right hget ?_
  rw [h]
  rfl

theorem pmmAllocFrame_cons {f : Uptr} {rest : List Uptr} (h : s.free = f :: rest) :
    pmmAllocFrame s = .ok (f, s.taken f rest) := by
  obtain ⟨m, free⟩ := s
  obtain rfl : free = f :: rest := h
  rfl

/-- Without a free frame `pd_get_or_create` panics, unless the table is there. -/
theorem pdGetOrCreate_stops (h : VmmInv own s) (ht : own t = some (K + 1, p)) (hi : i < 512)
    (hlev : DescendLevel level K) (hfree : s.free = [])
    (hold : ∀ u, ¬ IsTable (pteAt s.mem t i) u) : Stops (pdGetOrCreate t i level tf) s noFrames := by
  obtain ⟨hnum, hK⟩ := hlev
  have hload : pdLoad t i s = .ok (pteAt s.mem t i, s) := rfl
  refine stops_bind_right hload ?_
  cases hp : ptePresent (pteAt s.mem t i) with
  | false => exact stops_bind_left (pmmAllocFrame_stops hfree)
  | true =>
      rw [if_neg (by decide)]
      cases hl : pteLarge (pteAt s.mem t i) with
      | false => exact absurd (isTable_of_small h ht hK hi hp hl) (hold _)
      | true =>
          have hlarge := h.entries t _ _ i ht hi hp (by omega)
          rw [if_pos hl] at hlarge
          have hsplit : ∀ a b : Usize, (a = MM_PAGE_1GB ∧ b = MM_PAGE_2MB) ∨
              (a = MM_PAGE_2MB ∧ b = MM_PAGE_4KB) → Stops (pdSplit t i a b tf) s noFrames := by
            intro a b hab
            refine stops_bind_right hload ?_
            rw [if_neg (by simp [hp, hl]), if_neg (not_not.mpr hab)]
            exact stops_bind_left (pmmAllocFrame_stops hfree)
          rw [if_neg (by decide)]
          cases level with
          | PML1 => cases hnum; exact absurd rfl hK
          | PML2 => exact hsplit _ _ (Or.inr ⟨rfl, rfl⟩)
          | PML3 => exact hsplit _ _ (Or.inl ⟨rfl, rfl⟩)
          | PML4 => cases hnum; exact absurd hlarge.1 (by decide)
          | PML5 => cases hnum; exact absurd hlarge.1 (by decide)

/-- **`pd_get_or_create` takes a frame for a table that is not there, and panics if there is
    none.** -/
theorem ends_pdGetOrCreate (h : VmmInv own s) (ht : own t = some (K + 1, p)) (hi : i < 512)
    (hlev : DescendLevel level K) (htf : TableFlags tf) :
    ends (pdGetOrCreate t i level tf) s
      (fun c s' => (∃ own', Descended own own' s s' t i K p tf c) ∧ Came (pteAt s.mem t i) s s' c)
      (fun e => e = noFrames ∧ s.free = [] ∧ ∀ u, ¬ IsTable (pteAt s.mem t i) u) := by
  by_cases hold : ∃ u, IsTable (pteAt s.mem t i) u
  · obtain ⟨u, hold⟩ := hold
    refine ends_of_wp (wp_mono (wp_pdGetOrCreate_shared h ht hi hlev.2 hold) fun c s' hd => ?_)
    obtain ⟨rfl, hfree, hd⟩ := hd
    exact ⟨⟨own, hd⟩, .there hold hfree⟩
  have hold' : ∀ u, ¬ IsTable (pteAt s.mem t i) u := fun u hu => hold ⟨u, hu⟩
  by_cases hfree : s.free = []
  · exact (ends_of_stops (pdGetOrCreate_stops h ht hi hlev hfree hold')).mpr ⟨rfl, hfree, hold'⟩
  · obtain ⟨f, rest, hfree⟩ := List.exists_cons_of_ne_nil hfree
    refine ends_of_wp (wp_mono (wp_pdGetOrCreate_made h ht hi hlev htf hfree hold')
      fun c s' hd => ?_)
    obtain ⟨rfl, hrest, hd⟩ := hd
    exact ⟨hd, .made hold' (by rw [hfree, hrest])⟩

/-- A table that was not there leads nowhere. -/
theorem descended_empty (h : VmmInv own s) (ht : own t = some (K + 1, p)) (hi : i < 512)
    (hold : ∀ u, ¬ IsTable (pteAt s.mem t i) u) (hd : Descended own own' s s' t i K p tf c)
    {j : Nat} (hj : j < 512) (u : Uptr) (f : Hit → Hit) :
    pageKind K (pteAt s'.mem c j) ≠ .next u f := by
  intro hk
  cases hd.how with
  | created _ _ hsub =>
      rw [hsub j hj] at hk
      exact absurd (pageKind_next hk).1 (by decide)
  | shared hold' _ => exact hold _ hold'
  | split hp hl hK _ hsub =>
      have hlarge := h.entries t _ _ i ht hi hp (by omega)
      rw [if_pos hl] at hlarge
      rw [hsub j hj] at hk
      exact (splitEntry_ok (pteAt s.mem t i) hK hlarge.2 hj).2 u f hk

/-- The ways down after a descent: those before, or they end at its table. -/
theorem reach_descended_inv (h : VmmInv own s) (ht : own t = some (K + 1, p)) (hi : i < 512)
    (hd : Descended own own' s s' t i K p tf c) (hr : own r = some (L, key / 512 ^ L))
    (hreach : Reach 512 pageKind (pteAt s'.mem) key L r M u g) :
    (∃ g', Reach 512 pageKind (pteAt s.mem) key L r M u g') ∨
      (M = K ∧ key / 512 ^ K = p * 512 + i ∧
        ∀ j, j < 512 → ∀ v f, pageKind K (pteAt s'.mem u j) ≠ .next v f) := by
  induction hreach with
  | here => exact Or.inl ⟨id, .here⟩
  | @down M u v g f hdown hk ih =>
      have hj := slot_lt key M
      rcases ih with ⟨g', hold⟩ | ⟨hM, -, hempty⟩
      · have hu := reach_label (by decide) h.labelled hr hold
        by_cases hsame : u = t ∧ slot key M = i
        · obtain ⟨rfl, rfl⟩ := hsame
          rw [ht] at hu
          cases hu
          have hk' := isTable_kind hd.table (L := K + 1) fun hK => by
            rw [hK] at hk
            exact (pageKind_next hk).2.2.1 rfl
          rw [hk] at hk'
          cases hk'
          by_cases hwas : ∃ w, IsTable (pteAt s.mem u (slot key K)) w
          · obtain ⟨w, hwas⟩ := hwas
            cases hd.how with
            | created hp _ _ => rw [hwas.present] at hp; cases hp
            | shared hold' _ =>
                exact Or.inl ⟨_, .down hold (isTable_kind hold' (pageKind_next hk).2.2.1)⟩
            | split _ hl _ _ _ => rw [hwas.small] at hl; cases hl
          · refine Or.inr ⟨rfl, div_pow_digit _ _ _, fun j hj w f => ?_⟩
            exact descended_empty h ht hi (fun w hw => hwas ⟨w, hw⟩) hd hj w f
        · rw [hd.edit u _ (by rw [hu]; exact Option.some_ne_none _) hj hsame] at hk
          exact Or.inl ⟨_, .down hold hk⟩
      · rw [hM] at hk
        exact absurd hk (hempty _ hj v f)

end Descend

/-! ## 2. The way down -/

/-- A way down that took as many frames as it lacked tables before and lacks no more; the frames
    are tables on it. -/
structure Dug (key top : Nat) (root : Uptr) (tf : U64) (own : Uptr → Option (Nat × Nat))
    (s : VmmState) (own' : Uptr → Option (Nat × Nat)) (s' : VmmState) (K : Nat) (t : Uptr) :
    Prop where
  leads : Leads key top root tf own s own' s' K t
  cost : ∃ taken, s.free = taken ++ s'.free ∧
    taken.length + lacks s'.mem key K t = lacks s.mem key top root ∧
    ∀ f ∈ taken, ∃ M, K ≤ M ∧ Stage own' s' top root key M f

/-- The frames did not suffice for the tables lacking on the way of `key`. -/
def Short (s : VmmState) (key top : Nat) (root : Uptr) (e : Fault) : Prop :=
  e = noFrames ∧ s.free.length < lacks s.mem key top root

section Way

variable {own own' own₁ : Uptr → Option (Nat × Nat)} {s s' s₁ : VmmState} {t c root : Uptr}
  {key K top : Nat} {tf : U64} {level : PageMapLevel}

theorem dug_root : Dug key top root tf own s own s top root :=
  ⟨.root, [], rfl, by simp, fun _ hf => absurd hf List.not_mem_nil⟩

/-- What a way lacks below the table it came to. -/
theorem lacks_descended (h : VmmInv own s) (ht : own t = some (K + 1, key / 512 ^ (K + 1)))
    (hK : K ≠ 0) (hd : Descended own own' s s' t (slot key K) K (key / 512 ^ (K + 1)) tf c)
    (hcame : Came (pteAt s.mem t (slot key K)) s s' c) :
    lacks s'.mem key K c + (s.free.length - s'.free.length) = lacks s.mem key (K + 1) t := by
  have hi := slot_lt key K
  cases hcame with
  | there hold hfree =>
      have hc := child_label h ht hK hi hold
      rw [← div_pow_digit] at hc
      rw [hfree, Nat.sub_self, lacks, lacks, lack_next (isTable_kind hold (by omega))]
      refine lack_congr (by decide) h.labelled (fun u M hM hu => ?_) hc
      refine hd.edit u _ (by rw [hu]; exact Option.some_ne_none _) (slot_lt key M) fun hsame => ?_
      rw [hsame.1, ht] at hu
      cases hu
      omega
  | made hold hfree =>
      obtain ⟨K, rfl⟩ := Nat.exists_eq_succ_of_ne_zero hK
      rw [hfree, List.length_cons, Nat.add_sub_cancel_left, lacks, lacks,
        lack_end fun u f => descended_empty h ht hi hold hd (slot_lt key K) u f,
        lack_end fun u f hk => hold u (isTable_of_next (h.entries t _ _ _ ht hi) hk).1]

/-- A fact about the state and the table a way has come to, which each descent keeps; where a
    descent stops, so does the call, with a fault that meets `E`. -/
structure KeptDown (key top : Nat) (root : Uptr) (tf : U64) (own : Uptr → Option (Nat × Nat))
    (s : VmmState) (I : (Uptr → Option (Nat × Nat)) → VmmState → Nat → Uptr → Prop)
    (E : Fault → Prop) : Prop where
  step : ∀ own₁ s₁ K t own₂ s₂ c, K ≠ 0 → Leads key top root tf own s own₁ s₁ (K + 1) t →
    I own₁ s₁ (K + 1) t → Descended own₁ own₂ s₁ s₂ t (slot key K) K (key / 512 ^ (K + 1)) tf c →
    Came (pteAt s₁.mem t (slot key K)) s₁ s₂ c → I own₂ s₂ K c
  stop : ∀ own₁ s₁ K t, K ≠ 0 → Leads key top root tf own s own₁ s₁ (K + 1) t →
    I own₁ s₁ (K + 1) t → s₁.free = [] → (∀ u, ¬ IsTable (pteAt s₁.mem t (slot key K)) u) →
    E noFrames

/-- One more descent. -/
theorem ends_down {I : (Uptr → Option (Nat × Nat)) → VmmState → Nat → Uptr → Prop}
    {E : Fault → Prop} (h : VmmInv own s) (hroot : own root = some (top, key / 512 ^ top))
    (htf : TableFlags tf) (hI : KeptDown key top root tf own s I E)
    (hd : Leads key top root tf own s own₁ s₁ (K + 1) t ∧ I own₁ s₁ (K + 1) t)
    (hlev : DescendLevel level K) :
    ends (pdGetOrCreate t (slot key K) level tf) s₁
      (fun c s' => ∃ own', Leads key top root tf own s own' s' K c ∧ I own' s' K c) E := by
  obtain ⟨hleads, hi⟩ := hd
  obtain ⟨hgrow, hstage⟩ := leads_stage h hroot hleads (Nat.succ_ne_zero K)
  refine ends_mono (ends_pdGetOrCreate hgrow.inv (stage_label hgrow.inv hstage) (slot_lt key K)
    hlev htf) (fun c s' hc => ?_) fun e he => ?_
  · obtain ⟨⟨own', hd⟩, hcame⟩ := hc
    exact ⟨own', .down hleads hd, hI.step _ _ _ _ _ _ _ hlev.2 hleads hi hd hcame⟩
  · obtain ⟨rfl, hnone, hold⟩ := he
    exact hI.stop _ _ _ _ hlev.2 hleads hi hnone hold

/-- Two facts are kept together. -/
theorem keptDown_and {I J : (Uptr → Option (Nat × Nat)) → VmmState → Nat → Uptr → Prop}
    {E F : Fault → Prop} (hI : KeptDown key top root tf own s I E)
    (hJ : KeptDown key top root tf own s J F) :
    KeptDown key top root tf own s (fun own₁ s₁ K t => I own₁ s₁ K t ∧ J own₁ s₁ K t) E :=
  ⟨fun _ _ _ _ _ _ _ hK hl h hd hc =>
    ⟨hI.step _ _ _ _ _ _ _ hK hl h.1 hd hc, hJ.step _ _ _ _ _ _ _ hK hl h.2 hd hc⟩,
    fun _ _ _ _ hK hl h hnone hold => hI.stop _ _ _ _ hK hl h.1 hnone hold⟩

/-- **What a way costs**: its frames are the tables it lacked. -/
theorem keptDown_dug (h : VmmInv own s) (hroot : own root = some (top, key / 512 ^ top)) :
    KeptDown key top root tf own s (Dug key top root tf own s) (Short s key top root) := by
  constructor
  · intro own₁ s₁ K t own' s' c hK hleads hdug hd hcame
    obtain ⟨-, taken, hfree, hlack, htaken⟩ := hdug
    obtain ⟨hgrow, hstage⟩ := leads_stage h hroot hleads (Nat.succ_ne_zero K)
    have ht := stage_label hgrow.inv hstage
    have hbelow := lacks_descended hgrow.inv ht hK hd hcame
    have hnext : Stage own' s' top root key K c := stage_descended hgrow.inv hstage hK hd
    have hkept : ∀ f ∈ taken, ∃ M, K ≤ M ∧ Stage own' s' top root key M f := by
      intro f hf
      obtain ⟨M, hM, hroot', g, hreach⟩ := htaken f hf
      exact ⟨M, by omega, hd.grow.keep _ _ _ hroot', reach_descended hgrow.inv ht hd hroot' hreach⟩
    refine ⟨.down hleads hd, ?_⟩
    cases hcame with
    | there hold hsame =>
        refine ⟨taken, by rw [hfree, hsame], ?_, hkept⟩
        rw [hsame] at hbelow
        omega
    | made hold hcons =>
        refine ⟨taken ++ [c], by rw [hfree, hcons, List.append_assoc, List.singleton_append], ?_,
          fun f hf => ?_⟩
        · rw [hcons] at hbelow
          rw [List.length_append, List.length_singleton]
          simp only [List.length_cons] at hbelow
          omega
        · rcases List.mem_append.mp hf with hf | hf
          · exact hkept f hf
          · exact ⟨K, Nat.le_refl K, List.mem_singleton.mp hf ▸ hnext⟩
  · intro own₁ s₁ K t hK hleads hdug hnone hold
    obtain ⟨-, taken, hfree, hlack, htaken⟩ := hdug
    obtain ⟨hgrow, hstage⟩ := leads_stage h hroot hleads (Nat.succ_ne_zero K)
    have ht := stage_label hgrow.inv hstage
    have hall : lacks s₁.mem key (K + 1) t = K := lack_end fun u f hk =>
      hold u (isTable_of_next (hgrow.inv.entries t _ _ _ ht (slot_lt key K)) hk).1
    rw [hnone, List.append_nil] at hfree
    refine ⟨rfl, ?_⟩
    rw [hfree]
    omega

end Way

/-! ## 3. `vmm_map` for a page of 4 KB -/

section Program

variable {pmap : PageMap} {va pa flags tf : U64} {own own₁ own' : Uptr → Option (Nat × Nat)}
  {s s₁ s' : VmmState} {t : Uptr}

/-- The frames did not suffice for the way of `va`. -/
abbrev ShortFor (pmap : PageMap) (va : U64) (s : VmmState) : Fault → Prop :=
  Short s (pageNumber pmap.level.num va) pmap.level.num pmap.directory

/-- The tables the way of `va` lacks. -/
abbrev vaLacks (s : VmmState) (pmap : PageMap) (va : U64) : Nat :=
  lacks s.mem (pageNumber pmap.level.num va) pmap.level.num pmap.directory

/-- A page of 4 KB is a leaf of level 1, one of 2 MB a leaf of level 2. -/
def LeafLevel (size : Usize) (L : Nat) : Prop :=
  (size = MM_PAGE_4KB ∧ L = 1) ∨ (size = MM_PAGE_2MB ∧ L = 2)

section Rule

variable {I : (Uptr → Option (Nat × Nat)) → VmmState → Nat → Uptr → Prop} {E : Fault → Prop}

/-- A fact about the way of an address. -/
abbrev KeptWay (pmap : PageMap) (va tf : U64) (own : Uptr → Option (Nat × Nat)) (s : VmmState)
    (I : (Uptr → Option (Nat × Nat)) → VmmState → Nat → Uptr → Prop) (E : Fault → Prop) : Prop :=
  KeptDown (pageNumber pmap.level.num va) pmap.level.num pmap.directory tf own s I E

theorem ends_downWay {level : PageMapLevel} {K i : Nat} (h : VmmInv own s) (hr : MapRoot own pmap)
    (htf : TableFlags tf) (hI : KeptWay pmap va tf own s I E)
    (hd : Way pmap va tf own s own₁ s₁ (K + 1) t ∧ I own₁ s₁ (K + 1) t)
    (hi : i = slot (pageNumber pmap.level.num va) K) (hlev : DescendLevel level K) :
    ends (pdGetOrCreate t i level tf) s₁
      (fun c s' => ∃ own', Way pmap va tf own s own' s' K c ∧ I own' s' K c) E := by
  subst hi
  exact ends_down h (mapRoot_label hr (pageNumber_lt _ va)) htf hI hd hlev

theorem ends_vmmMapPml4 (va : U64) (h : VmmInv own s) (hr : MapRoot own pmap) (htf : TableFlags tf)
    (hI : KeptWay pmap va tf own s I E) (h0 : I own s pmap.level.num pmap.directory) :
    ends (vmmMapPml4 pmap va tf) s
      (fun t s' => ∃ own', Way pmap va tf own s own' s' 4 t ∧ I own' s' 4 t) E := by
  have hroot : Way pmap va tf own s own s pmap.level.num pmap.directory := .root
  unfold vmmMapPml4
  rcases hr.level with hl | hl
  · have hnum : pmap.level.num = 4 := by rw [hl]; rfl
    rw [hl]
    exact (ends_pure _ _ _ _).mpr ⟨own, hnum ▸ hroot, hnum ▸ h0⟩
  · have hnum : pmap.level.num = 4 + 1 := by rw [hl]; rfl
    rw [hl]
    refine ends_downWay h hr htf hI ⟨hnum ▸ hroot, hnum ▸ h0⟩ ?_ ⟨rfl, by decide⟩
    rw [hnum]
    exact pml5Index_eq va

/-- **The rule for `vmm_map` of a page of 4 KB or 2 MB**: what every descent keeps holds where the
    leaf is written. -/
theorem ends_vmmMap_way (pages1gb : Bool) {size : Usize} {L : Nat} (hsize : LeafLevel size L)
    (ha : MapArgs va pa flags size) (h : VmmInv own s) (hr : MapRoot own pmap)
    (hI : KeptWay pmap va (wayFlags flags) own s I E)
    (h0 : I own s pmap.level.num pmap.directory) :
    ends (vmmMap pages1gb pmap va pa flags size) s
      (fun _ s' => ∃ own' s₁ t, Way pmap va (wayFlags flags) own s own' s₁ L t ∧ I own' s₁ L t ∧
        s' = s₁.stored t (slot (pageNumber pmap.level.num va) (L - 1)) (leafPte pa flags L)) E := by
  have hnum := mapRoot_num hr
  have htf := tableFlags_way flags
  have h1gb : size ≠ MM_PAGE_1GB := by
    rcases hsize with ⟨rfl, -⟩ | ⟨rfl, -⟩ <;> decide
  unfold vmmMap
  rw [vmmMapImpl, ends_bind, ends_assert ha.sizes, ends_bind, ends_assertRelease
    ⟨(isPtrAligned_iff _ _).mpr ha.va_aligned, (isPtrAligned_iff _ _).mpr ha.pa_aligned⟩, ends_bind]
  refine ends_mono (ends_vmmMapPml4 va h hr htf hI h0) (fun pml4 s₄ h₄ => ?_) fun _ he => he
  obtain ⟨own₄, h₄⟩ := h₄
  rw [ends_bind]
  refine ends_mono (ends_downWay h hr htf hI h₄ (pml4Index_eq va hnum) ⟨rfl, by decide⟩)
    (fun pml3 s₃ h₃ => ?_) fun _ he => he
  obtain ⟨own₃, h₃⟩ := h₃
  rw [dif_neg h1gb, ends_bind, ends_pure]
  unfold vmmMapFrom
  rw [ends_bind]
  refine ends_mono (ends_downWay h hr htf hI h₃ (pml3Index_eq va hnum) ⟨rfl, by decide⟩)
    (fun pml2 s₂ h₂ => ?_) fun _ he => he
  obtain ⟨own₂, h₂⟩ := h₂
  rcases hsize with ⟨rfl, rfl⟩ | ⟨rfl, rfl⟩
  · rw [if_neg (by decide), ends_bind]
    refine ends_mono (ends_downWay h hr htf hI h₂ (pml2Index_eq va hnum) ⟨rfl, by decide⟩)
      (fun pml1 s₁ h₁ => ?_) fun _ he => he
    obtain ⟨own₁, h₁⟩ := h₁
    refine ends_of_wp ((wp_pdStore _ _ _ _ _).mpr ⟨own₁, s₁, pml1, h₁.1, h₁.2, ?_⟩)
    rw [pml1Index_eq va hnum]
    rfl
  · rw [if_pos (by decide)]
    refine ends_of_wp ((wp_pdStore _ _ _ _ _).mpr ⟨own₂, s₂, pml2, h₂.1, h₂.2, ?_⟩)
    rw [pml2Index_eq va hnum, BitVec.or_assoc]
    rfl

/-- Whatever the frames, a call that returns wrote its leaf. -/
theorem ends_vmmMap_put (pages1gb : Bool) {size : Usize} {L : Nat} (hsize : LeafLevel size L)
    (ha : MapArgs va pa flags size) (h : VmmInv own s) (hr : MapRoot own pmap) :
    ends (vmmMap pages1gb pmap va pa flags size) s
      (fun _ s' => ∃ own', Put pmap va pa flags own s own' s' L) fun _ => True := by
  have hI : KeptWay pmap va (wayFlags flags) own s (fun _ _ _ _ => True) fun _ => True :=
    ⟨fun _ _ _ _ _ _ _ _ _ _ _ _ => trivial, fun _ _ _ _ _ _ _ _ _ => trivial⟩
  refine ends_mono (ends_vmmMap_way pages1gb hsize ha h hr hI trivial) (fun _ s' hs' => ?_)
    fun _ he => he
  obtain ⟨own', s₁, t, hw, -, hs'⟩ := hs'
  exact ⟨own', s₁, t, hw, hs'⟩

theorem leafArgs_of_leafLevel {size : Usize} {L : Nat} (hsize : LeafLevel size L)
    (ha : MapArgs va pa flags size) : LeafArgs pa flags L := by
  rcases hsize with ⟨rfl, rfl⟩ | ⟨rfl, rfl⟩
  · exact leafArgs_of_mapArgs ha (Or.inl rfl) rfl
  · exact leafArgs_of_mapArgs ha (Or.inr (Or.inl rfl)) rfl

end Rule

/-- The leaf is written at the end of a way that took as many frames as it lacked tables. -/
structure Paid (pmap : PageMap) (va pa flags : U64) (own : Uptr → Option (Nat × Nat))
    (s : VmmState) (own' : Uptr → Option (Nat × Nat)) (s' : VmmState) : Prop where
  put : Put pmap va pa flags own s own' s' 1
  cost : ∃ taken, s.free = taken ++ s'.free ∧ taken.length = vaLacks s pmap va ∧
    ∀ f ∈ taken, ∃ M, 1 ≤ M ∧
      Stage own' s' pmap.level.num pmap.directory (pageNumber pmap.level.num va) M f

/-- A leaf at the end of a way. -/
theorem paid_dug {own₁ : Uptr → Option (Nat × Nat)} {s₁ : VmmState} {t : Uptr} (h : VmmInv own s)
    (hr : MapRoot own pmap) (hd : Dug (pageNumber pmap.level.num va) pmap.level.num pmap.directory
      (wayFlags flags) own s own₁ s₁ 1 t) :
    Paid pmap va pa flags own s own₁
      (s₁.stored t (slot (pageNumber pmap.level.num va) 0) (leafPte pa flags 1)) := by
  obtain ⟨hleads, taken, hfree, hlack, htaken⟩ := hd
  obtain ⟨hgrow, hstage⟩ :=
    leads_stage h (mapRoot_label hr (pageNumber_lt pmap.level.num va)) hleads (by decide)
  have hzero : lacks s₁.mem (pageNumber pmap.level.num va) 1 t = 0 := Nat.le_zero.mp lack_lt
  refine ⟨⟨s₁, t, hleads, rfl⟩, taken, hfree, by unfold vaLacks; omega, fun f hf => ?_⟩
  obtain ⟨M, hM, hs⟩ := htaken f hf
  exact ⟨M, hM, stage_stored hgrow.inv (stage_label hgrow.inv hstage) (slot_lt _ 0) hs hM⟩

/-- **What a call for a page of 4 KB costs, and when it stops.** -/
theorem ends_vmmMap_4KB (pages1gb : Bool) (ha : MapArgs va pa flags MM_PAGE_4KB)
    (h : VmmInv own s) (hr : MapRoot own pmap) :
    ends (vmmMap pages1gb pmap va pa flags MM_PAGE_4KB) s
      (fun _ s' => ∃ own', Paid pmap va pa flags own s own' s') (ShortFor pmap va s) := by
  have hroot := mapRoot_label hr (pageNumber_lt pmap.level.num va)
  refine ends_mono (ends_vmmMap_way pages1gb (Or.inl ⟨rfl, rfl⟩) ha h hr (keptDown_dug h hroot)
    dug_root) (fun _ s' hs' => ?_) fun _ he => he
  obtain ⟨own₁, s₁, pml1, -, hdug, rfl⟩ := hs'
  exact ⟨own₁, paid_dug h hr hdug⟩

end Program

/-! ## 4. What is lacking afterwards -/

section Afterwards

variable {own own' : Uptr → Option (Nat × Nat)} {s s' : VmmState} {t r u root : Uptr}
  {key key' K L M top p i : Nat} {tf e : U64} {g : Hit → Hit} {m : Mem}

/-- Pages below one table lack it together. -/
theorem lacks_prefix (hM : M ≠ 0) (hL : M ≤ L) (hkey : key' / 512 ^ M = key / 512 ^ M) :
    lacks m key' L t < M ↔ lacks m key L t < M := by
  rw [lack_lt_iff hM hL, lack_lt_iff hM hL]
  constructor
  · intro h
    obtain ⟨u, g, hr⟩ := h
    exact ⟨u, g, reach_key hr hkey.symm⟩
  · intro h
    obtain ⟨u, g, hr⟩ := h
    exact ⟨u, g, reach_key hr hkey⟩

/-- Writing an entry of level 1 changes nothing about what ways lack. -/
theorem lacks_stored (h : VmmInv own s) (h' : VmmInv own (s.stored t i e))
    (ht : own t = some (1, p)) (hi : i < 512) (hr : own r = some (L, key / 512 ^ L)) (hM : M ≠ 0)
    (hL : M ≤ L) : lacks (s.stored t i e).mem key L r < M ↔ lacks s.mem key L r < M := by
  have hedit := editAt_stored h ht hi e
  rw [lack_lt_iff hM hL, lack_lt_iff hM hL]
  constructor
  · intro hr'
    obtain ⟨u, g, hreach⟩ := hr'
    exact ⟨u, g, reach_edit (by decide) h'.labelled (fun v j hv hj hne => (hedit v j hv hj hne).symm)
      ht (by omega) hr hreach⟩
  · intro hr'
    obtain ⟨u, g, hreach⟩ := hr'
    exact ⟨u, g, reach_edit (by decide) h.labelled hedit ht (by omega) hr hreach⟩

/-- The ways down after a way was made: those before, or they share its tables. -/
theorem reach_leads_inv (h : VmmInv own s) (hroot : own root = some (top, key / 512 ^ top))
    (hl : Leads key top root tf own s own' s' K t) (hK : K ≠ 0)
    (hr : own r = some (L, key' / 512 ^ L))
    (hreach : Reach 512 pageKind (pteAt s'.mem) key' L r M u g) :
    (∃ g', Reach 512 pageKind (pteAt s.mem) key' L r M u g') ∨
      (K ≤ M ∧ key' / 512 ^ M = key / 512 ^ M) := by
  induction hl generalizing M u g with
  | root => exact Or.inl ⟨g, hreach⟩
  | @down own₁ own₂ s₁ s₂ K t c hw hd ih =>
      obtain ⟨hgrow, hstage⟩ := leads_stage h hroot hw (Nat.succ_ne_zero K)
      have ht := stage_label hgrow.inv hstage
      rcases reach_descended_inv hgrow.inv ht (slot_lt key K) hd (hgrow.keep _ _ _ hr) hreach with
        ⟨g', hold⟩ | ⟨rfl, hkey, -⟩
      · rcases ih (Nat.succ_ne_zero K) hold with hs | ⟨hM, hkey⟩
        · exact Or.inl hs
        · exact Or.inr ⟨by omega, hkey⟩
      · exact Or.inr ⟨Nat.le_refl _, by rw [hkey, ← div_pow_digit]⟩

variable {pmap : PageMap} {va pa flags : U64}

/-- **A call for a page makes the tables of its way, and no others.** -/
theorem put_lack (h : VmmInv own s) (hr : MapRoot own pmap) (ha : LeafArgs pa flags 1)
    (hp : Put pmap va pa flags own s own' s' 1) (hkey : key < 512 ^ pmap.level.num) (hM : M ≠ 0)
    (hL : M ≤ pmap.level.num) :
    lacks s'.mem key pmap.level.num pmap.directory < M ↔
      lacks s.mem key pmap.level.num pmap.directory < M ∨
        key / 512 ^ M = pageNumber pmap.level.num va / 512 ^ M := by
  have hroot := mapRoot_label hr (pageNumber_lt pmap.level.num va)
  have hroot' := mapRoot_label hr hkey
  obtain ⟨s₁, t, hw, rfl⟩ := hp
  obtain ⟨hgrow, hstage⟩ := leads_stage h hroot hw (by decide)
  have ht := stage_label hgrow.inv hstage
  have hi := slot_lt (pageNumber pmap.level.num va) 0
  have hleaf := grow_leaf hgrow.inv ht hi ha
  rw [Nat.sub_self, lacks_stored hgrow.inv hleaf.inv ht hi (hgrow.keep _ _ _ hroot') hM hL,
    lack_lt_iff hM hL, lack_lt_iff hM hL]
  constructor
  · intro hnew
    obtain ⟨u, g, hreach⟩ := hnew
    rcases reach_leads_inv h hroot hw (by decide) hroot' hreach with ⟨g', hold⟩ | ⟨-, hsame⟩
    · exact Or.inl ⟨u, g', hold⟩
    · exact Or.inr hsame
  · rintro (⟨u, g, hold⟩ | hsame)
    · obtain ⟨-, g', hreach⟩ := stage_leads h hroot ⟨hroot', g, hold⟩ hw (by decide)
      exact ⟨u, g', hreach⟩
    · obtain ⟨-, g, hreach⟩ := hstage
      obtain ⟨u, g', hbetween⟩ := reach_between hreach (by omega) hL
      exact ⟨u, g', reach_key hbetween hsame⟩

end Afterwards

/-! ## 5. Ranges of pages -/

/-- The tables, by level and place, the `n` pages from `key` on lack. -/
def lacking (m : Mem) (top : Nat) (root : Uptr) (key n : Nat) : Finset (Nat × Nat) :=
  (Finset.range n).biUnion fun j =>
    (Finset.Icc 1 (lacks m (key + j) top root)).image fun L => (L, (key + j) / 512 ^ L)

/-- The frames for the `n` pages from `key` on and the tables they lack. -/
def rangeFrames (m : Mem) (top : Nat) (root : Uptr) (key n : Nat) : Nat :=
  n + (lacking m top root key n).card

section Ranges

variable {m m' : Mem} {top key n i L p : Nat} {root : Uptr}

theorem mem_lacking : (L, p) ∈ lacking m top root key n ↔
    ∃ j, j < n ∧ 1 ≤ L ∧ L ≤ lacks m (key + j) top root ∧ (key + j) / 512 ^ L = p := by
  unfold lacking
  simp only [Finset.mem_biUnion, Finset.mem_range, Finset.mem_image, Finset.mem_Icc, Prod.mk.injEq]
  constructor
  · rintro ⟨j, hj, L', ⟨h1, h2⟩, rfl, hp⟩
    exact ⟨j, hj, h1, h2, hp⟩
  · rintro ⟨j, hj, h1, h2, hp⟩
    exact ⟨j, hj, L, ⟨h1, h2⟩, rfl, hp⟩

/-- **The next page of a range costs what its way still lacks**, in a memory where the pages before
    it have their tables. -/
theorem card_lacking_succ (htop : top ≠ 0)
    (h : ∀ M, M ≠ 0 → M ≤ top → (lacks m' (key + i) top root < M ↔
      lacks m (key + i) top root < M ∨ ∃ j, j < i ∧ (key + i) / 512 ^ M = (key + j) / 512 ^ M)) :
    (lacking m top root key (i + 1)).card =
      (lacking m top root key i).card + lacks m' (key + i) top root := by
  obtain ⟨T, rfl⟩ : ∃ T, top = T + 1 := ⟨top - 1, by omega⟩
  have hle : lacks m (key + i) (T + 1) root ≤ T := lack_lt
  have hle' : lacks m' (key + i) (T + 1) root ≤ T := lack_lt
  have hset : lacking m (T + 1) root key (i + 1) = lacking m (T + 1) root key i ∪
      (Finset.Icc 1 (lacks m' (key + i) (T + 1) root)).image fun L => (L, (key + i) / 512 ^ L) := by
    ext ⟨L, p⟩
    rw [Finset.mem_union, mem_lacking, mem_lacking]
    simp only [Finset.mem_image, Finset.mem_Icc, Prod.mk.injEq]
    constructor
    · rintro ⟨j, hj, hL, hlack, rfl⟩
      by_cases hji : j < i
      · exact Or.inl ⟨j, hji, hL, hlack, rfl⟩
      obtain rfl : j = i := by omega
      by_cases hnew : L ≤ lacks m' (key + j) (T + 1) root
      · exact Or.inr ⟨L, ⟨hL, hnew⟩, rfl, rfl⟩
      · rcases (h L (by omega) (by omega)).mp (by omega) with hold | ⟨k, hk, hkey⟩
        · omega
        · refine Or.inl ⟨k, hk, hL, ?_, hkey.symm⟩
          have := lacks_prefix (m := m) (t := root) (M := L) (L := T + 1) (by omega) (by omega) hkey
          omega
    · rintro (⟨j, hj, hL, hlack, rfl⟩ | ⟨L', ⟨hL, hlack⟩, rfl, rfl⟩)
      · exact ⟨j, by omega, hL, hlack, rfl⟩
      · refine ⟨i, Nat.lt_succ_self i, hL, ?_, rfl⟩
        have := h L' (by omega) (by omega)
        by_contra hlt
        exact absurd (this.mpr (Or.inl (by omega))) (by omega)
  have hdisjoint : Disjoint (lacking m (T + 1) root key i)
      ((Finset.Icc 1 (lacks m' (key + i) (T + 1) root)).image fun L => (L, (key + i) / 512 ^ L)) := by
    rw [Finset.disjoint_left]
    rintro ⟨L, p⟩ hold hnew
    obtain ⟨j, hj, hL, -, hkey⟩ := mem_lacking.mp hold
    simp only [Finset.mem_image, Finset.mem_Icc, Prod.mk.injEq] at hnew
    obtain ⟨L', ⟨-, hlack⟩, rfl, rfl⟩ := hnew
    have := (h L' (by omega) (by omega)).mpr (Or.inr ⟨j, hj, hkey.symm⟩)
    omega
  rw [hset, Finset.card_union_of_disjoint hdisjoint, Finset.card_image_of_injective,
    Nat.card_Icc, Nat.add_sub_cancel]
  intro L L' hLL
  exact (Prod.mk.inj hLL).1

/-- More pages need more frames. -/
theorem rangeFrames_lt {j : Nat} (h : i < j) :
    rangeFrames m top root key i < rangeFrames m top root key j := by
  have hsub : lacking m top root key i ⊆ lacking m top root key j := by
    intro x hx
    obtain ⟨L, p⟩ := x
    obtain ⟨n, hn, hrest⟩ := mem_lacking.mp hx
    exact mem_lacking.mpr ⟨n, by omega, hrest⟩
  have hcard := Finset.card_le_card hsub
  unfold rangeFrames
  omega

/-- A page lacks a table for each level above it at most. -/
theorem rangeFrames_le (htop : top ≠ 0) : rangeFrames m top root key n ≤ n * top := by
  obtain ⟨T, rfl⟩ : ∃ T, top = T + 1 := ⟨top - 1, by omega⟩
  have hcard : (lacking m (T + 1) root key n).card ≤ (Finset.range n).card * T := by
    refine Finset.card_biUnion_le_card_mul _ _ _ fun j _ => ?_
    refine Nat.le_trans Finset.card_image_le ?_
    rw [Nat.card_Icc, Nat.add_sub_cancel]
    exact lack_lt
  rw [Finset.card_range] at hcard
  unfold rangeFrames
  rw [Nat.mul_add, Nat.mul_one]
  omega

end Ranges

end Slightx
