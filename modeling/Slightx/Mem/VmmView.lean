/-
  File:      Slightx/Mem/VmmView.lean
  Subject:   What the tables say about a page number, and how mapping changes it.

  A `View` reads something off the leaf a walk ends at that does not depend on the tables on the
  way: the page, the permission bits, the leaf itself. Through a view every table is a partial
  function on page numbers:

  * `steady_leads` -- going down leaves the function of every table alone, where the pieces of a
    large page split on the way read like the page (`SplitOk`);
  * `maps_leaf` -- a leaf changes it on the pages it covers only;
  * `maps_put`, `maps_pieces`, `maps_closed` -- so do the parts of a call.

  `Entries` are properties of all entries of all tables; those that survive going down are
  `Inherited`.
-/
import Slightx.Mem.VmmWay

namespace Slightx

open Lib

/-! ## 1. Views -/

/-- Something to read off the leaf for a page number, whatever the tables on the way. -/
structure View (α : Type) where
  read : Hit → Nat → α
  under : ∀ e h key, read (.under e h) key = read h key

/-- The table `t` of level `L` as a partial function on page numbers. -/
def View.look {α : Type} (v : View α) (m : Mem) (key L : Nat) (t : Uptr) : Option α :=
  (walk m key L t).map fun h => v.read h key

section View

variable {α : Type} {v : View α} {m m' : Mem} {key K L l : Nat} {t c u : Uptr} {e : U64}
  {g : Hit → Hit}

theorem view_next (hk : pageKind (L + 1) (pteAt m t (slot key L)) = .next c (Hit.under e)) :
    v.look m key (L + 1) t = v.look m key L c := by
  unfold View.look walk
  rw [Lib.look, hk]
  show ((walk m key L c).map (Hit.under e)).map _ = _
  rw [Option.map_map]
  exact congrArg (Option.map · _) (funext fun h => v.under e h key)

theorem view_leaf (hk : pageKind (L + 1) (pteAt m t (slot key L)) = .leaf (.leaf l e)) :
    v.look m key (L + 1) t = some (v.read (.leaf l e) key) := by
  unfold View.look walk
  rw [Lib.look, hk]
  rfl

theorem view_absent (hk : pageKind (L + 1) (pteAt m t (slot key L)) = .absent) :
    v.look m key (L + 1) t = none := by
  unfold View.look walk
  rw [Lib.look, hk]
  rfl

/-- A table on the way of a lookup is, for that key, the function of the first table. -/
theorem view_reach (h : Reach 512 pageKind (pteAt m) key L t K u g) :
    v.look m key L t = v.look m key K u := by
  induction h with
  | here => rfl
  | down _ hk ih =>
      obtain ⟨-, -, -, -, rfl⟩ := pageKind_next hk
      rw [ih, view_next hk]

theorem view_congr (h : walk m' key L t = walk m key L t) :
    v.look m' key L t = v.look m key L t := by
  unfold View.look
  rw [h]

end View

/-! ## 2. Entries -/

/-- A property of all entries of all tables. -/
def Entries (P : Nat → U64 → Prop) (own : Uptr → Option (Nat × Nat)) (s : VmmState) : Prop :=
  ∀ t L p i, own t = some (L, p) → i < 512 → P L (pteAt s.mem t i)

/-- The properties the entries keep that going down writes: table entries, empty ones, pieces. -/
structure Inherited (P : Nat → U64 → Prop) : Prop where
  link : ∀ K c tf, K ≠ 0 → FrameOk c → TableFlags tf → P (K + 1) (c ||| tf)
  user : ∀ K e c, K ≠ 0 → IsTable e c → P (K + 1) e → P (K + 1) (e ||| MM_PT_FLAG_USER)
  zero : ∀ K, P K 0
  piece : ∀ K e j, ptePresent e = true → pteLarge e = true → K = 1 ∨ K = 2 → j < 512 →
    P (K + 1) e → P K (splitEntry K e j)

section Entries

variable {P : Nat → U64 → Prop} {own own' : Uptr → Option (Nat × Nat)} {s s' : VmmState}
  {t c root : Uptr} {i key top K L p : Nat} {tf e : U64}

/-- The entries after a descent, where those of the table behind it are known. -/
theorem entries_descended (hinv : VmmInv own s) (ht : own t = some (K + 1, p)) (hK : K ≠ 0)
    (hd : Descended own own' s s' t i K p tf c)
    (h : ∀ u L q j, own u = some (L, q) → j < 512 → ¬ (u = t ∧ j = i) → P L (pteAt s.mem u j))
    (hi : i < 512) (htable : P (K + 1) (pteAt s'.mem t i)) (hzero : P K 0)
    (hpiece : ∀ j, j < 512 → ptePresent (pteAt s.mem t i) = true →
      pteLarge (pteAt s.mem t i) = true → K = 1 ∨ K = 2 →
      P K (splitEntry K (pteAt s.mem t i) j)) : Entries P own' s' := by
  intro u L q j hu hj
  cases hu0 : own u with
  | some l =>
      obtain ⟨M, r⟩ := l
      have hkeep := hd.grow.keep u M r hu0
      rw [hu] at hkeep
      cases hkeep
      by_cases hsame : u = t ∧ j = i
      · obtain ⟨rfl, rfl⟩ := hsame
        rw [ht] at hu0
        cases hu0
        exact htable
      · rw [hd.edit u j (by rw [hu0]; exact Option.some_ne_none _) hj hsame]
        exact h u L q j hu0 hj hsame
  | none =>
      have huc := hd.known u (by rw [hu]; exact Option.some_ne_none _) hu0
      subst huc
      rw [hd.child] at hu
      cases hu
      cases hd.how with
      | created _ _ hsub =>
          rw [hsub j hj]
          exact hzero
      | shared hold _ =>
          rw [child_label hinv ht hK hi hold] at hu0
          cases hu0
      | split hp hl hK' _ hsub =>
          rw [hsub j hj]
          exact hpiece j hj hp hl hK'

/-- The entry a descent leaves behind. -/
theorem inherited_entry (hP : Inherited P) (hK : K ≠ 0) (htf : TableFlags tf)
    (hd : Descended own own' s s' t i K p tf c)
    (h : IsTable (pteAt s.mem t i) c → P (K + 1) (pteAt s.mem t i)) :
    P (K + 1) (pteAt s'.mem t i) := by
  have hc := hd.grow.inv.frame c _ _ hd.child
  cases hd.how with
  | created _ hnew _ =>
      rw [hnew]
      exact hP.link K c tf hK hc htf
  | shared hold hnew =>
      rcases hnew with hnew | hnew
      · rw [hnew]
        exact h hold
      · rw [hnew]
        exact hP.user K _ c hK hold (h hold)
  | split _ _ _ hnew _ =>
      rw [hnew]
      exact hP.link K c tf hK hc htf

theorem inherited_descended (hP : Inherited P) (hinv : VmmInv own s) (h : Entries P own s)
    (ht : own t = some (K + 1, p)) (hK : K ≠ 0) (hi : i < 512) (htf : TableFlags tf)
    (hd : Descended own own' s s' t i K p tf c) : Entries P own' s' := by
  refine entries_descended hinv ht hK hd (fun u L q j hu hj _ => h u L q j hu hj) hi
    (inherited_entry hP hK htf hd fun _ => h t _ _ i ht hi) (hP.zero K)
    fun j hj hp hl hK' => ?_
  exact hP.piece K _ j hp hl hK' hj (h t _ _ i ht hi)

/-- **Going down keeps inherited properties.** -/
theorem entries_leads (hP : Inherited P) (hinv : VmmInv own s) (h : Entries P own s)
    (htf : TableFlags tf) (hroot : own root = some (top, key / 512 ^ top))
    (hl : Leads key top root tf own s own' s' K t) (hK : K ≠ 0) : Entries P own' s' := by
  induction hl with
  | root => exact h
  | @down own₁ own₂ s₁ s₂ K t c hw hd ih =>
      obtain ⟨hgrow, hstage⟩ := leads_stage hinv hroot hw (Nat.succ_ne_zero K)
      exact inherited_descended hP hgrow.inv (ih (Nat.succ_ne_zero K))
        (stage_label hgrow.inv hstage) hK (slot_lt key K) htf hd

/-- A property the write of one entry keeps. -/
theorem entries_stored (h : Entries P own s) (hinv : VmmInv own s) (ht : own t = some (L, p))
    (hi : i < 512) (he : P L e) : Entries P own (s.stored t i e) := by
  intro u M q j hu hj
  by_cases hsame : u = t ∧ j = i
  · obtain ⟨rfl, rfl⟩ := hsame
    rw [ht] at hu
    cases hu
    rw [pteAt_stored hinv ht hi]
    exact he
  · rw [editAt_stored hinv ht hi e u j (by rw [hu]; exact Option.some_ne_none _) hj hsame]
    exact h u M q j hu hj

end Entries

/-! ## 3. Going down -/

/-- The pieces of the large page `e` of level `K + 1` read like the page. -/
def SplitOk {α : Type} (v : View α) (K : Nat) (e : U64) : Prop :=
  ptePresent e = true → pteLarge e = true → K = 1 ∨ K = 2 → ∀ key,
    v.read (.leaf K (splitEntry K e (slot key (K - 1)))) key = v.read (.leaf (K + 1) e) key

/-- The leaf a piece is. -/
theorem splitEntry_kind {K j : Nat} {e : U64} (hK : K = 1 ∨ K = 2) (hr : ReservedClear (K + 1) e)
    (hj : j < 512) : pageKind K (splitEntry K e j) = .leaf (.leaf K (splitEntry K e j)) := by
  rcases hK with rfl | rfl
  · exact pageKind_one (splitEntry_present e)
  · have hok := (splitEntry_ok e (Or.inr rfl) hr hj).1 (splitEntry_present e) (by omega)
    rw [if_pos (splitEntry_large e)] at hok
    exact pageKind_large (splitEntry_present e) (splitEntry_large e) (Or.inl rfl) hok.2

/-- The state `s'` has all tables of `s`, and they are the functions they were. -/
structure Steady {α : Type} (v : View α) (own own' : Uptr → Option (Nat × Nat))
    (s s' : VmmState) : Prop where
  grow : Grow own own' s s'
  same : ∀ r L key, own r = some (L, key / 512 ^ L) → v.look s'.mem key L r = v.look s.mem key L r

section Steady

variable {α : Type} {v : View α} {own own' own'' : Uptr → Option (Nat × Nat)}
  {s s' s'' : VmmState} {t c root : Uptr} {key top K : Nat} {tf : U64}

theorem steady_refl (h : VmmInv own s) : Steady v own own s s :=
  ⟨grow_refl h, fun _ _ _ _ => rfl⟩

theorem steady_trans (h : Steady v own own' s s') (h' : Steady v own' own'' s' s'') :
    Steady v own own'' s s'' := by
  refine ⟨grow_trans h.grow h'.grow, fun r L key hr => ?_⟩
  rw [h'.same r L key (h.grow.keep _ _ _ hr), h.same r L key hr]

/-- The function of the table whose entry a descent follows: an empty table maps nothing, a shared
    one what it did, and the pieces of a large page what the page did. -/
theorem view_descended (h : VmmInv own s)
    (ht : own t = some (K + 1, key / 512 ^ (K + 1))) (hK : K ≠ 0)
    (hs : SplitOk v K (pteAt s.mem t (slot key K)))
    (hd : Descended own own' s s' t (slot key K) K (key / 512 ^ (K + 1)) tf c) :
    v.look s'.mem key (K + 1) t = v.look s.mem key (K + 1) t := by
  obtain ⟨K, rfl⟩ := Nat.exists_eq_succ_of_ne_zero hK
  have hi := slot_lt key (K + 1)
  rw [view_next (isTable_kind hd.table (by omega))]
  cases hd.how with
  | created hold _ hsub =>
      rw [view_absent (pageKind_absent hold), view_absent (pageKind_absent ?_)]
      rw [hsub _ (slot_lt key K)]
      rfl
  | shared hold _ =>
      have hc := child_label h ht hK hi hold
      rw [← div_pow_digit] at hc
      rw [view_next (isTable_kind hold (by omega))]
      exact view_congr (look_edit_below (by omega) h.labelled hd.edit ht (Nat.le_refl _) hc)
  | split hp hl hK' _ hsub =>
      have hok := h.entries t _ _ _ ht hi hp (by omega)
      rw [if_pos hl] at hok
      have hkind := splitEntry_kind hK' hok.2 (slot_lt key K)
      rw [← hsub _ (slot_lt key K)] at hkind
      rw [view_leaf hkind, hsub _ (slot_lt key K),
        view_leaf (pageKind_large hp hl (by omega) hok.2)]
      exact congrArg some (hs hp hl hK' key)

/-- **A descent changes the function of no table.** -/
theorem steady_descended (h : VmmInv own s)
    (ht : own t = some (K + 1, key / 512 ^ (K + 1))) (hK : K ≠ 0)
    (hs : SplitOk v K (pteAt s.mem t (slot key K)))
    (hd : Descended own own' s s' t (slot key K) K (key / 512 ^ (K + 1)) tf c) :
    Steady v own own' s s' := by
  refine ⟨hd.grow, fun r L key' hr => ?_⟩
  rcases look_edit (by omega) h.labelled hd.edit ht hr with hsame | ⟨g, hreach, hdigit⟩
  · exact view_congr hsame
  · have hlabel := reach_label (by omega) h.labelled hr hreach
    rw [ht] at hlabel
    have hlead : key / 512 ^ (K + 1) = key' / 512 ^ (K + 1) := by
      injection hlabel with hlabel
      exact (Prod.mk.inj hlabel).2
    have hreach' := reach_edit (by omega) h.labelled hd.edit ht (Nat.le_refl _) hr hreach
    rw [view_reach hreach, view_reach hreach']
    rw [← hdigit] at hs
    rw [hlead, ← hdigit] at hd
    exact view_descended h (hlead ▸ ht) hK hs hd

/-- **Going down changes the function of no table**, where all that may be split on the way reads
    like its pieces. -/
theorem steady_leads {P : Nat → U64 → Prop} (hP : Inherited P) (h : VmmInv own s)
    (he : Entries P own s) (htf : TableFlags tf) (hroot : own root = some (top, key / 512 ^ top))
    (hl : Leads key top root tf own s own' s' K t) (hK : K ≠ 0)
    (hs : ∀ M e, K ≤ M → P (M + 1) e → SplitOk v M e) : Steady v own own' s s' := by
  induction hl with
  | root => exact steady_refl h
  | @down own₁ own₂ s₁ s₂ K t c hw hd ih =>
      have hsteady := ih (Nat.succ_ne_zero K) fun M e hM => hs M e (by omega)
      obtain ⟨hgrow, hstage⟩ := leads_stage h hroot hw (Nat.succ_ne_zero K)
      have ht := stage_label hgrow.inv hstage
      have hentries := entries_leads hP h he htf hroot hw (Nat.succ_ne_zero K)
      exact steady_trans hsteady (steady_descended hgrow.inv ht hK
        (hs K _ (Nat.le_refl K) (hentries t _ _ _ ht (slot_lt key K))) hd)

end Steady

/-! ## 4. Leaves -/

/-- The state `s'` maps the `n` pages from `vpn` on as `w` says, under the directory `root` of
    level `top`, and all other pages as `s` does, in every table. -/
structure Maps {α : Type} (v : View α) (own own' : Uptr → Option (Nat × Nat)) (s s' : VmmState)
    (top : Nat) (root : Uptr) (vpn n : Nat) (w : Nat → α) : Prop where
  grow : Grow own own' s s'
  here : ∀ key, own root = some (top, key / 512 ^ top) → vpn ≤ key → key < vpn + n →
    v.look s'.mem key top root = some (w key)
  other : ∀ r L key, own r = some (L, key / 512 ^ L) → ¬ (vpn ≤ key ∧ key < vpn + n) →
    v.look s'.mem key L r = v.look s.mem key L r

section Maps

variable {α : Type} {v : View α} {own own' own'' : Uptr → Option (Nat × Nat)}
  {s s' s'' : VmmState} {t c root : Uptr} {key top K L vpn n k n' : Nat} {tf pa flags : U64}
  {w : Nat → α}

theorem maps_none (h : VmmInv own s) : Maps v own own s s top root vpn 0 w :=
  ⟨grow_refl h, fun _ _ _ _ => by omega, fun _ _ _ _ _ => rfl⟩

theorem maps_of_steady (h : Steady v own own' s s')
    (h' : Maps v own' own'' s' s'' top root vpn n w) :
    Maps v own own'' s s'' top root vpn n w := by
  refine ⟨grow_trans h.grow h'.grow, fun key hr => h'.here key (h.grow.keep _ _ _ hr),
    fun r L key hr hout => ?_⟩
  rw [h'.other r L key (h.grow.keep _ _ _ hr) hout, h.same r L key hr]

/-- Ranges put side by side, or one over the start of the other. -/
theorem maps_append (h : Maps v own own' s s' top root vpn n w)
    (h' : Maps v own' own'' s' s'' top root (vpn + k) n' w) (hk : k ≤ n) :
    Maps v own own'' s s'' top root vpn (max n (k + n')) w := by
  refine ⟨grow_trans h.grow h'.grow, fun key hr hlo hhi => ?_, fun r L key hr hout => ?_⟩
  · by_cases hin : vpn + k ≤ key ∧ key < vpn + k + n'
    · exact h'.here key (h.grow.keep _ _ _ hr) hin.1 hin.2
    · rw [h'.other root top key (h.grow.keep _ _ _ hr) hin]
      exact h.here key hr hlo (by omega)
  · rw [h'.other r L key (h.grow.keep _ _ _ hr) (by omega), h.other r L key hr (by omega)]

/-- The pages of one leaf. -/
theorem div_eq_iff_range {vpn key n : Nat} (hn : 0 < n) (hv : vpn % n = 0) :
    key / n = vpn / n ↔ vpn ≤ key ∧ key < vpn + n := by
  have hq := Nat.div_add_mod vpn n
  rw [hv, Nat.add_zero] at hq
  constructor
  · intro h
    have h1 := Nat.div_add_mod key n
    have h2 := Nat.mod_lt key hn
    rw [h, hq] at h1
    omega
  · intro h
    rw [Nat.div_eq_iff hn, Nat.mul_comm, hq]
    omega

/-- **A leaf maps the pages it covers, and no others.** -/
theorem maps_leaf (h : VmmInv own s) (hs : Stage own s top root vpn L t)
    (ha : LeafArgs pa flags L) (hv : vpn % 512 ^ (L - 1) = 0)
    (hval : ∀ key, vpn ≤ key → key < vpn + 512 ^ (L - 1) →
      v.read (.leaf L (leafPte pa flags L)) key = w key) :
    Maps v own own s (s.stored t (slot vpn (L - 1)) (leafPte pa flags L)) top root vpn
      (512 ^ (L - 1)) w := by
  have hlev := ha.level
  obtain ⟨K, rfl⟩ : ∃ K, L = K + 1 := ⟨L - 1, by omega⟩
  simp only [Nat.add_sub_cancel] at *
  have hpos : 0 < 512 ^ K := Nat.pow_pos (by omega)
  have hi := slot_lt vpn K
  have ht := stage_label h hs
  have hread := pteAt_stored (e := leafPte pa flags (K + 1)) h ht hi
  have hedit := editAt_stored h ht hi (leafPte pa flags (K + 1))
  refine ⟨grow_leaf h ht hi ha, fun key hr hlo hhi => ?_, fun r L key hr hout => ?_⟩
  · obtain ⟨hroot, g, hreach⟩ := hs
    have hkey := (div_eq_iff_range hpos hv).mpr ⟨hlo, hhi⟩
    have hreach' := reach_key (reach_edit (by omega) h.labelled hedit ht (Nat.le_refl _) hroot
      hreach) (div_pow_congr hkey (Nat.le_succ K))
    have hslot : slot key K = slot vpn K := congrArg (· % 512) hkey
    have hkind : pageKind (K + 1) (pteAt (s.stored t (slot vpn K) (leafPte pa flags (K + 1))).mem t
        (slot key K)) = .leaf (.leaf (K + 1) (leafPte pa flags (K + 1))) := by
      rw [hslot, hread]
      exact leafPte_kind ha
    rw [view_reach hreach', view_leaf hkind, hval key hlo hhi]
  · refine view_congr (look_edit_off (by omega) h.labelled hedit ht (fun hkey => ?_) hr)
    rw [← div_pow_digit] at hkey
    exact hout ((div_eq_iff_range hpos hv).mp hkey)

end Maps

/-! ## 5. The parts of a call -/

theorem pageNumber_aligned {top L : Nat} {va : U64} (ht : top = 4 ∨ top = 5)
    (hL : L = 1 ∨ L = 2 ∨ L = 3) (hv : va.toNat % pageBytes L = 0) :
    pageNumber top va % 512 ^ (L - 1) = 0 := by
  rcases hL with rfl | rfl | rfl
  all_goals simp only [pageNumber, pageBytes] at *
  all_goals rcases ht with rfl | rfl <;> omega

/-- The page number of a piece of a 1 GB page. -/
theorem pageNumber_piece {top k : Nat} {va : U64} (ht : top = 4 ∨ top = 5) (hk : k < 512)
    (hv : va.toNat % 2 ^ 30 = 0) :
    pageNumber top (va + BitVec.ofNat 64 k * MM_PAGE_2MB) = pageNumber top va + 512 * k := by
  unfold pageNumber
  rw [toNat_piece hk hv]
  rcases ht with rfl | rfl <;> omega

section Program

variable {α : Type} {v : View α} {P : Nat → U64 → Prop} {pmap : PageMap} {va pa flags : U64}
  {own own' : Uptr → Option (Nat × Nat)} {s s' : VmmState} {L n : Nat} {w : Nat → α}

theorem mapRoot_grow (hr : MapRoot own pmap) (hg : Grow own own' s s') : MapRoot own' pmap :=
  ⟨hr.level, hg.keep _ _ _ hr.root⟩

theorem entries_put (hP : Inherited P) (h : VmmInv own s) (he : Entries P own s)
    (hr : MapRoot own pmap) (hL : L ≠ 0) (hleaf : P L (leafPte pa flags L))
    (hp : Put pmap va pa flags own s own' s' L) : Entries P own' s' := by
  obtain ⟨s₁, t, hw, rfl⟩ := hp
  have hroot := mapRoot_label hr (pageNumber_lt pmap.level.num va)
  obtain ⟨hgrow, hstage⟩ := leads_stage h hroot hw hL
  exact entries_stored (entries_leads hP h he (tableFlags_way flags) hroot hw hL) hgrow.inv
    (stage_label hgrow.inv hstage) (slot_lt _ _) hleaf

/-- A way and its leaf. -/
theorem maps_put (hP : Inherited P) (h : VmmInv own s) (he : Entries P own s)
    (hr : MapRoot own pmap) (ha : LeafArgs pa flags L) (hv : va.toNat % pageBytes L = 0)
    (hs : ∀ M e, L ≤ M → P (M + 1) e → SplitOk v M e)
    (hval : ∀ key, pageNumber pmap.level.num va ≤ key →
      key < pageNumber pmap.level.num va + 512 ^ (L - 1) →
      v.read (.leaf L (leafPte pa flags L)) key = w key)
    (hp : Put pmap va pa flags own s own' s' L) :
    Maps v own own' s s' pmap.level.num pmap.directory (pageNumber pmap.level.num va)
      (512 ^ (L - 1)) w := by
  obtain ⟨s₁, t, hw, rfl⟩ := hp
  have hlev := ha.level
  have hroot := mapRoot_label hr (pageNumber_lt pmap.level.num va)
  have hsteady := steady_leads (v := v) hP h he (tableFlags_way flags) hroot hw (by omega) hs
  obtain ⟨hgrow, hstage⟩ := leads_stage h hroot hw (by omega)
  exact maps_of_steady hsteady (maps_leaf hgrow.inv hstage ha
    (pageNumber_aligned (mapRoot_num hr) hlev hv) hval)

theorem entries_pieces (hP : Inherited P) (h : VmmInv own s) (he : Entries P own s)
    (hr : MapRoot own pmap) (ha : MapArgs va pa flags MM_PAGE_1GB) (hn : n ≤ 512)
    (hleaf : ∀ k, k < n → P 2 (leafPte (pa + BitVec.ofNat 64 k * MM_PAGE_2MB) flags 2))
    (hp : Pieces pmap va pa flags own s n own' s') : Entries P own' s' := by
  induction hp with
  | zero => exact he
  | @succ n _ _ _ _ hp hput ih =>
      have hgrow := pieces_grow h hr ha (by omega) hp
      exact entries_put hP hgrow.inv (ih (by omega) fun k hk => hleaf k (by omega))
        (mapRoot_grow hr hgrow) (by omega) (hleaf n (by omega)) hput

/-- The 512 pieces of a 1 GB page, one after the other. -/
theorem maps_pieces (hP : Inherited P) (h : VmmInv own s) (he : Entries P own s)
    (hr : MapRoot own pmap) (ha : MapArgs va pa flags MM_PAGE_1GB) (hn : n ≤ 512)
    (hleaf : ∀ k, k < n → P 2 (leafPte (pa + BitVec.ofNat 64 k * MM_PAGE_2MB) flags 2))
    (hs : ∀ M e, 2 ≤ M → P (M + 1) e → SplitOk v M e)
    (hval : ∀ k key, k < n → pageNumber pmap.level.num va + 512 * k ≤ key →
      key < pageNumber pmap.level.num va + 512 * k + 512 →
      v.read (.leaf 2 (leafPte (pa + BitVec.ofNat 64 k * MM_PAGE_2MB) flags 2)) key = w key)
    (hp : Pieces pmap va pa flags own s n own' s') :
    Maps v own own' s s' pmap.level.num pmap.directory (pageNumber pmap.level.num va) (512 * n)
      w := by
  have hva : va.toNat % 2 ^ 30 = 0 := ha.va_aligned
  induction hp with
  | zero => exact maps_none h
  | @succ n own₁ own₂ s₁ s₂ hp hput ih =>
      have hn' : n < 512 := hn
      have hmaps := ih (by omega) (fun k hk => hleaf k (by omega))
        fun k key hk => hval k key (by omega)
      have hentries := entries_pieces hP h he hr ha (by omega) (fun k hk => hleaf k (by omega)) hp
      have hpiece := pageNumber_piece (mapRoot_num hr) hn' hva
      have hval' := fun key => hval n key (Nat.lt_succ_self n)
      rw [← hpiece] at hval'
      have hput' := maps_put hP hmaps.grow.inv hentries (mapRoot_grow hr hmaps.grow)
        (leafArgs_piece ha hn') (mapArgs_piece ha hn').va_aligned hs hval' hput
      rw [hpiece] at hput'
      have happend := maps_append hmaps hput' (Nat.le_refl _)
      rw [show max (512 * n) (512 * n + 512 ^ (2 - 1)) = 512 * (n + 1) by omega] at happend
      exact happend

/-- The arguments of the leaf at the end of a call for 1 GB. -/
theorem leafArgs_closed (ha : MapArgs va pa flags MM_PAGE_1GB) : LeafArgs pa flags 2 := by
  have hpa : pa.toNat % 2 ^ 30 = 0 := ha.pa_aligned
  exact ⟨Or.inr (Or.inl rfl), by simp only [pageBytes]; omega, ha.pa_low, ha.flags⟩

/-- The end of a call for 1 GB maps the first 2 MB. -/
theorem maps_closed {pml3 : Uptr} (h : VmmInv own s) (hr : MapRoot own pmap)
    (ha : MapArgs va pa flags MM_PAGE_1GB)
    (hstage : Stage own s pmap.level.num pmap.directory (pageNumber pmap.level.num va) 3 pml3)
    (hs : SplitOk v 2 (pteAt s.mem pml3 (slot (pageNumber pmap.level.num va) 2)))
    (hval : ∀ key, pageNumber pmap.level.num va ≤ key →
      key < pageNumber pmap.level.num va + 512 →
      v.read (.leaf 2 (leafPte pa flags 2)) key = w key)
    (hc : Closed pmap va pa flags pml3 own s own' s') :
    Maps v own own' s s' pmap.level.num pmap.directory (pageNumber pmap.level.num va) 512 w := by
  obtain ⟨s₁, c, hd, rfl⟩ := hc
  have hva : va.toNat % 2 ^ 30 = 0 := ha.va_aligned
  have hleaf := leafArgs_closed ha
  have hsteady := steady_descended h (stage_label h hstage) (by omega) hs hd
  have hvpn : pageNumber pmap.level.num va % 512 ^ (2 - 1) = 0 :=
    pageNumber_aligned (mapRoot_num hr) hleaf.level (by simp only [pageBytes]; omega)
  have hmaps := maps_leaf hsteady.grow.inv (stage_descended h hstage (by omega) hd) hleaf hvpn hval
  exact maps_of_steady hsteady hmaps

end Program

end Slightx
