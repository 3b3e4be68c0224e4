/-
  File:      Slightx/Lib/Shelves.lean
  Subject:   Numbered lists over one pair of links.

  Free lists by size class, or ready queues by priority: every node has one pair of links and is
  on one shelf at most. The list of a shelf is a `DList` from its head, so a node put on a shelf,
  or taken off, is seen by the nodes of this shelf only.

  * `Shelved` -- the nodes of a set, each on the list of its shelf, the others without links;
  * `shelved_put`, `shelved_taken` -- a node at the front of a shelf, a node taken out;
  * `shelved_congr`, `shelved_mono` -- edits elsewhere, and another set with the same shelves
-/
import Slightx.Lib.DList
import Mathlib.Data.List.Basic

namespace Slightx.Lib

structure Shelves (ι : Type) where
  node : ι → Links ι
  head : Nat → Option ι
  shelf : ι → Option Nat

/-- **The nodes of `D` on their shelves**; `lists i` are the nodes of shelf `i` in order. -/
structure Shelved {ι : Type} (s : Shelves ι) (D : ι → Prop) (lists : Nat → List ι) : Prop where
  list : ∀ i, DList s.node (s.head i) (lists i).getLast? (lists i)
  member : ∀ i a, a ∈ lists i ↔ D a ∧ s.shelf a = some i
  off : ∀ a, D a → s.shelf a = none → s.node a = ⟨none, none⟩

section Shelved

variable {ι : Type} {s s' : Shelves ι} {D D' : ι → Prop} {lists : Nat → List ι} {a b : ι}
  {i j : Nat}

theorem shelved_disjoint (h : Shelved s D lists) (ha : a ∈ lists i) (hij : j ≠ i) :
    a ∉ lists j := by
  intro hj
  have h₁ := ((h.member i a).mp ha).2
  have h₂ := ((h.member j a).mp hj).2
  rw [h₁] at h₂
  exact hij (Option.some.inj h₂).symm

theorem shelved_congr (h : Shelved s D lists) (hhead : s'.head = s.head)
    (hnode : ∀ a, D a → s'.node a = s.node a) (hshelf : ∀ a, D a → s'.shelf a = s.shelf a) :
    Shelved s' D lists := by
  refine ⟨fun i => ?_, fun i a => ?_, fun a ha hn => ?_⟩
  · rw [hhead]
    exact dlist_congr (h.list i) fun a ha => hnode a ((h.member i a).mp ha).1
  · rw [h.member i a]
    exact and_congr_right fun ha => by rw [hshelf a ha]
  · rw [hshelf a ha] at hn
    rw [hnode a ha]
    exact h.off a ha hn

/-- The same shelves for another set. -/
theorem shelved_mono (h : Shelved s D lists) (hD : ∀ a, s.shelf a ≠ none → (D' a ↔ D a))
    (hoff : ∀ a, D' a → s.shelf a = none → s.node a = ⟨none, none⟩) : Shelved s D' lists := by
  refine ⟨h.list, fun i a => ?_, hoff⟩
  rw [h.member i a]
  refine and_congr_left fun hs => (hD a ?_).symm
  rw [hs]
  exact Option.some_ne_none i

/-- The neighbours of a node are nodes of its shelf. -/
theorem shelved_next (h : Shelved s D lists) (ha : a ∈ lists i) (hb : (s.node a).next = some b) :
    b ∈ lists i ∧ b ≠ a := by
  obtain ⟨l₁, l₂, hl⟩ := List.append_of_mem ha
  have hd := h.list i
  rw [hl] at hd
  have hmem : b ∈ l₂ := List.mem_of_head? ((dlist_at hd).2.symm.trans hb)
  refine ⟨hl ▸ List.mem_append_right _ (List.mem_cons_of_mem _ hmem), ?_⟩
  rintro rfl
  exact (List.nodup_cons.mp (List.nodup_append.mp hd.nodup).2.1).1 hmem

theorem shelved_prev (h : Shelved s D lists) (ha : a ∈ lists i) (hb : (s.node a).prev = some b) :
    b ∈ lists i ∧ b ≠ a := by
  obtain ⟨l₁, l₂, hl⟩ := List.append_of_mem ha
  have hd := h.list i
  rw [hl] at hd
  have hmem : b ∈ l₁ := List.mem_of_getLast? ((dlist_at hd).1.symm.trans hb)
  refine ⟨hl ▸ List.mem_append_left _ hmem, ?_⟩
  rintro rfl
  exact (List.nodup_append.mp hd.nodup).2.2 b hmem b List.mem_cons_self rfl

theorem shelved_head (h : Shelved s D lists) (hb : s.head i = some b) : b ∈ lists i := by
  have hd := h.list i
  rw [hb] at hd
  obtain ⟨k, hk⟩ := dlist_head_some hd
  rw [hk]
  exact List.mem_cons_self

variable [DecidableEq ι]

/-- `a` off shelf `i`. -/
def Shelves.taken (s : Shelves ι) (a : ι) (i : Nat) : Shelves ι where
  node := Function.update (bypass s.node a) a ⟨none, none⟩
  head := Function.update s.head i
    (if (s.node a).prev = none then (s.node a).next else s.head i)
  shelf := Function.update s.shelf a none

/-- `a` at the front of shelf `i`. -/
def Shelves.put (s : Shelves ι) (a : ι) (i : Nat) : Shelves ι where
  node := linkFront s.node (s.head i) a
  head := Function.update s.head i (some a)
  shelf := Function.update s.shelf a (some i)

/-- **A node is taken off its shelf.** -/
theorem shelved_taken (h : Shelved s D lists) (ha : a ∈ lists i) :
    Shelved (s.taken a i) D (Function.update lists i ((lists i).erase a)) := by
  obtain ⟨l₁, l₂, hl⟩ := List.append_of_mem ha
  have hd := h.list i
  rw [hl] at hd
  have hnd : (l₁ ++ l₂).Nodup := (List.nodup_cons.mp (List.nodup_middle.mp hd.nodup)).2
  have hout : a ∉ l₁ ++ l₂ := (List.nodup_cons.mp (List.nodup_middle.mp hd.nodup)).1
  have herase : (lists i).erase a = l₁ ++ l₂ := by
    rw [hl, List.erase_append_right _ fun hm => hout (List.mem_append_left _ hm),
      List.erase_cons_head]
  rw [herase]
  have hself : (s.taken a i).shelf a = none := Function.update_self ..
  have hshelf : ∀ {b}, b ≠ a → (s.taken a i).shelf b = s.shelf b := fun hb =>
    Function.update_of_ne hb ..
  refine ⟨fun j => ?_, fun j b => ?_, fun b hb hn => ?_⟩
  · by_cases hj : j = i
    · rw [hj, Function.update_self]
      have hhead : (s.taken a i).head i =
          if (s.node a).prev = none then (s.node a).next else s.head i := Function.update_self ..
      have hrest := dlist_update (dlist_bypass hd) hout ⟨none, none⟩
      rw [hhead]
      exact ⟨hrest.head, rfl, hrest.strung, hrest.nodup⟩
    · rw [Function.update_of_ne hj]
      have hhead : (s.taken a i).head j = s.head j := Function.update_of_ne hj ..
      rw [hhead]
      refine dlist_congr (h.list j) fun b hb => ?_
      have hbi := shelved_disjoint h hb fun he => hj he.symm
      have hba : b ≠ a := by
        rintro rfl
        exact hbi ha
      refine (Function.update_of_ne hba ..).trans (bypass_of_notMem hd fun hm => hbi ?_)
      rw [hl]
      rcases List.mem_append.mp hm with hm | hm
      · exact List.mem_append_left _ hm
      · exact List.mem_append_right _ (List.mem_cons_of_mem _ hm)
  · by_cases hba : b = a
    · subst hba
      rw [hself]
      refine ⟨fun hb => ?_, fun hb => nomatch hb.2⟩
      by_cases hj : j = i
      · rw [hj, Function.update_self] at hb
        exact absurd hb hout
      · rw [Function.update_of_ne hj] at hb
        exact absurd ha (shelved_disjoint h hb fun he => hj he.symm)
    · rw [hshelf hba, ← h.member j b]
      by_cases hj : j = i
      · rw [hj, Function.update_self, hl]
        simp only [List.mem_append, List.mem_cons, hba, false_or]
      · rw [Function.update_of_ne hj]
  · by_cases hba : b = a
    · rw [hba]
      exact Function.update_self ..
    · rw [hshelf hba] at hn
      refine (Function.update_of_ne hba ..).trans ((bypass_of_notMem hd fun hm => ?_).trans
        (h.off b hb hn))
      have hmem : b ∈ lists i := by
        rw [hl]
        rcases List.mem_append.mp hm with hm | hm
        · exact List.mem_append_left _ hm
        · exact List.mem_append_right _ (List.mem_cons_of_mem _ hm)
      rw [((h.member i b).mp hmem).2] at hn
      cases hn

/-- **A node is put on a shelf**, and into the set. -/
theorem shelved_put (h : Shelved s D lists) (ha : ∀ j, a ∉ lists j)
    (hD : ∀ b, D' b ↔ b = a ∨ D b) (i : Nat) :
    Shelved (s.put a i) D' (Function.update lists i (a :: lists i)) := by
  have hself : (s.put a i).shelf a = some i := Function.update_self ..
  have hshelf : ∀ {b}, b ≠ a → (s.put a i).shelf b = s.shelf b := fun hb =>
    Function.update_of_ne hb ..
  have hnode : ∀ {b}, b ≠ a → b ∉ lists i → (s.put a i).node b = s.node b := by
    intro b hba hb
    refine linkFront_of_ne hba fun hh => hb ?_
    exact shelved_head h hh
  refine ⟨fun j => ?_, fun j b => ?_, fun b hb hn => ?_⟩
  · by_cases hj : j = i
    · rw [hj, Function.update_self]
      have hhead : (s.put a i).head i = some a := Function.update_self ..
      have hpush := dlist_push (h.list i) (ha i)
      rw [hhead]
      exact ⟨hpush.head, rfl, hpush.strung, hpush.nodup⟩
    · rw [Function.update_of_ne hj]
      have hhead : (s.put a i).head j = s.head j := Function.update_of_ne hj ..
      rw [hhead]
      refine dlist_congr (h.list j) fun b hb =>
        hnode ?_ (shelved_disjoint h hb fun he => hj he.symm)
      rintro rfl
      exact ha j hb
  · by_cases hba : b = a
    · subst hba
      rw [hself]
      by_cases hj : j = i
      · rw [hj, Function.update_self]
        exact ⟨fun _ => ⟨(hD b).mpr (.inl rfl), rfl⟩, fun _ => List.mem_cons_self⟩
      · rw [Function.update_of_ne hj]
        exact ⟨fun hb => absurd hb (ha j), fun hb => absurd (Option.some.inj hb.2).symm hj⟩
    · rw [hshelf hba, hD b, or_iff_right hba, ← h.member j b]
      by_cases hj : j = i
      · rw [hj, Function.update_self, List.mem_cons, or_iff_right hba]
      · rw [Function.update_of_ne hj]
  · have hba : b ≠ a := by
      rintro rfl
      rw [hself] at hn
      cases hn
    rw [hshelf hba] at hn
    have hbD : D b := ((hD b).mp hb).resolve_left hba
    rw [hnode hba fun hm => ?_]
    · exact h.off b hbD hn
    · rw [((h.member i b).mp hm).2] at hn
      cases hn

end Shelved

end Slightx.Lib
