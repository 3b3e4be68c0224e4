/-
  File:      Slightx/Lib/Chain.lean
  Subject:   Lists threaded through the nodes of a store.

  Every node names its successor, and a distinguished name ends the list. The list of the nodes
  passed is the view a proof works with; an edit of one link is an edit of that list:

  * `chain_unique`, `chain_nodup` -- the links decide the list, and a list that ends passes no
    node twice;
  * `chain_congr` -- links of nodes outside the list do not matter;
  * `chain_push`, `chain_remove` -- a node in front, a node taken out behind another one
-/
import Mathlib.Logic.Function.Basic
import Mathlib.Data.List.Nodup

namespace Slightx.Lib

/-- From `i` on, the links `next` pass the nodes of `l` in order and then reach `stop`. -/
inductive Chain {ι : Type} (next : ι → ι) (stop : ι) : ι → List ι → Prop where
  | nil : Chain next stop stop []
  | cons {i : ι} {l : List ι} (hi : i ≠ stop) (h : Chain next stop (next i) l) :
      Chain next stop i (i :: l)

section Chain

variable {ι : Type} {next next' : ι → ι} {stop i j p : ι} {l l' k : List ι}

/-! ## 1. The list of a chain -/

theorem chain_stop (h : Chain next stop stop l) : l = [] := by
  cases h with
  | nil => rfl
  | cons hi _ => exact absurd rfl hi

theorem chain_start (h : Chain next stop i l) (hi : i ≠ stop) :
    ∃ k, l = i :: k ∧ Chain next stop (next i) k := by
  cases h with
  | nil => exact absurd rfl hi
  | cons _ hk => exact ⟨_, rfl, hk⟩

theorem chain_ne_stop (h : Chain next stop i l) (hj : j ∈ l) : j ≠ stop := by
  induction h with
  | nil => exact absurd hj List.not_mem_nil
  | cons hi _ ih =>
      rcases List.mem_cons.mp hj with rfl | hj
      · exact hi
      · exact ih hj

theorem chain_unique (h : Chain next stop i l) (h' : Chain next stop i l') : l = l' := by
  induction h generalizing l' with
  | nil => exact (chain_stop h').symm
  | cons hi _ ih =>
      obtain ⟨k, rfl, hk⟩ := chain_start h' hi
      rw [ih hk]

/-- Every node of a chain starts the rest of it. -/
theorem chain_suffix (h : Chain next stop i (l ++ j :: k)) : Chain next stop j (j :: k) := by
  induction l generalizing i with
  | nil =>
      cases h with
      | cons hi h => exact .cons hi h
  | cons a l ih =>
      cases h with
      | cons _ h => exact ih h

theorem chain_tail (h : Chain next stop i (j :: k)) : Chain next stop (next j) k := by
  cases h with
  | cons _ h => exact h

/-- The node behind `p`. -/
theorem chain_next (h : Chain next stop i (l ++ p :: j :: k)) : next p = j := by
  cases chain_tail (chain_suffix h) with
  | cons _ _ => rfl

/-- **A chain that ends passes no node twice**: the rest behind both would be one list. -/
theorem chain_nodup (h : Chain next stop i l) : l.Nodup := by
  induction h with
  | nil => exact List.nodup_nil
  | @cons i l hi h ih =>
      refine List.nodup_cons.mpr ⟨fun hmem => ?_, ih⟩
      obtain ⟨l₁, l₂, hl⟩ := List.append_of_mem hmem
      have hsame : l₂ = l := by
        rw [hl] at h
        exact chain_unique (chain_tail (chain_suffix h)) (hl ▸ h)
      have hlen := congrArg List.length hl
      rw [List.length_append, List.length_cons, hsame] at hlen
      omega

/-- A chain depends on the links of its own nodes only. -/
theorem chain_congr (h : Chain next stop i l) (hn : ∀ j ∈ l, next' j = next j) :
    Chain next' stop i l := by
  induction h with
  | nil => exact .nil
  | @cons i l hi _ ih =>
      refine .cons hi ?_
      rw [hn i List.mem_cons_self]
      exact ih fun j hj => hn j (List.mem_cons_of_mem _ hj)

/-! ## 2. Edits -/

/-- The nodes that are left when `j` is taken out. -/
theorem mem_removed (h : (l ++ p :: j :: k).Nodup) :
    i ∈ l ++ p :: k ↔ i ∈ l ++ p :: j :: k ∧ i ≠ j := by
  rw [List.append_cons] at h
  have hnot : j ∉ l ++ [p] ++ k := (List.nodup_cons.mp (List.nodup_middle.mp h)).1
  simp only [List.mem_append, List.mem_cons, List.not_mem_nil, or_false] at hnot ⊢
  constructor
  · intro hm
    refine ⟨?_, fun he => hnot (he ▸ or_assoc.mpr hm)⟩
    rcases hm with hm | hm | hm
    · exact Or.inl hm
    · exact Or.inr (Or.inl hm)
    · exact Or.inr (Or.inr (Or.inr hm))
  · intro hm
    obtain ⟨hm | hm | hm | hm, hne⟩ := hm
    · exact Or.inl hm
    · exact Or.inr (Or.inl hm)
    · exact absurd hm hne
    · exact Or.inr (Or.inr hm)

variable [DecidableEq ι]

/-- The link of a node outside the chain may be anything. -/
theorem chain_update (h : Chain next stop i l) (hj : j ∉ l) (a : ι) :
    Chain (Function.update next j a) stop i l := by
  refine chain_congr h fun m hm => Function.update_of_ne ?_ _ _
  rintro rfl
  exact hj hm

/-- A node in front. -/
theorem chain_push (h : Chain next stop i l) (hj : j ∉ l) (hs : j ≠ stop) :
    Chain (Function.update next j i) stop j (j :: l) := by
  refine .cons hs ?_
  rw [Function.update_self]
  exact chain_update h hj i

/-- The node behind `p` taken out. -/
theorem chain_remove (h : Chain next stop i (l ++ p :: j :: k)) :
    Chain (Function.update next p (next j)) stop i (l ++ p :: k) := by
  have hnd := chain_nodup h
  induction l generalizing i with
  | nil =>
      have hrest := chain_tail (chain_suffix (l := [p]) h)
      cases h with
      | cons hi _ =>
          refine .cons hi ?_
          rw [Function.update_self]
          refine chain_update hrest (fun hm => ?_) _
          exact (List.nodup_cons.mp hnd).1 (List.mem_cons_of_mem _ hm)
  | cons a l ih =>
      have hne : a ≠ p := by
        rintro rfl
        exact (List.nodup_cons.mp hnd).1 (List.mem_append_right _ List.mem_cons_self)
      cases h with
      | cons hi h =>
          refine .cons hi ?_
          rw [Function.update_of_ne hne]
          exact ih h (List.nodup_cons.mp hnd).2

end Chain

end Slightx.Lib
