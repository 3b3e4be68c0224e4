/-
  File:      Slightx/Lib/Radix.lean
  Subject:   Lookups through tables of tables.

  A radix tree with fan-out `n` is a store of tables; level `L + 1` of a lookup reads the entry
  `key / n ^ L % n` of its table and ends there or goes on at level `L`. Nothing forces such a
  store to be a tree: two entries may lead to one table. A labelling of the tables with the
  level and the leading digits of the keys that may pass (`Labelled`) does:

  * `look_congr_reach` -- a lookup depends on the entries it comes by only;
  * `look_congr` -- so, in a labelled store, on those of tables labelled for its key;
  * `look_edit` -- so an edit of one entry is seen by the lookups that pass it only;
  * `reach_edit` -- and for these the way down to the edited table is unchanged;
  * `labelled_set`, `labelled_link` -- the labelling survives an edit, and a fresh table that is
    linked in gets the label of its place;
  * `lack` -- how many tables a lookup misses, and `lack_lt_iff`: those of the levels it does not
    come by.
-/
import Mathlib.Algebra.Group.Nat.Defs
import Mathlib.Logic.Function.Basic

namespace Slightx.Lib

/-- What an entry stands for: nothing, a result, or another table, whose results `f` completes. -/
inductive Kind (τ ρ : Type) where
  | absent
  | leaf (r : ρ)
  | next (t : τ) (f : ρ → ρ)

section Radix

variable {τ ε ρ : Type} (n : Nat) (kind : Nat → ε → Kind τ ρ)

/-! ## 1. Lookups -/

/-- The lookup of `key` from table `t` of level `L` on. -/
def look (get : τ → Nat → ε) (key : Nat) : (L : Nat) → (t : τ) → Option ρ
  | 0, _ => none
  | L + 1, t =>
      match kind (L + 1) (get t (key / n ^ L % n)) with
      | .absent => none
      | .leaf r => some r
      | .next u f => (look get key L u).map f

/-- The lookup of `key` goes down from table `t` of level `L` to table `u` of level `K`, and `g`
    completes the results from there. -/
inductive Reach (get : τ → Nat → ε) (key L : Nat) (t : τ) : Nat → τ → (ρ → ρ) → Prop where
  | here : Reach get key L t L t id
  | down {K : Nat} {u v : τ} {g f : ρ → ρ} (h : Reach get key L t (K + 1) u g)
      (hk : kind (K + 1) (get u (key / n ^ K % n)) = .next v f) :
      Reach get key L t K v (g ∘ f)

variable {n kind} {get get' : τ → Nat → ε} {key : Nat}

/-- A lookup is the completed lookup of any table on its way. -/
theorem look_reach {L K : Nat} {t u : τ} {g : ρ → ρ} (h : Reach n kind get key L t K u g) :
    look n kind get key L t = (look n kind get key K u).map g := by
  induction h with
  | here => exact (Option.map_id_fun ▸ rfl)
  | @down K u v g f h hk ih =>
      rw [ih, look, hk]
      show ((look n kind get key K v).map f).map g = _
      rw [Option.map_map]

/-- A way down from the next table is a way down. -/
theorem reach_cons {L K : Nat} {t u v : τ} {f g : ρ → ρ}
    (hk : kind (L + 1) (get t (key / n ^ L % n)) = .next u f)
    (h : Reach n kind get key L u K v g) : Reach n kind get key (L + 1) t K v (f ∘ g) := by
  induction h with
  | here => exact (Reach.down (g := id) .here hk :)
  | @down _ _ _ g' _ _ hd ih => exact (Reach.down (g := f ∘ g') ih hd :)

/-- The last digit of a prefix. -/
theorem div_pow_digit (n key L : Nat) :
    key / n ^ L = key / n ^ (L + 1) * n + key / n ^ L % n := by
  rw [Nat.pow_succ, ← Nat.div_div_eq_div_mul, Nat.div_add_mod']

/-- Keys that agree on a prefix agree on every shorter one. -/
theorem div_pow_congr {key key' K L : Nat} (h : key / n ^ K = key' / n ^ K) (hKL : K ≤ L) :
    key / n ^ L = key' / n ^ L := by
  obtain ⟨d, rfl⟩ := Nat.exists_eq_add_of_le hKL
  rw [Nat.pow_add, ← Nat.div_div_eq_div_mul, ← Nat.div_div_eq_div_mul, h]

/-- Keys with the same leading digits go down together. -/
theorem reach_key {key' L K : Nat} {t u : τ} {g : ρ → ρ} (h : Reach n kind get key L t K u g)
    (hk : key' / n ^ K = key / n ^ K) : Reach n kind get key' L t K u g := by
  induction h with
  | here => exact .here
  | @down K u v g f h hd ih =>
      refine .down (ih (div_pow_congr hk (Nat.le_succ K))) ?_
      rw [hk]
      exact hd

theorem reach_level {L K : Nat} {t u : τ} {g : ρ → ρ} (h : Reach n kind get key L t K u g) :
    K ≤ L := by
  induction h with
  | here => exact Nat.le_refl L
  | down _ _ ih => exact Nat.le_of_succ_le ih

/-- **A lookup depends on the entries it comes by only.** -/
theorem look_congr_reach {L : Nat} {t : τ} (h : ∀ K u g, Reach n kind get key L t (K + 1) u g →
    get' u (key / n ^ K % n) = get u (key / n ^ K % n)) :
    look n kind get' key L t = look n kind get key L t := by
  induction L generalizing t with
  | zero => rfl
  | succ L ih =>
      rw [look, look, h L t id .here]
      cases hk : kind (L + 1) (get t (key / n ^ L % n)) with
      | absent => rfl
      | leaf r => rfl
      | next u f =>
          have hu : look n kind get' key L u = look n kind get key L u :=
            ih fun K v g hr => h K v (f ∘ g) (reach_cons hk hr)
          exact congrArg (Option.map f) hu

/-! ## 2. Labels -/

variable (n kind) in
/-- `own` gives each table it knows its level and the leading digits of the keys that may pass,
    and the tables behind its entries theirs. -/
def Labelled (get : τ → Nat → ε) (own : τ → Option (Nat × Nat)) : Prop :=
  ∀ t L p i u f, own t = some (L, p) → i < n → kind L (get t i) = .next u f →
    ∃ K, L = K + 1 ∧ own u = some (K, p * n + i)

variable {own own' : τ → Option (Nat × Nat)}

/-- The table behind the entry for `key` is labelled for `key`. -/
theorem labelled_next (hn : 0 < n) (h : Labelled n kind get own) {L : Nat} {t u : τ} {f : ρ → ρ}
    (ht : own t = some (L + 1, key / n ^ (L + 1)))
    (hk : kind (L + 1) (get t (key / n ^ L % n)) = .next u f) : own u = some (L, key / n ^ L) := by
  obtain ⟨K, hK, hu⟩ := h t _ _ _ u f ht (Nat.mod_lt _ hn) hk
  cases hK
  rw [hu, ← div_pow_digit]

theorem reach_label (hn : 0 < n) (h : Labelled n kind get own) {L K : Nat} {t u : τ} {g : ρ → ρ}
    (ht : own t = some (L, key / n ^ L)) (hr : Reach n kind get key L t K u g) :
    own u = some (K, key / n ^ K) := by
  induction hr with
  | here => exact ht
  | down _ hk ih => exact labelled_next hn h ih hk

/-- **A lookup depends on the entries of tables labelled for its key only.** -/
theorem look_congr (hn : 0 < n) (h : Labelled n kind get own) {L : Nat} {t : τ}
    (hget : ∀ u M, M < L → own u = some (M + 1, key / n ^ (M + 1)) →
      get' u (key / n ^ M % n) = get u (key / n ^ M % n))
    (ht : own t = some (L, key / n ^ L)) :
    look n kind get' key L t = look n kind get key L t := by
  induction L generalizing t with
  | zero => rfl
  | succ L ih =>
      rw [look, look, hget t L (Nat.lt_succ_self L) ht]
      cases hk : kind (L + 1) (get t (key / n ^ L % n)) with
      | absent => rfl
      | leaf r => rfl
      | next u f =>
          show (look n kind get' key L u).map f = (look n kind get key L u).map f
          rw [ih (fun v M hM => hget v M (Nat.lt_succ_of_lt hM)) (labelled_next hn h ht hk)]

/-! ## 3. Edits of one entry -/

variable (n) in
/-- On the tables `own` knows, `get'` differs from `get` in entry `i` of table `t` only. -/
def EditAt (own : τ → Option (Nat × Nat)) (get get' : τ → Nat → ε) (t : τ) (i : Nat) : Prop :=
  ∀ u j, own u ≠ none → j < n → ¬ (u = t ∧ j = i) → get' u j = get u j

section Edit

variable {t : τ} {K p i : Nat}

/-- **An edit is seen by the lookups that pass its entry only.** -/
theorem look_edit (hn : 0 < n) (h : Labelled n kind get own) (he : EditAt n own get get' t i)
    (ht : own t = some (K + 1, p)) {L : Nat} {r : τ} (hr : own r = some (L, key / n ^ L)) :
    look n kind get' key L r = look n kind get key L r ∨
      ∃ g, Reach n kind get key L r (K + 1) t g ∧ key / n ^ K % n = i := by
  induction L generalizing r with
  | zero => exact Or.inl rfl
  | succ L ih =>
      by_cases hsame : r = t ∧ key / n ^ L % n = i
      · obtain ⟨rfl, hi⟩ := hsame
        rw [ht] at hr
        cases hr
        exact Or.inr ⟨id, .here, hi⟩
      rw [look, look, he r _ (by rw [hr]; exact Option.some_ne_none _) (Nat.mod_lt _ hn) hsame]
      cases hk : kind (L + 1) (get r (key / n ^ L % n)) with
      | absent => exact Or.inl rfl
      | leaf a => exact Or.inl rfl
      | next u f =>
          rcases ih (labelled_next hn h hr hk) with hu | ⟨g, hu, hi⟩
          · exact Or.inl (congrArg (Option.map f) hu)
          · exact Or.inr ⟨f ∘ g, reach_cons hk hu, hi⟩

/-- So the keys of other entries see nothing. -/
theorem look_edit_off (hn : 0 < n) (h : Labelled n kind get own) (he : EditAt n own get get' t i)
    (ht : own t = some (K + 1, p)) (hkey : key / n ^ K ≠ p * n + i) {L : Nat} {r : τ}
    (hr : own r = some (L, key / n ^ L)) : look n kind get' key L r = look n kind get key L r := by
  rcases look_edit hn h he ht hr with hs | ⟨g, hreach, hi⟩
  · exact hs
  · have hlabel := reach_label hn h hr hreach
    rw [ht] at hlabel
    cases hlabel
    rw [div_pow_digit n key K, hi] at hkey
    exact absurd rfl hkey

/-- Nor do lookups that start below. -/
theorem look_edit_below (hn : 0 < n) (h : Labelled n kind get own)
    (he : EditAt n own get get' t i) (ht : own t = some (K + 1, p)) {L : Nat} {r : τ} (hL : L ≤ K)
    (hr : own r = some (L, key / n ^ L)) : look n kind get' key L r = look n kind get key L r := by
  refine look_congr hn h (fun u M hM hu => ?_) hr
  refine he u _ (by rw [hu]; exact Option.some_ne_none _) (Nat.mod_lt _ hn) fun hsame => ?_
  rw [hsame.1, ht] at hu
  cases hu
  omega

/-- An edit leaves the way down to its table alone. -/
theorem reach_edit (hn : 0 < n) (h : Labelled n kind get own) (he : EditAt n own get get' t i)
    (ht : own t = some (K + 1, p)) {L M : Nat} {r u : τ} {g : ρ → ρ} (hM : K + 1 ≤ M)
    (hr : own r = some (L, key / n ^ L)) (hreach : Reach n kind get key L r M u g) :
    Reach n kind get' key L r M u g := by
  induction hreach with
  | here => exact .here
  | @down M u v g f hd hk ih =>
      have hu := reach_label hn h hr hd
      refine .down (ih (by omega)) ?_
      rw [he u _ (by rw [hu]; exact Option.some_ne_none _) (Nat.mod_lt _ hn) fun hsame => ?_]
      · exact hk
      · rw [hsame.1, ht] at hu
        cases hu
        omega

/-- An edit of an entry that led nowhere leaves every way down alone. -/
theorem reach_edit_leaf (hn : 0 < n) (h : Labelled n kind get own)
    (he : EditAt n own get get' t i) (ht : own t = some (K + 1, p))
    (hleaf : ∀ v f, kind (K + 1) (get t i) ≠ .next v f) {L M : Nat} {r u : τ} {g : ρ → ρ}
    (hr : own r = some (L, key / n ^ L)) (hreach : Reach n kind get key L r M u g) :
    Reach n kind get' key L r M u g := by
  induction hreach with
  | here => exact .here
  | @down M u v g f hd hk ih =>
      have hu := reach_label hn h hr hd
      refine .down ih ?_
      rw [he u _ (by rw [hu]; exact Option.some_ne_none _) (Nat.mod_lt _ hn) fun hsame => ?_]
      · exact hk
      · rw [hsame.1, ht] at hu
        cases hu
        rw [hsame.1, hsame.2] at hk
        exact hleaf v f hk

/-- An edit that links a table where its label says keeps the labels. -/
theorem labelled_set (h : Labelled n kind get own) (he : EditAt n own get get' t i)
    (ht : own t = some (K, p)) (hnext : ∀ u f, i < n → kind K (get' t i) = .next u f →
      ∃ M, K = M + 1 ∧ own u = some (M, p * n + i)) : Labelled n kind get' own := by
  intro a L q j u f ha hj hk
  by_cases hsame : a = t ∧ j = i
  · obtain ⟨rfl, rfl⟩ := hsame
    rw [ht] at ha
    cases ha
    exact hnext u f hj hk
  · rw [he a j (by rw [ha]; exact Option.some_ne_none _) hj hsame] at hk
    exact h a L q j u f ha hj hk

/-- **A fresh table whose entries lead nowhere, linked in at an entry, gets its label.** -/
theorem labelled_link [DecidableEq τ] {c : τ} {f : ρ → ρ} (h : Labelled n kind get own)
    (he : EditAt n own get get' t i) (ht : own t = some (K + 1, p)) (hc : own c = none)
    (hlink : kind (K + 1) (get' t i) = .next c f)
    (hleaf : ∀ j u f', j < n → kind K (get' c j) ≠ .next u f') :
    Labelled n kind get' (Function.update own c (some (K, p * n + i))) := by
  have hne : ∀ a L q, own a = some (L, q) → a ≠ c := by
    intro a L q ha hac
    rw [hac, hc] at ha
    cases ha
  intro a L q j u f' ha hj hk
  by_cases hac : a = c
  · subst hac
    rw [Function.update_self] at ha
    cases ha
    exact absurd hk (hleaf j u f' hj)
  · rw [Function.update_of_ne hac] at ha
    by_cases hsame : a = t ∧ j = i
    · obtain ⟨rfl, rfl⟩ := hsame
      rw [ht] at ha
      cases ha
      rw [hlink] at hk
      cases hk
      exact ⟨K, rfl, Function.update_self _ _ _⟩
    · rw [he a j (by rw [ha]; exact Option.some_ne_none _) hj hsame] at hk
      obtain ⟨M, hM, hu⟩ := h a L q j u f' ha hj hk
      exact ⟨M, hM, by rw [Function.update_of_ne (hne u M _ hu)]; exact hu⟩

end Edit

/-! ## 4. Missing tables -/

variable (n kind) in
/-- The tables the lookup of `key` misses from table `t` of level `L` on: all levels below the
    last table it comes by. -/
def lack (get : τ → Nat → ε) (key : Nat) : (L : Nat) → (t : τ) → Nat
  | 0, _ => 0
  | L + 1, t =>
      match kind (L + 1) (get t (key / n ^ L % n)) with
      | .next u _ => lack get key L u
      | _ => L

section Lack

variable {L K : Nat} {t u : τ}

theorem lack_next {f : ρ → ρ} (hk : kind (L + 1) (get t (key / n ^ L % n)) = .next u f) :
    lack n kind get key (L + 1) t = lack n kind get key L u := by
  rw [lack, hk]

theorem lack_end (hk : ∀ u f, kind (L + 1) (get t (key / n ^ L % n)) ≠ .next u f) :
    lack n kind get key (L + 1) t = L := by
  rw [lack]
  split
  · rename_i u f h
    exact absurd h (hk u f)
  · rfl

theorem lack_lt : lack n kind get key (L + 1) t ≤ L := by
  induction L generalizing t with
  | zero =>
      rw [lack]
      split
      · exact Nat.le_refl 0
      · exact Nat.le_refl 0
  | succ L ih =>
      rw [lack]
      split
      · exact Nat.le_succ_of_le ih
      · exact Nat.le_refl _

/-- A way down to a lower level starts with an entry that leads on. -/
theorem reach_uncons {g : ρ → ρ} (h : Reach n kind get key (L + 1) t K u g) (hK : K ≤ L) :
    ∃ v f g', kind (L + 1) (get t (key / n ^ L % n)) = .next v f ∧
      Reach n kind get key L v K u g' := by
  induction h with
  | here => omega
  | @down K u v g f hd hk ih =>
      by_cases hL : K + 1 ≤ L
      · obtain ⟨w, f', g', hw, hr⟩ := ih hL
        exact ⟨w, f', _, hw, .down hr hk⟩
      · have hle := reach_level hd
        obtain rfl : K = L := by omega
        cases hd with
        | here => exact ⟨v, f, id, hk, .here⟩
        | down hd' _ =>
            have := reach_level hd'
            omega

/-- **The levels a lookup comes by are those above what it lacks.** -/
theorem lack_lt_iff (hK : K ≠ 0) (hL : K ≤ L) :
    lack n kind get key L t < K ↔ ∃ u g, Reach n kind get key L t K u g := by
  induction L generalizing t with
  | zero => omega
  | succ L ih =>
      by_cases htop : K = L + 1
      · subst htop
        exact ⟨fun _ => ⟨t, id, .here⟩, fun _ => Nat.lt_succ_of_le lack_lt⟩
      have hL' : K ≤ L := by omega
      by_cases hnext : ∃ u f, kind (L + 1) (get t (key / n ^ L % n)) = .next u f
      · obtain ⟨u, f, hk⟩ := hnext
        rw [lack_next hk, ih hL']
        constructor
        · intro h
          obtain ⟨v, g, hr⟩ := h
          exact ⟨v, _, reach_cons hk hr⟩
        · intro h
          obtain ⟨v, g, hr⟩ := h
          obtain ⟨w, f', g', hw, hr'⟩ := reach_uncons hr hL'
          rw [hk] at hw
          cases hw
          exact ⟨v, g', hr'⟩
      · rw [lack_end fun u f h => hnext ⟨u, f, h⟩]
        refine ⟨fun h => absurd h (by omega), fun h => ?_⟩
        obtain ⟨v, g, hr⟩ := h
        obtain ⟨w, f', g', hw, -⟩ := reach_uncons hr hL'
        exact absurd ⟨w, f', hw⟩ hnext

/-- A way down comes by a table of every level between. -/
theorem reach_between {M : Nat} {g : ρ → ρ} (h : Reach n kind get key L t K u g) (hKM : K ≤ M)
    (hML : M ≤ L) : ∃ v g', Reach n kind get key L t M v g' := by
  induction h with
  | here =>
      obtain rfl : M = L := by omega
      exact ⟨t, id, .here⟩
  | @down K u v g f hd hk ih =>
      by_cases hM : M = K
      · subst hM
        exact ⟨v, _, .down hd hk⟩
      · exact ih (by omega)

/-- What a lookup lacks depends on the entries of tables labelled for its key only. -/
theorem lack_congr (hn : 0 < n) (h : Labelled n kind get own)
    (hget : ∀ u M, M < L → own u = some (M + 1, key / n ^ (M + 1)) →
      get' u (key / n ^ M % n) = get u (key / n ^ M % n))
    (ht : own t = some (L, key / n ^ L)) :
    lack n kind get' key L t = lack n kind get key L t := by
  induction L generalizing t with
  | zero => rfl
  | succ L ih =>
      rw [lack, lack, hget t L (Nat.lt_succ_self L) ht]
      cases hk : kind (L + 1) (get t (key / n ^ L % n)) with
      | absent => rfl
      | leaf r => rfl
      | next u f => exact ih (fun v M hM => hget v M (Nat.lt_succ_of_lt hM)) (labelled_next hn h ht hk)

end Lack

end Radix

end Slightx.Lib
