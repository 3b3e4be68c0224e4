/-
  File:      Slightx/Lib/Components.lean
  Subject:   Text cut at a separator.

  * `tokens` -- the separators of a text and the names between them, each name with its offset
  * `text_induction` -- a text is empty, or goes on with a separator, or with a name that ends at a
    separator or at the end
  * `names_splitOn` -- the names are the nonempty pieces between separators
  * `rendered` -- names written out again, a separator before each; `rendered_inj`
  * `rendered_splitOn`, `nil_mem_splitOn` -- the pieces written out again, and an empty one among
    them
-/
import Mathlib.Algebra.GroupWithZero.Nat

namespace Slightx.Lib

variable {α : Type}

/-! ## 1. Tokens -/

/-- A separator, or a name and its offset in the text. -/
inductive Token (α : Type) where
  | sep
  | name (start : Nat) (text : List α)

def Token.size : Token α → Nat
  | .sep => 1
  | .name _ text => text.length

def Token.name? : Token α → Option (Nat × List α)
  | .sep => none
  | .name start text => some (start, text)

variable [DecidableEq α]

/-- The tokens of a text whose first character has offset `i`. -/
def tokens (sep : α) : Nat → List α → List (Token α)
  | _, [] => []
  | i, x :: xs =>
      if x = sep then .sep :: tokens sep (i + 1) xs
      else match tokens sep (i + 1) xs with
        | .name _ text :: ts => .name i (x :: text) :: ts
        | ts => .name i [x] :: ts

/-- The names of a text, with their offsets. -/
def names (sep : α) (i : Nat) (xs : List α) : List (Nat × List α) :=
  (tokens sep i xs).filterMap Token.name?

/-- The text ends here, or goes on with a separator. -/
def Cut (sep : α) (xs : List α) : Prop := xs = [] ∨ ∃ t, xs = sep :: t

section Tokens

variable {sep : α} {i : Nat} {c xs : List α}

theorem tokens_sep : tokens sep i (sep :: xs) = .sep :: tokens sep (i + 1) xs := if_pos rfl

theorem tokens_cut (h : Cut sep xs) :
    ∀ start text ts, tokens sep i xs ≠ .name start text :: ts := by
  intro start text ts
  rcases h with rfl | ⟨t, rfl⟩
  · exact List.cons_ne_nil _ _ ∘ Eq.symm
  · rw [tokens_sep]
    exact fun he => nomatch (List.cons.inj he).1

/-- **A name is one token**, up to the separator that ends it. -/
theorem tokens_name (hc : c ≠ []) (hsep : sep ∉ c) (h : Cut sep xs) :
    tokens sep i (c ++ xs) = .name i c :: tokens sep (i + c.length) xs := by
  induction c generalizing i with
  | nil => exact absurd rfl hc
  | cons x c ih =>
      have hx : x ≠ sep := fun he => hsep (he ▸ List.mem_cons_self)
      rw [List.cons_append, tokens, if_neg hx]
      by_cases hnil : c = []
      · subst hnil
        rw [List.nil_append]
        split
        · rename_i he
          exact absurd he (tokens_cut h _ _ _)
        · rfl
      · rw [ih hnil fun hmem => hsep (List.mem_cons_of_mem x hmem), List.length_cons,
          Nat.add_right_comm, Nat.add_assoc i]

/-- How a text goes on. -/
theorem text_cases (sep : α) (xs : List α) :
    Cut sep xs ∨ ∃ c t, xs = c ++ t ∧ c ≠ [] ∧ sep ∉ c ∧ Cut sep t := by
  induction xs with
  | nil => exact Or.inl (Or.inl rfl)
  | cons x xs ih =>
      by_cases hx : x = sep
      · exact Or.inl (Or.inr ⟨xs, by rw [hx]⟩)
      · right
        have hone : sep ∉ [x] := fun h => hx (List.mem_singleton.mp h).symm
        rcases ih with hcut | ⟨c, t, rfl, hc, hsep, hcut⟩
        · exact ⟨[x], xs, rfl, List.cons_ne_nil _ _, hone, hcut⟩
        · refine ⟨x :: c, t, rfl, List.cons_ne_nil _ _, ?_, hcut⟩
          intro h
          rcases List.mem_cons.mp h with rfl | h
          · exact hx rfl
          · exact hsep h

/-- **Induction over a text**, token by token. -/
theorem text_induction (sep : α) {P : Nat → List α → Prop} (nil : ∀ i, P i [])
    (step : ∀ i t, P (i + 1) t → P i (sep :: t))
    (name : ∀ i c t, c ≠ [] → sep ∉ c → Cut sep t → P (i + c.length) t → P i (c ++ t))
    (i : Nat) (xs : List α) : P i xs := by
  induction hn : xs.length using Nat.strongRecOn generalizing i xs with
  | ind n ih =>
      subst hn
      rcases text_cases sep xs with (rfl | ⟨t, rfl⟩) | ⟨c, t, rfl, hc, hsep, hcut⟩
      · exact nil i
      · exact step i t (ih _ (Nat.lt_succ_self _) _ t rfl)
      · refine name i c t hc hsep hcut (ih _ ?_ _ t rfl)
        rw [List.length_append]
        have := List.length_pos_iff.mpr hc
        omega

theorem names_nil : names sep i [] = [] := rfl

theorem names_sep : names sep i (sep :: xs) = names sep (i + 1) xs := by
  rw [names, tokens_sep]
  rfl

theorem names_name (hc : c ≠ []) (hsep : sep ∉ c) (h : Cut sep xs) :
    names sep i (c ++ xs) = (i, c) :: names sep (i + c.length) xs := by
  rw [names, tokens_name hc hsep h]
  rfl

end Tokens

/-! ## 2. The names of a text -/

section Names

variable {sep : α}

/-- **The names are the nonempty pieces between separators.** -/
theorem names_splitOn (i : Nat) (xs : List α) :
    (names sep i xs).map Prod.snd = (xs.splitOn sep).filter (· ≠ []) := by
  refine text_induction sep (P := fun i xs => (names sep i xs).map Prod.snd
    = (xs.splitOn sep).filter (· ≠ [])) ?_ ?_ ?_ i xs
  · intro i
    rw [List.splitOn_nil]
    rfl
  · intro i t ih
    rw [names_sep, ih, ← List.nil_append (sep :: t),
      List.splitOn_append_cons_self_of_not_mem List.not_mem_nil]
    rfl
  · intro i c t hc hsep hcut ih
    rw [names_name hc hsep hcut, List.map_cons, ih]
    rcases hcut with rfl | ⟨t, rfl⟩
    · rw [List.append_nil, List.splitOn_eq_singleton hsep, List.splitOn_nil]
      simp [hc]
    · rw [List.splitOn_append_cons_self_of_not_mem hsep, ← List.nil_append (sep :: t),
        List.splitOn_append_cons_self_of_not_mem List.not_mem_nil]
      simp [hc]

/-- Where a name is, and what it is made of. -/
theorem names_at (i : Nat) (xs : List α) : ∀ p ∈ names sep i xs,
    i ≤ p.1 ∧ p.2 ≠ [] ∧ sep ∉ p.2 ∧ ∀ j, j < p.2.length → xs[p.1 - i + j]? = p.2[j]? := by
  refine text_induction sep (P := fun i xs => ∀ p ∈ names sep i xs,
    i ≤ p.1 ∧ p.2 ≠ [] ∧ sep ∉ p.2 ∧ ∀ j, j < p.2.length → xs[p.1 - i + j]? = p.2[j]?)
    ?_ ?_ ?_ i xs
  · intro i p hp
    cases hp
  · intro i t ih p hp
    rw [names_sep] at hp
    obtain ⟨hle, hne, hsep, hat⟩ := ih p hp
    refine ⟨Nat.le_of_succ_le hle, hne, hsep, fun j hj => ?_⟩
    rw [← hat j hj, show p.1 - i + j = p.1 - (i + 1) + j + 1 by omega, List.getElem?_cons_succ]
  · intro i c t hc hsep hcut ih p hp
    rw [names_name hc hsep hcut] at hp
    rcases List.mem_cons.mp hp with rfl | hp
    · refine ⟨Nat.le_refl _, hc, hsep, fun j hj => ?_⟩
      rw [Nat.sub_self, Nat.zero_add, List.getElem?_append_left hj]
    · obtain ⟨hle, hne, hsepp, hat⟩ := ih p hp
      refine ⟨by omega, hne, hsepp, fun j hj => ?_⟩
      rw [← hat j hj, List.getElem?_append_right (by omega)]
      congr 1
      omega

theorem names_end (i : Nat) (xs : List α) :
    ∀ p ∈ names sep i xs, p.1 + p.2.length ≤ i + xs.length := by
  intro p hp
  obtain ⟨hle, hne, -, hat⟩ := names_at i xs p hp
  have hpos : 0 < p.2.length := List.length_pos_iff.mpr hne
  have h := hat (p.2.length - 1) (by omega)
  rw [List.getElem?_eq_getElem (l := p.2) (by omega)] at h
  have := (List.getElem?_eq_some_iff.mp h).1
  omega

/-- Names come in the order of their offsets, one behind the other. -/
theorem names_sorted (i : Nat) (xs : List α) :
    (names sep i xs).Pairwise fun p q => p.1 + p.2.length ≤ q.1 := by
  refine text_induction sep (P := fun i xs =>
    (names sep i xs).Pairwise fun p q => p.1 + p.2.length ≤ q.1) ?_ ?_ ?_ i xs
  · intro i
    exact List.Pairwise.nil
  · intro i t ih
    rw [names_sep]
    exact ih
  · intro i c t hc hsep hcut ih
    rw [names_name hc hsep hcut]
    exact List.pairwise_cons.mpr ⟨fun q hq => (names_at _ t q hq).1, ih⟩

end Names

/-- The last element with a property. -/
theorem exists_last {β : Type} {P : β → Prop} {l : List β}
    (h : ∃ x ∈ l, P x) : ∃ pre x post, l = pre ++ x :: post ∧ P x ∧ ∀ y ∈ post, ¬ P y := by
  induction l with
  | nil =>
      obtain ⟨x, hx, -⟩ := h
      cases hx
  | cons a l ih =>
      by_cases hl : ∃ x ∈ l, P x
      · obtain ⟨pre, x, post, rfl, hx, hpost⟩ := ih hl
        exact ⟨a :: pre, x, post, rfl, hx, hpost⟩
      · obtain ⟨x, hx, hp⟩ := h
        rcases List.mem_cons.mp hx with rfl | hx
        · exact ⟨[], x, l, rfl, hp, fun y hy hpy => hl ⟨y, hy, hpy⟩⟩
        · exact absurd ⟨x, hx, hp⟩ hl

/-! ## 3. Written out again -/

/-- The names, a separator before each. -/
def rendered (sep : α) (parts : List (List α)) : List α := parts.flatMap (sep :: ·)

section Rendered

variable {sep : α} {c : List α} {parts parts' : List (List α)}

omit [DecidableEq α] in
theorem rendered_append :
    rendered sep (parts ++ parts') = rendered sep parts ++ rendered sep parts' :=
  List.flatMap_append

omit [DecidableEq α] in
theorem rendered_snoc : rendered sep (parts ++ [c]) = rendered sep parts ++ sep :: c := by
  rw [rendered_append]
  simp [rendered]

theorem splitOn_rendered (h : ∀ c ∈ parts, sep ∉ c) :
    (rendered sep parts).splitOn sep = [] :: parts := by
  induction parts with
  | nil => exact List.splitOn_nil sep
  | cons c parts ih =>
      have ih := ih fun d hd => h d (List.mem_cons_of_mem c hd)
      have hc : sep ∉ c := h c List.mem_cons_self
      have he : rendered sep (c :: parts) = [] ++ sep :: (c ++ rendered sep parts) := rfl
      rw [he, List.splitOn_append_cons_self_of_not_mem List.not_mem_nil]
      cases parts with
      | nil =>
          rw [show rendered sep ([] : List (List α)) = [] from rfl, List.append_nil,
            List.splitOn_eq_singleton hc]
      | cons d parts =>
          rw [show rendered sep (d :: parts) = [] ++ sep :: (d ++ rendered sep parts) from rfl,
            List.splitOn_append_cons_self_of_not_mem List.not_mem_nil] at ih
          rw [show rendered sep (d :: parts) = sep :: (d ++ rendered sep parts) from rfl,
            List.splitOn_append_cons_self_of_not_mem hc, (List.cons.inj ih).2]

/-- **Names are read back as they were written.** -/
theorem rendered_inj (h : ∀ c ∈ parts, sep ∉ c) (h' : ∀ c ∈ parts', sep ∉ c)
    (he : rendered sep parts = rendered sep parts') : parts = parts' := by
  have hs := splitOn_rendered h
  rw [he, splitOn_rendered h'] at hs
  exact (List.cons.inj hs).2.symm

theorem splitOn_sep {t : List α} : (sep :: t).splitOn sep = [] :: t.splitOn sep := by
  rw [← List.nil_append (sep :: t), List.splitOn_append_cons_self_of_not_mem List.not_mem_nil]

/-- A name is a piece, and the pieces behind it are those of the rest. -/
theorem splitOn_name {t : List α} (hsep : sep ∉ c) (h : Cut sep t) :
    (c ++ t).splitOn sep = c :: (t.splitOn sep).tail := by
  rcases h with rfl | ⟨u, rfl⟩
  · rw [List.append_nil, List.splitOn_eq_singleton hsep, List.splitOn_nil]
    rfl
  · rw [List.splitOn_append_cons_self_of_not_mem hsep, splitOn_sep]
    rfl

/-- **The pieces behind a separator, written out again.** -/
theorem rendered_splitOn (t : List α) : rendered sep (t.splitOn sep) = sep :: t := by
  refine text_induction sep (P := fun _ t => rendered sep (t.splitOn sep) = sep :: t)
    (fun _ => ?_) (fun _ t ih => ?_) (fun _ c t hc hsep hcut ih => ?_) 0 t
  · rw [List.splitOn_nil]
    rfl
  · rw [splitOn_sep]
    exact congrArg (sep :: ·) ih
  · have hrest : rendered sep (t.splitOn sep).tail = t := by
      rcases hcut with rfl | ⟨u, rfl⟩
      · rw [List.splitOn_nil]
        rfl
      · rw [splitOn_sep] at ih ⊢
        exact (List.cons.inj ih).2
    rw [splitOn_name hsep hcut]
    show sep :: (c ++ rendered sep (t.splitOn sep).tail) = _
    rw [hrest]

/-- The first piece is empty where the text is cut. -/
theorem splitOn_cut {t : List α} : [] ∈ t.splitOn sep ↔ Cut sep t ∨ [] ∈ (t.splitOn sep).tail := by
  refine text_induction sep
    (P := fun _ t => [] ∈ t.splitOn sep ↔ Cut sep t ∨ [] ∈ (t.splitOn sep).tail)
    (fun _ => ?_) (fun _ t _ => ?_) (fun _ c t hc hsep hcut _ => ?_) 0 t
  · rw [List.splitOn_nil]
    exact ⟨fun _ => Or.inl (Or.inl rfl), fun _ => List.mem_cons_self⟩
  · rw [splitOn_sep]
    exact ⟨fun _ => Or.inl (Or.inr ⟨t, rfl⟩), fun _ => List.mem_cons_self⟩
  · rw [splitOn_name hsep hcut, List.mem_cons, List.tail_cons]
    refine or_congr_left ⟨fun h => absurd h.symm hc, fun h => ?_⟩
    rcases h with hnil | ⟨u, hu⟩
    · exact absurd (List.append_eq_nil_iff.mp hnil).1 hc
    · obtain ⟨x, d, rfl⟩ := List.exists_cons_of_ne_nil hc
      exact absurd ((List.cons.inj hu).1 ▸ List.mem_cons_self) hsep

omit [DecidableEq α] in
/-- A pair of separators lies behind a name. -/
theorem infix_name {t : List α} (hsep : sep ∉ c) : [sep, sep] <:+: c ++ t ↔ [sep, sep] <:+: t := by
  induction c with
  | nil => rfl
  | cons x c ih =>
      have hx : sep ≠ x := fun he => hsep (he ▸ List.mem_cons_self)
      rw [List.cons_append, List.infix_cons_iff, ih fun h => hsep (List.mem_cons_of_mem x h)]
      constructor
      · rintro (hpre | hin)
        · exact absurd (List.cons_prefix_cons.mp hpre).1 hx
        · exact hin
      · exact Or.inr

/-- **An empty piece behind the first** stands between two separators, or at the end. -/
theorem nil_mem_splitOn (xs : List α) : [] ∈ (xs.splitOn sep).tail ↔
    [sep, sep] <:+: xs ∨ xs.getLast? = some sep := by
  refine text_induction sep (P := fun _ xs => [] ∈ (xs.splitOn sep).tail ↔
    [sep, sep] <:+: xs ∨ xs.getLast? = some sep)
    (fun _ => ?_) (fun _ t ih => ?_) (fun _ c t hc hsep hcut ih => ?_) 0 xs
  · rw [List.splitOn_nil]
    simp
  · have hpair : [sep, sep] <:+: sep :: t ↔ (∃ u, t = sep :: u) ∨ [sep, sep] <:+: t := by
      rw [List.infix_cons_iff, List.cons_prefix_cons]
      refine or_congr_left ⟨?_, ?_⟩
      · rintro ⟨-, u, hu⟩
        exact ⟨u, hu.symm⟩
      · rintro ⟨u, hu⟩
        exact ⟨rfl, u, hu.symm⟩
    rw [splitOn_sep, List.tail_cons, splitOn_cut, ih, hpair]
    unfold Cut
    cases t with
    | nil => simp
    | cons x t =>
        rw [List.getLast?_cons_cons]
        simp [or_assoc]
  · rw [splitOn_name hsep hcut, List.tail_cons, ih, infix_name hsep]
    refine or_congr_right ?_
    cases t with
    | nil =>
        rw [List.append_nil]
        exact ⟨fun h => absurd h (by simp), fun h => absurd (List.mem_of_getLast? h) hsep⟩
    | cons x t =>
        obtain ⟨y, hy⟩ := Option.ne_none_iff_exists'.mp
          (fun h => List.cons_ne_nil x t (List.getLast?_eq_none_iff.mp h))
        rw [List.getLast?_append, hy]
        rfl

end Rendered

end Slightx.Lib
