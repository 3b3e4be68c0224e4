/-
  File:      Slightx/Lib/DList.lean
  Subject:   Doubly linked lists threaded through the nodes of a store.

  Every node carries two links, and nothing else says which list it is in: a node is a member of
  the list that reaches it. The list of the nodes is the view a proof works with:

  * `Strung` -- a stretch of nodes, between a node before it and a node behind it;
  * `DList` -- a whole list with its head and its tail;
  * `dlist_append`, `dlist_push`, `dlist_bypass` -- a node at the back, at the front, taken out;
  * `strung_bypass` -- a node taken out of a stretch, whatever is around it;
  * `bypass_apply`, `linkFront_apply` -- the links of every node after an edit;
  * `dlist_moved` -- a node that moved, its neighbours pointing to where it is now;
  * `turned`, `strung_turned` -- the links the other way round spell the nodes backwards;
  * `dlist_congr` -- the links of nodes outside the list do not matter;
  * `dlist_reaches` -- the nodes of the list are those a walk from its head passes;
  * `passed`, `passed_dlist` -- the walk itself, of a bounded length, passes them in order;
  * `Threads` -- the list of the nodes with a property: lists over one pair of links stay apart
    when one of them is edited
-/
import Mathlib.Logic.Function.Basic
import Mathlib.Data.List.Nodup
import Mathlib.Tactic.Tauto

namespace Slightx.Lib

structure Links (ι : Type) where
  prev : Option ι
  next : Option ι
deriving DecidableEq

/-- The nodes of `l` in order, `p` before the first of them and `q` behind the last. -/
def Strung {ι : Type} (node : ι → Links ι) : Option ι → List ι → Option ι → Prop
  | _, [], _ => True
  | p, a :: l, q => (node a).prev = p ∧ (node a).next = l.head?.or q ∧ Strung node (some a) l q

/-- **A list**: its ends, the links between them, and no node twice. -/
structure DList {ι : Type} (node : ι → Links ι) (head tail : Option ι) (l : List ι) : Prop where
  head : head = l.head?
  tail : tail = l.getLast?
  strung : Strung node none l none
  nodup : l.Nodup

/-- A walk along `next` passes `a`. -/
inductive Reaches {ι : Type} (node : ι → Links ι) (a : ι) : Option ι → Prop where
  | here : Reaches node a (some a)
  | on {b : ι} (h : Reaches node a (node b).next) : Reaches node a (some b)

/-- From `e` on, `next` passes the nodes of `l`; nothing is asked of their `prev`. -/
def Follows {ι : Type} (node : ι → Links ι) : Option ι → List ι → Prop
  | e, [] => e = none
  | e, a :: l => e = some a ∧ Follows node (node a).next l

section DList

variable {ι : Type} {node node' : ι → Links ι} {p q q' h t : Option ι} {a x : ι}
  {l l₁ l₂ : List ι}

/-! ## 1. Stretches -/

theorem strung_congr (hs : Strung node p l q) (hn : ∀ a ∈ l, node' a = node a) :
    Strung node' p l q := by
  induction l generalizing p with
  | nil => exact True.intro
  | cons a l ih =>
      obtain ⟨hp, hq, hl⟩ := hs
      have ha := hn a List.mem_cons_self
      exact ⟨ha ▸ hp, ha ▸ hq, ih hl fun b hb => hn b (List.mem_cons_of_mem _ hb)⟩

theorem strung_append :
    Strung node p (l₁ ++ l₂) q ↔
      Strung node p l₁ (l₂.head?.or q) ∧ Strung node (l₁.getLast?.or p) l₂ q := by
  induction l₁ generalizing p with
  | nil => simp [Strung]
  | cons a l₁ ih =>
      have hhead : (l₁ ++ l₂).head?.or q = l₁.head?.or (l₂.head?.or q) := by
        cases l₁ with
        | nil => rfl
        | cons b l₁ => rfl
      have hlast : (a :: l₁).getLast?.or p = l₁.getLast?.or (some a) := by
        cases hl : l₁.getLast? with
        | none =>
            rw [List.getLast?_eq_none_iff] at hl
            rw [hl]
            rfl
        | some b =>
            rw [List.getLast?_cons, hl]
            rfl
      rw [List.cons_append, Strung, Strung, hhead, ih, hlast]
      simp only [and_assoc]

theorem strung_follows (hs : Strung node p l none) : Follows node l.head? l := by
  induction l generalizing p with
  | nil => rfl
  | cons a l ih =>
      obtain ⟨_, hnext, hl⟩ := hs
      refine ⟨rfl, ?_⟩
      rw [hnext, Option.or_none]
      exact ih hl

/-- The links with `prev` and `next` exchanged. -/
def turned (node : ι → Links ι) : ι → Links ι := fun a => ⟨(node a).next, (node a).prev⟩

/-- **A stretch read from its other end.** -/
theorem strung_turned (hs : Strung node p l q) : Strung (turned node) q l.reverse p := by
  induction l generalizing p with
  | nil => exact True.intro
  | cons a l ih =>
      obtain ⟨hprev, hnext, hl⟩ := hs
      rw [List.reverse_cons]
      refine strung_append.mpr ⟨ih hl, ?_, hprev, True.intro⟩
      show (node a).next = l.reverse.getLast?.or q
      rw [List.getLast?_reverse]
      exact hnext

theorem follows_congr (hf : Follows node p l) (hn : ∀ a ∈ l, node' a = node a) :
    Follows node' p l := by
  induction l generalizing p with
  | nil => exact hf
  | cons a l ih =>
      obtain ⟨ha, hl⟩ := hf
      refine ⟨ha, ?_⟩
      rw [hn a List.mem_cons_self]
      exact ih hl fun b hb => hn b (List.mem_cons_of_mem _ hb)

section Edits

variable [DecidableEq ι]

theorem strung_update (hs : Strung node p l q) (hx : x ∉ l) (k : Links ι) :
    Strung (Function.update node x k) p l q := by
  refine strung_congr hs fun a ha => Function.update_of_ne ?_ _ _
  rintro rfl
  exact hx ha

/-- The link behind the last node. -/
theorem strung_setNext (hs : Strung node p (l ++ [a]) q) (ha : a ∉ l) :
    Strung (Function.update node a { node a with next := q' }) p (l ++ [a]) q' := by
  obtain ⟨hl, hprev, _, _⟩ := strung_append.mp hs
  refine strung_append.mpr ⟨strung_update hl ha _, ?_, ?_, True.intro⟩
  · rw [Function.update_self]
    exact hprev
  · rw [Function.update_self]
    rfl

/-- The link before the first node. -/
theorem strung_setPrev (hs : Strung node p (a :: l) q) (ha : a ∉ l) (p' : Option ι) :
    Strung (Function.update node a { node a with prev := p' }) p' (a :: l) q := by
  obtain ⟨_, hnext, hl⟩ := hs
  refine ⟨?_, ?_, strung_update hl ha _⟩
  · rw [Function.update_self]
  · rw [Function.update_self]
    exact hnext

end Edits

/-! ## 2. Lists -/

theorem dlist_nil : DList node none none [] :=
  ⟨rfl, rfl, True.intro, List.nodup_nil⟩

theorem dlist_congr (hd : DList node h t l) (hn : ∀ a ∈ l, node' a = node a) :
    DList node' h t l :=
  ⟨hd.head, hd.tail, strung_congr hd.strung hn, hd.nodup⟩

theorem dlist_update [DecidableEq ι] (hd : DList node h t l) (hx : x ∉ l) (k : Links ι) :
    DList (Function.update node x k) h t l :=
  ⟨hd.head, hd.tail, strung_update hd.strung hx k, hd.nodup⟩

/-- The neighbours of a member. -/
theorem dlist_at (hd : DList node h t (l₁ ++ x :: l₂)) :
    (node x).prev = l₁.getLast? ∧ (node x).next = l₂.head? := by
  obtain ⟨_, hprev, hnext, _⟩ := strung_append.mp hd.strung
  exact ⟨hprev.trans (by cases l₁.getLast? <;> rfl), hnext.trans (by cases l₂.head? <;> rfl)⟩

theorem dlist_next (hd : DList node h t (l₁ ++ x :: l₂)) : (node x).next = l₂.head? :=
  (dlist_at hd).2

theorem dlist_head_none (hd : DList node none t l) : l = [] :=
  List.head?_eq_none_iff.mp hd.head.symm

theorem dlist_head_some (hd : DList node (some a) t l) : ∃ k, l = a :: k := by
  have hh := hd.head
  cases l with
  | nil => cases hh
  | cons b k =>
      obtain rfl := Option.some.inj hh
      exact ⟨k, rfl⟩

theorem strung_reaches (hs : Strung node p l none) : Reaches node a l.head? ↔ a ∈ l := by
  induction l generalizing p with
  | nil =>
      refine ⟨fun hr => ?_, fun hm => absurd hm List.not_mem_nil⟩
      cases hr
  | cons b l ih =>
      obtain ⟨_, hnext, hl⟩ := hs
      have hn : (node b).next = l.head? := hnext.trans (by cases l.head? <;> rfl)
      constructor
      · intro hr
        cases hr with
        | here => exact List.mem_cons_self
        | on hr => exact List.mem_cons_of_mem _ ((ih hl).mp (hn ▸ hr))
      · intro hm
        rcases List.mem_cons.mp hm with rfl | hm
        · exact .here
        · refine .on ?_
          rw [hn]
          exact (ih hl).mpr hm

/-- **The members are the nodes reached from the head.** -/
theorem dlist_reaches (hd : DList node h t l) : Reaches node a h ↔ a ∈ l := by
  rw [hd.head]
  exact strung_reaches hd.strung

theorem reaches_next {b : ι} (hr : Reaches node a (some b)) (hne : a ≠ b) :
    Reaches node a (node b).next := by
  cases hr with
  | here => exact absurd rfl hne
  | on h => exact h

/-- A walk through nodes that stay as they are. -/
theorem reaches_congr {P : ι → Prop} (hr : Reaches node a p) (hp : ∀ b, p = some b → P b)
    (hP : ∀ b c, P b → (node b).next = some c → P c) (hn : ∀ b, P b → node' b = node b) :
    Reaches node' a p := by
  induction hr with
  | here => exact .here
  | @on b _ ih =>
      have hb := hp b rfl
      refine .on ?_
      rw [hn b hb]
      exact ih fun c hc => hP b c hb hc

/-- The nodes `for (a = e; a != NULL; a = a->next)` passes, at most `n` of them. -/
def passed (node : ι → Links ι) : Nat → Option ι → List ι
  | n + 1, some a => a :: passed node n (node a).next
  | _, _ => []

theorem passed_reaches {n : Nat} (ha : a ∈ passed node n p) : Reaches node a p := by
  induction n generalizing p with
  | zero => exact absurd ha List.not_mem_nil
  | succ n ih =>
      cases p with
      | none => exact absurd ha List.not_mem_nil
      | some b =>
          rcases List.mem_cons.mp ha with rfl | ha
          · exact .here
          · exact .on (ih ha)

theorem passed_follows {n : Nat} (hf : Follows node p l) (hn : l.length ≤ n) :
    passed node n p = l := by
  induction l generalizing p n with
  | nil =>
      rw [show p = none from hf]
      cases n <;> rfl
  | cons a l ih =>
      obtain ⟨ha, hl⟩ := hf
      cases n with
      | zero => exact absurd hn (Nat.not_succ_le_zero _)
      | succ n =>
          rw [ha, passed, ih hl (Nat.le_of_succ_le_succ hn)]

/-- **A walk passes the nodes of the list in order.** -/
theorem passed_dlist {n : Nat} (hd : DList node h t l) (hn : l.length ≤ n) :
    passed node n h = l := by
  rw [hd.head]
  exact passed_follows (strung_follows hd.strung) hn

/-! ## 3. Edits -/

section Edits

variable [DecidableEq ι]

/-- `x` behind the tail. -/
def linkBack (node : ι → Links ι) (tail : Option ι) (x : ι) : ι → Links ι :=
  let node := Function.update node x ⟨tail, none⟩
  match tail with
  | some t => Function.update node t { node t with next := some x }
  | none => node

/-- `x` before the head. -/
def linkFront (node : ι → Links ι) (head : Option ι) (x : ι) : ι → Links ι :=
  let node := Function.update node x ⟨none, head⟩
  match head with
  | some a => Function.update node a { node a with prev := some x }
  | none => node

/-- The neighbours of `x` linked to each other. -/
def bypass (node : ι → Links ι) (x : ι) : ι → Links ι :=
  let node₁ := match (node x).prev with
    | some p => Function.update node p { node p with next := (node x).next }
    | none => node
  match (node x).next with
  | some n => Function.update node₁ n { node₁ n with prev := (node x).prev }
  | none => node₁

/-- The node behind `p` is `a`, the node before `n` is `b`. -/
def patched (node : ι → Links ι) (p n a b : Option ι) : ι → Links ι :=
  let node₁ := match p with
    | some p => Function.update node p { node p with next := a }
    | none => node
  match n with
  | some n => Function.update node₁ n { node₁ n with prev := b }
  | none => node₁

theorem bypass_eq_patched : bypass node x =
    patched node (node x).prev (node x).next (node x).next (node x).prev := rfl

theorem linkBack_of_ne (ha : a ≠ x) (ht : t ≠ some a) : linkBack node t x a = node a := by
  cases t with
  | none => exact Function.update_of_ne ha _ _
  | some b =>
      have hb : a ≠ b := fun he => ht (he ▸ rfl)
      exact (Function.update_of_ne hb _ _).trans (Function.update_of_ne ha _ _)

theorem linkFront_of_ne (ha : a ≠ x) (hh : h ≠ some a) : linkFront node h x a = node a := by
  cases h with
  | none => exact Function.update_of_ne ha _ _
  | some b =>
      have hb : a ≠ b := fun he => hh (he ▸ rfl)
      exact (Function.update_of_ne hb _ _).trans (Function.update_of_ne ha _ _)

theorem bypass_of_ne (hp : (node x).prev ≠ some a) (hn : (node x).next ≠ some a) :
    bypass node x a = node a := by
  have hfirst : ∀ node₁ : ι → Links ι, node₁ a = node a →
      (match (node x).next with
        | some n => Function.update node₁ n { node₁ n with prev := (node x).prev }
        | none => node₁) a = node a := by
    intro node₁ h₁
    cases hx : (node x).next with
    | none => exact h₁
    | some n =>
        have hne : a ≠ n := fun he => hn (he ▸ hx)
        exact (Function.update_of_ne hne _ _).trans h₁
  refine hfirst _ ?_
  cases hx : (node x).prev with
  | none => rfl
  | some b =>
      have hne : a ≠ b := fun he => hp (he ▸ hx)
      exact Function.update_of_ne hne _ _

/-- Every node after a bypass. -/
theorem bypass_apply (node : ι → Links ι) (x a : ι) : bypass node x a =
    { prev := if (node x).next = some a then (node x).prev else (node a).prev
      next := if (node x).prev = some a then (node x).next else (node a).next } := by
  have hfirst : (match (node x).prev with
      | some p => Function.update node p { node p with next := (node x).next }
      | none => node) a =
        { node a with
          next := if (node x).prev = some a then (node x).next else (node a).next } := by
    cases hp : (node x).prev with
    | none => rw [if_neg (Option.some_ne_none a).symm]
    | some p =>
        by_cases ha : a = p
        · rw [ha, if_pos rfl]
          exact Function.update_self ..
        · rw [if_neg fun he => ha (Option.some.inj he).symm]
          exact Function.update_of_ne ha ..
  unfold bypass
  cases hn : (node x).next with
  | none =>
      rw [hn] at hfirst
      rw [if_neg (Option.some_ne_none a).symm]
      exact hfirst
  | some n =>
      rw [hn] at hfirst
      by_cases ha : a = n
      · subst ha
        rw [if_pos rfl]
        refine (Function.update_self ..).trans ?_
        rw [hfirst]
      · rw [if_neg fun he => ha (Option.some.inj he).symm]
        exact (Function.update_of_ne ha ..).trans hfirst

/-- Every node after a push. -/
theorem linkFront_apply (hx : h ≠ some x) (a : ι) : linkFront node h x a =
    if a = x then ⟨none, h⟩
    else { node a with prev := if h = some a then some x else (node a).prev } := by
  unfold linkFront
  cases h with
  | none =>
      split
      · rename_i ha
        rw [ha]
        exact Function.update_self ..
      · rename_i ha
        rw [if_neg (Option.some_ne_none a).symm]
        exact Function.update_of_ne ha ..
  | some b =>
      have hbx : b ≠ x := fun he => hx (he ▸ rfl)
      by_cases hab : a = b
      · rw [if_neg (hab ▸ hbx), if_pos (hab ▸ rfl), hab]
        refine (Function.update_self ..).trans ?_
        rw [Function.update_of_ne hbx]
      · rw [if_neg (c := some b = some a) fun he => hab (Option.some.inj he).symm]
        refine (Function.update_of_ne hab ..).trans ?_
        split
        · rename_i ha
          rw [ha]
          exact Function.update_self ..
        · rename_i ha
          exact Function.update_of_ne ha ..

/-- **A node at the back.** -/
theorem dlist_append (hd : DList node h t l) (hx : x ∉ l) :
    DList (linkBack node t x) (h.or (some x)) (some x) (l ++ [x]) := by
  have hnd : (l ++ [x]).Nodup := by
    rw [List.nodup_append]
    refine ⟨hd.nodup, List.nodup_singleton x, fun a ha b hb he => hx ?_⟩
    rw [List.mem_singleton] at hb
    exact hb ▸ he ▸ ha
  have hhead : h.or (some x) = (l ++ [x]).head? := by
    rw [hd.head, List.head?_append]
    rfl
  refine ⟨hhead, by rw [List.getLast?_append]; rfl, ?_, hnd⟩
  rcases List.eq_nil_or_concat l with rfl | ⟨k, b, rfl⟩
  · obtain rfl := hd.tail
    refine ⟨?_, ?_, True.intro⟩
    · exact congrArg Links.prev (Function.update_self x _ node)
    · exact congrArg Links.next (Function.update_self x _ node)
  · rw [List.concat_eq_append] at hx hd ⊢
    have ht : t = some b := hd.tail.trans (by rw [List.getLast?_append]; rfl)
    subst ht
    have hxb : x ≠ b := fun he => hx (he ▸ List.mem_append_right _ List.mem_cons_self)
    have hbk : b ∉ k := fun hb => (List.nodup_append.mp hd.nodup).2.2 b hb b List.mem_cons_self rfl
    have hrest : Strung (Function.update node x ⟨some b, none⟩) none (k ++ [b]) none :=
      strung_update hd.strung hx _
    refine strung_append.mpr ⟨strung_setNext hrest hbk, ?_, ?_, True.intro⟩
    · have hself : linkBack node (some b) x x = ⟨some b, none⟩ :=
        (Function.update_of_ne hxb _ _).trans (Function.update_self x _ node)
      rw [hself, List.getLast?_append]
      rfl
    · have hself : linkBack node (some b) x x = ⟨some b, none⟩ :=
        (Function.update_of_ne hxb _ _).trans (Function.update_self x _ node)
      rw [hself]
      rfl

/-- **A node at the front.** -/
theorem dlist_push (hd : DList node h t l) (hx : x ∉ l) :
    DList (linkFront node h x) (some x) (t.or (some x)) (x :: l) := by
  have htail : t.or (some x) = (x :: l).getLast? := by
    rw [hd.tail, List.getLast?_cons]
    cases l.getLast? <;> rfl
  refine ⟨rfl, htail, ?_, List.nodup_cons.mpr ⟨hx, hd.nodup⟩⟩
  cases l with
  | nil =>
      obtain rfl := hd.head
      refine ⟨?_, ?_, True.intro⟩
      · exact congrArg Links.prev (Function.update_self x _ node)
      · exact congrArg Links.next (Function.update_self x _ node)
  | cons b k =>
      obtain rfl : h = some b := hd.head
      have hxb : x ≠ b := fun he => hx (he ▸ List.mem_cons_self)
      have hself : linkFront node (some b) x x = ⟨none, some b⟩ :=
        (Function.update_of_ne hxb _ _).trans (Function.update_self x _ node)
      have hrest : Strung (Function.update node x ⟨none, some b⟩) none (b :: k) none :=
        strung_update hd.strung hx _
      refine ⟨by rw [hself], by rw [hself]; rfl, ?_⟩
      exact strung_setPrev hrest (List.nodup_cons.mp hd.nodup).1 _

/-- **A node out of a stretch**; the nodes around the stretch are none of it. -/
theorem strung_bypass (hs : Strung node p (l₁ ++ x :: l₂) q) (hnd : (l₁ ++ x :: l₂).Nodup)
    (hp : l₁ = [] → ∀ a, p = some a → a ∉ l₂) (hq : l₂ = [] → ∀ a, q = some a → a ∉ l₁) :
    Strung (bypass node x) p (l₁ ++ l₂) q := by
  obtain ⟨hs₁, hprev, hnext, hs₂⟩ := strung_append.mp hs
  have hnd' : (l₁ ++ l₂).Nodup := (List.nodup_cons.mp (List.nodup_middle.mp hnd)).2
  obtain ⟨hn₁, hn₂, hdis⟩ := List.nodup_append.mp hnd'
  -- the stretch before `x` gets a new end, the stretch behind it a new start
  have hone : Strung (match (node x).prev with
      | some p => Function.update node p { node p with next := (node x).next }
      | none => node) p l₁ (l₂.head?.or q) := by
    rw [hprev, hnext]
    rcases List.eq_nil_or_concat l₁ with rfl | ⟨k, b, rfl⟩
    · exact True.intro
    · rw [List.concat_eq_append] at hs₁ hn₁ ⊢
      have hbk : b ∉ k := fun hb =>
        (List.nodup_append.mp hn₁).2.2 b hb b List.mem_cons_self rfl
      rw [List.getLast?_append]
      exact strung_setNext hs₁ hbk
  have htwo : Strung (match (node x).prev with
      | some p => Function.update node p { node p with next := (node x).next }
      | none => node) (some x) l₂ q := by
    rw [hprev]
    cases hl : l₁.getLast?.or p with
    | none => exact hs₂
    | some b =>
        refine strung_update hs₂ (fun hb => ?_) _
        cases hlast : l₁.getLast? with
        | some a =>
            rw [hlast] at hl
            cases hl
            exact hdis b (List.mem_of_getLast? hlast) b hb rfl
        | none =>
            rw [hlast] at hl
            exact hp (List.getLast?_eq_none_iff.mp hlast) b hl hb
  refine strung_append.mpr ⟨?_, ?_⟩
  · unfold bypass
    rw [hnext] at hone ⊢
    cases hl : l₂.head?.or q with
    | none =>
        rw [hl] at hone
        exact hone
    | some b =>
        rw [hl] at hone
        refine strung_update hone (fun hb => ?_) _
        cases l₂ with
        | nil => exact hq rfl b hl hb
        | cons c m =>
            cases hl
            exact hdis b hb b List.mem_cons_self rfl
  · unfold bypass
    rw [hnext]
    cases l₂ with
    | nil => exact True.intro
    | cons b k =>
        have hset := strung_setPrev htwo (List.nodup_cons.mp hn₂).1 (node x).prev
        rw [hnext] at hset
        rw [hprev] at hset ⊢
        exact hset

/-- **A node out of the middle**, from either end inwards. -/
theorem dlist_bypass (hd : DList node h t (l₁ ++ x :: l₂)) :
    DList (bypass node x) (if (node x).prev = none then (node x).next else h)
      (if (node x).next = none then (node x).prev else t) (l₁ ++ l₂) := by
  obtain ⟨hprev, hnext⟩ := dlist_at hd
  have hnd : (l₁ ++ l₂).Nodup := (List.nodup_cons.mp (List.nodup_middle.mp hd.nodup)).2
  refine ⟨?_, ?_, strung_bypass hd.strung hd.nodup (fun _ a ha => by cases ha)
    (fun _ a ha => by cases ha), hnd⟩
  · rw [hprev, hnext, hd.head]
    cases l₁ with
    | nil => rfl
    | cons b k =>
        rw [if_neg (by rw [List.getLast?_eq_none_iff]; exact List.cons_ne_nil _ _)]
        rfl
  · rw [hprev, hnext, hd.tail]
    cases l₂ with
    | nil =>
        rw [List.append_nil]
        rfl
    | cons b k =>
        rw [if_neg (by simp), List.getLast?_append, List.getLast?_append, List.getLast?_cons_cons]

/-- The walk behind a node that is taken out. -/
theorem patched_of_ne {n b c : Option ι} (hp : p ≠ some x) (hn : n ≠ some x) :
    patched node p n b c x = node x := by
  have hfirst : ∀ node₁ : ι → Links ι, node₁ x = node x →
      (match n with
        | some n => Function.update node₁ n { node₁ n with prev := c }
        | none => node₁) x = node x := by
    intro node₁ h₁
    cases n with
    | none => exact h₁
    | some n => exact (Function.update_of_ne (fun he => hn (congrArg some he.symm)) _ _).trans h₁
  refine hfirst _ ?_
  cases p with
  | none => rfl
  | some p => exact Function.update_of_ne (fun he => hp (congrArg some he.symm)) _ _

/-- New links between the end of one stretch and the start of another. -/
theorem strung_patched {p₂ q₁ b c : Option ι} (hs₁ : Strung node p l₁ q₁)
    (hs₂ : Strung node p₂ l₂ q) (hnd : (l₁ ++ l₂).Nodup) :
    Strung (patched node l₁.getLast? l₂.head? b c) p l₁ b ∧
      Strung (patched node l₁.getLast? l₂.head? b c) c l₂ q := by
  obtain ⟨hn₁, hn₂, hdis⟩ := List.nodup_append.mp hnd
  have hone : Strung (match l₁.getLast? with
      | some d => Function.update node d { node d with next := b }
      | none => node) p l₁ b ∧
      Strung (match l₁.getLast? with
        | some d => Function.update node d { node d with next := b }
        | none => node) p₂ l₂ q := by
    rcases List.eq_nil_or_concat l₁ with rfl | ⟨l, d, rfl⟩
    · exact ⟨True.intro, hs₂⟩
    · rw [List.concat_eq_append] at *
      rw [List.getLast?_append_of_ne_nil _ (List.cons_ne_nil _ _)]
      have hd : d ∉ l := fun hm => (List.nodup_append.mp hn₁).2.2 d hm d List.mem_cons_self rfl
      have hd₂ : d ∉ l₂ := fun hm =>
        hdis d (List.mem_append_right _ List.mem_cons_self) d hm rfl
      exact ⟨strung_setNext hs₁ hd, strung_update hs₂ hd₂ _⟩
  cases l₂ with
  | nil => exact ⟨hone.1, True.intro⟩
  | cons n l =>
      have hn : n ∉ l₁ := fun hm => hdis n hm n List.mem_cons_self rfl
      exact ⟨strung_update hone.1 hn _, strung_setPrev hone.2 (List.nodup_cons.mp hn₂).1 c⟩

/-- **A node that moved**: `y` has the links of `x`, and its neighbours point to `y`. -/
theorem dlist_moved {y : ι} (hd : DList node h t (l₁ ++ x :: l₂)) (hy : y ∉ l₁ ++ l₂) :
    DList (patched (Function.update node y (node x)) (node x).prev (node x).next (some y) (some y))
      (if (node x).prev = none then some y else h) (if (node x).next = none then some y else t)
      (l₁ ++ y :: l₂) := by
  obtain ⟨hprev, hnext⟩ := dlist_at hd
  obtain ⟨hs₁, -, -, hs₂⟩ := strung_append.mp hd.strung
  have hnd : (l₁ ++ l₂).Nodup := (List.nodup_cons.mp (List.nodup_middle.mp hd.nodup)).2
  have hy₁ : y ∉ l₁ := fun hm => hy (List.mem_append_left _ hm)
  have hy₂ : y ∉ l₂ := fun hm => hy (List.mem_append_right _ hm)
  rw [hprev, hnext]
  obtain ⟨ht₁, ht₂⟩ := strung_patched (b := some y) (c := some y)
    (strung_update hs₁ hy₁ (node x)) (strung_update hs₂ hy₂ (node x)) hnd
  have hself : patched (Function.update node y (node x)) l₁.getLast? l₂.head? (some y) (some y) y
      = node x := by
    rw [patched_of_ne (fun he => hy₁ (List.mem_of_getLast? he))
      (fun he => hy₂ (List.mem_of_head? he)), Function.update_self]
  refine ⟨?_, ?_, strung_append.mpr ⟨ht₁, ?_, ?_, ht₂⟩,
    List.nodup_middle.mpr (List.nodup_cons.mpr ⟨hy, hnd⟩)⟩
  · rw [hd.head]
    cases l₁ <;> rfl
  · rw [hd.tail]
    cases l₂ with
    | nil =>
        rw [if_pos List.head?_nil, List.getLast?_append_of_ne_nil _ (List.cons_ne_nil _ _)]
        rfl
    | cons b l =>
        rw [if_neg (by simp), List.getLast?_append_of_ne_nil _ (List.cons_ne_nil _ _),
          List.getLast?_append_of_ne_nil _ (List.cons_ne_nil _ _), List.getLast?_cons_cons,
          List.getLast?_cons_cons]
  · rw [hself, hprev]
    cases l₁.getLast? <;> rfl
  · rw [hself, hnext]
    cases l₂.head? <;> rfl

theorem reaches_bypass (hd : DList node h t (l₁ ++ x :: l₂)) (ha : Reaches node a (node x).next) :
    Reaches (bypass node x) a (node x).next := by
  obtain ⟨_, _, _, hs⟩ := strung_append.mp hd.strung
  obtain ⟨_, hs'⟩ := strung_append.mp (dlist_bypass hd).strung
  rw [dlist_next hd] at ha ⊢
  exact (strung_reaches hs').mpr ((strung_reaches hs).mp ha)

theorem bypass_of_notMem (hd : DList node h t (l₁ ++ x :: l₂)) (ha : a ∉ l₁ ++ l₂) :
    bypass node x a = node a := by
  obtain ⟨hprev, hnext⟩ := dlist_at hd
  refine bypass_of_ne (fun he => ha ?_) (fun he => ha ?_)
  · exact List.mem_append_left _ (List.mem_of_getLast? (hprev ▸ he))
  · exact List.mem_append_right _ (List.mem_of_head? (hnext ▸ he))

theorem linkBack_of_notMem (hd : DList node h t l) (ha : a ∉ l) (hx : a ≠ x) :
    linkBack node t x a = node a := by
  refine linkBack_of_ne hx fun he => ha ?_
  exact List.mem_of_getLast? (hd.tail ▸ he)

end Edits

end DList

/-! ## 4. Lists over one pair of links -/

/-- The list of the `k` nodes with `P`. -/
def Threads {ι : Type} (node : ι → Links ι) (head tail : Option ι) (P : ι → Prop) (k : Nat) :
    Prop :=
  ∃ l, DList node head tail l ∧ l.length = k ∧ ∀ a, a ∈ l ↔ P a

section Threads

variable {ι : Type} {node node' : ι → Links ι} {h t h' t' : Option ι} {a x : ι}
  {P P' : ι → Prop} {k k' : Nat}

theorem threads_congr (ht : Threads node h t P k) (hn : ∀ a, P a → node' a = node a)
    (hP : ∀ a, P' a ↔ P a) : Threads node' h t P' k := by
  obtain ⟨l, hd, hk, hl⟩ := ht
  refine ⟨l, dlist_congr hd fun a ha => hn a ((hl a).mp ha), hk, fun a => ?_⟩
  exact (hl a).trans (hP a).symm

theorem threads_nil (hP : ∀ a, ¬ P a) : Threads node none none P 0 :=
  ⟨[], dlist_nil, rfl, fun a => ⟨fun ha => absurd ha List.not_mem_nil, fun ha => absurd ha (hP a)⟩⟩

theorem threads_reaches (ht : Threads node h t P k) : Reaches node a h ↔ P a := by
  obtain ⟨l, hd, _, hl⟩ := ht
  exact (dlist_reaches hd).trans (hl a)

theorem threads_head (ht : Threads node (some a) t P k) : P a :=
  (threads_reaches ht).mp .here

theorem threads_next (ht : Threads node h t P k) (hx : P x) (ha : (node x).next = some a) :
    P a ∧ a ≠ x := by
  obtain ⟨l, hd, _, hl⟩ := ht
  obtain ⟨l₁, l₂, rfl⟩ := List.append_of_mem ((hl x).mpr hx)
  rw [dlist_next hd] at ha
  have hmem := List.mem_of_head? ha
  refine ⟨(hl a).mp (List.mem_append_right _ (List.mem_cons_of_mem _ hmem)), ?_⟩
  rintro rfl
  exact (List.nodup_cons.mp (List.nodup_append.mp hd.nodup).2.1).1 hmem

theorem threads_prev (ht : Threads node h t P k) (hx : P x) (ha : (node x).prev = some a) :
    P a := by
  obtain ⟨l, hd, _, hl⟩ := ht
  obtain ⟨l₁, l₂, rfl⟩ := List.append_of_mem ((hl x).mpr hx)
  rw [(dlist_at hd).1] at ha
  exact (hl a).mp (List.mem_append_left _ (List.mem_of_getLast? ha))

theorem threads_tail (ht : Threads node h t P k) (ha : t = some a) : P a := by
  obtain ⟨l, hd, _, hl⟩ := ht
  exact (hl a).mp (List.mem_of_getLast? (hd.tail.symm.trans ha))

/-- The walk over all of them. -/
theorem threads_follows (ht : Threads node h t P k) :
    ∃ l : List ι, l.Nodup ∧ (∀ a, a ∈ l ↔ P a) ∧ Follows node h l := by
  obtain ⟨l, hd, _, hl⟩ := ht
  refine ⟨l, hd.nodup, hl, ?_⟩
  rw [hd.head]
  exact strung_follows hd.strung

variable [DecidableEq ι]

theorem threads_update (ht : Threads node h t P k) (hx : ¬ P x) (m : Links ι) :
    Threads (Function.update node x m) h t P k := by
  refine threads_congr ht (fun a ha => Function.update_of_ne ?_ _ _) fun a => Iff.rfl
  rintro rfl
  exact hx ha

theorem threads_append (ht : Threads node h t P k) (hx : ¬ P x) :
    Threads (linkBack node t x) (h.or (some x)) (some x) (fun a => P a ∨ a = x) (k + 1) := by
  obtain ⟨l, hd, hk, hl⟩ := ht
  refine ⟨l ++ [x], dlist_append hd (fun hm => hx ((hl x).mp hm)), ?_, fun a => ?_⟩
  · rw [List.length_append, hk]
    rfl
  · rw [List.mem_append, List.mem_singleton, hl a]

/-- An append to one list leaves the others as they are. -/
theorem threads_append_off (ht : Threads node h t P k) (ho : Threads node h' t' P' k')
    (hdis : ∀ a, P' a → ¬ P a) (hx : ¬ P' x) : Threads (linkBack node t x) h' t' P' k' := by
  obtain ⟨l, hd, _, hl⟩ := ht
  refine threads_congr ho (fun a ha => ?_) fun a => Iff.rfl
  refine linkBack_of_notMem hd (fun hm => hdis a ha ((hl a).mp hm)) ?_
  rintro rfl
  exact hx ha

theorem threads_bypass (ht : Threads node h t P k) (hx : P x) :
    Threads (bypass node x) (if (node x).prev = none then (node x).next else h)
      (if (node x).next = none then (node x).prev else t) (fun a => P a ∧ a ≠ x) (k - 1) := by
  obtain ⟨l, hd, hk, hl⟩ := ht
  obtain ⟨l₁, l₂, rfl⟩ := List.append_of_mem ((hl x).mpr hx)
  have hmid := (List.nodup_cons.mp (List.nodup_middle.mp hd.nodup)).1
  refine ⟨l₁ ++ l₂, dlist_bypass hd, ?_, fun a => ?_⟩
  · rw [List.length_append, List.length_cons] at hk
    rw [List.length_append]
    omega
  · show a ∈ l₁ ++ l₂ ↔ P a ∧ a ≠ x
    rw [← hl a, List.mem_append, List.mem_append, List.mem_cons]
    constructor
    · intro ha
      refine ⟨by tauto, ?_⟩
      rintro rfl
      exact hmid (List.mem_append.mpr ha)
    · rintro ⟨ha, hne⟩
      tauto

theorem threads_bypass_off (ht : Threads node h t P k) (hx : P x) (ho : Threads node h' t' P' k')
    (hdis : ∀ a, P' a → ¬ P a) : Threads (bypass node x) h' t' P' k' := by
  obtain ⟨l, hd, _, hl⟩ := ht
  obtain ⟨l₁, l₂, rfl⟩ := List.append_of_mem ((hl x).mpr hx)
  refine threads_congr ho (fun a ha => ?_) fun a => Iff.rfl
  refine bypass_of_notMem hd fun hm => hdis a ha ((hl a).mp ?_)
  rw [List.mem_append] at hm
  rw [List.mem_append, List.mem_cons]
  tauto

/-- The links of a node taken out may be anything. -/
theorem threads_take (ht : Threads node h t P k) (hx : P x) (m : Links ι) :
    Threads (Function.update (bypass node x) x m)
      (if (node x).prev = none then (node x).next else h)
      (if (node x).next = none then (node x).prev else t) (fun a => P a ∧ a ≠ x) (k - 1) :=
  threads_update (threads_bypass ht hx) (fun hn => hn.2 rfl) m

end Threads

end Slightx.Lib
