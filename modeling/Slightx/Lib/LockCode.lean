/-
  File:      Slightx/Lib/LockCode.lean
  Subject:   Spinlocks, an interrupt flag, and a handler that takes spinlocks too.

  A spinlock does not look at the interrupt flag. A handler that waits for a lock of the code it
  interrupted waits forever, for that code does not go on before the handler is done. What code does
  to locks and to the flag is its `LockCode`: branches and loops without their conditions, and
  nothing of the data.

  * `lockStep` -- processors run such code and switch between contexts, each at its own pace; the
    handler comes when the flag is set, and runs on top of the code;
  * `Guarded` -- locks of the handler are taken with the flag cleared, and the flag is not set while
    one is held; **`run_guarded`** -- then the handler never meets a lock of the code beneath it,
    and **`not_guarded`** -- the first step that breaks the rule lets it meet one;
  * `LockCode.check` -- the rule, read off the code; **`checked_guarded`** -- processors that enter
    only checked code follow it in every run
-/
import Mathlib.Logic.Function.Basic
import Mathlib.Data.List.Nodup
import Slightx.Lib.Machine

namespace Slightx.Lib

open Function

/-! ## 1. Code -/

inductive LockCode (L : Type) where
  | skip
  /-- the interrupt flag is cleared, and set -/
  | cli
  | sti
  | acquire (l : L)
  | release (l : L)
  /-- the processor goes on with another context -/
  | swap
  | seq (p q : LockCode L)
  | alt (p q : LockCode L)
  | loop (p : LockCode L)

namespace LockCode

variable {L : Type}

/-- One after the other. -/
def all : List (LockCode L) → LockCode L
  | [] => skip
  | p :: ps => seq p (all ps)

/-- One of them. -/
def oneOf : List (LockCode L) → LockCode L
  | [] => skip
  | p :: ps => alt p (oneOf ps)

/-- `p`, or not. -/
def maybe (p : LockCode L) : LockCode L := alt p skip

/-- `p` under a lock. -/
def under (l : L) (p : LockCode L) : LockCode L := all [acquire l, p, release l]

/-- The locks the code takes. -/
def takes : LockCode L → List L
  | acquire l => [l]
  | seq p q => p.takes ++ q.takes
  | alt p q => p.takes ++ q.takes
  | loop p => p.takes
  | _ => []

theorem takes_oneOf {l : L} {ps : List (LockCode L)} (hl : l ∈ (oneOf ps).takes) :
    ∃ p ∈ ps, l ∈ p.takes := by
  induction ps with
  | nil => cases hl
  | cons p ps ih =>
      rcases List.mem_append.mp hl with hl | hl
      · exact ⟨p, List.mem_cons_self, hl⟩
      · obtain ⟨q, hq, hl⟩ := ih hl
        exact ⟨q, List.mem_cons_of_mem _ hq, hl⟩

end LockCode

/-! ## 2. Processors -/

/-- One step of code that does nothing to locks or the flag. -/
def unfoldCode {L : Type} (choice : Bool) : List (LockCode L) → Option (List (LockCode L))
  | .skip :: k => some k
  | .seq p q :: k => some (p :: q :: k)
  | .alt p q :: k => some ((if choice then p else q) :: k)
  | .loop p :: k => some (if choice then p :: .loop p :: k else k)
  | _ => none

/-- The code each processor can enter, and its handler. -/
structure LockKernel (n : Nat) (ε L : Type) where
  entry : Fin n → ε → LockCode L
  tick : Fin n → LockCode L

structure LockSys (n : Nat) (L : Type) where
  /-- what is left of the code of the current context; `[]` is outside of the kernel -/
  code : Fin n → List (LockCode L)
  interrupts : Fin n → Bool
  /-- the other contexts, with their flags -/
  parked : Fin n → List (List (LockCode L) × Bool)
  /-- what is left of the handler -/
  tick : Fin n → Option (List (LockCode L))
  /-- the processor that has the lock, and whether its handler has it -/
  owner : L → Option (Fin n × Bool)

inductive LockEvent (n : Nat) (ε : Type) where
  /-- the kernel is entered through a gate that clears the flag -/
  | enter (c : Fin n) (e : ε)
  | run (c : Fin n) (choice : Bool)
  /-- the `j`-th of the parked contexts goes on, or a new one -/
  | swap (c : Fin n) (j : Nat)
  | tick (c : Fin n)
  | tock (c : Fin n) (choice : Bool)

section Steps

variable {n : Nat} {ε L : Type} [DecidableEq L]

/-- A step of the code on `c`. -/
def runCode (s : LockSys n L) (c : Fin n) (choice : Bool) : Option (LockSys n L) :=
  match s.code c with
  | .cli :: k =>
      some { s with code := update s.code c k, interrupts := update s.interrupts c false }
  | .sti :: k =>
      some { s with code := update s.code c k, interrupts := update s.interrupts c true }
  | .acquire l :: k =>
      if s.owner l = none then
        some { s with code := update s.code c k, owner := update s.owner l (some (c, false)) }
      else none
  | .release l :: k =>
      some { s with code := update s.code c k, owner := update s.owner l none }
  | k => (unfoldCode choice k).map fun k => { s with code := update s.code c k }

/-- A step of the handler on `c`; it leaves the flag alone. -/
def tickCode (s : LockSys n L) (c : Fin n) (choice : Bool) : Option (LockSys n L) :=
  match s.tick c with
  | none => none
  | some [] => some { s with tick := update s.tick c none }
  | some (.acquire l :: k) =>
      if s.owner l = none then
        some { s with tick := update s.tick c (some k), owner := update s.owner l (some (c, true)) }
      else none
  | some (.release l :: k) =>
      some { s with tick := update s.tick c (some k), owner := update s.owner l none }
  | some k => (unfoldCode choice k).map fun k => { s with tick := update s.tick c (some k) }

/-- The context that goes on, and the ones that stay. -/
def resume (parked : List (List (LockCode L) × Bool)) (j : Nat) :
    (List (LockCode L) × Bool) × List (List (LockCode L) × Bool) :=
  match parked[j]? with
  | some x => (x, parked.eraseIdx j)
  | none => (([], true), parked)

def lockStep (kernel : LockKernel n ε L) (s : LockSys n L) : LockEvent n ε → Option (LockSys n L)
  | .enter c e =>
      match s.tick c, s.code c with
      | none, [] =>
          some { s with
            code := update s.code c [kernel.entry c e]
            interrupts := update s.interrupts c false }
      | _, _ => none
  | .run c choice =>
      match s.tick c with
      | none => runCode s c choice
      | some _ => none
  | .swap c j =>
      match s.tick c, s.code c with
      | none, .swap :: k =>
          let r := resume (s.parked c) j
          some { s with
            code := update s.code c r.1.1
            interrupts := update s.interrupts c r.1.2
            parked := update s.parked c (r.2 ++ [(k, s.interrupts c)]) }
      | _, _ => none
  | .tick c =>
      match s.tick c, s.interrupts c with
      | none, true => some { s with tick := update s.tick c (some [kernel.tick c]) }
      | _, _ => none
  | .tock c choice => tickCode s c choice

/-- A lock of the handler that the code beneath it has. -/
def LockSys.Meets (s : LockSys n L) (kernel : LockKernel n ε L) (c : Fin n) (l : L) : Prop :=
  l ∈ (kernel.tick c).takes ∧ s.owner l = some (c, false)

/-- The handler waits for the code beneath it. -/
def LockSys.Stuck (s : LockSys n L) (c : Fin n) : Prop :=
  ∃ l k, s.tick c = some (.acquire l :: k) ∧ s.owner l = some (c, false)

/-- **The rule.** -/
def Guarded (kernel : LockKernel n ε L) (s : LockSys n L) : LockEvent n ε → Prop
  | .run c _ =>
      match s.code c with
      | .acquire l :: _ => l ∈ (kernel.tick c).takes → s.interrupts c = false
      | .sti :: _ => ∀ l, ¬ s.Meets kernel c l
      | _ => True
  | .swap c j => (resume (s.parked c) j).1.2 = true → ∀ l, ¬ s.Meets kernel c l
  | _ => True

end Steps

/-! ## 3. The rule keeps the handler apart -/

section Rule

variable {n : Nat} {ε L : Type} [DecidableEq L] {kernel : LockKernel n ε L} {s s' : LockSys n L}
  {c d : Fin n} {l : L}

/-- What the rule keeps on a processor. -/
structure GuardInv (kernel : LockKernel n ε L) (s : LockSys n L) (c : Fin n) : Prop where
  clear : s.interrupts c = true → ∀ l, ¬ s.Meets kernel c l
  taken : s.tick c ≠ none → s.interrupts c = true
  within : ∀ k, s.tick c = some k → ∀ p ∈ k, p.takes ⊆ (kernel.tick c).takes

omit [DecidableEq L] in
theorem unfoldCode_takes {choice : Bool} {k k' : List (LockCode L)} {T : List L}
    (hs : unfoldCode choice k = some k') (hk : ∀ p ∈ k, p.takes ⊆ T) : ∀ p ∈ k', p.takes ⊆ T := by
  unfold unfoldCode at hs
  split at hs
  · obtain rfl := Option.some.inj hs
    exact fun p hp => hk p (List.mem_cons_of_mem _ hp)
  · rename_i a b k
    obtain rfl := Option.some.inj hs
    have hab : a.takes ⊆ T ∧ b.takes ⊆ T := List.append_subset.mp (hk _ List.mem_cons_self)
    simp only [List.forall_mem_cons] at hk ⊢
    exact ⟨hab.1, hab.2, hk.2⟩
  · rename_i a b k
    obtain rfl := Option.some.inj hs
    have hab : a.takes ⊆ T ∧ b.takes ⊆ T := List.append_subset.mp (hk _ List.mem_cons_self)
    simp only [List.forall_mem_cons] at hk ⊢
    refine ⟨?_, hk.2⟩
    split
    · exact hab.1
    · exact hab.2
  · rename_i a k
    obtain rfl := Option.some.inj hs
    simp only [List.forall_mem_cons] at hk
    split
    · simp only [List.forall_mem_cons]
      exact ⟨hk.1, hk.1, hk.2⟩
    · exact hk.2
  · cases hs

omit [DecidableEq L] in
/-- A step that gives no lock to the code on `d` makes no new meeting there. -/
theorem meets_of (howner : ∀ l, s'.owner l = some (d, false) → s.owner l = some (d, false))
    (h : s'.Meets kernel d l) : s.Meets kernel d l :=
  ⟨h.1, howner l h.2⟩

omit [DecidableEq L] in
/-- The other processors. -/
theorem guardInv_other (h : GuardInv kernel s d) (hint : s'.interrupts d = s.interrupts d)
    (htick : s'.tick d = s.tick d)
    (howner : ∀ l, s'.owner l = some (d, false) → s.owner l = some (d, false)) :
    GuardInv kernel s' d where
  clear := fun hi l hm => h.clear (hint ▸ hi) l (meets_of howner hm)
  taken := fun ht => hint ▸ h.taken (htick ▸ ht)
  within := fun k hk => h.within k (htick ▸ hk)

omit [DecidableEq L] in
/-- The processor that moves, outside of its handler. -/
theorem guardInv_own (htick : s'.tick c = none)
    (hclear : s'.interrupts c = true → ∀ l, ¬ s'.Meets kernel c l) : GuardInv kernel s' c where
  clear := hclear
  taken := fun ht => absurd htick ht
  within := fun k hk => by
    rw [htick] at hk
    cases hk

/-- An update of the owner of one lock, to none or to somebody else. -/
theorem owner_update {v : Option (Fin n × Bool)} (hv : v ≠ some (d, false)) (m : L)
    (h : update s.owner l v m = some (d, false)) : s.owner m = some (d, false) := by
  by_cases hm : m = l
  · subst hm
    rw [update_self] at h
    exact absurd h hv
  · rwa [update_of_ne hm] at h

theorem inv_runCode (h : ∀ d, GuardInv kernel s d) (htick : s.tick c = none) {choice : Bool}
    (hg : Guarded kernel s (.run c choice)) (hs : runCode s c choice = some s') (d : Fin n) :
    GuardInv kernel s' d := by
  unfold runCode at hs
  unfold Guarded at hg
  split at hs
  · rename_i k hk
    obtain rfl := Option.some.inj hs
    by_cases hd : d = c
    · subst hd
      refine guardInv_own htick fun hi => ?_
      cases (update_self d false s.interrupts).symm.trans hi
    · exact guardInv_other (h d) (update_of_ne hd _ _) rfl fun _ => id
  · rename_i k hk
    obtain rfl := Option.some.inj hs
    by_cases hd : d = c
    · subst hd
      dsimp only at hg
      rw [hk] at hg
      exact guardInv_own htick fun _ => hg
    · exact guardInv_other (h d) (update_of_ne hd _ _) rfl fun _ => id
  · rename_i l k hk
    dsimp only at hg
    rw [hk] at hg
    split at hs
    · obtain rfl := Option.some.inj hs
      by_cases hd : d = c
      · subst hd
        refine guardInv_own htick fun hi m hm => ?_
        by_cases hml : m = l
        · have hoff := hg (hml ▸ hm.1)
          rw [show s.interrupts d = true from hi] at hoff
          cases hoff
        · refine (h d).clear hi m ⟨hm.1, ?_⟩
          exact (update_of_ne hml _ _).symm.trans hm.2
      · refine guardInv_other (h d) rfl rfl (owner_update ?_)
        simpa using Ne.symm hd
    · cases hs
  · rename_i l k hk
    obtain rfl := Option.some.inj hs
    by_cases hd : d = c
    · subst hd
      exact guardInv_own htick fun hi m hm =>
        (h d).clear hi m (meets_of (owner_update (by simp)) hm)
    · exact guardInv_other (h d) rfl rfl (owner_update (by simp))
  · obtain ⟨k, _, rfl⟩ := Option.map_eq_some_iff.mp hs
    exact guardInv_other (h d) rfl rfl fun _ => id

theorem inv_tickCode (h : ∀ d, GuardInv kernel s d) {choice : Bool}
    (hs : tickCode s c choice = some s') (d : Fin n) : GuardInv kernel s' d := by
  have hmove : ∀ (k k' : List (LockCode L)) (owner : L → Option (Fin n × Bool)),
      s.tick c = some k → (∀ p ∈ k', p.takes ⊆ (kernel.tick c).takes) →
      (∀ m, owner m = some (d, false) → s.owner m = some (d, false)) →
      GuardInv kernel { s with tick := update s.tick c (some k'), owner } d := by
    intro k k' owner hk hk' howner
    by_cases hd : d = c
    · subst hd
      refine
        { clear := fun hi m hm => (h d).clear hi m (meets_of howner hm)
          taken := fun _ => (h d).taken (by rw [hk]; simp)
          within := fun j hj => ?_ }
      obtain rfl := Option.some.inj ((update_self d (some k') s.tick).symm.trans hj)
      exact hk'
    · exact guardInv_other (h d) rfl (update_of_ne hd _ _) howner
  unfold tickCode at hs
  split at hs
  · cases hs
  · obtain rfl := Option.some.inj hs
    by_cases hd : d = c
    · subst hd
      exact guardInv_own (update_self _ _ _) (h d).clear
    · exact guardInv_other (h d) rfl (update_of_ne hd _ _) fun _ => id
  · rename_i l k hk
    split at hs
    · obtain rfl := Option.some.inj hs
      exact hmove _ k _ hk (fun p hp => (h c).within _ hk p (List.mem_cons_of_mem _ hp))
        (owner_update (by simp))
    · cases hs
  · rename_i l k hk
    obtain rfl := Option.some.inj hs
    exact hmove _ k _ hk (fun p hp => (h c).within _ hk p (List.mem_cons_of_mem _ hp))
      (owner_update (by simp))
  · rename_i k _ _ _ hk
    obtain ⟨k', hk', rfl⟩ := Option.map_eq_some_iff.mp hs
    exact hmove k k' s.owner hk (unfoldCode_takes hk' ((h c).within k hk)) fun _ => id

/-- **A step under the rule.** -/
theorem inv_guarded (h : ∀ d, GuardInv kernel s d) {e : LockEvent n ε} (hg : Guarded kernel s e)
    (hs : lockStep kernel s e = some s') (d : Fin n) : GuardInv kernel s' d := by
  cases e with
  | enter c e =>
      simp only [lockStep] at hs
      split at hs
      · rename_i htick hcode
        obtain rfl := Option.some.inj hs
        by_cases hd : d = c
        · subst hd
          refine guardInv_own htick fun hi => ?_
          cases (update_self d false s.interrupts).symm.trans hi
        · exact guardInv_other (h d) (update_of_ne hd _ _) rfl fun _ => id
      · cases hs
  | run c choice =>
      simp only [lockStep] at hs
      split at hs
      · rename_i htick
        exact inv_runCode h htick hg hs d
      · cases hs
  | swap c j =>
      simp only [lockStep] at hs
      split at hs
      · rename_i htick hcode
        obtain rfl := Option.some.inj hs
        by_cases hd : d = c
        · subst hd
          refine guardInv_own htick fun hi => ?_
          exact hg ((update_self d _ s.interrupts).symm.trans hi)
        · exact guardInv_other (h d) (update_of_ne hd _ _) rfl fun _ => id
      · cases hs
  | tick c =>
      simp only [lockStep] at hs
      split at hs
      · rename_i htick hint
        obtain rfl := Option.some.inj hs
        by_cases hd : d = c
        · subst hd
          refine { clear := (h d).clear, taken := fun _ => hint, within := fun k hk => ?_ }
          obtain rfl := Option.some.inj ((update_self d _ s.tick).symm.trans hk)
          exact fun p hp => List.mem_singleton.mp hp ▸ fun _ => id
        · exact guardInv_other (h d) rfl (update_of_ne hd _ _) fun _ => id
      · cases hs
  | tock c choice => exact inv_tickCode h hs d

/-- Nobody has a lock, and no handler runs. -/
structure LockReady (s : LockSys n L) : Prop where
  owner : ∀ l, s.owner l = none
  tick : ∀ c, s.tick c = none

/-- **The handler never meets a lock of the code beneath it**, in any run under the rule. -/
theorem run_guarded {s₀ : LockSys n L} {es : List (LockEvent n ε)} (h₀ : LockReady s₀)
    (hrun : Runs (lockStep kernel) (Guarded kernel) s₀ es s) (ht : s.tick c ≠ none) :
    (∀ l, ¬ s.Meets kernel c l) ∧ ¬ s.Stuck c := by
  have h : ∀ d, GuardInv kernel s d := by
    refine runs_inv (fun s => ∀ d, GuardInv kernel s d) (fun d => ?_)
      (fun _ _ _ h hg hs => inv_guarded h hg hs) hrun
    refine guardInv_own (h₀.tick d) fun _ l hm => ?_
    rw [LockSys.Meets, h₀.owner l] at hm
    cases hm.2
  have hclear := (h c).clear ((h c).taken ht)
  refine ⟨hclear, ?_⟩
  rintro ⟨l, k, htick, howner⟩
  exact hclear l ⟨(h c).within _ htick _ List.mem_cons_self List.mem_cons_self, howner⟩

/-- The processor of an event. -/
def LockEvent.cpu : LockEvent n ε → Fin n
  | .enter c _ => c
  | .run c _ => c
  | .swap c _ => c
  | .tick c => c
  | .tock c _ => c

/-- **Behind a step that breaks the rule** the handler can come, and it meets a lock. -/
theorem not_guarded {e : LockEvent n ε} (hg : ¬ Guarded kernel s e)
    (hs : lockStep kernel s e = some s') : ∃ s'', lockStep kernel s' (.tick e.cpu) = some s'' ∧
      ∃ l, s''.Meets kernel e.cpu l := by
  have hcome : ∀ c l, s'.tick c = none → s'.interrupts c = true → s'.Meets kernel c l →
      ∃ s'', lockStep kernel s' (.tick c) = some s'' ∧ ∃ l, s''.Meets kernel c l := by
    intro c l ht hi hm
    refine ⟨{ s' with tick := update s'.tick c (some [kernel.tick c]) }, ?_, l, hm⟩
    simp only [lockStep, ht, hi]
  cases e with
  | run c choice =>
      simp only [lockStep] at hs
      split at hs
      · rename_i htick
        cases hk : s.code c with
        | nil =>
            simp only [Guarded, hk] at hg
            exact absurd True.intro hg
        | cons p k =>
            cases p with
            | sti =>
                simp only [Guarded, hk] at hg
                simp only [runCode, hk] at hs
                obtain rfl := Option.some.inj hs
                obtain ⟨l, hl⟩ := not_forall.mp hg
                exact hcome c l htick (update_self _ _ _) (not_not.mp hl)
            | acquire l =>
                simp only [Guarded, hk] at hg
                simp only [runCode, hk] at hs
                obtain ⟨hl, hi⟩ := Classical.not_imp.mp hg
                split at hs
                · obtain rfl := Option.some.inj hs
                  exact hcome c l htick (eq_true_of_ne_false hi) ⟨hl, update_self _ _ _⟩
                · cases hs
            | _ =>
                simp only [Guarded, hk] at hg
                exact absurd True.intro hg
      · cases hs
  | swap c j =>
      simp only [lockStep] at hs
      split at hs
      · rename_i htick hcode
        obtain rfl := Option.some.inj hs
        obtain ⟨hi, hl⟩ := Classical.not_imp.mp hg
        obtain ⟨l, hl⟩ := not_forall.mp hl
        exact hcome c l htick ((update_self _ _ _).trans hi) (not_not.mp hl)
      · cases hs
  | _ => exact absurd True.intro hg

end Rule

/-! ## 4. The rule, read off the code -/

/-- The flag and the locks of the handler that are held, behind `p`; `none` where `p` breaks the
    rule or not all of its ways through leave the same. -/
def LockCode.check {L : Type} [DecidableEq L] (T : L → Bool) :
    LockCode L → Bool × List L → Option (Bool × List L)
  | .skip, st => some st
  | .cli, st => some (false, st.2)
  | .sti, st => if st.2 = [] then some (true, []) else none
  | .acquire l, st => if T l then (if st.1 then none else some (false, l :: st.2)) else some st
  | .release l, st =>
      if T l then (if l ∈ st.2 then some (st.1, st.2.erase l) else none) else some st
  | .swap, st => if st.2 = [] then some st else none
  | .seq p q, st => (p.check T st).bind (q.check T)
  | .alt p q, st => if p.check T st = q.check T st then p.check T st else none
  | .loop p, st => if p.check T st = some st then some st else none

/-- `p` follows the rule from `st` on, and ends at `st'`. -/
def Passes {L : Type} [DecidableEq L] (T : L → Bool) (st : Bool × List L) (p : LockCode L)
    (st' : Bool × List L) : Prop :=
  p.check T st = some st'

/-- `p` leaves the flag and the locks as they were. -/
abbrev Stays {L : Type} [DecidableEq L] (T : L → Bool) (st : Bool × List L) (p : LockCode L) :
    Prop :=
  Passes T st p st

/-- `p` breaks the rule. -/
def Breaks {L : Type} [DecidableEq L] (T : L → Bool) (st : Bool × List L) (p : LockCode L) : Prop :=
  p.check T st = none

section Rules

variable {L : Type} [DecidableEq L] {T : L → Bool} {st st₁ st₂ : Bool × List L} {p q : LockCode L}
  {ps : List (LockCode L)} {l : L} {i : Bool} {held : List L}

theorem stays_skip : Stays T st .skip := rfl

theorem passes_cli : Passes T (i, held) .cli (false, held) := rfl

theorem passes_sti : Passes T (i, []) .sti (true, []) := rfl

theorem stays_swap : Stays T (i, []) .swap := rfl

theorem passes_nil : Stays T st (.all []) := rfl

theorem passes_cons (hp : Passes T st p st₁) (hps : Passes T st₁ (.all ps) st₂) :
    Passes T st (.all (p :: ps)) st₂ := by
  show (p.check T st).bind _ = some st₂
  rw [show p.check T st = some st₁ from hp]
  exact hps

theorem stays_alt (hp : Stays T st p) (hq : Stays T st q) : Stays T st (.alt p q) := by
  show (if p.check T st = q.check T st then p.check T st else none) = some st
  rw [show p.check T st = some st from hp, show q.check T st = some st from hq, if_pos rfl]

theorem stays_oneOf (h : ∀ p ∈ ps, Stays T st p) : Stays T st (.oneOf ps) := by
  induction ps with
  | nil => rfl
  | cons p ps ih =>
      obtain ⟨hp, hps⟩ := List.forall_mem_cons.mp h
      exact stays_alt hp (ih hps)

theorem stays_maybe (hp : Stays T st p) : Stays T st (.maybe p) :=
  stays_alt hp stays_skip

theorem stays_loop (hp : Stays T st p) : Stays T st (.loop p) := if_pos hp

/-- A lock of the handler, with the flag cleared. -/
theorem stays_under (hl : T l = true) (hp : Stays T (false, l :: held) p) :
    Stays T (false, held) (.under l p) := by
  simp only [Passes] at hp
  simp [Passes, LockCode.under, LockCode.all, LockCode.check, hl, hp]

/-- Any other lock. -/
theorem stays_under_off (hl : T l = false) (hp : Stays T st p) : Stays T st (.under l p) := by
  simp only [Passes] at hp
  simp [Passes, LockCode.under, LockCode.all, LockCode.check, hl, hp]

/-- A lock of the handler, with the flag set. -/
theorem breaks_under (hl : T l = true) : Breaks T (true, held) (.under l p) := by
  simp [Breaks, LockCode.under, LockCode.all, LockCode.check, hl]

theorem breaks_head (hp : Breaks T st p) : Breaks T st (.all (p :: ps)) := by
  show (p.check T st).bind _ = none
  rw [show p.check T st = none from hp]
  rfl

theorem breaks_tail (hp : Passes T st p st₁) (hps : Breaks T st₁ (.all ps)) :
    Breaks T st (.all (p :: ps)) := by
  show (p.check T st).bind _ = none
  rw [show p.check T st = some st₁ from hp]
  exact hps

theorem breaks_alt (hp : Breaks T st p) : Breaks T st (.alt p q) := by
  unfold Breaks LockCode.check
  rw [show p.check T st = none from hp, ite_self]

theorem breaks_loop (hp : Breaks T st p) : Breaks T st (.loop p) := by
  unfold Breaks LockCode.check
  rw [show p.check T st = none from hp, if_neg (by simp)]

end Rules

/-- What is left of some code passes, and ends without a lock. -/
def SafeCode {L : Type} [DecidableEq L] (T : L → Bool) : Bool × List L → List (LockCode L) → Prop
  | st, [] => st.2 = []
  | st, p :: k => ∃ st', p.check T st = some st' ∧ SafeCode T st' k

/-- The handler passes, and `T` has its locks. -/
structure Checked {n : Nat} {ε L : Type} [DecidableEq L] (T : L → Bool)
    (kernel : LockKernel n ε L) : Prop where
  tick : ∀ c, SafeCode T (false, []) [kernel.tick c]
  takes : ∀ c, ∀ l ∈ (kernel.tick c).takes, T l = true

/-- Code that is entered passes. -/
def Enters {n : Nat} {ε L : Type} [DecidableEq L] (T : L → Bool) (kernel : LockKernel n ε L) :
    LockEvent n ε → Prop
  | .enter c e => SafeCode T (false, []) [kernel.entry c e]
  | _ => True

/-- Before the first entry. -/
structure LockBooted {n : Nat} {L : Type} (s : LockSys n L) : Prop extends LockReady s where
  code : ∀ c, s.code c = []
  parked : ∀ c, s.parked c = []

section Check

variable {n : Nat} {ε L : Type} [DecidableEq L] {kernel : LockKernel n ε L} {s s' : LockSys n L}
  {T : L → Bool} {c d : Fin n} {l : L}

theorem safe_unfold {choice : Bool} {k k' : List (LockCode L)} {st : Bool × List L}
    (hs : unfoldCode choice k = some k') (h : SafeCode T st k) : SafeCode T st k' := by
  unfold unfoldCode at hs
  split at hs
  · obtain rfl := Option.some.inj hs
    obtain ⟨_, hp, hk⟩ := h
    exact Option.some.inj hp ▸ hk
  · obtain rfl := Option.some.inj hs
    obtain ⟨st', hp, hk⟩ := h
    obtain ⟨st₁, hp₁, hp₂⟩ := Option.bind_eq_some_iff.mp hp
    exact ⟨st₁, hp₁, st', hp₂, hk⟩
  · obtain rfl := Option.some.inj hs
    obtain ⟨st', hp, hk⟩ := h
    unfold LockCode.check at hp
    split at hp
    · rename_i heq
      refine ⟨st', ?_, hk⟩
      split
      · exact hp
      · exact heq ▸ hp
    · cases hp
  · obtain rfl := Option.some.inj hs
    obtain ⟨st', hp, hk⟩ := h
    have hloop := hp
    unfold LockCode.check at hp
    split at hp
    · rename_i heq
      obtain rfl := Option.some.inj hp
      split
      · exact ⟨st, heq, st, hloop, hk⟩
      · exact hk
    · cases hp
  · cases hs

/-- Among the locks of `T`, those of `held` are the ones `v` has. -/
structure Owns (T : L → Bool) (owner : L → Option (Fin n × Bool)) (v : Fin n × Bool)
    (held : List L) : Prop where
  nodup : held.Nodup
  handled : ∀ l ∈ held, T l = true
  owner : ∀ l, T l = true → (owner l = some v ↔ l ∈ held)

section Owns

variable {owner : L → Option (Fin n × Bool)} {v w : Fin n × Bool} {held : List L}

theorem owns_acquire (h : Owns T owner v held) (hfree : owner l = none) (hl : T l = true) :
    Owns T (update owner l (some v)) v (l :: held) where
  nodup := by
    refine List.nodup_cons.mpr ⟨fun hm => ?_, h.nodup⟩
    rw [(h.owner l hl).mpr hm] at hfree
    cases hfree
  handled := List.forall_mem_cons.mpr ⟨hl, h.handled⟩
  owner := fun m hm => by
    by_cases hml : m = l
    · subst hml
      simp
    · rw [update_of_ne hml, h.owner m hm]
      simp [hml]

theorem owns_release (h : Owns T owner v held) : Owns T (update owner l none) v (held.erase l) where
  nodup := h.nodup.erase l
  handled := fun m hm => h.handled m (List.mem_of_mem_erase hm)
  owner := fun m hm => by
    rw [h.nodup.mem_erase_iff]
    by_cases hml : m = l
    · subst hml
      simp
    · rw [update_of_ne hml, h.owner m hm]
      simp [hml]

/-- A free lock that another one takes. -/
theorem owns_acquire_off (h : Owns T owner v held) (hfree : owner l = none) (hw : w ≠ v) :
    Owns T (update owner l (some w)) v held :=
  { h with
    owner := fun m hm => by
      by_cases hml : m = l
      · subst hml
        rw [update_self, ← h.owner m hm, hfree]
        exact ⟨fun he => absurd (Option.some.inj he) hw, nofun⟩
      · rw [update_of_ne hml, h.owner m hm] }

/-- A lock that another one gives back. -/
theorem owns_release_off (h : Owns T owner v held) (hown : owner l ≠ some v) :
    Owns T (update owner l none) v held :=
  { h with
    owner := fun m hm => by
      by_cases hml : m = l
      · subst hml
        rw [update_self, ← h.owner m hm]
        exact ⟨nofun, fun he => absurd he hown⟩
      · rw [update_of_ne hml, h.owner m hm] }

/-- A lock that the handler does not take. -/
theorem owns_skip (h : Owns T owner v held) (hl : T l = false) (x : Option (Fin n × Bool)) :
    Owns T (update owner l x) v held :=
  { h with
    owner := fun m hm => by
      rw [update_of_ne, h.owner m hm]
      rintro rfl
      rw [hl] at hm
      cases hm }

end Owns

/-- What `c` has, and what is left of its code, of its contexts and of its handler. -/
structure CheckInv (T : L → Bool) (s : LockSys n L) (c : Fin n) (held tickHeld : List L) :
    Prop where
  owns : Owns T s.owner (c, false) held
  tickOwns : Owns T s.owner (c, true) tickHeld
  code : SafeCode T (s.interrupts c, held) (s.code c)
  parked : ∀ x ∈ s.parked c, SafeCode T (x.2, []) x.1
  tick : match s.tick c with
    | none => tickHeld = []
    | some k => SafeCode T (false, tickHeld) k

/-- **Checked code follows the rule.** -/
theorem safe_guarded (hk : Checked T kernel)
    (h : ∀ c, ∃ held tickHeld, CheckInv T s c held tickHeld)
    (e : LockEvent n ε) (hs : lockStep kernel s e = some s') : Guarded kernel s e := by
  cases e with
  | run c choice =>
      obtain ⟨held, tickHeld, hc⟩ := h c
      have hcode := hc.code
      unfold Guarded
      dsimp only
      split
      · rename_i l k hl
        rw [hl] at hcode
        obtain ⟨st, hp, _⟩ := hcode
        intro ht
        simp only [LockCode.check, hk.takes c l ht, if_true] at hp
        split at hp
        · cases hp
        · rename_i hi
          exact eq_false_of_ne_true hi
      · rename_i k hl
        rw [hl] at hcode
        obtain ⟨st, hp, _⟩ := hcode
        simp only [LockCode.check] at hp
        split at hp
        · rename_i hnil
          rintro l ⟨ht, ho⟩
          have hm := (hc.owns.owner l (hk.takes c l ht)).mp ho
          rw [hnil] at hm
          cases hm
        · cases hp
      · trivial
  | swap c j =>
      obtain ⟨held, tickHeld, hc⟩ := h c
      have hcode := hc.code
      rintro _ l ⟨ht, ho⟩
      simp only [lockStep] at hs
      split at hs
      · rename_i hl
        rw [hl] at hcode
        obtain ⟨st, hp, _⟩ := hcode
        simp only [LockCode.check] at hp
        split at hp
        · rename_i hnil
          have hm := (hc.owns.owner l (hk.takes c l ht)).mp ho
          rw [hnil] at hm
          cases hm
        · cases hp
      · cases hs
  | _ => trivial

/-- The other processors. -/
theorem checkInv_other {held tickHeld : List L} (h : CheckInv T s d held tickHeld)
    (hcode : s'.code d = s.code d) (hint : s'.interrupts d = s.interrupts d)
    (hparked : s'.parked d = s.parked d) (htick : s'.tick d = s.tick d)
    (howner : ∀ b held, Owns T s.owner (d, b) held → Owns T s'.owner (d, b) held) :
    CheckInv T s' d held tickHeld where
  owns := howner false held h.owns
  tickOwns := howner true tickHeld h.tickOwns
  code := by
    rw [hcode, hint]
    exact h.code
  parked := by
    rw [hparked]
    exact h.parked
  tick := by
    rw [htick]
    exact h.tick

/-- The processor that moves, in its code. -/
theorem checkInv_own {held held' tickHeld : List L} (h : CheckInv T s c held tickHeld)
    {k : List (LockCode L)} {i : Bool} (hcode : s'.code c = k) (hint : s'.interrupts c = i)
    (hparked : ∀ x ∈ s'.parked c, SafeCode T (x.2, []) x.1) (htick : s'.tick c = s.tick c)
    (howns : Owns T s'.owner (c, false) held') (htickOwns : Owns T s'.owner (c, true) tickHeld)
    (hsafe : SafeCode T (i, held') k) : CheckInv T s' c held' tickHeld where
  owns := howns
  tickOwns := htickOwns
  code := by
    rw [hcode, hint]
    exact hsafe
  parked := hparked
  tick := by
    rw [htick]
    exact h.tick

/-- The processor that moves, in its handler. -/
theorem checkInv_tick {held tickHeld tickHeld' : List L} (h : CheckInv T s c held tickHeld)
    {k : List (LockCode L)} (hcode : s'.code c = s.code c) (hint : s'.interrupts c = s.interrupts c)
    (hparked : s'.parked c = s.parked c) (htick : s'.tick c = some k)
    (howns : Owns T s'.owner (c, false) held) (htickOwns : Owns T s'.owner (c, true) tickHeld')
    (hsafe : SafeCode T (false, tickHeld') k) : CheckInv T s' c held tickHeld' where
  owns := howns
  tickOwns := htickOwns
  code := by
    rw [hcode, hint]
    exact h.code
  parked := by
    rw [hparked]
    exact h.parked
  tick := by
    rw [htick]
    exact hsafe

theorem check_runCode (h : ∀ c, ∃ held tickHeld, CheckInv T s c held tickHeld) {choice : Bool}
    (hs : runCode s c choice = some s') (d : Fin n) :
    ∃ held tickHeld, CheckInv T s' d held tickHeld := by
  obtain ⟨held, tickHeld, hc⟩ := h c
  obtain ⟨heldD, tickHeldD, hcD⟩ := h d
  have hcode := hc.code
  unfold runCode at hs
  split at hs
  · rename_i k hk
    obtain rfl := Option.some.inj hs
    rw [hk] at hcode
    obtain ⟨st, hp, hsafe⟩ := hcode
    obtain rfl := Option.some.inj hp
    by_cases hd : d = c
    · subst hd
      exact ⟨_, _, checkInv_own hc (update_self _ _ _) (update_self _ _ _) hc.parked rfl hc.owns
        hc.tickOwns hsafe⟩
    · exact ⟨_, _, checkInv_other hcD (update_of_ne hd _ _) (update_of_ne hd _ _) rfl rfl
        fun _ _ => id⟩
  · rename_i k hk
    obtain rfl := Option.some.inj hs
    rw [hk] at hcode
    obtain ⟨st, hp, hsafe⟩ := hcode
    unfold LockCode.check at hp
    split at hp
    · rename_i hnil
      obtain rfl := Option.some.inj hp
      obtain rfl : held = [] := hnil
      by_cases hd : d = c
      · subst hd
        exact ⟨_, _, checkInv_own hc (update_self _ _ _) (update_self _ _ _) hc.parked rfl hc.owns
          hc.tickOwns hsafe⟩
      · exact ⟨_, _, checkInv_other hcD (update_of_ne hd _ _) (update_of_ne hd _ _) rfl rfl
          fun _ _ => id⟩
    · cases hp
  · rename_i l k hk
    split at hs
    · rename_i hfree
      obtain rfl := Option.some.inj hs
      rw [hk] at hcode
      obtain ⟨st, hp, hsafe⟩ := hcode
      by_cases hd : d = c
      · subst hd
        unfold LockCode.check at hp
        split at hp
        · rename_i hl
          split at hp
          · cases hp
          · rename_i hi
            obtain rfl := Option.some.inj hp
            exact ⟨_, _, checkInv_own hc (update_self _ _ _) (eq_false_of_ne_true hi) hc.parked rfl
              (owns_acquire hc.owns hfree hl) (owns_acquire_off hc.tickOwns hfree (by simp)) hsafe⟩
        · rename_i hl
          obtain rfl := Option.some.inj hp
          have hl := eq_false_of_ne_true hl
          exact ⟨_, _, checkInv_own hc (update_self _ _ _) rfl hc.parked rfl
            (owns_skip hc.owns hl _) (owns_skip hc.tickOwns hl _) hsafe⟩
      · refine ⟨_, _, checkInv_other hcD (update_of_ne hd _ _) rfl rfl rfl fun b _ ho => ?_⟩
        exact owns_acquire_off ho hfree (by simpa using fun he => absurd he.symm hd)
    · cases hs
  · rename_i l k hk
    obtain rfl := Option.some.inj hs
    rw [hk] at hcode
    obtain ⟨st, hp, hsafe⟩ := hcode
    unfold LockCode.check at hp
    split at hp
    · rename_i hl
      split at hp
      · rename_i hm
        obtain rfl := Option.some.inj hp
        have hown := (hc.owns.owner l hl).mpr hm
        by_cases hd : d = c
        · subst hd
          exact ⟨_, _, checkInv_own hc (update_self _ _ _) rfl hc.parked rfl (owns_release hc.owns)
            (owns_release_off hc.tickOwns (by rw [hown]; simp)) hsafe⟩
        · refine ⟨_, _, checkInv_other hcD (update_of_ne hd _ _) rfl rfl rfl fun b _ ho => ?_⟩
          refine owns_release_off ho ?_
          rw [hown]
          simpa using fun he => absurd he.symm hd
      · cases hp
    · rename_i hl
      obtain rfl := Option.some.inj hp
      have hl := eq_false_of_ne_true hl
      by_cases hd : d = c
      · subst hd
        exact ⟨_, _, checkInv_own hc (update_self _ _ _) rfl hc.parked rfl
          (owns_skip hc.owns hl _) (owns_skip hc.tickOwns hl _) hsafe⟩
      · exact ⟨_, _, checkInv_other hcD (update_of_ne hd _ _) rfl rfl rfl
          fun b _ ho => owns_skip ho hl _⟩
  · obtain ⟨k, hk, rfl⟩ := Option.map_eq_some_iff.mp hs
    by_cases hd : d = c
    · subst hd
      exact ⟨_, _, checkInv_own hc (update_self _ _ _) rfl hc.parked rfl hc.owns hc.tickOwns
        (safe_unfold hk hc.code)⟩
    · exact ⟨_, _, checkInv_other hcD (update_of_ne hd _ _) rfl rfl rfl fun _ _ => id⟩

theorem check_tickCode (h : ∀ c, ∃ held tickHeld, CheckInv T s c held tickHeld) {choice : Bool}
    (hs : tickCode s c choice = some s') (d : Fin n) :
    ∃ held tickHeld, CheckInv T s' d held tickHeld := by
  obtain ⟨held, tickHeld, hc⟩ := h c
  obtain ⟨heldD, tickHeldD, hcD⟩ := h d
  have htick := hc.tick
  unfold tickCode at hs
  split at hs
  · cases hs
  · rename_i hk
    obtain rfl := Option.some.inj hs
    rw [hk] at htick
    obtain rfl : tickHeld = [] := htick
    by_cases hd : d = c
    · subst hd
      refine ⟨held, [], hc.owns, hc.tickOwns, hc.code, hc.parked, ?_⟩
      show match update s.tick d none d with
        | none => ([] : List L) = []
        | some k => SafeCode T (false, []) k
      rw [update_self]
    · exact ⟨_, _, checkInv_other hcD rfl rfl rfl (update_of_ne hd _ _) fun _ _ => id⟩
  · rename_i l k hk
    split at hs
    · rename_i hfree
      obtain rfl := Option.some.inj hs
      rw [hk] at htick
      obtain ⟨st, hp, hsafe⟩ := htick
      by_cases hd : d = c
      · subst hd
        unfold LockCode.check at hp
        split at hp
        · rename_i hl
          obtain rfl := Option.some.inj hp
          exact ⟨_, _, checkInv_tick hc rfl rfl rfl (update_self _ _ _)
            (owns_acquire_off hc.owns hfree (by simp)) (owns_acquire hc.tickOwns hfree hl) hsafe⟩
        · rename_i hl
          obtain rfl := Option.some.inj hp
          have hl := eq_false_of_ne_true hl
          exact ⟨_, _, checkInv_tick hc rfl rfl rfl (update_self _ _ _) (owns_skip hc.owns hl _)
            (owns_skip hc.tickOwns hl _) hsafe⟩
      · refine ⟨_, _, checkInv_other hcD rfl rfl rfl (update_of_ne hd _ _) fun b _ ho => ?_⟩
        exact owns_acquire_off ho hfree (by simpa using fun he => absurd he.symm hd)
    · cases hs
  · rename_i l k hk
    obtain rfl := Option.some.inj hs
    rw [hk] at htick
    obtain ⟨st, hp, hsafe⟩ := htick
    unfold LockCode.check at hp
    split at hp
    · rename_i hl
      split at hp
      · rename_i hm
        obtain rfl := Option.some.inj hp
        have hown := (hc.tickOwns.owner l hl).mpr hm
        by_cases hd : d = c
        · subst hd
          exact ⟨_, _, checkInv_tick hc rfl rfl rfl (update_self _ _ _)
            (owns_release_off hc.owns (by rw [hown]; simp)) (owns_release hc.tickOwns) hsafe⟩
        · refine ⟨_, _, checkInv_other hcD rfl rfl rfl (update_of_ne hd _ _) fun b _ ho => ?_⟩
          refine owns_release_off ho ?_
          rw [hown]
          simpa using fun he => absurd he.symm hd
      · cases hp
    · rename_i hl
      obtain rfl := Option.some.inj hp
      have hl := eq_false_of_ne_true hl
      by_cases hd : d = c
      · subst hd
        exact ⟨_, _, checkInv_tick hc rfl rfl rfl (update_self _ _ _) (owns_skip hc.owns hl _)
          (owns_skip hc.tickOwns hl _) hsafe⟩
      · exact ⟨_, _, checkInv_other hcD rfl rfl rfl (update_of_ne hd _ _)
          fun b _ ho => owns_skip ho hl _⟩
  · rename_i k _ _ _ hk
    obtain ⟨k', hk', rfl⟩ := Option.map_eq_some_iff.mp hs
    rw [hk] at htick
    by_cases hd : d = c
    · subst hd
      exact ⟨_, _, checkInv_tick hc rfl rfl rfl (update_self _ _ _) hc.owns hc.tickOwns
        (safe_unfold hk' htick)⟩
    · exact ⟨_, _, checkInv_other hcD rfl rfl rfl (update_of_ne hd _ _) fun _ _ => id⟩

theorem safe_resume {parked : List (List (LockCode L) × Bool)}
    (h : ∀ x ∈ parked, SafeCode T (x.2, []) x.1) (j : Nat) :
    SafeCode T ((resume parked j).1.2, []) (resume parked j).1.1 ∧
      ∀ x ∈ (resume parked j).2, SafeCode T (x.2, []) x.1 := by
  unfold resume
  split
  · rename_i x hx
    exact ⟨h x (List.mem_of_getElem? hx), fun y hy => h y (List.mem_of_mem_eraseIdx hy)⟩
  · exact ⟨rfl, h⟩

/-- **A step of checked code.** -/
theorem check_step (hk : Checked T kernel) (h : ∀ c, ∃ held tickHeld, CheckInv T s c held tickHeld)
    {e : LockEvent n ε} (he : Enters T kernel e) (hs : lockStep kernel s e = some s') (d : Fin n) :
    ∃ held tickHeld, CheckInv T s' d held tickHeld := by
  obtain ⟨heldD, tickHeldD, hcD⟩ := h d
  cases e with
  | enter c e =>
      obtain ⟨held, tickHeld, hc⟩ := h c
      have hcode := hc.code
      simp only [lockStep] at hs
      split at hs
      · rename_i htick hnil
        obtain rfl := Option.some.inj hs
        rw [hnil] at hcode
        obtain rfl : held = [] := hcode
        by_cases hd : d = c
        · subst hd
          exact ⟨_, _, checkInv_own hc (update_self _ _ _) (update_self _ _ _) hc.parked rfl hc.owns
            hc.tickOwns he⟩
        · exact ⟨_, _, checkInv_other hcD (update_of_ne hd _ _) (update_of_ne hd _ _) rfl rfl
            fun _ _ => id⟩
      · cases hs
  | run c choice =>
      simp only [lockStep] at hs
      split at hs
      · exact check_runCode h hs d
      · cases hs
  | swap c j =>
      obtain ⟨held, tickHeld, hc⟩ := h c
      have hcode := hc.code
      simp only [lockStep] at hs
      split at hs
      · rename_i k htick hswap
        obtain rfl := Option.some.inj hs
        rw [hswap] at hcode
        obtain ⟨st, hp, hsafe⟩ := hcode
        unfold LockCode.check at hp
        split at hp
        · rename_i hnil
          obtain rfl := Option.some.inj hp
          obtain rfl : held = [] := hnil
          obtain ⟨hrun, hrest⟩ := safe_resume hc.parked j
          by_cases hd : d = c
          · subst hd
            refine ⟨_, _, checkInv_own hc (update_self _ _ _) (update_self _ _ _) ?_ rfl hc.owns
              hc.tickOwns hrun⟩
            show ∀ x ∈ update s.parked d _ d, _
            rw [update_self]
            intro x hx
            rcases List.mem_append.mp hx with hx | hx
            · exact hrest x hx
            · rw [List.mem_singleton.mp hx]
              exact hsafe
          · exact ⟨_, _, checkInv_other hcD (update_of_ne hd _ _) (update_of_ne hd _ _)
              (update_of_ne hd _ _) rfl fun _ _ => id⟩
        · cases hp
      · cases hs
  | tick c =>
      obtain ⟨held, tickHeld, hc⟩ := h c
      have htick := hc.tick
      simp only [lockStep] at hs
      split at hs
      · rename_i hnone hint
        obtain rfl := Option.some.inj hs
        rw [hnone] at htick
        obtain rfl : tickHeld = [] := htick
        by_cases hd : d = c
        · subst hd
          exact ⟨_, _, checkInv_tick hc rfl rfl rfl (update_self _ _ _) hc.owns hc.tickOwns
            (hk.tick d)⟩
        · exact ⟨_, _, checkInv_other hcD rfl rfl rfl (update_of_ne hd _ _) fun _ _ => id⟩
      · cases hs
  | tock c choice => exact check_tickCode h hs d

/-- **Processors that enter only checked code follow the rule** in every run. -/
theorem checked_guarded {s₀ : LockSys n L} {es : List (LockEvent n ε)} (hk : Checked T kernel)
    (h₀ : LockBooted s₀)
    (hrun : Runs (lockStep kernel) (fun _ e => Enters T kernel e) s₀ es s) :
    Runs (lockStep kernel) (Guarded kernel) s₀ es s := by
  suffices h : (∀ c, ∃ held tickHeld, CheckInv T s c held tickHeld) ∧
      Runs (lockStep kernel) (Guarded kernel) s₀ es s from h.2
  induction hrun with
  | start =>
      refine ⟨fun c => ⟨[], [], ?_⟩, .start⟩
      have hnone : ∀ v, Owns T s₀.owner v [] := fun v =>
        ⟨List.nodup_nil, nofun, fun l _ => by simp [h₀.owner l]⟩
      refine ⟨hnone _, hnone _, ?_, ?_, ?_⟩
      · rw [h₀.code c]
        rfl
      · rw [h₀.parked c]
        exact nofun
      · rw [h₀.tick c]
  | step _ he hs ih => exact ⟨check_step hk ih.1 he hs, .step ih.2 (safe_guarded hk ih.1 _ hs) hs⟩

end Check

end Slightx.Lib
