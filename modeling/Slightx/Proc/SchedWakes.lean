/-
  File:      Slightx/Proc/SchedWakes.lean
  Subject:   Who waits, and who is woken.

  * `inv_joinAdd`, `inv_joinDel`, `inv_sleepAdd` -- a task goes to the joiners of another one, or to
    the sleepers, and leaves the joiners;
  * `inv_killTake`, `inv_killWake_some` -- the tasks that waited for one that ends
-/
import Slightx.Proc.SchedMoves

namespace Slightx

open Lib Function

variable {n : Nat}

section Step

variable {s s' : Kernel n} {place place' : TaskPtr → Place} {home : TaskPtr → Fin n} {c : Fin n}

/-! ## 1. Wake-ups -/

theorem inv_killWake_none (h : SchedInv s place home) (hoff : s.tick c = .off)
    (hp : s.pc (s.current c) = .killWake none) :
    SchedInv ((s.setInterrupts c false).setPc (s.current c) .killEnqueue) place home := by
  have hf : s.Frame ((s.setInterrupts c false).setPc (s.current c) .killEnqueue) c :=
    ⟨rfl, rfl, rfl, rfl, rfl, rfl, fun _ _ => rfl, fun u hu => update_of_ne hu _ _,
      fun d hd => update_of_ne hd _ _⟩
  have hp' : ((s.setInterrupts c false).setPc (s.current c) .killEnqueue).pc (s.current c) =
      .killEnqueue := update_self _ _ _
  refine schedInv_control h hf hoff rfl rfl rfl rfl rfl (fun _ _ => rfl) (fun _ => Or.inl rfl)
    (taskOk_current h hf ?_ ?_ (current_idle_ready h) id id) ?_ (fun _ => update_self _ _ _)
    (refs_same h hf.pc rfl hp hp' rfl rfl)
  · rw [hp']
    exact current_stands (p := .killWake none) h hp
  · rw [hp']
    exact fun he => nomatch he
  · intro l hl
    unfold Kernel.InHands at hl ⊢
    rw [hp] at hl
    rw [hp']
    cases l with
    | nil => rfl
    | cons a l => cases hl.1.1

theorem inv_killWake_some (h : SchedInv s place home) (hoff : s.tick c = .off) {e : TaskPtr}
    (hp : s.pc (s.current c) = .killWake (some e)) :
    SchedInv ({ s.setState e .ready with blocker := update s.blocker e ⟨none, none⟩ }.setPc
      (s.current c) (.killQueue e (s.blocker e).next)) place home := by
  obtain ⟨hself, hst⟩ : place (s.current c) = .self ∧ s.state (s.current c) = .zombie :=
    current_stands h hp
  obtain ⟨l, hnd, hl, hin⟩ := h.hands (s.current c) (h.cpus c).current
  unfold Kernel.InHands at hin
  rw [hp] at hin
  obtain ⟨k, rfl⟩ : ∃ k, l = e :: k := by
    cases l with
    | nil => cases hin.1
    | cons a k =>
        obtain rfl := Option.some.inj hin.1.1
        exact ⟨k, rfl⟩
  have hx : place e = .held (s.current c) := (hl e).mp List.mem_cons_self
  have hne : s.current c ≠ e := fun he => by
    rw [← he, hself] at hx
    cases hx
  refine schedInv_go h
    ⟨rfl, rfl, rfl, rfl, rfl, rfl, fun _ _ => rfl, fun u hu => update_of_ne hu _ _, fun _ _ => rfl⟩ hoff
    (fun _ => Iff.rfl) (fun _ => Iff.rfl) (fun _ he => he) ?_ (queues_same h rfl rfl rfl fun _ => rfl)
    (waits_same h rfl ?_ fun _ _ => Iff.rfl) ?_ (fun _ _ _ => Iff.rfl) ?_ ?_ (h.cpus c).sleepers
    (fun d u => (h.cpus d).sleeping u)
    (refs_same h (fun u hu => update_of_ne hu _ _) rfl hp (update_self _ _ _) rfl rfl)
  · intro u hu hcases
    have hold := h.tasks u hu
    by_cases hut : u = s.current c
    · subst hut
      refine taskOk_current h
        ⟨rfl, rfl, rfl, rfl, rfl, rfl, fun _ _ => rfl, fun u hu => update_of_ne hu _ _, fun _ _ => rfl⟩
        ?_ ?_ ?_ id id
      · show Stands (update s.pc (s.current c) (.killQueue e (s.blocker e).next) (s.current c)) _
          (update s.state e .ready (s.current c))
        rw [update_self, update_of_ne hne]
        exact ⟨hself, hst⟩
      · show (update s.pc (s.current c) (.killQueue e (s.blocker e).next) (s.current c)).parked = true → _
        rw [update_self]
        exact fun he => nomatch he
      · rw [hself]
        exact fun he => nomatch he
    · rcases hcases with hc | hc | hc
      · exact absurd hc hut
      · exact absurd rfl hc
      · have hue : u = e := by
          by_contra hne
          exact hc (update_of_ne hne _ _)
        subst hue
        show TaskOk _ (update s.pc (s.current c) (.killQueue u (s.blocker u).next) u) _
          (update s.state u .ready u) _ _ _
        rw [update_of_ne hut, update_self]
        exact taskOk_woken hold (Or.inl ⟨_, hx⟩)
  · rintro u ⟨b, hb⟩
    refine update_of_ne ?_ _ _
    rintro rfl
    rw [hx] at hb
    cases hb
  · refine ⟨e :: k, hnd, hl, ?_⟩
    have hp' : ({ s.setState e .ready with blocker := update s.blocker e ⟨none, none⟩ }.setPc
        (s.current c) (.killQueue e (s.blocker e).next)).pc (s.current c) =
          .killQueue e (s.blocker e).next := update_self _ _ _
    unfold Kernel.InHands
    rw [hp']
    refine ⟨k, rfl, follows_congr hin.1.2 fun a ha => update_of_ne ?_ _ _, hin.2⟩
    rintro rfl
    exact (List.nodup_cons.mp hnd).1 ha
  · intro p hpc u hu
    refine update_of_ne ?_ _ _
    rintro rfl
    rw [hx] at hu
    exact hpc (Place.held.inj hu).symm
  · show (update s.pc (s.current c) (.killQueue e (s.blocker e).next) (s.current c)).masked = true → _
    rw [update_self]
    exact fun he => nomatch he

/-- Where the joiners of `t` go when `t` takes the list. -/
def takeJoiners (place : TaskPtr → Place) (t u : TaskPtr) : Place :=
  if place u = .joiners t then .held t else place u

theorem takeJoiners_iff {t u : TaskPtr} {P : Place → Prop} (hj : ¬ P (.joiners t)) (hh : ¬ P (.held t)) :
    P (takeJoiners place t u) ↔ P (place u) := by
  unfold takeJoiners
  split
  · rename_i he
    rw [he]
    exact ⟨fun hp => absurd hp hh, fun hp => absurd hp hj⟩
  · exact Iff.rfl

/-- **A killed task takes the list of its joiners.** -/
theorem inv_killTake (h : SchedInv s place home) (hoff : s.tick c = .off)
    (hp : s.pc (s.current c) = .killTake) :
    SchedInv ({ s with joiners := update s.joiners (s.current c) ⟨none, none⟩ }.setPc (s.current c)
      (.killWake (s.joiners (s.current c)).head)) (takeJoiners place (s.current c)) home := by
  obtain ⟨hself, hst⟩ : place (s.current c) = .self ∧ s.state (s.current c) = .zombie :=
    current_stands h hp
  have hf : s.Frame ({ s with joiners := update s.joiners (s.current c) ⟨none, none⟩ }.setPc (s.current c)
      (.killWake (s.joiners (s.current c)).head)) c :=
    ⟨rfl, rfl, rfl, rfl, rfl, rfl, fun _ _ => rfl, fun u hu => update_of_ne hu _ _, fun _ _ => rfl⟩
  have hp' : ({ s with joiners := update s.joiners (s.current c) ⟨none, none⟩ }.setPc (s.current c)
      (.killWake (s.joiners (s.current c)).head)).pc (s.current c) =
        .killWake (s.joiners (s.current c)).head := update_self _ _ _
  have hplace : takeJoiners place (s.current c) (s.current c) = .self := by
    unfold takeJoiners
    rw [hself]
    rfl
  obtain ⟨k, hk⟩ := h.waits _ (h.cpus c).current
  obtain ⟨l, hnd, hl, hfollow⟩ := threads_follows hk
  obtain ⟨m, _, hm, hin⟩ := h.hands (s.current c) (h.cpus c).current
  obtain rfl := (inHands_quiet (by rw [hp]; rfl)).mp hin
  refine schedInv_go h hf hoff (fun u => takeJoiners_iff (P := (· = .gone)) (by simp) (by simp))
    (fun u => takeJoiners_iff (P := (· = .idle)) (by simp) (by simp))
    (fun u hu => (takeJoiners_iff (P := (· = .zombie)) (by simp) (by simp)).mpr hu) ?_
    (queues_same h rfl rfl rfl fun u => ?_) ?_ ?_ ?_ (fun _ _ _ _ => rfl) ?_ (h.cpus c).sleepers
    (fun d u => ?_) (refs_same h hf.pc rfl hp hp' rfl rfl)
  · intro u hu hcases
    by_cases hut : u = s.current c
    · subst hut
      refine taskOk_current h hf ?_ ?_ ?_ ?_ ?_
      · rw [hp', hplace]
        exact ⟨rfl, hst⟩
      · rw [hp']
        exact fun he => nomatch he
      · rw [hplace]
        exact fun he => nomatch he
      · rw [hself]
        exact fun _ he => nomatch he
      · rw [hself]
        exact fun _ => rfl
    · rcases hcases with hc | hc | hc
      · exact absurd hc hut
      · have hold := h.tasks u hu
        have hju : place u = .joiners (s.current c) := by
          by_contra hne
          exact hc (if_neg hne)
        unfold Kernel.TaskOk at hold ⊢
        rw [hf.pc u hut]
        rw [hju] at hold
        rw [show takeJoiners place (s.current c) u = .held (s.current c) from if_pos hju]
        exact taskOk_taken hold _
      · exact absurd rfl hc
  · unfold takeJoiners
    split
    · rename_i he
      rw [he]
      rfl
    · rfl
  · intro b hb
    by_cases hbt : b = s.current c
    · subst hbt
      refine ⟨0, ?_⟩
      show Threads s.blocker (update s.joiners (s.current c) ⟨none, none⟩ (s.current c)).head
        (update s.joiners (s.current c) ⟨none, none⟩ (s.current c)).tail _ 0
      rw [update_self]
      refine threads_nil fun a ha => ?_
      unfold takeJoiners at ha
      split at ha
      · cases ha
      · rename_i hne
        exact hne ha
    · obtain ⟨k, hk⟩ := h.waits b hb
      refine ⟨k, ?_⟩
      show Threads s.blocker (update s.joiners (s.current c) ⟨none, none⟩ b).head
        (update s.joiners (s.current c) ⟨none, none⟩ b).tail _ k
      rw [update_of_ne hbt]
      exact threads_congr hk (fun _ _ => rfl) fun a =>
        takeJoiners_iff (P := (· = .joiners b)) (by simpa using Ne.symm hbt) (by simp)
  · refine ⟨l, hnd, fun u => ?_, ?_⟩
    · rw [hl u]
      unfold takeJoiners
      split
      · rename_i he
        exact ⟨fun _ => rfl, fun _ => he⟩
      · rename_i hne
        refine ⟨fun he => absurd he hne, fun he => ?_⟩
        exact absurd ((hm u).mpr he) List.not_mem_nil
    · unfold Kernel.InHands
      rw [hp']
      refine ⟨hfollow, fun u hu => ?_⟩
      have hju := (hl u).mp hu
      exact (h.tasks u (by rw [hju]; exact fun he => nomatch he)).last (by rw [hju]; rfl)
  · intro p hpt u
    exact takeJoiners_iff (P := (· = .held p)) (by simp) (by simpa using Ne.symm hpt)
  · rw [hp']
    exact fun he => nomatch he
  · rw [takeJoiners_iff (P := (· = .sleeping)) (by simp) (by simp)]
    exact (h.cpus d).sleeping u

theorem inv_killRelease (h : SchedInv s place home) (hoff : s.tick c = .off)
    (hp : s.pc (s.current c) = .killRelease)
    (hs : (·.setPc (s.current c) (.yieldEnter .killed)) <$> taskRelease s (s.current c) = some s') :
    SchedInv s' place home := by
  have hst : place (s.current c) = .zombie ∧ s.state (s.current c) = .zombie := current_stands h hp
  have hmask : s.interrupts c = false := (h.cpus c).masked (by rw [hp]; rfl)
  unfold taskRelease at hs
  split at hs
  · cases hs
  obtain rfl := Option.some.inj hs
  show SchedInv ((s.setRefcount (s.current c) (s.refcount (s.current c) - 1)).setPc (s.current c)
    (.yieldEnter .killed)) place home
  have hf : s.Frame ((s.setRefcount (s.current c) (s.refcount (s.current c) - 1)).setPc (s.current c)
      (.yieldEnter .killed)) c :=
    ⟨rfl, rfl, rfl, rfl, rfl, rfl, fun _ _ => rfl, fun u hu => update_of_ne hu _ _, fun _ _ => rfl⟩
  have hp' : ((s.setRefcount (s.current c) (s.refcount (s.current c) - 1)).setPc (s.current c)
      (.yieldEnter .killed)).pc (s.current c) = .yieldEnter .killed := update_self _ _ _
  refine schedInv_quiet h hoff hf hp hp' ⟨rfl, rfl⟩ ⟨rfl, rfl, rfl, rfl, rfl⟩ (fun _ => Or.inl rfl)
    (fun _ _ => rfl) (Or.inr ⟨by simp, hst.1, ?_⟩) (fun he => nomatch he) (current_idle_ready h)
    (fun _ => hmask) ⟨fun u hu => ?_, fun b hb => ?_⟩
  · show s.state (s.current c) ≠ .running
    rw [hst.2]
    exact fun he => nomatch he
  · have hcount := refs_change h hf.pc u
    have hold := h.refs.refs u hu
    rw [hp', hp, show (Pc.killRelease).target = none from rfl,
      show (Pc.yieldEnter .killed).target = none from rfl] at hcount
    show update s.refcount (s.current c) (s.refcount (s.current c) - 1) u = _
    by_cases hut : u = s.current c
    · subst hut
      rw [hp, show (Pc.killRelease).released = false from rfl, if_neg (by simp)] at hold
      rw [hp', update_self, show (Pc.yieldEnter .killed).released = true from rfl, if_pos rfl]
      omega
    · rw [hf.pc u hut, update_of_ne hut]
      omega
  · rw [hp'] at hb
    cases hb

/-! ## 2. Registrations -/

theorem inv_joinAdd (h : SchedInv s place home) (hoff : s.tick c = .off) {x : TaskPtr}
    (hp : s.pc (s.current c) = .joinAdd x) (hs : goStep s c = some s') :
    SchedInv s' (update place (s.current c) (.joiners x)) home := by
  obtain ⟨hself, hst⟩ : place (s.current c) = .self ∧ s.state (s.current c) = .running :=
    current_stands h hp
  dsimp only [goStep] at hs
  rw [hp] at hs
  dsimp only at hs
  cases hr : waitqueueAdd (s.joiners x) (s.current c) s.blocker with
  | none =>
      rw [hr] at hs
      cases hs
  | some r =>
  rw [hr] at hs
  obtain rfl := Option.some.inj hs
  have hx : place x ≠ .gone := h.refs.targets _ x (h.cpus c).current (by rw [hp]; rfl)
  obtain ⟨k, hk⟩ := h.waits x hx
  obtain ⟨hr₁, hr₂⟩ := waitqueueAdd_some hk hr
  have hf : s.Frame ({ s with joiners := update s.joiners x r.1, blocker := r.2 }.setPc (s.current c)
      (.joinRecheck x)) c :=
    ⟨rfl, rfl, rfl, rfl, rfl, rfl, fun _ _ => rfl, fun u hu => update_of_ne hu _ _, fun _ _ => rfl⟩
  have hp' : ({ s with joiners := update s.joiners x r.1, blocker := r.2 }.setPc (s.current c)
      (.joinRecheck x)).pc (s.current c) = .joinRecheck x := update_self _ _ _
  obtain ⟨l, hnd, hl, hin⟩ := h.hands (s.current c) (h.cpus c).current
  have hnot : ∀ b, place (s.current c) ≠ .joiners b := by
    rw [hself]
    exact fun b he => nomatch he
  refine schedInv_move h hoff hf ?_ ?_ rfl (taskOk_current h hf ?_ ?_ ?_ ?_ ?_) (fun hne => absurd rfl hne)
    (queues_same h rfl rfl rfl fun u => ?_) ?_ ?_ ?_ ?_ (h.cpus c).sleepers ?_
    (refs_same h hf.pc rfl hp hp' rfl rfl)
  · simp [hself]
  · simp
  · rw [hp', update_self]
    exact ⟨Or.inl rfl, fun _ => hst⟩
  · rw [hp']
    exact fun he => nomatch he
  · rw [update_self]
    exact fun he => nomatch he
  · rw [hself]
    exact fun _ he => nomatch he
  · rw [hself]
    exact fun _ => rfl
  · by_cases hu : u = s.current c
    · subst hu
      rw [update_self, hself]
      rfl
    · rw [update_of_ne hu]
  · intro b hb
    show ∃ k, Threads r.2 (update s.joiners x r.1 b).head (update s.joiners x r.1 b).tail _ k
    rw [hr₂]
    by_cases hbx : b = x
    · subst hbx
      rw [update_self, hr₁]
      refine ⟨k + 1, threads_congr (threads_append hk (hnot b)) (fun _ _ => rfl) fun a => ?_⟩
      by_cases ha : a = s.current c
      · subst ha
        simp
      · simp [ha]
    · obtain ⟨m, hm⟩ := h.waits b hb
      rw [update_of_ne hbx]
      refine ⟨m, threads_congr (threads_append_off hk hm (fun a ha he => ?_) (hnot b))
        (fun _ _ => rfl) fun a => ?_⟩
      · exact hbx (Place.joiners.inj (ha.symm.trans he))
      · by_cases ha : a = s.current c
        · subst ha
          simp [hself, Ne.symm hbx]
        · rw [update_of_ne ha]
  · refine ⟨l, hnd, hands_keep hl (by simp [hself]) (by simp), ?_⟩
    exact hands_quiet (by rw [hp]; rfl) (by rw [hp']; rfl) l hin
  · intro p _ u hu
    show r.2 u = s.blocker u
    rw [hr₂]
    obtain ⟨q, hd, _, hq⟩ := hk
    refine linkBack_of_notMem hd (fun hm => ?_) ?_
    · rw [(hq u).mp hm] at hu
      cases hu
    · rintro rfl
      rw [hself] at hu
      cases hu
  · rw [hp']
    exact fun he => nomatch he
  · intro d u
    show u ∈ s.sleepers d ↔ _
    rw [(h.cpus d).sleeping u]
    by_cases hu : u = s.current c
    · subst hu
      simp [hself]
    · rw [update_of_ne hu]

/-- **A joiner that is still linked takes itself off the list.** -/
theorem inv_joinDel (h : SchedInv s place home) (hoff : s.tick c = .off) {x : TaskPtr}
    (hp : s.pc (s.current c) = .joinDel x)
    (hsafe : Reaches s.blocker (s.current c) (s.joiners x).head) (hs : goStep s c = some s') :
    SchedInv s' (update place (s.current c) .self) home := by
  have hx : place x ≠ .gone := h.refs.targets _ x (h.cpus c).current (by rw [hp]; rfl)
  obtain ⟨k, hk⟩ := h.waits x hx
  have hjoin : place (s.current c) = .joiners x := (threads_reaches hk).mp hsafe
  have hst : s.state (s.current c) = .running := (current_stands (p := .joinDel x) h hp).2 hjoin
  dsimp only [goStep] at hs
  rw [hp] at hs
  dsimp only at hs
  rw [waitqueueDel_mem hk hjoin] at hs
  obtain rfl := Option.some.inj hs
  have hf : s.Frame ({ s with
      joiners := update s.joiners x
        { head := if (s.blocker (s.current c)).prev = none then (s.blocker (s.current c)).next
            else (s.joiners x).head
          tail := if (s.blocker (s.current c)).next = none then (s.blocker (s.current c)).prev
            else (s.joiners x).tail }
      blocker := update (bypass s.blocker (s.current c)) (s.current c) ⟨none, none⟩ }.setPc
        (s.current c) (.joinLeave x)) c :=
    ⟨rfl, rfl, rfl, rfl, rfl, rfl, fun _ _ => rfl, fun u hu => update_of_ne hu _ _, fun _ _ => rfl⟩
  have hp' := update_self (s.current c) (Pc.joinLeave x) s.pc
  obtain ⟨l, hnd, hl, hin⟩ := h.hands (s.current c) (h.cpus c).current
  refine schedInv_move h hoff hf ?_ ?_ rfl (taskOk_current h hf ?_ ?_ ?_ ?_ ?_) (fun hne => absurd rfl hne)
    (queues_same h rfl rfl rfl fun u => ?_) ?_ ?_ ?_ ?_ (h.cpus c).sleepers ?_
    (refs_same h hf.pc rfl hp hp' rfl rfl)
  · simp [hjoin]
  · simp
  · show Stands (update s.pc (s.current c) (.joinLeave x) (s.current c)) _ (s.state (s.current c))
    rw [update_self, update_self]
    exact ⟨rfl, hst⟩
  · show (update s.pc (s.current c) (.joinLeave x) (s.current c)).parked = true → _
    rw [update_self]
    exact fun he => nomatch he
  · rw [update_self]
    exact fun he => nomatch he
  · rw [hjoin]
    exact fun _ he => nomatch he
  · rw [hjoin]
    exact fun _ => rfl
  · by_cases hu : u = s.current c
    · subst hu
      rw [update_self, hjoin]
      rfl
    · rw [update_of_ne hu]
  · intro b hb
    by_cases hbx : b = x
    · subst hbx
      refine ⟨k - 1, ?_⟩
      show Threads _ (update s.joiners b _ b).head (update s.joiners b _ b).tail _ _
      rw [update_self]
      refine threads_congr (threads_take hk hjoin ⟨none, none⟩) (fun _ _ => rfl) fun a => ?_
      by_cases ha : a = s.current c
      · subst ha
        simp
      · simp [ha]
    · obtain ⟨m, hm⟩ := h.waits b hb
      refine ⟨m, ?_⟩
      show Threads _ (update s.joiners x _ b).head (update s.joiners x _ b).tail _ _
      rw [update_of_ne hbx]
      have hne : ∀ a, place a = .joiners b → ¬ place a = .joiners x := fun a ha he =>
        hbx (Place.joiners.inj (ha.symm.trans he))
      refine threads_congr (threads_update (threads_bypass_off hk hjoin hm hne) (fun ha => hne _ ha hjoin)
        ⟨none, none⟩) (fun _ _ => rfl) fun a => ?_
      by_cases ha : a = s.current c
      · subst ha
        simp [hjoin, Ne.symm hbx]
      · rw [update_of_ne ha]
  · refine ⟨l, hnd, hands_keep hl (by simp [hjoin]) (by simp), ?_⟩
    refine hands_quiet (by rw [hp]; rfl) ?_ l hin
    show (update s.pc (s.current c) (.joinLeave x) (s.current c)).quiet = true
    rw [update_self]
    rfl
  · intro p _ u hu
    have hne : u ≠ s.current c := by
      rintro rfl
      rw [hjoin] at hu
      cases hu
    show update (bypass s.blocker (s.current c)) (s.current c) ⟨none, none⟩ u = s.blocker u
    rw [update_of_ne hne]
    obtain ⟨q, hd, _, hq⟩ := hk
    obtain ⟨l₁, l₂, rfl⟩ := List.append_of_mem ((hq _).mpr hjoin)
    refine bypass_of_notMem hd fun hm => ?_
    have hju : place u = .joiners x := (hq u).mp (by
      rw [List.mem_append] at hm
      rw [List.mem_append, List.mem_cons]
      tauto)
    rw [hju] at hu
    cases hu
  · show (update s.pc (s.current c) (.joinLeave x) (s.current c)).masked = true → _
    rw [update_self]
    exact fun he => nomatch he
  · intro d u
    show u ∈ s.sleepers d ↔ _
    rw [(h.cpus d).sleeping u]
    by_cases hu : u = s.current c
    · subst hu
      simp [hjoin]
    · rw [update_of_ne hu]

theorem inv_sleepAdd (h : SchedInv s place home) (hoff : s.tick c = .off)
    (hp : s.pc (s.current c) = .sleepAdd) :
    SchedInv ({ s with sleepers := update s.sleepers c (s.sleepers c ++ [s.current c]) }.setPc
      (s.current c) .sleepBlock) (update place (s.current c) .sleeping) home := by
  obtain ⟨hself, hst⟩ : place (s.current c) = .self ∧ s.state (s.current c) = .running :=
    current_stands h hp
  have hmask : s.interrupts c = false := (h.cpus c).masked (by rw [hp]; rfl)
  have hf : s.Frame ({ s with sleepers := update s.sleepers c (s.sleepers c ++ [s.current c]) }.setPc
      (s.current c) .sleepBlock) c :=
    ⟨rfl, rfl, rfl, rfl, rfl, rfl, fun d hd => update_of_ne hd _ _, fun u hu => update_of_ne hu _ _,
      fun _ _ => rfl⟩
  have hp' : ({ s with sleepers := update s.sleepers c (s.sleepers c ++ [s.current c]) }.setPc
      (s.current c) .sleepBlock).pc (s.current c) = .sleepBlock := update_self _ _ _
  obtain ⟨l, hnd, hl, hin⟩ := h.hands (s.current c) (h.cpus c).current
  have hnot : s.current c ∉ s.sleepers c := by
    intro hm
    have hpl := ((h.cpus c).sleeping _).mp hm
    rw [hself] at hpl
    cases hpl.1
  refine schedInv_move h hoff hf ?_ ?_ rfl (taskOk_current h hf ?_ ?_ ?_ ?_ ?_) (fun hne => absurd rfl hne)
    (queues_same h rfl rfl rfl fun u => ?_) (waits_same h rfl (fun _ _ => rfl) fun u b => ?_) ?_
    (fun _ _ _ _ => rfl) (fun _ => hmask) ?_ ?_ (refs_same h hf.pc rfl hp hp' rfl rfl)
  · simp [hself]
  · simp
  · rw [hp', update_self]
    exact Or.inl rfl
  · rw [hp']
    exact fun he => nomatch he
  · rw [update_self]
    exact fun he => nomatch he
  · rw [hself]
    exact fun _ he => nomatch he
  · rw [hself]
    exact fun _ => rfl
  · by_cases hu : u = s.current c
    · subst hu
      rw [update_self, hself]
      rfl
    · rw [update_of_ne hu]
  · by_cases hu : u = s.current c
    · subst hu
      simp [hself]
    · rw [update_of_ne hu]
  · refine ⟨l, hnd, hands_keep hl (by simp [hself]) (by simp), ?_⟩
    exact hands_quiet (by rw [hp]; rfl) (by rw [hp']; rfl) l hin
  · show (update s.sleepers c (s.sleepers c ++ [s.current c]) c).Nodup
    rw [update_self]
    refine List.nodup_append.mpr ⟨(h.cpus c).sleepers, List.nodup_singleton _, fun a ha b hb he => ?_⟩
    rw [List.mem_singleton] at hb
    exact hnot (hb ▸ he ▸ ha)
  · intro d u
    show u ∈ update s.sleepers c (s.sleepers c ++ [s.current c]) d ↔ _
    by_cases hd : d = c
    · subst hd
      rw [update_self, List.mem_append, (h.cpus d).sleeping u, List.mem_singleton]
      by_cases hu : u = s.current d
      · subst hu
        simp [(h.cpus d).currentHome]
      · simp [hu]
    · rw [update_of_ne hd, (h.cpus d).sleeping u]
      by_cases hu : u = s.current c
      · subst hu
        simp [hself, (h.cpus c).currentHome, Ne.symm hd]
      · rw [update_of_ne hu]

end Step

end Slightx
