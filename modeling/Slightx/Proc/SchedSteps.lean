/-
  File:      Slightx/Proc/SchedSteps.lean
  Subject:   Every step of the scheduler keeps the places.

  * `inv_expired`, `inv_waking`, `inv_free` -- the steps of the timer interrupt;
  * **`inv_step`** -- every step keeps the invariant, as long as no task leaves `task_join` by its
    second check after it has been taken from the list of joiners (`JoinSafe`)
-/
import Slightx.Proc.SchedTurns

namespace Slightx

open Lib Function

variable {n : Nat}

section Step

variable {s s' : Kernel n} {place place' : TaskPtr → Place} {home : TaskPtr → Fin n} {c : Fin n}

/-! ## 1. Timer interrupts -/

/-- What a point of the timer interrupt on `c` needs. -/
def TickAt (s : Kernel n) (place : TaskPtr → Place) (home : TaskPtr → Fin n) (c : Fin n) : Tick → Prop
  | .off => True
  | .sleepers kept rest => s.sleepers c = kept ++ rest
  | .waking kept t rest => s.sleepers c = kept ++ t :: rest
  | .cleaning e => ∀ t, e = some t → place t = .zombie ∧ home t = c

theorem tickOk_iff {d : Fin n} : s.TickOk place home d ↔ TickAt s place home d (s.tick d) := by
  unfold Kernel.TickOk TickAt
  cases s.tick d <;> exact Iff.rfl

/-- The processors after a step of the interrupt on `c`. -/
theorem cpus_tick (h : SchedInv s place home) {k : Tick} (hk : k ≠ .off → s.interrupts c = true)
    (htick : s'.tick = update s.tick c k) (hat : TickAt s' place' home c k)
    (hsame : s'.current = s.current ∧ s'.idle = s.idle ∧ s'.pc = s.pc ∧ s'.interrupts = s.interrupts)
    (hgone : ∀ d, place (s.current d) ≠ .gone → place' (s.current d) ≠ .gone)
    (hidle : ∀ u, place u = .idle → place' u = .idle)
    (hzombie : ∀ u, home u ≠ c → place u = .zombie → place' u = .zombie)
    (hsleepers : ∀ d, d ≠ c → s'.sleepers d = s.sleepers d) (hnodup : (s'.sleepers c).Nodup)
    (hsleeping : ∀ d u, u ∈ s'.sleepers d ↔ place' u = .sleeping ∧ home u = d) (d : Fin n) :
    s'.CpuOk place' home d := by
  obtain ⟨hcur, hid, hpc, hint⟩ := hsame
  have hd := h.cpus d
  refine
    { current := by
        rw [hcur]
        exact hgone d hd.current
      currentHome := by
        rw [hcur]
        exact hd.currentHome
      idle := by
        rw [hid]
        exact hidle _ hd.idle
      idleHome := by
        rw [hid]
        exact hd.idleHome
      masked := by
        rw [hcur, hpc, hint]
        exact hd.masked
      ticked := fun ht => ?_
      tick := ?_
      sleepers := ?_
      sleeping := hsleeping d }
  · rw [htick] at ht
    rw [hint]
    by_cases hdc : d = c
    · subst hdc
      rw [update_self] at ht
      exact hk ht
    · rw [update_of_ne hdc] at ht
      exact hd.ticked ht
  · rw [tickOk_iff, htick]
    by_cases hdc : d = c
    · subst hdc
      rw [update_self]
      exact hat
    · rw [update_of_ne hdc]
      have hold := tickOk_iff.mp hd.tick
      cases ht : s.tick d with
      | off => exact True.intro
      | sleepers kept rest =>
          rw [ht] at hold
          exact (hsleepers d hdc).trans hold
      | waking kept t rest =>
          rw [ht] at hold
          exact (hsleepers d hdc).trans hold
      | cleaning e =>
          rw [ht] at hold
          intro t he
          obtain ⟨hz, hh⟩ := hold t he
          exact ⟨hzombie t (by rw [hh]; exact hdc) hz, hh⟩
  · by_cases hdc : d = c
    · subst hdc
      exact hnodup
    · rw [hsleepers d hdc]
      exact hd.sleepers

/-- A step of the interrupt that only goes on. -/
theorem schedInv_tick (h : SchedInv s place home) {k : Tick} (hk : k ≠ .off → s.interrupts c = true)
    (hat : TickAt s place home c k) :
    SchedInv { s with tick := update s.tick c k } place home :=
  { queues := fun q => by
      have hq : ({ s with tick := update s.tick c k } : Kernel n).queue q = s.queue q := by
        cases q <;> rfl
      rw [hq]
      exact h.queues q
    waits := h.waits
    hands := h.hands
    held := h.held
    tasks := h.tasks
    cpus := cpus_tick h hk rfl hat ⟨rfl, rfl, rfl, rfl⟩ (fun _ hd => hd) (fun _ he => he)
      (fun _ _ he => he) (fun _ _ => rfl) (h.cpus c).sleepers fun d u => (h.cpus d).sleeping u
    idles := h.idles
    refs := ⟨h.refs.live, h.refs.nodup, h.refs.refs, h.refs.targets⟩ }

/-- A sleeper whose time is over gets ready. -/
theorem inv_expired (h : SchedInv s place home) {kept rest : List TaskPtr} {t : TaskPtr}
    (htick : s.tick c = .sleepers kept (t :: rest)) :
    SchedInv { s.setState t .ready with tick := update s.tick c (.waking kept t rest) } place home := by
  have hcpu := h.cpus c
  have hat : s.sleepers c = kept ++ t :: rest := by
    have hold := tickOk_iff.mp hcpu.tick
    rw [htick] at hold
    exact hold
  have ht : place t = .sleeping := ((hcpu.sleeping t).mp (by
    rw [hat]
    exact List.mem_append_right _ List.mem_cons_self)).1
  have hint : s.interrupts c = true := hcpu.ticked (by rw [htick]; exact fun he => nomatch he)
  refine
    { queues := fun q => ?_
      waits := h.waits
      hands := h.hands
      held := h.held
      tasks := fun u hu => ?_
      cpus := cpus_tick h (fun _ => hint) rfl hat ⟨rfl, rfl, rfl, rfl⟩ (fun _ hd => hd) (fun _ he => he)
        (fun _ _ he => he) (fun _ _ => rfl) hcpu.sleepers fun d u => (h.cpus d).sleeping u
      idles := h.idles
      refs := ⟨h.refs.live, h.refs.nodup, h.refs.refs, h.refs.targets⟩ }
  · have hq : ({ s.setState t .ready with tick := update s.tick c (.waking kept t rest) } :
        Kernel n).queue q = s.queue q := by
      cases q <;> rfl
    rw [hq]
    exact h.queues q
  · have hold := h.tasks u hu
    by_cases hut : u = t
    · subst hut
      show TaskOk _ _ _ (update s.state u .ready u) _ _ _
      rw [update_self]
      exact taskOk_woken hold (Or.inr ht)
    · show TaskOk _ _ _ (update s.state t .ready u) _ _ _
      rw [update_of_ne hut]
      exact hold

/-- **The interrupt enqueues a sleeper**, and takes it off its list. -/
theorem inv_waking (h : SchedInv s place home) {kept rest : List TaskPtr} {t : TaskPtr}
    (htick : s.tick c = .waking kept t rest) :
    wakeCpu s t = some (home t) ∧ place t = .sleeping ∧
      SchedInv { s.enqueueTask (home t) t with
        sleepers := update s.sleepers c (kept ++ rest)
        tick := update s.tick c (.sleepers kept rest) } (update place t .ready) home := by
  have hcpu := h.cpus c
  have hat : s.sleepers c = kept ++ t :: rest := by
    have hold := tickOk_iff.mp hcpu.tick
    rw [htick] at hold
    exact hold
  have ht : place t = .sleeping ∧ home t = c := (hcpu.sleeping t).mp (by
    rw [hat]
    exact List.mem_append_right _ List.mem_cons_self)
  have hold := h.tasks t (by rw [ht.1]; exact fun he => nomatch he)
  have hint : s.interrupts c = true := hcpu.ticked (by rw [htick]; exact fun he => nomatch he)
  have hnd : (kept ++ t :: rest).Nodup := hat ▸ hcpu.sleepers
  have hmid := List.nodup_cons.mp (List.nodup_middle.mp hnd)
  have hmem : ∀ u, u ∈ kept ++ rest ↔ u ∈ s.sleepers c ∧ u ≠ t := by
    intro u
    rw [hat, List.mem_append, List.mem_append, List.mem_cons]
    constructor
    · intro hm
      refine ⟨by tauto, ?_⟩
      rintro rfl
      exact hmid.1 (List.mem_append.mpr hm)
    · rintro ⟨hm, hne⟩
      tauto
  have hiff : ∀ {P : Place → Prop} u, ¬ P .sleeping → ¬ P .ready →
      (P (update place t .ready u) ↔ P (place u)) := by
    intro P u h₁ h₂
    by_cases hu : u = t
    · subst hu
      rw [update_self, ht.1]
      exact ⟨fun he => absurd he h₂, fun he => absurd he h₁⟩
    · rw [update_of_ne hu]
  refine ⟨wakeCpu_home (hold.pinned (by rw [ht.1]; exact fun he => nomatch he))
    (hold.last (by rw [ht.1]; rfl)), ht.1, ?_⟩
  refine
    { queues := queues_enqueue h (q := .tasks (home t)) (by rw [ht.1]; rfl) rfl
        (fun r => enqueueTask_queue (s := s) (home t) t r) rfl
      waits := fun b hb => waits_same h rfl (fun _ _ => rfl)
        (fun u b => hiff (P := (· = .joiners b)) u (by simp) (by simp)) b
        fun he => hb ((hiff (P := (· = .gone)) b (by simp) (by simp)).mpr he)
      hands := fun p hp => ?_
      held := fun u p hu he => ?_
      tasks := fun u hu => ?_
      cpus := cpus_tick h (fun _ => hint) rfl (update_self _ _ _) ⟨rfl, rfl, rfl, rfl⟩
        (fun d hd he => hd ((hiff (P := (· = .gone)) _ (by simp) (by simp)).mp he))
        (fun u he => (hiff (P := (· = .idle)) u (by simp) (by simp)).mpr he)
        (fun u _ he => (hiff (P := (· = .zombie)) u (by simp) (by simp)).mpr he)
        (fun d hd => update_of_ne hd _ _) ?_ fun d u => ?_
      idles := fun u hu => h.idles u ((hiff (P := (· = .idle)) u (by simp) (by simp)).mp hu)
      refs := ⟨fun u => ?_, h.refs.nodup, fun u hu => ?_, fun j b hj hb he => ?_⟩ }
  · obtain ⟨l, hl₁, hl₂, hl₃⟩ := h.hands p fun he => hp ((hiff (P := (· = .gone)) p (by simp) (by simp)).mpr he)
    exact ⟨l, hl₁, fun u => (hl₂ u).trans (hiff (P := (· = .held p)) u (by simp) (by simp)).symm, hl₃⟩
  · exact h.held u p ((hiff (P := (· = .held p)) u (by simp) (by simp)).mp hu)
      ((hiff (P := (· = .gone)) p (by simp) (by simp)).mp he)
  · have hu : place u ≠ .gone := fun he => hu ((hiff (P := (· = .gone)) u (by simp) (by simp)).mpr he)
    by_cases hut : u = t
    · subst hut
      show TaskOk _ _ (update place u .ready u) _ _ _ _
      rw [update_self]
      exact taskOk_moved hold (Or.inr (Or.inl ht.1)) (Or.inl rfl)
    · show TaskOk _ _ (update place t .ready u) _ _ _ _
      rw [update_of_ne hut]
      exact h.tasks u hu
  · show (update s.sleepers c (kept ++ rest) c).Nodup
    rw [update_self]
    exact hmid.2
  · show u ∈ update s.sleepers c (kept ++ rest) d ↔ _
    by_cases hut : u = t
    · subst hut
      rw [update_self]
      refine ⟨fun hm => ?_, fun he => nomatch he.1⟩
      by_cases hdc : d = c
      · rw [hdc, update_self] at hm
        exact absurd rfl ((hmem u).mp hm).2
      · rw [update_of_ne hdc] at hm
        exact absurd (ht.2.symm.trans (((h.cpus d).sleeping u).mp hm).2) (Ne.symm hdc)
    · rw [update_of_ne hut, ← (h.cpus d).sleeping u]
      by_cases hdc : d = c
      · subst hdc
        rw [update_self, hmem u, and_iff_left hut]
      · rw [update_of_ne hdc]
  · exact (h.refs.live u).trans (not_congr (hiff (P := (· = .gone)) u (by simp) (by simp)).symm)
  · exact h.refs.refs u fun he => hu ((hiff (P := (· = .gone)) u (by simp) (by simp)).mpr he)
  · exact h.refs.targets j b (fun hg => hj ((hiff (P := (· = .gone)) j (by simp) (by simp)).mpr hg)) hb
      ((hiff (P := (· = .gone)) b (by simp) (by simp)).mp he)

theorem stands_zombie {p : Pc} {st : TaskStateType} (h : Stands p .zombie st) :
    p.masked = true ∨ p = .yieldBack .killed := by
  have hhand : ∀ k : After, k.Handed .zombie → k = .killed := by
    intro k hk
    cases k with
    | killed => rfl
    | caller => rcases hk with hk | hk | ⟨q, hk⟩ <;> cases hk
    | slept => rcases hk with hk | hk | ⟨q, hk⟩ <;> cases hk
    | joined x => rcases hk with hk | hk | ⟨q, hk⟩ <;> cases hk
  cases p <;> simp only [Stands, Active, Pc.masked, reduceCtorEq, false_and, and_false, false_or,
    or_false, exists_false] at h ⊢
  case yieldBack k => exact congrArg Pc.yieldBack (hhand k h)
  case joinRecheck x => cases hhand (.joined x) h.1
  case joinDel x => cases hhand (.joined x) h.1
  case joinBlock x => cases hhand (.joined x) h

/-- A task the interrupt finds in the cleanup queue runs nowhere, and waits for nothing. -/
theorem cleaned_parked (h : SchedInv s place home) {t : TaskPtr} (ht : place t = .zombie)
    (hint : s.interrupts (home t) = true) :
    (∀ d, s.current d ≠ t) ∧ s.pc t = .yieldBack .killed := by
  have hold := h.tasks t (by rw [ht]; exact fun he => nomatch he)
  have hcur : ∀ d, s.current d ≠ t := by
    rintro d rfl
    have hhome := (h.cpus d).currentHome
    rw [hhome] at hint
    have hstands := hold.stands
    rw [ht] at hstands
    rcases stands_zombie hstands with hm | hm
    · rw [(h.cpus d).masked hm] at hint
      cases hint
    · have hawake := hold.awake (by rw [hhome]) (by rw [hm]; rfl)
      rw [ht] at hawake
      rcases hawake with he | he <;> cases he
  refine ⟨hcur, ?_⟩
  have hstands := hold.stands
  rw [ht] at hstands
  rcases stands_zombie hstands with hm | hm
  · exact absurd hm (parked_not_masked (hold.parked (hcur _)))
  · exact hm

theorem cleanupRemove_queue (s : Kernel n) (c : Fin n) (t : TaskPtr) (k : Tick) (r : QueueId n) :
    ({ s with
        cleanup := update s.cleanup c (cleanupRemove (s.cleanup c) t s.siblings).1
        siblings := (cleanupRemove (s.cleanup c) t s.siblings).2
        live := s.live.erase t
        tick := update s.tick c k } : Kernel n).queue r =
      if r = .cleanup c then (cleanupRemove (s.cleanup c) t s.siblings).1 else s.queue r := by
  cases r with
  | cleanup d =>
      by_cases hd : d = c
      · subst hd
        rw [if_pos rfl]
        exact update_self d _ s.cleanup
      · rw [if_neg (by simpa using hd)]
        exact update_of_ne hd _ _
  | tasks d =>
      rw [if_neg (by simp)]
      rfl

/-- **The interrupt frees a task** that nobody refers to. -/
theorem inv_free (h : SchedInv s place home) {t : TaskPtr} (htick : s.tick c = .cleaning (some t))
    (hzero : s.refcount t = 0) (ht : place t = .zombie) (hhome : home t = c)
    (hnext : TickAt s place home c (.cleaning (s.siblings t).next)) (hne : (s.siblings t).next ≠ some t) :
    SchedInv { s with
      cleanup := update s.cleanup c (cleanupRemove (s.cleanup c) t s.siblings).1
      siblings := (cleanupRemove (s.cleanup c) t s.siblings).2
      live := s.live.erase t
      tick := update s.tick c (.cleaning (s.siblings t).next) } (update place t .gone) home := by
  have hcpu := h.cpus c
  have hint : s.interrupts c = true := hcpu.ticked (by rw [htick]; exact fun he => nomatch he)
  obtain ⟨hcur, hpc⟩ := cleaned_parked h ht (hhome.symm ▸ hint)
  have htg : place t ≠ .gone := by rw [ht]; exact fun he => nomatch he
  have hmem : (place t).queue (home t) = some (.cleanup c) := by
    rw [ht, hhome]
    rfl
  have hrefs := h.refs.refs t htg
  rw [hzero, hpc, show (Pc.yieldBack .killed).released = true from rfl, if_pos rfl, Nat.zero_add] at hrefs
  have hnobody : ∀ j, place j ≠ .gone → (s.pc j).target ≠ some t := by
    intro j hj hjt
    exact List.countP_eq_zero.mp hrefs.symm j ((h.refs.live j).mpr hj) (decide_eq_true hjt)
  obtain ⟨m, _, hm, hin⟩ := h.hands t htg
  obtain rfl := (inHands_quiet (by rw [hpc]; rfl)).mp hin
  have hunheld : ∀ u, place u ≠ .held t := fun u hu => absurd ((hm u).mpr hu) List.not_mem_nil
  have hplace : ∀ {u}, u ≠ t → update place t .gone u = place u := fun hu => update_of_ne hu _ _
  have hneOf : ∀ {u}, update place t .gone u ≠ .gone → u ≠ t ∧ place u ≠ .gone := by
    intro u hu
    have hut : u ≠ t := by
      rintro rfl
      exact hu (update_self _ _ _)
    exact ⟨hut, by rwa [hplace hut] at hu⟩
  have hiff : ∀ {P : Place → Prop} u, ¬ P .zombie → ¬ P .gone →
      (P (update place t .gone u) ↔ P (place u)) := by
    intro P u h₁ h₂
    by_cases hu : u = t
    · subst hu
      rw [update_self, ht]
      exact ⟨fun he => absurd he h₂, fun he => absurd he h₁⟩
    · rw [hplace hu]
  refine
    { queues := fun q => ?_
      waits := fun b hb => waits_same h rfl (fun _ _ => rfl)
        (fun u b => hiff (P := (· = .joiners b)) u (by simp) (by simp)) b (hneOf hb).2
      hands := fun p hp => ?_
      held := fun u p hu => ?_
      tasks := fun u hu => ?_
      cpus := cpus_tick h (fun _ => hint) rfl ?_ ⟨rfl, rfl, rfl, rfl⟩
        (fun d hd => by rwa [hplace (hcur d)])
        (fun u he => (hiff (P := (· = .idle)) u (by simp) (by simp)).mpr he)
        (fun u hu he => ?_) (fun _ _ => rfl) hcpu.sleepers fun d u => ?_
      idles := fun u hu => h.idles u ((hiff (P := (· = .idle)) u (by simp) (by simp)).mp hu)
      refs := ⟨fun u => ?_, h.refs.nodup.erase t, fun u hu => ?_, fun j b hj hb => ?_⟩ }
  · rw [cleanupRemove_queue]
    by_cases hq : q = .cleanup c
    · subst hq
      rw [if_pos rfl]
      refine threads_congr (threads_bypass (h.queues (.cleanup c)) hmem) (fun _ _ => rfl) fun a => ?_
      by_cases ha : a = t
      · subst ha
        simp [Place.queue]
      · simp [ha]
    · rw [if_neg hq]
      refine threads_congr (threads_bypass_off (h.queues (.cleanup c)) hmem (h.queues q)
        fun a ha he => hq (Option.some.inj (ha.symm.trans he))) (fun _ _ => rfl) fun a => ?_
      by_cases ha : a = t
      · subst ha
        rw [update_self, hmem]
        simp [Place.queue, Ne.symm hq]
      · rw [hplace ha]
  · obtain ⟨l, hl₁, hl₂, hl₃⟩ := h.hands p (hneOf hp).2
    exact ⟨l, hl₁, fun u => (hl₂ u).trans (hiff (P := (· = .held p)) u (by simp) (by simp)).symm, hl₃⟩
  · have hup : place u = .held p := (hiff (P := (· = .held p)) u (by simp) (by simp)).mp hu
    have hpt : p ≠ t := fun he => hunheld u (he ▸ hup)
    rw [hplace hpt]
    exact h.held u p hup
  · obtain ⟨hut, hu⟩ := hneOf hu
    show TaskOk _ _ (update place t .gone u) _ _ _ _
    rw [hplace hut]
    exact h.tasks u hu
  · intro u he
    have hut : u ≠ t := by
      rintro rfl
      exact hne he
    rw [hplace hut]
    exact hnext u he
  · have hut : u ≠ t := by
      rintro rfl
      exact hu hhome
    rw [hplace hut]
    exact he
  · rw [hiff (P := (· = .sleeping)) u (by simp) (by simp)]
    exact (h.cpus d).sleeping u
  · show u ∈ s.live.erase t ↔ _
    rw [List.Nodup.mem_erase_iff h.refs.nodup, h.refs.live u]
    by_cases hut : u = t
    · subst hut
      simp
    · rw [hplace hut, and_iff_right hut]
  · obtain ⟨hut, hu⟩ := hneOf hu
    refine (h.refs.refs u hu).trans (congrArg _ ?_)
    have hperm := List.perm_cons_erase ((h.refs.live t).mpr htg)
    refine (hperm.countP_eq _).trans (List.countP_cons_of_neg ?_)
    rw [hpc]
    simp [Pc.target, After.target]
  · have hjg := (hneOf hj).2
    have hbt : b ≠ t := fun he => hnobody j hjg (he ▸ hb)
    rw [hplace hbt]
    exact h.refs.targets j b hjg hb

/-- **A step of the timer interrupt.** -/
theorem inv_tock (h : SchedInv s place home) {expired : Bool} (hs : tickStep s c expired = some s') :
    ∃ place', SchedInv s' place' home ∧ s'.Keeps place place' home home ∧
      s.Stays place place' home home := by
  have hcpu := h.cpus c
  have hat := tickOk_iff.mp hcpu.tick
  have hint : s.tick c ≠ .off → s.interrupts c = true := hcpu.ticked
  unfold tickStep at hs
  cases ht : s.tick c with
  | off =>
      rw [ht] at hs
      cases hs
  | sleepers kept rest =>
      rw [ht] at hs hat hint
      have hon : s.interrupts c = true := hint fun he => nomatch he
      cases rest with
      | nil =>
          obtain rfl := Option.some.inj hs
          refine ⟨place, schedInv_tick h (fun _ => hon) fun t he => ?_, keeps_same⟩
          have hq := (threads_reaches (a := t) (h.queues (.cleanup c))).mp (he ▸ Reaches.here)
          rcases placeQueue_some hq with hp | hp <;> rw [hp] at hq
          · cases hq
          · exact ⟨hp, QueueId.cleanup.inj (Option.some.inj hq)⟩
      | cons t rest =>
          dsimp only at hs
          split at hs
          · obtain rfl := Option.some.inj hs
            exact ⟨place, inv_expired h ht, keeps_same⟩
          · obtain rfl := Option.some.inj hs
            refine ⟨place, schedInv_tick h (fun _ => hon) ?_, keeps_same⟩
            show s.sleepers c = (kept ++ [t]) ++ rest
            rw [List.append_assoc]
            exact hat
  | waking kept t rest =>
      obtain ⟨hwake, hplace, hinv⟩ := inv_waking h ht
      rw [ht] at hs
      dsimp only at hs
      rw [hwake] at hs
      obtain rfl := Option.some.inj hs
      exact ⟨_, hinv, keeps_moved hplace nofun nofun _⟩
  | cleaning e =>
      cases e with
      | none =>
          rw [ht] at hs
          obtain rfl := Option.some.inj hs
          exact ⟨place, schedInv_tick h (fun hn => absurd rfl hn) True.intro, keeps_same⟩
      | some t =>
          rw [ht] at hat hint
          obtain ⟨hz, hh⟩ := hat t rfl
          have hmem : (place t).queue (home t) = some (.cleanup c) := by
            rw [hz, hh]
            rfl
          have hnext : ∀ u, (s.siblings t).next = some u → (place u = .zombie ∧ home u = c) ∧ u ≠ t := by
            intro u hu
            obtain ⟨hq, hne⟩ := threads_next (h.queues (.cleanup c)) hmem hu
            refine ⟨?_, hne⟩
            rcases placeQueue_some hq with hp | hp <;> rw [hp] at hq
            · cases hq
            · exact ⟨hp, QueueId.cleanup.inj (Option.some.inj hq)⟩
          rw [ht] at hs
          dsimp only at hs
          split at hs
          · rename_i hzero
            obtain rfl := Option.some.inj hs
            exact ⟨_, inv_free h ht hzero hz hh (fun u hu => (hnext u hu).1) fun hu => (hnext t hu).2 rfl,
              keeps_moved hz nofun nofun _⟩
          · obtain rfl := Option.some.inj hs
            exact ⟨place, schedInv_tick h (fun _ => hint fun he => nomatch he) fun u hu => (hnext u hu).1,
              keeps_same⟩

/-! ## 2. All steps -/

/-- **A step of the current task.** -/
theorem inv_go (h : SchedInv s place home) (hoff : s.tick c = .off)
    (hsafe : ∀ x, s.pc (s.current c) = .joinDel x → Reaches s.blocker (s.current c) (s.joiners x).head)
    (hs : goStep s c = some s') : ∃ place', SchedInv s' place' home ∧
      s'.Keeps place place' home home ∧ s.Stays place place' home home := by
  have hgo := hs
  dsimp only [goStep] at hs
  cases hp : s.pc (s.current c) <;> rw [hp] at hs
  case away => cases hs
  case spawnTid detached =>
      obtain rfl := Option.some.inj hs
      exact ⟨_, inv_spawnTid h hoff hp, keeps_same⟩
  case spawnInit => cases hs
  case spawnEnqueue x =>
      obtain rfl := Option.some.inj hs
      obtain ⟨hplace, hinv⟩ := inv_spawnEnqueue h hoff hp
      exact ⟨_, hinv, keeps_moved hplace nofun nofun _⟩
  case yieldEnter k => exact ⟨_, inv_yieldEnter h hoff hp hs, keeps_same⟩
  case yieldEnqueue k =>
      obtain rfl := Option.some.inj hs
      exact ⟨_, inv_yieldEnqueue h hoff hp, keeps_self h hp (fun _ _ hst => hst.2) _⟩
  case yieldDequeue k => exact inv_yieldDequeue h hoff hp hgo
  case yieldSwitch k r =>
      obtain rfl := Option.some.inj hs
      obtain ⟨l, _, hl, hin⟩ := h.hands (s.current c) (h.cpus c).current
      unfold Kernel.InHands at hin
      rw [hp] at hin
      obtain ⟨rfl, _⟩ := hin
      have hr : ∀ x, r = some x → place x = .held (s.current c) := by
        rintro x rfl
        exact (hl x).mp List.mem_cons_self
      refine ⟨_, inv_switch h hoff hp (schedulerSwitch_switched k r), fun t ht => ⟨rfl, Or.inl ?_⟩,
        fun _ _ => rfl, fun t b ht => Or.inl ?_⟩
      · exact (switchPlace_iff (P := (· = .ready)) hr (by simp) (by simp) t).mpr ht
      · exact (switchPlace_iff (P := (· = .joiners b)) hr (by simp) (by simp) t).mpr ht
  case yieldBack k => exact ⟨_, inv_yieldBack h hoff hp hgo, keeps_same⟩
  case sleepAdd =>
      obtain rfl := Option.some.inj hs
      exact ⟨_, inv_sleepAdd h hoff hp, keeps_self h hp (fun _ _ hst => hst.1) _⟩
  case sleepBlock =>
      obtain rfl := Option.some.inj hs
      exact ⟨_, inv_sleepBlock h hoff hp, keeps_same⟩
  case joinFind tid i phase => exact ⟨_, inv_joinFind h hoff hp hs, keeps_same⟩
  case joinCheck x => exact ⟨_, inv_joinCheck h hoff hp hgo, keeps_same⟩
  case joinAdd x =>
      exact ⟨_, inv_joinAdd h hoff hp hgo, keeps_self h hp (fun _ _ hst => hst.1) _⟩
  case joinRecheck x => exact ⟨_, inv_joinRecheck h hoff hp hs, keeps_same⟩
  case joinDel x =>
      obtain ⟨k, hk⟩ := h.waits x (h.refs.targets _ x (h.cpus c).current (by rw [hp]; rfl))
      have hplace := (threads_reaches hk).mp (hsafe x hp)
      refine ⟨_, inv_joinDel h hoff hp (hsafe x hp) hgo, keeps_update (hplace ▸ nofun) ?_ _⟩
      intro b hb
      rw [hp, Place.joiners.inj (hplace.symm.trans hb)]
  case joinLeave x => exact ⟨_, inv_joinLeave h hoff hp hs, keeps_same⟩
  case joinBlock x =>
      obtain rfl := Option.some.inj hs
      exact ⟨_, inv_joinBlock h hoff hp, keeps_same⟩
  case killTake =>
      obtain rfl := Option.some.inj hs
      refine ⟨_, inv_killTake h hoff hp, fun t ht => ⟨rfl, Or.inl ?_⟩, fun _ _ => rfl,
        fun t b ht => ?_⟩
      · exact (takeJoiners_iff (P := (· = .ready)) (by simp) (by simp)).mpr ht
      · by_cases hb : b = s.current c
        · exact Or.inr (Or.inr (hb ▸ hp))
        · refine Or.inl ((takeJoiners_iff (P := (· = .joiners b)) ?_ (by simp)).mpr ht)
          simpa using Ne.symm hb
  case killWake e =>
      cases e with
      | none =>
          obtain rfl := Option.some.inj hs
          exact ⟨_, inv_killWake_none h hoff hp, keeps_same⟩
      | some e =>
          obtain rfl := Option.some.inj hs
          exact ⟨_, inv_killWake_some h hoff hp, keeps_same⟩
  case killQueue e next =>
      obtain ⟨hplace, hinv⟩ := inv_killQueue h hoff hp hgo
      exact ⟨_, hinv, keeps_moved hplace nofun nofun _⟩
  case killEnqueue =>
      obtain rfl := Option.some.inj hs
      exact ⟨_, inv_killEnqueue h hoff hp, keeps_self h hp (fun _ _ hst => hst.1) _⟩
  case killRelease => exact ⟨_, inv_killRelease h hoff hp hs, keeps_same⟩

/-- Code outside the operations sets the interrupt flag. -/
theorem inv_flag (h : SchedInv s place home) (hoff : s.tick c = .off)
    (haway : s.pc (s.current c) = .away) (i : Bool) : SchedInv (s.setInterrupts c i) place home := by
  have hact : Active (place (s.current c)) (s.state (s.current c)) :=
    active_parked h (by rw [haway]; rfl)
  have hinv := schedInv_point h hoff haway .away (s.state (s.current c)) i ⟨rfl, rfl⟩ ⟨rfl, rfl⟩
    (Or.inl hact) (fun _ => hact.elim Or.inr fun he => Or.inl he.1) (current_idle_ready h)
    fun he => nomatch he
  rw [show s.state = (s.setInterrupts c i).state from rfl, setState_self] at hinv
  have hpc : (s.setInterrupts c i).setPc (s.current c) .away = s.setInterrupts c i := by
    unfold Kernel.setPc
    rw [show update (s.setInterrupts c i).pc (s.current c) .away = s.pc from
      haway ▸ update_eq_self (s.current c) s.pc]
    rfl
  rwa [hpc] at hinv

/-- **Every step keeps the places**, as long as `task_join` leaves by its second check only while it
    is still linked, and no run queue loses a task. -/
theorem inv_step (h : SchedInv s place home) {e : SchedEvent n} (hsafe : JoinSafe s e)
    (hs : schedStep s e = some s') :
    ∃ place' home', SchedInv s' place' home' ∧ s'.Keeps place place' home home' ∧
      s.Stays place place' home home' := by
  cases e with
  | call c op =>
      simp only [schedStep] at hs
      split at hs
      · rename_i hc
        exact ⟨_, _, inv_call h hc.1 hc.2 hs, keeps_same⟩
      · cases hs
  | go c =>
      simp only [schedStep] at hs
      split at hs
      · rename_i hoff
        obtain ⟨place', h'⟩ := inv_go h hoff hsafe hs
        exact ⟨_, _, h'⟩
      · cases hs
  | alloc c x =>
      simp only [schedStep] at hs
      split at hs
      · rename_i hc
        split at hs
        · rename_i hp
          obtain rfl := Option.some.inj hs
          have hnew : ∀ t, place t ≠ .gone → t ≠ x := by
            rintro t ht rfl
            exact hc.2 ((h.refs.live t).mpr ht)
          refine ⟨_, _, inv_alloc h hp hc.2, fun t ht => ?_, fun t ht => ?_, fun t b ht => ?_⟩
          · have htx := hnew t (ht ▸ nofun)
            exact ⟨update_of_ne htx _ _, Or.inl ((update_of_ne htx _ _).trans ht)⟩
          · exact update_of_ne (hnew t ht) _ _
          · exact Or.inl ((update_of_ne (hnew t (ht ▸ nofun)) _ _).trans ht)
        · cases hs
      · cases hs
  | flag c enabled =>
      simp only [schedStep] at hs
      split at hs
      · rename_i hc
        obtain rfl := Option.some.inj hs
        exact ⟨_, _, inv_flag h hc.1 hc.2 enabled, keeps_same⟩
      · cases hs
  | tick c =>
      simp only [schedStep] at hs
      split at hs
      · rename_i hc
        obtain rfl := Option.some.inj hs
        exact ⟨_, _, schedInv_tick h (fun _ => hc.2) rfl, keeps_same⟩
      · cases hs
  | tock c expired =>
      obtain ⟨place', h'⟩ := inv_tock h hs
      exact ⟨_, _, h'⟩

end Step

end Slightx
