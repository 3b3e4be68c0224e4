/-
  File:      Slightx/Proc/SchedTurns.lean
  Subject:   A processor turns to another task, and gets new ones.

  * `inv_switch` -- a switch, to a task that ran before or to one that never did;
  * `inv_alloc` -- the memory of a new task was that of none
-/
import Slightx.Proc.SchedWakes

namespace Slightx

open Lib Function

variable {n : Nat}

section Step

variable {s s' : Kernel n} {place place' : TaskPtr → Place} {home : TaskPtr → Fin n} {c : Fin n}

/-! ## 1. Switching -/

theorem inv_dequeue_none (h : SchedInv s place home) (hoff : s.tick c = .off) {k : After}
    (hp : s.pc (s.current c) = .yieldDequeue k) :
    SchedInv ({ s with tasks := update s.tasks c (s.tasks c) }.setPc (s.current c)
      (.yieldSwitch k none)) place home := by
  have hmask : s.interrupts c = false := (h.cpus c).masked (by rw [hp]; rfl)
  have hf : s.Frame ({ s with tasks := update s.tasks c (s.tasks c) }.setPc (s.current c)
      (.yieldSwitch k none)) c :=
    ⟨rfl, rfl, rfl, rfl, rfl, rfl, fun _ _ => rfl, fun u hu => update_of_ne hu _ _, fun _ _ => rfl⟩
  have hp' : ({ s with tasks := update s.tasks c (s.tasks c) }.setPc (s.current c)
      (.yieldSwitch k none)).pc (s.current c) = .yieldSwitch k none := update_self _ _ _
  refine schedInv_control h hf hoff rfl (update_eq_self _ _) rfl rfl rfl (fun _ _ => rfl)
    (fun _ => Or.inl rfl) (taskOk_current h hf ?_ ?_ (current_idle_ready h) id id) ?_ (fun _ => hmask)
    (refs_same h hf.pc rfl hp hp' rfl (by cases k <;> rfl))
  · rw [hp']
    exact current_stands (p := .yieldDequeue k) h hp
  · rw [hp']
    exact fun he => nomatch he
  · intro m hm
    obtain rfl := (inHands_quiet (by rw [hp]; rfl)).mp hm
    unfold Kernel.InHands
    rw [hp']
    exact ⟨rfl, fun x hx => absurd hx List.not_mem_nil⟩

/-- What `runqueue_dequeue` on `c` leaves behind. -/
def Kernel.dequeued (s : Kernel n) (c : Fin n) (k : After) (x : TaskPtr) : Kernel n :=
  { s with
    tasks := update s.tasks c
      { head := (s.siblings x).next
        tail := if (s.siblings x).next = none then none else (s.tasks c).tail
        count := (s.tasks c).count - 1 }
    siblings := update (bypass s.siblings x) x ⟨none, none⟩ }.setPc (s.current c) (.yieldSwitch k (some x))

theorem dequeued_queues (h : SchedInv s place home) {k : After} {x : TaskPtr} (hready : place x = .ready)
    (hhome : home x = c) (hprev : (s.siblings x).prev = none) (t : TaskPtr) (r : QueueId n) :
    Threads (s.dequeued c k x).siblings ((s.dequeued c k x).queue r).head
      ((s.dequeued c k x).queue r).tail
      (fun u => (update place x (.held t) u).queue (home u) = some r) ((s.dequeued c k x).queue r).count := by
  have hmem : (place x).queue (home x) = some (.tasks c) := by
    rw [hready, hhome]
    rfl
  by_cases hr : r = .tasks c
  · subst hr
    have hq : (s.dequeued c k x).queue (.tasks c) = _ := update_self c _ s.tasks
    rw [hq]
    have htake := threads_take (h.queues (.tasks c)) hmem ⟨none, none⟩
    rw [hprev, if_pos rfl] at htake
    refine threads_congr htake (fun _ _ => rfl) fun a => ?_
    by_cases ha : a = x
    · subst ha
      simp [Place.queue]
    · simp [ha]
  · have hsame : (s.dequeued c k x).queue r = s.queue r := by
      cases r with
      | tasks d => exact update_of_ne (fun he => hr (congrArg QueueId.tasks he)) _ _
      | cleanup d => rfl
    have hdis : ∀ a, (place a).queue (home a) = some r → ¬ (place a).queue (home a) = some (.tasks c) :=
      fun a ha he => hr (Option.some.inj (ha.symm.trans he))
    rw [hsame]
    refine threads_congr (threads_update (threads_bypass_off (h.queues _) hmem (h.queues r) hdis)
      (fun ha => hdis x ha hmem) ⟨none, none⟩) (fun _ _ => rfl) fun a => ?_
    by_cases ha : a = x
    · subst ha
      rw [update_self, hmem]
      simp [Place.queue, Ne.symm hr]
    · rw [update_of_ne ha]

theorem inv_dequeue_some (h : SchedInv s place home) (hoff : s.tick c = .off) {k : After} {x : TaskPtr}
    (hp : s.pc (s.current c) = .yieldDequeue k) (hready : place x = .ready) (hhome : home x = c)
    (hprev : (s.siblings x).prev = none) :
    SchedInv (s.dequeued c k x) (update place x (.held (s.current c))) home := by
  have hst : k.Handed (place (s.current c)) := current_stands h hp
  have hmask : s.interrupts c = false := (h.cpus c).masked (by rw [hp]; rfl)
  obtain ⟨l, hnd, hl, hin⟩ := h.hands (s.current c) (h.cpus c).current
  obtain rfl := (inHands_quiet (by rw [hp]; rfl)).mp hin
  have hf : s.Frame (s.dequeued c k x) c :=
    ⟨rfl, rfl, rfl, rfl, rfl, rfl, fun _ _ => rfl, fun u hu => update_of_ne hu _ _, fun _ _ => rfl⟩
  have hp' : (s.dequeued c k x).pc (s.current c) = .yieldSwitch k (some x) := update_self _ _ _
  have hmoved : ∀ (P : Place → Prop) u, ¬ P .ready → ¬ P (.held (s.current c)) →
      (P (update place x (.held (s.current c)) u) ↔ P (place u)) := by
    intro P u h₁ h₂
    by_cases hu : u = x
    · subst hu
      rw [update_self, hready]
      exact ⟨fun he => absurd he h₂, fun he => absurd he h₁⟩
    · rw [update_of_ne hu]
  refine schedInv_move h hoff hf ?_ ?_ rfl (taskOk_current h hf ?_ ?_ ?_ ?_ ?_) (fun hne => ?_)
    (dequeued_queues h hready hhome hprev _)
    (waits_same h rfl (fun _ _ => rfl) fun u b => hmoved (· = .joiners b) u (by simp) (by simp))
    ?_ (fun _ _ _ _ => rfl) (fun _ => hmask) (h.cpus c).sleepers ?_
    (refs_same h hf.pc rfl hp hp' rfl (by cases k <;> rfl))
  · simp [hready]
  · simp
  · rw [hp']
    by_cases hx : s.current c = x
    · rw [hx, hready] at hst
      rw [hx, update_self]
      cases k with
      | killed => cases hst
      | caller => exact Or.inr (Or.inr ⟨x, rfl⟩)
      | slept => exact Or.inr (Or.inr ⟨x, rfl⟩)
      | joined b => exact Or.inr (Or.inr ⟨x, rfl⟩)
    · rw [update_of_ne hx]
      exact hst
  · rw [hp']
    exact fun he => by cases he
  · rw [hmoved (· = .idle) _ (by simp) (by simp)]
    exact current_idle_ready h
  · rw [Ne, hmoved (· = .idle) _ (by simp) (by simp)]
    exact id
  · exact (hmoved (fun pl => pl.ran = true) _ (by simp [Place.ran]) (by simp [Place.ran])).mp
  · have hold := h.tasks x (by rw [hready]; exact fun he => by cases he)
    unfold Kernel.TaskOk at hold ⊢
    rw [hf.pc x hne, update_self]
    exact taskOk_moved hold (Or.inr (Or.inr hready)) (Or.inr ⟨_, rfl⟩)
  · refine ⟨[x], List.nodup_singleton x, fun u => ?_, ?_⟩
    · rw [List.mem_singleton]
      by_cases hu : u = x
      · subst hu
        simp
      · rw [update_of_ne hu]
        refine ⟨fun he => absurd he hu, fun he => ?_⟩
        exact absurd ((hl u).mpr he) List.not_mem_nil
    · unfold Kernel.InHands
      rw [hp']
      refine ⟨rfl, fun y hy => ?_⟩
      rw [List.mem_singleton.mp hy, hhome, (h.cpus c).currentHome]
  · intro d u
    rw [hmoved (· = .sleeping) u (by simp) (by simp)]
    exact (h.cpus d).sleeping u

theorem inv_yieldDequeue (h : SchedInv s place home) (hoff : s.tick c = .off) {k : After}
    (hp : s.pc (s.current c) = .yieldDequeue k) (hs : goStep s c = some s') :
    ∃ place', SchedInv s' place' home ∧ s'.Keeps place place' home home ∧
      s.Stays place place' home home := by
  dsimp only [goStep] at hs
  rw [hp] at hs
  dsimp only at hs
  obtain rfl := Option.some.inj hs
  cases hhead : (s.tasks c).head with
  | none =>
      have hr : runqueueDequeue (s.tasks c) s.siblings = (none, s.tasks c, s.siblings) := by
        unfold runqueueDequeue
        rw [hhead]
      rw [hr]
      exact ⟨place, inv_dequeue_none h hoff hp, keeps_same⟩
  | some x =>
      have hthreads := h.queues (.tasks c)
      have hmem : (place x).queue (home x) = some (.tasks c) :=
        (threads_reaches hthreads).mp (hhead ▸ Reaches.here)
      have hready : place x = .ready ∧ home x = c := by
        rcases placeQueue_some hmem with he | he
        · rw [he] at hmem
          exact ⟨he, QueueId.tasks.inj (Option.some.inj hmem)⟩
        · rw [he] at hmem
          cases hmem
      obtain ⟨l, hd, _, _⟩ := hthreads
      obtain ⟨hprev, hr⟩ := runqueueDequeue_some (q := s.tasks c) hd hhead
      rw [hr]
      refine ⟨_, inv_dequeue_some h hoff hp hready.1 hready.2 hprev, fun t ht => ⟨rfl, ?_⟩,
        fun _ _ => rfl, fun t b ht => Or.inl ?_⟩
      · by_cases htx : t = x
        · subst htx
          refine Or.inr ⟨k, ?_⟩
          rw [hready.2]
          exact update_self _ _ _
        · exact Or.inl ((update_of_ne htx _ _).trans ht)
      · rw [update_of_ne]
        · exact ht
        · rintro rfl
          cases hready.1.symm.trans ht

/-- What `scheduler_yield` writes at the end, for the task `new` to run. -/
structure Kernel.Switched (s s' : Kernel n) (c : Fin n) (k : After) (new : TaskPtr) : Prop where
  current : s'.current = update s.current c new
  pc : s'.pc = update s.pc (s.current c) (.yieldBack k)
  state : ∀ u, s'.state u = if u = new ∧ new ≠ s.idle c then .running else s.state u
  last : ∀ u, s'.lastProcessorId u = if u = new ∧ new ≠ s.idle c then c.val else s.lastProcessorId u
  interrupts : ∀ d, d ≠ c → s'.interrupts d = s.interrupts d
  live : s'.live = s.live
  pin : s'.pin = s.pin
  refcount : s'.refcount = s.refcount
  idle : s'.idle = s.idle
  tick : s'.tick = s.tick
  sleepers : s'.sleepers = s.sleepers
  links : s'.siblings = s.siblings ∧ s'.tasks = s.tasks ∧ s'.cleanup = s.cleanup ∧
    s'.joiners = s.joiners ∧ s'.blocker = s.blocker

theorem schedulerSwitch_switched (k : After) (r : Option TaskPtr) :
    s.Switched (schedulerSwitch s c k r) c k (r.getD (s.idle c)) := by
  have hrun : ∀ {α : Type} (f : TaskPtr → α) (a : α) (u : TaskPtr), r.getD (s.idle c) ≠ s.idle c →
      update f (r.getD (s.idle c)) a u =
        if u = r.getD (s.idle c) ∧ r.getD (s.idle c) ≠ s.idle c then a else f u := by
    intro α f a u hne
    rw [update_apply]
    simp only [hne, ne_eq, not_false_eq_true, and_true]
  have hidle : ∀ {α : Type} (f : TaskPtr → α) (a : α) (u : TaskPtr), r.getD (s.idle c) = s.idle c →
      f u = if u = r.getD (s.idle c) ∧ r.getD (s.idle c) ≠ s.idle c then a else f u := by
    intro α f a u he
    rw [if_neg fun hn => hn.2 he]
  unfold schedulerSwitch
  dsimp only
  refine ⟨?_, ?_, fun u => ?_, fun u => ?_, fun d hd => ?_, ?_, ?_, ?_, ?_, ?_, ?_, ?_⟩
  · split <;> split <;> rfl
  · split <;> split <;> rfl
  · split
    all_goals
      split
      · rename_i he
        exact hidle s.state _ u he
      · rename_i hne
        exact hrun s.state _ u hne
  · split
    all_goals
      split
      · rename_i he
        exact hidle s.lastProcessorId _ u he
      · rename_i hne
        exact hrun s.lastProcessorId _ u hne
  · split
    · split <;> rfl
    · split <;> exact update_of_ne hd _ _
  all_goals split <;> split <;> first | rfl | exact ⟨rfl, rfl, rfl, rfl, rfl⟩

/-- The place of a task that is switched to. -/
def switchPlace (place : TaskPtr → Place) : Option TaskPtr → TaskPtr → Place
  | some x => update place x .self
  | none => place

theorem switchPlace_iff {r : Option TaskPtr} {t : TaskPtr} (hr : ∀ x, r = some x → place x = .held t)
    {P : Place → Prop} (hheld : ¬ P (.held t)) (hself : ¬ P .self) (u : TaskPtr) :
    P (switchPlace place r u) ↔ P (place u) := by
  cases r with
  | none => exact Iff.rfl
  | some x =>
      show P (update place x .self u) ↔ _
      by_cases hu : u = x
      · subst hu
        rw [update_self, hr u rfl]
        exact ⟨fun hp => absurd hp hself, fun hp => absurd hp hheld⟩
      · rw [update_of_ne hu]

theorem parked_not_masked {p : Pc} (hp : p.parked = true) : ¬ p.masked = true := by
  cases p <;> simp [Pc.parked, Pc.masked] at hp ⊢

/-- The task that is switched to runs. -/
theorem inv_switch_new (h : SchedInv s place home) {k : After} {r : Option TaskPtr} {new : TaskPtr}
    (hp : s.pc (s.current c) = .yieldSwitch k r) (hs : s.Switched s' c k new) (hhome : home new = c)
    (hnew : place new = .held (s.current c) ∧ r = some new ∨ place new = .idle ∧ r = none) :
    s'.TaskOk (switchPlace place r) home new := by
  have hst : k.Handed (place (s.current c)) := current_stands h hp
  have hplace : place new ≠ .gone := by
    rcases hnew with ⟨he, _⟩ | ⟨he, _⟩ <;> simp [he]
  have hold := h.tasks new hplace
  have hcur : s'.current (home new) = new := by rw [hs.current, hhome, update_self]
  have hpark : new ≠ s.current c → s'.pc new = s.pc new ∧ (s.pc new).parked = true := by
    intro hne
    refine ⟨by rw [hs.pc, update_of_ne hne], hold.parked ?_⟩
    rw [hhome]
    exact fun he => hne he.symm
  rcases hnew with ⟨hheld, rfl⟩ | ⟨hidle, rfl⟩
  · have hne : new ≠ s.idle c := by
      rintro rfl
      rw [(h.cpus c).idle] at hheld
      cases hheld
    have hself : switchPlace place (some new) new = .self := update_self _ _ _
    have hrun : s'.state new = .running := by rw [hs.state, if_pos ⟨rfl, hne⟩]
    have hlast : s'.lastProcessorId new = home new := by rw [hs.last, if_pos ⟨rfl, hne⟩, hhome]
    refine
      { stands := ?_
        self := fun _ => hcur
        parked := fun hn => absurd hcur hn
        awake := fun _ _ => Or.inl hself
        pinned := fun _ => hs.pin ▸ hold.pinned (by rw [hheld]; exact fun he => nomatch he)
        last := fun _ => hlast
        idle := fun he => nomatch hself.symm.trans he }
    rw [hself, hrun]
    by_cases hno : new = s.current c
    · rw [hno, hs.pc, update_self]
      refine Or.inr ⟨?_, rfl, rfl⟩
      rintro rfl
      rw [← hno, hheld] at hst
      cases hst
    · obtain ⟨hpc, hparked⟩ := hpark hno
      have hstands := hold.stands
      rw [hheld] at hstands
      rw [hpc]
      exact stands_resumed hstands hparked
  · have hne : ¬ (new = new ∧ new ≠ s.idle c) := by
      rintro ⟨_, hne⟩
      exact hne (hhome ▸ h.idles new hidle).symm
    have hstate : s'.state new = s.state new := by rw [hs.state, if_neg hne]
    have hready := hold.idle hidle
    refine
      { stands := ?_
        self := fun _ => hcur
        parked := fun hn => absurd hcur hn
        awake := fun _ _ => Or.inr hidle
        pinned := fun he => absurd hidle he
        last := fun he => ?_
        idle := fun _ => hstate.trans hready }
    · show Stands _ (place new) _
      rw [hstate]
      by_cases hno : new = s.current c
      · rw [hno, hs.pc, update_self]
        exact Or.inl hst
      · rw [(hpark hno).1]
        exact hold.stands
    · have hran : (place new).ran = true := he
      rw [hidle] at hran
      cases hran

section Switch

variable {k : After} {r : Option TaskPtr} {new p u : TaskPtr} {d : Fin n}

/-- The task that will run: one from the queue, in the hands of the current one, or the idle one. -/
structure SwitchTo (s : Kernel n) (place : TaskPtr → Place) (home : TaskPtr → Fin n) (c : Fin n)
    (r : Option TaskPtr) (new : TaskPtr) : Prop where
  home : home new = c
  place : place new = .held (s.current c) ∧ r = some new ∨ place new = .idle ∧ r = none

theorem switchTo_ne (hn : SwitchTo s place home c r new) : place new ≠ .gone := by
  rcases hn.place with ⟨he, _⟩ | ⟨he, _⟩ <;> simp [he]

theorem switchTo_held (hn : SwitchTo s place home c r new) :
    ∀ x, r = some x → place x = .held (s.current c) := by
  rintro x rfl
  rcases hn.place with ⟨he, hx⟩ | ⟨_, hx⟩
  · obtain rfl := Option.some.inj hx
    exact he
  · cases hx

theorem switchTo_of_inv (h : SchedInv s place home) (hp : s.pc (s.current c) = .yieldSwitch k r) :
    SwitchTo s place home c r (r.getD (s.idle c)) ∧
      ∀ u, place u = .held (s.current c) → r = some u := by
  have hcpu := h.cpus c
  obtain ⟨l, hnd, hl, hin⟩ := h.hands (s.current c) hcpu.current
  unfold Kernel.InHands at hin
  rw [hp] at hin
  obtain ⟨rfl, hhome⟩ := hin
  refine ⟨?_, fun u hu => Option.mem_toList.mp ((hl u).mpr hu)⟩
  cases r with
  | none => exact ⟨hcpu.idleHome, Or.inr ⟨hcpu.idle, rfl⟩⟩
  | some x =>
      exact ⟨(hhome x List.mem_cons_self).trans hcpu.currentHome,
        Or.inl ⟨(hl x).mp List.mem_cons_self, rfl⟩⟩

theorem switchPlace_gone (hn : SwitchTo s place home c r new) (u : TaskPtr) :
    switchPlace place r u = .gone ↔ place u = .gone :=
  switchPlace_iff (P := (· = .gone)) (switchTo_held hn) (by simp) (by simp) u

theorem switchPlace_held (he : switchPlace place r u = .held p) : place u = .held p := by
  cases r with
  | none => exact he
  | some x =>
      have he : update place x .self u = .held p := he
      by_cases hu : u = x
      · rw [hu, update_self] at he
        cases he
      · rwa [update_of_ne hu] at he

/-- The task to run is in no queue any more. -/
theorem switchPlace_queue (hn : SwitchTo s place home c r new) (u : TaskPtr) :
    (switchPlace place r u).queue (home u) = (place u).queue (home u) := by
  cases r with
  | none => rfl
  | some x =>
      show (update place x .self u).queue (home u) = _
      by_cases hu : u = x
      · subst hu
        rw [update_self, switchTo_held hn u rfl]
        rfl
      · rw [update_of_ne hu]

theorem switchPlace_other (hn : SwitchTo s place home c r new) (hu : u ≠ new) :
    switchPlace place r u = place u := by
  cases r with
  | none => rfl
  | some x =>
      refine update_of_ne ?_ _ _
      rintro rfl
      rcases hn.place with ⟨_, he⟩ | ⟨_, he⟩
      · exact hu (Option.some.inj he)
      · cases he

theorem switch_pc (hs : s.Switched s' c k new) (hu : u ≠ s.current c) : s'.pc u = s.pc u := by
  rw [hs.pc, update_of_ne hu]

theorem switch_pc_current (hs : s.Switched s' c k new) : s'.pc (s.current c) = .yieldBack k := by
  rw [hs.pc, update_self]

/-- What the other tasks have in their hands. -/
theorem switch_inHands (hs : s.Switched s' c k new) (hpo : p ≠ s.current c) {m : List TaskPtr}
    (hm : ∀ t ∈ m, t ≠ new) (hin : s.InHands home p m) : s'.InHands home p m := by
  have hlast : ∀ t ∈ m, s'.lastProcessorId t = s.lastProcessorId t := fun t ht => by
    rw [hs.last, if_neg fun hn => hm t ht hn.1]
  obtain ⟨-, -, -, -, hblocker⟩ := hs.links
  unfold Kernel.InHands at hin ⊢
  rw [switch_pc hs hpo, hblocker]
  cases hpp : s.pc p with
  | killWake e =>
      rw [hpp] at hin
      exact ⟨hin.1, fun t ht => (hlast t ht).trans (hin.2 t ht)⟩
  | killQueue e next =>
      rw [hpp] at hin
      obtain ⟨j, hj, hfollow, hat⟩ := hin
      exact ⟨j, hj, hfollow, fun t ht => (hlast t ht).trans (hat t ht)⟩
  | _ =>
      rw [hpp] at hin
      exact hin

theorem switch_hands (h : SchedInv s place home) (hp : s.pc (s.current c) = .yieldSwitch k r)
    (hn : SwitchTo s place home c r new) (hs : s.Switched s' c k new)
    (hpg : switchPlace place r p ≠ .gone) : ∃ l : List TaskPtr, l.Nodup ∧
      (∀ t, t ∈ l ↔ switchPlace place r t = .held p) ∧ s'.InHands home p l := by
  have hpg : place p ≠ .gone := fun he => hpg ((switchPlace_gone hn p).mpr he)
  by_cases hpo : p = s.current c
  · subst hpo
    refine ⟨[], List.nodup_nil, fun u => ⟨fun hm => absurd hm List.not_mem_nil, fun he => ?_⟩,
      (inHands_quiet (by rw [switch_pc_current hs]; rfl)).mpr rfl⟩
    have hu := (switchTo_of_inv h hp).2 u (switchPlace_held he)
    rw [hu] at he
    have hself : switchPlace place (some u) u = .self := update_self _ _ _
    rw [hself] at he
    cases he
  · obtain ⟨m, hnd, hm, hin⟩ := h.hands p hpg
    refine ⟨m, hnd, fun u => ?_, switch_inHands hs hpo (fun t ht => ?_) hin⟩
    · rw [hm u]
      exact (switchPlace_iff (P := (· = .held p)) (switchTo_held hn) (by simpa using Ne.symm hpo)
        (by simp) u).symm
    · rintro rfl
      have hheld := (hm t).mp ht
      rcases hn.place with ⟨he, _⟩ | ⟨he, _⟩ <;> rw [he] at hheld
      · exact hpo (Place.held.inj hheld).symm
      · cases hheld

/-- A task that is switched away from, and all that are not concerned. -/
theorem switch_task (h : SchedInv s place home) (hp : s.pc (s.current c) = .yieldSwitch k r)
    (hn : SwitchTo s place home c r new) (hs : s.Switched s' c k new)
    (hu : switchPlace place r u ≠ .gone) : s'.TaskOk (switchPlace place r) home u := by
  have hst : k.Handed (place (s.current c)) := current_stands h hp
  have hu : place u ≠ .gone := fun he => hu ((switchPlace_gone hn u).mpr he)
  have hold := h.tasks u hu
  by_cases hun : u = new
  · subst hun
    exact inv_switch_new h hp hs hn.home hn.place
  · have hstate : s'.state u = s.state u := by rw [hs.state, if_neg fun he => hun he.1]
    have hlast : s'.lastProcessorId u = s.lastProcessorId u := by
      rw [hs.last, if_neg fun he => hun he.1]
    unfold Kernel.TaskOk at hold ⊢
    rw [switchPlace_other hn hun, hstate, hs.pin, hlast, hs.current]
    by_cases huo : u = s.current c
    · subst huo
      have hcur : update s.current c new (home (s.current c)) = new := by
        rw [(h.cpus c).currentHome, update_self]
      rw [hcur, switch_pc_current hs]
      refine { hold with
        stands := Or.inl hst
        self := fun he => ?_
        parked := fun _ => rfl
        awake := fun he => absurd he.symm hun }
      rw [he] at hst
      cases k with
      | killed => cases hst
      | caller => rcases hst with hst | hst | ⟨q, hst⟩ <;> cases hst
      | slept => rcases hst with hst | hst | ⟨q, hst⟩ <;> cases hst
      | joined x => rcases hst with hst | hst | ⟨q, hst⟩ <;> cases hst
    · have hcur : (update s.current c new (home u) = u) = (s.current (home u) = u) := by
        by_cases hhu : home u = c
        · rw [hhu, update_self]
          exact propext ⟨fun he => absurd he.symm hun, fun he => absurd he.symm huo⟩
        · rw [update_of_ne hhu]
      rw [hcur, switch_pc hs huo]
      exact hold

theorem switch_tick (hn : SwitchTo s place home c r new) (hs : s.Switched s' c k new)
    (hold : s.TickOk place home d) : s'.TickOk (switchPlace place r) home d := by
  unfold Kernel.TickOk at hold ⊢
  rw [hs.tick, hs.sleepers]
  cases ht : s.tick d with
  | cleaning e =>
      rw [ht] at hold
      exact fun t he => ⟨(switchPlace_iff (P := (· = .zombie)) (switchTo_held hn) (by simp) (by simp)
        t).mpr (hold t he).1, (hold t he).2⟩
  | off => exact True.intro
  | sleepers kept rest =>
      rw [ht] at hold
      exact hold
  | waking kept t rest =>
      rw [ht] at hold
      exact hold

/-- The task that runs now was parked, so interrupts are not its business. -/
theorem switch_masked (h : SchedInv s place home) (hn : SwitchTo s place home c r new)
    (hs : s.Switched s' c k new) : (s'.pc new).masked ≠ true := by
  by_cases hno : new = s.current c
  · rw [hno, switch_pc_current hs]
    simp [Pc.masked]
  · rw [switch_pc hs hno]
    exact parked_not_masked ((h.tasks new (switchTo_ne hn)).parked (by
      rw [hn.home]
      exact fun he => hno he.symm))

theorem switch_cpu (h : SchedInv s place home) (hoff : s.tick c = .off)
    (hn : SwitchTo s place home c r new) (hs : s.Switched s' c k new) (d : Fin n) :
    s'.CpuOk (switchPlace place r) home d := by
  have hd := h.cpus d
  have hheld := switchTo_held hn
  refine
    { current := ?_
      currentHome := ?_
      idle := by
        rw [hs.idle]
        exact (switchPlace_iff (P := (· = .idle)) hheld (by simp) (by simp) _).mpr hd.idle
      idleHome := by
        rw [hs.idle]
        exact hd.idleHome
      masked := ?_
      ticked := ?_
      tick := switch_tick hn hs hd.tick
      sleepers := hs.sleepers ▸ hd.sleepers
      sleeping := fun u => by
        rw [hs.sleepers, switchPlace_iff (P := (· = .sleeping)) hheld (by simp) (by simp) u]
        exact hd.sleeping u }
  · rw [hs.current]
    by_cases hdc : d = c
    · subst hdc
      rw [update_self]
      exact fun he => switchTo_ne hn ((switchPlace_gone hn _).mp he)
    · rw [update_of_ne hdc]
      exact fun he => hd.current ((switchPlace_gone hn _).mp he)
  · rw [hs.current]
    by_cases hdc : d = c
    · subst hdc
      rw [update_self]
      exact hn.home
    · rw [update_of_ne hdc]
      exact hd.currentHome
  · rw [hs.current]
    by_cases hdc : d = c
    · subst hdc
      rw [update_self]
      exact fun hm => absurd hm (switch_masked h hn hs)
    · rw [update_of_ne hdc, switch_pc hs fun he => hdc (current_inj h he), hs.interrupts d hdc]
      exact hd.masked
  · intro ht
    rw [hs.tick] at ht
    by_cases hdc : d = c
    · subst hdc
      exact absurd hoff ht
    · rw [hs.interrupts d hdc]
      exact hd.ticked ht

theorem switch_refs (h : SchedInv s place home) (hp : s.pc (s.current c) = .yieldSwitch k r)
    (hn : SwitchTo s place home c r new) (hs : s.Switched s' c k new) :
    s'.RefsOk (switchPlace place r) := by
  have hrefs := refs_same h (fun u hu => switch_pc hs hu) hs.refcount hp (switch_pc_current hs) rfl
    (by cases k <;> rfl)
  refine
    { live := fun t => ?_
      nodup := hs.live ▸ h.refs.nodup
      refs := fun u hu => ?_
      targets := fun j b hj hb he => ?_ }
  · rw [hs.live, h.refs.live t]
    exact not_congr (switchPlace_gone hn t).symm
  · rw [hs.live]
    exact hrefs.1 u fun he => hu ((switchPlace_gone hn u).mpr he)
  · have he : place b = .gone := (switchPlace_gone hn b).mp he
    by_cases hjo : j = s.current c
    · subst hjo
      exact hrefs.2 b hb he
    · rw [switch_pc hs hjo] at hb
      exact h.refs.targets j b (fun hg => hj ((switchPlace_gone hn j).mpr hg)) hb he

/-- **The switch to the next task.** -/
theorem inv_switch (h : SchedInv s place home) (hoff : s.tick c = .off)
    (hp : s.pc (s.current c) = .yieldSwitch k r)
    (hs : s.Switched s' c k (r.getD (s.idle c))) : SchedInv s' (switchPlace place r) home := by
  have hn := (switchTo_of_inv h hp).1
  obtain ⟨hsib, htasks, hcleanup, hjoiners, hblocker⟩ := hs.links
  exact
    { queues := queues_same h hsib htasks hcleanup fun u => switchPlace_queue hn u
      waits := fun b hb => waits_same h hjoiners (fun u _ => by rw [hblocker])
        (fun u b => switchPlace_iff (P := (· = .joiners b)) (switchTo_held hn) (by simp) (by simp) u)
        b fun he => hb ((switchPlace_gone hn b).mpr he)
      hands := fun p hpg => switch_hands h hp hn hs hpg
      held := fun t p ht he => h.held t p (switchPlace_held ht) ((switchPlace_gone hn p).mp he)
      tasks := fun u hu => switch_task h hp hn hs hu
      cpus := fun d => switch_cpu h hoff hn hs d
      idles := fun t ht => by
        rw [hs.idle]
        exact h.idles t ((switchPlace_iff (P := (· = .idle)) (switchTo_held hn) (by simp) (by simp)
          t).mp ht)
      refs := switch_refs h hp hn hs }

end Switch

/-! ## 2. Spawning -/

/-- The record `x` is filled in, and the caller has it in its hands. -/
abbrev Kernel.alloc (s : Kernel n) (c : Fin n) (x : TaskPtr) (tid : Tid) (detached : Bool) :
    Kernel n :=
  (taskInit s x tid detached).setPc (s.current c) (.spawnEnqueue x)

section Alloc

variable {tid : Tid} {detached : Bool} {x p u : TaskPtr}

/-- Memory that is in use is not the new record. -/
theorem ne_of_gone (hgone : place x = .gone) (hu : place u ≠ .gone) : u ≠ x := by
  rintro rfl
  exact hu hgone

theorem alloc_pc_new (htx : s.current c ≠ x) : (s.alloc c x tid detached).pc x = .away :=
  (update_of_ne (Ne.symm htx) _ _).trans (update_self _ _ _)

theorem alloc_pc_current : (s.alloc c x tid detached).pc (s.current c) = .spawnEnqueue x :=
  update_self _ _ _

theorem alloc_pc (hu : u ≠ x) (hut : u ≠ s.current c) :
    (s.alloc c x tid detached).pc u = s.pc u :=
  (update_of_ne hut _ _).trans (update_of_ne hu _ _)

/-- Only the new record has another place. -/
theorem allocPlace_iff {P : Place → Prop} (hgone : place x = .gone) (u : TaskPtr) (h₁ : ¬ P .gone)
    (h₂ : ¬ P (.held p)) : P (update place x (.held p) u) ↔ P (place u) := by
  by_cases hu : u = x
  · subst hu
    rw [update_self, hgone]
    exact ⟨fun he => absurd he h₂, fun he => absurd he h₁⟩
  · rw [update_of_ne hu]

/-- Neither before nor behind the call is it in a queue. -/
theorem allocPlace_slot (hgone : place x = .gone) (u : TaskPtr) :
    (update place x (.held p) u).queue (update home x c u) = (place u).queue (home u) := by
  by_cases hu : u = x
  · subst hu
    rw [update_self, update_self, hgone]
    rfl
  · rw [update_of_ne hu, update_of_ne hu]

/-- Nobody waits for it. -/
theorem not_joined (h : SchedInv s place home) (hgone : place x = .gone) (u : TaskPtr) :
    place u ≠ .joiners x := by
  intro hu
  have hne : place u ≠ .gone := by rw [hu]; exact fun he => by cases he
  have hstands := (h.tasks u hne).stands
  rw [hu] at hstands
  exact h.refs.targets u x hne (stands_target hstands) hgone

theorem alloc_waits (h : SchedInv s place home) (hgone : place x = .gone) {b : TaskPtr}
    (hb : update place x (.held p) b ≠ .gone) :
    ∃ k, Threads (s.alloc c x tid detached).blocker ((s.alloc c x tid detached).joiners b).head
      ((s.alloc c x tid detached).joiners b).tail
      (fun t => update place x (.held p) t = .joiners b) k := by
  have hiff : ∀ a, update place x (.held p) a = .joiners b ↔ place a = .joiners b := fun a =>
    allocPlace_iff (P := (· = .joiners b)) hgone a (by simp) (by simp)
  by_cases hbx : b = x
  · subst hbx
    refine ⟨0, ?_⟩
    show Threads _ (update s.joiners b ⟨none, none⟩ b).head
      (update s.joiners b ⟨none, none⟩ b).tail _ 0
    rw [update_self]
    exact threads_nil fun a ha => not_joined h hgone a ((hiff a).mp ha)
  · obtain ⟨k, hk⟩ := h.waits b (by rwa [update_of_ne hbx] at hb)
    refine ⟨k, ?_⟩
    show Threads _ (update s.joiners x ⟨none, none⟩ b).head
      (update s.joiners x ⟨none, none⟩ b).tail _ k
    rw [update_of_ne hbx]
    refine threads_congr (threads_update hk ?_ ⟨none, none⟩) (fun _ _ => rfl) hiff
    rw [hgone]
    exact fun he => by cases he

/-- What another task has in its hands. -/
theorem alloc_inHands {l : List TaskPtr} (hpx : p ≠ x) (hpt : p ≠ s.current c)
    (hlx : ∀ u ∈ l, u ≠ x) (hin : s.InHands home p l) :
    (s.alloc c x tid detached).InHands (update home x c) p l := by
  have hblk : ∀ u ∈ l, update s.blocker x ⟨none, none⟩ u = s.blocker u := fun u hu =>
    update_of_ne (hlx u hu) _ _
  have hlast : ∀ u ∈ l, s.lastProcessorId u = home u →
      update s.lastProcessorId x 0 u = update home x c u := fun u hu he => by
    rw [update_of_ne (hlx u hu), update_of_ne (hlx u hu)]
    exact he
  unfold Kernel.InHands at hin ⊢
  rw [alloc_pc hpx hpt]
  cases hpp : s.pc p with
  | killWake e =>
      rw [hpp] at hin
      exact ⟨follows_congr hin.1 hblk, fun u hu => hlast u hu (hin.2 u hu)⟩
  | killQueue e next =>
      rw [hpp] at hin
      obtain ⟨k, rfl, hk, hat⟩ := hin
      exact ⟨k, rfl, follows_congr hk fun u hu => hblk u (List.mem_cons_of_mem _ hu),
        fun u hu => hlast u hu (hat u hu)⟩
  | spawnEnqueue y =>
      rw [hpp] at hin
      obtain ⟨rfl, hy⟩ := hin
      refine ⟨rfl, ?_⟩
      rw [update_of_ne (hlx y List.mem_cons_self), update_of_ne hpx]
      exact hy
  | yieldSwitch k r =>
      rw [hpp] at hin
      refine ⟨hin.1, fun y hy => ?_⟩
      rw [update_of_ne (hlx y hy), update_of_ne hpx]
      exact hin.2 y hy
  | _ =>
      rw [hpp] at hin
      exact hin

theorem alloc_hands (h : SchedInv s place home) (hp : s.pc (s.current c) = .spawnInit tid detached)
    (hgone : place x = .gone) (hpg : update place x (.held (s.current c)) p ≠ .gone) :
    ∃ l : List TaskPtr, l.Nodup ∧ (∀ t, t ∈ l ↔ update place x (.held (s.current c)) t = .held p) ∧
      (s.alloc c x tid detached).InHands (update home x c) p l := by
  have htx := ne_of_gone hgone (h.cpus c).current
  by_cases hpx : p = x
  · subst hpx
    refine ⟨[], List.nodup_nil, fun u => ⟨fun hm => absurd hm List.not_mem_nil, fun he => ?_⟩,
      (inHands_quiet (by rw [alloc_pc_new htx]; rfl)).mpr rfl⟩
    rw [allocPlace_iff (P := (· = .held p)) hgone u (by simp) (by simpa using htx)] at he
    exact absurd hgone (h.held u p he)
  · rw [update_of_ne hpx] at hpg
    obtain ⟨l, hnd, hl, hin⟩ := h.hands p hpg
    by_cases hpt : p = s.current c
    · subst hpt
      obtain rfl := (inHands_quiet (by rw [hp]; rfl)).mp hin
      refine ⟨[x], List.nodup_singleton x, fun u => ?_, ?_⟩
      · rw [List.mem_singleton]
        by_cases hu : u = x
        · subst hu
          simp
        · rw [update_of_ne hu]
          refine ⟨fun he => absurd he hu, fun he => ?_⟩
          exact absurd ((hl u).mpr he) List.not_mem_nil
      · unfold Kernel.InHands
        rw [alloc_pc_current]
        refine ⟨rfl, ?_⟩
        rw [update_self, update_of_ne htx, (h.cpus c).currentHome]
    · have hlx : ∀ u ∈ l, u ≠ x := fun u hu => ne_of_gone hgone (by
        rw [(hl u).mp hu]
        exact fun he => by cases he)
      refine ⟨l, hnd, fun u => ?_, alloc_inHands hpx hpt hlx hin⟩
      rw [hl u]
      exact (allocPlace_iff (P := (· = .held p)) hgone u (by simp) (by simpa using Ne.symm hpt)).symm

theorem alloc_held (h : SchedInv s place home) (hgone : place x = .gone)
    (he : update place x (.held (s.current c)) u = .held p) :
    update place x (.held (s.current c)) p ≠ .gone := by
  have htx := ne_of_gone hgone (h.cpus c).current
  by_cases hpt : p = s.current c
  · rw [hpt, update_of_ne htx]
    exact (h.cpus c).current
  · have hpg := h.held u p ((allocPlace_iff (P := (· = .held p)) hgone u (by simp)
      (by simpa using Ne.symm hpt)).mp he)
    rw [update_of_ne (ne_of_gone hgone hpg)]
    exact hpg

theorem alloc_task (h : SchedInv s place home) (hp : s.pc (s.current c) = .spawnInit tid detached)
    (hgone : place x = .gone) (hu : update place x (.held (s.current c)) u ≠ .gone) :
    (s.alloc c x tid detached).TaskOk (update place x (.held (s.current c))) (update home x c) u := by
  have htx := ne_of_gone hgone (h.cpus c).current
  by_cases hux : u = x
  · subst hux
    have hst : (s.alloc c u tid detached).state u = .ready := update_self _ _ _
    have hpin : (s.alloc c u tid detached).pin u = none := update_self _ _ _
    unfold Kernel.TaskOk
    rw [alloc_pc_new htx, update_self, update_self, hst, hpin]
    exact
      { stands := Or.inr (Or.inr ⟨_, rfl⟩)
        self := fun he => by cases he
        parked := fun _ => rfl
        awake := fun he => absurd he htx
        pinned := fun _ => rfl
        last := fun he => by cases he
        idle := fun he => by cases he }
  · rw [update_of_ne hux] at hu
    have hold := h.tasks u hu
    have hstate : (s.alloc c x tid detached).state u = s.state u := update_of_ne hux _ _
    have hpin : (s.alloc c x tid detached).pin u = s.pin u := update_of_ne hux _ _
    have hlast : (s.alloc c x tid detached).lastProcessorId u = s.lastProcessorId u :=
      update_of_ne hux _ _
    unfold Kernel.TaskOk at hold ⊢
    rw [update_of_ne hux, update_of_ne hux, hstate, hpin, hlast]
    by_cases hut : u = s.current c
    · subst hut
      have hcur : s.current (home (s.current c)) = s.current c := by rw [(h.cpus c).currentHome]
      have hst : Active (place (s.current c)) (s.state (s.current c)) := current_stands h hp
      rw [alloc_pc_current]
      exact { hold with
        stands := hst
        parked := fun hn => absurd hcur hn
        awake := fun _ he => by cases he }
    · rw [alloc_pc hux hut]
      exact hold

theorem alloc_tick {d : Fin n} (hgone : place x = .gone) (hold : s.TickOk place home d) :
    (s.alloc c x tid detached).TickOk (update place x (.held (s.current c))) (update home x c) d := by
  have htick : (s.alloc c x tid detached).tick d = s.tick d := rfl
  unfold Kernel.TickOk at hold ⊢
  rw [htick]
  cases ht : s.tick d with
  | cleaning e =>
      rw [ht] at hold
      intro t he
      have hzombie := hold t he
      have htx : t ≠ x := ne_of_gone hgone (by rw [hzombie.1]; exact fun he => by cases he)
      rw [update_of_ne htx, update_of_ne htx]
      exact hzombie
  | off => exact True.intro
  | sleepers kept rest =>
      rw [ht] at hold
      exact hold
  | waking kept t rest =>
      rw [ht] at hold
      exact hold

theorem alloc_cpu (h : SchedInv s place home) (hgone : place x = .gone) (d : Fin n) :
    (s.alloc c x tid detached).CpuOk (update place x (.held (s.current c))) (update home x c) d := by
  have hd := h.cpus d
  have hcx : s.current d ≠ x := ne_of_gone hgone hd.current
  have hix : s.idle d ≠ x := ne_of_gone hgone (by rw [hd.idle]; exact fun he => by cases he)
  refine
    { current := by
        show update place x _ (s.current d) ≠ .gone
        rw [update_of_ne hcx]
        exact hd.current
      currentHome := (update_of_ne hcx _ _).trans hd.currentHome
      idle := (update_of_ne hix _ _).trans hd.idle
      idleHome := (update_of_ne hix _ _).trans hd.idleHome
      masked := fun hm => ?_
      ticked := hd.ticked
      tick := alloc_tick hgone hd.tick
      sleepers := hd.sleepers
      sleeping := fun u => ?_ }
  · have hm : ((s.alloc c x tid detached).pc (s.current d)).masked = true := hm
    by_cases hdc : d = c
    · subst hdc
      rw [alloc_pc_current] at hm
      cases hm
    · rw [alloc_pc hcx fun he => hdc (current_inj h he)] at hm
      exact hd.masked hm
  · refine (hd.sleeping u).trans ?_
    by_cases hux : u = x
    · subst hux
      rw [update_self, hgone]
      simp
    · rw [update_of_ne hux, update_of_ne hux]

/-- The new record has one reference, its own; nobody else's count changes. -/
theorem alloc_refs (h : SchedInv s place home) (hp : s.pc (s.current c) = .spawnInit tid detached)
    (hgone : place x = .gone) (hx : x ∉ s.live) :
    (s.alloc c x tid detached).RefsOk (update place x (.held (s.current c))) := by
  have htx := ne_of_gone hgone (h.cpus c).current
  have htarget : ∀ j, j ≠ x → ((s.alloc c x tid detached).pc j).target = (s.pc j).target := by
    intro j hj
    by_cases hjt : j = s.current c
    · rw [hjt, alloc_pc_current, hp]
      rfl
    · rw [alloc_pc hj hjt]
  have hcount : ∀ u, (x :: s.live).countP (fun j =>
      ((s.alloc c x tid detached).pc j).target = some u) =
        s.live.countP (fun j => (s.pc j).target = some u) := by
    intro u
    rw [List.countP_cons_of_neg (by rw [alloc_pc_new htx]; simp [Pc.target])]
    refine List.countP_congr fun j hj => ?_
    rw [htarget j]
    rintro rfl
    exact hx hj
  refine
    { live := fun t => ?_
      nodup := List.nodup_cons.mpr ⟨hx, h.refs.nodup⟩
      refs := fun u hu => (?_ : _ = _).trans (congrArg _ (hcount u).symm)
      targets := fun j b hj hb he => ?_ }
  · show t ∈ x :: s.live ↔ _
    by_cases htx : t = x
    · subst htx
      simp
    · rw [update_of_ne htx, List.mem_cons, or_iff_right htx]
      exact h.refs.live t
  · by_cases hux : u = x
    · subst hux
      have hzero : s.live.countP (fun j => (s.pc j).target = some u) = 0 := by
        refine List.countP_eq_zero.mpr fun j hj he => ?_
        exact h.refs.targets j u ((h.refs.live j).mp hj) (of_decide_eq_true he) hgone
      rw [alloc_pc_new htx, hzero]
      exact update_self _ _ _
    · rw [update_of_ne hux] at hu
      have hrel : ((s.alloc c x tid detached).pc u).released = (s.pc u).released := by
        by_cases hut : u = s.current c
        · rw [hut, alloc_pc_current, hp]
          rfl
        · rw [alloc_pc hux hut]
      rw [hrel, ← h.refs.refs u hu]
      exact update_of_ne hux _ _
  · have hjx : j ≠ x := by
      rintro rfl
      rw [alloc_pc_new htx] at hb
      cases hb
    rw [htarget j hjx] at hb
    rw [update_of_ne hjx] at hj
    have hbg := h.refs.targets j b hj hb
    rw [update_of_ne (ne_of_gone hgone hbg)] at he
    exact hbg he

/-- **A record is handed out** for a task that will be enqueued. -/
theorem inv_alloc (h : SchedInv s place home)
    (hp : s.pc (s.current c) = .spawnInit tid detached) (hx : x ∉ s.live) :
    SchedInv (s.alloc c x tid detached) (update place x (.held (s.current c)))
      (update home x c) := by
  have hgone : place x = .gone := by
    by_contra hne
    exact hx ((h.refs.live x).mpr hne)
  refine
    { queues := fun q => ?_
      waits := fun b hb => alloc_waits h hgone hb
      hands := fun p hpg => alloc_hands h hp hgone hpg
      held := fun t p ht => alloc_held h hgone ht
      tasks := fun u hu => alloc_task h hp hgone hu
      cpus := fun d => alloc_cpu h hgone d
      idles := fun t ht => ?_
      refs := alloc_refs h hp hgone hx }
  · refine threads_congr (threads_update (h.queues q) ?_ ⟨none, none⟩) (fun _ _ => rfl) fun a => by
      rw [allocPlace_slot hgone a]
    rw [hgone]
    exact fun he => by cases he
  · have ht : place t = .idle := (allocPlace_iff (P := (· = .idle)) hgone t (by simp) (by simp)).mp ht
    have htx : t ≠ x := ne_of_gone hgone (by rw [ht]; exact fun he => by cases he)
    rw [update_of_ne htx]
    exact h.idles t ht

end Alloc

end Step

end Slightx
