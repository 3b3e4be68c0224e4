/-
  File:      Slightx/Proc/SchedMoves.lean
  Subject:   One task moves from one place to another, or none does.

  * `schedInv_control`, `schedInv_move` -- a step that moves no task, and one that moves one;
  * `inv_call`, `inv_joinNext`, ... -- the steps that move none;
  * `inv_spawnEnqueue`, `inv_yieldEnqueue`, `inv_killEnqueue` -- those that put one into a queue
-/
import Slightx.Proc.SchedInv

namespace Slightx

open Lib Function

variable {n : Nat}

section Step

variable {s s' : Kernel n} {place place' : TaskPtr → Place} {home : TaskPtr → Fin n} {c : Fin n}

/-! ## 1. Steps that move no task -/

theorem inHands_quiet {p : TaskPtr} {l : List TaskPtr} (hq : (s.pc p).quiet = true) :
    s.InHands home p l ↔ l = [] := by
  unfold Kernel.InHands
  cases hp : s.pc p <;> rw [hp] at hq <;> first | exact Iff.rfl | cases hq

/-- **A step that moves no task.** -/
theorem schedInv_control (h : SchedInv s place home) (hf : s.Frame s' c) (hoff : s.tick c = .off)
    (hsib : s'.siblings = s.siblings) (htasks : s'.tasks = s.tasks) (hcleanup : s'.cleanup = s.cleanup)
    (hjoiners : s'.joiners = s.joiners) (hsleepers : s'.sleepers = s.sleepers)
    (hstate : ∀ u, u ≠ s.current c → s'.state u = s.state u)
    (hblocker : ∀ u, s'.blocker u = s.blocker u ∨ place u = .self)
    (htask : s'.TaskOk place home (s.current c))
    (hhands : ∀ l, s.InHands home (s.current c) l → s'.InHands home (s.current c) l)
    (hmasked : (s'.pc (s.current c)).masked = true → s'.interrupts c = false)
    (hrefs : s.Refs s' place (s.current c)) : SchedInv s' place home := by
  have hblk : ∀ u, place u ≠ .self → s'.blocker u = s.blocker u :=
    fun u hu => (hblocker u).resolve_right hu
  refine schedInv_go h hf hoff (fun _ => Iff.rfl) (fun _ => Iff.rfl) (fun _ he => he) ?_ ?_ ?_ ?_
    (fun _ _ _ => Iff.rfl) ?_ hmasked ?_ ?_ hrefs
  · intro u hu hcases
    rcases hcases with rfl | hne | hne
    · exact htask
    · exact absurd rfl hne
    · by_cases hut : u = s.current c
      · exact hut ▸ htask
      · exact absurd (hstate u hut) hne
  · intro q
    have hq : s'.queue q = s.queue q := by
      cases q with
      | tasks d => exact congrFun htasks d
      | cleanup d => exact congrFun hcleanup d
    rw [hsib, hq]
    exact h.queues q
  · intro b hb
    obtain ⟨k, hk⟩ := h.waits b hb
    rw [hjoiners]
    refine ⟨k, threads_congr hk (fun a ha => hblk a ?_) fun a => Iff.rfl⟩
    rw [ha]
    exact fun he => nomatch he
  · obtain ⟨l, hnd, hl, hin⟩ := h.hands (s.current c) (h.cpus c).current
    exact ⟨l, hnd, hl, hhands l hin⟩
  · intro p _ u hu
    refine hblk u ?_
    rw [hu]
    exact fun he => nomatch he
  · rw [hsleepers]
    exact (h.cpus c).sleepers
  · intro d u
    rw [hsleepers]
    exact (h.cpus d).sleeping u

theorem hands_quiet (hq : (s.pc (s.current c)).quiet = true) (hq' : (s'.pc (s.current c)).quiet = true)
    (l : List TaskPtr) (hl : s.InHands home (s.current c) l) : s'.InHands home (s.current c) l :=
  (inHands_quiet hq').mpr ((inHands_quiet hq).mp hl)

/-- The record of the current task after its step. -/
theorem taskOk_current (h : SchedInv s place home) (hf : s.Frame s' c)
    (hstands : Stands (s'.pc (s.current c)) (place' (s.current c)) (s'.state (s.current c)))
    (hawake : (s'.pc (s.current c)).parked = true →
      place' (s.current c) = .self ∨ place' (s.current c) = .idle)
    (hidle : place' (s.current c) = .idle → s'.state (s.current c) = .ready)
    (hkeep : place' (s.current c) ≠ .idle → place (s.current c) ≠ .idle)
    (hran : (place' (s.current c)).ran = true → (place (s.current c)).ran = true) :
    s'.TaskOk place' home (s.current c) := by
  have hc := h.cpus c
  have hold := h.tasks _ hc.current
  have hcur : s'.current (home (s.current c)) = s.current c := by rw [hf.current, hc.currentHome]
  refine
    { stands := hstands
      self := fun _ => hcur
      parked := fun hn => absurd hcur hn
      awake := fun _ => hawake
      pinned := fun he => ?_
      last := fun he => ?_
      idle := hidle }
  · rw [hf.pin]
    exact hold.pinned (hkeep he)
  · rw [hf.last]
    exact hold.last (hran he)

/-- Between two operations the current task runs. -/
theorem active_parked (h : SchedInv s place home) (hp : (s.pc (s.current c)).parked = true)  :
    Active (place (s.current c)) (s.state (s.current c)) := by
  have hc := h.cpus c
  have hold := h.tasks _ hc.current
  have hcur : s.current (home (s.current c)) = s.current c := by rw [hc.currentHome]
  rcases hold.awake hcur hp with hpl | hpl
  · refine Or.inr ⟨hpl, ?_⟩
    have hst := hold.stands
    cases hpc : s.pc (s.current c) <;> rw [hpc] at hp <;> simp only [Pc.parked, Bool.false_eq_true] at hp
    case away =>
        rw [hpc, hpl] at hst
        rcases hst with hst | hst | ⟨q, hst⟩
        · rcases hst with hst | hst
          · cases hst
          · exact hst.2
        · cases hst
        · cases hst
    case yieldBack k =>
        rw [hpc, hpl] at hst
        rcases hst with hst | hst
        · cases k with
          | killed => cases hst
          | caller => rcases hst with hst | hst | ⟨q, hst⟩ <;> cases hst
          | slept => rcases hst with hst | hst | ⟨q, hst⟩ <;> cases hst
          | joined x => rcases hst with hst | hst | ⟨q, hst⟩ <;> cases hst
        · exact hst.2.2
  · exact Or.inl hpl

/-- The idle task of a processor, and only it, has the place for it. -/
theorem current_idle (h : SchedInv s place home) :
    place (s.current c) = .idle ↔ s.current c = s.idle c := by
  constructor
  · intro he
    rw [← h.idles _ he, (h.cpus c).currentHome]
  · intro he
    rw [he]
    exact (h.cpus c).idle

/-- **A step that moves no task**, from one point of the code to another. -/
theorem schedInv_quiet (h : SchedInv s place home) (hoff : s.tick c = .off) (hf : s.Frame s' c)
    {p p' : Pc} (hp : s.pc (s.current c) = p) (hp' : s'.pc (s.current c) = p')
    (hq : p.quiet = true ∧ p'.quiet = true)
    (hlinks : s'.siblings = s.siblings ∧ s'.tasks = s.tasks ∧ s'.cleanup = s.cleanup ∧
      s'.joiners = s.joiners ∧ s'.sleepers = s.sleepers)
    (hblocker : ∀ u, s'.blocker u = s.blocker u ∨ place u = .self)
    (hstate : ∀ u, u ≠ s.current c → s'.state u = s.state u)
    (hstands : Stands p' (place (s.current c)) (s'.state (s.current c)))
    (hawake : p'.parked = true → place (s.current c) = .self ∨ place (s.current c) = .idle)
    (hidle : place (s.current c) = .idle → s'.state (s.current c) = .ready)
    (hmasked : p'.masked = true → s'.interrupts c = false)
    (hrefs : s.Refs s' place (s.current c)) : SchedInv s' place home := by
  obtain ⟨hsib, htasks, hcleanup, hjoiners, hsleepers⟩ := hlinks
  subst hp hp'
  exact schedInv_control h hf hoff hsib htasks hcleanup hjoiners hsleepers hstate hblocker
    (taskOk_current h hf hstands hawake hidle id id) (hands_quiet hq.1 hq.2) hmasked hrefs

/-- A step to `p'` that touches nothing but the state of the task and the interrupt flag. -/
theorem schedInv_point (h : SchedInv s place home) (hoff : s.tick c = .off) {p : Pc}
    (hp : s.pc (s.current c) = p) (p' : Pc) (st : TaskStateType) (i : Bool)
    (hq : p.quiet = true ∧ p'.quiet = true)
    (htgt : p'.target = p.target ∧ p'.released = p.released)
    (hstands : Stands p' (place (s.current c)) st)
    (hawake : p'.parked = true → place (s.current c) = .self ∨ place (s.current c) = .idle)
    (hidle : place (s.current c) = .idle → st = .ready) (hmasked : p'.masked = true → i = false) :
    SchedInv (((s.setInterrupts c i).setState (s.current c) st).setPc (s.current c) p') place home := by
  have hf : s.Frame (((s.setInterrupts c i).setState (s.current c) st).setPc (s.current c) p') c :=
    ⟨rfl, rfl, rfl, rfl, rfl, rfl, fun _ _ => rfl, fun u hu => update_of_ne hu _ _,
      fun d hd => update_of_ne hd _ _⟩
  have hp' := update_self (s.current c) p' s.pc
  refine schedInv_quiet h hoff hf hp hp' hq ⟨rfl, rfl, rfl, rfl, rfl⟩ (fun _ => Or.inl rfl)
    (fun u hu => update_of_ne hu _ _) ?_ hawake ?_ ?_ (refs_same h hf.pc rfl hp hp' htgt.1 htgt.2)
  · show Stands p' _ (update s.state (s.current c) st (s.current c))
    rw [update_self]
    exact hstands
  · show _ → update s.state (s.current c) st (s.current c) = _
    rw [update_self]
    exact hidle
  · show _ → update s.interrupts c i c = _
    rw [update_self]
    exact hmasked

theorem setState_self (t : TaskPtr) : s.setState t (s.state t) = s := by
  unfold Kernel.setState
  rw [update_eq_self]

theorem setInterrupts_self (c : Fin n) : s.setInterrupts c (s.interrupts c) = s := by
  unfold Kernel.setInterrupts
  rw [update_eq_self]

/-- An operation starts. -/
theorem inv_call (h : SchedInv s place home) (hoff : s.tick c = .off)
    (haway : s.pc (s.current c) = .away) {op : SchedOp} (hs : callOp s c op = some s') :
    SchedInv s' place home := by
  have hact : Active (place (s.current c)) (s.state (s.current c)) :=
    active_parked h (by rw [haway]; rfl)
  have hidle : place (s.current c) = .idle → s.state (s.current c) = .ready :=
    (h.tasks _ (h.cpus c).current).idle
  have hself : s.current c ≠ s.idle c →
      place (s.current c) = .self ∧ s.state (s.current c) = .running := by
    intro hne
    rcases hact with hact | hact
    · exact absurd ((current_idle h).mp hact) hne
    · exact hact
  cases op with
  | spawn detached =>
      obtain rfl := Option.some.inj hs
      have hinv := schedInv_point h hoff haway (.spawnTid detached) (s.state (s.current c))
        (s.interrupts c) ⟨rfl, rfl⟩ ⟨rfl, rfl⟩ hact (fun he => nomatch he) hidle fun he => nomatch he
      rwa [setInterrupts_self, setState_self] at hinv
  | yield =>
      obtain rfl := Option.some.inj hs
      have hinv := schedInv_point h hoff haway (.yieldEnter .caller) (s.state (s.current c)) false
        ⟨rfl, rfl⟩ ⟨rfl, rfl⟩ (Or.inl ⟨rfl, hact⟩) (fun he => nomatch he) hidle fun _ => rfl
      rwa [show s.state = (s.setInterrupts c false).state from rfl, setState_self] at hinv
  | sleep =>
      unfold callOp at hs
      dsimp only at hs
      split at hs
      · cases hs
      rename_i hne
      obtain rfl := Option.some.inj hs
      obtain ⟨hpl, hst⟩ := hself hne
      refine schedInv_quiet h hoff
        ⟨rfl, rfl, rfl, rfl, rfl, rfl, fun _ _ => rfl, fun u hu => update_of_ne hu _ _,
          fun d hd => update_of_ne hd _ _⟩
        haway (update_self _ _ _) ⟨rfl, rfl⟩ ⟨rfl, rfl, rfl, rfl, rfl⟩ (fun u => ?_) (fun _ _ => rfl)
        ⟨hpl, hst⟩ (fun he => nomatch he) hidle (fun _ => update_self _ _ _)
        (refs_same h (fun u hu => update_of_ne hu _ _) rfl haway (update_self _ _ _) rfl rfl)
      by_cases hu : u = s.current c
      · exact Or.inr (hu ▸ hpl)
      · exact Or.inl (update_of_ne hu _ _)
  | join tid =>
      unfold callOp at hs
      dsimp only at hs
      split at hs
      · cases hs
      rename_i hne
      obtain rfl := Option.some.inj hs
      have hinv := schedInv_point h hoff haway (.joinFind tid 0 .tasks) (s.state (s.current c))
        (s.interrupts c) ⟨rfl, rfl⟩ ⟨rfl, rfl⟩ (hself hne) (fun he => nomatch he) hidle fun he => nomatch he
      rwa [setInterrupts_self, setState_self] at hinv
  | kill =>
      unfold callOp at hs
      dsimp only at hs
      split at hs
      · cases hs
      rename_i hne
      obtain rfl := Option.some.inj hs
      have hpl := (hself hne).1
      have hinv := schedInv_point h hoff haway .killTake .zombie (s.interrupts c) ⟨rfl, rfl⟩ ⟨rfl, rfl⟩
        ⟨hpl, rfl⟩ (fun he => nomatch he) (fun he => nomatch hpl.symm.trans he) fun he => nomatch he
      rwa [setInterrupts_self] at hinv

/-- The current task at one of its points. -/
theorem current_stands (h : SchedInv s place home) {p : Pc} (hp : s.pc (s.current c) = p) :
    Stands p (place (s.current c)) (s.state (s.current c)) := by
  rw [← hp]
  exact (h.tasks _ (h.cpus c).current).stands

theorem current_idle_ready (h : SchedInv s place home) :
    place (s.current c) = .idle → s.state (s.current c) = .ready :=
  (h.tasks _ (h.cpus c).current).idle

theorem inv_spawnTid (h : SchedInv s place home) (hoff : s.tick c = .off) {detached : Bool}
    (hp : s.pc (s.current c) = .spawnTid detached) :
    SchedInv ({ s with nextTaskId := s.nextTaskId + 1 }.setPc (s.current c)
      (.spawnInit s.nextTaskId detached)) place home := by
  have hst : Active (place (s.current c)) (s.state (s.current c)) := current_stands h hp
  exact schedInv_quiet h hoff
    ⟨rfl, rfl, rfl, rfl, rfl, rfl, fun _ _ => rfl, fun u hu => update_of_ne hu _ _, fun _ _ => rfl⟩
    hp (update_self _ _ _) ⟨rfl, rfl⟩ ⟨rfl, rfl, rfl, rfl, rfl⟩ (fun _ => Or.inl rfl) (fun _ _ => rfl)
    hst (fun he => nomatch he) (current_idle_ready h) (fun he => nomatch he)
    (refs_same h (fun u hu => update_of_ne hu _ _) rfl hp (update_self _ _ _) rfl rfl)

theorem inv_yieldEnter (h : SchedInv s place home) (hoff : s.tick c = .off) {k : After}
    (hp : s.pc (s.current c) = .yieldEnter k)
    (hs : (if s.state (s.current c) = .running then
        some ((s.setState (s.current c) .ready).setPc (s.current c) (.yieldEnqueue k))
      else some (s.setPc (s.current c) (.yieldDequeue k))) = some s') : SchedInv s' place home := by
  have hst := current_stands h hp
  have hmask : s.interrupts c = false := (h.cpus c).masked (by rw [hp]; rfl)
  split at hs
  · rename_i hrun
    obtain rfl := Option.some.inj hs
    obtain ⟨rfl, hact⟩ : k = .caller ∧ Active (place (s.current c)) (s.state (s.current c)) := by
      rcases hst with hst | ⟨_, _, hne⟩
      · exact hst
      · exact absurd hrun hne
    have hself : place (s.current c) = .self := by
      rcases hact with hact | hact
      · rw [current_idle_ready h hact] at hrun
        cases hrun
      · exact hact.1
    have hinv := schedInv_point h hoff hp (.yieldEnqueue .caller) .ready (s.interrupts c) ⟨rfl, rfl⟩
      ⟨rfl, rfl⟩ ⟨rfl, hself⟩ (fun he => nomatch he) (fun _ => rfl) fun _ => hmask
    rwa [setInterrupts_self] at hinv
  · rename_i hrun
    obtain rfl := Option.some.inj hs
    have hhand : k.Handed (place (s.current c)) := by
      rcases hst with ⟨rfl, hact⟩ | ⟨_, hhand, _⟩
      · rcases hact with hact | hact
        · exact Or.inl hact
        · exact absurd hact.2 hrun
      · exact hhand
    have hinv := schedInv_point h hoff hp (.yieldDequeue k) (s.state (s.current c)) (s.interrupts c)
      ⟨rfl, rfl⟩ ⟨rfl, by cases k <;> rfl⟩ hhand (fun he => nomatch he) (current_idle_ready h)
      fun _ => hmask
    rwa [setInterrupts_self, setState_self] at hinv

theorem inv_sleepBlock (h : SchedInv s place home) (hoff : s.tick c = .off)
    (hp : s.pc (s.current c) = .sleepBlock) :
    SchedInv ((s.setState (s.current c) .blocked).setPc (s.current c) (.yieldEnter .slept)) place home := by
  have hst : After.slept.Handed (place (s.current c)) := current_stands h hp
  have hmask : s.interrupts c = false := (h.cpus c).masked (by rw [hp]; rfl)
  have hne : place (s.current c) ≠ .idle := by
    rcases hst with hst | hst | ⟨q, hst⟩ <;> simp [hst]
  have hinv := schedInv_point h hoff hp (.yieldEnter .slept) .blocked (s.interrupts c) ⟨rfl, rfl⟩
    ⟨rfl, rfl⟩ (Or.inr ⟨by simp, hst, by simp⟩) (fun he => nomatch he) (fun he => absurd he hne)
    fun _ => hmask
  rwa [setInterrupts_self] at hinv

theorem joined_ne_idle {b : TaskPtr} {pl : Place} (hst : (After.joined b).Handed pl) : pl ≠ .idle := by
  rcases hst with hst | hst | ⟨q, hst⟩ <;> simp [hst]

theorem inv_joinRecheck (h : SchedInv s place home) (hoff : s.tick c = .off) {x : TaskPtr}
    (hp : s.pc (s.current c) = .joinRecheck x)
    (hs : (if s.state x = .zombie then some (s.setPc (s.current c) (.joinDel x))
      else some (s.setPc (s.current c) (.joinBlock x))) = some s') : SchedInv s' place home := by
  have hst := current_stands h hp
  split at hs
  · obtain rfl := Option.some.inj hs
    have hinv := schedInv_point h hoff hp (.joinDel x) (s.state (s.current c)) (s.interrupts c)
      ⟨rfl, rfl⟩ ⟨rfl, rfl⟩ hst (fun he => nomatch he) (current_idle_ready h) fun he => nomatch he
    rwa [setInterrupts_self, setState_self] at hinv
  · obtain rfl := Option.some.inj hs
    have hinv := schedInv_point h hoff hp (.joinBlock x) (s.state (s.current c)) (s.interrupts c)
      ⟨rfl, rfl⟩ ⟨rfl, rfl⟩ hst.1 (fun he => nomatch he) (current_idle_ready h) fun he => nomatch he
    rwa [setInterrupts_self, setState_self] at hinv

theorem inv_joinBlock (h : SchedInv s place home) (hoff : s.tick c = .off) {x : TaskPtr}
    (hp : s.pc (s.current c) = .joinBlock x) :
    SchedInv (((s.setInterrupts c false).setState (s.current c) .blocked).setPc (s.current c)
      (.yieldEnter (.joined x))) place home := by
  have hst : (After.joined x).Handed (place (s.current c)) := current_stands h hp
  exact schedInv_point h hoff hp (.yieldEnter (.joined x)) .blocked false ⟨rfl, rfl⟩ ⟨rfl, rfl⟩
    (Or.inr ⟨by simp, hst, by simp⟩) (fun he => nomatch he) (fun he => absurd he (joined_ne_idle hst))
    fun _ => rfl

/-- A task gives a reference back, and its operation is over. -/
theorem inv_leave (h : SchedInv s place home) (hoff : s.tick c = .off) {p : Pc} {x : TaskPtr}
    (hp : s.pc (s.current c) = p) (hq : p.quiet = true) (htgt : p.target = some x)
    (hrel : p.released = false) (hact : place (s.current c) = .self ∧ s.state (s.current c) = .running)
    (i : Bool) (hs : (·.setPc (s.current c) .away) <$> taskRelease (s.setInterrupts c i) x = some s') :
    SchedInv s' place home := by
  unfold taskRelease at hs
  split at hs
  · cases hs
  rename_i hx
  obtain rfl := Option.some.inj hs
  exact schedInv_quiet h hoff
    ⟨rfl, rfl, rfl, rfl, rfl, rfl, fun _ _ => rfl, fun u hu => update_of_ne hu _ _,
      fun d hd => update_of_ne hd _ _⟩
    hp (update_self _ _ _) ⟨hq, rfl⟩ ⟨rfl, rfl, rfl, rfl, rfl⟩ (fun _ => Or.inl rfl) (fun _ _ => rfl)
    (Or.inl (Or.inr hact)) (fun _ => Or.inl hact.1) (current_idle_ready h) (fun he => nomatch he)
    (refs_give h (fun u hu => update_of_ne hu _ _) hx rfl hp (update_self _ _ _) htgt rfl hrel.symm)

theorem inv_yieldBack (h : SchedInv s place home) (hoff : s.tick c = .off) {k : After}
    (hp : s.pc (s.current c) = .yieldBack k) (hs : goStep s c = some s') : SchedInv s' place home := by
  have hact : Active (place (s.current c)) (s.state (s.current c)) :=
    active_parked h (by rw [hp]; rfl)
  have hplace : place (s.current c) = .self ∨ place (s.current c) = .idle := by
    rcases hact with hact | hact
    · exact Or.inr hact
    · exact Or.inl hact.1
  dsimp only [goStep] at hs
  rw [hp] at hs
  cases k with
  | caller =>
      obtain rfl := Option.some.inj hs
      have hinv := schedInv_point h hoff hp .away (s.state (s.current c)) (s.interrupts c)
        ⟨rfl, rfl⟩ ⟨rfl, rfl⟩ (Or.inl hact) (fun _ => hplace) (current_idle_ready h) fun he => nomatch he
      rwa [setInterrupts_self, setState_self] at hinv
  | slept =>
      obtain rfl := Option.some.inj hs
      have hinv := schedInv_point h hoff hp .away (s.state (s.current c)) true
        ⟨rfl, rfl⟩ ⟨rfl, rfl⟩ (Or.inl hact) (fun _ => hplace) (current_idle_ready h) fun he => nomatch he
      rwa [show s.state = (s.setInterrupts c true).state from rfl, setState_self] at hinv
  | joined x =>
      have hself : place (s.current c) = .self ∧ s.state (s.current c) = .running := by
        rcases hact with hact | hact
        · have hst := current_stands h hp
          rw [hact] at hst
          rcases hst with hst | hst
          · exact absurd rfl (joined_ne_idle hst)
          · exact nomatch hst.2.1
        · exact hact
      exact inv_leave h hoff hp rfl rfl rfl hself true hs
  | killed => cases hs

theorem inv_joinCheck (h : SchedInv s place home) (hoff : s.tick c = .off) {x : TaskPtr}
    (hp : s.pc (s.current c) = .joinCheck x) (hs : goStep s c = some s') : SchedInv s' place home := by
  have hst := current_stands h hp
  dsimp only [goStep] at hs
  rw [hp] at hs
  dsimp only at hs
  split at hs
  · cases hs
  split at hs
  · refine inv_leave h hoff hp rfl rfl rfl hst (s.interrupts c) ?_
    rw [setInterrupts_self]
    exact hs
  · obtain rfl := Option.some.inj hs
    refine schedInv_quiet h hoff
      ⟨rfl, rfl, rfl, rfl, rfl, rfl, fun _ _ => rfl, fun u hu => update_of_ne hu _ _, fun _ _ => rfl⟩
      hp (update_self _ _ _) ⟨rfl, rfl⟩ ⟨rfl, rfl, rfl, rfl, rfl⟩ (fun u => ?_) (fun _ _ => rfl) hst
      (fun he => nomatch he) (current_idle_ready h) (fun he => nomatch he)
      (refs_same h (fun u hu => update_of_ne hu _ _) rfl hp (update_self _ _ _) rfl rfl)
    by_cases hu : u = s.current c
    · exact Or.inr (hu ▸ hst.1)
    · exact Or.inl (update_of_ne hu _ _)

theorem inv_joinLeave (h : SchedInv s place home) (hoff : s.tick c = .off) {x : TaskPtr}
    (hp : s.pc (s.current c) = .joinLeave x)
    (hs : (·.setPc (s.current c) .away) <$> taskRelease s x = some s') : SchedInv s' place home := by
  refine inv_leave h hoff hp rfl rfl rfl (current_stands h hp) (s.interrupts c) ?_
  rw [setInterrupts_self]
  exact hs

/-- The walk of `runqueue_find_by_id` finds a task of the queue. -/
theorem find_reaches {siblings : TaskPtr → Links TaskPtr} {id : TaskPtr → Tid} {tid : Tid} {fuel : Nat}
    {head : Option TaskPtr} {x : TaskPtr}
    (hfind : runqueueFindById siblings id tid fuel head = some (some x)) : Reaches siblings x head := by
  induction fuel generalizing head with
  | zero =>
      cases head with
      | none => cases hfind
      | some a => cases hfind
  | succ fuel ih =>
      cases head with
      | none => cases hfind
      | some a =>
          unfold runqueueFindById at hfind
          split at hfind
          · obtain rfl := Option.some.inj (Option.some.inj hfind)
            exact .here
          · exact .on (ih hfind)

theorem queue_not_gone (h : SchedInv s place home) {q : QueueId n} {x : TaskPtr}
    (hx : Reaches s.siblings x (s.queue q).head) : place x ≠ .gone := by
  intro he
  have hq := (threads_reaches (h.queues q)).mp hx
  rw [he] at hq
  cases hq

/-- A reference to `x` is taken. -/
theorem inv_acquire (h : SchedInv s place home) (hoff : s.tick c = .off) {tid : Tid} {i : Nat}
    {phase : FindPhase} (hp : s.pc (s.current c) = .joinFind tid i phase) {x : TaskPtr}
    (hx : place x ≠ .gone) :
    SchedInv ((s.setRefcount x (s.refcount x + 1)).setPc (s.current c) (.joinCheck x)) place home := by
  have hst : place (s.current c) = .self ∧ s.state (s.current c) = .running := current_stands h hp
  exact schedInv_quiet h hoff
    ⟨rfl, rfl, rfl, rfl, rfl, rfl, fun _ _ => rfl, fun u hu => update_of_ne hu _ _, fun _ _ => rfl⟩
    hp (update_self _ _ _) ⟨rfl, rfl⟩ ⟨rfl, rfl, rfl, rfl, rfl⟩ (fun _ => Or.inl rfl) (fun _ _ => rfl)
    hst (fun he => nomatch he) (current_idle_ready h) (fun he => nomatch he)
    (refs_take h (fun u hu => update_of_ne hu _ _) hx rfl hp (update_self _ _ _) rfl rfl rfl)

/-- The lookup goes on to another place. -/
theorem inv_joinNext (h : SchedInv s place home) (hoff : s.tick c = .off) {tid : Tid} {i : Nat}
    {phase : FindPhase} (hp : s.pc (s.current c) = .joinFind tid i phase) (j : Nat) (ph : FindPhase) :
    SchedInv (s.setPc (s.current c) (.joinFind tid j ph)) place home := by
  have hst : place (s.current c) = .self ∧ s.state (s.current c) = .running := current_stands h hp
  have hinv := schedInv_point h hoff hp (.joinFind tid j ph) (s.state (s.current c)) (s.interrupts c)
    ⟨rfl, rfl⟩ ⟨rfl, rfl⟩ hst (fun he => nomatch he) (current_idle_ready h)
    fun he => nomatch he
  rwa [setInterrupts_self, setState_self] at hinv

theorem inv_joinFind (h : SchedInv s place home) (hoff : s.tick c = .off) {tid : Tid} {i : Nat}
    {phase : FindPhase} (hp : s.pc (s.current c) = .joinFind tid i phase)
    (hs : schedulerGetTaskById s (s.current c) tid i phase = some s') : SchedInv s' place home := by
  have hnext : ∀ j ph, SchedInv (s.setPc (s.current c) (.joinFind tid j ph)) place home :=
    inv_joinNext h hoff hp
  have hfound : ∀ x, place x ≠ .gone →
      (·.setPc (s.current c) (.joinCheck x)) <$> taskAcquire s x = some s' → SchedInv s' place home := by
    intro x hx hacq
    unfold taskAcquire at hacq
    split at hacq
    · cases hacq
    · obtain rfl := Option.some.inj hacq
      exact inv_acquire h hoff hp hx
  unfold schedulerGetTaskById at hs
  split at hs
  · rename_i hi
    cases phase with
    | tasks =>
        cases hfind : runqueueFindById s.siblings s.id tid (s.live.length + 1) (s.tasks ⟨i, hi⟩).head with
        | none =>
            rw [hfind] at hs
            cases hs
        | some r =>
            rw [hfind] at hs
            cases r with
            | none =>
                obtain rfl := Option.some.inj hs
                exact hnext _ _
            | some x => exact hfound x (queue_not_gone (q := .tasks ⟨i, hi⟩) h (find_reaches hfind)) hs
    | cleanup =>
        cases hfind : runqueueFindById s.siblings s.id tid (s.live.length + 1) (s.cleanup ⟨i, hi⟩).head with
        | none =>
            rw [hfind] at hs
            cases hs
        | some r =>
            rw [hfind] at hs
            cases r with
            | none =>
                obtain rfl := Option.some.inj hs
                exact hnext _ _
            | some x => exact hfound x (queue_not_gone (q := .cleanup ⟨i, hi⟩) h (find_reaches hfind)) hs
    | current =>
        dsimp only at hs
        split at hs
        · obtain rfl := Option.some.inj hs
          exact inv_acquire h hoff hp (h.cpus ⟨i, hi⟩).current
        · obtain rfl := Option.some.inj hs
          exact hnext _ _
  · cases hs

/-! ## 2. Links -/

/-- A task that is linked nowhere goes to the back of a queue. -/
theorem queues_enqueue (h : SchedInv s place home) {x : TaskPtr} {q : QueueId n} {pl : Place}
    (hx : (place x).queue (home x) = none) (hpl : pl.queue (home x) = some q)
    (hqueue : ∀ r, s'.queue r = if r = q then (runqueueEnqueue (s.queue q) x s.siblings).1 else s.queue r)
    (hsib : s'.siblings = (runqueueEnqueue (s.queue q) x s.siblings).2) (r : QueueId n) :
    Threads s'.siblings (s'.queue r).head (s'.queue r).tail
      (fun t => (update place x pl t).queue (home t) = some r) (s'.queue r).count := by
  have hnot : ∀ r, ¬ (place x).queue (home x) = some r := by
    intro r
    rw [hx]
    exact fun he => nomatch he
  rw [hqueue r, hsib]
  by_cases hr : r = q
  · subst hr
    rw [if_pos rfl]
    refine threads_congr (threads_append (h.queues r) (hnot r)) (fun _ _ => rfl) fun a => ?_
    by_cases ha : a = x
    · subst ha
      simp [hpl]
    · simp [ha]
  · rw [if_neg hr]
    refine threads_congr (threads_append_off (h.queues q) (h.queues r) (fun a ha hq => ?_) (hnot r))
      (fun _ _ => rfl) fun a => ?_
    · exact hr (Option.some.inj (ha.symm.trans hq))
    · by_cases ha : a = x
      · subst ha
        simp [hpl, hx, Ne.symm hr]
      · rw [update_of_ne ha]

/-- The queues of a step that moves a task between places that are no queues. -/
theorem queues_same (h : SchedInv s place home) (hsib : s'.siblings = s.siblings)
    (htasks : s'.tasks = s.tasks) (hcleanup : s'.cleanup = s.cleanup)
    (hplace : ∀ u, (place' u).queue (home u) = (place u).queue (home u)) (r : QueueId n) :
    Threads s'.siblings (s'.queue r).head (s'.queue r).tail
      (fun t => (place' t).queue (home t) = some r) (s'.queue r).count := by
  have hr : s'.queue r = s.queue r := by
    cases r with
    | tasks d => exact congrFun htasks d
    | cleanup d => exact congrFun hcleanup d
  rw [hsib, hr]
  refine threads_congr (h.queues r) (fun _ _ => rfl) fun a => ?_
  rw [hplace a]

/-- The lists of joiners of a step that leaves them alone. -/
theorem waits_same (h : SchedInv s place home) (hjoiners : s'.joiners = s.joiners)
    (hblocker : ∀ u, (∃ b, place u = .joiners b) → s'.blocker u = s.blocker u)
    (hplace : ∀ u b, place' u = .joiners b ↔ place u = .joiners b) (b : TaskPtr) (hb : place b ≠ .gone) :
    ∃ k, Threads s'.blocker (s'.joiners b).head (s'.joiners b).tail (fun t => place' t = .joiners b) k := by
  obtain ⟨k, hk⟩ := h.waits b hb
  rw [hjoiners]
  exact ⟨k, threads_congr hk (fun a ha => hblocker a ⟨b, ha⟩) fun a => hplace a b⟩

/-- **A step that moves one task**, `x`, to the place `pl`. -/
theorem schedInv_move (h : SchedInv s place home) (hoff : s.tick c = .off) (hf : s.Frame s' c)
    {x : TaskPtr} {pl : Place}
    (hx : place x ≠ .gone ∧ place x ≠ .idle ∧ place x ≠ .zombie ∧ ∀ p, place x = .held p → p = s.current c)
    (hpl : pl ≠ .gone ∧ pl ≠ .idle ∧ ∀ p, pl = .held p → p = s.current c)
    (hstate : s'.state = s.state) (htask : s'.TaskOk (update place x pl) home (s.current c))
    (htaskx : x ≠ s.current c → s'.TaskOk (update place x pl) home x)
    (hqueues : ∀ q, Threads s'.siblings (s'.queue q).head (s'.queue q).tail
      (fun t => (update place x pl t).queue (home t) = some q) (s'.queue q).count)
    (hwaits : ∀ b, place b ≠ .gone → ∃ k, Threads s'.blocker (s'.joiners b).head (s'.joiners b).tail
      (fun t => update place x pl t = .joiners b) k)
    (hhands : ∃ l : List TaskPtr, l.Nodup ∧
      (∀ t, t ∈ l ↔ update place x pl t = .held (s.current c)) ∧ s'.InHands home (s.current c) l)
    (hblocker : ∀ p, p ≠ s.current c → ∀ u, place u = .held p → s'.blocker u = s.blocker u)
    (hmasked : (s'.pc (s.current c)).masked = true → s'.interrupts c = false)
    (hsleepers : (s'.sleepers c).Nodup)
    (hsleeping : ∀ d u, u ∈ s'.sleepers d ↔ update place x pl u = .sleeping ∧ home u = d)
    (hrefs : s.Refs s' place (s.current c)) : SchedInv s' (update place x pl) home := by
  have hupd : ∀ (P : Place → Prop) u, (¬ P (place x)) → (¬ P pl) → (P (update place x pl u) ↔ P (place u)) := by
    intro P u h₁ h₂
    by_cases hu : u = x
    · subst hu
      rw [update_self]
      exact ⟨fun hp => absurd hp h₂, fun hp => absurd hp h₁⟩
    · rw [update_of_ne hu]
  refine schedInv_go h hf hoff (fun u => hupd (· = .gone) u hx.1 hpl.1)
    (fun u => hupd (· = .idle) u hx.2.1 hpl.2.1) ?_ ?_ hqueues hwaits hhands ?_ hblocker hmasked hsleepers
    hsleeping hrefs
  · intro u hu
    rw [update_of_ne]
    · exact hu
    · rintro rfl
      exact hx.2.2.1 hu
  · intro u _ hcases
    by_cases hut : u = s.current c
    · exact hut ▸ htask
    · rcases hcases with hu | hu | hu
      · exact absurd hu hut
      · have hux : u = x := by
          by_contra hne
          exact hu (update_of_ne hne _ _)
        subst hux
        exact htaskx hut
      · rw [hstate] at hu
        exact absurd rfl hu
  · intro p hp u
    exact hupd (· = .held p) u (fun he => hp (hx.2.2.2 p he)) fun he => hp (hpl.2.2 p he)

/-- A task in a run queue stays there, or its processor has just dequeued it. -/
def Kernel.Keeps (s : Kernel n) (place place' : TaskPtr → Place) (home home' : TaskPtr → Fin n) : Prop :=
  ∀ t, place t = .ready → home' t = home t ∧
    (place' t = .ready ∨ ∃ k, s.pc (s.current (home t)) = .yieldSwitch k (some t))

/-- A task stays on its processor, and a registered joiner where it is until it leaves or is taken
    off the list. -/
structure Kernel.Stays (s : Kernel n) (place place' : TaskPtr → Place) (home home' : TaskPtr → Fin n) :
    Prop where
  home : ∀ t, place t ≠ .gone → home' t = home t
  waits : ∀ t b, place t = .joiners b →
    place' t = .joiners b ∨ s.pc t = .joinDel b ∨ s.pc b = .killTake

theorem keeps_same : s'.Keeps place place home home ∧ s.Stays place place home home :=
  ⟨fun _ ht => ⟨rfl, Or.inl ht⟩, fun _ _ => rfl, fun _ _ ht => Or.inl ht⟩

theorem keeps_update {x : TaskPtr} (hx : place x ≠ .ready)
    (hw : ∀ b, place x = .joiners b → s.pc x = .joinDel b) (pl : Place) :
    s'.Keeps place (update place x pl) home home ∧ s.Stays place (update place x pl) home home := by
  refine ⟨fun t ht => ⟨rfl, Or.inl ?_⟩, fun _ _ => rfl, fun t b ht => ?_⟩
  · rw [update_of_ne]
    · exact ht
    · rintro rfl
      exact hx ht
  · by_cases htx : t = x
    · subst htx
      exact Or.inr (Or.inl (hw b ht))
    · exact Or.inl ((update_of_ne htx _ _).trans ht)

/-- The task that moved was neither queued nor registered. -/
theorem keeps_moved {x : TaskPtr} {pl₀ : Place} (hx : place x = pl₀) (hready : pl₀ ≠ .ready)
    (hw : ∀ b, pl₀ ≠ .joiners b) (pl : Place) :
    s'.Keeps place (update place x pl) home home ∧ s.Stays place (update place x pl) home home :=
  keeps_update (hx ▸ hready) (fun b hb => absurd (hx ▸ hb) (hw b)) pl

theorem keeps_self {p : Pc} (h : SchedInv s place home) (hp : s.pc (s.current c) = p)
    (hst : ∀ pl st, Stands p pl st → pl = .self) (pl : Place) :
    s'.Keeps place (update place (s.current c) pl) home home ∧
      s.Stays place (update place (s.current c) pl) home home :=
  keeps_moved (hst _ _ (current_stands h hp)) nofun nofun pl

/-! ## 3. Enqueues -/

theorem placeQueue_some {pl : Place} {q : QueueId n} {d : Fin n} (hq : pl.queue d = some q) :
    pl = .ready ∨ pl = .zombie := by
  cases pl <;> first | exact Or.inl rfl | exact Or.inr rfl | cases hq

/-- **`runqueue_enqueue`** of the current task itself, or of a task in its hands. -/
theorem inv_enqueue (h : SchedInv s place home) (hoff : s.tick c = .off) (hf : s.Frame s' c)
    {x : TaskPtr} {q : QueueId n} {pl : Place}
    (hx : place x = .self ∨ place x = .held (s.current c)) (hpl : pl.queue (home x) = some q)
    (hqueue : ∀ r, s'.queue r = if r = q then (runqueueEnqueue (s.queue q) x s.siblings).1 else s.queue r)
    (hsib : s'.siblings = (runqueueEnqueue (s.queue q) x s.siblings).2)
    (hsame : s'.state = s.state ∧ s'.joiners = s.joiners ∧ s'.blocker = s.blocker ∧
      s'.sleepers = s.sleepers)
    (htask : s'.TaskOk (update place x pl) home (s.current c))
    (htaskx : x ≠ s.current c → s'.TaskOk (update place x pl) home x)
    (hhands : ∃ l : List TaskPtr, l.Nodup ∧
      (∀ t, t ∈ l ↔ update place x pl t = .held (s.current c)) ∧ s'.InHands home (s.current c) l)
    (hmasked : (s'.pc (s.current c)).masked = true → s'.interrupts c = false)
    (hrefs : s.Refs s' place (s.current c)) : SchedInv s' (update place x pl) home := by
  obtain ⟨hstate, hjoiners, hblocker, hsleepers⟩ := hsame
  have hpl' := placeQueue_some hpl
  have hupd : ∀ (P : Place → Prop) u, ¬ P .self → ¬ P (.held (s.current c)) → ¬ P .ready → ¬ P .zombie →
      (P (update place x pl u) ↔ P (place u)) := by
    intro P u h₁ h₂ h₃ h₄
    by_cases hu : u = x
    · subst hu
      rw [update_self]
      refine ⟨fun hp => ?_, fun hp => ?_⟩
      · rcases hpl' with he | he <;> rw [he] at hp
        · exact absurd hp h₃
        · exact absurd hp h₄
      · rcases hx with he | he <;> rw [he] at hp
        · exact absurd hp h₁
        · exact absurd hp h₂
    · rw [update_of_ne hu]
  refine schedInv_move h hoff hf ?_ ?_ hstate htask htaskx ?_ ?_ hhands (fun _ _ _ _ => by rw [hblocker])
    hmasked (hsleepers ▸ (h.cpus c).sleepers) ?_ hrefs
  · rcases hx with hx | hx <;> simp [hx]
  · rcases hpl' with he | he <;> simp [he]
  · refine queues_enqueue h ?_ hpl hqueue hsib
    rcases hx with hx | hx <;> simp [hx, Place.queue]
  · refine waits_same h hjoiners (fun _ _ => by rw [hblocker]) fun u b => ?_
    exact hupd (· = .joiners b) u (by simp) (by simp) (by simp) (by simp)
  · intro d u
    rw [hsleepers, (h.cpus d).sleeping u]
    exact and_congr_left fun _ => (hupd (· = .sleeping) u (by simp) (by simp) (by simp) (by simp)).symm

/-- What is in the hands of a task that lets go of the first one. -/
theorem hands_drop {t x : TaskPtr} {k : List TaskPtr} {pl : Place} (hnd : (x :: k).Nodup)
    (hl : ∀ u, u ∈ x :: k ↔ place u = .held t) (hpl : pl ≠ .held t) (u : TaskPtr) :
    u ∈ k ↔ update place x pl u = .held t := by
  by_cases hu : u = x
  · subst hu
    rw [update_self]
    exact ⟨fun hm => absurd hm (List.nodup_cons.mp hnd).1, fun he => absurd he hpl⟩
  · rw [update_of_ne hu, ← hl u, List.mem_cons, or_iff_right hu]

theorem hands_keep {t x : TaskPtr} {l : List TaskPtr} {pl : Place} (hl : ∀ u, u ∈ l ↔ place u = .held t)
    (hx : place x ≠ .held t) (hpl : pl ≠ .held t) (u : TaskPtr) :
    u ∈ l ↔ update place x pl u = .held t := by
  rw [hl u]
  by_cases hu : u = x
  · subst hu
    rw [update_self]
    exact ⟨fun he => absurd he hx, fun he => absurd he hpl⟩
  · rw [update_of_ne hu]

theorem enqueueTask_queue (d : Fin n) (x : TaskPtr) (r : QueueId n) :
    (s.enqueueTask d x).queue r =
      if r = .tasks d then (runqueueEnqueue (s.queue (.tasks d)) x s.siblings).1 else s.queue r := by
  cases r with
  | tasks e =>
      by_cases he : e = d
      · subst he
        rw [if_pos rfl]
        exact update_self e _ s.tasks
      · rw [if_neg (by simpa using he)]
        exact update_of_ne he _ _
  | cleanup e =>
      rw [if_neg (by simp)]
      rfl

theorem enqueueCleanup_queue (d : Fin n) (x : TaskPtr) (r : QueueId n) :
    (s.enqueueCleanup d x).queue r =
      if r = .cleanup d then (runqueueEnqueue (s.queue (.cleanup d)) x s.siblings).1 else s.queue r := by
  cases r with
  | cleanup e =>
      by_cases he : e = d
      · subst he
        rw [if_pos rfl]
        exact update_self e _ s.cleanup
      · rw [if_neg (by simpa using he)]
        exact update_of_ne he _ _
  | tasks e =>
      rw [if_neg (by simp)]
      rfl

/-- The record of a task in the hands of the current one, when it is moved. -/
theorem taskOk_released (h : SchedInv s place home) (hf : s.Frame s' c) (hstate : s'.state = s.state)
    {x : TaskPtr} (hx : place x = .held (s.current c)) (hne : x ≠ s.current c) {pl : Place}
    (hpl : pl = .ready ∨ ∃ q, pl = .held q) : s'.TaskOk (update place x pl) home x := by
  have hold := h.tasks x (by rw [hx]; exact fun he => nomatch he)
  unfold Kernel.TaskOk at hold ⊢
  rw [hf.current, hf.pc x hne, hstate, hf.pin, hf.last, update_self]
  exact taskOk_moved hold (Or.inl ⟨_, hx⟩) hpl

theorem inv_spawnEnqueue (h : SchedInv s place home) (hoff : s.tick c = .off) {x : TaskPtr}
    (hp : s.pc (s.current c) = .spawnEnqueue x) : place x = .held (s.current c) ∧
      SchedInv ((s.enqueueTask c x).setPc (s.current c) .away) (update place x .ready) home := by
  have hst : Active (place (s.current c)) (s.state (s.current c)) := current_stands h hp
  obtain ⟨l, hnd, hl, hin⟩ := h.hands (s.current c) (h.cpus c).current
  unfold Kernel.InHands at hin
  rw [hp] at hin
  obtain ⟨rfl, hhome⟩ := hin
  have hx : place x = .held (s.current c) := (hl x).mp List.mem_cons_self
  have hne : s.current c ≠ x := by
    intro he
    rw [he, hx] at hst
    rcases hst with hst | hst
    · cases hst
    · cases hst.1
  have hf : s.Frame ((s.enqueueTask c x).setPc (s.current c) .away) c :=
    ⟨rfl, rfl, rfl, rfl, rfl, rfl, fun _ _ => rfl, fun u hu => update_of_ne hu _ _, fun _ _ => rfl⟩
  have hp' : ((s.enqueueTask c x).setPc (s.current c) .away).pc (s.current c) = .away := update_self _ _ _
  have hplace : update place x .ready (s.current c) = place (s.current c) := update_of_ne hne _ _
  refine ⟨hx, ?_⟩
  refine inv_enqueue h hoff hf (Or.inr hx) (q := .tasks c) ?_ (enqueueTask_queue c x) rfl
    ⟨rfl, rfl, rfl, rfl⟩ (taskOk_current h hf ?_ (fun _ => ?_) ?_ ?_ ?_)
    (fun hxc => taskOk_released h hf rfl hx hxc (Or.inl rfl)) ?_ ?_
    (refs_same h hf.pc rfl hp hp' rfl rfl)
  · rw [hhome, (h.cpus c).currentHome]
    rfl
  · rw [hp', hplace]
    exact Or.inl hst
  · rw [hplace]
    rcases hst with hst | hst
    · exact Or.inr hst
    · exact Or.inl hst.1
  · rw [hplace]
    exact current_idle_ready h
  · rw [hplace]
    exact id
  · rw [hplace]
    exact id
  · refine ⟨[], List.nodup_nil, hands_drop hnd hl (fun he => nomatch he), ?_⟩
    exact (inHands_quiet (by rw [hp']; rfl)).mpr rfl
  · rw [hp']
    exact fun he => nomatch he

theorem inv_yieldEnqueue (h : SchedInv s place home) (hoff : s.tick c = .off) {k : After}
    (hp : s.pc (s.current c) = .yieldEnqueue k) :
    SchedInv ((s.enqueueTask c (s.current c)).setPc (s.current c) (.yieldDequeue k))
      (update place (s.current c) .ready) home := by
  obtain ⟨rfl, hself⟩ : k = .caller ∧ place (s.current c) = .self := current_stands h hp
  have hmask : s.interrupts c = false := (h.cpus c).masked (by rw [hp]; rfl)
  have hf : s.Frame ((s.enqueueTask c (s.current c)).setPc (s.current c) (.yieldDequeue .caller)) c :=
    ⟨rfl, rfl, rfl, rfl, rfl, rfl, fun _ _ => rfl, fun u hu => update_of_ne hu _ _, fun _ _ => rfl⟩
  have hp' : ((s.enqueueTask c (s.current c)).setPc (s.current c) (.yieldDequeue .caller)).pc
      (s.current c) = .yieldDequeue .caller := update_self _ _ _
  obtain ⟨l, hnd, hl, hin⟩ := h.hands (s.current c) (h.cpus c).current
  refine inv_enqueue h hoff hf (Or.inl hself) (q := .tasks c) ?_ (enqueueTask_queue c _) rfl
    ⟨rfl, rfl, rfl, rfl⟩ (taskOk_current h hf ?_ ?_ ?_ ?_ ?_) (fun hne => absurd rfl hne) ?_
    (fun _ => hmask) (refs_same h hf.pc rfl hp hp' rfl rfl)
  · rw [(h.cpus c).currentHome]
    rfl
  · rw [hp', update_self]
    exact Or.inr (Or.inl rfl)
  · rw [hp']
    exact fun he => nomatch he
  · rw [update_self]
    exact fun he => nomatch he
  · rw [hself]
    exact fun _ he => nomatch he
  · rw [update_self]
    exact fun he => nomatch he
  · refine ⟨l, hnd, hands_keep hl (by simp [hself]) (by simp), ?_⟩
    exact hands_quiet (by rw [hp]; rfl) (by rw [hp']; rfl) l hin

theorem inv_killEnqueue (h : SchedInv s place home) (hoff : s.tick c = .off)
    (hp : s.pc (s.current c) = .killEnqueue) :
    SchedInv ((s.enqueueCleanup c (s.current c)).setPc (s.current c) .killRelease)
      (update place (s.current c) .zombie) home := by
  obtain ⟨hself, hst⟩ : place (s.current c) = .self ∧ s.state (s.current c) = .zombie :=
    current_stands h hp
  have hmask : s.interrupts c = false := (h.cpus c).masked (by rw [hp]; rfl)
  have hf : s.Frame ((s.enqueueCleanup c (s.current c)).setPc (s.current c) .killRelease) c :=
    ⟨rfl, rfl, rfl, rfl, rfl, rfl, fun _ _ => rfl, fun u hu => update_of_ne hu _ _, fun _ _ => rfl⟩
  have hp' : ((s.enqueueCleanup c (s.current c)).setPc (s.current c) .killRelease).pc
      (s.current c) = .killRelease := update_self _ _ _
  obtain ⟨l, hnd, hl, hin⟩ := h.hands (s.current c) (h.cpus c).current
  refine inv_enqueue h hoff hf (Or.inl hself) (q := .cleanup c) ?_ (fun r => enqueueCleanup_queue (s := s) c _ r) rfl
    ⟨rfl, rfl, rfl, rfl⟩ (taskOk_current h hf ?_ ?_ ?_ ?_ ?_) (fun hne => absurd rfl hne) ?_
    (fun _ => hmask) (refs_same h hf.pc rfl hp hp' rfl rfl)
  · rw [(h.cpus c).currentHome]
    rfl
  · rw [hp', update_self]
    exact ⟨rfl, hst⟩
  · rw [hp']
    exact fun he => nomatch he
  · rw [update_self]
    exact fun he => nomatch he
  · rw [hself]
    exact fun _ he => nomatch he
  · rw [update_self]
    exact fun he => nomatch he
  · refine ⟨l, hnd, hands_keep hl (by simp [hself]) (by simp), ?_⟩
    exact hands_quiet (by rw [hp]; rfl) (by rw [hp']; rfl) l hin

/-- A task that is not pinned is woken where it ran last. -/
theorem wakeCpu_home {x : TaskPtr} (hpin : s.pin x = none) (hlast : s.lastProcessorId x = home x) :
    wakeCpu s x = some (home x) := by
  unfold wakeCpu
  rw [hpin, Option.getD_none]
  simp only [hlast]
  rw [dif_pos (home x).isLt]

theorem inv_killQueue (h : SchedInv s place home) (hoff : s.tick c = .off) {e : TaskPtr}
    {next : Option TaskPtr} (hp : s.pc (s.current c) = .killQueue e next)
    (hs : goStep s c = some s') :
    place e = .held (s.current c) ∧ SchedInv s' (update place e .ready) home := by
  obtain ⟨hself, hst⟩ : place (s.current c) = .self ∧ s.state (s.current c) = .zombie :=
    current_stands h hp
  obtain ⟨l, hnd, hl, hin⟩ := h.hands (s.current c) (h.cpus c).current
  unfold Kernel.InHands at hin
  rw [hp] at hin
  obtain ⟨k, rfl, hk, hlast⟩ := hin
  have hx : place e = .held (s.current c) := (hl e).mp List.mem_cons_self
  have hne : s.current c ≠ e := fun he => by
    rw [← he, hself] at hx
    cases hx
  have hpin : s.pin e = none :=
    (h.tasks e (by rw [hx]; exact fun he => nomatch he)).pinned (by rw [hx]; exact fun he => nomatch he)
  have hcpu := wakeCpu_home hpin (hlast e List.mem_cons_self)
  dsimp only [goStep] at hs
  rw [hp] at hs
  dsimp only at hs
  rw [hcpu] at hs
  obtain rfl := Option.some.inj hs
  refine ⟨hx, ?_⟩
  have hf : s.Frame ((s.enqueueTask (home e) e).setPc (s.current c) (.killWake next)) c :=
    ⟨rfl, rfl, rfl, rfl, rfl, rfl, fun _ _ => rfl, fun u hu => update_of_ne hu _ _, fun _ _ => rfl⟩
  have hp' : ((s.enqueueTask (home e) e).setPc (s.current c) (.killWake next)).pc (s.current c) =
      .killWake next := update_self _ _ _
  have hplace : update place e .ready (s.current c) = .self := (update_of_ne hne _ _).trans hself
  refine inv_enqueue h hoff hf (Or.inr hx) (q := .tasks (home e)) rfl (enqueueTask_queue _ _) rfl
    ⟨rfl, rfl, rfl, rfl⟩ (taskOk_current h hf ?_ ?_ ?_ ?_ ?_)
    (fun hxc => taskOk_released h hf rfl hx hxc (Or.inl rfl)) ?_ ?_
    (refs_same h hf.pc rfl hp hp' rfl rfl)
  · rw [hp', hplace]
    exact ⟨rfl, hst⟩
  · rw [hp']
    exact fun he => nomatch he
  · rw [hplace]
    exact fun he => nomatch he
  · rw [hself]
    exact fun _ he => nomatch he
  · rw [hself]
    exact fun _ => rfl
  · refine ⟨k, (List.nodup_cons.mp hnd).2, hands_drop hnd hl (fun he => nomatch he), ?_⟩
    unfold Kernel.InHands
    rw [hp']
    exact ⟨hk, fun t ht => hlast t (List.mem_cons_of_mem _ ht)⟩
  · rw [hp']
    exact fun he => nomatch he

end Step

end Slightx
