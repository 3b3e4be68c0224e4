/-
  File:      Slightx/Proc/SchedRuns.lean
  Subject:   No task is queued twice.

  * `SchedSound` -- what holds of the queues: an enqueue is of a task that is linked nowhere, the
    queues are whole and apart, and idle tasks are in none;
  * **`sched_sound`** -- every state of a run in which `task_join` leaves by its second check only
    while it is still linked with its target;
  * `join_enqueued_twice` -- a run of two processors where it does not: a joiner that was woken
    between its registration and the second check runs on while it is in a run queue
-/
import Slightx.Lib.Machine
import Slightx.Proc.SchedSteps

namespace Slightx

open Lib Function

variable {n : Nat}

/-! ## 1. The start -/

section Start

variable {s : Kernel n}

theorem loaded_live (h : SchedLoaded s) (t : TaskPtr) : t ∈ s.live ↔ ∃ c, s.idle c = t := by
  rw [h.live, List.mem_map]
  exact ⟨fun ⟨c, _, hc⟩ => ⟨c, hc⟩, fun ⟨c, hc⟩ => ⟨c, List.mem_finRange c, hc⟩⟩

def loadedPlace (s : Kernel n) (t : TaskPtr) : Place := if t ∈ s.live then .idle else .gone

theorem loadedPlace_iff (t : TaskPtr) :
    (loadedPlace s t = .idle ↔ t ∈ s.live) ∧ (loadedPlace s t = .gone ↔ t ∉ s.live) := by
  unfold loadedPlace
  split
  · rename_i ht
    simp [ht]
  · rename_i ht
    simp [ht]

theorem loadedPlace_ne {pl : Place} (hi : pl ≠ .idle) (hg : pl ≠ .gone) (t : TaskPtr) :
    loadedPlace s t ≠ pl := by
  unfold loadedPlace
  split
  · exact hi.symm
  · exact hg.symm

/-- **Nothing is queued at the start**, and the idle tasks run. -/
theorem loaded_inv (h : SchedLoaded s) (home : TaskPtr → Fin n) (hhome : ∀ c, home (s.idle c) = c) :
    SchedInv s (loadedPlace s) home := by
  have hlive : ∀ t, loadedPlace s t ≠ .gone → ∃ c, s.idle c = t := by
    intro t ht
    by_contra hne
    exact ht ((loadedPlace_iff t).2.mpr fun hm => hne ((loaded_live h t).mp hm))
  have hidle : ∀ c, loadedPlace s (s.idle c) = .idle := fun c =>
    (loadedPlace_iff _).1.mpr ((loaded_live h _).mpr ⟨c, rfl⟩)
  have hpc : ∀ t, loadedPlace s t ≠ .gone → s.pc t = .away := by
    intro t ht
    obtain ⟨c, rfl⟩ := hlive t ht
    exact h.pc c
  refine
    { queues := fun q => ?_
      waits := fun b hb => ⟨0, ?_⟩
      hands := fun p hp => ?_
      held := fun t p ht => absurd ht (loadedPlace_ne (by simp) (by simp) t)
      tasks := fun t ht => ?_
      cpus := fun c => ?_
      idles := fun t ht => ?_
      refs := ⟨fun t => ?_, ?_, fun t ht => ?_, fun j b hj hb => ?_⟩ }
  · have hq : s.queue q = ⟨none, none, 0⟩ := by
      cases q with
      | tasks c => exact h.tasks c
      | cleanup c => exact h.cleanup c
    rw [hq]
    refine threads_nil fun t ht => ?_
    rcases placeQueue_some ht with hp | hp
    · exact loadedPlace_ne (by simp) (by simp) t hp
    · exact loadedPlace_ne (by simp) (by simp) t hp
  · obtain ⟨c, rfl⟩ := hlive b hb
    rw [h.joiners c]
    exact threads_nil fun t => loadedPlace_ne (by simp) (by simp) t
  · refine ⟨[], List.nodup_nil, fun t => ⟨fun hm => absurd hm List.not_mem_nil, fun ht => ?_⟩,
      (inHands_quiet (by rw [hpc p hp]; rfl)).mpr rfl⟩
    exact absurd ht (loadedPlace_ne (by simp) (by simp) t)
  · obtain ⟨c, rfl⟩ := hlive t ht
    have hcur : s.current (home (s.idle c)) = s.idle c := by rw [hhome, h.current]
    unfold Kernel.TaskOk
    rw [h.pc c, hidle c, h.state c]
    exact
      { stands := Or.inl (Or.inl rfl)
        self := fun he => nomatch he
        parked := fun hn => absurd hcur hn
        awake := fun _ _ => Or.inr rfl
        pinned := fun he => absurd rfl he
        last := fun he => nomatch he
        idle := fun _ => rfl }
  · refine
      { current := ?_
        currentHome := ?_
        idle := hidle c
        idleHome := hhome c
        masked := fun hm => ?_
        ticked := fun ht => absurd (h.tick c) ht
        tick := ?_
        sleepers := ?_
        sleeping := fun t => ?_ }
    · rw [h.current, hidle c]
      exact fun he => nomatch he
    · rw [h.current]
      exact hhome c
    · rw [h.current, h.pc c] at hm
      cases hm
    · rw [tickOk_iff, h.tick c]
      exact True.intro
    · rw [h.sleepers c]
      exact List.nodup_nil
    · rw [h.sleepers c]
      refine ⟨fun hm => absurd hm List.not_mem_nil, fun ht => ?_⟩
      exact absurd ht.1 (loadedPlace_ne (by simp) (by simp) t)
  · obtain ⟨c, rfl⟩ := (loaded_live h t).mp ((loadedPlace_iff t).1.mp ht)
    rw [hhome]
  · rw [Ne, (loadedPlace_iff t).2, not_not]
  · rw [h.live]
    exact (List.nodup_finRange n).map fun c d he => h.apart c d he
  · obtain ⟨c, rfl⟩ := hlive t ht
    have hzero : s.live.countP (fun j => (s.pc j).target = some (s.idle c)) = 0 := by
      refine List.countP_eq_zero.mpr fun j hj => ?_
      rw [hpc j fun he => (loadedPlace_iff j).2.mp he hj]
      simp [Pc.target]
    rw [hzero, h.refcount c, h.pc c]
    rfl
  · rw [hpc j hj] at hb
    cases hb

end Start

/-! ## 2. Runs -/

/-- **The queues of a state**: an enqueue is of a task that is linked nowhere, every queue is a whole
    list, no task is in two, and no idle task is in one. -/
structure SchedSound (s : Kernel n) : Prop where
  enqueue : ∀ c t, s.enqueues c = some t → ¬ s.Linked t
  tasks : ∀ c, ∃ l, DList s.siblings (s.tasks c).head (s.tasks c).tail l ∧ (s.tasks c).count = l.length
  cleanup : ∀ c, ∃ l, DList s.siblings (s.cleanup c).head (s.cleanup c).tail l ∧
    (s.cleanup c).count = l.length
  apart : ∀ c d t, s.Queued c t → ¬ s.Cleaned d t ∧ (s.Queued d t → d = c)
  cleaned : ∀ c d t, s.Cleaned c t → s.Cleaned d t → d = c
  idle : ∀ c, ¬ s.Linked (s.idle c)

section Runs

variable {s s' s₀ : Kernel n} {place : TaskPtr → Place} {home : TaskPtr → Fin n} {c : Fin n} {t : TaskPtr}

theorem queued_iff (h : SchedInv s place home) : s.Queued c t ↔ place t = .ready ∧ home t = c := by
  refine (threads_reaches (h.queues (.tasks c))).trans ⟨fun hq => ?_, fun hq => ?_⟩
  · rcases placeQueue_some hq with hp | hp <;> rw [hp] at hq
    · exact ⟨hp, QueueId.tasks.inj (Option.some.inj hq)⟩
    · cases hq
  · rw [hq.1, hq.2]
    rfl

theorem cleaned_iff (h : SchedInv s place home) : s.Cleaned c t ↔ place t = .zombie ∧ home t = c := by
  refine (threads_reaches (h.queues (.cleanup c))).trans ⟨fun hq => ?_, fun hq => ?_⟩
  · rcases placeQueue_some hq with hp | hp <;> rw [hp] at hq
    · cases hq
    · exact ⟨hp, QueueId.cleanup.inj (Option.some.inj hq)⟩
  · rw [hq.1, hq.2]
    rfl

theorem linked_iff (h : SchedInv s place home) : s.Linked t ↔ place t = .ready ∨ place t = .zombie := by
  constructor
  · rintro ⟨d, hq | hq⟩
    · exact Or.inl ((queued_iff h).mp hq).1
    · exact Or.inr ((cleaned_iff h).mp hq).1
  · rintro (hp | hp)
    · exact ⟨home t, Or.inl ((queued_iff h).mpr ⟨hp, rfl⟩)⟩
    · exact ⟨home t, Or.inr ((cleaned_iff h).mpr ⟨hp, rfl⟩)⟩

/-- The task an enqueue is about to link is in the hands of whoever links it. -/
theorem enqueues_place (h : SchedInv s place home) (he : s.enqueues c = some t) :
    place t = .self ∨ place t = .sleeping ∨ ∃ p, place t = .held p := by
  have hcpu := h.cpus c
  unfold Kernel.enqueues at he
  cases ht : s.tick c <;> rw [ht] at he <;> dsimp only at he
  case waking kept x rest =>
      obtain rfl := Option.some.inj he
      have hat := tickOk_iff.mp hcpu.tick
      rw [ht] at hat
      refine Or.inr (Or.inl ((hcpu.sleeping x).mp ?_).1)
      rw [show s.sleepers c = kept ++ x :: rest from hat]
      exact List.mem_append_right _ List.mem_cons_self
  case off =>
      obtain ⟨l, _, hl, hin⟩ := h.hands (s.current c) hcpu.current
      unfold Kernel.InHands at hin
      cases hp : s.pc (s.current c) <;> rw [hp] at he hin <;> dsimp only at he
      case spawnEnqueue x =>
          obtain rfl := Option.some.inj he
          obtain ⟨rfl, _⟩ := hin
          exact Or.inr (Or.inr ⟨_, (hl x).mp List.mem_cons_self⟩)
      case yieldEnqueue k =>
          obtain rfl := Option.some.inj he
          exact Or.inl (current_stands h hp).2
      case killQueue e next =>
          obtain rfl := Option.some.inj he
          obtain ⟨k, rfl, _⟩ := hin
          exact Or.inr (Or.inr ⟨_, (hl e).mp List.mem_cons_self⟩)
      case killEnqueue =>
          obtain rfl := Option.some.inj he
          exact Or.inl (current_stands h hp).1
      all_goals cases he
  all_goals cases he

theorem schedInv_sound (h : SchedInv s place home) : SchedSound s where
  enqueue := by
    intro c t he hl
    rcases (linked_iff h).mp hl with hp | hp <;> rcases enqueues_place h he with hq | hq | ⟨p, hq⟩
    all_goals
      rw [hp] at hq
      cases hq
  tasks := by
    intro c
    obtain ⟨l, hd, hlen, _⟩ := h.queues (.tasks c)
    exact ⟨l, hd, hlen.symm⟩
  cleanup := by
    intro c
    obtain ⟨l, hd, hlen, _⟩ := h.queues (.cleanup c)
    exact ⟨l, hd, hlen.symm⟩
  apart := by
    intro c d t hq
    obtain ⟨hp, hh⟩ := (queued_iff h).mp hq
    refine ⟨fun hc => ?_, fun hq => ((queued_iff h).mp hq).2.symm.trans hh⟩
    rw [((cleaned_iff h).mp hc).1] at hp
    cases hp
  cleaned := by
    intro c d t hc hd
    exact ((cleaned_iff h).mp hd).2.symm.trans ((cleaned_iff h).mp hc).2
  idle := by
    intro c hl
    rcases (linked_iff h).mp hl with hp | hp
    all_goals
      rw [(h.cpus c).idle] at hp
      cases hp

/-- The places of every state of a safe run. -/
theorem run_inv (h₀ : SchedLoaded s₀) (hrun : SchedRun JoinSafe s₀ s) (c : Fin n) :
    ∃ place home, SchedInv s place home := by
  classical
  induction hrun with
  | start =>
      refine ⟨_, fun t => if ht : ∃ d, s₀.idle d = t then ht.choose else c, loaded_inv h₀ _ fun d => ?_⟩
      have hd : ∃ e, s₀.idle e = s₀.idle d := ⟨d, rfl⟩
      rw [dif_pos hd]
      exact h₀.apart _ _ hd.choose_spec
  | step _ hp hs ih =>
      obtain ⟨place, home, h⟩ := ih
      obtain ⟨place', home', h', _⟩ := inv_step h hp hs
      exact ⟨place', home', h'⟩

/-- **No task is queued twice**, and no run queue loses one, in any run in which `task_join` leaves by
    its second check only while it is still linked: a task in a run queue stays there until its
    processor dequeues it. -/
theorem sched_sound (h₀ : SchedLoaded s₀) (hrun : SchedRun JoinSafe s₀ s) :
    SchedSound s ∧ ∀ e s', JoinSafe s e → schedStep s e = some s' → ∀ c t, s.Queued c t →
      s'.Queued c t ∨ ∃ k, s'.pc (s'.current c) = .yieldSwitch k (some t) := by
  refine ⟨?_, fun e s' hp hs c t hq => ?_⟩
  · cases n with
    | zero =>
        exact ⟨fun c => c.elim0, fun c => c.elim0, fun c => c.elim0, fun c => c.elim0,
          fun c => c.elim0, fun c => c.elim0⟩
    | succ m =>
        obtain ⟨place, home, h⟩ := run_inv h₀ hrun 0
        exact schedInv_sound h
  · obtain ⟨place, home, h⟩ := run_inv h₀ hrun c
    obtain ⟨place', home', h', hkeep, _⟩ := inv_step h hp hs
    obtain ⟨hready, hhome⟩ := (queued_iff h).mp hq
    obtain ⟨hh, hk | hk⟩ := hkeep t hready
    · exact Or.inl ((queued_iff h').mpr ⟨hk, hh.trans hhome⟩)
    · rw [hhome] at hk
      exact Or.inr hk

end Runs

/-! ## 3. Two processors -/

/-- `n` processors after `scheduler_load`, with the idle tasks at 0, 1, ... -/
def booted (n : Nat) : Kernel n where
  live := (List.finRange n).map Fin.val
  id := fun t => BitVec.ofNat 32 (t + 1)
  pin := fun t => some t
  detached := fun _ => true
  state := fun _ => .ready
  refcount := fun _ => 1
  lastProcessorId := fun _ => 0
  siblings := fun _ => ⟨none, none⟩
  blocker := fun _ => ⟨none, none⟩
  joiners := fun _ => ⟨none, none⟩
  pc := fun _ => .away
  rflags := fun _ => true
  tasks := fun _ => ⟨none, none, 0⟩
  cleanup := fun _ => ⟨none, none, 0⟩
  sleepers := fun _ => []
  current := Fin.val
  idle := Fin.val
  interrupts := fun _ => true
  tick := fun _ => .off
  nextTaskId := BitVec.ofNat 32 (n + 1)

theorem booted_loaded (n : Nat) : SchedLoaded (booted n) where
  live := rfl
  apart := fun _ _ he => Fin.ext he
  current := rfl
  state := fun _ => rfl
  refcount := fun _ => rfl
  pc := fun _ => rfl
  joiners := fun _ => rfl
  tasks := fun _ => rfl
  cleanup := fun _ => rfl
  sleepers := fun _ => rfl
  tick := fun _ => rfl

/-- A walk over at most `fuel` nodes passes `a`. -/
def reachesWithin (node : TaskPtr → Links TaskPtr) (a : TaskPtr) : Nat → Option TaskPtr → Bool
  | fuel + 1, some b => a = b || reachesWithin node a fuel (node b).next
  | _, _ => false

theorem reaches_of_within {node : TaskPtr → Links TaskPtr} {a : TaskPtr} {fuel : Nat}
    {head : Option TaskPtr} (h : reachesWithin node a fuel head = true) : Reaches node a head := by
  induction fuel generalizing head with
  | zero => cases head <;> cases h
  | succ fuel ih =>
      cases head with
      | none => cases h
      | some b =>
          rcases Bool.or_eq_true _ _ ▸ h with hab | hrest
          · obtain rfl : a = b := of_decide_eq_true hab
            exact .here
          · exact .on (ih hrest)

/-- `JoinSafe`, computed. -/
def joinSafe (s : Kernel n) : SchedEvent n → Bool
  | .go c =>
      match s.pc (s.current c) with
      | .joinDel x => reachesWithin s.blocker (s.current c) s.live.length (s.joiners x).head
      | _ => true
  | _ => true

theorem joinSafe_of {s : Kernel n} {e : SchedEvent n} (h : joinSafe s e = true) : JoinSafe s e := by
  cases e with
  | go c =>
      intro x hx
      simp only [joinSafe, hx] at h
      exact reaches_of_within h
  | _ => exact True.intro

/-- The events one after the other, as long as they meet `check`. -/
def schedEvents (check : Kernel n → SchedEvent n → Bool) (s : Kernel n) :
    List (SchedEvent n) → Option (Kernel n)
  | [] => some s
  | e :: es => if check s e then (schedStep s e).bind fun s' => schedEvents check s' es else none

theorem schedEvents_run {check : Kernel n → SchedEvent n → Bool} {s₀ s s' : Kernel n}
    {es : List (SchedEvent n)} (hrun : SchedRun (fun s e => check s e = true) s₀ s)
    (h : schedEvents check s es = some s') : SchedRun (fun s e => check s e = true) s₀ s' := by
  induction es generalizing s with
  | nil => exact Option.some.inj h ▸ hrun
  | cons e es ih =>
      unfold schedEvents at h
      split at h
      · rename_i hc
        obtain ⟨s₁, hs, h⟩ := Option.bind_eq_some_iff.mp h
        exact ih (.step hrun hc hs) h
      · cases h

theorem schedRun_mono {P Q : Kernel n → SchedEvent n → Prop} (hPQ : ∀ s e, P s e → Q s e)
    {s₀ s : Kernel n} (hrun : SchedRun P s₀ s) : SchedRun Q s₀ s := by
  induction hrun with
  | start => exact .start
  | step _ hp hs ih => exact .step ih (hPQ _ _ hp) hs

/-- `spawn_user_task` or `spawn_kernel_task` on `c`, with the record at `x`. -/
def spawnEvents (c : Fin n) (detached : Bool) (x : TaskPtr) : List (SchedEvent n) :=
  [.call c (.spawn detached), .go c, .alloc c x, .go c]

/-- A task at 2 on the first processor and one at 3 on the second both run, and the first one joins the
    second as far as the end of its registration. -/
def joinEvents : List (SchedEvent 2) :=
  spawnEvents 0 true 2 ++ spawnEvents 1 false 3 ++
    [.call 0 .yield, .go 0, .go 0, .go 0, .call 1 .yield, .go 1, .go 1, .go 1] ++
    .call 0 (.join 4) :: List.replicate 8 (.go 0)

/-- The second task is killed, and wakes the first; that one sees a zombie, and is killed. -/
def wokenEvents : List (SchedEvent 2) :=
  joinEvents ++ [.call 1 .kill, .go 1, .go 1, .go 1, .go 0, .go 0, .go 0, .call 0 .kill, .go 0, .go 0]

/-- The same, with the waker behind the joiner: the joiner takes itself off the list. -/
def leftEvents : List (SchedEvent 2) :=
  joinEvents ++ [.call 1 .kill, .go 0, .go 0]

/-- The joiner runs on in a run queue, and its own end puts it into the cleanup queue too. -/
theorem join_enqueued_twice : ¬ ∀ (n : Nat) (s₀ s : Kernel n), SchedLoaded s₀ →
    SchedRun (fun _ _ => True) s₀ s → ∀ c t, s.enqueues c = some t → ¬ s.Linked t := by
  intro hall
  have hend : (schedEvents (fun _ _ => true) (booted 2) wokenEvents).map
      (fun s => (s.enqueues 0, (s.tasks 0).head)) = some (some 2, some 2) := by rfl
  obtain ⟨s, hs, he⟩ := Option.map_eq_some_iff.mp hend
  obtain ⟨henq, hhead⟩ := Prod.mk.inj he
  have hrun := schedRun_mono (Q := fun _ _ => True) (fun _ _ _ => True.intro) (schedEvents_run .start hs)
  refine hall 2 (booted 2) s (booted_loaded 2) hrun 0 2 henq ⟨0, Or.inl ?_⟩
  show Reaches s.siblings 2 (s.tasks 0).head
  rw [hhead]
  exact .here

/-- A joiner that leaves by the second check while it is linked. -/
theorem sched_sound_left :
    ∃ s : Kernel 2, s.pc 2 = .joinLeave 3 ∧ s.state 3 = .zombie ∧ SchedSound s := by
  have hend : (schedEvents joinSafe (booted 2) leftEvents).map
      (fun s => (s.pc 2, s.state 3)) = some (.joinLeave 3, .zombie) := by rfl
  obtain ⟨s, hs, he⟩ := Option.map_eq_some_iff.mp hend
  obtain ⟨hpc, hst⟩ := Prod.mk.inj he
  have hrun := schedRun_mono (fun _ _ => joinSafe_of) (schedEvents_run .start hs)
  exact ⟨s, hpc, hst, (sched_sound (booted_loaded 2) hrun).1⟩

end Slightx
