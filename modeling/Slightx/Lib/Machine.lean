/-
  File:      Slightx/Lib/Machine.lean
  Subject:   Runs of a machine that takes one event after the other.

  A machine is a step function `σ → ε → Option σ`: several parties are one machine whose events say
  who moves. `none` is an event that cannot happen.

  * `Runs` -- a run, with the events it took; every event met `P` in the state it was taken in;
  * `runs_inv` -- what every step keeps holds after every run;
  * `runs_simulate` -- a machine that follows another one, event by event, follows it over a run;
  * `exec`, `runs_exec` -- a run that is computed; `execIf` computes the condition on its events too
  * `outputs`, `outputs_snoc` -- what a machine whose steps answer gave out in a run
-/
import Mathlib.Algebra.GroupWithZero.Nat

namespace Slightx.Lib

variable {σ τ ε : Type}

/-! Machines of one and of two parties name them by numerals. -/

instance neZero_one : NeZero 1 := ⟨Nat.one_ne_zero⟩

instance neZero_two : NeZero 2 := ⟨Nat.succ_ne_zero 1⟩

/-- The events `es` lead from `s` to the last state, each of them one that meets `P`. -/
inductive Runs (step : σ → ε → Option σ) (P : σ → ε → Prop) (s : σ) : List ε → σ → Prop where
  | start : Runs step P s [] s
  | step {es : List ε} {s' s'' : σ} {e : ε} (h : Runs step P s es s') (hp : P s' e)
      (hs : step s' e = some s'') : Runs step P s (es ++ [e]) s''

section Runs

variable {step : σ → ε → Option σ} {P Q : σ → ε → Prop} {s s' : σ} {es : List ε}

/-- **The invariant rule.** -/
theorem runs_inv (I : σ → Prop) (h0 : I s)
    (hstep : ∀ t e t', I t → P t e → step t e = some t' → I t') (h : Runs step P s es s') :
    I s' := by
  induction h with
  | start => exact h0
  | step _ hp hs ih => exact hstep _ _ _ ih hp hs

theorem runs_mono (hPQ : ∀ t e, P t e → Q t e) (h : Runs step P s es s') :
    Runs step Q s es s' := by
  induction h with
  | start => exact .start
  | step _ hp hs ih => exact .step ih (hPQ _ _ hp) hs

/-- **The simulation rule**: `R` is kept by each step and the step of `spec` for its event. -/
theorem runs_simulate {spec : τ → ε → τ} (R : σ → τ → Prop) {a : τ} (h0 : R s a)
    (hstep : ∀ t b e t', R t b → P t e → step t e = some t' → R t' (spec b e))
    (h : Runs step P s es s') : R s' (es.foldl spec a) := by
  induction h with
  | start => exact h0
  | step _ hp hs ih =>
      rw [List.foldl_append]
      exact hstep _ _ _ _ ih hp hs

/-- A run of any of the events, computed. -/
def exec (step : σ → ε → Option σ) (s : σ) : List ε → Option σ
  | [] => some s
  | e :: es => (step s e).bind fun s' => exec step s' es

theorem runs_cons {e : ε} (hp : P s e) {t : σ} (hs : step s e = some t) (h : Runs step P t es s') :
    Runs step P s (e :: es) s' := by
  induction h with
  | start => exact .step (.start) hp hs
  | step _ hp' hs' ih => exact .step ih hp' hs'

theorem runs_exec (h : exec step s es = some s') : Runs step (fun _ _ => True) s es s' := by
  induction es generalizing s with
  | nil =>
      obtain rfl := Option.some.inj h
      exact .start
  | cons e es ih =>
      obtain ⟨t, hs, h⟩ := Option.bind_eq_some_iff.mp h
      exact runs_cons True.intro hs (ih h)

/-- A run of events that meet `check`, computed. -/
def execIf (step : σ → ε → Option σ) (check : σ → ε → Bool) (s : σ) : List ε → Option σ
  | [] => some s
  | e :: es => if check s e then (step s e).bind fun s' => execIf step check s' es else none

theorem runs_execIf {check : σ → ε → Bool} (h : execIf step check s es = some s') :
    Runs step (fun t e => check t e = true) s es s' := by
  induction es generalizing s with
  | nil =>
      obtain rfl := Option.some.inj h
      exact .start
  | cons e es ih =>
      unfold execIf at h
      split at h
      · rename_i hc
        obtain ⟨t, hs, h⟩ := Option.bind_eq_some_iff.mp h
        exact runs_cons hc hs (ih h)
      · cases h

end Runs

/-! A machine whose steps give something out, too. -/

section Outputs

variable {ω : Type} {act : σ → ε → Option (ω × σ)} {P : σ → ε → Prop} {s s' : σ} {es : List ε}
  {e : ε} {r : ω × σ}

/-- The steps of such a machine, by themselves. -/
def silent (act : σ → ε → Option (ω × σ)) (s : σ) (e : ε) : Option σ := (act s e).map Prod.snd

/-- What the events `es` give out, one after the other from `s`. -/
def outputs (act : σ → ε → Option (ω × σ)) (s : σ) : List ε → List ω
  | [] => []
  | e :: es =>
      match act s e with
      | none => []
      | some r => r.1 :: outputs act r.2 es

theorem runs_uncons (h : Runs (silent act) P s es s') :
    es = [] ∧ s' = s ∨ ∃ e fs r, es = e :: fs ∧ P s e ∧ act s e = some r ∧
      Runs (silent act) P r.2 fs s' := by
  induction h with
  | start => exact Or.inl ⟨rfl, rfl⟩
  | @step es t t' e _ hp hs ih =>
      rcases ih with ⟨rfl, rfl⟩ | ⟨d, fs, r, rfl, hd, hr, hrun⟩
      · obtain ⟨r, hr, rfl⟩ := Option.map_eq_some_iff.mp hs
        exact Or.inr ⟨e, [], r, rfl, hp, hr, .start⟩
      · exact Or.inr ⟨d, fs ++ [e], r, rfl, hd, hr, hrun.step hp hs⟩

/-- **One more event gives out one thing more.** -/
theorem outputs_snoc (h : Runs (silent act) P s es s') (he : act s' e = some r) :
    outputs act s (es ++ [e]) = outputs act s es ++ [r.1] := by
  induction es generalizing s with
  | nil =>
      rcases runs_uncons h with ⟨-, rfl⟩ | ⟨_, _, _, hnil, _⟩
      · simp [outputs, he]
      · cases hnil
  | cons d ds ih =>
      rcases runs_uncons h with ⟨hnil, -⟩ | ⟨_, _, a, hcons, -, ha, hrun⟩
      · cases hnil
      · obtain ⟨rfl, rfl⟩ := List.cons.inj hcons
        simp only [List.cons_append, outputs, ha, ih hrun]

end Outputs

end Slightx.Lib
