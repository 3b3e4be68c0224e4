/-
  File:      Slightx/Lib/Outcome.lean
  Subject:   Programs that change a state or stop with a fault, and their rules.

  A program over a state `σ` either returns a value and a new state or stops with a fault `ε`;
  nothing it did before the fault is observed. The rules are those of total correctness:

  * `wp x s Q` -- from `s` the program returns, and its value and state meet `Q`; a program
    that stops meets no `wp`;
  * `wp_bind`, `wp_pure`, … -- one equivalence for each way a program is put together, so a
    proof peels a program off from the front;
  * `stops_bind_left`, `stops_bind_right` -- where the fault comes from, for programs that stop;
  * `forUp` -- the counted loop, with its invariant rule `wp_forUp`;
  * `ends x s Q E` -- from `s` the program returns with `Q` or stops with a fault that meets `E`:
    what `wp` says, and which fault there is otherwise
-/

namespace Slightx.Lib

/-- A program over the state `σ` that returns a value or stops with a fault. -/
abbrev Prog (ε σ α : Type) := StateT σ (Except ε) α

variable {ε σ α β : Type}

/-! ## 1. Returning -/

/-- From `s` the program returns, and its value and final state meet `Q`. -/
def wp (x : Prog ε σ α) (s : σ) (Q : α → σ → Prop) : Prop :=
  ∃ a s', x s = .ok (a, s') ∧ Q a s'

theorem wp_mono {x : Prog ε σ α} {s : σ} {Q R : α → σ → Prop}
    (h : wp x s Q) (hQR : ∀ a s', Q a s' → R a s') : wp x s R := by
  obtain ⟨a, s', hx, hq⟩ := h
  exact ⟨a, s', hx, hQR a s' hq⟩

theorem ok_of_toOption {x : Except ε α} {a : α} (h : x.toOption = some a) : x = .ok a := by
  cases x with
  | error _ => cases h
  | ok b => exact congrArg Except.ok (Option.some.inj h)

/-- A run that is computed, as far as `f` shows it. -/
theorem wp_computed {x : Prog ε σ α} {s : σ} (f : α → σ → β) {v : β}
    (h : (x s).toOption.map (fun p => f p.1 p.2) = some v) : wp x s fun a t => f a t = v := by
  obtain ⟨p, hp, hv⟩ := Option.map_eq_some_iff.mp h
  exact ⟨p.1, p.2, ok_of_toOption hp, hv⟩

/-- A run is a function of its start: two facts about it hold of one outcome. -/
theorem wp_and {x : Prog ε σ α} {s : σ} {Q R : α → σ → Prop}
    (hq : wp x s Q) (hr : wp x s R) : wp x s (fun a s' => Q a s' ∧ R a s') := by
  obtain ⟨a, s', hx, hq⟩ := hq
  obtain ⟨b, t', hy, hr⟩ := hr
  rw [hx] at hy
  cases hy
  exact ⟨a, s', hx, hq, hr⟩

theorem wp_of_eq {x : Prog ε σ α} {s s' : σ} {a : α} {Q : α → σ → Prop}
    (h : x s = .ok (a, s')) : wp x s Q ↔ Q a s' := by
  constructor
  · rintro ⟨b, t, hx, hq⟩
    rw [h] at hx
    cases hx
    exact hq
  · exact fun hq => ⟨a, s', h, hq⟩

@[simp] theorem wp_pure (a : α) (s : σ) (Q : α → σ → Prop) :
    wp (pure a : Prog ε σ α) s Q ↔ Q a s :=
  wp_of_eq rfl

@[simp] theorem wp_bind (x : Prog ε σ α) (f : α → Prog ε σ β) (s : σ) (Q : β → σ → Prop) :
    wp (x >>= f) s Q ↔ wp x s (fun a s' => wp (f a) s' Q) := by
  constructor
  · rintro ⟨b, t, hb, hq⟩
    change (x s >>= fun p => f p.1 p.2) = _ at hb
    cases hx : x s with
    | error e => rw [hx] at hb; cases hb
    | ok p =>
        rw [hx] at hb
        exact ⟨p.1, p.2, hx, b, t, hb, hq⟩
  · rintro ⟨a, s', hx, b, t, hf, hq⟩
    refine ⟨b, t, ?_, hq⟩
    change (x s >>= fun p => f p.1 p.2) = _
    rw [hx]
    exact hf

@[simp] theorem wp_get (s : σ) (Q : σ → σ → Prop) :
    wp (get : Prog ε σ σ) s Q ↔ Q s s :=
  wp_of_eq rfl

@[simp] theorem wp_set (t s : σ) (Q : PUnit → σ → Prop) :
    wp (set t : Prog ε σ PUnit) s Q ↔ Q ⟨⟩ t :=
  wp_of_eq rfl

@[simp] theorem wp_modify (f : σ → σ) (s : σ) (Q : PUnit → σ → Prop) :
    wp (modify f : Prog ε σ PUnit) s Q ↔ Q ⟨⟩ (f s) :=
  wp_of_eq rfl

@[simp] theorem wp_throw (e : ε) (s : σ) (Q : α → σ → Prop) :
    wp (throw e : Prog ε σ α) s Q ↔ False := by
  refine ⟨?_, False.elim⟩
  rintro ⟨a, s', h, -⟩
  cases h

/-- The program `x` run on a part of a larger state. -/
def zoom {τ : Type} (part : σ → τ) (put : σ → τ → σ) (x : Prog ε τ α) : Prog ε σ α := fun s =>
  match x (part s) with
  | .ok (a, t) => .ok (a, put s t)
  | .error e => .error e

@[simp] theorem wp_zoom {τ : Type} (part : σ → τ) (put : σ → τ → σ) (x : Prog ε τ α) (s : σ)
    (Q : α → σ → Prop) : wp (zoom part put x) s Q ↔ wp x (part s) (fun a t => Q a (put s t)) := by
  cases h : x (part s) with
  | error e =>
      constructor
      · rintro ⟨a, s', hx, -⟩
        simp [zoom, h] at hx
      · rintro ⟨a, t, hx, -⟩
        rw [h] at hx
        cases hx
  | ok p =>
      rw [wp_of_eq h]
      exact wp_of_eq (by simp [zoom, h])

/-! ## 2. Stopping -/

/-- From `s` the program stops with the fault `e`. -/
def Stops (x : Prog ε σ α) (s : σ) (e : ε) : Prop := x s = .error e

theorem stops_throw (e : ε) (s : σ) : Stops (throw e : Prog ε σ α) s e := rfl

/-- A fault in the first half is the fault of the whole. -/
theorem stops_bind_left {x : Prog ε σ α} {f : α → Prog ε σ β} {s : σ} {e : ε}
    (h : Stops x s e) : Stops (x >>= f) s e := by
  change (x s >>= fun p => f p.1 p.2) = _
  rw [show x s = .error e from h]
  rfl

/-- The first half returns, the second half stops. -/
theorem stops_bind_right {x : Prog ε σ α} {f : α → Prog ε σ β} {s s' : σ} {a : α} {e : ε}
    (hx : x s = .ok (a, s')) (h : Stops (f a) s' e) : Stops (x >>= f) s e := by
  change (x s >>= fun p => f p.1 p.2) = _
  rw [hx]
  exact h

/-- A program that stops returns nothing. -/
theorem not_wp_of_stops {x : Prog ε σ α} {s : σ} {e : ε} (h : Stops x s e)
    (Q : α → σ → Prop) : ¬ wp x s Q := by
  rintro ⟨a, s', hx, -⟩
  rw [show x s = .error e from h] at hx
  cases hx

/-- Every run returns or stops. -/
theorem wp_or_stops (x : Prog ε σ α) (s : σ) :
    wp x s (fun _ _ => True) ∨ ∃ e, Stops x s e := by
  cases h : x s with
  | error e => exact Or.inr ⟨e, h⟩
  | ok p => exact Or.inl ⟨p.1, p.2, h, trivial⟩

/-! ## 3. The counted loop -/

/-- `for (i = 0; i < n; i++) body(i)`. -/
def forUp (n : Nat) (body : Nat → Prog ε σ Unit) : Prog ε σ Unit :=
  match n with
  | 0 => pure ()
  | n + 1 => do
      forUp n body
      body n

/-- **The invariant rule of the counted loop.** -/
theorem wp_forUp {n : Nat} {body : Nat → Prog ε σ Unit} {s : σ} (I : Nat → σ → Prop)
    (h0 : I 0 s) (hstep : ∀ i t, i < n → I i t → wp (body i) t (fun _ t' => I (i + 1) t')) :
    wp (forUp n body) s (fun _ t => I n t) := by
  induction n with
  | zero => exact (wp_pure _ _ _).mpr h0
  | succ n ih =>
      rw [forUp, wp_bind]
      refine wp_mono (ih fun i t hi => hstep i t (Nat.lt_succ_of_lt hi)) fun _ t ht => ?_
      exact hstep n t (Nat.lt_succ_self n) ht

/-- Two loop bodies that agree below the bound run alike. -/
theorem forUp_congr {n : Nat} {f g : Nat → Prog ε σ Unit} (h : ∀ i, i < n → f i = g i) :
    forUp n f = forUp n g := by
  induction n with
  | zero => rfl
  | succ n ih =>
      rw [forUp, forUp, ih fun i hi => h i (Nat.lt_succ_of_lt hi), h n (Nat.lt_succ_self n)]

/-- The state after `n` rounds of the updates `f 0`, `f 1`, … -/
def runUp (n : Nat) (f : Nat → σ → σ) (s : σ) : σ :=
  match n with
  | 0 => s
  | n + 1 => f n (runUp n f s)

/-- **The loop of guarded updates**: if each body returns exactly when its guard holds, and then
    updates the state by `f`, the loop returns exactly when every guard holds. -/
theorem wp_forUp_iff {n : Nat} {body : Nat → Prog ε σ Unit} {P : Nat → Prop} {f : Nat → σ → σ}
    (h : ∀ i t (Q : Unit → σ → Prop), i < n → (wp (body i) t Q ↔ P i ∧ Q () (f i t)))
    (s : σ) (Q : Unit → σ → Prop) :
    wp (forUp n body) s Q ↔ (∀ i, i < n → P i) ∧ Q () (runUp n f s) := by
  induction n generalizing Q with
  | zero =>
      rw [forUp, wp_pure]
      exact ⟨fun hq => ⟨fun i hi => absurd hi (Nat.not_lt_zero i), hq⟩, fun hq => hq.2⟩
  | succ n ih =>
      rw [forUp, wp_bind, ih fun i t R hi => h i t R (Nat.lt_succ_of_lt hi),
        h n _ _ (Nat.lt_succ_self n)]
      constructor
      · intro hq
        obtain ⟨hP, hn, hq⟩ := hq
        refine ⟨fun i hi => ?_, hq⟩
        rcases Nat.lt_succ_iff_lt_or_eq.mp hi with hi | rfl
        · exact hP i hi
        · exact hn
      · intro hq
        exact ⟨fun i hi => hq.1 i (Nat.lt_succ_of_lt hi), hq.1 n (Nat.lt_succ_self n), hq.2⟩

/-- A loop of updates. -/
theorem wp_forUp_modify (f : Nat → σ → σ) (n : Nat) (s : σ) (Q : Unit → σ → Prop) :
    wp (forUp n fun i => modify (f i) : Prog ε σ Unit) s Q ↔ Q () (runUp n f s) := by
  rw [wp_forUp_iff (P := fun _ => True) (f := f)]
  · exact ⟨fun h => h.2, fun h => ⟨fun _ _ => True.intro, h⟩⟩
  · intro i t R _
    rw [wp_modify]
    exact ⟨fun h => ⟨True.intro, h⟩, fun h => h.2⟩

/-! ## 4. What a program leaves alone -/

/-- Whenever the program returns, `f` of the state is what it was. -/
def Keeps {τ : Type} (f : σ → τ) (x : Prog ε σ α) : Prop :=
  ∀ s a t, x s = .ok (a, t) → f t = f s

section Keeps

variable {τ : Type} {f : σ → τ}

theorem keeps_pure (a : α) : Keeps f (pure a : Prog ε σ α) := by
  intro s b t h
  cases h
  rfl

theorem keeps_bind {x : Prog ε σ α} {g : α → Prog ε σ β} (hx : Keeps f x)
    (hg : ∀ a, Keeps f (g a)) : Keeps f (x >>= g) := by
  intro s b t h
  have hw : wp (x >>= g) s (fun b' t' => b' = b ∧ t' = t) := ⟨b, t, h, rfl, rfl⟩
  rw [wp_bind] at hw
  obtain ⟨a, s', hxs, b', t', hgs, rfl, rfl⟩ := hw
  exact (hg a s' b' t' hgs).trans (hx s a s' hxs)

/-- A part that is zoomed past keeps its value. -/
theorem keeps_zoom {υ : Type} {part : σ → υ} {put : σ → υ → σ} (x : Prog ε υ α)
    (hput : ∀ s u, f (put s u) = f s) : Keeps f (zoom part put x) := by
  intro s a t h
  unfold zoom at h
  cases hx : x (part s) with
  | error e => simp [hx] at h
  | ok p =>
      rw [hx] at h
      cases h
      exact hput s p.2

end Keeps

/-! ## 5. Returning or stopping -/

/-- From `s` the program returns, and its value and final state meet `Q`, or it stops with a fault
    that meets `E`. -/
def ends (x : Prog ε σ α) (s : σ) (Q : α → σ → Prop) (E : ε → Prop) : Prop :=
  match x s with
  | .ok (a, s') => Q a s'
  | .error e => E e

section Ends

variable {x : Prog ε σ α} {s : σ} {Q R : α → σ → Prop} {E F : ε → Prop}

theorem ends_of_eq {a : α} {s' : σ} (h : x s = .ok (a, s')) : ends x s Q E ↔ Q a s' := by
  unfold ends
  rw [h]

theorem ends_of_stops {e : ε} (h : Stops x s e) : ends x s Q E ↔ E e := by
  unfold ends
  rw [show x s = .error e from h]

theorem ends_mono (h : ends x s Q E) (hQR : ∀ a s', Q a s' → R a s') (hEF : ∀ e, E e → F e) :
    ends x s R F := by
  unfold ends at *
  split at h
  · exact hQR _ _ h
  · exact hEF _ h

theorem ends_of_wp (h : wp x s Q) : ends x s Q E := by
  obtain ⟨a, s', hx, hq⟩ := h
  exact (ends_of_eq hx).mpr hq

theorem ends_trivial (x : Prog ε σ α) (s : σ) : ends x s (fun _ _ => True) fun _ => True := by
  unfold ends
  split
  · trivial
  · trivial

/-- A program that never stops returns. -/
theorem wp_of_ends (h : ends x s Q fun _ => False) : wp x s Q := by
  unfold ends at h
  split at h
  · rename_i a s' hx
    exact ⟨a, s', hx, h⟩
  · exact h.elim

/-- What holds where the program returned. -/
theorem ends_ok {a : α} {s' : σ} (h : ends x s Q E) (hx : x s = .ok (a, s')) : Q a s' :=
  (ends_of_eq hx).mp h

theorem ends_and {F : ε → Prop} (h : ends x s Q E) (h' : ends x s R F) :
    ends x s (fun a s' => Q a s' ∧ R a s') fun e => E e ∧ F e := by
  unfold ends at *
  cases hx : x s with
  | ok p =>
      rw [hx] at h h'
      exact ⟨h, h'⟩
  | error e =>
      rw [hx] at h h'
      exact ⟨h, h'⟩

@[simp] theorem ends_pure (a : α) (s : σ) (Q : α → σ → Prop) (E : ε → Prop) :
    ends (pure a : Prog ε σ α) s Q E ↔ Q a s :=
  Iff.rfl

@[simp] theorem ends_throw (e : ε) (s : σ) (Q : α → σ → Prop) (E : ε → Prop) :
    ends (throw e : Prog ε σ α) s Q E ↔ E e :=
  Iff.rfl

@[simp] theorem ends_get (s : σ) (Q : σ → σ → Prop) (E : ε → Prop) :
    ends (get : Prog ε σ σ) s Q E ↔ Q s s :=
  Iff.rfl

@[simp] theorem ends_set (t s : σ) (Q : PUnit → σ → Prop) (E : ε → Prop) :
    ends (set t : Prog ε σ PUnit) s Q E ↔ Q ⟨⟩ t :=
  Iff.rfl

@[simp] theorem ends_modify (f : σ → σ) (s : σ) (Q : PUnit → σ → Prop) (E : ε → Prop) :
    ends (modify f : Prog ε σ PUnit) s Q E ↔ Q ⟨⟩ (f s) :=
  Iff.rfl

@[simp] theorem ends_bind (x : Prog ε σ α) (f : α → Prog ε σ β) (s : σ) (Q : β → σ → Prop)
    (E : ε → Prop) : ends (x >>= f) s Q E ↔ ends x s (fun a s' => ends (f a) s' Q E) E := by
  have hbind : (x >>= f) s = (x s >>= fun p => f p.1 p.2) := rfl
  unfold ends
  rw [hbind]
  cases x s with
  | error e => rfl
  | ok p => rfl

/-- What the last part of a program ensures wherever it starts. -/
theorem ends_bind_last {x : Prog ε σ α} {f : α → Prog ε σ β} {s : σ} {Q : β → σ → Prop}
    (h : ∀ a t, ends (f a) t Q fun _ => True) : ends (x >>= f) s Q fun _ => True :=
  (ends_bind _ _ _ _ _).mpr
    (ends_mono (ends_trivial x s) (fun a t _ => h a t) fun _ _ => trivial)

@[simp] theorem ends_zoom {τ : Type} (part : σ → τ) (put : σ → τ → σ) (x : Prog ε τ α) (s : σ)
    (Q : α → σ → Prop) (E : ε → Prop) :
    ends (zoom part put x) s Q E ↔ ends x (part s) (fun a t => Q a (put s t)) E := by
  unfold ends zoom
  cases x (part s) with
  | error e => rfl
  | ok p => rfl

/-- The invariant rule of the counted loop. -/
theorem ends_forUp {n : Nat} {body : Nat → Prog ε σ Unit} (I : Nat → σ → Prop) (h0 : I 0 s)
    (hstep : ∀ i t, i < n → I i t → ends (body i) t (fun _ t' => I (i + 1) t') E) :
    ends (forUp n body) s (fun _ t => I n t) E := by
  induction n with
  | zero => exact (ends_pure _ _ _ _).mpr h0
  | succ n ih =>
      rw [forUp, ends_bind]
      refine ends_mono (ih fun i t hi => hstep i t (Nat.lt_succ_of_lt hi)) (fun _ t ht => ?_)
        fun _ he => he
      exact hstep n t (Nat.lt_succ_self n) ht

/-- `for (i = 0; i < n; i++)` with a way out: a body that answers `false` ends the loop. -/
def forUpWhile (n : Nat) (body : Nat → Prog ε σ Bool) : Prog ε σ Bool :=
  match n with
  | 0 => pure true
  | n + 1 => do
      if ← forUpWhile n body then body n else pure false

/-- **The invariant rule of the loop with a way out**: `J` holds where it was taken. -/
theorem ends_forUpWhile {n : Nat} {body : Nat → Prog ε σ Bool} (I : Nat → σ → Prop)
    (J : σ → Prop) (h0 : I 0 s)
    (hstep : ∀ i t, i < n → I i t →
      ends (body i) t (fun b t' => if b then I (i + 1) t' else J t') E) :
    ends (forUpWhile n body) s (fun b t => if b then I n t else J t) E := by
  induction n with
  | zero => exact (ends_pure _ _ _ _).mpr h0
  | succ n ih =>
      rw [forUpWhile, ends_bind]
      refine ends_mono (ih fun i t hi => hstep i t (Nat.lt_succ_of_lt hi)) (fun b t ht => ?_)
        fun _ he => he
      cases b with
      | true => exact hstep n t (Nat.lt_succ_self n) ht
      | false => exact ht

end Ends

end Slightx.Lib
