import RedisApi.Core.Machine
import Mathlib.Data.List.Range

/-!
# Executions that never stop

What a machine does in the long run.  An `Execution` takes a step at every time; whether somebody
gets a turn is up to the actions it chooses, so results about what happens eventually assume that
it is fair.

* `FairTo` — weak fairness: actions of a class are not for ever possible and never taken.
* `Execution.reaches_restrict` — an execution that keeps to a restriction goes through states that
  this reaches.
* `Variant` — a rank that the actions of a class lower and the others do not raise, and with it
  `countP_range_add_le`, how many of them there can be, and `eventually`, that a fair execution gets
  done.
* `Execution.ofStrategy` — an execution in which the state decides what happens next.
-/

namespace Core.Machine

variable {State Act Out : Type*} {M : Machine State Act Out}

/-- An execution: a step at every time. -/
structure Execution (M : Machine State Act Out) where
  state : ℕ → State
  act : ℕ → Act
  out : ℕ → List Out
  step : ∀ t, M.step (state t) (act t) = some (state (t + 1), out t)

namespace Execution

/-- What has been emitted before the time `t`. -/
def history (e : M.Execution) : ℕ → List Out
  | 0 => []
  | t + 1 => e.history t ++ e.out t

lemma history_prefix (e : M.Execution) {t u : ℕ} (htu : t ≤ u) : e.history t <+: e.history u := by
  induction htu with
  | refl => exact List.prefix_refl _
  | step _ ih => exact ih.trans (List.prefix_append _ _)

/-- An execution that keeps to a restriction. -/
theorem reaches_restrict (e : M.Execution) {G : State → Act → Bool}
    (hG : ∀ t, G (e.state t) (e.act t) = true) (t : ℕ) :
    (M.restrict G).Reaches (e.state 0) (e.history t) (e.state t) := by
  induction t with
  | zero => exact Reaches.refl
  | succ t ih => exact ih.tail (restrict_step.mpr ⟨hG t, e.step t⟩)

/-- What was there and is gone was ended by a step. -/
theorem exists_last (e : M.Execution) {P : State → Prop} {t u : ℕ} (htu : t ≤ u)
    (ht : P (e.state t)) (hu : ¬ P (e.state u)) :
    ∃ k, t ≤ k ∧ P (e.state k) ∧ ¬ P (e.state (k + 1)) := by
  induction htu with
  | refl => exact absurd ht hu
  | @step u htu ih =>
      by_cases hbefore : P (e.state u)
      · exact ⟨u, htu, hbefore, hu⟩
      · exact ih hbefore

/-- Some action of the class is possible. -/
def Enabled (M : Machine State Act Out) (p : Act → Bool) (s : State) : Prop :=
  ∃ a, p a = true ∧ (M.step s a).isSome = true

/-- **Weak fairness**: where actions of the class stay possible, one is taken. -/
def FairTo (e : M.Execution) (p : Act → Bool) : Prop :=
  ∀ t, (∀ u, t ≤ u → Enabled M p (e.state u)) → ∃ u, t ≤ u ∧ p (e.act u) = true

/-- A turn comes, if without one the actions of the class are possible from some time on. -/
theorem FairTo.turn_of_eventually {e : M.Execution} {p : Act → Bool} (hfair : e.FairTo p) {t : ℕ}
    (henabled : (∀ u, t ≤ u → p (e.act u) = false) →
      ∃ v, t ≤ v ∧ ∀ u, v ≤ u → Enabled M p (e.state u)) :
    ∃ u, t ≤ u ∧ p (e.act u) = true := by
  by_contra hnone
  have hidle : ∀ u, t ≤ u → p (e.act u) = false := by
    intro u hu
    exact Bool.eq_false_iff.mpr fun hc => hnone ⟨u, hu, hc⟩
  rcases henabled hidle with ⟨v, htv, hv⟩
  rcases hfair v hv with ⟨u, hvu, hu⟩
  exact hnone ⟨u, Nat.le_trans htv hvu, hu⟩

/-- What only the class can change stays as long as the class has no turn. -/
theorem stays_idle (e : M.Execution) {p : Act → Bool} {P : State → Prop}
    (hkeep : ∀ u, P (e.state u) → p (e.act u) = false → P (e.state (u + 1))) {t : ℕ}
    (hidle : ∀ u, t ≤ u → p (e.act u) = false) (ht : P (e.state t)) {u : ℕ} (htu : t ≤ u) :
    P (e.state u) := by
  induction htu with
  | refl => exact ht
  | step htu ih => exact hkeep _ ih (hidle _ htu)

/-- A turn comes, if the actions of the class stay possible until it does. -/
theorem FairTo.turn {e : M.Execution} {p : Act → Bool} (hfair : e.FairTo p) {P : State → Prop}
    (henabled : ∀ s, P s → Enabled M p s)
    (hkeep : ∀ u, P (e.state u) → p (e.act u) = false → P (e.state (u + 1))) {t : ℕ}
    (ht : P (e.state t)) : ∃ u, t ≤ u ∧ p (e.act u) = true := by
  refine hfair.turn_of_eventually fun hidle => ⟨t, Nat.le_refl t, ?_⟩
  intro u htu
  exact henabled _ (e.stays_idle hkeep hidle ht htu)

/-- The execution in which `choose` says what happens in each state. -/
def ofStrategy (M : Machine State Act Out) (choose : State → Act)
    (hchoose : ∀ s, (M.step s (choose s)).isSome = true) (s₀ : State) : M.Execution where
  state t := (fun s => ((M.step s (choose s)).get (hchoose s)).1)^[t] s₀
  act t := choose ((fun s => ((M.step s (choose s)).get (hchoose s)).1)^[t] s₀)
  out t :=
    let s := (fun s => ((M.step s (choose s)).get (hchoose s)).1)^[t] s₀
    ((M.step s (choose s)).get (hchoose s)).2
  step t := by
    rw [Function.iterate_succ_apply']
    exact (Option.some_get _).symm

end Execution

/-! ## Variants -/

/-- A rank that the actions of a class lower, and that no action raises. -/
structure Variant (M : Machine State Act Out) (p : Act → Bool) where
  rank : State → ℕ
  step : ∀ {s s' : State} {a : Act} {out : List Out}, M.step s a = some (s', out) →
    rank s' + (if p a then 1 else 0) ≤ rank s

namespace Variant

variable {p : Act → Bool}

/-- **An execution holds no more actions of the class than the rank says**, however long it is. -/
theorem countP_range_add_le (V : M.Variant p) (e : M.Execution) (t : ℕ) :
    (List.range t).countP (fun u => p (e.act u)) + V.rank (e.state t) ≤ V.rank (e.state 0) := by
  induction t with
  | zero => simp
  | succ t ih =>
      have hstep := V.step (e.step t)
      rw [List.range_succ, List.countP_append, List.countP_singleton]
      omega

lemma rank_antitone (V : M.Variant p) (e : M.Execution) {t u : ℕ} (htu : t ≤ u) :
    V.rank (e.state u) ≤ V.rank (e.state t) := by
  induction htu with
  | refl => exact Nat.le_refl _
  | @step u _ ih => exact Nat.le_trans (Nat.le_of_add_right_le (V.step (e.step u))) ih

/-- **An execution in which the class gets its turns until it is done gets done.** -/
theorem eventually (V : M.Variant p) {e : M.Execution} {D : State → Prop} {t : ℕ}
    (hturn : ∀ u, t ≤ u → ¬ D (e.state u) → ∃ v, u ≤ v ∧ p (e.act v) = true) :
    ∃ u, t ≤ u ∧ D (e.state u) := by
  generalize hn : V.rank (e.state t) = n
  induction n using Nat.strongRecOn generalizing t with
  | ind n ih =>
      by_cases hdone : D (e.state t)
      · exact ⟨t, Nat.le_refl t, hdone⟩
      · rcases hturn t (Nat.le_refl t) hdone with ⟨u, htu, hu⟩
        have hstep := V.step (e.step u)
        have hle := V.rank_antitone e htu
        rw [hu, if_pos rfl] at hstep
        have hlater : ∀ v, u + 1 ≤ v → ¬ D (e.state v) → ∃ w, v ≤ w ∧ p (e.act w) = true :=
          fun v huv => hturn v (by omega)
        rcases ih (V.rank (e.state (u + 1))) (by omega) hlater rfl with ⟨v, huv, hv⟩
        exact ⟨v, by omega, hv⟩

end Variant

end Core.Machine
