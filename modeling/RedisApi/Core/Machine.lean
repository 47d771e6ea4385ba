import Mathlib.Data.List.Basic
import Mathlib.Order.Basic

/-!
# Machines with outputs

A concurrent component is modelled by a *machine*: in a state an action is either refused or
leads to exactly one next state, and emits a list of outputs on the way.  All nondeterminism
(who runs next, which call fails, when a timer fires) sits in the choice of the action, so a
statement about every reachable state is a statement about every interleaving.

* `Machine.Reaches` — the reachable states, each with the outputs emitted on the way to it.
* `Machine.run` — the same, executed on a given schedule, so that a concrete run can be computed.
* `Machine.run_alike` — two machines that take every action alike.
* `Machine.restrict` — the machine with some of its actions forbidden.
* `Machine.Projection` — one machine seen through another, and the transport of reachability
  along it.
-/

namespace Core

/-- A machine: a partial step function that also says what the step emits. -/
structure Machine (State Act Out : Type*) where
  step : State → Act → Option (State × List Out)

namespace Machine

variable {State Act Out : Type*}

/-! ## Reachability -/

/-- The states reachable from `s₀`, together with everything emitted on the way. -/
inductive Reaches (M : Machine State Act Out) (s₀ : State) : List Out → State → Prop
  | refl : Reaches M s₀ [] s₀
  | tail {h : List Out} {s s' : State} {a : Act} {out : List Out} :
      Reaches M s₀ h s → M.step s a = some (s', out) → Reaches M s₀ (h ++ out) s'

variable {M : Machine State Act Out} {s₀ s s' : State} {h h' out : List Out} {a : Act}

/-- One step from the start. -/
theorem Reaches.single (hs : M.step s₀ a = some (s, out)) : M.Reaches s₀ out s := by
  have hr : M.Reaches s₀ ([] ++ out) s := Reaches.refl.tail hs
  rwa [List.nil_append] at hr

/-- Runs compose. -/
theorem Reaches.trans (h₁ : M.Reaches s₀ h s) (h₂ : M.Reaches s h' s') :
    M.Reaches s₀ (h ++ h') s' := by
  induction h₂ with
  | refl => rwa [List.append_nil]
  | tail _ hs ih =>
      rw [← List.append_assoc]
      exact ih.tail hs

/-- **The invariant rule.**  What holds at the start and is kept by every step taken from a
reachable state holds along the whole run; the invariant may speak about what was emitted. -/
theorem Reaches.invariant {I : List Out → State → Prop} (h₀ : I [] s₀)
    (hstep : ∀ h s a s' out, M.Reaches s₀ h s → I h s → M.step s a = some (s', out) →
      I (h ++ out) s')
    (hr : M.Reaches s₀ h s) : I h s := by
  induction hr with
  | refl => exact h₀
  | tail hr hs ih => exact hstep _ _ _ _ _ hr ih hs

/-- The invariant rule for a property of the state alone. -/
theorem Reaches.stateInvariant {I : State → Prop} (h₀ : I s₀)
    (hstep : ∀ s a s' out, I s → M.step s a = some (s', out) → I s')
    (hr : M.Reaches s₀ h s) : I s :=
  hr.invariant (I := fun _ s => I s) h₀ fun _ _ _ _ _ _ hi hs => hstep _ _ _ _ hi hs

/-! ## Executing a schedule -/

/-- Run the machine on a schedule; `none` as soon as an action is refused. -/
def run (M : Machine State Act Out) (s : State) : List Act → Option (State × List Out)
  | [] => some (s, [])
  | a :: as =>
      match M.step s a with
      | none => none
      | some (s', out) => (M.run s' as).map fun r => (r.1, out ++ r.2)

/-- A schedule one action longer. -/
theorem run_cons {s s₁ s₂ : State} {a : Act} {as : List Act} {out h : List Out}
    (hs : M.step s a = some (s₁, out)) (hr : M.run s₁ as = some (s₂, h)) :
    M.run s (a :: as) = some (s₂, out ++ h) := by
  rw [run, hs]
  dsimp only
  rw [hr]
  rfl

/-- What a schedule computes is reachable. -/
theorem reaches_of_run {as : List Act} {s s' : State} {h : List Out}
    (hr : M.run s as = some (s', h)) : M.Reaches s h s' := by
  induction as generalizing s h with
  | nil =>
      simp only [run, Option.some.injEq, Prod.mk.injEq] at hr
      obtain ⟨rfl, rfl⟩ := hr
      exact Reaches.refl
  | cons a as ih =>
      rw [run] at hr
      split at hr
      · exact absurd hr (by simp)
      · next t out hs =>
        obtain ⟨r, hrun, heq⟩ := Option.map_eq_some_iff.mp hr
        obtain ⟨rfl, rfl⟩ := Prod.mk.injEq .. ▸ heq
        exact (Reaches.single hs).trans (ih hrun)

/-- Running one schedule after another. -/
theorem run_append (s : State) (as bs : List Act) :
    M.run s (as ++ bs) =
      (M.run s as).bind fun r => (M.run r.1 bs).map fun q => (q.1, r.2 ++ q.2) := by
  induction as generalizing s with
  | nil => simp [run]
  | cons a as ih =>
      rw [List.cons_append, run, run]
      cases M.step s a with
      | none => rfl
      | some r =>
          dsimp only
          rw [ih]
          cases M.run r.1 as with
          | none => rfl
          | some q => simp [Function.comp_def]

/-- A schedule with one more action at its end. -/
theorem run_concat {as : List Act} (hr : M.run s₀ as = some (s, h))
    (hs : M.step s a = some (s', out)) : M.run s₀ (as ++ [a]) = some (s', h ++ out) := by
  rw [run_append, hr, Option.bind_some, run_cons hs rfl, List.append_nil]
  rfl

/-- What is executed has been executed up to any point. -/
theorem exists_run_of_prefix {as bs : List Act} {r : State × List Out}
    (hr : M.run s as = some r) (hp : bs <+: as) : ∃ t g, M.run s bs = some (t, g) := by
  obtain ⟨cs, rfl⟩ := hp
  rw [run_append] at hr
  obtain ⟨q, hq, -⟩ := Option.bind_eq_some_iff.mp hr
  exact ⟨q.1, q.2, hq⟩

/-- The invariant rule for a schedule: the invariant may also speak about the actions taken. -/
theorem run_invariant {as : List Act} {I : List Act → List Out → State → Prop} (h₀ : I [] [] s₀)
    (hstep : ∀ as h s a s' out, I as h s → M.step s a = some (s', out) →
      I (as ++ [a]) (h ++ out) s')
    (hr : M.run s₀ as = some (s, h)) : I as h s := by
  induction as generalizing s₀ h I with
  | nil =>
      simp only [run, Option.some.injEq, Prod.mk.injEq] at hr
      obtain ⟨rfl, rfl⟩ := hr
      exact h₀
  | cons a as ih =>
      rw [run] at hr
      split at hr
      · exact absurd hr (by simp)
      · next t out hs =>
        obtain ⟨r, hrun, heq⟩ := Option.map_eq_some_iff.mp hr
        obtain ⟨rfl, rfl⟩ := Prod.mk.injEq .. ▸ heq
        -- what is left to show, seen from the state after `a`
        refine ih (I := fun bs h s => I (a :: bs) (out ++ h) s) ?_ ?_ hrun
        · rw [List.append_nil]
          exact hstep [] [] _ a t out h₀ hs
        · intro bs h s b s' out' hi hb
          have hnext := hstep (a :: bs) (out ++ h) s b s' out' hi hb
          rwa [List.cons_append, List.append_assoc] at hnext

/-! ## Two machines in step -/

/-- What two machines do with one action, or with one schedule, is the same, but for how their
states relate. -/
def Alike {State' : Type*} (R : State → State' → Prop) :
    Option (State × List Out) → Option (State' × List Out) → Prop :=
  Option.Rel fun x y => R x.1 y.1 ∧ x.2 = y.2

lemma Alike.imp {State' : Type*} {R R' : State → State' → Prop} {x : Option (State × List Out)}
    {y : Option (State' × List Out)} (h : Alike R x y) (hR : ∀ s t, R s t → R' s t) :
    Alike R' x y := by
  cases h with
  | none => exact .none
  | some hxy => exact .some ⟨hR _ _ hxy.1, hxy.2⟩

/-- **Machines that take each action alike take every schedule alike.**  The relation may get weaker
with every step, as it does where there is a budget. -/
theorem run_alike {State' : Type*} {N : Machine State' Act Out} {R : ℕ → State → State' → Prop}
    (hstep : ∀ n s t a, R (n + 1) s t → Alike (R n) (M.step s a) (N.step t a)) {as : List Act}
    {t : State'} (h : R as.length s t) : Alike (R 0) (M.run s as) (N.run t as) := by
  induction as generalizing s t with
  | nil => exact .some ⟨h, rfl⟩
  | cons a as ih =>
      have hfirst := hstep as.length s t a h
      rw [run, run]
      generalize M.step s a = x, N.step t a = y at hfirst
      cases hfirst with
      | none => exact .none
      | @some x y hxy =>
          have hrest := ih hxy.1
          dsimp only
          generalize M.run x.1 as = v, N.run y.1 as = w at hrest
          cases hrest with
          | none => exact .none
          | @some v w hvw => exact .some ⟨hvw.1, congrArg₂ (· ++ ·) hxy.2 hvw.2⟩

/-! ## Forbidding actions -/

/-- The machine in which action `a` is possible in state `s` only where `G s a` is true. -/
def restrict (M : Machine State Act Out) (G : State → Act → Bool) : Machine State Act Out where
  step s a := if G s a then M.step s a else none

theorem restrict_step {G : State → Act → Bool} {r : State × List Out} :
    (M.restrict G).step s a = some r ↔ G s a = true ∧ M.step s a = some r := by
  by_cases hg : G s a = true <;> simp [restrict, hg]

/-- A run of the restricted machine is one of the machine. -/
theorem Reaches.of_restrict {G : State → Act → Bool} (hr : (M.restrict G).Reaches s₀ h s) :
    M.Reaches s₀ h s := by
  induction hr with
  | refl => exact Reaches.refl
  | tail _ hs ih => exact ih.tail (restrict_step.mp hs).2

/-- A restriction that forbids nothing. -/
theorem Reaches.restrict_of_forall {G : State → Act → Bool} (hG : ∀ s a, G s a = true)
    (hr : M.Reaches s₀ h s) : (M.restrict G).Reaches s₀ h s := by
  induction hr with
  | refl => exact Reaches.refl
  | tail _ hs ih => exact ih.tail (restrict_step.mpr ⟨hG _ _, hs⟩)

/-- A schedule that the restricted machine executes runs as in the machine. -/
theorem run_of_restrict {G : State → Act → Bool} {as : List Act} {r : State × List Out}
    (hr : (M.restrict G).run s as = some r) : M.run s as = some r := by
  induction as generalizing s r with
  | nil => exact hr
  | cons a as ih =>
      rw [run] at hr
      split at hr
      · exact absurd hr (by simp)
      · next t out hs =>
        obtain ⟨q, hrun, rfl⟩ := Option.map_eq_some_iff.mp hr
        exact run_cons (restrict_step.mp hs).2 (ih hrun)

/-- A schedule of actions that are never forbidden runs as in the machine. -/
theorem run_restrict {G : State → Act → Bool} {as : List Act} (has : ∀ a ∈ as, ∀ s, G s a = true) :
    (M.restrict G).run s as = M.run s as := by
  induction as generalizing s with
  | nil => rfl
  | cons a as ih =>
      obtain ⟨ha, has⟩ := List.forall_mem_cons.mp has
      have hstep : (M.restrict G).step s a = M.step s a := if_pos (ha s)
      rw [run, run, hstep]
      split
      · rfl
      · rw [ih has]

/-- A stronger restriction has fewer runs. -/
theorem Reaches.restrict_mono {G G' : State → Act → Bool}
    (hG : ∀ s a, G s a = true → G' s a = true) (hr : (M.restrict G).Reaches s₀ h s) :
    (M.restrict G').Reaches s₀ h s := by
  induction hr with
  | refl => exact Reaches.refl
  | tail _ hs ih =>
      have hs' := restrict_step.mp hs
      exact ih.tail (restrict_step.mpr ⟨hG _ _ hs'.1, hs'.2⟩)

/-! ## Seeing one machine through another -/

/-- A projection of `M` onto `N`: every step of `M` is one step of `N` on the projected state, or
leaves the projected state and the projected outputs alone. -/
structure Projection {State' Act' Out' : Type*} (M : Machine State Act Out)
    (N : Machine State' Act' Out') where
  state : State → State'
  output : Out → Option Out'
  step : ∀ {s s' : State} {a : Act} {out : List Out}, M.step s a = some (s', out) →
    (∃ a', N.step (state s) a' = some (state s', out.filterMap output)) ∨
      (state s' = state s ∧ out.filterMap output = [])

/-- Reachability carries over along a projection. -/
theorem Projection.reaches {State' Act' Out' : Type*} {N : Machine State' Act' Out'}
    (P : Projection M N) (hr : M.Reaches s₀ h s) :
    N.Reaches (P.state s₀) (h.filterMap P.output) (P.state s) := by
  induction hr with
  | refl => exact Reaches.refl
  | tail _ hs ih =>
      rw [List.filterMap_append]
      rcases P.step hs with ⟨a', ha'⟩ | ⟨hstate, hout⟩
      · exact ih.tail ha'
      · rw [hstate, hout, List.append_nil]
        exact ih

end Machine

end Core
