import Mathlib.Algebra.Order.Group.Defs
import Mathlib.Algebra.BigOperators.Group.List.Basic
import Mathlib.Data.List.Induction
import Mathlib.Tactic.Abel

/-!
# The meter

A meter that pours fill and time drains.  It remembers its level and when it was last filled;
between two pours it loses as much as there is time between them, but never below zero.  Time is
counted in what drains in it, so that levels and stamps are of one kind.  Stamps need not increase:
a pour with an earlier stamp than the last one makes the level rise.

The level depends on the whole history through the clamp at zero.  The closed form: it is the
greatest of zero and, for each pour, what has been poured since then less what has drained since
then.

* `fill` — the meter after a log of pours.
* `reading_le_iff` — the closed form.
* `reading_le_iff_of_ordered` — with stamps in order, pours of nothing need not be looked at.
-/

namespace Core

/-! ## Splitting a list at a member -/

/-- A list that has just grown is split at its new member, or at an old one. -/
lemma concat_eq_split_iff {α : Type*} {l earlier later : List α} {x y : α} :
    l ++ [x] = earlier ++ y :: later ↔
      (earlier = l ∧ y = x ∧ later = []) ∨
        ∃ between, later = between ++ [x] ∧ l = earlier ++ y :: between := by
  rcases List.eq_nil_or_concat' later with rfl | ⟨between, z, rfl⟩
  · rw [List.append_singleton_inj]
    constructor
    · rintro ⟨rfl, rfl⟩
      exact Or.inl ⟨rfl, rfl, rfl⟩
    · rintro (⟨rfl, rfl, -⟩ | ⟨between, hnil, -⟩)
      · exact ⟨rfl, rfl⟩
      · exact absurd hnil (by simp)
  · rw [← List.cons_append, ← List.append_assoc, List.append_singleton_inj]
    simp only [List.append_singleton_inj, reduceCtorEq, List.append_eq_nil_iff, and_false, false_or]
    constructor
    · rintro ⟨rfl, rfl⟩
      exact ⟨between, ⟨rfl, rfl⟩, rfl⟩
    · rintro ⟨between', ⟨rfl, rfl⟩, rfl⟩
      exact ⟨rfl, rfl⟩

/-- Something goes into a meter. -/
structure Pour (α : Type*) where
  stamp : α
  weight : α

/-- What a meter remembers. -/
structure Gauge (α : Type*) where
  level : α
  stamp : α

section total

variable {α : Type*} [AddCommGroup α]

/-- All that has been poured. -/
def total (pours : List (Pour α)) : α := (pours.map Pour.weight).sum

@[simp] lemma total_nil : total ([] : List (Pour α)) = 0 := rfl

@[simp] lemma total_cons (p : Pour α) (pours : List (Pour α)) :
    total (p :: pours) = p.weight + total pours := List.sum_cons

@[simp] lemma total_append (ps qs : List (Pour α)) : total (ps ++ qs) = total ps + total qs := by
  rw [total, List.map_append, List.sum_append]
  rfl

end total

variable {α : Type*} [AddCommGroup α] [LinearOrder α]

/-- The level at `now`, after draining. -/
def reading (gauge : Option (Gauge α)) (now : α) : α :=
  match gauge with
  | none => 0
  | some gauge => max 0 (gauge.level - (now - gauge.stamp))

def pour (gauge : Option (Gauge α)) (p : Pour α) : Gauge α where
  level := reading gauge p.stamp + p.weight
  stamp := p.stamp

/-- The meter after a log of pours, the oldest first. -/
def fill (log : List (Pour α)) : Option (Gauge α) :=
  log.foldl (fun gauge p => some (pour gauge p)) none

@[simp] lemma fill_nil : fill ([] : List (Pour α)) = none := rfl

@[simp] lemma fill_concat (log : List (Pour α)) (p : Pour α) :
    fill (log ++ [p]) = some (pour (fill log) p) := by
  rw [fill, List.foldl_append]
  rfl

lemma reading_nonneg (gauge : Option (Gauge α)) (now : α) : 0 ≤ reading gauge now := by
  cases gauge with
  | none => exact le_refl 0
  | some gauge => exact le_max_left 0 _

variable [IsOrderedAddMonoid α]

/-- **The closed form.**  A bound on the level bounds, for every pour, what has been poured since
then less what has drained since then. -/
theorem reading_le_iff {log : List (Pour α)} {now b : α} :
    reading (fill log) now ≤ b ↔ 0 ≤ b ∧ ∀ earlier p later, log = earlier ++ p :: later →
      total (p :: later) - (now - p.stamp) ≤ b := by
  induction log using List.reverseRecOn generalizing now b with
  | nil => simp [reading]
  | append_singleton log q ih =>
      -- one pour less, the bound is moved by what this pour adds and what drains after it
      have hstep : reading (fill log) q.stamp + q.weight - (now - q.stamp) ≤ b ↔
          reading (fill log) q.stamp ≤ b - (q.weight - (now - q.stamp)) := by
        rw [le_sub_iff_add_le, add_sub_assoc]
      rw [fill_concat, reading, max_le_iff, pour, hstep, ih]
      constructor
      · rintro ⟨hb, hlast, hearlier⟩
        refine ⟨hb, fun earlier p later heq => ?_⟩
        rcases concat_eq_split_iff.mp heq with ⟨rfl, rfl, rfl⟩ | ⟨between, rfl, hlog⟩
        · rw [total_cons, total_nil, add_zero]
          exact sub_nonneg.mp hlast
        · have hle := hearlier earlier p between hlog
          rw [← List.cons_append, total_append, total_cons q, total_nil, add_zero]
          rw [le_sub_iff_add_le] at hle
          calc total (p :: between) + q.weight - (now - p.stamp)
              = total (p :: between) - (q.stamp - p.stamp) + (q.weight - (now - q.stamp)) := by abel
            _ ≤ b := hle
      · rintro ⟨hb, hall⟩
        refine ⟨hb, ?_, fun earlier p later hlog => ?_⟩
        · have hle := hall log q [] rfl
          rw [total_cons, total_nil, add_zero] at hle
          exact sub_nonneg.mpr hle
        · have hle := hall earlier p (later ++ [q]) (by rw [hlog]; simp)
          rw [← List.cons_append, total_append, total_cons q, total_nil, add_zero] at hle
          rw [le_sub_iff_add_le]
          calc total (p :: later) - (q.stamp - p.stamp) + (q.weight - (now - q.stamp))
              = total (p :: later) + q.weight - (now - p.stamp) := by abel
            _ ≤ b := hle

/-- With stamps in order, a window that starts with pours of nothing is bounded by the windows that
do not. -/
lemma window_le_of_poured {now b : α} (hb : 0 ≤ b) :
    ∀ (log : List (Pour α)), (log.map Pour.stamp ++ [now]).Pairwise (· ≤ ·) →
      (∀ earlier p later, log = earlier ++ p :: later → p.weight ≠ 0 →
        total (p :: later) - (now - p.stamp) ≤ b) →
      ∀ p later, log = p :: later → total (p :: later) - (now - p.stamp) ≤ b
  | [], _, _ => fun p later heq => absurd heq (by simp)
  | q :: log, hordered, hpoured => by
      intro p later heq
      obtain ⟨rfl, rfl⟩ := List.cons.inj heq
      by_cases hw : q.weight = 0
      · rw [total_cons, hw, zero_add]
        cases log with
        | nil =>
            have hstamp : q.stamp ≤ now := by simpa using hordered
            exact (sub_nonpos.mpr (sub_nonneg.mpr hstamp)).trans hb
        | cons q' log' =>
            rw [List.map_cons, List.cons_append, List.pairwise_cons] at hordered
            have hnext := window_le_of_poured hb (q' :: log') hordered.2
              (fun earlier p later heq => hpoured (q :: earlier) p later (by rw [heq]; rfl))
              q' log' rfl
            have hstamp : q.stamp ≤ q'.stamp := hordered.1 _ (by simp)
            exact (sub_le_sub_left (sub_le_sub_left hstamp now) _).trans hnext
      · exact hpoured [] q log rfl hw

/-- **The closed form for stamps in order.**  Only the pours of something need to be looked at. -/
theorem reading_le_iff_of_ordered {log : List (Pour α)} {now b : α} (hb : 0 ≤ b)
    (hordered : (log.map Pour.stamp ++ [now]).Pairwise (· ≤ ·)) :
    reading (fill log) now ≤ b ↔ ∀ earlier p later, log = earlier ++ p :: later → p.weight ≠ 0 →
      total (p :: later) - (now - p.stamp) ≤ b := by
  rw [reading_le_iff]
  constructor
  · rintro ⟨-, hall⟩ earlier p later heq -
    exact hall earlier p later heq
  · intro hpoured
    refine ⟨hb, fun earlier p later heq => ?_⟩
    refine window_le_of_poured hb (p :: later) ?_ ?_ p later rfl
    · rw [heq, List.map_append, List.append_assoc, List.pairwise_append] at hordered
      exact hordered.2.1
    · intro earlier' p' later' heq'
      exact hpoured (earlier ++ earlier') p' later' (by rw [heq, heq', List.append_assoc])

end Core
