import Mathlib.Data.Int.Order.Basic
import Mathlib.Data.List.Basic
import Mathlib.Tactic.Common
import Mathlib.Tactic.SplitIfs

/-!
# The sequential inventory

What a request sees if it has the inventory to itself: with a positive stock it takes one unit and
is told the new stock, otherwise it is told that nothing is left.  A request that does not keep its
unit gives it back.

A list of such operations, each with what was reported, is *legal* from a stock if every report is
the one the inventory would have made (`replay`).

* `replay_balance`, `replay_nonneg` — where the units of a legal list are.
* `giveBack_between` — a stock is reported a second time only after a unit has been given back.
* `balance_of_refused` — nothing is left only when all units are out.
* `visible` — the operations but for those undone at once; they are legal too (`replay_visible`).
* `reports_of_replay` — without giving back, the reports count down from the initial stock.
-/

namespace RedisApi.Product

/-- `if stock > 0 then decrement and report the new stock, else report out of stock` -/
def takeOne (stock : ℤ) : ℤ × Option ℤ :=
  if 0 < stock then (stock - 1, some (stock - 1)) else (stock, none)

/-- An operation of request `r`, with the stock it was told, if any. -/
inductive Op
  | take (r : ℕ) (report : Option ℤ)
  | giveBack (r : ℕ)
  deriving DecidableEq, Repr

namespace Op

def request : Op → ℕ
  | .take r _ | .giveBack r => r

/-- A unit has changed hands. -/
def isTaken : Op → Bool
  | .take _ report => report.isSome
  | .giveBack _ => false

def isGivenBack : Op → Bool
  | .giveBack _ => true
  | .take _ _ => false

/-- The next stock, if the operation is reported as the inventory would have done. -/
def apply (stock : ℤ) : Op → Option ℤ
  | .take _ report => if (takeOne stock).2 = report then some (takeOne stock).1 else none
  | .giveBack _ => some (stock + 1)

end Op

/-- The stock after a legal list of operations. -/
def replay : ℤ → List Op → Option ℤ
  | stock, [] => some stock
  | stock, op :: ops =>
      match op.apply stock with
      | none => none
      | some stock' => replay stock' ops

lemma replay_cons {stock final : ℤ} {op : Op} {ops : List Op} :
    replay stock (op :: ops) = some final ↔
      ∃ stock', op.apply stock = some stock' ∧ replay stock' ops = some final := by
  rw [replay]
  cases op.apply stock with
  | none => simp
  | some stock' => simp

lemma replay_append {stock final : ℤ} {ops ops' : List Op} :
    replay stock (ops ++ ops') = some final ↔
      ∃ stock', replay stock ops = some stock' ∧ replay stock' ops' = some final := by
  induction ops generalizing stock with
  | nil => simp [replay]
  | cons op ops ih =>
      rw [List.cons_append, replay_cons]
      constructor
      · rintro ⟨s₁, h₁, h⟩
        obtain ⟨s₂, h₂, h₃⟩ := ih.mp h
        exact ⟨s₂, replay_cons.mpr ⟨s₁, h₁, h₂⟩, h₃⟩
      · rintro ⟨s₂, h, h₃⟩
        obtain ⟨s₁, h₁, h₂⟩ := replay_cons.mp h
        exact ⟨s₁, h₁, ih.mpr ⟨s₂, h₂, h₃⟩⟩

/-! ## One operation -/

lemma takeOne_of_pos {stock : ℤ} (h : 0 < stock) :
    takeOne stock = (stock - 1, some (stock - 1)) := if_pos h

lemma takeOne_of_nonpos {stock : ℤ} (h : stock ≤ 0) : takeOne stock = (stock, none) :=
  if_neg (not_lt.mpr h)

lemma apply_take_some {stock stock' n : ℤ} {r : ℕ} :
    (Op.take r (some n)).apply stock = some stock' ↔ 0 < stock ∧ n = stock - 1 ∧ stock' = n := by
  rcases lt_or_ge 0 stock with h | h
  · rw [Op.apply, takeOne_of_pos h]
    by_cases hn : n = stock - 1
    · rw [if_pos (by rw [hn]), Option.some.injEq]
      dsimp only
      omega
    · rw [if_neg (by simpa using Ne.symm hn)]
      simp only [reduceCtorEq, false_iff]
      omega
  · rw [Op.apply, takeOne_of_nonpos h]
    dsimp only
    rw [if_neg (by simp)]
    simp only [reduceCtorEq, false_iff]
    omega

lemma apply_take_none {stock stock' : ℤ} {r : ℕ} :
    (Op.take r none).apply stock = some stock' ↔ stock ≤ 0 ∧ stock' = stock := by
  rcases lt_or_ge 0 stock with h | h
  · rw [Op.apply, takeOne_of_pos h]
    dsimp only
    rw [if_neg (by simp)]
    simp only [reduceCtorEq, false_iff]
    omega
  · rw [Op.apply, takeOne_of_nonpos h]
    dsimp only
    rw [if_pos rfl, Option.some.injEq]
    omega

lemma apply_giveBack {stock stock' : ℤ} {r : ℕ} :
    (Op.giveBack r).apply stock = some stock' ↔ stock' = stock + 1 := by
  rw [Op.apply, Option.some.injEq, eq_comm]

/-! ## Legal lists -/

/-- Every unit is in stock, or taken and not given back. -/
theorem replay_balance {stock final : ℤ} {ops : List Op} (h : replay stock ops = some final) :
    final + ops.countP Op.isTaken = stock + ops.countP Op.isGivenBack := by
  induction ops generalizing stock with
  | nil =>
      rw [replay, Option.some.injEq] at h
      simp [h]
  | cons op ops ih =>
      obtain ⟨stock', happ, hrest⟩ := replay_cons.mp h
      have hbal := ih hrest
      rw [List.countP_cons, List.countP_cons]
      cases op with
      | take r report =>
          cases report with
          | none =>
              have := apply_take_none.mp happ
              simp only [Op.isTaken, Op.isGivenBack, Option.isSome_none, Bool.false_eq_true,
                if_false]
              omega
          | some n =>
              have := apply_take_some.mp happ
              simp only [Op.isTaken, Op.isGivenBack, Option.isSome_some, if_true,
                Bool.false_eq_true, if_false]
              omega
      | giveBack r =>
          have := apply_giveBack.mp happ
          simp only [Op.isTaken, Op.isGivenBack, if_true, Bool.false_eq_true, if_false]
          omega

/-- From a stock that is not negative none is reached. -/
theorem replay_nonneg {stock final : ℤ} {ops : List Op} (hstock : 0 ≤ stock)
    (h : replay stock ops = some final) : 0 ≤ final := by
  induction ops generalizing stock with
  | nil =>
      rw [replay, Option.some.injEq] at h
      exact h ▸ hstock
  | cons op ops ih =>
      obtain ⟨stock', happ, hrest⟩ := replay_cons.mp h
      refine ih ?_ hrest
      cases op with
      | take r report =>
          cases report with
          | none => exact (apply_take_none.mp happ).2 ▸ hstock
          | some n =>
              have := apply_take_some.mp happ
              omega
      | giveBack r =>
          have := apply_giveBack.mp happ
          omega

/-- **A stock is reported again only after a unit has been given back.** -/
theorem giveBack_between {stock final n : ℤ} {ops : List Op} {r r' : ℕ}
    (hlegal : replay stock ops = some final)
    (hpair : [Op.take r (some n), .take r' (some n)].Sublist ops) :
    ∃ r'', [Op.take r (some n), .giveBack r'', .take r' (some n)].Sublist ops := by
  obtain ⟨h₁, h₂, rfl, hfirst, hsecond⟩ := List.cons_sublist_iff.mp hpair
  obtain ⟨l₁, l₂, rfl⟩ := List.append_of_mem hfirst
  obtain ⟨l₃, l₄, rfl⟩ := List.append_of_mem (List.singleton_sublist.mp hsecond)
  -- `l₂ ++ l₃` is what lies between the two reports
  obtain ⟨s₁, -, hrest⟩ := replay_append.mp
    (by simpa only [List.append_assoc, List.cons_append] using hlegal)
  obtain ⟨s₂, htake, hrest⟩ := replay_cons.mp hrest
  obtain ⟨s₃, hbetween, hrest⟩ := replay_append.mp
    (show replay s₂ ((l₂ ++ l₃) ++ .take r' (some n) :: l₄) = some final by
      simpa only [List.append_assoc] using hrest)
  obtain ⟨s₄, htake', -⟩ := replay_cons.mp hrest
  have hbal := replay_balance hbetween
  have hpos : 0 < (l₂ ++ l₃).countP Op.isGivenBack := by
    have h₁ := apply_take_some.mp htake
    have h₂ := apply_take_some.mp htake'
    omega
  obtain ⟨op, hop, hgb⟩ := List.countP_pos_iff.mp hpos
  obtain ⟨r'', rfl⟩ : ∃ r'', op = .giveBack r'' := by
    cases op with
    | take r report => exact absurd hgb (by simp [Op.isGivenBack])
    | giveBack r'' => exact ⟨r'', rfl⟩
  refine ⟨r'', ?_⟩
  have hmid : [Op.giveBack r''].Sublist (l₂ ++ l₃) := List.singleton_sublist.mpr hop
  have hlast : [Op.take r' (some n)].Sublist (.take r' (some n) :: l₄) :=
    List.singleton_sublist.mpr List.mem_cons_self
  have hall := ((hmid.append hlast).cons_cons (Op.take r (some n))).trans
    (List.sublist_append_right l₁ _)
  simpa only [List.append_assoc, List.cons_append, List.nil_append] using hall

/-- **Nothing is left only when every unit is out.** -/
theorem balance_of_refused {stock final : ℤ} {ops ops' : List Op} {r : ℕ} (hstock : 0 ≤ stock)
    (hlegal : replay stock (ops ++ .take r none :: ops') = some final) :
    (ops.countP Op.isTaken : ℤ) = stock + ops.countP Op.isGivenBack := by
  obtain ⟨s₁, hbefore, hrest⟩ := replay_append.mp hlegal
  obtain ⟨s₂, htake, -⟩ := replay_cons.mp hrest
  have hbal := replay_balance hbefore
  have hnonneg := replay_nonneg hstock hbefore
  have hempty := (apply_take_none.mp htake).1
  omega

/-! ## Units given back at once -/

/-- `op'` gives back the unit that `op` has taken. -/
def Op.undoneBy : Op → Op → Bool
  | .take r (some _), .giveBack r' => r = r'
  | _, _ => false

lemma Op.undoneBy_iff {op op' : Op} :
    op.undoneBy op' = true ↔ ∃ r n, op = .take r (some n) ∧ op' = .giveBack r := by
  constructor
  · intro h
    match op, op', h with
    | .take r (some n), .giveBack r', h => exact ⟨r, n, rfl, by simpa [undoneBy, eq_comm] using h⟩
  · rintro ⟨r, n, rfl, rfl⟩
    simp [undoneBy]

/-- The operations without those that are undone before anything else happens. -/
def visible : List Op → List Op
  | [] => []
  | [op] => [op]
  | op :: op' :: ops => if op.undoneBy op' then visible ops else op :: visible (op' :: ops)

/-- Every unit that is given back is so at once. -/
def Isolated (ops : List Op) : Prop := ∀ r, .giveBack r ∉ visible ops

lemma isolated_iff {ops : List Op} :
    Isolated ops ↔ ∀ op ∈ visible ops, op.isGivenBack = false := by
  constructor
  · intro h op hop
    cases op with
    | take r report => rfl
    | giveBack r => exact absurd hop (h r)
  · exact fun h r hr => absurd (h _ hr) (by simp [Op.isGivenBack])

instance (ops : List Op) : Decidable (Isolated ops) := decidable_of_iff _ isolated_iff.symm

lemma visible_sublist (ops : List Op) : (visible ops).Sublist ops := by
  fun_induction visible ops with
  | case1 => exact List.Sublist.refl []
  | case2 op => exact List.Sublist.refl [op]
  | case3 op op' ops _ ih => exact (ih.cons op').cons op
  | case4 op op' ops _ ih => exact ih.cons_cons op

/-- **What is undone at once is not seen.** -/
theorem replay_visible {ops : List Op} {stock final : ℤ} (h : replay stock ops = some final) :
    replay stock (visible ops) = some final := by
  fun_induction visible ops generalizing stock with
  | case1 => exact h
  | case2 op => exact h
  | case3 op op' ops hundone ih =>
      obtain ⟨r, n, rfl, rfl⟩ := Op.undoneBy_iff.mp hundone
      obtain ⟨s₁, htake, h⟩ := replay_cons.mp h
      obtain ⟨s₂, hgive, h⟩ := replay_cons.mp h
      have h₁ := apply_take_some.mp htake
      have h₂ := apply_giveBack.mp hgive
      have hstock : s₂ = stock := by omega
      exact ih (hstock ▸ h)
  | case4 op op' ops _ ih =>
      obtain ⟨s₁, happ, h⟩ := replay_cons.mp h
      exact replay_cons.mpr ⟨s₁, happ, ih h⟩

/-- What is not seen has been given back. -/
lemma mem_visible_or {ops : List Op} {op : Op} (h : op ∈ ops) :
    op ∈ visible ops ∨ .giveBack op.request ∈ ops := by
  fun_induction visible ops with
  | case1 => exact Or.inl h
  | case2 _ => exact Or.inl h
  | case3 a b ops hundone ih =>
      obtain ⟨r, n, rfl, rfl⟩ := Op.undoneBy_iff.mp hundone
      simp only [List.mem_cons] at h ⊢
      rcases h with rfl | rfl | h
      · exact Or.inr (Or.inr (Or.inl rfl))
      · exact Or.inr (Or.inr (Or.inl rfl))
      · exact (ih h).imp_right fun hgive => Or.inr (Or.inr hgive)
  | case4 a b ops _ ih =>
      rcases List.mem_cons.mp h with rfl | h
      · exact Or.inl List.mem_cons_self
      · exact (ih h).imp (List.mem_cons_of_mem a) (List.mem_cons_of_mem a)

/-- What has been given back at once is not seen. -/
lemma exists_take_of_giveBack {ops : List Op} {r : ℕ} (hnodup : ops.Nodup)
    (h : .giveBack r ∈ ops) : .giveBack r ∈ visible ops ∨
      ∃ n, .take r (some n) ∈ ops ∧ .take r (some n) ∉ visible ops := by
  fun_induction visible ops with
  | case1 => exact Or.inl h
  | case2 _ => exact Or.inl h
  | case3 a b ops hundone ih =>
      obtain ⟨r', n, rfl, rfl⟩ := Op.undoneBy_iff.mp hundone
      have hrest := List.nodup_cons.mp hnodup
      rcases List.mem_cons.mp h with h | h
      · exact absurd h (by simp)
      rcases List.mem_cons.mp h with h | h
      · rw [Op.giveBack.inj h]
        refine Or.inr ⟨n, List.mem_cons_self, fun hc => hrest.1 ?_⟩
        exact List.mem_cons_of_mem _ ((visible_sublist ops).subset hc)
      · refine (ih (List.nodup_cons.mp hrest.2).2 h).imp_right ?_
        rintro ⟨n', hmem, hnot⟩
        exact ⟨n', List.mem_cons_of_mem _ (List.mem_cons_of_mem _ hmem), hnot⟩
  | case4 a b ops _ ih =>
      have hrest := List.nodup_cons.mp hnodup
      rcases List.mem_cons.mp h with rfl | h
      · exact Or.inl List.mem_cons_self
      · refine (ih hrest.2 h).imp (List.mem_cons_of_mem a) ?_
        rintro ⟨n, hmem, hnot⟩
        refine ⟨n, List.mem_cons_of_mem a hmem, fun hc => ?_⟩
        rcases List.mem_cons.mp hc with rfl | hc
        · exact hrest.1 hmem
        · exact hnot hc

/-! ## Without giving back -/

/-- What `n` requests are told one after the other. -/
def reports : ℤ → ℕ → List (Option ℤ)
  | _, 0 => []
  | stock, n + 1 => (takeOne stock).2 :: reports (takeOne stock).1 n

/-- **Reports count down** when nobody gives back. -/
theorem reports_of_replay {stock final : ℤ} {report : ℕ → Option ℤ} {ops : List Op}
    (h : replay stock ops = some final)
    (hops : ∀ op ∈ ops, op = .take op.request (report op.request)) :
    (ops.map Op.request).map report = reports stock ops.length := by
  induction ops generalizing stock with
  | nil => rfl
  | cons op ops ih =>
      obtain ⟨stock', happ, hrest⟩ := replay_cons.mp h
      rw [List.forall_mem_cons] at hops
      have htake : (takeOne stock).2 = report op.request ∧ (takeOne stock).1 = stock' := by
        rw [hops.1, Op.apply] at happ
        split_ifs at happ with hrep
        exact ⟨hrep, Option.some.inj happ⟩
      rw [List.map_cons, List.map_cons, List.length_cons, reports, htake.1, htake.2,
        ih hrest hops.2]

end RedisApi.Product
