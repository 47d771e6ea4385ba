import Mathlib.Data.List.Induction
import Mathlib.Data.List.Nodup
import Mathlib.Tactic.Common

/-!
# Lists of processes and histories

A component that serves many requests at once keeps one control state per request.  They live in
a list, a request is named by its position, a new request is appended and a step of request `i`
replaces the entry at `i`.  Invariants of such components *count* requests by the phase they are
in, so what is needed is how a count moves when one entry is replaced.

A history is the list of outputs emitted so far; that `a` was emitted before `b` is
`[a, b].Sublist h`.
-/

namespace Core

variable {α β : Type*}

/-! ## Adding entries -/

/-- What stands at an index stays there when more is added behind. -/
theorem getElem?_append_of_some {l : List α} {i : ℕ} {x : α} (h : l[i]? = some x) (l' : List α) :
    (l ++ l')[i]? = some x :=
  (List.getElem?_append_left (List.getElem?_eq_some_iff.mp h).1).trans h

theorem getElem?_of_prefix {l l' : List α} {i : ℕ} {x : α} (hl : l <+: l') (h : l[i]? = some x) :
    l'[i]? = some x := by
  rcases hl with ⟨more, rfl⟩
  exact getElem?_append_of_some h more

/-! ## Replacing one entry -/

/-- **How a count moves when one process takes a step.**  Stated without subtraction. -/
theorem countP_set_add {p : α → Bool} {l : List α} {i : ℕ} {x : α} (h : l[i]? = some x) (y : α) :
    (l.set i y).countP p + (if p x then 1 else 0) = l.countP p + (if p y then 1 else 0) := by
  obtain ⟨hi, hx⟩ := List.getElem?_eq_some_iff.mp h
  rw [List.countP_set hi, hx]
  have hle : (if p x then 1 else 0) ≤ l.countP p := by
    split_ifs with hp
    · exact List.countP_pos_iff.mpr ⟨x, List.mem_of_getElem? h, hp⟩
    · exact Nat.zero_le _
  omega

/-- Looking up the updated list: the new entry at `i`, the old ones elsewhere. -/
theorem getElem?_set_of_some {l : List α} {i j : ℕ} {x : α} (h : l[i]? = some x) (y : α) :
    (l.set i y)[j]? = if i = j then some y else l[j]? := by
  have hi := (List.getElem?_eq_some_iff.mp h).1
  rw [List.getElem?_set]
  simp [hi]

/-- What holds of every process keeps holding when one is replaced by one of which it holds. -/
theorem forall_mem_set {P : α → Prop} {l : List α} {i : ℕ} {x : α} (hl : ∀ y ∈ l, P y)
    (hx : P x) : ∀ y ∈ l.set i x, P y := by
  intro y hy
  rcases List.mem_or_eq_of_mem_set hy with hy | rfl
  · exact hl y hy
  · exact hx

/-- A step that leaves what `f` reads of a process alone leaves what it reads of all. -/
theorem map_set_of_eq {f : α → β} {l : List α} {i : ℕ} {x y : α} (h : l[i]? = some x)
    (hf : f y = f x) : (l.set i y).map f = l.map f := by
  refine List.ext_getElem? fun j => ?_
  rw [List.getElem?_map, List.getElem?_map, getElem?_set_of_some h]
  split_ifs with hij
  · rw [← hij, h, Option.map_some, Option.map_some, hf]
  · rfl

/-- Different processes of which `p` holds are no more than the count says. -/
theorem length_le_countP_of_nodup {p : α → Bool} {l : List α} {is : List ℕ} (hnodup : is.Nodup)
    (his : ∀ i ∈ is, ∃ x, l[i]? = some x ∧ p x = true) : is.length ≤ l.countP p := by
  induction l using List.reverseRecOn generalizing is with
  | nil =>
      have hnil : is = [] := List.eq_nil_iff_forall_not_mem.mpr fun i hi => by
        obtain ⟨x, hx, -⟩ := his i hi
        exact absurd hx (by simp)
      rw [hnil]
      exact Nat.zero_le _
  | append_singleton l x ih =>
      have hrest : (is.erase l.length).length ≤ l.countP p := ih (hnodup.erase _) fun i hi => by
        obtain ⟨hne, hi⟩ := hnodup.mem_erase_iff.mp hi
        obtain ⟨y, hy, hpy⟩ := his i hi
        have hlt := (List.getElem?_eq_some_iff.mp hy).1
        rw [List.length_append, List.length_singleton] at hlt
        exact ⟨y, by rwa [List.getElem?_append_left (by omega)] at hy, hpy⟩
      rw [List.countP_append, List.countP_singleton]
      by_cases hlast : l.length ∈ is
      · obtain ⟨y, hy, hpy⟩ := his _ hlast
        rw [List.getElem?_concat_length, Option.some.injEq] at hy
        have hlength := List.length_erase_of_mem hlast
        rw [if_pos (hy ▸ hpy)]
        omega
      · rw [List.erase_of_not_mem hlast] at hrest
        omega

/-! ## Attributing entries -/

/-- Entries that are each related to something, and nothing to two of them: each is attributed to
something of its own. -/
theorem exists_attribution [Inhabited β] {R : β → α → Prop} {l : List α}
    (hR : ∀ x ∈ l, ∃ b, R b x) (hunique : ∀ x ∈ l, ∀ y ∈ l, ∀ b, R b x → R b y → x = y) :
    ∃ f : α → β, (∀ x ∈ l, R (f x) x) ∧ ∀ x ∈ l, ∀ y ∈ l, f x = f y → x = y := by
  have hall : ∀ x, ∃ b, x ∈ l → R b x := by
    intro x
    by_cases hx : x ∈ l
    · rcases hR x hx with ⟨b, hb⟩
      exact ⟨b, fun _ => hb⟩
    · exact ⟨default, fun hc => absurd hc hx⟩
  choose f hf using hall
  refine ⟨f, hf, ?_⟩
  intro x hx y hy hxy
  exact hunique x hx y hy (f x) (hf x hx) (hxy ▸ hf y hy)

/-! ## What holds of every process -/

/-- `P` holds of every process, by its number. -/
def Each (l : List α) (P : ℕ → α → Prop) : Prop := ∀ i x, l[i]? = some x → P i x

theorem each_nil (P : ℕ → α → Prop) : Each [] P := fun _ _ hx => absurd hx (by simp)

theorem Each.mono {l : List α} {P P' : ℕ → α → Prop} (hl : Each l P) (hP : ∀ i x, P i x → P' i x) :
    Each l P' :=
  fun i x hx => hP i x (hl i x hx)

/-- A process is added behind the others. -/
theorem Each.concat {l : List α} {P : ℕ → α → Prop} (hl : Each l P) {x : α} (hx : P l.length x) :
    Each (l ++ [x]) P := by
  intro i y hy
  rcases Nat.lt_trichotomy i l.length with hi | rfl | hi
  · rw [List.getElem?_append_left hi] at hy
    exact hl i y hy
  · rw [List.getElem?_concat_length, Option.some.injEq] at hy
    exact hy ▸ hx
  · rw [List.getElem?_eq_none (by rw [List.length_append]; exact hi)] at hy
    exact absurd hy (by simp)

/-- One process takes a step; what holds of the others may change with it. -/
theorem Each.set {l : List α} {P P' : ℕ → α → Prop} (hl : Each l P) {i : ℕ} {x y : α}
    (hx : l[i]? = some x) (hy : P' i y) (hother : ∀ j z, i ≠ j → P j z → P' j z) :
    Each (l.set i y) P' := by
  intro j z hz
  rw [getElem?_set_of_some hx] at hz
  split_ifs at hz with hij
  · rw [Option.some.injEq] at hz
    exact hz ▸ hij ▸ hy
  · exact hother j z hij (hl j z hz)

/-! ## Order in a history -/

/-- A member of the earlier part precedes a member of the later part. -/
theorem pair_sublist_append {h₁ h₂ : List α} {a b : α} (ha : a ∈ h₁) (hb : b ∈ h₂) :
    [a, b].Sublist (h₁ ++ h₂) :=
  (List.singleton_sublist.mpr ha).append (List.singleton_sublist.mpr hb)

/-- When `a` precedes `b` in a history that has just grown, it did so before, or `b` is new and `a`
is not, or both are new. -/
theorem pair_sublist_append_cases {h₁ h₂ : List α} {a b : α} (h : [a, b].Sublist (h₁ ++ h₂)) :
    [a, b].Sublist h₁ ∨ (a ∈ h₁ ∧ b ∈ h₂) ∨ [a, b].Sublist h₂ := by
  obtain ⟨l₁, l₂, heq, hl₁, hl₂⟩ := List.sublist_append_iff.mp h
  match l₁, heq with
  | [], heq => exact Or.inr (Or.inr (by rwa [← List.nil_append l₂, ← heq] at hl₂))
  | [x], heq =>
      obtain ⟨rfl, rfl⟩ := List.cons.inj heq
      exact Or.inr (Or.inl ⟨hl₁.subset (by simp), hl₂.subset (by simp)⟩)
  | x :: y :: l, heq =>
      obtain ⟨rfl, hrest⟩ := List.cons.inj heq
      obtain ⟨rfl, hnil⟩ := List.cons.inj hrest
      obtain ⟨rfl, -⟩ := List.append_eq_nil_iff.mp hnil.symm
      exact Or.inl hl₁

/-- Where one output is before another, the history splits between them. -/
theorem pair_sublist_iff {h : List α} {a b : α} :
    [a, b].Sublist h ↔ ∃ h₁ h₂, h = h₁ ++ h₂ ∧ a ∈ h₁ ∧ b ∈ h₂ := by
  rw [List.cons_sublist_iff]
  simp only [List.singleton_sublist]

/-- **Real time.**  Of two processes, the first has ended (`e`) before the second started (`s`);
the first does nothing after its end, the second nothing before its start.  Then what the first has
done precedes what the second has done. -/
theorem pair_sublist_of_ended_started {h : List α} {e s x y : α} (hes : [e, s].Sublist h)
    (hx : x ∈ h) (hy : y ∈ h) (hex : ¬ [e, x].Sublist h) (hys : ¬ [y, s].Sublist h) :
    [x, y].Sublist h := by
  obtain ⟨h₁, h₂, rfl, he, hs⟩ := pair_sublist_iff.mp hes
  refine pair_sublist_append ?_ ?_
  · exact (List.mem_append.mp hx).resolve_right fun hx₂ => hex (pair_sublist_append he hx₂)
  · exact (List.mem_append.mp hy).resolve_left fun hy₁ => hys (pair_sublist_append hy₁ hs)

/-- Of two different members one precedes the other. -/
theorem pair_sublist_total {h : List α} {a b : α} (hab : a ≠ b) (ha : a ∈ h) (hb : b ∈ h) :
    [a, b].Sublist h ∨ [b, a].Sublist h := by
  obtain ⟨h₁, h₂, rfl⟩ := List.append_of_mem ha
  rcases List.mem_append.mp hb with hb | hb
  · exact Or.inr (pair_sublist_append hb List.mem_cons_self)
  · have hb₂ := (List.mem_cons.mp hb).resolve_left (Ne.symm hab)
    left
    rw [List.append_cons]
    exact pair_sublist_append (List.mem_append_right _ (List.mem_singleton_self a)) hb₂

/-- Without repetitions, an order that the whole history has is the order in a part of it. -/
theorem pair_sublist_of_sublist {h l : List α} {a b : α} (hnodup : h.Nodup) (hl : l.Sublist h)
    (ha : a ∈ l) (hb : b ∈ l) (hab : [a, b].Sublist h) : [a, b].Sublist l := by
  obtain ⟨h₁, h₂, rfl, ha₁, hb₂⟩ := pair_sublist_iff.mp hab
  have hdisj := (List.nodup_append'.mp hnodup).2.2
  have hne : a ≠ b := fun hc => hdisj ha₁ (hc ▸ hb₂)
  refine (pair_sublist_total hne ha hb).resolve_right fun hba => ?_
  rcases pair_sublist_append_cases (hba.trans hl) with hba | ⟨hb₁, -⟩ | hba
  · exact hdisj (hba.subset (by simp)) hb₂
  · exact hdisj hb₁ hb₂
  · exact hdisj ha₁ (hba.subset (by simp))

/-- What precedes something is not the last. -/
theorem mem_dropLast_of_pair_sublist {h : List α} {a b : α} (hab : [a, b].Sublist h) :
    a ∈ h.dropLast := by
  obtain ⟨h₁, h₂, rfl, ha, hb⟩ := pair_sublist_iff.mp hab
  rw [List.dropLast_append_of_ne_nil (List.ne_nil_of_mem hb)]
  exact List.mem_append_left _ ha

/-- The order of two outputs survives a projection that keeps both. -/
theorem pair_sublist_filterMap {h : List α} {f : α → Option β} {a b : α} {x y : β}
    (hab : [a, b].Sublist h) (ha : f a = some x) (hb : f b = some y) :
    [x, y].Sublist (h.filterMap f) := by
  have := hab.filterMap f
  simpa [ha, hb] using this

end Core
