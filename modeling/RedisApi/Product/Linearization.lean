import RedisApi.Product.Inventory
import RedisApi.Product.Sequential

/-!
# Linearization of `useItem`

Each request touches the counter at one point, where the script runs for it, and a request whose
emit fails at one more, where it gives its unit back.  Between the two its unit is gone for
everybody else: the lock is released before the emit, on purpose, and the compensation is not
isolated.  So the order in which the commands reach Redis is a sequential history, but of two kinds
of operation, and a request that answers 503 is not invisible in it, unless it has given its unit
back before anybody else's script ran.

* `linearization` — the operations, in the order in which Redis executed them.
* `LinearizedByOps` — it is legal, respects real time, and says what every request was told.
* `Linearizable` — one operation for each request that did not end in 503, and no others.  That is
  so when every unit that is given back is so at once, as when no emit fails (`linearized_by_ops`),
  and not in general (`refused_by_failing`).
-/

namespace RedisApi.Product

open Core

/-- Redis takes every command, nobody resets the inventory, and the broker stores no event whose
emit fails. -/
def emitsMayFail (_ : State) : Action → Bool
  | .reject _ | .resetInventory => false
  | .rejectEmit _ stored => !stored
  | _ => true

lemma faultless_of_emitsMayFail (s : State) (a : Action) (h : emitsMayFail s a = true) :
    faultless s a = true := by
  cases a <;> first | rfl | exact h

/-! ## The operations of a run -/

/-- What `checkAndDecrement` returned, as a report: `-1` stands for none. -/
def reportOf (n : ℤ) : Option ℤ := if 0 ≤ n then some n else none

/-- The operation on the inventory that an output records. -/
def Output.op : Output → Option Op
  | .checked r n => some (.take r (reportOf n))
  | .incremented r => some (.giveBack r)
  | _ => none

/-- The operations in the order in which Redis executed them. -/
def linearization (h : List Output) : List Op := h.filterMap Output.op

lemma linearization_append (h out : List Output) :
    linearization (h ++ out) = linearization h ++ linearization out := List.filterMap_append

lemma Output.request_of_op {o : Output} {op : Op} (h : o.op = some op) :
    o.request = some op.request := by
  cases o with
  | checked r n =>
      rw [Output.op, Option.some.injEq] at h
      exact h ▸ rfl
  | incremented r =>
      rw [Output.op, Option.some.injEq] at h
      exact h ▸ rfl
  | _ => exact absurd h (by simp [Output.op])

/-! ## Statement -/

/-- Request `a` has ended before request `b` arrived. -/
def FinishedBefore (h : List Output) (a b : ℕ) : Prop :=
  ∃ o, [.ended a o, .started b].Sublist h

/-- The request has done nothing to the inventory. -/
def NoOp (h : List Output) (r : ℕ) : Prop := ∀ op ∈ linearization h, op.request ≠ r

/-- The request has run the script, and given nothing back. -/
def Took (h : List Output) (r : ℕ) (report : Option ℤ) : Prop :=
  .take r report ∈ linearization h ∧ .giveBack r ∉ linearization h

/-- The outcome of a request, and its operations. -/
def Settled (h : List Output) (r : ℕ) (o : Outcome) : Prop :=
  (o = .lockContention ∧ NoOp h r) ∨
  (∃ n, 0 ≤ n ∧ o = .itemUsed n ∧ Took h r (some n)) ∨
  (o = .outOfStock ∧ Took h r none) ∨
  (o = .deliveryFailed ∧ ∃ n, [Op.take r (some n), .giveBack r].Sublist (linearization h))

def Outcome.isUnavailable : Outcome → Bool
  | .httpException status _ => status = 503
  | _ => false

/-- The stock that an answer reports, if it reports success. -/
def Phase.report : Phase → Option ℤ
  | .ended (.answer a) => if a.success then some a.remaining else none
  | _ => none

/-- What request `r` was told. -/
def State.report (s : State) (r : ℕ) : Option ℤ := s.requests[r]?.bind fun q => q.phase.report

/-- **Every event is of a request of its own**, and reports what that request was told. -/
def State.TopicReports (s : State) : Prop :=
  ∃ rs : List ℕ, rs.Nodup ∧ s.topic.map (fun event => some event.remaining) = rs.map s.report

/-- An order of the requests that did not end in 503, consistent with real time, in which the
sequential inventory tells each what it was told. -/
structure SequentialOrder (S : ℤ) (h : List Output) (s : State) (order : List ℕ) : Prop where
  nodup : order.Nodup
  mem : ∀ r, r ∈ order ↔
    ∃ q o, s.requests[r]? = some q ∧ q.phase = .ended o ∧ o.isUnavailable = false
  real_time : ∀ a b, a ∈ order → b ∈ order → FinishedBefore h a b → [a, b].Sublist order
  told : order.map s.report = reports S order.length

/-- The requests that ended in 503 cannot be seen. -/
structure Linearizable (S : ℤ) (h : List Output) (s : State) : Prop where
  order : ∃ order, SequentialOrder S h s order
  distinct : ∀ (r r' : ℕ) (n : ℤ), s.report r = some n → s.report r' = some n → r = r'
  events : (s.topic.map fun event => event.remaining).Nodup
  sold_out : ∀ q ∈ s.requests, q.phase = .ended .outOfStock → (s.succeeded : ℤ) = S

/-- The operations in the order of Redis form a legal sequential history, consistent with real
time, with one `take` for each request that ran the script and one `giveBack` behind it for each
whose emit failed, and with the reports that the requests were given. -/
structure LinearizedByOps (S : ℤ) (h : List Output) (s : State) : Prop where
  legal : replay S (linearization h) = some s.redis.stock
  nodup : (linearization h).Nodup
  one_take : ∀ r report report', .take r report ∈ linearization h →
    .take r report' ∈ linearization h → report = report'
  settled : ∀ r q o, s.requests[r]? = some q → q.phase = .ended o → Settled h r o
  real_time : ∀ x ∈ linearization h, ∀ y ∈ linearization h,
    FinishedBefore h x.request y.request → [x, y].Sublist (linearization h)
  repeated : ∀ r r' n, [Op.take r (some n), .take r' (some n)].Sublist (linearization h) →
    ∃ r'', [Op.take r (some n), .giveBack r'', .take r' (some n)].Sublist (linearization h)
  refused : ∀ ops ops' r, linearization h = ops ++ .take r none :: ops' →
    (ops.countP Op.isTaken : ℤ) = S + ops.countP Op.isGivenBack
  topic : s.TopicReports
  isolated : Isolated (linearization h) → s.allEnded → Linearizable S h s
  never_failing : NoEmitFailed h → Isolated (linearization h)

/-! ## The invariant -/

/-- What is on record of a request in a phase. -/
def Phase.Recorded (h : List Output) (r : ℕ) : Phase → Prop
  | .acquiring _ | .backoff _ _ | .checking _ => NoOp h r
  | .releasing _ none => False
  | .releasing _ (some n) => Took h r (reportOf n)
  | .emitting n => 0 ≤ n ∧ Took h r (some n)
  | .rollingBack n => Took h r (some n) ∧ ∃ stored, .emitFailed r stored ∈ h
  | .ended o => Settled h r o

section recorded

variable {h out : List Output} {r : ℕ}

lemma NoOp.append (hn : NoOp h r) (hout : ∀ op ∈ linearization out, op.request ≠ r) :
    NoOp (h ++ out) r := by
  intro op hop
  rw [linearization_append] at hop
  rcases List.mem_append.mp hop with hop | hop
  · exact hn op hop
  · exact hout op hop

lemma Took.append {report : Option ℤ} (ht : Took h r report)
    (hout : ∀ op ∈ linearization out, op.request ≠ r) : Took (h ++ out) r report := by
  rw [Took, linearization_append]
  refine ⟨List.mem_append_left _ ht.1, fun hc => ?_⟩
  rcases List.mem_append.mp hc with hc | hc
  · exact ht.2 hc
  · exact hout _ hc rfl

lemma Settled.append {o : Outcome} (hs : Settled h r o)
    (hout : ∀ op ∈ linearization out, op.request ≠ r) : Settled (h ++ out) r o := by
  rcases hs with ⟨ho, hn⟩ | ⟨n, hnn, ho, ht⟩ | ⟨ho, ht⟩ | ⟨ho, n, hsub⟩
  · exact Or.inl ⟨ho, hn.append hout⟩
  · exact Or.inr (Or.inl ⟨n, hnn, ho, ht.append hout⟩)
  · exact Or.inr (Or.inr (Or.inl ⟨ho, ht.append hout⟩))
  · refine Or.inr (Or.inr (Or.inr ⟨ho, n, hsub.trans ?_⟩))
    rw [linearization_append]
    exact List.sublist_append_left _ _

/-- Operations of others are not on a request's record. -/
lemma Phase.Recorded.append {p : Phase} (hp : p.Recorded h r)
    (hout : ∀ op ∈ linearization out, op.request ≠ r) : p.Recorded (h ++ out) r := by
  cases p with
  | releasing token remaining =>
      cases remaining with
      | none => exact hp
      | some n => exact Took.append hp hout
  | emitting n => exact ⟨hp.1, hp.2.append hout⟩
  | rollingBack n =>
      obtain ⟨ht, stored, hmem⟩ := hp
      exact ⟨ht.append hout, stored, List.mem_append_left _ hmem⟩
  | ended o => exact Settled.append hp hout
  | _ => exact NoOp.append hp hout

lemma Phase.Recorded.append_of_nil {p : Phase} (hp : p.Recorded h r)
    (hout : linearization out = []) : p.Recorded (h ++ out) r :=
  hp.append (by simp [hout])

end recorded

/-- Nothing is on record of the request that arrives next. -/
lemma Known.noOp {h : List Output} {s : State} (hk : Known h s) : NoOp h s.requests.length := by
  intro op hop hr
  obtain ⟨o, ho, hoop⟩ := List.mem_filterMap.mp hop
  exact hk.fresh o ho (hr ▸ Output.request_of_op hoop)

/-- What a transition does to the inventory: nothing, a `take`, or a `giveBack`. -/
lemma Transition.op_cases {s : State} {redis redis' : Redis} {r : ℕ} {q : Request} {a : Action}
    {before after : Phase} {out : List Output}
    (ht : Transition redis r q a before (redis', after, out)) (hg : faultless s a = true) :
    (linearization out = [] ∧ redis'.inventory = redis.inventory) ∨
    (∃ token n, before = .checking token ∧ after = .releasing token (some n) ∧
      out = [.checked r n] ∧ (Op.take r (reportOf n)).apply redis.stock = some redis'.stock ∧
      redis'.inventory.isSome) ∨
    (∃ n, before = .rollingBack n ∧ after = .ended .deliveryFailed ∧
      out = [.incremented r, .ended r .deliveryFailed] ∧ redis' = redis.increment) := by
  cases ht with
  | @refused token empty =>
      exact Or.inr (Or.inl ⟨token, -1, rfl, rfl, rfl, apply_take_none.mpr ⟨empty, rfl⟩, rfl⟩)
  | @decremented token positive =>
      have hone : 0 ≤ redis.stock - 1 := Int.sub_nonneg_of_le positive
      refine Or.inr (Or.inl ⟨token, redis.stock - 1, rfl, rfl, rfl, ?_, rfl⟩)
      rw [reportOf, if_pos hone]
      exact apply_take_some.mpr ⟨positive, rfl, rfl⟩
  | @rolledBack n => exact Or.inr (Or.inr ⟨n, rfl, rfl, rfl, rfl⟩)
  | releasedRejected => exact Or.inl ⟨rfl, by simp⟩
  | releasedEmpty => exact Or.inl ⟨rfl, by simp⟩
  | released => exact Or.inl ⟨rfl, by simp⟩
  | acquireRejected | checkRejected | releaseRejected | incrementRejected =>
      exact absurd hg (by simp [faultless])
  | _ => exact Or.inl ⟨rfl, rfl⟩

/-- The record of the request that takes a transition. -/
lemma Transition.recorded {s : State} {redis redis' : Redis} {r : ℕ} {q : Request} {a : Action}
    {before after : Phase} {out h : List Output}
    (ht : Transition redis r q a before (redis', after, out)) (hg : faultless s a = true)
    (hrec : before.Recorded h r) : after.Recorded (h ++ out) r := by
  have hlin := linearization_append h out
  cases ht with
  | refused | decremented =>
      -- the script puts the only operation of the request on record
      refine ⟨?_, ?_⟩
      · rw [hlin]
        exact List.mem_append_right _ (List.mem_singleton_self _)
      · rw [hlin]
        intro hc
        rcases List.mem_append.mp hc with hc | hc
        · exact hrec _ hc rfl
        · exact absurd (List.mem_singleton.mp hc) (by simp)
  | releasedRejected => exact hrec.elim
  | @releasedEmpty token n negative =>
      have hnone : reportOf n = none := if_neg (not_le.mpr negative)
      have ht : Took h r none := hnone ▸ (show Took h r (reportOf n) from hrec)
      exact Or.inr (Or.inr (Or.inl ⟨rfl, ht.append (by simp [linearization, Output.op])⟩))
  | @released token n nonneg =>
      have hsome : reportOf n = some n := if_pos nonneg
      have ht : Took h r (some n) := hsome ▸ (show Took h r (reportOf n) from hrec)
      exact ⟨nonneg, ht.append (by simp [linearization, Output.op])⟩
  | emitted =>
      obtain ⟨nonneg, ht⟩ := hrec
      exact Or.inr (Or.inl ⟨_, nonneg, rfl, ht.append (by simp [linearization, Output.op])⟩)
  | emitRejected =>
      exact ⟨hrec.2.append (by simp [linearization, Output.op]), _,
        List.mem_append_right _ (List.mem_singleton_self _)⟩
  | @rolledBack n =>
      refine Or.inr (Or.inr (Or.inr ⟨rfl, n, ?_⟩))
      rw [hlin]
      exact pair_sublist_append hrec.1.1 (List.mem_singleton_self _)
  | exhausted => exact Or.inl ⟨rfl, NoOp.append hrec (by simp [linearization, Output.op])⟩
  | acquireRejected | checkRejected | releaseRejected | incrementRejected =>
      exact absurd hg (by simp [faultless])
  | acquired | contended | woken =>
      exact NoOp.append hrec (by simp [linearization, Output.op])

/-- **The operations so far.**  `present` is what makes `INCR` give back what the script took. -/
structure Serial (S : ℤ) (h : List Output) (s : State) : Prop where
  legal : replay S (linearization h) = some s.redis.stock
  present : linearization h ≠ [] → s.redis.inventory.isSome
  nodup : (linearization h).Nodup
  one_take : ∀ r report report', .take r report ∈ linearization h →
    .take r report' ∈ linearization h → report = report'
  given : ∀ r, .giveBack r ∈ linearization h → ∃ stored, .emitFailed r stored ∈ h
  recorded : s.AllPhases fun r p => p.Recorded h r

/-- An operation that a transition may append. -/
structure Next (h : List Output) (redis redis' : Redis) (op : Op) : Prop where
  legal : op.apply redis.stock = some redis'.stock
  present : redis'.inventory.isSome
  fresh : op ∉ linearization h
  first : ∀ r report, op = .take r report → NoOp h r
  given : ∀ r, op = .giveBack r → ∃ stored, .emitFailed r stored ∈ h

/-- The script is run once for a request, and what it took is given back once. -/
lemma Transition.next {s : State} {redis redis' : Redis} {r : ℕ} {q : Request} {a : Action}
    {before after : Phase} {out h : List Output}
    (ht : Transition redis r q a before (redis', after, out)) (hg : faultless s a = true)
    (hrec : before.Recorded h r) (hkey : linearization h ≠ [] → redis.inventory.isSome) :
    (linearization out = [] ∧ redis'.inventory = redis.inventory) ∨
    ∃ op, linearization out = [op] ∧ op.request = r ∧ Next h redis redis' op := by
  rcases ht.op_cases hg with hnone | ⟨token, n, rfl, rfl, rfl, happ, hsome⟩ |
    ⟨n, rfl, rfl, rfl, rfl⟩
  · exact Or.inl hnone
  · have hfirst : NoOp h r := hrec
    refine Or.inr ⟨.take r (reportOf n), rfl, rfl, happ, hsome, fun hc => hfirst _ hc rfl, ?_, ?_⟩
    · intro r' report heq
      exact (Op.take.inj heq).1 ▸ hfirst
    · intro r' heq
      exact absurd heq (by simp)
  · obtain ⟨⟨htake, hgive⟩, hfailed⟩ := hrec
    have hstock := Redis.increment_stock (hkey (List.ne_nil_of_mem htake))
    refine Or.inr ⟨.giveBack r, rfl, rfl, apply_giveBack.mpr hstock, rfl, hgive, ?_, ?_⟩
    · intro r' report heq
      exact absurd heq (by simp)
    · intro r' heq
      exact Op.giveBack.inj heq ▸ hfailed

/-- The same operations, over the same inventory. -/
lemma Serial.quiet {S : ℤ} {h out : List Output} {s s' : State} (hs : Serial S h s)
    (hout : linearization out = []) (hinv : s'.redis.inventory = s.redis.inventory)
    (hrec : s'.AllPhases fun r p => p.Recorded (h ++ out) r) : Serial S (h ++ out) s' := by
  have hlin : linearization (h ++ out) = linearization h := by
    rw [linearization_append, hout, List.append_nil]
  have hstock : s'.redis.stock = s.redis.stock := by rw [Redis.stock, Redis.stock, hinv]
  refine ⟨?_, ?_, ?_, ?_, ?_, hrec⟩ <;> rw [hlin]
  · rw [hstock]
    exact hs.legal
  · rw [hinv]
    exact hs.present
  · exact hs.nodup
  · exact hs.one_take
  · intro r hr
    obtain ⟨stored, hmem⟩ := hs.given r hr
    exact ⟨stored, List.mem_append_left _ hmem⟩

/-- One operation more. -/
lemma Serial.append {S : ℤ} {h out : List Output} {s s' : State} {op : Op} (hs : Serial S h s)
    (hout : linearization out = [op]) (hop : Next h s.redis s'.redis op)
    (hrec : s'.AllPhases fun r p => p.Recorded (h ++ out) r) : Serial S (h ++ out) s' := by
  have hlin : linearization (h ++ out) = linearization h ++ [op] := by
    rw [linearization_append, hout]
  have hmem : ∀ op', op' ∈ linearization h ++ [op] → op' ∈ linearization h ∨ op' = op :=
    fun op' hop' => (List.mem_append.mp hop').imp_right List.mem_singleton.mp
  refine ⟨?_, fun _ => hop.present, ?_, ?_, ?_, hrec⟩ <;> rw [hlin]
  · exact replay_append.mpr ⟨_, hs.legal, replay_cons.mpr ⟨_, hop.legal, rfl⟩⟩
  · rw [List.nodup_append']
    exact ⟨hs.nodup, List.nodup_singleton op, by simpa using hop.fresh⟩
  · intro r report report' ht ht'
    rcases hmem _ ht with ht | ht <;> rcases hmem _ ht' with ht' | ht'
    · exact hs.one_take r report report' ht ht'
    · exact absurd rfl (hop.first r report' ht'.symm _ ht)
    · exact absurd rfl (hop.first r report ht.symm _ ht')
    · exact (Op.take.inj (ht.trans ht'.symm)).2
  · intro r hr
    have hfailed : ∃ stored, Output.emitFailed r stored ∈ h := by
      rcases hmem _ hr with hr | hr
      · exact hs.given r hr
      · exact hop.given r hr.symm
    exact hfailed.imp fun _ => List.mem_append_left out

theorem Serial.step {S : ℤ} {h : List Output} {s s' : State} {a : Action} {out : List Output}
    (hs : Serial S h s) (hk : Known h s) (hg : faultless s a = true)
    (hstep : s.step a = some (s', out)) : Serial S (h ++ out) s' := by
  cases step_cases hstep with
  | arrived correlationId =>
      have hquiet : linearization [Output.started s.requests.length] = [] := rfl
      refine hs.quiet hquiet rfl ?_
      exact (hs.recorded.mono fun r p hp => hp.append_of_nil hquiet).arrival correlationId
        (hk.noOp.append (by simp [hquiet]))
  | advanced r q before redis after hadv =>
      have hrec := hadv.of_allPhases hs.recorded
      have hself := hadv.transition.recorded hg hrec
      rcases hadv.transition.next hg hrec hs.present with ⟨hquiet, hinv⟩ | ⟨op, hout, hr, hop⟩
      · refine hs.quiet hquiet (by rw [hadv.redis_eq, hinv]) ?_
        exact hs.recorded.advances hadv (fun r' p _ hp => hp.append_of_nil hquiet) hself
      · refine hs.append hout (by rw [hadv.redis_eq]; exact hop) ?_
        refine hs.recorded.advances hadv (fun r' p hrr hp => hp.append fun op' hop' => ?_) hself
        rw [hout, List.mem_singleton] at hop'
        rw [hop', hr]
        exact hrr
  | read => exact hs.quiet rfl rfl (hs.recorded.mono fun r p hp => hp.append_of_nil rfl)
  | reset => exact absurd hg (by simp [faultless])
  | ticked => exact hs.quiet rfl rfl (hs.recorded.mono fun r p hp => hp.append_of_nil rfl)

/-! ## Real time -/

/-- **What a request does lies between its arrival and its end.** -/
structure Timely (h : List Output) (s : State) : Prop where
  known : Known h s
  began : ∀ (x : Output) (r : ℕ), x.request = some r → ¬ [x, .started r].Sublist h
  ended : ∀ (r : ℕ) (o : Outcome), .ended r o ∈ h →
    ∃ q : Request, s.requests[r]? = some q ∧ q.phase = .ended o
  finished : ∀ (x : Output) (r : ℕ) (o : Outcome), x.request = some r → ¬ [.ended r o, x].Sublist h

/-- A request that has ended makes no transition; the last output of a transition may be the end. -/
lemma Transition.timely {redis redis' : Redis} {r : ℕ} {q : Request} {a : Action}
    {before after : Phase} {out : List Output}
    (ht : Transition redis r q a before (redis', after, out)) :
    before.isEnded = false ∧ (∀ r', .started r' ∉ out) ∧
      (∀ r' o, .ended r' o ∈ out → r' = r ∧ after = .ended o) ∧
      ∀ r' o, .ended r' o ∉ out.dropLast := by
  cases ht <;> simp [Phase.isEnded]

/-- Outputs in nobody's name change nothing. -/
lemma Timely.quiet {h out : List Output} {s s' : State} (ht : Timely h s)
    (hreq : s'.requests = s.requests) (hout : ∀ o ∈ out, o.request = none) :
    Timely (h ++ out) s' := by
  have hno : ∀ (o : Output) (r : ℕ), o.request = some r → o ∉ out := by
    intro o r ho hmem
    exact absurd (ho.symm.trans (hout o hmem)) (by simp)
  refine ⟨?_, ?_, ?_, ?_⟩
  · intro o ho r hr
    rw [hreq]
    exact ht.known o ((List.mem_append.mp ho).resolve_right (hno o r hr)) r hr
  · intro x r hx hsub
    rcases pair_sublist_append_cases hsub with hsub | ⟨-, hnew⟩ | hsub
    · exact ht.began x r hx hsub
    · exact hno _ r rfl hnew
    · exact hno x r hx (hsub.subset (by simp))
  · intro r o hmem
    rw [hreq]
    exact ht.ended r o ((List.mem_append.mp hmem).resolve_right (hno _ r rfl))
  · intro x r o hx hsub
    rcases pair_sublist_append_cases hsub with hsub | ⟨-, hnew⟩ | hsub
    · exact ht.finished x r o hx hsub
    · exact hno x r hx hnew
    · exact hno x r hx (hsub.subset (by simp))

theorem Timely.step {h : List Output} {s s' : State} {a : Action} {out : List Output}
    (ht : Timely h s) (hstep : s.step a = some (s', out)) : Timely (h ++ out) s' := by
  have hknown := ht.known.step hstep
  cases step_cases hstep with
  | arrived correlationId =>
      refine ⟨hknown, ?_, ?_, ?_⟩
      · intro x r hx hsub
        rcases pair_sublist_append_cases hsub with hsub | ⟨hold, hnew⟩ | hsub
        · exact ht.began x r hx hsub
        · rw [List.mem_singleton, Output.started.injEq] at hnew
          exact ht.known.fresh x hold (hnew ▸ hx)
        · exact absurd hsub.length_le (by simp)
      · intro r o hmem
        rcases List.mem_append.mp hmem with hmem | hmem
        · obtain ⟨q, hq, hp⟩ := ht.ended r o hmem
          exact ⟨q, getElem?_append_of_some hq _, hp⟩
        · exact absurd (List.mem_singleton.mp hmem) (by simp)
      · intro x r o hx hsub
        rcases pair_sublist_append_cases hsub with hsub | ⟨hold, hnew⟩ | hsub
        · exact ht.finished x r o hx hsub
        · rw [List.mem_singleton] at hnew
          rw [hnew, Output.request, Option.some.injEq] at hx
          exact ht.known.fresh _ hold (by rw [Output.request, hx])
        · exact absurd hsub.length_le (by simp)
  | advanced r q before redis after hadv =>
      obtain ⟨hbefore, hstart, hend, hlast⟩ := hadv.transition.timely
      -- the request of the transition has not ended
      have hrun : ∀ o, .ended r o ∉ h := by
        intro o hmem
        obtain ⟨q', hq', hp⟩ := ht.ended r o hmem
        rw [hadv.at_r, Option.some.injEq] at hq'
        rw [← hadv.phase, hq', hp] at hbefore
        exact absurd hbefore (by simp [Phase.isEnded])
      refine ⟨hknown, ?_, ?_, ?_⟩
      · intro x r' hx hsub
        rcases pair_sublist_append_cases hsub with hsub | ⟨-, hnew⟩ | hsub
        · exact ht.began x r' hx hsub
        · exact hstart r' hnew
        · exact hstart r' (hsub.subset (by simp))
      · intro r' o hmem
        rcases List.mem_append.mp hmem with hmem | hmem
        · obtain ⟨q', hq', hp⟩ := ht.ended r' o hmem
          have hrr : r ≠ r' := fun hc => hrun o (hc ▸ hmem)
          exact ⟨q', by rw [hadv.at_other hrr, hq'], hp⟩
        · obtain ⟨rfl, rfl⟩ := hend r' o hmem
          exact ⟨_, hadv.at_self, rfl⟩
      · intro x r' o hx hsub
        rcases pair_sublist_append_cases hsub with hsub | ⟨hold, hnew⟩ | hsub
        · exact ht.finished x r' o hx hsub
        · have hr := hadv.transition.request_eq x hnew
          rw [hx, Option.some.injEq] at hr
          exact hrun o (hr ▸ hold)
        · exact hlast r' o (mem_dropLast_of_pair_sublist hsub)
  | read => exact ht.quiet rfl (by simp [Output.request])
  | reset => exact ht.quiet rfl (by simp [Output.request])
  | ticked => exact ht.quiet rfl (by simp)

/-- **Real time.**  The operations are in the order of the requests that do not overlap. -/
theorem Timely.real_time {h : List Output} {s : State} (ht : Timely h s) {x y : Op}
    (hx : x ∈ linearization h) (hy : y ∈ linearization h)
    (hfin : FinishedBefore h x.request y.request) : [x, y].Sublist (linearization h) := by
  obtain ⟨ox, hox, hopx⟩ := List.mem_filterMap.mp hx
  obtain ⟨oy, hoy, hopy⟩ := List.mem_filterMap.mp hy
  obtain ⟨o, hsub⟩ := hfin
  have hlate := ht.finished ox _ o (Output.request_of_op hopx)
  have hearly := ht.began oy _ (Output.request_of_op hopy)
  exact pair_sublist_filterMap (pair_sublist_of_ended_started hsub hox hoy hlate hearly) hopx hopy

/-! ## The topic -/

/-- An event is stored when, and only when, the request is told success. -/
lemma Transition.topic {s : State} {redis redis' : Redis} {r : ℕ} {q : Request} {a : Action}
    {before after : Phase} {out : List Output}
    (ht : Transition redis r q a before (redis', after, out)) (hg : emitsMayFail s a = true) :
    before.report = none ∧
      (out.filterMap Output.published).map (fun event => some event.remaining) =
        after.report.toList.map some := by
  cases ht with
  | @emitRejected n stored =>
      have hstored : stored = false := by simpa [emitsMayFail] using hg
      subst hstored
      exact ⟨rfl, rfl⟩
  | _ => exact ⟨rfl, rfl⟩

/-- Who has an event was told success. -/
lemma exists_report {s : State} {rs : List ℕ}
    (hmap : s.topic.map (fun event => some event.remaining) = rs.map s.report) :
    ∀ r ∈ rs, ∃ n, s.report r = some n := by
  intro r hr
  have hmem : s.report r ∈ s.topic.map fun event => some event.remaining :=
    hmap ▸ List.mem_map_of_mem hr
  obtain ⟨event, -, hevent⟩ := List.mem_map.mp hmem
  exact ⟨event.remaining, hevent.symm⟩

/-- The topic grows by the reports of requests that had been told nothing. -/
lemma State.TopicReports.append {s s' : State} (ht : s.TopicReports) (new : List ℕ)
    (hkeep : ∀ r n, s.report r = some n → s'.report r = some n) (hnew : new.Nodup)
    (hfree : ∀ r ∈ new, s.report r = none)
    (htopic : s'.topic.map (fun event => some event.remaining) =
      s.topic.map (fun event => some event.remaining) ++ new.map s'.report) : s'.TopicReports := by
  obtain ⟨rs, hrs, hmap⟩ := ht
  have htold := exists_report hmap
  refine ⟨rs ++ new, ?_, ?_⟩
  · rw [List.nodup_append']
    refine ⟨hrs, hnew, fun r hr hmem => ?_⟩
    obtain ⟨n, hn⟩ := htold r hr
    exact absurd (hn.symm.trans (hfree r hmem)) (by simp)
  · rw [htopic, hmap, List.map_append, List.append_cancel_right_eq, List.map_inj_left]
    intro r hr
    obtain ⟨n, hn⟩ := htold r hr
    rw [hn, hkeep r n hn]

theorem State.TopicReports.step {s s' : State} {a : Action} {out : List Output}
    (ht : s.TopicReports) (hg : emitsMayFail s a = true) (hstep : s.step a = some (s', out)) :
    s'.TopicReports := by
  cases step_cases hstep with
  | arrived correlationId =>
      refine ht.append [] ?_ List.nodup_nil (by simp) (by simp)
      intro r n hn
      obtain ⟨q, hq, hp⟩ := Option.bind_eq_some_iff.mp hn
      exact Option.bind_eq_some_iff.mpr ⟨q, getElem?_append_of_some hq _, hp⟩
  | advanced r q before redis after hadv =>
      obtain ⟨hbefore, htopic⟩ := hadv.transition.topic hg
      have hfree : s.report r = none := by
        rw [State.report, hadv.at_r, Option.bind_some, hadv.phase, hbefore]
      have hself : s'.report r = after.report := by
        rw [State.report, hadv.at_self, Option.bind_some]
      have hkeep : ∀ r' n, s.report r' = some n → s'.report r' = some n := by
        intro r' n hn
        have hrr : r ≠ r' := by
          rintro rfl
          exact absurd (hfree.symm.trans hn) (by simp)
        rw [State.report, hadv.at_other hrr]
        exact hn
      have hgrow : s'.topic.map (fun event => some event.remaining) =
          s.topic.map (fun event => some event.remaining) ++ after.report.toList.map some := by
        rw [hadv.state, List.map_append, htopic]
      cases hrep : after.report with
      | none => exact ht.append [] hkeep List.nodup_nil (by simp) (by simp [hgrow, hrep])
      | some n =>
          refine ht.append [r] hkeep (List.nodup_singleton r) (by simpa using hfree) ?_
          simp [hgrow, hself, hrep]
  | read => exact ht
  | reset => exact absurd hg (by simp [emitsMayFail])
  | ticked => exact ht

/-! ## Every run -/

/-- The invariants of every run. -/
structure Linearizing (S : ℤ) (h : List Output) (s : State) : Prop where
  timely : Timely h s
  serial : Serial S h s
  topic : s.TopicReports

theorem linearizing_of_reaches {redis : Redis} {h : List Output} {s : State}
    (hr : (product.restrict emitsMayFail).Reaches (State.start redis) h s) :
    Linearizing redis.stock h s := by
  refine hr.invariant (I := Linearizing redis.stock) ?_ ?_
  · refine ⟨⟨?_, ?_, ?_, ?_⟩, ⟨rfl, ?_, List.nodup_nil, ?_, ?_, allPhases_start redis _⟩,
      [], List.nodup_nil, rfl⟩
    all_goals simp [Known, linearization]
  · rintro h s a s' out - ⟨ht, hs, htopic⟩ hstep
    obtain ⟨hg, hstep⟩ := Machine.restrict_step.mp hstep
    exact ⟨ht.step hstep, hs.step ht.known (faultless_of_emitsMayFail s a hg) hstep,
      htopic.step hg hstep⟩

section isolated

variable {S : ℤ} {h : List Output} {s : State}

/-- Without a failed emit nothing is given back. -/
lemma Serial.isolated (hs : Serial S h s) (hno : NoEmitFailed h) :
    Isolated (linearization h) := by
  intro r hr
  obtain ⟨stored, hmem⟩ := hs.given r ((visible_sublist _).subset hr)
  exact hno r stored hmem

/-- A visible operation is the `take` of a request that was told what it reports. -/
lemma Linearizing.take_of_visible (hl : Linearizing S h s) (hiso : Isolated (linearization h))
    (hall : s.allEnded) {op : Op} (hop : op ∈ visible (linearization h)) :
    op = .take op.request (s.report op.request) ∧
      ∃ q o, s.requests[op.request]? = some q ∧ q.phase = .ended o ∧ o.isUnavailable = false := by
  have hmem := (visible_sublist _).subset hop
  cases op with
  | giveBack r => exact absurd hop (hiso r)
  | take r report =>
      obtain ⟨x, hx, hopx⟩ := List.mem_filterMap.mp hmem
      obtain ⟨q, hq⟩ : ∃ q, s.requests[r]? = some q :=
        ⟨_, List.getElem?_eq_getElem (hl.timely.known x hx r (Output.request_of_op hopx))⟩
      obtain ⟨o, ho⟩ : ∃ o, q.phase = .ended o := by
        have hended := hall q (List.mem_of_getElem? hq)
        cases hp : q.phase <;> simp_all [Phase.isEnded]
      have hreport : s.report r = (Phase.ended o).report := by
        rw [State.report, hq, Option.bind_some, ho]
      have hsettled : Settled h r o := by
        have hrec := hl.serial.recorded r q hq
        rwa [ho] at hrec
      rcases hsettled with ⟨-, hnoop⟩ | ⟨n, -, rfl, htook⟩ | ⟨rfl, htook⟩ | ⟨-, n, hsub⟩
      · exact absurd rfl (hnoop _ hmem)
      · have hrep := hl.serial.one_take r report (some n) hmem htook.1
        exact ⟨by rw [hrep, Op.request, hreport]; rfl, q, _, hq, ho, rfl⟩
      · have hrep := hl.serial.one_take r report none hmem htook.1
        exact ⟨by rw [hrep, Op.request, hreport]; rfl, q, _, hq, ho, rfl⟩
      · -- the request has given its unit back, so its `take` is not visible
        have hgive : Op.giveBack r ∈ linearization h := hsub.subset (by simp)
        rcases exists_take_of_giveBack hl.serial.nodup hgive with hvis | ⟨n', hmem', hnot⟩
        · exact absurd hvis (hiso r)
        · exact absurd (hl.serial.one_take r report (some n') hmem hmem' ▸ hop) hnot

/-- And every request that did not end in 503 has one. -/
lemma Linearizing.visible_of_available (hl : Linearizing S h s) {r : ℕ} {q : Request}
    {o : Outcome} (hq : s.requests[r]? = some q) (ho : q.phase = .ended o)
    (havail : o.isUnavailable = false) :
    ∃ report, Op.take r report ∈ visible (linearization h) := by
  have hsettled : Settled h r o := by
    have hrec := hl.serial.recorded r q hq
    rwa [ho] at hrec
  obtain ⟨report, htook⟩ : ∃ report, Took h r report := by
    rcases hsettled with ⟨rfl, -⟩ | ⟨n, -, -, htook⟩ | ⟨-, htook⟩ | ⟨rfl, -⟩
    · exact absurd havail (by decide)
    · exact ⟨_, htook⟩
    · exact ⟨_, htook⟩
    · exact absurd havail (by decide)
  exact ⟨report, (mem_visible_or htook.1).resolve_right htook.2⟩

/-- What a request was told is on record. -/
lemma Linearizing.visible_of_report (hl : Linearizing S h s) (hiso : Isolated (linearization h))
    (hall : s.allEnded) {r : ℕ} {n : ℤ} (hr : s.report r = some n) :
    Op.take r (some n) ∈ visible (linearization h) := by
  obtain ⟨q, hq, hp⟩ := Option.bind_eq_some_iff.mp hr
  obtain ⟨o, ho, havail⟩ : ∃ o, q.phase = .ended o ∧ o.isUnavailable = false := by
    rw [Phase.report.eq_def] at hp
    split at hp
    · next a ha => exact ⟨_, ha, rfl⟩
    · exact absurd hp (by simp)
  obtain ⟨report, hop⟩ := hl.visible_of_available hq ho havail
  have htake := (hl.take_of_visible hiso hall hop).1
  rw [Op.request, hr] at htake
  exact htake ▸ hop

/-- No two requests are told the same. -/
lemma Linearizing.distinct (hl : Linearizing S h s) (hiso : Isolated (linearization h))
    (hall : s.allEnded) {r r' : ℕ} {n : ℤ} (hr : s.report r = some n)
    (hr' : s.report r' = some n) : r = r' := by
  by_contra hrr
  have hlegal := replay_visible hl.serial.legal
  have hne : Op.take r (some n) ≠ .take r' (some n) := fun hc => hrr (Op.take.inj hc).1
  rcases pair_sublist_total hne (hl.visible_of_report hiso hall hr)
      (hl.visible_of_report hiso hall hr') with hsub | hsub <;>
    obtain ⟨r'', hsub⟩ := giveBack_between hlegal hsub <;>
    exact hiso r'' (hsub.subset (by simp))

lemma Linearizing.sequentialOrder (hl : Linearizing S h s) (hiso : Isolated (linearization h))
    (hall : s.allEnded) :
    SequentialOrder S h s ((visible (linearization h)).map Op.request) := by
  have htake : ∀ op ∈ visible (linearization h), op = .take op.request (s.report op.request) :=
    fun op hop => (hl.take_of_visible hiso hall hop).1
  have hsub := visible_sublist (linearization h)
  constructor
  · refine (hl.serial.nodup.sublist hsub).map_on fun x hx y hy hxy => ?_
    rw [htake x hx, htake y hy, hxy]
  · intro r
    rw [List.mem_map]
    constructor
    · rintro ⟨op, hop, rfl⟩
      exact (hl.take_of_visible hiso hall hop).2
    · rintro ⟨q, o, hq, ho, havail⟩
      obtain ⟨report, hop⟩ := hl.visible_of_available hq ho havail
      exact ⟨_, hop, rfl⟩
  · intro a b ha hb hfin
    obtain ⟨x, hx, rfl⟩ := List.mem_map.mp ha
    obtain ⟨y, hy, rfl⟩ := List.mem_map.mp hb
    have hxy := hl.timely.real_time (hsub.subset hx) (hsub.subset hy) hfin
    exact (pair_sublist_of_sublist hl.serial.nodup hsub hx hy hxy).map Op.request
  · rw [List.length_map]
    exact reports_of_replay (replay_visible hl.serial.legal) htake

/-- If a request was told that nothing is left, all units went to requests that succeeded. -/
lemma Linearizing.sold_out (hl : Linearizing S h s) (hc : Conserved S s) (hS : 0 ≤ S)
    (hiso : Isolated (linearization h)) (hall : s.allEnded) {r : ℕ} {q : Request}
    (hq : s.requests[r]? = some q) (hp : q.phase = .ended .outOfStock) :
    (s.succeeded : ℤ) = S := by
  have hlegal := replay_visible hl.serial.legal
  obtain ⟨report, hop⟩ := hl.visible_of_available hq hp rfl
  have hreport : report = none := by
    have htake := (hl.take_of_visible hiso hall hop).1
    rw [Op.request, State.report, hq, Option.bind_some, hp] at htake
    exact (Op.take.inj htake).2
  obtain ⟨ops, ops', hops⟩ := List.append_of_mem (hreport ▸ hop)
  have hgiven : ∀ l : List Op, l.Sublist (visible (linearization h)) →
      l.countP Op.isGivenBack = 0 := by
    intro l hl
    rw [List.countP_eq_zero]
    intro op hop hgb
    exact absurd hgb (by simp [isolated_iff.mp hiso op (hl.subset hop)])
  -- all `S` units are out when the request is refused, so none is in stock at the end
  have hbefore := balance_of_refused hS (hops ▸ hlegal)
  have hafter := replay_balance hlegal
  rw [hgiven ops (hops ▸ List.sublist_append_left _ _)] at hbefore
  rw [hgiven _ (List.Sublist.refl _), hops, List.countP_append] at hafter
  have hflight := inFlight_of_allEnded hall
  have hnonneg := hc.nonneg
  have hbalance := hc.balance
  omega

theorem Linearizing.linearizable (hl : Linearizing S h s) (hc : Conserved S s) (hS : 0 ≤ S)
    (hiso : Isolated (linearization h)) (hall : s.allEnded) : Linearizable S h s := by
  constructor
  · exact ⟨_, hl.sequentialOrder hiso hall⟩
  · exact fun r r' n => hl.distinct hiso hall
  · obtain ⟨rs, hrs, hmap⟩ := hl.topic
    have hnodup : (rs.map s.report).Nodup := by
      refine hrs.map_on fun r hr r' hr' heq => ?_
      obtain ⟨n, hn⟩ := exists_report hmap r hr
      exact hl.distinct hiso hall hn (heq ▸ hn)
    rw [← hmap] at hnodup
    refine List.Nodup.of_map some ?_
    rwa [List.map_map]
  · intro q hq hp
    obtain ⟨r, hr⟩ := List.getElem?_of_mem hq
    exact hl.sold_out hc hS hiso hall hr hp

end isolated

/-- **`useItem` is linearizable by its operations**, for every stock, every interleaving and every
choice of the emits that fail; and request by request if none does. -/
theorem linearized_by_ops {redis : Redis} (hS : 0 ≤ redis.stock) {h : List Output} {s : State}
    (hr : (product.restrict emitsMayFail).Reaches (State.start redis) h s) :
    LinearizedByOps redis.stock h s := by
  have hl := linearizing_of_reaches hr
  have hacc := accounting_of_reaches hS (hr.restrict_mono faultless_of_emitsMayFail)
  constructor
  · exact hl.serial.legal
  · exact hl.serial.nodup
  · exact hl.serial.one_take
  · intro r q o hq ho
    have hrec := hl.serial.recorded r q hq
    rwa [ho] at hrec
  · exact fun x hx y hy hfin => hl.timely.real_time hx hy hfin
  · exact fun r r' n hpair => giveBack_between hl.serial.legal hpair
  · intro ops ops' r hops
    have hlegal := hl.serial.legal
    rw [hops] at hlegal
    exact balance_of_refused hS hlegal
  · exact hl.topic
  · exact hl.linearizable hacc.conserved hS
  · exact hl.serial.isolated

/-- `useItem` from the script's lock to its release, without contention. -/
def takeUnit (r : ℕ) : List Action := [.resume r, .resume r, .resume r]

/-- A failed emit and its compensation. -/
def failEmit (r : ℕ) : List Action := [.rejectEmit r false, .resume r]

/-- Three units; the first request fails before the second arrives. -/
def failedAlone : List Action :=
  [.useItem "a"] ++ takeUnit 0 ++ failEmit 0 ++ [.useItem "b"] ++ takeUnit 1 ++ [.resume 1]

def threeUnits : Redis where
  inventory := some 3
  lock := none
  now := 0

theorem linearized_by_ops_failedAlone : ∃ s h,
    (product.restrict emitsMayFail).run (State.start threeUnits) failedAlone = some (s, h) ∧
      s.allEnded ∧ LinearizedByOps 3 h s ∧ Isolated (linearization h) := by
  have hrun := (rfl : (product.restrict emitsMayFail).run (State.start threeUnits) failedAlone =
    some (_, _))
  refine ⟨_, _, hrun, by decide, linearized_by_ops (by decide) (Machine.reaches_of_run hrun), ?_⟩
  exact of_decide_eq_true rfl

/-- The first in the order was told that it took the first unit. -/
lemma SequentialOrder.first {S : ℤ} {h : List Output} {s : State} {order : List ℕ}
    (ho : SequentialOrder S h s order) (hS : 0 < S) {r : ℕ} (hr : r ∈ order) :
    ¬ ∀ q ∈ s.requests, q.phase.report ≠ some (S - 1) := by
  intro hnone
  have hpos : 0 < order.length := List.length_pos_of_mem hr
  obtain ⟨n, hn⟩ := Nat.exists_eq_succ_of_ne_zero (Nat.ne_of_gt hpos)
  have hreports := ho.told
  rw [hn, reports, takeOne_of_pos hS] at hreports
  obtain ⟨r', -, hr'⟩ := List.mem_map.mp (hreports ▸ List.mem_cons_self)
  obtain ⟨q, hq, hp⟩ := Option.bind_eq_some_iff.mp hr'
  exact hnone q (List.mem_of_getElem? hq) hp

/-- Three units again.  Two requests fail after a third has taken the last unit and a fourth has
found none; then a fifth takes the unit that the first has given back. -/
def failedAmongOthers : List Action :=
  [.useItem "a", .useItem "b", .useItem "c", .useItem "d", .useItem "e"] ++
    takeUnit 0 ++ takeUnit 1 ++ takeUnit 2 ++ takeUnit 3 ++ failEmit 0 ++ takeUnit 4 ++
    failEmit 1 ++ [.resume 2, .resume 4]

/-- Requests that ended in 503 can be seen: no order of the others explains what they were told,
two of them were told the same, and one that nothing is left although only two succeeded. -/
theorem refused_by_failing : ∃ s h,
    (product.restrict emitsMayFail).Reaches (State.start threeUnits) h s ∧ s.allEnded ∧
      (¬ ∃ order, SequentialOrder 3 h s order) ∧ ¬ Linearizable 3 h s ∧
      s.report 2 = some 0 ∧ s.report 4 = some 0 ∧ s.succeeded = 2 ∧
      ∃ q ∈ s.requests, q.phase = .ended .outOfStock := by
  have hrun := (rfl : (product.restrict emitsMayFail).run (State.start threeUnits)
    failedAmongOthers = some (_, _))
  refine ⟨_, _, Machine.reaches_of_run hrun, by decide, ?_, ?_, rfl, rfl, rfl, by decide⟩
  · rintro ⟨order, ho⟩
    exact ho.first (by decide) ((ho.mem 2).mpr ⟨_, _, rfl, rfl, rfl⟩) (by decide)
  · intro hlin
    obtain ⟨order, ho⟩ := hlin.order
    exact ho.first (by decide) ((ho.mem 2).mpr ⟨_, _, rfl, rfl, rfl⟩) (by decide)

end RedisApi.Product
