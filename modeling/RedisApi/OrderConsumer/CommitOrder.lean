import RedisApi.OrderConsumer.Batching

/-!
# The order of the commits

The activations of `flush` cut the received events into consecutive batches, and only the last of
them is ever suspended.  Where each partition's events arrive in the order of their offsets, a later
batch therefore lies above an earlier one, and so does what is committed for it.

* `CommitOrder` — the invariant: the batches in a row, with the events behind them, are what was
  received; every call of `consumer.commitOffsets` is for one of these batches, and a later call is
  for the same batch or a later one.
* `commits_advance` — the offsets passed for a partition never decrease, and grow from batch to
  batch; each is above its batch and not above what is buffered behind it.
-/

namespace RedisApi

open Core OrderService

/-- The calls of `consumer.commitOffsets`, in order, each with the activation that makes it. -/
def commitCalls (h : List Output) : List (ℕ × List TopicPartitionOffset) :=
  h.filterMap fun
    | .commitOffsets i offsets => some (i, offsets)
    | _ => none

lemma commitCalls_append (h out : List Output) :
    commitCalls (h ++ out) = commitCalls h ++ commitCalls out := List.filterMap_append

/-- The events behind the batch that is being flushed, if one is. -/
def OrderService.unclaimed (s : OrderService) : List BufferedEvent :=
  s.buffer.drop (if s.flushing then batchSize else 0)

/-! ## One step -/

/-- While the flag is up, a full batch is buffered. -/
lemma SingleFlush.batchSize_le {s : OrderService} (hs : SingleFlush s)
    (hflag : s.flushing = true) : batchSize ≤ s.buffer.length := by
  have hcount := hs.count
  rw [hflag, if_pos rfl, inProgress] at hcount
  obtain ⟨f, hf, hp⟩ := List.countP_pos_iff.mp (by rw [hcount]; exact Nat.one_pos)
  obtain ⟨hbatch, hlength⟩ := hs.batch_eq hf hp
  rw [← hlength, hbatch, List.length_take]
  exact min_le_right _ _

/-- The batches stay as they are cut, and what arrives comes behind the last one. -/
lemma batches_of_step {s s' : OrderService} {a : Action} {out : List Output} (hs : SingleFlush s)
    (h : (orderService.restrict noShutdown).step s a = some (s', out)) :
    (s'.flushes.map Flush.batch).flatten ++ s'.unclaimed =
      (s.flushes.map Flush.batch).flatten ++ s.unclaimed ++ receivedEvents out := by
  obtain ⟨hg, h⟩ := Machine.restrict_step.mp h
  cases step_cases h with
  | received dto context heq =>
      obtain ⟨-, hrec, -⟩ := createFromEvent_buffer s dto context
      rw [← heq] at hrec
      rw [hrec]
      simp only [OrderService.createFromEvent] at heq
      split_ifs at heq with hfull <;> obtain ⟨rfl, rfl⟩ := Prod.mk.injEq .. ▸ heq
      · -- the flush that starts claims the first events of the buffer
        simp [unclaimed, OrderService.flush, hfull.2]
      · rw [List.append_assoc, List.append_cancel_left_eq, unclaimed, unclaimed]
        cases hflag : s.flushing with
        | false => simp
        | true =>
            rw [if_pos rfl, List.drop_append_of_le_length (hs.batchSize_le hflag)]
  | shutDown heq => exact absurd hg (by simp [noShutdown])
  | moved i f f' heq hm hq =>
      have hsame : (s.flushes.set i f').map Flush.batch = s.flushes.map Flush.batch :=
        map_set_of_eq hm.at_i hm.batch
      rw [heq, receivedEvents_quiet hq, List.append_nil, move_flushes, hsame]
      rfl
  | ended i f how hi hp hhow heq =>
      obtain ⟨hrec, -⟩ := finish_outputs s i f how
      rw [← heq] at hrec
      have hsame : (s.flushes.set i { f with await := how }).map Flush.batch =
          s.flushes.map Flush.batch := map_set_of_eq hi rfl
      have hflag := hs.flushing_of_pending (List.mem_of_getElem? hi) hp
      have hlength := hs.full f (List.mem_of_getElem? hi) hp
      rw [hrec, List.append_nil, show s' = _ from congrArg Prod.fst heq]
      simp only [OrderService.finish, unclaimed, hsame, hflag, hlength, if_true,
        Bool.false_eq_true, if_false, List.drop_zero]

/-- Only the last activation may be suspended. -/
def OnlyLast (s : OrderService) : Prop :=
  ∀ i f, s.flushes[i]? = some f → f.pending = true → i + 1 = s.flushes.length

lemma OnlyLast.set {s : OrderService} (hs : OnlyLast s) {i : ℕ} {f f' : Flush}
    (hi : s.flushes[i]? = some f) (hp : f.pending = true) {flushing : Bool}
    {buffer : List BufferedEvent} :
    OnlyLast { buffer := buffer, flushing := flushing, flushes := s.flushes.set i f' } := by
  show Each (s.flushes.set i f') fun j g => g.pending = true → j + 1 = (s.flushes.set i f').length
  rw [List.length_set]
  exact Each.set hs hi (fun _ => hs i f hi hp) fun _ _ _ => id

lemma OnlyLast.step {s s' : OrderService} {a : Action} {out : List Output} (hl : OnlyLast s)
    (hs : SingleFlush s) (h : (orderService.restrict noShutdown).step s a = some (s', out)) :
    OnlyLast s' := by
  obtain ⟨hg, h⟩ := Machine.restrict_step.mp h
  cases step_cases h with
  | received dto context heq =>
      simp only [OrderService.createFromEvent] at heq
      split_ifs at heq with hfull <;> obtain ⟨rfl, rfl⟩ := Prod.mk.injEq .. ▸ heq
      · -- the flag was down, so nothing else is suspended
        have hnone := hs.not_pending hfull.2
        have hothers : Each s.flushes fun j g => g.pending = true →
            j + 1 = s.flushes.length + 1 := by
          intro j g hj hpg
          exact absurd (hpg.symm.trans (hnone g (List.mem_of_getElem? hj))) (by simp)
        intro j g hj hpg
        simp only [OrderService.flush, List.length_append, List.length_singleton] at hj ⊢
        exact hothers.concat (fun _ => rfl) j g hj hpg
      · exact hl
  | shutDown heq => exact absurd hg (by simp [noShutdown])
  | moved i f f' heq hm hq => exact heq ▸ hl.set hm.at_i hm.pending
  | ended i f how hi hp hhow heq =>
      rw [show s' = _ from congrArg Prod.fst heq]
      exact hl.set hi hp

/-- An activation keeps its batch. -/
lemma batch_of_step {s s' : OrderService} {a : Action} {out : List Output}
    (h : (orderService.restrict noShutdown).step s a = some (s', out)) {i : ℕ} {f : Flush}
    (hi : s.flushes[i]? = some f) : ∃ f', s'.flushes[i]? = some f' ∧ f'.batch = f.batch := by
  obtain ⟨hg, h⟩ := Machine.restrict_step.mp h
  have set_batch : ∀ {j g g'}, s.flushes[j]? = some g → g'.batch = g.batch →
      ∃ f', (s.flushes.set j g')[i]? = some f' ∧ f'.batch = f.batch := by
    intro j g g' hj hbatch
    rw [getElem?_set_of_some hj]
    split_ifs with hji
    · subst hji
      exact ⟨g', rfl, by rw [hbatch, Option.some.inj (hj.symm.trans hi)]⟩
    · exact ⟨f, hi, rfl⟩
  cases step_cases h with
  | received dto context heq =>
      have hflushes := createFromEvent_flushes s dto context
      rw [← heq] at hflushes
      rcases hflushes with hfl | hfl <;> rw [show s'.flushes = _ from hfl]
      · exact ⟨f, hi, rfl⟩
      · exact ⟨f, getElem?_append_of_some hi _, rfl⟩
  | shutDown heq => exact absurd hg (by simp [noShutdown])
  | moved j g g' heq hm hq => exact heq ▸ set_batch hm.at_i hm.batch
  | ended j g how hj hp hhow heq =>
      rw [show s' = _ from congrArg Prod.fst heq]
      exact set_batch hj rfl

lemma commitCalls_finish (s : OrderService) (i : ℕ) (f : Flush) (how : Await) :
    commitCalls (s.finish i f how).2 = [] := by
  simp only [OrderService.finish]
  cases f.caller <;> rfl

/-- What a step commits: nothing, or the offsets of a batch that is suspended then. -/
lemma commitCalls_of_step {s s' : OrderService} {a : Action} {out : List Output}
    (h : s.step a = some (s', out)) :
    commitCalls out = [] ∨ ∃ i f, commitCalls out = [(i, commitOffsets f.batch)] ∧
      s'.flushes[i]? = some f ∧ f.pending = true := by
  cases a with
  | createFromEvent dto context =>
      left
      have heq := Option.some.inj h
      simp only [OrderService.createFromEvent] at heq
      split_ifs at heq <;> obtain ⟨rfl, rfl⟩ := Prod.mk.injEq .. ▸ heq <;> rfl
  | onModuleDestroy =>
      left
      have heq := Option.some.inj h
      simp only [OrderService.onModuleDestroy] at heq
      split_ifs at heq <;> obtain ⟨rfl, rfl⟩ := Prod.mk.injEq .. ▸ heq <;> rfl
  | saveResolved i saved =>
      obtain ⟨f, hf, heq⟩ := Option.map_eq_some_iff.mp h
      obtain ⟨hi, -⟩ := awaiting_eq_some.mp hf
      obtain ⟨rfl, rfl⟩ := Prod.mk.injEq .. ▸ heq
      exact Or.inr ⟨i, { f with orders := saved, await := .commitOffsets }, rfl,
        (getElem?_set_of_some hi _).trans (if_pos rfl), rfl⟩
  | saveRejected i | commitRejected i =>
      obtain ⟨f, hf, heq⟩ := Option.map_eq_some_iff.mp h
      obtain ⟨rfl, rfl⟩ := Prod.mk.injEq .. ▸ heq
      exact Or.inl rfl
  | commitResolved i =>
      obtain ⟨f, hf, heq⟩ := Option.map_eq_some_iff.mp h
      obtain ⟨rfl, rfl⟩ := Prod.mk.injEq .. ▸ heq
      exact Or.inl (commitCalls_finish s i f .batchSaved)
  | timeout i =>
      obtain ⟨f, hf, heq⟩ := Option.map_eq_some_iff.mp h
      rw [afterDelay] at heq
      split_ifs at heq <;> obtain ⟨rfl, rfl⟩ := Prod.mk.injEq .. ▸ heq
      · exact Or.inl rfl
      · exact Or.inl (commitCalls_finish s i f .deadLettered)

/-! ## The invariant -/

/-- **The invariant of the commits.** -/
structure CommitOrder (h : List Output) (s : OrderService) : Prop where
  batches : (s.flushes.map Flush.batch).flatten ++ s.unclaimed = receivedEvents h
  only_last : OnlyLast s
  calls : ∀ c ∈ commitCalls h, ∃ f, s.flushes[c.1]? = some f ∧ c.2 = commitOffsets f.batch
  ascending : (commitCalls h).Pairwise fun c d => c.1 ≤ d.1

theorem CommitOrder.step {h : List Output} {s s' : OrderService} {a : Action} {out : List Output}
    (hc : CommitOrder h s) (hs : SingleFlush s)
    (hstep : (orderService.restrict noShutdown).step s a = some (s', out)) :
    CommitOrder (h ++ out) s' := by
  have honly := hc.only_last.step hs hstep
  have hbefore : ∀ c ∈ commitCalls h,
      ∃ f, s'.flushes[c.1]? = some f ∧ c.2 = commitOffsets f.batch := by
    intro c hmem
    obtain ⟨f, hf, heq⟩ := hc.calls c hmem
    obtain ⟨f', hf', hbatch⟩ := batch_of_step hstep hf
    exact ⟨f', hf', by rw [heq, hbatch]⟩
  refine ⟨by rw [batches_of_step hs hstep, receivedEvents_append, hc.batches], honly, ?_, ?_⟩ <;>
    rw [commitCalls_append] <;>
    rcases commitCalls_of_step (Machine.restrict_step.mp hstep).2 with
      hno | ⟨i, f, hone, hi, hp⟩
  · rwa [hno, List.append_nil]
  · rw [hone]
    intro c hmem
    rcases List.mem_append.mp hmem with hmem | hmem
    · exact hbefore c hmem
    · rw [List.mem_singleton.mp hmem]
      exact ⟨f, hi, rfl⟩
  · rw [hno, List.append_nil]
    exact hc.ascending
  · rw [hone, List.pairwise_append]
    refine ⟨hc.ascending, List.pairwise_singleton _ _, fun c hmem d hd => ?_⟩
    -- the activation that commits is the last one
    obtain ⟨g, hg, -⟩ := hbefore c hmem
    have hlt := (List.getElem?_eq_some_iff.mp hg).1
    have hlast := honly i f hi hp
    rw [List.mem_singleton.mp hd]
    show c.1 ≤ i
    omega

theorem commitOrder_of_reaches {h : List Output} {s : OrderService}
    (hr : (orderService.restrict noShutdown).Reaches OrderService.fresh h s) :
    SingleFlush s ∧ CommitOrder h s := by
  refine hr.invariant (I := fun h s => SingleFlush s ∧ CommitOrder h s) ?_ ?_
  · exact ⟨SingleFlush.fresh, rfl, fun i f hi => absurd hi (by simp [OrderService.fresh]),
      by simp [commitCalls], List.Pairwise.nil⟩
  · intro h s a s' out _ hi hstep
    exact ⟨hi.1.step hstep, hi.2.step hi.1 hstep⟩

/-! ## Offsets -/

/-- Each partition's events have arrived in the order of their offsets. -/
def InOffsetOrder (events : List BufferedEvent) : Prop :=
  events.Pairwise fun d e => d.partition = e.partition → d.offset < e.offset

instance (events : List BufferedEvent) : Decidable (InOffsetOrder events) :=
  inferInstanceAs (Decidable (events.Pairwise fun d e =>
    d.partition = e.partition → d.offset < e.offset))

/-- The offsets committed for a partition, in order, each with the activation that commits it. -/
def commitsOf (h : List Output) (p : ℕ) : List (ℕ × ℕ) :=
  (commitCalls h).flatMap fun c =>
    (c.2.filter fun x => x.partition = p).map fun x => (c.1, bigInt x.offset)

/-- What holds of the commits at every point of a run. -/
structure CommitsAdvance (h : List Output) (s : OrderService) : Prop where
  ascending : ∀ p, (commitsOf h p).Pairwise fun a b => a.2 ≤ b.2 ∧ (a.1 ≠ b.1 → a.2 < b.2)
  batch : ∀ i offsets, .commitOffsets i offsets ∈ h → ∃ f, s.flushes[i]? = some f ∧
    ∀ x ∈ offsets, (∀ e ∈ f.batch, e.partition = x.partition → e.offset < bigInt x.offset) ∧
      (f.pending = true → f.batch = s.buffer.take f.batch.length ∧
        ∀ e ∈ s.buffer.drop f.batch.length, e.partition = x.partition →
          bigInt x.offset ≤ e.offset)

section offsets

variable {h : List Output} {s : OrderService}

/-- An event of an earlier batch is below one of a later batch, and below what is behind them. -/
lemma CommitOrder.lt_of_batches (hc : CommitOrder h s) (horder : InOffsetOrder (receivedEvents h))
    {i : ℕ} {f : Flush} (hi : s.flushes[i]? = some f) {d : BufferedEvent} (hd : d ∈ f.batch) :
    (∀ j g, i < j → s.flushes[j]? = some g → ∀ e ∈ g.batch, d.partition = e.partition →
        d.offset < e.offset) ∧
      ∀ e ∈ s.unclaimed, d.partition = e.partition → d.offset < e.offset := by
  rw [InOffsetOrder, ← hc.batches, List.pairwise_append, List.pairwise_flatten] at horder
  obtain ⟨⟨-, hbatches⟩, -, hbehind⟩ := horder
  constructor
  · intro j g hij hj e he hp
    rw [List.pairwise_map, List.pairwise_iff_getElem] at hbatches
    obtain ⟨hlt, rfl⟩ := List.getElem?_eq_some_iff.mp hi
    obtain ⟨hlt', rfl⟩ := List.getElem?_eq_some_iff.mp hj
    exact hbatches i j hlt hlt' hij d hd e he hp
  · intro e he hp
    refine hbehind d (List.mem_flatten.mpr ⟨f.batch, ?_, hd⟩) e he hp
    exact List.mem_map_of_mem (List.mem_of_getElem? hi)

/-- Two commits for a partition: they are for one batch and agree, or the second is greater. -/
lemma CommitOrder.commit_lt (hc : CommitOrder h s) (horder : InOffsetOrder (receivedEvents h))
    {c d : ℕ × List TopicPartitionOffset} (hmc : c ∈ commitCalls h) (hmd : d ∈ commitCalls h)
    (hle : c.1 ≤ d.1) {x y : TopicPartitionOffset} (hx : x ∈ c.2) (hy : y ∈ d.2)
    (hp : x.partition = y.partition) :
    bigInt x.offset ≤ bigInt y.offset ∧ (c.1 ≠ d.1 → bigInt x.offset < bigInt y.offset) := by
  obtain ⟨f, hf, hcf⟩ := hc.calls c hmc
  obtain ⟨g, hg, hdg⟩ := hc.calls d hmd
  obtain ⟨e, ⟨he, hep, hmax⟩, hxe⟩ := mem_commitOffsets (hcf ▸ hx)
  obtain ⟨e', ⟨he', hep', hmax'⟩, hye⟩ := mem_commitOffsets (hdg ▸ hy)
  rcases Nat.lt_or_eq_of_le hle with hlt | heq
  · have hbelow := (hc.lt_of_batches horder hf he).1 d.1 g hlt hg e' he' (by rw [hep, hep', hp])
    omega
  · rw [← heq, hf, Option.some.injEq] at hg
    subst hg
    have hle₁ := hmax e' he' (hep'.trans hp.symm)
    have hle₂ := hmax' e he (hep.trans hp)
    exact ⟨by omega, fun hne => absurd heq hne⟩

end offsets

/-- **Offset commits advance and never run ahead of buffered events.**  For every interleaving of
calls of `createFromEvent` with the awaits inside `flush`, and every pattern of failures, where each
partition's events arrive with increasing offsets. -/
theorem commits_advance {h : List Output} {s : OrderService}
    (hr : (orderService.restrict noShutdown).Reaches OrderService.fresh h s)
    (horder : InOffsetOrder (receivedEvents h)) : CommitsAdvance h s := by
  obtain ⟨hs, hc⟩ := commitOrder_of_reaches hr
  constructor
  · intro p
    have hpair : ∀ {c d : ℕ × List TopicPartitionOffset}, c ∈ commitCalls h → d ∈ commitCalls h →
        c.1 ≤ d.1 → ∀ a ∈ (c.2.filter fun x => x.partition = p).map fun x => (c.1, bigInt x.offset),
        ∀ b ∈ (d.2.filter fun x => x.partition = p).map fun x => (d.1, bigInt x.offset),
        a.2 ≤ b.2 ∧ (a.1 ≠ b.1 → a.2 < b.2) := by
      intro c d hmc hmd hle a ha b hb
      obtain ⟨x, hx, rfl⟩ := List.mem_map.mp ha
      obtain ⟨y, hy, rfl⟩ := List.mem_map.mp hb
      obtain ⟨hx, hxp⟩ := List.mem_filter.mp hx
      obtain ⟨hy, hyp⟩ := List.mem_filter.mp hy
      refine hc.commit_lt horder hmc hmd hle hx hy ?_
      rw [of_decide_eq_true hxp, of_decide_eq_true hyp]
    rw [commitsOf, List.pairwise_flatMap]
    constructor
    · intro c hmc
      exact List.pairwise_of_forall_mem_list fun a ha b hb => hpair hmc hmc (le_refl _) a ha b hb
    · exact hc.ascending.imp_of_mem fun hmc hmd hle => hpair hmc hmd hle
  · intro i offsets hmem
    have hcall : (i, offsets) ∈ commitCalls h := List.mem_filterMap.mpr ⟨_, hmem, rfl⟩
    obtain ⟨f, hf, rfl⟩ := hc.calls _ hcall
    refine ⟨f, hf, fun x hx => ?_⟩
    obtain ⟨e, ⟨he, hep, hmax⟩, hxe⟩ := mem_commitOffsets hx
    constructor
    · intro e' he' hp
      have hle := hmax e' he' hp
      omega
    · intro hp
      refine ⟨hs.head f (List.mem_of_getElem? hf) hp, fun e' he' hp' => ?_⟩
      have hflag := hs.flushing_of_pending (List.mem_of_getElem? hf) hp
      have hbehind : e' ∈ s.unclaimed := by
        rw [unclaimed, hflag, if_pos rfl, ← hs.full f (List.mem_of_getElem? hf) hp]
        exact he'
      have hlt := (hc.lt_of_batches horder hf he).2 e' hbehind (hep.trans hp'.symm)
      omega

/-- Two batches of one partition.  The first commit of the first batch fails, and two events arrive
before the second attempt. -/
def retriedCommit : List Action :=
  let first := [eventAt 0 "0", eventAt 0 "1", eventAt 0 "2"]
  let second := [eventAt 0 "3", eventAt 0 "9", eventAt 0 "10"]
  let saved (events : List BufferedEvent) := events.map fun e => (repoCreate e).stored e.offset
  first.map BufferedEvent.arrival ++ [.saveResolved 0 (saved first), .commitRejected 0] ++
    (second.take 2).map BufferedEvent.arrival ++
    [.timeout 0, .saveResolved 0 (saved first), .commitResolved 0] ++
    (second.drop 2).map BufferedEvent.arrival ++ [.saveResolved 1 (saved second)]

theorem commits_advance_retriedCommit : ∃ h s,
    (orderService.restrict noShutdown).run OrderService.fresh retriedCommit = some (s, h) ∧
      commitsOf h 0 = [(0, 3), (0, 3), (1, 11)] ∧ CommitsAdvance h s := by
  have hrun := (rfl : (orderService.restrict noShutdown).run OrderService.fresh retriedCommit
    = some (_, _))
  exact ⟨_, _, hrun, by decide, commits_advance (Machine.reaches_of_run hrun) (by decide)⟩

end RedisApi
