import RedisApi.OrderConsumer.OrderService

/-!
# Batching: one flush at a time, every event once, in order

While no shutdown intervenes, `createFromEvent` is the only caller of `flush`, and it looks at
`flushing` first.  Two facts follow and carry everything else about the service:

* `OneFlush` — at most one activation of `flush` is suspended, `flushing` says whether, and its
  batch is still the head of the buffer, since nothing but its own `splice` shortens the buffer
  (`SingleFlush`: and the batch is a full one);
* `Fifo` — so the splice removes exactly the batch, and what was removed followed by what is
  buffered is what was received.

Both are shown for one step and then for every run.
-/

namespace RedisApi

open Core OrderService

/-- No `onModuleDestroy`. -/
def noShutdown (_ : OrderService) : Action → Bool
  | .onModuleDestroy => false
  | _ => true

/-- How many activations of `flush` have not returned. -/
def OrderService.inProgress (s : OrderService) : ℕ := s.flushes.countP Flush.pending

/-! ## Outputs that concern the buffer -/

/-- The events received, in order. -/
def receivedEvents (h : List Output) : List BufferedEvent :=
  h.filterMap fun
    | .received e => some e
    | _ => none

/-- The stretches removed from the buffer, in order. -/
def removedBatches (h : List Output) : List (List BufferedEvent) :=
  h.filterMap fun
    | .splice _ _ removed => some removed
    | _ => none

lemma receivedEvents_append (h out : List Output) :
    receivedEvents (h ++ out) = receivedEvents h ++ receivedEvents out := List.filterMap_append

lemma removedBatches_append (h out : List Output) :
    removedBatches (h ++ out) = removedBatches h ++ removedBatches out := List.filterMap_append

lemma receivedEvents_quiet {out : List Output} (hq : Quiet out) : receivedEvents out = [] := by
  rw [receivedEvents, List.filterMap_eq_nil_iff]
  intro o ho
  cases o with
  | received e => exact absurd rfl ((hq _ ho).1 e)
  | _ => rfl

lemma removedBatches_quiet {out : List Output} (hq : Quiet out) : removedBatches out = [] := by
  rw [removedBatches, List.filterMap_eq_nil_iff]
  intro o ho
  cases o with
  | splice i b r => exact absurd rfl ((hq _ ho).2 i b r)
  | _ => rfl

/-- What `createFromEvent` does to the buffer: one arrival, at the end, and no removal. -/
lemma createFromEvent_buffer (s : OrderService) (dto : InventoryEventDto)
    (context : KafkaContext) :
    (s.createFromEvent dto context).1.buffer = s.buffer ++ [⟨dto, context⟩] ∧
      receivedEvents (s.createFromEvent dto context).2 = [⟨dto, context⟩] ∧
      removedBatches (s.createFromEvent dto context).2 = [] ∧
      ∀ i b r, Output.splice i b r ∉ (s.createFromEvent dto context).2 := by
  simp only [OrderService.createFromEvent]
  split_ifs
  · exact ⟨rfl, rfl, rfl, by simp [OrderService.flush]⟩
  · exact ⟨rfl, rfl, rfl, by simp⟩

/-- What `createFromEvent` does to the activations: it starts one, or leaves them alone. -/
lemma createFromEvent_flushes (s : OrderService) (dto : InventoryEventDto)
    (context : KafkaContext) :
    (s.createFromEvent dto context).1.flushes = s.flushes ∨
      (s.createFromEvent dto context).1.flushes = s.flushes ++
        [{ batch := (s.buffer ++ [BufferedEvent.mk dto context]).take batchSize
           orders := ((s.buffer ++ [BufferedEvent.mk dto context]).take batchSize).map
             repoCreate
           attempt := 1
           await := .save
           caller := some context }] := by
  simp only [OrderService.createFromEvent]
  split_ifs
  · exact Or.inr rfl
  · exact Or.inl rfl

/-- What `finish` emits about the buffer: one removal, and no arrival. -/
lemma finish_outputs (s : OrderService) (i : ℕ) (f : Flush) (how : Await) :
    receivedEvents (s.finish i f how).2 = [] ∧
      removedBatches (s.finish i f how).2 = [s.buffer.take f.batch.length] := by
  simp only [finish]
  cases f.caller <;> exact ⟨rfl, rfl⟩

/-! ## The single flush -/

/-- **The invariant of the flag.**  At most one activation is suspended, `flushing` says whether
one is, and its batch is still the head of the buffer. -/
structure OneFlush (s : OrderService) : Prop where
  count : s.inProgress = if s.flushing then 1 else 0
  head : ∀ f ∈ s.flushes, f.pending = true → f.batch = s.buffer.take f.batch.length

namespace OneFlush

variable {s s' : OrderService} {i : ℕ} {f : Flush}

lemma fresh : OneFlush OrderService.fresh :=
  ⟨rfl, fun _ hf => absurd hf List.not_mem_nil⟩

/-- While the flag is down nothing is suspended. -/
lemma not_pending (hs : OneFlush s) (hflag : s.flushing = false) :
    ∀ f ∈ s.flushes, f.pending = false := by
  intro f hf
  have hcount := hs.count
  rw [hflag, if_neg (by simp), inProgress, List.countP_eq_zero] at hcount
  exact Bool.eq_false_iff.mpr (hcount f hf)

/-- A suspended activation keeps the flag up. -/
lemma flushing_of_pending (hs : OneFlush s) (hf : f ∈ s.flushes) (hp : f.pending = true) :
    s.flushing = true := by
  by_contra hflag
  have := hs.not_pending (Bool.eq_false_iff.mpr hflag) f hf
  exact absurd (hp.symm.trans this) (by simp)

/-- There is only one suspended activation. -/
lemma unique (hs : OneFlush s) {j : ℕ} {g : Flush} (hi : s.flushes[i]? = some f)
    (hp : f.pending = true) (hj : s.flushes[j]? = some g) (hq : g.pending = true) : i = j := by
  by_contra hne
  -- with `i` taken out nothing would be left, but `j` is
  have hcount := countP_set_add (p := Flush.pending) hi { f with await := .batchSaved }
  have hle : s.flushes.countP Flush.pending ≤ 1 := by
    have := hs.count
    rw [inProgress] at this
    split_ifs at this <;> omega
  have hmem : g ∈ s.flushes.set i { f with await := .batchSaved } :=
    List.mem_of_getElem? (by rw [List.getElem?_set_ne hne, hj])
  have hpos := List.countP_pos_iff.mpr ⟨g, hmem, hq⟩
  rw [hp, if_pos rfl] at hcount
  rw [show Flush.pending { f with await := .batchSaved } = false from rfl,
    if_neg (by simp)] at hcount
  omega

lemma push (hs : OneFlush s) (e : BufferedEvent) :
    OneFlush { s with buffer := s.buffer ++ [e] } := by
  refine ⟨hs.count, fun f hf hp => ?_⟩
  -- the batch lies inside the old buffer, so pushing behind it leaves the head alone
  have hle : f.batch.length ≤ s.buffer.length := by
    rw [hs.head f hf hp, List.length_take]
    exact min_le_right _ _
  show f.batch = (s.buffer ++ [e]).take f.batch.length
  rw [List.take_append_of_le_length hle]
  exact hs.head f hf hp

lemma flush (hs : OneFlush s) (hflag : s.flushing = false) (caller : Option KafkaContext) :
    OneFlush (s.flush caller).1 := by
  have hnone := hs.not_pending hflag
  constructor
  · have hzero : s.inProgress = 0 := by rw [hs.count, hflag]; rfl
    rw [inProgress] at hzero ⊢
    simp only [OrderService.flush, List.countP_append, hzero]
    rfl
  · intro g hg hp
    rcases List.mem_append.mp hg with hg | hg
    · exact absurd (hp.symm.trans (hnone g hg)) (by simp)
    · rw [List.mem_singleton.mp hg]
      show s.buffer.take batchSize = s.buffer.take (s.buffer.take batchSize).length
      rw [List.length_take, List.take_eq_take_iff]
      omega

lemma createFromEvent (hs : OneFlush s) (dto : InventoryEventDto) (context : KafkaContext) :
    OneFlush (s.createFromEvent dto context).1 := by
  simp only [OrderService.createFromEvent]
  split_ifs with h
  · exact (hs.push _).flush h.2 _
  · exact hs.push _

lemma move {f' : Flush} (hs : OneFlush s) (hm : Moves s i f f') : OneFlush (s.move i f') := by
  constructor
  · have hcount := countP_set_add (p := Flush.pending) hm.at_i f'
    rw [hm.pending, hm.pending'] at hcount
    have hinp := hs.count
    rw [inProgress] at hinp ⊢
    rw [move_flushes, move_flushing, ← hinp]
    omega
  · intro g hg hp
    rcases List.mem_or_eq_of_mem_set hg with hg | rfl
    · exact hs.head g hg hp
    · rw [hm.batch]
      exact hs.head f (List.mem_of_getElem? hm.at_i) hm.pending

/-- The activation that returns was the only one. -/
lemma finish_not_pending (hs : OneFlush s) (hi : s.flushes[i]? = some f) (hp : f.pending = true)
    {how : Await} (hhow : how.pending = false) : (s.finish i f how).1.inProgress = 0 := by
  have hflag := hs.flushing_of_pending (List.mem_of_getElem? hi) hp
  have hcount := countP_set_add (p := Flush.pending) hi { f with await := how }
  have hone : s.flushes.countP Flush.pending = 1 := by
    have := hs.count
    rw [hflag] at this
    exact this
  rw [hp, show Flush.pending { f with await := how } = false from hhow] at hcount
  simp only [if_true, Bool.false_eq_true, if_false] at hcount
  show (s.flushes.set i { f with await := how }).countP Flush.pending = 0
  omega

lemma finish (hs : OneFlush s) (hi : s.flushes[i]? = some f) (hp : f.pending = true)
    {how : Await} (hhow : how.pending = false) : OneFlush (s.finish i f how).1 := by
  have hzero := hs.finish_not_pending hi hp hhow
  refine ⟨hzero, fun g hg hpg => ?_⟩
  exact absurd hpg (List.countP_eq_zero.mp hzero g hg)

/-- What the activation that returns splices off is its own batch. -/
lemma removed_eq (hs : OneFlush s) (hi : s.flushes[i]? = some f) (hp : f.pending = true) :
    s.buffer.take f.batch.length = f.batch :=
  (hs.head f (List.mem_of_getElem? hi) hp).symm

end OneFlush

/-- Without a shutdown the batch of the suspended activation is a full one. -/
structure SingleFlush (s : OrderService) : Prop extends OneFlush s where
  full : ∀ f ∈ s.flushes, f.pending = true → f.batch.length = batchSize

namespace SingleFlush

variable {s s' : OrderService} {i : ℕ} {f : Flush}

lemma fresh : SingleFlush OrderService.fresh :=
  ⟨OneFlush.fresh, fun _ hf => absurd hf List.not_mem_nil⟩

/-- The batch is the first `batchSize` events of the buffer. -/
lemma batch_eq (hs : SingleFlush s) (hf : f ∈ s.flushes) (hp : f.pending = true) :
    f.batch = s.buffer.take batchSize ∧ f.batch.length = batchSize := by
  have hlen := hs.full f hf hp
  have hhead := hs.head f hf hp
  rw [hlen] at hhead
  exact ⟨hhead, hlen⟩

/-- One step. -/
theorem step {a : Action} {out : List Output} (hs : SingleFlush s)
    (h : (orderService.restrict noShutdown).step s a = some (s', out)) : SingleFlush s' := by
  obtain ⟨hg, h⟩ := Machine.restrict_step.mp h
  cases step_cases h with
  | received dto context heq =>
      rw [show s' = _ from congrArg Prod.fst heq]
      refine ⟨hs.toOneFlush.createFromEvent dto context, fun g hg hpg => ?_⟩
      simp only [OrderService.createFromEvent] at hg
      split_ifs at hg with hfull
      · rcases List.mem_append.mp hg with hg | hg
        · exact hs.full g hg hpg
        · -- a flush that `createFromEvent` starts finds enough events
          rw [List.mem_singleton.mp hg]
          exact List.length_take_of_le hfull.1
      · exact hs.full g hg hpg
  | shutDown heq => exact absurd hg (by simp [noShutdown])
  | moved i f f' heq hm hq =>
      subst heq
      refine ⟨hs.toOneFlush.move hm, forall_mem_set hs.full fun _ => ?_⟩
      rw [hm.batch]
      exact hs.full f (List.mem_of_getElem? hm.at_i) hm.pending
  | ended i f how hi hp hhow heq =>
      rw [show s' = _ from congrArg Prod.fst heq]
      refine ⟨hs.toOneFlush.finish hi hp hhow, forall_mem_set hs.full fun hc => ?_⟩
      exact absurd (hc.symm.trans hhow) (by simp)

end SingleFlush

/-! ## First in, first out -/

/-- **Removed and buffered events are the received ones, in order**, and every removal took one
full batch, the one of the activation that removed it. -/
structure Fifo (h : List Output) (s : OrderService) : Prop where
  in_order : (removedBatches h).flatten ++ s.buffer = receivedEvents h
  full : ∀ b ∈ removedBatches h, b.length = batchSize
  own : ∀ i b r, Output.splice i b r ∈ h → r = b

/-- One step, from a state with a single flush. -/
theorem Fifo.step {h : List Output} {s s' : OrderService} {a : Action} {out : List Output}
    (hf : Fifo h s) (hs : SingleFlush s)
    (hstep : (orderService.restrict noShutdown).step s a = some (s', out)) :
    Fifo (h ++ out) s' := by
  obtain ⟨hg, hstep⟩ := Machine.restrict_step.mp hstep
  cases step_cases hstep with
  | received dto context heq =>
      -- an arrival: it is received and it is buffered, at the end of both lists
      have hbuf := createFromEvent_buffer s dto context
      rw [← heq] at hbuf
      obtain ⟨hb, hrec, hrem, hno⟩ := hbuf
      refine ⟨?_, ?_, ?_⟩
      · rw [removedBatches_append, receivedEvents_append, hrem, hrec, hb, List.append_nil,
          ← List.append_assoc, hf.in_order]
      · rw [removedBatches_append, hrem, List.append_nil]
        exact hf.full
      · intro i b r hmem
        rcases List.mem_append.mp hmem with hmem | hmem
        · exact hf.own i b r hmem
        · exact absurd hmem (hno i b r)
  | shutDown heq => exact absurd hg (by simp [noShutdown])
  | moved i f f' heq hm hq =>
      subst heq
      refine ⟨?_, ?_, ?_⟩
      · rw [removedBatches_append, receivedEvents_append, removedBatches_quiet hq,
          receivedEvents_quiet hq, List.append_nil, List.append_nil]
        exact hf.in_order
      · rw [removedBatches_append, removedBatches_quiet hq, List.append_nil]
        exact hf.full
      · intro j b r hmem
        rcases List.mem_append.mp hmem with hmem | hmem
        · exact hf.own j b r hmem
        · exact absurd rfl ((hq _ hmem).2 j b r)
  | ended i f how hi hp hhow heq =>
      have hown := hs.removed_eq hi hp
      have hlen := hs.full f (List.mem_of_getElem? hi) hp
      obtain ⟨hrec, hrem⟩ := finish_outputs s i f how
      have hout : out = _ := congrArg Prod.snd heq
      rw [← hout] at hrec hrem
      refine ⟨?_, ?_, ?_⟩
      · rw [removedBatches_append, receivedEvents_append, hrec, hrem, List.append_nil,
          List.flatten_append, List.append_assoc, ← hf.in_order,
          show s'.buffer = _ from congrArg (fun r => r.1.buffer) heq]
        simp [OrderService.finish]
      · rw [removedBatches_append, hrem]
        intro b hb
        rcases List.mem_append.mp hb with hb | hb
        · exact hf.full b hb
        · rw [List.mem_singleton.mp hb, hown, hlen]
      · intro j b r hmem
        rcases List.mem_append.mp hmem with hmem | hmem
        · exact hf.own j b r hmem
        · rw [hout] at hmem
          simp only [OrderService.finish, List.mem_cons, Output.splice.injEq, List.mem_map,
            reduceCtorEq, and_false, exists_false, or_false] at hmem
          rw [hmem.2.2, hmem.2.1, hown]

/-! ## Every run -/

/-- Every run keeps both. -/
theorem singleFlush_fifo {h : List Output} {s : OrderService}
    (hr : (orderService.restrict noShutdown).Reaches OrderService.fresh h s) :
    SingleFlush s ∧ Fifo h s := by
  refine hr.invariant (I := fun h s => SingleFlush s ∧ Fifo h s) ?_ ?_
  · exact ⟨SingleFlush.fresh, rfl, by simp [removedBatches], by simp⟩
  · intro h s a s' out _ hi hstep
    exact ⟨hi.1.step hstep, hi.2.step hi.1 hstep⟩

/-- What holds at every point of a run without a shutdown. -/
structure BatchedInOrder (h : List Output) (s : OrderService) : Prop where
  at_most_one : s.inProgress ≤ 1
  flag : s.flushing = true ↔ s.inProgress = 1
  head : ∀ f ∈ s.flushes, f.pending = true →
    f.batch = s.buffer.take batchSize ∧ f.batch.length = batchSize
  in_order : (removedBatches h).flatten ++ s.buffer = receivedEvents h
  full : ∀ b ∈ removedBatches h, b.length = batchSize
  own : ∀ i b r, Output.splice i b r ∈ h → r = b

/-- The activation that a step starts takes the first `batchSize` events of the buffer as it
stands then. -/
def StartsAtHead (s : OrderService) : Prop :=
  ∀ a s' out f, (orderService.restrict noShutdown).step s a = some (s', out) →
    s'.flushes = s.flushes ++ [f] →
      f.batch = s'.buffer.take batchSize ∧ f.batch.length = batchSize

/-- **Every received event is batched exactly once, in order.**  For every interleaving of calls
of `createFromEvent` with the awaits inside `flush`, and every pattern of failures. -/
theorem batched_in_order {h : List Output} {s : OrderService}
    (hr : (orderService.restrict noShutdown).Reaches OrderService.fresh h s) :
    BatchedInOrder h s ∧ StartsAtHead s := by
  obtain ⟨hs, hf⟩ := singleFlush_fifo hr
  refine ⟨⟨?_, ?_, fun f hf => hs.batch_eq hf, hf.in_order, hf.full, hf.own⟩, ?_⟩
  · rw [hs.count]
    split_ifs <;> omega
  · rw [hs.count]
    cases s.flushing <;> simp
  · intro a s' out f hstep hflushes
    have hs' : SingleFlush s' := hs.step hstep
    -- an activation that has just been appended is pending: only `flush` appends
    have hpending : f.pending = true := by
      obtain ⟨hg, hstep⟩ := Machine.restrict_step.mp hstep
      cases step_cases hstep with
      | received dto context heq =>
          simp only [OrderService.createFromEvent] at heq
          split_ifs at heq <;> obtain ⟨rfl, rfl⟩ := Prod.mk.injEq .. ▸ heq
          · simp only [OrderService.flush, List.append_cancel_left_eq, List.cons.injEq,
              and_true] at hflushes
            rw [← hflushes]
            rfl
          · exact absurd (congrArg List.length hflushes) (by simp)
      | shutDown heq => exact absurd hg (by simp [noShutdown])
      | moved i g g' heq hm hq =>
          subst heq
          exact absurd (congrArg List.length hflushes) (by simp)
      | ended i g how hi hp hhow heq =>
          obtain ⟨rfl, rfl⟩ := Prod.mk.injEq .. ▸ heq
          exact absurd (congrArg List.length hflushes) (by simp)
    exact hs'.batch_eq (by rw [hflushes]; simp) hpending

/-- `createFromEvent` on a buffered event. -/
def BufferedEvent.arrival (e : BufferedEvent) : Action := .createFromEvent e.dto e.context

/-- Three events arrive and fill a batch, a fourth arrives while its first `save` is failing. -/
def backoffSchedule : List Action :=
  [(eventAt 0 "0").arrival, (eventAt 1 "0").arrival, (eventAt 0 "1").arrival,
    .saveRejected 0, (eventAt 0 "2").arrival, .timeout 0]

theorem batched_in_order_backoff : ∃ h s,
    (orderService.restrict noShutdown).run OrderService.fresh backoffSchedule = some (s, h) ∧
      s.inProgress = 1 ∧ s.buffer.length = 4 ∧ BatchedInOrder h s ∧ StartsAtHead s := by
  have hrun := (rfl : (orderService.restrict noShutdown).run OrderService.fresh backoffSchedule
    = some (_, _))
  exact ⟨_, _, hrun, rfl, rfl, batched_in_order (Machine.reaches_of_run hrun)⟩

end RedisApi
