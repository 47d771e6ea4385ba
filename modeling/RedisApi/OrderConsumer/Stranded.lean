import RedisApi.OrderConsumer.Batching

/-!
# Full batches that wait

Only an arrival starts a flush, and a flush takes one batch.  Events that arrive while a flush is in
progress are buffered and start nothing; if as many as a batch of them have arrived when it ends,
they wait, a full batch, for the next event to arrive.

* `keepsUp` — no flush is met by as many arrivals as fill a batch.
* `KeptUp` — what then holds of the buffer, idle or not.
* `Behind` — the buffer has outgrown the flush; it stays so until the flush ends, and then a full
  batch waits.
* `nothing_stranded_iff` — in the runs that keep up a full batch never waits; and the condition is
  exact, since a run that ends with no flush in progress and strands nothing has kept up.
-/

namespace RedisApi

open Core OrderService

/-- A full batch does not wait: with no flush in progress, and so no call of `createFromEvent`
pending, fewer than `batchSize` events are buffered. -/
def NothingStranded (s : OrderService) : Prop := s.inProgress = 0 → s.buffer.length < batchSize

/-- An event that arrives during a flush leaves less than a full batch behind the one that is being
flushed. -/
def keepsUp (s : OrderService) : Action → Bool
  | .createFromEvent _ _ => !s.flushing || decide (s.buffer.length + 1 < 2 * batchSize)
  | _ => true

/-! ## What a step does to buffer and flag -/

/-- Buffer and flag around a step: an event arrives, nothing happens to them, or a flush ends and
takes its batch. -/
inductive BufferStep (s s' : OrderService) : Action → Prop
  | arrived (dto : InventoryEventDto) (context : KafkaContext)
      (length : s'.buffer.length = s.buffer.length + 1)
      (flag : s'.flushing = (s.flushing || decide (batchSize ≤ s'.buffer.length))) :
      BufferStep s s' (.createFromEvent dto context)
  | unchanged {a : Action} (length : s'.buffer.length = s.buffer.length)
      (flag : s'.flushing = s.flushing) : BufferStep s s' a
  | flushed {a : Action} (length : s.buffer.length = s'.buffer.length + batchSize)
      (busy : s.flushing = true) (flag : s'.flushing = false) : BufferStep s s' a

lemma createFromEvent_bufferStep (s : OrderService) (dto : InventoryEventDto)
    (context : KafkaContext) :
    (s.createFromEvent dto context).1.buffer.length = s.buffer.length + 1 ∧
      (s.createFromEvent dto context).1.flushing =
        (s.flushing || decide (batchSize ≤ (s.createFromEvent dto context).1.buffer.length)) := by
  have hlength : (s.createFromEvent dto context).1.buffer.length = s.buffer.length + 1 := by
    rw [(createFromEvent_buffer s dto context).1, List.length_append, List.length_singleton]
  refine ⟨hlength, ?_⟩
  rw [hlength]
  simp only [OrderService.createFromEvent, List.length_append, List.length_singleton]
  split_ifs with hfull
  · show true = _
    rw [hfull.2, decide_eq_true hfull.1, Bool.or_true]
  · show s.flushing = _
    cases hflag : s.flushing with
    | true => rfl
    | false =>
        have hroom : ¬ batchSize ≤ s.buffer.length + 1 := fun hc => hfull ⟨hc, hflag⟩
        rw [decide_eq_false hroom, Bool.or_false]

lemma SingleFlush.bufferStep {s s' : OrderService} {a : Action} {out : List Output}
    (hs : SingleFlush s) (h : (orderService.restrict noShutdown).step s a = some (s', out)) :
    BufferStep s s' a := by
  obtain ⟨hg, h⟩ := Machine.restrict_step.mp h
  cases step_cases h with
  | received dto context heq =>
      obtain ⟨rfl, -⟩ := Prod.mk.injEq .. ▸ heq
      obtain ⟨hlength, hflag⟩ := createFromEvent_bufferStep s dto context
      exact .arrived dto context hlength hflag
  | shutDown heq => exact absurd hg (by simp [noShutdown])
  | moved i f f' heq hm hq =>
      subst heq
      exact .unchanged rfl rfl
  | ended i f how hi hp hhow heq =>
      obtain ⟨rfl, -⟩ := Prod.mk.injEq .. ▸ heq
      have hf := List.mem_of_getElem? hi
      obtain ⟨hbatch, hlen⟩ := hs.batch_eq hf hp
      refine .flushed ?_ (hs.flushing_of_pending hf hp) rfl
      show s.buffer.length = (s.buffer.drop f.batch.length).length + batchSize
      -- the batch is a full one, so the buffer is at least as long
      have htake : (s.buffer.take batchSize).length = batchSize := hbatch ▸ hlen
      rw [List.length_take] at htake
      rw [hlen, List.length_drop]
      omega

/-- The flag tells whether a flush is in progress. -/
lemma OneFlush.idle_iff {s : OrderService} (hs : OneFlush s) :
    s.inProgress = 0 ↔ s.flushing = false := by
  rw [hs.count]
  cases s.flushing <;> simp

/-! ## Runs that keep up -/

/-- **The invariant of a run that keeps up.** -/
structure KeptUp (s : OrderService) : Prop extends SingleFlush s where
  idle : s.flushing = false → s.buffer.length < batchSize
  busy : s.flushing = true → s.buffer.length < 2 * batchSize

lemma KeptUp.fresh : KeptUp OrderService.fresh :=
  ⟨SingleFlush.fresh, fun _ => by decide, fun _ => by decide⟩

theorem KeptUp.step {s s' : OrderService} {a : Action} {out : List Output} (hs : KeptUp s)
    (h : ((orderService.restrict noShutdown).restrict keepsUp).step s a = some (s', out)) :
    KeptUp s' := by
  obtain ⟨hkeeps, h⟩ := Machine.restrict_step.mp h
  refine ⟨hs.toSingleFlush.step h, ?_, ?_⟩
  · intro hidle
    cases hs.bufferStep h with
    | arrived dto context hlength hflag =>
        -- the flag stays down only where the batch is not full yet
        rw [hflag, Bool.or_eq_false_iff, decide_eq_false_iff_not] at hidle
        omega
    | unchanged hlength hflag =>
        rw [hlength]
        exact hs.idle (hflag.symm.trans hidle)
    | flushed hlength hbusy hflag =>
        have hfits := hs.busy hbusy
        omega
  · intro hbusy
    cases hs.bufferStep h with
    | arrived dto context hlength hflag =>
        rw [hlength]
        cases hbefore : s.flushing with
        | false =>
            have hfits := hs.idle hbefore
            omega
        | true =>
            rw [keepsUp, hbefore] at hkeeps
            exact of_decide_eq_true hkeeps
    | unchanged hlength hflag =>
        rw [hlength]
        exact hs.busy (hflag.symm.trans hbusy)
    | flushed hlength hbefore hflag => exact absurd (hflag.symm.trans hbusy) (by simp)

lemma KeptUp.nothingStranded {s : OrderService} (hs : KeptUp s) : NothingStranded s :=
  fun hidle => hs.idle (hs.idle_iff.mp hidle)

theorem keptUp_of_reaches {h : List Output} {s : OrderService}
    (hr : ((orderService.restrict noShutdown).restrict keepsUp).Reaches OrderService.fresh h s) :
    KeptUp s :=
  hr.stateInvariant KeptUp.fresh fun _ _ _ _ hs hstep => hs.step hstep

/-! ## Runs that do not -/

/-- Behind the batch that is being flushed a full one is waiting already. -/
structure Behind (s : OrderService) : Prop where
  busy : s.flushing = true
  backlog : 2 * batchSize ≤ s.buffer.length

/-- An event that does not keep up gets the buffer behind. -/
lemma behind_of_not_keepsUp {s s' : OrderService} {a : Action} {out : List Output}
    (hkeeps : keepsUp s a = false)
    (h : (orderService.restrict noShutdown).step s a = some (s', out)) : Behind s' := by
  cases a with
  | createFromEvent dto context =>
      obtain ⟨hlength, hflag⟩ := createFromEvent_bufferStep s dto context
      have heq : s.createFromEvent dto context = (s', out) :=
        Option.some.inj (Machine.restrict_step.mp h).2
      rw [heq] at hlength hflag
      dsimp only at hlength hflag
      rw [keepsUp, Bool.or_eq_false_iff, Bool.not_eq_false', decide_eq_false_iff_not] at hkeeps
      refine ⟨?_, by omega⟩
      rw [hflag, hkeeps.1, Bool.true_or]
  | onModuleDestroy | saveResolved | saveRejected | commitResolved | commitRejected | timeout =>
      exact absurd hkeeps (by simp [keepsUp])

/-- The buffer stays behind until the flush ends, and then a full batch waits. -/
lemma Behind.step {s s' : OrderService} {a : Action} {out : List Output} (hb : Behind s)
    (hs : SingleFlush s) (h : (orderService.restrict noShutdown).step s a = some (s', out)) :
    Behind s' ∨ ¬ NothingStranded s' := by
  have hbacklog := hb.backlog
  cases hs.bufferStep h with
  | arrived dto context hlength hflag =>
      refine Or.inl ⟨?_, by omega⟩
      rw [hflag, hb.busy, Bool.true_or]
  | unchanged hlength hflag => exact Or.inl ⟨hflag.trans hb.busy, by omega⟩
  | flushed hlength hbusy hflag =>
      refine Or.inr fun hnone => ?_
      have hroom := hnone ((hs.step h).idle_iff.mpr hflag)
      omega

/-- No state that the schedule leads to has a full batch waiting. -/
def NeverStrands (as : List Action) : Prop :=
  ∀ p t g, p <+: as →
    (orderService.restrict noShutdown).run OrderService.fresh p = some (t, g) → NothingStranded t

lemma NeverStrands.of_concat {as : List Action} {a : Action} (hs : NeverStrands (as ++ [a])) :
    NeverStrands as :=
  fun p t g hp hrun => hs p t g (hp.trans (List.prefix_append as [a])) hrun

/-- **Every schedule** keeps up, or is behind in the end, or has stranded a full batch. -/
theorem keepsUp_or_behind_or_strands {as : List Action} {h : List Output} {s : OrderService}
    (hrun : (orderService.restrict noShutdown).run OrderService.fresh as = some (s, h)) :
    ((orderService.restrict noShutdown).restrict keepsUp).run OrderService.fresh as =
      some (s, h) ∨ Behind s ∨ ¬ NeverStrands as := by
  refine (Machine.run_invariant (I := fun as h s =>
    (orderService.restrict noShutdown).run OrderService.fresh as = some (s, h) ∧
      (((orderService.restrict noShutdown).restrict keepsUp).run OrderService.fresh as =
        some (s, h) ∨ Behind s ∨ ¬ NeverStrands as)) ⟨rfl, Or.inl rfl⟩ ?_ hrun).2
  intro as h s a s' out hi hstep
  obtain ⟨hrun, hi⟩ := hi
  have hrun' := Machine.run_concat hrun hstep
  have hs : SingleFlush s := (singleFlush_fifo (Machine.reaches_of_run hrun)).1
  refine ⟨hrun', ?_⟩
  rcases hi with hkept | hbehind | hstrands
  · cases hkeeps : keepsUp s a with
    | true =>
        exact Or.inl (Machine.run_concat hkept (Machine.restrict_step.mpr ⟨hkeeps, hstep⟩))
    | false => exact Or.inr (Or.inl (behind_of_not_keepsUp hkeeps hstep))
  · rcases hbehind.step hs hstep with hbehind' | hfull
    · exact Or.inr (Or.inl hbehind')
    · exact Or.inr (Or.inr fun hnone => hfull (hnone _ s' _ (List.prefix_refl _) hrun'))
  · exact Or.inr (Or.inr fun hnone => hstrands hnone.of_concat)

/-! ## The result -/

/-- **No full batch is stranded where arrivals keep up, and nowhere else.**  In a schedule all of
whose arrivals keep up, however saves and commits fail, fewer than `batchSize` events are buffered
in every state without a flush in progress.  And a schedule that ends in such a state and strands
nothing on the way is one all of whose arrivals keep up. -/
theorem nothing_stranded_iff {as : List Action} {h : List Output} {s : OrderService}
    (hrun : (orderService.restrict noShutdown).run OrderService.fresh as = some (s, h)) :
    (((orderService.restrict noShutdown).restrict keepsUp).run OrderService.fresh as =
      some (s, h) → NeverStrands as) ∧
    (s.inProgress = 0 → NeverStrands as →
      ((orderService.restrict noShutdown).restrict keepsUp).run OrderService.fresh as =
        some (s, h)) := by
  constructor
  · intro hkept p t g hp hprun
    obtain ⟨t', g', hp'⟩ := Machine.exists_run_of_prefix hkept hp
    obtain ⟨rfl, rfl⟩ := Prod.mk.inj (Option.some.inj
      (hprun.symm.trans (Machine.run_of_restrict hp')))
    exact (keptUp_of_reaches (Machine.reaches_of_run hp')).nothingStranded
  · intro hidle hnone
    rcases keepsUp_or_behind_or_strands hrun with hkept | hbehind | hstrands
    · exact hkept
    · -- a buffer that is behind is being flushed
      have hs : SingleFlush s := (singleFlush_fifo (Machine.reaches_of_run hrun)).1
      exact absurd ((hs.idle_iff.mp hidle).symm.trans hbehind.busy) (by simp)
    · exact absurd hnone hstrands

/-- Activation `0` saves its orders and commits their offsets. -/
def flushed (offsets : List String) : List Action :=
  [.saveResolved 0 (offsets.mapIdx fun id n => (repoCreate (eventAt 0 n)).stored id),
    .commitResolved 0]

/-- Two events arrive during the flush of the first three. -/
def twoBehind : List Action :=
  (["0", "1", "2", "3", "4"].map fun n => (eventAt 0 n).arrival) ++ flushed ["0", "1", "2"]

theorem nothing_stranded_twoBehind : ∃ s h,
    (orderService.restrict noShutdown).run OrderService.fresh twoBehind = some (s, h) ∧
      s.inProgress = 0 ∧ s.buffer.length = 2 ∧ NothingStranded s := by
  have hkept := (rfl : ((orderService.restrict noShutdown).restrict keepsUp).run
    OrderService.fresh twoBehind = some (_, _))
  have hrun := Machine.run_of_restrict hkept
  have hnone := (nothing_stranded_iff hrun).1 hkept
  exact ⟨_, _, hrun, rfl, rfl, hnone _ _ _ (List.prefix_refl _) hrun⟩

/-- Three events arrive during the flush of the first three. -/
def threeBehind : List Action :=
  (["0", "1", "2", "3", "4", "5"].map fun n => (eventAt 0 n).arrival) ++ flushed ["0", "1", "2"]

/-- They are a full batch, and stay in the buffer with no flush in progress. -/
theorem stranded_threeBehind :
    ¬ ∀ h s, (orderService.restrict noShutdown).Reaches OrderService.fresh h s →
      s.inProgress = 0 → s.buffer.length < batchSize := by
  intro hnone
  have hrun := (rfl : (orderService.restrict noShutdown).run OrderService.fresh threeBehind =
    some (_, _))
  have hroom := hnone _ _ (Machine.reaches_of_run hrun) rfl
  exact absurd hroom (by decide)

end RedisApi
