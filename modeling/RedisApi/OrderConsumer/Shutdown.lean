import RedisApi.OrderConsumer.Redelivery

/-!
# Shutdown

`onModuleDestroy` flushes what is buffered, once, without looking at `flushing`.  So a shutdown can
meet a flush that is still suspended and start a second one; both then hold the same prefix of the
buffer, and each splices a prefix of that length off when it ends.

With at most `batchSize` events buffered both batches are the whole buffer: whichever flush ends
first empties it, and the other splices nothing (`Closing`).  With more, the second splice takes
events that no flush has tried to save, and what lies behind them stays.

* `shutdown_drains` — the orderly case, over every run before and after the shutdown.
* `shutdown_discards` — seven buffered events behind a suspended flush.
-/

namespace RedisApi

open Core OrderService World

/-! ## Statement -/

/-- Every event taken off the buffer was in the batch of the flush that took it. -/
def RemovedByOwner (h : List Observation) : Prop :=
  ∀ i batch removed, .splice i batch removed ∈ serviceOutputs h → ∀ e ∈ removed, e ∈ batch

/-- Before `onModuleDestroy` is called. -/
def beforeShutdown (_ : World) : Event → Bool
  | .shutdown => false
  | _ => true

/-- After it has been called: it is not called again, and the process stays up.  An event arrives
only while at most one flush is in progress and `flushing` says whether one is. -/
def afterShutdown (w : World) : Event → Bool
  | .shutdown | .crash => false
  | .deliver _ => w.service.inProgress = if w.service.flushing then 1 else 0
  | _ => true

lemma RemovedByOwner.append {h obs : List Observation} (hh : RemovedByOwner h)
    (hobs : RemovedByOwner obs) : RemovedByOwner (h ++ obs) := by
  intro i batch removed hmem
  rw [serviceOutputs_append] at hmem
  rcases List.mem_append.mp hmem with hmem | hmem
  · exact hh i batch removed hmem
  · exact hobs i batch removed hmem

lemma RemovedByOwner.of_no_splice {obs : List Observation}
    (hno : ∀ i batch removed, .splice i batch removed ∉ serviceOutputs obs) :
    RemovedByOwner obs :=
  fun i batch removed hmem => absurd hmem (hno i batch removed)

lemma RemovedByOwner.finish {s : OrderService} {i : ℕ} {f : Flush} {how : Await}
    {obs : List Observation} (hobs : serviceOutputs obs = (s.finish i f how).2)
    (hown : ∀ e ∈ s.buffer.take f.batch.length, e ∈ f.batch) : RemovedByOwner obs := by
  intro j batch removed hmem
  rw [hobs] at hmem
  simp only [OrderService.finish, List.mem_cons, Output.splice.injEq, List.mem_map, reduceCtorEq,
    and_false, exists_false, or_false] at hmem
  rw [hmem.2.1, hmem.2.2]
  exact hown

/-! ## A service that is closing -/

/-- **The invariant of an orderly shutdown.**  Either every suspended flush holds the whole buffer
as its batch, or the buffer is empty already and the remaining flushes have nothing to splice. -/
inductive Closing (s : OrderService) : Prop
  | flushingAll (flag : s.flushing = true) (pending : 0 < s.inProgress)
      (batch : ∀ f ∈ s.flushes, f.pending = true → f.batch = s.buffer) : Closing s
  | drained (flag : s.flushing = false) (buffer : s.buffer = []) : Closing s

namespace Closing

variable {s s' : OrderService} {i : ℕ} {f f' : Flush} {how : Await}

lemma buffer_eq_nil (hs : Closing s) (hzero : s.inProgress = 0) : s.buffer = [] := by
  cases hs with
  | flushingAll _ hpos _ => omega
  | drained _ hbuf => exact hbuf

lemma oneFlush (hs : Closing s) (hcount : s.inProgress = if s.flushing then 1 else 0) :
    OneFlush s := by
  refine ⟨hcount, fun f hf hp => ?_⟩
  cases hs with
  | flushingAll _ _ hbatch =>
      rw [hbatch f hf hp, List.take_length]
  | drained hflag _ =>
      rw [hflag, if_neg (by simp), inProgress, List.countP_eq_zero] at hcount
      exact absurd hp (hcount f hf)

lemma move (hs : Closing s) (hm : Moves s i f f') : Closing (s.move i f') := by
  cases hs with
  | flushingAll hflag hpos hbatch =>
      refine flushingAll hflag ?_ (forall_mem_set hbatch fun _ => ?_)
      · have hcount := countP_set_add (p := Flush.pending) hm.at_i f'
        rw [hm.pending, hm.pending'] at hcount
        rw [inProgress] at hpos ⊢
        rw [move_flushes]
        omega
      · rw [hm.batch]
        exact hbatch f (List.mem_of_getElem? hm.at_i) hm.pending
  | drained hflag hbuf => exact drained hflag hbuf

/-- The flush that ends empties the buffer. -/
lemma finish (hs : Closing s) (hi : s.flushes[i]? = some f) (hp : f.pending = true) :
    Closing (s.finish i f how).1 := by
  refine drained rfl ?_
  show s.buffer.drop f.batch.length = []
  cases hs with
  | flushingAll _ _ hbatch =>
      rw [hbatch f (List.mem_of_getElem? hi) hp, List.drop_length]
  | drained _ hbuf => rw [hbuf, List.drop_nil]

lemma removed_subset (hs : Closing s) (hi : s.flushes[i]? = some f) (hp : f.pending = true) :
    ∀ e ∈ s.buffer.take f.batch.length, e ∈ f.batch := by
  intro e he
  cases hs with
  | flushingAll _ _ hbatch =>
      rw [hbatch f (List.mem_of_getElem? hi) hp]
      exact List.mem_of_mem_take he
  | drained _ hbuf =>
      rw [hbuf, List.take_nil] at he
      exact absurd he List.not_mem_nil

/-- **`onModuleDestroy` on a buffer of at most one batch.** -/
theorem onModuleDestroy (hs : SingleFlush s) (hle : s.buffer.length ≤ batchSize) :
    Closing s.onModuleDestroy.1 := by
  have hwhole : s.buffer.take batchSize = s.buffer := List.take_of_length_le hle
  simp only [OrderService.onModuleDestroy]
  split_ifs with hpos
  · refine flushingAll rfl ?_ ?_
    · show 0 < (s.flushes ++ [_]).countP Flush.pending
      rw [List.countP_append]
      exact Nat.lt_add_left _ Nat.zero_lt_one
    · intro f hf hp
      show f.batch = s.buffer
      rcases List.mem_append.mp hf with hf | hf
      · rw [(hs.batch_eq hf hp).1, hwhole]
      · rw [List.mem_singleton.mp hf]
        exact hwhole
  · have hnil : s.buffer = [] := List.length_eq_zero_iff.mp (by omega)
    refine drained ?_ hnil
    -- a suspended flush would have a full batch at the head of the empty buffer
    by_contra hflag
    have hone := hs.count
    rw [if_pos (by simpa using hflag), inProgress] at hone
    obtain ⟨f, hf, hp⟩ := List.countP_pos_iff.mp (by rw [hone]; exact Nat.zero_lt_one)
    have hfull := hs.batch_eq hf hp
    rw [hnil, List.take_nil] at hfull
    rw [hfull.1] at hfull
    exact absurd hfull.2 (by simp [batchSize])

end Closing

/-! ## Runs -/

section runs

variable {w w' : World} {ev : Event} {obs : List Observation}

/-- Before the shutdown. -/
lemma removedByOwner_before (hs : SingleFlush w.service) (hev : ev ≠ .shutdown)
    (hstep : w.step ev = some (w', obs)) : RemovedByOwner obs := by
  rcases service_of_step hstep with ⟨a, hsvc, ha, -, -⟩ | ⟨-, -, rfl⟩
  · cases step_cases hsvc with
    | received dto context heq =>
        refine RemovedByOwner.of_no_splice fun i batch removed => ?_
        rw [show serviceOutputs obs = _ from congrArg Prod.snd heq]
        exact (createFromEvent_buffer _ _ _).2.2.2 i batch removed
    | shutDown heq => exact absurd (ha rfl) hev
    | moved i f f' heq hm hq =>
        exact RemovedByOwner.of_no_splice fun i batch removed hmem =>
          (hq _ hmem).2 i batch removed rfl
    | ended i f how hi hp hhow heq =>
        refine RemovedByOwner.finish (congrArg Prod.snd heq) fun e he => ?_
        rwa [hs.removed_eq hi hp] at he
  · exact RemovedByOwner.of_no_splice (by simp [serviceOutputs])

/-- After it: the service is closing, or, once it has drained and events arrive again, back to one
flush at a time. -/
lemma closing_step (hs : OneFlush w.service ∨ Closing w.service)
    (hguard : afterShutdown w ev = true) (hstep : w.step ev = some (w', obs)) :
    RemovedByOwner obs ∧ (OneFlush w'.service ∨ Closing w'.service) ∧
      (delivered obs = [] → Closing w.service → Closing w'.service) := by
  rcases service_of_step hstep with ⟨a, hsvc, ha, harr, -⟩ | ⟨rfl, -, -⟩
  · cases step_cases hsvc with
    | received dto context heq =>
        obtain ⟨e, rfl⟩ := harr dto context rfl
        have hone : OneFlush w.service :=
          hs.elim id fun hc => hc.oneFlush (by simpa [afterShutdown] using hguard)
        have hbuf := createFromEvent_buffer w.service dto context
        rw [← heq] at hbuf
        refine ⟨RemovedByOwner.of_no_splice hbuf.2.2.2, Or.inl ?_, fun hno => ?_⟩
        · rw [show w'.service = _ from congrArg Prod.fst heq]
          exact hone.createFromEvent dto context
        · rw [delivered, hbuf.2.1] at hno
          exact absurd hno (by simp)
    | shutDown heq =>
        rw [ha rfl] at hguard
        exact absurd hguard (by simp [afterShutdown])
    | moved i f f' heq hm hq =>
        rw [heq]
        refine ⟨RemovedByOwner.of_no_splice fun i batch removed hmem =>
          (hq _ hmem).2 i batch removed rfl, ?_, fun _ hc => hc.move hm⟩
        exact hs.imp (fun hone => hone.move hm) fun hc => hc.move hm
    | ended i f how hi hp hhow heq =>
        have hfinish : w'.service = _ := congrArg Prod.fst heq
        rw [hfinish]
        refine ⟨RemovedByOwner.finish (congrArg Prod.snd heq) fun e he => ?_, ?_,
          fun _ hc => hc.finish hi hp⟩
        · rcases hs with hone | hc
          · rwa [hone.removed_eq hi hp] at he
          · exact hc.removed_subset hi hp e he
        · exact hs.imp (fun hone => hone.finish hi hp hhow) fun hc => hc.finish hi hp
  · exact absurd hguard (by simp [afterShutdown])

end runs

/-- **An orderly shutdown.**  In whatever state `onModuleDestroy` is called with at most `batchSize`
events buffered, and whatever succeeds or fails before and after: every event is taken off the
buffer by the flush whose batch it is in, and when all flushes have ended, with no further
arrivals, the buffer is empty. -/
theorem shutdown_drains {orders : OrdersTable} {committed : ℕ → ℕ} {h obs h' : List Observation}
    {w w₁ w₂ : World}
    (hr : (consumer.restrict beforeShutdown).Reaches (World.start orders committed) h w)
    (hle : w.service.buffer.length ≤ batchSize)
    (hcall : consumer.step w .shutdown = some (w₁, obs))
    (hr' : (consumer.restrict afterShutdown).Reaches w₁ h' w₂) :
    RemovedByOwner (h ++ obs ++ h') ∧
      (delivered h' = [] → w₂.service.inProgress = 0 → w₂.service.buffer = []) := by
  have hbefore : SingleFlush w.service ∧ RemovedByOwner h := by
    refine hr.invariant (I := fun h w => SingleFlush w.service ∧ RemovedByOwner h) ?_ ?_
    · exact ⟨SingleFlush.fresh, RemovedByOwner.of_no_splice (by simp [serviceOutputs])⟩
    · rintro h w ev w' obs - ⟨hs, hown⟩ hstep
      obtain ⟨hguard, hstep⟩ := Machine.restrict_step.mp hstep
      have hev : ev ≠ .shutdown := by
        rintro rfl
        exact absurd hguard (by simp [beforeShutdown])
      exact ⟨singleFlush_step hs hev hstep, hown.append (removedByOwner_before hs hev hstep)⟩
  obtain ⟨s, out, hdestroy, rfl, rfl⟩ := step_shutdown hcall
  have hclosing : Closing s := by
    rw [show s = _ from congrArg Prod.fst hdestroy]
    exact Closing.onModuleDestroy hbefore.1 hle
  have hcallOwn : RemovedByOwner (out.map .service) := by
    refine RemovedByOwner.of_no_splice fun i batch removed => ?_
    rw [serviceOutputs_map, show out = _ from congrArg Prod.snd hdestroy]
    simp only [OrderService.onModuleDestroy]
    split_ifs <;> simp [OrderService.flush]
  have hafter : RemovedByOwner h' ∧ (OneFlush w₂.service ∨ Closing w₂.service) ∧
      (delivered h' = [] → Closing w₂.service) := by
    refine hr'.invariant (I := fun h w => RemovedByOwner h ∧
      (OneFlush w.service ∨ Closing w.service) ∧ (delivered h = [] → Closing w.service)) ?_ ?_
    · exact ⟨RemovedByOwner.of_no_splice (by simp [serviceOutputs]), Or.inr hclosing,
        fun _ => hclosing⟩
    · rintro h w ev w' obs - ⟨hown, hs, hdrain⟩ hstep
      obtain ⟨hguard, hstep⟩ := Machine.restrict_step.mp hstep
      obtain ⟨hown', hs', hdrain'⟩ := closing_step hs hguard hstep
      refine ⟨hown.append hown', hs', fun hno => ?_⟩
      rw [delivered_append, List.append_eq_nil_iff] at hno
      exact hdrain' hno.2 (hdrain hno.1)
  exact ⟨(hbefore.2.append hcallOwn).append hafter.1,
    fun hno hzero => (hafter.2.2 hno).buffer_eq_nil hzero⟩

/-- A batch whose first `save` has failed. -/
def inBackoff : List Event :=
  [.deliver (eventAt 0 "0"), .deliver (eventAt 0 "1"), .deliver (eventAt 0 "2"), .saveFail 0]

/-- The shutdown's flush saves the batch first; the older one is refused until it gives up. -/
def overtaken : List Event :=
  [.saveOk 1, .commitOk 1, .timeout 0, .saveFail 0, .timeout 0, .saveFail 0, .timeout 0,
    .saveFail 0, .timeout 0, .saveFail 0, .timeout 0]

theorem shutdown_drains_overtaken : ∃ w h w₁ obs w₂ h',
    (consumer.restrict beforeShutdown).run (World.start OrdersTable.empty fun _ => 0) inBackoff
        = some (w, h) ∧
      consumer.step w .shutdown = some (w₁, obs) ∧
      (consumer.restrict afterShutdown).run w₁ overtaken = some (w₂, h') ∧
      w₂.service.inProgress = 0 ∧ RemovedByOwner (h ++ obs ++ h') ∧ w₂.service.buffer = [] := by
  have hrun := (rfl : (consumer.restrict beforeShutdown).run
    (World.start OrdersTable.empty fun _ => 0) inBackoff = some (_, _))
  refine ⟨_, _, _, _, _, _, hrun, rfl, rfl, rfl, ?_⟩
  have hdrains := shutdown_drains (Machine.reaches_of_run hrun) (by decide) rfl
    (@Machine.reaches_of_run _ _ _ _ overtaken _ _ _ rfl)
  exact ⟨hdrains.1, hdrains.2 rfl rfl⟩

/-- Four more events arrive while the first batch is being saved. -/
def behindFlush : List Event :=
  [.deliver (eventAt 0 "0"), .deliver (eventAt 0 "1"), .deliver (eventAt 0 "2"),
    .deliver (eventAt 0 "3"), .deliver (eventAt 0 "4"), .deliver (eventAt 0 "5"),
    .deliver (eventAt 0 "6")]

/-- The first flush succeeds; the shutdown's flush of the same batch is refused five times. -/
def bothEnd : List Event :=
  [.saveOk 0, .commitOk 0, .saveFail 1, .timeout 1, .saveFail 1, .timeout 1, .saveFail 1,
    .timeout 1, .saveFail 1, .timeout 1, .saveFail 1, .timeout 1]

/-- **A shutdown behind a suspended flush discards events.**  The shutdown's flush takes the fourth
to sixth event off the buffer, which no flush has tried to save, and the seventh stays. -/
theorem shutdown_discards : ∃ w h w₁ obs w₂ h',
    (consumer.restrict beforeShutdown).run (World.start OrdersTable.empty fun _ => 0) behindFlush
        = some (w, h) ∧
      consumer.step w .shutdown = some (w₁, obs) ∧
      ((consumer.restrict afterShutdown).restrict reliable).run w₁ bothEnd = some (w₂, h') ∧
      delivered h' = [] ∧ w₂.service.inProgress = 0 ∧
      ¬ RemovedByOwner (h ++ obs ++ h') ∧ w₂.service.buffer ≠ [] := by
  have hrun := (rfl : (consumer.restrict beforeShutdown).run
    (World.start OrdersTable.empty fun _ => 0) behindFlush = some (_, _))
  refine ⟨_, _, _, _, _, _, hrun, rfl, rfl, rfl, rfl, fun hc => ?_, by decide⟩
  have howner := hc 1 [eventAt 0 "0", eventAt 0 "1", eventAt 0 "2"]
    [eventAt 0 "3", eventAt 0 "4", eventAt 0 "5"] (by decide) (eventAt 0 "3") (by decide)
  exact absurd howner (by decide)

end RedisApi
