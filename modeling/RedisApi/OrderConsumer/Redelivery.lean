import RedisApi.OrderConsumer.AtLeastOnce

/-!
# Redelivery

After a crash between `save` and `commitOffsets` the broker delivers stored events again, and they
may share a batch with events that were never stored.  The unique constraint keeps the table free
of duplicates; the question is what becomes of the rest of the batch.

Everything is decided when the flush starts.  No other flush runs until this one has ended, so the
table stays as it is up to the flush's own `save`: either no key of the batch is taken or occurs
twice, and the first `save` succeeds, or every `save` of the five is refused and the whole batch
is dropped.

* `Succeeding`, `Failing` — the two courses an activation can take.
* `absorbed_iff` — which one it takes.
* `redelivery_drops_batch` — a batch of two redelivered events and a new one.
-/

namespace RedisApi

open Core OrderService World

/-! ## Assumptions -/

/-- `save` fails only where the unique constraint refuses it, `commitOffsets` never fails, and no
shutdown intervenes. -/
def reliable (w : World) : Event → Bool
  | .saveFail i =>
      match w.service.awaiting i .save with
      | none => false
      | some f => (w.orders.save f.orders).isNone
  | .commitFail _ _ => false
  | .shutdown => false
  | _ => true

/-- The process stays up. -/
def noCrash (_ : World) : Event → Bool
  | .crash => false
  | _ => true

/-- Every event of the batch of activation `i` is stored exactly once, and the batch's offsets
have been committed. -/
def Absorbed (i : ℕ) (batch : List BufferedEvent) (h : List Observation) (w : World) : Prop :=
  (∀ e ∈ batch, w.orders.count e.key = 1) ∧ .committed i (commitOffsets batch) ∈ h

/-- No key of the batch is taken, and none occurs twice in it. -/
def AllNew (batch : List BufferedEvent) (t : OrdersTable) : Prop :=
  (batch.map BufferedEvent.key).Nodup ∧ ∀ e ∈ batch, e.key ∉ t.keys

/-- The first `save` of a batch is refused exactly when the batch is not all new. -/
lemma save_repoCreate_eq_none {batch : List BufferedEvent} {t : OrdersTable} :
    t.save (batch.map repoCreate) = none ↔ ¬ AllNew batch t := by
  have hnew : ∀ o ∈ batch.map repoCreate, o.id = none := by
    intro o ho
    obtain ⟨e, -, rfl⟩ := List.mem_map.mp ho
    rfl
  rw [OrdersTable.save_eq_none_iff hnew, List.map_map]
  simp [AllNew, Function.comp_def]

/-! ## Steps of other activations -/

/-- The activation that an event resumes. -/
def Event.resumes : Event → Option ℕ
  | .saveOk i | .saveFail i | .commitOk i | .commitFail i _ | .timeout i => some i
  | .deliver _ | .shutdown | .crash => none

/-- What a step leaves alone, seen from activation `i` that it does not resume. -/
structure Frame (i : ℕ) (w w' : World) (obs : List Observation) : Prop where
  flushes : ∀ g, w.service.flushes[i]? = some g → w'.service.flushes[i]? = some g
  keys : ∀ k ∈ w.orders.keys, k ∈ w'.orders.keys
  committed : ∀ offsets, .committed i offsets ∉ obs
  orders : w'.orders = w.orders ∨ ∃ j f, j ≠ i ∧ w.service.flushes[j]? = some f ∧ f.pending = true

/-- A step of the machine that neither crashes nor resumes activation `i`. -/
theorem frame_of_step {w w' : World} {ev : Event} {obs : List Observation} {i : ℕ}
    (h : w.step ev = some (w', obs)) (hev : ev.resumes ≠ some i) (hcrash : ev ≠ .crash) :
    Frame i w w' obs := by
  have set_ne : ∀ {j f g}, j ≠ i → w.service.flushes[i]? = some g →
      (w.service.flushes.set j f)[i]? = some g := by
    intro j f g hj hg
    rw [List.getElem?_set_ne hj, hg]
  cases ev with
  | deliver e =>
      obtain ⟨s, out, hcall, rfl, rfl⟩ := step_deliver h
      refine ⟨fun g hg => ?_, fun k hk => hk, by simp, Or.inl rfl⟩
      show s.flushes[i]? = some g
      have hflushes := createFromEvent_flushes w.service e.dto e.context
      rw [← hcall] at hflushes
      rcases hflushes with hfl | hfl
      · rw [hfl, hg]
      · rw [hfl]
        exact getElem?_append_of_some hg _
  | shutdown =>
      obtain ⟨s, out, hcall, rfl, rfl⟩ := step_shutdown h
      refine ⟨fun g hg => ?_, fun k hk => hk, by simp, Or.inl rfl⟩
      show s.flushes[i]? = some g
      simp only [OrderService.onModuleDestroy] at hcall
      split_ifs at hcall <;> obtain ⟨rfl, rfl⟩ := Prod.mk.injEq .. ▸ hcall
      · exact getElem?_append_of_some hg _
      · exact hg
  | saveOk j =>
      have hj : j ≠ i := fun hc => hev (congrArg some hc)
      obtain ⟨f, t, saved, hf, hsave, rfl, rfl⟩ := step_saveOk h
      refine ⟨fun g hg => set_ne hj hg, keys_subset_of_save hsave, by simp [afterSave], Or.inr ?_⟩
      exact ⟨j, f, hj, pending_of_awaiting hf rfl⟩
  | saveFail j =>
      have hj : j ≠ i := fun hc => hev (congrArg some hc)
      obtain ⟨f, hf, rfl, rfl⟩ := step_saveFail h
      exact ⟨fun g hg => set_ne hj hg, fun k hk => hk, by simp [caught], Or.inl rfl⟩
  | commitOk j =>
      have hj : j ≠ i := fun hc => hev (congrArg some hc)
      obtain ⟨f, hf, rfl, rfl⟩ := step_commitOk h
      exact ⟨fun g hg => set_ne hj hg, fun k hk => hk, by simp [hj.symm], Or.inl rfl⟩
  | commitFail j applied =>
      have hj : j ≠ i := fun hc => hev (congrArg some hc)
      obtain ⟨f, hf, rfl, -, hown⟩ := step_commitFail h
      refine ⟨fun g hg => set_ne hj hg, ?_, ?_, Or.inl ?_⟩
      · cases applied <;> exact fun k hk => hk
      · exact fun offsets hmem => hj (hown i offsets hmem).symm
      · cases applied <;> rfl
  | timeout j =>
      have hj : j ≠ i := fun hc => hev (congrArg some hc)
      obtain ⟨f, hf, rfl, rfl⟩ := step_timeout h
      refine ⟨fun g hg => ?_, fun k hk => hk, by simp, Or.inl rfl⟩
      show (w.service.afterDelay j f).1.flushes[i]? = some g
      simp only [afterDelay]
      split_ifs <;> exact set_ne hj hg
  | crash => exact absurd rfl hcrash

/-! ## The two courses of an activation -/

/-- Activation `i` will absorb its batch: all new before its `save`, stored after it, and committed
by the time it has ended. -/
def Succeeding (i : ℕ) (batch : List BufferedEvent) (h : List Observation) (w : World) : Prop :=
  ∃ g, w.service.flushes[i]? = some g ∧ g.batch = batch ∧
    ((g.await = .save ∧ g.orders = batch.map repoCreate ∧ AllNew batch w.orders) ∨
      ((∀ e ∈ batch, e.key ∈ w.orders.keys) ∧
        (g.await = .commitOffsets ∨
          (g.await = .batchSaved ∧ .committed i (commitOffsets batch) ∈ h))))

/-- Activation `i` will drop its batch: it never gets past `save`, and commits nothing. -/
def Failing (i : ℕ) (batch : List BufferedEvent) (h : List Observation) (w : World) : Prop :=
  (∀ offsets, .committed i offsets ∉ h) ∧ ¬ AllNew batch w.orders ∧
    ∃ g, w.service.flushes[i]? = some g ∧ g.batch = batch ∧ g.orders = batch.map repoCreate ∧
      (g.await = .save ∨ g.await = .delay ∨ g.await = .deadLettered)

section courses

variable {w w' : World} {ev : Event} {obs h : List Observation} {i : ℕ}
  {batch : List BufferedEvent}

/-- An event that resumes activation `i` finds it at the `await` it is about. -/
lemma awaiting_of_flushes {a : Await} {f g : Flush} (hf : w.service.awaiting i a = some f)
    (hg : w.service.flushes[i]? = some g) : f = g ∧ g.await = a := by
  obtain ⟨hi, hawait⟩ := awaiting_eq_some.mp hf
  have heq : f = g := Option.some.inj (hi.symm.trans hg)
  exact ⟨heq, heq ▸ hawait⟩

lemma getElem?_set_at {f g : Flush} {l : List Flush} (hg : l[i]? = some g) :
    (l.set i f)[i]? = some f := by
  rw [getElem?_set_of_some hg, if_pos rfl]

theorem Succeeding.step (hsucc : Succeeding i batch h w) (hs : SingleFlush w.service)
    (hrel : reliable w ev = true) (hcrash : ev ≠ .crash) (hstep : w.step ev = some (w', obs)) :
    Succeeding i batch (h ++ obs) w' := by
  obtain ⟨g, hg, hbatch, hphase⟩ := hsucc
  by_cases hev : ev.resumes = some i
  · cases ev with
    | saveOk j =>
        obtain rfl : j = i := Option.some.inj hev
        obtain ⟨f, t, saved, hf, hsave, rfl, -⟩ := step_saveOk hstep
        obtain ⟨rfl, hawait⟩ := awaiting_of_flushes hf hg
        rcases hphase with ⟨-, horders, -⟩ | ⟨-, hc | ⟨hc, -⟩⟩
        · refine ⟨_, getElem?_set_at hg, hbatch, Or.inr ⟨?_, Or.inl rfl⟩⟩
          intro e he
          refine OrdersTable.mem_keys_of_save ?_ hsave (repoCreate e) ?_
          · rw [horders]
            intro o ho hid
            obtain ⟨d, -, rfl⟩ := List.mem_map.mp ho
            exact absurd hid (by simp)
          · rw [horders]
            exact List.mem_map_of_mem he
        · exact absurd (hawait.symm.trans hc) (by simp)
        · exact absurd (hawait.symm.trans hc) (by simp)
    | saveFail j =>
        obtain rfl : j = i := Option.some.inj hev
        obtain ⟨f, hf, -, -⟩ := step_saveFail hstep
        obtain ⟨rfl, hawait⟩ := awaiting_of_flushes hf hg
        rcases hphase with ⟨-, horders, hnew⟩ | ⟨-, hc | ⟨hc, -⟩⟩
        · -- `save` is not refused on a batch that is all new
          simp only [reliable, hf, horders, Option.isNone_iff_eq_none] at hrel
          exact absurd hnew (save_repoCreate_eq_none.mp hrel)
        · exact absurd (hawait.symm.trans hc) (by simp)
        · exact absurd (hawait.symm.trans hc) (by simp)
    | commitOk j =>
        obtain rfl : j = i := Option.some.inj hev
        obtain ⟨f, hf, rfl, rfl⟩ := step_commitOk hstep
        obtain ⟨rfl, hawait⟩ := awaiting_of_flushes hf hg
        rcases hphase with ⟨hc, -⟩ | ⟨hst, -⟩
        · exact absurd (hawait.symm.trans hc) (by simp)
        · exact ⟨_, getElem?_set_at hg, hbatch, Or.inr ⟨hst, Or.inr ⟨rfl, by simp [hbatch]⟩⟩⟩
    | commitFail j applied => exact absurd hrel (by simp [reliable])
    | timeout j =>
        obtain rfl : j = i := Option.some.inj hev
        obtain ⟨f, hf, -, -⟩ := step_timeout hstep
        obtain ⟨rfl, hawait⟩ := awaiting_of_flushes hf hg
        rcases hphase with ⟨hc, -⟩ | ⟨-, hc | ⟨hc, -⟩⟩ <;>
          exact absurd (hawait.symm.trans hc) (by simp)
    | _ => exact absurd hev (by simp [Event.resumes])
  · have hframe := frame_of_step hstep hev hcrash
    refine ⟨g, hframe.flushes g hg, hbatch, ?_⟩
    rcases hphase with ⟨hawait, horders, hnew⟩ | ⟨hst, hc | ⟨hawait, hmem⟩⟩
    · -- nobody else writes to the table while this activation is suspended
      have hsame : w'.orders = w.orders := by
        rcases hframe.orders with heq | ⟨j, f, hj, hf, hp⟩
        · exact heq
        · exact absurd (hs.unique hf hp hg (by rw [Flush.pending, hawait]; rfl)) hj
      exact Or.inl ⟨hawait, horders, hsame ▸ hnew⟩
    · exact Or.inr ⟨fun e he => hframe.keys _ (hst e he), Or.inl hc⟩
    · exact Or.inr ⟨fun e he => hframe.keys _ (hst e he),
        Or.inr ⟨hawait, List.mem_append_left _ hmem⟩⟩

theorem Failing.step (hfail : Failing i batch h w) (hcrash : ev ≠ .crash)
    (hstep : w.step ev = some (w', obs)) : Failing i batch (h ++ obs) w' := by
  obtain ⟨hnone, hnew, g, hg, hbatch, horders, hphase⟩ := hfail
  have hquiet : (∀ offsets, .committed i offsets ∉ obs) →
      ∀ offsets, .committed i offsets ∉ h ++ obs := by
    intro hobs offsets hmem
    rcases List.mem_append.mp hmem with hmem | hmem
    · exact hnone offsets hmem
    · exact hobs offsets hmem
  by_cases hev : ev.resumes = some i
  · cases ev with
    | saveOk j =>
        obtain rfl : j = i := Option.some.inj hev
        obtain ⟨f, t, saved, hf, hsave, -, -⟩ := step_saveOk hstep
        obtain ⟨rfl, -⟩ := awaiting_of_flushes hf hg
        rw [horders, save_repoCreate_eq_none.mpr hnew] at hsave
        exact absurd hsave (by simp)
    | saveFail j =>
        obtain rfl : j = i := Option.some.inj hev
        obtain ⟨f, hf, rfl, rfl⟩ := step_saveFail hstep
        obtain ⟨rfl, -⟩ := awaiting_of_flushes hf hg
        exact ⟨hquiet (by simp), hnew, _, getElem?_set_at hg, hbatch, horders, Or.inr (Or.inl rfl)⟩
    | commitOk j =>
        obtain rfl : j = i := Option.some.inj hev
        obtain ⟨f, hf, -, -⟩ := step_commitOk hstep
        obtain ⟨rfl, hawait⟩ := awaiting_of_flushes hf hg
        rcases hphase with hc | hc | hc <;> exact absurd (hawait.symm.trans hc) (by simp)
    | commitFail j applied =>
        obtain rfl : j = i := Option.some.inj hev
        obtain ⟨f, hf, -⟩ := step_commitFail hstep
        obtain ⟨rfl, hawait⟩ := awaiting_of_flushes hf hg
        rcases hphase with hc | hc | hc <;> exact absurd (hawait.symm.trans hc) (by simp)
    | timeout j =>
        obtain rfl : j = i := Option.some.inj hev
        obtain ⟨f, hf, rfl, rfl⟩ := step_timeout hstep
        obtain ⟨rfl, -⟩ := awaiting_of_flushes hf hg
        simp only [afterDelay]
        refine ⟨hquiet (by simp), ?_⟩
        split_ifs
        · exact ⟨hnew, _, getElem?_set_at hg, hbatch, horders, Or.inl rfl⟩
        · exact ⟨hnew, _, getElem?_set_at hg, hbatch, horders, Or.inr (Or.inr rfl)⟩
    | _ => exact absurd hev (by simp [Event.resumes])
  · have hframe := frame_of_step hstep hev hcrash
    refine ⟨hquiet hframe.committed, ?_, g, hframe.flushes g hg, hbatch, horders, hphase⟩
    exact fun hc => hnew ⟨hc.1, fun e he hk => hc.2 e he (hframe.keys _ hk)⟩

/-- The step that starts an activation leaves the table alone; its batch is not empty. -/
lemma opened_of_step {f : Flush} (hstep : w.step ev = some (w', obs))
    (hopen : w'.service.flushes = w.service.flushes ++ [f]) :
    w'.orders = w.orders ∧ f.orders = f.batch.map repoCreate ∧ f.await = .save ∧
      f.batch ≠ [] := by
  have longer : w'.service.flushes.length = w.service.flushes.length + 1 := by
    rw [hopen, List.length_append, List.length_singleton]
  cases ev with
  | deliver e =>
      obtain ⟨s, out, hcall, -, rfl⟩ := step_deliver hstep
      have hflushes := createFromEvent_flushes w.service e.dto e.context
      rw [← hcall] at hflushes
      rcases hflushes with hfl | hfl
      · rw [show s.flushes = _ from hfl] at longer
        omega
      · rw [show s.flushes = _ from hfl, List.append_cancel_left_eq, List.cons.injEq] at hopen
        rw [← hopen.1]
        exact ⟨rfl, rfl, rfl, by simp [batchSize]⟩
  | shutdown =>
      obtain ⟨s, out, hcall, -, rfl⟩ := step_shutdown hstep
      simp only [OrderService.onModuleDestroy] at hcall
      split_ifs at hcall with hbuffer <;> obtain ⟨rfl, -⟩ := Prod.mk.injEq .. ▸ hcall
      · simp only [List.append_cancel_left_eq, List.cons.injEq, and_true] at hopen
        rw [← hopen]
        exact ⟨rfl, rfl, rfl, by simpa [batchSize] using List.ne_nil_of_length_pos hbuffer⟩
      · exact absurd longer (by simp)
  | saveOk j =>
      obtain ⟨f, t, saved, -, -, rfl, -⟩ := step_saveOk hstep
      exact absurd longer (by simp [afterSave])
  | saveFail j =>
      obtain ⟨f, -, rfl, -⟩ := step_saveFail hstep
      exact absurd longer (by simp [caught])
  | commitOk j =>
      obtain ⟨f, -, rfl, -⟩ := step_commitOk hstep
      exact absurd longer (by simp [finish])
  | commitFail j applied =>
      obtain ⟨f, -, rfl, -⟩ := step_commitFail hstep
      exact absurd longer (by simp [caught])
  | timeout j =>
      obtain ⟨f, -, rfl, -⟩ := step_timeout hstep
      simp only [afterDelay] at longer
      split_ifs at longer
      · exact absurd longer (by simp)
      · exact absurd longer (by simp [finish])
  | crash =>
      obtain ⟨rfl, -⟩ := Prod.mk.injEq .. ▸ Option.some.inj hstep
      exact absurd longer (by simp [OrderService.fresh])

lemma reliable_ne_shutdown (hrel : reliable w ev = true) : ev ≠ .shutdown := by
  rintro rfl
  exact absurd hrel (by simp [reliable])

lemma noCrash_ne_crash (hup : noCrash w ev = true) : ev ≠ .crash := by
  rintro rfl
  exact absurd hup (by simp [noCrash])

end courses

/-! ## Every flush -/

/-- One flush at a time, in every run under the assumptions. -/
lemma singleFlush_of_reaches {orders : OrdersTable} {committed : ℕ → ℕ} {h : List Observation}
    {w : World} (hr : (consumer.restrict reliable).Reaches (World.start orders committed) h w) :
    SingleFlush w.service := by
  refine hr.stateInvariant (I := fun w => SingleFlush w.service) SingleFlush.fresh ?_
  intro w ev w' obs hs hstep
  obtain ⟨hrel, hstep⟩ := Machine.restrict_step.mp hstep
  exact singleFlush_step hs (reliable_ne_shutdown hrel) hstep

/-- **When a batch is absorbed.**  Whatever the table holds and whatever is delivered: a flush that
has ended has stored each event of its batch exactly once and committed the batch's offsets if and
only if, when it started, no event of the batch had a row and no two of them were the same. -/
theorem absorbed_iff {orders : OrdersTable} {committed : ℕ → ℕ} {h obs h' : List Observation}
    {w w₁ w₂ : World} {ev : Event} {f g : Flush}
    (hr : (consumer.restrict reliable).Reaches (World.start orders committed) h w)
    (hstart : (consumer.restrict reliable).step w ev = some (w₁, obs))
    (hopen : w₁.service.flushes = w.service.flushes ++ [f])
    (hr' : ((consumer.restrict reliable).restrict noCrash).Reaches w₁ h' w₂)
    (hg : w₂.service.flushes[w.service.flushes.length]? = some g) (hend : g.pending = false) :
    Absorbed w.service.flushes.length f.batch h' w₂ ↔ AllNew f.batch w.orders := by
  obtain ⟨hrel, hstep⟩ := Machine.restrict_step.mp hstart
  have hs := singleFlush_step (singleFlush_of_reaches hr) (reliable_ne_shutdown hrel) hstep
  obtain ⟨hsame, horders, hawait, -⟩ := opened_of_step hstep hopen
  have hf : w₁.service.flushes[w.service.flushes.length]? = some f := by
    rw [hopen, List.getElem?_concat_length]
  by_cases hnew : AllNew f.batch w.orders
  · have hrun : SingleFlush w₂.service ∧
        Succeeding w.service.flushes.length f.batch h' w₂ := by
      refine hr'.invariant (I := fun h w' => SingleFlush w'.service ∧
        Succeeding w.service.flushes.length f.batch h w') ?_ ?_
      · exact ⟨hs, f, hf, rfl, Or.inl ⟨hawait, horders, hsame ▸ hnew⟩⟩
      · rintro h w ev w' obs - ⟨hs, hsucc⟩ hstep
        obtain ⟨hup, hstep⟩ := Machine.restrict_step.mp hstep
        obtain ⟨hrel, hstep⟩ := Machine.restrict_step.mp hstep
        exact ⟨singleFlush_step hs (reliable_ne_shutdown hrel) hstep,
          hsucc.step hs hrel (noCrash_ne_crash hup) hstep⟩
    refine iff_of_true ?_ hnew
    obtain ⟨-, g', hg', -, hphase⟩ := hrun
    obtain rfl : g = g' := Option.some.inj (hg.symm.trans hg')
    rcases hphase with ⟨hc, -⟩ | ⟨hst, hc | ⟨-, hmem⟩⟩
    · exact absurd hend (by simp [Flush.pending, hc, Await.pending])
    · exact absurd hend (by simp [Flush.pending, hc, Await.pending])
    · exact ⟨fun e he => OrdersTable.count_eq_one.mpr (hst e he), hmem⟩
  · have hfail : Failing w.service.flushes.length f.batch h' w₂ := by
      refine hr'.invariant (I := fun h w' =>
        Failing w.service.flushes.length f.batch h w') ?_ ?_
      · exact ⟨by simp, hsame ▸ hnew, f, hf, rfl, horders, Or.inl hawait⟩
      · rintro h w ev w' obs - hfail hstep
        obtain ⟨hup, hstep⟩ := Machine.restrict_step.mp hstep
        exact hfail.step (noCrash_ne_crash hup) (Machine.restrict_step.mp hstep).2
    exact iff_of_false (fun habs => hfail.1 _ habs.2) hnew

/-! ### A crash between `save` and `commitOffsets` -/

/-- A batch is saved, the process dies before the commit, and on the restart the events of another
partition come first. -/
def replaySchedule : List Event :=
  [.deliver (eventAt 0 "0"), .deliver (eventAt 0 "1"), .deliver (eventAt 0 "2"), .saveOk 0, .crash,
    .deliver (eventAt 1 "0"), .deliver (eventAt 0 "0")]

/-- All five attempts. -/
def refusedSchedule : List Event :=
  [.saveFail 0, .timeout 0, .saveFail 0, .timeout 0, .saveFail 0, .timeout 0,
    .saveFail 0, .timeout 0, .saveFail 0, .timeout 0]

/-- **A redelivered event takes the others of its batch with it**: the event of partition 1 was
never stored, and is dropped. -/
theorem redelivery_drops_batch : ∃ w h w₁ obs w₂ h' f g,
    (consumer.restrict reliable).run (World.start OrdersTable.empty fun _ => 0) replaySchedule
        = some (w, h) ∧
      (consumer.restrict reliable).step w (.deliver (eventAt 0 "1")) = some (w₁, obs) ∧
      w₁.service.flushes = w.service.flushes ++ [f] ∧
      ((consumer.restrict reliable).restrict noCrash).run w₁ refusedSchedule = some (w₂, h') ∧
      w₂.service.flushes[w.service.flushes.length]? = some g ∧ g.pending = false ∧
      eventAt 1 "0" ∈ f.batch ∧ (eventAt 1 "0").key ∉ w₂.orders.keys ∧
      ¬ Absorbed w.service.flushes.length f.batch h' w₂ := by
  have hrun := (rfl : (consumer.restrict reliable).run
    (World.start OrdersTable.empty fun _ => 0) replaySchedule = some (_, _))
  refine ⟨_, _, _, _, _, _, _, _, hrun, rfl, rfl, rfl, rfl, rfl, by decide, by decide, ?_⟩
  rintro ⟨hone, -⟩
  exact absurd (hone (eventAt 1 "0") (by decide)) (by decide)

/-- The batch is saved, an event arrives, and the commit returns. -/
def absorbedSchedule : List Event := [.saveOk 0, .deliver (eventAt 0 "0"), .commitOk 0]

theorem absorbed_iff_new_batch : ∃ w h w₁ obs w₂ h' f g,
    (consumer.restrict reliable).run (World.start OrdersTable.empty fun _ => 0)
        [.deliver (eventAt 1 "0"), .deliver (eventAt 1 "1")] = some (w, h) ∧
      (consumer.restrict reliable).step w (.deliver (eventAt 1 "2")) = some (w₁, obs) ∧
      w₁.service.flushes = w.service.flushes ++ [f] ∧
      ((consumer.restrict reliable).restrict noCrash).run w₁ absorbedSchedule = some (w₂, h') ∧
      w₂.service.flushes[w.service.flushes.length]? = some g ∧ g.pending = false ∧
      (Absorbed w.service.flushes.length f.batch h' w₂ ↔ AllNew f.batch w.orders) := by
  have hrun := (rfl : (consumer.restrict reliable).run (World.start OrdersTable.empty fun _ => 0)
    [.deliver (eventAt 1 "0"), .deliver (eventAt 1 "1")] = some (_, _))
  refine ⟨_, _, _, _, _, _, _, _, hrun, rfl, rfl, rfl, rfl, rfl, ?_⟩
  apply absorbed_iff (Machine.reaches_of_run hrun)
  case hstart => exact (rfl : (consumer.restrict reliable).step _ (.deliver (eventAt 1 "2")) = _)
  case hopen => rfl
  case hr' => exact @Machine.reaches_of_run _ _ _ _ absorbedSchedule _ _ _ rfl
  case hg => rfl
  case hend => rfl

end RedisApi
