import RedisApi.OrderConsumer.Redelivery

/-!
# What dead-lettered means

`save` and `commitOffsets` share one `try` block, so an attempt may fail with its rows written, and
the next attempt saves the same objects again, which by then have ids.  If no commit succeeds, the
batch is dead-lettered in the end, and its rows stay.

* `Unsaved`, `Saved` — an activation before and after its first successful `save`.
* `honest_iff` — a flush that has ended says what has become of its batch, unless some `save` of it
  succeeded and no commit did.
* `deadLettered_with_rows` — five attempts, of which only the commits fail.
-/

namespace RedisApi

open Core OrderService World

/-! ## What the end of a flush says -/

/-- An order that activation `g` has saved for the event `e` is a row of the table. -/
def WrittenBy (g : Flush) (e : BufferedEvent) (t : OrdersTable) : Prop :=
  ∃ o ∈ g.orders, o.id.isSome ∧ o.key = e.key ∧ o ∈ t.rows

/-- After `'Batch saved'` every event of the batch has exactly one row, and the batch's offsets have
been committed; after `'Batch permanently failed'` the flush has written no row for any of them, and
no commit of the batch has taken effect. -/
structure HonestEnd (i : ℕ) (batch : List BufferedEvent) (h : List Observation) (w : World)
    (g : Flush) : Prop where
  saved : g.await = .batchSaved → Absorbed i batch h w
  deadLettered : g.await = .deadLettered →
    (∀ e ∈ batch, ¬ WrittenBy g e w.orders) ∧ ∀ offsets, .committed i offsets ∉ h

/-! ## Before and after the first successful save -/

/-- No `save` of activation `i` has succeeded: its orders are as they were created. -/
structure Unsaved (i : ℕ) (batch : List BufferedEvent) (events : List Event)
    (h : List Observation) (g : Flush) : Prop where
  no_save : .saveOk i ∉ events
  no_commitOk : .commitOk i ∉ events
  no_commit : ∀ offsets, .committed i offsets ∉ h
  orders : g.orders = batch.map repoCreate
  await : g.await = .save ∨ g.await = .delay ∨ g.await = .deadLettered

/-- A `save` of activation `i` has succeeded: its orders are rows. -/
structure Saved (i : ℕ) (batch : List BufferedEvent) (events : List Event)
    (h : List Observation) (w : World) (g : Flush) : Prop where
  save : .saveOk i ∈ events
  keys : g.orders.map Order.key = batch.map BufferedEvent.key
  rows : ∀ o ∈ g.orders, o.id.isSome ∧ o ∈ w.orders.rows
  commit : .commitOk i ∈ events ↔ g.await = .batchSaved
  committed : g.await = .batchSaved → .committed i (commitOffsets batch) ∈ h

/-- Activation `i` is one or the other. -/
def Course (i : ℕ) (batch : List BufferedEvent) (events : List Event) (h : List Observation)
    (w : World) : Prop :=
  ∃ g, w.service.flushes[i]? = some g ∧ g.batch = batch ∧
    (Unsaved i batch events h g ∨ Saved i batch events h w g)

section course

variable {w w' : World} {ev : Event} {events : List Event} {obs h : List Observation} {i : ℕ}
  {batch : List BufferedEvent} {g : Flush}

/-- No step removes a row. -/
lemma rows_of_step (h : w.step ev = some (w', obs)) :
    ∀ o ∈ w.orders.rows, o ∈ w'.orders.rows := by
  cases ev with
  | deliver e =>
      obtain ⟨s, out, -, -, rfl⟩ := step_deliver h
      exact fun o ho => ho
  | shutdown =>
      obtain ⟨s, out, -, -, rfl⟩ := step_shutdown h
      exact fun o ho => ho
  | saveOk i =>
      obtain ⟨f, t, saved, -, hsave, rfl, -⟩ := step_saveOk h
      exact OrdersTable.rows_subset_of_save hsave
  | saveFail i =>
      obtain ⟨f, -, rfl, -⟩ := step_saveFail h
      exact fun o ho => ho
  | commitOk i =>
      obtain ⟨f, -, rfl, -⟩ := step_commitOk h
      exact fun o ho => ho
  | commitFail i applied =>
      obtain ⟨f, -, rfl, -⟩ := step_commitFail h
      cases applied <;> exact fun o ho => ho
  | timeout i =>
      obtain ⟨f, -, rfl, -⟩ := step_timeout h
      exact fun o ho => ho
  | crash =>
      obtain ⟨rfl, -⟩ := Prod.mk.injEq .. ▸ Option.some.inj h
      exact fun o ho => ho

/-- An activation whose `save` has not succeeded goes on without it. -/
lemma Unsaved.move {g' : Flush} (hu : Unsaved i batch events h g) (horders : g'.orders = g.orders)
    (hawait : g'.await = .save ∨ g'.await = .delay ∨ g'.await = .deadLettered)
    (hsave : ev ≠ .saveOk i) (hcommit : ev ≠ .commitOk i)
    (hobs : ∀ offsets, .committed i offsets ∉ obs) :
    Unsaved i batch (events ++ [ev]) (h ++ obs) g' := by
  refine ⟨?_, ?_, fun offsets hmem => ?_, horders.trans hu.orders, hawait⟩
  · simpa [hsave.symm] using hu.no_save
  · simpa [hcommit.symm] using hu.no_commitOk
  · rcases List.mem_append.mp hmem with hmem | hmem
    · exact hu.no_commit offsets hmem
    · exact hobs offsets hmem

/-- An activation that has saved its orders goes on with them. -/
lemma Saved.move {g' : Flush} (hs : Saved i batch events h w g) (horders : g'.orders = g.orders)
    (hawait : g'.await = .batchSaved ↔ g.await = .batchSaved) (hcommit : ev ≠ .commitOk i)
    (hstep : w.step ev = some (w', obs)) : Saved i batch (events ++ [ev]) (h ++ obs) w' g' := by
  refine ⟨List.mem_append_left _ hs.save, by rw [horders, hs.keys], fun o ho => ?_, ?_, ?_⟩
  · rw [horders] at ho
    exact (hs.rows o ho).imp_right (rows_of_step hstep o)
  · rw [hawait]
    simpa [hcommit.symm] using hs.commit
  · intro hw
    exact List.mem_append_left _ (hs.committed (hawait.mp hw))

/-- A step that does not resume activation `i` leaves its course alone. -/
lemma Course.other (hc : Course i batch events h w) (hev : ev.resumes ≠ some i)
    (hcrash : ev ≠ .crash) (hstep : w.step ev = some (w', obs)) :
    Course i batch (events ++ [ev]) (h ++ obs) w' := by
  obtain ⟨g, hg, hbatch, hcourse⟩ := hc
  have hframe := frame_of_step hstep hev hcrash
  have hsave : ev ≠ .saveOk i := by
    rintro rfl
    exact hev rfl
  have hcommit : ev ≠ .commitOk i := by
    rintro rfl
    exact hev rfl
  refine ⟨g, hframe.flushes g hg, hbatch, hcourse.imp (fun hu => ?_) fun hs => ?_⟩
  · exact hu.move rfl hu.await hsave hcommit hframe.committed
  · exact hs.move rfl Iff.rfl hcommit hstep

/-- A `save` of activation `i` succeeds, the first or a later one. -/
lemma Course.saveOk (hc : Course i batch events h w)
    (hstep : w.step (.saveOk i) = some (w', obs)) :
    Course i batch (events ++ [.saveOk i]) (h ++ obs) w' := by
  obtain ⟨g, hg, hbatch, hcourse⟩ := hc
  obtain ⟨f, t, saved, hf, hsave, rfl, -⟩ := step_saveOk hstep
  obtain ⟨rfl, hawait⟩ := awaiting_of_flushes hf hg
  -- the orders that have an id already are rows already
  have hstored : (∀ o ∈ f.orders, o.id.isSome → o ∈ w.orders.rows) ∧
      f.orders.map Order.key = batch.map BufferedEvent.key ∧ .commitOk i ∉ events := by
    rcases hcourse with hu | hs
    · refine ⟨fun o ho hid => ?_, ?_, hu.no_commitOk⟩
      · rw [hu.orders] at ho
        obtain ⟨e, -, rfl⟩ := List.mem_map.mp ho
        exact absurd hid (by simp)
      · rw [hu.orders, List.map_map]
        rfl
    · refine ⟨fun o ho _ => (hs.rows o ho).2, hs.keys, ?_⟩
      rw [hs.commit, hawait]
      simp
  obtain ⟨hrows, hkeys, hcommit⟩ := hstored
  obtain ⟨-, hsaved, hids⟩ := OrdersTable.save_eq_some hsave
  have hnew := OrdersTable.mem_rows_of_save hrows hsave
  refine ⟨_, getElem?_set_at hg, hbatch, Or.inr ⟨by simp, hsaved.trans hkeys,
    fun o ho => ⟨hids o ho, hnew o ho⟩, ?_, fun hc => absurd hc (by simp)⟩⟩
  exact iff_of_false (by simpa using hcommit) (by simp)

/-- A step that resumes activation `i` takes it on along its course. -/
lemma Course.own (hc : Course i batch events h w) (hev : ev.resumes = some i)
    (hstep : w.step ev = some (w', obs)) : Course i batch (events ++ [ev]) (h ++ obs) w' := by
  have hcourse := hc
  obtain ⟨g, hg, hbatch, hcourse⟩ := hcourse
  cases ev with
  | saveOk j =>
      obtain rfl : j = i := Option.some.inj hev
      exact hc.saveOk hstep
  | saveFail j =>
      obtain rfl : j = i := Option.some.inj hev
      obtain ⟨f, hf, rfl, rfl⟩ := step_saveFail hstep
      obtain ⟨rfl, hawait⟩ := awaiting_of_flushes hf hg
      refine ⟨_, getElem?_set_at hg, hbatch, hcourse.imp (fun hu => ?_) fun hs => ?_⟩
      · exact hu.move rfl (Or.inr (Or.inl rfl)) (by simp) (by simp) (by simp [caught])
      · exact hs.move rfl (by simp [hawait]) (by simp) hstep
  | commitOk j =>
      obtain rfl : j = i := Option.some.inj hev
      obtain ⟨f, hf, rfl, rfl⟩ := step_commitOk hstep
      obtain ⟨rfl, hawait⟩ := awaiting_of_flushes hf hg
      refine ⟨_, getElem?_set_at hg, hbatch, hcourse.elim (fun hu => ?_) fun hs => Or.inr ?_⟩
      · rcases hu.await with hc | hc | hc <;> exact absurd (hawait.symm.trans hc) (by simp)
      · exact ⟨by simp [hs.save], hs.keys, hs.rows, by simp, by simp [hbatch]⟩
  | commitFail j applied =>
      obtain rfl : j = i := Option.some.inj hev
      obtain ⟨f, hf, rfl, -⟩ := step_commitFail hstep
      obtain ⟨rfl, hawait⟩ := awaiting_of_flushes hf hg
      refine ⟨_, getElem?_set_at hg, hbatch, hcourse.elim (fun hu => ?_) fun hs => Or.inr ?_⟩
      · rcases hu.await with hc | hc | hc <;> exact absurd (hawait.symm.trans hc) (by simp)
      · exact hs.move rfl (by simp [hawait]) (by simp) hstep
  | timeout j =>
      obtain rfl : j = i := Option.some.inj hev
      obtain ⟨f, hf, rfl, rfl⟩ := step_timeout hstep
      obtain ⟨rfl, hawait⟩ := awaiting_of_flushes hf hg
      by_cases hleft : f.attempt + 1 ≤ maxRetries
      · simp only [afterDelay, hleft, if_true] at hstep ⊢
        refine ⟨_, getElem?_set_at hg, hbatch, hcourse.imp (fun hu => ?_) fun hs => ?_⟩
        · exact hu.move rfl (Or.inl rfl) (by simp) (by simp) (by simp)
        · exact hs.move rfl (by simp [hawait]) (by simp) hstep
      · simp only [afterDelay, hleft, if_false] at hstep ⊢
        refine ⟨_, getElem?_set_at hg, hbatch, hcourse.imp (fun hu => ?_) fun hs => ?_⟩
        · exact hu.move rfl (Or.inr (Or.inr rfl)) (by simp) (by simp) (by simp)
        · exact hs.move rfl (by simp [hawait]) (by simp) hstep
  | _ => exact absurd hev (by simp [Event.resumes])

end course

/-! ## Every flush -/

/-- The course of an activation, up to any point of the run that follows its start. -/
lemma course_of_run {w w₁ w₂ : World} {ev : Event} {events : List Event}
    {obs h' : List Observation} {f : Flush} (hstart : consumer.step w ev = some (w₁, obs))
    (hopen : w₁.service.flushes = w.service.flushes ++ [f])
    (hrun : (consumer.restrict noCrash).run w₁ events = some (w₂, h')) :
    Course w.service.flushes.length f.batch events h' w₂ := by
  obtain ⟨-, horders, hawait, -⟩ := opened_of_step hstart hopen
  refine Machine.run_invariant (I := fun events h w' =>
    Course w.service.flushes.length f.batch events h w') ?_ ?_ hrun
  · refine ⟨f, by rw [hopen, List.getElem?_concat_length], rfl, Or.inl ?_⟩
    exact ⟨by simp, by simp, by simp, horders, Or.inl hawait⟩
  · intro events h w' ev w'' obs hc hstep
    obtain ⟨hup, hstep⟩ := Machine.restrict_step.mp hstep
    by_cases hev : ev.resumes = some w.service.flushes.length
    · exact hc.own hev hstep
    · exact hc.other hev (noCrash_ne_crash hup) hstep

/-- **When the end of a flush says what has become of the batch.**  For every flush, whatever the
table holds and whatever else runs beside it, and every sequence of outcomes of its attempts: the
end is honest unless some `save` of the flush succeeds and no commit of it does. -/
theorem honest_iff {w w₁ w₂ : World} {ev : Event} {events : List Event} {obs h' : List Observation}
    {f g : Flush} (hstart : consumer.step w ev = some (w₁, obs))
    (hopen : w₁.service.flushes = w.service.flushes ++ [f])
    (hrun : (consumer.restrict noCrash).run w₁ events = some (w₂, h'))
    (hg : w₂.service.flushes[w.service.flushes.length]? = some g) (hend : g.pending = false) :
    HonestEnd w.service.flushes.length f.batch h' w₂ g ↔
      (.saveOk w.service.flushes.length ∈ events →
        .commitOk w.service.flushes.length ∈ events) := by
  obtain ⟨-, -, -, hne⟩ := opened_of_step hstart hopen
  obtain ⟨g', hg', hbatch, hcourse⟩ := course_of_run hstart hopen hrun
  obtain rfl : g = g' := Option.some.inj (hg.symm.trans hg')
  rcases hcourse with hu | hs
  · -- nothing was saved: the orders have no ids
    refine iff_of_true ⟨fun hc => ?_, fun _ => ⟨fun e he hw => ?_, hu.no_commit⟩⟩ fun hc => ?_
    · rcases hu.await with hw | hw | hw <;> exact absurd (hw.symm.trans hc) (by simp)
    · obtain ⟨o, ho, hid, -⟩ := hw
      rw [hu.orders] at ho
      obtain ⟨d, -, rfl⟩ := List.mem_map.mp ho
      exact absurd hid (by simp)
    · exact absurd hc hu.no_save
  · have hstored : ∀ e ∈ f.batch, ∃ o ∈ g.orders, o.key = e.key := by
      intro e he
      have hkey : e.key ∈ g.orders.map Order.key := by
        rw [hs.keys]
        exact List.mem_map_of_mem he
      exact List.mem_map.mp hkey
    cases hawait : g.await with
    | batchSaved =>
        refine iff_of_true
          ⟨fun hc => ⟨fun e he => ?_, hs.committed hc⟩, fun hc => ?_⟩ fun _ => ?_
        · obtain ⟨o, ho, hkey⟩ := hstored e he
          exact OrdersTable.count_eq_one.mpr (hkey ▸ List.mem_map_of_mem (hs.rows o ho).2)
        · exact absurd (hawait.symm.trans hc) (by simp)
        · exact hs.commit.mpr hawait
    | deadLettered =>
        refine iff_of_false (fun hc => ?_) fun hc => ?_
        · obtain ⟨e, he⟩ := List.exists_mem_of_ne_nil _ hne
          obtain ⟨o, ho, hkey⟩ := hstored e he
          exact (hc.deadLettered hawait).1 e he ⟨o, ho, (hs.rows o ho).1, hkey, (hs.rows o ho).2⟩
        · exact absurd (hawait.symm.trans (hs.commit.mp (hc hs.save))) (by simp)
    | _ => exact absurd hend (by simp [Flush.pending, hawait, Await.pending])

/-- Two events are buffered; the third starts a flush. -/
def twoBuffered : List Event := [.deliver (eventAt 0 "0"), .deliver (eventAt 0 "1")]

/-- The first commit fails, the second attempt saves the same orders again and commits. -/
def recommitted : List Event :=
  [.saveOk 0, .commitFail 0 false, .deliver (eventAt 0 "3"), .timeout 0, .saveOk 0, .commitOk 0]

theorem honest_iff_recommitted : ∃ w h w₁ obs w₂ h' f g,
    consumer.run (World.start OrdersTable.empty fun _ => 0) twoBuffered = some (w, h) ∧
      consumer.step w (.deliver (eventAt 0 "2")) = some (w₁, obs) ∧
      w₁.service.flushes = w.service.flushes ++ [f] ∧
      (consumer.restrict noCrash).run w₁ recommitted = some (w₂, h') ∧
      w₂.service.flushes[w.service.flushes.length]? = some g ∧ g.await = .batchSaved ∧
      (HonestEnd w.service.flushes.length f.batch h' w₂ g ↔
        (.saveOk w.service.flushes.length ∈ recommitted →
          .commitOk w.service.flushes.length ∈ recommitted)) := by
  have hrun := (rfl : consumer.run (World.start OrdersTable.empty fun _ => 0) twoBuffered
    = some (_, _))
  refine ⟨_, _, _, _, _, _, _, _, hrun, rfl, rfl, rfl, rfl, rfl, ?_⟩
  apply honest_iff
  case hstart => exact (rfl : consumer.step _ (.deliver (eventAt 0 "2")) = _)
  case hopen => rfl
  case hrun => rfl
  case hg => rfl
  case hend => rfl

/-- Five attempts; every `save` succeeds and every commit fails. -/
def lostCommits : List Event :=
  (List.replicate 5 [.saveOk 0, .commitFail 0 false, .timeout 0]).flatten

/-- **Dead-lettered, and stored**: the flush has written a row for the event. -/
theorem deadLettered_with_rows : ∃ w h w₁ obs w₂ h' f g,
    consumer.run (World.start OrdersTable.empty fun _ => 0) twoBuffered = some (w, h) ∧
      consumer.step w (.deliver (eventAt 0 "2")) = some (w₁, obs) ∧
      w₁.service.flushes = w.service.flushes ++ [f] ∧
      (consumer.restrict noCrash).run w₁ lostCommits = some (w₂, h') ∧
      w₂.service.flushes[w.service.flushes.length]? = some g ∧ g.await = .deadLettered ∧
      eventAt 0 "0" ∈ f.batch ∧ WrittenBy g (eventAt 0 "0") w₂.orders ∧
      ¬ HonestEnd w.service.flushes.length f.batch h' w₂ g := by
  have hrun := (rfl : consumer.run (World.start OrdersTable.empty fun _ => 0) twoBuffered
    = some (_, _))
  refine ⟨_, _, _, _, _, _, _, _, hrun, rfl, rfl, rfl, rfl, rfl, by decide, ?_, fun hc => ?_⟩
  · exact ⟨(repoCreate (eventAt 0 "0")).stored 0, by decide, rfl, rfl, by decide⟩
  · refine (hc.deadLettered rfl).1 (eventAt 0 "0") (by decide) ?_
    exact ⟨(repoCreate (eventAt 0 "0")).stored 0, by decide, rfl, rfl, by decide⟩

end RedisApi
