import RedisApi.OrderConsumer.AutoCommit

/-!
# Where rows come from

A row is the order of a delivered event: its columns are those that `repo.create` was given, and no
later `save` changes them.  What holds of every delivered event therefore holds of the event behind
every row, over all crashes, shutdowns and failures, and whoever commits.

* `Order.draft` — an order without the id that the database adds.
* `World.Stems` — whatever the service holds or has stored comes from events of which `P` holds.
* `Deployed.stems_step` — one step, with or without automatic commits.
-/

namespace RedisApi

open Core OrderService World

/-- The order as `repo.create` has made it. -/
def Order.draft (o : Order) : Order := { o with id := none }

@[simp] lemma Order.stored_draft (o : Order) (id : ℕ) : (o.stored id).draft = o.draft := rfl

/-- The order was created for an event of which `P` holds. -/
def Order.CreatedFor (P : BufferedEvent → Prop) (o : Order) : Prop :=
  ∃ e, P e ∧ o.draft = repoCreate e

lemma Order.CreatedFor.congr {P : BufferedEvent → Prop} {o o' : Order} (h : o.CreatedFor P)
    (ho : o'.draft = o.draft) : o'.CreatedFor P := by
  obtain ⟨e, he, heq⟩ := h
  exact ⟨e, he, ho.trans heq⟩

lemma Order.CreatedFor.mono {P Q : BufferedEvent → Prop} (hPQ : ∀ e, P e → Q e) {o : Order}
    (h : o.CreatedFor P) : o.CreatedFor Q := by
  obtain ⟨e, he, heq⟩ := h
  exact ⟨e, hPQ e he, heq⟩

/-- `save` adds rows for the orders it is given, and changes no column of theirs. -/
lemma OrdersTable.draft_of_save {os os' : List Order} {t t' : OrdersTable}
    (h : t.save os = some (t', os')) :
    os'.map Order.draft = os.map Order.draft ∧
      ∀ o ∈ t'.rows, o ∈ t.rows ∨ ∃ o' ∈ os, o.draft = o'.draft := by
  induction os generalizing os' t t' with
  | nil =>
      simp only [save, Option.some.injEq, Prod.mk.injEq] at h
      obtain ⟨rfl, rfl⟩ := h
      exact ⟨rfl, fun o ho => Or.inl ho⟩
  | cons o os ih =>
      rw [save] at h
      split at h
      · obtain ⟨r, hr, heq⟩ := Option.map_eq_some_iff.mp h
        obtain ⟨rfl, rfl⟩ := Prod.mk.injEq .. ▸ heq
        obtain ⟨hdraft, hrows⟩ := ih hr
        refine ⟨by simp [hdraft], fun x hx => (hrows x hx).imp_right ?_⟩
        rintro ⟨o', ho', heq⟩
        exact ⟨o', List.mem_cons_of_mem _ ho', heq⟩
      · split at h
        · exact absurd h (by simp)
        · next u hu =>
          obtain ⟨r, hr, heq⟩ := Option.map_eq_some_iff.mp h
          obtain ⟨rfl, rfl⟩ := Prod.mk.injEq .. ▸ heq
          obtain ⟨hdraft, hrows⟩ := ih hr
          refine ⟨by simp [hdraft], fun x hx => ?_⟩
          rcases hrows x hx with hx | ⟨o', ho', heq⟩
          · rw [rows_insert hu] at hx
            rcases List.mem_append.mp hx with hx | hx
            · exact Or.inl hx
            · rw [List.mem_singleton.mp hx]
              exact Or.inr ⟨o, List.mem_cons_self, o.stored_draft _⟩
          · exact Or.inr ⟨o', List.mem_cons_of_mem _ ho', heq⟩

/-! ## The invariant -/

/-- **The invariant of the rows.** -/
structure World.Stems (P : BufferedEvent → Prop) (w : World) : Prop where
  buffer : ∀ e ∈ w.service.buffer, P e
  flushes : ∀ f ∈ w.service.flushes, ∀ o ∈ f.orders, o.CreatedFor P
  rows : ∀ o ∈ w.orders.rows, o.CreatedFor P

namespace World.Stems

variable {P Q : BufferedEvent → Prop} {w w' : World} {i : ℕ} {f f' : Flush}

lemma mono (hw : w.Stems P) (hPQ : ∀ e, P e → Q e) : w.Stems Q :=
  ⟨fun e he => hPQ e (hw.buffer e he),
    fun f hf o ho => (hw.flushes f hf o ho).mono hPQ, fun o ho => (hw.rows o ho).mono hPQ⟩

/-- A flush starts, on a buffer of such events. -/
lemma flush (hw : w.Stems P) {s : OrderService} (hbuffer : ∀ e ∈ s.buffer, P e)
    (hflushes : s.flushes = w.service.flushes) (caller : Option KafkaContext) :
    ∀ f ∈ (s.flush caller).1.flushes, ∀ o ∈ f.orders, o.CreatedFor P := by
  intro f hf o ho
  rcases List.mem_append.mp hf with hf | hf
  · exact hw.flushes f (hflushes ▸ hf) o ho
  · rw [List.mem_singleton.mp hf] at ho
    obtain ⟨e, he, rfl⟩ := List.mem_map.mp ho
    exact ⟨e, hbuffer e (List.mem_of_mem_take he), rfl⟩

/-- An activation goes on with orders of the same columns. -/
lemma set (hw : w.Stems P) (hi : w.service.flushes[i]? = some f)
    (hdraft : f'.orders.map Order.draft = f.orders.map Order.draft) :
    ∀ g ∈ w.service.flushes.set i f', ∀ o ∈ g.orders, o.CreatedFor P := by
  refine forall_mem_set hw.flushes fun o ho => ?_
  have hmem : o.draft ∈ f.orders.map Order.draft := hdraft ▸ List.mem_map_of_mem ho
  obtain ⟨o', ho', heq⟩ := List.mem_map.mp hmem
  exact (hw.flushes f (List.mem_of_getElem? hi) o' ho').congr heq.symm

/-- An activation ends. -/
lemma finish (hw : w.Stems P) (hi : w.service.flushes[i]? = some f) (how : Await) :
    World.Stems P { w with service := (w.service.finish i f how).1 } :=
  ⟨fun e he => hw.buffer e (List.mem_of_mem_drop he), hw.set hi rfl, hw.rows⟩

/-- **One step**: what is delivered satisfies `P`. -/
theorem step {ev : Event} {obs : List Observation} (hw : w.Stems P)
    (hev : ∀ e, ev = .deliver e → P e) (h : w.step ev = some (w', obs)) : w'.Stems P := by
  cases ev with
  | deliver e =>
      obtain ⟨s, out, hs, -, rfl⟩ := step_deliver h
      rw [show s = _ from congrArg Prod.fst hs]
      have hbuffer : ∀ d ∈ w.service.buffer ++ [e], P d := by
        intro d hd
        rcases List.mem_append.mp hd with hd | hd
        · exact hw.buffer d hd
        · exact List.mem_singleton.mp hd ▸ hev e rfl
      refine ⟨?_, ?_, hw.rows⟩
      · show ∀ d ∈ (w.service.createFromEvent e.dto e.context).1.buffer, P d
        rw [(createFromEvent_buffer w.service e.dto e.context).1]
        exact hbuffer
      · show ∀ f ∈ (w.service.createFromEvent e.dto e.context).1.flushes, _
        simp only [OrderService.createFromEvent]
        split_ifs
        · exact hw.flush (s := { w.service with buffer := w.service.buffer ++ [e] }) hbuffer rfl _
        · exact hw.flushes
  | shutdown =>
      obtain ⟨s, out, hs, -, rfl⟩ := step_shutdown h
      rw [show s = _ from congrArg Prod.fst hs]
      simp only [OrderService.onModuleDestroy]
      split_ifs
      · exact ⟨hw.buffer, hw.flush hw.buffer rfl _, hw.rows⟩
      · exact ⟨hw.buffer, hw.flushes, hw.rows⟩
  | saveOk i =>
      obtain ⟨f, t, saved, hf, hsave, rfl, -⟩ := step_saveOk h
      obtain ⟨hi, -⟩ := awaiting_eq_some.mp hf
      obtain ⟨hdraft, hrows⟩ := OrdersTable.draft_of_save hsave
      refine ⟨hw.buffer, hw.set hi hdraft, fun o ho => ?_⟩
      rcases hrows o ho with hold | ⟨o', ho', heq⟩
      · exact hw.rows o hold
      · exact (hw.flushes f (List.mem_of_getElem? hi) o' ho').congr heq
  | saveFail i =>
      obtain ⟨f, hf, rfl, -⟩ := step_saveFail h
      exact ⟨hw.buffer, hw.set (awaiting_eq_some.mp hf).1 rfl, hw.rows⟩
  | commitOk i =>
      obtain ⟨f, hf, rfl, -⟩ := step_commitOk h
      have hend := hw.finish (awaiting_eq_some.mp hf).1 .batchSaved
      exact ⟨hend.buffer, hend.flushes, hend.rows⟩
  | commitFail i applied =>
      obtain ⟨f, hf, rfl, -⟩ := step_commitFail h
      have hset : ∀ g ∈ w.service.flushes.set i { f with await := .delay }, ∀ o ∈ g.orders,
          o.CreatedFor P := hw.set (awaiting_eq_some.mp hf).1 rfl
      cases applied <;> exact ⟨hw.buffer, hset, hw.rows⟩
  | timeout i =>
      obtain ⟨f, hf, rfl, -⟩ := step_timeout h
      have hi := (awaiting_eq_some.mp hf).1
      simp only [afterDelay]
      split_ifs
      · exact ⟨hw.buffer, hw.set hi rfl, hw.rows⟩
      · exact hw.finish hi .deadLettered
  | crash =>
      obtain ⟨rfl, -⟩ := Prod.mk.injEq .. ▸ Option.some.inj h
      exact ⟨fun e he => absurd he List.not_mem_nil, fun f hf => absurd hf List.not_mem_nil,
        hw.rows⟩

end World.Stems

/-- A commit by the client touches neither the service nor the table. -/
theorem Deployed.stems_step {o : KafkaOptions} {P : BufferedEvent → Prop} {d d' : Deployed}
    {ev : DeployedEvent} {obs : List Observation} (hd : d.world.Stems P)
    (hev : ∀ e, ev = .consumer (.deliver e) → P e) (h : d.step o ev = some (d', obs)) :
    d'.world.Stems P := by
  cases ev with
  | consumer ev =>
      obtain ⟨⟨w, obs'⟩, hstep, heq⟩ := Option.map_eq_some_iff.mp h
      obtain ⟨rfl, rfl⟩ := Prod.mk.injEq .. ▸ heq
      exact hd.step (fun e he => hev e (congrArg _ he)) hstep
  | autoCommit context =>
      rw [Deployed.step] at h
      split_ifs at h
      obtain ⟨rfl, -⟩ := Prod.mk.injEq .. ▸ Option.some.inj h
      exact ⟨hd.buffer, hd.flushes, hd.rows⟩

end RedisApi
