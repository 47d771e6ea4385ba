import RedisApi.OrderConsumer.Consumer

/-!
# At-least-once delivery

What the manual commits are for: an offset is committed only once every event below it has its
row, so a restart, which reads on from the committed offsets, skips nothing.

A commit is cumulative: committing `o + 1` speaks for every earlier event of the partition, not
only for those of the batch.  So the property depends on what happened to the *earlier* batches.
The invariant says of every delivered event that it has its row, is still buffered, or is going to
be delivered again; what breaks it is the fifth failure of a flush, which takes the batch off the
buffer and leaves the next batch's commit to move past it.

* `Flush.Faithful` — the `orders` of an activation are those of its batch, and the ids in them
  mean rows.
* `Accounted` — the invariant.
* `committed_implies_stored` — the property, along every run in which no flush gives up on an
  event that has no row.
* `giveUp_loses_batch` — a run in which one does.
-/

namespace RedisApi

open Core OrderService World

/-! ## The topic -/

/-- The contents of the topic: each partition's events, in increasing offset order. -/
structure Topic where
  log : ℕ → List BufferedEvent
  partition_eq : ∀ p, ∀ e ∈ log p, e.partition = p
  increasing : ∀ p, (log p).Pairwise fun a b => a.offset < b.offset

/-- The event of partition `p` that the broker delivers next. -/
def Topic.next (T : Topic) (w : World) (p : ℕ) : Option BufferedEvent :=
  (T.log p).find? fun e => w.position p ≤ e.offset

/-- What else lies ahead in the partition comes after it. -/
lemma Topic.offset_lt_of_next {T : Topic} {w : World} {p : ℕ} {e d : BufferedEvent}
    (hnext : T.next w p = some e) (hd : d ∈ T.log p) (hahead : w.position p ≤ d.offset)
    (hne : d ≠ e) : e.offset < d.offset := by
  obtain ⟨-, l₁, l₂, hl, hbefore⟩ := List.find?_eq_some_iff_append.mp hnext
  have hord := T.increasing p
  rw [hl, List.pairwise_append, List.pairwise_cons] at hord
  rw [hl] at hd
  rcases List.mem_append.mp hd with hin | hin
  · exact absurd hahead (by simpa using hbefore d hin)
  · exact hord.2.1.1 d ((List.mem_cons.mp hin).resolve_left hne)

/-- Each partition is delivered in order, from the consumer's position on; no shutdown. -/
def Topic.reads (T : Topic) (w : World) : Event → Bool
  | .deliver e => T.next w e.partition = some e
  | .shutdown => false
  | _ => true

/-- The events delivered so far, over all restarts. -/
def delivered (h : List Observation) : List BufferedEvent := receivedEvents (serviceOutputs h)

lemma delivered_append (h obs : List Observation) :
    delivered (h ++ obs) = delivered h ++ delivered obs := by
  rw [delivered, serviceOutputs_append, receivedEvents_append]
  rfl

/-- Every delivered event below its partition's committed offset has a row. -/
def CommittedImpliesStored (h : List Observation) (w : World) : Prop :=
  ∀ e ∈ delivered h, e.offset < w.committed e.partition → e.key ∈ w.orders.keys

/-! ## The orders of an activation -/

/-- The orders of an activation are those of its batch, an id means a row, and once `save` has
resolved all of them have one. -/
structure Flush.Faithful (t : OrdersTable) (f : Flush) : Prop where
  keys : f.orders.map Order.key = f.batch.map BufferedEvent.key
  rows : ∀ o ∈ f.orders, o.id.isSome → o.key ∈ t.keys
  saved : f.await = .commitOffsets → ∀ o ∈ f.orders, o.id.isSome

namespace Flush.Faithful

variable {t t' : OrdersTable} {f : Flush}

/-- While the commit is awaited the whole batch is stored. -/
lemma stored (hf : f.Faithful t) (hw : f.await = .commitOffsets) :
    ∀ e ∈ f.batch, e.key ∈ t.keys := by
  intro e he
  have hkey : e.key ∈ f.orders.map Order.key := by
    rw [hf.keys]
    exact List.mem_map_of_mem he
  obtain ⟨o, ho, hok⟩ := List.mem_map.mp hkey
  rw [← hok]
  exact hf.rows o ho (hf.saved hw o ho)

lemma mono (hf : f.Faithful t) (ht : ∀ k ∈ t.keys, k ∈ t'.keys) : f.Faithful t' :=
  ⟨hf.keys, fun o ho hid => ht _ (hf.rows o ho hid), hf.saved⟩

/-- Waiting elsewhere than for the commit. -/
lemma await_ne (hf : f.Faithful t) {n : ℕ} {how : Await} (hhow : how ≠ .commitOffsets) :
    Flush.Faithful t { f with attempt := n, await := how } :=
  ⟨hf.keys, hf.rows, fun hc => absurd hc hhow⟩

/-- A new activation. -/
lemma opened (t : OrdersTable) (batch : List BufferedEvent) (n : ℕ) (caller : Option KafkaContext) :
    Flush.Faithful t
      { batch := batch, orders := batch.map repoCreate, attempt := n, await := .save,
        caller := caller } := by
  refine ⟨?_, ?_, fun hc => absurd hc (by simp)⟩
  · rw [List.map_map]
    rfl
  · intro o ho hid
    obtain ⟨e, -, rfl⟩ := List.mem_map.mp ho
    exact absurd hid (by simp)

/-- After a successful `save`. -/
lemma save (hf : f.Faithful t) {saved : List Order} (h : t.save f.orders = some (t', saved)) :
    Flush.Faithful t' { f with orders := saved, await := .commitOffsets } := by
  obtain ⟨-, hkeys, hids⟩ := OrdersTable.save_eq_some h
  refine ⟨hkeys.trans hf.keys, ?_, fun _ => hids⟩
  intro o ho _
  have hkey : o.key ∈ f.orders.map Order.key := by
    rw [← hkeys]
    exact List.mem_map_of_mem ho
  obtain ⟨o', ho', hok⟩ := List.mem_map.mp hkey
  rw [← hok]
  exact OrdersTable.mem_keys_of_save hf.rows h o' ho'

end Flush.Faithful

/-- Every activation is faithful to the table. -/
def World.Faithful (w : World) : Prop := ∀ f ∈ w.service.flushes, f.Faithful w.orders

lemma keys_subset_of_save {os os' : List Order} {t t' : OrdersTable}
    (h : t.save os = some (t', os')) : ∀ k ∈ t.keys, k ∈ t'.keys := by
  intro k hk
  rw [(OrdersTable.save_eq_some h).1]
  exact List.mem_append_left _ hk

/-- One step. -/
theorem World.Faithful.step {w w' : World} {ev : Event} {obs : List Observation}
    (hw : w.Faithful) (h : w.step ev = some (w', obs)) : w'.Faithful := by
  have at_i : ∀ {i a f}, w.service.awaiting i a = some f → f.Faithful w.orders := fun hf =>
    hw _ (List.mem_of_getElem? (awaiting_eq_some.mp hf).1)
  have flush_ok : ∀ {s : OrderService} {caller}, s.flushes = w.service.flushes →
      ∀ f ∈ (s.flush caller).1.flushes, f.Faithful w.orders := by
    intro s caller hs f hf
    rcases List.mem_append.mp hf with hf | hf
    · exact hw f (hs ▸ hf)
    · rw [List.mem_singleton.mp hf]
      exact Flush.Faithful.opened _ _ _ _
  cases ev with
  | deliver e =>
      obtain ⟨s, out, hs, -, rfl⟩ := step_deliver h
      rw [show s = _ from congrArg Prod.fst hs]
      show ∀ f ∈ (w.service.createFromEvent e.dto e.context).1.flushes, f.Faithful w.orders
      simp only [OrderService.createFromEvent]
      split_ifs
      · exact flush_ok rfl
      · exact hw
  | shutdown =>
      obtain ⟨s, out, hs, -, rfl⟩ := step_shutdown h
      rw [show s = _ from congrArg Prod.fst hs]
      show ∀ f ∈ w.service.onModuleDestroy.1.flushes, f.Faithful w.orders
      simp only [OrderService.onModuleDestroy]
      split_ifs
      · exact flush_ok rfl
      · exact hw
  | saveOk i =>
      obtain ⟨f, t, saved, hf, hsave, rfl, -⟩ := step_saveOk h
      refine forall_mem_set (fun g hg => ?_) ((at_i hf).save hsave)
      exact (hw g hg).mono (keys_subset_of_save hsave)
  | saveFail i =>
      obtain ⟨f, hf, rfl, -⟩ := step_saveFail h
      exact forall_mem_set hw ((at_i hf).await_ne (by simp))
  | commitOk i =>
      obtain ⟨f, hf, rfl, -⟩ := step_commitOk h
      exact forall_mem_set hw ((at_i hf).await_ne (by simp))
  | commitFail i applied =>
      obtain ⟨f, hf, rfl, -⟩ := step_commitFail h
      cases applied <;> exact forall_mem_set hw ((at_i hf).await_ne (by simp))
  | timeout i =>
      obtain ⟨f, hf, rfl, -⟩ := step_timeout h
      show ∀ g ∈ (w.service.afterDelay i f).1.flushes, g.Faithful w.orders
      simp only [afterDelay]
      split_ifs
      · exact forall_mem_set hw ((at_i hf).await_ne (by simp))
      · exact forall_mem_set hw ((at_i hf).await_ne (by simp))
  | crash =>
      obtain ⟨rfl, -⟩ := Prod.mk.injEq .. ▸ Option.some.inj h
      exact fun f hf => absurd hf List.not_mem_nil

/-! ## Every delivered event is accounted for -/

/-- **The invariant.**  A delivered event has its row, or is buffered, or lies ahead of the
position; the buffer lies behind the position, in order; and what is committed does not pass a
buffered event without a row. -/
structure Accounted (T : Topic) (ds : List BufferedEvent) (w : World) : Prop where
  from_log : ∀ e ∈ ds, e ∈ T.log e.partition
  accounted : ∀ e ∈ ds,
    e.key ∈ w.orders.keys ∨ e ∈ w.service.buffer ∨ w.position e.partition ≤ e.offset
  read : ∀ e ∈ w.service.buffer, e.offset < w.position e.partition
  increasing : w.service.buffer.Pairwise fun a b => a.partition = b.partition → a.offset < b.offset
  uncommitted : ∀ e ∈ w.service.buffer,
    e.key ∈ w.orders.keys ∨ w.committed e.partition ≤ e.offset
  behind : ∀ p, w.committed p ≤ w.position p

namespace Accounted

variable {T : Topic} {ds : List BufferedEvent} {w : World}

/-- Nothing that is accounted for is passed by a commit. -/
theorem stored (ha : Accounted T ds w) {e : BufferedEvent} (he : e ∈ ds)
    (hlt : e.offset < w.committed e.partition) : e.key ∈ w.orders.keys := by
  rcases ha.accounted e he with hrow | hbuf | hahead
  · exact hrow
  · rcases ha.uncommitted e hbuf with hrow | hle
    · exact hrow
    · omega
  · have := ha.behind e.partition
    omega

lemma start (T : Topic) (orders : OrdersTable) (committed : ℕ → ℕ) :
    Accounted T [] (World.start orders committed) := by
  refine ⟨by simp, by simp, ?_, List.Pairwise.nil, ?_, fun p => le_refl _⟩ <;>
    exact fun e he => absurd he List.not_mem_nil

/-- A step of the service that leaves the buffer alone, while the table may grow. -/
lemma of_buffer_eq (ha : Accounted T ds w) {s : OrderService} (hs : s.buffer = w.service.buffer)
    {t : OrdersTable} (ht : ∀ k ∈ w.orders.keys, k ∈ t.keys) :
    Accounted T ds { w with service := s, orders := t } where
  from_log := ha.from_log
  accounted e he := by
    rcases ha.accounted e he with hrow | hbuf | hahead
    · exact Or.inl (ht _ hrow)
    · exact Or.inr (Or.inl (hs ▸ hbuf))
    · exact Or.inr (Or.inr hahead)
  read e he := ha.read e (hs ▸ he)
  increasing := by
    show s.buffer.Pairwise _
    rw [hs]
    exact ha.increasing
  uncommitted e he := (ha.uncommitted e (hs ▸ he)).imp_left (ht _)
  behind := ha.behind

/-- The broker delivers the next event of a partition. -/
lemma deliver (ha : Accounted T ds w) {e : BufferedEvent} (hnext : T.next w e.partition = some e)
    {s : OrderService} (hs : s.buffer = w.service.buffer ++ [e]) :
    Accounted T (ds ++ [e])
      { w with service := s,
               position := Function.update w.position e.partition (e.offset + 1) } := by
  have hmem : e ∈ T.log e.partition := List.mem_of_find?_eq_some hnext
  have hpos : w.position e.partition ≤ e.offset := by simpa using List.find?_some hnext
  -- in its own partition the position moves up, elsewhere it stays
  have hup : ∀ p, w.position p ≤ Function.update w.position e.partition (e.offset + 1) p := by
    intro p
    rw [Function.update_apply]
    split_ifs with hp
    · rw [hp]
      omega
    · exact le_refl _
  constructor
  · intro d hd
    rcases List.mem_append.mp hd with hd | hd
    · exact ha.from_log d hd
    · rw [List.mem_singleton.mp hd]
      exact hmem
  · intro d hd
    show _ ∨ d ∈ s.buffer ∨ Function.update w.position e.partition (e.offset + 1) d.partition ≤ _
    rw [hs]
    rcases List.mem_append.mp hd with hd | hd
    · rcases ha.accounted d hd with hrow | hbuf | hahead
      · exact Or.inl hrow
      · exact Or.inr (Or.inl (List.mem_append_left _ hbuf))
      · right
        by_cases hp : d.partition = e.partition
        · -- `e` is the first event of its partition that lies ahead, so `d` is `e` or behind it
          by_cases hde : d = e
          · exact Or.inl (List.mem_append_right _ (List.mem_singleton.mpr hde))
          · right
            rw [hp, Function.update_self]
            exact Topic.offset_lt_of_next hnext (hp ▸ ha.from_log d hd) (hp ▸ hahead) hde
        · rw [Function.update_of_ne hp]
          exact Or.inr hahead
    · exact Or.inr (Or.inl (List.mem_append_right _ hd))
  · intro d hd
    show d.offset < Function.update w.position e.partition (e.offset + 1) d.partition
    rcases List.mem_append.mp (hs ▸ hd : d ∈ w.service.buffer ++ [e]) with hd | hd
    · exact lt_of_lt_of_le (ha.read d hd) (hup _)
    · rw [List.mem_singleton.mp hd, Function.update_self]
      omega
  · show s.buffer.Pairwise _
    rw [hs, List.pairwise_append]
    refine ⟨ha.increasing, List.pairwise_singleton _ _, ?_⟩
    intro a hain b hb hab
    rw [List.mem_singleton.mp hb] at hab ⊢
    have := ha.read a hain
    rw [hab] at this
    omega
  · intro d hd
    rcases List.mem_append.mp (hs ▸ hd : d ∈ w.service.buffer ++ [e]) with hd | hd
    · exact ha.uncommitted d hd
    · rw [List.mem_singleton.mp hd]
      exact Or.inr (le_trans (ha.behind _) hpos)
  · exact fun p => le_trans (ha.behind p) (hup p)

/-- The offsets of a stored batch at the head of the buffer are committed. -/
lemma commit (ha : Accounted T ds w) {f : Flush} {n : ℕ} (hhead : f.batch = w.service.buffer.take n)
    (hst : ∀ e ∈ f.batch, e.key ∈ w.orders.keys) : Accounted T ds (w.applyCommit f) where
  from_log := ha.from_log
  accounted := ha.accounted
  read := ha.read
  increasing := ha.increasing
  uncommitted e he := by
    have he : e ∈ w.service.buffer := he
    show _ ∨ RedisApi.commit w.committed (RedisApi.commitOffsets f.batch) e.partition ≤ e.offset
    rcases commit_commitOffsets w.committed f.batch e.partition with ⟨d, hd, heq⟩ | ⟨-, heq⟩
    · by_cases heb : e ∈ f.batch
      · exact Or.inl (hst e heb)
      · -- behind the batch in the buffer, hence above everything the batch commits
        right
        have hord := ha.increasing
        rw [← List.take_append_drop n w.service.buffer, ← hhead, List.pairwise_append] at hord
        have hrest : e ∈ w.service.buffer.drop n := by
          rw [← List.take_append_drop n w.service.buffer, ← hhead] at he
          exact (List.mem_append.mp he).resolve_left heb
        have hlt := hord.2.2 d hd.1 e hrest hd.2.1
        rw [heq]
        exact hlt
    · rw [heq]
      exact ha.uncommitted e he
  behind p := by
    show RedisApi.commit w.committed (RedisApi.commitOffsets f.batch) p ≤ w.position p
    rcases commit_commitOffsets w.committed f.batch p with ⟨d, hd, heq⟩ | ⟨-, heq⟩
    · have hlt := ha.read d (List.mem_of_mem_take (hhead ▸ hd.1))
      rw [hd.2.1] at hlt
      rw [heq]
      exact hlt
    · rw [heq]
      exact ha.behind p

/-- A stored stretch is taken off the head of the buffer. -/
lemma splice (ha : Accounted T ds w) {n : ℕ}
    (hst : ∀ e ∈ w.service.buffer.take n, e.key ∈ w.orders.keys) {s : OrderService}
    (hs : s.buffer = w.service.buffer.drop n) : Accounted T ds { w with service := s } where
  from_log := ha.from_log
  accounted e he := by
    rcases ha.accounted e he with hrow | hbuf | hahead
    · exact Or.inl hrow
    · rw [← List.take_append_drop n w.service.buffer] at hbuf
      rcases List.mem_append.mp hbuf with hbuf | hbuf
      · exact Or.inl (hst e hbuf)
      · exact Or.inr (Or.inl (hs ▸ hbuf))
    · exact Or.inr (Or.inr hahead)
  read e he := ha.read e (List.mem_of_mem_drop (hs ▸ he))
  increasing := by
    show s.buffer.Pairwise _
    rw [hs]
    exact ha.increasing.sublist (List.drop_sublist _ _)
  uncommitted e he := ha.uncommitted e (List.mem_of_mem_drop (hs ▸ he))
  behind := ha.behind

/-- The process dies and starts again at the committed offsets. -/
lemma crash (ha : Accounted T ds w) :
    Accounted T ds { w with service := OrderService.fresh, position := w.committed } where
  from_log := ha.from_log
  accounted e he := by
    rcases ha.accounted e he with hrow | hbuf | hahead
    · exact Or.inl hrow
    · exact (ha.uncommitted e hbuf).imp_right Or.inr
    · exact Or.inr (Or.inr (le_trans (ha.behind _) hahead))
  read e he := absurd he List.not_mem_nil
  increasing := List.Pairwise.nil
  uncommitted e he := absurd he List.not_mem_nil
  behind p := le_refl _

end Accounted

/-! ## Every run -/

/-- A flush gives up, after its last attempt, only on a batch whose events all have rows. -/
def givesUpOnStored (w : World) : Event → Bool
  | .timeout i =>
      match w.service.awaiting i .delay with
      | none => true
      | some f => f.attempt + 1 ≤ maxRetries || f.batch.all fun e => e.key ∈ w.orders.keys
  | _ => true

/-- One step that delivers in order and does not give up on an event without a row. -/
theorem Accounted.step {T : Topic} {ds : List BufferedEvent} {w w' : World} {ev : Event}
    {obs : List Observation} (ha : Accounted T ds w) (hs : SingleFlush w.service)
    (hw : w.Faithful) (hread : T.reads w ev = true) (hgive : givesUpOnStored w ev = true)
    (h : w.step ev = some (w', obs)) : Accounted T (ds ++ delivered obs) w' := by
  have same : ∀ k ∈ w.orders.keys, k ∈ w.orders.keys := fun _ hk => hk
  cases ev with
  | deliver e =>
      obtain ⟨s, out, hcall, rfl, rfl⟩ := step_deliver h
      have hbuf := createFromEvent_buffer w.service e.dto e.context
      rw [← hcall] at hbuf
      rw [delivered, serviceOutputs_map, hbuf.2.1]
      exact ha.deliver (by simpa [Topic.reads] using hread) hbuf.1
  | shutdown => exact absurd hread (by simp [Topic.reads])
  | saveOk i =>
      obtain ⟨f, t, saved, hf, hsave, rfl, rfl⟩ := step_saveOk h
      rw [delivered, serviceOutputs_map]
      simp only [afterSave, receivedEvents, List.filterMap, List.append_nil]
      exact ha.of_buffer_eq (move_buffer _ _ _) (keys_subset_of_save hsave)
  | saveFail i =>
      obtain ⟨f, hf, rfl, rfl⟩ := step_saveFail h
      rw [delivered, serviceOutputs_map]
      simp only [caught, receivedEvents, List.filterMap, List.append_nil]
      exact ha.of_buffer_eq (move_buffer _ _ _) same
  | commitOk i =>
      obtain ⟨f, hf, rfl, rfl⟩ := step_commitOk h
      obtain ⟨hi, hp⟩ := pending_of_awaiting hf rfl
      have hawait := (awaiting_eq_some.mp hf).2
      have hmem := List.mem_of_getElem? hi
      have hst := (hw f hmem).stored hawait
      rw [delivered, show serviceOutputs (_ :: _) = serviceOutputs (List.map .service _) from rfl,
        serviceOutputs_map, (finish_outputs _ _ _ _).1, List.append_nil]
      refine (ha.commit (hs.head f hmem hp) hst).splice ?_ rfl
      show ∀ e ∈ w.service.buffer.take f.batch.length, _
      rw [hs.removed_eq hi hp]
      exact hst
  | commitFail i applied =>
      obtain ⟨f, hf, rfl, hobs, -⟩ := step_commitFail h
      obtain ⟨hi, hp⟩ := pending_of_awaiting hf rfl
      have hawait := (awaiting_eq_some.mp hf).2
      have hmem := List.mem_of_getElem? hi
      rw [delivered, hobs]
      simp only [caught, receivedEvents, List.filterMap, List.append_nil]
      cases applied with
      | true =>
          exact (ha.commit (hs.head f hmem hp) ((hw f hmem).stored hawait)).of_buffer_eq
            (move_buffer _ _ _) same
      | false => exact ha.of_buffer_eq (move_buffer _ _ _) same
  | timeout i =>
      obtain ⟨f, hf, rfl, rfl⟩ := step_timeout h
      obtain ⟨hi, hp⟩ := pending_of_awaiting hf rfl
      simp only [givesUpOnStored, hf, Bool.or_eq_true, decide_eq_true_eq, List.all_eq_true] at hgive
      rw [delivered, serviceOutputs_map]
      simp only [afterDelay]
      split_ifs with hlast
      · simp only [receivedEvents, List.filterMap, List.append_nil]
        exact ha.of_buffer_eq (move_buffer _ _ _) same
      · -- giving up: the guard says that the batch is stored
        have hst := hgive.resolve_left hlast
        rw [(finish_outputs _ _ _ _).1, List.append_nil]
        refine ha.splice ?_ rfl
        rw [hs.removed_eq hi hp]
        exact hst
  | crash =>
      obtain ⟨rfl, rfl⟩ := Prod.mk.injEq .. ▸ Option.some.inj h
      simpa [delivered, serviceOutputs, receivedEvents] using ha.crash

/-- What holds at every point of such a run. -/
theorem accounted_of_reaches {T : Topic} {orders : OrdersTable} {committed : ℕ → ℕ}
    {h : List Observation} {w : World}
    (hr : ((consumer.restrict T.reads).restrict givesUpOnStored).Reaches
      (World.start orders committed) h w) :
    SingleFlush w.service ∧ w.Faithful ∧ Accounted T (delivered h) w := by
  refine hr.invariant
    (I := fun h w => SingleFlush w.service ∧ w.Faithful ∧ Accounted T (delivered h) w) ?_ ?_
  · exact ⟨SingleFlush.fresh, fun f hf => absurd hf List.not_mem_nil, Accounted.start T _ _⟩
  · rintro h w ev w' obs - ⟨hs, hw, ha⟩ hstep
    obtain ⟨hgive, hstep⟩ := Machine.restrict_step.mp hstep
    obtain ⟨hread, hstep⟩ := Machine.restrict_step.mp hstep
    have hev : ev ≠ .shutdown := by
      rintro rfl
      exact absurd hread (by simp [Topic.reads])
    rw [delivered_append]
    exact ⟨singleFlush_step hs hev hstep, hw.step hstep, ha.step hs hw hread hgive hstep⟩

/-- **Committed implies stored**, at every point of every run, with crashes and restarts, in which
no flush gives up on an event that has no row. -/
theorem committed_implies_stored {T : Topic} {orders : OrdersTable} {committed : ℕ → ℕ}
    {h : List Observation} {w : World}
    (hr : ((consumer.restrict T.reads).restrict givesUpOnStored).Reaches
      (World.start orders committed) h w) :
    CommittedImpliesStored h w := by
  obtain ⟨-, -, ha⟩ := accounted_of_reaches hr
  exact fun e he hlt => ha.stored he hlt

/-- Six events in one partition. -/
def sixEvents : Topic where
  log p := if p = 0 then
      [eventAt 0 "0", eventAt 0 "1", eventAt 0 "2", eventAt 0 "3", eventAt 0 "4", eventAt 0 "5"]
    else []
  partition_eq p e he := by
    split_ifs at he with hp
    · rw [hp]
      revert e
      decide
    · exact absurd he List.not_mem_nil
  increasing p := by
    split_ifs
    · decide
    · exact List.Pairwise.nil

/-- A batch is saved at the second attempt, its commit is lost, and the process crashes; after
the restart the batch is delivered again. -/
def restartSchedule : List Event :=
  [.deliver (eventAt 0 "0"), .deliver (eventAt 0 "1"), .deliver (eventAt 0 "2"),
    .saveFail 0, .timeout 0, .saveOk 0, .commitFail 0 true, .crash, .deliver (eventAt 0 "3")]

theorem committed_implies_stored_restart : ∃ w h,
    ((consumer.restrict sixEvents.reads).restrict givesUpOnStored).run
        (World.start OrdersTable.empty fun _ => 0) restartSchedule = some (w, h) ∧
      w.committed 0 = 3 ∧ CommittedImpliesStored h w := by
  have hrun := (rfl : ((consumer.restrict sixEvents.reads).restrict givesUpOnStored).run
    (World.start OrdersTable.empty fun _ => 0) restartSchedule = some (_, _))
  exact ⟨_, _, hrun, rfl, committed_implies_stored (Machine.reaches_of_run hrun)⟩

/-- All five attempts to save the first batch fail; the second batch is saved and committed. -/
def giveUpSchedule : List Event :=
  [.deliver (eventAt 0 "0"), .deliver (eventAt 0 "1"), .deliver (eventAt 0 "2"),
    .saveFail 0, .timeout 0, .saveFail 0, .timeout 0, .saveFail 0, .timeout 0,
    .saveFail 0, .timeout 0, .saveFail 0, .timeout 0,
    .deliver (eventAt 0 "3"), .deliver (eventAt 0 "4"), .deliver (eventAt 0 "5"),
    .saveOk 1, .commitOk 1]

/-- **The batch that was given up is lost.**  The next batch's commit moves past it, so the broker
does not deliver it again. -/
theorem giveUp_loses_batch : ∃ w h,
    (consumer.restrict sixEvents.reads).run (World.start OrdersTable.empty fun _ => 0)
        giveUpSchedule = some (w, h) ∧ ¬ CommittedImpliesStored h w := by
  have hrun := (rfl : (consumer.restrict sixEvents.reads).run
    (World.start OrdersTable.empty fun _ => 0) giveUpSchedule = some (_, _))
  refine ⟨_, _, hrun, fun hc => ?_⟩
  exact absurd (hc (eventAt 0 "0") (by decide) (by decide)) (by decide)

end RedisApi
