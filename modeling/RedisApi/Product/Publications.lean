import RedisApi.Product.Inventory

/-!
# Publications

What the requests put on the topic, and who did.  A request publishes when it emits, with what the
script has told it; a lost acknowledgement publishes too.  It never emits again: from there it goes
to its end, or gives the unit back first.

* `Phase.Told` — what a request goes by has been reported to it by the script.
* `Publishing` — the topic is the list of publications, each request has at most one, its event is
  the one the request's own decrement calls for, and no request answers success without.
* `publishing_of_reaches` — along every run, whatever fails and whoever resets the inventory.
-/

namespace RedisApi.Product

open Core

/-- The request whose event the broker appends, with the event. -/
def Output.publication : Output → Option (ℕ × InventoryEventDto)
  | .emitted r event => some (r, event)
  | .emitFailed r stored => stored.map fun event => (r, event)
  | _ => none

/-- The publications, in the order of the topic. -/
def publications (h : List Output) : List (ℕ × InventoryEventDto) :=
  h.filterMap Output.publication

lemma publications_append (h out : List Output) :
    publications (h ++ out) = publications h ++ publications out := List.filterMap_append

lemma Output.publication_snd (o : Output) : o.publication.map Prod.snd = o.published := by
  cases o with
  | emitFailed r stored => cases stored <;> rfl
  | _ => rfl

lemma map_snd_publications (out : List Output) :
    (publications out).map Prod.snd = out.filterMap Output.published := by
  rw [publications, List.map_filterMap]
  congr 1
  funext o
  exact o.publication_snd

/-! ## One request -/

/-- Past its emit. -/
def Phase.hasEmitted : Phase → Bool
  | .rollingBack _ | .ended _ => true
  | _ => false

/-- What the request goes by is what the script has reported to it. -/
def Phase.Told (h : List Output) (r : ℕ) : Phase → Prop
  | .releasing _ (some n) => .checked r n ∈ h
  | .emitting n => .checked r n ∈ h ∧ 0 ≤ n
  | _ => True

lemma Phase.Told.append {h : List Output} {r : ℕ} {p : Phase} (hp : p.Told h r)
    (out : List Output) : p.Told (h ++ out) r := by
  cases p with
  | releasing token remaining =>
      cases remaining with
      | none => trivial
      | some n => exact List.mem_append_left _ hp
  | emitting n => exact ⟨List.mem_append_left _ hp.1, hp.2⟩
  | _ => trivial

section transitions

variable {h : List Output} {redis redis' : Redis} {r : ℕ} {q : Request} {a : Action}
  {before after : Phase} {out : List Output}

lemma Transition.told (ht : Transition redis r q a before (redis', after, out))
    (hp : before.Told h r) : after.Told (h ++ out) r := by
  cases ht with
  | refused | decremented => exact List.mem_append_right _ (List.mem_singleton_self _)
  | released nonneg => exact ⟨List.mem_append_left _ hp, nonneg⟩
  | _ => trivial

/-- A request that has emitted stays past its emit. -/
lemma Transition.hasEmitted (ht : Transition redis r q a before (redis', after, out))
    (hp : before.hasEmitted = true) : after.hasEmitted = true := by
  cases ht with
  | rolledBack | incrementRejected => rfl
  | _ => exact absurd hp (by simp [Phase.hasEmitted])

/-- **A transition publishes** nothing, or the event of the request, which emits and is past its
emit then. -/
lemma Transition.publication (ht : Transition redis r q a before (redis', after, out)) :
    publications out = [] ∨ ∃ n, before = .emitting n ∧ after.hasEmitted = true ∧
      publications out = [(r, q.event n)] := by
  cases ht with
  | emitted => exact Or.inr ⟨_, rfl, rfl, rfl⟩
  | @emitRejected n stored =>
      cases stored with
      | false => exact Or.inl rfl
      | true => exact Or.inr ⟨n, rfl, rfl, rfl⟩
  | _ => exact Or.inl rfl

/-- A request answers success once it has published. -/
lemma Transition.sold (ht : Transition redis r q a before (redis', after, out))
    (hafter : after.succeeded = true) : r ∈ (publications out).map Prod.fst := by
  cases ht with
  | emitted => exact List.mem_singleton_self _
  | _ => exact absurd hafter (by simp [Phase.succeeded, Outcome.lockContention,
      Outcome.outOfStock, Outcome.deliveryFailed])

end transitions

/-! ## All requests -/

/-- Request `r` stands behind the publication of `event`: the script has told it a stock, the event
says so, and the request is past its emit. -/
def Stands (h : List Output) (s : State) (r : ℕ) (event : InventoryEventDto) : Prop :=
  ∃ q n, s.requests[r]? = some q ∧ q.phase.hasEmitted = true ∧ .checked r n ∈ h ∧ 0 ≤ n ∧
    event = q.event n

/-- **The invariant of the topic.** -/
structure Publishing (h : List Output) (s : State) : Prop where
  topic : s.topic = (publications h).map Prod.snd
  once : ((publications h).map Prod.fst).Nodup
  stands : ∀ x ∈ publications h, Stands h s x.1 x.2
  told : s.AllPhases fun r p => p.Told h r
  sold : s.AllPhases fun r p => p.succeeded = true → r ∈ (publications h).map Prod.fst

lemma publishing_start (redis : Redis) : Publishing [] (State.start redis) :=
  ⟨rfl, List.nodup_nil, by simp [publications], allPhases_start _ _, allPhases_start _ _⟩

/-- A step that publishes nothing and leaves the requests that have emitted where they are. -/
lemma Publishing.quiet {h out : List Output} {s s' : State} (hp : Publishing h s)
    (hno : publications out = []) (htopic : s'.topic = s.topic)
    (hkeep : ∀ (r : ℕ) (q : Request), s.requests[r]? = some q → q.phase.hasEmitted = true →
      ∃ q' : Request, s'.requests[r]? = some q' ∧ q'.phase.hasEmitted = true ∧
        q'.correlationId = q.correlationId)
    (htold : s'.AllPhases fun r p => p.Told (h ++ out) r)
    (hsold : s'.AllPhases fun r p => p.succeeded = true →
      r ∈ (publications (h ++ out)).map Prod.fst) : Publishing (h ++ out) s' := by
  have hsame : publications (h ++ out) = publications h := by
    rw [publications_append, hno, List.append_nil]
  refine ⟨?_, ?_, ?_, htold, hsold⟩
  · rw [htopic, hsame, hp.topic]
  · rw [hsame]
    exact hp.once
  · intro x hx
    rw [hsame] at hx
    obtain ⟨q, n, hq, hemit, hcheck, hn, heq⟩ := hp.stands x hx
    obtain ⟨q', hq', hemit', hid⟩ := hkeep x.1 q hq hemit
    refine ⟨q', n, hq', hemit', List.mem_append_left _ hcheck, hn, ?_⟩
    rw [heq, Request.event, Request.event, hid]

/-- A request that has published nothing yet does so. -/
lemma Publishing.publish {h out : List Output} {s s' : State} {a : Action} {r : ℕ} {q : Request}
    {before after : Phase} {redis : Redis} {n : ℤ} (hp : Publishing h s)
    (hadv : Advances s a r q before redis after out s') (hbefore : before = .emitting n)
    (hafter : after.hasEmitted = true) (hone : publications out = [(r, q.event n)])
    (htold : s'.AllPhases fun r p => p.Told (h ++ out) r)
    (hsold : s'.AllPhases fun r p => p.succeeded = true →
      r ∈ (publications (h ++ out)).map Prod.fst) : Publishing (h ++ out) s' := by
  have htold_r : Phase.Told h r before := hadv.of_allPhases hp.told
  rw [hbefore] at htold_r
  have hnew : r ∉ (publications h).map Prod.fst := by
    intro hr
    obtain ⟨x, hx, hxr⟩ := List.mem_map.mp hr
    obtain ⟨q', -, hq', hemit, -⟩ := hp.stands x hx
    rw [hxr, hadv.at_r, Option.some.injEq] at hq'
    rw [← hq', hadv.phase, hbefore] at hemit
    exact absurd hemit (by simp [Phase.hasEmitted])
  refine ⟨?_, ?_, ?_, htold, hsold⟩
  · rw [publications_append, List.map_append, map_snd_publications out, ← hp.topic, hadv.state]
  · rw [publications_append, hone, List.map_append, List.nodup_append']
    exact ⟨hp.once, List.nodup_singleton _, by simpa using hnew⟩
  · intro x hx
    rw [publications_append, hone] at hx
    rcases List.mem_append.mp hx with hx | hx
    · obtain ⟨q', m, hq', hemit, hcheck, hm, heq⟩ := hp.stands x hx
      have hne : r ≠ x.1 := fun hc => hnew (hc ▸ List.mem_map_of_mem hx)
      exact ⟨q', m, by rw [hadv.at_other hne, hq'], hemit, List.mem_append_left _ hcheck, hm, heq⟩
    · rw [List.mem_singleton.mp hx]
      exact ⟨_, n, hadv.at_self, hafter, List.mem_append_left _ htold_r.1, htold_r.2, rfl⟩

/-- **One step.** -/
theorem Publishing.step {h : List Output} {s s' : State} {a : Action} {out : List Output}
    (hp : Publishing h s) (hstep : s.step a = some (s', out)) : Publishing (h ++ out) s' := by
  have hkept : s.AllPhases fun r p => p.Told (h ++ out) r :=
    hp.told.mono fun _ _ ht => ht.append out
  have hsold : s.AllPhases fun r p => p.succeeded = true →
      r ∈ (publications (h ++ out)).map Prod.fst := by
    refine hp.sold.mono fun r p hr hs => ?_
    rw [publications_append, List.map_append]
    exact List.mem_append_left _ (hr hs)
  cases step_cases hstep with
  | arrived correlationId =>
      refine hp.quiet rfl rfl (fun r q hq hemit => ⟨q, ?_, hemit, rfl⟩) (hkept.arrival _ trivial)
        (hsold.arrival _ (by simp [Phase.succeeded]))
      exact getElem?_append_of_some hq _
  | advanced r q before redis after hadv =>
      have htold : s'.AllPhases fun r p => p.Told (h ++ out) r :=
        hkept.advances hadv (fun _ _ _ ht => ht)
          (hadv.transition.told (hadv.of_allPhases hp.told))
      have hsold : s'.AllPhases fun r p => p.succeeded = true →
          r ∈ (publications (h ++ out)).map Prod.fst := by
        refine hsold.advances hadv (fun _ _ _ hr => hr) fun hs => ?_
        rw [publications_append, List.map_append]
        exact List.mem_append_right _ (hadv.transition.sold hs)
      rcases hadv.transition.publication with hno | ⟨n, hbefore, hafter, hone⟩
      · refine hp.quiet hno ?_ (fun r' q' hq' hemit => ?_) htold hsold
        · rw [hadv.state, ← map_snd_publications, hno]
          exact List.append_nil _
        · by_cases hr : r = r'
          · subst hr
            rw [Option.some.inj (hq'.symm.trans hadv.at_r)] at hemit ⊢
            rw [hadv.phase] at hemit
            exact ⟨_, hadv.at_self, hadv.transition.hasEmitted hemit, rfl⟩
          · exact ⟨q', by rw [hadv.at_other hr, hq'], hemit, rfl⟩
      · exact hp.publish hadv hbefore hafter hone htold hsold
  | read => exact hp.quiet rfl rfl (fun r q hq hemit => ⟨q, hq, hemit, rfl⟩) hkept hsold
  | reset => exact hp.quiet rfl rfl (fun r q hq hemit => ⟨q, hq, hemit, rfl⟩) hkept hsold
  | ticked => exact hp.quiet rfl rfl (fun r q hq hemit => ⟨q, hq, hemit, rfl⟩) hkept hsold

theorem publishing_of_reaches {redis : Redis} {h : List Output} {s : State}
    (hr : product.Reaches (State.start redis) h s) : Publishing h s :=
  hr.invariant (publishing_start redis) fun _ _ _ _ _ _ hp hstep => hp.step hstep

end RedisApi.Product
