import RedisApi.Auth.Register
import RedisApi.Core.BloomFilter

/-!
# Calls in a history

What every transition of a call keeps, and what a history says about the calls.

* `Transition.bits_iff` — no bit is ever reset, and those that are set are on record.
* `Recorded` — the calls on record are those of the state, and those on record as ended have ended.
-/

namespace RedisApi.Auth

open Core EcmaScript BloomFilter

/-! ## Commands -/

namespace Command

/-- What the command asks of Redis. -/
def request (cmd : Command) : Bool × ℤ := (cmd.write, cmd.offset)

lemma isSent_iff {cmd : Command} : cmd.isSent = true ↔ cmd.status = .sent := decide_eq_true_iff

lemma isRejected_iff {cmd : Command} : cmd.isRejected = true ↔ cmd.status = .rejected :=
  decide_eq_true_iff

/-- A command that was neither rejected nor is under way has been answered. -/
lemma answered_bit {cmd : Command} (hsent : cmd.status ≠ .sent)
    (hrejected : cmd.status ≠ .rejected) : cmd.status = .answered cmd.bit := by
  rw [bit]
  cases hstatus : cmd.status with
  | sent => exact absurd hstatus hsent
  | answered bit => rfl
  | rejected => exact absurd hstatus hrejected

end Command

/-- `Promise.all` resolves once every command is answered, with the answers. -/
lemma answered_of_resolved {commands : List Command} {bits : List Bool}
    (h : promiseAll commands = .resolved bits) :
    (∀ cmd ∈ commands, cmd.status = .answered cmd.bit) ∧ bits = commands.map Command.bit := by
  rw [promiseAll] at h
  split_ifs at h with hrejected hsent
  refine ⟨fun cmd hcmd => Command.answered_bit (fun hc => hsent ?_) fun hc => hrejected ?_,
    (Settled.resolved.inj h).symm⟩
  · exact List.any_eq_true.mpr ⟨cmd, hcmd, Command.isSent_iff.mpr hc⟩
  · exact List.any_eq_true.mpr ⟨cmd, hcmd, Command.isRejected_iff.mpr hc⟩

/-- `Promise.all` rejects as soon as one command is rejected. -/
lemma exists_of_rejected {commands : List Command} (h : promiseAll commands = .rejected) :
    ∃ cmd ∈ commands, cmd.status = .rejected := by
  rw [promiseAll] at h
  split_ifs at h with hrejected
  obtain ⟨cmd, hcmd, hstatus⟩ := List.any_eq_true.mp hrejected
  exact ⟨cmd, hcmd, Command.isRejected_iff.mp hstatus⟩

lemma promiseAll_of_answered {commands : List Command}
    (h : ∀ cmd ∈ commands, cmd.status = .answered cmd.bit) :
    promiseAll commands = .resolved (commands.map Command.bit) := by
  rw [promiseAll, if_neg, if_neg]
  · intro hsent
    obtain ⟨cmd, hcmd, hstatus⟩ := List.any_eq_true.mp hsent
    exact absurd ((h cmd hcmd).symm.trans (Command.isSent_iff.mp hstatus)) (by simp)
  · intro hrejected
    obtain ⟨cmd, hcmd, hstatus⟩ := List.any_eq_true.mp hrejected
    exact absurd ((h cmd hcmd).symm.trans (Command.isRejected_iff.mp hstatus)) (by simp)

/-- Settling a command changes none of the requests. -/
lemma CallState.settle_requests {q : CallState} {j : ℕ} {cmd : Command}
    (h : q.commands[j]? = some cmd) (status : CommandStatus) :
    (q.settle j cmd status).commands.map Command.request = q.commands.map Command.request :=
  map_set_of_eq h rfl

/-- What holds of all commands and of the one that settles holds of all afterwards. -/
lemma CallState.forall_mem_settle {P : Command → Prop} {q : CallState} {j : ℕ} {cmd : Command}
    {status : CommandStatus} (hq : ∀ cmd ∈ q.commands, P cmd)
    (hnew : P { cmd with status := status }) :
    ∀ cmd' ∈ (q.settle j cmd status).commands, P cmd' :=
  forall_mem_set hq hnew

/-! ## Executing a command -/

lemma Stores.execute_bits_iff {st : Stores} {cmd : Command} {p : ℤ} :
    (st.execute cmd).bits p = true ↔
      st.bits p = true ∨ (cmd.write = true ∧ cmd.offset = p) := by
  rw [Stores.execute]
  split_ifs with hwrite
  · exact update_eq_true.trans (or_congr_right (by simp [hwrite]))
  · simp [hwrite]

@[simp] lemma Stores.execute_keycloak (st : Stores) (cmd : Command) :
    (st.execute cmd).keycloak = st.keycloak := by
  rw [Stores.execute]
  split_ifs <;> rfl

@[simp] lemma Stores.execute_tokens (st : Stores) (cmd : Command) :
    (st.execute cmd).tokens = st.tokens := by
  rw [Stores.execute]
  split_ifs <;> rfl

@[simp] lemma Stores.execute_adminToken (st : Stores) (cmd : Command) :
    (st.execute cmd).adminToken = st.adminToken := by
  rw [Stores.execute]
  split_ifs <;> rfl

@[simp] lemma Stores.execute_now (st : Stores) (cmd : Command) :
    (st.execute cmd).now = st.now := by
  rw [Stores.execute]
  split_ifs <;> rfl

/-- Reading changes nothing. -/
lemma Stores.execute_of_read {st : Stores} {cmd : Command} (h : cmd.write = false) :
    st.execute cmd = st := by
  rw [Stores.execute, if_neg (by simp [h])]

/-! ## What every transition keeps -/

namespace Output

/-- The call that an output is about. -/
def index : Output → ℕ
  | .started c _ | .bitRead c _ _ | .bitSet c _ | .identityCalled c | .tokenFromCache c _ _
  | .ended c _ _ => c

/-- The bit that is set. -/
def offsetSet : Output → Option ℤ
  | .bitSet _ offset => some offset
  | _ => none

end Output

/-- The bits that were set. -/
def offsetsSet (h : List Output) : List ℤ := h.filterMap Output.offsetSet

lemma offsetsSet_append (h out : List Output) :
    offsetsSet (h ++ out) = offsetsSet h ++ offsetsSet out :=
  List.filterMap_append

/-- Asking for the admin token emits at most that it came from the cache. -/
lemma getAdminToken_out {st : Stores} {c : ℕ} {o : Output} (h : o ∈ (getAdminToken st c).2) :
    ∃ value atMs, o = .tokenFromCache c value atMs := by
  rw [getAdminToken] at h
  split at h
  · exact absurd h (by simp)
  · split_ifs at h
    · exact ⟨_, _, List.mem_singleton.mp h⟩
    · exact absurd h (by simp)

/-- A call that asks for the admin token either waits for one or creates the user. -/
lemma getAdminToken_phase (st : Stores) (c : ℕ) :
    (∃ start, (getAdminToken st c).1 = .fetchingToken start) ∨
      ∃ token, (getAdminToken st c).1 = .creatingUser token := by
  rw [getAdminToken]
  split
  · exact Or.inl ⟨_, rfl⟩
  · split_ifs
    · exact Or.inr ⟨_, rfl⟩
    · exact Or.inl ⟨_, rfl⟩

/-- A request that fails ends the call with an error; with the status 409 only where Keycloak
answered the creation of the user so. -/
lemma failureOutcome_cases {dto : RegisterDto} {phase : Phase} {failure : HttpFailure}
    {outcome : Outcome} (h : failureOutcome dto phase failure = some outcome) :
    outcome = .rejected ∨ (∃ message, outcome = .httpException 500 message) ∨
      (outcome = .usernameTaken dto ∧ failure = .status 409 ∧
        ∃ token, phase = .creatingUser token) := by
  rw [failureOutcome.eq_def] at h
  split at h
  · exact Or.inr (Or.inl ⟨_, (Option.some.inj h).symm⟩)
  · next token status =>
    split_ifs at h with hstatus
    · exact Or.inr (Or.inr ⟨(Option.some.inj h).symm, hstatus ▸ rfl, token, rfl⟩)
    · exact Or.inr (Or.inl ⟨_, (Option.some.inj h).symm⟩)
  · exact Or.inr (Or.inl ⟨_, (Option.some.inj h).symm⟩)
  · exact Or.inr (Or.inl ⟨_, (Option.some.inj h).symm⟩)
  · exact Or.inl (Option.some.inj h).symm
  · exact Or.inl (Option.some.inj h).symm
  · exact Or.inl (Option.some.inj h).symm
  · exact Or.inl (Option.some.inj h).symm
  · exact Or.inl (Option.some.inj h).symm
  · exact absurd h (by simp)

section transitions

variable {st st' : Stores} {c : ℕ} {q q' : CallState} {a : Action} {out : List Output}

lemma Transition.call_eq (h : Transition st c q a (st', q', out)) : q'.call = q.call := by
  cases h <;> rfl

/-- What a transition emits: all of it is about the call. -/
inductive Emits (c : ℕ) (q q' : CallState) : Output → Prop
  | bitRead (offset : ℤ) (bit : Bool) : Emits c q q' (.bitRead c offset bit)
  | bitSet {cmd : Command} (mem : cmd ∈ q.commands) (write : cmd.write = true) :
      Emits c q q' (.bitSet c cmd.offset)
  | identityCalled : Emits c q q' (.identityCalled c)
  | tokenFromCache (value atMs : ℕ) : Emits c q q' (.tokenFromCache c value atMs)
  | ended {outcome : Outcome} (phase : q'.phase = .ended outcome) :
      Emits c q q' (.ended c q.call outcome)

lemma Transition.emits (h : Transition st c q a (st', q', out)) : ∀ o ∈ out, Emits c q q' o := by
  intro o ho
  cases h with
  | executed hj =>
      rw [List.mem_singleton.mp ho]
      split_ifs with hwrite
      · exact .bitSet (List.mem_of_getElem? hj) hwrite
      · exact .bitRead _ _
  | rejected hj =>
      split_ifs at ho with hwrite
      · rw [List.mem_singleton.mp ho]
        exact .bitSet (List.mem_of_getElem? hj) (Bool.and_eq_true_iff.mp hwrite).2
      · exact absurd ho (by simp)
  | called =>
      rcases List.mem_cons.mp ho with rfl | ho
      · exact .identityCalled
      · obtain ⟨value, atMs, rfl⟩ := getAdminToken_out ho
        exact .tokenFromCache value atMs
  | abandoned | looked | taken | added | registered | lost | failed =>
      rw [List.mem_singleton.mp ho]
      exact .ended rfl
  | issued | arrived | created | fetched | assigned => exact absurd ho (by simp)

lemma Transition.index_eq (h : Transition st c q a (st', q', out)) : ∀ o ∈ out, o.index = c := by
  intro o ho
  cases h.emits o ho <;> rfl

/-- A bit that is set was asked for by a command of the call. -/
lemma Transition.mem_offsetsSet (h : Transition st c q a (st', q', out)) {p : ℤ}
    (hp : p ∈ offsetsSet out) : ∃ cmd ∈ q.commands, cmd.write = true ∧ cmd.offset = p := by
  obtain ⟨o, ho, hset⟩ := List.mem_filterMap.mp hp
  cases h.emits o ho with
  | bitSet hmem hwrite => exact ⟨_, hmem, hwrite, Option.some.inj hset⟩
  | bitRead | identityCalled | tokenFromCache | ended =>
      exact absurd hset (by simp [Output.offsetSet])

/-- **Bits are only ever set**, and those that are set are on record. -/
lemma Transition.bits_iff (h : Transition st c q a (st', q', out)) {p : ℤ} :
    st'.bits p = true ↔ st.bits p = true ∨ p ∈ offsetsSet out := by
  have hnothing : st.bits p = true ↔ st.bits p = true ∨ p ∈ ([] : List ℤ) := by simp
  have hset {offset : ℤ} {write : Bool} (hwrite : write = true) :
      write = true ∧ offset = p ↔ p ∈ [offset] := by
    rw [List.mem_singleton, and_iff_right hwrite, eq_comm]
  have hread {offset : ℤ} {write : Bool} (hwrite : ¬ write = true) :
      write = true ∧ offset = p ↔ p ∈ ([] : List ℤ) :=
    iff_of_false (fun h => hwrite h.1) (by simp)
  cases h with
  | executed =>
      rw [Stores.execute_bits_iff]
      split_ifs with hwrite
      · exact or_congr_right (hset hwrite)
      · exact or_congr_right (hread hwrite)
  | @rejected j cmd applied =>
      cases applied with
      | false => exact hnothing
      | true =>
          rw [if_pos rfl, Stores.execute_bits_iff, Bool.true_and]
          split_ifs with hwrite
          · exact or_congr_right (hset hwrite)
          · exact or_congr_right (hread hwrite)
  | called =>
      have hout : offsetsSet (.identityCalled c :: (getAdminToken st c).2) = [] := by
        refine List.filterMap_eq_nil_iff.mpr fun o ho => ?_
        rcases List.mem_cons.mp ho with rfl | ho
        · rfl
        · obtain ⟨value, atMs, rfl⟩ := getAdminToken_out ho
          rfl
      rw [hout]
      exact hnothing
  | abandoned | looked | taken | added | registered | issued | arrived | created | lost | fetched
  | assigned | failed => exact hnothing

/-- A call that is on record as ended in this step has ended in it. -/
lemma Transition.ended_of_mem (h : Transition st c q a (st', q', out)) {c' : ℕ} {call : Call}
    {outcome : Outcome} (ho : .ended c' call outcome ∈ out) :
    c' = c ∧ call = q.call ∧ q'.phase = .ended outcome := by
  cases h.emits _ ho with
  | ended hphase => exact ⟨rfl, rfl, hphase⟩

/-- A call that has ended did so before, or it is on record in this step. -/
lemma Transition.mem_of_ended (h : Transition st c q a (st', q', out)) {outcome : Outcome}
    (hend : q'.phase = .ended outcome) :
    q.phase = .ended outcome ∨ .ended c q.call outcome ∈ out := by
  cases h with
  | executed | rejected => exact Or.inl hend
  | called =>
      rcases getAdminToken_phase st c with ⟨start, hphase⟩ | ⟨token, hphase⟩
      all_goals exact absurd (hphase.symm.trans hend) (by simp)
  | abandoned | looked | taken | added | registered | lost | failed =>
      obtain rfl := Phase.ended.inj hend
      exact Or.inr (List.mem_singleton_self _)
  | issued | arrived | created | fetched | assigned => exact absurd hend (by simp)

/-- No transition lets a call arrive. -/
lemma Transition.not_started (h : Transition st c q a (st', q', out)) {c' : ℕ} {call : Call} :
    .started c' call ∉ out :=
  fun ho => nomatch h.emits _ ho

/-- A call that has ended stays so; only commands of it may still be under way. -/
lemma Transition.ended_stays (h : Transition st c q a (st', q', out)) {outcome : Outcome}
    (hend : q.phase = .ended outcome) : q'.phase = .ended outcome := by
  cases h with
  | executed | rejected => exact hend
  | abandoned hphase => rcases hphase with hp | hp <;> exact absurd (hp.symm.trans hend) (by simp)
  | failed hcall hfail => exact absurd hfail (by simp [hend, failureOutcome])
  | looked _ hp | taken _ hp | called _ hp | added _ hp | registered _ hp | issued hp | arrived hp
  | created _ hp | lost _ hp | fetched hp | assigned _ hp =>
      exact absurd (hp.symm.trans hend) (by simp)

end transitions

/-! ## Steps -/

section steps

variable {s s' : State} {a : Action} {c : ℕ} {q q' : CallState} {st : Stores} {out : List Output}

lemma Advances.stores_eq (h : Advances s a c q st q' out s') : s'.stores = st := by
  rw [h.state]

/-- The call of the transition afterwards. -/
lemma Advances.at_self (h : Advances s a c q st q' out s') : s'.calls[c]? = some q' := by
  rw [h.state]
  exact (getElem?_set_of_some h.at_c _).trans (if_pos rfl)

/-- The others are where they were. -/
lemma Advances.at_other (h : Advances s a c q st q' out s') {i : ℕ} (hi : c ≠ i) :
    s'.calls[i]? = s.calls[i]? := by
  rw [h.state]
  exact List.getElem?_set_ne hi

/-- What holds of every call, once one call has made a transition. -/
lemma Advances.each {P P' : ℕ → CallState → Prop} (h : Advances s a c q st q' out s')
    (hs : Each s.calls P) (hself : P' c q') (hother : ∀ i x, c ≠ i → P i x → P' i x) :
    Each s'.calls P' := by
  rw [h.state]
  exact hs.set h.at_c hself hother

/-- A call stays the call it is, and one that has ended stays so. -/
lemma call_stays (hstep : s.step a = some (s', out)) (hq : s.calls[c]? = some q) :
    ∃ q', s'.calls[c]? = some q' ∧ q'.call = q.call ∧
      ∀ outcome, q.phase = .ended outcome → q'.phase = .ended outcome := by
  cases step_cases hstep with
  | called call =>
      exact ⟨q, getElem?_append_of_some hq _, rfl, fun _ => id⟩
  | advanced i q₁ st q₂ hadv =>
      by_cases hi : i = c
      · subst hi
        obtain rfl := Option.some.inj (hadv.at_c.symm.trans hq)
        exact ⟨q₂, hadv.at_self, hadv.transition.call_eq,
          fun _ hend => hadv.transition.ended_stays hend⟩
      · exact ⟨q, (hadv.at_other hi).trans hq, rfl, fun _ => id⟩
  | ticked => exact ⟨q, hq, rfl, fun _ => id⟩

/-- **Bits are only ever set**, and those that are set are on record. -/
lemma step_bits_iff (hstep : s.step a = some (s', out)) {p : ℤ} :
    s'.stores.bits p = true ↔ s.stores.bits p = true ∨ p ∈ offsetsSet out := by
  cases step_cases hstep with
  | called call => simp [offsetsSet, Output.offsetSet]
  | advanced i q₁ st q₂ hadv =>
      rw [hadv.stores_eq]
      exact hadv.transition.bits_iff
  | ticked => simp [offsetsSet]

end steps

/-! ## The calls on record -/

/-- The history speaks about calls that have arrived, and says truly what they are and how they have
ended; all that have ended are there. -/
structure Recorded (h : List Output) (s : State) : Prop where
  known : ∀ o ∈ h, o.index < s.calls.length
  started : ∀ c call, .started c call ∈ h → ∃ q, s.calls[c]? = some q ∧ q.call = call
  ended : ∀ c call outcome, .ended c call outcome ∈ h →
    ∃ q, s.calls[c]? = some q ∧ q.call = call ∧ q.phase = .ended outcome
  logged : Each s.calls fun c q => ∀ outcome, q.phase = .ended outcome →
    .ended c q.call outcome ∈ h

/-- No call gets lost. -/
lemma step_length_le {s s' : State} {a : Action} {out : List Output}
    (hstep : s.step a = some (s', out)) : s.calls.length ≤ s'.calls.length := by
  cases step_cases hstep with
  | called call => exact (List.length_append ..).symm ▸ Nat.le_add_right _ _
  | advanced i q₁ st q₂ hadv => rw [hadv.state, List.length_set]
  | ticked => exact le_refl _

theorem Recorded.step {h : List Output} {s s' : State} {a : Action} {out : List Output}
    (hrec : Recorded h s) (hstep : s.step a = some (s', out)) : Recorded (h ++ out) s' := by
  have hold : ∀ c call, .started c call ∈ h → ∃ q, s'.calls[c]? = some q ∧ q.call = call := by
    intro c call ho
    obtain ⟨q, hq, hcall⟩ := hrec.started c call ho
    obtain ⟨q', hq', hcall', -⟩ := call_stays hstep hq
    exact ⟨q', hq', hcall'.trans hcall⟩
  have hover : ∀ c call outcome, .ended c call outcome ∈ h →
      ∃ q, s'.calls[c]? = some q ∧ q.call = call ∧ q.phase = .ended outcome := by
    intro c call outcome ho
    obtain ⟨q, hq, hcall, hend⟩ := hrec.ended c call outcome ho
    obtain ⟨q', hq', hcall', hend'⟩ := call_stays hstep hq
    exact ⟨q', hq', hcall'.trans hcall, hend' _ hend⟩
  have hpast : Each s.calls fun c q => ∀ outcome, q.phase = .ended outcome →
      .ended c q.call outcome ∈ h ++ out :=
    hrec.logged.mono fun c q hq outcome hend => List.mem_append_left _ (hq outcome hend)
  have hlength := step_length_le hstep
  cases step_cases hstep with
  | called call =>
      have hnew : (s.calls ++ [call.begin])[s.calls.length]? = some call.begin :=
        List.getElem?_concat_length
      refine ⟨fun o ho => ?_, fun c call' ho => ?_, fun c call' outcome ho => ?_,
        hpast.concat fun outcome hend => ?_⟩
      · rcases List.mem_append.mp ho with ho | ho
        · exact lt_of_lt_of_le (hrec.known o ho) hlength
        · rw [List.mem_singleton.mp ho]
          exact (List.getElem?_eq_some_iff.mp hnew).1
      · rcases List.mem_append.mp ho with ho | ho
        · exact hold c call' ho
        · obtain ⟨rfl, rfl⟩ := Output.started.inj (List.mem_singleton.mp ho)
          exact ⟨_, hnew, by cases call' <;> rfl⟩
      · rcases List.mem_append.mp ho with ho | ho
        · exact hover c call' outcome ho
        · exact absurd (List.mem_singleton.mp ho) (by simp)
      · cases call <;> exact absurd hend (by simp [Call.begin])
  | advanced i q₁ st q₂ hadv =>
      refine ⟨fun o ho => ?_, fun c call ho => ?_, fun c call outcome ho => ?_,
        hadv.each hpast (fun outcome hend => ?_) fun _ _ _ => id⟩
      · rcases List.mem_append.mp ho with ho | ho
        · exact lt_of_lt_of_le (hrec.known o ho) hlength
        · rw [hadv.transition.index_eq o ho]
          exact (List.getElem?_eq_some_iff.mp hadv.at_self).1
      · rcases List.mem_append.mp ho with ho | ho
        · exact hold c call ho
        · exact absurd ho hadv.transition.not_started
      · rcases List.mem_append.mp ho with ho | ho
        · exact hover c call outcome ho
        · obtain ⟨rfl, rfl, hend⟩ := hadv.transition.ended_of_mem ho
          exact ⟨q₂, hadv.at_self, hadv.transition.call_eq, hend⟩
      · rw [hadv.transition.call_eq]
        rcases hadv.transition.mem_of_ended hend with hbefore | hnew
        · exact hpast i q₁ hadv.at_c outcome hbefore
        · exact List.mem_append_right _ hnew
  | ticked =>
      rw [List.append_nil]
      exact ⟨hrec.known, hold, hover, hrec.logged⟩

lemma recorded_start (stores : Stores) : Recorded [] (State.start stores) :=
  ⟨fun _ ho => absurd ho (by simp), fun _ _ ho => absurd ho (by simp),
    fun _ _ _ ho => absurd ho (by simp), each_nil _⟩

theorem recorded_of_reaches {stores : Stores} {h : List Output} {s : State}
    (hr : auth.Reaches (State.start stores) h s) : Recorded h s :=
  hr.invariant (recorded_start _) fun _ _ _ _ _ _ hrec hstep => hrec.step hstep

/-- Nothing is on record of the call that arrives next. -/
lemma Recorded.fresh {h : List Output} {s : State} (hrec : Recorded h s) :
    ∀ o ∈ h, o.index ≠ s.calls.length :=
  fun o ho => (hrec.known o ho).ne

end RedisApi.Auth
