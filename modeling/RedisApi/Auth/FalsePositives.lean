import RedisApi.Auth.NoFalseNegatives

/-!
# False positives

A registration answers 409 as soon as all bits of its username are set, without asking Keycloak
whether the username is taken.

* `State.isIdle` — all calls have ended, and no command of theirs is under way.
* `NeverRefused` — the next registration, by itself, does not answer 409.
* `neverRefused_iff` — for a username that is free, this is so if and only if one of its bits has
  not been set by the calls before.
* `represents_added` — as long as Redis rejects nothing, the bits that are set are those of the
  usernames that were added.
* `free_refused` — a free username that is refused.
-/

namespace RedisApi.Auth

open Core EcmaScript BloomFilter

/-! ## One registration after another -/

/-- The call has ended and its commands are settled. -/
def CallState.isSettled (q : CallState) : Bool :=
  (match q.phase with
    | .ended _ => true
    | _ => false) && !q.commands.any Command.isSent

def State.isIdle (s : State) : Bool := s.calls.all CallState.isSettled

/-- Keycloak answers the creation of a user with 409 only where the username is taken. -/
def honest (s : State) : Action → Bool
  | .fails c (.status status) =>
      match s.calls[c]? with
      | some { call := .register dto, phase := .creatingUser _, commands := _ } =>
          status ≠ 409 || decide (dto.username ∈ s.stores.keycloak.taken)
      | _ => true
  | _ => true

/-- No further call arrives. -/
def undisturbed (s : State) : Action → Bool
  | .call _ => false
  | a => honest s a

/-- No other calls arrive than registrations. -/
def registering (s : State) : Action → Bool
  | .call (.register _) => true
  | .call _ => false
  | a => honest s a

/-- The next registration, by itself, does not answer 409, whatever else fails. -/
def NeverRefused (s : State) (dto : RegisterDto) : Prop :=
  ∀ s₁ out s₂ h message, auth.step s (.call (.register dto)) = some (s₁, out) →
    (auth.restrict undisturbed).Reaches s₁ h s₂ →
      .ended s.calls.length (.register dto) (.httpException 409 message) ∉ h

/-! ## The bits that are set -/

/-- The bits that are set are those on record. -/
lemma bits_iff_offsetsSet {stores : Stores} {h : List Output} {s : State}
    (hempty : ∀ p, stores.bits p = false) (hr : auth.Reaches (State.start stores) h s) (p : ℤ) :
    s.stores.bits p = true ↔ p ∈ offsetsSet h := by
  refine hr.invariant (I := fun h s => s.stores.bits p = true ↔ p ∈ offsetsSet h) ?_ ?_
  · exact iff_of_false (by simp [State.start, hempty]) (by simp [offsetsSet])
  · intro h s a s' out _ hs hstep
    rw [offsetsSet_append, List.mem_append, step_bits_iff hstep, hs]

/-! ## A registration that is not refused -/

/-- The commands read position `p` among others, and whatever was read there was not set. -/
structure Unset (p : ℤ) (commands : List Command) : Prop where
  reads : ∀ cmd ∈ commands, cmd.write = false
  present : ∃ cmd ∈ commands, cmd.offset = p
  seen : ∀ cmd ∈ commands, cmd.offset = p → ∀ bit, cmd.status = .answered bit → bit = false

/-- As long as Keycloak has not been asked to create the user, its username is free; and until then
the call has seen the unset bit `p`, or will. -/
def Phase.Spared (dto : RegisterDto) (p : ℤ) (st : Stores) (commands : List Command) :
    Phase → Prop
  | .probing =>
      st.bits p = false ∧ Unset p commands ∧ dto.username ∉ st.keycloak.taken
  | .fetchingToken _ | .tokenIssued _ _ _ | .creatingUser _ =>
      dto.username ∉ st.keycloak.taken
  | .fetchingRole _ _ | .assigningRole _ _ _ | .adding => True
  | .ended outcome => ∀ message, outcome ≠ .httpException 409 message

variable {dto : RegisterDto} {p : ℤ}

lemma unset_getbits {username : JsString} (hp : p ∈ positions username) :
    Unset p (getbits username) where
  reads cmd hcmd := (status_of_mem_getbits hcmd).1
  present := ⟨_, List.mem_map_of_mem hp, rfl⟩
  seen cmd hcmd _ bit hbit :=
    absurd ((status_of_mem_getbits hcmd).2.2.symm.trans hbit) (by simp)

/-- One of the commands settles: if it is the one at `p`, then with the bit unset. -/
lemma Unset.settle {q : CallState} {j : ℕ} {cmd : Command} {status : CommandStatus}
    (hq : Unset p q.commands) (hj : q.commands[j]? = some cmd)
    (hnew : cmd.offset = p → ∀ bit, status = .answered bit → bit = false) :
    Unset p (q.settle j cmd status).commands := by
  obtain ⟨cmd', hcmd', hoffset⟩ := hq.present
  refine ⟨CallState.forall_mem_settle hq.reads (hq.reads cmd (List.mem_of_getElem? hj)), ?_,
    CallState.forall_mem_settle hq.seen hnew⟩
  have hrequest : (cmd'.write, p) ∈ (q.settle j cmd status).commands.map Command.request := by
    rw [CallState.settle_requests hj]
    exact List.mem_map.mpr ⟨cmd', hcmd', by rw [Command.request, hoffset]⟩
  obtain ⟨cmd'', hcmd'', heq⟩ := List.mem_map.mp hrequest
  exact ⟨cmd'', hcmd'', (Prod.mk.inj heq).2⟩

/-- A bit that is unset is seen. -/
lemma Unset.not_all {commands : List Command} {bits : List Bool} (h : Unset p commands)
    (hsettled : promiseAll commands = .resolved bits) : bits.all (· = true) = false := by
  obtain ⟨hanswered, rfl⟩ := answered_of_resolved hsettled
  obtain ⟨cmd, hcmd, hoffset⟩ := h.present
  refine List.all_eq_false.mpr ⟨_, List.mem_map_of_mem hcmd, ?_⟩
  rw [h.seen cmd hcmd hoffset _ (hanswered cmd hcmd)]
  decide

/-- Outside the lookup it matters only who is taken. -/
lemma Phase.Spared.keep {st st' : Stores} {commands commands' : List Command} {phase : Phase}
    (hphase : phase ≠ .probing) (hst : st'.keycloak = st.keycloak)
    (hq : phase.Spared dto p st commands) : phase.Spared dto p st' commands' := by
  cases phase with
  | probing => exact absurd rfl hphase
  | fetchingToken | tokenIssued | creatingUser =>
      rw [Phase.Spared] at hq ⊢
      exact hst ▸ hq
  | fetchingRole | assigningRole | adding => trivial
  | ended outcome => exact hq

/-- **A transition of a registration that is not refused.** -/
lemma Transition.spared {st st' : Stores} {c : ℕ} {q q' : CallState} {a : Action}
    {out : List Output} (h : Transition st c q a (st', q', out)) (hcall : q.call = .register dto)
    (hq : q.phase.Spared dto p st q.commands)
    (hhonest : ∀ token, q.phase = .creatingUser token → a = .fails c (.status 409) →
      dto.username ∈ st.keycloak.taken) :
    q'.phase.Spared dto p st' q'.commands := by
  cases h with
  | @executed j cmd hj hsent =>
      by_cases hphase : q.phase = .probing
      · rw [hphase] at hq
        obtain ⟨hbit, hunset, hfree⟩ := hq
        have hread := hunset.reads cmd (List.mem_of_getElem? hj)
        show q.phase.Spared dto p (st.execute cmd) _
        rw [hphase, Stores.execute_of_read hread]
        refine ⟨hbit, hunset.settle hj ?_, hfree⟩
        rintro hoffset bit hanswer
        rw [← CommandStatus.answered.inj hanswer, hoffset, hbit]
      · exact hq.keep hphase (by simp)
  | @rejected j cmd applied hj hsent =>
      by_cases hphase : q.phase = .probing
      · rw [hphase] at hq
        obtain ⟨hbit, hunset, hfree⟩ := hq
        have hread := hunset.reads cmd (List.mem_of_getElem? hj)
        show q.phase.Spared dto p (if applied then st.execute cmd else st) _
        rw [hphase, Stores.execute_of_read hread, ite_self]
        exact ⟨hbit, hunset.settle hj fun _ bit hc => absurd hc (by simp), hfree⟩
      · refine hq.keep hphase ?_
        split_ifs <;> simp
  | abandoned => exact fun message hc => absurd hc (by simp)
  | looked hc => exact absurd (hcall.symm.trans hc) (by simp)
  | added hc => exact absurd (hcall.symm.trans hc) (by simp)
  | taken hc hphase hsettled hall =>
      rw [hphase] at hq
      exact absurd ((hq.2.1.not_all hsettled).symm.trans hall) (by simp)
  | called hc hphase =>
      rw [hphase] at hq
      show ((getAdminToken st c).1).Spared dto p st _
      rcases getAdminToken_phase st c with ⟨start, hafter⟩ | ⟨token, hafter⟩
      · rw [hafter]
        exact hq.2.2
      · rw [hafter]
        exact hq.2.2
  | registered => exact fun message hc => absurd hc (by simp [Outcome.userRegistered])
  | issued hphase =>
      rw [hphase] at hq
      exact hq
  | arrived hphase =>
      rw [hphase] at hq
      exact hq
  | created => trivial
  | lost => exact fun message hc => absurd hc (by simp [Outcome.noUserId])
  | fetched => trivial
  | assigned => trivial
  | failed hc hfail =>
      obtain rfl := Call.register.inj (hcall.symm.trans hc)
      rcases failureOutcome_cases hfail with rfl | ⟨message, rfl⟩ | ⟨rfl, rfl, token, hphase⟩
      · exact fun message hc => absurd hc (by simp)
      · exact fun message hc => absurd hc (by simp)
      · have htaken := hhonest token hphase rfl
        rw [hphase] at hq
        exact absurd htaken hq

/-- A call that has ended and whose commands are settled does nothing more. -/
lemma Transition.not_settled {st st' : Stores} {c : ℕ} {q q' : CallState} {a : Action}
    {out : List Output} (h : Transition st c q a (st', q', out)) : q.isSettled = false := by
  have hrunning {cmd : Command} {j : ℕ} (hj : q.commands[j]? = some cmd)
      (hsent : cmd.status = .sent) : q.isSettled = false := by
    have hany : q.commands.any Command.isSent = true :=
      List.any_eq_true.mpr ⟨cmd, List.mem_of_getElem? hj, Command.isSent_iff.mpr hsent⟩
    rw [CallState.isSettled, hany]
    simp
  cases h with
  | executed hj hsent => exact hrunning hj hsent
  | rejected hj hsent => exact hrunning hj hsent
  | abandoned hphase => rcases hphase with hphase | hphase <;> simp [CallState.isSettled, hphase]
  | looked _ hphase | taken _ hphase | called _ hphase | added _ hphase | registered _ hphase
  | issued hphase | arrived hphase | created _ hphase | lost _ hphase | fetched hphase
  | assigned _ hphase => simp [CallState.isSettled, hphase]
  | failed hc hfail =>
      rw [CallState.isSettled]
      cases hphase : q.phase with
      | ended outcome => exact absurd hfail (by simp [hphase, failureOutcome])
      | _ => rfl

/-- The calls before are as they were, and the registration is not refused. -/
structure SparedRun (calls : List CallState) (dto : RegisterDto) (p : ℤ) (h : List Output)
    (s : State) : Prop where
  calls_eq : ∃ q, s.calls = calls ++ [q] ∧ q.call = .register dto ∧
    q.phase.Spared dto p s.stores q.commands
  not_refused : ∀ message,
    .ended calls.length (.register dto) (.httpException 409 message) ∉ h

/-- What `honest` says of the registration itself. -/
lemma taken_of_honest {s : State} {c token : ℕ} {q : CallState} (hq : s.calls[c]? = some q)
    (hcall : q.call = .register dto) (hphase : q.phase = .creatingUser token)
    (h : undisturbed s (.fails c (.status 409)) = true) :
    dto.username ∈ s.stores.keycloak.taken := by
  have hq' : q =
      { call := .register dto, phase := .creatingUser token, commands := q.commands } := by
    rw [← hcall, ← hphase]
  rw [undisturbed, honest, hq, hq'] at h
  · simpa using h
  · simp

lemma SparedRun.step {calls : List CallState} {h : List Output} {s s' : State} {a : Action}
    {out : List Output} (hidle : calls.all CallState.isSettled = true)
    (hs : SparedRun calls dto p h s)
    (hstep : (auth.restrict undisturbed).step s a = some (s', out)) :
    SparedRun calls dto p (h ++ out) s' := by
  obtain ⟨hund, hstep⟩ := Machine.restrict_step.mp hstep
  obtain ⟨q, hcalls, hcall, hspared⟩ := hs.calls_eq
  cases step_cases hstep with
  | called call => exact absurd hund (by simp [undisturbed])
  | advanced c q₁ st q' hadv =>
      have hat := hadv.at_c
      rw [hcalls] at hat
      have hc : c = calls.length := by
        by_contra hne
        have hlt : c < calls.length := by
          have hle := (List.getElem?_eq_some_iff.mp hat).1
          rw [List.length_append, List.length_singleton] at hle
          omega
        rw [List.getElem?_append_left hlt] at hat
        have hsettled := List.all_eq_true.mp hidle q₁ (List.mem_of_getElem? hat)
        exact absurd (hadv.transition.not_settled.symm.trans hsettled) (by simp)
      subst hc
      obtain rfl : q = q₁ := by
        rw [List.getElem?_concat_length] at hat
        exact Option.some.inj hat
      have hafter := hadv.transition.spared hcall hspared fun token hphase ha => by
        subst ha
        exact taken_of_honest hadv.at_c hcall hphase hund
      have hcall' := hadv.transition.call_eq.trans hcall
      refine ⟨⟨q', ?_, hcall', hadv.stores_eq ▸ hafter⟩, fun message hmem => ?_⟩
      · rw [hadv.state, hcalls]
        simp
      · rcases List.mem_append.mp hmem with hmem | hmem
        · exact hs.not_refused message hmem
        · obtain ⟨-, -, hend⟩ := hadv.transition.ended_of_mem hmem
          rw [hend] at hafter
          exact hafter message rfl
  | ticked =>
      rw [List.append_nil]
      refine ⟨⟨q, hcalls, hcall, ?_⟩, hs.not_refused⟩
      cases hphase : q.phase <;> rw [hphase] at hspared <;> exact hspared

/-! ## The result -/

/-- The registration arrives. -/
lemma register_step (s : State) (dto : RegisterDto) :
    s.step (.call (.register dto)) =
      some ({ s with calls := s.calls ++ [(Call.register dto).begin] },
        [.started s.calls.length (.register dto)]) :=
  rfl

/-- A lookup whose bits are all set ends with 409. -/
lemma refused_of_hits {s : State} (hhits : Hits positions s.stores.bits dto.username) :
    ¬ NeverRefused s dto := by
  intro hnever
  let s₁ : State := { s with calls := s.calls ++ [(Call.register dto).begin] }
  have hat : s₁.calls[s.calls.length]? = some (Call.register dto).begin :=
    List.getElem?_concat_length
  have hnot : ¬ (Call.register dto).begin.Refused := by
    rintro ⟨cmd, hcmd, hrejected⟩
    exact absurd ((status_of_mem_getbits hcmd).2.2.symm.trans hrejected) (by simp)
  obtain ⟨actions, s₂, out, hreads, hrun, hend⟩ := lookup_completes (s := s₁) (.register rfl) hat
    (looks_begin (.register rfl)) rfl hnot hhits
  have hund : ∀ a ∈ actions, ∀ s, undisturbed s a = true := by
    intro a ha s
    cases hreads a ha with
    | execute j => rfl
    | resume => rfl
  rw [← Machine.run_restrict hund] at hrun
  exact hnever s₁ _ s₂ out _ (register_step s dto) (Machine.reaches_of_run hrun) hend

/-- A registration one of whose bits is unset does not answer 409 for a free username. -/
lemma neverRefused_of_unset {s : State} (hidle : s.isIdle = true)
    (hfree : dto.username ∉ s.stores.keycloak.taken) (hp : p ∈ positions dto.username)
    (hbit : s.stores.bits p = false) : NeverRefused s dto := by
  intro s₁ out s₂ h message hstep hr
  obtain ⟨rfl, -⟩ := Prod.mk.inj (Option.some.inj (hstep.symm.trans (register_step s dto)))
  have hstart : SparedRun s.calls dto p []
      { s with calls := s.calls ++ [(Call.register dto).begin] } :=
    ⟨⟨_, rfl, rfl, hbit, unset_getbits hp, hfree⟩, fun _ hc => absurd hc (by simp)⟩
  have hspared : SparedRun s.calls dto p h s₂ :=
    hr.invariant hstart fun _ _ _ _ _ _ hs hstep => hs.step hidle hstep
  exact hspared.not_refused message

/-- A free username is never refused if and only if it does not hit. -/
lemma neverRefused_iff_not_hits {s : State} (hidle : s.isIdle = true)
    (hfree : dto.username ∉ s.stores.keycloak.taken) :
    NeverRefused s dto ↔ ¬ Hits positions s.stores.bits dto.username := by
  constructor
  · intro hnever hhits
    exact refused_of_hits hhits hnever
  · intro hnot
    rw [Hits] at hnot
    push Not at hnot
    obtain ⟨p, hp, hbit⟩ := hnot
    exact neverRefused_of_unset hidle hfree hp (Bool.eq_false_iff.mpr hbit)

/-- **When a free username is not refused.**  After any calls, with any failures, once all of them
are over: the registration of a username that is not in Keycloak answers 409 under no circumstances
if and only if one of its bits is not among those that the calls before have set. -/
theorem neverRefused_iff {stores : Stores} {h : List Output} {s : State}
    (hempty : ∀ p, stores.bits p = false)
    (hr : auth.Reaches (State.start stores) h s) (hidle : s.isIdle = true)
    (hfree : dto.username ∉ s.stores.keycloak.taken) :
    NeverRefused s dto ↔ ∃ p ∈ positions dto.username, p ∉ offsetsSet h := by
  have hbits := bits_iff_offsetsSet hempty hr
  rw [neverRefused_iff_not_hits hidle hfree, Hits]
  push Not
  exact exists_congr fun p => and_congr_right fun _ => not_congr (hbits p)

def named (username : JsString) : RegisterDto := { bob with username := username }

/-- Redis answers the commands of "clddp", Keycloak creates the user and assigns the role. -/
def clddpRegistered : List Action :=
  [.call (.register (named (js "clddp")))] ++ answersAll 0 ++
    [.resume 0, .issueToken 0 60, .tokenArrives 0, .createUser 0 (js "1") (some (js "users/1")),
      .roleFetched 0 (js "r"), .roleAssigned 0] ++ answersAll 0 ++ [.resume 0]

/-- "bob" is not refused after "clddp". -/
theorem neverRefused_iff_bob : ∃ s h,
    auth.run (State.start .empty) clddpRegistered = some (s, h) ∧
      NeverRefused s bob := by
  have hover : (auth.run (State.start .empty) clddpRegistered).any
      (fun r => r.1.isIdle && decide (bob.username ∉ r.1.stores.keycloak.taken ∧
        ∃ p ∈ positions bob.username, p ∉ offsetsSet r.2)) = true := by
    decide +kernel
  obtain ⟨⟨s, h⟩, hrun, hafter⟩ := (Option.any_eq_true _ _).mp hover
  obtain ⟨hidle, hfree⟩ := Bool.and_eq_true_iff.mp hafter
  obtain ⟨hfree, hunset⟩ := of_decide_eq_true hfree
  exact ⟨s, h, hrun, (neverRefused_iff (fun _ => rfl) (Machine.reaches_of_run hrun) hidle
    hfree).mpr hunset⟩

/-- **A free username that is refused**, after registrations alone: "dcpia" has the same seven bits
as "clddp". -/
theorem free_refused : ¬ ∀ (stores : Stores) (h : List Output) (s : State) (dto : RegisterDto),
    (∀ p, stores.bits p = false) →
      (auth.restrict registering).Reaches (State.start stores) h s → s.isIdle = true →
        dto.username ∉ s.stores.keycloak.taken → NeverRefused s dto := by
  intro hclaim
  have hover : ((auth.restrict registering).run (State.start .empty) clddpRegistered).any
      (fun r => r.1.isIdle && decide (js "dcpia" ∉ r.1.stores.keycloak.taken ∧
        ∀ p ∈ positions (js "dcpia"), r.1.stores.bits p = true)) = true := by
    decide +kernel
  obtain ⟨⟨s, h⟩, hrun, hafter⟩ := (Option.any_eq_true _ _).mp hover
  obtain ⟨hidle, hfree⟩ := Bool.and_eq_true_iff.mp hafter
  obtain ⟨hfree, hset⟩ := of_decide_eq_true hfree
  have hnever : NeverRefused s (named (js "dcpia")) :=
    hclaim .empty h s _ (fun _ => rfl) (Machine.reaches_of_run hrun) hidle hfree
  have hhits : Hits positions s.stores.bits (named (js "dcpia")).username := hset
  exact refused_of_hits hhits hnever

/-! ## What the bits stand for -/

/-- Redis rejects no command. -/
def reliable : Action → Bool
  | .reject _ _ _ => false
  | _ => true

/-- The call is adding its username, or has added it. -/
def CallState.Adds (c : ℕ) (q : CallState) : Prop :=
  q.phase = .adding ∨
    ∃ outcome, q.phase = .ended outcome ∧ Completes q.call.username (.ended c q.call outcome)

/-- Where Redis rejects nothing: a call writes at the positions of its username only, and only while
it adds it. -/
structure Owner (c : ℕ) (q : CallState) : Prop where
  writes : ∀ cmd ∈ q.commands, cmd.write = true →
    cmd.offset ∈ positions q.call.username ∧ q.Adds c
  not_rejected : ∀ cmd ∈ q.commands, cmd.status ≠ .rejected

lemma owner_begin (c : ℕ) (call : Call) : Owner c call.begin := by
  have hprobing {username : JsString} {q : CallState} (hq : q.commands = getbits username) :
      Owner c q := by
    refine ⟨fun cmd hcmd hwrite => ?_, fun cmd hcmd => ?_⟩
    · exact absurd (hwrite.symm.trans (status_of_mem_getbits (hq ▸ hcmd)).1) (by simp)
    · simp [(status_of_mem_getbits (hq ▸ hcmd)).2.2]
  cases call with
  | mightExist username => exact hprobing rfl
  | add username =>
      refine ⟨fun cmd hcmd _ => ?_, fun cmd hcmd => by simp [status_of_mem_setbits hcmd]⟩
      obtain ⟨p, hp, rfl⟩ := List.mem_map.mp hcmd
      exact ⟨hp, Or.inl rfl⟩
  | register dto => exact hprobing rfl

/-- Whoever adds goes on until the username is added. -/
lemma Transition.adds {st st' : Stores} {c : ℕ} {q q' : CallState} {a : Action}
    {out : List Output} (h : Transition st c q a (st', q', out))
    (hrejected : ∀ cmd ∈ q.commands, cmd.status ≠ .rejected) (hq : q.Adds c) : q'.Adds c := by
  have hphase {p : Phase} (hp : q.phase = p) (hadding : p ≠ .adding)
      (hended : ∀ outcome, p ≠ .ended outcome) : q'.Adds c := by
    rcases hq with hc | ⟨outcome, hc, -⟩
    · exact absurd (hp.symm.trans hc) hadding
    · exact absurd (hp.symm.trans hc) (hended outcome)
  cases h with
  | executed | rejected => exact hq
  | abandoned _ hsettled =>
      obtain ⟨cmd, hcmd, hc⟩ := exists_of_rejected hsettled
      exact absurd hc (hrejected cmd hcmd)
  | added hcall => exact Or.inr ⟨_, rfl, hcall ▸ .added c⟩
  | registered hcall => exact Or.inr ⟨_, rfl, hcall ▸ .registered c rfl⟩
  | failed _ hfail =>
      rcases hq with hc | ⟨outcome, hc, -⟩
      all_goals exact absurd hfail (by simp [hc, failureOutcome])
  | assigned => exact Or.inl rfl
  | looked _ hp | taken _ hp | called _ hp | issued hp | arrived hp | created _ hp | lost _ hp
  | fetched hp => exact hphase hp (by simp) (by simp)

lemma Transition.owner {st st' : Stores} {c : ℕ} {q q' : CallState} {a : Action}
    {out : List Output} (h : Transition st c q a (st', q', out)) (hreliable : reliable a = true)
    (hq : Owner c q) : Owner c q' := by
  have hadds : ∀ cmd ∈ q.commands, cmd.write = true →
      cmd.offset ∈ positions q'.call.username ∧ q'.Adds c := by
    intro cmd hcmd hwrite
    obtain ⟨hoffset, hadds⟩ := hq.writes cmd hcmd hwrite
    exact ⟨h.call_eq ▸ hoffset, h.adds hq.not_rejected hadds⟩
  cases h with
  | @executed j cmd hj hsent =>
      have hcmd := List.mem_of_getElem? hj
      exact ⟨CallState.forall_mem_settle hadds (hadds cmd hcmd),
        CallState.forall_mem_settle hq.not_rejected (by simp)⟩
  | rejected => exact absurd hreliable (by simp [reliable])
  | assigned hcall =>
      refine ⟨fun cmd hcmd _ => ?_, fun cmd hcmd => by simp [status_of_mem_setbits hcmd]⟩
      obtain ⟨p, hp, rfl⟩ := List.mem_map.mp hcmd
      exact ⟨hcall ▸ hp, Or.inl rfl⟩
  | abandoned | looked | taken | called | added | registered | issued | arrived | created | lost
  | fetched | failed => exact ⟨hadds, hq.not_rejected⟩

/-- Every bit that is set belongs to a username that a call adds or has added. -/
structure Owned (s : State) : Prop where
  owners : Each s.calls Owner
  bits : ∀ p, s.stores.bits p = true →
    ∃ (c : ℕ) (q : CallState), s.calls[c]? = some q ∧ p ∈ positions q.call.username ∧ q.Adds c

lemma Owned.step {s s' : State} {a : Action} {out : List Output} (hs : Owned s)
    (hstep : (auth.restrict fun _ => reliable).step s a = some (s', out)) : Owned s' := by
  obtain ⟨hreliable, hstep⟩ := Machine.restrict_step.mp hstep
  cases step_cases hstep with
  | called call =>
      refine ⟨hs.owners.concat (owner_begin _ call), fun p hp => ?_⟩
      obtain ⟨c, q, hq, hadds⟩ := hs.bits p hp
      exact ⟨c, q, getElem?_append_of_some hq _, hadds⟩
  | advanced c q st q' hadv =>
      have hq := hs.owners c q hadv.at_c
      have hq' := hadv.transition.owner hreliable hq
      refine ⟨hadv.each hs.owners hq' fun _ _ _ => id, fun p hp => ?_⟩
      rcases (step_bits_iff hstep).mp hp with hp | hp
      · obtain ⟨i, q₁, hq₁, hpos, hadds⟩ := hs.bits p hp
        by_cases hi : c = i
        · subst hi
          obtain rfl := Option.some.inj (hadv.at_c.symm.trans hq₁)
          exact ⟨c, q', hadv.at_self, hadv.transition.call_eq ▸ hpos,
            hadv.transition.adds hq.not_rejected hadds⟩
        · exact ⟨i, q₁, (hadv.at_other hi).trans hq₁, hpos, hadds⟩
      · obtain ⟨cmd, hcmd, hwrite, rfl⟩ := hadv.transition.mem_offsetsSet hp
        obtain ⟨hpos, hadds⟩ := hq.writes cmd hcmd hwrite
        exact ⟨c, q', hadv.at_self, hadv.transition.call_eq ▸ hpos,
          hadv.transition.adds hq.not_rejected hadds⟩
  | ticked => exact ⟨hs.owners, hs.bits⟩

lemma CallState.not_adding_of_settled {q : CallState} (h : q.isSettled = true) :
    q.phase ≠ .adding := by
  intro hc
  exact absurd h (by simp [isSettled, hc])

/-- **The bits that are set are those of the usernames that were added**, as long as Redis rejects
nothing and once all calls are over. -/
theorem represents_added {stores : Stores} {h : List Output} {s : State}
    (hempty : ∀ p, stores.bits p = false)
    (hr : (auth.restrict fun _ => reliable).Reaches (State.start stores) h s)
    (hidle : s.isIdle = true) :
    Represents positions s.stores.bits {username | ∃ o ∈ h, Completes username o} := by
  have howned : Owned s := by
    refine hr.stateInvariant ⟨each_nil _, fun p hp => ?_⟩ fun _ _ _ _ hs hstep => hs.step hstep
    exact absurd hp (by simp [State.start, hempty])
  intro p
  constructor
  · intro hp
    obtain ⟨c, q, hq, hpos, hadds⟩ := howned.bits p hp
    have hsettled := List.all_eq_true.mp hidle q (List.mem_of_getElem? hq)
    obtain ⟨outcome, hphase, hdone⟩ :=
      hadds.resolve_left (CallState.not_adding_of_settled hsettled)
    have hmem := (recorded_of_reaches hr.of_restrict).logged c q hq outcome hphase
    exact ⟨q.call.username, ⟨_, hmem, hdone⟩, hpos⟩
  · rintro ⟨username, ⟨o, ho, hdone⟩, hpos⟩
    exact (members_of_reaches hr.of_restrict).hits username o ho hdone p hpos

/-- **When a free username is not refused**, as long as Redis rejects nothing: if and only if the
usernames that were added do not cover its positions. -/
theorem neverRefused_iff_uncovered {stores : Stores} {h : List Output} {s : State}
    (hempty : ∀ p, stores.bits p = false)
    (hr : (auth.restrict fun _ => reliable).Reaches (State.start stores) h s)
    (hidle : s.isIdle = true) (hfree : dto.username ∉ s.stores.keycloak.taken) :
    NeverRefused s dto ↔ ∃ p ∈ positions dto.username,
      ∀ username, (∃ o ∈ h, Completes username o) → p ∉ positions username := by
  rw [neverRefused_iff_not_hits hidle hfree, (represents_added hempty hr hidle).hits_iff]
  push Not
  rfl

end RedisApi.Auth
