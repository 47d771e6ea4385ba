import RedisApi.Auth.Calls

/-!
# No false negatives

Once `add` has completed for a username, every lookup of it that starts later finds it, whatever
other calls do at the same time.

The writers: a command that Redis has answered to `add` has set its bit, and bits are never reset,
so that all bits of the username are set from the end of `add` on.  The readers: a call that starts
then reads the same positions and sees set bits only.

* `Writes`, `Members` — what is known of the writers, and of the usernames that they have added.
* `Looks` — what is known of a call that looks up a username all of whose bits are set.
* `lookup_completes` — such a call can always be brought to its end by its own commands.
* `no_false_negative` — the result, for `mightExist` and for `register`.
-/

namespace RedisApi.Auth

open Core EcmaScript BloomFilter

/-! ## Lookups and additions -/

def Call.username : Call → JsString
  | .mightExist username | .add username => username
  | .register dto => dto.username

/-- `add(username)` has completed: called by itself, or as the last step of a registration. -/
inductive Completes (username : JsString) : Output → Prop
  | added (c : ℕ) : Completes username (.ended c (.add username) .added)
  | registered (c : ℕ) {dto : RegisterDto} (same : dto.username = username) :
      Completes username (.ended c (.register dto) .userRegistered)

/-- The outcomes of an addition that has completed. -/
def Outcome.isSuccess : Outcome → Bool
  | .added | .created _ => true
  | _ => false

lemma Completes.ended {username : JsString} {o : Output} (h : Completes username o) :
    ∃ c call outcome, o = .ended c call outcome ∧ call.username = username ∧
      outcome.isSuccess = true := by
  cases h with
  | added c => exact ⟨c, _, _, rfl, rfl, rfl⟩
  | registered c hsame => exact ⟨c, _, _, rfl, hsame, rfl⟩

/-- How a call ends that finds the username in the filter. -/
inductive Finds (username : JsString) : Call → Outcome → Prop
  | mightExist : Finds username (.mightExist username) (.answer true)
  | register {dto : RegisterDto} (same : dto.username = username) :
      Finds username (.register dto) (.usernameTaken dto)

/-- A command of the call was rejected. -/
def CallState.Refused (q : CallState) : Prop := ∃ cmd ∈ q.commands, cmd.status = .rejected

/-- Redis runs a command of the call, or the call goes on. -/
inductive Action.Reads (c : ℕ) : Action → Prop
  | execute (j : ℕ) : Reads c (.execute c j)
  | resume : Reads c (.resume c)

/-! ## The writers -/

/-- While it adds, a call has one command for each position; each that is answered has set its
bit. -/
structure Writes (bits : ℤ → Bool) (q : CallState) : Prop where
  adding : q.phase = .adding →
    q.commands.map Command.request = (positions q.call.username).map fun p => (true, p)
  written : ∀ cmd ∈ q.commands, cmd.write = true → ∀ bit, cmd.status = .answered bit →
    bits cmd.offset = true

lemma Writes.mono {bits bits' : ℤ → Bool} {q : CallState} (hq : Writes bits q)
    (hbits : ∀ p, bits p = true → bits' p = true) : Writes bits' q :=
  ⟨hq.adding, fun cmd hcmd hwrite bit hbit => hbits _ (hq.written cmd hcmd hwrite bit hbit)⟩

/-- Commands that have just been sent are not answered. -/
lemma status_of_mem_getbits {username : JsString} {cmd : Command} (h : cmd ∈ getbits username) :
    cmd.write = false ∧ cmd.offset ∈ positions username ∧ cmd.status = .sent := by
  obtain ⟨p, hp, rfl⟩ := List.mem_map.mp h
  exact ⟨rfl, hp, rfl⟩

lemma status_of_mem_setbits {username : JsString} {cmd : Command} (h : cmd ∈ setbits username) :
    cmd.status = .sent := by
  obtain ⟨p, hp, rfl⟩ := List.mem_map.mp h
  rfl

lemma setbits_request (username : JsString) :
    (setbits username).map Command.request = (positions username).map fun p => (true, p) := by
  rw [setbits, List.map_map]
  rfl

lemma writes_begin (bits : ℤ → Bool) (call : Call) : Writes bits call.begin := by
  have hunanswered : ∀ cmd ∈ call.begin.commands, cmd.status = .sent := by
    cases call with
    | mightExist | register => exact fun cmd hcmd => (status_of_mem_getbits hcmd).2.2
    | add => exact fun cmd hcmd => status_of_mem_setbits hcmd
  refine ⟨fun hphase => ?_, fun cmd hcmd _ bit hbit => ?_⟩
  · cases call with
    | mightExist | register => exact absurd hphase (by simp [Call.begin])
    | add username => exact setbits_request username
  · exact absurd ((hunanswered cmd hcmd).symm.trans hbit) (by simp)

/-- Once all commands of an addition are answered, all bits of the username are set. -/
lemma Writes.hits {bits : ℤ → Bool} {q : CallState} {answers : List Bool} (hq : Writes bits q)
    (hphase : q.phase = .adding) (hsettled : promiseAll q.commands = .resolved answers) :
    Hits positions bits q.call.username := by
  intro p hp
  have hrequest : (true, p) ∈ q.commands.map Command.request := by
    rw [hq.adding hphase]
    exact List.mem_map_of_mem hp
  obtain ⟨cmd, hcmd, hreq⟩ := List.mem_map.mp hrequest
  obtain ⟨hwrite, rfl⟩ := Prod.mk.inj hreq
  exact hq.written cmd hcmd hwrite _ ((answered_of_resolved hsettled).1 cmd hcmd)

section transitions

variable {st st' : Stores} {c : ℕ} {q q' : CallState} {a : Action} {out : List Output}
  {username : JsString}

lemma Transition.bits_mono (h : Transition st c q a (st', q', out)) (p : ℤ)
    (hp : st.bits p = true) : st'.bits p = true :=
  h.bits_iff.mpr (Or.inl hp)

lemma Transition.writes (h : Transition st c q a (st', q', out)) (hq : Writes st.bits q) :
    Writes st'.bits q' := by
  have hbefore : Writes st'.bits q := hq.mono h.bits_mono
  have hquiet : q'.phase ≠ .adding → q'.commands = q.commands → Writes st'.bits q' := by
    intro hphase hcommands
    exact ⟨fun hc => absurd hc hphase, hcommands ▸ hbefore.written⟩
  cases h with
  | executed hj hsent =>
      refine ⟨fun hphase => (CallState.settle_requests hj _).trans (hq.adding hphase),
        CallState.forall_mem_settle hbefore.written fun hwrite bit _ => ?_⟩
      exact Stores.execute_bits_iff.mpr (Or.inr ⟨hwrite, rfl⟩)
  | rejected hj hsent =>
      refine ⟨fun hphase => (CallState.settle_requests hj _).trans (hq.adding hphase),
        CallState.forall_mem_settle hbefore.written fun _ bit hbit => ?_⟩
      exact absurd hbit (by simp)
  | assigned hcall hphase =>
      refine ⟨fun _ => ?_, fun cmd hcmd _ bit hbit => ?_⟩
      · rw [hcall]
        exact setbits_request _
      · exact absurd ((status_of_mem_setbits hcmd).symm.trans hbit) (by simp)
  | called =>
      refine hquiet ?_ rfl
      rcases getAdminToken_phase st c with ⟨start, hphase⟩ | ⟨token, hphase⟩
      all_goals exact fun hc => absurd (hphase.symm.trans hc) (by simp)
  | abandoned | looked | taken | added | registered | issued | arrived | created | lost | fetched
  | failed => exact hquiet (by simp) rfl

/-- **The end of an addition**: all bits of the username are set. -/
lemma Transition.completes (h : Transition st c q a (st', q', out)) (hq : Writes st.bits q)
    {o : Output} (ho : o ∈ out) (hdone : Completes username o) :
    Hits positions st'.bits username := by
  obtain ⟨c', call, outcome, rfl, hname, houtcome⟩ := hdone.ended
  obtain ⟨-, rfl, hend⟩ := h.ended_of_mem ho
  cases h with
  | added hcall hphase hsettled | registered hcall hphase hsettled =>
      exact hname ▸ hq.hits hphase hsettled
  | executed => split_ifs at ho <;> exact absurd ho (by simp)
  | rejected => split_ifs at ho <;> exact absurd ho (by simp)
  | called =>
      rcases List.mem_cons.mp ho with ho | ho
      · exact absurd ho (by simp)
      · obtain ⟨value, atMs, heq⟩ := getAdminToken_out ho
        exact absurd heq (by simp)
  | failed hcall hfail =>
      obtain rfl := Phase.ended.inj hend
      rcases failureOutcome_cases hfail with rfl | ⟨message, rfl⟩ | ⟨rfl, -⟩
      all_goals exact absurd houtcome Bool.false_ne_true
  | abandoned | looked | taken | lost =>
      obtain rfl := Phase.ended.inj hend
      exact absurd houtcome Bool.false_ne_true
  | issued | arrived | created | fetched | assigned => exact absurd ho (by simp)

end transitions

/-- What is known of the writers: all bits of the usernames that they have added are set. -/
structure Members (h : List Output) (s : State) : Prop where
  writers : Each s.calls fun _ q => Writes s.stores.bits q
  hits : ∀ username, ∀ o ∈ h, Completes username o → Hits positions s.stores.bits username

theorem Members.step {h : List Output} {s s' : State} {a : Action} {out : List Output}
    (hmem : Members h s) (hstep : s.step a = some (s', out)) : Members (h ++ out) s' := by
  have hmono : ∀ p, s.stores.bits p = true → s'.stores.bits p = true :=
    fun p hp => (step_bits_iff hstep).mpr (Or.inl hp)
  have hold : ∀ username, ∀ o ∈ h, Completes username o →
      Hits positions s'.stores.bits username :=
    fun username o ho hdone => (hmem.hits username o ho hdone).mono hmono
  cases step_cases hstep with
  | called call =>
      refine ⟨hmem.writers.concat (writes_begin _ call), fun username o ho hdone => ?_⟩
      rcases List.mem_append.mp ho with ho | ho
      · exact hold username o ho hdone
      · obtain ⟨c, call', outcome, rfl, -⟩ := hdone.ended
        exact absurd (List.mem_singleton.mp ho) (by simp)
  | advanced c q st q' hadv =>
      rw [hadv.stores_eq] at hmono hold
      have hq := hmem.writers c q hadv.at_c
      refine ⟨hadv.each hmem.writers ?_ fun i x _ hx => ?_, fun username o ho hdone => ?_⟩
      · rw [hadv.stores_eq]
        exact hadv.transition.writes hq
      · rw [hadv.stores_eq]
        exact hx.mono hmono
      · rcases List.mem_append.mp ho with ho | ho
        · exact hadv.stores_eq ▸ hold username o ho hdone
        · exact hadv.stores_eq ▸ hadv.transition.completes hq ho hdone
  | ticked =>
      rw [List.append_nil]
      exact ⟨hmem.writers, hold⟩

theorem members_of_reaches {stores : Stores} {h : List Output} {s : State}
    (hr : auth.Reaches (State.start stores) h s) : Members h s :=
  hr.invariant ⟨each_nil _, fun _ _ ho => absurd ho (by simp)⟩
    fun _ _ _ _ _ _ hmem hstep => hmem.step hstep

/-! ## The readers -/

/-- A call that looks up a username all of whose bits are set: it has seen set bits only, and if it
has ended, it has found the username, or one of its commands was rejected. -/
structure Looks (username : JsString) (call : Call) (found : Outcome) (q : CallState) : Prop where
  call_eq : q.call = call
  stage : q.phase = .probing ∨ q.phase = .ended found ∨ (q.phase = .ended .rejected ∧ q.Refused)
  reads : ∀ cmd ∈ q.commands, cmd.write = false ∧ cmd.offset ∈ positions username
  seen : ∀ cmd ∈ q.commands, ∀ bit, cmd.status = .answered bit → bit = true

variable {username : JsString} {call : Call} {found : Outcome}

lemma looks_begin (hfinds : Finds username call found) : Looks username call found call.begin := by
  have hseen : ∀ cmd ∈ getbits username, ∀ bit, cmd.status = .answered bit → bit = true := by
    intro cmd hcmd bit hbit
    exact absurd ((status_of_mem_getbits hcmd).2.2.symm.trans hbit) (by simp)
  have hreads : ∀ cmd ∈ getbits username, cmd.write = false ∧ cmd.offset ∈ positions username :=
    fun cmd hcmd => ⟨(status_of_mem_getbits hcmd).1, (status_of_mem_getbits hcmd).2.1⟩
  cases hfinds with
  | mightExist => exact ⟨rfl, Or.inl rfl, hreads, hseen⟩
  | register hsame =>
      subst hsame
      exact ⟨rfl, Or.inl rfl, hreads, hseen⟩

/-- A rejected command stays rejected. -/
lemma CallState.Refused.settle {q : CallState} {j : ℕ} {cmd : Command} {status : CommandStatus}
    (h : q.Refused) (hj : q.commands[j]? = some cmd) (hsent : cmd.status = .sent) :
    (q.settle j cmd status).Refused := by
  obtain ⟨cmd', hcmd', hrejected⟩ := h
  obtain ⟨i, hi⟩ := List.mem_iff_getElem?.mp hcmd'
  have hne : j ≠ i := by
    rintro rfl
    obtain rfl := Option.some.inj (hj.symm.trans hi)
    exact absurd (hsent.symm.trans hrejected) (by simp)
  exact ⟨cmd', List.mem_of_getElem? ((List.getElem?_set_ne hne).trans hi), hrejected⟩

/-- Bits that are all set are all seen. -/
lemma Looks.all_seen {q : CallState} {bits : List Bool} (hq : Looks username call found q)
    (hsettled : promiseAll q.commands = .resolved bits) : bits.all (· = true) = true := by
  obtain ⟨hanswered, rfl⟩ := answered_of_resolved hsettled
  refine List.all_eq_true.mpr fun bit hbit => ?_
  obtain ⟨cmd, hcmd, rfl⟩ := List.mem_map.mp hbit
  exact decide_eq_true (hq.seen cmd hcmd _ (hanswered cmd hcmd))

/-- **A transition of a call that looks up**: it never goes on to the identity service. -/
lemma Transition.looks {st st' : Stores} {c : ℕ} {q q' : CallState} {a : Action}
    {out : List Output} (h : Transition st c q a (st', q', out))
    (hhits : Hits positions st.bits username) (hfinds : Finds username call found)
    (hq : Looks username call found q) :
    Looks username call found q' ∧ ∀ i, .identityCalled i ∉ out := by
  have hquiet {o : Outcome} : ∀ i, .identityCalled i ∉ [Output.ended c q.call o] :=
    fun i hi => absurd (List.mem_singleton.mp hi) (by simp)
  -- a call in any other phase is not looking up
  have hstage {p : Phase} (hphase : q.phase = p) (hprobing : p ≠ .probing)
      (hended : ∀ outcome, p ≠ .ended outcome) : False := by
    rcases hq.stage with hc | hc | ⟨hc, -⟩
    · exact hprobing (hphase.symm.trans hc)
    · exact hended _ (hphase.symm.trans hc)
    · exact hended _ (hphase.symm.trans hc)
  cases h with
  | @executed j cmd hj hsent =>
      obtain ⟨hwrite, hoffset⟩ := hq.reads cmd (List.mem_of_getElem? hj)
      refine ⟨⟨hq.call_eq, ?_, ?_, ?_⟩, fun i hi => ?_⟩
      · exact hq.stage.imp_right (Or.imp_right (And.imp_right fun hc => hc.settle hj hsent))
      · exact CallState.forall_mem_settle hq.reads ⟨hwrite, hoffset⟩
      · refine CallState.forall_mem_settle hq.seen fun bit hbit => ?_
        rw [← CommandStatus.answered.inj hbit]
        exact hhits _ hoffset
      · split_ifs at hi <;> exact absurd hi (by simp)
  | @rejected j cmd applied hj hsent =>
      refine ⟨⟨hq.call_eq, ?_, ?_, ?_⟩, fun i hi => ?_⟩
      · exact hq.stage.imp_right (Or.imp_right (And.imp_right fun hc => hc.settle hj hsent))
      · exact CallState.forall_mem_settle hq.reads (hq.reads cmd (List.mem_of_getElem? hj))
      · exact CallState.forall_mem_settle hq.seen fun bit hbit => absurd hbit (by simp)
      · split_ifs at hi <;> exact absurd hi (by simp)
  | abandoned hphase hsettled =>
      exact ⟨⟨hq.call_eq, Or.inr (Or.inr ⟨rfl, exists_of_rejected hsettled⟩), hq.reads, hq.seen⟩,
        hquiet⟩
  | looked hcall hphase hsettled =>
      refine ⟨⟨hq.call_eq, Or.inr (Or.inl ?_), hq.reads, hq.seen⟩, hquiet⟩
      obtain rfl := hq.call_eq.symm.trans hcall
      cases hfinds with
      | mightExist => exact congrArg (fun b => Phase.ended (.answer b)) (hq.all_seen hsettled)
  | taken hcall hphase hsettled hall =>
      refine ⟨⟨hq.call_eq, Or.inr (Or.inl ?_), hq.reads, hq.seen⟩, hquiet⟩
      obtain rfl := hq.call_eq.symm.trans hcall
      cases hfinds with
      | register hsame => rfl
  | called hcall hphase hsettled hunset =>
      exact absurd ((hq.all_seen hsettled).symm.trans hunset) (by simp)
  | failed hcall hfail =>
      rcases hq.stage with hc | hc | ⟨hc, -⟩
      all_goals exact absurd hfail (by simp [hc, failureOutcome])
  | added _ hp | registered _ hp | issued hp | arrived hp | created _ hp | lost _ hp | fetched hp
  | assigned _ hp => exact (hstage hp (by simp) (by simp)).elim

/-- What is known of the calls that look up a username after it was added. -/
def Lookups (h : List Output) (s : State) : Prop :=
  ∀ username o c call found, Completes username o → Finds username call found →
    [o, .started c call].Sublist h →
      (∃ q, s.calls[c]? = some q ∧ Looks username call found q) ∧ .identityCalled c ∉ h

theorem Lookups.step {h : List Output} {s s' : State} {a : Action} {out : List Output}
    (hlook : Lookups h s) (hrec : Recorded h s) (hmem : Members h s)
    (hstep : s.step a = some (s', out)) : Lookups (h ++ out) s' := by
  intro username o c call found hdone hfinds hafter
  have hidentity : ∀ c, .identityCalled c ∉ h → .identityCalled c ∉ out →
      .identityCalled c ∉ h ++ out := by
    intro c hh hout hc
    exact (List.mem_append.mp hc).elim hh hout
  cases step_cases hstep with
  | called call' =>
      have hnew : ∀ i, .identityCalled i ∉ [Output.started s.calls.length call'] :=
        fun i hi => absurd (List.mem_singleton.mp hi) (by simp)
      rcases pair_sublist_append_cases hafter with hbefore | ⟨ho, hstarted⟩ | hboth
      · obtain ⟨⟨q, hq, hlooks⟩, hnone⟩ := hlook username o c call found hdone hfinds hbefore
        exact ⟨⟨q, getElem?_append_of_some hq _, hlooks⟩, hidentity c hnone (hnew c)⟩
      · -- the call that arrives looks the username up
        obtain ⟨rfl, rfl⟩ := Output.started.inj (List.mem_singleton.mp hstarted)
        refine ⟨⟨_, List.getElem?_concat_length, looks_begin hfinds⟩, hidentity _ ?_ (hnew _)⟩
        exact fun hc => hrec.fresh _ hc rfl
      · exact absurd hboth.length_le (by simp)
  | advanced i q st q' hadv =>
      rcases pair_sublist_append_cases hafter with hbefore | ⟨-, hstarted⟩ | hboth
      · obtain ⟨⟨q₁, hq₁, hlooks⟩, hnone⟩ := hlook username o c call found hdone hfinds hbefore
        by_cases hi : i = c
        · subst hi
          obtain rfl := Option.some.inj (hadv.at_c.symm.trans hq₁)
          have hhits := hmem.hits username o (hbefore.subset List.mem_cons_self) hdone
          obtain ⟨hlooks', hquiet⟩ := hadv.transition.looks hhits hfinds hlooks
          exact ⟨⟨q', hadv.at_self, hlooks'⟩, hidentity i hnone (hquiet i)⟩
        · refine ⟨⟨q₁, (hadv.at_other hi).trans hq₁, hlooks⟩, hidentity c hnone fun hc => hi ?_⟩
          exact (hadv.transition.index_eq _ hc).symm
      · exact absurd hstarted hadv.transition.not_started
      · exact absurd (hboth.subset (List.mem_cons_of_mem _ (List.mem_singleton_self _)))
          hadv.transition.not_started
  | ticked =>
      rw [List.append_nil] at hafter ⊢
      exact hlook username o c call found hdone hfinds hafter

theorem lookups_of_reaches {stores : Stores} {h : List Output} {s : State}
    (hr : auth.Reaches (State.start stores) h s) : Lookups h s := by
  refine hr.invariant (fun _ _ _ _ _ _ _ hc => absurd hc.length_le (by simp)) ?_
  intro h s a s' out hr hlook hstep
  exact hlook.step (recorded_of_reaches hr) (members_of_reaches hr) hstep

/-! ## A lookup can be completed -/

lemma execute_of_sent {s : State} {c j : ℕ} {q : CallState} {cmd : Command}
    (hq : s.calls[c]? = some q) (hj : q.commands[j]? = some cmd) (hsent : cmd.status = .sent) :
    ∃ s' out, s.step (.execute c j) = some (s', out) ∧
      s'.calls[c]? = some (q.settle j cmd (.answered (s.stores.bits cmd.offset))) := by
  let q' := q.settle j cmd (.answered (s.stores.bits cmd.offset))
  let out : List Output := [if cmd.write then .bitSet c cmd.offset
    else .bitRead c cmd.offset (s.stores.bits cmd.offset)]
  refine ⟨{ stores := s.stores.execute cmd, calls := s.calls.set c q' }, out, ?_,
    (getElem?_set_of_some hq q').trans (if_pos rfl)⟩
  show s.advance c _ = _
  rw [State.advance, hq]
  dsimp only
  rw [execute, hj]
  dsimp only
  rw [if_pos (Command.isSent_iff.mpr hsent)]
  rfl

lemma resume_of_answered {s : State} {c : ℕ} {q : CallState} (hfinds : Finds username call found)
    (hq : s.calls[c]? = some q) (hlooks : Looks username call found q)
    (hphase : q.phase = .probing) (hanswered : ∀ cmd ∈ q.commands, cmd.status = .answered cmd.bit) :
    ∃ s', s.step (.resume c) = some (s', [.ended c call found]) := by
  have hsettled := promiseAll_of_answered hanswered
  have hall := hlooks.all_seen hsettled
  obtain rfl := hlooks.call_eq
  refine ⟨{ s with calls := s.calls.set c { q with phase := .ended found } }, ?_⟩
  show s.advance c _ = _
  rw [State.advance, hq]
  dsimp only
  rw [resume, hphase, hsettled]
  dsimp only
  cases hcall : q.call with
  | mightExist username' =>
      rw [hcall] at hfinds
      cases hfinds
      dsimp only
      rw [hall, ← hcall]
      rfl
  | add username' =>
      rw [hcall] at hfinds
      cases hfinds
  | register dto =>
      rw [hcall] at hfinds
      cases hfinds
      dsimp only
      rw [if_pos hall, ← hcall]
      rfl

/-- **Progress.**  A call that looks up a username all of whose bits are set, none of whose commands
was rejected, finds it as soon as Redis has run its commands. -/
theorem lookup_completes {s : State} {c : ℕ} {q : CallState} (hfinds : Finds username call found)
    (hq : s.calls[c]? = some q) (hlooks : Looks username call found q)
    (hphase : q.phase = .probing) (hnot : ¬ q.Refused)
    (hhits : Hits positions s.stores.bits username) :
    ∃ actions s' out, (∀ a ∈ actions, Action.Reads c a) ∧
      auth.run s actions = some (s', out) ∧ .ended c call found ∈ out := by
  -- induction on the number of commands that are under way
  generalize hn : q.commands.countP Command.isSent = n
  induction n generalizing s q with
  | zero =>
      have hanswered : ∀ cmd ∈ q.commands, cmd.status = .answered cmd.bit := by
        intro cmd hcmd
        refine Command.answered_bit (fun hc => ?_) fun hc => hnot ⟨cmd, hcmd, hc⟩
        exact List.countP_eq_zero.mp hn cmd hcmd (Command.isSent_iff.mpr hc)
      obtain ⟨s', hstep⟩ := resume_of_answered hfinds hq hlooks hphase hanswered
      refine ⟨[.resume c], s', _, fun a ha => ?_, Machine.run_cons hstep rfl, by simp⟩
      exact List.mem_singleton.mp ha ▸ .resume
  | succ n ih =>
      have hpos : 0 < q.commands.countP Command.isSent := by omega
      obtain ⟨cmd, hcmd, hsent⟩ := List.countP_pos_iff.mp hpos
      rw [Command.isSent_iff] at hsent
      obtain ⟨j, hj⟩ := List.mem_iff_getElem?.mp hcmd
      obtain ⟨s₁, out, hstep, hq₁⟩ := execute_of_sent hq hj hsent
      have hlooks₁ := (Transition.executed (c := c) hj hsent).looks hhits hfinds hlooks
      have hcount := countP_set_add (p := Command.isSent) hj
        { cmd with status := .answered (s.stores.bits cmd.offset) }
      rw [if_pos (Command.isSent_iff.mpr hsent), if_neg (by simp [Command.isSent]), hn] at hcount
      have hrest : ∀ cmd ∈ q.commands, cmd.status ≠ .rejected :=
        fun cmd hcmd hc => hnot ⟨cmd, hcmd, hc⟩
      have hnot₁ : ¬ (q.settle j cmd (.answered (s.stores.bits cmd.offset))).Refused := by
        rintro ⟨cmd', hcmd', hc⟩
        exact CallState.forall_mem_settle hrest (by simp) cmd' hcmd' hc
      have hhits₁ : Hits positions s₁.stores.bits username :=
        hhits.mono fun p hp => (step_bits_iff hstep).mpr (Or.inl hp)
      obtain ⟨actions, s', out', hreads, hrun, hend⟩ :=
        ih hq₁ hlooks₁.1 hphase hnot₁ hhits₁ (Nat.succ.inj hcount)
      exact ⟨.execute c j :: actions, s', out ++ out',
        List.forall_mem_cons.mpr ⟨.execute j, hreads⟩, Machine.run_cons hstep hrun,
        List.mem_append_right _ hend⟩

/-! ## The result -/

/-- **No false negatives.**  Of any calls that run side by side, with any failures: a lookup of a
username that starts after the username was added never asks the identity service; it ends with the
username found, or in an error because a read of it was rejected; and until one is rejected it can
end, by its own reads, with the username found. -/
theorem no_false_negatives {stores : Stores} {h : List Output} {s : State}
    (hr : auth.Reaches (State.start stores) h s) {o : Output} {c : ℕ}
    (hdone : Completes username o) (hfinds : Finds username call found)
    (hafter : [o, .started c call].Sublist h) :
    .identityCalled c ∉ h ∧ ∃ q, s.calls[c]? = some q ∧
      (∀ outcome, .ended c call outcome ∈ h →
        outcome = found ∨ (outcome = .rejected ∧ q.Refused)) ∧
      ((∀ outcome, .ended c call outcome ∉ h) → ¬ q.Refused →
        ∃ actions s' out, (∀ a ∈ actions, Action.Reads c a) ∧
          auth.run s actions = some (s', out) ∧ .ended c call found ∈ out) := by
  have hrec := recorded_of_reaches hr
  obtain ⟨⟨q, hq, hlooks⟩, hidentity⟩ :=
    lookups_of_reaches hr username o c call found hdone hfinds hafter
  refine ⟨hidentity, q, hq, fun outcome hend => ?_, fun hopen hnot => ?_⟩
  · obtain ⟨q', hq', -, hphase⟩ := hrec.ended c call outcome hend
    obtain rfl := Option.some.inj (hq.symm.trans hq')
    rcases hlooks.stage with hc | hc | ⟨hc, hrefused⟩
    · exact absurd (hphase.symm.trans hc) (by simp)
    · exact Or.inl (Phase.ended.inj (hphase.symm.trans hc))
    · exact Or.inr ⟨Phase.ended.inj (hphase.symm.trans hc), hrefused⟩
  · have hover : ∀ outcome, q.phase ≠ .ended outcome := by
      intro outcome hc
      exact hopen outcome (hlooks.call_eq ▸ hrec.logged c q hq outcome hc)
    have hphase : q.phase = .probing := by
      rcases hlooks.stage with hc | hc | ⟨hc, -⟩
      · exact hc
      · exact absurd hc (hover _)
      · exact absurd hc (hover _)
    have hhits := (members_of_reaches hr).hits username o (hafter.subset List.mem_cons_self) hdone
    exact lookup_completes hfinds hq hlooks hphase hnot hhits

def bob : RegisterDto where
  username := js "bob"
  password := js "Password123!"
  email := js "bob@example.com"
  firstName := js "Bob"
  lastName := js "B"

/-- Redis runs the seven commands of the call. -/
def answersAll (c : ℕ) : List Action := (List.range numHashes).map (Action.execute c)

/-- Call 0 adds "bob" while call 1 adds "alice"; then call 2 registers "bob". -/
def besideAnother : List Action :=
  [.call (.add (js "bob")), .call (.add (js "alice")), .execute 1 3] ++ answersAll 0 ++
    [.execute 1 0, .resume 0, .call (.register bob), .execute 2 6, .execute 1 1, .execute 2 2]

theorem no_false_negatives_besideAnother : ∃ s h, auth.run (State.start .empty) besideAnother =
    some (s, h) ∧ .identityCalled 2 ∉ h ∧ ∃ q, s.calls[2]? = some q ∧
      (∀ outcome, .ended 2 (.register bob) outcome ∈ h →
        outcome = .usernameTaken bob ∨ (outcome = .rejected ∧ q.Refused)) ∧
      ((∀ outcome, .ended 2 (.register bob) outcome ∉ h) → ¬ q.Refused →
        ∃ actions s' out, (∀ a ∈ actions, Action.Reads 2 a) ∧ auth.run s actions = some (s', out) ∧
          .ended 2 (.register bob) (.usernameTaken bob) ∈ out) := by
  have hafter : (auth.run (State.start .empty) besideAnother).any (fun r =>
      decide ([.ended 0 (.add (js "bob")) .added, .started 2 (.register bob)].Sublist r.2)) =
        true := by
    decide +kernel
  obtain ⟨⟨s, h⟩, hrun, hsub⟩ := (Option.any_eq_true _ _).mp hafter
  exact ⟨s, h, hrun, no_false_negatives (Machine.reaches_of_run hrun) (.added 0) (.register rfl)
    (of_decide_eq_true hsub)⟩

end RedisApi.Auth
