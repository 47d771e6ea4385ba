import RedisApi.Auth.NoFalseNegatives

/-!
# What a registration leaves behind

One registration, alone, from any stores, with any failures.  Nothing is undone when a request
fails: what Keycloak has been made to do up to then stays.

* `Untouched`, `Roleless`, `Complete` — Keycloak before the user is created, between its creation
  and the assignment of the role, and from then on.
* `Remains` — one of the three.
* `registration_remains` — an error leaves one of the three, depending on how far the registration
  came; 201 leaves the last, with the username in the filter.
* `orphan_remains` — an error that leaves a new user without roles.
-/

namespace RedisApi.Auth

open Core EcmaScript BloomFilter

/-- Only this registration arrives. -/
def alone (dto : RegisterDto) (s : State) : Action → Bool
  | .call call => s.calls.isEmpty && decide (call = .register dto)
  | _ => true

section remains

variable (users : List User) (dto : RegisterDto) (actions : List Action) (st : Stores)

/-- Keycloak has not created the user: its users are as before. -/
structure Untouched : Prop where
  uncreated : ∀ id location, .createUser 0 id location ∉ actions
  unassigned : .roleAssigned 0 ∉ actions
  users_eq : st.keycloak.users = users

/-- Keycloak has created the user under this id, and has assigned no role. -/
structure Roleless (id : JsString) : Prop where
  created : ∃ location, .createUser 0 id location ∈ actions
  unassigned : .roleAssigned 0 ∉ actions
  users_eq : st.keycloak.users =
    users ++ [{ id := id, representation := dto.representation, roles := [] }]

/-- Keycloak has created the user and assigned it the role `product:read`. -/
structure Complete (id : JsString) (role : Role) : Prop where
  created : ∃ location, .createUser 0 id location ∈ actions
  assigned : .roleAssigned 0 ∈ actions
  role_name : role.name = productRead
  users_eq : st.keycloak.users =
    users ++ [{ id := id, representation := dto.representation, roles := [role] }]

/-- What Keycloak is left with. -/
inductive Remains : Prop
  | untouched (h : Untouched users actions st)
  | roleless {id : JsString} (h : Roleless users dto actions st id)
  | complete {id : JsString} {role : Role} (h : Complete users dto actions st id role)

/-- What Keycloak has been made to do, in each phase of the registration. -/
def Phase.Course : Phase → Prop
  | .probing | .fetchingToken _ | .tokenIssued _ _ _ | .creatingUser _ =>
      Untouched users actions st
  | .fetchingRole id _ => Roleless users dto actions st id
  | .assigningRole id role _ => Roleless users dto actions st id ∧ role.name = productRead
  | .adding => ∃ id role, Complete users dto actions st id role
  | .ended outcome =>
      if outcome = .userRegistered then ∃ id role, Complete users dto actions st id role
      else Remains users dto actions st

end remains

variable {users : List User} {dto : RegisterDto} {actions : List Action} {st st' : Stores}
  {a : Action}

lemma Phase.Course.remains {p : Phase} (hp : p.Course users dto actions st) :
    Remains users dto actions st := by
  cases p with
  | probing | fetchingToken | tokenIssued | creatingUser => exact .untouched hp
  | fetchingRole id token => exact .roleless hp
  | assigningRole id role token => exact .roleless hp.1
  | adding =>
      obtain ⟨id, role, hp⟩ := hp
      exact .complete hp
  | ended outcome =>
      rw [Phase.Course] at hp
      split_ifs at hp with houtcome
      · obtain ⟨id, role, hp⟩ := hp
        exact .complete hp
      · exact hp

/-- The action is none that writes to Keycloak. -/
structure Action.Quiet (a : Action) : Prop where
  not_create : ∀ id location, a ≠ .createUser 0 id location
  not_assign : a ≠ .roleAssigned 0

lemma Untouched.quiet (h : Untouched users actions st) (ha : a.Quiet)
    (hst : st'.keycloak = st.keycloak) : Untouched users (actions ++ [a]) st' := by
  refine ⟨fun id location hc => ?_, fun hc => ?_, hst ▸ h.users_eq⟩
  · rcases List.mem_append.mp hc with hc | hc
    · exact h.uncreated id location hc
    · exact ha.not_create id location (List.mem_singleton.mp hc).symm
  · rcases List.mem_append.mp hc with hc | hc
    · exact h.unassigned hc
    · exact ha.not_assign (List.mem_singleton.mp hc).symm

lemma Roleless.quiet {id : JsString} (h : Roleless users dto actions st id) (ha : a.Quiet)
    (hst : st'.keycloak = st.keycloak) : Roleless users dto (actions ++ [a]) st' id := by
  obtain ⟨location, hcreated⟩ := h.created
  refine ⟨⟨location, List.mem_append_left _ hcreated⟩, fun hc => ?_, hst ▸ h.users_eq⟩
  rcases List.mem_append.mp hc with hc | hc
  · exact h.unassigned hc
  · exact ha.not_assign (List.mem_singleton.mp hc).symm

lemma Complete.quiet {id : JsString} {role : Role} (h : Complete users dto actions st id role)
    (hst : st'.keycloak = st.keycloak) : Complete users dto (actions ++ [a]) st' id role := by
  obtain ⟨location, hcreated⟩ := h.created
  exact ⟨⟨location, List.mem_append_left _ hcreated⟩, List.mem_append_left _ h.assigned,
    h.role_name, hst ▸ h.users_eq⟩

/-- A quiet action leaves the registration where it is. -/
lemma Phase.Course.quiet {p : Phase} (hp : p.Course users dto actions st) (ha : a.Quiet)
    (hst : st'.keycloak = st.keycloak) : p.Course users dto (actions ++ [a]) st' := by
  cases p with
  | probing | fetchingToken | tokenIssued | creatingUser => exact Untouched.quiet hp ha hst
  | fetchingRole id token => exact Roleless.quiet hp ha hst
  | assigningRole id role token => exact ⟨hp.1.quiet ha hst, hp.2⟩
  | adding =>
      obtain ⟨id, role, hp⟩ := hp
      exact ⟨id, role, hp.quiet hst⟩
  | ended outcome =>
      rw [Phase.Course] at hp ⊢
      split_ifs at hp ⊢ with houtcome
      · obtain ⟨id, role, hp⟩ := hp
        exact ⟨id, role, hp.quiet hst⟩
      · cases hp with
        | untouched h => exact .untouched (h.quiet ha hst)
        | roleless h => exact .roleless (h.quiet ha hst)
        | complete h => exact .complete (h.quiet hst)

/-- Keycloak creates the user. -/
lemma Untouched.created {id : JsString} {location : Option JsString} {keycloak : Keycloak}
    (h : Untouched users actions st)
    (hfree : st.keycloak.create id dto.representation = some keycloak) :
    Roleless users dto (actions ++ [.createUser 0 id location]) { st with keycloak := keycloak }
      id := by
  refine ⟨⟨location, List.mem_append_right _ (List.mem_singleton_self _)⟩, fun hc => ?_, ?_⟩
  · rcases List.mem_append.mp hc with hc | hc
    · exact h.unassigned hc
    · exact absurd (List.mem_singleton.mp hc) (by simp)
  · rw [(Keycloak.create_eq_some hfree).1, h.users_eq]

/-- Keycloak assigns the role. -/
lemma Roleless.assigned {id : JsString} {role : Role} (h : Roleless users dto actions st id)
    (hname : role.name = productRead) :
    Complete users dto (actions ++ [.roleAssigned 0])
      { st with keycloak := st.keycloak.assign id role } id role := by
  obtain ⟨location, hcreated⟩ := h.created
  refine ⟨⟨location, List.mem_append_left _ hcreated⟩,
    List.mem_append_right _ (List.mem_singleton_self _), hname, ?_⟩
  exact Keycloak.assign_users role h.users_eq

/-- **How far a registration is**, after one of its transitions. -/
lemma Transition.course {q q' : CallState} {out : List Output}
    (h : Transition st 0 q a (st', q', out)) (hcall : q.call = .register dto)
    (hq : q.phase.Course users dto actions st) :
    q'.phase.Course users dto (actions ++ [a]) st' := by
  -- what a quiet action leaves of the phase before
  have hquiet {p : Phase} (hphase : q.phase = p) (ha : a.Quiet)
      (hst : st'.keycloak = st.keycloak) : p.Course users dto (actions ++ [a]) st' :=
    hphase ▸ hq.quiet ha hst
  have hended {outcome : Outcome} (hne : outcome ≠ .userRegistered)
      (hrem : Remains users dto (actions ++ [a]) st') :
      (Phase.ended outcome).Course users dto (actions ++ [a]) st' := by
    rw [Phase.Course, if_neg hne]
    exact hrem
  cases h with
  | executed => exact hquiet rfl ⟨by simp, by simp⟩ (by simp)
  | @rejected j cmd applied =>
      refine hquiet rfl ⟨by simp, by simp⟩ ?_
      split_ifs <;> simp
  | abandoned | looked | taken =>
      exact hended (by simp [Outcome.userRegistered, Outcome.usernameTaken])
        (hquiet rfl ⟨by simp, by simp⟩ rfl).remains
  | called hc hphase =>
      have hbefore := hquiet hphase ⟨by simp, by simp⟩ rfl
      rcases getAdminToken_phase st 0 with ⟨start, hafter⟩ | ⟨token, hafter⟩
      all_goals exact hafter ▸ hbefore
  | added hc => exact absurd (hcall.symm.trans hc) (by simp)
  | registered hc hphase =>
      show (Phase.ended .userRegistered).Course users dto (actions ++ [.resume 0]) st
      rw [Phase.Course, if_pos rfl]
      exact hquiet hphase ⟨by simp, by simp⟩ rfl
  | issued hphase =>
      have hbefore := hquiet hphase ⟨by simp, by simp⟩ rfl
      exact hbefore
  | arrived hphase =>
      have hbefore := hquiet hphase ⟨by simp, by simp⟩ rfl
      exact hbefore
  | created hc hphase hfree =>
      obtain rfl := Call.register.inj (hcall.symm.trans hc)
      rw [hphase] at hq
      exact hq.created hfree
  | lost hc hphase hfree =>
      obtain rfl := Call.register.inj (hcall.symm.trans hc)
      rw [hphase] at hq
      exact hended (by simp [Outcome.userRegistered, Outcome.noUserId])
        (.roleless (hq.created hfree))
  | fetched hphase => exact ⟨hquiet hphase ⟨by simp, by simp⟩ rfl, rfl⟩
  | assigned hc hphase =>
      rw [hphase] at hq
      exact ⟨_, _, hq.1.assigned hq.2⟩
  | failed hc hfail =>
      refine hended ?_ (hquiet rfl ⟨by simp, by simp⟩ rfl).remains
      rintro rfl
      rcases failureOutcome_cases hfail with hf | ⟨message, hf⟩ | ⟨hf, -⟩
      all_goals exact absurd hf (by simp [Outcome.userRegistered, Outcome.usernameTaken])

/-! ## The result -/

/-- Nothing has happened yet, or this registration is all there is. -/
def Single (users : List User) (dto : RegisterDto) (actions : List Action) (s : State) : Prop :=
  (s.calls = [] ∧ Untouched users actions s.stores) ∨
    ∃ q, s.calls = [q] ∧ q.call = .register dto ∧ q.phase.Course users dto actions s.stores

lemma Single.step {s s' : State} {out : List Output} (hs : Single users dto actions s)
    (hstep : (auth.restrict (alone dto)).step s a = some (s', out)) :
    Single users dto (actions ++ [a]) s' := by
  obtain ⟨halone, hstep⟩ := Machine.restrict_step.mp hstep
  cases step_cases hstep with
  | called call =>
      rw [alone, Bool.and_eq_true, decide_eq_true_iff, List.isEmpty_iff] at halone
      obtain ⟨hnil, rfl⟩ := halone
      rcases hs with ⟨-, hun⟩ | ⟨q, hq, -⟩
      · right
        refine ⟨_, congrArg (· ++ [_]) hnil, rfl, ?_⟩
        exact hun.quiet ⟨by simp, by simp⟩ rfl
      · exact absurd (hnil.symm.trans hq) (by simp)
  | advanced c q st q' hadv =>
      rcases hs with ⟨hnil, -⟩ | ⟨q₁, hq, hcall, hcourse⟩
      · exact absurd hadv.at_c (by simp [hnil])
      · have hc : c = 0 := by
          have hlt := (List.getElem?_eq_some_iff.mp hadv.at_c).1
          rw [hq, List.length_singleton] at hlt
          omega
        subst hc
        obtain rfl : q₁ = q := by simpa [hq] using hadv.at_c
        rw [hadv.state]
        exact Or.inr ⟨q', by simp [hq], hadv.transition.call_eq.trans hcall,
          hadv.transition.course hcall hcourse⟩
  | ticked =>
      rcases hs with ⟨hnil, hun⟩ | ⟨q, hq, hcall, hcourse⟩
      · exact Or.inl ⟨hnil, hun.quiet ⟨by simp, by simp⟩ rfl⟩
      · exact Or.inr ⟨q, hq, hcall, hcourse.quiet ⟨by simp, by simp⟩ rfl⟩

/-- **What a registration leaves behind.**  For every store, every body and every pattern of
failures: with 201 the user exists with the role `product:read` and the username is in the filter;
with any error, what Keycloak has been made to do before it has stayed. -/
theorem registration_remains {stores : Stores} {s : State} {h : List Output} {outcome : Outcome}
    (hrun : (auth.restrict (alone dto)).run (State.start stores) actions = some (s, h))
    (hend : .ended 0 (.register dto) outcome ∈ h) :
    (outcome = .userRegistered →
      (∃ id role, Complete stores.keycloak.users dto actions s.stores id role) ∧
        Hits positions s.stores.bits dto.username) ∧
      (outcome ≠ .userRegistered → Remains stores.keycloak.users dto actions s.stores) := by
  have hr := (Machine.reaches_of_run hrun).of_restrict
  have hstart : Single stores.keycloak.users dto [] (State.start stores) :=
    Or.inl ⟨rfl, fun _ _ hc => absurd hc (by simp), by simp, rfl⟩
  have hsingle : Single stores.keycloak.users dto actions s :=
    Machine.run_invariant (I := fun actions _ s => Single stores.keycloak.users dto actions s)
      hstart (fun _ _ _ _ _ _ hs hstep => hs.step hstep) hrun
  obtain ⟨q, hq, -, hphase⟩ := (recorded_of_reaches hr).ended 0 _ _ hend
  rcases hsingle with ⟨hnil, -⟩ | ⟨q₁, hq₁, hcall, hcourse⟩
  · exact absurd hq (by simp [hnil])
  · obtain rfl : q₁ = q := by simpa [hq₁] using hq
    rw [hphase, Phase.Course] at hcourse
    refine ⟨?_, fun hne => ?_⟩
    · rintro rfl
      rw [if_pos rfl] at hcourse
      exact ⟨hcourse, (members_of_reaches hr).hits _ _ hend (.registered 0 rfl)⟩
    · rwa [if_neg hne] at hcourse

/-- The registration of "bob", up to the answer of Keycloak that his user exists. -/
def untilCreated : List Action :=
  [.call (.register bob)] ++ answersAll 0 ++
    [.resume 0, .issueToken 0 60, .tokenArrives 0, .createUser 0 (js "1") (some (js "users/1"))]

/-- Then Redis refuses one of the writes to the filter. -/
def filterFails : List Action :=
  untilCreated ++ [.roleFetched 0 (js "r"), .roleAssigned 0, .reject 0 4 false, .resume 0]

theorem registration_remains_filterFails : ∃ s h,
    (auth.restrict (alone bob)).run (State.start .empty) filterFails = some (s, h) ∧
      Remains [] bob filterFails s.stores := by
  have hend : ((auth.restrict (alone bob)).run (State.start .empty) filterFails).any
      (fun r => decide (.ended 0 (.register bob) .rejected ∈ r.2)) = true := by
    decide +kernel
  obtain ⟨⟨s, h⟩, hrun, hmem⟩ := (Option.any_eq_true _ _).mp hend
  exact ⟨s, h, hrun, (registration_remains hrun (of_decide_eq_true hmem)).2 (by
    simp [Outcome.userRegistered])⟩

/-- Then the role cannot be fetched. -/
def roleMissing : List Action := untilCreated ++ [.fails 0 (.status 404)]

/-- **Nothing is undone**: a registration that answers with an error may leave a new user behind,
without roles. -/
theorem orphan_remains : ¬ ∀ (stores : Stores) (dto : RegisterDto) (actions : List Action)
    (s : State) (h : List Output) (outcome : Outcome),
    (auth.restrict (alone dto)).run (State.start stores) actions = some (s, h) →
      .ended 0 (.register dto) outcome ∈ h → outcome ≠ .userRegistered →
        s.stores.keycloak.users = stores.keycloak.users := by
  intro hclaim
  have hend : ((auth.restrict (alone bob)).run (State.start .empty) roleMissing).any
      (fun r => decide (.ended 0 (.register bob) .assignRoleFailed ∈ r.2 ∧
        r.1.stores.keycloak.users.length = 1)) = true := by
    decide +kernel
  obtain ⟨⟨s, h⟩, hrun, hleft⟩ := (Option.any_eq_true _ _).mp hend
  obtain ⟨hmem, hlength⟩ := of_decide_eq_true hleft
  have hsame := hclaim .empty bob roleMissing s h _ hrun hmem (by
    simp [Outcome.userRegistered, Outcome.assignRoleFailed])
  rw [hsame] at hlength
  exact absurd hlength (by decide)

end RedisApi.Auth
