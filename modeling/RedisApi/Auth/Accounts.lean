import RedisApi.Auth.NoFalseNegatives

/-!
# Accounts

Any number of registrations side by side, over one Keycloak, with any failures.  Nothing keeps two
of them apart but Keycloak itself, which refuses a username that is taken.

* `Account` — a user that a registration has created, and the roles it has been given.
* `AccountStep` — what a transition does to Keycloak, as the account of its call sees it.
* `Accounts` — the invariant: Keycloak has its former users, unchanged, and the accounts, one at
  most for each registration, each as far as its registration is.
* `accounts_of_registrations` — what this says about the users; `registered_once` — of all
  registrations for one username at most one is answered 201.
-/

namespace RedisApi.Auth

open Core EcmaScript

/-! ## Accounts -/

/-- The user that a call has created. -/
structure Account where
  call : ℕ
  dto : RegisterDto
  id : JsString
  roles : List Role
  deriving DecidableEq, Repr

namespace Account

def user (a : Account) : User where
  id := a.id
  representation := a.dto.representation
  roles := a.roles

/-- It has the role `product:read`, and no other. -/
def Reads (a : Account) : Prop := ∃ role, role.name = productRead ∧ a.roles = [role]

/-- What the account of a call is like when the call is in this phase. -/
def At (a : Account) : Phase → Prop
  | .probing | .fetchingToken _ | .tokenIssued _ _ _ | .creatingUser _ => False
  | .fetchingRole id _ => a.id = id ∧ a.roles = []
  | .assigningRole id role _ => a.id = id ∧ a.roles = [] ∧ role.name = productRead
  | .adding => a.Reads
  | .ended outcome =>
      (outcome = .userRegistered ∧ a.Reads) ∨ (outcome = .rejected ∧ (a.roles = [] ∨ a.Reads)) ∨
        ((outcome = .noUserId ∨ outcome = .assignRoleFailed) ∧ a.roles = [])

/-- The account once call `c` has assigned the role to its user. -/
def give (c : ℕ) (role : Role) (a : Account) : Account :=
  if a.call = c then { a with roles := a.roles ++ [role] } else a

@[simp] lemma give_call (c : ℕ) (role : Role) (a : Account) : (a.give c role).call = a.call := by
  rw [give]
  split_ifs <;> rfl

@[simp] lemma give_dto (c : ℕ) (role : Role) (a : Account) : (a.give c role).dto = a.dto := by
  rw [give]
  split_ifs <;> rfl

lemma give_of_ne {c : ℕ} {role : Role} {a : Account} (h : a.call ≠ c) : a.give c role = a := by
  rw [give, if_neg h]

/-- Whatever the phase, an account has no role or only `product:read`. -/
lemma At.roles {a : Account} {p : Phase} (h : a.At p) : a.roles = [] ∨ a.Reads := by
  cases p with
  | probing | fetchingToken | tokenIssued | creatingUser => exact h.elim
  | fetchingRole id token => exact Or.inl h.2
  | assigningRole id role token => exact Or.inl h.2.1
  | adding => exact Or.inr h
  | ended outcome =>
      rcases h with ⟨-, h⟩ | ⟨-, h⟩ | ⟨-, h⟩
      · exact Or.inr h
      · exact h
      · exact Or.inl h

end Account

/-- A call that has come so far has an account: its user exists, and it has not failed since. -/
def Phase.hasAccount : Phase → Bool
  | .fetchingRole _ _ | .assigningRole _ _ _ | .adding => true
  | .ended outcome => outcome = .userRegistered
  | .probing | .fetchingToken _ | .tokenIssued _ _ _ | .creatingUser _ => false

/-! ## Transitions -/

/-- **What a transition does to Keycloak**, as the account of the call sees it. -/
inductive AccountStep (st st' : Stores) (c : ℕ) (q q' : CallState) : Prop
  | kept (keycloak : st'.keycloak = st.keycloak)
      (stays : ∀ a : Account, q.call = .register a.dto → a.At q.phase → a.At q'.phase)
      (came : ∀ dto, q.call = .register dto → q'.phase.hasAccount = true →
        q.phase.hasAccount = true)
  | created {dto : RegisterDto} {id : JsString} (call : q.call = .register dto)
      (before : ∀ a : Account, ¬ a.At q.phase)
      (free : st.keycloak.create id dto.representation = some st'.keycloak)
      (after : Account.At ⟨c, dto, id, []⟩ q'.phase)
  | assigned {dto : RegisterDto} {id : JsString} {role : Role} {token : ℕ}
      (call : q.call = .register dto) (before : q.phase = .assigningRole id role token)
      (keycloak : st'.keycloak = st.keycloak.assign id role) (after : q'.phase = .adding)

section transitions

variable {st st' : Stores} {c : ℕ} {q q' : CallState} {a : Action} {out : List Output}

/-- A request that fails after the user was created ends the call with an error that leaves the
account as it is. -/
lemma Account.At.failed {a : Account} {dto : RegisterDto} {p : Phase} {failure : HttpFailure}
    {outcome : Outcome} (h : a.At p) (hfail : failureOutcome dto p failure = some outcome) :
    a.At (.ended outcome) := by
  cases p with
  | probing | fetchingToken | tokenIssued | creatingUser => exact h.elim
  | fetchingRole id token =>
      cases failure with
      | status status =>
          exact Or.inr (Or.inr ⟨Or.inr (Option.some.inj hfail).symm, h.2⟩)
      | network => exact Or.inr (Or.inl ⟨(Option.some.inj hfail).symm, Or.inl h.2⟩)
  | assigningRole id role token =>
      cases failure with
      | status status =>
          exact Or.inr (Or.inr ⟨Or.inr (Option.some.inj hfail).symm, h.2.1⟩)
      | network => exact Or.inr (Or.inl ⟨(Option.some.inj hfail).symm, Or.inl h.2.1⟩)
  | adding | ended => exact absurd hfail (by simp [failureOutcome])

lemma Transition.accountStep (h : Transition st c q a (st', q', out)) :
    AccountStep st st' c q q' := by
  -- before the user is created there is no account that could change
  have early {p : Phase} (hp : q.phase = p) (hnone : ∀ a : Account, ¬ a.At p) :
      ∀ a : Account, q.call = .register a.dto → a.At q.phase → a.At q'.phase := by
    intro a _ hat
    rw [hp] at hat
    exact (hnone a hat).elim
  cases h with
  | executed => exact .kept (by simp) (fun _ _ => id) (fun _ _ => id)
  | @rejected j cmd applied =>
      refine .kept ?_ (fun _ _ => id) (fun _ _ => id)
      split_ifs <;> simp
  | abandoned hphase =>
      refine .kept rfl ?_ ?_
      · intro a hcall hat
        rcases hphase with hp | hp
        · rw [hp] at hat
          exact hat.elim
        · rw [hp] at hat
          exact Or.inr (Or.inl ⟨rfl, Or.inr hat⟩)
      · intro dto hcall hcame
        exact absurd hcame (by simp [Phase.hasAccount, Outcome.userRegistered])
  | looked hcall hphase =>
      refine .kept rfl (early hphase fun _ => id) ?_
      intro dto hregister
      exact absurd (hcall.symm.trans hregister) (by simp)
  | taken hcall hphase =>
      refine .kept rfl (early hphase fun _ => id) ?_
      intro dto hregister hcame
      exact absurd hcame (by
        simp [Phase.hasAccount, Outcome.userRegistered, Outcome.usernameTaken])
  | called hcall hphase =>
      refine .kept rfl (early hphase fun _ => id) ?_
      intro dto hregister hcame
      rcases getAdminToken_phase st c with ⟨start, hp⟩ | ⟨token, hp⟩
      · exact absurd hcame (by simp [hp, Phase.hasAccount])
      · exact absurd hcame (by simp [hp, Phase.hasAccount])
  | added hcall =>
      refine .kept rfl ?_ ?_
      · intro a hregister
        exact absurd (hcall.symm.trans hregister) (by simp)
      · intro dto hregister
        exact absurd (hcall.symm.trans hregister) (by simp)
  | registered hcall hphase =>
      refine .kept rfl ?_ ?_
      · intro a _ hat
        rw [hphase] at hat
        exact Or.inl ⟨rfl, hat⟩
      · intro dto _ _
        rw [hphase]
        rfl
  | issued hphase =>
      refine .kept rfl (early hphase fun _ => id) ?_
      intro dto _ hcame
      exact absurd hcame (by simp [Phase.hasAccount])
  | arrived hphase =>
      refine .kept rfl (early hphase fun _ => id) ?_
      intro dto _ hcame
      exact absurd hcame (by simp [Phase.hasAccount])
  | created hcall hphase hfree =>
      refine .created hcall ?_ hfree ⟨rfl, rfl⟩
      rw [hphase]
      exact fun _ => id
  | lost hcall hphase hfree =>
      refine .created hcall ?_ hfree (Or.inr (Or.inr ⟨Or.inl rfl, rfl⟩))
      rw [hphase]
      exact fun _ => id
  | fetched hphase =>
      refine .kept rfl ?_ ?_
      · intro a _ hat
        rw [hphase] at hat
        exact ⟨hat.1, hat.2, rfl⟩
      · intro dto _ _
        rw [hphase]
        rfl
  | assigned hcall hphase => exact .assigned hcall hphase rfl rfl
  | @failed dto failure outcome hcall hfail =>
      refine .kept rfl (fun a _ hat => hat.failed hfail) ?_
      intro dto' _ hcame
      have houtcome : outcome = .userRegistered := of_decide_eq_true hcame
      rcases failureOutcome_cases hfail with hf | ⟨message, hf⟩ | ⟨hf, -⟩
      · exact absurd (hf.symm.trans houtcome) (by simp [Outcome.userRegistered])
      · exact absurd (hf.symm.trans houtcome) (by simp [Outcome.userRegistered])
      · exact absurd (hf.symm.trans houtcome)
          (by simp [Outcome.userRegistered, Outcome.usernameTaken])

end transitions

/-! ## The invariant -/

/-- **Keycloak's users are the former ones and the accounts**, one at most for each call. -/
structure Accounts (users : List User) (s : State) (news : List Account) : Prop where
  users_eq : s.stores.keycloak.users = users ++ news.map Account.user
  calls : (news.map Account.call).Nodup
  owned : ∀ a ∈ news, ∃ q, s.calls[a.call]? = some q ∧ q.call = .register a.dto ∧ a.At q.phase
  complete : Each s.calls fun c q => ∀ dto, q.call = .register dto →
    q.phase.hasAccount = true → ∃ a ∈ news, a.call = c

section invariant

variable {users : List User} {s s' : State} {news : List Account} {a : Action} {out : List Output}

/-- Different accounts have different ids. -/
lemma Accounts.eq_of_id (hs : Accounts users s news) {x y : Account} (hx : x ∈ news)
    (hy : y ∈ news) (hid : x.id = y.id) : x = y := by
  have hids := s.stores.keycloak.ids
  rw [hs.users_eq, List.map_append, List.map_map] at hids
  exact List.inj_on_of_nodup_map (List.nodup_append'.mp hids).2.1 hx hy hid

/-- Different accounts have different usernames. -/
lemma Accounts.eq_of_username (hs : Accounts users s news) {x y : Account} (hx : x ∈ news)
    (hy : y ∈ news) (hname : x.dto.username = y.dto.username) : x = y := by
  have hnames := s.stores.keycloak.usernames
  rw [hs.users_eq, List.map_append, List.map_map] at hnames
  exact List.inj_on_of_nodup_map (List.nodup_append'.mp hnames).2.1 hx hy hname

/-- Nor does an account have the username of a former user. -/
lemma Accounts.username_new (hs : Accounts users s news) {x : Account} (hx : x ∈ news) :
    x.dto.username ∉ users.map User.username := by
  have hnames := s.stores.keycloak.usernames
  rw [hs.users_eq, List.map_append, List.map_map] at hnames
  intro hmem
  exact (List.nodup_append'.mp hnames).2.2 hmem (List.mem_map_of_mem hx)

/-- **Assigning a role to the user of one account leaves all others alone.** -/
lemma Accounts.assign (hs : Accounts users s news) {x : Account} (hx : x ∈ news)
    (hroles : x.roles = []) (role : Role) :
    (s.stores.keycloak.assign x.id role).users =
      users ++ (news.map (Account.give x.call role)).map Account.user := by
  have hids := s.stores.keycloak.ids
  rw [hs.users_eq, List.map_append, List.map_map] at hids
  have hformer : ∀ u ∈ users, u.id ≠ x.id := by
    intro u hu heq
    exact (List.nodup_append'.mp hids).2.2 (List.mem_map_of_mem hu)
      (heq ▸ List.mem_map_of_mem (f := User.id ∘ Account.user) hx)
  show (s.stores.keycloak.users.map fun u => if u.id = x.id then u.withRole role else u) = _
  rw [hs.users_eq, List.map_append, List.map_map, List.map_map]
  congr 1
  · refine (List.map_congr_left ?_).trans (List.map_id _)
    intro u hu
    exact if_neg (hformer u hu)
  · refine List.map_congr_left ?_
    intro y hy
    show (if y.id = x.id then y.user.withRole role else y.user) = (y.give x.call role).user
    by_cases hid : y.id = x.id
    · obtain rfl := hs.eq_of_id hy hx hid
      rw [if_pos rfl, Account.give, if_pos rfl, User.withRole, if_neg]
      · rfl
      · simp [Account.user, hroles]
    · rw [if_neg hid, Account.give_of_ne]
      intro hcall
      refine hid (congrArg Account.id (List.inj_on_of_nodup_map hs.calls hy hx hcall))

/-- A call arrives. -/
lemma Accounts.call (hs : Accounts users s news) (call : Call) :
    Accounts users { s with calls := s.calls ++ [call.begin] } news := by
  refine ⟨hs.users_eq, hs.calls, ?_, hs.complete.concat ?_⟩
  · intro x hx
    rcases hs.owned x hx with ⟨q, hq, hown⟩
    exact ⟨q, getElem?_append_of_some hq _, hown⟩
  · intro dto hcall hcame
    cases call with
    | mightExist | add => exact absurd hcall (by simp [Call.begin])
    | register => exact absurd hcame (by simp [Call.begin, Phase.hasAccount])

/-- The account of a call, where the call has one. -/
lemma Accounts.of_advances {c : ℕ} {q q' : CallState} {st : Stores} (hs : Accounts users s news)
    (hadv : Advances s a c q st q' out s') {x : Account} (hx : x ∈ news) (hc : x.call = c) :
    q.call = .register x.dto ∧ x.At q.phase := by
  rcases hs.owned x hx with ⟨q₁, hq₁, hown⟩
  rw [hc, hadv.at_c] at hq₁
  obtain rfl := Option.some.inj hq₁
  exact hown

/-- Who the accounts belong to, after a transition of call `c` that has changed at most its own. -/
lemma Accounts.owned_of_advances {c : ℕ} {q q' : CallState} {st : Stores}
    (hs : Accounts users s news) (hadv : Advances s a c q st q' out s') {x : Account}
    (hx : x ∈ news) (hc : x.call ≠ c) :
    ∃ q₁, s'.calls[x.call]? = some q₁ ∧ q₁.call = .register x.dto ∧ x.At q₁.phase := by
  rcases hs.owned x hx with ⟨q₁, hq₁, hown⟩
  exact ⟨q₁, (hadv.at_other (Ne.symm hc)).trans hq₁, hown⟩

theorem Accounts.advances {c : ℕ} {q q' : CallState} {st : Stores} (hs : Accounts users s news)
    (hadv : Advances s a c q st q' out s') : ∃ news', Accounts users s' news' := by
  have hcall := hadv.transition.call_eq
  cases hadv.transition.accountStep with
  | kept hkeycloak hstays hcame =>
      refine ⟨news, ?_, hs.calls, ?_, hadv.each hs.complete ?_ fun _ _ _ => id⟩
      · rw [hadv.stores_eq, hkeycloak]
        exact hs.users_eq
      · intro x hx
        by_cases hc : x.call = c
        · rcases hs.of_advances hadv hx hc with ⟨hxcall, hat⟩
          exact ⟨q', hc ▸ hadv.at_self, hcall.trans hxcall, hstays x hxcall hat⟩
        · exact hs.owned_of_advances hadv hx hc
      · intro dto hregister hafter
        have hbefore := hcall.symm.trans hregister
        exact hs.complete c q hadv.at_c dto hbefore (hcame dto hbefore hafter)
  | @created dto id hregister hbefore hfree hafter =>
      have hnew : ∀ x ∈ news, x.call ≠ c := by
        intro x hx hc
        exact hbefore x (hs.of_advances hadv hx hc).2
      refine ⟨news ++ [⟨c, dto, id, []⟩], ?_, ?_, ?_, hadv.each hs.complete ?_ ?_⟩
      · rw [hadv.stores_eq, (Keycloak.create_eq_some hfree).1, hs.users_eq, List.map_append,
          List.append_assoc]
        rfl
      · rw [List.map_append, List.nodup_append']
        refine ⟨hs.calls, List.nodup_singleton _, ?_⟩
        intro i hi hc
        rcases List.mem_map.mp hi with ⟨x, hx, rfl⟩
        exact hnew x hx (List.mem_singleton.mp hc)
      · intro x hx
        rcases List.mem_append.mp hx with hx | hx
        · exact hs.owned_of_advances hadv hx (hnew x hx)
        · rw [List.mem_singleton] at hx
          subst hx
          exact ⟨q', hadv.at_self, hcall.trans hregister, hafter⟩
      · intro dto' _ _
        exact ⟨_, List.mem_append_right _ (List.mem_singleton_self _), rfl⟩
      · rintro i z - hz dto' hdto' hcame
        rcases hz dto' hdto' hcame with ⟨x, hx, hxi⟩
        exact ⟨x, List.mem_append_left _ hx, hxi⟩
  | @assigned dto id role token hregister hbefore hkeycloak hafter =>
      rcases hs.complete c q hadv.at_c dto hregister (by rw [hbefore]; rfl) with ⟨x, hx, rfl⟩
      have hat := (hs.of_advances hadv hx rfl).2
      rw [hbefore] at hat
      rcases hat with ⟨hid, hroles, hname⟩
      have hkept : ∀ y : Account, y.call = x.call → y ∈ news → y = x :=
        fun y hy hmem => List.inj_on_of_nodup_map hs.calls hmem hx hy
      refine ⟨news.map (Account.give x.call role), ?_, ?_, ?_, hadv.each hs.complete ?_ ?_⟩
      · rw [hadv.stores_eq, hkeycloak, ← hid]
        exact hs.assign hx hroles role
      · rw [List.map_map]
        exact (List.map_congr_left fun y _ => Account.give_call _ _ y).symm ▸ hs.calls
      · intro y hy
        rcases List.mem_map.mp hy with ⟨z, hz, rfl⟩
        by_cases hc : z.call = x.call
        · obtain rfl := hkept z hc hz
          refine ⟨q', ?_, ?_, ?_⟩
          · rw [Account.give_call]
            exact hadv.at_self
          · rw [Account.give_dto]
            exact hcall.trans (hs.of_advances hadv hx rfl).1
          · rw [hafter, Account.give, if_pos rfl]
            exact ⟨role, hname, by simp [hroles]⟩
        · rw [Account.give_of_ne hc]
          exact hs.owned_of_advances hadv hz hc
      · intro _ _ _
        exact ⟨_, List.mem_map_of_mem hx, Account.give_call _ _ x⟩
      · rintro i z - hz dto' hdto' hcame
        rcases hz dto' hdto' hcame with ⟨y, hy, hyi⟩
        exact ⟨_, List.mem_map_of_mem hy, (Account.give_call _ _ y).trans hyi⟩

theorem Accounts.step (hs : Accounts users s news) (hstep : s.step a = some (s', out)) :
    ∃ news', Accounts users s' news' := by
  cases step_cases hstep with
  | called call => exact ⟨news, hs.call call⟩
  | advanced c q st q' hadv => exact hs.advances hadv
  | ticked => exact ⟨news, hs.users_eq, hs.calls, hs.owned, hs.complete⟩

end invariant

/-! ## The results -/

section results

variable {stores : Stores} {h : List Output} {s : State}

lemma accounts_of_reaches (hr : auth.Reaches (State.start stores) h s) :
    ∃ news, Accounts stores.keycloak.users s news := by
  refine hr.invariant (I := fun _ s => ∃ news, Accounts stores.keycloak.users s news) ?_ ?_
  · refine ⟨[], (List.append_nil _).symm, List.nodup_nil, ?_, each_nil _⟩
    exact fun x hx => absurd hx List.not_mem_nil
  · rintro h s a s' out - ⟨news, hs⟩ hstep
    exact hs.step hstep

/-- Every call of the state has arrived. -/
lemma started_of_reaches (hr : auth.Reaches (State.start stores) h s) :
    Each s.calls fun c q => .started c q.call ∈ h := by
  refine hr.invariant (I := fun h s => Each s.calls fun c q => .started c q.call ∈ h) ?_ ?_
  · exact each_nil _
  · rintro h s a s' out - hs hstep
    have hpast : Each s.calls fun c q => .started c q.call ∈ h ++ out :=
      hs.mono fun _ _ => List.mem_append_left _
    cases step_cases hstep with
    | called call =>
        refine hpast.concat (List.mem_append_right _ ?_)
        rw [List.mem_singleton]
        cases call <;> rfl
    | advanced c q st q' hadv =>
        refine hadv.each hpast ?_ fun _ _ _ => id
        rw [hadv.transition.call_eq]
        exact hpast c q hadv.at_c
    | ticked => exact hpast

/-- An answer of 201 stands for an account with the role `product:read`. -/
lemma Accounts.of_registered {news : List Account} {c : ℕ} {dto : RegisterDto}
    (hs : Accounts stores.keycloak.users s news) (hr : auth.Reaches (State.start stores) h s)
    (hend : .ended c (.register dto) .userRegistered ∈ h) :
    ∃ x ∈ news, x.call = c ∧ x.dto = dto ∧ x.Reads := by
  rcases (recorded_of_reaches hr).ended c _ _ hend with ⟨q, hq, hcall, hphase⟩
  rcases hs.complete c q hq dto hcall (by rw [hphase]; rfl) with ⟨x, hx, rfl⟩
  rcases hs.owned x hx with ⟨q₁, hq₁, hxcall, hat⟩
  obtain rfl := Option.some.inj (hq.symm.trans hq₁)
  refine ⟨x, hx, rfl, (Call.register.inj (hcall.symm.trans hxcall)).symm, ?_⟩
  rw [hphase] at hat
  rcases hat with ⟨-, hreads⟩ | ⟨hne, -⟩ | ⟨hne, -⟩
  · exact hreads
  · exact absurd hne (by simp [Outcome.userRegistered])
  · exact absurd hne (by
      simp [Outcome.userRegistered, Outcome.noUserId, Outcome.assignRoleFailed])

/-- **What registrations side by side leave at Keycloak.**  In every reachable state, from any
stores, for every interleaving and all failures: the former users are there, unchanged; every other
user was created by one registration, which has created no other, from the body of that
registration, and has no role or `product:read` alone.  The registrations that were answered 201
have their user, with the role; those that were answered 409 have created none. -/
theorem accounts_of_registrations (hr : auth.Reaches (State.start stores) h s) :
    ∃ news : List Account,
      s.stores.keycloak.users = stores.keycloak.users ++ news.map Account.user ∧
      (news.map Account.call).Nodup ∧
      (∀ x ∈ news, .started x.call (.register x.dto) ∈ h ∧ (x.roles = [] ∨ x.Reads)) ∧
      (∀ c dto, .ended c (.register dto) .userRegistered ∈ h →
        ∃ x ∈ news, x.call = c ∧ x.dto = dto ∧ x.Reads) ∧
      ∀ c dto, .ended c (.register dto) (.usernameTaken dto) ∈ h → ∀ x ∈ news, x.call ≠ c := by
  rcases accounts_of_reaches hr with ⟨news, hs⟩
  refine ⟨news, hs.users_eq, hs.calls, ?_, fun c dto => hs.of_registered hr, ?_⟩
  · intro x hx
    rcases hs.owned x hx with ⟨q, hq, hcall, hat⟩
    exact ⟨hcall ▸ started_of_reaches hr x.call q hq, hat.roles⟩
  · rintro c dto hend x hx rfl
    rcases (recorded_of_reaches hr).ended x.call _ _ hend with ⟨q, hq, -, hphase⟩
    rcases hs.owned x hx with ⟨q₁, hq₁, -, hat⟩
    obtain rfl := Option.some.inj (hq.symm.trans hq₁)
    rw [hphase] at hat
    simp [Account.At, Outcome.usernameTaken, Outcome.userRegistered, Outcome.noUserId,
      Outcome.assignRoleFailed] at hat

/-- **A username is registered once.**  Of all registrations for one username, however they
interleave, at most one is answered 201, and none where Keycloak had the username before. -/
theorem registered_once {c : ℕ} {dto : RegisterDto}
    (hr : auth.Reaches (State.start stores) h s)
    (hend : .ended c (.register dto) .userRegistered ∈ h) :
    dto.username ∉ stores.keycloak.taken ∧
      ∀ c' dto', dto'.username = dto.username →
        .ended c' (.register dto') .userRegistered ∈ h → c' = c := by
  rcases accounts_of_reaches hr with ⟨news, hs⟩
  rcases hs.of_registered hr hend with ⟨x, hx, rfl, rfl, -⟩
  refine ⟨hs.username_new hx, ?_⟩
  intro c' dto' hname hend'
  rcases hs.of_registered hr hend' with ⟨y, hy, rfl, rfl, -⟩
  rw [hs.eq_of_username hy hx hname]

end results

/-! ## A run -/

/-- Two registrations of "bob", which the filter lets pass both, and one of "alice", whose role
cannot be fetched. -/
def sideBySide : List Action :=
  [.call (.register bob), .call (.register bob),
      .call (.register { bob with username := js "alice" })] ++
    answersAll 0 ++ answersAll 1 ++ answersAll 2 ++
    [.resume 0, .issueToken 0 60, .tokenArrives 0, .resume 1, .resume 2,
      .createUser 1 (js "1") (some (js "users/1")), .fails 0 (.status 409),
      .createUser 2 (js "2") (some (js "users/2")), .roleFetched 1 (js "r"),
      .fails 2 (.status 404), .roleAssigned 1] ++
    answersAll 1 ++ [.resume 1]

theorem accounts_of_registrations_sideBySide : ∃ s h,
    auth.run (State.start .empty) sideBySide = some (s, h) ∧
      s.stores.keycloak.users.length = 2 ∧ ∃ news : List Account,
      s.stores.keycloak.users = Stores.empty.keycloak.users ++ news.map Account.user ∧
      (news.map Account.call).Nodup ∧
      (∀ x ∈ news, .started x.call (.register x.dto) ∈ h ∧ (x.roles = [] ∨ x.Reads)) ∧
      (∀ c dto, .ended c (.register dto) .userRegistered ∈ h →
        ∃ x ∈ news, x.call = c ∧ x.dto = dto ∧ x.Reads) ∧
      ∀ c dto, .ended c (.register dto) (.usernameTaken dto) ∈ h → ∀ x ∈ news, x.call ≠ c := by
  have hruns : (auth.run (State.start .empty) sideBySide).any
      (fun r => decide (r.1.stores.keycloak.users.length = 2)) = true := by
    decide +kernel
  rcases (Option.any_eq_true _ _).mp hruns with ⟨⟨s, h⟩, hrun, hend⟩
  exact ⟨s, h, hrun, of_decide_eq_true hend,
    accounts_of_registrations (Machine.reaches_of_run hrun)⟩

theorem registered_once_sideBySide : ∃ s h,
    auth.run (State.start .empty) sideBySide = some (s, h) ∧
      .ended 0 (.register bob) (.usernameTaken bob) ∈ h ∧
      .ended 1 (.register bob) .userRegistered ∈ h ∧
      bob.username ∉ Stores.empty.keycloak.taken ∧
      ∀ c' dto', dto'.username = bob.username →
        .ended c' (.register dto') .userRegistered ∈ h → c' = 1 := by
  have hruns : (auth.run (State.start .empty) sideBySide).any
      (fun r => decide (.ended 0 (.register bob) (.usernameTaken bob) ∈ r.2 ∧
        .ended 1 (.register bob) .userRegistered ∈ r.2)) = true := by
    decide +kernel
  rcases (Option.any_eq_true _ _).mp hruns with ⟨⟨s, h⟩, hrun, hend⟩
  rcases of_decide_eq_true hend with ⟨htaken, hregistered⟩
  exact ⟨s, h, hrun, htaken, hregistered,
    registered_once (Machine.reaches_of_run hrun) hregistered⟩

end RedisApi.Auth
