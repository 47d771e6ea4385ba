import RedisApi.Auth.BloomFilter
import RedisApi.Auth.Keycloak
import RedisApi.Core.Machine
import RedisApi.Core.Processes
import Mathlib.Algebra.Order.Field.Rat
import Mathlib.Logic.Function.Basic

/-!
# Registration

Any number of calls of `mightExist`, `add` (`bloom-filter.service.ts`) and `register`
(`auth.controller.ts`, `keycloak-identity.service.ts`) side by side, over one Redis bit array, one
Keycloak and one cached admin token.

A call of the filter sends its seven commands at once and awaits them together; Redis runs them in
any order, those of other calls in between.  The requests of the identity service go out one after
another.  Each command and each request may fail.

* `Stores` — what the calls share.
* `Phase` — the `await` a call is suspended at, with the local variables it still needs.
* `State.step` — a call arrives; a command of it takes effect (`execute`) or is rejected, applied or
  not (`reject`); what it awaits has settled and it goes on (`resume`); Keycloak answers one of its
  requests, or the request fails without effect (`fails`); a millisecond passes.
* `Transition` — what can happen to one call, as a relation; `step_cases`.
-/

namespace RedisApi.Auth

open Core EcmaScript

/-! ## Commands to Redis -/

inductive CommandStatus
  | sent
  | answered (bit : Bool)
  | rejected
  deriving DecidableEq, Repr

/-- `SETBIT bloom:usernames offset 1` or `GETBIT bloom:usernames offset`. -/
structure Command where
  write : Bool
  offset : ℤ
  status : CommandStatus
  deriving DecidableEq, Repr

namespace Command

def isRejected (cmd : Command) : Bool := cmd.status = .rejected

def isSent (cmd : Command) : Bool := cmd.status = .sent

/-- What Redis has answered: the bit, or for `SETBIT` the bit that was there before. -/
def bit (cmd : Command) : Bool :=
  match cmd.status with
  | .answered bit => bit
  | _ => false

end Command

/-- The commands of `mightExist(username)`. -/
def getbits (username : JsString) : List Command :=
  (positions username).map fun pos => { write := false, offset := pos, status := .sent }

/-- The commands of `add(username)`. -/
def setbits (username : JsString) : List Command :=
  (positions username).map fun pos => { write := true, offset := pos, status := .sent }

/-- How `Promise.all` stands. -/
inductive Settled
  | pending
  | rejected
  | resolved (bits : List Bool)
  deriving DecidableEq, Repr

def promiseAll (commands : List Command) : Settled :=
  if commands.any Command.isRejected then .rejected
  else if commands.any Command.isSent then .pending
  else .resolved (commands.map Command.bit)

/-! ## What the calls share -/

/-- `expiresAt` is in milliseconds. -/
structure AdminToken where
  value : ℕ
  expiresAt : ℚ
  deriving DecidableEq, Repr

/-- The bit array, Keycloak with the tokens it has issued (each named by its number, with the time
at which it expires), the cached token of the service, and the clock of its process. -/
structure Stores where
  bits : ℤ → Bool
  keycloak : Keycloak
  tokens : List ℚ
  adminToken : Option AdminToken
  now : ℕ

/-- No bit is set, no user exists, no token was issued. -/
def Stores.empty : Stores where
  bits _ := false
  keycloak := .empty
  tokens := []
  adminToken := none
  now := 0

/-- Redis runs a command. -/
def Stores.execute (st : Stores) (cmd : Command) : Stores :=
  if cmd.write then { st with bits := Function.update st.bits cmd.offset true } else st

/-! ## Calls -/

inductive Call
  | mightExist (username : JsString)
  | add (username : JsString)
  | register (dto : RegisterDto)
  deriving DecidableEq, Repr

/-- How a call ends: `mightExist` and `add` resolve, `register` answers 201 or throws an
`HttpException`; or a rejection that nobody catches ends the call. -/
inductive Outcome
  | answer (mightExist : Bool)
  | added
  | created (message : JsString)
  | httpException (status : ℕ) (message : JsString)
  | rejected
  deriving DecidableEq, Repr

namespace Outcome

def userRegistered : Outcome := .created (js "User registered successfully")

def usernameTaken (dto : RegisterDto) : Outcome :=
  .httpException 409 (js "Username '" ++ dto.username ++ js "' is already taken")

def authenticationServiceError : Outcome := .httpException 500 (js "Authentication service error")

def createUserFailed : Outcome := .httpException 500 (js "Failed to create user")

def noUserId : Outcome := .httpException 500 (js "Could not determine new user ID")

def assignRoleFailed : Outcome := .httpException 500 (js "Failed to assign user role")

end Outcome

/-- Where a call stands: in `mightExist` (`probing`), in the steps of `identity.register`, or in
`add`.  `tokenIssued` is the time between Keycloak's answer and its arrival; `start` is the
`Date.now()` from before the fetch. -/
inductive Phase
  | probing
  | fetchingToken (start : ℕ)
  | tokenIssued (start value : ℕ) (expiresIn : ℚ)
  | creatingUser (token : ℕ)
  | fetchingRole (userId : JsString) (token : ℕ)
  | assigningRole (userId : JsString) (role : Role) (token : ℕ)
  | adding
  | ended (outcome : Outcome)
  deriving DecidableEq, Repr

structure CallState where
  call : Call
  phase : Phase
  commands : List Command
  deriving DecidableEq, Repr

/-- What a step can be observed to do. -/
inductive Output
  | started (c : ℕ) (call : Call)
  | bitRead (c : ℕ) (offset : ℤ) (bit : Bool)
  | bitSet (c : ℕ) (offset : ℤ)
  | identityCalled (c : ℕ)
  | tokenFromCache (c value atMs : ℕ)
  | ended (c : ℕ) (call : Call) (outcome : Outcome)
  deriving DecidableEq, Repr

/-- A request that fails: with a status, or on the network. -/
inductive HttpFailure
  | status (status : ℕ)
  | network
  deriving DecidableEq, Repr

/-- `res.ok` -/
def ok (status : ℕ) : Bool := decide (200 ≤ status) && decide (status ≤ 299)

/-- `location.split('/').pop()`, where there is one. -/
def userIdOf (location : Option JsString) : Option JsString :=
  let userId := lastSegment 0x2F (location.getD [])
  if userId = [] then none else some userId

def productRead : JsString := js "product:read"

/-! ## One call -/

/-- What becomes of the stores and of the call, and what is emitted. -/
abbrev Result := Stores × CallState × List Output

/-- The call as it stands at its first `await`. -/
def Call.begin : Call → CallState
  | .mightExist username =>
      { call := .mightExist username, phase := .probing, commands := getbits username }
  | .add username => { call := .add username, phase := .adding, commands := setbits username }
  | .register dto =>
      { call := .register dto, phase := .probing, commands := getbits dto.username }

namespace CallState

/-- Command `j` is settled. -/
def settle (q : CallState) (j : ℕ) (cmd : Command) (status : CommandStatus) : CallState :=
  { q with commands := q.commands.set j { cmd with status := status } }

/-- The call ends. -/
def finish (q : CallState) (st : Stores) (c : ℕ) (outcome : Outcome) : Result :=
  (st, { q with phase := .ended outcome }, [.ended c q.call outcome])

end CallState

/-- Redis runs command `j` of the call, and answers. -/
def execute (st : Stores) (c j : ℕ) (q : CallState) : Option Result :=
  match q.commands[j]? with
  | none => none
  | some cmd =>
      if cmd.isSent then
        let bit := st.bits cmd.offset
        some (st.execute cmd, q.settle j cmd (.answered bit),
          [if cmd.write then .bitSet c cmd.offset else .bitRead c cmd.offset bit])
      else none

/-- Command `j` of the call is rejected, after Redis has run it or before. -/
def reject (st : Stores) (c j : ℕ) (applied : Bool) (q : CallState) : Option Result :=
  match q.commands[j]? with
  | none => none
  | some cmd =>
      if cmd.isSent then
        some (if applied then st.execute cmd else st, q.settle j cmd .rejected,
          if applied && cmd.write then [.bitSet c cmd.offset] else [])
      else none

/-- `getAdminToken` up to its first `await`: it returns the cached token, or starts a fetch. -/
def getAdminToken (st : Stores) (c : ℕ) : Phase × List Output :=
  match st.adminToken with
  | none => (.fetchingToken st.now, [])
  | some token =>
      if (st.now : ℚ) + 10000 < token.expiresAt then
        (.creatingUser token.value, [.tokenFromCache c token.value st.now])
      else (.fetchingToken st.now, [])

/-- What the call awaits has settled. -/
def resume (st : Stores) (c : ℕ) (q : CallState) : Option Result :=
  match q.phase, promiseAll q.commands with
  | .probing, .rejected | .adding, .rejected => some (q.finish st c .rejected)
  | .probing, .resolved bits =>
      let mightExist := bits.all (· = true)
      match q.call with
      | .mightExist _ => some (q.finish st c (.answer mightExist))
      | .register dto =>
          if mightExist then some (q.finish st c (.usernameTaken dto))
          else
            let (phase, out) := getAdminToken st c
            some (st, { q with phase := phase }, .identityCalled c :: out)
      | .add _ => none
  | .adding, .resolved _ =>
      match q.call with
      | .add _ => some (q.finish st c .added)
      | .register _ => some (q.finish st c .userRegistered)
      | .mightExist _ => none
  | _, _ => none

/-- Keycloak issues a token. -/
def issueToken (st : Stores) (expiresIn : ℚ) (q : CallState) : Option Result :=
  match q.phase with
  | .fetchingToken start =>
      some ({ st with tokens := st.tokens ++ [st.now + expiresIn * 1000] },
        { q with phase := .tokenIssued start st.tokens.length expiresIn }, [])
  | _ => none

/-- The token arrives and is cached. -/
def tokenArrives (st : Stores) (q : CallState) : Option Result :=
  match q.phase with
  | .tokenIssued start value expiresIn =>
      some ({ st with
          adminToken := some { value := value, expiresAt := start + expiresIn * 1000 } },
        { q with phase := .creatingUser value }, [])
  | _ => none

/-- Keycloak creates the user under the given id and answers with a `Location` header, whose last
segment is this id if it has one. -/
def createUser (st : Stores) (c : ℕ) (id : JsString) (location : Option JsString)
    (q : CallState) : Option Result :=
  match q.call, q.phase with
  | .register dto, .creatingUser token =>
      match st.keycloak.create id dto.representation, userIdOf location with
      | none, _ => none
      | some keycloak, none => some (q.finish { st with keycloak := keycloak } c .noUserId)
      | some keycloak, some userId =>
          if userId = id then
            some ({ st with keycloak := keycloak }, { q with phase := .fetchingRole userId token },
              [])
          else none
  | _, _ => none

/-- Keycloak answers with the representation of the role `product:read`. -/
def roleFetched (st : Stores) (roleId : JsString) (q : CallState) : Option Result :=
  match q.phase with
  | .fetchingRole userId token =>
      let role := { id := roleId, name := productRead }
      some (st, { q with phase := .assigningRole userId role token }, [])
  | _ => none

/-- Keycloak assigns the role; `identity.register` returns, and `add` sends its commands. -/
def roleAssigned (st : Stores) (q : CallState) : Option Result :=
  match q.call, q.phase with
  | .register dto, .assigningRole userId role _ =>
      some ({ st with keycloak := st.keycloak.assign userId role },
        { q with phase := .adding, commands := setbits dto.username }, [])
  | _, _ => none

/-- How a call ends whose request fails. -/
def failureOutcome (dto : RegisterDto) : Phase → HttpFailure → Option Outcome
  | .fetchingToken _, .status _ => some .authenticationServiceError
  | .creatingUser _, .status status =>
      some (if status = 409 then .usernameTaken dto else .createUserFailed)
  | .fetchingRole _ _, .status _ | .assigningRole _ _ _, .status _ => some .assignRoleFailed
  | .fetchingToken _, .network | .tokenIssued _ _ _, .network | .creatingUser _, .network
  | .fetchingRole _ _, .network | .assigningRole _ _ _, .network => some .rejected
  | _, _ => none

/-- The request that the call awaits fails, and has had no effect. -/
def fails (st : Stores) (c : ℕ) (failure : HttpFailure) (q : CallState) : Option Result :=
  match q.call with
  | .register dto =>
      if (match failure with
        | .status status => ok status
        | .network => false) then none
      else (failureOutcome dto q.phase failure).map (q.finish st c)
  | _ => none

/-! ## The machine -/

structure State where
  stores : Stores
  calls : List CallState

inductive Action
  | call (call : Call)
  | execute (c j : ℕ)
  | reject (c j : ℕ) (applied : Bool)
  | resume (c : ℕ)
  | issueToken (c : ℕ) (expiresIn : ℚ)
  | tokenArrives (c : ℕ)
  | createUser (c : ℕ) (id : JsString) (location : Option JsString)
  | roleFetched (c : ℕ) (roleId : JsString)
  | roleAssigned (c : ℕ)
  | fails (c : ℕ) (failure : HttpFailure)
  | tick
  deriving DecidableEq, Repr

namespace State

/-- No call has arrived yet. -/
def start (stores : Stores) : State where
  stores := stores
  calls := []

/-- Call `c` does what `k` says it can do. -/
def advance (s : State) (c : ℕ) (k : CallState → Option Result) : Option (State × List Output) :=
  match s.calls[c]? with
  | none => none
  | some q => (k q).map fun (st, q', out) => ({ stores := st, calls := s.calls.set c q' }, out)

def step (s : State) : Action → Option (State × List Output)
  | .call call =>
      some ({ s with calls := s.calls ++ [call.begin] }, [.started s.calls.length call])
  | .execute c j => s.advance c (Auth.execute s.stores c j)
  | .reject c j applied => s.advance c (Auth.reject s.stores c j applied)
  | .resume c => s.advance c (Auth.resume s.stores c)
  | .issueToken c expiresIn => s.advance c (Auth.issueToken s.stores expiresIn)
  | .tokenArrives c => s.advance c (Auth.tokenArrives s.stores)
  | .createUser c id location => s.advance c (Auth.createUser s.stores c id location)
  | .roleFetched c roleId => s.advance c (Auth.roleFetched s.stores roleId)
  | .roleAssigned c => s.advance c (Auth.roleAssigned s.stores)
  | .fails c failure => s.advance c (Auth.fails s.stores c failure)
  | .tick => some ({ s with stores := { s.stores with now := s.stores.now + 1 } }, [])

end State

/-- Registration as a machine. -/
def auth : Machine State Action Output where
  step := State.step

/-! ## Transitions -/

/-- **What can happen to a call.** -/
inductive Transition (st : Stores) (c : ℕ) (q : CallState) : Action → Result → Prop
  | executed {j : ℕ} {cmd : Command} (at_j : q.commands[j]? = some cmd)
      (sent : cmd.status = .sent) :
      Transition st c q (.execute c j)
        (st.execute cmd, q.settle j cmd (.answered (st.bits cmd.offset)),
          [if cmd.write then .bitSet c cmd.offset
            else .bitRead c cmd.offset (st.bits cmd.offset)])
  | rejected {j : ℕ} {cmd : Command} {applied : Bool} (at_j : q.commands[j]? = some cmd)
      (sent : cmd.status = .sent) :
      Transition st c q (.reject c j applied)
        (if applied then st.execute cmd else st, q.settle j cmd .rejected,
          if applied && cmd.write then [.bitSet c cmd.offset] else [])
  | abandoned (phase : q.phase = .probing ∨ q.phase = .adding)
      (settled : promiseAll q.commands = .rejected) :
      Transition st c q (.resume c) (q.finish st c .rejected)
  | looked {username : JsString} {bits : List Bool} (call : q.call = .mightExist username)
      (phase : q.phase = .probing) (settled : promiseAll q.commands = .resolved bits) :
      Transition st c q (.resume c) (q.finish st c (.answer (bits.all (· = true))))
  | taken {dto : RegisterDto} {bits : List Bool} (call : q.call = .register dto)
      (phase : q.phase = .probing) (settled : promiseAll q.commands = .resolved bits)
      (all : bits.all (· = true) = true) :
      Transition st c q (.resume c) (q.finish st c (.usernameTaken dto))
  | called {dto : RegisterDto} {bits : List Bool} (call : q.call = .register dto)
      (phase : q.phase = .probing) (settled : promiseAll q.commands = .resolved bits)
      (some_unset : bits.all (· = true) = false) :
      Transition st c q (.resume c)
        (st, { q with phase := (getAdminToken st c).1 },
          .identityCalled c :: (getAdminToken st c).2)
  | added {username : JsString} {bits : List Bool} (call : q.call = .add username)
      (phase : q.phase = .adding) (settled : promiseAll q.commands = .resolved bits) :
      Transition st c q (.resume c) (q.finish st c .added)
  | registered {dto : RegisterDto} {bits : List Bool} (call : q.call = .register dto)
      (phase : q.phase = .adding) (settled : promiseAll q.commands = .resolved bits) :
      Transition st c q (.resume c) (q.finish st c .userRegistered)
  | issued {start : ℕ} {expiresIn : ℚ} (phase : q.phase = .fetchingToken start) :
      Transition st c q (.issueToken c expiresIn)
        ({ st with tokens := st.tokens ++ [st.now + expiresIn * 1000] },
          { q with phase := .tokenIssued start st.tokens.length expiresIn }, [])
  | arrived {start value : ℕ} {expiresIn : ℚ}
      (phase : q.phase = .tokenIssued start value expiresIn) :
      Transition st c q (.tokenArrives c)
        ({ st with adminToken := some { value := value, expiresAt := start + expiresIn * 1000 } },
          { q with phase := .creatingUser value }, [])
  | created {dto : RegisterDto} {token : ℕ} {id : JsString} {location : Option JsString}
      {keycloak : Keycloak} (call : q.call = .register dto) (phase : q.phase = .creatingUser token)
      (free : st.keycloak.create id dto.representation = some keycloak)
      (userId : userIdOf location = some id) :
      Transition st c q (.createUser c id location)
        ({ st with keycloak := keycloak }, { q with phase := .fetchingRole id token }, [])
  | lost {dto : RegisterDto} {token : ℕ} {id : JsString} {location : Option JsString}
      {keycloak : Keycloak} (call : q.call = .register dto) (phase : q.phase = .creatingUser token)
      (free : st.keycloak.create id dto.representation = some keycloak)
      (userId : userIdOf location = none) :
      Transition st c q (.createUser c id location)
        (q.finish { st with keycloak := keycloak } c .noUserId)
  | fetched {userId roleId : JsString} {token : ℕ} (phase : q.phase = .fetchingRole userId token) :
      Transition st c q (.roleFetched c roleId)
        (st, { q with
          phase := .assigningRole userId { id := roleId, name := productRead } token }, [])
  | assigned {dto : RegisterDto} {userId : JsString} {role : Role} {token : ℕ}
      (call : q.call = .register dto) (phase : q.phase = .assigningRole userId role token) :
      Transition st c q (.roleAssigned c)
        ({ st with keycloak := st.keycloak.assign userId role },
          { q with phase := .adding, commands := setbits dto.username }, [])
  | failed {dto : RegisterDto} {failure : HttpFailure} {outcome : Outcome}
      (call : q.call = .register dto)
      (fails : failureOutcome dto q.phase failure = some outcome) :
      Transition st c q (.fails c failure) (q.finish st c outcome)

section functions

variable {st : Stores} {c : ℕ} {q : CallState} {res : Result}

lemma transition_of_execute {j : ℕ} (h : execute st c j q = some res) :
    Transition st c q (.execute c j) res := by
  rw [execute] at h
  split at h
  · exact absurd h (by simp)
  · next cmd hj =>
    split at h
    · next hsent => exact Option.some.inj h ▸ .executed hj (of_decide_eq_true hsent)
    · exact absurd h (by simp)

lemma transition_of_reject {j : ℕ} {applied : Bool} (h : reject st c j applied q = some res) :
    Transition st c q (.reject c j applied) res := by
  rw [reject] at h
  split at h
  · exact absurd h (by simp)
  · next cmd hj =>
    split at h
    · next hsent => exact Option.some.inj h ▸ .rejected hj (of_decide_eq_true hsent)
    · exact absurd h (by simp)

lemma transition_of_resume (h : resume st c q = some res) : Transition st c q (.resume c) res := by
  rw [resume] at h
  split at h
  · next hphase hsettled => exact Option.some.inj h ▸ .abandoned (Or.inl hphase) hsettled
  · next hphase hsettled => exact Option.some.inj h ▸ .abandoned (Or.inr hphase) hsettled
  · next bits hphase hsettled =>
    split at h
    · next username hcall => exact Option.some.inj h ▸ .looked hcall hphase hsettled
    · next dto hcall =>
      dsimp only at h
      split at h
      · next hall => exact Option.some.inj h ▸ .taken hcall hphase hsettled hall
      · next hall =>
        exact Option.some.inj h ▸ .called hcall hphase hsettled (Bool.eq_false_iff.mpr hall)
    · exact absurd h (by simp)
  · next bits hphase hsettled =>
    split at h
    · next username hcall => exact Option.some.inj h ▸ .added hcall hphase hsettled
    · next dto hcall => exact Option.some.inj h ▸ .registered hcall hphase hsettled
    · exact absurd h (by simp)
  · exact absurd h (by simp)

lemma transition_of_issueToken {expiresIn : ℚ} (h : issueToken st expiresIn q = some res) :
    Transition st c q (.issueToken c expiresIn) res := by
  rw [issueToken] at h
  split at h
  · next start hphase => exact Option.some.inj h ▸ .issued hphase
  · exact absurd h (by simp)

lemma transition_of_tokenArrives (h : tokenArrives st q = some res) :
    Transition st c q (.tokenArrives c) res := by
  rw [tokenArrives] at h
  split at h
  · next start value expiresIn hphase => exact Option.some.inj h ▸ .arrived hphase
  · exact absurd h (by simp)

lemma transition_of_createUser {id : JsString} {location : Option JsString}
    (h : createUser st c id location q = some res) :
    Transition st c q (.createUser c id location) res := by
  rw [createUser] at h
  split at h
  · next dto token hcall hphase =>
    split at h
    · exact absurd h (by simp)
    · next keycloak hcreate hid => exact Option.some.inj h ▸ .lost hcall hphase hcreate hid
    · next keycloak userId hcreate hid =>
      split_ifs at h with heq
      exact Option.some.inj h ▸ heq ▸ .created hcall hphase (heq ▸ hcreate) (heq ▸ hid)
  · exact absurd h (by simp)

lemma transition_of_roleFetched {roleId : JsString} (h : roleFetched st roleId q = some res) :
    Transition st c q (.roleFetched c roleId) res := by
  rw [roleFetched] at h
  split at h
  · next userId token hphase => exact Option.some.inj h ▸ .fetched hphase
  · exact absurd h (by simp)

lemma transition_of_roleAssigned (h : roleAssigned st q = some res) :
    Transition st c q (.roleAssigned c) res := by
  rw [roleAssigned] at h
  split at h
  · next dto userId role token hcall hphase => exact Option.some.inj h ▸ .assigned hcall hphase
  · exact absurd h (by simp)

lemma transition_of_fails {failure : HttpFailure} (h : fails st c failure q = some res) :
    Transition st c q (.fails c failure) res := by
  unfold fails at h
  split at h
  · next dto hcall =>
    split_ifs at h
    obtain ⟨outcome, hfail, rfl⟩ := Option.map_eq_some_iff.mp h
    exact .failed hcall hfail
  · exact absurd h (by simp)

end functions

/-- Call `c` makes a transition: it alone changes. -/
structure Advances (s : State) (a : Action) (c : ℕ) (q : CallState) (st : Stores) (q' : CallState)
    (out : List Output) (s' : State) : Prop where
  at_c : s.calls[c]? = some q
  transition : Transition s.stores c q a (st, q', out)
  state : s' = { stores := st, calls := s.calls.set c q' }

lemma advances_of_advance {s s' : State} {a : Action} {c : ℕ} {k : CallState → Option Result}
    {out : List Output} (hk : ∀ q res, k q = some res → Transition s.stores c q a res)
    (h : s.advance c k = some (s', out)) : ∃ q st q', Advances s a c q st q' out s' := by
  rw [State.advance] at h
  split at h
  · exact absurd h (by simp)
  · next q hq =>
    obtain ⟨⟨st, q', out'⟩, hres, heq⟩ := Option.map_eq_some_iff.mp h
    obtain ⟨rfl, rfl⟩ := Prod.mk.injEq .. ▸ heq
    exact ⟨q, st, q', hq, hk q _ hres, rfl⟩

/-- **What a step can do**: let a call arrive, take one through a transition, or let time pass. -/
inductive Step (s : State) : Action → State → List Output → Prop
  | called (call : Call) :
      Step s (.call call) { s with calls := s.calls ++ [call.begin] } [.started s.calls.length call]
  | advanced {a : Action} {s' : State} {out : List Output} (c : ℕ) (q : CallState) (st : Stores)
      (q' : CallState) (hadv : Advances s a c q st q' out s') : Step s a s' out
  | ticked : Step s .tick { s with stores := { s.stores with now := s.stores.now + 1 } } []

theorem step_cases {s s' : State} {a : Action} {out : List Output}
    (h : s.step a = some (s', out)) : Step s a s' out := by
  have advanced {a : Action} (hadv : ∃ c q st q', Advances s a c q st q' out s') :
      Step s a s' out := by
    obtain ⟨c, q, st, q', hadv⟩ := hadv
    exact .advanced c q st q' hadv
  cases a with
  | call call =>
      obtain ⟨rfl, rfl⟩ := Prod.mk.injEq .. ▸ Option.some.inj h
      exact .called call
  | execute c j => exact advanced ⟨c, advances_of_advance (fun _ _ => transition_of_execute) h⟩
  | reject c j applied =>
      exact advanced ⟨c, advances_of_advance (fun _ _ => transition_of_reject) h⟩
  | resume c => exact advanced ⟨c, advances_of_advance (fun _ _ => transition_of_resume) h⟩
  | issueToken c expiresIn =>
      exact advanced ⟨c, advances_of_advance (fun _ _ => transition_of_issueToken) h⟩
  | tokenArrives c =>
      exact advanced ⟨c, advances_of_advance (fun _ _ => transition_of_tokenArrives) h⟩
  | createUser c id location =>
      exact advanced ⟨c, advances_of_advance (fun _ _ => transition_of_createUser) h⟩
  | roleFetched c roleId =>
      exact advanced ⟨c, advances_of_advance (fun _ _ => transition_of_roleFetched) h⟩
  | roleAssigned c =>
      exact advanced ⟨c, advances_of_advance (fun _ _ => transition_of_roleAssigned) h⟩
  | fails c failure => exact advanced ⟨c, advances_of_advance (fun _ _ => transition_of_fails) h⟩
  | tick =>
      obtain ⟨rfl, rfl⟩ := Prod.mk.injEq .. ▸ Option.some.inj h
      exact .ticked

end RedisApi.Auth
