import RedisApi.Auth.Register
import RedisApi.Http.Pipeline
import RedisApi.Pipeline.System

/-!
# The whole service

The API behind its middlewares and guards, with the topic and the order consumer behind it.  A
request goes its way in one step, as far as the limiter's script and the guards are concerned; where
it reaches a handler, a call of the product controller or of the auth controller begins, which then
takes its own steps between those of all others.  Nothing else begins one.

* `Service.step` — a request arrives (`request`), or something that has begun goes on (`pipeline`,
  `auth`).
* `toSystem`, `toAuth` — the service seen as the inventory with its topic and consumer, and as
  registration: what is true of every run of these is true of every run of the service.
* `Exchange` — a request with the way it went, which is what an access log would hold.
-/

namespace RedisApi.Http

open Core Auth

/-! ## The machine -/

structure Service where
  keys : RateLimiter.Keys
  pipeline : Pipeline.System
  auth : Auth.State

/-- A request, the `randomUUID()` of its middleware, and how it went. -/
structure Exchange where
  request : Request
  uuid : String
  outcome : Except Rejection Handler

inductive Action
  | request (req : Request) (uuid : String)
  | pipeline (a : Pipeline.Action)
  | auth (a : Auth.Action)

inductive Output
  | exchanged (x : Exchange)
  | pipeline (o : Pipeline.Output)
  | auth (o : Auth.Output)

/-- Not the beginning of a call of the product controller. -/
def goesOn : Pipeline.Action → Bool
  | .product (.useItem _) _ | .product .getInventory _ | .product .resetInventory _ => false
  | _ => true

/-- Not the beginning of a call of the auth controller. -/
def callGoesOn : Auth.Action → Bool
  | .call _ => false
  | _ => true

namespace Service

/-- Nothing has been requested yet. -/
def start (keys : RateLimiter.Keys) (redis : Product.Redis) (stores : Stores) : Service where
  keys := keys
  pipeline := Pipeline.System.start redis
  auth := Auth.State.start stores

def onPipeline (o : KafkaOptions) (s : Service) (a : Pipeline.Action) :
    Option (Service × List Output) :=
  (s.pipeline.step o a).map fun (p, out) => ({ s with pipeline := p }, out.map .pipeline)

def onAuth (s : Service) (a : Auth.Action) : Option (Service × List Output) :=
  (s.auth.step a).map fun (p, out) => ({ s with auth := p }, out.map .auth)

/-- The handler begins.  A login touches nothing that is kept here. -/
def dispatch (o : KafkaOptions) (s : Service) : Handler → Option (Service × List Output)
  | .ping | .login _ => some (s, [])
  | .register dto => s.onAuth (.call (.register dto))
  | .useItem id => s.onPipeline o (.product (.useItem id) 0)
  | .getInventory => s.onPipeline o (.product .getInventory 0)
  | .resetInventory => s.onPipeline o (.product .resetInventory 0)

def step (cfg : Config) (o : KafkaOptions) (s : Service) : Action → Option (Service × List Output)
  | .request req uuid =>
      let (keys, outcome) := handle cfg s.keys req uuid
      let exchanged := Output.exchanged { request := req, uuid := uuid, outcome := outcome }
      match outcome with
      | .error _ => some ({ s with keys := keys }, [exchanged])
      | .ok handler =>
          (dispatch o { s with keys := keys } handler).map fun (s', out) => (s', exchanged :: out)
  | .pipeline a => if goesOn a then s.onPipeline o a else none
  | .auth a => if callGoesOn a then s.onAuth a else none

end Service

/-- The service as a machine. -/
def service (cfg : Config) (o : KafkaOptions) : Machine Service Action Output where
  step := Service.step cfg o

/-! ## What is on record -/

def Output.exchange? : Output → Option Exchange
  | .exchanged x => some x
  | _ => none

def Output.pipeline? : Output → Option Pipeline.Output
  | .pipeline o => some o
  | _ => none

def Output.auth? : Output → Option Auth.Output
  | .auth o => some o
  | _ => none

/-- The requests and how they went. -/
def exchanges (h : List Output) : List Exchange := h.filterMap Output.exchange?

def pipelineOutputs (h : List Output) : List Pipeline.Output := h.filterMap Output.pipeline?

def authOutputs (h : List Output) : List Auth.Output := h.filterMap Output.auth?

lemma exchanges_append (h out : List Output) :
    exchanges (h ++ out) = exchanges h ++ exchanges out := List.filterMap_append

/-- The entries that `f` reads something from, and what it reads. -/
lemma map_filter_isSome {α β : Type*} (f : α → Option β) (l : List α) :
    (l.filter fun x => (f x).isSome).map f = (l.filterMap f).map some := by
  induction l with
  | nil => rfl
  | cons x l ih =>
      cases hx : f x with
      | none => simpa [hx] using ih
      | some y => simpa [hx] using ih

@[simp] lemma outputs_map_pipeline (out : List Pipeline.Output) :
    exchanges (out.map .pipeline) = [] ∧ pipelineOutputs (out.map .pipeline) = out ∧
      authOutputs (out.map .pipeline) = [] := by
  induction out with
  | nil => exact ⟨rfl, rfl, rfl⟩
  | cons o out ih => exact ⟨ih.1, congrArg (o :: ·) ih.2.1, ih.2.2⟩

@[simp] lemma outputs_map_auth (out : List Auth.Output) :
    exchanges (out.map .auth) = [] ∧ pipelineOutputs (out.map .auth) = [] ∧
      authOutputs (out.map .auth) = out := by
  induction out with
  | nil => exact ⟨rfl, rfl, rfl⟩
  | cons o out ih => exact ⟨ih.1, ih.2.1, congrArg (o :: ·) ih.2.2⟩

/-! ## Steps -/

/-- The action with which the product controller begins. -/
def Handler.productAction : Handler → Option Product.Action
  | .useItem id => some (.useItem id)
  | .getInventory => some .getInventory
  | .resetInventory => some .resetInventory
  | _ => none

/-- The call that the auth controller begins. -/
def Handler.authCall : Handler → Option Auth.Call
  | .register dto => some (.register dto)
  | _ => none

/-- **What a step can do.** -/
inductive Step (cfg : Config) (o : KafkaOptions) (s : Service) : Action → Service → List Output →
    Prop
  | rejected {req : Request} {uuid : String} {rejection : Rejection}
      (outcome : (handle cfg s.keys req uuid).2 = .error rejection) :
      Step cfg o s (.request req uuid) { s with keys := (handle cfg s.keys req uuid).1 }
        [.exchanged ⟨req, uuid, .error rejection⟩]
  | handled {req : Request} {uuid : String} {handler : Handler}
      (outcome : (handle cfg s.keys req uuid).2 = .ok handler)
      (product : handler.productAction = none) (auth : handler.authCall = none) :
      Step cfg o s (.request req uuid) { s with keys := (handle cfg s.keys req uuid).1 }
        [.exchanged ⟨req, uuid, .ok handler⟩]
  | begun {req : Request} {uuid : String} {handler : Handler} {a : Product.Action}
      {p : Pipeline.System} {out : List Pipeline.Output}
      (outcome : (handle cfg s.keys req uuid).2 = .ok handler)
      (product : handler.productAction = some a) (auth : handler.authCall = none)
      (hstep : s.pipeline.step o (.product a 0) = some (p, out)) :
      Step cfg o s (.request req uuid)
        { s with keys := (handle cfg s.keys req uuid).1, pipeline := p }
        (.exchanged ⟨req, uuid, .ok handler⟩ :: out.map .pipeline)
  | called {req : Request} {uuid : String} {handler : Handler} {call : Auth.Call}
      (outcome : (handle cfg s.keys req uuid).2 = .ok handler)
      (product : handler.productAction = none) (auth : handler.authCall = some call) :
      Step cfg o s (.request req uuid)
        { s with
          keys := (handle cfg s.keys req uuid).1
          auth := { s.auth with calls := s.auth.calls ++ [call.begin] } }
        [.exchanged ⟨req, uuid, .ok handler⟩, .auth (.started s.auth.calls.length call)]
  | pipeline {a : Pipeline.Action} {p : Pipeline.System} {out : List Pipeline.Output}
      (hgoes : goesOn a = true) (hstep : s.pipeline.step o a = some (p, out)) :
      Step cfg o s (.pipeline a) { s with pipeline := p } (out.map .pipeline)
  | auth {a : Auth.Action} {p : Auth.State} {out : List Auth.Output}
      (hgoes : callGoesOn a = true) (hstep : s.auth.step a = some (p, out)) :
      Step cfg o s (.auth a) { s with auth := p } (out.map .auth)

theorem step_cases {cfg : Config} {o : KafkaOptions} {s s' : Service} {a : Action}
    {out : List Output} (h : s.step cfg o a = some (s', out)) : Step cfg o s a s' out := by
  cases a with
  | request req uuid =>
      rw [Service.step] at h
      cases houtcome : (handle cfg s.keys req uuid).2 with
      | error rejection =>
          simp only [houtcome, Option.some.injEq, Prod.mk.injEq] at h
          rcases h with ⟨rfl, rfl⟩
          exact .rejected houtcome
      | ok handler =>
          simp only [houtcome] at h
          rcases Option.map_eq_some_iff.mp h with ⟨⟨s₁, out₁⟩, hdispatch, heq⟩
          rcases Prod.mk.injEq .. ▸ heq with ⟨rfl, rfl⟩
          cases handler with
          | ping | login =>
              rcases Prod.mk.injEq .. ▸ Option.some.inj hdispatch with ⟨rfl, rfl⟩
              exact .handled houtcome rfl rfl
          | register dto =>
              rcases Prod.mk.injEq .. ▸ Option.some.inj hdispatch with ⟨rfl, rfl⟩
              exact .called houtcome rfl rfl
          | useItem id | getInventory | resetInventory =>
              rw [Service.dispatch, Service.onPipeline] at hdispatch
              rcases Option.map_eq_some_iff.mp hdispatch with ⟨⟨p, out₂⟩, hstep, heq⟩
              rcases Prod.mk.injEq .. ▸ heq with ⟨rfl, rfl⟩
              exact .begun houtcome rfl rfl hstep
  | pipeline a =>
      rw [Service.step] at h
      split_ifs at h with hgoes
      rcases Option.map_eq_some_iff.mp h with ⟨⟨p, out'⟩, hstep, heq⟩
      rcases Prod.mk.injEq .. ▸ heq with ⟨rfl, rfl⟩
      exact .pipeline hgoes hstep
  | auth a =>
      rw [Service.step] at h
      split_ifs at h with hgoes
      rcases Option.map_eq_some_iff.mp h with ⟨⟨p, out'⟩, hstep, heq⟩
      rcases Prod.mk.injEq .. ▸ heq with ⟨rfl, rfl⟩
      exact .auth hgoes hstep

/-! ## The parts -/

section parts

variable (cfg : Config) (o : KafkaOptions)

/-- The service seen as the inventory, with its topic and the consumer. -/
def toSystem : Machine.Projection (service cfg o) (Pipeline.system o) where
  state := Service.pipeline
  output := Output.pipeline?
  step := by
    intro s s' a out hstep
    cases step_cases hstep with
    | rejected | handled | called => exact Or.inr ⟨rfl, rfl⟩
    | @begun req uuid handler a p out outcome product auth hpipeline =>
        refine Or.inl ⟨.product a 0, ?_⟩
        show (Pipeline.system o).step s.pipeline _ =
          some (p, pipelineOutputs (out.map .pipeline))
        rw [(outputs_map_pipeline out).2.1]
        exact hpipeline
    | @pipeline a p out hgoes hpipeline =>
        refine Or.inl ⟨a, ?_⟩
        show (Pipeline.system o).step s.pipeline _ = some (p, pipelineOutputs _)
        rw [(outputs_map_pipeline out).2.1]
        exact hpipeline
    | @auth a p out hgoes hauth => exact Or.inr ⟨rfl, (outputs_map_auth out).2.1⟩

/-- The service seen as registration. -/
def toAuth : Machine.Projection (service cfg o) Auth.auth where
  state := Service.auth
  output := Output.auth?
  step := by
    intro s s' a out hstep
    cases step_cases hstep with
    | rejected | handled => exact Or.inr ⟨rfl, rfl⟩
    | @called req uuid handler call outcome product auth => exact Or.inl ⟨.call call, rfl⟩
    | @begun req uuid handler a p out outcome product auth hpipeline =>
        exact Or.inr ⟨rfl, (outputs_map_pipeline out).2.2⟩
    | @pipeline a p out hgoes hpipeline => exact Or.inr ⟨rfl, (outputs_map_pipeline out).2.2⟩
    | @auth a p out hgoes hauth =>
        refine Or.inl ⟨a, ?_⟩
        show Auth.auth.step s.auth a = some (p, authOutputs _)
        rw [(outputs_map_auth out).2.2]
        exact hauth

end parts

end RedisApi.Http
