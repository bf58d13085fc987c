import Levin.Proof.Components.Containment
import Levin.Proof.Components.PushTemplates
import Levin.Proof.Connection.Exchange

/-!
# The default application behind an HTTP/1 connection

A client is answered with a response of the application, in every run: a page of
`on_error` if something behind it fails. The bare 500 of the connection is left for
requests whose task is cancelled, whose response has a status HTTP does not know, or
which the application cannot log or push for (`served`).
-/

namespace Levin

open Framework Bytes

variable {V H : Type} [H2.PushValue V]

/-- How the call of the handler ends that comes back so. A response is one up to its pushes. -/
inductive ComesAs : Except Exc (Came V) → HandlerResult → Prop
  | raised (e : Exc) : ComesAs (.error e) (.raised e)
  | cancelled : ComesAs (.ok .cancelled) .cancelled
  | returned (page : H2.Response V Response) (pushes : List Push) :
    ComesAs (.ok (.response page)) (.returned { page.rest with pushes })

/-- The default application, as a connection is given it. -/
structure ServedApp (V H : Type) [H2.PushValue V] where
  app : DefaultApp V H (Came V)
  front : Front V
  depth : Nat
  first : H
  info : Other V
  /-- What happens to each request. -/
  behaviour : Nat → Behaviour V H

namespace ServedApp

variable (served : ServedApp V H)

/-- What comes back for the `f`-th request. -/
def outcome (f : Nat) (request : Request) : Except Exc (Came V) :=
  (served.app.outcome served.front served.depth served.first (served.behaviour f) served.info request).1

/-- The application cannot log it, or push for it. -/
def Fails (f : Nat) (request : Request) : Prop :=
  served.app.Fails served.front served.depth (served.behaviour f) served.info request

/-- The handlers of the requests come back as the application does. -/
structure Serves (es : List Event) : Prop where
  handlers : ∀ f result, .handlerDone f result ∈ es →
    ∃ request, (Connection.parsedRequests es)[f]? = some request ∧ ComesAs (served.outcome f request) result
  handles : ∀ request ∈ Connection.parsedRequests es, served.front.Handles request served.info
  keeps : ∀ f, ∀ request ∈ Connection.parsedRequests es, (served.behaviour f).Keeps request served.info

/-- An answer that the application has made. -/
def Answers (f : Nat) (request : Request) (response : Response) : Prop :=
  ∃ page pushes, served.outcome f request = .ok (.response page) ∧ response = { page.rest with pushes }

/-- Why a request gets no answer of the application. -/
def Unserved (es : List Event) (f : Nat) (request : Request) : Prop :=
  .cancelTask f ∈ es ∨ served.Fails f request ∨
    ∃ page, served.outcome f request = .ok (.response page) ∧ (HttpSimple.statusPhrase page.rest.status).isSome = false

variable {served} {es : List Event} {f : Nat} {request : Request}

/-- The application comes back with a response, or fails. -/
theorem outcome_cases (hs : served.Serves es) (hrequest : request ∈ Connection.parsedRequests es) (f : Nat) :
    (∃ e, served.outcome f request = .error e) ∧ served.Fails f request ∨
      (∃ page, served.outcome f request = .ok (.response page)) ∧ ¬ served.Fails f request :=
  contained served.app served.depth (hs.handles request hrequest) (hs.keeps f request hrequest) served.first

theorem answers_of_comesAs (hs : served.Serves es) (hrequest : request ∈ Connection.parsedRequests es) {response : Response}
    (hcomes : ComesAs (served.outcome f request) (.returned response)) :
    served.Answers f request response ∧ ¬ served.Fails f request := by
  have hcases := outcome_cases hs hrequest f
  generalize houtcome : served.outcome f request = outcome at hcomes hcases
  cases hcomes with
  | returned page pushes =>
    rcases hcases with ⟨⟨e, h⟩, -⟩ | ⟨-, hnot⟩
    · cases h
    · exact ⟨⟨page, pushes, houtcome, rfl⟩, hnot⟩

/-- A task that fails by the end of its handler has an application that fails, or an unknown status. -/
theorem unserved_of_failsBy (hs : served.Serves es) (hrequest : (Connection.parsedRequests es)[f]? = some request) {e : Event}
    (he : e ∈ es) (hfails : Connection.FailsBy f e) : served.Unserved es f request := by
  cases e with
  | handlerDone g result =>
    have hg : g = f := by
      cases result with
      | returned response => exact hfails.1
      | raised e => exact hfails
      | cancelled => exact hfails
    subst hg
    obtain ⟨request', hrequest', hcomes⟩ := hs.handlers g result he
    obtain rfl : request = request' := Option.some.inj (hrequest.symm.trans hrequest')
    have hcases := outcome_cases hs (List.mem_of_getElem? hrequest) g
    generalize houtcome : served.outcome g request = outcome at hcomes hcases
    cases hcomes with
    | raised e =>
      rcases hcases with ⟨-, h⟩ | ⟨⟨page, h⟩, -⟩
      · exact .inr (.inl h)
      · cases h
    | cancelled => rcases hcases with ⟨⟨e, h⟩, -⟩ | ⟨⟨page, h⟩, -⟩ <;> cases h
    | returned page pushes => exact .inr (.inr ⟨page, houtcome, hfails.2⟩)
  | cancelTask g =>
    obtain rfl : g = f := hfails
    exact .inl he
  | _ => exact hfails.elim

end ServedApp

/-- In every run an answer is the application's, which has not failed, with a status of HTTP, or the bare 500 of a request
that it does not serve. -/
theorem served {c : Connection HttpSimple.Parser UInt8} {ti : TransportInfo} {ssl : Bool} {served : ServedApp V H}
    {es : List Event} (h : Run Connection.Step (Connection.fresh [{}] ti ssl) es c) (hs : served.Serves es) :
    ∃ x, Connection.Exchanged es c x ∧ ∀ f response, (f, response) ∈ x.answers →
      ∃ request, (Connection.parsedRequests es)[f]? = some request ∧
        ((served.Answers f request response ∧ ¬ served.Fails f request) ∧
            (HttpSimple.statusPhrase response.status).isSome ∨
          response = Connection.sorry500 ∧ served.Unserved es f request) := by
  obtain ⟨x, hx⟩ := Connection.exchanged_run h
  refine ⟨x, hx, fun f response ha => ?_⟩
  have hlt : f < x.received.length := hx.reachable.answered_nodup.2 f (List.mem_map.mpr ⟨_, ha, rfl⟩)
  rw [hx.received] at hlt
  have hrequest : (Connection.parsedRequests es)[f]? = some (Connection.parsedRequests es)[f] := List.getElem?_eq_getElem hlt
  refine ⟨_, hrequest, ?_⟩
  rcases hx.genuine f response ha with ⟨hdone, hk⟩ | ⟨⟨-, e, he, hfails⟩, hresponse⟩
  · obtain ⟨request, hrequest', hcomes⟩ := hs.handlers f _ hdone
    rw [← Option.some.inj (hrequest'.symm.trans hrequest)]
    exact .inl ⟨ServedApp.answers_of_comesAs hs (List.mem_of_getElem? hrequest') hcomes, hk⟩
  · exact .inr ⟨hresponse, ServedApp.unserved_of_failsBy hs hrequest he hfails⟩

/-- An application whose first handler raises, and whose others return a value that no component formats. -/
def strictApp : ServedApp H2.Value Nat where
  app := {
    patchRequest := (avatarApp []).patchRequest
    createAddPush := (avatarApp []).createAddPush
    logger := (avatarApp []).logger
    router := (avatarApp []).router
    getUrl := (avatarApp []).getUrl
    getRoute := (avatarApp []).getRoute
    finishPush := id
    finishLogger := id
    finishErrorHandle := id
    finishTimeLimit := id }
  front := {
    formatter := H2.valueFormatter
    call := fun _ => .ok ()
    onError := fun _ r => (.ok (.response ⟨{ status := 500, body := ascii "Failed" }, .pushes []⟩), r)
    depth := 1 }
  depth := 1
  first := 0
  info := ⟨.object 60, rfl⟩
  behaviour f := { callNext := fun r _ => (if f = 0 then .error .ValueError else .ok (.value .none), r) }

/-- Two requests, and the ends of their handlers. -/
def strictEvents : List Event :=
  [.dataReceived (Connection.chunk "/"), .dataReceived (Connection.chunk "/"), .handlerDone 1 (.raised .AttributeError),
    .handlerDone 0 (.returned { status := 500, body := ascii "Failed" }), .settle 1, .settle 0]

def strictRequest : Request := { getRequest (ascii "/") with body := some [] }

theorem strict_parsed : Connection.parsedRequests strictEvents = [strictRequest, strictRequest] := by decide

theorem strict_handles (request : Request) : strictApp.front.Handles request strictApp.info where
  page _ _ := ⟨_, rfl⟩
  keeps _ _ h := h
  call := rfl
  depth := by decide

theorem strict_serves : strictApp.Serves strictEvents where
  handlers f result he := by
    rw [strict_parsed]
    simp only [strictEvents, List.mem_cons, reduceCtorEq, false_or, List.not_mem_nil, or_false, Event.handlerDone.injEq] at he
    rcases he with ⟨rfl, rfl⟩ | ⟨rfl, rfl⟩
    · exact ⟨strictRequest, rfl, .raised .AttributeError⟩
    · exact ⟨strictRequest, rfl, .returned _ []⟩
  handles request _ := strict_handles request
  keeps _ _ _ := ⟨fun _ _ h => h, nofun⟩

theorem strict_page : strictApp.outcome 0 strictRequest =
    .ok (.response ⟨{ status := 500, body := ascii "Failed" }, .pushes []⟩) :=
  rfl

theorem strict_raised : strictApp.outcome 1 strictRequest = .error .AttributeError := rfl

theorem strict_unfailed : ¬ strictApp.Fails 0 strictRequest := by
  have hrequest : strictRequest ∈ Connection.parsedRequests strictEvents := by decide
  rcases ServedApp.outcome_cases strict_serves hrequest 0 with ⟨⟨e, he⟩, -⟩ | ⟨-, h⟩
  · cases strict_page.symm.trans he
  · exact h

/-- The first request is served. -/
theorem strict_unserved : ¬ strictApp.Unserved strictEvents 0 strictRequest := by
  rintro (hcancel | hfails | ⟨page, hpage, hstatus⟩)
  · simp [strictEvents] at hcancel
  · exact strict_unfailed hfails
  · cases strict_page.symm.trans hpage
    cases hstatus

/-- Both tasks come to their ends on an open transport. -/
theorem strict_ends : (Connection.createConnection.run strictEvents).map (fun c =>
    (c.transport.closing, c.next, (c.task 0).state, (c.task 1).state)) = some (false, 2, .gone, .gone) := by
  decide

/-- Each of the two requests is answered, the first with a page of `on_error`, the second with the bare 500. -/
theorem strict_served : ∃ c x, Run Connection.Step Connection.createConnection strictEvents c ∧
    Connection.Exchanged strictEvents c x ∧ x.answered.Perm [0, 1] ∧
      (∀ response, (0, response) ∈ x.answers → ∃ pushes, response = { status := 500, body := ascii "Failed", pushes }) ∧
      ∀ response, (1, response) ∈ x.answers → response = Connection.sorry500 := by
  obtain ⟨c, hc, hends⟩ := Option.map_eq_some_iff.mp strict_ends
  simp only [Prod.mk.injEq] at hends
  obtain ⟨hopen, hnext, hfirst, hsecond⟩ := hends
  have hrun := Connection.run_sound hc
  obtain ⟨x, hx, hanswers⟩ := served hrun strict_serves
  have hwaits : ∀ f, ¬ Connection.Waiting c f := by
    intro f hwaiting
    have hstate : (c.task f).state ≠ .gone := by
      rcases hwaiting with h | ⟨o, -, h⟩ <;> simp [h]
    have hlt : f < c.next := (Connection.Reachable.wf ⟨_, _, _, _, hrun⟩).lt_of_task (.inl hstate)
    obtain rfl | rfl : f = 0 ∨ f = 1 := by omega
    · exact hstate hfirst
    · exact hstate hsecond
  have hperm := hx.complete hopen hwaits
  rw [strict_parsed] at hperm hanswers
  refine ⟨c, x, hrun, hx, hperm, fun response ha => ?_, fun response ha => ?_⟩
  · obtain ⟨request, hrequest, ⟨⟨⟨page, pushes, hpage, rfl⟩, -⟩, -⟩ | ⟨-, hunserved⟩⟩ := hanswers 0 response ha
    · obtain rfl := Option.some.inj hrequest
      cases strict_page.symm.trans hpage
      exact ⟨pushes, rfl⟩
    · obtain rfl := Option.some.inj hrequest
      exact absurd hunserved strict_unserved
  · obtain ⟨request, hrequest, ⟨⟨⟨page, pushes, hpage, -⟩, -⟩, -⟩ | ⟨hresponse, -⟩⟩ := hanswers 1 response ha
    · obtain rfl := Option.some.inj hrequest
      cases strict_raised.symm.trans hpage
    · exact hresponse

end Levin
