import Levin.Components.Answers
import Levin.Proof.Router.Captures

/-!
# Failures of the default application

Whatever is behind `ErrorHandle` may raise, be cancelled or take too long: `TimeLimit`
and `on_error` make a response of it. So no exception leaves the application but one of
`LoggerComponent`, which cannot log a value that is no response or a request whose head
is not UTF-8, or one of `Push` (`contained`).
-/

namespace Levin

open Framework Bytes

variable {V H : Type} [H2.PushValue V]

/-- What happens behind the router, and whether the timer ends first. -/
structure Behaviour (V H : Type) [H2.PushValue V] where
  callNext : ScopedRequest V → H → Answer V (Came V)
  expired : Option (ScopedRequest V) := none

/-- What the application comes back with for a request. -/
def DefaultApp.outcome (app : DefaultApp V H (Came V)) (front : Front V) (depth : Nat) (first : H) (b : Behaviour V H)
    (info : Other V) (request : Request) : Answer V (Came V) :=
  (app.withFront front b.expired).handler depth b.callNext (request.connected info) first

/-- The request has its `get_transport_info`. -/
def Informed (request : Request) (info : Other V) (r : ScopedRequest V) : Prop :=
  r.Settled request (ascii "get_transport_info") info.1

/-- What is behind the router leaves it there. -/
structure Behaviour.Keeps (b : Behaviour V H) (request : Request) (info : Other V) : Prop where
  callNext : ∀ r handler, Informed request info r → Informed request info (b.callNext r handler).2
  expired : ∀ r, b.expired = some r → Informed request info r

/-- `on_error` returns a response, and `get_transport_info` is the connection's. -/
structure Front.Handles (front : Front V) (request : Request) (info : Other V) : Prop where
  page : ∀ e r, ∃ page, (front.onError e r).1 = .ok (.response page)
  keeps : ∀ e r, Informed request info r → Informed request info (front.onError e r).2
  call : front.call info.1 = .ok ()
  depth : 0 < front.depth

/-- What comes back from the router. -/
def DefaultApp.routed (app : DefaultApp V H (Came V)) (depth : Nat) (b : Behaviour V H) (info : Other V) (request : Request) :
    Answer V (Came V) :=
  HttpRouter.passOn b.callNext
    (HttpRouter.resolveRequestFrom depth app.router.notFoundHandler app.router.routes { request, scope := app.slots info })

/-- What comes back to `LoggerComponent`. -/
def DefaultApp.handled (app : DefaultApp V H (Came V)) (front : Front V) (depth : Nat) (b : Behaviour V H) (info : Other V)
    (request : Request) : Answer V (Came V) :=
  ErrorHandle.finish front.onError (TimeLimit.finish b.expired (app.routed depth b info request))

/-- The handler is done in time, with a value that is no response. -/
def DefaultApp.ReturnsValue (app : DefaultApp V H (Came V)) (depth : Nat) (b : Behaviour V H) (info : Other V)
    (request : Request) : Prop :=
  b.expired = none ∧ ∃ v, (app.routed depth b info request).1 = .ok (.value v)

/-- The handler's value is no response, the head of the request is not UTF-8, or `Push` cannot add the pushes. -/
def DefaultApp.Fails (app : DefaultApp V H (Came V)) (front : Front V) (depth : Nat) (b : Behaviour V H) (info : Other V)
    (request : Request) : Prop :=
  app.ReturnsValue depth b info request ∨ ¬ request.Decodes ∨
    ∃ page r e, app.handled front depth b info request = (.ok (.response page), r) ∧
      (H2.finish front.formatter front.depth (.ok page, (r.get front.depth (ascii "get_transport_info")).2)).1 = .error e

variable {request : Request} {info : Other V} {r : ScopedRequest V} {front : Front V} {b : Behaviour V H}

/-! ## The router -/

theorem Informed.set (h : Informed request info r) (key : Bytes) (slot : Slot V) : Informed request info (r.set key slot) := by
  obtain ⟨hr, hslot⟩ := h
  refine ⟨(ScopedRequest.set_request ..).trans hr, ?_⟩
  rw [ScopedRequest.get?_set]
  rcases hslot with hvalue | ⟨func, hlazy, hfunc⟩
  · exact .inl (by rw [hvalue, Option.some_or])
  · exact .inr ⟨func, by rw [hlazy, Option.some_or], hfunc⟩

theorem Informed.path (h : Informed request info r) (depth : Nat) : Informed request info (r.path depth).2 := by
  have hget := h.get depth (ascii "path")
  unfold ScopedRequest.path
  split <;> simp_all only [Informed]

theorem Informed.callRequest (h : Informed request info r) (depth : Nat) (condition : Condition V) :
    Informed request info (condition.callRequest depth r).2 := by
  have hpath := h.path depth
  unfold Condition.callRequest
  split
  · exact h
  · split
    · simp_all only
    · split <;> simp_all only

theorem Informed.resolve (h : Informed request info r) (depth : Nat) (notFoundHandler : H) (routes : List (Condition V × H)) :
    Informed request info (HttpRouter.resolveRequestFrom depth notFoundHandler routes r).2 := by
  induction routes generalizing r with
  | nil => exact h
  | cons route routes ih =>
    obtain ⟨condition, handler⟩ := route
    have hcall := h.callRequest depth condition
    rw [HttpRouter.resolveRequestFrom]
    split
    · simp_all only
    · simp_all only
    · next heq => exact ih (by simpa [heq] using hcall)

theorem Informed.setFound (h : Informed request info r) (found : Dict Bytes V) :
    Informed request info (HttpRouter.setFound found r) := by
  unfold HttpRouter.setFound
  induction found generalizing r with
  | nil => exact h
  | cons kv found ih => exact ih (h.set kv.1 (.value kv.2))

theorem passOn_informed (hb : b.Keeps request info) {found : Except Exc (H × Dict Bytes V) × ScopedRequest V}
    (h : Informed request info found.2) : Informed request info (HttpRouter.passOn b.callNext found).2 := by
  obtain ⟨found, r⟩ := found
  cases found with
  | error e => exact h
  | ok found => exact hb.callNext _ found.1 (h.setFound found.2)

variable (app : DefaultApp V H (Came V)) (depth : Nat)

theorem routed_informed (hb : b.Keeps request info) : Informed request info (app.routed depth b info request).2 := by
  refine passOn_informed hb (Informed.resolve ?_ depth _ _)
  exact ⟨rfl, .inr ⟨_, app.get?_slots List.mem_cons_self, rfl⟩⟩

/-! ## The components in front of it -/

/-- Failures and cancellations end at `ErrorHandle`. -/
theorem handled_cases (hfront : front.Handles request info) (hb : b.Keeps request info) :
    Informed request info (app.handled front depth b info request).2 ∧
      ((app.ReturnsValue depth b info request ∧ ∃ v, (app.handled front depth b info request).1 = .ok (.value v)) ∨
        (¬ app.ReturnsValue depth b info request ∧
          ∃ page, (app.handled front depth b info request).1 = .ok (.response page))) := by
  have hrouted := routed_informed app depth hb
  unfold DefaultApp.handled DefaultApp.ReturnsValue
  generalize app.routed depth b info request = answer at hrouted ⊢
  obtain ⟨came, r⟩ := answer
  cases hexpired : b.expired with
  | some r => exact ⟨hb.expired r hexpired, .inr ⟨fun h => (nomatch h.1), TimeLimit.timeoutPage, rfl⟩⟩
  | none =>
    rcases came with e | v | page | _
    · obtain ⟨page, hpage⟩ := hfront.page e r
      exact ⟨hfront.keeps e r hrouted, .inr ⟨fun ⟨_, v, hv⟩ => (nomatch hv), page, hpage⟩⟩
    · exact ⟨hrouted, .inl ⟨⟨rfl, v, rfl⟩, v, rfl⟩⟩
    · exact ⟨hrouted, .inr ⟨fun ⟨_, v, hv⟩ => (nomatch hv), page, rfl⟩⟩
    · exact ⟨hrouted, .inr ⟨fun ⟨_, v, hv⟩ => (nomatch hv), TimeLimit.timeoutPage, rfl⟩⟩

theorem outcome_eq (first : H) : app.outcome front depth first b info request =
    H2.finishCame front.formatter front.depth
      (LoggerComponent.finish front.call front.depth (app.handled front depth b info request)) :=
  (app.withFront front b.expired).handler_eq depth b.callNext request info first

/-- A response of a request that can be decoded is logged. -/
theorem log_of_decodes (hfront : front.Handles request info) (h : Informed request info r) (hdecodes : request.Decodes)
    (page : H2.Response V Response) : LoggerComponent.log front.call front.depth page r =
      (.ok (.response page), (r.get front.depth (ascii "get_transport_info")).2) := by
  obtain ⟨depth, hdepth⟩ := Nat.exists_eq_succ_of_ne_zero hfront.depth.ne'
  have hget : (r.get front.depth (ascii "get_transport_info")).1 = .ok (some info.1) := by
    rw [hdepth]
    exact ScopedRequest.get_of_settled h depth
  have heq : r.get front.depth (ascii "get_transport_info") =
      (.ok (some info.1), (r.get front.depth (ascii "get_transport_info")).2) := Prod.ext hget rfl
  rw [LoggerComponent.log, if_pos (h.1 ▸ hdecodes), heq]
  simp only [hfront.call]
  rfl

/-- The application comes back with a response, unless `LoggerComponent` or `Push` fails. -/
theorem contained (hfront : front.Handles request info) (hb : b.Keeps request info) (first : H) :
    (∃ e, (app.outcome front depth first b info request).1 = .error e) ∧ app.Fails front depth b info request ∨
      (∃ page, (app.outcome front depth first b info request).1 = .ok (.response page)) ∧
        ¬ app.Fails front depth b info request := by
  obtain ⟨hinformed, ⟨hvalue, v, hv⟩ | ⟨hvalue, page, hpage⟩⟩ := handled_cases app depth hfront hb
  · -- `LoggerComponent` asks the value for its status.
    have heq : app.handled front depth b info request = (.ok (.value v), _) := Prod.ext hv rfl
    refine .inl ⟨⟨.AttributeError, ?_⟩, .inl hvalue⟩
    rw [outcome_eq, heq]
    rfl
  · obtain ⟨r, hr⟩ : ∃ r, app.handled front depth b info request = (.ok (.response page), r) := ⟨_, Prod.ext hpage rfl⟩
    rw [hr] at hinformed
    by_cases hdecodes : request.Decodes
    · have hlog := log_of_decodes hfront hinformed hdecodes page
      cases hpush : (H2.finish front.formatter front.depth
          (.ok page, (r.get front.depth (ascii "get_transport_info")).2)).1 with
      | error e =>
        refine .inl ⟨⟨e, ?_⟩, .inr (.inr ⟨page, r, e, hr, hpush⟩)⟩
        rw [outcome_eq, hr, LoggerComponent.finish, hlog, H2.finishCame]
        simp only [hpush]
        rfl
      | ok page' =>
        refine .inr ⟨⟨page', ?_⟩, ?_⟩
        · rw [outcome_eq, hr, LoggerComponent.finish, hlog, H2.finishCame]
          simp only [hpush]
          rfl
        · rintro (h | h | ⟨page'', r', e, heq, he⟩)
          · exact hvalue h
          · exact h hdecodes
          · rw [hr] at heq
            cases heq
            rw [hpush] at he
            cases he
    · refine .inl ⟨⟨.other "UnicodeDecodeError", ?_⟩, .inr (.inl hdecodes)⟩
      rw [outcome_eq, hr, LoggerComponent.finish, LoggerComponent.log, if_neg (hinformed.1 ▸ hdecodes)]
      rfl

end Levin
