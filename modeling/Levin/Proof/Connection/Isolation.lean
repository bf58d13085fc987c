import Levin.Core.Connections
import Levin.Framework.Interleave
import Levin.Proof.Connection.Alike

/-!
# Connections keep to themselves

However the events of many connections come after one another, each connection does
what it would do with the server to itself, as long as they all speak one protocol:
`response_500`, which they share, is written alike whichever of them wrote it before
(`connections_apart`). Nothing but the order of one connection's own events decides
what it dispatches, writes and closes.
-/

namespace Levin.Connections

open Framework Connection

variable {π ω : Type} {P : Response → Prop} {parsers : List π} {x x' : Connections π ω}
  {s s' : Option (Connection π ω)} {es : List ServerEvent} {e : ServerEvent} {k : Nat}

/-- What the server holds for connection `k` is the connection alone, but for `response_500`. -/
def Holds (P : Response → Prop) (k : Nat) (x : Connections π ω) (s : Option (Connection π ω)) : Prop :=
  Option.Rel (Alike P) s (x.connection k)

/-- With the module's `response_500` it is still the same connection. -/
theorem alike_shared {c d : Connection π ω} (h : Alike P c d) (hx : P x.response500) :
    Alike P c { d with response500 := x.response500 } := by
  refine ⟨?_, h.left, hx⟩
  rw [h.eq]
  rfl

theorem alike_symm {c d : Connection π ω} (h : Alike P c d) : Alike P d c := by
  refine ⟨?_, h.right, h.left⟩
  rw [h.eq]
  rfl

theorem holds_none_iff : Holds P k x none ↔ x.connection k = none := by
  rw [Holds]
  cases x.connection k with
  | none => exact iff_of_true .none rfl
  | some d => exact iff_of_false nofun nofun

theorem holds_some_iff {c : Connection π ω} :
    Holds P k x (some c) ↔ ∃ d, x.connection k = some d ∧ Alike P c d := by
  rw [Holds]
  cases x.connection k with
  | none => exact iff_of_false nofun nofun
  | some d => simp

theorem holds_iff_of_some {d : Connection π ω} (hd : x.connection k = some d) :
    Holds P k x s ↔ ∃ c, s = some c ∧ Alike P c d := by
  rw [Holds, hd]
  cases s with
  | none => exact iff_of_false nofun nofun
  | some c => simp

theorem holds_new (k : Nat) : Holds P k ({} : Connections π ω) none := .none

/-- Two connections are the same, whatever their `response_500`. -/
def Same (c d : Option (Connection π ω)) : Prop := ∃ r, d = c.map (with500 r)

theorem Holds.same (h : Holds P k x s) : Same s (x.connection k) := by
  cases s with
  | none => exact ⟨x.response500, holds_none_iff.mp h⟩
  | some c =>
    obtain ⟨d, hd, hcd⟩ := holds_some_iff.mp h
    exact ⟨d.response500, hd.trans (congrArg some hcd.eq)⟩

variable [ParserProtocol π ω]

/-- A step that makes connection `k`. -/
theorem step_made {info : TransportInfo} {sslcontext : Bool} : Step parsers x (.made k info sslcontext) x' ↔
    x.connection k = none ∧
      x' = { x with connection := Function.update x.connection k (some (.fresh parsers info sslcontext)) } := by
  simp only [Step, step]
  cases x.connection k with
  | none => simp [eq_comm]
  | some c => simp

/-- A step of connection `k`. -/
theorem step_of {e : Event} : Step parsers x (.of k e) x' ↔
    ∃ c c', x.connection k = some c ∧ Connection.Step { c with response500 := x.response500 } e c' ∧
      x' = { connection := Function.update x.connection k (some c'), response500 := c'.response500 } := by
  simp only [Step, step]
  cases x.connection k with
  | none => simp
  | some c => simp only [Option.map_eq_some_iff, Option.some.injEq, exists_and_left, exists_eq_left', Connection.Step,
      @eq_comm _ x']

/-- An event leaves the connections that it is not about as they are. -/
theorem step_frame (hk : e.connection ≠ some k) (h : Step parsers x e x') : x'.connection k = x.connection k := by
  cases e with
  | made j info sslcontext =>
    obtain ⟨-, rfl⟩ := step_made.mp h
    exact Function.update_of_ne (fun h => hk (congrArg some h.symm)) _ _
  | of j e =>
    obtain ⟨c, c', -, -, rfl⟩ := step_of.mp h
    exact Function.update_of_ne (fun h => hk (congrArg some h.symm)) _ _

theorem step_forth (S : Steady π P) (hx : P x.response500) (hk : e.connection = some k) (hs : Holds P k x s)
    (h : Step parsers x e x') : ∃ s', Alone parsers s e s' ∧ Holds P k x' s' := by
  cases e with
  | made j info sslcontext =>
    obtain rfl : j = k := Option.some.inj hk
    obtain ⟨hnone, rfl⟩ := step_made.mp h
    cases s with
    | none =>
      exact ⟨some (.fresh parsers info sslcontext), rfl,
        holds_some_iff.mpr ⟨_, Function.update_self _ _ _, Alike.refl S.first⟩⟩
    | some c =>
      obtain ⟨d, hd, -⟩ := holds_some_iff.mp hs
      rw [hnone] at hd
      cases hd
  | of j e =>
    obtain rfl : j = k := Option.some.inj hk
    obtain ⟨d, d', hd, hstep, rfl⟩ := step_of.mp h
    obtain ⟨c, rfl, hcd⟩ := (holds_iff_of_some hd).mp hs
    obtain ⟨c', hc', halike⟩ := step_alike S (alike_symm (alike_shared hcd hx)) hstep
    exact ⟨some c', Option.map_eq_some_iff.mpr ⟨c', hc', rfl⟩,
      holds_some_iff.mpr ⟨d', Function.update_self _ _ _, alike_symm halike⟩⟩

theorem step_back (S : Steady π P) (hx : P x.response500) (hk : e.connection = some k) (hs : Holds P k x s)
    (h : Alone parsers s e s') : ∃ x', Step parsers x e x' := by
  cases e with
  | made j info sslcontext =>
    obtain rfl : j = k := Option.some.inj hk
    cases s with
    | none => exact ⟨_, step_made.mpr ⟨holds_none_iff.mp hs, rfl⟩⟩
    | some c => cases h
  | of j e =>
    obtain rfl : j = k := Option.some.inj hk
    cases s with
    | none => cases h
    | some c =>
      obtain ⟨d, hd, hcd⟩ := holds_some_iff.mp hs
      obtain ⟨c', hc', -⟩ := Option.map_eq_some_iff.mp h
      obtain ⟨d', hd', -⟩ := step_alike S (alike_shared hcd hx) hc'
      exact ⟨_, step_of.mpr ⟨d, d', hd, hd', rfl⟩⟩

/-- The shared response stays one that is written alike. -/
theorem step_keeps (S : Steady π P) (hx : P x.response500) (h : Step parsers x e x') : P x'.response500 := by
  cases e with
  | made k info sslcontext =>
    obtain ⟨-, rfl⟩ := step_made.mp h
    exact hx
  | of k e =>
    obtain ⟨c, c', -, hstep, rfl⟩ := step_of.mp h
    have hself : Alike P { c with response500 := x.response500 } { c with response500 := x.response500 } := .refl hx
    obtain ⟨d', -, halike⟩ := step_alike S hself hstep
    exact halike.left

/-- The server's steps are those of its connections. -/
theorem splits (S : Steady π P) (parsers : List π) :
    Splits ServerEvent.connection (Alone parsers) (Step parsers) (fun x : Connections π ω => P x.response500)
      (Holds P) where
  det _ _ _ _ ha hb := Option.some.inj (ha.symm.trans hb)
  total e := by cases e <;> rfl
  keeps _ _ _ hx h := step_keeps S hx h
  forth _ _ _ _ _ hx hk hs h := step_forth S hx hk hs h
  back _ _ _ _ _ hx hk hs h := step_back S hx hk hs h
  frame k x s e x' hk hs h := by rwa [Holds, step_frame hk h]

/-- The runs of a server are the interleavings of its connections' runs, each with the module to itself; and it holds
for each connection what the connection's own events lead to, whatever happens on the others. -/
theorem connections_apart (S : Steady π P) (parsers : List π) (es : List ServerEvent) :
    ((∃ x, Run (Step parsers) ({} : Connections π ω) es x) ↔
      Interleaved ServerEvent.connection (Alone parsers) (none : Option (Connection π ω)) es) ∧
    ∀ x : Connections π ω, Run (Step parsers) {} es x → ∀ k s,
      Run (Alone parsers) none (on ServerEvent.connection k es) s → Same s (x.connection k) :=
  ⟨(splits S parsers).run_iff S.first holds_new,
    fun _ hr _ _ hs => (((splits S parsers).of_run S.first holds_new hr).2.2 hs).same⟩

/-- Two connections of a server with the simple parser alone. The handler of the first fails, then that of the second:
both write the same `response_500`. -/
def bothFail : List ServerEvent :=
  [.made 0 createConnection.transport.info false, .made 1 createConnection.transport.info false,
    .of 0 (.dataReceived (chunk "/")), .of 1 (.dataReceived (chunk "/q/")), .of 1 (.handlerDone 0 (.raised .ValueError)),
    .of 0 (.handlerDone 0 .cancelled), .of 0 (.settle 0), .of 1 (.settle 0)]

/-- The server after both handlers have failed. -/
def afterBothFail : Option (Connections HttpSimple.Parser UInt8) := bothFail.foldlM (step [{}]) {}

theorem bothFail_run : Run (Step [{}]) {} bothFail (afterBothFail.get (by decide)) :=
  (run_iff_foldlM fun _ _ _ => Iff.rfl).mpr (Option.some_get _).symm

theorem bothFail_apart :
    Interleaved ServerEvent.connection (Alone [{}]) (none : Option (Connection HttpSimple.Parser UInt8)) bothFail ∧
    ∀ k s, Run (Alone [{}]) none (on ServerEvent.connection k bothFail) s →
      Same s ((afterBothFail.get (by decide)).connection k) := by
  obtain ⟨hiff, hsame⟩ := connections_apart steady_http1 [{}] bothFail
  exact ⟨hiff.mp ⟨_, bothFail_run⟩, hsame _ bothFail_run⟩

end Levin.Connections
