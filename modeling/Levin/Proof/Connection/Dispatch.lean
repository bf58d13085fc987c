import Levin.Core.EventLoop
import Levin.Proof.Connection.Callbacks
import Mathlib.Data.List.Range

/-!
# Receiving a chunk

What `data_received` does, in closed form. An accepted chunk sends its bytes and
dispatches its requests: one pending future and one task each, the close callback
on the last of them if the chunk closes the connection (`dispatched`); without a
request it closes the connection at once (`accept_eq`). Any other chunk makes
`data_received` raise (`receive_cases`).
-/

namespace Levin.Connection

open Framework

variable {π ω : Type} {c c' : Connection π ω} {f g k : Nat}

/-! ## New futures -/

/-- The request of the future `f`, where the futures of `rs` are numbered from `n` on. -/
def newRequest (n : Nat) (rs : List Request) (f : Nat) : Option Request :=
  if f < n then none else rs[f - n]?

/-- `c` once the requests `rs` are dispatched, with the close callback on the last one if `close`
says so. -/
def dispatched (rs : List Request) (close : Bool) (c : Connection π ω) : Connection π ω :=
  let callbacks (f : Nat) : List Callback :=
    if close ∧ f + 1 = c.next + rs.length then [.done, .close] else [.done]
  { c with
    next := c.next + rs.length,
    futures := c.futures ++ List.range' c.next rs.length,
    future := fun f =>
      ((newRequest c.next rs f).map fun request => { request, callbacks := callbacks f }).getD (c.future f),
    task := fun f => ((newRequest c.next rs f).map fun _ => { state := .handling }).getD (c.task f) }

variable {rs : List Request} {close : Bool}

theorem newRequest_none {n : Nat} (h : f < n ∨ n + rs.length ≤ f) : newRequest n rs f = none := by
  unfold newRequest
  split
  · rfl
  · exact List.getElem?_eq_none (by omega)

theorem newRequest_some {n : Nat} (h₁ : n ≤ f) (h₂ : f < n + rs.length) :
    ∃ request ∈ rs, newRequest n rs f = some request := by
  have hlt : f - n < rs.length := by omega
  refine ⟨rs[f - n], List.getElem_mem hlt, ?_⟩
  rw [newRequest, if_neg (by omega), List.getElem?_eq_getElem hlt]

theorem newRequest_append {n : Nat} (request : Request) :
    newRequest n (rs ++ [request]) f = if f = n + rs.length then some request else newRequest n rs f := by
  unfold newRequest
  by_cases hlt : f < n
  · rw [if_pos hlt, if_pos hlt, if_neg (by omega)]
  · rw [if_neg hlt, if_neg hlt, List.getElem?_append]
    by_cases hf : f = n + rs.length
    · subst hf
      simp
    · rw [if_neg hf]
      split
      · rfl
      · rw [List.getElem?_eq_none (by simp; omega), List.getElem?_eq_none (by omega)]

/-- The futures and tasks of before are as they were. -/
theorem dispatched_old (h : f < c.next ∨ c.next + rs.length ≤ f) :
    (dispatched rs close c).future f = c.future f ∧ (dispatched rs close c).task f = c.task f := by
  simp [dispatched, newRequest_none h]

/-- A new future is pending, and its task waits for the handler. -/
theorem dispatched_new (h₁ : c.next ≤ f) (h₂ : f < c.next + rs.length) :
    ∃ request ∈ rs, newRequest c.next rs f = some request ∧
      (dispatched rs close c).future f =
        { request, callbacks := if close ∧ f + 1 = c.next + rs.length then [.done, .close] else [.done] } ∧
      (dispatched rs close c).task f = { state := .handling } := by
  obtain ⟨request, hmem, h⟩ := newRequest_some h₁ h₂
  exact ⟨request, hmem, h, by simp [dispatched, h]⟩

theorem dispatched_task (rs : List Request) (close : Bool) (c : Connection π ω) (f : Nat) :
    (dispatched rs close c).task f = c.task f ∨
      c.next ≤ f ∧ f < c.next + rs.length ∧ (dispatched rs close c).task f = { state := .handling } := by
  by_cases h : c.next ≤ f ∧ f < c.next + rs.length
  · obtain ⟨-, -, -, -, ht⟩ := dispatched_new h.1 h.2
    exact .inr ⟨h.1, h.2, ht⟩
  · exact .inl (dispatched_old (by omega)).2

theorem dispatch_dispatched (request : Request) :
    (dispatched rs false c).dispatch request = dispatched (rs ++ [request]) false c := by
  simp only [dispatch, addDoneCallback, Function.update_self, Function.update_idem]
  unfold dispatched
  congr 1
  · simp [List.range'_concat, ← List.append_assoc]
  · simp [Nat.add_assoc]
  · funext f
    rw [newRequest_append, Function.update_apply]
    split <;> simp
  · funext f
    rw [newRequest_append, Function.update_apply]
    split <;> simp

theorem foldl_dispatch (rs : List Request) (c : Connection π ω) :
    rs.foldl dispatch c = dispatched rs false c := by
  induction rs using List.reverseRecOn with
  | nil => simp [dispatched, newRequest]
  | append_singleton rs request ih =>
    rw [List.foldl_append, ih]
    exact dispatch_dispatched request

/-- The close callback on the last of the new futures. -/
theorem addDoneCallback_dispatched (h : rs ≠ []) :
    (dispatched rs false c).addDoneCallback (c.next + rs.length - 1) .close = dispatched rs true c := by
  have hlen := List.length_pos_of_ne_nil h
  obtain ⟨request, -, hr⟩ : ∃ request ∈ rs, newRequest c.next rs (c.next + rs.length - 1) = some request :=
    newRequest_some (by omega) (by omega)
  have hlast : ∀ f, f + 1 = c.next + rs.length ↔ f = c.next + rs.length - 1 := by omega
  simp only [addDoneCallback]
  unfold dispatched
  congr 1
  funext f
  rw [Function.update_apply]
  by_cases hf : f = c.next + rs.length - 1
  · subst hf
    simp [hr, hlast]
  · simp [hf, hlast]

/-! ## Chunks -/

variable [ParserProtocol π ω]

/-- `_parse` changes the parsers alone, and selects one if it accepts. -/
theorem parse_eq (data : Bytes) (c : Connection π ω) :
    ∃ (ps : List π) (p : Option π), (c.parser ≠ none → p ≠ none) ∧
      (∀ parsed, (c.parse data).2 = .ok (some parsed) → p ≠ none) ∧
      (c.parse data).1 = { c with parsers := ps, parser := p } := by
  unfold parse
  split
  · exact ⟨_, _, by simp, by simp, rfl⟩
  · rename_i hn
    rcases selectParser data c.parsers with ⟨ps, e | _ | ⟨p, parsed⟩⟩
    · exact ⟨ps, none, by simp [hn], by simp, by simp [hn]⟩
    · exact ⟨ps, none, by simp [hn], by simp, by simp [hn]⟩
    · exact ⟨ps, some p, by simp, by simp, rfl⟩

/-- What a connection sends right away. -/
def sent (data : List ω) : List (Action ω) := if data = [] then [] else [.write data]

/-- An accepted chunk closes the connection at once, or dispatches its requests. -/
theorem accept_eq (parsed : Parsed ω) (c : Connection π ω) :
    c.accept parsed =
      let c₁ := { c with log := c.log ++ sent parsed.data }
      if parsed.close ∧ parsed.requests = [] then c₁.close
      else (dispatched parsed.requests parsed.close c₁, none) := by
  have hsent : (if parsed.data = [] then c else c.write parsed.data) =
      { c with log := c.log ++ sent parsed.data } := by
    unfold sent write
    split <;> simp
  simp only [accept, foldl_dispatch, hsent]
  cases hc : parsed.close with
  | false => simp
  | true =>
    by_cases hr : parsed.requests = []
    · simp [hr, dispatched, newRequest]
    · simp only [hr, ite_false, ite_true, and_false]
      rw [← addDoneCallback_dispatched hr]
      rfl

/-- Why `data_received` raises: the parser does, or no parser accepts the chunk. -/
def Rejects (c : Connection π ω) (data : Bytes) (e : Exc) : Prop :=
  (c.parse data).2 = .error e ∨ (c.parse data).2 = .ok none ∧ e = .TypeError

/-- What a chunk does: an exception comes out, or the chunk closes the connection, or dispatches
requests. -/
theorem receive_cases (hp : Pending c) (data : Bytes) :
    ∃ (ps : List π) (p : Option π), (c.parser ≠ none → p ≠ none) ∧
      ((∃ e, Rejects c data e ∧
          c.receive data =
            { { c with parsers := ps, parser := p }.setClosing with escaped := c.escaped ++ [e] }) ∨
        ∃ parsed, (c.parse data).2 = .ok (some parsed) ∧ p ≠ none ∧
          let c₁ := { c with parsers := ps, parser := p, log := c.log ++ sent parsed.data }
          if parsed.close ∧ parsed.requests = [] then Closes c₁.closeTransport (c.receive data)
          else c.receive data = dispatched parsed.requests parsed.close c₁) := by
  obtain ⟨ps, p, hmono, hsome, hc⟩ := parse_eq data c
  refine ⟨ps, p, hmono, ?_⟩
  generalize hr : c.parse data = r at hc hsome
  obtain ⟨c₀, result⟩ := r
  obtain rfl : c₀ = _ := hc
  rcases result with e | _ | parsed
  · exact .inl ⟨e, .inl (by rw [hr]), by simp [receive, dataReceived, hr, setClosing]⟩
  · exact .inl ⟨.TypeError, .inr ⟨by rw [hr], rfl⟩, by simp [receive, dataReceived, hr, setClosing]⟩
  · refine .inr ⟨parsed, rfl, hsome parsed rfl, ?_⟩
    have hp₁ : Pending { c with parsers := ps, parser := p, log := c.log ++ sent parsed.data } :=
      ⟨hp.nodup, hp.pending, hp.callbacks⟩
    simp only [receive, dataReceived, hr, accept_eq]
    split
    · obtain ⟨hcl, hexc⟩ := close_closes hp₁
      generalize Connection.close { c with parsers := ps, parser := p, log := c.log ++ sent parsed.data } = s at hcl hexc
      obtain ⟨c', e⟩ := s
      obtain rfl : e = none := hexc
      exact hcl
    · rfl

end Levin.Connection
