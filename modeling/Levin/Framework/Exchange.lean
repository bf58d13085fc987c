import Levin.Framework.Run
import Mathlib.Data.List.Nodup
import Mathlib.Data.List.Range

/-!
# Requests and answers

An exchange is what a server is for, seen from outside: requests come in and are
numbered in that order, and each is answered at most once, at any time and in any
order (`Exchange.Step`). Answers are sent whole, one after the other: what is sent
is the concatenation of their encodings (`sent`). If every request has been
answered, the answers are those of the requests, none missing and none twice
(`perm_range`).
-/

namespace Levin.Framework

variable {ρ α β : Type*}

structure Exchange (ρ α : Type*) where
  received : List ρ := []
  /-- The answers in the order they are sent, each with the number of its request. -/
  answers : List (Nat × α) := []

namespace Exchange

inductive Event (ρ α : Type*)
  | receive (request : ρ)
  | answer (f : Nat) (a : α)

/-- The requests that have been answered. -/
def answered (x : Exchange ρ α) : List Nat := x.answers.map Prod.fst

/-- A request comes in, or one that has not been answered is answered. -/
inductive Step : Exchange ρ α → Event ρ α → Exchange ρ α → Prop
  | receive (x : Exchange ρ α) (request : ρ) :
    Step x (.receive request) { x with received := x.received ++ [request] }
  | answer (x : Exchange ρ α) (f : Nat) (a : α) (hf : f < x.received.length) (hnew : f ∉ x.answered) :
    Step x (.answer f a) { x with answers := x.answers ++ [(f, a)] }

def Reachable (x : Exchange ρ α) : Prop := ∃ es, Run Step {} es x

/-- What is sent, of answers that are encoded so. -/
def sent (encode : α → List β) (x : Exchange ρ α) : List β := x.answers.flatMap fun a => encode a.2

variable {x : Exchange ρ α} {f : Nat} {a : α}

theorem Reachable.step {e : Event ρ α} {y : Exchange ρ α} (h : Reachable x) (hs : Step x e y) : Reachable y := by
  obtain ⟨es, h⟩ := h
  exact ⟨es ++ [e], .snoc h hs⟩

/-- Any number of requests come in. -/
theorem Reachable.receive (h : Reachable x) (requests : List ρ) :
    Reachable { x with received := x.received ++ requests } := by
  induction requests using List.reverseRecOn with
  | nil => rwa [List.append_nil]
  | append_singleton requests request ih =>
    rw [← List.append_assoc]
    exact ih.step (.receive _ request)

theorem answered_snoc (x : Exchange ρ α) (f : Nat) (a : α) :
    answered { x with answers := x.answers ++ [(f, a)] } = x.answered ++ [f] := by
  simp [answered]

/-- No request is answered twice, and only requests are answered. -/
theorem Reachable.answered_nodup (h : Reachable x) :
    x.answered.Nodup ∧ ∀ f ∈ x.answered, f < x.received.length := by
  obtain ⟨es, h⟩ := h
  refine h.invariant (I := fun x => x.answered.Nodup ∧ ∀ f ∈ x.answered, f < x.received.length)
    ⟨List.nodup_nil, nofun⟩ ?_
  rintro x e y ⟨hnodup, hlt⟩ hs
  cases hs with
  | receive request =>
    refine ⟨hnodup, fun f hf => ?_⟩
    rw [List.length_append]
    exact Nat.lt_add_right _ (hlt f hf)
  | answer f a hf hnew =>
    rw [answered_snoc]
    refine ⟨List.concat_eq_append ▸ hnodup.concat hnew, fun g hg => ?_⟩
    · rcases List.mem_append.mp hg with hg | hg
      · exact hlt g hg
      · rw [List.mem_singleton.mp hg]
        exact hf

/-- Once every request has been answered, the answers are those of the requests, in some order. -/
theorem Reachable.perm_range (h : Reachable x) (hall : ∀ f < x.received.length, f ∈ x.answered) :
    x.answered.Perm (List.range x.received.length) := by
  obtain ⟨hnodup, hlt⟩ := h.answered_nodup
  refine (List.perm_ext_iff_of_nodup hnodup List.nodup_range).mpr fun f => ?_
  rw [List.mem_range]
  exact ⟨hlt f, hall f⟩

end Exchange

end Levin.Framework
