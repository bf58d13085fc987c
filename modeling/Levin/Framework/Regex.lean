import Levin.Framework.Bytes
import Mathlib.Data.List.Basic

/-!
# Regular expressions over bytes

The expressions of Python's `re` that are sequences of bytes of a class, optional
bytes, and runs of bytes of a class, which may be groups with a name. A matcher
with backtracking goes through the ways to match in an order of preference
(`matchesOf`): an optional byte is rather taken than not, and a run is rather
longer than shorter. `Matches` is what such an expression describes, and
`mem_matchesOf` connects the two.
-/

namespace Levin.Framework

/-- One item of a regular expression. -/
inductive RegexItem
  | one (p : UInt8 → Bool)
  | optional (p : UInt8 → Bool)
  | plus (name : Option Bytes) (p : UInt8 → Bool)

namespace Regex

/-- The text of each group with a name, in order. -/
abbrev Captures := List (Bytes × Bytes)

variable {p : UInt8 → Bool} {b : UInt8} {s rest w m : Bytes} {is : List RegexItem} {caps : Captures}

/-- The ways to split `s` after a run of bytes of a class, the longest first. -/
def runs (p : UInt8 → Bool) : Bytes → List (Bytes × Bytes)
  | [] => []
  | b :: s => if p b then (runs p s).map (fun split => (b :: split.1, split.2)) ++ [([b], s)] else []

/-- The capture of a run. -/
def capture (name : Option Bytes) (w : Bytes) : Captures := (name.map fun n => (n, w)).toList

/-- The ways to match at the beginning of `s`, in order of preference: what is captured, and what is left. -/
def matchesOf : List RegexItem → Bytes → List (Captures × Bytes)
  | [], s => [([], s)]
  | .one p :: is, s => (s.head?.filter p).toList.flatMap fun _ => matchesOf is s.tail
  | .optional p :: is, s => ((s.head?.filter p).toList.flatMap fun _ => matchesOf is s.tail) ++ matchesOf is s
  | .plus name p :: is, s =>
    (runs p s).flatMap fun split => (matchesOf is split.2).map fun m => (capture name split.1 ++ m.1, m.2)

/-- `re.fullmatch`: the captures of the preferred way to match all of `s`. -/
def fullmatch (is : List RegexItem) (s : Bytes) : Option Captures :=
  (matchesOf is s).findSome? fun m => if m.2 = [] then some m.1 else none

/-- `re.sub` from behind the next `skip` bytes. -/
def subFrom (is : List RegexItem) (repl : Captures → Bytes) : Nat → Bytes → Bytes
  | _, [] => []
  | skip + 1, _ :: s => subFrom is repl skip s
  | 0, b :: s =>
    match (matchesOf is (b :: s)).head? with
    | none => b :: subFrom is repl 0 s
    | some (caps, rest) => repl caps ++ subFrom is repl (s.length - rest.length) s

/-- `re.sub`, for an expression that does not match the empty text. -/
def sub (is : List RegexItem) (repl : Captures → Bytes) (s : Bytes) : Bytes := subFrom is repl 0 s

/-- What an expression describes: a text, and what is captured of it. -/
inductive Matches : List RegexItem → Captures → Bytes → Prop
  | nil : Matches [] [] []
  | one {p : UInt8 → Bool} {b : UInt8} {is : List RegexItem} {caps : Captures} {s : Bytes} :
      p b = true → Matches is caps s → Matches (.one p :: is) caps (b :: s)
  | leave {p : UInt8 → Bool} {is : List RegexItem} {caps : Captures} {s : Bytes} :
      Matches is caps s → Matches (.optional p :: is) caps s
  | take {p : UInt8 → Bool} {b : UInt8} {is : List RegexItem} {caps : Captures} {s : Bytes} :
      p b = true → Matches is caps s → Matches (.optional p :: is) caps (b :: s)
  | plus {name : Option Bytes} {p : UInt8 → Bool} {is : List RegexItem} {w : Bytes} {caps : Captures} {s : Bytes} :
      w ≠ [] → (∀ b ∈ w, p b = true) → Matches is caps s →
        Matches (.plus name p :: is) (capture name w ++ caps) (w ++ s)

theorem mem_runs : (w, rest) ∈ runs p s ↔ w ≠ [] ∧ (∀ b ∈ w, p b = true) ∧ s = w ++ rest := by
  induction s generalizing w with
  | nil =>
    refine iff_of_false List.not_mem_nil ?_
    rintro ⟨hne, -, h⟩
    exact hne (List.append_eq_nil_iff.mp h.symm).1
  | cons b s ih =>
    cases w with
    | nil =>
      refine iff_of_false (fun h => ?_) fun h => h.1 rfl
      simp only [runs] at h
      split at h <;> simp at h
    | cons c w =>
      by_cases hb : p b = true
      · rw [runs, if_pos hb, List.mem_append, List.mem_singleton, List.mem_map]
        simp only [Prod.mk.injEq, List.cons.injEq, ne_eq, reduceCtorEq, not_false_eq_true, true_and, List.mem_cons,
          forall_eq_or_imp, List.cons_append]
        constructor
        · rintro (⟨⟨w', rest'⟩, hmem, ⟨rfl, rfl⟩, rfl⟩ | ⟨⟨rfl, rfl⟩, rfl⟩)
          · obtain ⟨-, hw, hs⟩ := ih.mp hmem
            exact ⟨⟨hb, hw⟩, rfl, hs⟩
          · exact ⟨⟨hb, fun c hc => absurd hc List.not_mem_nil⟩, rfl, rfl⟩
        · rintro ⟨⟨-, hw⟩, rfl, hs⟩
          cases w with
          | nil => exact .inr ⟨⟨rfl, rfl⟩, hs.symm⟩
          | cons d w => exact .inl ⟨(d :: w, rest), ih.mpr ⟨List.cons_ne_nil d w, hw, hs⟩, ⟨rfl, rfl⟩, rfl⟩
      · refine iff_of_false ?_ ?_
        · rw [runs, if_neg hb]
          exact List.not_mem_nil
        · rintro ⟨-, hw, h⟩
          obtain ⟨rfl, -⟩ := List.cons.inj h
          exact hb (hw b List.mem_cons_self)

/-- The first byte, if it is of the class. -/
theorem mem_head_filter {f : Bytes → List (Captures × Bytes)} {m : Captures × Bytes} :
    (m ∈ (s.head?.filter p).toList.flatMap fun _ => f s.tail) ↔ ∃ b t, s = b :: t ∧ p b = true ∧ m ∈ f t := by
  cases s with
  | nil => simp
  | cons b s =>
    by_cases hb : p b = true
    · simp [hb]
    · simp [hb]

/-- The matcher finds what the expression describes. -/
theorem mem_matchesOf : (caps, rest) ∈ matchesOf is s ↔ ∃ m, s = m ++ rest ∧ Matches is caps m := by
  induction is generalizing s caps with
  | nil =>
    simp only [matchesOf, List.mem_singleton, Prod.mk.injEq]
    constructor
    · rintro ⟨rfl, rfl⟩
      exact ⟨[], rfl, .nil⟩
    · rintro ⟨m, rfl, h⟩
      cases h
      exact ⟨rfl, rfl⟩
  | cons i is ih =>
    cases i with
    | one p =>
      rw [matchesOf, mem_head_filter]
      constructor
      · rintro ⟨b, t, rfl, hb, h⟩
        obtain ⟨m, rfl, hm⟩ := ih.mp h
        exact ⟨b :: m, rfl, .one hb hm⟩
      · rintro ⟨m, rfl, h⟩
        cases h with
        | one hb hm => exact ⟨_, _, rfl, hb, ih.mpr ⟨_, rfl, hm⟩⟩
    | optional p =>
      rw [matchesOf, List.mem_append, mem_head_filter]
      constructor
      · rintro (⟨b, t, rfl, hb, h⟩ | h)
        · obtain ⟨m, rfl, hm⟩ := ih.mp h
          exact ⟨b :: m, rfl, .take hb hm⟩
        · obtain ⟨m, rfl, hm⟩ := ih.mp h
          exact ⟨m, rfl, .leave hm⟩
      · rintro ⟨m, rfl, h⟩
        cases h with
        | leave hm => exact .inr (ih.mpr ⟨_, rfl, hm⟩)
        | take hb hm => exact .inl ⟨_, _, rfl, hb, ih.mpr ⟨_, rfl, hm⟩⟩
    | plus name p =>
      simp only [matchesOf, List.mem_flatMap, List.mem_map, Prod.exists, Prod.mk.injEq]
      constructor
      · rintro ⟨w, r, hw, caps', rest', h, rfl, rfl⟩
        obtain ⟨hne, hall, rfl⟩ := mem_runs.mp hw
        obtain ⟨m, rfl, hm⟩ := ih.mp h
        exact ⟨w ++ m, (List.append_assoc _ _ _).symm, .plus hne hall hm⟩
      · rintro ⟨m, rfl, h⟩
        cases h with
        | plus hne hall hm =>
          exact ⟨_, _, mem_runs.mpr ⟨hne, hall, List.append_assoc _ _ _⟩, _, _, ih.mpr ⟨_, rfl, hm⟩, rfl, rfl⟩

/-- One expression after another. -/
theorem matches_append {js : List RegexItem} : Matches (is ++ js) caps s ↔
    ∃ caps₁ caps₂ s₁ s₂, caps = caps₁ ++ caps₂ ∧ s = s₁ ++ s₂ ∧ Matches is caps₁ s₁ ∧ Matches js caps₂ s₂ := by
  constructor
  · intro h
    induction is generalizing caps s with
    | nil => exact ⟨[], caps, [], s, rfl, rfl, .nil, h⟩
    | cons i is ih =>
      cases h with
      | one hb h =>
        obtain ⟨caps₁, caps₂, s₁, s₂, rfl, rfl, h₁, h₂⟩ := ih h
        exact ⟨caps₁, caps₂, _ :: s₁, s₂, rfl, rfl, .one hb h₁, h₂⟩
      | leave h =>
        obtain ⟨caps₁, caps₂, s₁, s₂, rfl, rfl, h₁, h₂⟩ := ih h
        exact ⟨caps₁, caps₂, s₁, s₂, rfl, rfl, .leave h₁, h₂⟩
      | take hb h =>
        obtain ⟨caps₁, caps₂, s₁, s₂, rfl, rfl, h₁, h₂⟩ := ih h
        exact ⟨caps₁, caps₂, _ :: s₁, s₂, rfl, rfl, .take hb h₁, h₂⟩
      | plus hne hw h =>
        obtain ⟨caps₁, caps₂, s₁, s₂, rfl, rfl, h₁, h₂⟩ := ih h
        exact ⟨_, caps₂, _, s₂, (List.append_assoc _ _ _).symm, (List.append_assoc _ _ _).symm, .plus hne hw h₁, h₂⟩
  · rintro ⟨caps₁, caps₂, s₁, s₂, rfl, rfl, h₁, h₂⟩
    induction h₁ with
    | nil => exact h₂
    | one hb _ ih => exact .one hb ih
    | leave _ ih => exact .leave ih
    | take hb _ ih => exact .take hb ih
    | plus hne hw _ ih =>
      rw [List.append_assoc, List.append_assoc]
      exact .plus hne hw ih

/-- An optional byte at the end. -/
theorem matches_optional : Matches (is ++ [.optional p]) caps s ↔
    Matches is caps s ∨ ∃ t b, s = t ++ [b] ∧ p b = true ∧ Matches is caps t := by
  rw [matches_append]
  constructor
  · rintro ⟨caps₁, caps₂, s₁, s₂, rfl, rfl, h₁, h₂⟩
    cases h₂ with
    | leave h =>
      cases h
      rw [List.append_nil, List.append_nil]
      exact .inl h₁
    | take hb h =>
      cases h
      rw [List.append_nil]
      exact .inr ⟨s₁, _, rfl, hb, h₁⟩
  · rintro (h | ⟨t, b, rfl, hb, h⟩)
    · exact ⟨caps, [], s, [], (List.append_nil _).symm, (List.append_nil _).symm, h, .leave .nil⟩
    · exact ⟨caps, [], t, [b], (List.append_nil _).symm, rfl, h, .take hb .nil⟩

/-- What `fullmatch` finds is described. -/
theorem matches_of_fullmatch (h : fullmatch is s = some caps) : Matches is caps s := by
  obtain ⟨⟨caps', rest⟩, hmem, hrest⟩ := List.exists_of_findSome?_eq_some h
  split at hrest
  · rename_i hnil
    obtain ⟨m, rfl, hm⟩ := mem_matchesOf.mp hmem
    obtain rfl : rest = [] := hnil
    obtain rfl := Option.some.inj hrest
    rwa [List.append_nil]
  · cases hrest

/-- What is described, `fullmatch` finds, if not with the same captures. -/
theorem fullmatch_of_matches (h : Matches is caps s) : ∃ caps', fullmatch is s = some caps' := by
  rw [← Option.isSome_iff_exists, fullmatch, List.findSome?_isSome_iff]
  exact ⟨(caps, []), mem_matchesOf.mpr ⟨s, (List.append_nil s).symm, h⟩, by simp⟩

/-! ## The preferred way -/

theorem matchesOf_literal (m : Bytes) (is : List RegexItem) (s : Bytes) :
    matchesOf (m.map (fun b => .one (· == b)) ++ is) (m ++ s) = matchesOf is s := by
  induction m with
  | nil => rfl
  | cons b m ih => simp [matchesOf, Option.filter, ih]

/-- Of a run, what matches with the longer runs comes first. -/
theorem head?_runs_cons {α : Type} (f : Bytes → List α) (hb : p b = true) (s : Bytes) :
    ((runs p (b :: s)).flatMap fun split => f split.2).head? =
      (((runs p s).flatMap fun split => f split.2).head?).or (f s).head? := by
  rw [runs, if_pos hb, List.flatMap_append, List.flatMap_map, List.head?_append]
  simp

/-- A run up to the last `c` that it can reach. -/
theorem head?_matchesOf_plus {c : UInt8} (hc : p c = true) (hne : w ≠ []) (hw : ∀ b ∈ w, p b = true)
    (hrest : c ∉ rest.takeWhile p) :
    (matchesOf [.plus none p, .one (· == c)] (w ++ c :: rest)).head? = some ([], rest) := by
  let after (s : Bytes) : List (Captures × Bytes) := matchesOf [.one (· == c)] s
  have hplus : ∀ s, matchesOf [.plus none p, .one (· == c)] s = (runs p s).flatMap fun split => after split.2 := by
    intro s
    simp [matchesOf, capture, after]
  have hafter : after (c :: rest) = [([], rest)] := by simp [after, matchesOf, Option.filter]
  -- Behind this `c` there is no other one in reach.
  have hbehind : ((runs p rest).flatMap fun split => after split.2).head? = none := by
    rw [List.head?_eq_none_iff, List.flatMap_eq_nil_iff]
    rintro ⟨w', rest'⟩ hsplit
    obtain ⟨-, hw', rfl⟩ := mem_runs.mp hsplit
    rw [List.takeWhile_append_of_pos hw', List.mem_append, not_or] at hrest
    cases rest' with
    | nil => rfl
    | cons b rest' =>
      have hb : b ≠ c := by
        rintro rfl
        exact hrest.2 (by simp [hc])
      simp [after, matchesOf, hb]
  have hhere : ((runs p (c :: rest)).flatMap fun split => after split.2).head? = none := by
    rw [head?_runs_cons after hc, hbehind, Option.none_or, List.head?_eq_none_iff]
    cases rest with
    | nil => rfl
    | cons b rest =>
      have hb : b ≠ c := by
        rintro rfl
        exact hrest (by simp [hc])
      simp [after, matchesOf, hb]
  rw [hplus]
  induction w with
  | nil => exact absurd rfl hne
  | cons b w ih =>
    obtain ⟨hb, hw⟩ := List.forall_mem_cons.mp hw
    rw [List.cons_append, head?_runs_cons after hb]
    cases w with
    | nil => rw [List.nil_append, hhere, Option.none_or, hafter, List.head?_cons]
    | cons b' w => rw [ih (List.cons_ne_nil _ _) hw, Option.some_or]

/-- A run ends where its class does. -/
theorem runs_of_span (hne : w ≠ []) (hw : ∀ b ∈ w, p b = true) (hs : ∀ b ∈ s.head?, p b = false) :
    (runs p (w ++ s)).head? = some (w, s) := by
  induction w with
  | nil => exact absurd rfl hne
  | cons b w ih =>
    obtain ⟨hb, hw⟩ := List.forall_mem_cons.mp hw
    rw [List.cons_append, runs, if_pos hb, List.head?_append, List.head?_map]
    cases w with
    | nil =>
      have hnil : runs p s = [] := by
        cases s with
        | nil => rfl
        | cons c s => simp [runs, hs c rfl]
      simp [hnil]
    | cons c w =>
      rw [ih (List.cons_ne_nil _ _) hw]
      rfl

/-- What matches with the longest run is preferred. -/
theorem head?_matchesOf_span {name : Option Bytes} {m : Captures × Bytes} (hne : w ≠ []) (hw : ∀ b ∈ w, p b = true)
    (hs : ∀ b ∈ s.head?, p b = false) (h : (matchesOf is s).head? = some m) :
    (matchesOf (.plus name p :: is) (w ++ s)).head? = some (capture name w ++ m.1, m.2) := by
  obtain ⟨others, hruns⟩ := List.head?_eq_some_iff.mp (runs_of_span hne hw hs)
  rw [matchesOf, hruns, List.flatMap_cons, List.head?_append, List.head?_map, h]
  rfl

theorem subFrom_skip (is : List RegexItem) (repl : Captures → Bytes) (m s : Bytes) :
    subFrom is repl m.length (m ++ s) = subFrom is repl 0 s := by
  induction m with
  | nil => rfl
  | cons b m ih => exact ih

/-- A match at the beginning of a text is replaced. -/
theorem sub_of_match {repl : Captures → Bytes} {b : UInt8} (h : (matchesOf is (b :: m ++ rest)).head? = some (caps, rest)) :
    sub is repl (b :: m ++ rest) = repl caps ++ sub is repl rest := by
  have hlen : (m ++ rest).length - rest.length = m.length := by simp
  rw [sub, List.cons_append, subFrom]
  rw [List.cons_append] at h
  simp only [h, hlen, subFrom_skip]
  rfl

/-- A byte where nothing matches stays. -/
theorem sub_cons {repl : Captures → Bytes} {b : UInt8} (h : (matchesOf is (b :: s)).head? = none) :
    sub is repl (b :: s) = b :: sub is repl s := by
  rw [sub, subFrom]
  simp only [h]
  rfl

/-! ## All the ways to match a text -/

/-- The captures of all the ways to match all of `s`, in order of preference. -/
def fullMatches (is : List RegexItem) (s : Bytes) : List Captures :=
  (matchesOf is s).filterMap fun m => if m.2 = [] then some m.1 else none

theorem fullmatch_eq_head (is : List RegexItem) (s : Bytes) : fullmatch is s = (fullMatches is s).head? :=
  List.head?_filterMap.symm

theorem fullMatches_one (p : UInt8 → Bool) (is : List RegexItem) (s : Bytes) :
    fullMatches (.one p :: is) s = (s.head?.filter p).toList.flatMap fun _ => fullMatches is s.tail := by
  rw [fullMatches, matchesOf, List.filterMap_flatMap]
  rfl

theorem fullMatches_optional (p : UInt8 → Bool) (is : List RegexItem) (s : Bytes) : fullMatches (.optional p :: is) s =
    ((s.head?.filter p).toList.flatMap fun _ => fullMatches is s.tail) ++ fullMatches is s := by
  rw [fullMatches, matchesOf, List.filterMap_append, List.filterMap_flatMap]
  rfl

theorem fullMatches_plus (name : Option Bytes) (p : UInt8 → Bool) (is : List RegexItem) (s : Bytes) :
    fullMatches (.plus name p :: is) s =
      (runs p s).flatMap fun split => (fullMatches is split.2).map fun caps => capture name split.1 ++ caps := by
  rw [fullMatches, matchesOf, List.filterMap_flatMap]
  congr 1
  funext split
  rw [fullMatches, List.filterMap_map, List.map_filterMap]
  congr 1
  funext m
  by_cases hm : m.2 = [] <;> simp [hm]

/-- A run ends before a byte that is not of the class. -/
theorem runs_append {c : UInt8} (hc : p c = false) (s : Bytes) :
    runs p (s ++ [c]) = (runs p s).map fun split => (split.1, split.2 ++ [c]) := by
  induction s with
  | nil => simp [runs, hc]
  | cons b s ih =>
    by_cases hb : p b = true
    · simp [runs, hb, ih]
    · simp [runs, hb]

/-- An item that takes at least one byte, and no run of which has a `c`. -/
def Mandatory (c : UInt8) : RegexItem → Prop
  | .one _ => True
  | .optional _ => False
  | .plus _ p => p c = false

theorem fullMatches_nil_of_mandatory {c : UInt8} {i : RegexItem} (h : Mandatory c i) (is : List RegexItem) :
    fullMatches (i :: is) [] = [] := by
  cases i with
  | one p => rw [fullMatches_one]; rfl
  | optional p => exact absurd h id
  | plus name p => rw [fullMatches_plus]; rfl

/-- An optional `c` at the end makes no difference for the ways to match a text without one at its end, and the captures. -/
theorem fullMatches_append {c : UInt8} (hmandatory : ∀ i ∈ is, Mandatory c i)
    (hlast : ∀ p, is.getLast? = some (.one p) → p c = false) (hs : s.getLast? ≠ some c) :
    fullMatches (is ++ [.optional (· == c)]) (s ++ [c]) = fullMatches (is ++ [.optional (· == c)]) s := by
  induction is generalizing s with
  | nil =>
    have hnil : ∀ s : Bytes, fullMatches [] s = if s = [] then [[]] else [] := by
      intro s
      by_cases h : s = [] <;> simp [fullMatches, matchesOf, h]
    rw [List.nil_append, fullMatches_optional, fullMatches_optional]
    simp only [hnil]
    cases s with
    | nil => simp [Option.filter]
    | cons b t =>
      by_cases hb : b = c
      · subst hb
        have ht : t ≠ [] := by
          rintro rfl
          exact hs rfl
        simp [ht]
      · simp [Option.filter, hb]
  | cons i is ih =>
    have hlast' : ∀ p, is.getLast? = some (.one p) → p c = false := by
      intro p hp
      refine hlast p ?_
      rw [List.getLast?_cons, hp]
      rfl
    have ih : ∀ {s : Bytes}, s.getLast? ≠ some c → fullMatches (is ++ [.optional (· == c)]) (s ++ [c]) =
        fullMatches (is ++ [.optional (· == c)]) s :=
      fun hs => ih (fun j hj => hmandatory j (List.mem_cons_of_mem _ hj)) hlast' hs
    have hi := hmandatory i List.mem_cons_self
    cases i with
    | optional p => exact absurd hi id
    | one p =>
      rw [List.cons_append, fullMatches_one, fullMatches_one]
      cases s with
      | cons b t =>
        have ht : t.getLast? ≠ some c := by
          intro ht
          rw [List.getLast?_cons, ht] at hs
          exact hs rfl
        simp only [List.cons_append, List.head?_cons, List.tail_cons, ih ht]
      | nil =>
        -- Here `c` is all there is: the last item does not take it, and after another one nothing is left.
        cases is with
        | nil =>
          have hp := hlast p rfl
          simp [hp]
        | cons j is =>
          have hnil := fullMatches_nil_of_mandatory (hmandatory j (by simp)) (is ++ [.optional (· == c)])
          simp [hnil]
    | plus name p =>
      rw [List.cons_append, fullMatches_plus, fullMatches_plus, runs_append hi, List.flatMap_map]
      refine List.flatMap_congr fun split hsplit => ?_
      obtain ⟨-, -, heq⟩ := mem_runs.mp (show (split.1, split.2) ∈ runs p s from hsplit)
      have hrest : split.2.getLast? ≠ some c := by
        intro hrest
        rw [heq, List.getLast?_append, hrest] at hs
        exact hs rfl
      rw [ih hrest]

end Regex

end Levin.Framework
