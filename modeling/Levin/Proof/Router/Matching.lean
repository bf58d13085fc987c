import Levin.Components.Router
import Mathlib.Data.List.TakeWhile

/-!
# From a pattern to what its expression matches

A pattern is literal bytes and placeholders (`tokens`). The text that the router
substitutes for it, and that `re.compile` reads, has an item for each of these and
an optional slash at the end (`compile_pattern`).
-/

namespace Levin

open Framework Bytes Regex

/-- A piece of a pattern. -/
inductive Token
  | byte (b : UInt8)
  | arg (name : Bytes)
  deriving DecidableEq

/-- Words that a placeholder may stand for, and that it may be called. -/
def IsWord (w : Bytes) : Prop := w ≠ [] ∧ ∀ b ∈ w, isWord b = true

instance (w : Bytes) : Decidable (IsWord w) := inferInstanceAs (Decidable (_ ∧ _))

/-- A placeholder at the beginning of a text: its name. -/
def argAt (s : Bytes) : Option Bytes :=
  let name := s.tail.takeWhile isWord
  if s.head? = some 123 ∧ name ≠ [] ∧ (s.tail.dropWhile isWord).head? = some 125 then some name else none

/-- The pieces of a pattern from behind the next `skip` bytes. -/
def tokensFrom : Nat → Bytes → List Token
  | _, [] => []
  | skip + 1, _ :: s => tokensFrom skip s
  | 0, b :: s =>
    match argAt (b :: s) with
    | some name => .arg name :: tokensFrom (name.length + 1) s
    | none => .byte b :: tokensFrom 0 s

/-- The pieces of a pattern. -/
def tokens (pattern : Bytes) : List Token := tokensFrom 0 pattern

/-- The pattern of pieces. -/
def render (ts : List Token) : Bytes :=
  ts.flatMap fun t =>
    match t with
    | .byte b => [b]
    | .arg name => 123 :: name ++ [125]

/-- The text of the expression of pieces. -/
def regexText (ts : List Token) : Bytes :=
  ts.flatMap fun t =>
    match t with
    | .byte b => [b]
    | .arg name => ascii "(?P<" ++ name ++ ascii ">[-_a-zA-Z0-9]+)"

/-- The names of the placeholders. -/
def argNames (ts : List Token) : List Bytes :=
  ts.filterMap fun t =>
    match t with
    | .byte _ => none
    | .arg name => some name

/-- The literal bytes. -/
def literals (ts : List Token) : Bytes :=
  ts.filterMap fun t =>
    match t with
    | .byte b => some b
    | .arg _ => none

/-! ## Placeholders -/

/-- A run of bytes of a class, up to a byte that is not of it. -/
theorem span_word {w s : Bytes} {p : UInt8 → Bool} (hw : ∀ b ∈ w, p b = true) (hs : ∀ b, s.head? = some b → p b = false) :
    (w ++ s).takeWhile p = w ∧ (w ++ s).dropWhile p = s := by
  rw [List.takeWhile_append_of_pos hw, List.dropWhile_append_of_pos hw]
  cases s with
  | nil => simp
  | cons b s => simp [hs b rfl]

/-- Where a placeholder is. -/
theorem argAt_eq_some {s name : Bytes} :
    argAt s = some name ↔ IsWord name ∧ ∃ rest, s = 123 :: name ++ 125 :: rest := by
  constructor
  · intro h
    simp only [argAt] at h
    split at h
    · rename_i hs
      obtain ⟨h₁, h₂, h₃⟩ := hs
      obtain rfl := Option.some.inj h
      obtain ⟨t, rfl⟩ : ∃ t, s = 123 :: t := by
        cases s with
        | nil => simp at h₁
        | cons b t => exact ⟨t, by simpa using h₁⟩
      refine ⟨⟨h₂, fun b hb => List.mem_takeWhile_imp hb⟩, ?_⟩
      rw [List.tail_cons] at h₃ ⊢
      cases hd : t.dropWhile isWord with
      | nil => simp [hd] at h₃
      | cons c rest =>
        rw [hd, List.head?_cons, Option.some.injEq] at h₃
        refine ⟨rest, ?_⟩
        rw [List.cons_append, ← h₃, ← hd, List.takeWhile_append_dropWhile]
    · cases h
  · rintro ⟨⟨hne, hw⟩, rest, rfl⟩
    have hbrace : ∀ b, (125 :: rest).head? = some b → isWord b = false := by
      intro b hb
      obtain rfl := Option.some.inj hb
      rfl
    obtain ⟨htake, hdrop⟩ := span_word hw hbrace
    simp [argAt, htake, hdrop, hne]

theorem argAt_cons {b : UInt8} {s name : Bytes} (h : argAt (b :: s) = some name) :
    b = 123 ∧ IsWord name ∧ ∃ rest, s = name ++ 125 :: rest := by
  obtain ⟨hname, rest, heq⟩ := argAt_eq_some.mp h
  obtain ⟨hb, hs⟩ := List.cons.inj heq
  exact ⟨hb, hname, rest, hs⟩

/-- What the expression of placeholders describes. -/
theorem matches_PATH_ARG {caps : Captures} {m : Bytes} :
    Matches PATH_ARG caps m ↔ ∃ w, IsWord w ∧ m = 123 :: w ++ [125] ∧ caps = [(ascii "name", w)] := by
  constructor
  · intro (h : Matches [.one (· == 123), .plus (some (ascii "name")) isWord, .one (· == 125)] caps m)
    cases h with
    | one hopen h =>
      cases h with
      | plus hne hw h =>
        cases h with
        | one hclose h =>
          cases h
          obtain rfl := beq_iff_eq.mp hopen
          obtain rfl := beq_iff_eq.mp hclose
          exact ⟨_, ⟨hne, hw⟩, rfl, rfl⟩
  · rintro ⟨w, ⟨hne, hw⟩, rfl, rfl⟩
    exact .one rfl (.plus hne hw (.one rfl .nil))

/-- The matcher finds a placeholder where there is one. -/
theorem matchesOf_PATH_ARG (s : Bytes) :
    (matchesOf PATH_ARG s).head? = (argAt s).map fun w => ([(ascii "name", w)], s.drop (w.length + 2)) := by
  cases ha : argAt s with
  | none =>
    refine List.head?_eq_none_iff.mpr (List.eq_nil_iff_forall_not_mem.mpr ?_)
    rintro ⟨caps, rest⟩ hmem
    obtain ⟨m, rfl, hm⟩ := mem_matchesOf.mp hmem
    obtain ⟨w, hw, rfl, -⟩ := matches_PATH_ARG.mp hm
    have hsome : argAt (123 :: w ++ [125] ++ rest) = some w := argAt_eq_some.mpr ⟨hw, rest, by simp⟩
    rw [ha] at hsome
    cases hsome
  | some w =>
    obtain ⟨hw, rest, rfl⟩ := argAt_eq_some.mp ha
    have hmem : ([(ascii "name", w)], rest) ∈ matchesOf PATH_ARG (123 :: w ++ 125 :: rest) :=
      mem_matchesOf.mpr ⟨123 :: w ++ [125], by simp, matches_PATH_ARG.mpr ⟨w, hw, rfl, rfl⟩⟩
    cases hl : matchesOf PATH_ARG (123 :: w ++ 125 :: rest) with
    | nil => rw [hl] at hmem; exact absurd hmem List.not_mem_nil
    | cons first others =>
      -- The first way to match is the only one.
      obtain ⟨caps, rest'⟩ := first
      have hfirst : (caps, rest') ∈ matchesOf PATH_ARG (123 :: w ++ 125 :: rest) := hl ▸ List.mem_cons_self
      obtain ⟨m, heq, hm⟩ := mem_matchesOf.mp hfirst
      obtain ⟨w', hw', rfl, rfl⟩ := matches_PATH_ARG.mp hm
      have hsome : argAt (123 :: w ++ 125 :: rest) = some w' := argAt_eq_some.mpr ⟨hw', rest', by simpa using heq⟩
      obtain rfl := Option.some.inj (ha.symm.trans hsome)
      obtain rfl : rest = rest' := by simpa using heq
      simp [List.drop_append]

/-! ## Pieces -/

theorem tokensFrom_zero (b : UInt8) (s : Bytes) : tokensFrom 0 (b :: s) =
    ((argAt (b :: s)).map fun name => .arg name :: tokensFrom (name.length + 1) s).getD (.byte b :: tokensFrom 0 s) := by
  rw [tokensFrom]
  cases argAt (b :: s) <;> rfl

/-- What the router substitutes for a pattern has an item for each piece. -/
theorem subFrom_eq (skip : Nat) (s : Bytes) : subFrom PATH_ARG PATH_REPL skip s = regexText (tokensFrom skip s) := by
  induction s generalizing skip with
  | nil => cases skip <;> rfl
  | cons b s ih =>
    cases skip with
    | succ skip => exact ih skip
    | zero =>
      rw [subFrom, tokensFrom_zero, matchesOf_PATH_ARG]
      cases ha : argAt (b :: s) with
      | none =>
        show b :: subFrom PATH_ARG PATH_REPL 0 s = b :: regexText (tokensFrom 0 s)
        rw [ih]
      | some name =>
        obtain ⟨-, -, rest, rfl⟩ := argAt_cons ha
        show PATH_REPL [(ascii "name", name)] ++ subFrom PATH_ARG PATH_REPL _ _ = _
        rw [ih]
        have hskip : (name ++ 125 :: rest).length - ((b :: (name ++ 125 :: rest)).drop (name.length + 2)).length =
            name.length + 1 := by
          simp
          omega
        rw [hskip]
        rfl

theorem sub_eq (pattern : Bytes) : Regex.sub PATH_ARG PATH_REPL pattern = regexText (tokens pattern) :=
  subFrom_eq 0 pattern

/-- A byte that ends no placeholder is one more piece. -/
theorem tokensFrom_append {c : UInt8} (hc : c ≠ 125) (skip : Nat) (s : Bytes) (hskip : skip ≤ s.length) :
    tokensFrom skip (s ++ [c]) = tokensFrom skip s ++ [.byte c] := by
  have hlast : ∀ {s name : Bytes}, argAt (s ++ [c]) = some name ↔ argAt s = some name := by
    intro s name
    rw [argAt_eq_some, argAt_eq_some]
    refine and_congr_right fun _ => ⟨fun ⟨rest, h⟩ => ?_, fun ⟨rest, h⟩ => ⟨rest ++ [c], by simp [h]⟩⟩
    rcases List.eq_nil_or_concat rest with rfl | ⟨rest, d, rfl⟩
    · exact absurd (List.singleton_inj.mp (List.append_inj' h rfl).2) hc
    · have h : s ++ [c] = (123 :: name ++ 125 :: rest) ++ [d] := by simpa using h
      exact ⟨rest, (List.append_inj' h rfl).1⟩
  induction s generalizing skip with
  | nil =>
    obtain rfl := Nat.le_zero.mp hskip
    have hnone : argAt [c] = none := by
      cases ha : argAt [c] with
      | none => rfl
      | some name =>
        have hnil := hlast.mp (show argAt ([] ++ [c]) = some name from ha)
        cases hnil
    rw [List.nil_append, tokensFrom_zero, hnone]
    rfl
  | cons b s ih =>
    cases skip with
    | succ skip => exact ih skip (Nat.le_of_succ_le_succ hskip)
    | zero =>
      have heq : argAt (b :: (s ++ [c])) = argAt (b :: s) := by
        cases ha : argAt (b :: s) with
        | some name => exact hlast.mpr ha
        | none =>
          cases ha' : argAt (b :: (s ++ [c])) with
          | none => rfl
          | some name => rw [hlast.mp (show argAt ((b :: s) ++ [c]) = some name from ha')] at ha; cases ha
      rw [List.cons_append, tokensFrom_zero, tokensFrom_zero, heq]
      cases ha : argAt (b :: s) with
      | none =>
        show Token.byte b :: tokensFrom 0 (s ++ [c]) = Token.byte b :: (tokensFrom 0 s ++ [.byte c])
        rw [ih 0 (Nat.zero_le _)]
      | some name =>
        have hle : name.length + 1 ≤ s.length := by
          obtain ⟨-, -, rest, rfl⟩ := argAt_cons ha
          simp
        show Token.arg name :: tokensFrom (name.length + 1) (s ++ [c]) = Token.arg name :: (_ ++ [.byte c])
        rw [ih _ hle]

theorem tokens_append {c : UInt8} (hc : c ≠ 125) (s : Bytes) : tokens (s ++ [c]) = tokens s ++ [.byte c] :=
  tokensFrom_append hc 0 s (Nat.zero_le _)

/-- The pieces make up the pattern. -/
theorem render_tokensFrom (skip : Nat) (s : Bytes) : render (tokensFrom skip s) = s.drop skip := by
  induction s generalizing skip with
  | nil => cases skip <;> rfl
  | cons b s ih =>
    cases skip with
    | succ skip => exact ih skip
    | zero =>
      rw [tokensFrom_zero]
      cases ha : argAt (b :: s) with
      | none =>
        show b :: render (tokensFrom 0 s) = _
        rw [ih]
        rfl
      | some name =>
        obtain ⟨rfl, -, rest, rfl⟩ := argAt_cons ha
        show 123 :: name ++ [125] ++ render (tokensFrom (name.length + 1) (name ++ 125 :: rest)) = _
        rw [ih]
        simp

theorem render_tokens (s : Bytes) : render (tokens s) = s := render_tokensFrom 0 s

/-- Placeholders are called by words. -/
theorem isWord_of_arg_mem {skip : Nat} {s name : Bytes} (h : Token.arg name ∈ tokensFrom skip s) : IsWord name := by
  induction s generalizing skip with
  | nil => cases skip <;> exact absurd h List.not_mem_nil
  | cons b s ih =>
    cases skip with
    | succ skip => exact ih h
    | zero =>
      rw [tokensFrom_zero] at h
      cases ha : argAt (b :: s) with
      | none =>
        rw [ha] at h
        exact ih ((List.mem_cons.mp h).resolve_left (by simp))
      | some name' =>
        rw [ha] at h
        rcases List.mem_cons.mp h with heq | h
        · obtain rfl := Token.arg.inj heq
          exact (argAt_cons ha).2.1
        · exact ih h

/-! ## Slashes at the end -/

/-- A path without one slash at its end. -/
def bare (path : Bytes) : Bytes := if path.getLast? = some 47 then path.dropLast else path

@[simp] theorem bare_append_slash (path : Bytes) : bare (path ++ [47]) = path := by simp [bare]

theorem bare_of_getLast {path : Bytes} (h : path.getLast? ≠ some 47) : bare path = path := if_neg h

theorem eq_bare_append_slash {path : Bytes} (h : path.getLast? = some 47) : path = bare path ++ [47] := by
  rcases List.eq_nil_or_concat path with rfl | ⟨front, b, rfl⟩
  · cases h
  · rw [List.concat_eq_append] at h ⊢
    rw [List.getLast?_concat] at h
    rw [Option.some.inj h, bare_append_slash]

theorem slashAppend_eq (path : Bytes) : slashAppend path = bare path ++ [47, 63] := by
  unfold slashAppend
  split
  · rename_i h
    have heq := eq_bare_append_slash h
    rw [heq, bare_append_slash, List.append_assoc]
    rfl
  · rename_i h
    rw [bare_of_getLast h, List.append_assoc]
    rfl

theorem slashAppend_inj {path path' : Bytes} : slashAppend path = slashAppend path' ↔ bare path = bare path' := by
  rw [slashAppend_eq, slashAppend_eq, List.append_cancel_right_eq]

/-! ## Expressions -/

/-- What `re.compile` makes of a piece. -/
def Token.item : Token → RegexItem
  | .byte b => if b = 46 then .one (· != LF) else .one (· == b)
  | .arg name => .plus (some name) isWord

/-- No literal byte has a meaning of its own, the dot apart, and no literal brace makes a repetition. -/
def Readable (ts : List Token) : Prop :=
  ∀ before b after, ts = before ++ .byte b :: after →
    (isSpecial b = true → b = 46) ∧ (b = 123 → isRepetition (render after) = false)

/-- What every literal byte meets, with the pieces after it. -/
theorem forall_literal_cons {P : UInt8 → List Token → Prop} {t : Token} {ts : List Token} :
    (∀ before b after, t :: ts = before ++ .byte b :: after → P b after) ↔
      (∀ b, t = .byte b → P b ts) ∧ ∀ before b after, ts = before ++ .byte b :: after → P b after := by
  constructor
  · intro h
    exact ⟨fun b hb => h [] b ts (by rw [hb]; rfl),
      fun before b after heq => h (t :: before) b after (by rw [heq, List.cons_append])⟩
  · rintro ⟨hhead, htail⟩ before b after heq
    cases before with
    | nil =>
      obtain ⟨rfl, rfl⟩ := List.cons.inj heq
      exact hhead b rfl
    | cons t' before =>
      obtain ⟨-, rfl⟩ := List.cons.inj heq
      exact htail before b after rfl

instance decidableLiteral (P : UInt8 → List Token → Prop) [∀ b ts, Decidable (P b ts)] :
    (ts : List Token) → Decidable (∀ before b after, ts = before ++ .byte b :: after → P b after)
  | [] => isTrue fun before b after h => by simp at h
  | .byte b :: ts =>
    have := decidableLiteral P ts
    decidable_of_iff (P b ts ∧ ∀ before b after, ts = before ++ .byte b :: after → P b after)
      (by rw [forall_literal_cons]; simp)
  | .arg name :: ts =>
    have := decidableLiteral P ts
    decidable_of_iff (∀ before b after, ts = before ++ .byte b :: after → P b after)
      (by rw [forall_literal_cons]; simp)

instance (ts : List Token) : Decidable (Readable ts) := decidableLiteral _ ts

theorem Readable.tail {t : Token} {ts : List Token} (h : Readable (t :: ts)) : Readable ts := (forall_literal_cons.mp h).2

theorem parseFrom_skip (s t : Bytes) : parseFrom s.length (s ++ t) = parseFrom 0 t := by
  induction s with
  | nil => rfl
  | cons b s ih => exact ih

theorem eq_cons_of_head? {s : Bytes} {b : UInt8} (h : s.head? = some b) : ∃ t, s = b :: t := by
  cases s with
  | nil => cases h
  | cons c t => exact ⟨t, by rw [Option.some.inj h]⟩

/-- Where a repetition is, it is one whatever follows. -/
theorem exists_of_isRepetition {s : Bytes} (h : isRepetition s = true) :
    ∃ q r, s = q ++ 125 :: r ∧ (∀ b ∈ q, isDigit b = true ∨ b = 44) ∧ ∀ r', isRepetition (q ++ 125 :: r') = true := by
  have hds : ∀ b ∈ s.takeWhile isDigit, isDigit b = true := fun b hb => List.mem_takeWhile_imp hb
  have hs : s.takeWhile isDigit ++ s.dropWhile isDigit = s := List.takeWhile_append_dropWhile
  have hspan : ∀ {ds u : Bytes} {b : UInt8}, (∀ b ∈ ds, isDigit b = true) → isDigit b = false →
      (ds ++ b :: u).dropWhile isDigit = b :: u := by
    intro ds u b hds hb
    refine (span_word hds fun c hc => ?_).2
    rw [List.head?_cons, Option.some.injEq] at hc
    exact hc ▸ hb
  rw [isRepetition] at h
  split at h
  · rename_i hcomma
    obtain ⟨u, hu⟩ := eq_cons_of_head? hcomma
    rw [hu, List.tail_cons] at h
    obtain ⟨r, hr⟩ := eq_cons_of_head? (of_decide_eq_true h)
    have hds' : ∀ b ∈ u.takeWhile isDigit, isDigit b = true := fun b hb => List.mem_takeWhile_imp hb
    have hu' : u.takeWhile isDigit ++ 125 :: r = u := by rw [← hr, List.takeWhile_append_dropWhile]
    refine ⟨s.takeWhile isDigit ++ 44 :: u.takeWhile isDigit, r, ?_, fun b hb => ?_, fun r' => ?_⟩
    · rw [List.append_assoc, List.cons_append, hu', ← hu, hs]
    · rcases List.mem_append.mp hb with hb | hb
      · exact .inl (hds b hb)
      · exact (List.mem_cons.mp hb).elim .inr fun hb => .inl (hds' b hb)
    · rw [isRepetition, List.append_assoc, List.cons_append, hspan hds rfl, List.head?_cons, if_pos rfl, List.tail_cons, hspan hds' rfl]
      rfl
  · rename_i hcomma
    rw [Bool.and_eq_true, decide_eq_true_eq] at h
    obtain ⟨r, hr⟩ := eq_cons_of_head? h.1
    refine ⟨s.takeWhile isDigit, r, by rw [← hr, hs], fun b hb => .inl (hds b hb), fun r' => ?_⟩
    rw [isRepetition, hspan hds rfl, if_neg (by simp)]
    have hhead : s.head? = (s.takeWhile isDigit ++ 125 :: r').head? := by
      cases hd : s.takeWhile isDigit with
      | nil =>
        -- Then the brace comes first, and there is no repetition.
        rw [hd, hr, List.nil_append] at hs
        rw [← hs] at h
        simp at h
      | cons d ds =>
        rw [← hs, hd]
        rfl
    rw [← hhead, h.2]
    rfl

/-- The bytes at the beginning of an expression, up to a group or the end, are literal. -/
theorem literal_of_regexText {q r : Bytes} {ts : List Token} (hq : ∀ b ∈ q, b ≠ 40 ∧ b ≠ 47)
    (h : regexText ts ++ [47, 63] = q ++ r) : ∃ ts', ts = q.map .byte ++ ts' := by
  induction q generalizing ts with
  | nil => exact ⟨ts, rfl⟩
  | cons b q ih =>
    obtain ⟨hb, hrest⟩ := List.forall_mem_cons.mp hq
    cases ts with
    | nil => exact absurd (List.cons.inj h).1.symm hb.2
    | cons t ts =>
      cases t with
      | byte c =>
        obtain ⟨rfl, hcons⟩ := List.cons.inj h
        obtain ⟨ts', rfl⟩ := ih hrest hcons
        exact ⟨ts', rfl⟩
      | arg name => exact absurd (List.cons.inj h).1.symm hb.1

/-- A literal brace that makes no repetition in the pattern makes none in the expression. -/
theorem isRepetition_regexText {ts : List Token} (h : isRepetition (render ts) = false) :
    isRepetition (regexText ts ++ [47, 63]) = false := by
  by_contra hrep
  obtain ⟨q, r, heq, hq, hall⟩ := exists_of_isRepetition (Bool.not_eq_false _ ▸ hrep)
  have hbytes : ∀ b ∈ q ++ [125], b ≠ 40 ∧ b ≠ 47 := by
    intro b hb
    rcases List.mem_append.mp hb with hb | hb
    · refine ⟨?_, ?_⟩ <;> rintro rfl <;> exact absurd (hq _ hb) (by decide)
    · rw [List.mem_singleton.mp hb]
      decide
  obtain ⟨ts', rfl⟩ := literal_of_regexText (r := r) hbytes (by rw [heq, List.append_assoc]; rfl)
  have hrender : render ((q ++ [125]).map .byte ++ ts') = q ++ 125 :: render ts' := by
    have hmap : ∀ q : Bytes, render (q.map .byte ++ ts') = q ++ render ts' := by
      intro q
      induction q with
      | nil => rfl
      | cons b q ih => exact congrArg (b :: ·) ih
    rw [hmap, List.append_assoc]
    rfl
  rw [hrender, hall] at h
  cases h

/-- A group is read as one. -/
theorem groupAt_group {name s : Bytes} (h : IsWord name) :
    groupAt (ascii "(?P<" ++ name ++ ascii ">[-_a-zA-Z0-9]+)" ++ s) = some name := by
  have hs : (ascii "(?P<" ++ name ++ ascii ">[-_a-zA-Z0-9]+)" ++ s).drop 4 = name ++ (ascii ">[-_a-zA-Z0-9]+)" ++ s) := by
    rw [List.append_assoc, List.append_assoc]
    rfl
  obtain ⟨htake, hdrop⟩ := span_word (s := ascii ">[-_a-zA-Z0-9]+)" ++ s) h.2
    fun b hb => Option.some.inj hb ▸ rfl
  rw [groupAt, hs, htake, hdrop, if_pos]
  refine ⟨?_, ?_, h.1⟩
  · rw [List.append_assoc, List.append_assoc]
    rfl
  · exact List.isPrefixOf_iff_prefix.mpr (List.prefix_append _ _)

theorem groupAt_of_ne {b : UInt8} {s : Bytes} (h : b ≠ 40) : groupAt (b :: s) = none := by
  rw [groupAt, if_neg]
  rintro ⟨hpre, -⟩
  obtain ⟨t, ht⟩ := List.isPrefixOf_iff_prefix.mp hpre
  exact h (List.cons.inj ht).1.symm

/-- What is read of the text of pieces, with another text after it. -/
theorem parseFrom_append {ts : List Token} {s : Bytes} {is : List RegexItem} (hs : parseFrom 0 s = some is)
    (hwords : ∀ name, .arg name ∈ ts → IsWord name)
    (hliteral : ∀ before b after, ts = before ++ .byte b :: after → (isSpecial b = true → b = 46) ∧
      (b = 123 → isRepetition (regexText after ++ s) = false) ∧ regexText after ++ s ≠ [63]) :
    parseFrom 0 (regexText ts ++ s) = some (ts.map Token.item ++ is) := by
  induction ts with
  | nil => exact hs
  | cons t ts ih =>
    have ih := ih (fun name hmem => hwords name (List.mem_cons_of_mem _ hmem))
      ((forall_literal_cons (P := fun b after => (isSpecial b = true → b = 46) ∧
        (b = 123 → isRepetition (regexText after ++ s) = false) ∧ regexText after ++ s ≠ [63])).mp hliteral).2
    cases t with
    | byte b =>
      obtain ⟨hspecial, hbrace, hlen⟩ := hliteral [] b ts rfl
      have hne : b ≠ 40 := by
        rintro rfl
        exact absurd (hspecial (by decide)) (by decide)
      show parseFrom 0 (b :: (regexText ts ++ s)) = _
      rw [parseFrom, groupAt_of_ne hne]
      by_cases hdot : b = 46
      · subst hdot
        simp [ih, Token.item]
      · have hplain : isSpecial b = false := Bool.not_eq_true _ ▸ mt hspecial hdot
        have hrep : (decide (b = 123) && isRepetition (regexText ts ++ s)) = false := by
          by_cases hb : b = 123
          · rw [hbrace hb, Bool.and_false]
          · rw [decide_eq_false hb, Bool.false_and]
        simp [hdot, hplain, hrep, hlen, ih, Token.item]
    | arg name =>
      have hname := hwords name List.mem_cons_self
      obtain ⟨u, hu, hlen⟩ : ∃ u, ascii "(?P<" ++ name ++ ascii ">[-_a-zA-Z0-9]+)" = 40 :: u ∧ u.length = name.length + 19 :=
        ⟨ascii "?P<" ++ name ++ ascii ">[-_a-zA-Z0-9]+)", rfl, by simp [ascii]⟩
      have hgroup := groupAt_group (s := regexText ts ++ s) hname
      rw [hu] at hgroup
      show parseFrom 0 (ascii "(?P<" ++ name ++ ascii ">[-_a-zA-Z0-9]+)" ++ regexText ts ++ s) = _
      rw [hu, List.append_assoc]
      show parseFrom 0 (40 :: (u ++ (regexText ts ++ s))) = _
      rw [parseFrom, show groupAt (40 :: (u ++ (regexText ts ++ s))) = some name from hgroup]
      simp only [← hlen, parseFrom_skip, ih]
      rfl

/-- What is read in a text that the router has written. -/
theorem parseFrom_regexText {ts : List Token} (hread : Readable ts) (hwords : ∀ name, .arg name ∈ ts → IsWord name) :
    parseFrom 0 (regexText ts ++ [47, 63]) = some (ts.map Token.item ++ [.optional (· == 47)]) := by
  refine parseFrom_append rfl hwords fun before b after heq => ?_
  obtain ⟨hspecial, hbrace⟩ := hread before b after heq
  refine ⟨hspecial, fun hb => isRepetition_regexText (hbrace hb), fun h => ?_⟩
  have hlength := congrArg List.length h
  simp at hlength

/-- The names of the placeholders are different identifiers. -/
def WellNamed (ts : List Token) : Prop := (argNames ts).Nodup ∧ ∀ name ∈ argNames ts, isIdentifier name = true

instance (ts : List Token) : Decidable (WellNamed ts) := inferInstanceAs (Decidable (_ ∧ _))

theorem mem_argNames {ts : List Token} {name : Bytes} : name ∈ argNames ts ↔ .arg name ∈ ts := by
  rw [argNames, List.mem_filterMap]
  constructor
  · rintro ⟨t, ht, h⟩
    cases t with
    | byte b => cases h
    | arg n =>
      obtain rfl := Option.some.inj h
      exact ht
  · exact fun h => ⟨_, h, rfl⟩

theorem mem_literals {ts : List Token} {b : UInt8} : b ∈ literals ts ↔ .byte b ∈ ts := by
  rw [literals, List.mem_filterMap]
  constructor
  · rintro ⟨t, ht, h⟩
    cases t with
    | arg name => cases h
    | byte c =>
      obtain rfl := Option.some.inj h
      exact ht
  · exact fun h => ⟨_, h, rfl⟩

theorem argNames_append (ts ts' : List Token) : argNames (ts ++ ts') = argNames ts ++ argNames ts' :=
  List.filterMap_append

theorem groupNames_map (ts : List Token) : groupNames (ts.map Token.item) = argNames ts := by
  induction ts with
  | nil => rfl
  | cons t ts ih =>
    cases t with
    | arg name => exact congrArg (name :: ·) ih
    | byte b =>
      have hnone : ∀ is, groupNames ((Token.byte b).item :: is) = groupNames is := by
        intro is
        rw [Token.item]
        split <;> rfl
      rw [List.map_cons, hnone, ih]
      rfl

theorem groupNames_item (ts : List Token) : groupNames (ts.map Token.item ++ [.optional (· == 47)]) = argNames ts := by
  have happend : groupNames (ts.map Token.item ++ [.optional (· == 47)]) = groupNames (ts.map Token.item) ++ [] :=
    List.filterMap_append
  rw [happend, List.append_nil, groupNames_map]

theorem tokens_slashAppend (pattern : Bytes) :
    tokens (slashAppend pattern) = tokens (bare pattern) ++ [.byte 47, .byte 63] := by
  have htwice : bare pattern ++ [47, 63] = (bare pattern ++ [47]) ++ [63] := by rw [List.append_assoc]; rfl
  rw [slashAppend_eq, htwice, tokens_append (by decide), tokens_append (by decide), List.append_assoc]
  rfl

/-- The items of the expression of a pattern. -/
def patternItems (pattern : Bytes) : List RegexItem :=
  (tokens (bare pattern)).map Token.item ++ [.optional (· == 47)]

/-- The expression of a pattern. -/
def patternRe (pattern : Bytes) : CompiledRe where
  pattern := regexText (tokens (bare pattern)) ++ [47, 63]
  fullmatch s := (Regex.fullmatch (patternItems pattern) s).map fun caps => caps.map fun c => (c.1, some c.2)

/-- A pattern whose placeholders have different identifiers for names, and whose literal bytes stand for themselves or
are dots, is compiled to its expression. -/
theorem patternToRegexp_eq (re : Bytes → Except Exc CompiledRe) {pattern : Bytes} (hread : Readable (tokens (bare pattern)))
    (hnames : WellNamed (tokens (bare pattern))) : patternToRegexp re (slashAppend pattern) = .ok (patternRe pattern) := by
  have hsub : Regex.sub PATH_ARG PATH_REPL (slashAppend pattern) = regexText (tokens (bare pattern)) ++ [47, 63] := by
    rw [sub_eq, tokens_slashAppend]
    exact List.flatMap_append
  have hall : (groupNames (patternItems pattern)).all isIdentifier = true := by
    rw [patternItems, groupNames_item, List.all_eq_true]
    exact hnames.2
  have hnodup : (groupNames (patternItems pattern)).Nodup := by
    rw [patternItems, groupNames_item]
    exact hnames.1
  rw [patternToRegexp, hsub, compile, parseFrom_regexText hread fun name h => isWord_of_arg_mem h]
  exact if_pos ⟨hnodup, hall⟩

/-! ## What a pattern describes -/

/-- The path of a pattern whose placeholders have these values. -/
def fill (ts : List Token) (values : Bytes → Bytes) : Bytes :=
  ts.flatMap fun t =>
    match t with
    | .byte b => [b]
    | .arg name => values name

/-- The captures of these values. -/
def captures (ts : List Token) (values : Bytes → Bytes) : Captures := (argNames ts).map fun name => (name, values name)

/-- Every placeholder has a word for a value. -/
def AllWords (ts : List Token) (values : Bytes → Bytes) : Prop := ∀ name ∈ argNames ts, IsWord (values name)

theorem isWord_singleton {c : UInt8} (h : isWord c = true) : IsWord [c] :=
  ⟨List.cons_ne_nil _ _, List.forall_mem_singleton.mpr h⟩

theorem allWords_singleton (ts : List Token) {c : UInt8} (h : isWord c = true) : AllWords ts fun _ => [c] :=
  fun _ _ => isWord_singleton h

theorem fill_congr {ts : List Token} {values values' : Bytes → Bytes} (h : ∀ name ∈ argNames ts, values name = values' name) :
    fill ts values = fill ts values' := by
  induction ts with
  | nil => rfl
  | cons t ts ih =>
    cases t with
    | byte b => exact congrArg (b :: ·) (ih h)
    | arg name =>
      have hname := h name List.mem_cons_self
      have hrest := ih fun n hn => h n (List.mem_cons_of_mem _ hn)
      show values name ++ fill ts values = values' name ++ fill ts values'
      rw [hname, hrest]

/-- The expression of a pattern describes its paths. -/
theorem matches_fill {ts : List Token} {values : Bytes → Bytes} (h : AllWords ts values) :
    Matches (ts.map Token.item) (captures ts values) (fill ts values) := by
  induction ts with
  | nil => exact .nil
  | cons t ts ih =>
    cases t with
    | byte b =>
      have hb : ∃ p, (Token.byte b).item = .one p ∧ p b = true := by
        rw [Token.item]
        split
        · rename_i hdot
          exact ⟨_, rfl, by rw [hdot]; rfl⟩
        · exact ⟨_, rfl, beq_self_eq_true b⟩
      obtain ⟨p, hp, hpb⟩ := hb
      rw [List.map_cons, hp]
      exact .one hpb (ih h)
    | arg name =>
      obtain ⟨hne, hw⟩ := h name List.mem_cons_self
      exact .plus hne hw (ih fun n hn => h n (List.mem_cons_of_mem _ hn))

/-- If no literal byte is a dot, it describes nothing else. -/
theorem fill_of_matches {ts : List Token} (hdots : .byte 46 ∉ ts) (hnodup : (argNames ts).Nodup) {caps : Captures} {m : Bytes}
    (h : Matches (ts.map Token.item) caps m) :
    ∃ values, AllWords ts values ∧ caps = captures ts values ∧ m = fill ts values := by
  induction ts generalizing caps m with
  | nil =>
    cases h
    exact ⟨fun _ => [], fun _ hn => absurd hn List.not_mem_nil, rfl, rfl⟩
  | cons t ts ih =>
    rw [List.mem_cons, not_or] at hdots
    cases t with
    | byte b =>
      have hitem : (Token.byte b).item = .one (· == b) := if_neg fun (hb : b = 46) => hdots.1 (hb ▸ rfl)
      rw [List.map_cons, hitem] at h
      cases h with
      | one hb h =>
        obtain ⟨values, hwords, rfl, rfl⟩ := ih hdots.2 hnodup h
        obtain rfl := beq_iff_eq.mp hb
        exact ⟨values, hwords, rfl, rfl⟩
    | arg name =>
      obtain ⟨hnew, hnodup⟩ := List.nodup_cons.mp (show (name :: argNames ts).Nodup from hnodup)
      cases h with
      | @plus _ _ _ w _ _ hne hw h =>
        obtain ⟨values, hwords, rfl, rfl⟩ := ih hdots.2 hnodup h
        have hsame : ∀ n ∈ argNames ts, Function.update values name w n = values n := by
          intro n hn
          have hne : n ≠ name := fun heq => hnew (heq ▸ hn)
          exact Function.update_of_ne hne w values
        have hself : Function.update values name w name = w := Function.update_self name w values
        refine ⟨Function.update values name w, fun n hn => ?_, ?_, ?_⟩
        · rcases List.mem_cons.mp hn with rfl | hn
          · rw [hself]
            exact ⟨hne, hw⟩
          · rw [hsame n hn]
            exact hwords n hn
        · show (name, w) :: captures ts values =
            (name, Function.update values name w name) :: captures ts (Function.update values name w)
          have hcaptures : captures ts (Function.update values name w) = captures ts values :=
            List.map_congr_left fun n hn => congrArg (fun v => (n, v)) (hsame n hn)
          rw [hself, hcaptures]
        · show w ++ fill ts values = Function.update values name w name ++ fill ts _
          rw [hself, fill_congr hsame]

end Levin
