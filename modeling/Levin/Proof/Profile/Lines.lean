import Levin.Framework.Keyed
import Levin.Proof.Profile.Records

/-!
# The lines of a profile

`get_lines` fills in a dictionary of lines, each under its own key: the recorded calls
are there first, and each line of the source of a target function is found or made
(`functionLines_updated`, `targetLines_updated`). The keys of two target functions have
different depths, and those of two lines of one function different numbers, so that no
line is filled in twice.
-/

namespace Levin.SimpleProfile

open Framework

variable {getsource : GetSource} {p : SimpleProfile} {code : CodeAlias} {depth index : Nat} {texts : List Text}
  {codes : List CodeAlias} {lines : Dict LineKey CallResult} {k : LineKey} {call : CallResult}

/-! ## One line -/

/-- The memory of each line of a file; `none` if it was to be traced, and there is no snapshot. -/
def memory? (p : SimpleProfile) : Option Snapshot := if p.traceMem then p.traceMemSnapshot else some fun _ _ => 0

theorem memoryForCall_eq (p : SimpleProfile) (call : CallResult) :
    p.memoryForCall call =
      match p.memory? with
      | none => .error .AttributeError
      | some memory => .ok (memory call.filename call.lineno) := by
  unfold memoryForCall memory?
  split
  · rfl
  · rfl

/-- The line of a key: the one there is, or a new one. -/
def fill (p : SimpleProfile) (firstlineno : Nat) (k : LineKey) (line : Option CallResult) : CallResult :=
  let line := line.getD { lineno := k.1, filename := k.2.1, start := 0, callerLineno := firstlineno }
  { line with depth := k.2.2, mem := (p.memory?.getD fun _ _ => 0) line.filename line.lineno }

theorem getLine_eq (p : SimpleProfile) (code : CodeAlias) (depth index : Nat) (line : Option CallResult) :
    p.getLine code depth index line =
      if p.memory? = none then .error .AttributeError
      else .ok (p.fill code.firstlineno (index + code.firstlineno, code.filename, depth) line) := by
  simp only [getLine, fill, memoryForCall_eq]
  cases p.memory? with
  | none => rfl
  | some memory => rfl

/-- The line of a key is under that key. -/
theorem lineKey_fill (p : SimpleProfile) (firstlineno : Nat) {line : Option CallResult}
    (h : ∀ call, line = some call → lineKey call = k) : lineKey (p.fill firstlineno k line) = k := by
  cases line with
  | none => rfl
  | some call =>
    obtain rfl := h call rfl
    rfl

theorem fill_fill (p : SimpleProfile) (firstlineno : Nat) (k : LineKey) (line : Option CallResult) :
    p.fill firstlineno k (some (p.fill firstlineno k line)) = p.fill firstlineno k line := rfl

/-! ## The lines of a function -/

/-- The key of a line of a function that is not blank, from an index on. -/
def FunctionLine (code : CodeAlias) (depth index : Nat) (texts : List Text) (k : LineKey) : Prop :=
  ∃ i text, texts[i]? = some text ∧ Text.isBlank text = false ∧ k = (index + i + code.firstlineno, code.filename, depth)

theorem functionLine_nil : ¬ FunctionLine code depth index [] k := by
  rintro ⟨i, text, htext, -⟩
  cases htext

theorem functionLine_cons {text : Text} : FunctionLine code depth index (text :: texts) k ↔
    (Text.isBlank text = false ∧ k = (index + code.firstlineno, code.filename, depth)) ∨
      FunctionLine code depth (index + 1) texts k := by
  constructor
  · rintro ⟨i, text', htext, hblank, rfl⟩
    cases i with
    | zero =>
      cases htext
      exact .inl ⟨hblank, rfl⟩
    | succ i => exact .inr ⟨i, text', htext, hblank, by rw [Nat.add_right_comm index 1 i, Nat.add_assoc index i 1]⟩
  · rintro (⟨hblank, rfl⟩ | ⟨i, text', htext, hblank, rfl⟩)
    · exact ⟨0, text, rfl, hblank, rfl⟩
    · exact ⟨i + 1, text', htext, hblank, by rw [Nat.add_right_comm index 1 i, Nat.add_assoc index i 1]⟩

/-- The lines from the next index on are others. -/
theorem FunctionLine.ne (h : FunctionLine code depth (index + 1) texts k) :
    k ≠ (index + code.firstlineno, code.filename, depth) := by
  obtain ⟨i, text, -, -, rfl⟩ := h
  intro heq
  have hlineno := congrArg Prod.fst heq
  omega

theorem FunctionLine.depth_eq (h : FunctionLine code depth index texts k) : k.2.2 = depth := by
  obtain ⟨i, text, -, -, rfl⟩ := h
  rfl

/-- What is found or made keeps the lines under their keys, also when it raises later. -/
theorem functionLines_keyed (p : SimpleProfile) (code : CodeAlias) (depth index : Nat) (texts : List Text)
    (h : Keyed lineKey lines) : Keyed lineKey (functionLines p code depth index texts lines).2 := by
  induction texts generalizing index lines with
  | nil => exact h
  | cons text texts ih =>
    rw [functionLines, getLine_eq]
    split
    · exact ih (index + 1) h
    · split
      · next heq => exact h
      · next line heq => exact ih (index + 1) (h.set line)

/-- With a memory to read, or no line to read it for, the lines of a function are filled in. -/
theorem functionLines_updated (h : Keyed lineKey lines)
    (hmemory : p.memory? = none → ∀ k, ¬ FunctionLine code depth index texts k) :
    (functionLines p code depth index texts lines).1 = .ok () ∧
      Updated (FunctionLine code depth index texts) (p.fill code.firstlineno) lines
        (functionLines p code depth index texts lines).2 := by
  induction texts generalizing index lines with
  | nil => exact ⟨rfl, Updated.refl fun k => functionLine_nil⟩
  | cons text texts ih =>
    have hrest : p.memory? = none → ∀ k, ¬ FunctionLine code depth (index + 1) texts k :=
      fun hnone k hk => hmemory hnone k (functionLine_cons.mpr (.inr hk))
    rw [functionLines]
    by_cases hblank : Text.isBlank text = true
    · rw [if_pos hblank]
      obtain ⟨hok, hupdated⟩ := ih h hrest
      refine ⟨hok, hupdated.congr (fun k => ?_) fun _ _ _ => rfl⟩
      rw [functionLine_cons, hblank]
      simp
    · rw [if_neg hblank]
      rw [Bool.not_eq_true] at hblank
      have hsome : p.memory? ≠ none := fun hnone =>
        hmemory hnone (index + code.firstlineno, code.filename, depth) (functionLine_cons.mpr (.inl ⟨hblank, rfl⟩))
      rw [getLine_eq, if_neg hsome]
      have hkey := lineKey_fill p code.firstlineno fun call => h.key_of_get? (k := (index + code.firstlineno, code.filename, depth))
      obtain ⟨hok, hupdated⟩ := ih (h.set (p.fill code.firstlineno (index + code.firstlineno, code.filename, depth)
        (lines.get? (index + code.firstlineno, code.filename, depth)))) hrest
      refine ⟨hok, Updated.trans (S := fun k => k = (index + code.firstlineno, code.filename, depth)) ?_ hupdated ?_ ?_⟩
      · rw [hkey]
        exact Updated.set fun k => Iff.rfl
      · intro k
        rw [functionLine_cons, hblank]
        simp
      · rintro k rfl hk
        exact hk.ne rfl

/-- Without a memory to read, the first line raises. -/
theorem functionLines_raises (hmemory : p.memory? = none) (hk : FunctionLine code depth index texts k) :
    (functionLines p code depth index texts lines).1 ≠ .ok () := by
  induction texts generalizing index lines with
  | nil => exact absurd hk functionLine_nil
  | cons text texts ih =>
    rw [functionLines, getLine_eq, if_pos hmemory]
    split
    · next hblank =>
      rcases functionLine_cons.mp hk with ⟨hnot, -⟩ | hk
      · rw [hblank] at hnot
        cases hnot
      · exact ih hk
    · intro hok
      cases hok

/-! ## The lines of the target functions -/

/-- The key of a line of a target function that is not blank, the first of them at a depth. -/
def TargetLine (p : SimpleProfile) (depth : Nat) (codes : List CodeAlias) (k : LineKey) : Prop :=
  ∃ i code text, codes[i]? = some code ∧ p.functionsCode.get? (code.filename, code.firstlineno) = some text ∧
    FunctionLine code (depth + i) 1 (Text.splitlines text).tail k

/-- Where the function of a key begins. -/
def firstlinenoOf (depth : Nat) (codes : List CodeAlias) (k : LineKey) : Nat :=
  match codes[k.2.2 - depth]? with
  | none => 0
  | some code => code.firstlineno

theorem targetLine_nil : ¬ TargetLine p depth [] k := by
  rintro ⟨i, code, text, hcode, -⟩
  cases hcode

theorem targetLine_cons : TargetLine p depth (code :: codes) k ↔
    (∃ text, p.functionsCode.get? (code.filename, code.firstlineno) = some text ∧
      FunctionLine code depth 1 (Text.splitlines text).tail k) ∨ TargetLine p (depth + 1) codes k := by
  constructor
  · rintro ⟨i, code', text, hcode, htext, hk⟩
    cases i with
    | zero =>
      cases hcode
      exact .inl ⟨text, htext, hk⟩
    | succ i => exact .inr ⟨i, code', text, hcode, htext, by rwa [Nat.add_assoc, Nat.add_comm 1 i]⟩
  · rintro (⟨text, htext, hk⟩ | ⟨i, code', text, hcode, htext, hk⟩)
    · exact ⟨0, code, text, rfl, htext, hk⟩
    · exact ⟨i + 1, code', text, hcode, htext, by rwa [Nat.add_assoc, Nat.add_comm 1 i] at hk⟩

theorem TargetLine.le_depth (h : TargetLine p depth codes k) : depth ≤ k.2.2 := by
  obtain ⟨i, code, text, -, -, hk⟩ := h
  rw [hk.depth_eq]
  exact Nat.le_add_right depth i

theorem firstlinenoOf_self (hk : k.2.2 = depth) : firstlinenoOf depth (code :: codes) k = code.firstlineno := by
  rw [firstlinenoOf, hk, Nat.sub_self]
  rfl

theorem firstlinenoOf_of_lt (hk : depth < k.2.2) :
    firstlinenoOf depth (code :: codes) k = firstlinenoOf (depth + 1) codes k := by
  obtain ⟨n, hn⟩ := Nat.exists_eq_add_of_lt hk
  have hlong : k.2.2 - depth = n + 1 := by omega
  have hshort : k.2.2 - (depth + 1) = n := by omega
  rw [firstlinenoOf, firstlinenoOf, hlong, hshort]
  rfl

theorem targetLines_keyed (p : SimpleProfile) (depth : Nat) (codes : List CodeAlias) (h : Keyed lineKey lines) :
    Keyed lineKey (targetLines p depth codes lines).2 := by
  induction codes generalizing depth lines with
  | nil => exact h
  | cons code codes ih =>
    rw [targetLines]
    split
    · exact h
    · next text _ =>
      have hfunction := functionLines_keyed p code depth 1 (Text.splitlines text).tail h
      split
      · next heq => rwa [heq] at hfunction
      · next heq =>
        rw [heq] at hfunction
        exact ih (depth + 1) hfunction

/-- With the sources, and a memory to read or no line to read it for, all lines are filled in. -/
theorem targetLines_updated (h : Keyed lineKey lines)
    (hsource : ∀ code ∈ codes, p.functionsCode.get? (code.filename, code.firstlineno) ≠ none)
    (hmemory : p.memory? = none → ∀ k, ¬ TargetLine p depth codes k) :
    (targetLines p depth codes lines).1 = .ok () ∧
      Updated (TargetLine p depth codes) (fun k => p.fill (firstlinenoOf depth codes k) k) lines
        (targetLines p depth codes lines).2 := by
  induction codes generalizing depth lines with
  | nil => exact ⟨rfl, Updated.refl fun k => targetLine_nil⟩
  | cons code codes ih =>
    obtain ⟨text, htext⟩ := Option.ne_none_iff_exists'.mp (hsource code List.mem_cons_self)
    have hfirst : p.memory? = none → ∀ k, ¬ FunctionLine code depth 1 (Text.splitlines text).tail k :=
      fun hnone k hk => hmemory hnone k (targetLine_cons.mpr (.inl ⟨text, htext, hk⟩))
    have hrest : p.memory? = none → ∀ k, ¬ TargetLine p (depth + 1) codes k :=
      fun hnone k hk => hmemory hnone k (targetLine_cons.mpr (.inr hk))
    have hkeyed := functionLines_keyed p code depth 1 (Text.splitlines text).tail h
    obtain ⟨hok, hfunction⟩ := functionLines_updated h hfirst
    obtain ⟨hok', htargets⟩ := ih hkeyed (fun code' hcode' => hsource code' (List.mem_cons_of_mem code hcode')) hrest
    have hcons : targetLines p depth (code :: codes) lines =
        targetLines p (depth + 1) codes (functionLines p code depth 1 (Text.splitlines text).tail lines).2 := by
      simp only [targetLines, htext]
      rw [← Prod.mk.eta (p := functionLines p code depth 1 (Text.splitlines text).tail lines), hok]
    rw [hcons]
    refine ⟨hok', Updated.trans (S := FunctionLine code depth 1 (Text.splitlines text).tail) ?_
      (htargets.congr (fun _ => Iff.rfl) ?_) ?_ ?_⟩
    · refine hfunction.congr (fun _ => Iff.rfl) fun k line hk => ?_
      rw [firstlinenoOf_self hk.depth_eq]
    · intro k line hk
      rw [firstlinenoOf_of_lt hk.le_depth]
    · intro k
      rw [targetLine_cons, htext]
      simp
    · intro k hk hk'
      have hdepth := hk'.le_depth
      rw [hk.depth_eq] at hdepth
      exact Nat.not_succ_le_self depth hdepth

/-- It does not raise only if the sources are there, and a memory to read or no line to read it for. -/
theorem targetLines_ok (h : (targetLines p depth codes lines).1 = .ok ()) :
    (∀ code ∈ codes, p.functionsCode.get? (code.filename, code.firstlineno) ≠ none) ∧
      (p.memory? = none → ∀ k, ¬ TargetLine p depth codes k) := by
  induction codes generalizing depth lines with
  | nil => exact ⟨fun _ hcode => absurd hcode List.not_mem_nil, fun _ _ => targetLine_nil⟩
  | cons code codes ih =>
    rw [targetLines] at h
    split at h
    · cases h
    · next text htext =>
      have hraises : p.memory? = none → ∀ k, FunctionLine code depth 1 (Text.splitlines text).tail k →
          (functionLines p code depth 1 (Text.splitlines text).tail lines).1 ≠ .ok () :=
        fun hnone _ hk => functionLines_raises hnone hk
      split at h
      · cases h
      · next heq =>
        obtain ⟨hsource, hmemory⟩ := ih h
        constructor
        · intro code' hcode'
          rcases List.mem_cons.mp hcode' with rfl | hcode'
          · rw [htext]
            exact Option.some_ne_none text
          · exact hsource code' hcode'
        · intro hnone k hk
          rcases targetLine_cons.mp hk with ⟨text', htext', hk⟩ | hk
          · rw [htext] at htext'
            cases htext'
            exact hraises hnone k hk (by rw [heq])
          · exact hmemory hnone k hk

end Levin.SimpleProfile
