import Levin.Proof.Profile.Records
import Mathlib.Data.List.Infix

/-!
# The list of target functions

The depth at which a call is recorded is the place of its function in the list of
targets, as long as no function is there twice (`depthOf_of_nodup`), and the list may
have grown between a call and its return. If it has `Grown` by functions that are
neither in it nor running below, the place of the function that called is the same at
the return as at the call (`place?_targetsAfter`).
-/

namespace Levin.SimpleProfile

open Framework

variable {getsource : GetSource} {p : SimpleProfile} {frame back : ProfileFrame} {below : List ProfileFrame}
  {code parent : CodeAlias} {depth : Nat} {T T' T'' : List CodeAlias} {codes : List CodeAlias}

/-- The targets once an event of a frame has been looked at: its function, and that of the frame below. -/
def targetsAfter (depth : Nat) (code parent : CodeAlias) (T : List CodeAlias) : List CodeAlias :=
  if T.length ≠ depth ∧ parent ∈ T then T ++ [code] else T

/-- The place of a function in the list, from 1. -/
def place? (T : List CodeAlias) (code : CodeAlias) : Option Nat := if code ∈ T then some (T.idxOf code + 1) else none

/-! ## What `_get_current_depth` does -/

theorem saveFrame_eq (below : List ProfileFrame) (hread : p.targetFunc.length ≠ p.depth → back.code ∈ p.targetFunc →
    getsource frame.code.filename frame.code.firstlineno ≠ none) :
    ∃ functionsCode, saveFrame getsource frame (back :: below) p =
      (.ok (), { p with targetFunc := targetsAfter p.depth frame.code back.code p.targetFunc, functionsCode }) := by
  unfold saveFrame targetsAfter
  by_cases hfull : p.targetFunc.length = p.depth
  · refine ⟨p.functionsCode, ?_⟩
    rw [if_pos hfull, if_neg fun h => h.1 hfull]
  · rw [if_neg hfull]
    by_cases hback : back.code ∈ p.targetFunc
    · obtain ⟨text, htext⟩ := Option.ne_none_iff_exists'.mp (hread hfull hback)
      refine ⟨p.functionsCode.set (frame.code.filename, frame.code.firstlineno) text, ?_⟩
      simp only [appendTarget, saveFunction, htext, if_pos hback, ne_eq, hfull, not_false_eq_true, true_and]
    · refine ⟨p.functionsCode, ?_⟩
      simp only [hback, and_false, if_false]

/-- Of functions that are there once, there is no recursion to be found. -/
theorem depthOf_of_nodup (h : T.Nodup) (frame : ProfileFrame) (below : List ProfileFrame) :
    depthOf T frame below = .ok (place? T frame.code) := by
  have hcount : ¬ T.count frame.code > 1 := Nat.not_lt.mpr (List.nodup_iff_count_le_one.mp h frame.code)
  unfold depthOf place?
  by_cases hmem : frame.code ∈ T
  · rw [if_neg (not_not.mpr hmem), if_neg hcount, if_pos hmem]
  · rw [if_pos hmem, if_neg hmem]

/-- An event of a frame, whose function is recorded at its place, if it has one. -/
theorem _trace_eq {e : TraceEvent} (hframe : eventFrame e.event e.frame = frame :: back :: below)
    (hread : p.targetFunc.length ≠ p.depth → back.code ∈ p.targetFunc →
      getsource frame.code.filename frame.code.firstlineno ≠ none)
    (hnodup : (targetsAfter p.depth frame.code back.code p.targetFunc).Nodup) :
    ∃ functionsCode, ∃ q : SimpleProfile,
      q = { p with targetFunc := targetsAfter p.depth frame.code back.code p.targetFunc, functionsCode } ∧
      _trace getsource e p =
        match place? q.targetFunc frame.code with
        | none => (.ok (), q)
        | some depth => if e.event.isCall then (.ok (), traceCall frame depth e.time q) else traceReturn frame depth e.time q := by
  obtain ⟨functionsCode, hsave⟩ := saveFrame_eq below hread
  refine ⟨functionsCode, _, rfl, ?_⟩
  have hne : e.frame ≠ [] := by
    intro hnil
    rw [hnil] at hframe
    unfold eventFrame at hframe
    split at hframe <;> cases hframe
  have hdepth : currentDepth getsource frame (back :: below) p =
      (.ok (place? (targetsAfter p.depth frame.code back.code p.targetFunc) frame.code),
        { p with targetFunc := targetsAfter p.depth frame.code back.code p.targetFunc, functionsCode }) := by
    simp only [currentDepth, hsave, depthOf_of_nodup hnodup]
  simp only [_trace, if_neg hne, hframe, hdepth]
  cases place? (targetsAfter p.depth frame.code back.code p.targetFunc) frame.code with
  | none => rfl
  | some depth => rfl

/-- The list gets one more only if it is not full. -/
theorem saveFrame_grows (getsource : GetSource) (frame : ProfileFrame) (below : List ProfileFrame) (p : SimpleProfile) :
    p.targetFunc <+: (saveFrame getsource frame below p).2.targetFunc ∧
      (saveFrame getsource frame below p).2.depth = p.depth ∧
      (saveFrame getsource frame below p).2.calls = p.calls ∧
      (p.targetFunc.length ≤ p.depth → (saveFrame getsource frame below p).2.targetFunc.length ≤ p.depth) := by
  unfold saveFrame
  split
  · exact ⟨List.prefix_refl _, rfl, rfl, id⟩
  · next hfull =>
    cases below with
    | nil => exact ⟨List.prefix_refl _, rfl, rfl, id⟩
    | cons back rest =>
      dsimp only
      split
      · rw [appendTarget_eq]
        refine ⟨List.prefix_append _ _, rfl, rfl, fun hle => ?_⟩
        rw [List.length_append, List.length_singleton]
        omega
      · exact ⟨List.prefix_refl _, rfl, rfl, id⟩

theorem located_grows (getsource : GetSource) (e : TraceEvent) (p : SimpleProfile) :
    p.targetFunc <+: (located getsource e p).2.targetFunc ∧ (located getsource e p).2.depth = p.depth ∧
      (located getsource e p).2.calls = p.calls ∧
      (p.targetFunc.length ≤ p.depth → (located getsource e p).2.targetFunc.length ≤ p.depth) := by
  rcases located_snd getsource e p with heq | ⟨frame, below, heq⟩
  · rw [heq]
    exact ⟨List.prefix_refl _, rfl, rfl, id⟩
  · rw [heq]
    exact saveFrame_grows getsource frame below p

/-- What is recorded makes no difference to the targets. -/
theorem targets_trace (getsource : GetSource) (e : TraceEvent) (p : SimpleProfile) :
    (_trace getsource e p).2.targetFunc = (located getsource e p).2.targetFunc ∧
      (_trace getsource e p).2.depth = (located getsource e p).2.depth := by
  rw [trace_located]
  generalize located getsource e p = r
  obtain ⟨_ | ⟨frame, d⟩, q⟩ := r
  · exact ⟨rfl, rfl⟩
  · dsimp only
    split
    · exact ⟨(targets_traceCall frame d e.time q).1, (sameRun_traceCall frame d e.time (SameRun.refl q)).depth⟩
    · exact ⟨(targets_traceReturn frame d e.time q).1, (sameRun_traceReturn frame d e.time (SameRun.refl q)).depth⟩

/-- Nothing is added to a list of targets that is full, whatever happens. -/
theorem full_trace (getsource : GetSource) (e : TraceEvent) (h : p.targetFunc.length = p.depth) :
    (_trace getsource e p).2.targetFunc = p.targetFunc ∧ (_trace getsource e p).2.depth = p.depth := by
  obtain ⟨hextends, hdepth, -, hlength⟩ := located_grows getsource e p
  obtain ⟨htargets, hdepth'⟩ := targets_trace getsource e p
  refine ⟨htargets.trans ?_, hdepth'.trans hdepth⟩
  have hle := hlength (Nat.le_of_eq h)
  rw [← h] at hle
  exact (hextends.eq_of_length_le hle).symm

/-! ## How the list grows -/

/-- The list has grown while a frame of the function `code` was running, above those of the functions `codes`: these are
not among the new ones, and `code` only if it was called by a target. -/
structure Grown (code : CodeAlias) (codes : List CodeAlias) (depth : Nat) (T T' : List CodeAlias) : Prop where
  isPrefix : T <+: T'
  below : ∀ c ∈ codes, c ∈ T' → c ∈ T
  own : code ∈ T' → code ∈ T ∨ ∃ parent, codes.head? = some parent ∧ parent ∈ T
  full : T.length = depth → T' = T

namespace Grown

theorem refl (code : CodeAlias) (codes : List CodeAlias) (depth : Nat) (T : List CodeAlias) : Grown code codes depth T T where
  isPrefix := List.prefix_refl T
  below _ _ hT := hT
  own := .inl
  full _ := rfl

theorem trans (h : Grown code codes depth T T') (h' : Grown code codes depth T' T'') : Grown code codes depth T T'' where
  isPrefix := h.isPrefix.trans h'.isPrefix
  below c hc hT := h.below c hc (h'.below c hc hT)
  own hT := by
    rcases h'.own hT with hT | ⟨parent, hhead, hT⟩
    · exact h.own hT
    · exact .inr ⟨parent, hhead, h.below parent (List.mem_of_mem_head? hhead) hT⟩
  full hfull := by
    have heq := h.full hfull
    rw [h'.full (by rwa [heq]), heq]

/-- What a called function adds is not the function of the frame that called it. -/
theorem pop {callee : CodeAlias} (h : Grown callee (code :: codes) depth T T') : Grown code codes depth T T' where
  isPrefix := h.isPrefix
  below c hc hT := h.below c (List.mem_cons_of_mem code hc) hT
  own hT := .inl (h.below code List.mem_cons_self hT)
  full := h.full

end Grown

/-- An event of the frame itself, that adds a function which is neither there nor running below. -/
theorem grown_targetsAfter (codes : List CodeAlias) (hnew : T.length ≠ depth → parent ∈ T → code ∉ T ∧ code ∉ parent :: codes) :
    Grown code (parent :: codes) depth T (targetsAfter depth code parent T) := by
  unfold targetsAfter
  split
  · next hadds =>
    obtain ⟨-, hbelow⟩ := hnew hadds.1 hadds.2
    constructor
    · exact List.prefix_append T [code]
    · intro c hc hT
      rcases List.mem_append.mp hT with hT | hT
      · exact hT
      · rw [List.mem_singleton.mp hT] at hc
        exact absurd hc hbelow
    · exact fun _ => .inr ⟨parent, rfl, hadds.2⟩
    · exact fun hfull => absurd hfull hadds.1
  · exact Grown.refl code (parent :: codes) depth T

theorem nodup_targetsAfter (h : T.Nodup) (hnew : T.length ≠ depth → parent ∈ T → code ∉ T) :
    (targetsAfter depth code parent T).Nodup := by
  unfold targetsAfter
  split
  · next hadds => exact List.nodup_append.mpr ⟨h, List.nodup_singleton _, fun a ha b hb heq => by
      rw [heq, List.mem_singleton.mp hb] at ha
      exact hnew hadds.1 hadds.2 ha⟩
  · exact h

theorem place?_of_extends (h : T <+: T') (hcode : code ∈ T) : place? T' code = place? T code := by
  obtain ⟨new, rfl⟩ := h
  rw [place?, place?, if_pos (List.mem_append_left new hcode), if_pos hcode, List.idxOf_append_of_mem hcode]

/-- The place at the return is the place at the call, whatever has been added in between. -/
theorem place?_targetsAfter (h : Grown code (parent :: codes) depth (targetsAfter depth code parent T) T') :
    place? (targetsAfter depth code parent T') code = place? (targetsAfter depth code parent T) code := by
  by_cases hcode : code ∈ targetsAfter depth code parent T
  · refine place?_of_extends (h.isPrefix.trans ?_) hcode
    unfold targetsAfter
    split
    · exact List.prefix_append T' [code]
    · exact List.prefix_refl T'
  · -- The call has added nothing, because the list was full or the caller is no target, and this is still so.
    have hsame : targetsAfter depth code parent T = T := by
      unfold targetsAfter at hcode ⊢
      split
      · next hadds =>
        rw [if_pos hadds] at hcode
        exact absurd (List.mem_append_right T List.mem_cons_self) hcode
      · rfl
    have hadds : ¬ (T.length ≠ depth ∧ parent ∈ T) := by
      intro hadds
      rw [targetsAfter, if_pos hadds] at hcode
      exact hcode (List.mem_append_right T List.mem_cons_self)
    rw [hsame] at h hcode ⊢
    have hcode' : code ∉ T' := by
      intro hT'
      rcases h.own hT' with hT | ⟨other, hhead, hT⟩
      · exact hcode hT
      · cases hhead
        rw [h.full (not_not.mp fun hlength => hadds ⟨hlength, hT⟩)] at hT'
        exact hcode hT'
    have hsame' : targetsAfter depth code parent T' = T' := by
      refine if_neg fun hadds' => ?_
      have hparent := h.below parent List.mem_cons_self hadds'.2
      by_cases hfull : T.length = depth
      · rw [h.full hfull] at hadds'
        exact hadds'.1 hfull
      · exact hadds ⟨hfull, hparent⟩
    rw [hsame', place?, place?, if_neg hcode', if_neg hcode]

end Levin.SimpleProfile
