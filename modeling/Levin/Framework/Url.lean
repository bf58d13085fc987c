import Levin.Framework.Bytes
import Mathlib.Data.List.TakeWhile

/-!
# `urllib.parse.urlparse`

The parts of a URL, `scheme://netloc/path;params?query#fragment`. What its versions do
differently is a parameter. What stands in front of a question mark is the path of a URL
if and only if it has none of the other parts in it (`urlparse_mark`, `plain_of_path`).
-/

namespace Levin.Framework.Url

open Bytes

/-- What the versions of `urllib` differ in. -/
structure Version where
  /-- Left out at the beginning of a URL. -/
  isLeading : UInt8 → Bool
  /-- Left out wherever it stands. -/
  isRemoved : UInt8 → Bool
  /-- Of what stands before the first colon, if it is made of the characters of schemes, and what comes after it. -/
  isScheme : Bytes → Bytes → Bool
  /-- `scheme in uses_params` -/
  usesParams : Bytes → Bool
  /-- A netloc with brackets may be refused. -/
  acceptsNetloc : Bytes → Bool
  leading_mark : isLeading 63 = false
  removed_mark : isRemoved 63 = false
  usesParams_nil : usesParams [] = true
  acceptsNetloc_nil : acceptsNetloc [] = true

structure ParseResult where
  scheme : Bytes
  netloc : Bytes
  path : Bytes
  params : Bytes
  query : Bytes
  fragment : Bytes
  deriving DecidableEq, Repr

/-- What comes before a byte, and after it; all and nothing if it does not occur. -/
def cut (sep : UInt8) (s : Bytes) : Bytes × Bytes := (s.takeWhile (· != sep), (s.dropWhile (· != sep)).tail)

def isSchemeChar (b : UInt8) : Bool :=
  (97 ≤ b && b ≤ 122) || (65 ≤ b && b ≤ 90) || (48 ≤ b && b ≤ 57) || b == 43 || b == 45 || b == 46

variable (v : Version)

def clean (url : Bytes) : Bytes := (url.dropWhile v.isLeading).filter fun b => !v.isRemoved b

def HasScheme (url : Bytes) : Prop :=
  58 ∈ url ∧ (cut 58 url).1 ≠ [] ∧ (cut 58 url).1.all isSchemeChar = true ∧ v.isScheme (cut 58 url).1 (cut 58 url).2 = true

instance (url : Bytes) : Decidable (HasScheme v url) := inferInstanceAs (Decidable (_ ∧ _))

def splitScheme (url : Bytes) : Bytes × Bytes :=
  if HasScheme v url then (lower (cut 58 url).1, (cut 58 url).2) else ([], url)

/-- A byte that ends a netloc. -/
def isDelimiter (b : UInt8) : Bool := b == 47 || b == 63 || b == 35

def splitNetloc (url : Bytes) : Bytes × Bytes :=
  if [47, 47] <+: url then ((url.drop 2).takeWhile (!isDelimiter ·), (url.drop 2).dropWhile (!isDelimiter ·)) else ([], url)

/-- What comes after the last slash. -/
def lastSegment (url : Bytes) : Bytes := (url.reverse.takeWhile (· != 47)).reverse

/-- `_splitparams` -/
def splitParams (url : Bytes) : Bytes × Bytes :=
  ((url.reverse.dropWhile (· != 47)).reverse ++ (cut 59 (lastSegment url)).1, (cut 59 (lastSegment url)).2)

/-- `urlparse(url)`; `none` is a `ValueError`. -/
def urlparse (url : Bytes) : Option ParseResult :=
  if url.all (· < 128) then
    let (scheme, url) := splitScheme v (clean v url)
    let (netloc, url) := splitNetloc url
    if v.acceptsNetloc netloc then
      let (url, fragment) := cut 35 url
      let (path, query) := cut 63 url
      let (path, params) := if v.usesParams scheme then splitParams path else (path, [])
      some { scheme, netloc, path, params, query, fragment }
    else none
  else none

/-! ## What comes before a question mark -/

/-- What comes before a question mark has nothing in it but a path. -/
structure Plain (p q : Bytes) : Prop where
  leading : ∀ b, p.head? = some b → v.isLeading b = false
  removed : ∀ b ∈ p, v.isRemoved b = false
  scheme : ¬ HasScheme v (p ++ 63 :: q.filter fun b => !v.isRemoved b)
  netloc : ¬ [47, 47] <+: p
  fragment : 35 ∉ p
  params : 59 ∉ lastSegment p

section Cut

variable {sep : UInt8} {s : Bytes}

theorem takeWhile_append_stop {p : UInt8 → Bool} {b : UInt8} (hb : p b = false) (s t : Bytes) :
    (s ++ b :: t).takeWhile p = s.takeWhile p := by
  induction s with
  | nil => rw [List.nil_append, List.takeWhile_cons_of_neg (by simp [hb]), List.takeWhile_nil]
  | cons c s ih => rw [List.cons_append, List.takeWhile_cons, List.takeWhile_cons, ih]

theorem dropWhile_append_stop {p : UInt8 → Bool} {b : UInt8} (hb : p b = false) (s t : Bytes) :
    (s ++ b :: t).dropWhile p = s.dropWhile p ++ b :: t := by
  induction s with
  | nil => rw [List.nil_append, List.dropWhile_cons_of_neg (by simp [hb]), List.dropWhile_nil, List.nil_append]
  | cons c s ih =>
    rw [List.cons_append, List.dropWhile_cons, List.dropWhile_cons, ih]
    split <;> rfl

theorem length_dropWhile_le (p : UInt8 → Bool) (s : Bytes) : (s.dropWhile p).length ≤ s.length :=
  (List.dropWhile_sublist p).length_le

theorem cut_of_notMem (h : sep ∉ s) : cut sep s = (s, []) := by
  have hall : ∀ b ∈ s, (b != sep) = true := fun b hb => bne_iff_ne.mpr fun heq => h (heq ▸ hb)
  rw [cut, List.takeWhile_eq_self_iff.mpr hall, List.dropWhile_eq_nil_iff.mpr hall]
  rfl

theorem length_cut_le : (cut sep s).1.length ≤ s.length := (List.takeWhile_sublist _).length_le

theorem length_cut_lt (h : sep ∈ s) : (cut sep s).1.length < s.length := by
  refine Nat.lt_of_le_of_ne length_cut_le fun heq => ?_
  have hself : s.takeWhile (· != sep) = s := (List.takeWhile_sublist _).eq_of_length heq
  exact absurd (List.takeWhile_eq_self_iff.mp hself sep h) (by simp)

theorem cut_append {b : UInt8} (h : sep ∉ s) (hb : b ≠ sep) (t : Bytes) :
    cut sep (s ++ b :: t) = (s ++ b :: (cut sep t).1, (cut sep t).2) := by
  have hall : ∀ c ∈ s, (c != sep) = true := fun c hc => bne_iff_ne.mpr fun heq => h (heq ▸ hc)
  simp [cut, List.takeWhile_append_of_pos hall, List.dropWhile_append_of_pos hall, hb]

theorem cut_append_stop (h : sep ∉ s) (t : Bytes) : cut sep (s ++ sep :: t) = (s, t) := by
  have hall : ∀ c ∈ s, (c != sep) = true := fun c hc => bne_iff_ne.mpr fun heq => h (heq ▸ hc)
  rw [cut, List.takeWhile_append_of_pos hall, List.dropWhile_append_of_pos hall, List.takeWhile_cons_of_neg (by simp),
    List.dropWhile_cons_of_neg (by simp), List.append_nil]
  rfl

/-- Where a byte occurs, what comes behind does not matter for what comes before it. -/
theorem cut_append_of_mem (h : sep ∈ s) (t : Bytes) : cut sep (s ++ t) = ((cut sep s).1, (cut sep s).2 ++ t) := by
  induction s with
  | nil => exact absurd h List.not_mem_nil
  | cons c s ih =>
    by_cases hc : c = sep
    · subst hc
      simp [cut]
    · have ih := ih ((List.mem_cons.mp h).resolve_left (Ne.symm hc))
      rw [cut, cut, Prod.mk.injEq] at ih
      simp [cut, hc, ih.1, ih.2]

theorem length_cut_snd_lt (h : sep ∈ s) : (cut sep s).2.length < s.length := by
  have hne : s.dropWhile (· != sep) ≠ [] := by
    intro hnil
    exact absurd (List.dropWhile_eq_nil_iff.mp hnil sep h) (by simp)
  have hpos := List.length_pos_iff.mpr hne
  have hle := length_dropWhile_le (· != sep) s
  show ((s.dropWhile (· != sep)).tail).length < _
  rw [List.length_tail]
  omega

theorem mem_of_mem_cut {b : UInt8} (h : b ∈ (cut sep s).2) : b ∈ s :=
  (List.dropWhile_sublist _).subset (List.mem_of_mem_tail h)

end Cut

/-! ## One part after the other -/

section Parts

variable {v} {p : Bytes}

theorem clean_mark (p q : Bytes) : clean v (p ++ 63 :: q) = clean v p ++ 63 :: q.filter fun b => !v.isRemoved b := by
  rw [clean, dropWhile_append_stop v.leading_mark, List.filter_append, List.filter_cons_of_pos (by simp [v.removed_mark])]
  rfl

theorem length_clean_le (p : Bytes) : (clean v p).length ≤ p.length :=
  (List.length_filter_le _ _).trans (length_dropWhile_le _ p)

theorem clean_of_plain (hleading : ∀ b, p.head? = some b → v.isLeading b = false)
    (hremoved : ∀ b ∈ p, v.isRemoved b = false) : clean v p = p := by
  have hdrop : p.dropWhile v.isLeading = p := by
    cases p with
    | nil => rfl
    | cons b p => exact List.dropWhile_cons_of_neg (by simp [hleading b rfl])
  rw [clean, hdrop, List.filter_eq_self.mpr fun b hb => by rw [hremoved b hb]; rfl]

theorem plain_of_length_clean (h : p.length ≤ (clean v p).length) :
    (∀ b, p.head? = some b → v.isLeading b = false) ∧ ∀ b ∈ p, v.isRemoved b = false := by
  have hfilter := List.length_filter_le (fun b => !v.isRemoved b) (p.dropWhile v.isLeading)
  have hdrop : p.dropWhile v.isLeading = p :=
    (List.dropWhile_sublist _).eq_of_length (Nat.le_antisymm (length_dropWhile_le _ p) (h.trans hfilter))
  rw [clean, hdrop] at h
  have hall := List.length_filter_eq_length_iff.mp (Nat.le_antisymm (List.length_filter_le _ p) h)
  refine ⟨fun b hb => ?_, fun b hb => ?_⟩
  · obtain ⟨p', rfl⟩ : ∃ p', p = b :: p' := by
      cases p with
      | nil => cases hb
      | cons c p => exact ⟨p, by rw [Option.some.inj hb]⟩
    by_contra hlead
    rw [List.dropWhile_cons_of_pos (by simpa using hlead)] at hdrop
    have hle := length_dropWhile_le v.isLeading p'
    rw [hdrop, List.length_cons] at hle
    omega
  · have hb := hall b hb
    rwa [Bool.not_eq_true'] at hb

/-- A scheme takes bytes away from what comes before a question mark. -/
theorem splitScheme_mark (hp : 63 ∉ p) (t : Bytes) : ∃ scheme r, splitScheme v (p ++ 63 :: t) = (scheme, r ++ 63 :: t) ∧
    63 ∉ r ∧ r.length ≤ p.length ∧ (p.length ≤ r.length → ¬ HasScheme v (p ++ 63 :: t) ∧ scheme = [] ∧ r = p) := by
  by_cases h : HasScheme v (p ++ 63 :: t)
  · have hcolon : 58 ∈ p := by
      -- The question mark would be one of the characters of the scheme.
      by_contra hnone
      have hchars := h.2.2.1
      rw [cut_append hnone (by decide), List.all_append, List.all_cons, Bool.and_eq_true, Bool.and_eq_true] at hchars
      exact absurd hchars.2.1 (by decide)
    have hsplit : splitScheme v (p ++ 63 :: t) = (lower (cut 58 p).1, (cut 58 p).2 ++ 63 :: t) := by
      rw [splitScheme, if_pos h, cut_append_of_mem hcolon]
    have hlt := length_cut_snd_lt hcolon
    exact ⟨_, _, hsplit, fun hmem => hp (mem_of_mem_cut hmem), Nat.le_of_lt hlt, fun hle => absurd hlt (by omega)⟩
  · exact ⟨_, _, if_neg h, hp, Nat.le_refl _, fun _ => ⟨h, rfl, rfl⟩⟩

theorem splitNetloc_of_not (h : ¬ [47, 47] <+: p) (t : Bytes) : splitNetloc (p ++ 63 :: t) = ([], p ++ 63 :: t) := by
  refine if_neg fun hprefix => h ?_
  -- A question mark is no slash.
  match p, hprefix with
  | [], hprefix => exact absurd (List.cons_prefix_cons.mp hprefix).1 (by decide)
  | [b], hprefix => exact absurd (List.cons_prefix_cons.mp (List.cons_prefix_cons.mp hprefix).2).1 (by decide)
  | b :: c :: p', hprefix =>
    have hb := List.cons_prefix_cons.mp hprefix
    have hc := List.cons_prefix_cons.mp hb.2
    rw [← hb.1, ← hc.1]
    exact List.prefix_append [47, 47] p'

/-- So does a netloc. -/
theorem splitNetloc_mark (hp : 63 ∉ p) (t : Bytes) : ∃ netloc r, splitNetloc (p ++ 63 :: t) = (netloc, r ++ 63 :: t) ∧
    63 ∉ r ∧ r.length ≤ p.length ∧ (p.length ≤ r.length → ¬ [47, 47] <+: p ∧ r = p) := by
  by_cases h : [47, 47] <+: p
  · obtain ⟨p', rfl⟩ := h
    have hsplit : splitNetloc ([47, 47] ++ p' ++ 63 :: t) =
        (p'.takeWhile (!isDelimiter ·), p'.dropWhile (!isDelimiter ·) ++ 63 :: t) := by
      have hdrop : ([47, 47] ++ (p' ++ 63 :: t)).drop 2 = p' ++ 63 :: t := rfl
      rw [splitNetloc, List.append_assoc, if_pos (List.prefix_append ..), hdrop, takeWhile_append_stop (by decide),
        dropWhile_append_stop (by decide)]
    have hle := length_dropWhile_le (!isDelimiter ·) p'
    have hlength : ([47, 47] ++ p').length = p'.length + 2 := rfl
    exact ⟨_, _, hsplit, fun hmem => hp (List.mem_append_right _ ((List.dropWhile_sublist _).subset hmem)), by omega,
      fun h => absurd hle (by omega)⟩
  · exact ⟨_, _, splitNetloc_of_not h t, hp, Nat.le_refl _, fun _ => ⟨h, rfl⟩⟩

/-- And a fragment. -/
theorem length_cut_fragment (hp : 63 ∉ p) (t : Bytes) :
    (cut 63 (cut 35 (p ++ 63 :: t)).1).1.length ≤ p.length ∧
      (35 ∈ p → (cut 63 (cut 35 (p ++ 63 :: t)).1).1.length < p.length) := by
  by_cases h : 35 ∈ p
  · have hlt : (cut 63 (cut 35 (p ++ 63 :: t)).1).1.length < p.length := by
      rw [cut_append_of_mem h]
      exact Nat.lt_of_le_of_lt length_cut_le (length_cut_lt h)
    exact ⟨Nat.le_of_lt hlt, fun _ => hlt⟩
  · rw [cut_append h (by decide), cut_append_stop hp]
    exact ⟨Nat.le_refl _, fun hmem => absurd hmem h⟩

theorem eq_append_lastSegment (p : Bytes) : p = (p.reverse.dropWhile (· != 47)).reverse ++ lastSegment p := by
  rw [lastSegment, ← List.reverse_append, List.takeWhile_append_dropWhile, List.reverse_reverse]

theorem splitParams_of_notMem (h : 59 ∉ lastSegment p) : splitParams p = (p, []) := by
  rw [splitParams, cut_of_notMem h, ← eq_append_lastSegment]

/-- And params. -/
theorem length_splitParams (p : Bytes) :
    (splitParams p).1.length ≤ p.length ∧ (59 ∈ lastSegment p → (splitParams p).1.length < p.length) := by
  have hlength := congrArg List.length (eq_append_lastSegment p)
  rw [List.length_append] at hlength
  have hle : (cut 59 (lastSegment p)).1.length ≤ (lastSegment p).length := length_cut_le
  rw [splitParams, List.length_append]
  refine ⟨by omega, fun h => ?_⟩
  have hlt := length_cut_lt h
  omega

end Parts

/-! ## The path in front of a question mark -/

section Path

variable {v} {p q : Bytes}

/-- Without the other parts, it is the path. -/
theorem urlparse_mark (hp : 63 ∉ p) (h : Plain v p q) (hascii : (p ++ 63 :: q).all (· < 128) = true) :
    ∃ fragment, urlparse v (p ++ 63 :: q) = some
      { scheme := [], netloc := [], path := p, params := [], query := (cut 35 (q.filter fun b => !v.isRemoved b)).1,
        fragment } := by
  have hscheme : splitScheme v (p ++ 63 :: q.filter fun b => !v.isRemoved b) = ([], p ++ 63 :: q.filter fun b => !v.isRemoved b) :=
    if_neg h.scheme
  refine ⟨(cut 35 (q.filter fun b => !v.isRemoved b)).2, ?_⟩
  simp only [urlparse, hascii, if_true, clean_mark, clean_of_plain h.leading h.removed, hscheme, splitNetloc_of_not h.netloc,
    v.acceptsNetloc_nil, cut_append h.fragment (by decide : (63 : UInt8) ≠ 35), cut_append_stop hp, v.usesParams_nil,
    splitParams_of_notMem h.params]

/-- Each of the other parts takes bytes away from it. -/
theorem plain_of_path (hp : 63 ∉ p) {r : ParseResult} (h : urlparse v (p ++ 63 :: q) = some r) (hpath : r.path = p) :
    Plain v p q := by
  obtain ⟨t, ht⟩ : ∃ t, (q.filter fun b => !v.isRemoved b) = t := ⟨_, rfl⟩
  have hclean : 63 ∉ clean v p := fun hmem => hp ((List.dropWhile_sublist _).subset (List.mem_filter.mp hmem).1)
  obtain ⟨scheme, p₂, hscheme, hp₂, hle₂, heq₂⟩ := splitScheme_mark (v := v) hclean t
  obtain ⟨netloc, p₃, hnetloc, hp₃, hle₃, heq₃⟩ := splitNetloc_mark hp₂ t
  obtain ⟨hle₄, hlt₄⟩ := length_cut_fragment hp₃ t
  obtain ⟨hle₅, hlt₅⟩ := length_splitParams (cut 63 (cut 35 (p₃ ++ 63 :: t)).1).1
  have hle₁ := length_clean_le (v := v) p
  have hresult : p = (if v.usesParams scheme then splitParams (cut 63 (cut 35 (p₃ ++ 63 :: t)).1).1
      else ((cut 63 (cut 35 (p₃ ++ 63 :: t)).1).1, [])).1 := by
    rw [← hpath]
    simp only [urlparse, clean_mark, ht, hscheme, hnetloc] at h
    split at h
    · split at h
      · rw [← Option.some.inj h]
      · cases h
    · cases h
  have hlength := congrArg List.length hresult
  -- Nothing is taken away on the way.
  have hle : p.length ≤ (cut 63 (cut 35 (p₃ ++ 63 :: t)).1).1.length := by
    rw [hlength]
    split
    · exact hle₅
    · exact Nat.le_refl _
  obtain ⟨hleading, hremoved⟩ := plain_of_length_clean (v := v) (p := p) (by omega)
  obtain ⟨hnoscheme, rfl, rfl⟩ := heq₂ (by omega)
  obtain ⟨hnonetloc, rfl⟩ := heq₃ (by omega)
  rw [clean_of_plain hleading hremoved] at hnoscheme hnonetloc hle hlt₄ hlt₅ hlength
  have hfragment : 35 ∉ p := fun hmem => absurd (hlt₄ hmem) (by omega)
  rw [cut_append hfragment (by decide), cut_append_stop hp, if_pos v.usesParams_nil] at hlength
  rw [cut_append hfragment (by decide), cut_append_stop hp] at hlt₅
  exact
    { leading := hleading
      removed := hremoved
      scheme := ht ▸ hnoscheme
      netloc := hnonetloc
      fragment := hfragment
      params := fun hmem => absurd (hlt₅ hmem) (by dsimp only at hlength ⊢; omega) }

end Path

end Levin.Framework.Url
