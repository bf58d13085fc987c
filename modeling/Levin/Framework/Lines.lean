import Levin.Framework.Bytes
import Mathlib.Data.List.DropRight
import Mathlib.Tactic.Common

/-!
# Lines of a text

How `splitlines`, `split` and `join` act on texts put together from lines: a line
and its CRLF at the front come off as one line (`splitlines_append`), and what
`splitlines` drops of a text are its line ends alone (`flatten_splitlines`), so
that lines put together give the text again only if it was one line
(`flatten_eq_iff`).
-/

namespace Levin.Framework.Bytes

/-- No line ends in it. -/
def OneLine (bs : Bytes) : Prop := CR ∉ bs ∧ LF ∉ bs

instance (bs : Bytes) : Decidable (OneLine bs) := inferInstanceAs (Decidable (_ ∧ _))

theorem oneLine_nil : OneLine [] := by simp [OneLine]

theorem oneLine_cons {b : UInt8} {bs : Bytes} : OneLine (b :: bs) ↔ (b ≠ CR ∧ b ≠ LF) ∧ OneLine bs := by
  simp only [OneLine, List.mem_cons, not_or]
  constructor
  · rintro ⟨⟨h₁, h₂⟩, h₃, h₄⟩
    exact ⟨⟨Ne.symm h₁, Ne.symm h₃⟩, h₂, h₄⟩
  · rintro ⟨⟨h₁, h₃⟩, h₂, h₄⟩
    exact ⟨⟨Ne.symm h₁, h₂⟩, Ne.symm h₃, h₄⟩

theorem oneLine_append {as bs : Bytes} : OneLine (as ++ bs) ↔ OneLine as ∧ OneLine bs := by
  simp only [OneLine, List.mem_append, not_or]
  constructor
  · rintro ⟨⟨h₁, h₂⟩, h₃, h₄⟩
    exact ⟨⟨h₁, h₃⟩, h₂, h₄⟩
  · rintro ⟨⟨h₁, h₃⟩, h₂, h₄⟩
    exact ⟨⟨h₁, h₂⟩, h₃, h₄⟩

/-- A text of printable characters is one line. -/
theorem oneLine_ascii {s : String} (h : ∀ c ∈ s.toList, 32 ≤ c.toNat ∧ c.toNat < 127) : OneLine (ascii s) := by
  have hne : ∀ x : UInt8, x.toNat < 32 → x ∉ ascii s := by
    intro x hx hm
    obtain ⟨c, hc, rfl⟩ := List.mem_map.mp hm
    have := h c hc
    rw [UInt8.toNat_ofNat_of_lt' (show c.toNat < 256 by omega)] at hx
    omega
  exact ⟨hne CR (by decide), hne LF (by decide)⟩

/-- Where a separator comes first, the texts before and after it are known. -/
theorem append_sep_inj {sep : UInt8} {l l' r r' : Bytes} (h : sep ∉ l) (h' : sep ∉ l')
    (e : l ++ sep :: r = l' ++ sep :: r') : l = l' ∧ r = r' := by
  induction l generalizing l' with
  | nil =>
    cases l' with
    | nil => exact ⟨rfl, (List.cons.inj e).2⟩
    | cons b l' => exact absurd (List.cons.inj e).1 (fun hb => h' (hb ▸ List.mem_cons_self))
  | cons b l ih =>
    cases l' with
    | nil => exact absurd (List.cons.inj e).1 (fun hb => h (hb ▸ List.mem_cons_self))
    | cons b' l' =>
      obtain ⟨rfl, e'⟩ := List.cons.inj e
      obtain ⟨rfl, hr⟩ := ih (fun hm => h (List.mem_cons_of_mem _ hm)) (fun hm => h' (List.mem_cons_of_mem _ hm)) e'
      exact ⟨rfl, hr⟩

/-! ## `splitlines` -/

theorem splitlines_cons {b : UInt8} (bs : Bytes) (h : b ≠ CR ∧ b ≠ LF) :
    splitlines (b :: bs) = consHead b (splitlines bs) := by
  cases bs with
  | nil => simp [splitlines, consHead, h]
  | cons c bs => simp [splitlines, h]

/-- A line at the front of a text. -/
theorem splitlines_append {line : Bytes} (h : OneLine line) (rest : Bytes) :
    splitlines (line ++ CR :: LF :: rest) = line :: splitlines rest := by
  induction line with
  | nil => simp [splitlines]
  | cons b line ih =>
    obtain ⟨hb, h⟩ := oneLine_cons.mp h
    rw [List.cons_append, splitlines_cons _ hb, ih h]
    rfl

/-- Lines at the front of a text. -/
theorem splitlines_flatMap {lines : List Bytes} (h : ∀ line ∈ lines, OneLine line) (rest : Bytes) :
    splitlines (lines.flatMap (· ++ [CR, LF]) ++ rest) = lines ++ splitlines rest := by
  induction lines with
  | nil => rfl
  | cons line lines ih =>
    obtain ⟨hl, h⟩ := List.forall_mem_cons.mp h
    rw [List.flatMap_cons, List.append_assoc, List.append_assoc]
    show splitlines (line ++ CR :: LF :: (lines.flatMap (· ++ [CR, LF]) ++ rest)) = _
    rw [splitlines_append hl, ih h, List.cons_append]

theorem flatten_consHead (b : UInt8) (ls : List Bytes) : (consHead b ls).flatten = b :: ls.flatten := by
  cases ls <;> simp [consHead]

/-- The lines of a text hold all of it but its line ends. -/
theorem flatten_splitlines (bs : Bytes) :
    (splitlines bs).flatten = bs.filter fun b => decide (b ≠ CR ∧ b ≠ LF) := by
  induction bs using splitlines.induct with
  | case1 => rfl
  | case2 b h =>
    rcases h with rfl | rfl <;> simp [splitlines]
  | case3 b h =>
    simp only [not_or] at h
    simp [splitlines, h]
  | case4 b c bs h ih =>
    obtain ⟨rfl, rfl⟩ := h
    simpa [splitlines] using ih
  | case5 b c bs h₁ h₂ ih =>
    rw [splitlines, if_neg h₁, if_pos h₂, List.flatten_cons, ih]
    rcases h₂ with rfl | rfl <;> simp
  | case6 b c bs h₁ h₂ ih =>
    rw [splitlines, if_neg h₁, if_neg h₂, flatten_consHead, ih]
    simp only [not_or] at h₂
    exact (List.filter_cons_of_pos (by simp [h₂.1, h₂.2])).symm

/-- A text that no line ends in is its lines put together, and no more than one. -/
theorem splitlines_oneLine {bs : Bytes} (h : OneLine bs) : splitlines bs = if bs = [] then [] else [bs] := by
  induction bs with
  | nil => rfl
  | cons b bs ih =>
    obtain ⟨hb, h⟩ := oneLine_cons.mp h
    rw [splitlines_cons _ hb, ih h]
    split
    · rename_i hbs
      subst hbs
      rfl
    · rfl

/-- What is left of the lines of a text is the text only if it was a single line. -/
theorem flatten_eq_iff {bs rest : Bytes} (h : rest <:+ (splitlines bs).flatten) (he : rest = bs) : OneLine bs := by
  subst he
  rw [flatten_splitlines] at h
  have hlen : (rest.filter fun b => decide (b ≠ CR ∧ b ≠ LF)).length = rest.length :=
    Nat.le_antisymm (List.length_filter_le _ _) h.length_le
  have hall := List.length_filter_eq_length_iff.mp hlen
  simp only [decide_eq_true_eq] at hall
  exact ⟨fun hm => (hall _ hm).1 rfl, fun hm => (hall _ hm).2 rfl⟩

/-! ## `split`, `strip` and `join` -/

theorem split_append {sep : UInt8} {l : Bytes} (h : sep ∉ l) (rest : Bytes) :
    split sep (l ++ sep :: rest) = l :: split sep rest := by
  induction l with
  | nil => simp [split]
  | cons b l ih =>
    simp only [List.mem_cons, not_or] at h
    rw [List.cons_append, split, if_neg (Ne.symm h.1), ih h.2]
    rfl

theorem split_of_not_mem {sep : UInt8} {l : Bytes} (h : sep ∉ l) : split sep l = [l] := by
  induction l with
  | nil => rfl
  | cons b l ih =>
    simp only [List.mem_cons, not_or] at h
    rw [split, if_neg (Ne.symm h.1), ih h.2]
    rfl

theorem split1_append {sep : UInt8} {l : Bytes} (h : sep ∉ l) (rest : Bytes) :
    split1 sep (l ++ sep :: rest) = some (l, rest) := by
  induction l with
  | nil => simp [split1]
  | cons b l ih =>
    simp only [List.mem_cons, not_or] at h
    rw [List.cons_append, split1, if_neg (Ne.symm h.1), ih h.2]
    rfl

theorem split1_eq_none {sep : UInt8} {l : Bytes} : split1 sep l = none ↔ sep ∉ l := by
  induction l with
  | nil => simp [split1]
  | cons b l ih =>
    by_cases hb : b = sep
    · simp [split1, hb]
    · simp [split1, hb, ih, Ne.symm hb]

/-- Neither end is whitespace. -/
def Trimmed (bs : Bytes) : Prop := (∀ b ∈ bs.head?, isSpace b = false) ∧ ∀ b ∈ bs.getLast?, isSpace b = false

instance (bs : Bytes) : Decidable (Trimmed bs) :=
  decidable_of_iff (bs.head?.all (fun b => !isSpace b) = true ∧ bs.getLast?.all (fun b => !isSpace b) = true)
    (by simp [Trimmed, Option.all_eq_true])

theorem strip_of_trimmed {bs : Bytes} (h : Trimmed bs) : strip bs = bs := by
  have hdrop : ∀ bs : Bytes, (∀ b ∈ bs.head?, isSpace b = false) → bs.dropWhile isSpace = bs := by
    intro bs h
    cases bs with
    | nil => rfl
    | cons b bs => simp [h b rfl]
  rw [strip, hdrop bs h.1, hdrop bs.reverse (by rw [List.head?_reverse]; exact h.2), List.reverse_reverse]

theorem strip_cons {b : UInt8} (h : isSpace b = true) (bs : Bytes) : strip (b :: bs) = strip bs := by
  rw [strip, List.dropWhile_cons_of_pos h, ← strip]

/-- Whitespace around a text that is trimmed. -/
theorem strip_padded {left bs right : Bytes} (hl : ∀ b ∈ left, isSpace b = true) (h : Trimmed bs)
    (hr : ∀ b ∈ right, isSpace b = true) : strip (left ++ bs ++ right) = bs := by
  rw [List.append_assoc, strip, List.dropWhile_append_of_pos hl]
  cases bs with
  | nil => simp [List.dropWhile_eq_nil_iff.mpr hr]
  | cons b bs =>
    have hright : ∀ b ∈ right.reverse, isSpace b = true := fun b hb => hr b (List.mem_reverse.mp hb)
    have hb : isSpace b = false := h.1 b rfl
    have hbs := strip_of_trimmed h
    rw [strip, List.dropWhile_cons_of_neg (by simp [hb])] at hbs
    rw [List.cons_append, List.dropWhile_cons_of_neg (by simp [hb]), ← List.cons_append, List.reverse_append,
      List.dropWhile_append_of_pos hright, hbs]

/-- Stripping a text strips what is before a byte of it that is no whitespace, and what is after it. -/
theorem strip_append_cons {b : UInt8} (hb : isSpace b = false) (l r : Bytes) :
    strip (l ++ b :: r) = l.dropWhile isSpace ++ b :: (r.reverse.dropWhile isSpace).reverse := by
  have hdrop : ∀ l r : Bytes, (l ++ b :: r).dropWhile isSpace = l.dropWhile isSpace ++ b :: r := by
    intro l r
    induction l with
    | nil => simp [hb]
    | cons c l ih => by_cases hc : isSpace c = true <;> simp [hc, ih]
  rw [strip, hdrop, List.reverse_append, List.reverse_cons, List.append_assoc, List.singleton_append, hdrop]
  simp

theorem strip_dropWhile (bs : Bytes) : strip (bs.dropWhile isSpace) = strip bs := by
  rw [strip, strip, List.dropWhile_idempotent]

/-- What is not all whitespace leaves something. -/
theorem strip_ne_nil {bs : Bytes} {b : UInt8} (hb : b ∈ bs) (h : isSpace b = false) : strip bs ≠ [] := by
  have hdrop : ∀ bs : Bytes, b ∈ bs → b ∈ bs.dropWhile isSpace := by
    intro bs hb
    rw [← List.takeWhile_append_dropWhile (p := isSpace) (l := bs), List.mem_append] at hb
    refine hb.resolve_left fun hb => ?_
    rw [List.mem_takeWhile_imp hb] at h
    cases h
  have hmem := hdrop _ (List.mem_reverse.mpr (hdrop bs hb))
  exact List.ne_nil_of_mem (List.mem_reverse.mpr hmem)

theorem strip_of_no_space {bs : Bytes} (h : ∀ b ∈ bs, isSpace b = false) : strip bs = bs :=
  strip_of_trimmed ⟨fun b hb => h b (List.mem_of_mem_head? hb), fun b hb => h b (List.mem_of_getLast? hb)⟩

/-- What no space is in is part of one line. -/
theorem oneLine_of_no_space {bs : Bytes} (h : ∀ b ∈ bs, isSpace b = false) : OneLine bs :=
  ⟨fun hm => absurd (h _ hm) (by decide), fun hm => absurd (h _ hm) (by decide)⟩

theorem contains_iff {sub bs : Bytes} : contains sub bs = true ↔ sub <:+: bs := by
  induction bs with
  | nil => simp [contains]
  | cons b bs ih => simp [contains, ih, List.infix_cons_iff]

/-! ## Where the pieces of a text are -/

/-- `ls` are parts of `bs`, the first of them at its front. -/
def Pieces (bs : Bytes) (ls : List Bytes) : Prop := (∀ l ∈ ls.head?, l <+: bs) ∧ ∀ l ∈ ls, l <:+: bs

theorem Pieces.cons {bs : Bytes} {ls : List Bytes} (h : Pieces bs ls) (b : UInt8) : Pieces (b :: bs) ([] :: ls) := by
  refine ⟨by simp, fun l hl => ?_⟩
  rcases List.mem_cons.mp hl with rfl | hl
  · exact List.nil_infix
  · exact List.infix_cons (h.2 l hl)

theorem Pieces.consHead {bs : Bytes} {ls : List Bytes} (h : Pieces bs ls) (b : UInt8) :
    Pieces (b :: bs) (Bytes.consHead b ls) := by
  have hfront : ∀ l ∈ (Bytes.consHead b ls).head?, l <+: b :: bs := by
    cases ls with
    | nil => simp [Bytes.consHead]
    | cons l ls => simpa [Bytes.consHead] using h.1
  refine ⟨hfront, fun l hl => ?_⟩
  cases ls with
  | nil =>
    obtain rfl := List.mem_singleton.mp hl
    exact (hfront _ rfl).isInfix
  | cons l' ls =>
    rcases List.mem_cons.mp hl with rfl | hl
    · exact (hfront _ rfl).isInfix
    · exact List.infix_cons (h.2 l (List.mem_cons_of_mem _ hl))

theorem split_pieces (sep : UInt8) (bs : Bytes) : Pieces bs (split sep bs) := by
  induction bs with
  | nil => simp [split, Pieces]
  | cons b bs ih =>
    simp only [split]
    split
    · exact ih.cons b
    · exact ih.consHead b

theorem splitlines_pieces (bs : Bytes) : Pieces bs (splitlines bs) := by
  induction bs using splitlines.induct with
  | case1 => simp [splitlines, Pieces]
  | case2 b h => simp [splitlines, h, Pieces]
  | case3 b h => simp [splitlines, h, Pieces]
  | case4 b c bs h ih =>
    rw [splitlines, if_pos h]
    refine ⟨by simp, fun l hl => ?_⟩
    rcases List.mem_cons.mp hl with rfl | hl
    · exact List.nil_infix
    · exact List.infix_cons (List.infix_cons (ih.2 l hl))
  | case5 b c bs h₁ h₂ ih =>
    rw [splitlines, if_neg h₁, if_pos h₂]
    exact ih.cons b
  | case6 b c bs h₁ h₂ ih =>
    rw [splitlines, if_neg h₁, if_neg h₂]
    exact ih.consHead b

/-- Lines joined by CRLF, and one more CRLF. -/
theorem join_append (sep : Bytes) {ls : List Bytes} (h : ls ≠ []) : join sep ls ++ sep = ls.flatMap (· ++ sep) := by
  induction ls with
  | nil => exact absurd rfl h
  | cons l ls ih =>
    cases ls with
    | nil => simp [join]
    | cons l' ls =>
      rw [List.flatMap_cons, ← ih (List.cons_ne_nil _ _), join, join, List.intercalate_cons_cons]
      simp only [List.append_assoc]

theorem length_flatMap_sublist {sep : Bytes} (hsep : sep ≠ []) {ls ls' : List Bytes} (h : ls'.Sublist ls) :
    (ls'.flatMap (· ++ sep)).length + ls.length ≤ (ls.flatMap (· ++ sep)).length + ls'.length := by
  have hlength := List.length_pos_iff.mpr hsep
  induction h with
  | slnil => rfl
  | cons l _ ih | cons_cons l _ ih =>
    simp only [List.flatMap_cons, List.length_append, List.length_cons]
    omega

/-- No line of a text can be left out unseen, unless there are no lines but empty ones. -/
theorem join_sublist_inj {sep : Bytes} (hsep : sep ≠ []) {ls ls' : List Bytes} (h : ls'.Sublist ls)
    (hne : ls ≠ [] → ∃ l ∈ ls, l ≠ []) : join sep ls' = join sep ls ↔ ls' = ls := by
  refine ⟨fun heq => ?_, congrArg _⟩
  by_cases hnil : ls = []
  · rwa [hnil, List.sublist_nil, ← hnil] at h
  obtain ⟨l, hl, hlne⟩ := hne hnil
  have hnonempty : ls' ≠ [] := by
    rintro rfl
    have happend := join_append sep hnil
    rw [← heq] at happend
    have hlength := congrArg List.length happend
    have hle := (List.sublist_flatten_of_mem (List.mem_map_of_mem hl : l ++ sep ∈ ls.map (· ++ sep))).length_le
    have hpos := List.length_pos_iff.mpr hlne
    simp only [join, List.intercalate_nil, List.nil_append, List.length_append, List.flatMap_def] at hlength hle
    omega
  have hflat := join_append sep hnonempty
  rw [heq, join_append sep hnil] at hflat
  have hlength := length_flatMap_sublist hsep h
  rw [hflat] at hlength
  exact h.eq_of_length (by have := h.length_le; omega)

/-! ## Case -/

/-- Bytes before the letters are neither in upper case nor in lower case. -/
theorem lowerByte_eq {b x : UInt8} (hx : x.toNat < 65) (h : lowerByte b = x) : b = x := by
  unfold lowerByte at h
  split at h
  · rename_i hb
    simp only [Bool.and_eq_true, decide_eq_true_eq, UInt8.le_iff_toNat_le] at hb
    have h₁ : 65 ≤ b.toNat := hb.1
    have h₂ : b.toNat ≤ 90 := hb.2
    have hsum : (b + 32).toNat = b.toNat + 32 := by
      rw [UInt8.toNat_add]
      exact Nat.mod_eq_of_lt (show b.toNat + 32 < 256 by omega)
    rw [← h, hsum] at hx
    omega
  · exact h

theorem upperByte_eq {b x : UInt8} (hx : x.toNat < 65) (h : upperByte b = x) : b = x := by
  unfold upperByte at h
  split at h
  · rename_i hb
    simp only [Bool.and_eq_true, decide_eq_true_eq, UInt8.le_iff_toNat_le] at hb
    have h₁ : 97 ≤ b.toNat := hb.1
    have hsub : (b - 32).toNat = b.toNat - 32 := UInt8.toNat_sub_of_le _ _ (UInt8.le_iff_toNat_le.mpr (show 32 ≤ b.toNat by omega))
    rw [← h, hsub] at hx
    omega
  · exact h

/-- Capitalizing changes no byte before the letters. -/
theorem mem_capitalize {bs : Bytes} {x : UInt8} (hx : x.toNat < 65) (h : x ∈ capitalize bs) : x ∈ bs := by
  cases bs with
  | nil => exact h
  | cons b bs =>
    rcases List.mem_cons.mp h with h | h
    · exact List.mem_cons.mpr (.inl (upperByte_eq hx h.symm).symm)
    · obtain ⟨b', hb, e⟩ := List.mem_map.mp h
      exact List.mem_cons_of_mem _ (lowerByte_eq hx e ▸ hb)

theorem lowerByte_lowerByte (b : UInt8) : lowerByte (lowerByte b) = lowerByte b := by
  unfold lowerByte
  grind

theorem lower_lower (bs : Bytes) : lower (lower bs) = lower bs := by
  rw [lower, lower, List.map_map]
  exact List.map_congr_left fun b _ => lowerByte_lowerByte b

theorem lowerByte_upperByte (b : UInt8) : lowerByte (upperByte b) = lowerByte b := by
  unfold lowerByte upperByte
  grind

theorem lower_capitalize (bs : Bytes) : lower (capitalize bs) = lower bs := by
  cases bs with
  | nil => rfl
  | cons b bs =>
    simp only [capitalize, lower, List.map_cons, List.map_map, lowerByte_upperByte]
    exact congrArg _ (List.map_congr_left fun b _ => lowerByte_lowerByte b)

/-! ## Decimal digits -/

theorem toNat_of_mem_toDigits {n : Nat} {c : Char} (h : c ∈ Nat.toDigits 10 n) :
    (48 ≤ c.toNat ∧ c.toNat ≤ 57) ∧ (UInt8.ofNat c.toNat).toNat = c.toNat := by
  have hd : c.isDigit = true := Nat.isDigit_of_mem_toDigits (by decide) (by decide) h
  simp only [Char.isDigit, Bool.and_eq_true, decide_eq_true_eq, UInt32.le_iff_toNat_le] at hd
  have h₁ : 48 ≤ c.toNat := hd.1
  have h₂ : c.toNat ≤ 57 := hd.2
  exact ⟨⟨h₁, h₂⟩, UInt8.toNat_ofNat_of_lt' (show c.toNat < 256 by omega)⟩

theorem mem_decimal {n : Nat} {b : UInt8} (h : b ∈ decimal n) : 48 ≤ b.toNat ∧ b.toNat ≤ 57 := by
  obtain ⟨c, hc, rfl⟩ := List.mem_map.mp h
  obtain ⟨hd, hb⟩ := toNat_of_mem_toDigits hc
  rwa [hb]

theorem decimal_no_space (n : Nat) : ∀ b ∈ decimal n, isSpace b = false := by
  intro b hb
  have := mem_decimal hb
  simp only [isSpace, Bool.or_eq_false_iff, beq_eq_false_iff_ne, Bool.and_eq_false_imp, decide_eq_true_eq,
    decide_eq_false_iff_not, UInt8.le_iff_toNat_le, ne_eq, ← UInt8.toNat_inj]
  exact ⟨fun h => absurd h (by simp; omega), fun _ => by simp; omega⟩

/-- Numbers are told apart by their digits. -/
theorem decimal_injective {m n : Nat} (h : decimal m = decimal n) : m = n := by
  have hdigits : ∀ n, (decimal n).map (fun b => Char.ofNat b.toNat) = Nat.toDigits 10 n := by
    intro n
    rw [decimal, List.map_map]
    refine (List.map_congr_left fun c hc => ?_).trans (List.map_id _)
    show Char.ofNat (UInt8.ofNat c.toNat).toNat = c
    rw [(toNat_of_mem_toDigits hc).2, Char.ofNat_toNat]
  have hd := (hdigits m).symm.trans ((congrArg _ h).trans (hdigits n))
  rw [← Nat.ofDigitChars_ten_toDigits (n := m), hd, Nat.ofDigitChars_ten_toDigits]

end Levin.Framework.Bytes
