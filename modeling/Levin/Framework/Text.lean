import Levin.Framework.Bytes
import Mathlib.Data.List.Basic

/-!
# Text and its encodings

Python's `str` as a list of code points, surrogates among them, and the encodings
UTF-8 and ISO-8859-1. ASCII text is the same in both (`encodeUtf8_ascii`); of any
other text, ISO-8859-1 makes something longer than it was (`latin1_encodeUtf8`).
-/

namespace Levin.Framework

/-- Code points. -/
abbrev Text := List Nat

namespace Text

/-- A code point in UTF-8; `none` for a surrogate. -/
def encodeChar (c : Nat) : Option Bytes :=
  if c < 0x80 then some [UInt8.ofNat c]
  else if c < 0x800 then some [UInt8.ofNat (0xC0 + c / 64), UInt8.ofNat (0x80 + c % 64)]
  else if 0xD800 ≤ c ∧ c < 0xE000 then none
  else if c < 0x10000 then
    some [UInt8.ofNat (0xE0 + c / 4096), UInt8.ofNat (0x80 + c / 64 % 64), UInt8.ofNat (0x80 + c % 64)]
  else if c < 0x110000 then
    some [UInt8.ofNat (0xF0 + c / 262144), UInt8.ofNat (0x80 + c / 4096 % 64), UInt8.ofNat (0x80 + c / 64 % 64),
      UInt8.ofNat (0x80 + c % 64)]
  else none

/-- `text.encode()`; `none` is a `UnicodeEncodeError`. -/
def encodeUtf8 : Text → Option Bytes
  | [] => some []
  | c :: text =>
    match encodeChar c, encodeUtf8 text with
    | some bs, some rest => some (bs ++ rest)
    | _, _ => none

/-- `data.decode("iso-8859-1")` -/
def decodeLatin1 (data : Bytes) : Text := data.map UInt8.toNat

/-- What the first byte of a character says: how many bytes follow, its bits, and the bounds of the next byte. -/
def firstByte (b : Nat) : Option (Nat × Nat × Nat × Nat) :=
  if b < 0x80 then some (0, b, 0, 0)
  else if 0xC2 ≤ b ∧ b ≤ 0xDF then some (1, b - 0xC0, 0x80, 0xBF)
  else if b = 0xE0 then some (2, 0, 0xA0, 0xBF)
  else if b = 0xED then some (2, 0xD, 0x80, 0x9F)
  else if 0xE1 ≤ b ∧ b ≤ 0xEF then some (2, b - 0xE0, 0x80, 0xBF)
  else if b = 0xF0 then some (3, 0, 0x90, 0xBF)
  else if 0xF1 ≤ b ∧ b ≤ 0xF3 then some (3, b - 0xF0, 0x80, 0xBF)
  else if b = 0xF4 then some (3, 4, 0x80, 0x8F)
  else none

/-- `data.decode()` in the middle of a character: the bytes that follow, the bits so far, the bounds of the next byte. -/
def decodeUtf8From : Nat × Nat × Nat × Nat → Bytes → Option Text
  | (0, _, _, _), [] => some []
  | (_ + 1, _, _, _), [] => none
  | (0, _, _, _), b :: data =>
    match firstByte b.toNat with
    | none => none
    | some (0, code, _, _) => (decodeUtf8From (0, 0, 0, 0) data).map fun text => code :: text
    | some (n + 1, code, low, high) => decodeUtf8From (n + 1, code, low, high) data
  | (n + 1, code, low, high), b :: data =>
    if low ≤ b.toNat ∧ b.toNat ≤ high then
      let code := code * 64 + (b.toNat - 0x80)
      if n = 0 then (decodeUtf8From (0, 0, 0, 0) data).map fun text => code :: text
      else decodeUtf8From (n, code, 0x80, 0xBF) data
    else none

/-- `data.decode()`; `none` is a `UnicodeDecodeError`. -/
def decodeUtf8 (data : Bytes) : Option Text := decodeUtf8From (0, 0, 0, 0) data

/-- What ends a line for `splitlines`. -/
def isLineEnd (c : Nat) : Bool :=
  (10 ≤ c && c ≤ 13) || (0x1C ≤ c && c ≤ 0x1E) || c == 0x85 || c == 0x2028 || c == 0x2029

def consHead (c : Nat) : List Text → List Text
  | [] => [[c]]
  | line :: lines => (c :: line) :: lines

/-- `text.splitlines()` -/
def splitlines : Text → List Text
  | [] => []
  | [c] => if isLineEnd c then [[]] else [[c]]
  | c :: c' :: text =>
    if c = 13 ∧ c' = 10 then [] :: splitlines text
    else if isLineEnd c then [] :: splitlines (c' :: text)
    else consHead c (splitlines (c' :: text))

/-- `c.isspace()` -/
def isSpace (c : Nat) : Bool :=
  (9 ≤ c && c ≤ 13) || (0x1C ≤ c && c ≤ 0x20) || c == 0x85 || c == 0xA0 || c == 0x1680 || (0x2000 ≤ c && c ≤ 0x200A) ||
    c == 0x2028 || c == 0x2029 || c == 0x202F || c == 0x205F || c == 0x3000

/-- `not text.strip()` -/
def isBlank (text : Text) : Bool := text.all isSpace

def IsAscii (text : Text) : Prop := ∀ c ∈ text, c < 0x80

instance (text : Text) : Decidable (IsAscii text) := inferInstanceAs (Decidable (∀ c ∈ text, c < 0x80))

/-- ASCII bytes are text. -/
theorem decodeUtf8_ascii {data : Bytes} (h : ∀ b ∈ data, b.toNat < 0x80) : decodeUtf8 data = some (data.map UInt8.toNat) := by
  rw [decodeUtf8]
  induction data with
  | nil => rfl
  | cons b data ih =>
    have hb : firstByte b.toNat = some (0, b.toNat, 0, 0) := if_pos (h b List.mem_cons_self)
    rw [decodeUtf8From, hb]
    simp only [ih fun c hc => h c (List.mem_cons_of_mem _ hc), Option.map_some, List.map_cons]

/-! ## UTF-8 read as ISO-8859-1 -/

theorem encodeChar_ascii {c : Nat} (h : c < 0x80) : encodeChar c = some [UInt8.ofNat c] := if_pos h

/-- A character takes a byte, and more than one if it is not ASCII. -/
theorem length_encodeChar {c : Nat} {data : Bytes} (h : encodeChar c = some data) :
    0 < data.length ∧ (0x80 ≤ c → 1 < data.length) := by
  unfold encodeChar at h
  split at h
  · next hc =>
    obtain rfl := Option.some.inj h
    exact ⟨Nat.one_pos, fun hle => absurd hc (by omega)⟩
  · have hlong : 1 < data.length := by
      split at h
      · obtain rfl := Option.some.inj h
        exact (by decide : 1 < 2)
      · split at h
        · cases h
        · split at h
          · obtain rfl := Option.some.inj h
            exact (by decide : 1 < 3)
          · split at h
            · obtain rfl := Option.some.inj h
              exact (by decide : 1 < 4)
            · cases h
    exact ⟨by omega, fun _ => hlong⟩

theorem encodeUtf8_cons {c : Nat} {text : Text} {data : Bytes} (h : encodeUtf8 (c :: text) = some data) :
    ∃ head tail, encodeChar c = some head ∧ encodeUtf8 text = some tail ∧ data = head ++ tail := by
  rw [encodeUtf8] at h
  cases hc : encodeChar c with
  | none => simp [hc] at h
  | some head =>
    cases ht : encodeUtf8 text with
    | none => simp [hc, ht] at h
    | some tail =>
      simp only [hc, ht, Option.some.injEq] at h
      exact ⟨head, tail, rfl, rfl, h.symm⟩

/-- ASCII text is its own UTF-8. -/
theorem encodeUtf8_ascii {text : Text} (h : IsAscii text) : encodeUtf8 text = some (text.map UInt8.ofNat) := by
  induction text with
  | nil => rfl
  | cons c text ih =>
    rw [encodeUtf8, encodeChar_ascii (h c List.mem_cons_self), ih fun d hd => h d (List.mem_cons_of_mem _ hd)]
    rfl

theorem length_encodeUtf8 {text : Text} {data : Bytes} (h : encodeUtf8 text = some data) :
    text.length ≤ data.length ∧ (¬ IsAscii text → text.length < data.length) := by
  induction text generalizing data with
  | nil => exact ⟨Nat.zero_le _, fun hn => absurd (fun c hc => absurd hc List.not_mem_nil) hn⟩
  | cons c text ih =>
    obtain ⟨head, tail, hc, ht, rfl⟩ := encodeUtf8_cons h
    obtain ⟨hpos, hlong⟩ := length_encodeChar hc
    obtain ⟨hle, hlt⟩ := ih ht
    rw [List.length_append, List.length_cons]
    refine ⟨by omega, fun hn => ?_⟩
    by_cases hascii : c < 0x80
    · have htext : ¬ IsAscii text := fun hall => hn (List.forall_mem_cons.mpr ⟨hascii, hall⟩)
      have hlt := hlt htext
      omega
    · have hlong := hlong (by omega)
      omega

/-- Only ASCII text comes back if its UTF-8 is read as ISO-8859-1. -/
theorem latin1_encodeUtf8 {text : Text} {data : Bytes} (h : encodeUtf8 text = some data) :
    decodeLatin1 data = text ↔ IsAscii text := by
  constructor
  · intro hback
    by_contra hascii
    have hlt := (length_encodeUtf8 h).2 hascii
    rw [← hback, decodeLatin1, List.length_map] at hlt
    omega
  · intro hascii
    rw [encodeUtf8_ascii hascii] at h
    obtain rfl := Option.some.inj h
    rw [decodeLatin1, List.map_map]
    refine (List.map_congr_left fun c hc => ?_).trans (List.map_id text)
    have hc := hascii c hc
    show (UInt8.ofNat c).toNat = c
    rw [UInt8.toNat_ofNat']
    exact Nat.mod_eq_of_lt (by omega)

end Text

end Levin.Framework
