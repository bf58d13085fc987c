/-!
# Byte strings

Python's `bytes` as lists of bytes, with the methods a text protocol needs:
`splitlines`, `split`, `strip`, `lower`, `capitalize`, `join`, `in`, and the
decimal digits `str(n)` gives. `bytes` methods know ASCII only.
-/

namespace Levin.Framework

abbrev Bytes := List UInt8

namespace Bytes

/-- The bytes of an ASCII text. -/
def ascii (s : String) : Bytes := s.toList.map fun c => UInt8.ofNat c.toNat

/-- `\n` -/
def LF : UInt8 := 10

/-- `\r` -/
def CR : UInt8 := 13

/-- Puts `b` in front of the first of `ls`, or alone if there is none. -/
def consHead (b : UInt8) : List Bytes → List Bytes
  | [] => [[b]]
  | l :: ls => (b :: l) :: ls

/-- `data.splitlines()`: a line ends at `\n`, `\r` or `\r\n`; nothing follows the last end. -/
def splitlines : Bytes → List Bytes
  | [] => []
  | [b] => if b = LF ∨ b = CR then [[]] else [[b]]
  | b :: c :: bs =>
    if b = CR ∧ c = LF then [] :: splitlines bs
    else if b = LF ∨ b = CR then [] :: splitlines (c :: bs)
    else consHead b (splitlines (c :: bs))

/-- `data.split(sep)`, for a separator of one byte. -/
def split (sep : UInt8) : Bytes → List Bytes
  | [] => [[]]
  | b :: bs => if b = sep then [] :: split sep bs else consHead b (split sep bs)

/-- `name, value = data.split(sep, 1)`; `none` if `sep` does not occur. -/
def split1 (sep : UInt8) : Bytes → Option (Bytes × Bytes)
  | [] => none
  | b :: bs => if b = sep then some ([], bs) else (split1 sep bs).map fun (l, r) => (b :: l, r)

/-- ASCII whitespace: space, `\t`, `\n`, `\v`, `\f`, `\r`. -/
def isSpace (b : UInt8) : Bool := b == 32 || (9 ≤ b && b ≤ 13)

/-- `data.strip()` -/
def strip (bs : Bytes) : Bytes := ((bs.dropWhile isSpace).reverse.dropWhile isSpace).reverse

/-- `sub in data` -/
def contains (sub : Bytes) : Bytes → Bool
  | [] => sub.isEmpty
  | b :: bs => sub.isPrefixOf (b :: bs) || contains sub bs

def lowerByte (b : UInt8) : UInt8 := if 65 ≤ b && b ≤ 90 then b + 32 else b

def upperByte (b : UInt8) : UInt8 := if 97 ≤ b && b ≤ 122 then b - 32 else b

/-- `data.lower()` -/
def lower (bs : Bytes) : Bytes := bs.map lowerByte

/-- `data.capitalize()`: the first byte in upper case, the others in lower case. -/
def capitalize : Bytes → Bytes
  | [] => []
  | b :: bs => upperByte b :: lower bs

/-- `sep.join(parts)` -/
def join (sep : Bytes) (parts : List Bytes) : Bytes := List.intercalate sep parts

/-- `str(n).encode()` -/
def decimal (n : Nat) : Bytes := (Nat.toDigits 10 n).map fun c => UInt8.ofNat c.toNat

example : splitlines (ascii "a\r\n\nbc\r") = [ascii "a", [], ascii "bc"] := by decide

example : split1 58 (ascii "host: a:b") = some (ascii "host", ascii " a:b") := by decide

end Bytes

end Levin.Framework
