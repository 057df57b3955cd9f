import Bikaya.Core.System

/-!
# Bikaya: values to strings

The conversions of `terminal.c`, as they work on the memory.  An address is an integer,
an array of digits is the list of its entries, the final NUL included, and a read
outside the array is a fault.  An `int` and an `unsigned int` are the same 32 bits; only
the division distinguishes them.

The loops take a bound on their number of rounds.
-/

namespace Bikaya

/-- The characters of the memory, by address. -/
abbrev Chars := ℤ → Char

/-- The end of a string. -/
abbrev EOS : Char := Char.ofNat 0

/-- The string literal `"0123456789"`. -/
def decimalDigits : List Char :=
  ['0', '1', '2', '3', '4', '5', '6', '7', '8', '9', EOS]

/-- The string literal `"01"`. -/
def binaryDigits : List Char :=
  ['0', '1', EOS]

/-- `digit[index]`. -/
def digitAt (digit : List Char) (index : ℤ) : Except Halt Char :=
  if index < 0 then
    .error .fault
  else
    match digit[index.toNat]? with
    | none => .error .fault
    | some c => .ok c

/--
The quotient and the remainder of two values of type `unsigned int`, the remainder as the
index it is used for.  A division by 0 is a fault.
-/
def unsignedDivide (i base : Word) : Except Halt (Word × ℤ) :=
  if base = 0 then .error .fault else .ok (i / base, (i % base).toNat)

/--
The same for two values of type `int`: the quotient is rounded towards 0, and the remainder
has the sign of the dividend.
-/
def signedDivide (i base : Word) : Except Halt (Word × ℤ) :=
  if base = 0 then .error .fault else .ok (i.sdiv base, (i.srem base).toInt)

/-- The first loop of the conversions: to the end of the representation. -/
def moveToEnd (base : Word) : Nat → Word → ℤ → Except Halt ℤ
  | 0, _, _ => .error .fuel
  | fuel + 1, shifter, p => do
      let (shifter, _) ← unsignedDivide shifter base
      if shifter = 0 then return p + 1 else moveToEnd base fuel shifter (p + 1)

/-- The second loop: back from the end, inserting digits. -/
def moveBack
    (divide : Word → Word → Except Halt (Word × ℤ)) (digit : List Char) (base : Word) :
    Nat → Chars → Word → ℤ → Except Halt Chars
  | 0, _, _, _ => .error .fuel
  | fuel + 1, m, i, p => do
      let (quotient, index) ← divide i base
      let c ← digitAt digit index
      let m := Function.update m (p - 1) c
      if quotient = 0 then return m else moveBack divide digit base fuel m quotient (p - 1)

/-- The body that `num_to_str_buf` and `unum_to_str_buf` share, for the division of their `i`. -/
def toStrBuf
    (divide : Word → Word → Except Halt (Word × ℤ)) (fuel : Nat) (m : Chars) (i : Word)
    (digit : List Char) (base : Word) (b : ℤ) :
    Except Halt (ℤ × Chars) := do
  let p ← moveToEnd base fuel i b
  let m ← moveBack divide digit base fuel m i p
  return (p, m)

/-- `num_to_str_buf`: the pointer behind the last digit, and the memory. -/
def numToStrBuf
    (fuel : Nat) (m : Chars) (i : Word) (digit : List Char) (base : Word) (b : ℤ) :
    Except Halt (ℤ × Chars) :=
  toStrBuf signedDivide fuel m i digit base b

/-- `unum_to_str_buf`. -/
def unumToStrBuf
    (fuel : Nat) (m : Chars) (i : Word) (digit : List Char) (base : Word) (b : ℤ) :
    Except Halt (ℤ × Chars) :=
  toStrBuf unsignedDivide fuel m i digit base b

/-- The body that `int_to_str` and `int_to_str_binary` share; `i *= -1` wraps around. -/
def signedToStr
    (digit : List Char) (base : Word) (fuel : Nat) (m : Chars) (i : Word) (b : ℤ) :
    Except Halt (ℤ × Chars) := do
  let (p, m, i) :=
    if i.toInt < 0 then (b + 1, Function.update m b '-', i * -1) else (b, m, i)
  let (p, m) ← numToStrBuf fuel m i digit base p
  return (b, Function.update m p EOS)

/-- `int_to_str`. -/
def intToStr (fuel : Nat) (m : Chars) (i : Word) (b : ℤ) : Except Halt (ℤ × Chars) :=
  signedToStr decimalDigits 10 fuel m i b

/-- `int_to_str_binary`. -/
def intToStrBinary (fuel : Nat) (m : Chars) (i : Word) (b : ℤ) : Except Halt (ℤ × Chars) :=
  signedToStr binaryDigits 2 fuel m i b

/-- `uint_to_str`. -/
def uintToStr (fuel : Nat) (m : Chars) (i : Word) (b : ℤ) : Except Halt (ℤ × Chars) := do
  let (p, m) ← unumToStrBuf fuel m i decimalDigits 10 b
  return (b, Function.update m p EOS)

end Bikaya
