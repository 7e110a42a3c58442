/-!
Numbers as text, and the ranges of whole numbers. A decimal is a whole mantissa scaled by a
power of ten; it is finite when rounding it to a double-precision number does not overflow.
-/

namespace GuidedDataflow

def digitValue (c : Char) : Nat := c.toNat - '0'.toNat

/-- The value of decimal digits, most significant first. -/
def natOfDigits (digits : List Char) : Nat := digits.foldl (fun n c => 10 * n + digitValue c) 0

/-- The leading digits and what follows them. -/
def spanDigits (cs : List Char) : List Char × List Char := cs.span Char.isDigit

/-- The greatest whole number of 32 bits. -/
def maxShortUnsigned : Nat := 0xFFFFFFFF

/-- The greatest whole number of 64 bits. -/
def maxUnsigned : Nat := 0xFFFFFFFFFFFFFFFF

/-- The size of the least signed number of 64 bits. -/
def maxNegative : Nat := 0x8000000000000000

/-- The greatest whole number of 128 bits. -/
def maxWideUnsigned : Nat := 0xFFFFFFFFFFFFFFFFFFFFFFFFFFFFFFFF

/-- The size of the least signed number of 128 bits. -/
def maxWideNegative : Nat := 0x80000000000000000000000000000000

structure Decimal where
  mantissa : Nat
  exponent : Int
deriving DecidableEq, Inhabited, Repr

namespace Decimal

/-- Half a unit above the greatest double: the least number that rounds to infinity. -/
def overflowBound : Nat := Nat.pow 2 1024 - Nat.pow 2 970

/-- Whether the number is below the overflow bound. The count of digits decides, except at
the bound's own count, where the numbers are compared. -/
def isFinite (d : Decimal) : Bool :=
  let count : Int := (Nat.toDigits 10 d.mantissa).length + d.exponent
  d.mantissa = 0 || count < 309 ||
    (count = 309 &&
      d.mantissa * Nat.pow 10 d.exponent.toNat < overflowBound * Nat.pow 10 (-d.exponent).toNat)

/-- Reads digits, which must be there if `needed`, an optional fraction and an optional
exponent. `bareDot` allows a point without digits on one side. The flag says whether the
text has a fraction or an exponent. -/
def scan? (bareDot : Bool) (cs : List Char) : Option (Decimal × Bool × List Char) :=
  let (whole, rest) := spanDigits cs
  let (fraction, dotted, rest) :=
    match rest with
    | '.' :: after =>
      let (fraction, rest) := spanDigits after
      (fraction, true, rest)
    | _ => ([], false, rest)
  if whole.isEmpty && fraction.isEmpty then none
  else if dotted && !bareDot && (whole.isEmpty || fraction.isEmpty) then none
  else
    let mantissa := natOfDigits (whole ++ fraction)
    let shift : Int := -fraction.length
    match rest with
    | e :: after =>
      if e = 'e' || e = 'E' then
        let (negative, after) :=
          match after with
          | '+' :: after => (false, after)
          | '-' :: after => (true, after)
          | _ => (false, after)
        let (digits, rest) := spanDigits after
        if digits.isEmpty then none
        else
          let power : Int := natOfDigits digits
          some (⟨mantissa, shift + (if negative then -power else power)⟩, true, rest)
      else some (⟨mantissa, shift⟩, dotted, rest)
    | [] => some (⟨mantissa, shift⟩, dotted, [])

end Decimal

end GuidedDataflow
