import Scriptlet.Number.Shortest

/-!
The text of a number. Two styles are in use: one shows numbers to the reader of a program's output,
the other one in listings of values.
-/

namespace Scriptlet

/-- A way of writing doubles: which exponents of the first digit are written out in full, what
follows a whole number, and the word for a number that is none. -/
structure NumberStyle where
  inFull : Int → Bool
  wholeEnd : String
  nan : String

namespace NumberStyle

/-- Always in full, whole numbers without a point. -/
def shown : NumberStyle := ⟨fun _ => true, "", "NaN"⟩

/-- In full from `0.0001` up to sixteen places before the point, and always with a point. -/
def listed : NumberStyle := ⟨fun e => -4 ≤ e && e < 16, ".0", "nan"⟩

/-- A decimal without exponent. The point stands inside the digits or zeros are added on one side
of them. -/
def positional (wholeEnd : List Char) (digits : List Char) (exponent : Int) : List Char :=
  let places := (-exponent).toNat
  if 0 ≤ exponent then digits ++ List.replicate exponent.toNat '0' ++ wholeEnd
  else if places < digits.length then
    digits.take (digits.length - places) ++ '.' :: digits.drop (digits.length - places)
  else '0' :: '.' :: List.replicate (places - digits.length) '0' ++ digits

/-- A decimal with one digit before the point and the exponent of that digit, which has a sign and
two digits at least. -/
def scientific (digits : List Char) (lead : Int) : List Char :=
  let power := Nat.toDigits 10 lead.natAbs
  digits.take 1 ++ (if digits.length ≤ 1 then [] else '.' :: digits.drop 1) ++
    'e' :: (if lead < 0 then '-' else '+') ::
      List.replicate (2 - power.length) '0' ++ power

def decimal (style : NumberStyle) (d : Decimal) : List Char :=
  let digits := Nat.toDigits 10 d.coefficient
  let lead := d.exponent + digits.length - 1
  if style.inFull lead then positional style.wholeEnd.toList digits d.exponent
  else scientific digits lead

def double (style : NumberStyle) : Double → List Char
  | .nan => style.nan.toList
  | .infinite negative => sign negative ++ "inf".toList
  | .finite negative mantissa exponent =>
    sign negative ++
      style.decimal (if mantissa = 0 then ⟨0, 0⟩ else .shortest mantissa exponent)
where
  sign (negative : Bool) : List Char := if negative then ['-'] else []

def render (style : NumberStyle) (x : Float) : String :=
  String.ofList (style.double (.ofFloat x))

end NumberStyle

end Scriptlet
