import Scriptlet.Number.Shortest
import Scriptlet.Text.Digit

/-!
Numerals: the texts that name a number. Blank characters around a numeral do not count, and single
underscores may stand between its digits, which may be those of any script. `Numeral.read?` finds the
double it names.
-/

namespace Scriptlet

/-- What a numeral says: a word for a special number or an exact decimal, each with a sign. -/
inductive Numeral where
  | nan
  | infinity (negative : Bool)
  | decimal (negative : Bool) (value : Decimal)
deriving DecidableEq

namespace Numeral

/-- The characters that may surround a numeral: space and the controls from tab to carriage
return. -/
def isMargin (c : Char) : Bool := c == ' ' || ('\t' ≤ c && c ≤ '\r')

def strip (text : List Char) : List Char :=
  ((text.dropWhile isMargin).reverse.dropWhile isMargin).reverse

/-- The text without its underscores, each of which has to stand between two digits. `before` says
that the character in front is a digit. -/
def joinGroups (before : Bool) : List Char → Option (List Char)
  | [] => some []
  | '_' :: rest =>
    if before && (rest.head?.any Char.isDigit) then joinGroups false rest else none
  | c :: rest => (joinGroups c.isDigit rest).map (c :: ·)

def sign : List Char → Bool × List Char
  | '-' :: rest => (true, rest)
  | '+' :: rest => (false, rest)
  | text => (false, text)

def digits (text : List Char) : List Char × List Char :=
  (text.takeWhile Char.isDigit, text.dropWhile Char.isDigit)

/-- The digits behind a point, if there is a point, and the text behind them. -/
def places : List Char → List Char × List Char
  | '.' :: rest => digits rest
  | text => ([], text)

/-- What has to be the end of a numeral: nothing, or a power of ten. -/
def power : List Char → Option Int
  | [] => some 0
  | c :: rest =>
    if c = 'e' ∨ c = 'E' then
      let (negative, text) := sign rest
      if text ≠ [] ∧ text.all Char.isDigit then
        let n : Int := Nat.ofDigitChars 10 text 0
        some (if negative then -n else n)
      else none
    else none

/-- A numeral without sign and underscores that is written in digits. -/
def decimal? (text : List Char) : Option Decimal :=
  let (whole, rest) := digits text
  let (fraction, rest) := places rest
  if whole = [] ∧ fraction = [] then none
  else (power rest).map fun e =>
    ⟨Nat.ofDigitChars 10 (whole ++ fraction) 0, e - fraction.length⟩

/-- What a text without blanks around it says. -/
def parse (text : List Char) : Option Numeral :=
  (joinGroups false text).bind fun text =>
    let (negative, text) := sign text
    let word := text.map Char.toLower
    if word = "nan".toList then some nan
    else if word = "inf".toList ∨ word = "infinity".toList then some (infinity negative)
    else (decimal? text).map (decimal negative)

/-- The double nearest to a decimal. Far beyond the range of doubles the power of ten is not worked
out: the outcome is infinity or zero whatever the digits are. -/
def nearest (negative : Bool) (d : Decimal) : Float :=
  let lead := d.exponent + floorLog 10 d.coefficient
  if d.coefficient = 0 ∨ lead < -400 then Double.withSign negative 0
  else if 400 < lead then Double.withSign negative Double.infinityBits
  else Double.nearest negative d.toFraction

def toFloat : Numeral → Float
  | nan => .ofBits Double.nanBits
  | infinity negative => Double.withSign negative Double.infinityBits
  | decimal negative d => nearest negative d

def read? (text : String) : Option Float :=
  (parse (strip (text.toList.map Text.toAscii))).map toFloat

end Numeral

end Scriptlet
