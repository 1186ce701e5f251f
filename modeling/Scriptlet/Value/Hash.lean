import Scriptlet.Value

/-!
Hashes of values. A number's hash is its residue modulo a number of the form `2 ^ width - 1`, so
that it depends on the number alone and on nothing of how it is written; the other hashes are the
host's own.
-/

namespace Scriptlet

/-- What a host takes hashes from. A number that is none has the hash of the object that holds it,
and objects are told apart by a count. -/
structure Hashing where
  width : Nat
  width_pos : 0 < width
  infinity : Int
  nan : Nat → Int
  kind : Value.Kind → Int
  native : Native → Int

namespace Hashing

/-- The residue of `mantissa * 2 ^ exponent`. Since `2 ^ width` leaves one, only the remainder of
the exponent counts. -/
def residue (host : Hashing) (mantissa : Nat) (exponent : Int) : Nat :=
  mantissa * Nat.pow 2 (exponent % host.width).toNat % (Nat.pow 2 host.width - 1)

/-- The hash of a number, which is never `-1`: this stands for a failure to hash. -/
def number (host : Hashing) (object : Nat) : Double → Int
  | .nan => host.nan object
  | .infinite negative => if negative then -host.infinity else host.infinity
  | .finite negative mantissa exponent =>
    let residue : Int := host.residue mantissa exponent
    let hash := if negative then -residue else residue
    if hash = -1 then -2 else hash

end Hashing

namespace Value

/-- The hash of a value that is held by an object. -/
def hashCode (host : Hashing) (object : Nat) : Value → Int
  | number x => host.number object (.ofFloat x)
  | native f => host.native f
  | v => host.kind v.kind

end Value

end Scriptlet
