/-!
# Binary floating-point numbers by their bits

Constants of single and double precision are carried as bit patterns and never computed with.
Conversions round to the nearest number, a tie going to the even one.
-/

namespace MethodFlow

/-- A binary interchange format, by the widths of its significand (the leading one included) and
of its exponent. -/
structure FloatFormat where
  precision : Nat
  exponentWidth : Nat
deriving DecidableEq, Repr

namespace FloatFormat

def single : FloatFormat := ⟨24, 8⟩

def double : FloatFormat := ⟨53, 11⟩

/-- The exponent of the last place of the smallest numbers. -/
def leastExponent (f : FloatFormat) : Int :=
  3 - (1 <<< (f.exponentWidth - 1) : Nat) - f.precision

/-- The magnitude bits of infinity; those of a number are below, those of no number above. -/
def infinity (f : FloatFormat) : Nat :=
  (1 <<< f.exponentWidth - 1) <<< (f.precision - 1)

/-- The integer nearest to `m / 2 ^ k`, a half going to the even neighbour. -/
def halfEven (m k : Nat) : Nat :=
  let quotient := m >>> k
  let rest := m % (1 <<< k)
  if 2 * rest < 1 <<< k then quotient
  else if 1 <<< k < 2 * rest then quotient + 1
  else quotient + quotient % 2

/-- The magnitude bits of the number nearest to `m * 2 ^ e`. -/
def magnitude (f : FloatFormat) (m : Nat) (e : Int) : Nat :=
  if m = 0 then 0
  else
    let place := max (m.log2 + e - (f.precision - 1 : Nat)) f.leastExponent
    let scaled := if place ≤ e then m <<< (e - place).toNat else halfEven m (place - e).toNat
    min (scaled + (place - f.leastExponent).toNat <<< (f.precision - 1)) f.infinity

/-- The `m` and `e` with `m * 2 ^ e` the number of these magnitude bits, if they are a number. -/
def number? (f : FloatFormat) (bits : Nat) : Option (Nat × Int) :=
  let lead := 1 <<< (f.precision - 1)
  let exponent := bits / lead
  if f.infinity ≤ bits then none
  else if exponent = 0 then some (bits, f.leastExponent)
  else some (bits % lead + lead, f.leastExponent + (exponent - 1 : Nat))

def signBit (f : FloatFormat) : Nat := 1 <<< (f.exponentWidth + f.precision - 1)

def ofInt (f : FloatFormat) (n : Int) : Nat :=
  (if n < 0 then f.signBit else 0) + f.magnitude n.natAbs 0

/-- The bits in format `g` of the number nearest to the one with these bits in format `f`. -/
def convert (f g : FloatFormat) (bits : Nat) : Nat :=
  let sign := if f.signBit ≤ bits then g.signBit else 0
  let unsigned := bits % f.signBit
  match f.number? unsigned with
  | some (m, e) => sign + g.magnitude m e
  | none => if unsigned = f.infinity then sign + g.infinity else sign + g.infinity + 1

/-- Whether the bits are a number, neither infinite nor undefined. -/
def isFinite (f : FloatFormat) (bits : Nat) : Bool :=
  decide (bits % f.signBit < f.infinity)

/-- Whether two bit patterns compare equal: the two zeros do, an undefined value never does. -/
def sameValue (f : FloatFormat) (a b : Nat) : Bool :=
  decide (a % f.signBit ≤ f.infinity) && (a == b || (a % f.signBit == 0 && b % f.signBit == 0))

end FloatFormat

structure Single where
  bits : UInt32
deriving DecidableEq, Repr

structure Double where
  bits : UInt64
deriving DecidableEq, Repr

namespace Double

def ofInt (n : Int) : Double := ⟨.ofNat (FloatFormat.double.ofInt n)⟩

def ofSingle (x : Single) : Double :=
  ⟨.ofNat (FloatFormat.single.convert .double x.bits.toNat)⟩

def isFinite (x : Double) : Bool := FloatFormat.double.isFinite x.bits.toNat

def sameValue (x y : Double) : Bool := FloatFormat.double.sameValue x.bits.toNat y.bits.toNat

end Double

namespace Single

def ofInt (n : Int) : Single := ⟨.ofNat (FloatFormat.single.ofInt n)⟩

def ofDouble (x : Double) : Single :=
  ⟨.ofNat (FloatFormat.double.convert .single x.bits.toNat)⟩

def isFinite (x : Single) : Bool := FloatFormat.single.isFinite x.bits.toNat

def sameValue (x y : Single) : Bool := FloatFormat.single.sameValue x.bits.toNat y.bits.toNat

end Single

end MethodFlow
