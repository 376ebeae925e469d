/-
  Dione.Election

  Leader election arithmetic (`types/electionproof.go`) and the randomness it
  is fed with (`beacon/utils.go`).

  `big.Int` is `Int`: `Div` is Euclidean division and panics on a zero divisor,
  `Rsh` is an arithmetic shift.  Values marked Q.256 are fixed point with 256
  fractional bits.  The hash `blake2b.Sum256` is a parameter.
-/

import Dione.Types

namespace Dione

open Guard

/-- `big.Int.Div`. -/
def bigDiv (x y : Int) : Except Err Int :=
  if y = 0 then .error .divisionByZero else .ok (x / y)

/-- `big.Int.SetBytes`: the bytes read as a big-endian number. -/
def setBytes (b : Bytes) : Int :=
  b.foldl (fun acc x => acc * 256 + (x.toNat : Int)) 0

/-- `binary.BigEndian` encoding of a 64-bit value. -/
def bigEndian64 (n : UInt64) : Bytes :=
  ([56, 48, 40, 32, 24, 16, 8, 0] : List UInt64).map fun s => (n >>> s).toUInt8

namespace ElectionProof

/-- `config.ExpectedLeadersPerEpoch`. -/
def expectedLeadersPerEpoch : Int := 2

def precision : Nat := 256

/-- `MaxWinCount`. -/
def maxWinCount : Nat := 20

/-- Integer parameters to Q.256 coefficients: `<< 256` and `>> 128`. -/
def parse (coefs : List Int) : List Int := coefs.map (· * 2 ^ (precision - 128))

def expNumCoef : List Int := parse
  [-648770010757830093818553637600,
   67469480939593786226847644286976,
   -3197587544499098424029388939001856,
   89244641121992890118377641805348864,
   -1579656163641440567800982336819953664,
   17685496037279256458459817590917169152,
   -115682590513835356866803355398940131328,
   340282366920938463463374607431768211456]

def expDenoCoef : List Int := parse
  [1225524182432722209606361,
   114095592300906098243859450,
   5665570424063336070530214243,
   194450132448609991765137938448,
   5068267641632683791026134915072,
   104716890604972796896895427629056,
   1748338658439454459487681798864896,
   23704654329841312470660182937960448,
   259380097567996910282699886670381056,
   2250336698853390384720606936038375424,
   14978272436876548034486263159246028800,
   72144088983913131323343765784380833792,
   224599776407103106596571252037123047424,
   340282366920938463463374607431768211456]

/-- `polyval`: Horner evaluation at `x`, coefficients from the highest order
    down, everything in Q.256. -/
def polyval (p : List Int) (x : Int) : Int :=
  p.tail.foldl (fun res c => (res * x) >>> precision + c) (p.headD 0)

/-- `expneg`: `e^-x` in Q.256 by a rational approximation. -/
def expneg (x : Int) : Except Err Int :=
  bigDiv (polyval expNumCoef x * 2 ^ precision) (polyval expDenoCoef x)

/-- `lambda` in Q.256. -/
def lambda (power totalPower : Int) : Except Err Int :=
  bigDiv (power * expectedLeadersPerEpoch * 2 ^ precision) totalPower

/-- `poiss`; the source's `tmp` is scratch space. -/
structure Poiss where
  lam : Int
  pmf : Int
  icdf : Int
  k : UInt64
  deriving DecidableEq, Repr

/-- `newPoiss`: the inverted CDF starts at `1 - pmf(0)`. -/
def newPoiss (lam : Int) : Except Err Poiss := do
  let elam ← expneg lam
  return { lam := lam, pmf := elam, icdf := 2 ^ precision - elam, k := 0 }

/-- `poiss.next`: `k++`, then `pmf(k) = pmf(k-1) / k * lambda`. -/
def Poiss.next (p : Poiss) : Except Err Poiss := do
  let k := p.k + 1
  -- the division comes first, so its remainder is lost before the product
  let pmf ← bigDiv p.pmf k.toNat
  let pmf := (pmf * p.lam) >>> precision
  return { p with pmf := pmf, icdf := p.icdf - pmf, k := k }

/-- The counting loop of `ComputeWinCount`.  The first argument is what is left
    of `MaxWinCount - j`; `rhs` is the current `icdf`. -/
def winLoop (lhs : Int) : Nat → Poiss → Int64 → Except Err Int64
  | 0, _, j => .ok j
  | left + 1, p, j =>
    -- the bound on `j` is the recursion, the comparison the rest of the condition
    if lhs < p.icdf then do
      let p' ← p.next
      winLoop lhs left p' (j + 1)
    else .ok j

/-- `ElectionProof.ComputeWinCount`. -/
def computeWinCount (sum256 : Bytes → Bytes) (ep : ElectionProof)
    (power totalPower : Int) : Except Err Int64 := do
  let lhs := setBytes (sum256 ep.vrfProof)
  let lam ← lambda power totalPower
  let p ← newPoiss lam
  winLoop lhs maxWinCount p 0

end ElectionProof

/-- `beacon.RandomnessTypeElectionProofProduction`. -/
def randomnessTypeElectionProofProduction : UInt64 := 1

/-- `beacon.DrawRandomness`; writing to the hash state never fails. -/
def drawRandomness (sum256 : Bytes → Bytes) (rbase : Bytes) (randomnessType round : UInt64)
    (entropy : Bytes) : Bytes :=
  sum256 (bigEndian64 randomnessType ++ sum256 rbase ++ bigEndian64 round ++ entropy)

end Dione
