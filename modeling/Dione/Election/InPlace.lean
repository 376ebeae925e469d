/-
  Dione.Election.InPlace

  The election arithmetic as `types/electionproof.go` computes it: in `big.Int`
  variables, with receivers that are also operands, a `poiss` whose `icdf` is the
  threshold the caller compares with, a scratch variable that held `e^-lambda`, and
  coefficients and stakes that all calls share.

  The program returns what `Dione.Election` computes on values, and writes to no variable
  that was there before the call.
-/

import Dione.Election
import Dione.Lib.Cells
import Mathlib.Data.List.Forall2

namespace Dione

open Cells

/-! ## `big.Int` -/

namespace BigInt

/-- `*big.Int`. -/
abbrev Ptr := ℕ

/-- Programs over `big.Int` variables. -/
abbrev Prog := Cells.Prog Err Int

/-- `big.NewInt`. -/
def newInt (v : Int) : Prog Ptr := alloc v

/-- What a variable holds. -/
def get (x : Ptr) : Prog Int := load .nilDeref x

/-- A method with one operand: the result goes to the receiver, which is returned. -/
def unary (f : Int → Int) (z x : Ptr) : Prog Ptr := do
  let a ← get x
  store z (f a)

/-- A method with two operands. -/
def binary (f : Int → Int → Except Err Int) (z x y : Ptr) : Prog Ptr := do
  let a ← get x
  let b ← get y
  let v ← f a b
  store z v

def set : Ptr → Ptr → Prog Ptr := unary id
def lsh (z x : Ptr) (n : Nat) : Prog Ptr := unary (· * 2 ^ n) z x
def rsh (z x : Ptr) (n : Nat) : Prog Ptr := unary (· >>> n) z x
def add : Ptr → Ptr → Ptr → Prog Ptr := binary fun a b => .ok (a + b)
def sub : Ptr → Ptr → Ptr → Prog Ptr := binary fun a b => .ok (a - b)
def mul : Ptr → Ptr → Ptr → Prog Ptr := binary fun a b => .ok (a * b)
def div : Ptr → Ptr → Ptr → Prog Ptr := binary bigDiv
def setUint64 (z : Ptr) (k : UInt64) : Prog Ptr := store z k.toNat

section Methods

variable {cells : List Int} {x y : Ptr} {a b : Int}

theorem get_run (hx : cells[x]? = some a) : get x cells = .ok (a, cells) := by
  rw [get, load, hx]

theorem newInt_run (v : Int) (cells : List Int) :
    ∃ ptr cells', newInt v cells = .ok (ptr, cells') ∧ Fresh cells v ptr cells' :=
  ⟨_, _, rfl, Fresh.alloc cells v⟩

theorem unary_run (f : Int → Int) (z : Ptr) (hx : cells[x]? = some a) :
    unary f z x cells = .ok (z, cells.set z (f a)) := by
  show (get x cells >>= fun r => store z (f r.1) r.2) = _
  rw [get_run hx]
  rfl

theorem binary_run (f : Int → Int → Except Err Int) (z : Ptr) (hx : cells[x]? = some a)
    (hy : cells[y]? = some b) :
    binary f z x y cells = (f a b).map fun v => (z, cells.set z v) := by
  rw [binary, run_bind (get_run hx), run_bind (get_run hy)]
  show ((f a b : Prog Int) cells >>= fun r => store z r.1 r.2) = _
  cases f a b with
  | error e => rfl
  | ok v => rfl

end Methods

end BigInt

/-! ## The program -/

namespace ElectionProof.InPlace

open BigInt

/-- The variables that all calls share: `expNumCoef`, `expDenoCoef` and
    `config.ExpectedLeadersPerEpoch`. -/
structure Globals where
  num : List Ptr
  deno : List Ptr
  expectedLeaders : Ptr

/-- The loop of `polyval`. -/
def polyvalLoop (x : Ptr) : List Ptr → Ptr → Ptr → Prog Ptr
  | [], res, _ => return res
  | c :: p, res, tmp => do
    let tmp ← mul tmp res x
    let res ← rsh res tmp precision
    let res ← add res res c
    polyvalLoop x p res tmp

/-- `polyval`. -/
def polyval (p : List Ptr) (x : Ptr) : Prog Ptr :=
  match p with
  | [] => throw .indexOutOfRange
  | c :: p => do
    let res ← set (← newInt 0) c
    let tmp ← newInt 0
    polyvalLoop x p res tmp

/-- `expneg`. -/
def expneg (g : Globals) (x : Ptr) : Prog Ptr := do
  let num ← polyval g.num x
  let deno ← polyval g.deno x
  let num ← lsh num num precision
  div num num deno

/-- `lambda`. -/
def lambda (g : Globals) (power totalPower : Ptr) : Prog Ptr := do
  let lam ← mul (← newInt 0) power g.expectedLeaders
  let lam ← lsh lam lam precision
  div lam lam totalPower

/-- `poiss`. -/
structure Poiss where
  lam : Ptr
  pmf : Ptr
  icdf : Ptr
  tmp : Ptr
  k : UInt64

/-- `newPoiss`: the scratch variable is the one of `elam`, and the threshold returned is
    the `icdf` of the instance. -/
def newPoiss (g : Globals) (lam : Ptr) : Prog (Poiss × Ptr) := do
  let elam ← expneg g lam
  let pmf ← set (← newInt 0) elam
  let icdf ← newInt 1
  let icdf ← lsh icdf icdf precision
  let icdf ← sub icdf icdf pmf
  return (⟨lam, pmf, icdf, elam, 0⟩, icdf)

/-- `poiss.next`: the instance afterwards, and the pointer returned. -/
def Poiss.next (p : Poiss) : Prog (Poiss × Ptr) := do
  let k := p.k + 1
  let tmp ← setUint64 p.tmp k
  let pmf ← div p.pmf p.pmf tmp
  let tmp ← mul tmp pmf p.lam
  let pmf ← rsh pmf tmp precision
  let icdf ← sub p.icdf p.icdf pmf
  return (⟨p.lam, pmf, icdf, tmp, k⟩, icdf)

/-- The loop of `ComputeWinCount`; the second argument is what is left of
    `MaxWinCount - j`. -/
def winLoop (lhs : Ptr) : Nat → Poiss → Ptr → Int64 → Prog Int64
  | 0, _, rhs, j => do
    let _ ← get lhs
    let _ ← get rhs
    return j
  | left + 1, p, rhs, j => do
    let a ← get lhs
    let b ← get rhs
    if a < b then
      let (p, rhs) ← p.next
      winLoop lhs left p rhs (j + 1)
    else return j

/-- `ComputeWinCount`. -/
def computeWinCount (g : Globals) (sum256 : Bytes → Bytes) (ep : ElectionProof)
    (power totalPower : Ptr) : Prog Int64 := do
  let lhs ← newInt (setBytes (sum256 ep.vrfProof))
  let lam ← lambda g power totalPower
  let (p, rhs) ← newPoiss g lam
  winLoop lhs maxWinCount p rhs 0

/-! ## What it computes -/

/-- The shared variables hold what the package has put into them. -/
structure Globals.Loaded (g : Globals) (cells : List Int) : Prop where
  num : List.Forall₂ (fun ptr c => cells[ptr]? = some c) g.num expNumCoef
  deno : List.Forall₂ (fun ptr c => cells[ptr]? = some c) g.deno expDenoCoef
  expectedLeaders : cells[g.expectedLeaders]? = some expectedLeadersPerEpoch

theorem Globals.Loaded.extend {g : Globals} {cells cells' : List Int} (h : g.Loaded cells)
    (hext : cells <+: cells') : g.Loaded cells' where
  num := h.num.imp fun _ _ => getElem?_extend hext
  deno := h.deno.imp fun _ _ => getElem?_extend hext
  expectedLeaders := getElem?_extend hext h.expectedLeaders

section Functions

variable {g : Globals} {base cells : List Int} {x res tmp : Ptr} {xv r t : Int}

theorem polyvalLoop_run {ptrs : List Ptr} {p : List Int}
    (hp : List.Forall₂ (fun ptr c => base[ptr]? = some c) ptrs p) (hx : base[x]? = some xv)
    (hres : Fresh base r res cells) (htmp : Fresh base t tmp cells) (hne : res ≠ tmp) :
    ∃ cells', polyvalLoop x ptrs res tmp cells = .ok (res, cells') ∧
      Fresh base (p.foldl (fun res c => (res * xv) >>> precision + c) r) res cells' := by
  induction hp generalizing cells r t with
  | nil => exact ⟨cells, rfl, hres⟩
  | @cons ptr c ptrs p hc hrest ih =>
      have hmul : mul tmp res x cells = .ok (tmp, cells.set tmp (r * xv)) :=
        binary_run _ tmp hres.value (hres.old hx).1
      have htmp₁ := htmp.store (r * xv)
      have hres₁ := hres.set_other htmp.new hne.symm (r * xv)
      have hrsh : rsh res tmp precision (cells.set tmp (r * xv)) = .ok (res, _) :=
        unary_run _ res htmp₁.value
      have htmp₂ := htmp₁.set_other hres.new hne ((r * xv) >>> precision)
      have hres₂ := hres₁.store ((r * xv) >>> precision)
      have hadd : add res res ptr _ = .ok (res, _) :=
        binary_run _ res hres₂.value (hres₂.old hc).1
      rw [polyvalLoop, run_bind hmul, run_bind hrsh, run_bind hadd]
      exact ih (hres₂.store _) (htmp₂.set_other hres.new hne _)

theorem polyval_run {ptrs : List Ptr} {p : List Int}
    (hp : List.Forall₂ (fun ptr c => base[ptr]? = some c) ptrs p) (hne : p ≠ [])
    (hx : base[x]? = some xv) :
    ∃ ptr cells', polyval ptrs x base = .ok (ptr, cells') ∧
      Fresh base (ElectionProof.polyval p xv) ptr cells' := by
  cases hp with
  | nil => exact absurd rfl hne
  | @cons ptr c ptrs p hc hrest =>
      obtain ⟨res, cells₁, hnew, hres₀⟩ := newInt_run 0 base
      have hset : BigInt.set res ptr cells₁ = .ok (res, cells₁.set res c) :=
        unary_run id res (hres₀.old hc).1
      have hres := hres₀.store c
      obtain ⟨tmp, cells₂, hnewTmp, htmp⟩ := newInt_run 0 (cells₁.set res c)
      obtain ⟨cells', hrun, hfresh⟩ := polyvalLoop_run hrest hx (hres.extend htmp.frame)
        (htmp.weaken hres.frame) (htmp.old hres.value).2.symm
      refine ⟨res, cells', ?_, hfresh⟩
      rw [polyval, run_bind hnew, run_bind hset, run_bind hnewTmp]
      exact hrun

theorem expneg_refines (hg : g.Loaded base) (hx : base[x]? = some xv) :
    Refines (ElectionProof.expneg xv) (expneg g x base) (Fresh base) := by
  obtain ⟨num, cells₁, hnumRun, hnum⟩ := polyval_run hg.num (by decide) hx
  have hg₁ := hg.extend hnum.frame
  obtain ⟨deno, cells₂, hdenoRun, hdeno⟩ :=
    polyval_run hg₁.deno (by decide) (getElem?_extend hnum.frame hx)
  have hnum₂ := hnum.extend hdeno.frame
  have hlsh : lsh num num precision cells₂ = .ok (num, _) := unary_run _ num hnum₂.value
  have hnum₃ := hnum₂.store (ElectionProof.polyval expNumCoef xv * 2 ^ precision)
  have hdeno₃ := getElem?_set_of_ne (hdeno.old hnum.value).2.symm hdeno.value
    (ElectionProof.polyval expNumCoef xv * 2 ^ precision)
  have hdiv : div num num deno _ = _ := binary_run bigDiv num hnum₃.value hdeno₃
  rw [expneg, run_bind hnumRun, run_bind hdenoRun, run_bind hlsh, hdiv]
  exact Refines.map fun v => hnum₃.store v

theorem lambda_refines (hg : g.Loaded base) {power totalPower : Ptr} {a b : Int}
    (hpower : base[power]? = some a) (htotal : base[totalPower]? = some b) :
    Refines (ElectionProof.lambda a b) (lambda g power totalPower base) (Fresh base) := by
  obtain ⟨lam, cells, hnew, hlam⟩ := newInt_run 0 base
  have hmul : mul lam power g.expectedLeaders cells = .ok (lam, _) :=
    binary_run _ lam (hlam.old hpower).1 (hlam.old hg.expectedLeaders).1
  have hlam₁ := hlam.store (a * expectedLeadersPerEpoch)
  have hlsh : lsh lam lam precision _ = .ok (lam, _) := unary_run _ lam hlam₁.value
  have hlam₂ := hlam₁.store (a * expectedLeadersPerEpoch * 2 ^ precision)
  have hdiv : div lam lam totalPower _ = _ :=
    binary_run bigDiv lam hlam₂.value (hlam₂.old htotal).1
  rw [lambda, run_bind hnew, run_bind hmul, run_bind hlsh, hdiv]
  exact Refines.map fun v => hlam₂.store v

end Functions

/-! ## The sequence -/

/-- The instance `p` of the program stands for `q`: its three variables are apart, new
    since `base`, and hold the values of `q`; that of `lam` is an old one. -/
structure Poiss.Represents (base : List Int) (q : ElectionProof.Poiss) (p : Poiss)
    (cells : List Int) : Prop where
  lam : base[p.lam]? = some q.lam
  pmf : Fresh base q.pmf p.pmf cells
  icdf : Fresh base q.icdf p.icdf cells
  tmp : ∃ t, Fresh base t p.tmp cells
  pmf_ne_icdf : p.pmf ≠ p.icdf
  pmf_ne_tmp : p.pmf ≠ p.tmp
  icdf_ne_tmp : p.icdf ≠ p.tmp
  k : p.k = q.k

section Sequence

variable {g : Globals} {base cells : List Int}

theorem newPoiss_refines (hg : g.Loaded base) {lam : Ptr} {v : Int} (hlam : base[lam]? = some v) :
    Refines (ElectionProof.newPoiss v) (newPoiss g lam base) fun q r cells =>
      r.1.Represents base q cells ∧ r.2 = r.1.icdf := by
  refine Refines.bind (expneg_refines hg hlam) ?_
  intro e elam cells helam
  obtain ⟨pmf, cells₁, hnewPmf, hpmf₀⟩ := newInt_run 0 cells
  have hset : BigInt.set pmf elam cells₁ = .ok (pmf, cells₁.set pmf e) :=
    unary_run id pmf (hpmf₀.old helam.value).1
  have hpmf := hpmf₀.store e
  obtain ⟨icdf, cells₂, hnewIcdf, hicdf₀⟩ := newInt_run 1 (cells₁.set pmf e)
  have hlsh : lsh icdf icdf precision cells₂ = .ok (icdf, _) := unary_run _ icdf hicdf₀.value
  have hicdf₁ := hicdf₀.store (1 * 2 ^ precision)
  have hsub : sub icdf icdf pmf _ = .ok (icdf, _) :=
    binary_run _ icdf hicdf₁.value (hicdf₁.old hpmf.value).1
  have hicdf := hicdf₁.store (1 * 2 ^ precision - e)
  rw [run_bind hnewPmf, run_bind hset, run_bind hnewIcdf, run_bind hlsh, run_bind hsub]
  refine ⟨⟨hlam, (hpmf.weaken helam.frame).extend hicdf.frame, ?_,
    ⟨e, (helam.extend hpmf.frame).extend hicdf.frame⟩, (hicdf.old hpmf.value).2.symm,
    (hpmf.old helam.value).2, (hicdf.old (hpmf.old helam.value).1).2, rfl⟩, rfl⟩
  rw [one_mul] at hicdf
  exact hicdf.weaken (helam.frame.trans hpmf.frame)

theorem Poiss.Represents.next {q : ElectionProof.Poiss} {p : Poiss}
    (h : p.Represents base q cells) :
    Refines q.next (p.next cells) fun q' r cells' =>
      r.1.Represents base q' cells' ∧ r.2 = r.1.icdf := by
  obtain ⟨t, htmp⟩ := h.tmp
  have hk : setUint64 p.tmp (p.k + 1) cells = .ok (p.tmp, _) := rfl
  have htmp₁ := htmp.store ((p.k + 1).toNat : Int)
  have hpmf₁ := h.pmf.set_other htmp.new h.pmf_ne_tmp.symm ((p.k + 1).toNat : Int)
  have hicdf₁ := h.icdf.set_other htmp.new h.icdf_ne_tmp.symm ((p.k + 1).toNat : Int)
  have hdiv : div p.pmf p.pmf p.tmp _ = _ := binary_run bigDiv p.pmf hpmf₁.value htmp₁.value
  have hquotient : Refines (bigDiv q.pmf ((q.k + 1).toNat : Int))
      (div p.pmf p.pmf p.tmp (cells.set p.tmp ((p.k + 1).toNat : Int))) fun v ptr cells' =>
        ptr = p.pmf ∧ cells' = (cells.set p.tmp ((p.k + 1).toNat : Int)).set p.pmf v := by
    rw [hdiv, h.k]
    exact Refines.map fun v => ⟨rfl, rfl⟩
  rw [Poiss.next, ElectionProof.Poiss.next, run_bind hk]
  refine Refines.bind hquotient ?_
  rintro v ptr cells' ⟨rfl, rfl⟩
  have hpmf₂ := hpmf₁.store v
  have htmp₂ := htmp₁.set_other h.pmf.new h.pmf_ne_tmp v
  have hicdf₂ := hicdf₁.set_other h.pmf.new h.pmf_ne_icdf v
  have hmul : mul p.tmp p.pmf p.lam _ = .ok (p.tmp, _) :=
    binary_run _ p.tmp hpmf₂.value (hpmf₂.old h.lam).1
  have hpmf₃ := hpmf₂.set_other htmp.new h.pmf_ne_tmp.symm (v * q.lam)
  have htmp₃ := htmp₂.store (v * q.lam)
  have hicdf₃ := hicdf₂.set_other htmp.new h.icdf_ne_tmp.symm (v * q.lam)
  have hrsh : rsh p.pmf p.tmp precision _ = .ok (p.pmf, _) := unary_run _ p.pmf htmp₃.value
  have hpmf₄ := hpmf₃.store ((v * q.lam) >>> precision)
  have htmp₄ := htmp₃.set_other h.pmf.new h.pmf_ne_tmp ((v * q.lam) >>> precision)
  have hicdf₄ := hicdf₃.set_other h.pmf.new h.pmf_ne_icdf ((v * q.lam) >>> precision)
  have hsub : sub p.icdf p.icdf p.pmf _ = .ok (p.icdf, _) :=
    binary_run _ p.icdf hicdf₄.value hpmf₄.value
  rw [run_bind hmul, run_bind hrsh, run_bind hsub]
  refine ⟨⟨h.lam, hpmf₄.set_other h.icdf.new h.pmf_ne_icdf.symm _, hicdf₄.store _,
    ⟨_, htmp₄.set_other h.icdf.new h.icdf_ne_tmp _⟩, h.pmf_ne_icdf, h.pmf_ne_tmp,
    h.icdf_ne_tmp, ?_⟩, rfl⟩
  rw [h.k]

theorem winLoop_refines {lhs : Ptr} {a : Int} (hlhs : base[lhs]? = some a) (left : Nat)
    {q : ElectionProof.Poiss} {p : Poiss} (h : p.Represents base q cells) (j : Int64) :
    Refines (ElectionProof.winLoop a left q j) (winLoop lhs left p p.icdf j cells)
      fun j j' cells' => j = j' ∧ base <+: cells' := by
  have hget := get_run (getElem?_extend h.icdf.frame hlhs)
  have hgetRhs := get_run h.icdf.value
  induction left generalizing q p cells j with
  | zero =>
      rw [winLoop, run_bind hget, run_bind hgetRhs]
      exact ⟨rfl, h.icdf.frame⟩
  | succ left ih =>
      rw [winLoop, run_bind hget, run_bind hgetRhs, ElectionProof.winLoop]
      split
      · next hlt =>
          refine Refines.bind h.next ?_
          rintro q' ⟨p', rhs⟩ cells' ⟨h', hrhs⟩
          obtain rfl : rhs = p'.icdf := hrhs
          exact ih h' (j + 1) (get_run (getElem?_extend h'.icdf.frame hlhs))
            (get_run h'.icdf.value)
      · exact ⟨rfl, h.icdf.frame⟩

end Sequence

/-! ## Calls -/

section Calls

variable {g : Globals} {base : List Int} (sum256 : Bytes → Bytes)

/-- A call returns what is computed on values, and leaves the variables it found as they
    were. -/
theorem computeWinCount_refines (hg : g.Loaded base) (ep : ElectionProof) {power totalPower : Ptr}
    {a b : Int} (hpower : base[power]? = some a) (htotal : base[totalPower]? = some b) :
    Refines (ElectionProof.computeWinCount sum256 ep a b)
      (computeWinCount g sum256 ep power totalPower base)
      fun j j' cells' => j = j' ∧ base <+: cells' := by
  obtain ⟨lhs, cells, hnew, hlhs⟩ := newInt_run (setBytes (sum256 ep.vrfProof)) base
  rw [computeWinCount, run_bind hnew]
  refine Refines.bind (lambda_refines (hg.extend hlhs.frame) (hlhs.old hpower).1
    (hlhs.old htotal).1) ?_
  intro v lam cells₁ hlam
  have hframe : base <+: cells₁ := hlhs.frame.trans hlam.frame
  refine Refines.bind (newPoiss_refines (hg.extend hframe) hlam.value) ?_
  rintro q ⟨p, rhs⟩ cells₂ ⟨hp, hrhs⟩
  obtain rfl : rhs = p.icdf := hrhs
  have hlhs₁ := getElem?_extend hlam.frame hlhs.value
  exact (winLoop_refines hlhs₁ maxWinCount hp 0).mono fun _ _ _ h => ⟨h.1, hframe.trans h.2⟩

end Calls

end ElectionProof.InPlace

end Dione
