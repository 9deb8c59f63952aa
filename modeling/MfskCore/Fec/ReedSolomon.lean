import Mathlib.Data.List.OfFn
import Mathlib.Data.BitVec

/-! The JT65 Reed-Solomon codec RS(63, 12) over GF(64) (`fec/rs/mod.rs`): table-driven
arithmetic in index form, systematic encoder, errors-and-erasures decoder, and the symbol-order
wrappers. A fixed-size array of symbols is a function on its indices; work arrays are lists of
the source's lengths. Loops that run downwards read cells not yet written, so they are written
as one update of the whole array. -/
namespace MfskCore.Fec

abbrev Symbol := BitVec 6

def NN : Nat := 63
def MM : Nat := 6
def FCR : Nat := 3
def PRIM : Nat := 1
def NROOTS : Nat := 51
def K_SYMBOLS : Nat := 12
def GFPOLY : Nat := 0x43

/-- The logarithm of zero. -/
def A0 : Nat := NN

theorem NN_pos : 0 < NN := by decide

abbrev Word := Fin NN → Symbol
abbrev Info := Fin K_SYMBOLS → Symbol

/-- The reduction loop; `fuel` only bounds the recursion. -/
def modnnLoop : Nat → Nat → Nat
  | 0, x => x
  | fuel + 1, x =>
    if x ≥ NN then
      let x := x - NN
      modnnLoop fuel ((x >>> MM) + (x &&& NN))
    else x

/-- `x mod NN` by shifts. -/
def modnn (x : Nat) : Nat := modnnLoop x x

structure Rs6312 where
  alphaTo : List Symbol
  indexOf : List Nat
  genpoly : List Nat
  deriving DecidableEq

namespace Rs6312

/-- The next power of `α` in the field's shift register. -/
def nextPower (sr : Nat) : Nat :=
  let sr := sr <<< 1
  let sr := if sr &&& (1 <<< MM) ≠ 0 then sr ^^^ GFPOLY else sr
  sr &&& NN

/-- The power and logarithm tables. -/
def tables : List Symbol × List Nat :=
  let alphaTo := (List.replicate 64 0).set A0 0
  let indexOf := (List.replicate 64 0).set 0 A0
  let (alphaTo,indexOf,_) := (List.range NN).foldl (fun (alphaTo,indexOf,sr) i =>
    (alphaTo.set i (BitVec.ofNat 6 sr),indexOf.set sr i,nextPower sr)) (alphaTo,indexOf,1)
  (alphaTo,indexOf)

def alpha (alphaTo : List Symbol) (i : Nat) : Symbol := alphaTo.getD i 0

def index (indexOf : List Nat) (x : Symbol) : Nat := indexOf.getD x.toNat 0

/-- One more factor `x + α^root` of the generator polynomial. -/
def genpolyStep (alphaTo : List Symbol) (indexOf : List Nat) (genpoly : List Symbol) (i : Nat) :
    List Symbol :=
  let root := FCR * PRIM + i * PRIM
  let times (x : Symbol) : Symbol := alpha alphaTo (modnn (index indexOf x + root))
  let genpoly := genpoly.set (i + 1) 1
  genpoly.mapIdx fun j x =>
    if j = 0 then times x
    else if j ≤ i then
      if x ≠ 0 then genpoly.getD (j - 1) 0 ^^^ times x else genpoly.getD (j - 1) 0
    else x

def new : Rs6312 :=
  let (alphaTo,indexOf) := tables
  let genpoly := (List.range NROOTS).foldl (genpolyStep alphaTo indexOf)
    ((List.replicate (NROOTS + 1) 0).set 0 1)
  ⟨alphaTo,indexOf,genpoly.map (index indexOf)⟩

variable (rs : Rs6312)

/-- `alpha_to[i]`. -/
def pow (i : Nat) : Symbol := alpha rs.alphaTo i

/-- `index_of[x]`. -/
def log (x : Symbol) : Nat := index rs.indexOf x

/-- One information symbol through the encoder's feedback register. -/
def encodeStep (bb : List Symbol) (symbol : Symbol) : List Symbol :=
  let feedback := rs.log (symbol ^^^ bb.getD 0 0)
  let gen (j : Nat) : Symbol := rs.pow (modnn (feedback + rs.genpoly.getD j 0))
  let bb := if feedback ≠ A0 then bb.mapIdx (fun j x => if 1 ≤ j then x ^^^ gen (NROOTS - j) else x)
    else bb
  bb.tail ++ [if feedback ≠ A0 then gen 0 else 0]

/-- The parity symbols of an information word. -/
def parity (info : Info) : List Symbol :=
  (List.ofFn info).foldl rs.encodeStep (List.replicate NROOTS 0)

def encodeNative (info : Info) : Word := fun p =>
  if h : p.val < K_SYMBOLS then info ⟨p.val,h⟩ else (rs.parity info).getD (p.val - K_SYMBOLS) 0

/-- The received word at the roots of the generator polynomial, by Horner's rule. -/
def syndromes (recd : Word) : List Symbol :=
  (List.ofFn recd).tail.foldl (fun s symbol => s.mapIdx fun i si =>
    if si = 0 then symbol else symbol ^^^ rs.pow (modnn (rs.log si + (FCR + i) * PRIM)))
    (List.replicate NROOTS (recd ⟨0,by decide⟩))

/-- The exponent of the locator of a position. -/
def locatorExponent (pos : Nat) : Nat := modnn (PRIM * (NN - 1 - pos))

/-- The erasure loop from its `i`-th position on. -/
def erasureLoop : Nat → List Nat → List Symbol → List Symbol
  | _, [], lambda => lambda
  | i, pos :: rest, lambda =>
    let u := locatorExponent pos
    erasureLoop (i + 1) rest (lambda.mapIdx fun j x =>
      if 1 ≤ j ∧ j ≤ i + 1 then
        let tmp := rs.log (lambda.getD (j - 1) 0)
        if tmp ≠ A0 then x ^^^ rs.pow (modnn (u + tmp)) else x
      else x)

/-- The erasure locator polynomial `∏ (1 + β x)`. -/
def erasureLocator (eras : List Nat) : List Symbol :=
  let lambda := 1 :: List.replicate NROOTS 0
  match eras with
  | [] => lambda
  | pos :: rest => rs.erasureLoop 1 rest (lambda.set 1 (rs.pow (locatorExponent pos)))

/-- The locator in polynomial form, the auxiliary polynomial in index form, and the length. -/
structure Locator where
  lambda : List Symbol
  b : List Nat
  el : Nat

/-- The discrepancy at step `r`; the syndromes are in index form. -/
def discrepancy (s : List Nat) (lambda : List Symbol) (r : Nat) : Symbol :=
  (List.range r).foldl (fun discr i =>
    if lambda.getD i 0 ≠ 0 ∧ s.getD (r - i - 1) 0 ≠ A0 then
      discr ^^^ rs.pow (modnn (rs.log (lambda.getD i 0) + s.getD (r - i - 1) 0))
    else discr) 0

/-- `B(x) ← x B(x)`. -/
def shiftB (b : List Nat) : List Nat := A0 :: b.dropLast

/-- One step of Berlekamp-Massey. -/
def berlekampMasseyStep (s : List Nat) (noEras : Nat) (st : Locator) (r : Nat) : Locator :=
  let discr := rs.log (rs.discrepancy s st.lambda r)
  if discr = A0 then { st with b := shiftB st.b }
  else
    let t := st.lambda.getD 0 0 :: (List.range NROOTS).map fun i =>
      if st.b.getD i 0 ≠ A0 then
        st.lambda.getD (i + 1) 0 ^^^ rs.pow (modnn (discr + st.b.getD i 0))
      else st.lambda.getD (i + 1) 0
    if 2 * st.el < r + noEras then
      { lambda := t
        b := (List.range (NROOTS + 1)).map fun i =>
          if st.lambda.getD i 0 = 0 then A0
          else modnn (rs.log (st.lambda.getD i 0) + NN - discr)
        el := r + noEras - st.el }
    else { lambda := t, b := shiftB st.b, el := st.el }

/-- Berlekamp-Massey from the erasure locator on. -/
def berlekampMassey (s : List Nat) (eras : List Nat) : Locator :=
  let lambda := rs.erasureLocator eras
  (List.range' (eras.length + 1) (NROOTS - eras.length)).foldl
    (rs.berlekampMasseyStep s eras.length) ⟨lambda,lambda.map rs.log,eras.length⟩

/-- The degree of a polynomial in index form. -/
def degree (lambda : List Nat) : Nat :=
  (List.range (NROOTS + 1)).foldl (fun deg i => if lambda.getD i 0 ≠ A0 then i else deg) 0

def findIprimLoop : Nat → Nat → Nat
  | 0, iprim => iprim
  | fuel + 1, iprim => if iprim % PRIM = 0 then iprim else findIprimLoop fuel (iprim + NN)

def findIprim : Nat := findIprimLoop PRIM 1 / PRIM

/-- The Chien search over the exponents `is`: each root found with its symbol position, until
there are as many as the degree. -/
def chienSearch (degLambda : Nat) : List Nat → List Nat → Nat → List (Nat × Nat) → List (Nat × Nat)
  | [], _, _, found => found
  | i :: is, reg, k, found =>
    let next := reg.mapIdx fun j x =>
      if 1 ≤ j ∧ j ≤ degLambda ∧ x ≠ A0 then modnn (x + j) else x
    let q := (List.range' 1 degLambda).foldr (fun j q =>
      if reg.getD j 0 ≠ A0 then q ^^^ rs.pow (next.getD j 0) else q) 1
    if q ≠ 0 then chienSearch degLambda is next (modnn (k + findIprim)) found
    else
      let found := found ++ [(i,k)]
      if found.length = degLambda then found
      else chienSearch degLambda is next (modnn (k + findIprim)) found

/-- The roots of the locator with their positions. -/
def roots (degLambda : Nat) (lambda : List Nat) : List (Nat × Nat) :=
  rs.chienSearch degLambda (List.range' 1 NN) (0 :: lambda.tail) (modnn (findIprim + NN - 1)) []

/-- `ω(x) = s(x) λ(x)` below the degree of `λ`, in index form. -/
def omega (s lambda : List Nat) (degOmega : Nat) : List Nat :=
  (List.range (degOmega + 1)).map fun i =>
    rs.log ((List.range (i + 1)).foldl (fun tmp j =>
      if s.getD (i - j) 0 ≠ A0 ∧ lambda.getD j 0 ≠ A0 then
        tmp ^^^ rs.pow (modnn (s.getD (i - j) 0 + lambda.getD j 0))
      else tmp) 0)

/-- Forney's formula at one root, applied in place. -/
def forney (lambda omega : List Nat) (degLambda degOmega : Nat) (recd : Word) (found : Nat × Nat) :
    Option Word :=
  let (root,loc) := found
  let num1 := (List.range (degOmega + 1)).foldr (fun i num1 =>
    if omega.getD i 0 ≠ A0 then num1 ^^^ rs.pow (modnn (omega.getD i 0 + i * root)) else num1) 0
  let num2 := rs.pow (modnn (root * (FCR - 1) + NN))
  let den := (List.range (min degLambda (NROOTS - 1) / 2 + 1)).foldr (fun half den =>
    let i := 2 * half
    if lambda.getD (i + 1) 0 ≠ A0 then den ^^^ rs.pow (modnn (lambda.getD (i + 1) 0 + i * root))
    else den) 0
  if den = 0 then none
  else if num1 ≠ 0 then
    let err := rs.pow (modnn (rs.log num1 + rs.log num2 + NN - rs.log den))
    some (if loc < NN then fun p => if p.val = loc then recd p ^^^ err else recd p else recd)
  else some recd

/-- The information symbols of a systematic word. -/
def infoOf (recd : Word) : Info := fun i => recd ⟨i.val,by have := i.isLt; unfold K_SYMBOLS at this; unfold NN; omega⟩

def decodeNativeErasures (data : Word) (eras : List Nat) : Option (Info × Nat) :=
  if eras.length > NROOTS then none
  else
    let s := rs.syndromes data
    let synError := s.foldl (· ||| ·) 0
    let s := s.map rs.log
    if synError = 0 then some (infoOf data,0)
    else if eras.any (· ≥ NN) then none
    else
      let lambda := (rs.berlekampMassey s eras).lambda.map rs.log
      let degLambda := degree lambda
      let found := rs.roots degLambda lambda
      if degLambda ≠ found.length then none
      else
        let degOmega := degLambda - 1
        let omega := rs.omega s lambda degOmega
        (found.reverse.foldlM (rs.forney lambda omega degLambda degOmega) data).map fun recd =>
          (infoOf recd,found.length)

def decodeNative (data : Word) : Option (Info × Nat) := rs.decodeNativeErasures data []

/-- The JT65 order: the information reversed, then the parity block reversed in front of it. -/
def encodeJt65 (info : Info) : Word :=
  let dat1 : Info := fun i => info i.rev
  let cw := rs.encodeNative dat1
  fun k =>
    if h : k.val < NROOTS then cw ⟨K_SYMBOLS + (NROOTS - 1 - k.val),by unfold NROOTS K_SYMBOLS NN at *; omega⟩
    else dat1 ⟨K_SYMBOLS - 1 - (k.val - NROOTS),by unfold K_SYMBOLS; omega⟩

/-- The received symbols put back in native order. -/
def nativeOrder (recd0 : Word) : Word := fun p =>
  if h : p.val < K_SYMBOLS then recd0 ⟨NN - 1 - p.val,by unfold NN; omega⟩
  else recd0 ⟨NROOTS - 1 - (p.val - K_SYMBOLS),by unfold NROOTS NN; omega⟩

def decodeJt65Erasures (recd0 : Word) (eras : List Nat) : Option (Info × Nat) :=
  let erasNative := (eras.filter (· < NN)).map fun p => NN - 1 - p
  (rs.decodeNativeErasures (nativeOrder recd0) erasNative).map fun (info,nerr) =>
    (fun i => info i.rev,nerr)

def decodeJt65 (recd0 : Word) : Option (Info × Nat) := rs.decodeJt65Erasures recd0 []

end Rs6312
end MfskCore.Fec
