import MfskCore.Fec.RsDecoder
import MfskCore.Library.Checked
import Mathlib.Data.List.Duplicate

/-! The decoder with the checks that end in a panic: every table and array access against the
array's length, every unsigned subtraction against zero. `none` is the panic. The checked
decoder completes on every word and erasure list, and a malformed list of erasures is refused. -/
namespace MfskCore.Fec
open Polynomial Library
open GF64 (α)
namespace Rs6312
variable (rs : Rs6312)

/-- `alpha_to[i]`. -/
def checkedPow (i : Nat) : Option Symbol := rs.alphaTo[i]?

/-- `index_of[x]`. -/
def checkedLog (x : Symbol) : Option Nat := rs.indexOf[x.toNat]?

def checkedSyndromes (recd : Word) : Option (List Symbol) :=
  (List.ofFn recd).tail.foldlM (fun s symbol => (List.range NROOTS).mapM fun i => do
    let si ← s[i]?
    if si = 0 then pure symbol
    else
      let log ← rs.checkedLog si
      let x ← rs.checkedPow (modnn (log + (FCR + i) * PRIM))
      pure (symbol ^^^ x)) (List.replicate NROOTS (recd ⟨0,NN_pos⟩))

def checkedLocatorExponent (pos : Nat) : Option Nat := do
  let fromEnd ← checkedSub (NN - 1) pos
  pure (modnn (PRIM * fromEnd))

def checkedErasureLoop : Nat → List Nat → List Symbol → Option (List Symbol)
  | _, [], lambda => some lambda
  | i, pos :: rest, lambda => do
    let u ← checkedLocatorExponent pos
    let lambda ← rewriteCells lambda (i + 1) fun j => do
      let x ← lambda[j]?
      let below ← lambda[j - 1]?
      let tmp ← rs.checkedLog below
      if tmp ≠ A0 then
        let y ← rs.checkedPow (modnn (u + tmp))
        pure (x ^^^ y)
      else pure x
    checkedErasureLoop (i + 1) rest lambda

def checkedErasureLocator (eras : List Nat) : Option (List Symbol) :=
  let lambda := 1 :: List.replicate NROOTS 0
  match eras with
  | [] => some lambda
  | pos :: rest => do
    let e0 ← checkedLocatorExponent pos
    let x ← rs.checkedPow e0
    rs.checkedErasureLoop 1 rest (lambda.set 1 x)

def checkedDiscrepancy (s : List Nat) (lambda : List Symbol) (r : Nat) : Option Symbol :=
  (List.range r).foldlM (fun discr i => do
    let x ← lambda[i]?
    if x ≠ 0 then
      let after ← checkedSub r i
      let j ← checkedSub after 1
      let y ← s[j]?
      if y ≠ A0 then
        let log ← rs.checkedLog x
        let z ← rs.checkedPow (modnn (log + y))
        pure (discr ^^^ z)
      else pure discr
    else pure discr) 0

def checkedShiftB (b : List Nat) : Option (List Nat) := do
  let below ← (List.range NROOTS).mapM fun j => b[j]?
  pure (A0 :: below)

/-- `T(x) ← λ(x) − discr_r·x·B(x)`. -/
def checkedCorrection (discr : Nat) (st : Locator) : Option (List Symbol) := do
  let t0 ← st.lambda[0]?
  let t ← (List.range NROOTS).mapM fun i => do
    let bi ← st.b[i]?
    let x ← st.lambda[i + 1]?
    if bi ≠ A0 then
      let y ← rs.checkedPow (modnn (discr + bi))
      pure (x ^^^ y)
    else pure x
  pure (t0 :: t)

/-- `B(x) ← λ(x) / discr_r`. -/
def checkedNormalise (discr : Nat) (lambda : List Symbol) : Option (List Nat) :=
  (List.range (NROOTS + 1)).mapM fun i => do
    let x ← lambda[i]?
    if x = 0 then pure A0
    else
      let log ← rs.checkedLog x
      let e ← checkedSub (log + NN) discr
      pure (modnn e)

def checkedBerlekampMasseyStep (s : List Nat) (noEras : Nat) (st : Locator) (r : Nat) : Option Locator := do
  let discrR ← rs.checkedDiscrepancy s st.lambda r
  let discr ← rs.checkedLog discrR
  if discr = A0 then
    let b ← checkedShiftB st.b
    pure { st with b := b }
  else
    let t ← rs.checkedCorrection discr st
    if 2 * st.el < r + noEras then
      let b ← rs.checkedNormalise discr st.lambda
      let el ← checkedSub (r + noEras) st.el
      pure ⟨t,b,el⟩
    else
      let b ← checkedShiftB st.b
      pure ⟨t,b,st.el⟩

/-- A locator polynomial in index form. -/
def checkedIndexForm (lambda : List Symbol) : Option (List Nat) :=
  (List.range (NROOTS + 1)).mapM fun i => do
    let x ← lambda[i]?
    rs.checkedLog x

def checkedBerlekampMassey (s : List Nat) (eras : List Nat) : Option Locator := do
  let lambda ← rs.checkedErasureLocator eras
  let b ← rs.checkedIndexForm lambda
  (List.range' (eras.length + 1) (NROOTS - eras.length)).foldlM
    (rs.checkedBerlekampMasseyStep s eras.length) ⟨lambda,b,eras.length⟩

def checkedDegree (lambda : List Nat) : Option Nat :=
  (List.range (NROOTS + 1)).foldlM (fun deg i => do
    let x ← lambda[i]?
    pure (if x ≠ A0 then i else deg)) 0

/-- The roots go into arrays of `NROOTS` cells. -/
def checkedChienSearch (degLambda : Nat) : List Nat → List Nat → Nat → List (Nat × Nat) →
    Option (List (Nat × Nat))
  | [], _, _, found => some found
  | i :: is, reg, k, found => do
    let next ← rewriteCells reg degLambda fun j => do
      let x ← reg[j]?
      pure (if x ≠ A0 then modnn (x + j) else x)
    let q ← (List.range' 1 degLambda).reverse.foldlM (fun q j => do
      let x ← reg[j]?
      if x ≠ A0 then
        let e ← next[j]?
        let y ← rs.checkedPow e
        pure (q ^^^ y)
      else pure q) 1
    if q ≠ 0 then checkedChienSearch degLambda is next (modnn (k + findIprim)) found
    else if NROOTS ≤ found.length then none
    else
      let found := found ++ [(i,k)]
      if found.length = degLambda then some found
      else checkedChienSearch degLambda is next (modnn (k + findIprim)) found

def checkedRoots (degLambda : Nat) (lambda : List Nat) : Option (List (Nat × Nat)) :=
  rs.checkedChienSearch degLambda (List.range' 1 NN) (0 :: lambda.tail) (modnn (findIprim + NN - 1)) []

def checkedOmega (s lambda : List Nat) (degOmega : Nat) : Option (List Nat) :=
  (List.range (degOmega + 1)).mapM fun i => do
    let tmp ← (List.range (i + 1)).foldlM (fun tmp j => do
      let e ← checkedSub i j
      let x ← s[e]?
      if x ≠ A0 then
        let y ← lambda[j]?
        if y ≠ A0 then
          let z ← rs.checkedPow (modnn (x + y))
          pure (tmp ^^^ z)
        else pure tmp
      else pure tmp) 0
    if NROOTS < i then none else rs.checkedLog tmp

/-- The numerator of Forney's formula. -/
def checkedNumerator (omega : List Nat) (degOmega root : Nat) : Option Symbol :=
  (List.range (degOmega + 1)).reverse.foldlM (fun num1 i => do
    let x ← omega[i]?
    if x ≠ A0 then
      let y ← rs.checkedPow (modnn (x + i * root))
      pure (num1 ^^^ y)
    else pure num1) 0

/-- The denominator: the odd terms of the derivative. -/
def checkedDenominator (lambda : List Nat) (degLambda root : Nat) : Option Symbol :=
  (List.range (min degLambda (NROOTS - 1) / 2 + 1)).reverse.foldlM (fun den half => do
    let i := 2 * half
    let x ← lambda[i + 1]?
    if x ≠ A0 then
      let y ← rs.checkedPow (modnn (x + i * root))
      pure (den ^^^ y)
    else pure den) 0

/-- The outer option is the panic, the inner one the source's `None`. -/
def checkedForney (lambda omega : List Nat) (degLambda degOmega : Nat) (recd : Word) (found : Nat × Nat) :
    Option (Option Word) := do
  let (root,loc) := found
  let num1 ← rs.checkedNumerator omega degOmega root
  let num2 ← rs.checkedPow (modnn (root * (FCR - 1) + NN))
  let den ← rs.checkedDenominator lambda degLambda root
  if den = 0 then pure none
  else if num1 ≠ 0 then
    let log1 ← rs.checkedLog num1
    let log2 ← rs.checkedLog num2
    let logDen ← rs.checkedLog den
    let e ← checkedSub (log1 + log2 + NN) logDen
    let err ← rs.checkedPow (modnn e)
    pure (some (if loc < NN then fun p => if p.val = loc then recd p ^^^ err else recd p else recd))
  else pure (some recd)

def checkedCorrections (lambda omega : List Nat) (degLambda degOmega : Nat) :
    List (Nat × Nat) → Word → Option (Option Word)
  | [], recd => some (some recd)
  | found :: rest, recd => do
    match ← rs.checkedForney lambda omega degLambda degOmega recd found with
    | none => pure none
    | some recd => checkedCorrections lambda omega degLambda degOmega rest recd

def checkedDecode (data : Word) (eras : List Nat) : Option (Option (Info × Nat)) :=
  if eras.length > NROOTS then some none
  else do
    let s ← rs.checkedSyndromes data
    let synError := s.foldl (· ||| ·) 0
    let s ← s.mapM rs.checkedLog
    if synError = 0 then pure (some (infoOf data,0))
    else if eras.any (· ≥ NN) then pure none
    else
      let st ← rs.checkedBerlekampMassey s eras
      let lambda ← rs.checkedIndexForm st.lambda
      let degLambda ← checkedDegree lambda
      let found ← rs.checkedRoots degLambda lambda
      if degLambda ≠ found.length then pure none
      else
        let degOmega := degLambda - 1
        let omega ← rs.checkedOmega s lambda degOmega
        let recd ← rs.checkedCorrections lambda omega degLambda degOmega found.reverse data
        pure (recd.map fun recd => (infoOf recd,found.length))

section Tables

@[simp] theorem checkedPow_modnn (n : Nat) : new.checkedPow (modnn n) = some (new.pow (modnn n)) := by
  refine getElem?_eq_some_getD ?_ 0
  have hlen : GF64.powTable.length = 64 := by decide
  rw [new_alphaTo,hlen,modnn_eq]
  omega

@[simp] theorem checkedLog_new (x : Symbol) : new.checkedLog x = some (new.log x) := by
  refine getElem?_eq_some_getD ?_ 0
  have hlen : GF64.logTable.length = 64 := by decide
  rw [new_indexOf,hlen]
  exact x.isLt

theorem log_le (x : Symbol) : new.log x ≤ NN := by
  by_cases hx : x = 0
  · exact (hx ▸ log_zero).le
  · exact (log_lt hx).le

end Tables

section Stages

/-- Two zero tests, the second made only when the first passes. -/
private theorem ite_ite_some {β : Type} {p q : Prop} [Decidable p] [Decidable q] (a b : β) :
    (if p then if q then some a else some b else some b) = some (if p ∧ q then a else b) := by
  by_cases hp : p
  · rw [if_pos hp,if_congr (and_iff_right hp) rfl rfl]
    exact (apply_ite some _ _ _).symm
  · rw [if_neg hp,if_neg fun h => hp h.1]

variable {s : List Nat} {lambda : List Symbol} {eras : List Nat}

theorem checkedSyndromes_eq (recd : Word) : new.checkedSyndromes recd = some (new.syndromes recd) := by
  refine (foldlM_eq_some (fun s : List Symbol => s.length = NROOTS) ?_ List.length_replicate).1
  intro symbol _ s hs
  refine ⟨?_,by rw [List.length_mapIdx,hs]⟩
  rw [mapIdx_eq_map_range _ _ 0,hs]
  refine mapM_eq_some fun i hi => ?_
  rw [getElem?_eq_some_getD (hs ▸ List.mem_range.1 hi) 0]
  simp only [Option.bind_eq_bind,Option.bind_some,checkedLog_new,checkedPow_modnn,Option.pure_def]
  exact (apply_ite some _ _ _).symm

theorem checkedLocatorExponent_eq {pos : Nat} (h : pos < NN) :
    checkedLocatorExponent pos = some (locatorExponent pos) := by
  rw [checkedLocatorExponent,checkedSub_eq (Nat.le_sub_one_of_lt h)]
  rfl

theorem checkedErasureLoop_eq (i : Nat) (hlen : lambda.length = NROOTS + 1)
    (hi : i + eras.length ≤ NROOTS) (hrange : ∀ pos ∈ eras, pos < NN) :
    new.checkedErasureLoop i eras lambda = some (new.erasureLoop i eras lambda) := by
  induction eras generalizing i lambda with
  | nil => rfl
  | cons pos rest ih =>
    rw [List.length_cons] at hi
    have hcells := rewriteCells_eq lambda (i + 1) (fun j => do
        let x ← lambda[j]?
        let below ← lambda[j - 1]?
        let tmp ← new.checkedLog below
        if tmp ≠ A0 then
          let y ← new.checkedPow (modnn (locatorExponent pos + tmp))
          pure (x ^^^ y)
        else pure x)
      (fun j x => if new.log (lambda.getD (j - 1) 0) ≠ A0 then
        x ^^^ new.pow (modnn (locatorExponent pos + new.log (lambda.getD (j - 1) 0))) else x) 0 (by omega)
      fun j _ hj => by
        rw [getElem?_eq_some_getD (by omega : j < lambda.length) 0,
          getElem?_eq_some_getD (by omega : j - 1 < lambda.length) 0]
        simp only [Option.bind_eq_bind,Option.bind_some,checkedLog_new,checkedPow_modnn,Option.pure_def]
        exact (apply_ite some _ _ _).symm
    rw [checkedErasureLoop,checkedLocatorExponent_eq (hrange pos List.mem_cons_self),erasureLoop]
    simp only [Option.bind_eq_bind,Option.bind_some] at hcells ⊢
    rw [hcells,Option.bind_some]
    exact ih (i + 1) (by rw [List.length_mapIdx,hlen]) (by omega)
      fun p hp => hrange p (List.mem_cons_of_mem pos hp)

theorem checkedErasureLocator_eq (hlen : eras.length ≤ NROOTS) (hrange : ∀ pos ∈ eras, pos < NN) :
    new.checkedErasureLocator eras = some (new.erasureLocator eras) := by
  cases eras with
  | nil => rfl
  | cons pos rest =>
    rw [List.length_cons] at hlen
    have hloop := @checkedErasureLoop_eq ((1 :: List.replicate NROOTS 0).set 1 (new.pow (locatorExponent pos))) rest 1
      (by rw [List.length_set,List.length_cons,List.length_replicate]) (by omega)
      fun p hp => hrange p (List.mem_cons_of_mem pos hp)
    have hpow : new.checkedPow (locatorExponent pos) = some (new.pow (locatorExponent pos)) :=
      checkedPow_modnn _
    rw [checkedErasureLocator]
    simp only [checkedLocatorExponent_eq (hrange pos List.mem_cons_self),Option.bind_eq_bind,Option.bind_some,hpow]
    exact hloop

theorem checkedDiscrepancy_eq {r : Nat} (hs : s.length = NROOTS) (hlen : lambda.length = NROOTS + 1)
    (hr : r ≤ NROOTS) : new.checkedDiscrepancy s lambda r = some (new.discrepancy s lambda r) := by
  refine (foldlM_eq_some (fun _ => True) (fun i hi discr _ => ⟨?_,trivial⟩) trivial).1
  rw [List.mem_range] at hi
  rw [getElem?_eq_some_getD (by omega : i < lambda.length) 0,checkedSub_eq (by omega : i ≤ r)]
  simp only [Option.bind_eq_bind,Option.bind_some,checkedSub_eq (by omega : 1 ≤ r - i),
    getElem?_eq_some_getD (by omega : r - i - 1 < s.length) 0,checkedLog_new,checkedPow_modnn,Option.pure_def]
  exact ite_ite_some _ _

theorem checkedShiftB_eq {b : List Nat} (hb : b.length = NROOTS + 1) : checkedShiftB b = some (shiftB b) := by
  rw [checkedShiftB,mapM_getElem?_range (by omega),shiftB,List.dropLast_eq_take,hb]
  rfl

theorem checkedCorrection_eq (discr : Nat) {st : Locator} (hlambda : st.lambda.length = NROOTS + 1)
    (hb : st.b.length = NROOTS + 1) :
    new.checkedCorrection discr st = some (st.lambda.getD 0 0 :: (List.range NROOTS).map fun i =>
      if st.b.getD i 0 ≠ A0 then st.lambda.getD (i + 1) 0 ^^^ new.pow (modnn (discr + st.b.getD i 0))
      else st.lambda.getD (i + 1) 0) := by
  have hcells : ∀ i ∈ List.range NROOTS, (do
      let bi ← st.b[i]?
      let x ← st.lambda[i + 1]?
      if bi ≠ A0 then
        let y ← new.checkedPow (modnn (discr + bi))
        pure (x ^^^ y)
      else pure x) = some (if st.b.getD i 0 ≠ A0 then
        st.lambda.getD (i + 1) 0 ^^^ new.pow (modnn (discr + st.b.getD i 0)) else st.lambda.getD (i + 1) 0) := by
    intro i hi
    rw [List.mem_range] at hi
    rw [getElem?_eq_some_getD (by omega : i < st.b.length) 0,
      getElem?_eq_some_getD (by omega : i + 1 < st.lambda.length) 0]
    simp only [Option.bind_eq_bind,Option.bind_some,checkedPow_modnn,Option.pure_def]
    exact (apply_ite some _ _ _).symm
  rw [checkedCorrection,getElem?_eq_some_getD (by omega : 0 < st.lambda.length) 0,mapM_eq_some hcells]
  rfl

theorem checkedNormalise_eq {discr : Nat} (hdiscr : discr ≤ NN) (hlen : lambda.length = NROOTS + 1) :
    new.checkedNormalise discr lambda = some ((List.range (NROOTS + 1)).map fun i =>
      if lambda.getD i 0 = 0 then A0 else modnn (new.log (lambda.getD i 0) + NN - discr)) := by
  refine mapM_eq_some fun i hi => ?_
  rw [List.mem_range] at hi
  rw [getElem?_eq_some_getD (by omega : i < lambda.length) 0]
  simp only [Option.bind_eq_bind,Option.bind_some,checkedLog_new,Option.pure_def,
    checkedSub_eq (by omega : discr ≤ new.log (lambda.getD i 0) + NN)]
  exact (apply_ite some _ _ _).symm

/-- The work arrays of Berlekamp-Massey keep their lengths. -/
def Sized (st : Locator) : Prop := st.lambda.length = NROOTS + 1 ∧ st.b.length = NROOTS + 1

private theorem length_shiftB {b : List Nat} (hb : b.length = NROOTS + 1) : (shiftB b).length = NROOTS + 1 := by
  rw [shiftB,List.length_cons,List.length_dropLast,hb]
  rfl

theorem checkedBerlekampMasseyStep_eq {st : Locator} {r : Nat} (noEras : Nat) (hs : s.length = NROOTS)
    (hst : Sized st) (hr : r ≤ NROOTS) :
    new.checkedBerlekampMasseyStep s noEras st r = some (new.berlekampMasseyStep s noEras st r) ∧
      Sized (new.berlekampMasseyStep s noEras st r) := by
  obtain ⟨hlambda,hb⟩ := hst
  rw [checkedBerlekampMasseyStep,checkedDiscrepancy_eq hs hlambda hr,berlekampMasseyStep]
  simp only [Option.bind_eq_bind,Option.bind_some,checkedLog_new,Option.pure_def,checkedShiftB_eq hb,
    checkedCorrection_eq _ hlambda hb,checkedNormalise_eq (log_le _) hlambda]
  split
  · exact ⟨rfl,hlambda,length_shiftB hb⟩
  · split
    · rw [checkedSub_eq (by omega)]
      exact ⟨rfl,by simp,by simp⟩
    · exact ⟨rfl,by simp,length_shiftB hb⟩

theorem checkedIndexForm_eq (hlen : lambda.length = NROOTS + 1) :
    new.checkedIndexForm lambda = some (lambda.map new.log) := by
  rw [checkedIndexForm,map_eq_map_range lambda new.log 0,hlen]
  refine mapM_eq_some fun i hi => ?_
  rw [List.mem_range] at hi
  rw [getElem?_eq_some_getD (by omega : i < lambda.length) 0]
  exact checkedLog_new _

theorem checkedBerlekampMassey_eq (hs : s.length = NROOTS) (hlen : eras.length ≤ NROOTS)
    (hrange : ∀ pos ∈ eras, pos < NN) :
    new.checkedBerlekampMassey s eras = some (new.berlekampMassey s eras) ∧
      Sized (new.berlekampMassey s eras) := by
  have hlocator := length_erasureLocator eras
  rw [checkedBerlekampMassey,checkedErasureLocator_eq hlen hrange,berlekampMassey]
  simp only [Option.bind_eq_bind,Option.bind_some,checkedIndexForm_eq hlocator]
  refine foldlM_eq_some Sized (fun r hr st hst => checkedBerlekampMasseyStep_eq _ hs hst ?_) ?_
  · have hlast := (List.mem_range'_1.1 hr).2
    omega
  · exact ⟨hlocator,(List.length_map _).trans hlocator⟩

theorem checkedDegree_eq {lambda : List Nat} (hlen : lambda.length = NROOTS + 1) :
    checkedDegree lambda = some (degree lambda) ∧ degree lambda ≤ NROOTS := by
  refine foldlM_eq_some (fun deg => deg ≤ NROOTS) (fun i hi deg hdeg => ?_) (Nat.zero_le _)
  rw [List.mem_range] at hi
  rw [getElem?_eq_some_getD (by omega : i < lambda.length) 0]
  refine ⟨rfl,?_⟩
  split
  · exact Nat.le_of_lt_succ hi
  · exact hdeg

/-- The registers after one more exponent. -/
private def chienNext (degLambda : Nat) (reg : List Nat) : List Nat :=
  reg.mapIdx fun j x => if 1 ≤ j ∧ j ≤ degLambda ∧ x ≠ A0 then modnn (x + j) else x

private theorem checkedChienNext_eq {degLambda : Nat} {reg : List Nat} (h : degLambda < reg.length) :
    rewriteCells reg degLambda (fun j => do
      let x ← reg[j]?
      pure (if x ≠ A0 then modnn (x + j) else x)) = some (chienNext degLambda reg) := by
  have hcells := rewriteCells_eq reg degLambda (fun j => do
      let x ← reg[j]?
      pure (if x ≠ A0 then modnn (x + j) else x)) (fun j x => if x ≠ A0 then modnn (x + j) else x) 0 h
    fun j _ hj => by rw [getElem?_eq_some_getD (by omega : j < reg.length) 0]; rfl
  have hcell : ∀ (j x : Nat), (if 1 ≤ j ∧ j ≤ degLambda then if x ≠ A0 then modnn (x + j) else x else x) =
      if 1 ≤ j ∧ j ≤ degLambda ∧ x ≠ A0 then modnn (x + j) else x := by
    intro j x
    split_ifs <;> first | rfl | omega
  rw [hcells,chienNext]
  simp only [hcell]

/-- The locator at one exponent. -/
private def chienSum (degLambda : Nat) (reg : List Nat) : Symbol :=
  (List.range' 1 degLambda).foldr (fun j q =>
    if reg.getD j 0 ≠ A0 then q ^^^ new.pow ((chienNext degLambda reg).getD j 0) else q) 1

private theorem checkedChienSum_eq {degLambda : Nat} {reg : List Nat} (h : degLambda < reg.length) :
    ((List.range' 1 degLambda).reverse.foldlM (fun q j => do
      let x ← reg[j]?
      if x ≠ A0 then
        let e ← (chienNext degLambda reg)[j]?
        let y ← new.checkedPow e
        pure (q ^^^ y)
      else pure q) (1 : Symbol)) = some (chienSum degLambda reg) := by
  rw [chienSum,← List.foldl_reverse]
  refine (foldlM_eq_some (fun _ => True) (fun j hj q _ => ⟨?_,trivial⟩) trivial).1
  obtain ⟨h1,hlast⟩ := List.mem_range'_1.1 (List.mem_reverse.1 hj)
  have hj : j < reg.length := by omega
  have hnext : j < (chienNext degLambda reg).length := by rwa [chienNext,List.length_mapIdx]
  rw [getElem?_eq_some_getD hj 0,getElem?_eq_some_getD hnext 0]
  simp only [Option.bind_eq_bind,Option.bind_some,Option.pure_def]
  by_cases hx : reg.getD j 0 ≠ A0
  · have hcell : (chienNext degLambda reg).getD j 0 = modnn (reg.getD j 0 + j) := by
      rw [List.getD_eq_getElem _ 0 hj] at hx ⊢
      rw [List.getD_eq_getElem _ 0 hnext]
      simp only [chienNext,List.getElem_mapIdx]
      exact if_pos ⟨h1,by omega,hx⟩
    rw [if_pos hx,if_pos hx,hcell,checkedPow_modnn]
    rfl
  · rw [if_neg hx,if_neg hx]

theorem checkedChienSearch_eq {degLambda : Nat} (hdeg : degLambda ≤ NROOTS) (is : List Nat) {reg : List Nat}
    (k : Nat) {found : List (Nat × Nat)} (hreg : reg.length = NROOTS + 1)
    (hfound : degLambda ≠ 0 → found.length < degLambda) :
    new.checkedChienSearch degLambda is reg k found = some (new.chienSearch degLambda is reg k found) := by
  induction is generalizing reg k found with
  | nil => rfl
  | cons i is ih =>
    have hlt : degLambda < reg.length := by omega
    have hnext : (chienNext degLambda reg).length = NROOTS + 1 := by rw [chienNext,List.length_mapIdx,hreg]
    have hstep : new.chienSearch degLambda (i :: is) reg k found =
        if chienSum degLambda reg ≠ 0 then
          new.chienSearch degLambda is (chienNext degLambda reg) (modnn (k + findIprim)) found
        else if (found ++ [(i,k)]).length = degLambda then found ++ [(i,k)]
        else new.chienSearch degLambda is (chienNext degLambda reg) (modnn (k + findIprim)) (found ++ [(i,k)]) :=
      rfl
    have hsum := checkedChienSum_eq hlt
    rw [checkedChienSearch,checkedChienNext_eq hlt,hstep]
    simp only [Option.bind_eq_bind,Option.bind_some] at hsum ⊢
    rw [hsum,Option.bind_some]
    by_cases hq : chienSum degLambda reg ≠ 0
    · rw [if_pos hq,if_pos hq]
      exact ih _ hnext hfound
    · have hpos : degLambda ≠ 0 := by
        rintro rfl
        exact hq (show (1 : Symbol) ≠ 0 by decide)
      have hroom := hfound hpos
      rw [if_neg hq,if_neg hq,if_neg (by omega)]
      by_cases hall : (found ++ [(i,k)]).length = degLambda
      · rw [if_pos hall,if_pos hall]
      · rw [if_neg hall,if_neg hall]
        refine ih _ hnext fun _ => ?_
        rw [List.length_append,List.length_singleton] at hall ⊢
        omega

theorem checkedRoots_eq {degLambda : Nat} {lambda : List Nat} (hdeg : degLambda ≤ NROOTS)
    (hlen : lambda.length = NROOTS + 1) : new.checkedRoots degLambda lambda = some (new.roots degLambda lambda) :=
  checkedChienSearch_eq hdeg _ _ (by rw [List.length_cons,List.length_tail,hlen]; rfl) Nat.pos_of_ne_zero

theorem checkedOmega_eq {lambda : List Nat} {degOmega : Nat} (hs : s.length = NROOTS)
    (hlen : lambda.length = NROOTS + 1) (hdeg : degOmega < NROOTS) :
    new.checkedOmega s lambda degOmega = some (new.omega s lambda degOmega) := by
  refine mapM_eq_some fun i hi => ?_
  rw [List.mem_range] at hi
  have hsum := (foldlM_eq_some (l := List.range (i + 1)) (b := (0 : Symbol)) (f := fun tmp j => do
      let e ← checkedSub i j
      let x ← s[e]?
      if x ≠ A0 then
        let y ← lambda[j]?
        if y ≠ A0 then
          let z ← new.checkedPow (modnn (x + y))
          pure (tmp ^^^ z)
        else pure tmp
      else pure tmp)
    (g := fun tmp j => if s.getD (i - j) 0 ≠ A0 ∧ lambda.getD j 0 ≠ A0 then
      tmp ^^^ new.pow (modnn (s.getD (i - j) 0 + lambda.getD j 0)) else tmp)
    (fun _ => True) (fun j hj tmp _ => ⟨?_,trivial⟩) trivial).1
  · rw [hsum]
    exact (if_neg (by omega)).trans (checkedLog_new _)
  · rw [List.mem_range] at hj
    rw [checkedSub_eq (by omega : j ≤ i)]
    simp only [Option.bind_eq_bind,Option.bind_some,getElem?_eq_some_getD (by omega : i - j < s.length) 0,
      getElem?_eq_some_getD (by omega : j < lambda.length) 0,checkedPow_modnn,Option.pure_def]
    exact ite_ite_some _ _

theorem checkedForney_eq {lambda omega : List Nat} {degLambda degOmega : Nat} (hlen : lambda.length = NROOTS + 1)
    (homega : omega.length = degOmega + 1) (recd : Word) (found : Nat × Nat) :
    new.checkedForney lambda omega degLambda degOmega recd found =
      some (new.forney lambda omega degLambda degOmega recd found) := by
  obtain ⟨root,loc⟩ := found
  have hnum : new.checkedNumerator omega degOmega root = some ((List.range (degOmega + 1)).foldr (fun i num1 =>
      if omega.getD i 0 ≠ A0 then num1 ^^^ new.pow (modnn (omega.getD i 0 + i * root)) else num1) 0) := by
    rw [← List.foldl_reverse]
    refine (foldlM_eq_some (fun _ => True) (fun i hi num1 _ => ⟨?_,trivial⟩) trivial).1
    rw [List.mem_reverse,List.mem_range] at hi
    rw [getElem?_eq_some_getD (by omega : i < omega.length) 0]
    simp only [Option.bind_eq_bind,Option.bind_some,checkedPow_modnn,Option.pure_def]
    exact (apply_ite some _ _ _).symm
  have hden : new.checkedDenominator lambda degLambda root =
      some ((List.range (min degLambda (NROOTS - 1) / 2 + 1)).foldr (fun half den =>
        if lambda.getD (2 * half + 1) 0 ≠ A0 then
          den ^^^ new.pow (modnn (lambda.getD (2 * half + 1) 0 + 2 * half * root))
        else den) 0) := by
    rw [← List.foldl_reverse]
    refine (foldlM_eq_some (fun _ => True) (fun half hhalf den _ => ⟨?_,trivial⟩) trivial).1
    rw [List.mem_reverse,List.mem_range] at hhalf
    have hmin : min degLambda (NROOTS - 1) ≤ NROOTS - 1 := min_le_right _ _
    have hin : 2 * half + 1 < lambda.length := by
      rw [hlen]
      have hroots : NROOTS = 51 := rfl
      omega
    dsimp only
    rw [getElem?_eq_some_getD hin 0]
    simp only [Option.bind_eq_bind,Option.bind_some,checkedPow_modnn,Option.pure_def]
    exact (apply_ite some _ _ _).symm
  have hquotient : ∀ num1 num2 den : Symbol, checkedSub (new.log num1 + new.log num2 + NN) (new.log den) =
      some (new.log num1 + new.log num2 + NN - new.log den) := fun num1 num2 den =>
    checkedSub_eq ((log_le den).trans (Nat.le_add_left _ _))
  rw [checkedForney,forney]
  dsimp only
  rw [hnum,hden]
  simp only [Option.bind_eq_bind,Option.bind_some,checkedPow_modnn,checkedLog_new,hquotient,Option.pure_def]
  split
  · rfl
  · exact (apply_ite some _ _ _).symm

theorem checkedCorrections_eq {lambda omega : List Nat} {degLambda degOmega : Nat}
    (hlen : lambda.length = NROOTS + 1) (homega : omega.length = degOmega + 1) (found : List (Nat × Nat))
    (recd : Word) : new.checkedCorrections lambda omega degLambda degOmega found recd =
      some (found.foldlM (new.forney lambda omega degLambda degOmega) recd) := by
  induction found generalizing recd with
  | nil => rfl
  | cons root rest ih =>
    rw [checkedCorrections,checkedForney_eq hlen homega,List.foldlM_cons]
    simp only [Option.bind_eq_bind,Option.bind_some]
    cases new.forney lambda omega degLambda degOmega recd root with
    | none => rfl
    | some next => exact ih next

end Stages

/-- No check of the decoder ever fails. -/
theorem checkedDecode_eq (data : Word) (eras : List Nat) :
    new.checkedDecode data eras = some (new.decodeNativeErasures data eras) := by
  rw [checkedDecode,decodeNativeErasures]
  by_cases hlong : eras.length > NROOTS
  · rw [if_pos hlong,if_pos hlong]
  rw [if_neg hlong,if_neg hlong]
  have hlogs := mapM_eq_some (f := new.checkedLog) (g := new.log) (l := new.syndromes data)
    fun x _ => checkedLog_new x
  simp only [Option.bind_eq_bind,Option.pure_def]
  rw [checkedSyndromes_eq,Option.bind_some,hlogs,Option.bind_some]
  by_cases hzero : (new.syndromes data).foldl (· ||| ·) 0 = 0
  · rw [if_pos hzero,if_pos hzero]
  rw [if_neg hzero,if_neg hzero]
  by_cases hany : eras.any (· ≥ NN) = true
  · rw [if_pos hany,if_pos hany]
  rw [if_neg hany,if_neg hany]
  have hrange : ∀ pos ∈ eras, pos < NN := by
    intro pos hpos
    by_contra hout
    exact hany (List.any_eq_true.2 ⟨pos,hpos,decide_eq_true (Nat.le_of_not_lt hout)⟩)
  have hs : ((new.syndromes data).map new.log).length = NROOTS := (List.length_map _).trans (length_syndromes data)
  obtain ⟨hmassey,hlambda,-⟩ := checkedBerlekampMassey_eq hs (Nat.le_of_not_lt hlong) hrange
  have hlen := (List.length_map new.log).trans hlambda
  obtain ⟨hdegree,hdeg⟩ := checkedDegree_eq hlen
  rw [hmassey,Option.bind_some,checkedIndexForm_eq hlambda,Option.bind_some,hdegree,Option.bind_some,
    checkedRoots_eq hdeg hlen,Option.bind_some]
  have homega : degree ((new.berlekampMassey ((new.syndromes data).map new.log) eras).lambda.map new.log) - 1
      < NROOTS := by
    have hroots : NROOTS = 51 := rfl
    omega
  rw [checkedOmega_eq hs hlen homega,Option.bind_some,checkedCorrections_eq hlen (length_omega _),Option.bind_some]
  exact (apply_ite some _ _ _).symm

end Rs6312

section Malformed
open Rs6312
variable {data : Word} {eras : List Nat}

/-- A position named twice is a double factor of the erasure locator. -/
theorem square_dvd_erasureFactor {pos : Nat} (h : List.Duplicate pos eras) :
    (1 - C (α ^ (62 - pos)) * X) ^ 2 ∣ erasureFactor eras := by
  have hsub := List.duplicate_iff_sublist.1 h
  have hdvd := (hsub.map fun pos => (1 - C (α ^ (62 - pos)) * X : GF64[X])).prod_dvd_prod
  have hpair : ([pos,pos].map fun pos => (1 - C (α ^ (62 - pos)) * X : GF64[X])).prod =
      (1 - C (α ^ (62 - pos)) * X) ^ 2 := by
    rw [List.map_cons,List.map_cons,List.map_nil,List.prod_cons,List.prod_cons,List.prod_nil,mul_one,pow_two]
  rwa [hpair] at hdvd

/-- Every step of Berlekamp-Massey keeps the double root, so the locator does not split. -/
theorem not_split_of_duplicate (data : Word) (hlen : eras.length ≤ 51) {pos : Nat} (hpos : pos < 63)
    (h : List.Duplicate pos eras) :
    (register data eras).connection.natDegree ≠ (rootSet (register data eras).connection).card := by
  intro hcard
  have hinv := register_invariant data hlen
  obtain ⟨g,hg⟩ := (square_dvd_erasureFactor h).trans hinv.dvd_connection
  have hfactor : (1 - C (α ^ (62 - pos)) * X : GF64[X]).eval (point ⟨pos,hpos⟩)⁻¹ = 0 := by
    rw [eval_sub,eval_one,eval_mul,eval_C,eval_X]
    exact sub_eq_zero.2 (mul_inv_cancel₀ (point_ne_zero ⟨pos,hpos⟩)).symm
  have hroot : (register data eras).connection.eval (point ⟨pos,hpos⟩)⁻¹ = 0 := by
    rw [hg,eval_mul,eval_pow,hfactor,pow_two,zero_mul,zero_mul]
  refine eval_derivative_ne_zero hinv.constant hcard (mem_rootSet.2 hroot) ?_
  rw [hg,pow_two,mul_assoc,derivative_mul,derivative_mul,eval_add,eval_mul,eval_mul,eval_mul,hfactor,zero_mul,mul_zero,
    zero_mul,add_zero]

theorem decode_duplicate (hdata : ¬IsCodeword data) (h : ¬eras.Nodup) : new.decodeNativeErasures data eras = none := by
  obtain ⟨pos,hpos⟩ := List.exists_duplicate_iff_not_nodup.2 h
  by_contra hsome
  obtain ⟨r,hr⟩ := Option.ne_none_iff_exists'.1 hsome
  have hlen := length_le_of_decode hr
  have hrange := range_of_decode hdata hr
  have hsplit := not_split_of_duplicate data hlen (hrange pos hpos.mem) hpos
  rw [decodeNativeErasures_eq hlen hrange hdata,if_pos hsplit] at hr
  exact absurd hr (by simp)

theorem decode_outOfRange (hdata : ¬IsCodeword data) (h : ∃ pos ∈ eras, 63 ≤ pos) :
    new.decodeNativeErasures data eras = none := by
  obtain ⟨pos,hmem,hpos⟩ := h
  by_contra hsome
  obtain ⟨r,hr⟩ := Option.ne_none_iff_exists'.1 hsome
  have hlt := range_of_decode hdata hr pos hmem
  omega

/-- A list with a repeated position or one outside the word is refused, with every access in range. -/
theorem malformed_erasures_refused (data : Word) (hdata : ∀ info, data ≠ new.encodeNative info) (eras : List Nat)
    (h : ¬eras.Nodup ∨ ∃ pos ∈ eras, 63 ≤ pos) : new.checkedDecode data eras = some none := by
  have hcode : ¬IsCodeword data := fun hc => hdata _ (eq_encodeNative hc)
  rw [checkedDecode_eq]
  rcases h with hdup | hout
  · rw [decode_duplicate hcode hdup]
  · rw [decode_outOfRange hcode hout]

theorem malformed_erasures_refused_skew : new.checkedDecode skewWord [4,4] = some none ∧
    new.checkedDecode skewWord [4,63] = some none := by
  have hskew : ∀ info, skewWord ≠ new.encodeNative info := by
    intro info heq
    exact not_isCodeword_skewWord (heq ▸ isCodeword_encodeNative info)
  exact ⟨malformed_erasures_refused skewWord hskew [4,4] (.inl (by decide)),
    malformed_erasures_refused skewWord hskew [4,63] (.inr ⟨63,by decide,le_rfl⟩)⟩

end Malformed

end MfskCore.Fec
