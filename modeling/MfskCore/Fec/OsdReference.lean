import MfskCore.Fec.LdpcTables
import MfskCore.Fec.OsdBasis
import MfskCore.Library.RowMajor

/-! The setup of ordered-statistics decoding with one byte for each bit, as the tests of
`fec/ldpc/osd.rs` keep it, and the setup of LDPC(174, 91). The elimination on packed rows is the
elimination on bytes, column by column. -/
namespace MfskCore.Fec
open Rust Library

/-- The rows one after the other, a byte for each bit, and the pivot columns found. -/
structure ByteElimination where
  g : List UInt8
  pivotCol : List Nat

/-- Clear a column in every row but the pivot's, row by row and in place. -/
def clearColumnBytes (n pivotRow col m : Nat) (g : List UInt8) : List UInt8 :=
  (List.range m).foldl (fun g r2 =>
    if r2 ≠ pivotRow ∧ g.getD (r2 * n + col) 0 ≠ 0 then combineRow 0 (· ^^^ ·) n r2 pivotRow n g else g) g

def byteEliminateColumn (n k : Nat) (s : ByteElimination) (col : Nat) : ByteElimination :=
  let pivotRow := s.pivotCol.length
  if pivotRow ≥ k then s
  else
    match (List.range' pivotRow (k - pivotRow)).find? fun r => s.g.getD (r * n + col) 0 ≠ 0 with
    | none => s
    | some r =>
      let g := if r ≠ pivotRow then swapRowCells 0 n r pivotRow n s.g else s.g
      ⟨clearColumnBytes n pivotRow col k g,s.pivotCol ++ [col]⟩

/-- The generator with its columns in the given order. -/
def byteGenerator (P : LdpcParams) (perm : List Nat) : List UInt8 :=
  (List.range (P.K * P.N)).map fun i =>
    let row := i / P.N
    let j := perm.getD (i % P.N) 0
    if j < P.K then (decide (row = j)).toUInt8 else P.genParity (j - P.K) row

def byteEliminate (P : LdpcParams) (perm : List Nat) : ByteElimination :=
  (List.range P.N).foldl (byteEliminateColumn P.N P.K) ⟨byteGenerator P perm,[]⟩

/-- The unpacked rows. -/
def unpackRows (P : LdpcParams) (rows : List BitRow) : List UInt8 :=
  (List.range (P.K * P.N)).map fun i => ((rows.getD (i / P.N) []).bit (i % P.N)).toUInt8

/-- A basis as the tuple the source returns, a byte for each bit. -/
def OsdBasis.bytes (b : OsdBasis) : List Nat × List UInt8 × List Nat := (b.perm,b.g.map Bool.toUInt8,b.pivotCol)

/-- What the passes of LDPC(174, 91) start from. -/
structure OsdSetup (F : Type) where
  perm : List Nat
  g : List UInt8
  hdecPerm : List UInt8
  absrxPerm : List F
  cPerm : List UInt8

section Setup
variable {F : Type} [F32 F] (P : LdpcParams) (sorter : SortUnstable) (llr : List F)

def osdSetupGenericReference : Option (List Nat × List UInt8 × List Nat) :=
  let perm := reliabilityOrder P sorter llr
  let s := byteEliminate P perm
  if s.pivotCol.length < P.K then none else some (perm,s.g,s.pivotCol)

/-- The hard decisions and magnitudes in permuted space, and the word of the decisions at the pivots. -/
def osdSetupOf (perm : List Nat) (g : List UInt8) (pivotCol : List Nat) : OsdSetup F where
  perm := perm
  g := g
  hdecPerm := (List.range P.N).map fun col => (hard llr (perm.getD col 0)).toUInt8
  absrxPerm := (List.range P.N).map fun col => F32.abs (llr.getD (perm.getD col 0) 0.0)
  cPerm := (List.range P.K).foldl (fun c r =>
    if hard llr (perm.getD (pivotCol.getD r 0) 0) then c.mapIdx fun col x => x ^^^ g.getD (r * P.N + col) 0 else c)
    (List.replicate P.N 0)

/-- `row[c / 64] |= bit << (c % 64)`. -/
def orBit (row : BitRow) (c : Nat) (bit : Bool) : BitRow :=
  row.modify (c / 64) fun w => w ||| (if bit then 1#64 else 0#64) <<< (c % 64)

/-- The generator of LDPC(174, 91) with its columns in the given order, in packed rows. -/
def packedGenerator174 (perm : List Nat) : List BitRow :=
  let P := Ldpc174_91Params
  (List.range P.K).map fun row =>
    (List.range P.N).foldl (fun packed col => orBit packed col (P.generator row (perm.getD col 0)))
      (BitRow.zero ((P.N + 63) / 64))

def osdSetupLdpc174_91 : Option (OsdSetup F) :=
  let P := Ldpc174_91Params
  let perm := reliabilityOrder P sorter llr
  let s := (List.range P.N).foldl (eliminateColumn P.K) ⟨packedGenerator174 perm,[]⟩
  if s.pivotCol.length < P.K then none
  else some (osdSetupOf P llr perm (unpackRows P s.rows) s.pivotCol)

def osdSetupLdpc174_91ByteReference : Option (OsdSetup F) :=
  let P := Ldpc174_91Params
  let perm := reliabilityOrder P sorter llr
  let s := byteEliminate P perm
  if s.pivotCol.length < P.K then none else some (osdSetupOf P llr perm s.g s.pivotCol)

end Setup

section Simulation
variable {n k w : Nat} {rows : List BitRow} {g : List UInt8}

/-- The bytes are the bits of the packed rows. -/
structure Represents (n k w : Nat) (rows : List BitRow) (g : List UInt8) : Prop where
  rows_length : rows.length = k
  uniform : Uniform w rows
  length : g.length = k * n
  entry : ∀ i < k, ∀ c < n, g.getD (i * n + c) 0 = ((rows.getD i []).bit c).toUInt8

private theorem toUInt8_ne_zero (b : Bool) : b.toUInt8 ≠ 0 ↔ b = true := by
  cases b <;> decide

theorem Represents.swap (h : Represents n k w rows g) {a b : Nat} (ha : a < k) (hb : b < k) :
    Represents n k w (swapRows rows a b) (if a ≠ b then swapRowCells 0 n a b n g else g) := by
  have ha' : a < rows.length := h.rows_length ▸ ha
  have hb' : b < rows.length := h.rows_length ▸ hb
  refine ⟨(length_swapRows rows a b).trans h.rows_length,h.uniform.swapRows ha' hb',?_,fun i hi c hc => ?_⟩
  · split
    · rw [length_swapRowCells,h.length]
    · exact h.length
  · rw [getD_swapRows ha' hb']
    split
    · rw [getD_swapRowCells h.length ha hb le_rfl hc,if_pos hc]
      exact h.entry _ (swap_lt ha hb hi) c hc
    · rename_i hab
      rw [not_not.1 hab,Equiv.swap_self]
      exact h.entry i hi c hc

theorem length_clearColumnBytes (n p col m : Nat) (g : List UInt8) :
    (clearColumnBytes n p col m g).length = g.length := by
  induction m with
  | zero => rfl
  | succ m ih =>
    rw [clearColumnBytes,List.range_succ,List.foldl_append,← clearColumnBytes,List.foldl_cons,List.foldl_nil]
    split
    · rw [length_combineRow,ih]
    · exact ih

/-- The first `m` rows are cleared, the others wait. -/
theorem getD_clearColumnBytes {p col m : Nat} (hlen : g.length = k * n) (hm : m ≤ k) (hcol : col < n) {i c : Nat}
    (hc : c < n) : (clearColumnBytes n p col m g).getD (i * n + c) 0 =
      if i < m ∧ i ≠ p ∧ g.getD (i * n + col) 0 ≠ 0 then g.getD (i * n + c) 0 ^^^ g.getD (p * n + c) 0
      else g.getD (i * n + c) 0 := by
  induction m generalizing i c with
  | zero => rw [if_neg fun h => Nat.not_lt_zero i h.1]; rfl
  | succ m ih =>
    have hstep : clearColumnBytes n p col (m + 1) g =
        if m ≠ p ∧ (clearColumnBytes n p col m g).getD (m * n + col) 0 ≠ 0 then
          combineRow 0 (· ^^^ ·) n m p n (clearColumnBytes n p col m g) else clearColumnBytes n p col m g := by
      rw [clearColumnBytes,List.range_succ,List.foldl_append]
      rfl
    have hlen' := (length_clearColumnBytes n p col m g).trans hlen
    have hwaiting : ∀ e < n, (clearColumnBytes n p col m g).getD (m * n + e) 0 = g.getD (m * n + e) 0 := by
      intro e he
      rw [ih (Nat.le_of_lt hm) he,if_neg fun h => Nat.lt_irrefl m h.1]
    have hpivot : (clearColumnBytes n p col m g).getD (p * n + c) 0 = g.getD (p * n + c) 0 := by
      rw [ih (Nat.le_of_lt hm) hc,if_neg fun h => h.2.1 rfl]
    rw [hstep,hwaiting col hcol]
    by_cases him : i = m
    · subst him
      simp only [Nat.lt_succ_self,true_and]
      split
      · rw [getD_combineRow _ hlen' hm le_rfl hc,if_pos ⟨rfl,hc⟩,hwaiting c hc,hpivot]
      · exact hwaiting c hc
    · have hiff : i < m + 1 ↔ i < m := by omega
      simp only [hiff]
      rw [← ih (Nat.le_of_lt hm) hc]
      split
      · rw [getD_combineRow _ hlen' hm le_rfl hc,if_neg fun h => him h.1]
      · rfl

theorem Represents.clear (h : Represents n k w rows g) {p col : Nat} (hp : p < k) (hcol : col < n) :
    Represents n k w (clearColumn rows p col) (clearColumnBytes n p col k g) := by
  have hp' : p < rows.length := h.rows_length ▸ hp
  refine ⟨(length_clearColumn rows p col).trans h.rows_length,h.uniform.clearColumn hp' col,
    (length_clearColumnBytes n p col k g).trans h.length,fun i hi c hc => ?_⟩
  have hi' : i < rows.length := h.rows_length ▸ hi
  rw [getD_clearColumnBytes h.length le_rfl hcol hc,getD_clearColumn hi',h.entry i hi c hc,h.entry i hi col hcol,
    h.entry p hp c hc]
  by_cases hcond : i ≠ p ∧ (rows.getD i []).bit col = true
  · rw [if_pos ⟨hi,hcond.1,(toUInt8_ne_zero _).2 hcond.2⟩,if_pos hcond,
      BitRow.bit_xor ((h.uniform i hi').trans (h.uniform p hp').symm),toUInt8_xor]
  · rw [if_neg fun h => hcond ⟨h.2.1,(toUInt8_ne_zero _).1 h.2.2⟩,if_neg hcond]

/-- The two eliminations side by side. -/
structure Alike (n k w : Nat) (s : Elimination) (b : ByteElimination) : Prop where
  rows : Represents n k w s.rows b.g
  pivotCol : b.pivotCol = s.pivotCol

theorem Alike.step {s : Elimination} {b : ByteElimination} (h : Alike n k w s b) {col : Nat} (hcol : col < n) :
    Alike n k w (eliminateColumn k s col) (byteEliminateColumn n k b col) := by
  rw [eliminateColumn,byteEliminateColumn,h.pivotCol]
  by_cases hfull : s.pivotCol.length ≥ k
  · rw [if_pos hfull,if_pos hfull]
    exact h
  rw [if_neg hfull,if_neg hfull]
  have hsearch : (List.range' s.pivotCol.length (k - s.pivotCol.length)).find?
      (fun r => b.g.getD (r * n + col) 0 ≠ 0) =
      (List.range' s.pivotCol.length (k - s.pivotCol.length)).find? fun r => (s.rows.getD r []).bit col := by
    refine List.find?_congr fun r hr => ?_
    have hrk : r < k := by
      have hlast := (List.mem_range'_1.1 hr).2
      omega
    rw [h.rows.entry r hrk col hcol]
    simp [toUInt8_ne_zero]
  rw [hsearch]
  cases hfound : (List.range' s.pivotCol.length (k - s.pivotCol.length)).find? fun r => (s.rows.getD r []).bit col with
  | none => exact h
  | some r =>
    have hlast := (List.mem_range'_1.1 (List.mem_of_find?_eq_some hfound)).2
    have hrk : r < k := by omega
    have hpk : s.pivotCol.length < k := Nat.lt_of_not_le hfull
    exact ⟨(h.rows.swap hrk hpk).clear hpk hcol,rfl⟩

theorem Alike.run {s : Elimination} {b : ByteElimination} (h : Alike n k w s b) :
    Alike n k w ((List.range n).foldl (eliminateColumn k) s) ((List.range n).foldl (byteEliminateColumn n k) b) :=
  List.foldl_rel h fun _ hcol _ _ hab => hab.step (List.mem_range.1 hcol)

/-- The unpacked rows are the bytes. -/
theorem Represents.unpack {P : LdpcParams} (h : Represents P.N P.K w rows g) : unpackRows P rows = g := by
  refine List.ext_getElem ?_ fun i hi hi' => ?_
  · rw [unpackRows,List.length_map,List.length_range,h.length]
  · rw [h.length] at hi'
    have hpos : 0 < P.N := by
      by_contra h0
      rw [Nat.eq_zero_of_not_pos h0,Nat.mul_zero] at hi'
      exact Nat.not_lt_zero i hi'
    have hrow : i / P.N < P.K := Nat.div_lt_of_lt_mul (by rwa [Nat.mul_comm])
    have hentry := h.entry (i / P.N) hrow (i % P.N) (Nat.mod_lt i hpos)
    rw [Nat.mul_comm,Nat.div_add_mod,List.getD_eq_getElem _ _ (by rwa [h.length])] at hentry
    simp only [unpackRows,List.getElem_map,List.getElem_range]
    exact hentry.symm

end Simulation

section Equality
variable {F : Type} [F32 F] (P : LdpcParams) (sorter : SortUnstable) (llr : List F)

private theorem byteGenerator_entry (perm : List Nat) {i c : Nat} (hi : i < P.K) (hc : c < P.N) :
    (byteGenerator P perm).getD (i * P.N + c) 0 = (P.generator i (perm.getD c 0)).toUInt8 := by
  have hdiv : (i * P.N + c) / P.N = i := by
    rw [Nat.mul_comm,Nat.mul_add_div (Nat.zero_lt_of_lt hc),Nat.div_eq_of_lt hc,Nat.add_zero]
  have hmod : (i * P.N + c) % P.N = c := by
    rw [Nat.mul_comm,Nat.mul_add_mod,Nat.mod_eq_of_lt hc]
  have hin : i * P.N + c < (byteGenerator P perm).length := by
    rw [byteGenerator,List.length_map,List.length_range]
    exact rowMajor_lt hi hc
  rw [List.getD_eq_getElem _ _ hin]
  simp only [byteGenerator,List.getElem_map,List.getElem_range,hdiv,hmod,LdpcParams.generator]
  split
  · rfl
  · rw [LdpcParams.genParity]
    split <;> rfl

/-- Packed rows with the bits of the generator are its bytes. -/
private theorem represents_generator (perm : List Nat) {rows : List BitRow} {w : Nat} (hlen : rows.length = P.K)
    (hrow : ∀ i < P.K, (rows.getD i []).length = w)
    (hbit : ∀ i < P.K, ∀ c < P.N, (rows.getD i []).bit c = P.generator i (perm.getD c 0)) :
    Represents P.N P.K w rows (byteGenerator P perm) where
  rows_length := hlen
  uniform i hi := hrow i (hlen ▸ hi)
  length := by rw [byteGenerator,List.length_map,List.length_range]
  entry i hi c hc := by rw [byteGenerator_entry P perm hi hc,hbit i hi c hc]

private theorem represents_packedGenerator (perm : List Nat) :
    Represents P.N P.K ((P.N + 63) / 64) (packedGenerator P perm) (byteGenerator P perm) := by
  refine represents_generator P perm (by rw [packedGenerator,List.length_map,List.length_range]) ?_ ?_
  · intro i hi
    rw [packedGenerator,getD_map_range _ _ hi,BitRow.length_pack]
  · intro i hi c hc
    rw [packedGenerator,getD_map_range _ _ hi,BitRow.bit_pack (by omega),decide_eq_true hc,Bool.true_and]

private theorem orBit_eq (row : BitRow) (c : Nat) (bit : Bool) :
    orBit row c bit = if bit then row.setBit c else row := by
  cases bit with
  | true => rfl
  | false =>
    rw [orBit,if_neg Bool.false_ne_true,if_neg Bool.false_ne_true]
    have hid : (fun w : BitVec 64 => w ||| (0#64) <<< (c % 64)) = id := by
      funext w
      simp
    rw [hid]
    exact List.modify_id _ _

/-- The unconditional stores of LDPC(174, 91) build the same rows. -/
theorem packedGenerator174_eq (perm : List Nat) :
    packedGenerator174 perm = packedGenerator Ldpc174_91Params perm := by
  refine List.map_congr_left fun row _ => ?_
  simp only [orBit_eq]
  rfl

private theorem alike_eliminate (perm : List Nat) :
    Alike P.N P.K ((P.N + 63) / 64) (eliminate P perm) (byteEliminate P perm) :=
  Alike.run ⟨represents_packedGenerator P perm,rfl⟩

private theorem osdSetupGenericPacked_bytes :
    (osdSetupGenericPacked P sorter llr).map OsdBasis.bytes = osdSetupGenericReference P sorter llr := by
  have halike := alike_eliminate P (reliabilityOrder P sorter llr)
  rw [osdSetupGenericPacked,osdSetupGenericReference,halike.pivotCol,← halike.rows.unpack]
  split
  · rfl
  · rw [Option.map_some,OsdBasis.bytes,List.map_map]
    rfl

/-- One elimination or the other, the passes start from the same setup. -/
private theorem osdSetupOf_eliminate (perm : List Nat) :
    (if (eliminate P perm).pivotCol.length < P.K then none
      else some (osdSetupOf P llr perm (unpackRows P (eliminate P perm).rows) (eliminate P perm).pivotCol)) =
    if (byteEliminate P perm).pivotCol.length < P.K then none
      else some (osdSetupOf P llr perm (byteEliminate P perm).g (byteEliminate P perm).pivotCol) := by
  have halike := alike_eliminate P perm
  rw [halike.pivotCol,halike.rows.unpack]

/-- The packed setups are the setups on bytes, for every code and every vector. -/
theorem packedSetup_eq_reference {F : Type} [F32 F] (sorter : SortUnstable) :
    (∀ (P : LdpcParams) (llr : List F),
      (osdSetupGenericPacked P sorter llr).map OsdBasis.bytes = osdSetupGenericReference P sorter llr) ∧
    ∀ llr : List F, osdSetupLdpc174_91 sorter llr = osdSetupLdpc174_91ByteReference sorter llr := by
  refine ⟨fun P llr => osdSetupGenericPacked_bytes P sorter llr,fun llr => ?_⟩
  have hsetup := osdSetupOf_eliminate Ldpc174_91Params llr (reliabilityOrder Ldpc174_91Params sorter llr)
  rw [eliminate,← packedGenerator174_eq] at hsetup
  exact hsetup

end Equality

end MfskCore.Fec
