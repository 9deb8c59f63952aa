import MfskCore.Fec.Osd
import MfskCore.Library.Checked
import MfskCore.Library.LinkedChain
import Mathlib.Data.Nat.Bitwise

/-! The pair table of the second pruned pass (`fec/ldpc/osd.rs`) as the source keeps it, in three vectors with
links. It lists the pairs of rows under a key in the order of the list table. -/
namespace MfskCore.Fec
open Rust Library

section ListTable
variable {ntau : Nat} {parity : Nat → Nat → Bool}

theorem iterPairs_insert (m : OsdNpre2Table) (key i1 i2 k : Nat) :
    (OsdNpre2Table.insert m key i1 i2).iterPairs k =
      if key = k then (i1,i2) :: m.iterPairs k else m.iterPairs k := by
  unfold OsdNpre2Table.insert OsdNpre2Table.iterPairs
  by_cases h : key = k
  · rw [if_pos h,List.filter_cons_of_pos (by simpa using h),List.map_cons]
  · rw [if_neg h,List.filter_cons_of_neg (by simpa using h)]

/-- The entries in the order they are inserted. -/
def npre2Entries (k ntau : Nat) (parity : Nat → Nat → Bool) : List (Nat × Nat × Nat) :=
  (List.range k).flatMap fun i1 => (List.range i1).map fun i2 =>
    (npreKey ntau (parity i1) ^^^ npreKey ntau (parity i2),i1,i2)

theorem buildNpre2Table_eq (k ntau : Nat) (parity : Nat → Nat → Bool) :
    buildNpre2Table k ntau parity = (npre2Entries k ntau parity).reverse := by
  have hcons (es : List (Nat × Nat × Nat)) (t : OsdNpre2Table) :
      es.foldl (fun t e => OsdNpre2Table.insert t e.1 e.2.1 e.2.2) t = es.reverse ++ t := by
    induction es generalizing t with
    | nil => rfl
    | cons e es ih =>
      rw [List.foldl_cons,ih,OsdNpre2Table.insert,List.reverse_cons,List.append_assoc]
      rfl
  have hflat : buildNpre2Table k ntau parity =
      (npre2Entries k ntau parity).foldl (fun t e => OsdNpre2Table.insert t e.1 e.2.1 e.2.2) [] := by
    rw [npre2Entries,List.foldl_flatMap]
    simp only [List.foldl_map]
    rfl
  rw [hflat,hcons,List.append_nil]

/-- One bit of a key is one bit of the parity, the first in the highest place. -/
theorem testBit_npreKey (ntau : Nat) (parity : Nat → Bool) (b : Nat) :
    (npreKey ntau parity).testBit b = (decide (b < ntau) && parity (ntau - 1 - b)) := by
  have hupTo (m : Nat) (hm : m ≤ ntau) :
      ((List.range m).foldl (fun key j => if parity j then key ||| 1 <<< (ntau - 1 - j) else key) 0).testBit b =
        (decide (b < ntau ∧ ntau - 1 - b < m) && parity (ntau - 1 - b)) := by
    induction m with
    | zero => simp
    | succ m ih =>
      rw [List.range_succ,List.foldl_append,List.foldl_cons,List.foldl_nil]
      by_cases hb : ntau - 1 - m = b
      · have hplace : ntau - 1 - b = m := by omega
        have hold := ih (by omega)
        rw [decide_eq_false (by omega),Bool.false_and] at hold
        rw [decide_eq_true (by omega),Bool.true_and,hplace]
        split
        · rename_i hp
          rw [Nat.testBit_or,Nat.one_shiftLeft,Nat.testBit_two_pow,decide_eq_true hb,Bool.or_true,hp]
        · rename_i hp
          rw [hold,eq_false_of_ne_true hp]
      · have hsame : (b < ntau ∧ ntau - 1 - b < m + 1) ↔ (b < ntau ∧ ntau - 1 - b < m) := by omega
        simp only [hsame]
        rw [← ih (by omega)]
        split
        · rw [Nat.testBit_or,Nat.one_shiftLeft,Nat.testBit_two_pow,decide_eq_false hb,Bool.or_false]
        · rfl
  have hiff : (b < ntau ∧ ntau - 1 - b < ntau) ↔ b < ntau := by omega
  rw [npreKey,hupTo ntau (Nat.le_refl ntau)]
  simp only [hiff]

theorem npreKey_lt (ntau : Nat) (parity : Nat → Bool) : npreKey ntau parity < 2^ntau := by
  refine Nat.lt_pow_two_of_testBit _ fun b hb => ?_
  rw [testBit_npreKey,decide_eq_false (Nat.not_lt.2 hb),Bool.false_and]

/-- A key is looked up by its bits. -/
theorem npreKey_xor_eq_iff {ntau key : Nat} (hkey : key < 2^ntau) (p q : Nat → Bool) :
    npreKey ntau p ^^^ npreKey ntau q = key ↔ ∀ j < ntau, (p j ^^ q j) = key.testBit (ntau - 1 - j) := by
  constructor
  · rintro rfl j hj
    have hplace : ntau - 1 - (ntau - 1 - j) = j := by omega
    rw [Nat.testBit_xor,testBit_npreKey,testBit_npreKey,hplace,decide_eq_true (by omega),Bool.true_and,Bool.true_and]
  · intro h
    refine Nat.eq_of_testBit_eq fun b => ?_
    rw [Nat.testBit_xor,testBit_npreKey,testBit_npreKey]
    by_cases hb : b < ntau
    · have hplace : ntau - 1 - (ntau - 1 - b) = b := by omega
      rw [decide_eq_true hb,Bool.true_and,Bool.true_and,h _ (by omega),hplace]
    · have hhigh : key < 2^b := hkey.trans_le (Nat.pow_le_pow_right (by decide) (Nat.not_lt.1 hb))
      rw [decide_eq_false hb,Nat.testBit_lt_two_pow hhigh]
      rfl

/-- The pairs under a key, in the order of the list table. -/
theorem mem_iterPairs_iff {k ntau key : Nat} {parity : Nat → Nat → Bool} {i1 i2 : Nat} :
    (i1,i2) ∈ OsdNpre2Table.iterPairs (buildNpre2Table k ntau parity) key ↔
      i2 < i1 ∧ i1 < k ∧ npreKey ntau (parity i1) ^^^ npreKey ntau (parity i2) = key := by
  rw [buildNpre2Table_eq,OsdNpre2Table.iterPairs,npre2Entries]
  simp only [List.mem_map,List.mem_filter,List.mem_reverse,List.mem_flatMap,List.mem_range,decide_eq_true_eq]
  constructor
  · rintro ⟨_,⟨⟨a,ha,b,hb,rfl⟩,hk⟩,heq⟩
    obtain ⟨rfl,rfl⟩ := Prod.mk.inj heq
    exact ⟨hb,ha,hk⟩
  · rintro ⟨h2,h1,hk⟩
    exact ⟨_,⟨⟨i1,h1,i2,h2,rfl⟩,hk⟩,rfl⟩

/-- Descending order of pairs. -/
def PairAbove (p q : Nat × Nat) : Prop := q.1 < p.1 ∨ (q.1 = p.1 ∧ q.2 < p.2)

theorem iterPairs_pairwise (k ntau : Nat) (parity : Nat → Nat → Bool) (key : Nat) :
    (OsdNpre2Table.iterPairs (buildNpre2Table k ntau parity) key).Pairwise PairAbove := by
  have hup : (npre2Entries k ntau parity).Pairwise fun e f => PairAbove f.2 e.2 := by
    refine List.pairwise_flatMap.2 ⟨fun i1 _ => ?_,?_⟩
    · refine List.pairwise_map.2 (List.pairwise_lt_range.imp fun hlt => ?_)
      exact Or.inr ⟨rfl,hlt⟩
    · refine List.pairwise_lt_range.imp fun {a b} hlt => ?_
      rintro e he f hf
      obtain ⟨i,-,rfl⟩ := List.mem_map.1 he
      obtain ⟨j,-,rfl⟩ := List.mem_map.1 hf
      exact Or.inl hlt
  rw [buildNpre2Table_eq,OsdNpre2Table.iterPairs,List.pairwise_map]
  exact (List.pairwise_reverse.2 hup).filter _

end ListTable

namespace Linked

def LDPC_N : Nat := 174

def LDPC_K : Nat := 91

/-- The head of each bucket, the pairs in the order they came, and the link of each pair. -/
structure OsdNpre2Table where
  fp : List Int
  pairs : List (UInt8 × UInt8)
  next : List Int

namespace OsdNpre2Table

def new (ntau : Nat) : OsdNpre2Table := ⟨List.replicate (1 <<< ntau) (-1),[],[]⟩

/-- A key past the buckets panics. -/
def insert (t : OsdNpre2Table) (key : Nat) (i1 i2 : UInt8) : Option OsdNpre2Table :=
  let idx := asI32 t.pairs.length
  (t.fp[key]?).map fun head => ⟨t.fp.set key idx,t.pairs ++ [(i1,i2)],t.next ++ [head]⟩

/-- The pairs the iterator gives from a cursor, if it ends within the given number of calls. -/
def collect (t : OsdNpre2Table) : Nat → Int → Option (List (UInt8 × UInt8))
  | 0, _ => none
  | calls + 1, cur =>
    if cur < 0 then some []
    else
      (t.pairs[cur.toNat]?).bind fun entry =>
      (t.next[cur.toNat]?).bind fun cur => (t.collect calls cur).map fun rest => entry :: rest

def iterPairs (t : OsdNpre2Table) (key calls : Nat) : Option (List (UInt8 × UInt8)) :=
  (t.fp[key]?).bind fun cur => t.collect calls cur

end OsdNpre2Table

/-- The key of one row of the generator. -/
def rowKey (g : List UInt8) (ntau i : Nat) : Option UInt16 :=
  let rowBase := i * LDPC_N
  (List.range ntau).foldlM (fun rk j =>
    (g[rowBase + LDPC_K + j]?).map fun bit =>
      if bit ≠ 0 then rk ||| (1 : UInt16) <<< UInt16.ofNat (ntau - 1 - j) else rk) 0

def buildNpre2Table (g : List UInt8) (ntau : Nat) : Option OsdNpre2Table :=
  ((List.range LDPC_K).mapM fun i => rowKey g ntau i).bind fun rowKeys =>
  (List.range LDPC_K).foldlM (fun t i1 =>
    (List.range i1).foldlM (fun t i2 =>
      let key := (rowKeys.getD i1 0 ^^^ rowKeys.getD i2 0).toNat
      t.insert key (UInt8.ofNat i1) (UInt8.ofNat i2)) t) (OsdNpre2Table.new ntau)

section Simulation

/-- An entry as the vectors keep it. -/
def stored (p : Nat × Nat) : UInt8 × UInt8 := (UInt8.ofNat p.1,UInt8.ofNat p.2)

/-- The vectors list, under each key, what the list table lists. -/
structure Holds (buckets : Nat) (t : OsdNpre2Table) (m : Fec.OsdNpre2Table) : Prop where
  heads : t.fp.length = buckets
  entries : t.pairs.length = m.length
  links : t.next.length = m.length
  chains : ∀ key < buckets, ∃ places, Chain t.next (t.fp.getD key (-1)) places ∧
    places.map (fun i => t.pairs[i]?) = (m.iterPairs key).map fun p => some (stored p)

theorem holds_new (ntau : Nat) : Holds (2^ntau) (OsdNpre2Table.new ntau) [] := by
  refine ⟨by rw [OsdNpre2Table.new,List.length_replicate,Nat.one_shiftLeft],rfl,rfl,
    fun key hkey => ⟨[],.done ?_,rfl⟩⟩
  rw [OsdNpre2Table.new,List.getD_replicate _ (Nat.one_shiftLeft ntau ▸ hkey)]
  decide

/-- An insertion in front of one chain leaves the others. -/
theorem Holds.insert {buckets : Nat} {t : OsdNpre2Table} {m : Fec.OsdNpre2Table} (h : Holds buckets t m)
    (hroom : m.length < 2^31) {key : Nat} (hkey : key < buckets) (p : Nat × Nat) :
    ∃ t', t.insert key (stored p).1 (stored p).2 = some t' ∧ Holds buckets t' (m.insert key p.1 p.2) := by
  have hin : key < t.fp.length := h.heads.symm ▸ hkey
  have hlen : t.next.length = t.pairs.length := h.links.trans h.entries.symm
  have hidx : asI32 t.pairs.length = t.next.length := by
    rw [asI32_eq (h.entries.symm ▸ hroom),hlen]
  refine ⟨⟨t.fp.set key t.next.length,t.pairs ++ [stored p],t.next ++ [t.fp.getD key (-1)]⟩,?_,?_⟩
  · rw [OsdNpre2Table.insert,getElem?_eq_some_getD hin (-1),Option.map_some,hidx]
  · have hold {places : List Nat} {cur : Int} (hchain : Chain t.next cur places) :
        places.map (fun i => (t.pairs ++ [stored p])[i]?) = places.map (fun i => t.pairs[i]?) := by
      refine List.map_congr_left fun i hi => List.getElem?_append_left ?_
      have hle := hchain.places_le i hi
      have hlt := hchain.cursor_lt
      omega
    refine ⟨by rw [List.length_set,h.heads],by rw [List.length_append,h.entries]; rfl,
      by rw [List.length_append,h.links]; rfl,fun k hk => ?_⟩
    obtain ⟨places,hchain,hpairs⟩ := h.chains k hk
    have hget : (t.fp.set key (t.next.length : Int)).getD k (-1) =
        if key = k then (t.next.length : Int) else t.fp.getD k (-1) := by
      rw [List.getD_eq_getElem?_getD,List.getElem?_set,List.getD_eq_getElem?_getD]
      by_cases hkk : key = k
      · rw [if_pos hkk,if_pos hkk,if_pos hin]
        rfl
      · rw [if_neg hkk,if_neg hkk]
    rw [hget]
    by_cases hkk : key = k
    · subst hkk
      rw [if_pos rfl]
      refine ⟨t.next.length :: places,hchain.push,?_⟩
      rw [List.map_cons,hold hchain,hpairs,iterPairs_insert,if_pos rfl,List.map_cons,hlen,
        List.getElem?_concat_length]
    · rw [if_neg hkk]
      refine ⟨places,hchain.append _,?_⟩
      rw [hold hchain,hpairs,iterPairs_insert,if_neg hkk]

/-- The walk gives the entries of a chain in their order, and ends. -/
theorem collect_chain {t : OsdNpre2Table} {cur : Int} {places : List Nat} (h : Chain t.next cur places)
    {found : List (UInt8 × UInt8)} (hfound : places.map (fun i => t.pairs[i]?) = found.map some) {calls : Nat}
    (hcalls : places.length < calls) : t.collect calls cur = some found := by
  induction h generalizing found calls with
  | done hend =>
    cases calls with
    | zero => exact absurd hcalls (Nat.not_lt_zero _)
    | succ calls =>
      obtain rfl : found = [] := by simpa using hfound.symm
      exact if_pos hend
  | @link i cursor places hget _ _ ih =>
    cases calls with
    | zero => exact absurd hcalls (Nat.not_lt_zero _)
    | succ calls =>
      cases found with
      | nil => simp at hfound
      | cons entry found =>
        obtain ⟨hentry,hrest⟩ : t.pairs[i]? = some entry ∧ _ := List.cons.inj hfound
        rw [OsdNpre2Table.collect,if_neg (Int.not_lt.2 (Int.natCast_nonneg i)),Int.toNat_natCast,hentry,
          Option.bind_some,hget,Option.bind_some,ih hrest (Nat.lt_of_succ_lt_succ hcalls)]
        rfl

theorem Holds.iterPairs {buckets : Nat} {t : OsdNpre2Table} {m : Fec.OsdNpre2Table} (h : Holds buckets t m) {key : Nat}
    (hkey : key < buckets) {calls : Nat} (hcalls : t.pairs.length < calls) :
    t.iterPairs key calls = some ((m.iterPairs key).map stored) := by
  obtain ⟨places,hchain,hpairs⟩ := h.chains key hkey
  have hin : key < t.fp.length := h.heads.symm ▸ hkey
  have hlen : t.next.length = t.pairs.length := h.links.trans h.entries.symm
  rw [OsdNpre2Table.iterPairs,getElem?_eq_some_getD hin (-1),Option.bind_some]
  refine collect_chain hchain (hpairs.trans (List.map_map).symm) ?_
  exact (hchain.length_le.trans_eq hlen).trans_lt hcalls

/-- A series of insertions into an empty table. -/
theorem holds_run (ntau : Nat) (es : List (Nat × Nat × Nat)) (hkeys : ∀ e ∈ es, e.1 < 2^ntau) (hroom : es.length ≤ 2^31) :
    ∃ t, es.foldlM (fun t e => OsdNpre2Table.insert t e.1 (stored e.2).1 (stored e.2).2) (OsdNpre2Table.new ntau) = some t ∧
      Holds (2^ntau) t es.reverse := by
  induction es using List.reverseRecOn with
  | nil => exact ⟨_,rfl,holds_new ntau⟩
  | append_singleton es e ih =>
    rw [List.length_append,List.length_singleton] at hroom
    obtain ⟨t,hrun,ht⟩ := ih (fun e he => hkeys e (List.mem_append_left _ he)) (by omega)
    obtain ⟨t',hstep,ht'⟩ := ht.insert (by rw [List.length_reverse]; omega) (hkeys e (by simp)) e.2
    refine ⟨t',?_,?_⟩
    · rw [List.foldlM_append,hrun,Option.bind_eq_bind,Option.bind_some,List.foldlM_cons,hstep]
      rfl
    · rw [List.reverse_append]
      exact ht'

end Simulation

section Build
variable {g : List UInt8} {ntau : Nat}

/-- Whether a row has a parity bit. -/
def parityBit (g : List UInt8) (i j : Nat) : Bool := g.getD (i * LDPC_N + LDPC_K + j) 0 ≠ 0

private def addKeyBit (g : List UInt8) (ntau i : Nat) (rk : UInt16) (j : Nat) : UInt16 :=
  if parityBit g i j then rk ||| (1 : UInt16) <<< UInt16.ofNat (ntau - 1 - j) else rk

/-- The key fits in sixteen bits. -/
private theorem toNat_addKeyBits (hntau : ntau ≤ 14) (i m : Nat) :
    ((List.range m).foldl (addKeyBit g ntau i) 0).toNat =
      (List.range m).foldl (fun key j => if parityBit g i j then key ||| 1 <<< (ntau - 1 - j) else key) 0 := by
  have hbit (j : Nat) : ((1 : UInt16) <<< UInt16.ofNat (ntau - 1 - j)).toNat = 1 <<< (ntau - 1 - j) := by
    have hplace : ntau - 1 - j < 16 := by omega
    have hfits : 1 <<< (ntau - 1 - j) < 2^16 := by
      rw [Nat.one_shiftLeft]
      exact Nat.pow_lt_pow_right (by decide) hplace
    rw [UInt16.toNat_shiftLeft,UInt16.toNat_ofNat',Nat.mod_eq_of_lt (hplace.trans (by decide)),Nat.mod_eq_of_lt hplace]
    exact Nat.mod_eq_of_lt hfits
  induction m with
  | zero => rfl
  | succ m ih =>
    rw [List.range_succ,List.foldl_append,List.foldl_append,List.foldl_cons,List.foldl_nil,List.foldl_cons,List.foldl_nil,
      ← ih,addKeyBit]
    split
    · rw [UInt16.toNat_or,hbit]
    · rfl

private theorem rowKey_eq (hg : g.length = LDPC_K * LDPC_N) (hntau : ntau ≤ 14) {i : Nat} (hi : i < LDPC_K) :
    rowKey g ntau i = some ((List.range ntau).foldl (addKeyBit g ntau i) 0) := by
  refine (foldlM_eq_some (fun _ => True) (fun j hj rk _ => ⟨?_,trivial⟩) trivial).1
  have hj' := List.mem_range.1 hj
  have hin : i * LDPC_N + LDPC_K + j < g.length := by
    rw [hg]
    unfold LDPC_K LDPC_N at *
    omega
  rw [getElem?_eq_some_getD hin 0,Option.map_some,addKeyBit,parityBit]
  simp only [decide_eq_true_eq]

/-- Building the table is a series of insertions. -/
private theorem buildNpre2Table_run (hg : g.length = LDPC_K * LDPC_N) (hntau : ntau ≤ 14) :
    buildNpre2Table g ntau = (npre2Entries LDPC_K ntau (parityBit g)).foldlM
      (fun t e => OsdNpre2Table.insert t e.1 (stored e.2).1 (stored e.2).2) (OsdNpre2Table.new ntau) := by
  have hkeys : (List.range LDPC_K).mapM (fun i => rowKey g ntau i) =
      some ((List.range LDPC_K).map fun i => (List.range ntau).foldl (addKeyBit g ntau i) 0) :=
    mapM_eq_some fun i hi => rowKey_eq hg hntau (List.mem_range.1 hi)
  have hget {i : Nat} (hi : i < LDPC_K) :
      (((List.range LDPC_K).map fun i => (List.range ntau).foldl (addKeyBit g ntau i) 0).getD i 0).toNat =
        npreKey ntau (parityBit g i) := by
    rw [List.getD_eq_getElem _ _ (by simpa using hi),List.getElem_map,List.getElem_range,toNat_addKeyBits hntau]
    rfl
  rw [buildNpre2Table,hkeys,Option.bind_some,npre2Entries,foldlM_flatMap]
  refine foldlM_congr (fun i1 hi1 t => ?_) _
  rw [List.foldlM_map]
  refine foldlM_congr (fun i2 hi2 t => ?_) _
  have h1 := List.mem_range.1 hi1
  have h2 := List.mem_range.1 hi2
  rw [UInt16.toNat_xor,hget h1,hget (h2.trans h1)]
  rfl

private theorem length_npre2Entries (parity : Nat → Nat → Bool) : (npre2Entries LDPC_K ntau parity).length = 4095 := by
  rw [npre2Entries,List.length_flatMap]
  simp only [List.length_map,List.length_range]
  decide

private theorem npre2Entries_key_lt {parity : Nat → Nat → Bool} {e : Nat × Nat × Nat}
    (he : e ∈ npre2Entries LDPC_K ntau parity) : e.1 < 2^ntau := by
  obtain ⟨i1,-,he⟩ := List.mem_flatMap.1 he
  obtain ⟨i2,-,rfl⟩ := List.mem_map.1 he
  exact Nat.xor_lt_two_pow (npreKey_lt ntau _) (npreKey_lt ntau _)

private theorem toNat_ofNat_row {i : Nat} (hi : i < LDPC_K) : (UInt8.ofNat i).toNat = i :=
  Nat.mod_eq_of_lt (hi.trans (by decide))

/-- A row's number fits in a byte. -/
private theorem stored_lt {p q : Nat × Nat} (hp : p.2 < p.1 ∧ p.1 < LDPC_K) (hq : q.2 < q.1 ∧ q.1 < LDPC_K)
    (h : PairAbove p q) :
    (stored q).1 < (stored p).1 ∨ ((stored q).1 = (stored p).1 ∧ (stored q).2 < (stored p).2) := by
  rcases h with h | ⟨h1,h2⟩
  · refine Or.inl (UInt8.lt_iff_toNat_lt.2 ?_)
    rwa [stored,stored,toNat_ofNat_row hp.2,toNat_ofNat_row hq.2]
  · refine Or.inr ⟨by rw [stored,stored,h1],UInt8.lt_iff_toNat_lt.2 ?_⟩
    rwa [stored,stored,toNat_ofNat_row (hp.1.trans hp.2),toNat_ofNat_row (hq.1.trans hq.2)]

/-- Under every key the iterator ends, and gives the pairs of rows whose sum has the key in its first parity bits,
each once, the last rows first: the order of the list table. -/
theorem npre2_table_enumerates (g : List UInt8) (hg : g.length = LDPC_K * LDPC_N) (ntau : Nat) (hntau : ntau ≤ 14)
    (key : Nat) (hkey : key < 2^ntau) :
    ∃ table pairs, buildNpre2Table g ntau = some table ∧
      (∀ calls, table.pairs.length < calls → table.iterPairs key calls = some pairs) ∧
      pairs.Pairwise (fun p q => q.1 < p.1 ∨ (q.1 = p.1 ∧ q.2 < p.2)) ∧
      (∀ i1 i2, (i1,i2) ∈ pairs ↔ i2 < i1 ∧ i1.toNat < LDPC_K ∧
        ∀ j < ntau, (parityBit g i1.toNat j ^^ parityBit g i2.toNat j) = key.testBit (ntau - 1 - j)) ∧
      pairs.map (fun p => (p.1.toNat,p.2.toNat)) =
        (Fec.buildNpre2Table LDPC_K ntau (parityBit g)).iterPairs key := by
  obtain ⟨table,hrun,hholds⟩ := holds_run ntau (npre2Entries LDPC_K ntau (parityBit g))
    (fun e he => npre2Entries_key_lt he) (by rw [length_npre2Entries]; decide)
  rw [← buildNpre2Table_eq] at hholds
  have hmem {p : Nat × Nat} (hp : p ∈ (Fec.buildNpre2Table LDPC_K ntau (parityBit g)).iterPairs key) :
      p.2 < p.1 ∧ p.1 < LDPC_K := ⟨(mem_iterPairs_iff.1 hp).1,(mem_iterPairs_iff.1 hp).2.1⟩
  refine ⟨table,_,(buildNpre2Table_run hg hntau).trans hrun,fun calls hcalls => hholds.iterPairs hkey hcalls,?_,?_,?_⟩
  · rw [List.pairwise_map]
    refine (iterPairs_pairwise LDPC_K ntau (parityBit g) key).imp_of_mem fun {p q} hp hq hpq => ?_
    exact stored_lt (hmem hp) (hmem hq) hpq
  · intro i1 i2
    rw [List.mem_map,← npreKey_xor_eq_iff hkey]
    constructor
    · rintro ⟨⟨a,b⟩,hp,heq⟩
      obtain ⟨rfl,rfl⟩ := Prod.mk.inj heq
      obtain ⟨hba,ha,hk⟩ := mem_iterPairs_iff.1 hp
      rw [toNat_ofNat_row ha,toNat_ofNat_row (hba.trans ha)]
      exact ⟨UInt8.lt_iff_toNat_lt.2 (by rwa [toNat_ofNat_row ha,toNat_ofNat_row (hba.trans ha)]),ha,hk⟩
    · rintro ⟨h21,h1,hk⟩
      exact ⟨(i1.toNat,i2.toNat),mem_iterPairs_iff.2 ⟨UInt8.lt_iff_toNat_lt.1 h21,h1,hk⟩,
        by rw [stored,UInt8.ofNat_toNat,UInt8.ofNat_toNat]⟩
  · rw [List.map_map]
    refine (List.map_congr_left fun p hp => ?_).trans (List.map_id _)
    obtain ⟨h21,h1⟩ := hmem hp
    rw [Function.comp_apply,stored,toNat_ofNat_row h1,toNat_ofNat_row (h21.trans h1)]
    rfl

/-- A generator with every fifth entry set. -/
def stripedGenerator : List UInt8 := (List.range (LDPC_K * LDPC_N)).map fun i => if i % 5 = 0 then 1 else 0

/-- The pairs of its rows whose sum has `01` in the first two parity bits. -/
theorem npre2_table_striped : ∃ table pairs, buildNpre2Table stripedGenerator 2 = some table ∧
    (∀ calls, table.pairs.length < calls → table.iterPairs 1 calls = some pairs) ∧
    pairs.Pairwise (fun p q => q.1 < p.1 ∨ (q.1 = p.1 ∧ q.2 < p.2)) ∧
    (∀ i1 i2, (i1,i2) ∈ pairs ↔ i2 < i1 ∧ i1.toNat < LDPC_K ∧ ∀ j < 2,
      (parityBit stripedGenerator i1.toNat j ^^ parityBit stripedGenerator i2.toNat j) = (1 : Nat).testBit (2 - 1 - j)) ∧
    pairs.map (fun p => (p.1.toNat,p.2.toNat)) =
      (Fec.buildNpre2Table LDPC_K 2 (parityBit stripedGenerator)).iterPairs 1 :=
  npre2_table_enumerates stripedGenerator (by rw [stripedGenerator,List.length_map,List.length_range]) 2 (by decide) 1
    (by decide)

end Build

end Linked

end MfskCore.Fec
