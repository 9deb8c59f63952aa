import MfskCore.Msg.Wsjt77Pack

/-! Words over a fixed alphabet as numbers in its base, the way the packers of `msg/wsjt77.rs` take
them in and the unpackers give them out. -/
namespace MfskCore.Msg

variable {alphabet : List UInt8} {base : Nat}

/-- Digits read back in the order they were taken. -/
theorem fillDigits_packed (hbase : alphabet.length = base) {ds : List UInt8} {n : Nat}
    (h : ds.foldlM (fun n ch => (alphabet.idxOf? ch).map fun idx => n * base + idx) 0 = some n) :
    n < base^ds.length ∧ fillDigits alphabet base ds.length n = ds := by
  induction ds using List.reverseRecOn generalizing n with
  | nil =>
    obtain rfl : 0 = n := by simpa using h
    exact ⟨Nat.one_pos,rfl⟩
  | append_singleton ds d ih =>
    rw [List.foldlM_append] at h
    obtain ⟨q,hq,h⟩ := Option.bind_eq_some_iff.1 h
    obtain ⟨hlt,hdigits⟩ := ih hq
    simp only [List.foldlM_cons,List.foldlM_nil] at h
    obtain ⟨n',hn',h⟩ := Option.bind_eq_some_iff.1 h
    obtain rfl : n' = n := by simpa using h
    obtain ⟨i,hi,rfl⟩ := Option.map_eq_some_iff.1 hn'
    obtain ⟨hlen,hd,-⟩ := List.idxOf?_eq_some_iff.1 hi
    have hi' : i < base := hbase ▸ hlen
    rw [List.length_append,List.length_singleton,fillDigits]
    have hdiv : (q * base + i) / base = q := by
      rw [Nat.mul_comm,Nat.mul_add_div (Nat.zero_lt_of_lt hi'),Nat.div_eq_of_lt hi',Nat.add_zero]
    have hmod : (q * base + i) % base = i := by
      rw [Nat.mul_comm,Nat.mul_add_mod,Nat.mod_eq_of_lt hi']
    have hnext : (q + 1) * base ≤ base^ds.length * base := Nat.mul_le_mul_right base hlt
    rw [Nat.succ_mul] at hnext
    refine ⟨by rw [Nat.pow_succ]; omega,?_⟩
    rw [hdiv,hmod,hdigits,List.getD_eq_getElem?_getD,List.getElem?_eq_getElem hlen,Option.getD_some,hd]

/-- Exactly the words over the alphabet have a number. -/
theorem packed_isSome_iff {ds : List UInt8} (n : Nat) :
    (ds.foldlM (fun n ch => (alphabet.idxOf? ch).map fun idx => n * base + idx) n).isSome = true ↔
      ds ⊆ alphabet := by
  induction ds generalizing n with
  | nil => simp
  | cons d ds ih =>
    rw [List.foldlM_cons,List.cons_subset]
    cases hi : alphabet.idxOf? d with
    | none =>
      have hd : d ∉ alphabet := List.idxOf?_eq_none_iff.1 hi
      simp [hd]
    | some i =>
      have hd : d ∈ alphabet := List.isSome_idxOf?.1 (by rw [hi]; rfl)
      simp only [hd,true_and]
      exact ih (n * base + i)

/-- Digits in range are characters of the alphabet. -/
theorem fillDigits_subset (hbase : alphabet.length = base) (hpos : 0 < base) (k n : Nat) :
    fillDigits alphabet base k n ⊆ alphabet := by
  induction k generalizing n with
  | zero => exact List.nil_subset _
  | succ k ih =>
    rw [fillDigits]
    refine List.append_subset.2 ⟨ih _,?_⟩
    intro b hb
    have hlt : n % base < alphabet.length := (Nat.mod_lt n hpos).trans_eq hbase.symm
    rw [List.mem_singleton.1 hb,List.getD_eq_getElem?_getD,List.getElem?_eq_getElem hlt,Option.getD_some]
    exact List.getElem_mem hlt

end MfskCore.Msg
