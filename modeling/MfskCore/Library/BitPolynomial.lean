import Mathlib.Algebra.Field.ZMod
import Mathlib.Algebra.Polynomial.Div
import Mathlib.Algebra.Polynomial.FieldDivision
import Mathlib.Tactic.LinearCombination

/-! Words as polynomials over the field of two elements, and long division by a shift register that keeps
the remainder. -/
namespace MfskCore.Library
open Polynomial

/-- The polynomial of a word, its first bit the highest coefficient. -/
noncomputable def bitPoly (l : List Bool) : (ZMod 2)[X] :=
  l.foldl (fun p b => X * p + C (if b then 1 else 0)) 0

section Words

theorem bitPoly_concat (l : List Bool) (b : Bool) :
    bitPoly (l ++ [b]) = X * bitPoly l + C (if b then 1 else 0) := by
  rw [bitPoly,List.foldl_append]
  rfl

theorem bitPoly_append (l m : List Bool) : bitPoly (l ++ m) = bitPoly l * X^m.length + bitPoly m := by
  induction m using List.reverseRecOn with
  | nil =>
    rw [List.append_nil,List.length_nil,pow_zero,mul_one]
    exact (add_zero _).symm
  | append_singleton m b ih =>
    rw [← List.append_assoc,bitPoly_concat,ih,bitPoly_concat,List.length_append,List.length_singleton,pow_succ]
    ring

theorem bitPoly_cons (b : Bool) (l : List Bool) :
    bitPoly (b :: l) = C (if b then 1 else 0) * X^l.length + bitPoly l := by
  have h := bitPoly_append [b] l
  have hone : bitPoly [b] = C (if b then 1 else 0) := by
    rw [bitPoly,List.foldl_cons,List.foldl_nil,mul_zero,zero_add]
  rwa [hone] at h

theorem bitPoly_eq_zero_of_false {l : List Bool} (h : ∀ b ∈ l, b = false) : bitPoly l = 0 := by
  induction l with
  | nil => rfl
  | cons b l ih =>
    obtain ⟨rfl,hl⟩ := List.forall_mem_cons.1 h
    rw [bitPoly_cons,ih hl,if_neg Bool.false_ne_true,C_0,zero_mul,add_zero]

theorem degree_bitPoly_lt (l : List Bool) : (bitPoly l).degree < l.length := by
  induction l with
  | nil => exact WithBot.bot_lt_coe 0
  | cons b l ih =>
    rw [bitPoly_cons,List.length_cons]
    refine (degree_add_le _ _).trans_lt (max_lt ?_ (ih.trans (by exact_mod_cast Nat.lt_succ_self _)))
    exact (degree_C_mul_X_pow_le _ _).trans_lt (by exact_mod_cast Nat.lt_succ_self _)

/-- Exclusive or is addition. -/
theorem bitPoly_xor {l m : List Bool} (h : l.length = m.length) :
    bitPoly (List.zipWith xor l m) = bitPoly l + bitPoly m := by
  induction l generalizing m with
  | nil =>
    rw [List.length_nil] at h
    rw [List.eq_nil_of_length_eq_zero h.symm]
    exact (add_zero _).symm
  | cons a l ih =>
    cases m with
    | nil => exact absurd h (Nat.succ_ne_zero _)
    | cons b m =>
      have htail : l.length = m.length := Nat.succ.inj h
      have hbit : (C (if xor a b then 1 else 0) : (ZMod 2)[X]) =
          C (if a then 1 else 0) + C (if b then 1 else 0) := by
        rw [← C_add]
        cases a <;> cases b <;> rfl
      rw [List.zipWith_cons_cons,bitPoly_cons,bitPoly_cons,bitPoly_cons,ih htail,List.length_zipWith,htail,
        Nat.min_self,hbit]
      ring

theorem bitPoly_eq_zero_iff {l : List Bool} : bitPoly l = 0 ↔ ∀ b ∈ l, b = false := by
  refine ⟨fun h => ?_,bitPoly_eq_zero_of_false⟩
  induction l with
  | nil => exact fun b hb => absurd hb List.not_mem_nil
  | cons b l ih =>
    have hfirst := congrArg (fun p => p.coeff l.length) h
    simp only [bitPoly_cons,coeff_add,coeff_C_mul,coeff_X_pow_self,mul_one,coeff_zero,
      coeff_eq_zero_of_degree_lt (degree_bitPoly_lt l),add_zero] at hfirst
    obtain rfl : b = false := by
      cases b with
      | false => rfl
      | true => exact absurd hfirst (by decide)
    rw [bitPoly_cons,if_neg Bool.false_ne_true,C_0,zero_mul,zero_add] at h
    exact List.forall_mem_cons.2 ⟨rfl,ih h⟩

/-- Words of one length are their polynomials. -/
theorem bitPoly_injective {l m : List Bool} (hlen : l.length = m.length) (h : bitPoly l = bitPoly m) : l = m := by
  have hzero : bitPoly (List.zipWith xor l m) = 0 := by
    rw [bitPoly_xor hlen,h]
    exact CharTwo.add_self_eq_zero _
  have hfalse := bitPoly_eq_zero_iff.1 hzero
  refine List.ext_getElem hlen fun i hi hi' => ?_
  have hbit := hfalse _ (List.getElem_mem (l := List.zipWith xor l m) (n := i) (by
    rw [List.length_zipWith]
    omega))
  rw [List.getElem_zipWith] at hbit
  revert hbit
  cases l[i] <;> cases m[i] <;> simp

/-- A word with nothing outside a window is its window, shifted. -/
theorem bitPoly_window {e : List Bool} {s n : Nat} (h : ∀ i, e[i]? = some true → s ≤ i ∧ i < s + n) :
    bitPoly e = bitPoly ((e.drop s).take n) * X^(e.length - (s + n)) := by
  have hfront : ∀ b ∈ e.take s, b = false := by
    intro b hb
    obtain ⟨i,hi,rfl⟩ := List.getElem_of_mem hb
    rw [List.length_take] at hi
    by_contra htrue
    have hget := h i (by rw [List.getElem_take,Bool.not_eq_false] at htrue; rw [List.getElem?_eq_getElem (by omega),htrue])
    omega
  have hback : ∀ b ∈ (e.drop s).drop n, b = false := by
    intro b hb
    obtain ⟨i,hi,rfl⟩ := List.getElem_of_mem hb
    rw [List.drop_drop,List.length_drop] at hi
    by_contra htrue
    have hget := h (s + n + i) (by
      rw [List.getElem_drop,List.getElem_drop,Bool.not_eq_false] at htrue
      rw [List.getElem?_eq_getElem (by omega)]
      simpa only [Nat.add_assoc] using congrArg some htrue)
    omega
  have hlength : ((e.drop s).drop n).length = e.length - (s + n) := by
    rw [List.drop_drop,List.length_drop]
  conv_lhs => rw [← List.take_append_drop s e,← List.take_append_drop n (e.drop s)]
  rw [bitPoly_append,bitPoly_append,bitPoly_eq_zero_of_false hfront,bitPoly_eq_zero_of_false hback,hlength,zero_mul,
    zero_add,add_zero]

end Words

section Division

/-- The generator whose low coefficients are `g`. -/
noncomputable def crcGenerator (g : List Bool) : (ZMod 2)[X] := X^g.length + bitPoly g

/-- The register shifted by one place, and reduced when a one is shifted out. -/
def divStep (g r : List Bool) (b : Bool) : List Bool :=
  if r.headD false then List.zipWith xor (r.tail ++ [b]) g else r.tail ++ [b]

variable {g : List Bool}

theorem monic_crcGenerator (g : List Bool) : (crcGenerator g).Monic := monic_X_pow_add (degree_bitPoly_lt g)

theorem degree_crcGenerator (g : List Bool) : (crcGenerator g).degree = g.length := by
  rw [crcGenerator,degree_add_eq_left_of_degree_lt,degree_X_pow]
  rw [degree_X_pow]
  exact degree_bitPoly_lt g

theorem length_divStep {r : List Bool} (hr : r.length = g.length) (hpos : 0 < g.length) (b : Bool) :
    (divStep g r b).length = g.length := by
  have hshift : (r.tail ++ [b]).length = g.length := by
    rw [List.length_append,List.length_tail,List.length_singleton]
    omega
  unfold divStep
  split
  · rw [List.length_zipWith,hshift,Nat.min_self]
  · exact hshift

/-- One more coefficient of the dividend. -/
theorem bitPoly_divStep {r : List Bool} (hr : r.length = g.length) (hpos : 0 < g.length) (b : Bool) :
    bitPoly (divStep g r b) = (X * bitPoly r + C (if b then 1 else 0)) %ₘ crcGenerator g := by
  have hlow : (bitPoly (divStep g r b)).degree < (crcGenerator g).degree := by
    rw [degree_crcGenerator,← length_divStep hr hpos b]
    exact degree_bitPoly_lt _
  have hsub : crcGenerator g ∣ X * bitPoly r + C (if b then 1 else 0) - bitPoly (divStep g r b) := by
    cases r with
    | nil => exact absurd hpos (Nat.not_lt.2 hr.symm.le)
    | cons top r =>
      have hlen : r.length + 1 = g.length := hr
      have hshift : (r ++ [b]).length = g.length := by
        rw [List.length_append,List.length_singleton,hlen]
      rw [bitPoly_cons]
      cases top with
      | false =>
        have hstep : divStep g (false :: r) b = r ++ [b] := rfl
        rw [hstep,bitPoly_concat,if_neg Bool.false_ne_true,C_0,zero_mul,zero_add,sub_self]
        exact dvd_zero _
      | true =>
        have hstep : divStep g (true :: r) b = List.zipWith xor (r ++ [b]) g := rfl
        have htwo : bitPoly g + bitPoly g = 0 := CharTwo.add_self_eq_zero _
        rw [hstep,bitPoly_xor hshift,bitPoly_concat,if_pos rfl,C_1,one_mul,mul_add,← pow_succ',hlen]
        refine ⟨1,?_⟩
        rw [crcGenerator,mul_one]
        linear_combination -htwo
  rw [← (modByMonic_eq_self_iff (monic_crcGenerator g)).2 hlow]
  exact (modByMonic_eq_of_dvd_sub (monic_crcGenerator g) hsub).symm

/-- A whole word through the register. -/
theorem bitPoly_division (hpos : 0 < g.length) (l : List Bool) {r : List Bool} {p : (ZMod 2)[X]}
    (hr : r.length = g.length) (hp : bitPoly r = p %ₘ crcGenerator g) :
    (l.foldl (divStep g) r).length = g.length ∧
      bitPoly (l.foldl (divStep g) r) = (p * X^l.length + bitPoly l) %ₘ crcGenerator g := by
  induction l generalizing r p with
  | nil =>
    refine ⟨hr,?_⟩
    rw [List.foldl_nil,hp,List.length_nil,pow_zero,mul_one]
    exact congrArg (· %ₘ crcGenerator g) (add_zero p).symm
  | cons b l ih =>
    have hnext : bitPoly (divStep g r b) = (X * p + C (if b then 1 else 0)) %ₘ crcGenerator g := by
      rw [bitPoly_divStep hr hpos,hp]
      refine modByMonic_eq_of_dvd_sub (monic_crcGenerator g) ?_
      have hdvd : crcGenerator g ∣ p %ₘ crcGenerator g - p := by
        rw [modByMonic_eq_sub_mul_div,sub_sub_cancel_left]
        exact (dvd_mul_right _ _).neg_right
      rw [add_sub_add_right_eq_sub,← mul_sub]
      exact hdvd.mul_left X
    obtain ⟨hlen,hpoly⟩ := ih (length_divStep hr hpos b) hnext
    refine ⟨hlen,hpoly.trans (congrArg (· %ₘ crcGenerator g) ?_)⟩
    rw [List.length_cons,bitPoly_cons,pow_succ]
    ring

/-- Low-degree candidates for the remainder are tested by divisibility. -/
theorem eq_remainder_iff {p : (ZMod 2)[X]} {c : List Bool} (hc : c.length = g.length) :
    bitPoly c = p %ₘ crcGenerator g ↔ crcGenerator g ∣ p + bitPoly c := by
  have hlow : (bitPoly c).degree < (crcGenerator g).degree := by
    rw [degree_crcGenerator,← hc]
    exact degree_bitPoly_lt c
  have hself := (modByMonic_eq_self_iff (monic_crcGenerator g)).2 hlow
  have hsum : p + bitPoly c = p - bitPoly c := (CharTwo.sub_eq_add p _).symm
  rw [hsum]
  constructor
  · intro h
    rw [h,modByMonic_eq_sub_mul_div,sub_sub_cancel]
    exact dvd_mul_right _ _
  · intro h
    exact hself.symm.trans (modByMonic_eq_of_dvd_sub (monic_crcGenerator g) h).symm

/-- A generator with a constant term has nothing in common with a power. -/
theorem coprime_crcGenerator (hconst : (crcGenerator g).coeff 0 ≠ 0) (n : Nat) :
    IsCoprime (crcGenerator g) (X^n) :=
  ((irreducible_X (R := ZMod 2)).coprime_iff_not_dvd.2 fun hX => hconst (X_dvd_iff.1 hX)).symm.pow_right

/-- So it divides no short polynomial, wherever that is shifted to. -/
theorem not_dvd_shift (hconst : (crcGenerator g).coeff 0 ≠ 0) {p : (ZMod 2)[X]} (hp : p ≠ 0) (hdeg : p.degree < g.length)
    (k : Nat) : ¬crcGenerator g ∣ p * X^k := by
  intro h
  have hdvd := (coprime_crcGenerator hconst k).dvd_of_dvd_mul_right h
  exact hp (eq_zero_of_dvd_of_degree_lt hdvd (by rwa [degree_crcGenerator]))

end Division

section CrcWords

/-- A message of `k` bits with check bits behind it: the remainder of the message moved up by `pad` places. -/
def IsCrcWord (g : List Bool) (pad k : Nat) (w : List Bool) : Prop :=
  w.length = k + g.length ∧ bitPoly (w.drop k) = (bitPoly (w.take k) * X^pad) %ₘ crcGenerator g

/-- The set bits of a word lie among `n` consecutive places. -/
def InWindow (e : List Bool) (s n : Nat) : Prop := ∀ i, e[i]? = some true → s ≤ i ∧ i < s + n

theorem inWindow_of_outside {e : List Bool} {s n : Nat} (hfront : true ∉ e.take s) (hback : true ∉ e.drop (s + n)) :
    InWindow e s n := by
  intro i hi
  refine ⟨Nat.le_of_not_lt fun hlt => hfront (List.mem_iff_getElem?.2 ⟨i,?_⟩),
    Nat.lt_of_not_le fun hle => hback (List.mem_iff_getElem?.2 ⟨i - (s + n),?_⟩)⟩
  · rw [List.getElem?_take_of_lt hlt,hi]
  · rw [List.getElem?_drop,Nat.add_sub_cancel' hle,hi]

variable {g : List Bool} {pad k : Nat} {v w e : List Bool}

theorem isCrcWord_iff (hw : w.length = k + g.length) :
    IsCrcWord g pad k w ↔ crcGenerator g ∣ bitPoly (w.take k) * X^pad + bitPoly (w.drop k) := by
  have hdrop : (w.drop k).length = g.length := by
    rw [List.length_drop]
    omega
  rw [IsCrcWord,eq_remainder_iff hdrop]
  exact and_iff_right hw

/-- The accepted words are closed under exclusive or. -/
theorem IsCrcWord.xor (hv : IsCrcWord g pad k v) (hw : IsCrcWord g pad k w) :
    IsCrcWord g pad k (List.zipWith Bool.xor v w) := by
  have hlen : (List.zipWith Bool.xor v w).length = k + g.length := by
    rw [List.length_zipWith,hv.1,hw.1,Nat.min_self]
  have htake : (v.take k).length = (w.take k).length := by rw [List.length_take,List.length_take,hv.1,hw.1]
  have hdrop : (v.drop k).length = (w.drop k).length := by rw [List.length_drop,List.length_drop,hv.1,hw.1]
  rw [isCrcWord_iff hlen,List.take_zipWith,List.drop_zipWith,bitPoly_xor htake,bitPoly_xor hdrop]
  have hsum := dvd_add ((isCrcWord_iff hv.1).1 hv) ((isCrcWord_iff hw.1).1 hw)
  rwa [add_add_add_comm,← add_mul] at hsum

/-- A word with its remainder behind it. -/
def withRemainder (g t : List Bool) : List Bool :=
  t ++ (t ++ List.replicate g.length false).foldl (divStep g) (List.replicate g.length false)

/-- The multiples of a generator among the words of one length. -/
theorem dvd_iff_withRemainder (hpos : 0 < g.length) {l : List Bool} {d : Nat} (hl : l.length = d + g.length) :
    crcGenerator g ∣ bitPoly l ↔ l = withRemainder g (l.take d) := by
  have htake : (l.take d).length = d := by
    rw [List.length_take]
    omega
  have hdrop : (l.drop d).length = g.length := by
    rw [List.length_drop]
    omega
  have hfalse (n : Nat) : bitPoly (List.replicate n false) = 0 :=
    bitPoly_eq_zero_of_false fun b hb => List.eq_of_mem_replicate hb
  have hzero : bitPoly (List.replicate g.length false) = 0 %ₘ crcGenerator g := by
    rw [hfalse,zero_modByMonic]
  obtain ⟨hlen,hregister⟩ := bitPoly_division hpos (l.take d ++ List.replicate g.length false)
    (List.length_replicate (n := g.length)) hzero
  rw [zero_mul,zero_add,bitPoly_append,hfalse,add_zero,List.length_replicate] at hregister
  have hsplit : bitPoly l = bitPoly (l.take d) * X^g.length + bitPoly (l.drop d) := by
    rw [← hdrop,← bitPoly_append,List.take_append_drop]
  rw [hsplit,← eq_remainder_iff hdrop,← hregister]
  constructor
  · intro h
    conv_lhs => rw [← List.take_append_drop d l,bitPoly_injective (hdrop.trans hlen.symm) h]
    rfl
  · intro h
    have hback : (withRemainder g (l.take d)).drop d =
        (l.take d ++ List.replicate g.length false).foldl (divStep g) (List.replicate g.length false) :=
      List.drop_left' htake
    rw [← hback,← h]

section Gap
variable {s d : Nat}

/-- A burst with `d` zeros put in between its message and check bits. -/
def stretch (d k s n : Nat) (e : List Bool) : List Bool :=
  (e.drop s).take (k - s) ++ List.replicate d false ++ (e.drop k).take (n - (k - s))

/-- A word of `k` bits and more with the given burst at place `k`, `a` bits of it before and the `d` bits after those
left out. -/
def squeeze (d k a : Nat) (l : List Bool) : List Bool :=
  List.replicate (k - a) false ++ (l.take a ++ l.drop (a + d)) ++ List.replicate a false

/-- A burst across the gap is accepted when it is a multiple of the generator with the gap put in. -/
theorem isCrcWord_iff_stretch (hconst : (crcGenerator g).coeff 0 ≠ 0) (hwindow : InWindow e s g.length)
    (hlen : e.length = k + g.length) (hs : s ≤ k) (hk : k ≤ s + g.length) :
    IsCrcWord g (g.length + d) k e ↔ crcGenerator g ∣ bitPoly (stretch d k s g.length e) := by
  have htake : InWindow (e.take k) s (k - s) := by
    intro i hi
    rw [List.getElem?_take] at hi
    split at hi
    · rename_i hik
      have := hwindow i hi
      omega
    · exact absurd hi (by simp)
  have hdrop : InWindow (e.drop k) 0 (s + g.length - k) := by
    intro i hi
    rw [List.getElem?_drop] at hi
    have := hwindow _ hi
    omega
  have hmessage := bitPoly_window htake
  have hcheck := bitPoly_window hdrop
  have hfront : ((e.take k).drop s).take (k - s) = (e.drop s).take (k - s) := by
    rw [List.drop_take,List.take_take,Nat.min_self]
  rw [hfront,List.length_take,hlen,Nat.min_eq_left (Nat.le_add_right k _),Nat.add_sub_cancel' hs,Nat.sub_self,pow_zero,
    mul_one] at hmessage
  rw [List.drop_zero,List.length_drop,hlen,Nat.add_sub_cancel_left,Nat.zero_add] at hcheck
  have hrest : s + g.length - k = g.length - (k - s) := by omega
  have hshift : g.length - (s + g.length - k) = k - s := by omega
  rw [hshift,hrest] at hcheck
  have hlast : ((e.drop k).take (g.length - (k - s))).length = g.length - (k - s) := by
    rw [List.length_take,List.length_drop,hlen]
    omega
  have hgap : bitPoly (List.replicate d false) = 0 := bitPoly_eq_zero_of_false fun b hb => List.eq_of_mem_replicate hb
  have hpower : g.length + d = d + (g.length - (k - s)) + (k - s) := by omega
  have hsum : bitPoly (e.take k) * X^(g.length + d) + bitPoly (e.drop k) =
      bitPoly (stretch d k s g.length e) * X^(k - s) := by
    rw [hmessage,hcheck,stretch,bitPoly_append,bitPoly_append,hgap,add_zero,List.length_replicate,hlast,hpower,pow_add,
      pow_add]
    ring
  rw [isCrcWord_iff hlen,hsum]
  exact ⟨fun h => (coprime_crcGenerator hconst _).dvd_of_dvd_mul_right h,fun h => h.mul_right _⟩

private theorem take_eq_replicate {l : List Bool} {n : Nat} (hn : n ≤ l.length) (h : ∀ i < n, l[i]? ≠ some true) :
    l.take n = List.replicate n false := by
  refine List.ext_getElem (by simp [hn]) fun i hi hi' => ?_
  rw [List.length_take] at hi
  have hbit := h i (by omega)
  rw [List.getElem?_eq_getElem (by omega),Ne,Option.some.injEq,Bool.not_eq_true] at hbit
  rw [List.getElem_take,List.getElem_replicate,hbit]

/-- Nothing of the burst is lost. -/
theorem squeeze_stretch {n : Nat} (hwindow : InWindow e s n) (hlen : e.length = k + n) (hs : s ≤ k) (hk : k ≤ s + n) :
    squeeze d k (k - s) (stretch d k s n e) = e := by
  have hfirst : ((e.drop s).take (k - s)).length = k - s := by
    rw [List.length_take,List.length_drop]
    omega
  have htakeL : (stretch d k s n e).take (k - s) = (e.drop s).take (k - s) := by
    rw [stretch,List.append_assoc,List.take_left' hfirst]
  have hdropL : (stretch d k s n e).drop (k - s + d) = (e.drop k).take (n - (k - s)) := by
    refine List.drop_left' ?_
    rw [List.length_append,hfirst,List.length_replicate]
  have hleft : List.replicate (k - (k - s)) false = e.take s := by
    rw [Nat.sub_sub_self hs]
    refine (take_eq_replicate (by omega) fun i hi htrue => ?_).symm
    have := hwindow i htrue
    omega
  have hright : List.replicate (k - s) false = e.drop (s + n) := by
    have hall : (e.drop (s + n)).take (k - s) = e.drop (s + n) := by
      refine List.take_of_length_le ?_
      rw [List.length_drop]
      omega
    rw [← hall]
    refine (take_eq_replicate (by rw [List.length_drop]; omega) fun i hi htrue => ?_).symm
    rw [List.getElem?_drop] at htrue
    have := hwindow _ htrue
    omega
  have hmiddle : e.drop s = (e.drop s).take (k - s) ++ ((e.drop k).take (n - (k - s)) ++ e.drop (s + n)) := by
    have hafter : e.drop (s + n) = (e.drop k).drop (n - (k - s)) := by
      rw [List.drop_drop]
      congr 1
      omega
    have hback : e.drop k = (e.drop s).drop (k - s) := by
      rw [List.drop_drop]
      congr 1
      omega
    rw [hafter,List.take_append_drop,hback,List.take_append_drop]
  rw [squeeze,htakeL,hdropL,hleft,hright,List.append_assoc,List.append_assoc,← hmiddle,List.take_append_drop]

theorem gap_stretch {n : Nat} (hlen : e.length = k + n) (hs : s ≤ k) :
    ((stretch d k s n e).drop (k - s)).take d = List.replicate d false := by
  have hfirst : ((e.drop s).take (k - s)).length = k - s := by
    rw [List.length_take,List.length_drop]
    omega
  rw [stretch,List.append_assoc,List.drop_left' hfirst,List.take_left' List.length_replicate]

/-- Every burst across the gap that is accepted comes from a word with its remainder behind it that is zero over
the gap. -/
theorem IsCrcWord.eq_squeeze (hconst : (crcGenerator g).coeff 0 ≠ 0) (hpos : 0 < g.length)
    (he : IsCrcWord g (g.length + d) k e) (hwindow : InWindow e s g.length) (hs : s ≤ k) (hk : k ≤ s + g.length) :
    ∃ a ≤ g.length, ∃ t, t.length = d ∧ ((withRemainder g t).drop a).take d = List.replicate d false ∧
      e = squeeze d k a (withRemainder g t) := by
  have hlength : (stretch d k s g.length e).length = d + g.length := by
    simp only [stretch,List.length_append,List.length_take,List.length_drop,List.length_replicate,he.1]
    omega
  have hmultiple := (isCrcWord_iff_stretch hconst hwindow he.1 hs hk).1 he
  have hword := (dvd_iff_withRemainder hpos hlength).1 hmultiple
  refine ⟨k - s,by omega,(stretch d k s g.length e).take d,by rw [List.length_take]; omega,?_,?_⟩
  · rw [← hword]
    exact gap_stretch he.1 hs
  · rw [← hword]
    exact (squeeze_stretch hwindow he.1 hs hk).symm

end Gap

private theorem inWindow_ne_zero (hconst : (crcGenerator g).coeff 0 ≠ 0) {s : Nat} (he : bitPoly e ≠ 0)
    (hwindow : InWindow e s g.length) (j : Nat) : ¬crcGenerator g ∣ bitPoly e * X^j := by
  rw [bitPoly_window hwindow] at he ⊢
  rw [mul_assoc,← pow_add]
  refine not_dvd_shift hconst (fun h0 => he (by rw [h0,zero_mul])) ?_ _
  refine (degree_bitPoly_lt _).trans_le ?_
  exact_mod_cast List.length_take_le _ _

/-- A short burst is no accepted word, if it does not reach across a gap between message and check bits. -/
theorem not_isCrcWord_burst (hconst : (crcGenerator g).coeff 0 ≠ 0) {s : Nat} (hwindow : InWindow e s g.length)
    (hbit : true ∈ e) (hside : pad = g.length ∨ (∀ i, e[i]? = some true → i < k) ∨ ∀ i, e[i]? = some true → k ≤ i) :
    ¬IsCrcWord g pad k e := by
  intro h
  have hdvd := (isCrcWord_iff h.1).1 h
  have hlen := h.1
  have hdrop : (e.drop k).length = g.length := by
    rw [List.length_drop]
    omega
  have hne : bitPoly e ≠ 0 := fun h0 => absurd (bitPoly_eq_zero_iff.1 h0 true hbit) (by decide)
  have hsplit : bitPoly e = bitPoly (e.take k) * X^g.length + bitPoly (e.drop k) := by
    rw [← hdrop,← bitPoly_append,List.take_append_drop]
  rcases hside with rfl | hmessage | hcheck
  · rw [← hsplit] at hdvd
    exact inWindow_ne_zero hconst hne hwindow 0 (by rwa [pow_zero,mul_one])
  · have hzero : bitPoly (e.drop k) = 0 := by
      refine bitPoly_eq_zero_of_false fun b hb => ?_
      obtain ⟨i,hi,rfl⟩ := List.getElem_of_mem hb
      rw [List.getElem_drop]
      by_contra htrue
      rw [Bool.not_eq_false] at htrue
      have hlt := hmessage (k + i) (by rw [List.getElem?_eq_getElem (by omega),htrue])
      omega
    rw [hzero,add_zero] at hdvd hsplit
    have htake : InWindow (e.take k) s g.length := fun i hi => hwindow i (by
      rw [List.getElem?_take] at hi
      split at hi
      · exact hi
      · exact absurd hi (by simp))
    exact inWindow_ne_zero hconst (fun h0 => hne (by rw [hsplit,h0,zero_mul])) htake pad hdvd
  · have hzero : bitPoly (e.take k) = 0 := by
      refine bitPoly_eq_zero_of_false fun b hb => ?_
      obtain ⟨i,hi,rfl⟩ := List.getElem_of_mem hb
      rw [List.length_take] at hi
      rw [List.getElem_take]
      by_contra htrue
      rw [Bool.not_eq_false] at htrue
      have hle := hcheck i (by rw [List.getElem?_eq_getElem (by omega),htrue])
      omega
    rw [hzero,zero_mul,zero_add] at hdvd hsplit
    rw [hsplit] at hne
    refine hne (eq_zero_of_dvd_of_degree_lt hdvd ?_)
    rw [degree_crcGenerator,← hdrop]
    exact degree_bitPoly_lt _

/-- With the accepted bursts across the gap listed, a short burst is accepted only when it is one of them. -/
theorem mem_of_isCrcWord_burst {d s : Nat} {missed : List (List Bool)} (hconst : (crcGenerator g).coeff 0 ≠ 0)
    (hpos : 0 < g.length)
    (hmissed : ∀ a ≤ g.length, ∀ t, t.length = d → ((withRemainder g t).drop a).take d = List.replicate d false →
      true ∈ squeeze d k a (withRemainder g t) → squeeze d k a (withRemainder g t) ∈ missed)
    (hwindow : InWindow e s g.length) (hbit : true ∈ e) (he : IsCrcWord g (g.length + d) k e) : e ∈ missed := by
  by_cases hs : s ≤ k
  · by_cases hk : k ≤ s + g.length
    · obtain ⟨a,ha,t,ht,hgap,rfl⟩ := he.eq_squeeze hconst hpos hwindow hs hk
      exact hmissed a ha t ht hgap hbit
    · refine absurd he (not_isCrcWord_burst hconst hwindow hbit (.inr (.inl fun i hi => ?_)))
      have := hwindow i hi
      omega
  · refine absurd he (not_isCrcWord_burst hconst hwindow hbit (.inr (.inr fun i hi => ?_)))
    have := hwindow i hi
    omega

/-- Such a burst turns no accepted word into another. -/
theorem IsCrcWord.burst (hw : IsCrcWord g pad k w) (hlen : e.length = w.length)
    (he : ¬IsCrcWord g pad k e) : ¬IsCrcWord g pad k (List.zipWith Bool.xor w e) := by
  intro h
  have hback : List.zipWith Bool.xor w (List.zipWith Bool.xor w e) = e := by
    refine List.ext_getElem (by rw [List.length_zipWith,List.length_zipWith]; omega) fun i hi hi' => ?_
    rw [List.getElem_zipWith,List.getElem_zipWith,← Bool.xor_assoc,Bool.xor_self,Bool.false_xor]
  exact he (hback ▸ hw.xor h)

end CrcWords

section Weights
variable {g : List Bool}

/-- At one a word is the number of its ones. -/
theorem eval_one_bitPoly (l : List Bool) : (bitPoly l).eval 1 = (l.count true : ZMod 2) := by
  induction l using List.reverseRecOn with
  | nil =>
    rw [List.count_nil,Nat.cast_zero]
    exact eval_zero
  | append_singleton l b ih =>
    rw [bitPoly_concat,eval_add,eval_mul,eval_X,one_mul,ih,eval_C,List.count_append,Nat.cast_add]
    cases b with
    | false => rfl
    | true => rw [if_pos rfl,List.count_singleton_self,Nat.cast_one]

/-- A word with one one is a power. -/
theorem bitPoly_of_count_one {l : List Bool} (h : l.count true = 1) : ∃ a < l.length, bitPoly l = X^a := by
  induction l using List.reverseRecOn with
  | nil => exact absurd h (by decide)
  | append_singleton l b ih =>
    rw [List.count_append] at h
    rw [bitPoly_concat,List.length_append,List.length_singleton]
    cases b with
    | false =>
      obtain ⟨a,ha,hl⟩ := ih h
      exact ⟨a + 1,Nat.succ_lt_succ ha,by rw [hl,if_neg Bool.false_ne_true,C_0,add_zero,pow_succ']⟩
    | true =>
      have hnone : l.count true = 0 := Nat.succ.inj h
      have hzero : bitPoly l = 0 := bitPoly_eq_zero_of_false fun b hb =>
        eq_false_of_ne_true fun hb' => List.count_eq_zero.1 hnone (hb' ▸ hb)
      exact ⟨0,Nat.succ_pos _,by rw [hzero,if_pos rfl,C_1,mul_zero,zero_add,pow_zero]⟩

/-- A word with two ones is a power times a binomial. -/
theorem bitPoly_of_count_two {l : List Bool} (h : l.count true = 2) :
    ∃ a k, 0 < k ∧ a + k < l.length ∧ bitPoly l = X^a * (X^k + 1) := by
  induction l using List.reverseRecOn with
  | nil => exact absurd h (by decide)
  | append_singleton l b ih =>
    rw [List.count_append] at h
    rw [bitPoly_concat,List.length_append,List.length_singleton]
    cases b with
    | false =>
      obtain ⟨a,k,hk,hlen,hl⟩ := ih h
      exact ⟨a + 1,k,hk,by omega,by rw [hl,if_neg Bool.false_ne_true,C_0,add_zero,pow_succ',mul_assoc]⟩
    | true =>
      obtain ⟨a,ha,hl⟩ := bitPoly_of_count_one (Nat.succ.inj h : l.count true = 1)
      exact ⟨0,a + 1,Nat.succ_pos a,by omega,by rw [hl,if_pos rfl,C_1,pow_zero,one_mul,pow_succ']⟩

/-- No power of `X` below the `n`-th is one again. -/
def LongPeriod (g : List Bool) (n : Nat) : Prop := ∀ k, 0 < k → k < n → ¬crcGenerator g ∣ X^k + 1

/-- A generator that is zero at one, with a constant term and a long period, divides no word with one, two or three
ones. -/
theorem not_dvd_of_few (hconst : (crcGenerator g).coeff 0 ≠ 0) (hone : (crcGenerator g).eval 1 = 0) {e : List Bool}
    (hperiod : LongPeriod g e.length) (hsome : 0 < e.count true) (hfew : e.count true ≤ 3) :
    ¬crcGenerator g ∣ bitPoly e := by
  intro hdvd
  have heven : (e.count true : ZMod 2) = 0 := by
    obtain ⟨q,hq⟩ := hdvd
    rw [← eval_one_bitPoly,hq,eval_mul,hone,zero_mul]
  have htwo := (ZMod.natCast_eq_zero_iff _ 2).1 heven
  obtain ⟨a,k,hk,hlen,he⟩ := bitPoly_of_count_two (by omega : e.count true = 2)
  rw [he,mul_comm] at hdvd
  exact hperiod k hk (by omega) ((coprime_crcGenerator hconst a).dvd_of_dvd_mul_right hdvd)

/-- Nor does one with a constant term divide a burst that is no longer than it is. -/
theorem not_dvd_of_burst (hconst : (crcGenerator g).coeff 0 ≠ 0) {e : List Bool} {s : Nat} (hbit : true ∈ e)
    (hwindow : InWindow e s g.length) : ¬crcGenerator g ∣ bitPoly e := by
  have hne : bitPoly e ≠ 0 := fun h0 => absurd (bitPoly_eq_zero_iff.1 h0 true hbit) (by decide)
  intro hdvd
  exact inWindow_ne_zero hconst hne hwindow 0 (by rwa [pow_zero,mul_one])

end Weights

end MfskCore.Library
