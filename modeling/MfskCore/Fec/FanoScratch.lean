import MfskCore.Fec.Fano
import MfskCore.Library.Machine

/-! Decoding on a pooled node buffer against decoding on a fresh one. Along the current path every
field is written before it is read, with one exception: the encoder state of the root, which is
only or-ed into. -/
namespace MfskCore.Fec
open Rust Library

theorem node_modify (nodes : List Node) (i : Nat) (f : Node → Node) (k : Nat) :
    node (nodes.modify i f) k = if k = i ∧ i < nodes.length then f (node nodes i) else node nodes k := by
  simp only [node,List.getD_eq_getElem?_getD]
  by_cases hk : k = i
  · subst hk
    by_cases hlt : k < nodes.length
    · simp [hlt]
    · simp [hlt]
  · rw [List.getElem?_modify_ne f nodes (Ne.symm hk),if_neg (fun h => hk h.1)]

theorem node_modify_ne (nodes : List Node) {i k : Nat} (f : Node → Node) (h : k ≠ i) :
    node (nodes.modify i f) k = node nodes k := by
  rw [node_modify,if_neg (fun hk => h hk.1)]

theorem node_modify_self (nodes : List Node) {i : Nat} (f : Node → Node) (h : i < nodes.length) :
    node (nodes.modify i f) i = f (node nodes i) := by
  rw [node_modify,if_pos ⟨rfl,h⟩]

theorem node_precompute (nbits : Nat) (bm : List (Int × Int)) (nodes : List Node) (k : Nat)
    (hk : k < nodes.length) :
    node (precompute nbits bm nodes) k =
      if k < nbits then
        { node nodes k with
          metrics := [wrapI32 ((bm.getD (2 * k) (0,0)).1 + (bm.getD (2 * k + 1) (0,0)).1),
            wrapI32 ((bm.getD (2 * k) (0,0)).1 + (bm.getD (2 * k + 1) (0,0)).2),
            wrapI32 ((bm.getD (2 * k) (0,0)).2 + (bm.getD (2 * k + 1) (0,0)).1),
            wrapI32 ((bm.getD (2 * k) (0,0)).2 + (bm.getD (2 * k + 1) (0,0)).2)] }
      else node nodes k := by
  simp [node,precompute,hk]

/-- Two buffers agree along the path that ends in node `np`. -/
structure NodesAgree (nbits np : Nat) (a b : List Node) : Prop where
  size : a.length = nbits + 1
  size_other : b.length = nbits + 1
  metrics : ∀ k < nbits, (node a k).metrics = (node b k).metrics
  gamma : ∀ k ≤ np, (node a k).gamma = (node b k).gamma
  states : 2 ≤ nbits → ∀ k ≤ np, (node a k).encstate = (node b k).encstate
  branches : ∀ k ≤ np, k < nbits → (node a k).tm = (node b k).tm ∧ (node a k).i = (node b k).i

/-- Two searches are at the same point and agree along the path. -/
structure SearchAgree (nbits : Nat) (a b : Search) : Prop where
  np : a.np = b.np
  t : a.t = b.t
  maxNp : a.maxNp = b.maxNp
  cycles : a.cycles = b.cycles
  converged : a.converged = b.converged
  nodes : NodesAgree nbits a.np a.nodes b.nodes

theorem NodesAgree.mono {nbits np np' : Nat} {a b : List Node} (h : NodesAgree nbits np a b)
    (hle : np' ≤ np) : NodesAgree nbits np' a b :=
  ⟨h.size,h.size_other,h.metrics,fun k hk => h.gamma k (hk.trans hle),
    fun hn k hk => h.states hn k (hk.trans hle),fun k hk => h.branches k (hk.trans hle)⟩

/-- Both buffers change one node of the path in a way that depends on what agrees. -/
private theorem NodesAgree.modify {nbits np k : Nat} {a b : List Node} {f : Node → Node}
    (h : NodesAgree nbits np a b) (hk : k < nbits) (hnp : k ≤ np)
    (hf : ∀ m n : Node, m.metrics = n.metrics → m.gamma = n.gamma → m.tm = n.tm → m.i = n.i →
      (f m).metrics = (f n).metrics ∧ (f m).gamma = (f n).gamma ∧ (f m).tm = (f n).tm ∧
      (f m).i = (f n).i ∧ (m.encstate = n.encstate → (f m).encstate = (f n).encstate)) :
    NodesAgree nbits np (a.modify k f) (b.modify k f) := by
  have ha : k < a.length := by rw [h.size]; omega
  have hb : k < b.length := by rw [h.size_other]; omega
  have hbr := h.branches k hnp hk
  have hfk := hf _ _ (h.metrics k hk) (h.gamma k hnp) hbr.1 hbr.2
  refine ⟨by rw [List.length_modify,h.size],by rw [List.length_modify,h.size_other],?_,?_,?_,?_⟩
  · intro j hj
    by_cases hjk : j = k
    · rw [hjk,node_modify_self a f ha,node_modify_self b f hb]
      exact hfk.1
    · rw [node_modify_ne a f hjk,node_modify_ne b f hjk]
      exact h.metrics j hj
  · intro j hj
    by_cases hjk : j = k
    · rw [hjk,node_modify_self a f ha,node_modify_self b f hb]
      exact hfk.2.1
    · rw [node_modify_ne a f hjk,node_modify_ne b f hjk]
      exact h.gamma j hj
  · intro hn j hj
    by_cases hjk : j = k
    · rw [hjk,node_modify_self a f ha,node_modify_self b f hb]
      exact hfk.2.2.2.2 (h.states hn k hnp)
    · rw [node_modify_ne a f hjk,node_modify_ne b f hjk]
      exact h.states hn j hj
  · intro j hj hjn
    by_cases hjk : j = k
    · rw [hjk,node_modify_self a f ha,node_modify_self b f hb]
      exact ⟨hfk.2.2.1,hfk.2.2.2.1⟩
    · rw [node_modify_ne a f hjk,node_modify_ne b f hjk]
      exact h.branches j hj hjn

private theorem relax_agree {nbits : Nat} {delta : Int} {a b : Search} (h : SearchAgree nbits a b)
    (hnp : a.np < nbits) : SearchAgree nbits (relax delta a) (relax delta b) := by
  refine ⟨h.np,?_,h.maxNp,h.cycles,h.converged,?_⟩
  · simp only [relax,h.t]
  · simp only [relax,← h.np]
    refine h.nodes.modify hnp (le_refl _) ?_
    intro m n hm hg ht hi
    rw [hi]
    split
    · exact ⟨hm,hg,ht,rfl,fun he => by rw [he]⟩
    · exact ⟨hm,hg,ht,hi,fun he => he⟩

private theorem backward_agree {nbits : Nat} (delta : Int) {a b : Search} (k : Nat)
    (h : SearchAgree nbits a b) (hnp : a.np < nbits) (hk : k ≤ a.np) :
    SearchAgree nbits (backward nbits delta a k) (backward nbits delta b k) ∧
      (backward nbits delta a k).np < nbits := by
  have hat : ∀ j ≤ a.np, SearchAgree nbits { a with np := j } { b with np := j } := fun j hj =>
    ⟨rfl,h.t,h.maxNp,h.cycles,h.converged,h.nodes.mono hj⟩
  induction k with
  | zero =>
    have h0 : 0 < nbits := Nat.zero_lt_of_lt hnp
    exact ⟨relax_agree (hat 0 hk) h0,h0⟩
  | succ k ih =>
    have hk' : k ≤ a.np := Nat.le_of_succ_le hk
    have hkn : k + 1 < nbits := Nat.lt_of_le_of_lt hk hnp
    have hquiet : (node a.nodes k).gamma < a.t ↔ (node b.nodes k).gamma < b.t := by
      rw [h.nodes.gamma k hk',h.t]
    have hfirst : (k < tailIdx nbits ∧ (node a.nodes k).i = 0) ↔
        (k < tailIdx nbits ∧ (node b.nodes k).i = 0) := by
      rw [(h.nodes.branches k hk' (Nat.lt_of_succ_lt hkn)).2]
    rw [backward,backward]
    by_cases hq : (node a.nodes k).gamma < a.t
    · rw [if_pos hq,if_pos (hquiet.mp hq)]
      exact ⟨relax_agree (hat (k + 1) hk) hkn,hkn⟩
    · rw [if_neg hq,if_neg (fun hb => hq (hquiet.mpr hb))]
      by_cases hf : k < tailIdx nbits ∧ (node a.nodes k).i = 0
      · rw [if_pos hf,if_pos (hfirst.mp hf)]
        refine ⟨⟨rfl,h.t,h.maxNp,h.cycles,h.converged,?_⟩,Nat.lt_of_succ_lt hkn⟩
        refine (h.nodes.mono hk').modify (Nat.lt_of_succ_lt hkn) (le_refl _) ?_
        intro m n hm hg ht hi
        exact ⟨hm,hg,ht,rfl,fun he => by rw [he]⟩
      · rw [if_neg hf,if_neg (fun hb => hf (hfirst.mpr hb))]
        exact ih hk'

/-- Entering a node leaves nothing of its earlier branches. -/
private theorem enter_congr {m n : Node} (inTail : Bool) (hm : m.metrics = n.metrics)
    (he : m.encstate = n.encstate) (hg : m.gamma = n.gamma) : m.enter inTail = n.enter inTail := by
  obtain ⟨e,g,ms,tm,i⟩ := m
  obtain ⟨e',g',ms',tm',i'⟩ := n
  obtain rfl : ms = ms' := hm
  obtain rfl : e = e' := he
  obtain rfl : g = g' := hg
  simp only [Node.enter,Node.orderBranches]
  split
  · rfl
  · split <;> rfl

theorem enter_metrics (n : Node) (inTail : Bool) : (n.enter inTail).metrics = n.metrics := by
  simp only [Node.enter,Node.orderBranches]
  split
  · rfl
  · split <;> rfl

/-- The path grows by a node that was written in both buffers. -/
private theorem NodesAgree.extend {nbits np : Nat} {a b : List Node} {f g : Node → Node}
    (h : NodesAgree nbits np a b) (hnp : np < nbits)
    (hf : ∀ m, (f m).metrics = m.metrics) (hg : ∀ m, (g m).metrics = m.metrics)
    (hgamma : (f (node a (np + 1))).gamma = (g (node b (np + 1))).gamma)
    (hstate : 2 ≤ nbits → (f (node a (np + 1))).encstate = (g (node b (np + 1))).encstate)
    (hbranch : np + 1 < nbits → (f (node a (np + 1))).tm = (g (node b (np + 1))).tm ∧
      (f (node a (np + 1))).i = (g (node b (np + 1))).i) :
    NodesAgree nbits (np + 1) (a.modify (np + 1) f) (b.modify (np + 1) g) := by
  have ha : np + 1 < a.length := by rw [h.size]; omega
  have hb : np + 1 < b.length := by rw [h.size_other]; omega
  have hold : ∀ k ≤ np + 1, k = np + 1 ∨ (k ≤ np ∧ node (a.modify (np + 1) f) k = node a k ∧
      node (b.modify (np + 1) g) k = node b k) := by
    intro k hk
    rcases Nat.lt_or_eq_of_le hk with hlt | rfl
    · exact Or.inr ⟨Nat.le_of_lt_succ hlt,node_modify_ne a f (Nat.ne_of_lt hlt),
        node_modify_ne b g (Nat.ne_of_lt hlt)⟩
    · exact Or.inl rfl
  refine ⟨by rw [List.length_modify,h.size],by rw [List.length_modify,h.size_other],?_,?_,?_,?_⟩
  · intro k hk
    by_cases hkn : k = np + 1
    · rw [hkn,node_modify_self a f ha,node_modify_self b g hb,hf,hg]
      exact h.metrics (np + 1) (hkn ▸ hk)
    · rw [node_modify_ne a f hkn,node_modify_ne b g hkn]
      exact h.metrics k hk
  · intro k hk
    rcases hold k hk with rfl | ⟨hle,h1,h2⟩
    · rw [node_modify_self a f ha,node_modify_self b g hb]
      exact hgamma
    · rw [h1,h2]
      exact h.gamma k hle
  · intro hn k hk
    rcases hold k hk with rfl | ⟨hle,h1,h2⟩
    · rw [node_modify_self a f ha,node_modify_self b g hb]
      exact hstate hn
    · rw [h1,h2]
      exact h.states hn k hle
  · intro k hk hkn
    rcases hold k hk with rfl | ⟨hle,h1,h2⟩
    · rw [node_modify_self a f ha,node_modify_self b g hb]
      exact hbranch hkn
    · rw [h1,h2]
      exact h.branches k hle hkn

theorem modify_modify (nodes : List Node) (k : Nat) (f g : Node → Node) :
    (nodes.modify k f).modify k g = nodes.modify k (fun n => g (f n)) := by
  rw [List.modify_modify_eq]
  rfl

/-- A step forward writes the node it enters before anything of it is read. -/
private theorem forward_agree {nbits : Nat} {a b : Search} (ngamma t : Int)
    (h : SearchAgree nbits a b) (hnp : a.np < nbits) :
    SearchAgree nbits (forward nbits a ngamma t) (forward nbits b ngamma t) ∧
      ((forward nbits a ngamma t).converged = false → (forward nbits a ngamma t).np < nbits) := by
  have hstate : 2 ≤ nbits → (node a.nodes a.np).encstate <<< 1 = (node b.nodes a.np).encstate <<< 1 :=
    fun hn => by rw [h.nodes.states hn a.np (le_refl _)]
  simp only [forward,← h.np,modify_modify]
  by_cases hlast : a.np + 1 > lastIdx nbits
  · rw [if_pos hlast,if_pos hlast]
    refine ⟨⟨rfl,rfl,h.maxNp,h.cycles,rfl,?_⟩,by simp⟩
    refine h.nodes.extend hnp (fun _ => rfl) (fun _ => rfl) rfl hstate ?_
    intro hlt
    rw [lastIdx] at hlast
    omega
  · rw [if_neg hlast,if_neg hlast]
    have hlt : a.np + 1 < nbits := by
      rw [lastIdx] at hlast
      omega
    refine ⟨⟨rfl,rfl,h.maxNp,h.cycles,h.converged,?_⟩,fun _ => hlt⟩
    have henter := enter_congr (m := { node a.nodes (a.np + 1) with
        gamma := ngamma,encstate := (node a.nodes a.np).encstate <<< 1 })
      (n := { node b.nodes (a.np + 1) with
        gamma := ngamma,encstate := (node b.nodes a.np).encstate <<< 1 })
      (tailIdx nbits ≤ a.np + 1) (h.nodes.metrics _ hlt) (hstate (by omega)) rfl
    refine h.nodes.extend hnp (fun _ => enter_metrics _ _) (fun _ => enter_metrics _ _) ?_ ?_ ?_
    · rw [henter]
    · exact fun _ => by rw [henter]
    · exact fun _ => by rw [henter]; exact ⟨rfl,rfl⟩

/-- One cycle keeps two searches together, or neither of them returns. -/
private theorem cycle_agree {nbits : Nat} (delta : Int) {a b : Search} (h : SearchAgree nbits a b)
    (hnp : a.np < nbits) : Option.Rel (fun a b => SearchAgree nbits a b ∧
      (a.converged = false → a.np < nbits)) (cycle nbits delta a) (cycle nbits delta b) := by
  have hg := h.nodes.gamma a.np (le_refl _)
  have hbr := h.nodes.branches a.np (le_refl _) hnp
  have hbranch : (node a.nodes a.np).branch = (node b.nodes a.np).branch := by
    simp only [Node.branch,hbr.1,hbr.2]
  have hs : SearchAgree nbits { a with cycles := a.cycles + 1,maxNp := max a.maxNp a.np }
      { b with np := a.np,t := a.t,cycles := b.cycles + 1,maxNp := max b.maxNp a.np } :=
    ⟨rfl,rfl,by rw [h.maxNp],by rw [h.cycles],h.converged,h.nodes⟩
  have hforward : ∀ ngamma t, _ := fun ngamma t => forward_agree ngamma t hs hnp
  have hback := backward_agree delta a.np hs hnp (le_refl _)
  simp only [cycle,← h.np,← hg,← hbranch,← h.t]
  by_cases hfwd : (node a.nodes a.np).gamma + (node a.nodes a.np).branch ≥ a.t
  · rw [if_pos hfwd,if_pos hfwd]
    by_cases hfirst : (node a.nodes a.np).gamma < a.t + delta
    · rw [if_pos hfirst,if_pos hfirst]
      cases tighten delta ((node a.nodes a.np).gamma + (node a.nodes a.np).branch) (2^32) a.t with
      | none => exact .none
      | some t => exact .some (hforward _ t)
    · rw [if_neg hfirst,if_neg hfirst]
      exact .some (hforward _ _)
  · rw [if_neg hfwd,if_neg hfwd]
    exact .some ⟨hback.1,fun _ => hback.2⟩

private theorem search_agree {nbits : Nat} (delta : Int) {a b : Search} (left : Nat)
    (h : SearchAgree nbits a b) (hnp : a.np < nbits) :
    Option.Rel (SearchAgree nbits) (search nbits delta left a) (search nbits delta left b) := by
  induction left generalizing a b with
  | zero => exact .some h
  | succ left ih =>
    rw [search,search]
    have hcycle := cycle_agree delta h hnp
    generalize cycle nbits delta a = ca at hcycle ⊢
    generalize cycle nbits delta b = cb at hcycle ⊢
    cases hcycle with
    | none => exact .none
    | some hs =>
      obtain ⟨hs,hlt⟩ := hs
      simp only [Option.bind_some,← hs.converged]
      split
      · exact .some hs
      · rename_i hc
        exact ih hs (hlt (by simpa using hc))

/-- The same converged flag and, when converged, the same data, metric and cycle count. -/
def SameOutcome (a b : FanoDecodeResult) : Prop :=
  a.converged = b.converged ∧
    (a.converged → a.data = b.data ∧ a.metric = b.metric ∧ a.cycles = b.cycles)

/-- A converged search has entered the last node. -/
private def AtEnd (nbits : Nat) (s : Search) : Prop := s.converged → nbits ≤ s.np

private theorem atEnd_of_searching {nbits : Nat} {s : Search} (h : s.converged = false) :
    AtEnd nbits s := by
  intro hc
  rw [h] at hc
  cases hc

private theorem backward_converged (nbits : Nat) (delta : Int) (s : Search) (k : Nat) :
    (backward nbits delta s k).converged = s.converged := by
  induction k with
  | zero => rfl
  | succ k ih =>
    rw [backward]
    split
    · rfl
    · split
      · rfl
      · exact ih

private theorem backward_np (nbits : Nat) (delta : Int) (s : Search) (k : Nat) :
    (backward nbits delta s k).np ≤ k := by
  induction k with
  | zero => exact le_refl 0
  | succ k ih =>
    rw [backward]
    split
    · exact le_refl _
    · split
      · exact Nat.le_succ k
      · exact ih.trans (Nat.le_succ k)

/-- One cycle takes at most one node more, and converges only on the last one. -/
private theorem cycle_np {nbits : Nat} {delta : Int} {s s' : Search}
    (h : cycle nbits delta s = some s') (hs : s.converged = false) :
    s'.np ≤ s.np + 1 ∧ AtEnd nbits s' := by
  have hforward : ∀ s : Search, s.converged = false → ∀ ngamma t,
      (forward nbits s ngamma t).np ≤ s.np + 1 ∧ AtEnd nbits (forward nbits s ngamma t) := by
    intro s hs ngamma t
    simp only [forward,AtEnd]
    split
    · rename_i hlast
      rw [lastIdx] at hlast
      exact ⟨le_refl _,fun _ => by dsimp only; omega⟩
    · exact ⟨le_refl _,atEnd_of_searching hs⟩
  simp only [cycle] at h
  split at h
  · split at h
    · obtain ⟨t,-,rfl⟩ := Option.map_eq_some_iff.mp h
      exact hforward { s with cycles := s.cycles + 1,maxNp := max s.maxNp s.np } hs _ _
    · obtain rfl := Option.some.inj h
      exact hforward { s with cycles := s.cycles + 1,maxNp := max s.maxNp s.np } hs _ _
  · obtain rfl := Option.some.inj h
    exact ⟨(backward_np _ _ _ _).trans (Nat.le_succ _),atEnd_of_searching ((backward_converged _ _ _ _).trans hs)⟩

private theorem search_atEnd {nbits : Nat} {delta : Int} {left : Nat} {s s' : Search}
    (h : search nbits delta left s = some s') (hs : s.converged = false) :
    AtEnd nbits s' ∧ (s.np + left < nbits → s'.converged = false) := by
  induction left generalizing s with
  | zero =>
    obtain rfl := Option.some.inj h
    exact ⟨atEnd_of_searching hs,fun _ => hs⟩
  | succ left ih =>
    rw [search,Option.bind_eq_some_iff] at h
    obtain ⟨s₁,h₁,h⟩ := h
    obtain ⟨hle,hend⟩ := cycle_np h₁ hs
    split at h
    · rename_i hc
      obtain rfl := Option.some.inj h
      have := hend hc
      exact ⟨hend,fun hlt => by omega⟩
    · rename_i hc
      obtain ⟨hend',hlt'⟩ := ih h (by simpa using hc)
      exact ⟨hend',fun hlt => hlt' (by omega)⟩

private theorem result_same {nbits : Nat} {a b : Search} (h : SearchAgree nbits a b)
    (ha : AtEnd nbits a) : SameOutcome (result nbits a) (result nbits b) := by
  refine ⟨h.converged,?_⟩
  intro hc
  have hnp := ha hc
  refine ⟨?_,?_,h.cycles⟩
  · apply List.map_congr_left
    intro i hi
    have hi := List.mem_range.mp hi
    rw [h.nodes.states (by omega) (8 * i + 7) (by omega)]
  · simp only [result,← h.np]
    exact h.nodes.gamma _ (Nat.min_le_left _ _)

/-- The root's encoder state is a single bit. -/
def RootBit (nodes : List Node) : Prop := (node nodes 0).encstate = 0 ∨ (node nodes 0).encstate = 1

private theorem RootBit.modify {nodes : List Node} {k : Nat} {f : Node → Node} (h : RootBit nodes)
    (hf : ∀ n : Node, n.encstate = 0 ∨ n.encstate = 1 → (f n).encstate = 0 ∨ (f n).encstate = 1) :
    RootBit (nodes.modify k f) := by
  rw [RootBit,node_modify]
  split
  · rename_i hk
    exact hf _ (hk.1 ▸ h)
  · exact h

private theorem RootBit.modify_succ {nodes : List Node} (k : Nat) (f : Node → Node) (h : RootBit nodes) :
    RootBit (nodes.modify (k + 1) f) := by
  rw [RootBit,node_modify_ne _ _ (Nat.succ_ne_zero k).symm]
  exact h

private theorem flip_bit {e : UInt32} (h : e = 0 ∨ e = 1) : e ^^^ 1 = 0 ∨ e ^^^ 1 = 1 := by
  rcases h with rfl | rfl
  · exact Or.inr (by decide)
  · exact Or.inl (by decide)

private theorem relax_rootBit {delta : Int} {s : Search} (h : RootBit s.nodes) :
    RootBit (relax delta s).nodes := by
  apply h.modify
  intro n hn
  split
  · exact flip_bit hn
  · exact hn

private theorem backward_rootBit {nbits : Nat} {delta : Int} {s : Search} (k : Nat)
    (h : RootBit s.nodes) : RootBit (backward nbits delta s k).nodes := by
  induction k with
  | zero => exact relax_rootBit h
  | succ k ih =>
    rw [backward]
    split
    · exact relax_rootBit h
    · split
      · exact h.modify fun n hn => flip_bit hn
      · exact ih

private theorem cycle_rootBit {nbits : Nat} {delta : Int} {s s' : Search} (h : RootBit s.nodes)
    (hc : cycle nbits delta s = some s') : RootBit s'.nodes := by
  have hforward : ∀ (s : Search) (ngamma t : Int), RootBit s.nodes →
      RootBit (forward nbits s ngamma t).nodes := by
    intro s ngamma t h
    simp only [forward]
    split
    · exact h.modify_succ _ _
    · exact (h.modify_succ _ _).modify_succ _ _
  simp only [cycle] at hc
  split at hc
  · split at hc
    · obtain ⟨t,-,rfl⟩ := Option.map_eq_some_iff.mp hc
      exact hforward _ _ _ h
    · obtain rfl := Option.some.inj hc
      exact hforward _ _ _ h
  · obtain rfl := Option.some.inj hc
    exact backward_rootBit _ h

private theorem search_rootBit {nbits : Nat} {delta : Int} {left : Nat} {s s' : Search}
    (h : RootBit s.nodes) (hs : search nbits delta left s = some s') : RootBit s'.nodes := by
  induction left generalizing s with
  | zero => exact Option.some.inj hs ▸ h
  | succ left ih =>
    rw [search,Option.bind_eq_some_iff] at hs
    obtain ⟨s₁,h₁,hs⟩ := hs
    have hroot := cycle_rootBit h h₁
    split at hs
    · exact Option.some.inj hs ▸ hroot
    · exact ih hroot hs

theorem length_bootstrap (nodes : List Node) : (bootstrap nodes).length = nodes.length :=
  List.length_modify _ _ _

theorem length_precompute (nbits : Nat) (bm : List (Int × Int)) (nodes : List Node) :
    (precompute nbits bm nodes).length = nodes.length := by
  simp [precompute]

private theorem precompute_encstate (nbits : Nat) (bm : List (Int × Int)) (nodes : List Node) (k : Nat) :
    (node (precompute nbits bm nodes) k).encstate = (node nodes k).encstate := by
  by_cases hk : k < nodes.length
  · rw [node_precompute nbits bm nodes k hk]
    split <;> rfl
  · simp [node,precompute,hk]

private theorem orderBranches_encstate (n : Node) (lsym : Nat) :
    (n.orderBranches lsym).encstate = n.encstate ∨
      (n.orderBranches lsym).encstate = n.encstate ||| 1 := by
  simp only [Node.orderBranches]
  split
  · exact Or.inl rfl
  · exact Or.inr rfl

private theorem bootstrap_rootBit {nodes : List Node} (h : RootBit nodes) : RootBit (bootstrap nodes) := by
  apply h.modify
  intro n hn
  rcases orderBranches_encstate n (encodeStep 0) with he | he
  · exact he ▸ hn
  · dsimp only
    rw [he]
    rcases hn with hn | hn <;> rw [hn] <;> decide

private theorem prepare_rootBit {scratch : FanoScratch} (bm : List (Int × Int)) (nbits : Nat)
    (h : RootBit scratch.nodes) : RootBit (prepare scratch bm nbits) := by
  apply bootstrap_rootBit
  rw [RootBit,precompute_encstate]
  split
  · left
    simp [node,Node.default]
  · exact h

/-- The metric of the root's 0-branch, and of its 1-branch. -/
def rootMetrics (bm : List (Int × Int)) : Int × Int :=
  (wrapI32 ((bm.getD 0 (0,0)).1 + (bm.getD 1 (0,0)).1),
    wrapI32 ((bm.getD 0 (0,0)).2 + (bm.getD 1 (0,0)).2))

/-- The root as the bootstrap leaves it. -/
theorem node_bootstrap_zero {nbits : Nat} (bm : List (Int × Int)) {nodes : List Node}
    (hn : 0 < nbits) (hlen : nodes.length = nbits + 1) :
    let root := node (bootstrap (precompute nbits bm nodes)) 0
    root.gamma = 0 ∧ root.i = 0 ∧
      (if (rootMetrics bm).1 > (rootMetrics bm).2 then
        root.tm = rootMetrics bm ∧ root.encstate = (node nodes 0).encstate
      else root.tm = (rootMetrics bm).swap ∧ root.encstate = (node nodes 0).encstate ||| 1) := by
  intro root
  have hroot : root = { (node (precompute nbits bm nodes) 0).orderBranches (encodeStep 0) with
      i := 0,gamma := 0 } :=
    node_modify_self _ _ (by rw [length_precompute]; omega)
  have hsym : encodeStep 0 = 0 := by decide
  rw [node_precompute nbits bm nodes 0 (by omega),if_pos hn,hsym] at hroot
  rw [hroot]
  refine ⟨rfl,rfl,?_⟩
  simp only [Node.orderBranches,rootMetrics]
  simp only [List.getD_cons_zero,Nat.xor_zero,List.getD_cons_succ,Nat.mul_zero,Nat.zero_add]
  split
  · exact ⟨rfl,rfl⟩
  · exact ⟨rfl,rfl⟩

theorem bootstrap_metrics {nbits : Nat} (bm : List (Int × Int)) {nodes : List Node} {k : Nat}
    (hk : k < nbits) (hlen : nodes.length = nbits + 1) :
    (node (bootstrap (precompute nbits bm nodes)) k).metrics =
      [wrapI32 ((bm.getD (2 * k) (0,0)).1 + (bm.getD (2 * k + 1) (0,0)).1),
        wrapI32 ((bm.getD (2 * k) (0,0)).1 + (bm.getD (2 * k + 1) (0,0)).2),
        wrapI32 ((bm.getD (2 * k) (0,0)).2 + (bm.getD (2 * k + 1) (0,0)).1),
        wrapI32 ((bm.getD (2 * k) (0,0)).2 + (bm.getD (2 * k + 1) (0,0)).2)] := by
  have hmetrics : ∀ nodes : List Node, (node (bootstrap nodes) k).metrics = (node nodes k).metrics := by
    intro nodes
    rw [bootstrap,node_modify]
    split
    · rename_i hz
      rw [hz.1]
      simp only [Node.orderBranches]
      split <;> rfl
    · rfl
  rw [hmetrics,node_precompute nbits bm nodes k (by omega),if_pos hk]

/-- Buffers whose roots cannot be told apart after the bootstrap start the same search. -/
private theorem bootstrap_agree {nbits : Nat} (bm : List (Int × Int)) {a b : List Node}
    (hn : 0 < nbits) (ha : a.length = nbits + 1) (hb : b.length = nbits + 1)
    (hroot : 2 ≤ nbits → (node a 0).encstate = (node b 0).encstate ∨
      ((rootMetrics bm).1 ≤ (rootMetrics bm).2 ∧
        (node a 0).encstate ||| 1 = (node b 0).encstate ||| 1)) :
    NodesAgree nbits 0 (bootstrap (precompute nbits bm a)) (bootstrap (precompute nbits bm b)) := by
  obtain ⟨hga,hia,hta⟩ := node_bootstrap_zero bm hn ha
  obtain ⟨hgb,hib,htb⟩ := node_bootstrap_zero bm hn hb
  refine ⟨by rw [length_bootstrap,length_precompute,ha],by rw [length_bootstrap,length_precompute,hb],
    fun k hk => by rw [bootstrap_metrics bm hk ha,bootstrap_metrics bm hk hb],?_,?_,?_⟩
  · intro k hk
    obtain rfl := Nat.le_zero.mp hk
    rw [hga,hgb]
  · intro h2 k hk
    obtain rfl := Nat.le_zero.mp hk
    by_cases hm : (rootMetrics bm).1 > (rootMetrics bm).2
    · rw [if_pos hm] at hta htb
      rw [hta.2,htb.2]
      rcases hroot h2 with he | ⟨hle,-⟩
      · exact he
      · exact absurd hm (Int.not_lt.mpr hle)
    · rw [if_neg hm] at hta htb
      rw [hta.2,htb.2]
      rcases hroot h2 with he | ⟨-,he⟩
      · rw [he]
      · exact he
  · intro k hk _
    obtain rfl := Nat.le_zero.mp hk
    refine ⟨?_,by rw [hia,hib]⟩
    by_cases hm : (rootMetrics bm).1 > (rootMetrics bm).2
    · rw [if_pos hm] at hta htb
      rw [hta.1,htb.1]
    · rw [if_neg hm] at hta htb
      rw [hta.1,htb.1]

/-- Same start, same outcome. -/
private theorem search_same {nbits : Nat} (delta : Int) (left : Nat) {a b : List Node}
    (h : NodesAgree nbits 0 a b) (hn : 0 < nbits) :
    Option.Rel SameOutcome
      ((search nbits delta left ⟨a,0,0,0,0,false⟩).map (result nbits))
      ((search nbits delta left ⟨b,0,0,0,0,false⟩).map (result nbits)) := by
  have hagree := search_agree delta left (a := ⟨a,0,0,0,0,false⟩) (b := ⟨b,0,0,0,0,false⟩)
    ⟨rfl,rfl,rfl,rfl,rfl,h⟩ hn
  cases ha : search nbits delta left ⟨a,0,0,0,0,false⟩ with
  | none =>
    rw [ha] at hagree
    generalize search nbits delta left ⟨b,0,0,0,0,false⟩ = sb at hagree ⊢
    cases hagree
    exact .none
  | some s =>
    have hend := (search_atEnd ha rfl).1
    rw [ha] at hagree
    generalize search nbits delta left ⟨b,0,0,0,0,false⟩ = sb at hagree ⊢
    cases hagree with
    | some hs => exact .some (result_same hs hend)

theorem decode_eq (scratch : FanoScratch) {bm : List (Int × Int)} {nbits : Nat}
    (hbm : bm.length = 2 * nbits) (delta : Int) (limit : Nat) :
    (fanoDecodeWithScratch scratch bm nbits delta limit).map Prod.fst =
      (search nbits delta (limit * nbits % 2^64) ⟨prepare scratch bm nbits,0,0,0,0,false⟩).map
        (result nbits) := by
  rw [fanoDecodeWithScratch,if_neg (fun h => h hbm),Option.map_map]
  rfl

private theorem relSame_refl (r : Option FanoDecodeResult) : Option.Rel SameOutcome r r := by
  cases r with
  | none => exact .none
  | some r => exact .some ⟨rfl,fun _ => ⟨rfl,rfl,rfl⟩⟩

/-- A used buffer does not show when it is rebuilt, when nothing is read of the root's state, when
that state is clear, or when the bootstrap sets it anyway. -/
private theorem pooled_same {scratch : FanoScratch} {nbits : Nat} {bm : List (Int × Int)}
    (hbit : RootBit scratch.nodes) (hbm : bm.length = 2 * nbits)
    (h : scratch.nodes.length ≠ nbits + 1 ∨ nbits ≤ 1 ∨ (node scratch.nodes 0).encstate = 0 ∨
      (rootMetrics bm).1 ≤ (rootMetrics bm).2) (delta : Int) (limit : Nat) :
    Option.Rel SameOutcome ((fanoDecodeWithScratch scratch bm nbits delta limit).map Prod.fst)
      (fanoDecode bm nbits delta limit) := by
  have hnew : prepare .new bm nbits =
      bootstrap (precompute nbits bm (List.replicate (nbits + 1) Node.default)) := rfl
  have hzero : (node (List.replicate (nbits + 1) Node.default) 0).encstate = 0 := by
    simp [node,Node.default]
  rw [fanoDecode,decode_eq scratch hbm,decode_eq .new hbm,hnew]
  by_cases hlen : scratch.nodes.length = nbits + 1
  · have hused : prepare scratch bm nbits = bootstrap (precompute nbits bm scratch.nodes) := by
      rw [prepare,if_neg (fun h => h hlen)]
    rcases Nat.eq_zero_or_pos nbits with rfl | hn
    · rw [Nat.mul_zero,Nat.zero_mod]
      exact .some ⟨rfl,by simp [result]⟩
    · rw [hused]
      refine search_same delta _ (bootstrap_agree bm hn hlen (List.length_replicate) ?_) hn
      intro h2
      rw [hzero]
      rcases h with h | h | h | h
      · exact absurd hlen h
      · omega
      · exact Or.inl h
      · refine Or.inr ⟨h,?_⟩
        rcases hbit with hb | hb
        · rw [hb]
        · rw [hb]
          decide
  · have hused : prepare scratch bm nbits =
        bootstrap (precompute nbits bm (List.replicate (nbits + 1) Node.default)) := by
      rw [prepare,if_pos hlen]
    rw [hused]
    exact relSame_refl _

/-- Metrics on which the all-zero path loses nothing and every other path something. -/
def zeroFrame (nbits : Nat) : List (Int × Int) := List.replicate (2 * nbits) (0,-1)

private theorem zeroFrame_getD {nbits k : Nat} (hk : k < 2 * nbits) :
    (zeroFrame nbits).getD k (0,0) = (0,-1) := by
  simp [zeroFrame,hk]

private theorem zeroFrame_metrics {nbits k : Nat} {nodes : List Node} (hk : k < nbits)
    (hlen : nodes.length = nbits + 1) :
    (node (bootstrap (precompute nbits (zeroFrame nbits) nodes)) k).metrics = [0,-1,-1,-2] := by
  rw [bootstrap_metrics _ hk hlen,zeroFrame_getD (by omega),zeroFrame_getD (by omega)]
  decide

private theorem zeroFrame_root {nbits : Nat} (hn : 0 < nbits) : rootMetrics (zeroFrame nbits) = (0,-2) := by
  rw [rootMetrics,zeroFrame_getD (by omega),zeroFrame_getD (by omega)]
  decide

/-- The search stands on node `k` of the all-zero path and is about to go on. -/
private structure OnZeroPath (nbits k : Nat) (s : Search) : Prop where
  np : s.np = k
  t : s.t = 0
  searching : s.converged = false
  size : s.nodes.length = nbits + 1
  metrics : ∀ j < nbits, (node s.nodes j).metrics = [0,-1,-1,-2]
  gamma : (node s.nodes k).gamma = 0
  branch : (node s.nodes k).branch = 0

/-- A node reached at no loss is left by a step forward that keeps the threshold. -/
private theorem OnZeroPath.cycle_eq {nbits k : Nat} {s : Search} (h : OnZeroPath nbits k s) :
    cycle nbits 1 s =
      some (forward nbits { s with cycles := s.cycles + 1,maxNp := max s.maxNp s.np } 0 0) := by
  have htighten : tighten 1 0 (2^32) 0 = some 0 := by decide
  simp only [cycle,h.np,h.t,h.gamma,h.branch,Int.add_zero]
  rw [if_pos (le_refl _),if_pos (by decide),htighten]
  rfl

/-- The node after it, with the state and metrics it is entered with. -/
private theorem OnZeroPath.next {nbits k : Nat} {s s' : Search} (h : OnZeroPath nbits k s)
    (hc : cycle nbits 1 s = some s') (hk : k + 1 < nbits) :
    s'.np = k + 1 ∧ s'.t = 0 ∧ s'.converged = false ∧ s'.nodes.length = nbits + 1 ∧
    (∀ j < nbits, (node s'.nodes j).metrics = [0,-1,-1,-2]) ∧
    node s'.nodes (k + 1) = ({ node s.nodes (k + 1) with
      gamma := 0,encstate := (node s.nodes k).encstate <<< 1 }).enter (tailIdx nbits ≤ k + 1) := by
  rw [h.cycle_eq,Option.some_inj] at hc
  subst hc
  have hlast : ¬ k + 1 > lastIdx nbits := by
    rw [lastIdx]
    omega
  have hlen := h.size
  simp only [forward,h.np,modify_modify]
  rw [if_neg hlast]
  refine ⟨rfl,rfl,h.searching,by rw [List.length_modify,h.size],?_,?_⟩
  · intro j hj
    dsimp only
    rw [node_modify]
    split
    · rename_i hjk
      rw [enter_metrics,← h.metrics j hj,hjk.1]
    · exact h.metrics j hj
  · dsimp only
    rw [node_modify_self _ _ (by omega)]

private theorem enter_zero {n : Node} (inTail : Bool) (hm : n.metrics = [0,-1,-1,-2])
    (he : n.encstate = 0) : (n.enter inTail).encstate = 0 ∧ (n.enter inTail).gamma = n.gamma ∧
      (n.enter inTail).branch = 0 := by
  have hsym : encodeStep 0 = 0 := by decide
  have hbetter : (0 : Int) > -2 := by decide
  cases inTail <;> simp [Node.enter,Node.orderBranches,Node.branch,hm,he,hsym]

private theorem enter_two {n : Node} (inTail : Bool) (hm : n.metrics = [0,-1,-1,-2])
    (he : n.encstate = 2) : (n.enter inTail).gamma = n.gamma ∧ (n.enter inTail).branch = -1 := by
  have hsym : encodeStep 2 = 1 := by decide
  cases inTail <;> simp [Node.enter,Node.orderBranches,Node.branch,hm,he,hsym]

/-- With a clear root the all-zero path is followed to its end, one node a cycle. -/
private theorem zero_search {nbits : Nat} (left : Nat) {s : Search} (h : OnZeroPath nbits (nbits - left) s)
    (hstate : (node s.nodes (nbits - left)).encstate = 0) (hleft : 0 < left) (hle : left ≤ nbits) :
    ∃ s', search nbits 1 left s = some s' ∧ s'.converged = true := by
  induction left generalizing s with
  | zero => exact absurd hleft (Nat.lt_irrefl 0)
  | succ left ih =>
    rw [search,h.cycle_eq,Option.bind_some]
    rcases Nat.eq_zero_or_pos left with rfl | hpos
    · have hlast : nbits - (0 + 1) + 1 > lastIdx nbits := by
        rw [lastIdx]
        omega
      simp only [forward,h.np]
      rw [if_pos hlast,if_pos rfl]
      exact ⟨_,rfl,rfl⟩
    · obtain ⟨hnp,ht,hc,hsize,hmetrics,hnode⟩ := h.next h.cycle_eq (by omega)
      rw [hc,if_neg Bool.false_ne_true]
      have hk : nbits - (left + 1) + 1 = nbits - left := by omega
      rw [hk] at hnp hnode
      rw [hstate] at hnode
      have henter := enter_zero (n := { node s.nodes (nbits - left) with
          gamma := 0,encstate := (0 : UInt32) <<< 1 })
        (tailIdx nbits ≤ nbits - left) (h.metrics _ (by omega)) (show (0 : UInt32) <<< 1 = 0 by decide)
      rw [← hnode] at henter
      exact ih ⟨hnp,ht,hc,hsize,hmetrics,henter.2.1,henter.2.2⟩ henter.1 hpos (by omega)

/-- With the root's bit set the first step goes to the wrong node, and a cycle is lost there. -/
private theorem stale_search {nbits : Nat} {s s' : Search} (h : OnZeroPath nbits 0 s)
    (hstate : (node s.nodes 0).encstate = 1) (hn : 2 ≤ nbits)
    (hs : search nbits 1 nbits s = some s') : s'.converged = false := by
  obtain ⟨left,rfl⟩ : ∃ left, nbits = left + 2 := ⟨nbits - 2,by omega⟩
  obtain ⟨hnp,ht,hc,hsize,hmetrics,hnode⟩ := h.next h.cycle_eq (by omega)
  have htwo : (node s.nodes 0).encstate <<< 1 = 2 := by
    rw [hstate]
    decide
  have henter := enter_two (n := { node s.nodes (0 + 1) with
      gamma := 0,encstate := (node s.nodes 0).encstate <<< 1 }) (tailIdx (left + 2) ≤ 0 + 1)
    (h.metrics _ (by omega)) htwo
  rw [← hnode] at henter
  rw [search,h.cycle_eq,Option.bind_some,hc,if_neg Bool.false_ne_true,search] at hs
  generalize forward (left + 2) { s with cycles := s.cycles + 1,maxNp := max s.maxNp s.np } 0 0 = s₁ at *
  obtain ⟨s₂,hs₂,hs⟩ := Option.bind_eq_some_iff.mp hs
  have hback : s₂.np ≤ 1 ∧ s₂.converged = false := by
    simp only [cycle,hnp,ht,henter] at hs₂
    rw [if_neg (by decide),Option.some_inj] at hs₂
    subst hs₂
    exact ⟨backward_np _ _ _ _,(backward_converged _ _ _ _).trans hc⟩
  rw [hback.2,if_neg Bool.false_ne_true] at hs
  exact (search_atEnd hs hback.2).2 (by omega)

/-- The arguments of one call beside the scratch. -/
structure FanoCall where
  bm : List (Int × Int)
  nbits : Nat
  delta : Int
  maxCyclesPerBit : Nat

namespace FanoScratch

def use (scratch : FanoScratch) (c : FanoCall) : Option FanoScratch :=
  (fanoDecodeWithScratch scratch c.bm c.nbits c.delta c.maxCyclesPerBit).map Prod.snd

/-- The scratch after any calls, each of which returned. -/
def after (calls : List FanoCall) : Option FanoScratch := calls.foldlM use new

private theorem use_rootBit {scratch scratch' : FanoScratch} {c : FanoCall}
    (h : RootBit scratch.nodes) (hu : scratch.use c = some scratch') : RootBit scratch'.nodes := by
  rw [use,fanoDecodeWithScratch] at hu
  split at hu
  · simp at hu
  · obtain ⟨r,hr,rfl⟩ := Option.map_eq_some_iff.mp hu
    obtain ⟨s,hs,rfl⟩ := Option.map_eq_some_iff.mp hr
    exact search_rootBit (prepare_rootBit c.bm c.nbits h) hs

theorem after_rootBit {calls : List FanoCall} {scratch : FanoScratch} (h : after calls = some scratch) :
    RootBit scratch.nodes := by
  have hfold : ∀ (calls : List FanoCall) (start : FanoScratch), RootBit start.nodes →
      calls.foldlM use start = some scratch → RootBit scratch.nodes := by
    intro calls
    induction calls with
    | nil =>
      intro start hs h
      exact Option.some.inj h ▸ hs
    | cons c calls ih =>
      intro start hs h
      rw [List.foldlM_cons] at h
      obtain ⟨next,hn,h⟩ := Option.bind_eq_some_iff.mp h
      exact ih next (use_rootBit hs hn) h
  exact hfold calls new (Or.inl rfl) h

end FanoScratch

/-- A call on a used buffer of the right size with the root's bit set, and the same call fresh. -/
private theorem zeroFrame_differs {scratch : FanoScratch} {nbits : Nat} (hn : nbits < 2^64)
    (h2 : 2 ≤ nbits) (hlen : scratch.nodes.length = nbits + 1)
    (hroot : (node scratch.nodes 0).encstate = 1) :
    ¬ Option.Rel SameOutcome
      ((fanoDecodeWithScratch scratch (zeroFrame nbits) nbits 1 1).map Prod.fst)
      (fanoDecode (zeroFrame nbits) nbits 1 1) := by
  have hbm : (zeroFrame nbits).length = 2 * nbits := List.length_replicate
  have hmax : 1 * nbits % 2^64 = nbits := by rw [Nat.one_mul,Nat.mod_eq_of_lt hn]
  have hpath : ∀ nodes : List Node, nodes.length = nbits + 1 →
      OnZeroPath nbits 0 ⟨bootstrap (precompute nbits (zeroFrame nbits) nodes),0,0,0,0,false⟩ ∧
        (node (bootstrap (precompute nbits (zeroFrame nbits) nodes)) 0).encstate =
          (node nodes 0).encstate := by
    intro nodes hnodes
    obtain ⟨hg,hi,htm⟩ := node_bootstrap_zero (zeroFrame nbits) (by omega : 0 < nbits) hnodes
    rw [zeroFrame_root (by omega),if_pos (by decide)] at htm
    refine ⟨⟨rfl,rfl,rfl,?_,fun j hj => zeroFrame_metrics hj hnodes,hg,?_⟩,htm.2⟩
    · rw [length_bootstrap,length_precompute,hnodes]
    · dsimp only
      rw [Node.branch,hi,if_pos rfl,htm.1]
  obtain ⟨hfresh,hclear⟩ := hpath (List.replicate (nbits + 1) Node.default) List.length_replicate
  obtain ⟨hstale,hset⟩ := hpath scratch.nodes hlen
  have hused : prepare scratch (zeroFrame nbits) nbits =
      bootstrap (precompute nbits (zeroFrame nbits) scratch.nodes) := by
    rw [prepare,if_neg (fun h => h hlen)]
  obtain ⟨r,hr,hconv⟩ := zero_search nbits (by rw [Nat.sub_self]; exact hfresh)
    (by rw [Nat.sub_self]; exact hclear.trans (by simp [node,Node.default])) (by omega) (le_refl _)
  intro hrel
  rw [fanoDecode,decode_eq scratch hbm,decode_eq .new hbm,hmax,hused] at hrel
  change Option.Rel SameOutcome _ ((search nbits 1 nbits ⟨bootstrap (precompute nbits (zeroFrame nbits)
    (List.replicate (nbits + 1) Node.default)),0,0,0,0,false⟩).map (result nbits)) at hrel
  rw [hr] at hrel
  cases hs : search nbits 1 nbits
      ⟨bootstrap (precompute nbits (zeroFrame nbits) scratch.nodes),0,0,0,0,false⟩ with
  | none =>
    rw [hs] at hrel
    cases hrel
  | some s =>
    rw [hs] at hrel
    have hfalse := stale_search hstale (hset.trans hroot) h2 hs
    cases hrel with
    | some hsame =>
      have hflag : s.converged = r.converged := hsame.1
      rw [hfalse,hconv] at hflag
      cases hflag

/-- After any calls, every decode of `nbits` bits on the scratch agrees with a fresh one exactly when
the buffer is rebuilt, the message is a single bit, or the root's state was left clear; and a decode
whose root prefers the 1-branch always agrees. -/
theorem pooled_eq_fresh_iff (calls : List FanoCall) (scratch : FanoScratch)
    (h : FanoScratch.after calls = some scratch) (nbits : Nat) (hn : nbits < 2^64) :
    ((∀ bm delta limit, bm.length = 2 * nbits → Option.Rel SameOutcome
        ((fanoDecodeWithScratch scratch bm nbits delta limit).map Prod.fst)
        (fanoDecode bm nbits delta limit)) ↔
      scratch.nodes.length ≠ nbits + 1 ∨ nbits ≤ 1 ∨ (node scratch.nodes 0).encstate = 0) ∧
    ∀ bm delta limit, bm.length = 2 * nbits → (rootMetrics bm).1 ≤ (rootMetrics bm).2 →
      Option.Rel SameOutcome ((fanoDecodeWithScratch scratch bm nbits delta limit).map Prod.fst)
        (fanoDecode bm nbits delta limit) := by
  have hbit := FanoScratch.after_rootBit h
  refine ⟨⟨?_,?_⟩,?_⟩
  · intro hall
    by_contra hno
    obtain ⟨hlen,hbits,hroot⟩ : scratch.nodes.length = nbits + 1 ∧ 1 < nbits ∧
        (node scratch.nodes 0).encstate ≠ 0 := by
      simpa only [not_or,not_not,Nat.not_le] using hno
    exact zeroFrame_differs hn hbits hlen (hbit.resolve_left hroot)
      (hall (zeroFrame nbits) 1 1 List.length_replicate)
  · intro hclean bm delta limit hbm
    refine pooled_same hbit hbm ?_ delta limit
    rcases hclean with hc | hc | hc
    · exact Or.inl hc
    · exact Or.inr (Or.inl hc)
    · exact Or.inr (Or.inr (Or.inl hc))
  · intro bm delta limit hbm hle
    exact pooled_same hbit hbm (Or.inr (Or.inr (Or.inr hle))) delta limit

/-- A frame of ties leaves the root's bit set. -/
def tiedCall : FanoCall := ⟨List.replicate 16 (0,0),8,17,10⟩

theorem pooled_after_tie : ∃ scratch, FanoScratch.after [tiedCall] = some scratch ∧
    ((∀ bm delta limit, bm.length = 2 * 8 → Option.Rel SameOutcome
        ((fanoDecodeWithScratch scratch bm 8 delta limit).map Prod.fst) (fanoDecode bm 8 delta limit)) ↔
      scratch.nodes.length ≠ 8 + 1 ∨ 8 ≤ 1 ∨ (node scratch.nodes 0).encstate = 0) := by
  obtain ⟨scratch,hs⟩ := Option.isSome_iff_exists.mp
    (show (FanoScratch.after [tiedCall]).isSome by decide)
  exact ⟨scratch,hs,(pooled_eq_fresh_iff [tiedCall] scratch hs 8 (by decide)).1⟩

/-- The all-zero frame, clean on a fresh buffer, decodes to other data on that of the tied frame. -/
theorem stale_root_changes_data :
    ((FanoScratch.after [tiedCall]).bind fun scratch =>
        (fanoDecodeWithScratch scratch (zeroFrame 8) 8 17 10).map fun r =>
          (r.1.converged,r.1.data,r.1.metric,r.1.cycles)) = some (true,[128],-5,10) ∧
      (fanoDecode (zeroFrame 8) 8 17 10).map (fun r => (r.converged,r.data,r.metric,r.cycles)) =
        some (true,[0],0,8) := by
  decide

end MfskCore.Fec
