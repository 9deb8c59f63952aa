import MfskCore.Library.Machine
import Mathlib.Data.List.Chain

/-! The CI-V frame reader of `civ_frame.rs`: bytes in as they arrive, whole frames out. -/
namespace MfskCore.App
open Library

def PRE : UInt8 := 0xFE
def POST : UInt8 := 0xFD
def MAX_FRAME : Nat := 40

/-- A frame buffer never outgrows its capacity. -/
@[ext] structure Frame where
  bytes : List UInt8
  fits : bytes.length ≤ MAX_FRAME
  deriving DecidableEq

namespace Frame

def empty : Frame := ⟨[],Nat.zero_le _⟩

def push (f : Frame) (b : UInt8) : Option Frame :=
  if h : (f.bytes ++ [b]).length ≤ MAX_FRAME then some ⟨f.bytes ++ [b],h⟩ else none

end Frame

structure Reader where
  buf : Frame
  deriving DecidableEq

namespace Reader

def new : Reader := ⟨.empty⟩

/-- One byte, and the frame it finishes. -/
def push (r : Reader) (b : UInt8) : Reader × Option Frame :=
  if r.buf.bytes.isEmpty then
    if b = PRE then (⟨(r.buf.push b).getD r.buf⟩,none) else (r,none)
  else if r.buf.bytes.length = 1 then
    if b = PRE then (⟨(r.buf.push b).getD r.buf⟩,none) else (⟨.empty⟩,none)
  else if r.buf.bytes.length = 2 ∧ b = PRE then (r,none)
  else match r.buf.push b with
    | none => (⟨.empty⟩,none)
    | some buf => if b = POST then (⟨.empty⟩,some buf) else (⟨buf⟩,none)

/-- The bytes of a well-formed frame around a body. -/
def frameOf (body : List UInt8) (h : body.length + 3 ≤ MAX_FRAME) : Frame :=
  ⟨PRE :: PRE :: (body ++ [POST]),by rw [List.length_cons,List.length_cons,List.length_append]; exact h⟩

/-- The frame is returned on its last byte, and nothing before. -/
def Delivers (r : Reader) (f : Frame) : Prop :=
  outputs push r f.bytes = List.replicate (f.bytes.length - 1) none ++ [some f]

section Steps

private theorem push_idle {r : Reader} {b : UInt8} (h : r.buf.bytes = []) (hb : b ≠ PRE) : r.push b = (r,none) := by
  rw [push,h,if_pos List.isEmpty_nil,if_neg hb]

private theorem push_first {r : Reader} (h : r.buf.bytes = []) :
    (r.push PRE).2 = none ∧ (r.push PRE).1.buf.bytes = [PRE] := by
  rw [push,h,if_pos List.isEmpty_nil,if_pos rfl]
  simp [Frame.push,h,MAX_FRAME]

private theorem push_lone {r : Reader} {x b : UInt8} (h : r.buf.bytes = [x]) (hb : b ≠ PRE) :
    r.push b = (⟨.empty⟩,none) := by
  rw [push,h,if_neg (by simp),if_pos List.length_singleton,if_neg hb]

private theorem push_second {r : Reader} {x : UInt8} (h : r.buf.bytes = [x]) :
    (r.push PRE).2 = none ∧ (r.push PRE).1.buf.bytes = [x,PRE] := by
  rw [push,h,if_neg (by simp),if_pos List.length_singleton,if_pos rfl]
  simp [Frame.push,h,MAX_FRAME]

private theorem push_repeated {r : Reader} (h : r.buf.bytes.length = 2) : r.push PRE = (r,none) := by
  have hne : r.buf.bytes.isEmpty = false := by
    rw [← Bool.not_eq_true,List.isEmpty_iff_length_eq_zero]
    omega
  rw [push,if_neg (by simp [hne]),if_neg (by omega),if_pos ⟨h,rfl⟩]

/-- Past its preamble, a frame overflows, is finished or grows. -/
private theorem push_open {r : Reader} {b : UInt8} (hlen : 2 ≤ r.buf.bytes.length)
    (hb : r.buf.bytes.length = 2 → b ≠ PRE) :
    (r.push b = (⟨.empty⟩,none) ∧ r.buf.bytes.length = MAX_FRAME) ∨
    (b = POST ∧ ∃ f : Frame, f.bytes = r.buf.bytes ++ [b] ∧ r.push b = (⟨.empty⟩,some f)) ∨
    (b ≠ POST ∧ (r.push b).2 = none ∧ (r.push b).1.buf.bytes = r.buf.bytes ++ [b]) := by
  have hne : r.buf.bytes.isEmpty = false := by
    rw [← Bool.not_eq_true,List.isEmpty_iff_length_eq_zero]
    omega
  rw [push,if_neg (by simp [hne]),if_neg (by omega),if_neg (by tauto),Frame.push]
  by_cases hfit : (r.buf.bytes ++ [b]).length ≤ MAX_FRAME
  · rw [dif_pos hfit]
    by_cases hpost : b = POST
    · exact .inr (.inl ⟨hpost,⟨_,hfit⟩,rfl,by simp [hpost]⟩)
    · exact .inr (.inr ⟨hpost,by simp [hpost],by simp [hpost]⟩)
  · rw [dif_neg hfit]
    have hmax := r.buf.fits
    rw [List.length_append,List.length_singleton] at hfit
    exact .inl ⟨rfl,by omega⟩

end Steps

/-- What the buffer holds: nothing, a lone first byte, or everything from a preamble on. -/
def Aligned (r : Reader) : Prop :=
  r.buf.bytes = [] ∨ r.buf.bytes = [PRE] ∨ [PRE,PRE] <+: r.buf.bytes

/-- A frame from its preamble to its end. -/
def Framed (f : Frame) : Prop := [PRE,PRE] <+: f.bytes ∧ f.bytes.getLast? = some POST

/-- No two neighbouring bytes are a preamble, the first byte left aside. -/
def NoPreambleInside (bytes : List UInt8) : Prop := bytes.tail.IsChain fun x y => ¬(x = PRE ∧ y = PRE)

instance (bytes : List UInt8) : Decidable (NoPreambleInside bytes) :=
  inferInstanceAs (Decidable (bytes.tail.IsChain fun x y => ¬(x = PRE ∧ y = PRE)))

/-- The byte does not complete a preamble inside an open frame. -/
def NotTorn (r : Reader) (b : UInt8) : Prop :=
  ¬(3 ≤ r.buf.bytes.length ∧ r.buf.bytes.getLast? = some PRE ∧ b = PRE)

instance (r : Reader) (b : UInt8) : Decidable (r.NotTorn b) :=
  inferInstanceAs (Decidable (¬(3 ≤ r.buf.bytes.length ∧ r.buf.bytes.getLast? = some PRE ∧ b = PRE)))

/-- One byte keeps the alignment; a frame it finishes is aligned as well. -/
theorem push_aligned {r : Reader} (b : UInt8) (h : r.Aligned) :
    (r.push b).1.Aligned ∧ ∀ f, (r.push b).2 = some f → Framed f := by
  obtain h | h | ⟨body,hbody⟩ := h
  · by_cases hb : b = PRE
    · obtain ⟨hnone,hbytes⟩ := push_first h
      rw [hb,hnone]
      exact ⟨.inr (.inl hbytes),by simp⟩
    · rw [push_idle h hb]
      exact ⟨.inl h,by simp⟩
  · by_cases hb : b = PRE
    · obtain ⟨hnone,hbytes⟩ := push_second h
      rw [hb,hnone]
      exact ⟨.inr (.inr (hbytes ▸ List.prefix_rfl)),by simp⟩
    · rw [push_lone h hb]
      exact ⟨.inl rfl,by simp⟩
  · by_cases hrepeat : r.buf.bytes.length = 2 ∧ b = PRE
    · rw [hrepeat.2,push_repeated hrepeat.1]
      exact ⟨.inr (.inr ⟨body,hbody⟩),by simp⟩
    · have hlen : 2 ≤ r.buf.bytes.length := by simp [← hbody]
      obtain ⟨heq,-⟩ | ⟨hpost,f,hf,heq⟩ | ⟨-,hnone,hbytes⟩ := push_open hlen (by tauto)
      · rw [heq]
        exact ⟨.inl rfl,by simp⟩
      · rw [heq]
        refine ⟨.inl rfl,fun g hg => ?_⟩
        obtain rfl := Option.some.inj hg
        rw [Framed,hf,← hbody,hpost]
        exact ⟨⟨body ++ [POST],(List.append_assoc ..).symm⟩,List.getLast?_concat⟩
      · rw [hnone]
        exact ⟨.inr (.inr ⟨body ++ [b],by rw [hbytes,← hbody,List.append_assoc]⟩),by simp⟩

private theorem aligned_final (history : List UInt8) : (final push new history).Aligned :=
  run_invariant (I := Aligned) (fun _ b h => (push_aligned b h).1) (.inl rfl)

private theorem noPreambleInside_concat {bytes : List UInt8} {b : UInt8} (hlen : 2 ≤ bytes.length)
    (h : NoPreambleInside bytes) (hb : bytes.getLast? = some PRE → b ≠ PRE) : NoPreambleInside (bytes ++ [b]) := by
  obtain ⟨x,y,rest,rfl⟩ : ∃ x y rest, bytes = x :: y :: rest := by
    match bytes, hlen with
    | x :: y :: rest, _ => exact ⟨x,y,rest,rfl⟩
  refine List.isChain_append.2 ⟨h,List.isChain_singleton b,?_⟩
  rintro z hz _ hb' ⟨rfl,hpre⟩
  obtain rfl : b = PRE := by simpa [hpre] using hb'
  exact hb (by simpa using hz) rfl

/-- An untorn byte adds no preamble to what the buffer holds or to the frame it finishes. -/
theorem push_noPreamble {r : Reader} {b : UInt8} (haligned : r.Aligned) (h : NoPreambleInside r.buf.bytes)
    (hb : r.NotTorn b) : NoPreambleInside (r.push b).1.buf.bytes ∧
      ∀ f, (r.push b).2 = some f → NoPreambleInside f.bytes := by
  obtain hr | hr | ⟨body,hbody⟩ := haligned
  · by_cases hpre : b = PRE
    · obtain ⟨hnone,hbytes⟩ := push_first hr
      rw [hpre,hnone,hbytes]
      exact ⟨List.isChain_nil,by simp⟩
    · rw [push_idle hr hpre]
      exact ⟨h,by simp⟩
  · by_cases hpre : b = PRE
    · obtain ⟨hnone,hbytes⟩ := push_second hr
      rw [hpre,hnone,hbytes]
      exact ⟨List.isChain_singleton _,by simp⟩
    · rw [push_lone hr hpre]
      exact ⟨List.isChain_nil,by simp⟩
  · by_cases hrepeat : r.buf.bytes.length = 2 ∧ b = PRE
    · rw [hrepeat.2,push_repeated hrepeat.1]
      exact ⟨h,by simp⟩
    · have hlen : 2 ≤ r.buf.bytes.length := by simp [← hbody]
      have hgrown : NoPreambleInside (r.buf.bytes ++ [b]) := by
        refine noPreambleInside_concat hlen h fun hlast hpre => ?_
        have hne : r.buf.bytes.length ≠ 2 := fun h2 => hrepeat ⟨h2,hpre⟩
        exact hb ⟨by omega,hlast,hpre⟩
      obtain ⟨heq,-⟩ | ⟨-,f,hf,heq⟩ | ⟨-,hnone,hbytes⟩ := push_open hlen (by tauto)
      · rw [heq]
        exact ⟨List.isChain_nil,by simp⟩
      · rw [heq]
        refine ⟨List.isChain_nil,fun g hg => ?_⟩
        obtain rfl := Option.some.inj hg
        rwa [hf]
      · rw [hnone,hbytes]
        exact ⟨hgrown,by simp⟩

/-- With an idle reader and no preamble to come, nothing happens. -/
private theorem outputs_idle {r : Reader} {bytes : List UInt8} (h : r.buf.bytes = []) (hfree : ∀ b ∈ bytes, b ≠ PRE) :
    ∀ o ∈ outputs push r bytes, o = none := by
  induction bytes with
  | nil => simp
  | cons b bytes ih =>
    obtain ⟨hb,hrest⟩ := List.forall_mem_cons.1 hfree
    rw [outputs_cons,push_idle h hb]
    exact List.forall_mem_cons.2 ⟨rfl,ih hrest⟩

private theorem outputs_lone {r : Reader} {x : UInt8} {bytes : List UInt8} (h : r.buf.bytes = [x])
    (hfree : ∀ b ∈ bytes, b ≠ PRE) : ∀ o ∈ outputs push r bytes, o = none := by
  cases bytes with
  | nil => simp
  | cons b bytes =>
    obtain ⟨hb,hrest⟩ := List.forall_mem_cons.1 hfree
    rw [outputs_cons,push_lone h hb]
    exact List.forall_mem_cons.2 ⟨rfl,outputs_idle rfl hrest⟩

/-- Inside an open frame, whatever is returned counts every byte since. -/
private theorem outputs_glued {r : Reader} {bytes : List UInt8} (hlen : 3 ≤ r.buf.bytes.length)
    (hfree : ∀ b ∈ bytes, b ≠ PRE) {i : Nat} {f : Frame} (h : (outputs push r bytes)[i]? = some (some f)) :
    f.bytes.length = r.buf.bytes.length + i + 1 := by
  induction bytes generalizing r i with
  | nil => simp at h
  | cons b bytes ih =>
    obtain ⟨hb,hrest⟩ := List.forall_mem_cons.1 hfree
    have hclosed (heq : (r.push b).1 = ⟨.empty⟩) (j : Nat) (hj : i = j + 1) : False := by
      rw [outputs_cons,hj,List.getElem?_cons_succ,heq] at h
      exact absurd (outputs_idle rfl hrest _ (List.mem_of_getElem? h)) (by simp)
    obtain ⟨heq,-⟩ | ⟨-,g,hg,heq⟩ | ⟨-,hnone,hbytes⟩ := push_open (r := r) (by omega) fun _ => hb
    · cases i with
      | zero => simp [heq] at h
      | succ j => exact (hclosed (by rw [heq]) j rfl).elim
    · cases i with
      | zero =>
        obtain rfl : g = f := by simpa [heq] using h
        simp [hg]
      | succ j => exact (hclosed (by rw [heq]) j rfl).elim
    · cases i with
      | zero => simp [hnone] at h
      | succ j =>
        have hnext := ih (r := (r.push b).1) (by rw [hbytes,List.length_append]; omega) hrest (by simpa using h)
        rw [hnext,hbytes,List.length_append,List.length_singleton]
        omega

/-- Inside an open frame, a body without marks is taken up byte by byte. -/
private theorem outputs_body {r : Reader} {body : List UInt8} (hlen : 2 ≤ r.buf.bytes.length)
    (hfit : r.buf.bytes.length + body.length < MAX_FRAME) (hbody : ∀ b ∈ body, b ≠ PRE ∧ b ≠ POST) :
    outputs push r body = List.replicate body.length none ∧
      (final push r body).buf.bytes = r.buf.bytes ++ body := by
  induction body generalizing r with
  | nil => exact ⟨rfl,(List.append_nil _).symm⟩
  | cons b body ih =>
    obtain ⟨⟨hpre,hpost⟩,hrest⟩ := List.forall_mem_cons.1 hbody
    rw [List.length_cons] at hfit
    obtain ⟨-,hfull⟩ | ⟨h,-⟩ | ⟨-,hnone,hbytes⟩ := push_open hlen fun _ => hpre
    · omega
    · exact absurd h hpost
    · have hnext : (r.push b).1.buf.bytes.length = r.buf.bytes.length + 1 := by rw [hbytes]; simp
      obtain ⟨houts,hfinal⟩ := ih (r := (r.push b).1) (by omega) (by omega) hrest
      rw [outputs_cons,hnone,houts,final_cons,hfinal,hbytes,List.append_assoc]
      exact ⟨rfl,rfl⟩

/-- Up to its preamble, the reader takes a frame whole. -/
private theorem delivers_of_short {r : Reader} {body : List UInt8} (hr : r.Aligned) (hshort : r.buf.bytes.length ≤ 2)
    (hbody : ∀ b ∈ body, b ≠ PRE ∧ b ≠ POST) (hfit : body.length + 3 ≤ MAX_FRAME) :
    r.Delivers (frameOf body hfit) := by
  have hpreamble : outputs push r [PRE,PRE] = [none,none] ∧ (final push r [PRE,PRE]).buf.bytes = [PRE,PRE] := by
    obtain h | h | ⟨rest,h⟩ := hr
    · obtain ⟨hnone,hone⟩ := push_first h
      obtain ⟨hnone',htwo⟩ := push_second hone
      simp [hnone,hnone',htwo]
    · obtain ⟨hnone,htwo⟩ := push_second h
      have hrepeat := push_repeated (r := (r.push PRE).1) (by rw [htwo]; rfl)
      simp [hnone,hrepeat,htwo]
    · obtain rfl : rest = [] := by
        rw [← h] at hshort
        simpa using hshort
      have hrepeat := push_repeated (r := r) (by rw [← h]; rfl)
      simp [hrepeat,← h]
  obtain ⟨houts,hopen⟩ := hpreamble
  obtain ⟨hquiet,hfull⟩ := outputs_body (r := final push r [PRE,PRE]) (by rw [hopen]; decide)
    (by rw [hopen]; simp only [List.length_cons,List.length_nil]; omega) hbody
  rw [hopen] at hfull
  have hlen : (final push (final push r [PRE,PRE]) body).buf.bytes.length = body.length + 2 := by
    rw [hfull]
    simp
  have hlast : (push (final push (final push r [PRE,PRE]) body) POST).2 = some (frameOf body hfit) := by
    obtain ⟨-,hover⟩ | ⟨-,f,hf,heq⟩ | ⟨h,-⟩ := push_open (r := final push (final push r [PRE,PRE]) body) (b := POST)
      (by omega) fun _ => by decide
    · omega
    · rw [heq]
      refine congrArg some (Frame.ext ?_)
      rw [hf,hfull]
      rfl
    · exact absurd rfl h
  have hsplit : (frameOf body hfit).bytes = [PRE,PRE] ++ (body ++ [POST]) := rfl
  rw [Delivers,hsplit,outputs_append,outputs_append,houts,hquiet,outputs_cons,hlast]
  simp [List.replicate_succ]

/-- Inside an open frame, the reader never returns the frame: what it returns holds the open one too, or the
frame has been thrown away with it. -/
private theorem not_delivers_of_open {r : Reader} {body : List UInt8} (hopen : 3 ≤ r.buf.bytes.length)
    (hbody : ∀ b ∈ body, b ≠ PRE ∧ b ≠ POST) (hfit : body.length + 3 ≤ MAX_FRAME) :
    ¬r.Delivers (frameOf body hfit) := by
  intro h
  have hfree : ∀ b ∈ body ++ [POST], b ≠ PRE := by
    intro b hb
    obtain hb | hb := List.mem_append.1 hb
    · exact (hbody b hb).1
    · rw [List.mem_singleton.1 hb]
      decide
  have hlast : (outputs push ((r.push PRE).1.push PRE).1 (body ++ [POST]))[body.length]? =
      some (some (frameOf body hfit)) := by
    have hget : (outputs push r (frameOf body hfit).bytes)[body.length + 2]? = some (some (frameOf body hfit)) := by
      rw [h]
      simp [frameOf]
    exact hget
  have hlost (hall : ∀ o ∈ outputs push ((r.push PRE).1.push PRE).1 (body ++ [POST]), o = none) : False := by
    have hnone := hall _ (List.mem_of_getElem? hlast)
    cases hnone
  obtain ⟨heq,-⟩ | ⟨hpost,-⟩ | ⟨-,-,hone⟩ := push_open (r := r) (b := PRE) (by omega) (by omega)
  · have hone := (push_first (r := (r.push PRE).1) (by rw [heq]; rfl)).2
    exact hlost (outputs_lone hone hfree)
  · exact absurd hpost (by decide)
  · have hlen : (r.push PRE).1.buf.bytes.length = r.buf.bytes.length + 1 := by rw [hone]; simp
    obtain ⟨heq,-⟩ | ⟨hpost,-⟩ | ⟨-,-,htwo⟩ := push_open (r := (r.push PRE).1) (b := PRE) (by omega) (by omega)
    · exact hlost (outputs_idle (by rw [heq]; rfl) hfree)
    · exact absurd hpost (by decide)
    · have hglued := outputs_glued (by rw [htwo,List.length_append]; omega) hfree hlast
      rw [htwo,List.length_append,hlen] at hglued
      simp only [frameOf,List.length_cons,List.length_append,List.length_nil] at hglued
      omega

/-- After any bytes, a frame is returned on its last byte, and nothing before, exactly when the bytes have not
left a frame open; whatever is returned runs from a preamble to an end, and has no second preamble in it as long
as no frame is torn. -/
theorem reader_resynchronises (history body stream : List UInt8) :
    (∀ hfit : body.length + 3 ≤ MAX_FRAME, (∀ b ∈ body, b ≠ PRE ∧ b ≠ POST) →
      ((final push new history).Delivers (frameOf body hfit) ↔ (final push new history).buf.bytes.length ≤ 2)) ∧
    (∀ f, some f ∈ outputs push new stream → Framed f) ∧
    (AllSteps NotTorn (fun r b => (push r b).1) new stream →
      ∀ f, some f ∈ outputs push new stream → NoPreambleInside f.bytes) := by
  refine ⟨fun hfit hbody => ⟨fun h => ?_,fun h => ?_⟩,fun f hf => ?_,fun hok f hf => ?_⟩
  · by_contra hopen
    exact not_delivers_of_open (by omega) hbody hfit h
  · exact delivers_of_short (aligned_final history) h hbody hfit
  · exact outputs_of_allSteps (I := Aligned) (Q := fun o => ∀ f, o = some f → Framed f)
      (fun _ b h _ => push_aligned b h) (.inl rfl) (allSteps_true ..) _ hf f rfl
  · exact outputs_of_allSteps (I := fun r => r.Aligned ∧ NoPreambleInside r.buf.bytes)
      (Q := fun o => ∀ f, o = some f → NoPreambleInside f.bytes)
      (fun r b h hb => ⟨⟨(push_aligned b h.1).1,(push_noPreamble h.1 h.2 hb).1⟩,(push_noPreamble h.1 h.2 hb).2⟩)
      ⟨.inl rfl,show NoPreambleInside new.buf.bytes from List.isChain_nil⟩ hok _ hf f rfl

/-- A clean frame after noise and a lone byte, in a stream that is not torn. -/
theorem reader_resynchronises_ok :
    (final push new [0x12,0xFD,0xFE,0x33,0xFE]).Delivers (frameOf [0xE0,0xA4,0xFB] (by decide)) ∧
      ∀ f, some f ∈ outputs push new [0xFE,0xFE,0xFE,0xE0,0xA4,0xFB,0xFD] → NoPreambleInside f.bytes :=
  ⟨((reader_resynchronises [0x12,0xFD,0xFE,0x33,0xFE] [0xE0,0xA4,0xFB] []).1 (by decide) (by simp [PRE,POST])).2 (by decide),
    (reader_resynchronises [] [] [0xFE,0xFE,0xFE,0xE0,0xA4,0xFB,0xFD]).2.2 (by decide)⟩

/-- A frame torn after its opcode, then an acknowledgement: one frame of both comes out. -/
theorem reader_glues :
    ¬(final push new [0xFE,0xFE,0xE0,0xA4,0x04]).Delivers (frameOf [0xE0,0xA4,0xFB] (by decide)) ∧
      ∃ f, some f ∈ outputs push new [0xFE,0xFE,0xE0,0xA4,0x04,0xFE,0xFE,0xE0,0xA4,0xFB,0xFD] ∧
        f.bytes = [0xFE,0xFE,0xE0,0xA4,0x04,0xFE,0xFE,0xE0,0xA4,0xFB,0xFD] ∧ ¬NoPreambleInside f.bytes := by
  refine ⟨by unfold Delivers; decide,⟨[0xFE,0xFE,0xE0,0xA4,0x04,0xFE,0xFE,0xE0,0xA4,0xFB,0xFD],by decide⟩,by decide,rfl,?_⟩
  decide

end Reader
end MfskCore.App
