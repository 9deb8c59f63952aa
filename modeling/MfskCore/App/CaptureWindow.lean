import MfskCore.Library.Machine
import Mathlib.Algebra.GroupWithZero.Nat
import Mathlib.Data.List.Chain
import Mathlib.Logic.Function.Iterate

/-! The capture window of `capture_window.rs`: what to do with the front of each batch of samples, and which
samples of the stream end up in which window. -/
namespace MfskCore.App
open Library

inductive Step where
  | skip (n : Nat)
  | capture (n : Nat) (opens closes : Bool)
  deriving DecidableEq

/-- A window is never left full. -/
@[ext] structure CaptureWindow where
  captureSamples : Nat
  skipRemaining : Nat
  fed : Nat
  part : fed < captureSamples
  deriving DecidableEq

namespace CaptureWindow

def new (captureSamples : Nat) (h : 0 < captureSamples) : CaptureWindow := ⟨captureSamples,0,0,h⟩

def arm (w : CaptureWindow) (samplesToBoundary : Option Nat) (fallback : Nat) : CaptureWindow :=
  { w with skipRemaining := samplesToBoundary.getD fallback }

def isOpen (w : CaptureWindow) : Bool := 0 < w.fed

/-- The gap first, also when the window is open. -/
def step (w : CaptureWindow) (avail : Nat) : CaptureWindow × Step :=
  if 0 < w.skipRemaining then
    let n := min avail w.skipRemaining
    ({ w with skipRemaining := w.skipRemaining - n },.skip n)
  else
    let opens := w.fed == 0
    let n := min avail (w.captureSamples - w.fed)
    if h : w.captureSamples ≤ w.fed + n then
      ({ w with fed := 0, part := Nat.zero_lt_of_lt w.part },.capture n opens true)
    else ({ w with fed := w.fed + n, part := Nat.lt_of_not_le h },.capture n opens false)

/-- What a step does: it skips, captures without filling the window, or fills it. -/
theorem step_cases (w : CaptureWindow) (avail : Nat) :
    (0 < w.skipRemaining ∧ w.step avail =
      ({ w with skipRemaining := w.skipRemaining - min avail w.skipRemaining },.skip (min avail w.skipRemaining))) ∨
    (w.skipRemaining = 0 ∧ ∃ h : w.fed + avail < w.captureSamples,
      w.step avail = ({ w with fed := w.fed + avail, part := h },.capture avail (w.fed == 0) false)) ∨
    (w.skipRemaining = 0 ∧ w.captureSamples ≤ w.fed + avail ∧
      w.step avail = ({ w with fed := 0, part := Nat.zero_lt_of_lt w.part },
        .capture (w.captureSamples - w.fed) (w.fed == 0) true)) := by
  have hpart := w.part
  by_cases hskip : 0 < w.skipRemaining
  · exact .inl ⟨hskip,by rw [step,if_pos hskip]⟩
  · have hzero : w.skipRemaining = 0 := by omega
    rw [step,if_neg hskip]
    by_cases hfull : w.captureSamples ≤ w.fed + avail
    · have hmin : min avail (w.captureSamples - w.fed) = w.captureSamples - w.fed := by omega
      refine .inr (.inr ⟨hzero,hfull,?_⟩)
      simp only [hmin]
      rw [dif_pos (by omega)]
    · have hmin : min avail (w.captureSamples - w.fed) = avail := by omega
      refine .inr (.inl ⟨hzero,by omega,?_⟩)
      simp only [hmin]
      rw [dif_neg hfull]

end CaptureWindow

section Runs

/-- The calls on a window; a batch is never empty. -/
inductive CaptureOp where
  | arm (samplesToBoundary : Option Nat) (fallback : Nat)
  | step (avail : Nat) (nonempty : 0 < avail)

/-- A window on a stream: the samples consumed, and the ones captured since the window opened. -/
structure Capture where
  win : CaptureWindow
  pos : Nat
  samples : List Nat

namespace Capture

def start (captureSamples : Nat) (h : 0 < captureSamples) : Capture := ⟨.new captureSamples h,0,[]⟩

/-- A call; a step is shown with the samples of the window so far. -/
def perform (c : Capture) : CaptureOp → Capture × Option (Step × List Nat)
  | .arm samplesToBoundary fallback => ({ c with win := c.win.arm samplesToBoundary fallback },none)
  | .step avail _ =>
    match c.win.step avail with
    | (win,.skip n) => (⟨win,c.pos + n,c.samples⟩,some (.skip n,c.samples))
    | (win,.capture n opens closes) =>
      let samples := (if opens then [] else c.samples) ++ List.range' c.pos n
      (⟨win,c.pos + n,samples⟩,some (.capture n opens closes,samples))

/-- No gap is waited out inside an open window. -/
def Undisturbed (c : Capture) : CaptureOp → Prop
  | .arm _ _ => True
  | .step _ _ => ¬(0 < c.win.fed ∧ 0 < c.win.skipRemaining)

theorem perform_captureSamples (c : Capture) (op : CaptureOp) :
    (c.perform op).1.win.captureSamples = c.win.captureSamples := by
  cases op with
  | arm samplesToBoundary fallback => rfl
  | step avail nonempty =>
    obtain ⟨-,heq⟩ | ⟨-,_,heq⟩ | ⟨-,-,heq⟩ := c.win.step_cases avail <;> simp only [perform,heq]

/-- The open window holds as many samples as it counts. -/
def Counted (c : Capture) : Prop := 0 < c.win.fed → c.samples.length = c.win.fed

/-- The open window holds the last samples of the stream. -/
def Contiguous (c : Capture) : Prop := 0 < c.win.fed → c.win.fed ≤ c.pos ∧ c.samples = List.range' (c.pos - c.win.fed) c.win.fed

/-- A step lengthens the window's samples as it lengthens the count. -/
theorem perform_counted {c : Capture} (op : CaptureOp) (h : c.Counted) :
    (c.perform op).1.Counted ∧ ∀ n opens samples, (c.perform op).2 = some (.capture n opens true,samples) →
      samples.length = c.win.captureSamples := by
  cases op with
  | arm samplesToBoundary fallback => exact ⟨h,by simp [perform]⟩
  | step avail nonempty =>
    have hlength (n : Nat) :
        ((if (c.win.fed == 0) = true then [] else c.samples) ++ List.range' c.pos n).length = c.win.fed + n := by
      split
      · rename_i hopens
        simp [beq_iff_eq.1 hopens]
      · rename_i hopen
        have hfed : 0 < c.win.fed := by simpa [Nat.pos_iff_ne_zero] using hopen
        simp [h hfed]
    obtain ⟨-,heq⟩ | ⟨-,hfit,heq⟩ | ⟨-,-,heq⟩ := c.win.step_cases avail
    · simp only [perform,heq]
      exact ⟨h,by simp⟩
    · simp only [perform,heq]
      exact ⟨fun _ => hlength avail,by simp⟩
    · simp only [perform,heq]
      refine ⟨fun hfed => absurd hfed (Nat.lt_irrefl 0),fun n opens samples hout => ?_⟩
      obtain ⟨-,rfl⟩ := Prod.mk.inj (Option.some.inj hout)
      rw [hlength,Nat.add_sub_cancel' c.win.part.le]

/-- An undisturbed step keeps the samples together. -/
theorem perform_contiguous {c : Capture} {op : CaptureOp} (h : c.Contiguous) (hop : c.Undisturbed op) :
    (c.perform op).1.Contiguous ∧ ∀ n opens samples, (c.perform op).2 = some (.capture n opens true,samples) →
      ∃ first, samples = List.range' first c.win.captureSamples := by
  cases op with
  | arm samplesToBoundary fallback => exact ⟨h,by simp [perform]⟩
  | step avail nonempty =>
    have hpos : c.win.fed ≤ c.pos := by
      by_cases hfed : 0 < c.win.fed
      · exact (h hfed).1
      · omega
    have hrun (n : Nat) : (if (c.win.fed == 0) = true then [] else c.samples) ++ List.range' c.pos n =
        List.range' (c.pos - c.win.fed) (c.win.fed + n) := by
      split
      · rename_i hopens
        rw [beq_iff_eq.1 hopens,List.nil_append,Nat.sub_zero,Nat.zero_add]
      · rename_i hopen
        have hfed : 0 < c.win.fed := by simpa [Nat.pos_iff_ne_zero] using hopen
        rw [(h hfed).2,← List.range'_append_1,Nat.sub_add_cancel hpos]
    obtain ⟨hskip,heq⟩ | ⟨-,hfit,heq⟩ | ⟨-,-,heq⟩ := c.win.step_cases avail
    · simp only [perform,heq]
      exact ⟨fun hfed => absurd ⟨hfed,hskip⟩ hop,by simp⟩
    · simp only [perform,heq]
      refine ⟨fun _ => ⟨Nat.add_le_add_right hpos avail,?_⟩,by simp⟩
      rw [hrun]
      show List.range' _ _ = List.range' (c.pos + avail - (c.win.fed + avail)) _
      rw [Nat.add_sub_add_right]
    · simp only [perform,heq]
      refine ⟨fun hfed => absurd hfed (Nat.lt_irrefl 0),fun n opens samples hout => ⟨c.pos - c.win.fed,?_⟩⟩
      obtain ⟨-,rfl⟩ := Prod.mk.inj (Option.some.inj hout)
      rw [hrun,Nat.add_sub_cancel' c.win.part.le]

/-- An opening or a closing of a window. -/
inductive Mark where
  | opens
  | closes
  deriving DecidableEq

/-- The marks of a call, in the order of the samples. -/
def marks : Option (Step × List Nat) → List Mark
  | some (.capture _ opens closes,_) => (if opens then [.opens] else []) ++ if closes then [.closes] else []
  | _ => []

/-- The mark a run has to show first: a closing while the window is open. -/
def nextMark (w : CaptureWindow) : Mark := if w.fed = 0 then .opens else .closes

/-- The marks differ from one to the next, and the first one is given. -/
def Alternate (first : Mark) (ms : List Mark) : Prop :=
  ms.IsChain (fun a b => a ≠ b) ∧ ∀ m ∈ ms.head?, m = first

private theorem Alternate.cons {first second : Mark} {ms : List Mark} (h : Alternate second ms)
    (hne : first ≠ second) : Alternate first (first :: ms) := by
  refine ⟨List.isChain_cons.2 ⟨fun m hm => ?_,h.1⟩,by simp⟩
  rw [h.2 m hm]
  exact hne

/-- Openings and closings alternate from any state on. -/
theorem marks_alternate (c : Capture) (ops : List CaptureOp) :
    Alternate (nextMark c.win) ((outputs perform c ops).flatMap marks) := by
  induction ops generalizing c with
  | nil => exact ⟨List.isChain_nil,by simp⟩
  | cons op ops ih =>
    rw [outputs_cons,List.flatMap_cons]
    have hnext := ih (c.perform op).1
    cases op with
    | arm samplesToBoundary fallback => exact hnext
    | step avail nonempty =>
      obtain ⟨-,heq⟩ | ⟨-,hfit,heq⟩ | ⟨-,-,heq⟩ := c.win.step_cases avail
      · simp only [perform,heq] at hnext ⊢
        exact hnext
      · simp only [perform,heq] at hnext ⊢
        rw [show nextMark { c.win with fed := c.win.fed + avail, part := hfit } = .closes from
          if_neg (by show c.win.fed + avail ≠ 0; omega)] at hnext
        by_cases hfed : c.win.fed = 0
        · rw [show nextMark c.win = .opens from if_pos hfed]
          simpa [marks,hfed] using hnext.cons (by decide : Mark.opens ≠ .closes)
        · rw [show nextMark c.win = .closes from if_neg hfed]
          simpa [marks,hfed] using hnext
      · simp only [perform,heq] at hnext ⊢
        have hclose := hnext.cons (show Mark.closes ≠ nextMark _ by rw [nextMark,if_pos rfl]; decide)
        by_cases hfed : c.win.fed = 0
        · rw [show nextMark c.win = .opens from if_pos hfed]
          simpa [marks,hfed] using hclose.cons (by decide : Mark.opens ≠ .closes)
        · rw [show nextMark c.win = .closes from if_neg hfed]
          simpa [marks,hfed] using hclose

end Capture
end Runs

section Batches

/-- A stream handed over in batches: the window, the samples consumed and the indices of the captured ones. -/
@[ext] structure Sink where
  win : CaptureWindow
  pos : Nat
  captured : List Nat

namespace Sink

/-- One step on a batch of `avail` samples. At a close the window is armed from a phase reading at that place of
the stream, or left alone. -/
def consume (arms : Nat → Option (Option Nat × Nat)) (s : Sink) (avail : Nat) : Sink × Nat :=
  match s.win.step avail with
  | (win,.skip n) => (⟨win,s.pos + n,s.captured⟩,n)
  | (win,.capture n _ closes) =>
    let win := if closes then (arms (s.pos + n)).elim win fun a => win.arm a.1 a.2 else win
    (⟨win,s.pos + n,s.captured ++ List.range' s.pos n⟩,n)

theorem consume_pos (arms : Nat → Option (Option Nat × Nat)) (s : Sink) {avail : Nat} (h : avail ≠ 0) :
    0 < (s.consume arms avail).2 := by
  have hpart := s.win.part
  obtain ⟨hskip,heq⟩ | ⟨-,_,heq⟩ | ⟨-,-,heq⟩ := s.win.step_cases avail
  · simp only [consume,heq]
    omega
  · simp only [consume,heq]
    omega
  · simp only [consume,heq]
    omega

/-- The loop over a batch. -/
def drain (arms : Nat → Option (Option Nat × Nat)) (s : Sink) (left : Nat) : Sink :=
  if _h : left = 0 then s else drain arms (s.consume arms left).1 (left - (s.consume arms left).2)
termination_by left
decreasing_by
  have := s.consume_pos arms _h
  omega

def feed (arms : Nat → Option (Option Nat × Nat)) (s : Sink) (batches : List Nat) : Sink :=
  batches.foldl (drain arms) s

/-- The next sample alone. -/
def consumeOne (arms : Nat → Option (Option Nat × Nat)) (s : Sink) : Sink := (s.consume arms 1).1

variable (arms : Nat → Option (Option Nat × Nat))

private theorem skip_iterate (s : Sink) {n : Nat} (h : n ≤ s.win.skipRemaining) :
    (consumeOne arms)^[n] s = ⟨{ s.win with skipRemaining := s.win.skipRemaining - n },s.pos + n,s.captured⟩ := by
  induction n with
  | zero => rfl
  | succ n ih =>
    rw [Function.iterate_succ_apply',ih (by omega)]
    obtain ⟨-,heq⟩ | ⟨hzero,-⟩ | ⟨hzero,-⟩ :=
      ({ s.win with skipRemaining := s.win.skipRemaining - n } : CaptureWindow).step_cases 1
    · have hmin : min 1 (s.win.skipRemaining - n) = 1 := by omega
      simp only [consumeOne,consume,heq,hmin]
      rw [Nat.sub_sub,Nat.add_assoc]
    · simp only at hzero
      omega
    · simp only at hzero
      omega

private theorem fill_iterate (s : Sink) (hskip : s.win.skipRemaining = 0) {n : Nat}
    (h : s.win.fed + n < s.win.captureSamples) : (consumeOne arms)^[n] s =
      ⟨{ s.win with fed := s.win.fed + n, part := h },s.pos + n,s.captured ++ List.range' s.pos n⟩ := by
  induction n with
  | zero => simp
  | succ n ih =>
    rw [Function.iterate_succ_apply',ih (by omega)]
    obtain ⟨hgap,-⟩ | ⟨-,_,heq⟩ | ⟨-,hfull,-⟩ :=
      ({ s.win with fed := s.win.fed + n, part := by omega } : CaptureWindow).step_cases 1
    · simp only at hgap
      omega
    · simp only [consumeOne,consume,heq]
      simp [← List.range'_append_1,List.append_assoc,Nat.add_assoc]
    · simp only at hfull
      omega

/-- A step is its samples one by one. -/
theorem consume_eq_iterate (s : Sink) (avail : Nat) :
    (s.consume arms avail).2 ≤ avail ∧ (s.consume arms avail).1 = (consumeOne arms)^[(s.consume arms avail).2] s := by
  have hpart := s.win.part
  obtain ⟨hgap,heq⟩ | ⟨hzero,hfit,heq⟩ | ⟨hzero,hfull,heq⟩ := s.win.step_cases avail
  · simp only [consume,heq]
    exact ⟨Nat.min_le_left ..,(skip_iterate arms s (Nat.min_le_right ..)).symm⟩
  · simp only [consume,heq]
    exact ⟨Nat.le_refl _,(fill_iterate arms s hzero hfit).symm⟩
  · simp only [consume,heq]
    refine ⟨by omega,?_⟩
    obtain ⟨n,hn⟩ : ∃ n, s.win.captureSamples - s.win.fed = n + 1 := ⟨s.win.captureSamples - s.win.fed - 1,by omega⟩
    rw [hn,Function.iterate_succ_apply',fill_iterate arms s hzero (by omega)]
    obtain ⟨hgap,-⟩ | ⟨-,hpart',-⟩ | ⟨-,-,hlast⟩ :=
      ({ s.win with fed := s.win.fed + n, part := by omega } : CaptureWindow).step_cases 1
    · simp only at hgap
      omega
    · simp only at hpart'
      omega
    · have hone : s.win.captureSamples - (s.win.fed + n) = 1 := by omega
      simp only [consumeOne,consume,hlast,hone]
      rw [← List.range'_append_1,List.append_assoc,Nat.add_assoc]

/-- A batch is its samples one by one. -/
theorem drain_eq_iterate (s : Sink) (left : Nat) : s.drain arms left = (consumeOne arms)^[left] s := by
  induction left using Nat.strong_induction_on generalizing s with
  | _ left ih =>
    rw [drain]
    split
    · rename_i hzero
      rw [hzero,Function.iterate_zero_apply]
    · rename_i hne
      have hpos := s.consume_pos arms hne
      obtain ⟨hle,heq⟩ := s.consume_eq_iterate arms left
      rw [ih _ (by omega),heq,← Function.iterate_add_apply,Nat.sub_add_cancel hle]

/-- So is a stream, however it is cut. -/
theorem feed_eq_iterate (s : Sink) (batches : List Nat) :
    s.feed arms batches = (consumeOne arms)^[batches.sum] s := by
  induction batches generalizing s with
  | nil => rfl
  | cons left batches ih =>
    have hcons : s.feed arms (left :: batches) = (s.drain arms left).feed arms batches := rfl
    rw [hcons,ih,drain_eq_iterate,← Function.iterate_add_apply,List.sum_cons,Nat.add_comm]

end Sink
end Batches

/-- In a run that waits out no gap inside an open window, every window that closes is one run of the stream. In
every run a closed window has its full count, and openings and closings alternate; with arms at the closes only,
the captured samples do not depend on the batches. -/
theorem capture_windows (captureSamples : Nat) (h : 0 < captureSamples) :
    (∀ ops, AllSteps Capture.Undisturbed (fun c op => (c.perform op).1) (.start captureSamples h) ops →
      ∀ n opens samples, some (.capture n opens true,samples) ∈ outputs Capture.perform (.start captureSamples h) ops →
        ∃ first, samples = List.range' first captureSamples) ∧
    (∀ ops n opens samples, some (.capture n opens true,samples) ∈
      outputs Capture.perform (.start captureSamples h) ops → samples.length = captureSamples) ∧
    (∀ ops, Capture.Alternate .opens ((outputs Capture.perform (.start captureSamples h) ops).flatMap Capture.marks)) ∧
    ∀ arms samplesToBoundary fallback batches batches', batches.sum = batches'.sum →
      Sink.feed arms ⟨(CaptureWindow.new captureSamples h).arm samplesToBoundary fallback,0,[]⟩ batches =
        Sink.feed arms ⟨(CaptureWindow.new captureSamples h).arm samplesToBoundary fallback,0,[]⟩ batches' := by
  refine ⟨fun ops hok n opens samples hout => ?_,fun ops n opens samples hout => ?_,
    fun ops => Capture.marks_alternate (.start captureSamples h) ops,fun arms samplesToBoundary fallback _ _ hsum => ?_⟩
  · refine outputs_of_allSteps (I := fun c => c.Contiguous ∧ c.win.captureSamples = captureSamples)
      (Q := fun o => ∀ n opens samples, o = some (.capture n opens true,samples) →
        ∃ first, samples = List.range' first captureSamples)
      (fun c op hc hop => ?_) ⟨fun hfed => absurd hfed (Nat.lt_irrefl 0),rfl⟩ hok _ hout n opens samples rfl
    obtain ⟨hnext,hclosed⟩ := Capture.perform_contiguous hc.1 hop
    exact ⟨⟨hnext,(c.perform_captureSamples op).trans hc.2⟩,hc.2 ▸ hclosed⟩
  · refine outputs_of_allSteps (I := fun c => c.Counted ∧ c.win.captureSamples = captureSamples)
      (Q := fun o => ∀ n opens samples, o = some (.capture n opens true,samples) → samples.length = captureSamples)
      (fun c op hc _ => ?_) ⟨fun hfed => absurd hfed (Nat.lt_irrefl 0),rfl⟩ (allSteps_true ..) _ hout n opens samples rfl
    obtain ⟨hnext,hclosed⟩ := Capture.perform_counted op hc.1
    exact ⟨⟨hnext,(c.perform_captureSamples op).trans hc.2⟩,hc.2 ▸ hclosed⟩
  · rw [Sink.feed_eq_iterate,Sink.feed_eq_iterate,hsum]

/-- A window of four samples armed to a gap of two at its close, in two cuts of the stream. -/
theorem capture_windows_cut :
    (∀ n opens samples, some (.capture n opens true,samples) ∈ outputs Capture.perform (.start 4 (by decide))
      [.arm (some 1) 0,.step 3 (by decide),.step 3 (by decide),.step 2 (by decide)] →
        ∃ first, samples = List.range' first 4) ∧
    Sink.feed (fun _ => some (some 2,0)) ⟨(CaptureWindow.new 4 (by decide)).arm (some 1) 0,0,[]⟩ [3,3,6] =
      Sink.feed (fun _ => some (some 2,0)) ⟨(CaptureWindow.new 4 (by decide)).arm (some 1) 0,0,[]⟩ [12] :=
  ⟨(capture_windows 4 (by decide)).1 [.arm (some 1) 0,.step 3 (by decide),.step 3 (by decide),.step 2 (by decide)]
      (by simp [AllSteps,Capture.Undisturbed,Capture.perform,Capture.start,CaptureWindow.new,CaptureWindow.arm,CaptureWindow.step]),
    (capture_windows 4 (by decide)).2.2.2 (fun _ => some (some 2,0)) (some 1) 0 [3,3,6] [12] (by decide)⟩

/-- A gap of three armed after four samples of a window of ten: the window has a hole where it waits. -/
theorem capture_window_torn :
    some (.capture 6 false true,[0,1,2,3,7,8,9,10,11,12]) ∈ outputs Capture.perform (.start 10 (by decide))
      [.step 4 (by decide),.arm (some 3) 0,.step 100 (by decide),.step 97 (by decide)] ∧
    ¬∃ first, [0,1,2,3,7,8,9,10,11,12] = List.range' first 10 := by
  refine ⟨by decide,?_⟩
  rintro ⟨first,h⟩
  have hget (i : Nat) (hi : i < 10) : [0,1,2,3,7,8,9,10,11,12][i]? = some (first + 1 * i) := by
    rw [h,List.getElem?_range' hi]
  have hfirst := Option.some.inj (hget 0 (by decide))
  have hfifth := Option.some.inj (hget 4 (by decide))
  omega

end MfskCore.App
