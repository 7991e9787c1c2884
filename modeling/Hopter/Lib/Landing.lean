import Mathlib.Data.List.Infix
import Mathlib.Data.List.Range
import Hopter.Lib.Run

/-!
# Unwinding in two phases

A stack of functions that own things, and a `catch` here and there. A function that
returns gives up what it owns, the last thing first. One that panics does not return:
the unwinder searches the stack for a `catch`, and if there is one it hands control to
the landing pads on the way, each of which gives up what its function owns and resumes.
If there is none, nothing is touched.

The unwinder is a parameter. `Unwinder.TwoPhase` is what its users rely on: control goes
to the first frame that has a landing pad, and never past one.
-/

namespace Landing

open Conc

/-- What the unwind tables say of a frame, at the call it is in. -/
inductive Pad where
  | none
  | cleanup
  | handler
  deriving DecidableEq

/-- An unwinder, by the frame it hands control to: how many frames it has passed. -/
structure Unwinder where
  /-- Of an exception that is thrown; `none` when there is nobody to hand it to. -/
  raise : List Pad → Option ℕ
  /-- Of an exception that goes on behind a landing pad. -/
  resume : List Pad → Option ℕ

def firstPad (pads : List Pad) : Option ℕ := pads.findIdx? (· != .none)

/-- **The protocol**: a search that changes nothing, and then from one landing pad to the next. -/
structure Unwinder.TwoPhase (u : Unwinder) : Prop where
  raise : ∀ {pads}, .handler ∈ pads → u.raise pads = firstPad pads
  endOfStack : ∀ {pads}, .handler ∉ pads → u.raise pads = none
  resume : ∀ {pads}, .handler ∈ pads → u.resume pads = firstPad pads

/-- Something a function owns. -/
structure Local (R : Type) where
  /-- The how manieth thing that was made it is. -/
  id : ℕ
  val : R
  deriving DecidableEq

inductive Frame (R : Type) where
  /-- A function, with what it owns, the last thing first. -/
  | function (owned : List (Local R))
  | handler
  deriving DecidableEq

namespace Frame

variable {R : Type}

def locals : Frame R → List (Local R)
  | .function owned => owned
  | .handler => []

/-- A function has a landing pad while it owns something. -/
def pad : Frame R → Pad
  | .function [] => .none
  | .function (_ :: _) => .cleanup
  | .handler => .handler

theorem pad_eq_handler {f : Frame R} : f.pad = .handler ↔ f = .handler := by
  rcases f with ⟨_ | _⟩ | _ <;> simp [pad]

end Frame

theorem handler_mem_pads {R : Type} {fs : List (Frame R)} :
    .handler ∈ fs.map Frame.pad ↔ .handler ∈ fs := by
  simp only [List.mem_map, Frame.pad_eq_handler, exists_eq_right]

inductive Control where
  /-- The innermost function is at work. -/
  | running
  /-- It returns. -/
  | leaving
  /-- An exception is about to be thrown. -/
  | raising
  /-- In the landing pad of the innermost function. -/
  | cleanup
  /-- Behind it, and its function is gone. -/
  | resuming
  /-- The innermost `catch` is over, and has caught nothing or something. -/
  | result (ok : Bool)
  /-- An exception was thrown, and nobody catches it. -/
  | uncaught
  deriving DecidableEq

structure Machine (σ R : Type) where
  world : σ
  /-- The innermost one first. -/
  frames : List (Frame R)
  control : Control
  /-- How many things were made. -/
  made : ℕ
  /-- What was given up, in this order. -/
  dropped : List (Local R)

/-- What a program does to its world, besides calling and owning. -/
structure Effects (σ R α π : Type) where
  code : α → σ → σ
  /-- Of giving a thing up. -/
  drop : R → σ → σ
  enter : σ → σ
  /-- From the panic to the exception. -/
  panic : π → σ → σ
  /-- Between a landing pad and the unwinder. -/
  resume : σ → σ
  result : Bool → σ → σ
  uncaught : σ → σ

inductive Action (R α π : Type) where
  | code (a : α)
  | own (r : R)
  /-- The innermost function gives up thing number `k`, and works on. -/
  | release (k : ℕ)
  | call
  /-- A call inside a `catch`. -/
  | enter
  | ret
  | panic (p : π)
  /-- What happens next of itself. -/
  | step
  deriving DecidableEq

variable {σ R α π : Type}

namespace Machine

/-- A program about to start, in a function that nobody has called. -/
def init (world : σ) : Machine σ R := ⟨world, [.function []], .running, 0, []⟩

/-- What is owned, the last thing first. -/
def live (m : Machine σ R) : List (Local R) := m.frames.flatMap Frame.locals

/-- Something is given up, and `frames` is left. -/
def give (eff : Effects σ R α π) (m : Machine σ R) (l : Local R) (frames : List (Frame R)) :
    Machine σ R :=
  { m with world := eff.drop l.val m.world, frames := frames, dropped := m.dropped ++ [l] }

/-- Control arrives at a landing pad, `k` frames up. -/
def land (m : Machine σ R) (k : ℕ) : Option (Machine σ R) :=
  match m.frames.drop k with
  | .handler :: fs => some { m with frames := fs, control := .result false }
  | .function owned :: fs =>
      some { m with frames := .function owned :: fs, control := .cleanup }
  | [] => none

def step (u : Unwinder) (eff : Effects σ R α π) (m : Machine σ R) :
    Action R α π → Option (Machine σ R)
  | .code a =>
      match m.control with
      | .running => some { m with world := eff.code a m.world }
      | _ => none
  | .own r =>
      match m.control, m.frames with
      | .running, .function owned :: fs =>
          some { m with frames := .function (⟨m.made, r⟩ :: owned) :: fs, made := m.made + 1 }
      | _, _ => none
  | .release k =>
      match m.control, m.frames with
      | .running, .function owned :: fs =>
          owned[k]?.map fun l => m.give eff l (.function (owned.eraseIdx k) :: fs)
      | _, _ => none
  | .call =>
      match m.control with
      | .running => some { m with frames := .function [] :: m.frames }
      | _ => none
  | .enter =>
      match m.control with
      | .running =>
          some { m with world := eff.enter m.world, frames := .function [] :: .handler :: m.frames }
      | _ => none
  | .ret =>
      -- the first function has nobody to return to
      match m.control, m.frames with
      | .running, _ :: _ :: _ => some { m with control := .leaving }
      | _, _ => none
  | .panic p =>
      match m.control with
      | .running => some { m with world := eff.panic p m.world, control := .raising }
      | _ => none
  | .step =>
      match m.control, m.frames with
      | .leaving, .function (l :: owned) :: fs => some (m.give eff l (.function owned :: fs))
      | .leaving, .function [] :: .handler :: fs =>
          some { m with frames := fs, control := .result true }
      | .leaving, .function [] :: fs => some { m with frames := fs, control := .running }
      | .raising, fs =>
          match u.raise (fs.map Frame.pad) with
          | some k => m.land k
          | none => some { m with world := eff.uncaught m.world, control := .uncaught }
      | .cleanup, .function (l :: owned) :: fs => some (m.give eff l (.function owned :: fs))
      | .cleanup, .function [] :: fs =>
          some { m with world := eff.resume m.world, frames := fs, control := .resuming }
      | .resuming, fs => (u.resume (fs.map Frame.pad)).bind m.land
      | .result ok, _ => some { m with world := eff.result ok m.world, control := .running }
      | _, _ => none

end Machine

/-! ## What a step can be -/

section

variable {fs : List (Frame R)} {k : ℕ}

theorem firstPad_skip : firstPad ((.function [] :: fs).map Frame.pad)
    = (firstPad (fs.map Frame.pad)).map (· + 1) := by
  unfold firstPad
  rw [List.map_cons, List.findIdx?_cons]
  rfl

/-- Behind functions that own nothing there is a landing pad, if somebody catches. -/
theorem firstPad_spec (h : .handler ∈ fs) :
    ∃ pre f post, fs = pre ++ f :: post ∧ firstPad (fs.map Frame.pad) = some pre.length
      ∧ (∀ g ∈ pre, g = .function []) ∧ f.pad ≠ .none := by
  induction fs with
  | nil => exact absurd h List.not_mem_nil
  | cons f fs ih =>
      by_cases hf : f.pad = .none
      · obtain rfl : f = .function [] := by
          rcases f with ⟨_ | _⟩ | _ <;> simp [Frame.pad] at hf ⊢
        have hmem : .handler ∈ fs := by simpa using h
        obtain ⟨pre, g, post, rfl, hfirst, hpre, hg⟩ := ih hmem
        refine ⟨.function [] :: pre, g, post, rfl, ?_, ?_, hg⟩
        · rw [firstPad_skip, hfirst]
          rfl
        · exact List.forall_mem_cons.mpr ⟨rfl, hpre⟩
      · refine ⟨[], f, fs, rfl, ?_, fun g hg => absurd hg List.not_mem_nil, hf⟩
        unfold firstPad
        rw [List.map_cons, List.findIdx?_cons, if_pos (by simpa using hf)]
        rfl

end

namespace Machine

variable {u : Unwinder} {eff : Effects σ R α π} {m m' : Machine σ R}

/-- An exception is on its way. -/
def Thrown (m : Machine σ R) : Prop := m.control = .raising ∨ m.control = .resuming

/-- A function gives up what it owns. -/
def Closing (m : Machine σ R) : Prop := m.control = .leaving ∨ m.control = .cleanup

/-- The steps of a program under an unwinder that keeps the protocol. -/
inductive Move (eff : Effects σ R α π) (m : Machine σ R) : Action R α π → Machine σ R → Prop where
  | code {a} : m.control = .running → Move eff m (.code a) { m with world := eff.code a m.world }
  | own {r owned fs} : m.control = .running → m.frames = .function owned :: fs →
      Move eff m (.own r)
        { m with frames := .function (⟨m.made, r⟩ :: owned) :: fs, made := m.made + 1 }
  | release {k l owned fs} : m.control = .running → m.frames = .function owned :: fs →
      owned[k]? = some l →
      Move eff m (.release k) (m.give eff l (.function (owned.eraseIdx k) :: fs))
  | call : m.control = .running → Move eff m .call { m with frames := .function [] :: m.frames }
  | enter : m.control = .running →
      Move eff m .enter
        { m with world := eff.enter m.world, frames := .function [] :: .handler :: m.frames }
  | ret : m.control = .running → Move eff m .ret { m with control := .leaving }
  | panic {p} : m.control = .running →
      Move eff m (.panic p) { m with world := eff.panic p m.world, control := .raising }
  | drop {l owned fs} : m.Closing → m.frames = .function (l :: owned) :: fs →
      Move eff m .step (m.give eff l (.function owned :: fs))
  | caughtNothing {fs} : m.control = .leaving → m.frames = .function [] :: .handler :: fs →
      Move eff m .step { m with frames := fs, control := .result true }
  | returned {fs} : m.control = .leaving → m.frames = .function [] :: fs →
      Move eff m .step { m with frames := fs, control := .running }
  | resume {fs} : m.control = .cleanup → m.frames = .function [] :: fs →
      Move eff m .step { m with world := eff.resume m.world, frames := fs, control := .resuming }
  | toCleanup {pre l owned post} : m.Thrown →
      m.frames = pre ++ .function (l :: owned) :: post → (∀ g ∈ pre, g = .function []) →
      .handler ∈ post →
      Move eff m .step { m with frames := .function (l :: owned) :: post, control := .cleanup }
  | toHandler {pre post} : m.Thrown → m.frames = pre ++ .handler :: post →
      (∀ g ∈ pre, g = .function []) →
      Move eff m .step { m with frames := post, control := .result false }
  | uncaught : m.control = .raising → .handler ∉ m.frames →
      Move eff m .step { m with world := eff.uncaught m.world, control := .uncaught }
  | result {ok} : m.control = .result ok →
      Move eff m .step { m with world := eff.result ok m.world, control := .running }

/-- Where an exception goes that somebody catches. -/
theorem land_cases (eff : Effects σ R α π) (hmem : .handler ∈ m.frames) :
    ∃ k m', firstPad (m.frames.map Frame.pad) = some k ∧ m.land k = some m'
      ∧ (m.Thrown → Move eff m .step m') := by
  obtain ⟨pre, f, post, hfs, hfirst, hpre, hf⟩ := firstPad_spec hmem
  have hdrop : m.frames.drop pre.length = f :: post := by rw [hfs, List.drop_left]
  rcases f with ⟨_ | ⟨l, owned⟩⟩ | _
  · exact absurd rfl hf
  · have hpost : .handler ∈ post := by
      rw [hfs] at hmem
      rcases List.mem_append.mp hmem with hin | hin
      · cases hpre _ hin
      · simpa using hin
    refine ⟨_, _, hfirst, ?_, fun hthrown => .toCleanup hthrown hfs hpre hpost⟩
    unfold land
    rw [hdrop]
  · refine ⟨_, _, hfirst, ?_, fun hthrown => .toHandler hthrown hfs hpre⟩
    unfold land
    rw [hdrop]

/-- **Inversion.** -/
theorem step_cases {a : Action R α π} (hu : u.TwoPhase)
    (hcaught : m.control = .resuming → .handler ∈ m.frames) (h : step u eff m a = some m') :
    Move eff m a m' := by
  cases a with
  | code a =>
      simp only [step] at h
      split at h <;> cases h
      exact .code ‹_›
  | own r =>
      simp only [step] at h
      split at h <;> cases h
      exact .own ‹_› ‹_›
  | release k =>
      simp only [step] at h
      split at h
      · obtain ⟨l, hl, rfl⟩ := Option.map_eq_some_iff.mp h
        exact .release ‹_› ‹_› hl
      · cases h
  | call =>
      simp only [step] at h
      split at h <;> cases h
      exact .call ‹_›
  | enter =>
      simp only [step] at h
      split at h <;> cases h
      exact .enter ‹_›
  | ret =>
      simp only [step] at h
      split at h <;> cases h
      exact .ret ‹_›
  | panic p =>
      simp only [step] at h
      split at h <;> cases h
      exact .panic ‹_›
  | step =>
      simp only [step] at h
      split at h
      · cases h
        exact .drop (Or.inl ‹_›) ‹_›
      · cases h
        exact .caughtNothing ‹_› ‹_›
      · cases h
        exact .returned ‹_› ‹_›
      · rename_i hctl
        by_cases hmem : .handler ∈ m.frames
        · obtain ⟨k, t, hfirst, hland, hmove⟩ := land_cases eff hmem
          rw [hu.raise (handler_mem_pads.mpr hmem), hfirst] at h
          simp only [hland, Option.some.injEq] at h
          exact h ▸ hmove (Or.inl hctl)
        · rw [hu.endOfStack (handler_mem_pads.not.mpr hmem)] at h
          cases h
          exact .uncaught hctl hmem
      · cases h
        exact .drop (Or.inr ‹_›) ‹_›
      · cases h
        exact .resume ‹_› ‹_›
      · rename_i hctl
        have hmem := hcaught hctl
        obtain ⟨k, t, hfirst, hland, hmove⟩ := land_cases eff hmem
        rw [hu.resume (handler_mem_pads.mpr hmem), hfirst, Option.bind_some, hland,
          Option.some.injEq] at h
        exact h ▸ hmove (Or.inr hctl)
      · cases h
        exact .result ‹_›
      · cases h

/-! ## Nothing is lost, and nothing is given up twice -/

/-- What was made was given up or is owned, and is owned in the order it was made in. -/
structure Sound (m : Machine σ R) : Prop where
  caught : m.control = .cleanup ∨ m.control = .resuming → .handler ∈ m.frames
  order : (m.live.map Local.id).Pairwise (· > ·)
  ledger : ((m.dropped ++ m.live).map Local.id).Perm (List.range m.made)

theorem Sound.fresh (h : m.Sound) : ∀ l ∈ m.live, l.id < m.made := by
  intro l hl
  have hmem : l.id ∈ (m.dropped ++ m.live).map Local.id :=
    List.mem_map_of_mem (List.mem_append_right _ hl)
  exact List.mem_range.mp (h.ledger.mem_iff.mp hmem)

theorem sound_init (world : σ) : (init world : Machine σ R).Sound where
  caught := by rintro (h | h) <;> cases h
  order := List.Pairwise.nil
  ledger := .refl _

/-- Frames that own nothing go, or come. -/
theorem Sound.same (h : m.Sound) (hlive : m'.live = m.live) (hmade : m'.made = m.made)
    (hdropped : m'.dropped = m.dropped)
    (hcaught : m'.control = .cleanup ∨ m'.control = .resuming → .handler ∈ m'.frames) :
    m'.Sound :=
  ⟨hcaught, by rw [hlive]; exact h.order, by rw [hlive, hmade, hdropped]; exact h.ledger⟩

/-- One thing is given up. -/
theorem Sound.give (h : m.Sound) {l : Local R} {frames : List (Frame R)} {a b : List (Local R)}
    (hlive : m.live = a ++ l :: b) (hframes : frames.flatMap Frame.locals = a ++ b)
    (hmem : .handler ∈ m.frames → .handler ∈ frames) : (m.give eff l frames).Sound := by
  have hlive' : (m.give eff l frames).live = a ++ b := hframes
  refine ⟨fun hctl => hmem (h.caught hctl), ?_, ?_⟩
  · have horder := h.order
    rw [hlive] at horder
    rw [hlive']
    exact horder.sublist (((List.sublist_cons_self l b).append_left a).map _)
  · refine .trans (.map _ ?_) h.ledger
    show (m.dropped ++ [l] ++ (m.give eff l frames).live).Perm (m.dropped ++ m.live)
    rw [hlive, hlive', List.append_assoc, List.singleton_append]
    exact List.perm_middle.symm.append_left _

theorem flatMap_locals_nil {pre : List (Frame R)} (hpre : ∀ g ∈ pre, g = .function []) :
    pre.flatMap Frame.locals = [] := by
  rw [List.flatMap_eq_nil_iff]
  intro g hg
  rw [hpre g hg]
  rfl

/-- **One step.** -/
theorem sound_step {a : Action R α π} (hu : u.TwoPhase) (h : m.Sound)
    (hs : step u eff m a = some m') : m'.Sound := by
  cases step_cases hu (fun hctl => h.caught (Or.inr hctl)) hs with
  | code _ => exact h.same rfl rfl rfl h.caught
  | @own r owned fs hctl hfs =>
      have hlive : m.live = owned ++ fs.flatMap Frame.locals := by
        unfold live
        rw [hfs, List.flatMap_cons]
        rfl
      refine ⟨fun hc => by simp [hctl] at hc, ?_, ?_⟩
      · show ((⟨m.made, r⟩ :: owned ++ fs.flatMap Frame.locals).map Local.id).Pairwise _
        rw [List.cons_append, ← hlive, List.map_cons, List.pairwise_cons]
        refine ⟨fun i hi => ?_, h.order⟩
        obtain ⟨l, hl, rfl⟩ := List.mem_map.mp hi
        exact h.fresh l hl
      · show ((m.dropped ++ (⟨m.made, r⟩ :: owned ++ fs.flatMap Frame.locals)).map Local.id).Perm _
        rw [List.cons_append, ← hlive, List.range_succ]
        refine (List.perm_middle.map _).trans ?_
        rw [List.map_cons]
        exact (h.ledger.cons m.made).trans (List.perm_append_singleton _ _).symm
  | @release k l owned fs hctl hfs hl =>
      obtain ⟨hlt, hget⟩ := List.getElem?_eq_some_iff.mp hl
      have hsplit : owned = owned.take k ++ l :: owned.drop (k + 1) := by
        rw [← hget, ← List.drop_eq_getElem_cons hlt, List.take_append_drop]
      refine h.give (a := owned.take k) (b := owned.drop (k + 1) ++ fs.flatMap Frame.locals)
        ?_ ?_ ?_
      · unfold live
        rw [hfs, List.flatMap_cons, ← List.cons_append, ← List.append_assoc, ← hsplit]
        rfl
      · rw [List.flatMap_cons, ← List.append_assoc, ← List.eraseIdx_eq_take_drop_succ]
        rfl
      · rw [hfs]
        simp
  | call _ => exact h.same rfl rfl rfl fun hc => List.mem_cons_of_mem _ (h.caught hc)
  | enter _ => exact h.same rfl rfl rfl fun _ => by simp
  | ret _ | panic _ | result _ | uncaught _ _ =>
      exact h.same rfl rfl rfl fun hc => by simp at hc
  | @drop l owned fs hclose hfs =>
      refine h.give (a := []) (b := owned ++ fs.flatMap Frame.locals) ?_ rfl ?_
      · unfold live
        rw [hfs, List.flatMap_cons]
        rfl
      · rw [hfs]
        simp
  | caughtNothing hctl hfs | returned hctl hfs =>
      refine h.same ?_ rfl rfl fun hc => by simp at hc
      unfold live
      rw [hfs]
      rfl
  | @resume fs hctl hfs =>
      refine h.same ?_ rfl rfl fun _ => ?_
      · unfold live
        rw [hfs]
        rfl
      · have hmem := h.caught (Or.inl hctl)
        rw [hfs] at hmem
        simpa using hmem
  | toCleanup hthrown hfs hpre hpost =>
      refine h.same ?_ rfl rfl fun _ => List.mem_cons_of_mem _ hpost
      unfold live
      rw [hfs, List.flatMap_append, flatMap_locals_nil hpre, List.nil_append]
  | toHandler hthrown hfs hpre =>
      refine h.same ?_ rfl rfl fun hc => by simp at hc
      unfold live
      rw [hfs, List.flatMap_append, flatMap_locals_nil hpre, List.nil_append, List.flatMap_cons]
      rfl

theorem sound_reachable (hu : u.TwoPhase) {world : σ}
    (h : Reachable (step u eff) (init world) m) : m.Sound :=
  h.invariant (sound_init world) fun _ hsound hs => sound_step hu hsound hs

/-! ## An exception that is caught -/

/-- What the landing pad of a frame does to the world, if it has one. -/
def pass (eff : Effects σ R α π) (w : σ) (f : Frame R) : σ :=
  match f.locals with
  | [] => w
  | l :: owned => eff.resume ((l :: owned).foldl (fun w l => eff.drop l.val w) w)

/-- The machine gets there of itself. -/
def Goes (u : Unwinder) (eff : Effects σ R α π) (m t : Machine σ R) : Prop :=
  ∃ n, exec (step u eff) m (List.replicate n .step) = some t

theorem Goes.refl (m : Machine σ R) : Goes u eff m m := ⟨0, rfl⟩

theorem Goes.head {t : Machine σ R} (hs : step u eff m .step = some m') (h : Goes u eff m' t) :
    Goes u eff m t := by
  obtain ⟨n, hn⟩ := h
  exact ⟨n + 1, by rw [List.replicate_succ, exec_cons, hs, Option.bind_some, hn]⟩

/-- The `catch` that was entered with `outer` on the stack is not over. -/
def Inside (outer : List (Frame R)) (m : Machine σ R) : Prop :=
  (.handler :: outer) <:+ m.frames

/-- **A step stays inside a `catch`, or ends it** with the frames as they were. -/
theorem inside_step {a : Action R α π} {outer : List (Frame R)} (hu : u.TwoPhase)
    (hcaught : m.control = .resuming → .handler ∈ m.frames) (h : m.Inside outer)
    (hs : step u eff m a = some m') :
    m'.Inside outer ∨ ∃ ok, m'.control = .result ok ∧ m'.frames = outer := by
  have htail : ∀ {f : Frame R} {fs : List (Frame R)}, (.handler :: outer) <:+ f :: fs →
      f ≠ .handler → (.handler :: outer) <:+ fs := by
    intro f fs hsuf hf
    rcases List.suffix_cons_iff.mp hsuf with heq | hin
    · cases heq
      exact absurd rfl hf
    · exact hin
  have hpast : ∀ {pre fs : List (Frame R)}, (.handler :: outer) <:+ pre ++ fs →
      (∀ g ∈ pre, g = .function []) → (.handler :: outer) <:+ fs := by
    intro pre fs hsuf hpre
    induction pre with
    | nil => exact hsuf
    | cons g pre ih =>
        obtain ⟨hg, hrest⟩ := List.forall_mem_cons.mp hpre
        exact ih (htail hsuf (by rw [hg]; nofun)) hrest
  unfold Inside at h ⊢
  cases step_cases hu hcaught hs with
  | code _ | ret _ | panic _ | result _ | uncaught _ _ => exact Or.inl h
  | own _ hfs | release _ hfs _ | drop _ hfs =>
      rw [hfs] at h
      exact Or.inl ((htail h nofun).trans (List.suffix_cons _ _))
  | call _ => exact Or.inl (h.trans (List.suffix_cons _ _))
  | enter _ => exact Or.inl (h.trans ((List.suffix_cons _ _).trans (List.suffix_cons _ _)))
  | caughtNothing _ hfs =>
      rw [hfs] at h
      rcases List.suffix_cons_iff.mp (htail h nofun) with heq | hin
      · cases heq
        exact Or.inr ⟨true, rfl, rfl⟩
      · exact Or.inl hin
  | returned _ hfs | resume _ hfs =>
      rw [hfs] at h
      exact Or.inl (htail h nofun)
  | toCleanup _ hfs hpre _ =>
      rw [hfs] at h
      exact Or.inl (hpast h hpre)
  | toHandler _ hfs hpre =>
      rw [hfs] at h
      rcases List.suffix_cons_iff.mp (hpast h hpre) with heq | hin
      · cases heq
        exact Or.inr ⟨false, rfl, rfl⟩
      · exact Or.inl hin

/-- What was given up stays given up. -/
theorem dropped_step {a : Action R α π} (hu : u.TwoPhase)
    (hcaught : m.control = .resuming → .handler ∈ m.frames) (hs : step u eff m a = some m') :
    m.dropped <+: m'.dropped := by
  cases step_cases hu hcaught hs with
  | release _ _ _ | drop _ _ => exact List.prefix_append _ _
  | _ => exact List.prefix_refl _

/-- With the frames as they were, what was given up is what was made. -/
theorem given_up_of_frames (h : m.Sound) (h' : m'.Sound) (hframes : m'.frames = m.frames)
    {ds : List (Local R)} (hds : m'.dropped = m.dropped ++ ds) :
    (ds.map Local.id).Perm (List.range' m.made (m'.made - m.made)) := by
  have hlive : m'.live = m.live := by unfold live; rw [hframes]
  have hperm : (ds.map Local.id ++ List.range m.made).Perm (List.range m'.made) := by
    have hledger := h'.ledger
    rw [hlive, hds, List.append_assoc, List.map_append, List.map_append] at hledger
    refine .trans ?_ hledger
    refine .trans (.append_left _ h.ledger.symm) ?_
    rw [List.map_append, ← List.append_assoc, ← List.append_assoc]
    exact List.perm_append_comm.append_right _
  have hlen := hperm.length_eq
  rw [List.length_append, List.length_range, List.length_range] at hlen
  have hsplit :
      List.range m'.made = List.range m.made ++ List.range' m.made (m'.made - m.made) := by
    have happend : List.range' 0 m.made ++ List.range' (0 + m.made) (m'.made - m.made)
        = List.range' 0 (m.made + (m'.made - m.made)) := List.range'_append_1
    rw [Nat.zero_add, Nat.add_sub_cancel' (by omega)] at happend
    rw [List.range_eq_range', List.range_eq_range', happend]
  rw [hsplit] at hperm
  exact (List.perm_append_right_iff _).mp (hperm.trans List.perm_append_comm)

/-- In `r` the `catch` that was entered in `s` is over: the frames are as they were, and what was
made in between has been given up. -/
structure Settled (s r : Machine σ R) : Prop where
  result : ∃ ok, r.control = .result ok
  frames : r.frames = s.frames
  dropped : ∃ ds, r.dropped = s.dropped ++ ds
    ∧ (ds.map Local.id).Perm (List.range' s.made (r.made - s.made))

/-- **The only way out of a `catch` is its result.** -/
theorem enter_ends (hu : u.TwoPhase) {s s₁ t : Machine σ R} {as : List (Action R α π)}
    (hs : s.Sound) (henter : step u eff s .enter = some s₁)
    (hrun : exec (step u eff) s₁ as = some t) :
    t.Inside s.frames ∨ ∃ r, Visits (step u eff) s₁ as r ∧ Settled s r := by
  have hcaught : ∀ {m : Machine σ R}, m.Sound → m.control = .resuming → .handler ∈ m.frames :=
    fun h hctl => h.caught (Or.inr hctl)
  have hhistory : t.Sound ∧ s.dropped <+: t.dropped
      ∧ (t.Inside s.frames ∨ ∃ r, Visits (step u eff) s₁ as r ∧ Settled s r) := by
    refine exec_history (I := fun as t => t.Sound ∧ s.dropped <+: t.dropped
      ∧ (t.Inside s.frames ∨ ∃ r, Visits (step u eff) s₁ as r ∧ Settled s r)) ?_ ?_ hrun
    · refine ⟨sound_step hu hs henter, dropped_step hu (hcaught hs) henter, Or.inl ?_⟩
      cases step_cases hu (hcaught hs) henter with
      | enter _ => exact List.suffix_cons _ _
    · rintro as t t' a hexec ⟨hsound, hdropped, hin⟩ hstep
      have hsound' := sound_step hu hsound hstep
      have hdropped' := hdropped.trans (dropped_step hu (hcaught hsound) hstep)
      refine ⟨hsound', hdropped', ?_⟩
      rcases hin with hin | ⟨r, ⟨pre, hpre, hr⟩, hsettled⟩
      · rcases inside_step hu (hcaught hsound) hin hstep with hin' | ⟨ok, hctl, hframes⟩
        · exact Or.inl hin'
        · obtain ⟨ds, hds⟩ := hdropped'
          exact Or.inr ⟨t', visits_last (exec_concat.mpr ⟨t, hexec, hstep⟩), ⟨ok, hctl⟩, hframes,
            ds, hds.symm, given_up_of_frames hs hsound' hframes hds.symm⟩
      · exact Or.inr ⟨r, ⟨pre, hpre.trans (List.prefix_append _ _), hr⟩, hsettled⟩
  exact hhistory.2.2

end Machine

end Landing
