import Hopter.Lib.Interleave

/-!
# `SoftLock<T>`

The soft lock of `softlock-std-demo/src/main.rs`, for any content type `T`: two
flags around the content, and an access that is *Full* when its
`compare_exchange` on `locked` succeeds and *PendOnly* otherwise. Every atomic
operation of `AccessGuard::guard` and of `Drop for AccessGuard` is one step
here, and so is every atomic operation of the content's own code.

A closure is not a fixed program: at each of its steps it may make any call its
accessor offers, or end, by returning or by unwinding. The runs of the model
are therefore the runs of all closures at once.
-/

namespace Hopter

open Conc

/--
`trait AllowPendOp`, with `RunPendedOp` of its `FullAccessor`: the content of a soft
lock, as the lock sees it.

`FullAccessor` and `PendOnlyAccessor` are the states of a closure that was given
that accessor, `RunPendedOp` the states of a running `run_pended_op`. A method
that waits takes steps that change nothing, so code that has not ended always
has a next step. The demo's methods never come to wait, and `exec_locking` in
`Hopter.SoftLock.Progress` says that its runs would be the same with a wait that is
no step.
-/
class AllowPendOp (T : Type) where
  FullAccessor : Type
  PendOnlyAccessor : Type
  RunPendedOp : Type
  FullCall : Type
  PendCall : Type
  /-- Where a closure with `Access::Full` starts. -/
  fullAccess : FullAccessor
  /-- Where a closure with `Access::PendOnly` starts. -/
  pendOnlyAccess : PendOnlyAccessor
  /-- Where `run_pended_op` starts. -/
  runPendedOp : RunPendedOp
  /-- One atomic step of a Full closure, or of a method it called. -/
  full : T → FullAccessor → FullCall → Option (T × FullAccessor)
  /-- The closure is in its own code, and may end. -/
  fullReady : FullAccessor → Bool
  /-- One atomic step of a PendOnly closure. -/
  pend : T → PendOnlyAccessor → PendCall → Option (T × PendOnlyAccessor)
  pendReady : PendOnlyAccessor → Bool
  /-- One atomic step of `run_pended_op`; `none` when that step was its last. -/
  run : T → RunPendedOp → T × Option RunPendedOp
  full_live : ∀ d a, fullReady a = false → ∃ k, (full d a k).isSome
  pend_live : ∀ d a, pendReady a = false → ∃ k, (pend d a k).isSome

open AllowPendOp

/-- `struct SoftLock<T>`. -/
structure SoftLock (T : Type) where
  content : T
  pending : Bool
  locked : Bool

/-- `SoftLock::new`. -/
def SoftLock.new {T : Type} (content : T) : SoftLock T :=
  { content := content, pending := false, locked := false }

/-- Where a thread is in `with_access`. -/
inductive Phase (T : Type) [AllowPendOp T] where
  /-- Not inside an access. -/
  | idle
  /-- In the closure, with `Access::Full`. -/
  | full (a : FullAccessor T)
  /-- In the closure, with `Access::PendOnly`. -/
  | pend (a : PendOnlyAccessor T)
  /-- In `drop`, before `pending.swap(false)`. -/
  | dropSwap
  /-- In the `run_pended_op` that `drop` called. -/
  | dropRun (r : RunPendedOp T)
  /-- In `drop`, before `locked.store(false)`. -/
  | dropStore
  /-- In `drop`, before `pending.load()`. -/
  | dropLoad
  /-- In `drop`, before the `compare_exchange` that takes `locked` again. -/
  | dropCas
  /-- In `drop` of a guard without the lock, before `pending.store(true)`; the accessor is
  gone by then, and its last state is kept to speak about what the closure did. -/
  | dropPend (a : PendOnlyAccessor T)

/-- What a thread may do next. -/
inductive Act (T : Type) [AllowPendOp T] where
  /-- Start an access, or the next atomic step of `drop`. -/
  | step
  /-- A step of a Full closure. -/
  | full (k : FullCall T)
  /-- A step of a PendOnly closure. -/
  | pend (k : PendCall T)
  /-- The closure ends; either way the guard is dropped. -/
  | exit (unwinding : Bool)

variable {T : Type} [AllowPendOp T]

/-- `AccessGuard::guard`, and the choice of the accessor in `with_access`. -/
def AccessGuard.guard (s : SoftLock T) : SoftLock T × Phase T :=
  if s.locked then (s, .pend pendOnlyAccess)
  else ({ s with locked := true }, .full fullAccess)

/-- `Drop for AccessGuard`, one atomic step at a time. -/
def AccessGuard.drop (s : SoftLock T) : Phase T → Option (SoftLock T × Phase T)
  | .dropSwap =>
      some ({ s with pending := false },
        if s.pending then .dropRun AllowPendOp.runPendedOp else .dropStore)
  | .dropRun r =>
      let next := AllowPendOp.run s.content r
      some ({ s with content := next.1 },
        match next.2 with
        | some r' => .dropRun r'
        | none => .dropStore)
  | .dropStore => some ({ s with locked := false }, .dropLoad)
  | .dropLoad => some (s, if s.pending then .dropCas else .idle)
  | .dropCas =>
      -- `compare_exchange` failed: `spin_loop`, and try again
      if s.locked then some (s, .dropCas)
      else some ({ s with locked := true }, .dropSwap)
  | .dropPend _ => some ({ s with pending := true }, .idle)
  | _ => none

/-- `SoftLock::with_access`: the guard, the closure, and the guard's `drop`. -/
def SoftLock.withAccess : Proc (SoftLock T) (Phase T) (Act T) := fun s p act =>
  match p, act with
  | .idle, .step => some (AccessGuard.guard s)
  | .full a, .full k =>
      (AllowPendOp.full s.content a k).map fun r => ({ s with content := r.1 }, .full r.2)
  | .full a, .exit _ => if fullReady a then some (s, .dropSwap) else none
  | .pend a, .pend k =>
      (AllowPendOp.pend s.content a k).map fun r => ({ s with content := r.1 }, .pend r.2)
  | .pend a, .exit _ => if pendReady a then some (s, .dropPend a) else none
  | p, .step => AccessGuard.drop s p
  | _, _ => none

/-- One atomic step of one of the threads that share a soft lock. -/
abbrev SoftLock.step {ι : Type} [DecidableEq ι] :
    Config (SoftLock T) ι (Phase T) → ι × Act T → Option (Config (SoftLock T) ι (Phase T)) :=
  Config.step SoftLock.withAccess

/-- A fresh lock that nobody uses yet. -/
def fresh {ι : Type} (content : T) : Config (SoftLock T) ι (Phase T) :=
  { shared := SoftLock.new content, thread := fun _ => .idle }

namespace Phase

/-- Outside of any access. -/
def isIdle : Phase T → Bool
  | .idle => true
  | _ => false

theorem isIdle_iff {p : Phase T} : p.isIdle = true ↔ p = .idle := by
  cases p <;> simp [isIdle]

/-- A guard is in a holding phase from a successful `compare_exchange` to its next
`locked.store(false)`. -/
def Holding : Phase T → Prop
  | .full _ | .dropSwap | .dropRun _ | .dropStore => True
  | _ => False

/-- `AccessGuard::lock_held`, which stays true in the gaps where the guard has let go of
`locked`. -/
def lockHeld : Phase T → Bool
  | .full _ | .dropSwap | .dropRun _ | .dropStore | .dropLoad | .dropCas => true
  | _ => false

/-- A `FullAccessor` is alive: the closure's, or the one `drop` made. -/
def HasFullAccessor : Phase T → Prop
  | .full _ | .dropRun _ => True
  | _ => False

/-- An access by a guard without the lock. -/
def PendOnly : Phase T → Prop
  | .pend _ | .dropPend _ => True
  | _ => False

/-- A guard that let go of `locked` and may take it again. -/
def Gap : Phase T → Prop
  | .dropLoad | .dropCas => True
  | _ => False

theorem HasFullAccessor.holding {p : Phase T} (h : p.HasFullAccessor) : p.Holding := by
  cases p <;> trivial

instance : DecidablePred (Holding (T := T)) := fun p => by
  cases p <;> simp only [Holding] <;> infer_instance

end Phase

/-! ## What one step can do -/

open SoftLock (withAccess)

/-- The steps of `with_access`, as a relation: one constructor for each atomic step. -/
inductive AccessStep : SoftLock T → Phase T → SoftLock T → Phase T → Prop where
  | guardFull {s} : s.locked = false →
      AccessStep s .idle { s with locked := true } (.full fullAccess)
  | guardPend {s} : s.locked = true → AccessStep s .idle s (.pend pendOnlyAccess)
  | full {s a k d a'} : AllowPendOp.full s.content a k = some (d, a') →
      AccessStep s (.full a) { s with content := d } (.full a')
  | fullExit {s a} : fullReady a = true → AccessStep s (.full a) s .dropSwap
  | pend {s a k d a'} : AllowPendOp.pend s.content a k = some (d, a') →
      AccessStep s (.pend a) { s with content := d } (.pend a')
  | pendExit {s a} : pendReady a = true → AccessStep s (.pend a) s (.dropPend a)
  | swapTrue {s} : s.pending = true →
      AccessStep s .dropSwap { s with pending := false } (.dropRun AllowPendOp.runPendedOp)
  | swapFalse {s} : s.pending = false →
      AccessStep s .dropSwap { s with pending := false } .dropStore
  | run {s r d r'} : AllowPendOp.run s.content r = (d, some r') →
      AccessStep s (.dropRun r) { s with content := d } (.dropRun r')
  | runEnd {s r d} : AllowPendOp.run s.content r = (d, none) →
      AccessStep s (.dropRun r) { s with content := d } .dropStore
  | store {s} : AccessStep s .dropStore { s with locked := false } .dropLoad
  | loadTrue {s} : s.pending = true → AccessStep s .dropLoad s .dropCas
  | loadFalse {s} : s.pending = false → AccessStep s .dropLoad s .idle
  | casFail {s} : s.locked = true → AccessStep s .dropCas s .dropCas
  | casOk {s} : s.locked = false → AccessStep s .dropCas { s with locked := true } .dropSwap
  | pendStore {s a} : AccessStep s (.dropPend a) { s with pending := true } .idle

/-- A step of a closure of the content is one with full access. -/
theorem SoftLock.withAccess_full {s s' : SoftLock T} {p p' : Phase T} {k : FullCall T}
    (h : withAccess s p (.full k) = some (s', p')) :
    ∃ a a' d, p = .full a ∧ p' = .full a' ∧ s' = { s with content := d }
      ∧ AllowPendOp.full s.content a k = some (d, a') := by
  cases p <;> simp only [withAccess, reduceCtorEq] at h
  rw [Option.map_eq_some_iff] at h
  obtain ⟨⟨d, a'⟩, hk, h⟩ := h
  cases h
  exact ⟨_, a', d, rfl, rfl, rfl, hk⟩

theorem SoftLock.withAccess_pend {s s' : SoftLock T} {p p' : Phase T} {k : PendCall T}
    (h : withAccess s p (.pend k) = some (s', p')) :
    ∃ a a' d, p = .pend a ∧ p' = .pend a' ∧ s' = { s with content := d }
      ∧ AllowPendOp.pend s.content a k = some (d, a') := by
  cases p <;> simp only [withAccess, reduceCtorEq] at h
  rw [Option.map_eq_some_iff] at h
  obtain ⟨⟨d, a'⟩, hk, h⟩ := h
  cases h
  exact ⟨_, a', d, rfl, rfl, rfl, hk⟩

/-- **Inversion.** Everything a step of `with_access` can be. -/
theorem SoftLock.withAccess_cases {s s' : SoftLock T} {p p' : Phase T} {act : Act T}
    (h : withAccess s p act = some (s', p')) : AccessStep s p s' p' := by
  cases p with
  | idle =>
      cases act <;> simp only [withAccess, Option.some.injEq, reduceCtorEq] at h
      unfold AccessGuard.guard at h
      split at h <;> rename_i hl <;> cases h
      · exact .guardPend hl
      · exact .guardFull (by simpa using hl)
  | full a =>
      cases act with
      | full k =>
          obtain ⟨a, a', d, hp, rfl, rfl, hk⟩ := withAccess_full h
          cases hp
          exact .full hk
      | exit u =>
          simp only [withAccess] at h
          split at h <;> rename_i hr <;> cases h
          exact .fullExit hr
      | step => simp [withAccess, AccessGuard.drop] at h
      | pend k => simp [withAccess] at h
  | pend a =>
      cases act with
      | pend k =>
          obtain ⟨a, a', d, hp, rfl, rfl, hk⟩ := withAccess_pend h
          cases hp
          exact .pend hk
      | exit u =>
          simp only [withAccess] at h
          split at h <;> rename_i hr <;> cases h
          exact .pendExit hr
      | step => simp [withAccess, AccessGuard.drop] at h
      | full k => simp [withAccess] at h
  | dropSwap =>
      cases act <;> simp only [withAccess, AccessGuard.drop, Option.some.injEq, reduceCtorEq] at h
      split at h <;> rename_i hp <;> cases h
      · exact .swapTrue hp
      · exact .swapFalse (by simpa using hp)
  | dropRun r =>
      cases act <;> simp only [withAccess, AccessGuard.drop, Option.some.injEq, reduceCtorEq] at h
      split at h <;> rename_i hr <;> cases h
      · exact .run (Prod.ext rfl hr)
      · exact .runEnd (Prod.ext rfl hr)
  | dropStore =>
      cases act <;> simp only [withAccess, AccessGuard.drop, Option.some.injEq, reduceCtorEq] at h
      cases h
      exact .store
  | dropLoad =>
      cases act <;> simp only [withAccess, AccessGuard.drop, Option.some.injEq, reduceCtorEq] at h
      split at h <;> rename_i hp <;> cases h
      · exact .loadTrue hp
      · exact .loadFalse (by simpa using hp)
  | dropCas =>
      cases act <;> simp only [withAccess, AccessGuard.drop, reduceCtorEq] at h
      split at h <;> rename_i hl <;> cases h
      · exact .casFail hl
      · exact .casOk (by simpa using hl)
  | dropPend a =>
      cases act <;> simp only [withAccess, AccessGuard.drop, Option.some.injEq, reduceCtorEq] at h
      cases h
      exact .pendStore

/-- Every step of the relation is one the code can take. -/
theorem AccessStep.possible {s s' : SoftLock T} {p p' : Phase T} (h : AccessStep s p s' p') :
    ∃ act, withAccess s p act = some (s', p') := by
  cases h with
  | guardFull hl => exact ⟨.step, by simp [withAccess, AccessGuard.guard, hl]⟩
  | guardPend hl => exact ⟨.step, by simp [withAccess, AccessGuard.guard, hl]⟩
  | @full _ k _ _ hk => exact ⟨.full k, by simp [withAccess, hk]⟩
  | fullExit hr => exact ⟨.exit false, by simp [withAccess, hr]⟩
  | @pend _ k _ _ hk => exact ⟨.pend k, by simp [withAccess, hk]⟩
  | pendExit hr => exact ⟨.exit false, by simp [withAccess, hr]⟩
  | swapTrue hp => exact ⟨.step, by simp [withAccess, AccessGuard.drop, hp]⟩
  | swapFalse hp => exact ⟨.step, by simp [withAccess, AccessGuard.drop, hp]⟩
  | run hr => exact ⟨.step, by simp [withAccess, AccessGuard.drop, hr]⟩
  | runEnd hr => exact ⟨.step, by simp [withAccess, AccessGuard.drop, hr]⟩
  | store => exact ⟨.step, rfl⟩
  | loadTrue hp => exact ⟨.step, by simp [withAccess, AccessGuard.drop, hp]⟩
  | loadFalse hp => exact ⟨.step, by simp [withAccess, AccessGuard.drop, hp]⟩
  | casFail hl => exact ⟨.step, by simp [withAccess, AccessGuard.drop, hl]⟩
  | casOk hl => exact ⟨.step, by simp [withAccess, AccessGuard.drop, hl]⟩
  | pendStore => exact ⟨.step, rfl⟩

/-- A thread inside an access can always step. -/
theorem SoftLock.withAccess_live (s : SoftLock T) (p : Phase T) :
    ∃ act, (withAccess s p act).isSome := by
  cases p with
  | full a =>
      cases hr : fullReady a with
      | true => exact ⟨.exit false, by simp [withAccess, hr]⟩
      | false =>
          obtain ⟨k, hk⟩ := full_live s.content a hr
          exact ⟨.full k, by simpa [withAccess] using hk⟩
  | pend a =>
      cases hr : pendReady a with
      | true => exact ⟨.exit false, by simp [withAccess, hr]⟩
      | false =>
          obtain ⟨k, hk⟩ := pend_live s.content a hr
          exact ⟨.pend k, by simpa [withAccess] using hk⟩
  | dropCas => exact ⟨.step, by simp only [withAccess, AccessGuard.drop]; split <;> rfl⟩
  | _ => exact ⟨.step, rfl⟩

end Hopter
