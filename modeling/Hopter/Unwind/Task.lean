import Hopter.Lib.Landing
import Hopter.Uart.Print

/-!
# Tasks that panic

`main.rs` runs a task behind a landing pad of its own. The task knows nothing of it: it
makes `Resource`s, calls, prints and panics, and may start tasks itself. What it does is
not a fixed program here, any function may do any of these at any point, so the runs are
those of all tasks. A panic goes through the panic handler and `start_unwind_entry` to
the unwinder, which is not part of the program; every landing pad it stops at ends in
`_Unwind_Resume`, and the linker puts a counter in front of that.

The handler and what it calls own nothing, so their frames are left out.
-/

namespace Hopter.Unwind

open Conc Landing Uart

structure World where
  /-- What the UART was sent. -/
  out : List UInt8
  /-- `RESUME_WRAP_COUNT` -/
  resumeWrapCount : BitVec 64

/-- `struct Resource(&'static str)` -/
structure Resource where
  name : String

/-- `info.location()` -/
abbrev Location := Option (String × BitVec 32)

inductive Print where
  | uartPrint (s : String)
  | uartHex (v : BitVec 64)
  | uartUsize (v : BitVec 64)

/-- The bytes of one call. Printing a number never panics. -/
def Print.bytes : Print → List UInt8
  | .uartPrint s => Uart.uartPrint s
  | .uartHex v => (Uart.uartHex v).getD []
  | .uartUsize v => (Uart.uartUsize v).getD []

def World.print (w : World) (bytes : List UInt8) : World := { w with out := w.out ++ bytes }

/-- What `Drop for Resource` prints. -/
def Resource.drop (r : Resource) : List UInt8 :=
  uartPrint "  [Drop] " ++ uartPrint r.name ++ uartPrint "  ← unwind 触发 Drop\n"

/-- `__wrap__Unwind_Resume`, up to the real one. -/
def wrapUnwindResume (w : World) : World := { w with resumeWrapCount := w.resumeWrapCount + 1 }

/-- `panic_handler` and `start_unwind_entry`, up to `begin_panic`. -/
def startUnwind (location : Location) : List UInt8 :=
  (panicHandler location).getD []
    ++ uartPrint "[start_unwind_entry] initiating .eh_frame walk...\n"

/-- What `start_unwind_entry` prints when `begin_panic` has returned. -/
def noLandingPad : List UInt8 :=
  uartPrint "[start_unwind_entry] UNREACHABLE: no landing pad found, halting\n"

/-- What `task_run` prints before the task. -/
def taskStarts : List UInt8 :=
  uartPrint "[task_run] OS: registering landing pad and starting task...\n\n"

/-- What it prints behind the task, with the counter it reads. -/
def taskEnds (resumeWrapCount : BitVec 64) : Bool → List UInt8
  | true => uartPrint "\n[task_run] task completed normally\n"
  | false =>
      uartPrint "\n[task_run] OS: unwind landed here! task panicked but recovered.\n"
        ++ uartPrint "[task_run] all resources in task have been dropped.\n"
        ++ uartPrint "[task_run] custom resume_unwind hook count = "
        ++ (uartUsize resumeWrapCount).getD [] ++ uartPrint "\n"

/-- The functions of `main.rs` around the calls and the unwinder. -/
def effects : Effects World Resource Print Location where
  code p w := w.print p.bytes
  drop r w := w.print r.drop
  enter w := w.print taskStarts
  panic location w := w.print (startUnwind location)
  resume := wrapUnwindResume
  result ok w := w.print (taskEnds w.resumeWrapCount ok)
  uncaught w := w.print noLandingPad

/-- The processor in `main` and below it. -/
abbrev Cpu := Machine World Resource

/-- At the beginning of `main`. -/
def Cpu.main : Cpu := Machine.init ⟨[], 0⟩

abbrev Cpu.step (u : Unwinder) : Cpu → Action Resource Print Location → Option Cpu :=
  Machine.step u effects

/-! ## What an unwinding prints and counts -/

variable {u : Unwinder} {s s₁ : Cpu}

theorem step_panic {location : Location} (hs : Cpu.step u s (.panic location) = some s₁) :
    s.control = .running
      ∧ s₁ = { s with world := s.world.print (startUnwind location), control := .raising } := by
  simp only [Cpu.step, Machine.step] at hs
  split at hs <;> cases hs
  exact ⟨‹_›, rfl⟩

/-- An unwinder that does what the protocol says. -/
def itanium : Unwinder where
  raise pads := if .handler ∈ pads then firstPad pads else none
  resume := firstPad

theorem itanium_twoPhase : itanium.TwoPhase :=
  ⟨fun h => if_pos h, fun h => if_neg h, fun _ => rfl⟩

/-- `main` up to the panic: `task_run(level_a)`, with `level_b` and `level_c`. -/
def levelsRun : List (Action Resource Print Location) :=
  [.enter, .own ⟨"A::mutex_guard"⟩, .own ⟨"A::vec_data"⟩,
    .code (.uartPrint "  [level_a] 开始执行，分配资源...\n"), .call, .own ⟨"B::connection"⟩, .call,
    .own ⟨"C::file_handle"⟩, .code (.uartPrint "  [level_c] 触发 panic!\n"),
    .panic (some ("src/main.rs", 271))]

/-- **Nobody catches a panic outside of any task**: nothing is dropped, the hook does not run, and
after its last message the processor stays where it is. -/
theorem uncaught_halts (hu : u.TwoPhase) {location : Location}
    (hs : Cpu.step u s (.panic location) = some s₁) (hframes : .handler ∉ s.frames) :
    ∃ t, Cpu.step u s₁ .step = some t ∧ t.frames = s.frames ∧ t.dropped = s.dropped
      ∧ t.world = ⟨s.world.out ++ startUnwind location ++ noLandingPad, s.world.resumeWrapCount⟩
      ∧ ∀ a, Cpu.step u t a = none := by
  obtain ⟨-, rfl⟩ := step_panic hs
  have hraise : u.raise (s.frames.map Frame.pad) = none :=
    hu.endOfStack (handler_mem_pads.not.mpr hframes)
  refine ⟨{ s with
    world := ⟨s.world.out ++ startUnwind location ++ noLandingPad, s.world.resumeWrapCount⟩
    control := .uncaught }, ?_, rfl, rfl, rfl, fun a => ?_⟩
  · simp only [Cpu.step, Machine.step, hraise]
    rfl
  · cases a <;> rfl

/-! ## All tasks, and all panics -/

/-- **Resources are dropped once.** In every state what was made was dropped or is owned, and no
resource was dropped twice; and a task ends with all it made dropped and its callers as they were,
whatever it does. -/
theorem resources_dropped_once (hu : u.TwoPhase) (hreach : Reachable (Cpu.step u) .main s) :
    ((s.dropped ++ s.live).map Local.id).Perm (List.range s.made)
    ∧ (s.dropped.map Local.id).Nodup
    ∧ ∀ s₁ as t, Cpu.step u s .enter = some s₁ → exec (Cpu.step u) s₁ as = some t →
      Machine.Inside s.frames t
        ∨ ∃ r, Visits (Cpu.step u) s₁ as r ∧ Machine.Settled s r := by
  have hsound := Machine.sound_reachable hu hreach
  refine ⟨hsound.ledger, ?_, fun s₁ as t henter hrun => Machine.enter_ends hu hsound henter hrun⟩
  have hnodup := hsound.ledger.nodup_iff.mpr List.nodup_range
  rw [List.map_append] at hnodup
  exact hnodup.of_append_left

/-- The task of `main`, from its start to the result. -/
theorem resources_dropped_once_levels :
    ∃ s, exec (Cpu.step itanium) .main (levelsRun ++ List.replicate 11 .step) = some s
      ∧ s.dropped.map Local.id = [3, 2, 1, 0] ∧ (s.dropped.map Local.id).Nodup := by
  have hdropped : (exec (Cpu.step itanium) .main (levelsRun ++ List.replicate 11 .step)).map
      (fun s => s.dropped.map Local.id) = some [3, 2, 1, 0] := by rfl
  obtain ⟨s, hrun, hids⟩ := Option.map_eq_some_iff.mp hdropped
  exact ⟨s, hrun, hids, (resources_dropped_once itanium_twoPhase ⟨_, hrun⟩).2.1⟩

end Hopter.Unwind
