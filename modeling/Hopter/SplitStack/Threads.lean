import Hopter.SplitStack.Limit
import Hopter.SplitStack.Program

/-!
# The threads of a process

What the runtime and the pass are for together. A process creates threads, each on
a stack of its own, the trampoline of a thread sets its bound, and from then on the
thread runs functions that the pass has seen, against that bound. All threads work
on one memory, in any order.

The limit comes from the process and the stack from the thread's attributes. If the
limit that a trampoline loads fits into the stack, no thread leaves its stack, nor
comes near the guard margin at the end of it.
-/

namespace Hopter.SplitStack

open Conc

variable {V M : Type}

namespace CallStack

variable (t : CallStack V M)

/-- Other threads have left the memory like this. -/
def withMem (mem : M) : CallStack V M :=
  { t with top := { t.top with config := { t.top.config with st := { t.top.config.st with
      world := { t.top.config.st.world with mem := mem } } } } }

@[simp] theorem withMem_callers (mem : M) : (t.withMem mem).callers = t.callers := rfl

@[simp] theorem withMem_sp (mem : M) : (t.withMem mem).top.sp = t.top.sp := rfl

@[simp] theorem withMem_base (mem : M) : (t.withMem mem).top.base = t.top.base := rfl

end CallStack

structure System (V M : Type) where
  process : Process
  mem : M
  /-- What thread `i` has called, from its start routine on. -/
  calls : ℕ → Option (CallStack V M)

inductive SystemAction (V : Type) where
  /-- The constructor, `pthread_create`, or a trampoline. -/
  | runtime (a : RuntimeAction)
  /-- A thread in its start routine. -/
  | move (i : ℕ) (m : Move V)

namespace System

variable (env : Environment) (x : Executable V M) (pointer : ℕ → V)

def init (mem : M) : System V M := ⟨.init, mem, fun _ => none⟩

/-- `fn(arg)`, with the SP of the trampoline. -/
def start (mem : M) (th : Thread) : Option (CallStack V M) :=
  th.routine.map fun r =>
    (x.withBound th.bound).launch x.code r.1 (x.other r.1 [pointer r.2] mem) ⟨th.top, mem⟩

def step (s : System V M) : SystemAction V → Option (System V M)
  | .runtime a =>
      (s.process.step env a).map fun p =>
        match a with
        | .call i =>
            { s with
              process := p
              calls := Function.update s.calls i (p.threads[i]?.bind (start x pointer s.mem)) }
        | _ => { s with process := p }
  | .move i m => do
      let th ← s.process.threads[i]?
      let t ← s.calls i
      let t' ← (x.withBound th.bound).step (t.withMem s.mem) m
      some { s with mem := t'.top.mem, calls := Function.update s.calls i (some t') }

end System

/-! ## What is assumed -/

namespace System

variable (x : Executable V M) (s : System V M)

/-- The limit that a trampoline loads suits its thread, and no stack is that close to the start of
memory. -/
def Assumed : SystemAction V → Prop
  | .runtime a => s.process.LimitSuits x.frame a
  | .move i m =>
      ∀ th ∈ s.process.threads[i]?, ∀ t ∈ s.calls i,
        (t.withMem s.mem).Assumed (x.withBound th.bound) m

/-- A thread leaves SP in the frame of the function that it runs then. -/
def InFrame : SystemAction V → Prop
  | .runtime _ => True
  | .move i m =>
      ∀ th ∈ s.process.threads[i]?, ∀ t ∈ s.calls i,
        (t.withMem s.mem).InFrame (x.withBound th.bound) m

instance : DecidablePred (s.Assumed x)
  | .runtime a => inferInstanceAs (Decidable (s.process.LimitSuits x.frame a))
  | .move i m => inferInstanceAs (Decidable (∀ th ∈ s.process.threads[i]?, ∀ t ∈ s.calls i,
      (t.withMem s.mem).Assumed (x.withBound th.bound) m))

instance : DecidablePred (s.InFrame x)
  | .runtime _ => .isTrue trivial
  | .move i m => inferInstanceAs (Decidable (∀ th ∈ s.process.threads[i]?, ∀ t ∈ s.calls i,
      (t.withMem s.mem).InFrame (x.withBound th.bound) m))

end System

variable {env : Environment} {x : Executable V M} {pointer : ℕ → V} {s s' : System V M}
  {act : SystemAction V}

/-- **Inversion.** -/
theorem System.step_cases (h : s.step env x pointer act = some s') :
    (∃ a p, act = .runtime a ∧ s.process.step env a = some p ∧ (∀ i, a ≠ .call i)
      ∧ s' = { s with process := p })
    ∨ (∃ i p, act = .runtime (.call i) ∧ s.process.step env (.call i) = some p
      ∧ s' = { s with
        process := p
        calls := Function.update s.calls i (p.threads[i]?.bind (start x pointer s.mem)) })
    ∨ ∃ i m th t t', act = .move i m ∧ s.process.threads[i]? = some th ∧ s.calls i = some t
      ∧ (x.withBound th.bound).step (t.withMem s.mem) m = some t'
      ∧ s' = { s with mem := t'.top.mem, calls := Function.update s.calls i (some t') } := by
  cases act with
  | runtime a =>
      obtain ⟨p, hp, heq⟩ := Option.map_eq_some_iff.mp h
      by_cases ha : ∃ i, a = .call i
      · obtain ⟨i, rfl⟩ := ha
        exact Or.inr (Or.inl ⟨i, p, rfl, hp, heq.symm⟩)
      · refine Or.inl ⟨a, p, rfl, hp, fun i hi => ha ⟨i, hi⟩, ?_⟩
        rw [← heq]
        split
        · rename_i i
          exact absurd ⟨i, rfl⟩ ha
        · rfl
  | move i m =>
      simp only [System.step, Option.bind_eq_bind, Option.bind_eq_some_iff, Option.some.injEq] at h
      obtain ⟨th, hth, t, ht, t', hs, heq⟩ := h
      exact Or.inr (Or.inr ⟨i, m, th, t, t', rfl, hth, ht, hs, heq.symm⟩)

/-! ## The bound of a thread -/

variable {frame : BitVec 64} {p p' : Process} {a : RuntimeAction}

/-- A thread in its start routine has done with the runtime. -/
theorem called_stays (hs : p.step env a = some p') {i : ℕ} {th : Thread}
    (hth : p.threads[i]? = some th) (hpc : th.pc = .called) : p'.threads[i]? = some th := by
  have hother : ∀ {j th' th''}, p.threads[j]? = some th' → th'.pc ≠ .called →
      (p.threads.set j th'')[i]? = some th := by
    intro j th' th'' hth' hne
    have hij : j ≠ i := by
      rintro rfl
      rw [hth, Option.some.injEq] at hth'
      exact hne (hth' ▸ hpc)
    rw [List.getElem?_set_ne hij]
    exact hth
  rcases Process.step_cases hs with ⟨sp, rfl, -, rfl⟩ | ⟨rfl, -, rfl⟩ | ⟨rfl, -, rfl⟩
    | ⟨fn, arg, top, size, rfl, hsize, rfl⟩ | ⟨fn, arg, rfl, rfl⟩ | ⟨fn, arg, rfl, rfl⟩
    | ⟨j, th', ta, rfl, hth', -, hpc', -, rfl⟩ | ⟨j, th', th'', hth', rfl, hmove⟩
  · exact hth
  · exact hth
  · exact hth
  · exact (List.getElem?_append_left (List.getElem?_eq_some_iff.mp hth).1).trans hth
  · exact hth
  · exact hth
  · exact hother hth' (by rw [hpc']; simp)
  · refine hother hth' fun hpc' => ?_
    rcases hmove with ⟨-, hpc'', -⟩ | ⟨max, -, hpc'', -⟩ | ⟨-, hpc'', -⟩ <;> rw [hpc'] at hpc'' <;>
      cases hpc''

/-! ## The calls of a thread -/

/-- Every thread that has calls is in its start routine, and they are as `Q` says. -/
def System.Running (Q : Thread → CallStack V M → Prop) (s : System V M) : Prop :=
  ∀ i t, s.calls i = some t → ∃ th, s.process.threads[i]? = some th ∧ th.pc = .called ∧ Q th t

/-- **One step**, for what the start of a thread and its own moves keep. -/
theorem running_step {Q : Thread → CallStack V M → Prop} (h : s.Running Q)
    (hstart : ∀ th ∈ s'.process.threads, th.pc = .called →
      ∀ t ∈ System.start x pointer s.mem th, Q th t)
    (hmove : ∀ i m th t t', act = .move i m → s.process.threads[i]? = some th → th.pc = .called →
      s.calls i = some t → Q th t → (x.withBound th.bound).step (t.withMem s.mem) m = some t' →
        Q th t')
    (hs : s.step env x pointer act = some s') : s'.Running Q := by
  rcases System.step_cases hs with ⟨a, p, rfl, hp, -, rfl⟩ | ⟨j, p, rfl, hp, rfl⟩
    | ⟨j, m, th, t, t', rfl, hth, ht, hrun, rfl⟩
  · intro i t ht
    obtain ⟨th, hth, hpc, hQ⟩ := h i t ht
    exact ⟨th, called_stays hp hth hpc, hpc, hQ⟩
  · intro i t ht
    by_cases hij : i = j
    · subst hij
      replace ht : Function.update s.calls i _ i = some t := ht
      rw [Function.update_self] at ht
      obtain ⟨th, hth, hstarted⟩ := Option.bind_eq_some_iff.mp ht
      have hpc : th.pc = .called := by
        obtain ⟨th₀, th', hth₀, hcall, rfl⟩ := Process.advance_eq_some hp
        obtain ⟨-, heq⟩ := Option.ite_none_right_eq_some.mp hcall
        rw [List.getElem?_set_self (List.getElem?_eq_some_iff.mp hth₀).1, Option.some.injEq] at hth
        rw [← hth, ← Option.some.inj heq]
      exact ⟨th, hth, hpc, hstart th (List.mem_of_getElem? hth) hpc t hstarted⟩
    · replace ht : Function.update s.calls j _ i = some t := ht
      rw [Function.update_of_ne hij] at ht
      obtain ⟨th, hth, hpc, hQ⟩ := h i t ht
      exact ⟨th, called_stays hp hth hpc, hpc, hQ⟩
  · intro i u hu
    by_cases hij : i = j
    · subst hij
      replace hu : Function.update s.calls i (some t') i = some u := hu
      rw [Function.update_self, Option.some.injEq] at hu
      subst hu
      obtain ⟨th', hth', hpc, hQ⟩ := h i t ht
      rw [hth, Option.some.injEq] at hth'
      subst hth'
      exact ⟨th, hth, hpc, hmove i m th t t' rfl hth hpc ht hQ hrun⟩
    · replace hu : Function.update s.calls j (some t') i = some u := hu
      rw [Function.update_of_ne hij] at hu
      exact h i u hu

/-! ## Runs -/

/-- The lowest address of the stack. -/
def Thread.bottom (th : Thread) : ℕ := th.top.toNat - th.size.toNat

/-- A guard margin above it is the lowest bound, and a frame fits below the top. -/
theorem Thread.Paid.window {th : Thread} (h : th.Paid env frame) (hpc : th.pc = .called) :
    th.bottom + kGuardMargin.toNat ≤ th.bound.toNat
      ∧ th.bound.toNat + frame.toNat ≤ th.top.toNat :=
  h.inside hpc

theorem safe_withMem {t : CallStack V M} (h : t.Safe x) (mem : M) : (t.withMem mem).Safe x := by
  obtain ⟨htop, hcallers⟩ := List.forall_mem_cons.mp h.base
  exact ⟨h.top.congr rfl rfl rfl rfl rfl, h.callers, List.forall_mem_cons.mpr ⟨htop, hcallers⟩⟩

/-- The runtime, as a part of the system. -/
theorem paid_system (h : s.process.Paid env x.frame) (hs : s.step env x pointer act = some s')
    (ha : s.Assumed x act) : s'.process.Paid env x.frame := by
  rcases System.step_cases hs with ⟨a, p, rfl, hp, -, rfl⟩ | ⟨i, p, rfl, hp, rfl⟩
    | ⟨i, m, th, t, t', rfl, -, -, -, rfl⟩
  · exact paid_step h hp ha
  · exact paid_step h hp ha
  · exact h

section Run

variable {mem : M} {acts : List (SystemAction V)}

/-- What a thread starts with. -/
theorem start_eq_some {th : Thread} {t : CallStack V M}
    (h : System.start x pointer mem th = some t) :
    ∃ g other, t = (x.withBound th.bound).launch x.code g other ⟨th.top, mem⟩ := by
  obtain ⟨r, -, rfl⟩ := Option.map_eq_some_iff.mp h
  exact ⟨_, _, rfl⟩

/-- **Every thread is safe** against its own bound. -/
theorem threads_safe (hprologue : ∀ g, x.prologue g ≤ x.frame)
    (hassumed : ∀ s act, Takes (System.step env x pointer) (.init mem) acts s act → s.Assumed x act)
    (hs : Visits (System.step env x pointer) (.init mem) acts s) :
    s.process.Paid env x.frame ∧ s.Running fun th t => t.Safe (x.withBound th.bound) := by
  refine hs.invariant (I := fun s => s.process.Paid env x.frame
    ∧ s.Running fun th t => t.Safe (x.withBound th.bound)) ?_ ?_
  · exact ⟨paid_init, fun i t ht => by cases ht⟩
  · intro s s' act htakes ⟨hpaid, hrunning⟩ hstep
    have ha := hassumed s act htakes
    have hpaid' := paid_system hpaid hstep ha
    refine ⟨hpaid', running_step hrunning ?_ ?_ hstep⟩
    · intro th hth hpc t ht
      obtain ⟨g, other, rfl⟩ := start_eq_some ht
      exact safe_launch ((hpaid'.threads th hth).window hpc).2 (hprologue g)
    · rintro i m th t t' rfl hth hpc ht hsafe hmove
      exact safe_step (safe_withMem hsafe s.mem) hmove (ha th hth t ht)

/-- **No thread comes near the end of its stack.** However many threads a process creates, in
whatever order the runtime and the threads move, and whatever they call: if every trampoline loads a
limit that suits the thread, an instruction of the source runs only with a frame left above the
guard margin of the thread's own stack, so does every call that waits, and no prologue reaches into
the guard margin. -/
theorem threads_keep_margin (env : Environment) (x : Executable V M) (pointer : ℕ → V)
    (hprologue : ∀ g, x.prologue g ≤ x.frame)
    (hassumed : ∀ s act, Takes (System.step env x pointer) (.init mem) acts s act →
      s.Assumed x act) :
    ∀ s, Visits (System.step env x pointer) (.init mem) acts s → ∀ i t, s.calls i = some t →
      ∃ th, s.process.threads[i]? = some th
        ∧ (∀ inst rest, t.top.config.rest = .ir inst :: rest →
          th.bottom + kGuardMargin.toNat + x.frame.toNat ≤ t.top.sp.toNat)
        ∧ (∀ a ∈ t.callers, th.bottom + kGuardMargin.toNat + x.frame.toNat ≤ a.sp.toNat)
        ∧ ∀ a ∈ t.top :: t.callers, th.bottom + kGuardMargin.toNat ≤ a.base.toNat := by
  intro s hs i t ht
  obtain ⟨hpaid, hrunning⟩ := threads_safe hprologue hassumed hs
  obtain ⟨th, hth, hpc, hsafe⟩ := hrunning i t ht
  obtain ⟨hlow, -⟩ := (hpaid.threads th (List.mem_of_getElem? hth)).window hpc
  refine ⟨th, hth, fun inst rest hrest => ?_, fun a ha => ?_, fun a ha => ?_⟩
  · have hroom : th.bound.toNat + x.frame.toNat ≤ t.top.sp.toNat := hsafe.top.room hrest
    omega
  · have hroom : th.bound.toNat + x.frame.toNat ≤ a.sp.toNat := (hsafe.callers a ha).room
    omega
  · have hbase : th.bound ≤ a.base := hsafe.base a ha
    have hle := BitVec.le_def.mp hbase
    omega

/-- The constructor with 16 KiB, a thread with as much, and its first two calls. -/
def recurseThread : List (SystemAction ℕ) :=
  ([.ctorDefault 0x7fff0000, .ctorEnv, .ctorBound, .pthreadCreate 0 7 (.created 0x8000000 16384),
    .unpack 0, .load 0, .store 0, .call 0] : List RuntimeAction).map .runtime
    ++ recurseRun.map (.move 0)

theorem recurse_prologue : ∀ g, recurseProgram.prologue g ≤ recurseProgram.frame := by
  have hle : (96 : BitVec 64) ≤ framePad 0 := by decide
  exact fun _ => hle

/-- The calls of the thread are above its guard margin. -/
theorem threads_keep_margin_recurse :
    ∃ s t th, exec (System.step ⟨some "16", strtoul⟩ recurseProgram id) (.init ()) recurseThread
        = some s
      ∧ s.calls 0 = some t ∧ s.process.threads[0]? = some th ∧ t.callers.length = 1
      ∧ ∀ a ∈ t.top :: t.callers, th.bottom + kGuardMargin.toNat ≤ a.base.toNat := by
  have hlast : (exec (System.step ⟨some "16", strtoul⟩ recurseProgram id) (.init ())
      recurseThread).map (fun s => (s.calls 0).map (·.callers.length)) = some (some 1) := by
    decide +kernel
  have hassumed : TakesAll (System.step ⟨some "16", strtoul⟩ recurseProgram id)
      (fun s act => s.Assumed recurseProgram act) (.init ()) recurseThread := by decide +kernel
  obtain ⟨s, hrun, hs⟩ := Option.map_eq_some_iff.mp hlast
  obtain ⟨t, ht, hlength⟩ := Option.map_eq_some_iff.mp hs
  obtain ⟨th, hth, -, -, hbase⟩ := threads_keep_margin ⟨some "16", strtoul⟩ recurseProgram id
    recurse_prologue (fun s act htakes => hassumed.takes htakes) s (visits_last hrun) 0 t ht
  exact ⟨s, t, th, hrun, ht, hth, hlength, hbase⟩

end Run

end Hopter.SplitStack
