import Hopter.SplitStack.Vla

/-!
# The bound of a thread

The runtime has one limit for the process, which a constructor writes, and a
trampoline in front of every thread, which subtracts the limit from the SP it
finds. The stack of the thread is as large as its attributes say. So the bound is
inside the stack if the limit that the trampoline loads fits into it, and leaves
room for the guard margin and a padding.
-/

namespace Hopter.SplitStack

open Conc

def kDefaultMaxStackBytes : BitVec 64 := 2 * 1024 * 1024

/-- The environment variable `HOPTER_MAX_STACK_KB`, and what the C library makes of a number. -/
structure Environment where
  maxStackKb : Option String
  strtoul : String → BitVec 64

/-- The limit that the constructor settles on. -/
def Environment.maxStackBytes (env : Environment) : BitVec 64 :=
  match env.maxStackKb with
  | none => kDefaultMaxStackBytes
  | some value =>
      if value.isEmpty then kDefaultMaxStackBytes
      else if 0 < env.strtoul value then env.strtoul value * 1024
      else kDefaultMaxStackBytes

/-- Where a thread is in `thread_trampoline`. -/
inductive Pc where
  | start
  /-- `fn` and `arg` are read, and their cell is freed. -/
  | unpacked
  /-- `s_max_stack_bytes` is in a register. -/
  | loaded (maxStackBytes : BitVec 64)
  | bounded
  /-- In `fn(arg)`. -/
  | called
  deriving DecidableEq

/-- A `thread_arg_t` on the heap. -/
structure ThreadArg where
  fn : ℕ
  arg : ℕ
  freed : Bool
  deriving DecidableEq

structure Thread where
  /-- The `thread_arg_t` it is started with. -/
  ta : ℕ
  /-- `fn` and `arg`, once they are read. -/
  routine : Option (ℕ × ℕ)
  /-- SP in the trampoline, at the top of the stack the attributes describe. -/
  top : BitVec 64
  size : BitVec 64
  pc : Pc
  /-- `__hopter_stklet_bound` -/
  bound : BitVec 64
  deriving DecidableEq

/-- Where `__split_stack_ctor` is. -/
inductive Ctor where
  | before
  | defaulted
  | overridden
  | done
  deriving DecidableEq

structure Process where
  ctor : Ctor
  /-- `s_init_sp` -/
  initSp : BitVec 64
  /-- `s_max_stack_bytes` -/
  maxStackBytes : BitVec 64
  /-- `__hopter_stklet_bound` of the main thread. -/
  bound : BitVec 64
  /-- Every `thread_arg_t` that was allocated. -/
  args : List ThreadArg
  threads : List Thread
  deriving DecidableEq

/-- How a call of `pthread_create` ends. -/
inductive Outcome where
  /-- `malloc` has failed. -/
  | noMemory
  /-- The system does not create the thread. -/
  | refused
  | created (top size : BitVec 64)
  deriving DecidableEq

inductive RuntimeAction where
  | ctorDefault (sp : BitVec 64)
  | ctorEnv
  | ctorBound
  | pthreadCreate (startRoutine arg : ℕ) (outcome : Outcome)
  | unpack (i : ℕ)
  | load (i : ℕ)
  | store (i : ℕ)
  | call (i : ℕ)
  deriving DecidableEq

/-- `sp - s_max_stack_bytes + kGuardMargin` -/
def softBound (sp maxStackBytes : BitVec 64) : BitVec 64 := sp - maxStackBytes + kGuardMargin

namespace Process

/-- Before the constructors: static data is zero. -/
def init : Process := ⟨.before, 0, 0, 0, [], []⟩

/-- Thread `i` moves. -/
def advance (p : Process) (i : ℕ) (move : Thread → Option Thread) : Option Process :=
  (p.threads[i]?.bind move).map fun th => { p with threads := p.threads.set i th }

/-- Thread `i` reads what it is to run, and frees it. -/
def unpack (p : Process) (i : ℕ) : Option Process := do
  let th ← p.threads[i]?
  let ta ← p.args[th.ta]?
  if th.pc = .start ∧ ta.freed = false then
    some { p with
      args := p.args.set th.ta { ta with freed := true },
      threads := p.threads.set i { th with pc := .unpacked, routine := some (ta.fn, ta.arg) } }
  else none

def step (env : Environment) (p : Process) : RuntimeAction → Option Process
  | .ctorDefault sp =>
      if p.ctor = .before then
        some { p with ctor := .defaulted, initSp := sp, maxStackBytes := kDefaultMaxStackBytes }
      else none
  | .ctorEnv =>
      if p.ctor = .defaulted then
        some { p with ctor := .overridden, maxStackBytes := env.maxStackBytes }
      else none
  | .ctorBound =>
      if p.ctor = .overridden then
        some { p with ctor := .done, bound := softBound p.initSp p.maxStackBytes }
      else none
  | .pthreadCreate startRoutine arg (.created top size) =>
      if size ≤ top then
        some { p with
          args := p.args ++ [⟨startRoutine, arg, false⟩],
          threads := p.threads ++ [⟨p.args.length, none, top, size, .start, 0⟩] }
      else none
  | .pthreadCreate startRoutine arg .refused =>
      some { p with args := p.args ++ [⟨startRoutine, arg, false⟩] }
  | .pthreadCreate _ _ .noMemory => some p
  | .unpack i => p.unpack i
  | .load i =>
      p.advance i fun th =>
        if th.pc = .unpacked then some { th with pc := .loaded p.maxStackBytes } else none
  | .store i =>
      p.advance i fun th =>
        match th.pc with
        | .loaded maxStackBytes =>
            some { th with pc := .bounded, bound := softBound th.top maxStackBytes }
        | _ => none
  | .call i =>
      p.advance i fun th => if th.pc = .bounded then some { th with pc := .called } else none

end Process

/-! ## When a bound is inside its stack -/

/-- The bound is a guard margin above the bottom of the thread's stack, and what a check subtracts
below its top. -/
def Thread.BoundInside (frame : BitVec 64) (th : Thread) : Prop :=
  th.top.toNat - th.size.toNat + kGuardMargin.toNat ≤ th.bound.toNat
    ∧ th.bound.toNat + frame.toNat ≤ th.top.toNat

/-- The limit is for the thread's stack, or a smaller one, and has room for the guard margin. -/
def Thread.Suits (frame : BitVec 64) (th : Thread) (maxStackBytes : BitVec 64) : Prop :=
  kGuardMargin.toNat + frame.toNat ≤ maxStackBytes.toNat ∧ maxStackBytes ≤ th.size

instance (frame : BitVec 64) (th : Thread) : Decidable (th.BoundInside frame) :=
  inferInstanceAs (Decidable (_ ∧ _))

instance (frame : BitVec 64) (th : Thread) (maxStackBytes : BitVec 64) :
    Decidable (th.Suits frame maxStackBytes) :=
  inferInstanceAs (Decidable (_ ∧ _))

/-- The limit suits the thread whose trampoline loads it. -/
def Process.LimitSuits (frame : BitVec 64) (p : Process) : RuntimeAction → Prop
  | .load i => ∀ th ∈ p.threads[i]?, th.Suits frame p.maxStackBytes
  | _ => True

instance (frame : BitVec 64) (p : Process) : DecidablePred (p.LimitSuits frame)
  | .load i => inferInstanceAs (Decidable (∀ th ∈ p.threads[i]?, th.Suits frame p.maxStackBytes))
  | .ctorDefault _ | .ctorEnv | .ctorBound | .pthreadCreate _ _ _ | .unpack _ | .store _
  | .call _ => .isTrue trivial

/-- **The bound the trampoline sets** is inside the stack if the limit suits it, and not otherwise.
-/
theorem boundInside_iff {frame : BitVec 64} {th : Thread} {maxStackBytes : BitVec 64}
    (hsize : th.size ≤ th.top) (hbound : th.bound = softBound th.top maxStackBytes) :
    th.BoundInside frame ↔ th.Suits frame maxStackBytes := by
  have hguard : kGuardMargin.toNat = 8192 := rfl
  have htop := th.top.isLt
  have hmax := maxStackBytes.isLt
  have hsize := BitVec.le_def.mp hsize
  have hval : th.bound.toNat
      = ((2 ^ 64 - maxStackBytes.toNat + th.top.toNat) % 2 ^ 64 + 8192) % 2 ^ 64 := by
    rw [hbound]
    unfold softBound
    rw [BitVec.toNat_add, BitVec.toNat_sub, hguard]
  unfold Thread.BoundInside Thread.Suits
  rw [hval, hguard, BitVec.le_def]
  omega

/-- With a bound inside its stack a thread passes a check at the top, and fails one before it leaves
the stack. -/
theorem Thread.BoundInside.checks {frame : BitVec 64} {th : Thread} (h : th.BoundInside frame) :
    checkOk frame th.top th.bound = true
      ∧ ∀ sp, frame ≤ sp → sp.toNat < th.top.toNat - th.size.toNat + kGuardMargin.toNat →
        checkOk frame sp th.bound = false := by
  obtain ⟨hlow, hhigh⟩ := h
  constructor
  · exact (checkOk_iff (BitVec.le_def.mpr (by omega))).mpr hhigh
  · intro sp hsp hlt
    rw [Bool.eq_false_iff, ne_eq, checkOk_iff hsp]
    omega

/-! ## Runs -/

variable {env : Environment} {frame : BitVec 64} {p p' : Process}

theorem Process.advance_eq_some {i : ℕ} {move : Thread → Option Thread}
    (h : p.advance i move = some p') :
    ∃ th th', p.threads[i]? = some th ∧ move th = some th'
      ∧ p' = { p with threads := p.threads.set i th' } := by
  obtain ⟨th', hmove, heq⟩ := Option.map_eq_some_iff.mp h
  obtain ⟨th, hth, hmove⟩ := Option.bind_eq_some_iff.mp hmove
  exact ⟨th, th', hth, hmove, heq.symm⟩

/-- **Inversion.** -/
theorem Process.step_cases {a : RuntimeAction} (h : p.step env a = some p') :
    (∃ sp, a = .ctorDefault sp ∧ p.ctor = .before
      ∧ p' = { p with ctor := .defaulted, initSp := sp, maxStackBytes := kDefaultMaxStackBytes })
    ∨ (a = .ctorEnv ∧ p.ctor = .defaulted
      ∧ p' = { p with ctor := .overridden, maxStackBytes := env.maxStackBytes })
    ∨ (a = .ctorBound ∧ p.ctor = .overridden
      ∧ p' = { p with ctor := .done, bound := softBound p.initSp p.maxStackBytes })
    ∨ (∃ fn arg top size, a = .pthreadCreate fn arg (.created top size) ∧ size ≤ top
      ∧ p' = { p with
          args := p.args ++ [⟨fn, arg, false⟩],
          threads := p.threads ++ [⟨p.args.length, none, top, size, .start, 0⟩] })
    ∨ (∃ fn arg, a = .pthreadCreate fn arg .refused
      ∧ p' = { p with args := p.args ++ [⟨fn, arg, false⟩] })
    ∨ (∃ fn arg, a = .pthreadCreate fn arg .noMemory ∧ p' = p)
    ∨ (∃ i th ta, a = .unpack i ∧ p.threads[i]? = some th ∧ p.args[th.ta]? = some ta
      ∧ th.pc = .start ∧ ta.freed = false
      ∧ p' = { p with
          args := p.args.set th.ta { ta with freed := true },
          threads := p.threads.set i
            { th with pc := .unpacked, routine := some (ta.fn, ta.arg) } })
    ∨ ∃ i th th', p.threads[i]? = some th ∧ p' = { p with threads := p.threads.set i th' }
      ∧ ((a = .load i ∧ th.pc = .unpacked ∧ th' = { th with pc := .loaded p.maxStackBytes })
        ∨ (∃ maxStackBytes, a = .store i ∧ th.pc = .loaded maxStackBytes
          ∧ th' = { th with pc := .bounded, bound := softBound th.top maxStackBytes })
        ∨ (a = .call i ∧ th.pc = .bounded ∧ th' = { th with pc := .called })) := by
  cases a with
  | ctorDefault sp =>
      obtain ⟨hctor, heq⟩ := Option.ite_none_right_eq_some.mp h
      exact Or.inl ⟨sp, rfl, hctor, (Option.some.inj heq).symm⟩
  | ctorEnv =>
      obtain ⟨hctor, heq⟩ := Option.ite_none_right_eq_some.mp h
      exact Or.inr (Or.inl ⟨rfl, hctor, (Option.some.inj heq).symm⟩)
  | ctorBound =>
      obtain ⟨hctor, heq⟩ := Option.ite_none_right_eq_some.mp h
      exact Or.inr (Or.inr (Or.inl ⟨rfl, hctor, (Option.some.inj heq).symm⟩))
  | pthreadCreate fn arg outcome =>
      cases outcome with
      | noMemory => cases h; exact .inr (.inr (.inr (.inr (.inr (.inl ⟨fn, arg, rfl, rfl⟩)))))
      | refused => cases h; exact .inr (.inr (.inr (.inr (.inl ⟨fn, arg, rfl, rfl⟩))))
      | created top size =>
          obtain ⟨hsize, heq⟩ := Option.ite_none_right_eq_some.mp h
          exact .inr (.inr (.inr (.inl ⟨fn, arg, top, size, rfl, hsize,
            (Option.some.inj heq).symm⟩)))
  | unpack i =>
      simp only [Process.step, Process.unpack, Option.bind_eq_bind, Option.bind_eq_some_iff,
        Option.ite_none_right_eq_some, Option.some.injEq] at h
      obtain ⟨th, hth, ta, hta, ⟨hpc, hfreed⟩, heq⟩ := h
      exact .inr (.inr (.inr (.inr (.inr (.inr (.inl ⟨i, th, ta, rfl, hth, hta, hpc, hfreed,
        heq.symm⟩))))))
  | load i =>
      obtain ⟨th, th', hth, hmove, heq⟩ := Process.advance_eq_some h
      obtain ⟨hpc, hth'⟩ := Option.ite_none_right_eq_some.mp hmove
      exact .inr (.inr (.inr (.inr (.inr (.inr (.inr ⟨i, th, th', hth, heq,
        .inl ⟨rfl, hpc, (Option.some.inj hth').symm⟩⟩))))))
  | store i =>
      obtain ⟨th, th', hth, hmove, heq⟩ := Process.advance_eq_some h
      refine .inr (.inr (.inr (.inr (.inr (.inr (.inr ⟨i, th, th', hth, heq, .inr (.inl ?_)⟩))))))
      split at hmove
      · rename_i max hpc
        exact ⟨max, rfl, hpc, (Option.some.inj hmove).symm⟩
      · cases hmove
  | call i =>
      obtain ⟨th, th', hth, hmove, heq⟩ := Process.advance_eq_some h
      obtain ⟨hpc, hth'⟩ := Option.ite_none_right_eq_some.mp hmove
      exact .inr (.inr (.inr (.inr (.inr (.inr (.inr ⟨i, th, th', hth, heq,
        .inr (.inr ⟨rfl, hpc, (Option.some.inj hth').symm⟩)⟩))))))

/-- The limit is one of the process, and suits the thread. -/
def Thread.Pays (env : Environment) (frame : BitVec 64) (th : Thread) (maxStackBytes : BitVec 64) :
    Prop :=
  (maxStackBytes = kDefaultMaxStackBytes ∨ maxStackBytes = env.maxStackBytes)
    ∧ th.Suits frame maxStackBytes

/-- What is known of a thread in the trampoline and behind it, when the limits suit it. -/
structure Thread.Paid (env : Environment) (frame : BitVec 64) (th : Thread) : Prop where
  size : th.size ≤ th.top
  loaded : ∀ maxStackBytes, th.pc = .loaded maxStackBytes → th.Pays env frame maxStackBytes
  bounded : th.pc = .bounded ∨ th.pc = .called →
    ∃ maxStackBytes, th.bound = softBound th.top maxStackBytes ∧ th.Pays env frame maxStackBytes

theorem Thread.Paid.inside {th : Thread} (h : th.Paid env frame) (hpc : th.pc = .called) :
    th.BoundInside frame := by
  obtain ⟨max, hbound, -, hsuits⟩ := h.bounded (Or.inr hpc)
  exact (boundInside_iff h.size hbound).mpr hsuits

/-- The limits there are. Static data is zero until the constructor runs. -/
def Process.LimitKnown (env : Environment) (p : Process) : Prop :=
  p.maxStackBytes = 0 ∨ p.maxStackBytes = kDefaultMaxStackBytes
    ∨ p.maxStackBytes = env.maxStackBytes

/-- What is known of the runtime. -/
structure Process.Paid (env : Environment) (frame : BitVec 64) (p : Process) : Prop where
  limit : p.LimitKnown env
  threads : ∀ th ∈ p.threads, th.Paid env frame

theorem paid_init : Process.init.Paid env frame :=
  ⟨Or.inl rfl, fun _ hth => absurd hth List.not_mem_nil⟩

theorem paid_set {i : ℕ} {th' : Thread} (h : ∀ th ∈ p.threads, th.Paid env frame)
    (hth' : th'.Paid env frame) : ∀ th ∈ p.threads.set i th', th.Paid env frame := by
  intro x hx
  rcases List.mem_or_eq_of_mem_set hx with hx | rfl
  · exact h x hx
  · exact hth'

/-- A thread that has not loaded the limit. -/
theorem paid_fresh {th : Thread} (hsize : th.size ≤ th.top)
    (hpc : th.pc = .start ∨ th.pc = .unpacked) : th.Paid env frame := by
  refine ⟨hsize, fun _ hloaded => ?_, fun hbounded => ?_⟩
  · rcases hpc with hpc | hpc <;> rw [hpc] at hloaded <;> cases hloaded
  · rcases hpc with hpc | hpc <;> rw [hpc] at hbounded <;> simp at hbounded

/-- **One step of the runtime.** -/
theorem paid_step {a : RuntimeAction} (h : p.Paid env frame) (hs : p.step env a = some p')
    (ha : p.LimitSuits frame a) : p'.Paid env frame := by
  rcases Process.step_cases hs with ⟨sp, rfl, -, rfl⟩ | ⟨rfl, -, rfl⟩ | ⟨rfl, -, rfl⟩
    | ⟨fn, arg, top, size, rfl, hsize, rfl⟩ | ⟨fn, arg, rfl, rfl⟩ | ⟨fn, arg, rfl, rfl⟩
    | ⟨i, th, ta, rfl, hth, -, -, -, rfl⟩ | ⟨i, th, th', hth, rfl, hmove⟩
  · exact ⟨Or.inr (Or.inl rfl), h.threads⟩
  · exact ⟨Or.inr (Or.inr rfl), h.threads⟩
  · exact ⟨h.limit, h.threads⟩
  · refine ⟨h.limit, fun th hth => ?_⟩
    rcases List.mem_append.mp hth with hth | hth
    · exact h.threads th hth
    · rw [List.mem_singleton.mp hth]
      exact paid_fresh hsize (Or.inl rfl)
  · exact ⟨h.limit, h.threads⟩
  · exact h
  · exact ⟨h.limit, paid_set h.threads
      (paid_fresh (h.threads th (List.mem_of_getElem? hth)).size (Or.inr rfl))⟩
  · refine ⟨h.limit, paid_set h.threads ?_⟩
    have hpaid := h.threads th (List.mem_of_getElem? hth)
    rcases hmove with ⟨rfl, -, rfl⟩ | ⟨max, rfl, hpc, rfl⟩ | ⟨rfl, hpc, rfl⟩
    · -- the limit is not zero, since it leaves room for the guard margin
      have hsuits : th.Suits frame p.maxStackBytes := ha th hth
      have hguard : kGuardMargin.toNat = 8192 := rfl
      refine ⟨hpaid.size, fun max hpc => ?_, fun hpc => by rcases hpc with hpc | hpc <;> cases hpc⟩
      cases hpc
      refine ⟨h.limit.resolve_left fun hzero => ?_, hsuits⟩
      have hle := hsuits.1
      rw [hzero, hguard] at hle
      exact Nat.not_succ_le_zero _ ((Nat.le_add_right _ _).trans hle)
    · exact ⟨hpaid.size, fun _ hpc' => (by cases hpc'), fun _ => ⟨max, rfl, hpaid.loaded max hpc⟩⟩
    · exact ⟨hpaid.size, fun _ hpc' => (by cases hpc'), fun _ => hpaid.bounded (Or.inl hpc)⟩

/-- **Every thread gets a bound inside its own stack** when the limit suits it as the trampoline
loads it. Then it passes a check at the top of its stack, and fails one before it leaves the
stack. -/
theorem bounds_inside (clExtraPad : BitVec 32) (env : Environment) {as : List RuntimeAction}
    (hsuits : ∀ p a, Takes (Process.step env) .init as p a →
      p.LimitSuits (framePad clExtraPad) a) :
    ∀ p, Visits (Process.step env) .init as p → ∀ th ∈ p.threads, th.pc = .called →
      th.BoundInside (framePad clExtraPad)
        ∧ checkOk (framePad clExtraPad) th.top th.bound = true
        ∧ ∀ sp, framePad clExtraPad ≤ sp →
          sp.toNat < th.top.toNat - th.size.toNat + kGuardMargin.toNat →
            checkOk (framePad clExtraPad) sp th.bound = false := by
  intro p hvisit th hth hpc
  have hpaid : p.Paid env (framePad clExtraPad) :=
    hvisit.invariant paid_init fun htakes h hs => paid_step h hs (hsuits _ _ htakes)
  have hinside := (hpaid.threads th hth).inside hpc
  exact ⟨hinside, hinside.checks⟩

/-- A thread with a stack of its own size, created before the constructor has run or after it. -/
def earlyRun (size : BitVec 64) : List RuntimeAction :=
  [.pthreadCreate 7 0 (.created 0x8000000 size), .unpack 0, .load 0, .store 0, .call 0]

def lateRun (size : BitVec 64) : List RuntimeAction :=
  [.ctorDefault 0x7fff0000, .ctorEnv, .ctorBound,
    .pthreadCreate 7 0 (.created 0x8000000 size), .unpack 0, .load 0, .store 0, .call 0]

/-- A thread with 64 KiB gets a bound below its stack, and one with 8 MiB that is created by an
earlier constructor gets a bound above its SP. -/
theorem bounds_outside :
    (∃ p th, exec (Process.step ⟨none, fun _ => 0⟩) .init (lateRun 65536) = some p
      ∧ th ∈ p.threads ∧ th.pc = .called ∧ th.bound < th.top - th.size
      ∧ ¬ th.BoundInside (framePad 0))
    ∧ ∃ p th, exec (Process.step ⟨none, fun _ => 0⟩) .init (earlyRun 8388608) = some p
      ∧ th ∈ p.threads ∧ th.pc = .called ∧ th.top < th.bound
      ∧ ¬ th.BoundInside (framePad 0) := by
  refine ⟨⟨⟨.done, 0x7fff0000, 2097152, 0x7fdf2000, [⟨7, 0, true⟩], _⟩,
      ⟨0, some (7, 0), 0x8000000, 65536, .called, 0x7e02000⟩,
      by decide, List.mem_singleton_self _, rfl, by decide, by decide⟩,
    ⟨.before, 0, 0, 0, [⟨7, 0, true⟩], _⟩,
    ⟨0, some (7, 0), 0x8000000, 8388608, .called, 0x8002000⟩,
    by decide, List.mem_singleton_self _, rfl, by decide, by decide⟩

/-- The limit of the process suits a thread with 8 MiB. -/
theorem bounds_inside_lateRun :
    ∃ p th, exec (Process.step ⟨none, fun _ => 0⟩) .init (lateRun 8388608) = some p
      ∧ th ∈ p.threads ∧ th.pc = .called ∧ th.BoundInside (framePad 0) := by
  have hrun : exec (Process.step ⟨none, fun _ => 0⟩) .init (lateRun 8388608)
      = some ⟨.done, 0x7fff0000, 2097152, 0x7fdf2000, [⟨7, 0, true⟩],
        [⟨0, some (7, 0), 0x8000000, 8388608, .called, 0x7e02000⟩]⟩ := by decide
  have hall : TakesAll (Process.step ⟨none, fun _ => 0⟩) (Process.LimitSuits (framePad 0))
      .init (lateRun 8388608) := by decide
  exact ⟨_, _, hrun, List.mem_singleton_self _, rfl, (bounds_inside 0 _
    (fun p a htakes => hall.takes htakes) _ (visits_last hrun) _ (List.mem_singleton_self _) rfl).1⟩

end Hopter.SplitStack
