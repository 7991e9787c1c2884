import Mathlib.Algebra.BigOperators.Fin
import Hopter.Lib.Interleave

/-!
# The frame of the two benchmarks

`run_softlock_bench` and `run_mutex_bench` differ in what they measure and agree
in everything around it: producers and one consumer are spawned, the main thread
joins the producers, stores `producers_done`, joins the consumer, and checks.
Here is that frame for any process the threads run over, and any text the
threads run.

`yield_now`, `spin_n` and spawning touch nothing that is shared, and a thread
that is not scheduled cannot be told from one that has not been spawned, so none
of them is a step.
-/

namespace Hopter

open Conc

/-- `struct Scenario`, without the parameters of the pauses. -/
structure Scenario where
  producers : Nat
  opsPerProducer : Nat
  consumerBudget : Nat

/-- `total_ops`. -/
def Scenario.totalOps (s : Scenario) : Nat := s.producers * s.opsPerProducer

/-- The threads of a benchmark. -/
inductive Tid (n : Nat) where
  | producer (p : Fin n)
  | consumer
  | main
  deriving DecidableEq

/-- The next atomic step in the text of a thread, and the point the thread is at after it. -/
inductive Todo (σ α κ : Type) where
  /-- An action of the process. -/
  | act (a : α) (next : κ)
  /-- A load of something shared. -/
  | load (next : σ → κ)
  /-- `producers_done.load()`. -/
  | loadDone (next : Bool → κ)
  /-- Nothing but going on. -/
  | goto (next : κ)
  /-- The thread is over. -/
  | exit

/-- What the step does to the shared state, to where the thread is in the process, and to the
point of its text. -/
def Todo.take {σ ℓ α κ : Type} (P : Proc σ ℓ α) (s : σ) (done : Bool) (l : ℓ) :
    Todo σ α κ → Option (σ × ℓ × κ)
  | .act a next => (P s l a).map fun r => (r.1, r.2, next)
  | .load next => some (s, l, next s)
  | .loadDone next => some (s, l, next done)
  | .goto next => some (s, l, next)
  | .exit => none

theorem Todo.take_act {σ ℓ α κ : Type} {P : Proc σ ℓ α} {a : α} {next k : κ} {s s' : σ}
    {done : Bool} {l l' : ℓ} (h : (Todo.act a next).take P s done l = some (s', l', k)) :
    P s l a = some (s', l') ∧ k = next := by
  unfold Todo.take at h
  rw [Option.map_eq_some_iff] at h
  obtain ⟨⟨s₁, l₁⟩, hP, h⟩ := h
  cases h
  exact ⟨hP, rfl⟩

/-- A step of a text is an action of the process, or nothing the process sees. -/
theorem Todo.take_cases {σ ℓ α κ : Type} {P : Proc σ ℓ α} {t : Todo σ α κ} {s s' : σ}
    {done : Bool} {l l' : ℓ} {k : κ} (h : t.take P s done l = some (s', l', k)) :
    (∃ a, t = .act a k ∧ P s l a = some (s', l')) ∨ (s' = s ∧ l' = l ∧ ∀ a k', t ≠ .act a k') := by
  cases t with
  | act a next =>
      obtain ⟨hP, rfl⟩ := Todo.take_act h
      exact Or.inl ⟨a, rfl, hP⟩
  | load next => cases h; exact Or.inr ⟨rfl, rfl, nofun⟩
  | loadDone next => cases h; exact Or.inr ⟨rfl, rfl, nofun⟩
  | goto next => cases h; exact Or.inr ⟨rfl, rfl, nofun⟩
  | exit => cases h

/-- The text of the producers, of the consumer, and of the checks at the end. -/
structure BenchText (σ ℓ α π γ φ : Type) where
  producer : π → ℓ → Todo σ α π
  consumer : γ → ℓ → Todo σ α γ
  check : φ → ℓ → Todo σ α φ
  /-- Where the checks start. -/
  start : φ

/-- Where the main thread is. -/
inductive MainPoint (φ : Type) where
  /-- Before the `join` of producer `k`, or before `producers_done.store(true)`. -/
  | join (k : Nat)
  /-- Before the `join` of the consumer. -/
  | joinConsumer
  | check (pc : φ)

/-- A benchmark in progress. -/
structure Bench (n : Nat) (σ ℓ π γ φ : Type) where
  inner : σ
  producersDone : Bool
  phase : Tid n → ℓ
  producer : Fin n → π
  consumer : γ
  main : MainPoint φ

variable {n : Nat} {σ ℓ α π γ φ : Type}

namespace Bench

/-- Producer `p` is over. -/
def Exited (text : BenchText σ ℓ α π γ φ) (c : Bench n σ ℓ π γ φ) (p : Fin n) : Prop :=
  text.producer (c.producer p) (c.phase (.producer p)) = .exit

def ConsumerExited (text : BenchText σ ℓ α π γ φ) (c : Bench n σ ℓ π γ φ) : Prop :=
  text.consumer c.consumer (c.phase .consumer) = .exit

/-- The `join` of a thread returns. -/
def joined {κ : Type} : Todo σ α κ → Bool
  | .exit => true
  | _ => false

theorem joined_iff {κ : Type} {t : Todo σ α κ} : joined t = true ↔ t = .exit := by
  cases t <;> simp [joined]

/-- One atomic step of one of the threads. -/
def step (P : Proc σ ℓ α) (text : BenchText σ ℓ α π γ φ) (c : Bench n σ ℓ π γ φ) :
    Tid n → Option (Bench n σ ℓ π γ φ)
  | .producer p =>
      ((text.producer (c.producer p) (c.phase (.producer p))).take P c.inner c.producersDone
        (c.phase (.producer p))).map fun r =>
          { c with
            inner := r.1
            phase := Function.update c.phase (.producer p) r.2.1
            producer := Function.update c.producer p r.2.2 }
  | .consumer =>
      ((text.consumer c.consumer (c.phase .consumer)).take P c.inner c.producersDone
        (c.phase .consumer)).map fun r =>
          { c with
            inner := r.1
            phase := Function.update c.phase .consumer r.2.1
            consumer := r.2.2 }
  | .main =>
      match c.main with
      | .join k =>
          if h : k < n then
            if joined (text.producer (c.producer ⟨k, h⟩) (c.phase (.producer ⟨k, h⟩))) then
              some { c with main := .join (k + 1) }
            else none
          else some { c with producersDone := true, main := .joinConsumer }
      | .joinConsumer =>
          if joined (text.consumer c.consumer (c.phase .consumer)) then
            some { c with main := .check text.start }
          else none
      | .check pc =>
          ((text.check pc (c.phase .main)).take P c.inner c.producersDone (c.phase .main)).map
            fun r =>
              { c with
                inner := r.1
                phase := Function.update c.phase .main r.2.1
                main := .check r.2.2 }

/-- What a step of a benchmark is. -/
inductive Stepped (P : Proc σ ℓ α) (text : BenchText σ ℓ α π γ φ) (c : Bench n σ ℓ π γ φ) :
    Tid n → Bench n σ ℓ π γ φ → Prop where
  | producer {p s' l' k} :
      (text.producer (c.producer p) (c.phase (.producer p))).take P c.inner c.producersDone
        (c.phase (.producer p)) = some (s', l', k) →
      Stepped P text c (.producer p)
        { c with
          inner := s'
          phase := Function.update c.phase (.producer p) l'
          producer := Function.update c.producer p k }
  | consumer {s' l' k} :
      (text.consumer c.consumer (c.phase .consumer)).take P c.inner c.producersDone
        (c.phase .consumer) = some (s', l', k) →
      Stepped P text c .consumer
        { c with inner := s', phase := Function.update c.phase .consumer l', consumer := k }
  | joinProducer {p} : c.main = .join p.val → Exited text c p →
      Stepped P text c .main { c with main := .join (p.val + 1) }
  | storeDone {k} : c.main = .join k → n ≤ k →
      Stepped P text c .main { c with producersDone := true, main := .joinConsumer }
  | joinConsumer : c.main = .joinConsumer → ConsumerExited text c →
      Stepped P text c .main { c with main := .check text.start }
  | check {pc s' l' k} : c.main = .check pc →
      (text.check pc (c.phase .main)).take P c.inner c.producersDone (c.phase .main)
        = some (s', l', k) →
      Stepped P text c .main
        { c with inner := s', phase := Function.update c.phase .main l', main := .check k }

variable {P : Proc σ ℓ α} {text : BenchText σ ℓ α π γ φ}

/-- **Inversion.** -/
theorem step_cases {c c' : Bench n σ ℓ π γ φ} {t : Tid n} (h : step P text c t = some c') :
    Stepped P text c t c' := by
  cases t with
  | producer p =>
      unfold step at h
      rw [Option.map_eq_some_iff] at h
      obtain ⟨⟨s', l', k⟩, ht, rfl⟩ := h
      exact .producer ht
  | consumer =>
      unfold step at h
      rw [Option.map_eq_some_iff] at h
      obtain ⟨⟨s', l', k⟩, ht, rfl⟩ := h
      exact .consumer ht
  | main =>
      unfold step at h
      dsimp only at h
      split at h
      · rename_i k hm
        split at h
        · rename_i hk
          split at h <;> cases h
          rename_i hj
          exact .joinProducer (p := ⟨k, hk⟩) hm (joined_iff.mp hj)
        · rename_i hk
          cases h
          exact .storeDone hm (Nat.le_of_not_lt hk)
      · rename_i hm
        split at h <;> cases h
        rename_i hj
        exact .joinConsumer hm (joined_iff.mp hj)
      · rename_i pc hm
        rw [Option.map_eq_some_iff] at h
        obtain ⟨⟨s', l', k⟩, ht, rfl⟩ := h
        exact .check hm ht

/-! ## The process under a benchmark -/

/-- The threads of the benchmark, as threads of the process. -/
def threads (c : Bench n σ ℓ π γ φ) : Config σ (Tid n) ℓ := ⟨c.inner, c.phase⟩

/-- The benchmark moves the process by one action of one thread, or not at all. -/
theorem threads_step {c c' : Bench n σ ℓ π γ φ} {t : Tid n} (h : step P text c t = some c') :
    c'.threads = c.threads ∨ ∃ e, Config.step P c.threads e = some c'.threads := by
  have key : ∀ {κ : Type} {todo : Todo σ α κ} {s' : σ} {l' : ℓ} {k : κ},
      todo.take P c.inner c.producersDone (c.phase t) = some (s', l', k) →
      (⟨s', Function.update c.phase t l'⟩ : Config σ (Tid n) ℓ) = c.threads
        ∨ ∃ e, Config.step P c.threads e = some ⟨s', Function.update c.phase t l'⟩ := by
    intro κ todo s' l' k ht
    rcases Todo.take_cases ht with ⟨a, -, hP⟩ | ⟨rfl, rfl, -⟩
    · exact Or.inr ⟨(t, a), Config.step_eq_some.mpr ⟨s', l', hP, rfl⟩⟩
    · rw [Function.update_eq_self]
      exact Or.inl rfl
  cases step_cases h with
  | producer ht | consumer ht => exact key ht
  | check _ ht => exact key ht
  | joinProducer _ _ | storeDone _ _ | joinConsumer _ _ => exact Or.inl rfl

theorem threads_reachable {c₀ c : Bench n σ ℓ π γ φ} (h : Reachable (step P text) c₀ c) :
    Reachable (Config.step P) c₀.threads c.threads :=
  h.map (f := threads) threads_step

/-! ## Who has been joined -/

/-- A thread that is over stays over. -/
theorem exited_step {c c' : Bench n σ ℓ π γ φ} {t : Tid n} (h : step P text c t = some c')
    {p : Fin n} (hp : Exited text c p) : Exited text c' p := by
  unfold Exited at hp ⊢
  cases step_cases h with
  | @producer q s' l' k ht =>
      by_cases hq : p = q
      · subst hq
        rw [hp] at ht
        cases ht
      · have hne : Tid.producer p ≠ Tid.producer q := by
          intro he
          exact hq (Tid.producer.inj he)
        dsimp only
        rw [Function.update_of_ne hq, Function.update_of_ne hne]
        exact hp
  | consumer ht =>
      dsimp only
      rw [Function.update_of_ne (by intro he; cases he)]
      exact hp
  | check _ ht =>
      dsimp only
      rw [Function.update_of_ne (by intro he; cases he)]
      exact hp
  | joinProducer _ _ | storeDone _ _ | joinConsumer _ _ => exact hp

theorem consumerExited_step {c c' : Bench n σ ℓ π γ φ} {t : Tid n}
    (h : step P text c t = some c') (hc : ConsumerExited text c) : ConsumerExited text c' := by
  unfold ConsumerExited at hc ⊢
  cases step_cases h with
  | producer ht =>
      dsimp only
      rw [Function.update_of_ne (by intro he; cases he)]
      exact hc
  | consumer ht =>
      rw [hc] at ht
      cases ht
  | check _ ht =>
      dsimp only
      rw [Function.update_of_ne (by intro he; cases he)]
      exact hc
  | joinProducer _ _ | storeDone _ _ | joinConsumer _ _ => exact hc

/-- What the main thread knows from its joins. -/
structure Joined (text : BenchText σ ℓ α π γ φ) (c : Bench n σ ℓ π γ φ) : Prop where
  joining : ∀ k, c.main = .join k → ∀ p : Fin n, p.val < k → Exited text c p
  done : c.producersDone = true → ∀ p, Exited text c p
  stored : (∃ k, c.main = .join k) ∨ c.producersDone = true
  consumer : ∀ pc, c.main = .check pc → ConsumerExited text c

theorem joined_step {c c' : Bench n σ ℓ π γ φ} {t : Tid n} (h : Joined text c)
    (hs : step P text c t = some c') : Joined text c' := by
  have hexit : ∀ p, Exited text c p → Exited text c' p := fun p hp => exited_step hs hp
  have hcons : ConsumerExited text c → ConsumerExited text c' := consumerExited_step hs
  cases step_cases hs with
  | producer _ | consumer _ =>
      exact ⟨fun k hk p hp => hexit p (h.joining k hk p hp), fun hd p => hexit p (h.done hd p),
        h.stored, fun pc hpc => hcons (h.consumer pc hpc)⟩
  | @joinProducer p hm hp =>
      refine ⟨?_, fun hd q => hexit q (h.done hd q), Or.inl ⟨_, rfl⟩, nofun⟩
      intro k hk q hq
      cases hk
      rcases Nat.lt_succ_iff_lt_or_eq.mp hq with hlt | heq
      · exact hexit q (h.joining _ hm q hlt)
      · rw [Fin.eq_of_val_eq heq]
        exact hexit p hp
  | @storeDone k hm hk =>
      refine ⟨nofun, ?_, Or.inr rfl, nofun⟩
      intro _ p
      exact hexit p (h.joining k hm p (Nat.lt_of_lt_of_le p.isLt hk))
  | joinConsumer hm hc =>
      refine ⟨nofun, fun hd p => hexit p (h.done hd p), ?_, fun _ _ => hcons hc⟩
      rcases h.stored with ⟨k, hk⟩ | hd
      · rw [hm] at hk
        cases hk
      · exact Or.inr hd
  | @check pc s' l' k hm _ =>
      refine ⟨nofun, fun hd p => hexit p (h.done hd p), ?_, fun _ _ => hcons (h.consumer pc hm)⟩
      rcases h.stored with ⟨k, hk⟩ | hd
      · rw [hm] at hk
        cases hk
      · exact Or.inr hd

/-- A benchmark about to start. -/
def init (inner : σ) (idle : ℓ) (producer : π) (consumer : γ) : Bench n σ ℓ π γ φ where
  inner := inner
  producersDone := false
  phase := fun _ => idle
  producer := fun _ => producer
  consumer := consumer
  main := .join 0

theorem joined_reachable {inner : σ} {idle : ℓ} {producer : π} {consumer : γ}
    {c : Bench n σ ℓ π γ φ}
    (h : Reachable (step P text) (init inner idle producer consumer) c) : Joined text c := by
  refine h.invariant (I := Joined text) ?_ (fun _ ih hs => joined_step ih hs)
  refine ⟨?_, nofun, Or.inl ⟨0, rfl⟩, nofun⟩
  intro k hk p hp
  cases hk
  exact absurd hp (Nat.not_lt_zero _)

/-- At the checks everybody has been joined. -/
theorem Joined.all {c : Bench n σ ℓ π γ φ} (h : Joined text c) {pc : φ}
    (hm : c.main = .check pc) : (∀ p, Exited text c p) ∧ ConsumerExited text c := by
  rcases h.stored with ⟨k, hk⟩ | hd
  · rw [hm] at hk
    cases hk
  · exact ⟨h.done hd, h.consumer pc hm⟩

/-! ## What the producers still have to do -/

/-- What the producers still have to do, by a measure of what each has. -/
def toDo (f : π → ℓ → Nat) (c : Bench n σ ℓ π γ φ) : Nat :=
  ∑ p, f (c.producer p) (c.phase (.producer p))

/-- A step of producer `p` changes the sum where it changes what `p` has to do. -/
theorem toDo_producer {f : π → ℓ → Nat} {c : Bench n σ ℓ π γ φ} {p : Fin n} {s' : σ} {l' : ℓ}
    {k : π} :
    toDo f { c with
        inner := s'
        phase := Function.update c.phase (.producer p) l'
        producer := Function.update c.producer p k }
      + f (c.producer p) (c.phase (.producer p)) = toDo f c + f k l' := by
  unfold toDo
  have hnew := Finset.add_sum_erase Finset.univ (fun q => f (Function.update c.producer p k q)
    (Function.update c.phase (.producer p) l' (.producer q))) (Finset.mem_univ p)
  have hold := Finset.add_sum_erase Finset.univ
    (fun q => f (c.producer q) (c.phase (.producer q))) (Finset.mem_univ p)
  have hrest : ∑ q ∈ Finset.univ.erase p, f (Function.update c.producer p k q)
      (Function.update c.phase (.producer p) l' (.producer q))
        = ∑ q ∈ Finset.univ.erase p, f (c.producer q) (c.phase (.producer q)) := by
    refine Finset.sum_congr rfl fun q hq => ?_
    have hne := Finset.ne_of_mem_erase hq
    rw [Function.update_of_ne hne, Function.update_of_ne fun he => hne (Tid.producer.inj he)]
  simp only [Function.update_self] at hnew
  dsimp only
  omega

/-- A step of anybody else does not. -/
theorem toDo_other {f : π → ℓ → Nat} {c : Bench n σ ℓ π γ φ} {s' : σ} {done : Bool} {t : Tid n}
    {l' : ℓ} {consumer : γ} {main : MainPoint φ} (ht : ∀ p, Tid.producer p ≠ t) :
    toDo f ⟨s', done, Function.update c.phase t l', c.producer, consumer, main⟩ = toDo f c := by
  unfold toDo
  refine Finset.sum_congr rfl fun p _ => ?_
  dsimp only
  rw [Function.update_of_ne (ht p)]

theorem toDo_init {f : π → ℓ → Nat} {inner : σ} {idle : ℓ} {producer : π} {consumer : γ} :
    toDo f (init inner idle producer consumer : Bench n σ ℓ π γ φ) = n * f producer idle := by
  show ∑ _p : Fin n, f producer idle = _
  rw [Finset.sum_const, Finset.card_univ, Fintype.card_fin, smul_eq_mul]

/-- When every producer is over, the sum is what is left of each. -/
theorem toDo_exited {f : π → ℓ → Nat} {c : Bench n σ ℓ π γ φ}
    (h : ∀ p, f (c.producer p) (c.phase (.producer p)) = 0) : toDo f c = 0 :=
  Finset.sum_eq_zero fun p _ => h p

end Bench

end Hopter
