import Hopter.Lib.Lasso
import Hopter.SoftLock.DrainLoop
import Hopter.SoftLock.Ledger
import Hopter.SoftLock.Preempt

/-!
# Accesses keep ending

The drain loop has two places where a guard can go around: the loop itself, and the
spin for `locked` inside it. No single guard is promised to get out, as others may
overtake it forever. But together they do: if the scheduler forgets no thread and
the content's own code ends, an endless run ends an access again and again.

The proof looks at a run that has got `Stuck`, in which accesses are in progress and
none of them ends any more. Nobody raises the flag there, so the first swap would
bring it down for good, and the next load would be an end; so nobody swaps, hence
nobody takes `locked`, hence the spin for it succeeds.
-/

namespace Hopter

open Conc AllowPendOp

variable {T : Type} [AllowPendOp T]

namespace Phase

/-- In the content's own code: a closure, or `run_pended_op`. -/
def InContent : Phase T → Prop
  | .full _ | .pend _ | .dropRun _ => True
  | _ => False

def isFull : Phase T → Bool
  | .full _ => true
  | _ => false

def isPend : Phase T → Bool
  | .pend _ => true
  | _ => false

def isDropRun : Phase T → Bool
  | .dropRun _ => true
  | _ => false

theorem isFull.inContent (p : Phase T) (h : p.isFull = true) : p.InContent := by
  cases p <;> trivial

theorem isPend.inContent (p : Phase T) (h : p.isPend = true) : p.InContent := by
  cases p <;> trivial

theorem isDropRun.inContent (p : Phase T) (h : p.isDropRun = true) : p.InContent := by
  cases p <;> trivial

end Phase

/-! ## Where content code leads when it ends -/

theorem AccessStep.leaves_full {s s' : SoftLock T} {p p' : Phase T} (h : AccessStep s p s' p')
    (hin : p.isFull = true) (hout : p'.isFull = false) : p' = .dropSwap := by
  cases h <;> simp_all [Phase.isFull]

theorem AccessStep.leaves_pend {s s' : SoftLock T} {p p' : Phase T} (h : AccessStep s p s' p')
    (hin : p.isPend = true) (hout : p'.isPend = false) : ∃ a, p' = .dropPend a := by
  cases h <;> simp_all [Phase.isPend]

theorem AccessStep.leaves_dropRun {s s' : SoftLock T} {p p' : Phase T}
    (h : AccessStep s p s' p') (hin : p.isDropRun = true) (hout : p'.isDropRun = false) :
    p' = .dropStore := by
  cases h <;> simp_all [Phase.isDropRun]

theorem AccessStep.from_dropPend {s s' : SoftLock T} {p' : Phase T} {a : PendOnlyAccessor T}
    (h : AccessStep s (.dropPend a) s' p') : p' = .idle := by
  cases h
  rfl

theorem AccessStep.from_idle {s s' : SoftLock T} {p' : Phase T}
    (h : AccessStep s .idle s' p') : p' ≠ .idle := by
  cases h <;> nofun

theorem AccessStep.from_dropSwap {s s' : SoftLock T} {p' : Phase T}
    (h : AccessStep s .dropSwap s' p') :
    s'.pending = false ∧ (p' = .dropRun AllowPendOp.runPendedOp ∨ p' = .dropStore) := by
  cases h with
  | swapTrue _ => exact ⟨rfl, Or.inl rfl⟩
  | swapFalse _ => exact ⟨rfl, Or.inr rfl⟩

theorem AccessStep.from_dropStore {s s' : SoftLock T} {p' : Phase T}
    (h : AccessStep s .dropStore s' p') : s'.locked = false ∧ p' = .dropLoad := by
  cases h
  exact ⟨rfl, rfl⟩

theorem AccessStep.from_dropLoad {s s' : SoftLock T} {p' : Phase T}
    (h : AccessStep s .dropLoad s' p') :
    s.pending = true ∧ p' = .dropCas ∨ s.pending = false ∧ p' = .idle := by
  cases h with
  | loadTrue hp => exact Or.inl ⟨hp, rfl⟩
  | loadFalse hp => exact Or.inr ⟨hp, rfl⟩

theorem AccessStep.from_dropCas {s s' : SoftLock T} {p' : Phase T}
    (h : AccessStep s .dropCas s' p') (hfree : s.locked = false) : p' = .dropSwap := by
  cases h with
  | casOk _ => rfl
  | casFail hl =>
      rw [hfree] at hl
      cases hl

/-- Only a `compare_exchange` takes the lock: the guard's first one, or the one in `drop`. -/
theorem AccessStep.locks {s s' : SoftLock T} {p p' : Phase T} (h : AccessStep s p s' p')
    (hfree : s.locked = false) (hl : s'.locked = true) : p = .idle ∨ p' = .dropSwap := by
  cases h <;> simp_all

section

variable {ι : Type}

/-- Inside an access. -/
abbrev Inside (p : Phase T) : Prop := p ≠ .idle

/-- The content's own code does not go on forever. -/
def ContentEnds (cs : ℕ → Config (SoftLock T) ι (Phase T)) : Prop :=
  ∀ n i, ((cs n).thread i).InContent → ∃ m, n ≤ m ∧ ¬ ((cs m).thread i).InContent

/-- The `n`-th step is the last one of an access. -/
def EndsAccess (cs : ℕ → Config (SoftLock T) ι (Phase T)) (es : ℕ → ι × Act T) (n : ℕ) : Prop :=
  (cs n).thread (es n).1 ≠ .idle ∧ (cs (n + 1)).thread (es n).1 = .idle

variable [DecidableEq ι]

/-- A run in which no thread inside an access is forgotten. -/
structure FairRun (cs : ℕ → Config (SoftLock T) ι (Phase T)) (es : ℕ → ι × Act T) : Prop where
  endless : Endless SoftLock.step cs es
  fair : Fair Inside cs es

/-- In which, moreover, content code ends. -/
structure EndingRun (cs : ℕ → Config (SoftLock T) ι (Phase T)) (es : ℕ → ι × Act T) : Prop
    extends FairRun cs es where
  content : ContentEnds cs

namespace FairRun

variable {cs : ℕ → Config (SoftLock T) ι (Phase T)} {es : ℕ → ι × Act T}

/-- The step `n` of a thread in phase `p`. -/
theorem stepAt (h : FairRun cs es) {n : ℕ} {i : ι} (he : (es n).1 = i) :
    AccessStep (cs n).shared ((cs n).thread i) (cs (n + 1)).shared ((cs (n + 1)).thread i) := by
  subst he
  exact SoftLock.withAccess_cases (Config.local_of_step (h.endless n))

/-- A step that ends no access leaves nobody outside who was inside. -/
theorem idle_of_succ (h : FairRun cs es) {n : ℕ} (hnot : ¬ EndsAccess cs es n) {i : ι}
    (hi : (cs (n + 1)).thread i = .idle) : (cs n).thread i = .idle := by
  by_contra hin
  by_cases he : (es n).1 = i
  · subst he
    exact hnot ⟨hin, hi⟩
  · rw [Config.thread_of_step (h.endless n) fun heq => he heq.symm] at hi
    exact hin hi

/-- A step from outside starts an access. -/
theorem starts (h : FairRun cs es) {n : ℕ} (hn : (cs n).thread (es n).1 = .idle) :
    (cs (n + 1)).thread (es n).1 ≠ .idle := by
  have hstep := h.stepAt (n := n) rfl
  rw [hn] at hstep
  exact hstep.from_idle

/-- A thread inside takes the step that is waiting for it. -/
theorem next (h : FairRun cs es) {n : ℕ} {i : ι} {p : Phase T} (hp : (cs n).thread i = p)
    (hin : p ≠ .idle) :
    ∃ m, n ≤ m ∧ (es m).1 = i ∧ (cs m).thread i = p
      ∧ AccessStep (cs m).shared p (cs (m + 1)).shared ((cs (m + 1)).thread i)
      ∧ ∀ k, n ≤ k → k < m → (es k).1 ≠ i := by
  have hactive : Inside ((cs n).thread i) := by
    rw [hp]
    exact hin
  obtain ⟨m, hm, he, hsame, hothers⟩ := h.fair.next h.endless hactive
  have hstep := h.stepAt he
  rw [hsame, hp] at hstep
  exact ⟨m, hm, he, hsame.trans hp, hstep, hothers⟩

end FairRun

namespace EndingRun

variable {cs : ℕ → Config (SoftLock T) ι (Phase T)} {es : ℕ → ι × Act T}

theorem shift (h : EndingRun cs es) (k : ℕ) :
    EndingRun (fun n => cs (k + n)) (fun n => es (k + n)) where
  endless := h.endless.shift k
  fair := h.fair.shift k
  content := by
    intro n i hi
    obtain ⟨m, hm, hout⟩ := h.content (k + n) i hi
    refine ⟨m - k, by omega, ?_⟩
    show ¬ ((cs (k + (m - k))).thread i).InContent
    rwa [Nat.add_sub_cancel' (by omega)]

/-- The step with which a thread leaves content code of one kind. -/
theorem leaves (h : EndingRun cs es) {kind : Phase T → Bool} {n : ℕ} {i : ι}
    (hkind : ∀ p, kind p = true → p.InContent) (hn : kind ((cs n).thread i) = true) :
    ∃ m, n ≤ m ∧ (es m).1 = i ∧ kind ((cs m).thread i) = true
      ∧ kind ((cs (m + 1)).thread i) = false := by
  obtain ⟨m, hm, hout⟩ := h.content n i (hkind _ hn)
  obtain ⟨k, hk, he, hin, hnot⟩ := h.endless.leaves (Q := fun p => kind p = true) hm hn
    fun hm => hout (hkind _ hm)
  exact ⟨k, hk, he, hin, by simpa using hnot⟩

/-- A Full closure ends before the swap of its guard. -/
theorem full_ends (h : EndingRun cs es) {n : ℕ} {i : ι} {a : FullAccessor T}
    (hn : (cs n).thread i = .full a) : ∃ m, n ≤ m ∧ (cs m).thread i = .dropSwap := by
  obtain ⟨m, hm, he, hin, hout⟩ := h.leaves (i := i) Phase.isFull.inContent (by rw [hn]; rfl)
  exact ⟨m + 1, by omega, (h.stepAt he).leaves_full hin hout⟩

theorem pend_ends (h : EndingRun cs es) {n : ℕ} {i : ι} {a : PendOnlyAccessor T}
    (hn : (cs n).thread i = .pend a) : ∃ m b, n ≤ m ∧ (cs m).thread i = .dropPend b := by
  obtain ⟨m, hm, he, hin, hout⟩ := h.leaves (i := i) Phase.isPend.inContent (by rw [hn]; rfl)
  obtain ⟨b, hb⟩ := (h.stepAt he).leaves_pend hin hout
  exact ⟨m + 1, b, by omega, hb⟩

theorem dropRun_ends (h : EndingRun cs es) {n : ℕ} {i : ι} {r : AllowPendOp.RunPendedOp T}
    (hn : (cs n).thread i = .dropRun r) : ∃ m, n ≤ m ∧ (cs m).thread i = .dropStore := by
  obtain ⟨m, hm, he, hin, hout⟩ := h.leaves (i := i) Phase.isDropRun.inContent (by rw [hn]; rfl)
  exact ⟨m + 1, by omega, (h.stepAt he).leaves_dropRun hin hout⟩

/-- A guard without the lock waits for nobody. -/
theorem pendOnly_ends (h : EndingRun cs es) {n : ℕ} {i : ι} (hn : ((cs n).thread i).PendOnly) :
    ∃ m, n ≤ m ∧ (es m).1 = i ∧ EndsAccess cs es m := by
  suffices hdrop : ∃ k b, n ≤ k ∧ (cs k).thread i = .dropPend b by
    obtain ⟨k, b, hk, hb⟩ := hdrop
    obtain ⟨m, hm, he, hsame, hstep, -⟩ := h.next hb nofun
    refine ⟨m, hk.trans hm, he, ?_⟩
    unfold EndsAccess
    rw [he, hsame]
    exact ⟨nofun, hstep.from_dropPend⟩
  generalize hp : (cs n).thread i = p at hn
  cases p with
  | pend a =>
      obtain ⟨k, b, hk, hb⟩ := h.pend_ends hp
      exact ⟨k, b, hk, hb⟩
  | dropPend b => exact ⟨n, b, Nat.le_refl n, hp⟩
  | _ => exact hn.elim

end EndingRun

/-! ## A run that has got stuck -/

/-- No access starts any more, and none ends. -/
structure Stuck (cs : ℕ → Config (SoftLock T) ι (Phase T)) (es : ℕ → ι × Act T) : Prop
    extends EndingRun cs es where
  exclusive : ∀ n, (cs n).shared.locked = true ↔ ∃ i, ((cs n).thread i).Holding
  no_start : ∀ n, (cs n).thread (es n).1 ≠ .idle
  no_end : ∀ n, ¬ EndsAccess cs es n

namespace Stuck

variable {cs : ℕ → Config (SoftLock T) ι (Phase T)} {es : ℕ → ι × Act T}

theorem not_pendOnly (h : Stuck cs es) (n : ℕ) (i : ι) : ¬ ((cs n).thread i).PendOnly := by
  intro hp
  obtain ⟨m, -, -, hend⟩ := h.toEndingRun.pendOnly_ends hp
  exact h.no_end m hend

/-- Whoever moves stays inside. -/
theorem stays (h : Stuck cs es) {n : ℕ} {i : ι} (he : (es n).1 = i) :
    (cs (n + 1)).thread i ≠ .idle := by
  subst he
  exact fun hidle => h.no_end n ⟨h.no_start n, hidle⟩

/-- The flag is never raised. -/
theorem pending_down (h : Stuck cs es) {n m : ℕ} (hnm : n ≤ m)
    (hn : (cs n).shared.pending = false) : (cs m).shared.pending = false := by
  induction m, hnm using Nat.le_induction with
  | base => exact hn
  | succ m _ ih =>
      by_contra hup
      rcases pending_of_step (h.stepAt (n := m) rfl) (by simpa using hup) with hold | hdrop
      · rw [ih] at hold
        cases hold
      · refine h.not_pendOnly m (es m).1 ?_
        generalize (cs m).thread (es m).1 = p at hdrop
        cases p <;> trivial

/-- The owner lets go of the lock. -/
theorem lets_go (h : Stuck cs es) {n : ℕ} {i : ι} (hn : ((cs n).thread i).Holding) :
    ∃ m, n ≤ m ∧ (cs m).thread i = .dropLoad ∧ (cs m).shared.locked = false := by
  have hstore : ∀ k, (cs k).thread i = .dropStore →
      ∃ m, k ≤ m ∧ (cs m).thread i = .dropLoad ∧ (cs m).shared.locked = false := by
    intro k hk
    obtain ⟨m, hm, he, -, hstep, -⟩ := h.next hk nofun
    obtain ⟨hfree, hload⟩ := hstep.from_dropStore
    exact ⟨m + 1, by omega, hload, hfree⟩
  have hrun : ∀ k r, (cs k).thread i = .dropRun r →
      ∃ m, k ≤ m ∧ (cs m).thread i = .dropLoad ∧ (cs m).shared.locked = false := by
    intro k r hk
    obtain ⟨l, hl, hl'⟩ := h.dropRun_ends hk
    obtain ⟨m, hm, hgo⟩ := hstore l hl'
    exact ⟨m, hl.trans hm, hgo⟩
  have hswap : ∀ k, (cs k).thread i = .dropSwap →
      ∃ m, k ≤ m ∧ (cs m).thread i = .dropLoad ∧ (cs m).shared.locked = false := by
    intro k hk
    obtain ⟨l, hl, -, -, hstep, -⟩ := h.next hk nofun
    rcases hstep.from_dropSwap.2 with hr | hs
    · obtain ⟨m, hm, hgo⟩ := hrun (l + 1) _ hr
      exact ⟨m, by omega, hgo⟩
    · obtain ⟨m, hm, hgo⟩ := hstore (l + 1) hs
      exact ⟨m, by omega, hgo⟩
  generalize hp : (cs n).thread i = p at hn
  cases p with
  | full a =>
      obtain ⟨l, hl, hl'⟩ := h.full_ends hp
      obtain ⟨m, hm, hgo⟩ := hswap l hl'
      exact ⟨m, hl.trans hm, hgo⟩
  | dropSwap => exact hswap n hp
  | dropRun r => exact hrun n r hp
  | dropStore => exact hstore n hp
  | idle | pend _ | dropLoad | dropCas | dropPend _ => exact hn.elim

/-- With the lock free, whoever moves is between its `store` and its next `compare_exchange`. -/
theorem in_gap (h : Stuck cs es) {n : ℕ} (hfree : (cs n).shared.locked = false) :
    ((cs n).thread (es n).1).Gap := by
  have hnobody : ¬ ((cs n).thread (es n).1).Holding := by
    intro hh
    rw [(h.exclusive n).mpr ⟨_, hh⟩] at hfree
    cases hfree
  have hinside := h.no_start n
  have hpend := h.not_pendOnly n (es n).1
  generalize (cs n).thread (es n).1 = p at *
  cases p with
  | idle => exact absurd rfl hinside
  | dropLoad | dropCas => trivial
  | pend _ | dropPend _ => exact absurd trivial hpend
  | full _ | dropSwap | dropRun _ | dropStore => exact absurd trivial hnobody

/-- The flag is up all the time: a load that finds it down ends an access. -/
theorem pending_up (h : Stuck cs es) (n : ℕ) : (cs n).shared.pending = true := by
  by_contra hdown
  replace hdown : (cs n).shared.pending = false := by simpa using hdown
  have hload : ∀ m i, n ≤ m → (cs m).thread i ≠ .dropLoad := by
    intro m i hm hi
    obtain ⟨k, hk, he, -, hstep, -⟩ := h.next hi nofun
    rcases hstep.from_dropLoad with ⟨hup, -⟩ | ⟨-, hidle⟩
    · rw [h.pending_down (hm.trans hk) hdown] at hup
      cases hup
    · exact h.stays he hidle
  have hnobody : ∀ m i, n ≤ m → ¬ ((cs m).thread i).Holding := by
    intro m i hm hi
    obtain ⟨k, hk, hki, -⟩ := h.lets_go hi
    exact hload k i (hm.trans hk) hki
  have hfree : (cs n).shared.locked = false := by
    rw [← Bool.not_eq_true, h.exclusive n]
    rintro ⟨i, hi⟩
    exact hnobody n i (Nat.le_refl n) hi
  have hgap := h.in_gap hfree
  have hstep := h.stepAt (n := n) rfl
  generalize hp : (cs n).thread (es n).1 = p at *
  cases p with
  | dropLoad => exact hload n _ (Nat.le_refl n) hp
  | dropCas =>
      refine hnobody (n + 1) (es n).1 (Nat.le_succ n) ?_
      rw [hstep.from_dropCas hfree]
      trivial
  | _ => exact hgap.elim

/-- Nobody swaps, as that would bring the flag down. -/
theorem no_swap (h : Stuck cs es) (n : ℕ) (i : ι) : (cs n).thread i ≠ .dropSwap := by
  intro hn
  obtain ⟨m, -, -, -, hstep, -⟩ := h.next hn nofun
  have hdown := hstep.from_dropSwap.1
  rw [h.pending_up (m + 1)] at hdown
  cases hdown

/-- From some moment on the lock is free. -/
theorem lock_free (h : Stuck cs es) : ∃ n, ∀ m, n ≤ m → (cs m).shared.locked = false := by
  have hstart : ∃ n, (cs n).shared.locked = false := by
    by_cases hl : (cs 0).shared.locked = true
    · obtain ⟨i, hi⟩ := (h.exclusive 0).mp hl
      obtain ⟨m, -, -, hfree⟩ := h.lets_go hi
      exact ⟨m, hfree⟩
    · exact ⟨0, by simpa using hl⟩
  obtain ⟨n, hn⟩ := hstart
  refine ⟨n, fun m hm => ?_⟩
  induction m, hm using Nat.le_induction with
  | base => exact hn
  | succ m _ ih =>
      by_contra hl
      rcases (h.stepAt (n := m) rfl).locks ih (by simpa using hl) with hidle | hswap
      · exact h.no_start m hidle
      · exact h.no_swap (m + 1) _ hswap

/-- **No run gets stuck.** -/
theorem absurd (h : Stuck cs es) : False := by
  obtain ⟨n, hfree⟩ := h.lock_free
  have hcas : ∃ m, n ≤ m ∧ (cs m).thread (es n).1 = .dropCas := by
    have hgap := h.in_gap (hfree n (Nat.le_refl n))
    have hstep := h.stepAt (n := n) rfl
    generalize hp : (cs n).thread (es n).1 = p at *
    cases p with
    | dropCas => exact ⟨n, Nat.le_refl n, hp⟩
    | dropLoad =>
        rcases hstep.from_dropLoad with ⟨-, hcas⟩ | ⟨hdown, -⟩
        · exact ⟨n + 1, Nat.le_succ n, hcas⟩
        · rw [h.pending_up n] at hdown
          cases hdown
    | _ => exact hgap.elim
  obtain ⟨m, hm, hi⟩ := hcas
  obtain ⟨k, hk, -, -, hstep, -⟩ := h.next hi nofun
  exact h.no_swap (k + 1) _ (hstep.from_dropCas (hfree k (hm.trans hk)))

end Stuck

/-- However the guards with the lock hand it to each other, some access ends. -/
theorem EndingRun.access_ends [Finite ι] {content : T} {cs : ℕ → Config (SoftLock T) ι (Phase T)}
    {es : ℕ → ι × Act T} (h : EndingRun cs es) (hstart : cs 0 = fresh content) (n : ℕ) :
    ∃ m, n ≤ m ∧ EndsAccess cs es m := by
  by_contra hnone
  replace hnone : ∀ m, n ≤ m → ¬ EndsAccess cs es m := fun m hm hend => hnone ⟨m, hm, hend⟩
  -- the threads outside get fewer, until nobody starts an access any more
  obtain ⟨N, hN⟩ := settles (fun k => {i | (cs (n + k)).thread i = .idle})
    fun k i hi => h.idle_of_succ (hnone _ (by omega)) hi
  suffices hstuck : Stuck (fun k => cs (n + N + k)) (fun k => es (n + N + k)) from hstuck.absurd
  refine ⟨h.shift (n + N), fun k => ?_, fun k => ?_, fun k => hnone _ (by omega)⟩
  · have hreach := h.endless.reachable (n + N + k)
    rw [hstart] at hreach
    exact owned_locked_iff (softLock_owned contentInv_true trivial hreach)
  · intro hidle
    simp only [Nat.add_assoc] at hidle
    have hsame := (hN (N + k + 1) (by omega)).trans (hN (N + k) (by omega)).symm
    exact h.starts hidle ((Set.ext_iff.mp hsame _).mpr hidle)

/--
**Accesses keep ending.**

Take any run of any finite number of threads that goes on forever, in which no thread inside an
access is forgotten and content code ends. A guard without the lock always gets out, waiting
for nobody; and however the guards with the lock hand it to each other, some access ends again
and again.
-/
theorem accesses_keep_ending [Finite ι] {content : T}
    {cs : ℕ → Config (SoftLock T) ι (Phase T)} {es : ℕ → ι × Act T}
    (hstart : cs 0 = fresh content) (hrun : Endless SoftLock.step cs es)
    (hfair : Fair Inside cs es) (hcontent : ContentEnds cs) :
    (∀ n i, ((cs n).thread i).PendOnly → ∃ m, n ≤ m ∧ (es m).1 = i ∧ EndsAccess cs es m)
      ∧ ∀ n, ∃ m, n ≤ m ∧ EndsAccess cs es m := by
  have h : EndingRun cs es := ⟨⟨hrun, hfair⟩, hcontent⟩
  exact ⟨fun n i => h.pendOnly_ends, h.access_ends hstart⟩

end

/-- Thread 0 has the lock, thread 1 is turned away, pends a submission and raises the flag, and the
`drop` of thread 0 drains it. -/
def contendedRound : List (Fin 2 × DemoAct) :=
  [(0, .step), (1, .step), (1, .pend .pendSubmit), (1, .exit false), (1, .step), (0, .exit false)]
    ++ List.replicate 10 (0, .step)

/-- The content after `k` such rounds. -/
def contended (k : ℕ) : DemoInner :=
  { DemoInner.new with
    queue := { items := List.range' 1 k, held := false }
    nextId := 1 + k
    drainedItems := k
    drainedBatches := k
    hist := { directs := 0, pends := k, drained := k, popped := [] } }

/-- Nothing else is left of a round. -/
theorem contended_round (k : ℕ) :
    exec SoftLock.step (fresh (contended k)) contendedRound = some (fresh (contended (k + 1))) := by
  have hshared : (exec SoftLock.step (fresh (contended k)) contendedRound).map (·.shared)
      = some (SoftLock.new { contended (k + 1) with
          queue := { items := List.range' 1 k ++ [1 + k], held := false } }) := rfl
  have hidle : (exec SoftLock.step (fresh (contended k)) contendedRound).map
      (fun c => (c.thread 0, c.thread 1)) = some (.idle, .idle) := rfl
  have hitems : List.range' 1 (k + 1) = List.range' 1 k ++ [1 + k] := List.range'_1_concat
  rw [← hitems] at hshared
  obtain ⟨⟨shared, thread⟩, hrun, heq⟩ := Option.map_eq_some_iff.mp hshared
  rw [hrun, Option.map_some, Option.some.injEq, Prod.mk.injEq] at hidle
  have hthread : thread = fun _ => .idle := by
    funext i
    rcases Fin.exists_fin_two.mp ⟨i, rfl⟩ with rfl | rfl
    · exact hidle.1
    · exact hidle.2
  cases heq
  cases hthread
  exact hrun

/-- Round after round. -/
def contendedConfig : ℕ → Config (SoftLock DemoInner) (Fin 2) DemoPhase :=
  rounds SoftLock.step (fun k => fresh (contended k)) contendedRound

def contendedAct : ℕ → Fin 2 × DemoAct := turn (0, .step) contendedRound

theorem contended_at {k j : ℕ} (hj : j < 16) : contendedConfig (16 * k + j)
    = (exec SoftLock.step (fresh (contended k)) (contendedRound.take j)).getD
        (fresh (contended 0)) :=
  rounds_at contendedRound hj

theorem contended_endless : Endless SoftLock.step contendedConfig contendedAct :=
  rounds_endless contendedRound (Nat.zero_lt_succ 15) contended_round

/-- Both threads have their turn in each round. -/
theorem contended_fair : Fair Inside contendedConfig contendedAct := by
  intro n i _
  rcases Fin.exists_fin_two.mp ⟨i, rfl⟩ with rfl | rfl
  · exact ⟨16 * n + 0, by omega, congrArg Prod.fst (turn_at contendedRound (by decide))⟩
  · exact ⟨16 * n + 1, by omega, congrArg Prod.fst (turn_at contendedRound (by decide))⟩

/-- Both are outside when a round begins. -/
theorem contended_idle (k : ℕ) (i : Fin 2) : (contendedConfig (16 * k)).thread i = .idle :=
  congrArg (fun c => Config.thread c i)
    (rounds_start (s := fun k => fresh (contended k)) contendedRound (by decide) k)

/-- The guard without the lock gets out in each round, and so does somebody again and again. -/
theorem accesses_keep_ending_contended :
    Endless SoftLock.step contendedConfig contendedAct
      ∧ (∀ k, ((contendedConfig (16 * k + 3)).thread 1).PendOnly
        ∧ ∃ m, 16 * k + 3 ≤ m ∧ (contendedAct m).1 = 1 ∧ EndsAccess contendedConfig contendedAct m)
      ∧ ∀ n, ∃ m, n ≤ m ∧ EndsAccess contendedConfig contendedAct m := by
  have hcontent : ContentEnds contendedConfig := fun n i _ =>
    ⟨16 * n, by omega, by rw [contended_idle]; exact id⟩
  have hstart : contendedConfig 0 = fresh DemoInner.new := rfl
  obtain ⟨hpend, hends⟩ := accesses_keep_ending hstart contended_endless contended_fair hcontent
  have hrefused : ∀ k, ((contendedConfig (16 * k + 3)).thread 1).PendOnly := by
    intro k
    rw [contended_at (by decide)]
    trivial
  exact ⟨contended_endless, fun k => ⟨hrefused k, hpend _ 1 (hrefused k)⟩, hends⟩

/-! ## The demo's `run_pended_op` -/

namespace RunPended

/-- The steps that are left behind the swap: two for each submission to push, and those around
them. -/
def left : RunPended → ℕ
  | .swap => 0
  | .batches n => 2 * n + 4
  | .items n => 2 * n + 3
  | .lock n => 2 * n + 2
  | .loop k => 2 * k + 1
  | .push k _ => 2 * k + 2

end RunPended

/-- Each step of a drain that need not wait for the queue brings it closer to its end. -/
theorem runPendedOp_left {d d' : DemoInner} {r r' : RunPended}
    (h : InnerFullAccessor.runPendedOp d r = (d', some r'))
    (hqueue : r.locksQueue = true → d.queue.held = false) :
    r' ≠ .swap ∧ (r ≠ .swap → r'.left + 1 = r.left) := by
  cases r with
  | swap =>
      simp only [InnerFullAccessor.runPendedOp, Prod.mk.injEq] at h
      split at h
      · cases h.2
      · obtain ⟨-, h⟩ := h
        cases h
        exact ⟨by simp, fun hne => absurd rfl hne⟩
  | lock n =>
      simp only [InnerFullAccessor.runPendedOp, hqueue rfl, Bool.false_eq_true, if_false] at h
      cases h
      exact ⟨by simp, fun _ => rfl⟩
  | loop k =>
      cases k with
      | zero => cases h
      | succ k =>
          cases h
          exact ⟨by simp, fun _ => rfl⟩
  | batches n | items n | push k id =>
      cases h
      exact ⟨by simp, fun _ => rfl⟩

/-- Its last step. -/
theorem runPendedOp_last {d d' : DemoInner} {r : RunPended}
    (h : InnerFullAccessor.runPendedOp d r = (d', none)) (hr : r ≠ .swap) : r.left = 1 := by
  cases r with
  | swap => exact absurd rfl hr
  | loop k =>
      cases k with
      | zero => rfl
      | succ k => cases h
  | lock n =>
      simp only [InnerFullAccessor.runPendedOp] at h
      split at h <;> cases h
  | batches n | items n | push k id => cases h

section

variable {ι : Type} [DecidableEq ι]

/-- Nobody waits for the queue mutex. -/
theorem queue_free {c : Config (SoftLock DemoInner) ι DemoPhase}
    (h : Reachable SoftLock.step (fresh DemoInner.new) c) {i : ι}
    (hlocks : (c.thread i).locksQueue = true) : c.shared.content.queue.held = false := by
  obtain ⟨hhold, hhand⟩ := locksQueue_free hlocks
  have hled := (owned_some (demo_owned h) hhold).2
  rw [← hhand]
  exact hled.2.held

/-- `with_access`, with `queue.lock()` no step while somebody has the mutex. -/
def SoftLock.withAccessLocking : Proc (SoftLock DemoInner) DemoPhase DemoAct := fun s p act =>
  if p.locksQueue && s.content.queue.held then none else SoftLock.withAccess s p act

/-- **It makes no difference how a wait for the queue mutex is modelled**: there is none. The
threads have the same runs where it is no step as where it is a step that changes nothing. -/
theorem exec_locking (es : List (ι × DemoAct)) :
    exec (Config.step SoftLock.withAccessLocking) (fresh DemoInner.new) es
      = exec SoftLock.step (fresh DemoInner.new) es := by
  have hstep : ∀ {c : Config (SoftLock DemoInner) ι DemoPhase},
      Reachable SoftLock.step (fresh DemoInner.new) c → ∀ e,
        Config.step SoftLock.withAccessLocking c e = SoftLock.step c e := by
    intro c h e
    have hgo : ((c.thread e.1).locksQueue && c.shared.content.queue.held) = false := by
      cases hlocks : (c.thread e.1).locksQueue with
      | false => rfl
      | true => rw [queue_free h hlocks, Bool.and_false]
    have hsame : SoftLock.withAccessLocking c.shared (c.thread e.1) e.2
        = SoftLock.withAccess c.shared (c.thread e.1) e.2 := by
      unfold SoftLock.withAccessLocking
      rw [hgo]
      rfl
    unfold Config.step
    rw [hsame]
    rfl
  suffices hfrom : ∀ {c : Config (SoftLock DemoInner) ι DemoPhase},
      Reachable SoftLock.step (fresh DemoInner.new) c →
        exec (Config.step SoftLock.withAccessLocking) c es = exec SoftLock.step c es from
    hfrom .init
  intro c h
  induction es generalizing c with
  | nil => rfl
  | cons e es ih =>
      rw [exec_cons, exec_cons, hstep h e]
      refine Option.bind_congr fun c' hs => ?_
      exact ih (h.tail hs)

variable {cs : ℕ → Config (SoftLock DemoInner) ι DemoPhase} {es : ℕ → ι × DemoAct}

/-- How many of the first `n` steps are the thread's. -/
def turns (cs : ℕ → Config (SoftLock DemoInner) ι DemoPhase) (es : ℕ → ι × DemoAct) (i : ι)
    (n : ℕ) : ℕ :=
  Endless.count cs es (fun _ e => decide (e.1 = i)) n

/-- The next step of a drain ends it, or brings it closer to its end. -/
theorem FairRun.drain_step (h : FairRun cs es) (hstart : cs 0 = fresh DemoInner.new) {n : ℕ} {i : ι}
    {r : RunPended} (hn : (cs n).thread i = .dropRun r) :
    ∃ m, n ≤ m ∧ turns cs es i m = turns cs es i n + 1
      ∧ ((cs m).thread i = .dropStore ∧ (r ≠ .swap → r.left = 1)
        ∨ ∃ r' : RunPended, (cs m).thread i = .dropRun r'
          ∧ r' ≠ .swap ∧ (r ≠ .swap → r'.left + 1 = r.left)) := by
  obtain ⟨m, hm, he, hsame, hstep, hothers⟩ := h.next hn nofun
  have hreach := h.endless.reachable m
  rw [hstart] at hreach
  have hqueue : r.locksQueue = true → (cs m).shared.content.queue.held = false := by
    intro hlocks
    refine queue_free hreach (i := i) ?_
    rw [hsame]
    exact hlocks
  have hwaits : turns cs es i m = turns cs es i n :=
    Endless.count_eq_of_none hm fun k hk hkm => decide_eq_false (hothers k hk hkm)
  have hturns : turns cs es i (m + 1) = turns cs es i n + 1 := by
    rw [← hwaits]
    unfold turns
    rw [Endless.count_succ, decide_eq_true he]
    rfl
  refine ⟨m + 1, by omega, hturns, ?_⟩
  generalize (cs (m + 1)).thread i = p', (cs (m + 1)).shared = s' at hstep ⊢
  generalize (cs m).shared = s at hstep hqueue
  cases hstep with
  | runEnd hr => exact Or.inl ⟨rfl, runPendedOp_last hr⟩
  | run hr => exact Or.inr ⟨_, rfl, runPendedOp_left hr hqueue⟩

theorem FairRun.drain_ends (h : FairRun cs es) (hstart : cs 0 = fresh DemoInner.new) {n : ℕ}
    {i : ι} {r : RunPended} (hn : (cs n).thread i = .dropRun r) :
    ∃ m, n ≤ m ∧ (cs m).thread i = .dropStore
      ∧ (r ≠ .swap → turns cs es i m = turns cs es i n + r.left) := by
  -- behind the swap, by induction on what is left
  have hbehind : ∀ k n (r : RunPended), r.left = k → r ≠ .swap → (cs n).thread i = .dropRun r →
      ∃ m, n ≤ m ∧ (cs m).thread i = .dropStore
        ∧ turns cs es i m = turns cs es i n + r.left := by
    intro k
    induction k using Nat.strong_induction_on with
    | _ k ih =>
        intro n r hk hswap hn
        obtain ⟨m, hm, hturns, ⟨hdone, hlast⟩ | ⟨r', hr', hswap', hleft⟩⟩ := h.drain_step hstart hn
        · exact ⟨m, hm, hdone, by rw [hturns, hlast hswap]⟩
        · have hleft := hleft hswap
          obtain ⟨l, hl, hdone, hrest⟩ := ih r'.left (by omega) m r' rfl hswap' hr'
          exact ⟨l, hm.trans hl, hdone, by omega⟩
  by_cases hswap : r = .swap
  · obtain ⟨m, hm, -, ⟨hdone, -⟩ | ⟨r', hr', hswap', -⟩⟩ := h.drain_step hstart hn
    · exact ⟨m, hm, hdone, fun hne => absurd hswap hne⟩
    · obtain ⟨l, hl, hdone, -⟩ := hbehind _ m r' rfl hswap' hr'
      exact ⟨l, hm.trans hl, hdone, fun hne => absurd hswap hne⟩
  · obtain ⟨m, hm, hdone, hturns⟩ := hbehind _ n r rfl hswap hn
    exact ⟨m, hm, hdone, fun _ => hturns⟩

/-- The swap takes the count. -/
theorem FairRun.drain_takes (h : FairRun cs es) {n : ℕ} {i : ι}
    (hn : (cs n).thread i = .dropRun RunPended.swap) (he : (es n).1 = i) :
    (cs n).shared.content.pendingSubmit = 0 ∧ (cs (n + 1)).thread i = .dropStore
      ∨ (cs (n + 1)).thread i
        = .dropRun (RunPended.batches (cs n).shared.content.pendingSubmit) := by
  have hstep := h.stepAt he
  rw [hn] at hstep
  generalize (cs (n + 1)).thread i = p', (cs (n + 1)).shared = s' at hstep ⊢
  generalize (cs n).shared = s at hstep ⊢
  cases hstep with
  | @runEnd _ d hr =>
      change InnerFullAccessor.runPendedOp s.content .swap = (d, none) at hr
      simp only [InnerFullAccessor.runPendedOp, Prod.mk.injEq] at hr
      split at hr
      · rename_i hzero
        exact Or.inl ⟨hzero, rfl⟩
      · cases hr.2
  | @run _ d r' hr =>
      change InnerFullAccessor.runPendedOp s.content .swap = (d, some r') at hr
      simp only [InnerFullAccessor.runPendedOp, Prod.mk.injEq] at hr
      split at hr
      · cases hr.2
      · cases hr.2
        exact Or.inr rfl

/-- What becomes of a drain that is at `r` at the moment `n`. -/
structure DrainEnds (cs : ℕ → Config (SoftLock DemoInner) ι DemoPhase) (es : ℕ → ι × DemoAct)
    (n : ℕ) (i : ι) (r : RunPended) : Prop where
  /-- It does not wait for the queue mutex. -/
  free : r.locksQueue = true → (cs n).shared.content.queue.held = false
  /-- It takes the whole count. -/
  takes : r = .swap → (es n).1 = i →
    (cs n).shared.content.pendingSubmit = 0 ∧ (cs (n + 1)).thread i = .dropStore
      ∨ (cs (n + 1)).thread i = .dropRun (RunPended.batches (cs n).shared.content.pendingSubmit)
  /-- It ends, after two steps of its own for each submission it has still to push, and those
  around them. -/
  ends : ∃ m, n ≤ m ∧ (cs m).thread i = .dropStore
    ∧ (r ≠ .swap → turns cs es i m = turns cs es i n + r.left)

/-- The closures do not go on forever. -/
def ClosuresEnd (cs : ℕ → Config (SoftLock DemoInner) ι DemoPhase) : Prop :=
  ∀ n i, (((cs n).thread i).isFull || ((cs n).thread i).isPend) = true →
    ∃ m, n ≤ m ∧ (((cs m).thread i).isFull || ((cs m).thread i).isPend) = false

/--
**The demo's accesses keep ending.**

With the demo's content nothing has to be assumed of `run_pended_op`: a drain never waits for
the queue mutex, takes the count and goes around as often as that. If closures end and no thread
inside an access is forgotten, every drain ends, and some access ends again and again.
-/
theorem demo_accesses_keep_ending [Finite ι] (hstart : cs 0 = fresh DemoInner.new)
    (hrun : Endless SoftLock.step cs es) (hfair : Fair Inside cs es) (hclosures : ClosuresEnd cs) :
    (∀ n i (r : RunPended), (cs n).thread i = .dropRun r → DrainEnds cs es n i r)
      ∧ ∀ n, ∃ m, n ≤ m ∧ EndsAccess cs es m := by
  have h : FairRun cs es := ⟨hrun, hfair⟩
  constructor
  · intro n i r hn
    refine ⟨fun hlocks => ?_, fun hr he => ?_, h.drain_ends hstart hn⟩
    · have hreach := hrun.reachable n
      rw [hstart] at hreach
      refine queue_free hreach (i := i) ?_
      rw [hn]
      exact hlocks
    · subst hr
      exact h.drain_takes hn he
  refine EndingRun.access_ends ⟨h, fun n i hi => ?_⟩ hstart
  generalize hp : (cs n).thread i = p at hi
  cases p with
  | dropRun r =>
      obtain ⟨m, hm, hdone, -⟩ := h.drain_ends hstart hp
      refine ⟨m, hm, ?_⟩
      rw [hdone]
      exact id
  | full a =>
      obtain ⟨m, hm, hout⟩ := hclosures n i (by rw [hp]; rfl)
      rw [Bool.or_eq_false_iff] at hout
      obtain ⟨k, hk, he, hin, hnot⟩ := h.endless.leaves (Q := fun p => p.isFull = true) hm
        (by rw [hp]; rfl) (by simp [hout.1])
      refine ⟨k + 1, by omega, ?_⟩
      rw [(h.stepAt he).leaves_full hin (by simpa using hnot)]
      exact id
  | pend a =>
      obtain ⟨m, hm, hout⟩ := hclosures n i (by rw [hp]; rfl)
      rw [Bool.or_eq_false_iff] at hout
      obtain ⟨k, hk, he, hin, hnot⟩ := h.endless.leaves (Q := fun p => p.isPend = true) hm
        (by rw [hp]; rfl) (by simp [hout.2])
      refine ⟨k + 1, by omega, ?_⟩
      obtain ⟨b, hb⟩ := (h.stepAt he).leaves_pend hin (by simpa using hnot)
      rw [hb]
      exact id
  | _ => exact hi.elim

end

/-- In each round the drain of thread 0 finds the queue free, and four steps of the thread later it
has pushed the one submission and is over. -/
theorem demo_accesses_keep_ending_contended :
    (∀ k, (contendedConfig (16 * k + 10)).shared.content.queue.held = false
        ∧ ∃ m, 16 * k + 10 ≤ m ∧ (contendedConfig m).thread 0 = .dropStore
          ∧ turns contendedConfig contendedAct 0 m
            = turns contendedConfig contendedAct 0 (16 * k + 10) + 4)
      ∧ ∀ n, ∃ m, n ≤ m ∧ EndsAccess contendedConfig contendedAct m := by
  have hclosures : ClosuresEnd contendedConfig := fun n i _ =>
    ⟨16 * n, by omega, by rw [contended_idle]; rfl⟩
  have hstart : contendedConfig 0 = fresh DemoInner.new := rfl
  obtain ⟨hdrains, hends⟩ :=
    demo_accesses_keep_ending hstart contended_endless contended_fair hclosures
  refine ⟨fun k => ?_, hends⟩
  have hlock : (contendedConfig (16 * k + 10)).thread 0 = .dropRun (RunPended.lock 1) := by
    rw [contended_at (by decide)]
    rfl
  obtain ⟨hfree, -, m, hm, hdone, hturns⟩ := hdrains _ 0 _ hlock
  exact ⟨hfree rfl, m, hm, hdone, hturns (by simp)⟩

end Hopter
