import Hopter.Lib.Owner
import Hopter.SoftLock.Demo

/-!
# Exclusive Full access

The owner of a soft lock is the guard in a holding phase, and `locked` says
whether there is one. A guard gives the lock up and takes it again several
times in one `drop`, so it is the phase that owns, not `lock_held`.

Around the exclusion stands the rule the content's own proofs use:
`ContentInv K` asks what each piece of content code does to `K`, the piece
being told nothing but who else may be running — and `softLock_owned` makes
`K` an invariant of the whole lock.
-/

namespace Hopter

open Conc AllowPendOp

variable {T : Type} [AllowPendOp T]

/-- Which content code the owner is in. -/
inductive Use (T : Type) [AllowPendOp T] where
  | none
  | full (a : FullAccessor T)
  | run (r : AllowPendOp.RunPendedOp T)

/-- The content code a phase is in, with Full access. -/
def Phase.use : Phase T → Use T
  | .full a => .full a
  | .dropRun r => .run r
  | _ => .none

/-- The content code the owner is in, if there is an owner. -/
def useOf : Option (Phase T) → Use T
  | some p => p.use
  | none => .none

@[simp] theorem useOf_none : useOf (none : Option (Phase T)) = .none := rfl

@[simp] theorem useOf_some (p : Phase T) : useOf (some p) = p.use := rfl

/-- `K` is kept by all content code: Full closures, `run_pended_op`, and PendOnly closures that
run next to either. -/
structure ContentInv (K : T → Use T → Prop) : Prop where
  enter : ∀ {d}, K d .none → K d (.full fullAccess)
  full : ∀ {d a k d' a'}, K d (.full a) → AllowPendOp.full d a k = some (d', a') → K d' (.full a')
  exit : ∀ {d a}, K d (.full a) → fullReady a = true → K d .none
  call : ∀ {d}, K d .none → K d (.run AllowPendOp.runPendedOp)
  run : ∀ {d r d' r'}, K d (.run r) → AllowPendOp.run d r = (d', some r') → K d' (.run r')
  ret : ∀ {d r d'}, K d (.run r) → AllowPendOp.run d r = (d', none) → K d' .none
  pend : ∀ {d a k d' a' u}, K d u → AllowPendOp.pend d a k = some (d', a') → K d' u

/-- What is promised of a soft lock: `locked` tells whether there is an owner, and the content
is as `K` says for the code the owner is in. -/
def Promise (K : T → Use T → Prop) (s : SoftLock T) (o : Option (Phase T)) : Prop :=
  s.locked = o.isSome ∧ K s.content (useOf o)

/-- **Exclusion, one step at a time.** -/
theorem ContentInv.owner {K : T → Use T → Prop} (hK : ContentInv K) :
    OwnerInv SoftLock.withAccess Phase.Holding (Promise K) where
  own := by
    intro s p act s' p' hp hj h
    obtain ⟨hl, hk⟩ := hj
    cases SoftLock.withAccess_cases h with
    | full hf => exact Or.inl ⟨trivial, hl, hK.full hk hf⟩
    | fullExit hr => exact Or.inl ⟨trivial, hl, hK.exit hk hr⟩
    | swapTrue _ => exact Or.inl ⟨trivial, hl, hK.call hk⟩
    | swapFalse _ => exact Or.inl ⟨trivial, hl, hk⟩
    | run hr => exact Or.inl ⟨trivial, hl, hK.run hk hr⟩
    | runEnd hr => exact Or.inl ⟨trivial, hl, hK.ret hk hr⟩
    | store => exact Or.inr ⟨id, rfl, hk⟩
    | guardFull _ | guardPend _ | pend _ | pendExit _ | loadTrue _ | loadFalse _ | casFail _
    | casOk _ | pendStore => exact hp.elim
  other := by
    intro s p act s' p' o hp hj h
    obtain ⟨hl, hk⟩ := hj
    -- a free lock has no owner
    have hfree : s.locked = false → o = none := by
      intro hf
      cases o with
      | none => rfl
      | some q => rw [hf] at hl; cases hl
    cases SoftLock.withAccess_cases h with
    | guardFull hf =>
        obtain rfl := hfree hf
        exact Or.inr ⟨trivial, rfl, rfl, hK.enter hk⟩
    | casOk hf =>
        obtain rfl := hfree hf
        exact Or.inr ⟨trivial, rfl, rfl, hk⟩
    | pend hpd => exact Or.inl ⟨id, hl, hK.pend hk hpd⟩
    | guardPend _ | pendExit _ | loadTrue _ | loadFalse _ | casFail _ | pendStore =>
        exact Or.inl ⟨id, hl, hk⟩
    | full _ | fullExit _ | swapTrue _ | swapFalse _ | run _ | runEnd _ | store =>
        exact absurd trivial hp

variable {ι : Type} [DecidableEq ι]

/-- A content invariant that holds of a fresh content holds in every reachable configuration, of
the code the owner is in. -/
theorem softLock_owned {K : T → Use T → Prop} (hK : ContentInv K) {content : T}
    (h₀ : K content .none) {c : Config (SoftLock T) ι (Phase T)}
    (h : Reachable SoftLock.step (fresh content) c) :
    Owned Phase.Holding (Promise K) c :=
  owned_reachable hK.owner ⟨none, fun _ => id, rfl, h₀⟩ h

theorem contentInv_true : ContentInv (T := T) fun _ _ => True := by
  constructor <;> intros <;> trivial

omit [DecidableEq ι] in
/-- `locked` is true exactly when some guard is in a holding phase. -/
theorem owned_locked_iff {K : T → Use T → Prop} {c : Config (SoftLock T) ι (Phase T)}
    (h : Owned Phase.Holding (Promise K) c) :
    c.shared.locked = true ↔ ∃ i, (c.thread i).Holding := by
  constructor
  · intro hl
    by_contra hn
    obtain ⟨hj, -⟩ := owned_none h (fun i hi => hn ⟨i, hi⟩)
    rw [hl] at hj
    cases hj
  · rintro ⟨i, hi⟩
    exact (owned_some h hi).1

omit [DecidableEq ι] in
/-- With every thread outside, the lock is free. -/
theorem owned_unlocked {K : T → Use T → Prop} {c : Config (SoftLock T) ι (Phase T)}
    (h : Owned Phase.Holding (Promise K) c) (hidle : ∀ i, c.thread i = .idle) :
    c.shared.locked = false := by
  rw [← Bool.not_eq_true, owned_locked_iff h]
  rintro ⟨i, hi⟩
  rw [hidle i] at hi
  exact hi

/-- A guard without the lock never clears `locked`. -/
theorem pendOnly_keeps_locked {s s' : SoftLock T} {p p' : Phase T} {act : Act T}
    (hp : p.PendOnly) (h : SoftLock.withAccess s p act = some (s', p')) :
    s'.locked = s.locked := by
  cases SoftLock.withAccess_cases h with
  | pend _ | pendExit _ | pendStore => rfl
  | guardFull _ | guardPend _ | full _ | fullExit _ | swapTrue _ | swapFalse _ | run _ | runEnd _
  | store | loadTrue _ | loadFalse _ | casFail _ | casOk _ => exact hp.elim

/-- In a method of the content, which may wait for something of its own. -/
def Phase.InMethod : Phase T → Prop
  | .full a => fullReady a = false
  | .dropRun _ => True
  | _ => False

/-- A holder gets on: a closure in its own code may end, and `drop` moves. -/
theorem holding_moves {s : SoftLock T} {p : Phase T} (hp : p.Holding) (hin : ¬ p.InMethod) :
    ∃ act s' p', SoftLock.withAccess s p act = some (s', p') ∧ p' ≠ p := by
  cases p with
  | full a =>
      have hready : fullReady a = true := by simpa [Phase.InMethod] using hin
      refine ⟨.exit false, s, .dropSwap, ?_, by intro h; cases h⟩
      simp only [SoftLock.withAccess, hready, if_true]
  | dropSwap =>
      refine ⟨.step, _, _, rfl, ?_⟩
      split <;> intro h <;> cases h
  | dropStore => exact ⟨.step, _, _, rfl, by intro h; cases h⟩
  | dropRun r => exact absurd trivial hin
  | idle | pend _ | dropLoad | dropCas | dropPend _ => exact hp.elim

/--
**Exclusive Full access.**

In every reachable configuration at most one guard is in a holding phase, and
`locked` is true exactly when one is. So a `FullAccessor` is alive in one access
at most, no other guard clears the lock, and a guard that waits in `drop` to take
the lock again waits for another one that can get on, or is in a method of the
content.
-/
theorem exclusive_full_access {content : T} {c : Config (SoftLock T) ι (Phase T)}
    (h : Reachable SoftLock.step (fresh content) c) :
    (∀ i j, (c.thread i).Holding → (c.thread j).Holding → i = j)
      ∧ (c.shared.locked = true ↔ ∃ i, (c.thread i).Holding)
      ∧ (∀ i j, (c.thread i).HasFullAccessor → (c.thread j).HasFullAccessor → i = j)
      ∧ (∀ i act c', (c.thread i).PendOnly → SoftLock.step c (i, act) = some c' →
          c'.shared.locked = c.shared.locked)
      ∧ (∀ i, c.thread i = .dropCas → c.shared.locked = true →
          ∃ j, j ≠ i ∧ (c.thread j).Holding
            ∧ (∃ act, (SoftLock.step c (j, act)).isSome)
            ∧ ((c.thread j).InMethod
              ∨ ∃ act c', SoftLock.step c (j, act) = some c' ∧ c'.thread j ≠ c.thread j)) := by
  have hown := softLock_owned contentInv_true trivial h
  refine ⟨fun i j => owned_unique hown, owned_locked_iff hown, ?_, ?_, ?_⟩
  · intro i j hi hj
    exact owned_unique hown hi.holding hj.holding
  · intro i act c' hi hs
    exact pendOnly_keeps_locked hi (Config.local_of_step hs)
  · intro i hi hl
    obtain ⟨j, hj⟩ := (owned_locked_iff hown).mp hl
    refine ⟨j, ?_, hj, ?_, ?_⟩
    · rintro rfl
      rw [hi] at hj
      exact hj
    · obtain ⟨act, hact⟩ := SoftLock.withAccess_live c.shared (c.thread j)
      exact ⟨act, by simpa [Config.step] using hact⟩
    · by_cases hin : (c.thread j).InMethod
      · exact Or.inl hin
      · obtain ⟨act, s', p', hs, hne⟩ := holding_moves (s := c.shared) hj hin
        refine Or.inr ⟨act, _, Config.step_eq_some.mpr ⟨s', p', hs, rfl⟩, ?_⟩
        dsimp only
        rw [Function.update_self]
        exact hne

/-- The exclusion in `sampleRun`, where thread 0 holds and thread 1 is out again. -/
theorem exclusive_full_access_sample :
    ∃ c, exec SoftLock.step (fresh DemoInner.new) sampleRun = some c
      ∧ (c.shared.locked = true ↔ ∃ i, (c.thread i).Holding)
      ∧ ∀ i j, (c.thread i).Holding → (c.thread j).Holding → i = j := by
  obtain ⟨c, hc⟩ := sampleRun_possible
  obtain ⟨hone, hlocked, -⟩ := exclusive_full_access ⟨sampleRun, hc⟩
  exact ⟨c, hc, hlocked, hone⟩

end Hopter
