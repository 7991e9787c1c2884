import Hopter.Lib.Numeral
import Hopter.SplitStack.Runtime

/-!
# The bound of the main thread

The constructor takes the limit of the process from a string. `strtoul` makes a
number of every string, and every number but zero is multiplied by 1024 and
subtracted from SP, without a look at what becomes of it. So it is for the string
to say a number that is not too small, or the bound is above SP, and not too large,
or it wraps around.
-/

namespace Hopter.SplitStack

open Conc

/-! ## What `strtoul` reads -/

/-- White space, in the C locale. -/
def isspace (c : Char) : Bool := c = ' ' || ('\t' ≤ c && c ≤ '\r')

/-- If there is a minus sign, and what comes behind the sign. -/
def readSign : List Char → Bool × List Char
  | '-' :: cs => (true, cs)
  | '+' :: cs => (false, cs)
  | cs => (false, cs)

/-- The digits in front, as a number. -/
def leadingNumber (cs : List Char) : ℕ :=
  Numeral.value 10 ((cs.takeWhile Char.isDigit).map fun c => c.toNat - '0'.toNat)

/-- `strtoul(value, NULL, 10)`: a number that does not fit is `ULONG_MAX`, and one that does is
negated if there is a minus sign. -/
def strtoul (value : String) : BitVec 64 :=
  let (negative, cs) := readSign (value.toList.dropWhile isspace)
  let n := leadingNumber cs
  if 2 ^ 64 ≤ n then .allOnes 64 else if negative then -.ofNat 64 n else .ofNat 64 n

/-- The characters of the digits, and what is read of them. -/
theorem digitChar_spec : ∀ d < 10, (Nat.digitChar d).isDigit = true
    ∧ isspace (Nat.digitChar d) = false ∧ Nat.digitChar d ≠ '-' ∧ Nat.digitChar d ≠ '+'
    ∧ (Nat.digitChar d).toNat - '0'.toNat = d := by decide

theorem leadingNumber_digits {ds : List ℕ} (h : ∀ d ∈ ds, d < 10) :
    leadingNumber (ds.map Nat.digitChar) = Numeral.value 10 ds := by
  have htake : (ds.map Nat.digitChar).takeWhile Char.isDigit = ds.map Nat.digitChar := by
    refine List.takeWhile_eq_self_iff.mpr fun c hc => ?_
    obtain ⟨d, hd, rfl⟩ := List.mem_map.mp hc
    exact (digitChar_spec d (h d hd)).1
  have hback : (ds.map Nat.digitChar).map (fun c => c.toNat - '0'.toNat) = ds := by
    rw [List.map_map]
    conv_rhs => rw [← List.map_id ds]
    exact List.map_congr_left fun d hd => (digitChar_spec d (h d hd)).2.2.2.2
  unfold leadingNumber
  rw [htake, hback]

theorem readSign_digits {ds : List ℕ} (h : ∀ d ∈ ds, d < 10) :
    readSign (ds.map Nat.digitChar) = (false, ds.map Nat.digitChar) := by
  cases ds with
  | nil => rfl
  | cons d ds =>
      obtain ⟨-, -, hminus, hplus, -⟩ := digitChar_spec d (h d List.mem_cons_self)
      simp only [List.map_cons]
      unfold readSign
      split
      · rename_i heq
        exact absurd (List.cons.inj heq).1 hminus
      · rename_i heq
        exact absurd (List.cons.inj heq).1 hplus
      · rfl

/-- **A numeral is read as its number**, with a minus sign as the negated one, and if it does not
fit as the largest one. -/
theorem strtoul_numeral {n : ℕ} {ds : List ℕ} (h : Numeral.Writes 10 n ds) (negative : Bool) :
    strtoul (String.ofList ((if negative then ['-'] else []) ++ ds.map Nat.digitChar))
      = if 2 ^ 64 ≤ n then BitVec.allOnes 64
        else if negative then -BitVec.ofNat 64 n else BitVec.ofNat 64 n := by
  have hread : readSign (((if negative then ['-'] else [])
      ++ ds.map Nat.digitChar).dropWhile isspace) = (negative, ds.map Nat.digitChar) := by
    cases negative with
    | true => rfl
    | false =>
        obtain ⟨d, ds, rfl⟩ := List.exists_cons_of_ne_nil h.ne_nil
        have hspace := (digitChar_spec d (h.digit d List.mem_cons_self)).2.1
        simp only [Bool.false_eq_true, if_false, List.nil_append, List.map_cons,
          List.dropWhile_cons, hspace]
        exact readSign_digits h.digit
  unfold strtoul
  simp only [String.toList_ofList, hread, leadingNumber_digits h.digit, h.value_eq]

/-- Every limit is the one of some string. -/
theorem exists_strtoul (kb : BitVec 64) : ∃ value, strtoul value = kb := by
  have hten : 1 < 10 := by omega
  obtain ⟨ds, hds⟩ := Numeral.exists_writes hten kb.toNat
  refine ⟨_, (strtoul_numeral hds false).trans ?_⟩
  rw [if_neg (Nat.not_le.mpr kb.isLt), if_neg Bool.false_ne_true, BitVec.ofNat_toNat,
    BitVec.setWidth_eq]

example : strtoul " 512" = 512 ∧ strtoul "-1" = -1 ∧ strtoul "18446744073709551616" = -1
    ∧ strtoul "kb" = 0 := by decide

/-! ## The limit -/

/-- The limit in KiB, as it is read, before anything is computed with it. -/
def Environment.limitKb (env : Environment) : ℕ :=
  match env.maxStackKb with
  | none => 2048
  | some value =>
      if value.isEmpty then 2048
      else if 0 < env.strtoul value then (env.strtoul value).toNat
      else 2048

/-- The multiplication wraps around. -/
theorem Environment.maxStackBytes_toNat (env : Environment) :
    env.maxStackBytes.toNat = env.limitKb * 1024 % 2 ^ 64 := by
  unfold Environment.maxStackBytes Environment.limitKb
  cases env.maxStackKb with
  | none => rfl
  | some value =>
      dsimp only
      split
      · rfl
      · split
        · exact BitVec.toNat_mul _ _
        · rfl

/-- What the constructor has computed so far. -/
structure Process.Limited (env : Environment) (p : Process) : Prop where
  overridden : p.ctor = .overridden → p.maxStackBytes = env.maxStackBytes
  done : p.ctor = .done →
    p.maxStackBytes = env.maxStackBytes ∧ p.bound = softBound p.initSp env.maxStackBytes

variable {env : Environment} {p p' : Process}

theorem limited_init : Process.init.Limited env where
  overridden := fun h => by cases h
  done := fun h => by cases h

/-- **One step.** No thread writes what the constructor has written. -/
theorem limited_step {a : RuntimeAction} (h : p.Limited env) (hs : p.step env a = some p') :
    p'.Limited env := by
  rcases Process.step_cases hs with ⟨sp, rfl, -, rfl⟩ | ⟨rfl, -, rfl⟩ | ⟨rfl, hctor, rfl⟩
    | ⟨fn, arg, top, size, rfl, -, rfl⟩ | ⟨fn, arg, rfl, rfl⟩ | ⟨fn, arg, rfl, rfl⟩
    | ⟨i, th, ta, rfl, -, -, -, -, rfl⟩ | ⟨i, th, th', -, rfl, -⟩
  · exact ⟨fun hctor => (by cases hctor), fun hctor => (by cases hctor)⟩
  · exact ⟨fun _ => rfl, fun hctor => (by cases hctor)⟩
  · refine ⟨fun hctor => (by cases hctor), fun _ => ⟨h.overridden hctor, ?_⟩⟩
    rw [← h.overridden hctor]
  · exact ⟨h.overridden, h.done⟩
  · exact ⟨h.overridden, h.done⟩
  · exact h
  · exact ⟨h.overridden, h.done⟩
  · exact ⟨h.overridden, h.done⟩

theorem limited_reachable (h : Reachable (Process.step env) .init p) : p.Limited env :=
  h.invariant limited_init fun _ hI hs => limited_step hI hs

/-! ## When it is sane -/

/-- The limit is `kb` KiB, the bound is so far below `s`, up to the guard margin, that a check
passes at `s`, and it fails at `sp` if that is below the bound. A check subtracts `frame`. -/
structure SaneBound (frame : BitVec 64) (kb : ℕ) (s maxStackBytes bound sp : BitVec 64) :
    Prop where
  limit : maxStackBytes.toNat = kb * 1024
  exact_bound : (bound.toNat : ℤ) = s.toNat - kb * 1024 + kGuardMargin.toNat
  room : frame.toNat ≤ (s.toNat : ℤ) - bound.toNat
  passes : checkOk frame s bound = true
  fails : (sp.toNat : ℤ) < s.toNat - kb * 1024 + kGuardMargin.toNat →
    checkOk frame sp bound = false

/-- A limit that is not too small and not too large, and a check that does not wrap around. -/
structure Reasonable (frame : BitVec 64) (kb : ℕ) (s sp : BitVec 64) : Prop where
  min : kGuardMargin.toNat + frame.toNat ≤ kb * 1024
  fits : kb * 1024 < 2 ^ 64
  max : kb * 1024 ≤ s.toNat + kGuardMargin.toNat
  check : frame ≤ sp ∨ s.toNat + kGuardMargin.toNat ≤ sp.toNat + kb * 1024

/-- Without an extra padding, 9 KiB are enough. -/
theorem min_default {kb : ℕ} :
    kGuardMargin.toNat + (framePad 0).toNat ≤ kb * 1024 ↔ 9 ≤ kb := by
  have hmin : kGuardMargin.toNat + (framePad 0).toNat = 8320 := by decide
  omega

theorem saneBound_iff {frame : BitVec 64} {kb : ℕ} {s maxStackBytes sp : BitVec 64}
    (hmax : maxStackBytes.toNat = kb * 1024 % 2 ^ 64) :
    SaneBound frame kb s maxStackBytes (softBound s maxStackBytes) sp
      ↔ Reasonable frame kb s sp := by
  have hguard : kGuardMargin.toNat = 8192 := rfl
  have hs := s.isLt
  have hval : (softBound s maxStackBytes).toNat
      = ((2 ^ 64 - maxStackBytes.toNat + s.toNat) % 2 ^ 64 + 8192) % 2 ^ 64 := by
    unfold softBound
    rw [BitVec.toNat_add, BitVec.toNat_sub, hguard]
  constructor
  · intro h
    have hlimit := h.limit
    have hexact := h.exact_bound
    have hroom := h.room
    rw [hguard] at hexact
    have hfits : kb * 1024 < 2 ^ 64 := by omega
    refine ⟨by omega, hfits, by omega, ?_⟩
    -- a check below the padding wraps around, so it does not fail
    by_contra hcheck
    rw [hguard, BitVec.le_def] at hcheck
    have hfail := h.fails (by omega)
    rw [checkOk_of_lt (BitVec.lt_def.mpr (by omega)) (by omega)] at hfail
    cases hfail
  · intro ⟨hmin, hfits, hle, hcheck⟩
    rw [hguard] at hmin hle hcheck
    rw [BitVec.le_def] at hcheck
    have hlimit : maxStackBytes.toNat = kb * 1024 := by omega
    have hbound : (softBound s maxStackBytes).toNat = s.toNat + 8192 - kb * 1024 := by omega
    refine ⟨hlimit, by omega, by omega, ?_, fun hlt => ?_⟩
    · exact (checkOk_iff (BitVec.le_def.mpr (by omega))).mpr (by omega)
    · rw [Bool.eq_false_iff, ne_eq, checkOk_iff (BitVec.le_def.mpr (by omega))]
      omega

/-- **The bound of the main thread**, when the constructor is done, is sane if the limit is
reasonable, and not otherwise. -/
theorem sane_bound_iff (clExtraPad : BitVec 32) (value : Option String)
    (h : Reachable (Process.step ⟨value, strtoul⟩) .init p) (hdone : p.ctor = .done)
    (sp : BitVec 64) :
    SaneBound (framePad clExtraPad) (Environment.limitKb ⟨value, strtoul⟩) p.initSp
        p.maxStackBytes p.bound sp
      ↔ Reasonable (framePad clExtraPad) (Environment.limitKb ⟨value, strtoul⟩) p.initSp sp := by
  obtain ⟨hmax, hbound⟩ := (limited_reachable h).done hdone
  rw [hbound, hmax]
  exact saneBound_iff (Environment.maxStackBytes_toNat ⟨value, strtoul⟩)

/-- The constructor, from SP `s`. -/
def ctorRun (s : BitVec 64) : List RuntimeAction := [.ctorDefault s, .ctorEnv, .ctorBound]

/-- Every SP is one that the constructor can start from. -/
theorem exec_ctorRun (env : Environment) (s : BitVec 64) :
    exec (Process.step env) .init (ctorRun s)
      = some ⟨.done, s, env.maxStackBytes, softBound s env.maxStackBytes, [], []⟩ := rfl

/-- With 512 KiB the bound is sane. -/
theorem sane_bound_512 :
    ∃ p, Reachable (Process.step ⟨some "512", strtoul⟩) .init p ∧ p.initSp = 0x7fff0000
      ∧ p.ctor = .done ∧ p.bound = 0x7ff72000
      ∧ SaneBound (framePad 0) 512 p.initSp p.maxStackBytes p.bound 0x7ff71000 := by
  have hrun : Reachable (Process.step ⟨some "512", strtoul⟩) .init
      ⟨.done, 0x7fff0000, 524288, 0x7ff72000, [], []⟩ := ⟨ctorRun 0x7fff0000, by decide⟩
  have hkb : Environment.limitKb ⟨some "512", strtoul⟩ = 512 := by decide
  have hsane := (sane_bound_iff 0 (some "512") hrun rfl 0x7ff71000).mpr
    ⟨min_default.mpr (by decide), by decide, by decide, by decide⟩
  rw [hkb] at hsane
  exact ⟨_, hrun, rfl, rfl, rfl, hsane⟩

/-- With 4 KiB the bound is above SP, so the first check fails; -1 is a number of KiB whose bytes do
not fit; and with 8 GiB, which is more than there is below SP, the bound wraps around. -/
theorem bound_insane :
    (∃ p, exec (Process.step ⟨some "4", strtoul⟩) .init (ctorRun 0x7fff0000) = some p
      ∧ p.initSp < p.bound ∧ checkOk (framePad 0) p.initSp p.bound = false
      ∧ ∀ sp, ¬ SaneBound (framePad 0) (Environment.limitKb ⟨some "4", strtoul⟩) p.initSp
        p.maxStackBytes p.bound sp)
    ∧ (∃ p, exec (Process.step ⟨some "-1", strtoul⟩) .init (ctorRun 0x7fff0000) = some p
      ∧ p.maxStackBytes = BitVec.allOnes 64 - 1023
      ∧ ∀ sp, ¬ SaneBound (framePad 0) (Environment.limitKb ⟨some "-1", strtoul⟩) p.initSp
        p.maxStackBytes p.bound sp)
    ∧ ∃ p, exec (Process.step ⟨some "8388608", strtoul⟩) .init (ctorRun 0x7fff0000) = some p
      ∧ p.initSp < p.bound ∧ checkOk (framePad 0) p.initSp p.bound = false
      ∧ ∀ sp, ¬ SaneBound (framePad 0) (Environment.limitKb ⟨some "8388608", strtoul⟩) p.initSp
        p.maxStackBytes p.bound sp := by
  refine ⟨⟨⟨.done, 0x7fff0000, 4096, 0x7fff1000, [], []⟩, by decide, by decide, by decide, ?_⟩,
    ⟨⟨.done, 0x7fff0000, BitVec.allOnes 64 - 1023, 0x7fff2400, [], []⟩, by decide, rfl, ?_⟩,
    ⟨⟨.done, 0x7fff0000, 8589934592, 0xfffffffe7fff2000, [], []⟩, by decide, by decide,
      by decide, ?_⟩⟩
  · intro sp h
    exact absurd h.passes (by decide)
  · intro sp h
    exact absurd h.limit (by decide)
  · intro sp h
    exact absurd h.passes (by decide)

end Hopter.SplitStack
