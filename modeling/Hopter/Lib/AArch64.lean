import Hopter.Lib.Align

/-!
# A little AArch64

The integer registers, SP, and as many instructions as a leaf in assembly needs
that changes stacks and calls one function. Code is a list of instructions at an
address; when control leaves it, the machine stops, since nothing is known of the
code elsewhere. Code without branches runs from its first instruction to its last
one, and that is the rule `run_straight`.
-/

namespace AArch64

/-- `x0` to `x30`. -/
abbrev Reg := Fin 31

def x1 : Reg := 1

def x2 : Reg := 2

/-- The link register. -/
def x30 : Reg := 30

structure Machine where
  x : Reg → BitVec 64
  sp : BitVec 64
  pc : BitVec 64
  /-- Doublewords. -/
  mem : BitVec 64 → BitVec 64

/-- Instructions, over the symbols that the linker gives addresses to. -/
inductive Instr (Sym : Type) where
  | adrp (rd : Reg) (s : Sym)
  /-- `add rd, rn, #:lo12:s` -/
  | addLo12 (rd rn : Reg) (s : Sym)
  | addImm (rd rn : Reg) (imm : BitVec 64)
  /-- `mov rd, sp` -/
  | movFromSp (rd : Reg)
  /-- `mov sp, rn` -/
  | movToSp (rn : Reg)
  /-- `str rt, [rn]` -/
  | str (rt rn : Reg)
  | bl (s : Sym)
  /-- `b`, relative to the instruction. -/
  | b (offset : BitVec 64)
  deriving DecidableEq

variable {Sym : Type}

namespace Machine

def setReg (m : Machine) (r : Reg) (v : BitVec 64) : Machine :=
  { m with x := Function.update m.x r v }

variable (m : Machine) (r : Reg) (v : BitVec 64)

@[simp] theorem setReg_x_self : (m.setReg r v).x r = v := Function.update_self ..

theorem setReg_x_of_ne {r' : Reg} (h : r' ≠ r) : (m.setReg r v).x r' = m.x r' :=
  Function.update_of_ne h ..

@[simp] theorem setReg_sp : (m.setReg r v).sp = m.sp := rfl

@[simp] theorem setReg_pc : (m.setReg r v).pc = m.pc := rfl

end Machine

namespace Instr

/-- The 4 KiB page of an address, and the address in its page. -/
def page (a : BitVec 64) : BitVec 64 := a &&& ~~~(4096 - 1)

def lo12 (a : BitVec 64) : BitVec 64 := a &&& (4096 - 1)

/-- What an instruction does, but for the next one being next. -/
def effect (sym : Sym → BitVec 64) (i : Instr Sym) (m : Machine) : Machine :=
  match i with
  | adrp rd s => m.setReg rd (page (sym s))
  | addLo12 rd rn s => m.setReg rd (m.x rn + lo12 (sym s))
  | addImm rd rn imm => m.setReg rd (m.x rn + imm)
  | movFromSp rd => m.setReg rd m.sp
  | movToSp rn => { m with sp := m.x rn }
  | str rt rn => { m with mem := Function.update m.mem (m.x rn) (m.x rt) }
  | bl _ => m.setReg x30 (m.pc + 4)
  | b _ => m

/-- Where control goes. -/
def target (sym : Sym → BitVec 64) (i : Instr Sym) (pc : BitVec 64) : BitVec 64 :=
  match i with
  | bl s => sym s
  | b offset => pc + offset
  | _ => pc + 4

def run (sym : Sym → BitVec 64) (i : Instr Sym) (m : Machine) : Machine :=
  { i.effect sym m with pc := i.target sym m.pc }

def isBranch : Instr Sym → Bool
  | bl _ | b _ => true
  | _ => false

theorem target_of_not_branch {i : Instr Sym} (h : i.isBranch = false) (sym : Sym → BitVec 64)
    (pc : BitVec 64) : i.target sym pc = pc + 4 := by
  cases i with
  | bl s => cases h
  | b offset => cases h
  | _ => rfl

/-- `adrp` and `add` make an address. -/
theorem page_add_lo12 (a : BitVec 64) : page a + lo12 a = a := by
  have hlow : (lo12 a).toNat = a.toNat % 4096 := by
    show (a &&& 4095).toNat = _
    rw [BitVec.toNat_and]
    exact Nat.and_two_pow_sub_one_eq_mod a.toNat 12
  have hpage : (page a).toNat = a.toNat / 4096 * 4096 :=
    Word.toNat_and_not_pred (m := 4096) (k := 12) a rfl
  apply BitVec.eq_of_toNat_eq
  rw [BitVec.toNat_add, hpage, hlow]
  have hlt := a.isLt
  omega

end Instr

/-! ## Code at an address -/

/-- The address of an instruction. -/
def at_ (base : BitVec 64) (k : ℕ) : BitVec 64 := base + BitVec.ofNat 64 (4 * k)

def fetch (base : BitVec 64) (code : List (Instr Sym)) (pc : BitVec 64) : Option (Instr Sym) :=
  if (pc - base).toNat % 4 = 0 then code[(pc - base).toNat / 4]? else none

def step (sym : Sym → BitVec 64) (base : BitVec 64) (code : List (Instr Sym)) (m : Machine) :
    Option Machine :=
  (fetch base code m.pc).map fun i => i.run sym m

/-- So many steps. -/
def run (sym : Sym → BitVec 64) (base : BitVec 64) (code : List (Instr Sym)) :
    ℕ → Machine → Option Machine
  | 0, m => some m
  | n + 1, m => (run sym base code n m).bind (step sym base code)

variable {sym : Sym → BitVec 64} {base : BitVec 64} {code : List (Instr Sym)}

theorem fetch_at {k : ℕ} (hk : k < 2 ^ 60) : fetch base code (at_ base k) = code[k]? := by
  have hoff : (at_ base k - base).toNat = 4 * k := by
    unfold at_
    rw [BitVec.add_comm, BitVec.add_sub_cancel, BitVec.toNat_ofNat, Nat.mod_eq_of_lt (by omega)]
  unfold fetch
  rw [hoff, if_pos (by omega), Nat.mul_div_cancel_left k (by omega)]

/-- Nothing is fetched from elsewhere. -/
theorem fetch_eq_none {pc : BitVec 64} (h : ∀ k < code.length, pc ≠ at_ base k) :
    fetch base code pc = none := by
  unfold fetch
  split
  · rename_i hmod
    refine List.getElem?_eq_none (Nat.le_of_not_lt fun hlt => h _ hlt ?_)
    unfold at_
    rw [Nat.mul_div_cancel' (Nat.dvd_of_mod_eq_zero hmod), BitVec.ofNat_toNat, BitVec.setWidth_eq,
      BitVec.add_comm, BitVec.sub_add_cancel]
  · rfl

theorem at_zero (base : BitVec 64) : at_ base 0 = base := BitVec.add_zero base

theorem at_succ (base : BitVec 64) (k : ℕ) : at_ base k + 4 = at_ base (k + 1) := by
  unfold at_
  rw [BitVec.add_assoc, Nat.mul_succ, BitVec.ofNat_add]
  rfl

/-- **Straight code runs through.** -/
theorem run_straight {n : ℕ} {m : Machine} (hpc : m.pc = at_ base 0) (hn : n ≤ code.length)
    (hsize : code.length < 2 ^ 60) (h : ∀ i ∈ code.take n, i.isBranch = false) :
    run sym base code n m = some ((code.take n).foldl (fun m i => i.run sym m) m)
      ∧ ((code.take n).foldl (fun m i => i.run sym m) m).pc = at_ base n := by
  induction n with
  | zero => exact ⟨rfl, hpc⟩
  | succ n ih =>
      have hlt : n < code.length := by omega
      have htake : code.take (n + 1) = code.take n ++ [code[n]] :=
        List.take_succ_eq_append_getElem hlt
      rw [htake] at h
      obtain ⟨hrun, hpc'⟩ := ih (by omega) fun i hi => h i (List.mem_append_left _ hi)
      have hbranch := h code[n] (List.mem_append_right _ (List.mem_singleton_self _))
      rw [htake, List.foldl_append]
      generalize (code.take n).foldl (fun m i => i.run sym m) m = t at hrun hpc'
      constructor
      · show (run sym base code n m).bind _ = _
        rw [hrun, Option.bind_some]
        unfold step
        rw [hpc', fetch_at (by omega), List.getElem?_eq_getElem hlt]
        rfl
      · show (code[n].target sym t.pc) = _
        rw [Instr.target_of_not_branch hbranch, hpc', at_succ]

/-- After its last step a machine does nothing. -/
theorem run_of_stuck {n k : ℕ} {m t : Machine} (h : run sym base code n m = some t)
    (hstuck : step sym base code t = none) (hk : n < k) : run sym base code k m = none := by
  induction k with
  | zero => omega
  | succ k ih =>
      show (run sym base code k m).bind _ = none
      by_cases hnk : n < k
      · rw [ih hnk]
        rfl
      · obtain rfl : k = n := by omega
        rw [h]
        exact hstuck

end AArch64
