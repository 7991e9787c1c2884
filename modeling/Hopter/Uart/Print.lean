import Hopter.Lib.Numeral

/-!
# Numbers on the UART

`uart_hex` and `uart_usize` of `main.rs`. Both fill a buffer from its end, one digit
for each round of a loop, and print what is behind the last index. The arithmetic is
checked, so a buffer that is too small would panic, and it is the panic handler that
prints numbers. `none` is a panic here.
-/

namespace Hopter.Uart

/-- `+` on `u8`. -/
def addU8 (a b : UInt8) : Option UInt8 := if a.toNat + b.toNat < 2 ^ 8 then some (a + b) else none

/-- `-` on `u8`. -/
def subU8 (a b : UInt8) : Option UInt8 := if b ≤ a then some (a - b) else none

/-- The bytes that `uart_print` emits. -/
def uartPrint (s : String) : List UInt8 :=
  s.toUTF8.data.toList.flatMap fun b =>
    if b = '\n'.toUInt8 then ['\r'.toUInt8, b] else [b]

/-- `while v > 0`: an index down, a digit into the buffer, and on to the rest of the number. -/
def fill (digit : BitVec 64 → Option UInt8) (next : BitVec 64 → BitVec 64) {width : ℕ} :
    BitVec 64 → ℕ → Vector UInt8 width → Option (ℕ × Vector UInt8 width)
  | v, 0, buf => if 0 < v then none else some (0, buf)
  | v, i + 1, buf =>
      if 0 < v then
        (digit v).bind fun b =>
          if h : i < width then fill digit next (next v) i (buf.set i b h) else none
      else some (i + 1, buf)

/-- A number, with a buffer of `width` bytes. -/
def printDigits (width : ℕ) (digit : BitVec 64 → Option UInt8) (next : BitVec 64 → BitVec 64)
    (v : BitVec 64) : Option (List UInt8) :=
  if v = 0 then some ['0'.toUInt8]
  else
    (fill digit next v width (Vector.replicate width 0)).bind fun r =>
      -- `&buf[i..]`
      if r.1 ≤ width then some (r.2.toList.drop r.1) else none

/-- `if d < 10 { b'0' + d } else { b'a' + d - 10 }` -/
def hexSymbol (d : UInt8) : Option UInt8 :=
  if d < 10 then addU8 '0'.toUInt8 d else (addU8 'a'.toUInt8 d).bind fun b => subU8 b 10

def uartHex (v : BitVec 64) : Option (List UInt8) :=
  (printDigits 16 (fun v => hexSymbol (.ofBitVec ((v &&& 0xf).setWidth 8)))
    (fun v => v >>> 4) v).map fun digits => uartPrint "0x" ++ digits

def uartUsize (v : BitVec 64) : Option (List UInt8) :=
  printDigits 20 (fun v => addU8 '0'.toUInt8 (.ofBitVec ((v % 10).setWidth 8))) (fun v => v / 10) v

/-! ## Reading back -/

/-- The digit that a byte stands for, in a base up to 16. -/
def digitValue (base : ℕ) (b : UInt8) : Option ℕ :=
  let d :=
    if '0'.toUInt8 ≤ b ∧ b ≤ '9'.toUInt8 then some (b.toNat - '0'.toNat)
    else if 'a'.toUInt8 ≤ b ∧ b ≤ 'f'.toUInt8 then some (b.toNat - 'a'.toNat + 10)
    else none
  d.filter fun d => decide (d < base)

/-- The bytes are the canonical numeral of `n`. -/
def IsNumeral (base n : ℕ) (bytes : List UInt8) : Prop :=
  ∃ ds, bytes.mapM (digitValue base) = some ds ∧ Numeral.Writes base n ds

section

variable {base width : ℕ} {digit : BitVec 64 → Option UInt8} {next : BitVec 64 → BitVec 64}

theorem fill_zero (i : ℕ) (buf : Vector UInt8 width) :
    fill digit next 0 i buf = some (i, buf) := by
  cases i <;> simp [fill]

/-- **The loop.** It takes an index for each digit of the number, and leaves the digits behind the
last one, in front of what has been there. -/
theorem fill_spec (hbase : 1 < base)
    (hdigit : ∀ v, (digit v).bind (digitValue base) = some (v.toNat % base))
    (hnext : ∀ v, (next v).toNat = v.toNat / base) (v : BitVec 64) (i : ℕ)
    (buf : Vector UInt8 width) (hfit : (Nat.digits base v.toNat).length ≤ i) (hi : i ≤ width) :
    ∃ j buf' bytes, fill digit next v i buf = some (j, buf') ∧ j ≤ i
      ∧ buf'.toList.drop j = bytes ++ buf.toList.drop i
      ∧ bytes.mapM (digitValue base) = some (Nat.digits base v.toNat).reverse := by
  induction i generalizing v buf with
  | zero =>
      have hv : v.toNat = 0 := by
        rw [Nat.le_zero, List.length_eq_zero_iff, Nat.digits_eq_nil_iff_eq_zero] at hfit
        exact hfit
      obtain rfl : v = 0 := BitVec.eq_of_toNat_eq hv
      exact ⟨0, buf, [], fill_zero 0 buf, Nat.le_refl 0, by simp, by simp⟩
  | succ i ih =>
      by_cases hv : v.toNat = 0
      · obtain rfl : v = 0 := BitVec.eq_of_toNat_eq hv
        exact ⟨i + 1, buf, [], fill_zero (i + 1) buf, Nat.le_refl _, by simp, by simp⟩
      · have hpos : 0 < v := by
          rw [BitVec.lt_def]
          simpa using Nat.pos_of_ne_zero hv
        have hdigits : Nat.digits base v.toNat
            = v.toNat % base :: Nat.digits base (next v).toNat := by
          rw [hnext, Nat.digits_def' hbase (Nat.pos_of_ne_zero hv)]
        rw [hdigits, List.length_cons] at hfit
        obtain ⟨b, hb, hvalue⟩ := Option.bind_eq_some_iff.mp (hdigit v)
        obtain ⟨j, buf', bytes, hfill, hj, hdrop, hbytes⟩ :=
          ih (next v) (buf.set i b hi) (by omega) (by omega)
        refine ⟨j, buf', bytes ++ [b], ?_, by omega, ?_, ?_⟩
        · have hlt : i < width := hi
          simp only [fill, if_pos hpos, hb, Option.bind_some, dif_pos hlt, hfill]
        · -- the digit of this round stands in front of the old contents
          have hset : (buf.set i b hi).toList.drop i = b :: buf.toList.drop (i + 1) := by
            have hlen : i < (buf.toList.set i b).length := by simpa using hi
            rw [Vector.toList_set, List.drop_eq_getElem_cons hlen, List.getElem_set_self,
              List.drop_set_of_lt (Nat.lt_succ_self i)]
          rw [hdrop, hset, List.append_assoc, List.singleton_append]
        · rw [hdigits, List.reverse_cons, List.mapM_append, hbytes]
          simp [hvalue]

/-- **What is printed** is the numeral, if the buffer is as long as the longest one. -/
theorem printDigits_spec (hbase : 1 < base) (hzero : digitValue base '0'.toUInt8 = some 0)
    (hdigit : ∀ v, (digit v).bind (digitValue base) = some (v.toNat % base))
    (hnext : ∀ v, (next v).toNat = v.toNat / base) (hwidth : 2 ^ 64 ≤ base ^ width)
    (v : BitVec 64) : ∃ bytes, printDigits width digit next v = some bytes
      ∧ IsNumeral base v.toNat bytes := by
  by_cases hv : v = 0
  · subst hv
    exact ⟨_, rfl, [0], by simp [hzero], Numeral.writes_zero (by omega)⟩
  · have hne : v.toNat ≠ 0 := fun h => hv (BitVec.eq_of_toNat_eq h)
    have hlen : (Nat.digits base v.toNat).length ≤ width := by
      rw [Nat.digits_length_le_iff hbase]
      exact Nat.lt_of_lt_of_le v.isLt hwidth
    obtain ⟨j, buf, bytes, hfill, hj, hdrop, hbytes⟩ :=
      fill_spec hbase hdigit hnext v width (Vector.replicate width 0) hlen (Nat.le_refl width)
    have hend : (Vector.replicate width (0 : UInt8)).toList.drop width = [] := by simp
    rw [hend, List.append_nil] at hdrop
    refine ⟨bytes, ?_, _, hbytes, Numeral.writes_digits hbase hne⟩
    simp only [printDigits, if_neg hv, hfill, Option.bind_some, if_pos hj, hdrop]

end

theorem hexSymbol_value (v : BitVec 64) :
    (hexSymbol (.ofBitVec ((v &&& 0xf).setWidth 8))).bind (digitValue 16)
      = some (v.toNat % 16) := by
  have hall : ∀ d < 16, (hexSymbol (.ofNat d)).bind (digitValue 16) = some d := by decide
  have hd : (v &&& 0xf).setWidth 8 = BitVec.ofNat 8 (v.toNat % 16) := by
    apply BitVec.eq_of_toNat_eq
    have hmask : (v &&& 0xf).toNat = v.toNat % 16 := by
      rw [BitVec.toNat_and]
      exact Nat.and_two_pow_sub_one_eq_mod v.toNat 4
    rw [BitVec.toNat_setWidth, hmask, BitVec.toNat_ofNat]
  rw [hd]
  exact hall _ (Nat.mod_lt _ (by omega))

theorem decSymbol_value (v : BitVec 64) :
    (addU8 '0'.toUInt8 (.ofBitVec ((v % 10).setWidth 8))).bind (digitValue 10)
      = some (v.toNat % 10) := by
  have hall : ∀ d < 10, (addU8 '0'.toUInt8 (.ofNat d)).bind (digitValue 10) = some d := by decide
  have hd : (v % 10).setWidth 8 = BitVec.ofNat 8 (v.toNat % 10) := by
    apply BitVec.eq_of_toNat_eq
    rw [BitVec.toNat_setWidth, BitVec.toNat_umod, BitVec.toNat_ofNat]
    rfl
  rw [hd]
  exact hall _ (Nat.mod_lt _ (by omega))

theorem uartHex_spec (v : BitVec 64) :
    ∃ bytes, uartHex v = some (uartPrint "0x" ++ bytes) ∧ IsNumeral 16 v.toNat bytes := by
  have hnext : ∀ v : BitVec 64, (v >>> 4).toNat = v.toNat / 16 := by
    intro v
    rw [BitVec.toNat_ushiftRight, Nat.shiftRight_eq_div_pow]
  obtain ⟨bytes, hprint, hnumeral⟩ : ∃ bytes, printDigits 16 _ _ v = some bytes ∧ _ :=
    printDigits_spec (by omega) (by decide) hexSymbol_value hnext (by decide) v
  exact ⟨bytes, by rw [uartHex, hprint]; rfl, hnumeral⟩

theorem uartUsize_spec (v : BitVec 64) :
    ∃ bytes, uartUsize v = some bytes ∧ IsNumeral 10 v.toNat bytes := by
  have hnext : ∀ v : BitVec 64, (v / 10).toNat = v.toNat / 10 := fun v => BitVec.toNat_udiv
  exact printDigits_spec (by omega) (by decide) decSymbol_value hnext (by decide) v

/-- **Number printing is exact and never leaves its buffer.** -/
theorem printing_exact :
    (∀ v, ∃ bytes, uartHex v = some (uartPrint "0x" ++ bytes) ∧ IsNumeral 16 v.toNat bytes)
      ∧ ∀ v, ∃ bytes, uartUsize v = some bytes ∧ IsNumeral 10 v.toNat bytes :=
  ⟨uartHex_spec, uartUsize_spec⟩

/-! ## The panic handler -/

/-- What `panic_handler` prints, for a location if there is one, before it starts to unwind. -/
def panicHandler (location : Option (String × BitVec 32)) : Option (List UInt8) := do
  let place ←
    match location with
    | some (file, line) => do
        let line ← uartUsize (line.setWidth 64)
        some (uartPrint file ++ uartPrint ":" ++ line)
    | none => some []
  some (uartPrint "\n[panic_handler] panic at " ++ place ++ uartPrint "\n"
    ++ uartPrint "[panic_handler] calling start_unwind_entry()...\n\n")

/-- What `backtrace_cb` prints for a frame. -/
def backtraceCb (n ip : BitVec 64) : Option (List UInt8) := do
  let n ← uartUsize n
  let ip ← uartHex ip
  some (uartPrint "  #" ++ n ++ uartPrint "  " ++ ip ++ uartPrint "\n")

/-- The handler does not panic itself. -/
theorem panicHandler_prints (location : Option (String × BitVec 32)) :
    ∃ out, panicHandler location = some out := by
  cases location with
  | none => exact ⟨_, rfl⟩
  | some place =>
      obtain ⟨bytes, hline, -⟩ := uartUsize_spec (place.2.setWidth 64)
      exact ⟨_, by simp only [panicHandler, hline, Option.bind_eq_bind, Option.bind_some]; rfl⟩

theorem backtraceCb_prints (n ip : BitVec 64) : ∃ out, backtraceCb n ip = some out := by
  obtain ⟨frame, hn, -⟩ := uartUsize_spec n
  obtain ⟨address, hip, -⟩ := uartHex_spec ip
  exact ⟨_, by simp only [backtraceCb, hn, hip, Option.bind_eq_bind, Option.bind_some]; rfl⟩

end Hopter.Uart
