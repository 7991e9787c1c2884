import Hopter.Uart.Print

/-!
# What can be read back from the UART

`uart_print` sends a carriage return in front of every newline, and `print_backtrace`
sends a line for each frame: its number, and the address in it. Whoever is at the
other end gets the text back, and the frames.
-/

namespace Hopter.Uart

/-! ## Text -/

/-- What a terminal makes of the bytes: a newline with its carriage return is one line end. -/
def unCrlf : List UInt8 → List UInt8
  | [] => []
  | [b] => [b]
  | b :: b' :: rest =>
      if b = '\r'.toUInt8 ∧ b' = '\n'.toUInt8 then b' :: unCrlf rest else b :: unCrlf (b' :: rest)

/-- The bytes of `uart_print`, for the bytes of the string. -/
def crlf (bytes : List UInt8) : List UInt8 :=
  bytes.flatMap fun b => if b = '\n'.toUInt8 then ['\r'.toUInt8, b] else [b]

theorem uartPrint_eq (s : String) : uartPrint s = crlf s.toUTF8.data.toList := rfl

/-- Nothing that is sent begins with a newline. -/
theorem crlf_head (bytes : List UInt8) : (crlf bytes).head? ≠ some '\n'.toUInt8 := by
  cases bytes with
  | nil => exact nofun
  | cons b bytes =>
      simp only [crlf, List.flatMap_cons]
      split
      · show some '\r'.toUInt8 ≠ some '\n'.toUInt8
        decide
      · rename_i hb
        simpa using hb

/-- A byte that is no newline is taken as it is. -/
theorem unCrlf_cons {b : UInt8} {rest : List UInt8} (h : rest.head? ≠ some '\n'.toUInt8) :
    unCrlf (b :: rest) = b :: unCrlf rest := by
  cases rest with
  | nil => rfl
  | cons b' rest =>
      have hb' : b' ≠ '\n'.toUInt8 := by simpa using h
      rw [unCrlf, if_neg fun hcr => hb' hcr.2]

/-- **The text comes through.** -/
theorem unCrlf_crlf (bytes : List UInt8) : unCrlf (crlf bytes) = bytes := by
  induction bytes with
  | nil => rfl
  | cons b bytes ih =>
      have hcons : crlf (b :: bytes)
          = (if b = '\n'.toUInt8 then ['\r'.toUInt8, b] else [b]) ++ crlf bytes := rfl
      rw [hcons]
      split
      · rename_i hb
        rw [hb]
        show unCrlf ('\r'.toUInt8 :: '\n'.toUInt8 :: crlf bytes) = _
        rw [unCrlf, if_pos ⟨rfl, rfl⟩, ih]
      · show unCrlf (b :: crlf bytes) = _
        rw [unCrlf_cons (crlf_head bytes), ih]

/-! ## Numbers -/

/-- The number at the front, as far as there are digits. -/
def readNumeral (base : ℕ) : List UInt8 → ℕ → ℕ × List UInt8
  | [], n => (n, [])
  | b :: rest, n =>
      match digitValue base b with
      | some d => readNumeral base rest (n * base + d)
      | none => (n, b :: rest)

/-- What follows is not a part of the number. -/
def Stops (base : ℕ) (rest : List UInt8) : Prop := ∀ b ∈ rest.head?, digitValue base b = none

theorem readNumeral_stops {base : ℕ} {rest : List UInt8} (h : Stops base rest) (n : ℕ) :
    readNumeral base rest n = (n, rest) := by
  cases rest with
  | nil => rfl
  | cons b rest =>
      have hb : digitValue base b = none := h b rfl
      simp only [readNumeral, hb]

theorem readNumeral_digits {base : ℕ} {rest : List UInt8} (h : Stops base rest) {bytes : List UInt8}
    {ds : List ℕ} (hds : bytes.mapM (digitValue base) = some ds) (n : ℕ) :
    readNumeral base (bytes ++ rest) n = (ds.foldl (fun n d => n * base + d) n, rest) := by
  induction bytes generalizing ds n with
  | nil =>
      simp only [List.mapM_nil, Option.pure_def, Option.some.injEq] at hds
      subst hds
      exact readNumeral_stops h n
  | cons b bytes ih =>
      simp only [List.mapM_cons, Option.bind_eq_bind, Option.pure_def, Option.bind_eq_some_iff,
        Option.some.injEq] at hds
      obtain ⟨d, hd, ds, hds, rfl⟩ := hds
      simp only [List.cons_append, readNumeral, hd, List.foldl_cons]
      exact ih hds _

theorem readNumeral_spec {base n : ℕ} {bytes rest : List UInt8} (h : IsNumeral base n bytes)
    (hrest : Stops base rest) : readNumeral base (bytes ++ rest) 0 = (n, rest) := by
  obtain ⟨ds, hds, hwrites⟩ := h
  rw [readNumeral_digits hrest hds, ← hwrites.value_eq]
  rfl

/-! ## Backtraces -/

/-- `print_backtrace`, behind its first line: the callback counts the frames that
`_Unwind_Backtrace` finds, and `*n += 1` is checked. -/
def backtraceFrames : BitVec 64 → List (BitVec 64) → Option (List UInt8)
  | _, [] => some []
  | n, ip :: ips => do
      let line ← backtraceCb n ip
      if n = BitVec.allOnes 64 then none
      else
        let lines ← backtraceFrames (n + 1) ips
        some (line ++ lines)

/-- `print_backtrace`, for the addresses in the frames. -/
def printBacktrace (ips : List (BitVec 64)) : Option (List UInt8) := do
  let lines ← backtraceFrames 0 ips
  some (uartPrint "stack backtrace:\n" ++ lines)

/-- One line: the number of the frame, and the address. -/
def readFrame (bytes : List UInt8) : Option ((ℕ × ℕ) × List UInt8) := do
  let bytes ← (uartPrint "  #").isPrefixOf? bytes
  let (n, bytes) := readNumeral 10 bytes 0
  let bytes ← (uartPrint "  ").isPrefixOf? bytes
  let bytes ← (uartPrint "0x").isPrefixOf? bytes
  let (ip, bytes) := readNumeral 16 bytes 0
  let bytes ← (uartPrint "\n").isPrefixOf? bytes
  some ((n, ip), bytes)

/-- At most `k` lines. -/
def readFrames : ℕ → List UInt8 → Option (List (ℕ × ℕ))
  | _, [] => some []
  | 0, _ :: _ => none
  | k + 1, bytes => do
      let (frame, bytes) ← readFrame bytes
      let frames ← readFrames k bytes
      some (frame :: frames)

def readBacktrace (bytes : List UInt8) : Option (List (ℕ × ℕ)) := do
  let bytes ← (uartPrint "stack backtrace:\n").isPrefixOf? bytes
  readFrames bytes.length bytes

theorem isPrefixOf?_append (front rest : List UInt8) :
    front.isPrefixOf? (front ++ rest) = some rest :=
  List.isPrefixOf?_eq_some_iff_append_eq.mpr rfl

/-- A line can be read back, whatever follows. -/
theorem readFrame_backtraceCb (n ip : BitVec 64) : ∃ line, backtraceCb n ip = some line
    ∧ line ≠ [] ∧ ∀ rest, readFrame (line ++ rest) = some ((n.toNat, ip.toNat), rest) := by
  obtain ⟨number, hnumber, hn⟩ := uartUsize_spec n
  obtain ⟨address, haddress, hip⟩ := uartHex_spec ip
  have hspace : ∀ rest, Stops 10 (uartPrint "  " ++ rest) := by
    intro rest b hb
    have hhead : b = ' '.toUInt8 := by
      have : some ' '.toUInt8 = some b := hb
      simpa using this.symm
    rw [hhead]
    decide
  have hline : ∀ rest, Stops 16 (uartPrint "\n" ++ rest) := by
    intro rest b hb
    have hhead : b = '\r'.toUInt8 := by
      have : some '\r'.toUInt8 = some b := hb
      simpa using this.symm
    rw [hhead]
    decide
  refine ⟨_, by
    simp only [backtraceCb, hnumber, haddress, Option.bind_eq_bind, Option.bind_some]
    rfl, ?_, fun rest => ?_⟩
  · intro h
    cases h
  · simp only [List.append_assoc, readFrame, isPrefixOf?_append, Option.bind_eq_bind,
      Option.bind_some, readNumeral_spec hn (hspace _), readNumeral_spec hip (hline _)]

theorem readFrames_backtraceFrames (ips : List (BitVec 64)) (n : BitVec 64)
    (hfit : n.toNat + ips.length < 2 ^ 64) : ∃ lines, backtraceFrames n ips = some lines
      ∧ ips.length ≤ lines.length ∧ ∀ k, ips.length ≤ k →
        readFrames k lines = some ((ips.zipIdx n.toNat).map fun p => (p.2, p.1.toNat)) := by
  induction ips generalizing n with
  | nil =>
      refine ⟨[], rfl, Nat.le_refl 0, fun k _ => ?_⟩
      cases k <;> rfl
  | cons ip ips ih =>
      obtain ⟨line, hline, hne, hread⟩ := readFrame_backtraceCb n ip
      rw [List.length_cons] at hfit
      have hnext : (n + 1).toNat = n.toNat + 1 := by
        rw [BitVec.toNat_add, Nat.mod_eq_of_lt]
        · rfl
        · show n.toNat + 1 < 2 ^ 64
          omega
      have hlast : n ≠ BitVec.allOnes 64 := by
        rintro rfl
        rw [BitVec.toNat_allOnes] at hfit
        omega
      obtain ⟨lines, hlines, hlength, hreads⟩ := ih (n + 1) (by rw [hnext]; omega)
      refine ⟨line ++ lines, ?_, ?_, fun k hk => ?_⟩
      · simp only [backtraceFrames, hline, Option.bind_eq_bind, Option.bind_some, if_neg hlast,
          hlines]
      · have := List.length_pos_iff.mpr hne
        rw [List.length_append, List.length_cons]
        omega
      · rw [List.length_cons] at hk
        obtain ⟨j, rfl⟩ : ∃ j, k = j + 1 := ⟨k - 1, by omega⟩
        obtain ⟨b, rest, hcons⟩ := List.exists_cons_of_ne_nil hne
        have hstep : readFrames (j + 1) (line ++ lines) = (readFrame (line ++ lines)).bind fun p =>
            (readFrames j p.2).bind fun frames => some (p.1 :: frames) := by
          rw [hcons]
          rfl
        rw [hstep, hread, Option.bind_some, hreads j (by omega), Option.bind_some, hnext]
        rfl

/--
**What is printed can be read back.**

The other end of the line gets every string as it was, whatever line ends it has; and from the
backtrace of any stack it gets the addresses in the frames, each with its number.
-/
theorem uart_reads_back :
    (∀ s : String, unCrlf (uartPrint s) = s.toUTF8.data.toList)
      ∧ ∀ ips : List (BitVec 64), ips.length < 2 ^ 64 → ∃ out, printBacktrace ips = some out
        ∧ readBacktrace out = some (ips.zipIdx.map fun p => (p.2, p.1.toNat)) := by
  refine ⟨fun s => by rw [uartPrint_eq, unCrlf_crlf], fun ips hfit => ?_⟩
  obtain ⟨lines, hlines, hlength, hreads⟩ :=
    readFrames_backtraceFrames ips 0 (by simpa using hfit)
  refine ⟨uartPrint "stack backtrace:\n" ++ lines, ?_, ?_⟩
  · simp only [printBacktrace, hlines, Option.bind_eq_bind, Option.bind_some]
  · simp only [readBacktrace, isPrefixOf?_append, Option.bind_eq_bind, Option.bind_some]
    exact hreads lines.length hlength

theorem uart_reads_back_frames :
    ∃ out, printBacktrace [0x40000a10, 0x400000c4, 0] = some out
      ∧ readBacktrace out = some [(0, 0x40000a10), (1, 0x400000c4), (2, 0)] :=
  uart_reads_back.2 [0x40000a10, 0x400000c4, 0] (by decide)

end Hopter.Uart
