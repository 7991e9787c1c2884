import Hopter.Bump.Disjoint

/-!
# What is in the heap

The bytes of `HeapStorage`, written through the pointers that `alloc` has returned, by
any thread, also after the block was deallocated. `BumpAllocator` has no `alloc_zeroed`
and no `realloc` of its own, so the defaults of `GlobalAlloc` are in use, and they rest
on what is in a block: it starts with zeros that nobody has written over, and what is
copied into a new block stays.

`Blocks` is what the programs may think of: every block is an array of its own, and
all arrays exist from the start. The one heap does what they do.
-/

namespace Hopter.Bump

open Conc

variable {ι : Type} [DecidableEq ι] {p : Program}

structure Memory (ι : Type) where
  machine : Machine ι
  /-- `HeapStorage`, by offsets. -/
  bytes : ℕ → UInt8

/-- `HeapStorage([0; HEAP_SIZE])` -/
def Memory.init : Memory ι := ⟨.init, fun _ => 0⟩

inductive MemAct where
  /-- A step of `alloc` or `dealloc`. -/
  | allocator (a : Act)
  /-- A byte is written into block number `block`. -/
  | write (block off : ℕ) (v : UInt8)
  /-- One byte of `copy_nonoverlapping`. -/
  | copy (src dst off : ℕ)
  deriving DecidableEq

/-- The blocks, by the order in which they were allocated. -/
def Memory.block? (s : Memory ι) (j : ℕ) : Option Allocation :=
  s.machine.shared.allocations.reverse[j]?

/-- The offset of a byte of a block. -/
def Allocation.at_ (a : Allocation) (off : ℕ) : ℕ := a.aligned.toNat + off

def Memory.step (p : Program) (s : Memory ι) (e : ι × MemAct) : Option (Memory ι) :=
  match e.2 with
  | .allocator a => (Machine.step p s.machine (e.1, a)).map fun m => { s with machine := m }
  | .write j off v =>
      (s.block? j).bind fun a =>
        if off < a.layout.size.toNat then
          some { s with bytes := Function.update s.bytes (a.at_ off) v }
        else none
  | .copy j k off =>
      (s.block? j).bind fun a => (s.block? k).bind fun b =>
        if off < a.layout.size.toNat ∧ off < b.layout.size.toNat then
          some { s with bytes := Function.update s.bytes (b.at_ off) (s.bytes (a.at_ off)) }
        else none

/-! ## Arrays of their own -/

/-- The contents of every block. -/
abbrev Blocks := ℕ → ℕ → UInt8

namespace Blocks

def new : Blocks := fun _ _ => 0

def set (b : Blocks) (j off : ℕ) (v : UInt8) : Blocks :=
  Function.update b j (Function.update (b j) off v)

def step (b : Blocks) : MemAct → Blocks
  | .allocator _ => b
  | .write j off v => b.set j off v
  | .copy j k off => b.set k off (b j off)

def run (b : Blocks) (es : List (ι × MemAct)) : Blocks := es.foldl (fun b e => b.step e.2) b

omit [DecidableEq ι] in
theorem run_concat (b : Blocks) (es : List (ι × MemAct)) (e : ι × MemAct) :
    b.run (es ++ [e]) = (b.run es).step e.2 := List.foldl_concat _ _ _ _

theorem set_self (b : Blocks) (j off : ℕ) (v : UInt8) : b.set j off v j off = v := by
  simp [set]

theorem set_of_ne {b : Blocks} {j off j' off' : ℕ} {v : UInt8} (h : j' = j → off' ≠ off) :
    b.set j off v j' off' = b j' off' := by
  unfold set
  by_cases hj : j' = j
  · subst hj
    rw [Function.update_self, Function.update_of_ne (h rfl)]
  · rw [Function.update_of_ne hj]

/-- What a step writes to. -/
def writes : MemAct → ℕ → ℕ → Prop
  | .allocator _, _, _ => False
  | .write j off _, k, o => j = k ∧ off = o
  | .copy _ j off, k, o => j = k ∧ off = o

theorem step_of_not_writes {b : Blocks} {e : MemAct} {k o : ℕ} (h : ¬ writes e k o) :
    b.step e k o = b k o := by
  cases e with
  | allocator a => rfl
  | write j off v => exact set_of_ne fun hk ho => h ⟨hk.symm, ho.symm⟩
  | copy i j off => exact set_of_ne fun hk ho => h ⟨hk.symm, ho.symm⟩

omit [DecidableEq ι] in
/-- **A block is copied**, byte after byte in some order, while others write elsewhere. -/
theorem run_copies {b : Blocks} {j k n : ℕ} {es : List (ι × MemAct)}
    (hfrom : ∀ e ∈ es, ∀ off < n, ¬ writes e.2 j off)
    (honto : ∀ e ∈ es, ∀ off < n, writes e.2 k off → e.2 = .copy j k off) {off : ℕ}
    (hoff : off < n) :
    b.run es j off = b j off
      ∧ ((∃ e ∈ es, e.2 = .copy j k off) → b.run es k off = b j off) := by
  induction es using List.reverseRecOn with
  | nil => exact ⟨rfl, fun ⟨e, he, _⟩ => absurd he List.not_mem_nil⟩
  | append_singleton es e ih =>
      obtain ⟨hold, hnew⟩ := ih (fun d hd => hfrom d (List.mem_append_left _ hd))
        fun d hd => honto d (List.mem_append_left _ hd)
      have hlast : e ∈ es ++ [e] := List.mem_append_right _ List.mem_cons_self
      rw [run_concat]
      refine ⟨(step_of_not_writes (hfrom e hlast off hoff)).trans hold, fun ⟨d, hd, hcopy⟩ => ?_⟩
      by_cases hw : writes e.2 k off
      · -- it is this byte that is copied
        rw [honto e hlast off hoff hw]
        exact (set_self _ k off _).trans hold
      · rw [step_of_not_writes hw]
        rcases List.mem_append.mp hd with hmem | hmem
        · exact hnew ⟨d, hmem, hcopy⟩
        · obtain rfl := List.mem_singleton.mp hmem
          exact absurd (hcopy ▸ ⟨rfl, rfl⟩) hw

end Blocks

/-! ## The heap does what the arrays do -/

/-- The heap holds what the arrays hold, and zeros where nothing is allocated. -/
structure Memory.Refines (p : Program) (s : Memory ι) (b : Blocks) : Prop where
  sound : s.machine.Sound p
  bytes : ∀ j a, s.block? j = some a → ∀ off < a.layout.size.toNat, s.bytes (a.at_ off) = b j off
  /-- Above the watermark. -/
  heap_fresh : ∀ x, s.machine.shared.next.toNat ≤ x → s.bytes x = 0
  /-- Blocks to come. -/
  blocks_fresh : ∀ j, s.machine.shared.allocations.length ≤ j → ∀ off, b j off = 0

omit [DecidableEq ι] in
theorem block?_lt {s : Memory ι} {j : ℕ} {a : Allocation} (h : s.block? j = some a) :
    j < s.machine.shared.allocations.length := by
  have hlt := (List.getElem?_eq_some_iff.mp h).1
  rwa [List.length_reverse] at hlt

omit [DecidableEq ι] in
/-- A byte of a block is below the watermark. -/
theorem at_lt_next {s : Memory ι} (h : s.machine.Sound p) {j off : ℕ} {a : Allocation}
    (ha : s.block? j = some a) (hoff : off < a.layout.size.toNat) :
    a.at_ off < s.machine.shared.next.toNat := by
  have hmem : a ∈ s.machine.shared.allocations :=
    List.mem_reverse.mp (List.mem_of_getElem? ha)
  have htop : a.aligned.toNat + a.layout.size.toNat ≤ s.machine.shared.next.toNat :=
    h.shared.stacked.top _ (List.mem_map_of_mem hmem)
  unfold Allocation.at_
  omega

omit [DecidableEq ι] in
/-- **Blocks do not share bytes.** -/
theorem at_inj {s : Memory ι} (h : s.machine.Sound p) {j k off off' : ℕ} {a b : Allocation}
    (ha : s.block? j = some a) (hb : s.block? k = some b) (hoff : off < a.layout.size.toNat)
    (hoff' : off' < b.layout.size.toNat) (heq : a.at_ off = b.at_ off') : j = k ∧ off = off' := by
  let blocks := s.machine.shared.allocations
  have hextent : ∀ {i : ℕ} {d : Allocation}, s.block? i = some d →
      (blocks.map Allocation.extent)[blocks.length - 1 - i]? = some d.extent := by
    intro i d hd
    have hlt := block?_lt hd
    unfold Memory.block? at hd
    rw [List.getElem?_reverse hlt] at hd
    rw [List.getElem?_map, hd]
    rfl
  have hin : ∀ {d : Allocation} {o : ℕ}, o < d.layout.size.toNat → d.at_ o ∈ d.extent.span := by
    intro d o ho
    exact ⟨Nat.le_add_right _ _, Nat.add_lt_add_left ho _⟩
  have hplace := h.shared.stacked.unique (hextent ha) (hextent hb) (hin hoff) (heq ▸ hin hoff')
  have hja := block?_lt ha
  have hkb := block?_lt hb
  obtain rfl : j = k := by
    have : blocks.length - 1 - j = blocks.length - 1 - k := hplace
    have : s.machine.shared.allocations.length = blocks.length := rfl
    omega
  obtain rfl : a = b := Option.some.inj (ha.symm.trans hb)
  exact ⟨rfl, Nat.add_left_cancel heq⟩

omit [DecidableEq ι] in
/-- One byte of a block is written. -/
theorem Memory.Refines.set {s : Memory ι} {b : Blocks} (h : s.Refines p b) {k off : ℕ}
    {a : Allocation} (ha : s.block? k = some a) (hoff : off < a.layout.size.toNat) (v : UInt8) :
    Memory.Refines p { s with bytes := Function.update s.bytes (a.at_ off) v } (b.set k off v) := by
  refine ⟨h.sound, fun j d hd o ho => ?_, fun x hx => ?_, fun j hj o => ?_⟩
  · by_cases hsame : d.at_ o = a.at_ off
    · obtain ⟨rfl, rfl⟩ := at_inj h.sound hd ha ho hoff hsame
      show Function.update s.bytes (a.at_ o) v (d.at_ o) = _
      rw [hsame, Function.update_self, Blocks.set_self]
    · show Function.update s.bytes (a.at_ off) v (d.at_ o) = _
      rw [Function.update_of_ne hsame, Blocks.set_of_ne]
      · exact h.bytes j d hd o ho
      · rintro rfl rfl
        obtain rfl : d = a := Option.some.inj (hd.symm.trans ha)
        exact hsame rfl
  · have hlt := at_lt_next h.sound ha hoff
    show Function.update s.bytes (a.at_ off) v x = 0
    rw [Function.update_of_ne (by have : s.machine.shared.next.toNat ≤ x := hx; omega)]
    exact h.heap_fresh x hx
  · have hlt := block?_lt ha
    have hj' : s.machine.shared.allocations.length ≤ j := hj
    rw [Blocks.set_of_ne (fun heq => by omega)]
    exact h.blocks_fresh j hj o

/-- A new block starts at the watermark or above, where nobody has written. -/
theorem Memory.Refines.allocator {s : Memory ι} {b : Blocks} (h : s.Refines p b) {e : ι × Act}
    {m : Machine ι} (hs : Machine.step p s.machine e = some m) :
    Memory.Refines p { s with machine := m } b := by
  obtain ⟨hsound, hgrows⟩ := sound_step h.sound hs
  have hsame : m.shared = s.machine.shared → Memory.Refines p { s with machine := m } b := by
    intro hshared
    refine ⟨hsound, fun j a ha => h.bytes j a ?_, fun x hx => h.heap_fresh x ?_,
      fun j hj => h.blocks_fresh j ?_⟩
    · unfold Memory.block? at ha ⊢
      rwa [hshared] at ha
    · rwa [hshared] at hx
    · rwa [hshared] at hj
  rcases BumpAllocator.step_cases (Config.local_of_step hs) with ⟨_, _, -, -, -, hshared, -⟩
    | ⟨_, -, -, -, hshared, -⟩ | ⟨call, aligned, end_, -, hcall, hpc, hnext, hshared, -⟩
    | ⟨_, _, _, -, -, -, -, hshared, -⟩ | ⟨_, _, -, -, -, hshared, -⟩ | ⟨_, _, -, -, hshared, -⟩
  · exact hsame hshared
  · exact hsame hshared
  · have hallocations : m.shared.allocations
        = ⟨call.layout, aligned⟩ :: s.machine.shared.allocations :=
      congrArg BumpAllocator.allocations hshared
    refine ⟨hsound, fun j a ha off hoff => ?_, fun x hx => h.heap_fresh x (hgrows.next.trans hx),
      fun j hj => h.blocks_fresh j ?_⟩
    · unfold Memory.block? at ha
      rw [hallocations, List.reverse_cons] at ha
      rcases Nat.lt_or_ge j s.machine.shared.allocations.length with hlt | hge
      · rw [List.getElem?_append_left (by rwa [List.length_reverse])] at ha
        exact h.bytes j a ha off hoff
      · obtain ⟨haligned, -⟩ := (h.sound.calls e.1 call hcall).exchange aligned end_ hpc
        have hstart := Word.le_alignUp (n := call.cur.toNat) call.layout.align_pos
        rw [List.getElem?_append_right (by rwa [List.length_reverse]),
          List.getElem?_singleton] at ha
        split at ha
        · cases ha
          rw [h.blocks_fresh j hge, h.heap_fresh]
          rw [hnext]
          show call.cur.toNat ≤ aligned.toNat + off
          omega
        · cases ha
    · have hlen : m.shared.allocations.length = s.machine.shared.allocations.length + 1 := by
        rw [hallocations, List.length_cons]
      have hj' : m.shared.allocations.length ≤ j := hj
      omega
  · exact hsame hshared
  · exact hsame hshared
  · exact hsame hshared

/-- **One step.** -/
theorem refines_step {s s' : Memory ι} {b : Blocks} {e : ι × MemAct} (h : s.Refines p b)
    (hs : s.step p e = some s') : s'.Refines p (b.step e.2) := by
  obtain ⟨i, act⟩ := e
  cases act with
  | allocator a =>
      obtain ⟨m, hm, rfl⟩ := Option.map_eq_some_iff.mp hs
      exact h.allocator hm
  | write j off v =>
      obtain ⟨a, ha, hs⟩ := Option.bind_eq_some_iff.mp hs
      obtain ⟨hoff, heq⟩ := Option.ite_none_right_eq_some.mp hs
      cases heq
      exact h.set ha hoff v
  | copy j k off =>
      obtain ⟨a, ha, hs⟩ := Option.bind_eq_some_iff.mp hs
      obtain ⟨d, hd, hs⟩ := Option.bind_eq_some_iff.mp hs
      obtain ⟨⟨hoff, hoff'⟩, heq⟩ := Option.ite_none_right_eq_some.mp hs
      cases heq
      show Memory.Refines p _ (b.set k off (b j off))
      rw [← h.bytes j a ha off hoff]
      exact h.set hd hoff' (s.bytes (a.at_ off))

omit [DecidableEq ι] in
theorem refines_init : (Memory.init : Memory ι).Refines p .new := by
  refine ⟨sound_init, fun j a ha => ?_, fun _ _ => rfl, fun _ _ _ => rfl⟩
  simp [Memory.block?, Memory.init, Machine.init, BumpAllocator.new] at ha

theorem refines_run {s s' : Memory ι} {b : Blocks} {es : List (ι × MemAct)} (h : s.Refines p b)
    (hrun : exec (Memory.step p) s es = some s') : s'.Refines p (b.run es) :=
  exec_history (I := fun es s' => s'.Refines p (b.run es)) h
    (fun _ h hs => by
      rw [Blocks.run_concat]
      exact refines_step h hs) hrun

/-- **The heap is a family of arrays.** After any run a block holds what was written to it last, and
zeros where nothing was, whatever was written to the others, in whatever order the threads took
their steps, and whether it was deallocated or not. -/
theorem heap_refines_blocks (p : Program) {s : Memory ι} {es : List (ι × MemAct)}
    (hrun : exec (Memory.step p) .init es = some s) {j : ℕ} {a : Allocation}
    (ha : s.block? j = some a) :
    ∀ off < a.layout.size.toNat, s.bytes (a.at_ off) = Blocks.new.run es j off :=
  (refines_run refines_init hrun).bytes j a ha

/-- Three threads write into two blocks, one of which has been deallocated. -/
def writtenRun : List (ℕ × MemAct) :=
  [(0, .allocator (.load word 0)), (1, .allocator (.load byte 0)), (1, .allocator .compute),
    (0, .allocator .compute), (1, .allocator .exchange), (1, .write 0 0 7),
    (0, .allocator .exchange), (0, .allocator .compute), (0, .allocator .exchange),
    (1, .allocator .ret), (1, .allocator (.dealloc 0 byte)), (0, .write 1 5 9), (2, .copy 1 0 0),
    (2, .write 1 23 3), (0, .copy 0 1 0)]

/-- The second block starts at the offset 8. -/
theorem heap_refines_blocks_written :
    ∃ s a, exec (Memory.step .mainWithUnwinding) .init writtenRun = some s
      ∧ s.block? 1 = some a ∧ a.aligned = 8
      ∧ ∀ off < a.layout.size.toNat, s.bytes (a.at_ off) = Blocks.new.run writtenRun 1 off := by
  have hblock : (exec (Memory.step .mainWithUnwinding) .init writtenRun).map (·.block? 1)
      = some (some ⟨word, 8⟩) := by decide
  obtain ⟨s, hrun, ha⟩ := Option.map_eq_some_iff.mp hblock
  exact ⟨s, _, hrun, ha, rfl, heap_refines_blocks .mainWithUnwinding hrun ha⟩

/-! ## What is copied into a new block -/

theorem grows_step {s s' : Memory ι} {e : ι × MemAct} (h : s.machine.Sound p)
    (hs : s.step p e = some s') : s.machine.shared.Grows s'.machine.shared := by
  obtain ⟨i, act⟩ := e
  cases act with
  | allocator a =>
      obtain ⟨m, hm, rfl⟩ := Option.map_eq_some_iff.mp hs
      exact (sound_step h hm).2
  | write j off v =>
      obtain ⟨d, -, hs⟩ := Option.bind_eq_some_iff.mp hs
      obtain ⟨-, heq⟩ := Option.ite_none_right_eq_some.mp hs
      cases heq
      exact .refl _
  | copy j k off =>
      obtain ⟨d, -, hs⟩ := Option.bind_eq_some_iff.mp hs
      obtain ⟨d', -, hs⟩ := Option.bind_eq_some_iff.mp hs
      obtain ⟨-, heq⟩ := Option.ite_none_right_eq_some.mp hs
      cases heq
      exact .refl _

theorem block?_run {s s' : Memory ι} {b : Blocks} {es : List (ι × MemAct)} (h : s.Refines p b)
    (hrun : exec (Memory.step p) s es = some s') {j : ℕ} {a : Allocation}
    (ha : s.block? j = some a) : s'.block? j = some a := by
  have hkept : s'.Refines p (b.run es) ∧ s'.block? j = some a := by
    refine exec_history (I := fun es s' => s'.Refines p (b.run es) ∧ s'.block? j = some a)
      ⟨h, ha⟩ (fun {es t t' e} _ ht hs => ?_) hrun
    rw [Blocks.run_concat]
    refine ⟨refines_step ht.1 hs, ?_⟩
    obtain ⟨later, hlater⟩ := (grows_step ht.1.sound hs).allocations
    have hlt := block?_lt ht.2
    show t'.machine.shared.allocations.reverse[j]? = some a
    rw [← hlater, List.reverse_append,
      List.getElem?_append_left (by rwa [List.length_reverse])]
    exact ht.2
  exact hkept.2

/-- **`realloc` keeps the contents**, in whatever order `copy_nonoverlapping` takes the bytes, and
whatever the other threads do meanwhile: they may allocate, deallocate both blocks, and write to
every byte that is not of the `n` first ones of the two. -/
theorem realloc_keeps (p : Program) {s s' : Memory ι} (h : Reachable (Memory.step p) .init s)
    {es : List (ι × MemAct)} (hrun : exec (Memory.step p) s es = some s') {j k n : ℕ}
    {a b : Allocation} (ha : s.block? j = some a) (hb : s.block? k = some b)
    (hold : n ≤ a.layout.size.toNat) (hnew : n ≤ b.layout.size.toNat)
    (hfrom : ∀ e ∈ es, ∀ off < n, ¬ Blocks.writes e.2 j off)
    (honto : ∀ e ∈ es, ∀ off < n, Blocks.writes e.2 k off → e.2 = .copy j k off)
    (hcopied : ∀ off < n, ∃ e ∈ es, e.2 = .copy j k off) :
    ∀ off < n, s'.bytes (b.at_ off) = s.bytes (a.at_ off) := by
  intro off hoff
  obtain ⟨before, hbefore⟩ := h
  have hs := refines_run refines_init hbefore
  have hs' := refines_run hs hrun
  obtain ⟨-, hcopy⟩ := Blocks.run_copies (b := Blocks.new.run before) hfrom honto hoff
  calc s'.bytes (b.at_ off)
      = (Blocks.new.run before).run es k off :=
        hs'.bytes k b (block?_run hs hrun hb) off (by omega)
    _ = Blocks.new.run before j off := hcopy (hcopied off hoff)
    _ = s.bytes (a.at_ off) := (hs.bytes j a ha off (by omega)).symm

/-- Four bytes, in a block that is to grow. -/
def quad : Layout := ⟨4, 4, ⟨2, rfl⟩, by decide⟩

/-- A thread writes to its block and gets a larger one; another thread gets a block between them. -/
def grownRun : List (ℕ × MemAct) :=
  [(0, .allocator (.load quad 0)), (0, .allocator .compute), (0, .allocator .exchange),
    (0, .allocator .ret), (0, .write 0 0 7), (0, .write 0 1 8), (0, .write 0 2 9),
    (0, .write 0 3 10), (1, .allocator (.load byte 4)), (0, .allocator (.load word 4)),
    (1, .allocator .compute), (1, .allocator .exchange), (0, .allocator .compute),
    (0, .allocator .exchange), (0, .allocator .compute), (0, .allocator .exchange),
    (0, .allocator .ret)]

/-- The copies, while the other thread returns from its call and writes to its block and to the new
one behind what is copied, and a third one gets a block. -/
def copiedRun : List (ℕ × MemAct) :=
  [(0, .copy 0 2 0), (1, .allocator .ret), (0, .copy 0 2 2), (1, .write 1 0 4),
    (2, .allocator (.load byte 32)), (0, .copy 0 2 1), (1, .write 2 4 6), (2, .allocator .compute),
    (2, .allocator .exchange), (0, .copy 0 2 3), (0, .allocator (.dealloc 0 quad)),
    (2, .write 3 0 5)]

/-- The four bytes are in the new block. -/
theorem realloc_keeps_grown :
    ∃ s s' a b, exec (Memory.step .mainWithUnwinding) .init grownRun = some s
      ∧ exec (Memory.step .mainWithUnwinding) s copiedRun = some s'
      ∧ s.block? 0 = some a ∧ s.block? 2 = some b ∧ a.aligned = 0 ∧ b.aligned = 8
      ∧ ∀ off < 4, s'.bytes (b.at_ off) = s.bytes (a.at_ off) := by
  have hblocks : (exec (Memory.step .mainWithUnwinding) .init grownRun).map
      (fun s => (s.block? 0, s.block? 2)) = some (some ⟨quad, 0⟩, some ⟨word, 8⟩) := by decide
  obtain ⟨s, hrun, hblock⟩ := Option.map_eq_some_iff.mp hblocks
  obtain ⟨ha, hb⟩ := Prod.mk.inj hblock
  have hlast : ((exec (Memory.step .mainWithUnwinding) .init (grownRun ++ copiedRun)).map
      (·.machine.shared.next)) = some 33 := by decide
  obtain ⟨s', hrun', -⟩ := Option.map_eq_some_iff.mp hlast
  rw [exec_append, hrun, Option.bind_some] at hrun'
  refine ⟨s, s', _, _, hrun, hrun', ha, hb, rfl, rfl,
    realloc_keeps .mainWithUnwinding ⟨_, hrun⟩ hrun' ha hb (by decide) (by decide) ?_ ?_ ?_⟩
  · simp [copiedRun, Blocks.writes]
  · simp [copiedRun, Blocks.writes]
    omega
  · simp [copiedRun]
    omega

end Hopter.Bump
