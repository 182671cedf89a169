import Mathlib.Tactic.FinCases
import ArmOs.Kernel.Context

/-!
# Trap frames and `swap`

What the code of `vector_table.s` saves and loads. An exception puts the registers of the process into a trap frame,
`trap_return` loads them again, and `swap` does the same with the registers that a function of C keeps.
-/

namespace ArmOs

open Lib El1

variable {m m' : Mem} {c : Cpu} {a : Word} {tf : Nat}

/-! ## Entering the kernel -/

/-- What `kernel_entry` saves. -/
def entryWords (c : Cpu) : List (Nat × Word) :=
  [(0, c.x 0), (8, c.x 1), (16, c.x 2), (24, c.x 3), (32, c.x 4), (40, c.x 5), (48, c.x 6), (56, c.x 7),
    (64, c.x 8), (72, c.x 9), (80, c.x 10), (88, c.x 11), (96, c.x 12), (104, c.x 13), (112, c.x 14), (120, c.x 15),
    (128, c.x 16), (136, c.x 17), (144, c.x 18), (152, c.x 19), (160, c.x 20), (168, c.x 21), (176, c.x 22),
    (184, c.x 23), (192, c.x 24), (200, c.x 25), (208, c.x 26), (216, c.x 27), (224, c.x 28), (232, c.x 29),
    (240, c.x 30), (248, c.sys .spEl0)]

/-- The trap frame, in the order in which it is written. -/
def frameWords (c : Cpu) (trapno : Word) : List (Nat × Word) :=
  entryWords c ++ [(256, trapno), (264, c.sys .esrEl1), (272, c.sys .elrEl1), (280, c.sys .spsrEl1)]

theorem frameWords_offsets (c : Cpu) (trapno : Word) :
    (frameWords c trapno).map Prod.fst = (List.range 36).map fun i => 8 * i := by
  rfl

theorem frameWords_apart (c : Cpu) (trapno : Word) : Apart ((frameWords c trapno).map Prod.fst) := by
  rw [frameWords_offsets]
  decide

theorem frameWords_fits (c : Cpu) (trapno : Word) (h : a.toNat + TrapFrame.size ≤ 2 ^ 64) :
    Fits a TrapFrame.size (frameWords c trapno) := by
  refine ⟨h, ?_⟩
  rw [frameWords_offsets]
  decide

theorem mem_frameWords_sys (c : Cpu) (trapno : Word) :
    (TrapFrame.sp0, c.sys .spEl0) ∈ frameWords c trapno ∧ (TrapFrame.trapno, trapno) ∈ frameWords c trapno ∧
      (TrapFrame.elr, c.sys .elrEl1) ∈ frameWords c trapno ∧ (TrapFrame.spsr, c.sys .spsrEl1) ∈ frameWords c trapno := by
  simp [frameWords, entryWords, TrapFrame.sp0, TrapFrame.trapno, TrapFrame.elr, TrapFrame.spsr]

theorem mem_frameWords_x (c : Cpu) (trapno : Word) (i : Reg) : (TrapFrame.x i, c.x i) ∈ frameWords c trapno := by
  apply List.mem_of_getElem? (i := i.val)
  fin_cases i <;> rfl

/-- The processor at the call of `exception_handler`. -/
structure Entered (c : Cpu) (m : Mem) (trapno : Word) (r : Cpu × Mem) : Prop where
  sp : r.1.sp = c.sp - BitVec.ofNat 64 TrapFrame.size
  x0 : r.1.x 0 = c.sp - BitVec.ofNat 64 TrapFrame.size
  mem : r.2 = putWords m (c.sp - BitVec.ofNat 64 TrapFrame.size) (frameWords c trapno)

theorem kernelEntry_run (c : Cpu) (m : Mem) : run kernelEntry (c, m) =
    ({ c.set 0 (c.sys .spEl0) with sp := c.sp - BitVec.ofNat 64 TrapFrame.size },
      putWords m (c.sp - BitVec.ofNat 64 TrapFrame.size) (entryWords c)) := by
  simp only [run, kernelEntry, Instr.exec, Cpu.slot, Cpu.set, entryWords, putWords, List.foldl_cons, List.foldl_nil]
  rfl

/-- `handler_entry` behind code that leaves the trap number in `x0`. -/
theorem handlerEntry_run {trapno : Word} {c' : Cpu} (m : Mem) (hsp : c'.sp = c.sp - BitVec.ofNat 64 TrapFrame.size)
    (hsys : c'.sys = c.sys) (hx : c'.x 0 = trapno) :
    Entered c m trapno
      (run handlerEntry (c', putWords m (c.sp - BitVec.ofNat 64 TrapFrame.size) (entryWords c))) := by
  refine ⟨hsp, hsp, ?_⟩
  rw [frameWords, ← hsys, ← hsp, ← hx, putWords_append]
  generalize putWords m c'.sp (entryWords c) = m'
  rfl

theorem irqHandler_run (c : Cpu) (m : Mem) : Entered c m 2 (run irqHandler (c, m)) := by
  rw [irqHandler, run_append, run_append, kernelEntry_run]
  simp only [run_cons, run_nil, Instr.exec]
  apply handlerEntry_run m
  · rfl
  · rfl
  · rfl

/-- The exception class tells a system call from other exceptions. -/
theorem syncHandler_run (c : Cpu) (m : Mem) :
    Entered c m (if c.sys .esrEl1 >>> 26 = 0b010101 then 3 else 1) (run syncHandler (c, m)) := by
  rw [syncHandler, run_append, run_append, kernelEntry_run]
  simp only [run_cons, run_nil, Instr.exec]
  apply handlerEntry_run m
  · rfl
  · rfl
  · simp only [Cpu.set, Function.update_self]
    split <;> simp_all

namespace Entered

variable {trapno : Word} {r : Cpu × Mem} {top : Nat} (h : Entered c m trapno r) (htop : c.sp.toNat = top)
  (hsize : TrapFrame.size ≤ top)

include h htop hsize

theorem toNat_sp : r.1.sp.toNat = top - TrapFrame.size := by
  rw [h.sp, toNat_sub_offset (htop ▸ hsize), htop]

theorem toNat_x0 : (r.1.x 0).toNat = top - TrapFrame.size := by
  rw [h.x0, toNat_sub_offset (htop ▸ hsize), htop]

/-- Every word of the frame. -/
theorem word {k : Nat} {v : Word} (hw : (k, v) ∈ frameWords c trapno) :
    El1.word r.2 (top - TrapFrame.size + k) = v := by
  have hlt := c.sp.isLt
  have ha : (c.sp - BitVec.ofNat 64 TrapFrame.size).toNat = top - TrapFrame.size := by
    rw [toNat_sub_offset (htop ▸ hsize), htop]
  rw [h.mem, ← ha]
  apply word_putWords (frameWords_fits c trapno _) (frameWords_apart c trapno) hw
  omega

/-- Only the frame is written. -/
theorem outside {b k : Nat} (hout : b + k ≤ top - TrapFrame.size ∨ top ≤ b) : Mem.Same m r.2 b k := by
  have hlt := c.sp.isLt
  have ha : (c.sp - BitVec.ofNat 64 TrapFrame.size).toNat = top - TrapFrame.size := by
    rw [toNat_sub_offset (htop ▸ hsize), htop]
  rw [h.mem]
  apply putWords_outside m (frameWords_fits c trapno _)
  · omega
  · omega

/-- The frame holds the registers of the process. -/
theorem contextAt_eq :
    contextAt r.2 (top - TrapFrame.size) = ⟨c.x, c.sys .spEl0, c.sys .elrEl1, c.sys .spsrEl1⟩ := by
  obtain ⟨hsp0, -, helr, hspsr⟩ := mem_frameWords_sys c trapno
  apply Context.ext
  · funext i
    exact h.word htop hsize (mem_frameWords_x c trapno i)
  · exact h.word htop hsize hsp0
  · exact h.word htop hsize helr
  · exact h.word htop hsize hspsr

end Entered

/-! ## Leaving the kernel -/

theorem trapReturn_sp (c : Cpu) (m : Mem) : (run trapReturn (c, m)).1.sp = c.sp + BitVec.ofNat 64 TrapFrame.size := by
  rfl

theorem trapReturn_x (c : Cpu) (m : Mem) (i : Reg) : (run trapReturn (c, m)).1.x i = word m (c.slot (TrapFrame.x i)) := by
  fin_cases i <;> rfl

theorem trapReturn_spEl0 (c : Cpu) (m : Mem) :
    (run trapReturn (c, m)).1.sys .spEl0 = word m (c.slot TrapFrame.sp0) := by
  rfl

theorem trapReturn_elr (c : Cpu) (m : Mem) :
    (run trapReturn (c, m)).1.sys .elrEl1 = word m (c.slot TrapFrame.elr) := by
  rfl

theorem trapReturn_spsr (c : Cpu) (m : Mem) :
    (run trapReturn (c, m)).1.sys .spsrEl1 = word m (c.slot TrapFrame.spsr) := by
  rfl

/-- `trap_return` gives the process what its frame holds. -/
theorem leave_context (s : Kernel) (calls : Proc → Call) (parked : Proc → Option SwapCall) (m : Mem)
    (hsp : c.sp.toNat = tf) (hend : tf + TrapFrame.size < 2 ^ 64) :
    (leave s calls parked c m).context = contextAt m tf ∧ (leave s calls parked c m).kernel = s.setMem m ∧
      (leave s calls parked c m).cpu.sp.toNat = tf + TrapFrame.size := by
  have hslot : ∀ k, k < TrapFrame.size → c.slot k = tf + k := fun k hk => by
    rw [Cpu.slot, toNat_add_offset (by omega), hsp]
  refine ⟨?_, rfl, ?_⟩
  · apply Context.ext
    · funext i
      have hi : TrapFrame.x i < TrapFrame.size := by
        rw [TrapFrame.x, TrapFrame.size]
        omega
      exact (trapReturn_x c m i).trans (by rw [hslot _ hi]; rfl)
    · exact (trapReturn_spEl0 c m).trans (by rw [hslot _ (by decide)]; rfl)
    · exact (trapReturn_elr c m).trans (by rw [hslot _ (by decide)]; rfl)
    · exact (trapReturn_spsr c m).trans (by rw [hslot _ (by decide)]; rfl)
  · rw [leave, trapReturn_sp, toNat_add_offset (hsp ▸ hend), hsp]

/-! ## `swap` -/

/-- What `swap` saves. -/
def swapWords (c : Cpu) : List (Nat × Word) :=
  [(0, c.x 19), (8, c.x 20), (16, c.x 21), (24, c.x 22), (32, c.x 23), (40, c.x 24), (48, c.x 25), (56, c.x 26),
    (64, c.x 27), (72, c.x 28), (80, c.x 29), (88, c.x 30)]

theorem swapSave_mem (c : Cpu) (m : Mem) :
    (run swapSave (c, m)).2 = putWords m (c.sp - BitVec.ofNat 64 (12 * 8)) (swapWords c) := by
  rfl

theorem swapSave_x2 (c : Cpu) (m : Mem) : (run swapSave (c, m)).1.x 2 = c.sp - BitVec.ofNat 64 (12 * 8) := by
  rfl

theorem swapSave_x1 (c : Cpu) (m : Mem) : (run swapSave (c, m)).1.x 1 = c.x 1 := by
  rfl

theorem swapWords_apart (c : Cpu) : Apart ((swapWords c).map Prod.fst) := by
  have hoffsets : (swapWords c).map Prod.fst = (List.range 12).map fun i => 8 * i := by rfl
  rw [hoffsets]
  decide

theorem swapWords_fits (c : Cpu) (h : a.toNat + 12 * 8 ≤ 2 ^ 64) : Fits a (12 * 8) (swapWords c) := by
  have hoffsets : (swapWords c).map Prod.fst = (List.range 12).map fun i => 8 * i := by rfl
  refine ⟨h, ?_⟩
  rw [hoffsets]
  decide

theorem mem_swapWords (c : Cpu) (i : Fin 11) : (8 * i.val, calleeSaved c i) ∈ swapWords c := by
  apply List.mem_of_getElem? (i := i.val)
  fin_cases i <;> rfl

/-- The words at `context` that `swap` loads. -/
structure SwapFrame (m : Mem) (context : Nat) (saved : Fin 11 → Word) (x30 : Word) : Prop where
  saved : ∀ i : Fin 11, word m (context + 8 * i) = saved i
  x30 : word m (context + 11 * 8) = x30

theorem SwapFrame.congr {context : Nat} {saved : Fin 11 → Word} {x30 : Word} (h : SwapFrame m context saved x30)
    (hm : Mem.Same m m' context (12 * 8)) : SwapFrame m' context saved x30 where
  saved i := (word_congr (hm.sub (by omega) (by omega))).trans (h.saved i)
  x30 := (word_congr (hm.sub (by omega) (by omega))).trans h.x30

/-- After `swap` has saved the registers of a process. -/
theorem swapSave_frame (m : Mem) (hsp : 12 * 8 ≤ c.sp.toNat) :
    ((run swapSave (c, m)).1.x 2).toNat + 12 * 8 = c.sp.toNat ∧
      SwapFrame (run swapSave (c, m)).2 ((run swapSave (c, m)).1.x 2).toNat (calleeSaved c) (c.x 30) ∧
      ∀ b k, b + k + 12 * 8 ≤ c.sp.toNat ∨ c.sp.toNat ≤ b → Mem.Same m (run swapSave (c, m)).2 b k := by
  have hlt := c.sp.isLt
  have ha : (c.sp - BitVec.ofNat 64 (12 * 8)).toNat = c.sp.toNat - 12 * 8 := toNat_sub_offset hsp
  have hfits : Fits (c.sp - BitVec.ofNat 64 (12 * 8)) (12 * 8) (swapWords c) := swapWords_fits c (by omega)
  rw [swapSave_mem, swapSave_x2]
  refine ⟨by omega, ⟨fun i => ?_, ?_⟩, fun b k hout => ?_⟩
  · have hi := word_putWords (m := m) hfits (swapWords_apart c) (mem_swapWords c i)
    exact hi
  · have hx30 : (11 * 8, c.x 30) ∈ swapWords c := by simp [swapWords]
    have hword := word_putWords (m := m) hfits (swapWords_apart c) hx30
    exact hword
  · apply putWords_outside m hfits
    omega

/-- `swap` loads the registers at the context in `x1`. -/
theorem swapLoad_run {context : Nat} {saved : Fin 11 → Word} {x30 : Word} (h : SwapFrame m context saved x30)
    (hx1 : (c.x 1).toNat = context) (hend : context + 12 * 8 < 2 ^ 64) :
    (run swapLoad (c, m)).1.sp.toNat = context + 12 * 8 ∧ calleeSaved (run swapLoad (c, m)).1 = saved ∧
      (run swapLoad (c, m)).1.x 30 = x30 ∧ (run swapLoad (c, m)).2 = m := by
  have hslot : ∀ k, k < 12 * 8 → (c.x 1 + BitVec.ofNat 64 k).toNat = context + k := fun k hk => by
    rw [toNat_add_offset (by omega), hx1]
  have hsp : (run swapLoad (c, m)).1.sp = c.x 1 + BitVec.ofNat 64 (12 * 8) := by rfl
  have hx30 : (run swapLoad (c, m)).1.x 30 = word m (c.x 1 + BitVec.ofNat 64 88).toNat := by rfl
  refine ⟨?_, ?_, ?_, rfl⟩
  · rw [hsp, toNat_add_offset (by omega), hx1]
  · funext i
    have hload : calleeSaved (run swapLoad (c, m)).1 i = word m (c.x 1 + BitVec.ofNat 64 (8 * i)).toNat := by
      fin_cases i <;> rfl
    rw [hload, hslot _ (by omega), h.saved]
  · rw [hx30, hslot _ (by decide)]
    exact h.x30

end ArmOs
