import ArmOs.Context.Lemmas.Ends
import ArmOs.Context.Lemmas.Frames

/-!
# Kernel stacks

Every process has a kernel stack of its own, the idle process the one of the boot code. What is stored to one of them
reaches no other, and no page of a process.
-/

namespace ArmOs

open Lib El1

variable {C : Code} {s t u : Kernel} {m m' : Mem} {p q : Proc} {k : PageKind} {xs : List Nat} {top : Nat}

/-! ## Where the stacks are -/

theorem Kernel.stackBase_idle (s : Kernel) : s.stackBase idle = kernelBase := if_pos rfl

theorem Kernel.stackTop_idle (s : Kernel) : s.stackTop idle = idleTop := if_pos rfl

theorem Kernel.stackBase_user (h : p ≠ idle) : s.stackBase p = s.pageOf p .stack := if_neg h

theorem Kernel.stackTop_user (h : p ≠ idle) : s.stackTop p = s.pageOf p .stack + pageSize := if_neg h

theorem Kernel.stack_congr (h : (t.proc p).stack = (s.proc p).stack) :
    t.stackBase p = s.stackBase p ∧ t.stackTop p = s.stackTop p := by
  rw [Kernel.stackBase, Kernel.stackBase, Kernel.stackTop, Kernel.stackTop, h]
  exact ⟨rfl, rfl⟩

/-- A page of the heap that is not the stack of the process. -/
theorem PageInv.stack_heap {v : Nat} (h : PageInv C.toLayout s xs) (hp : s.Live p) (hv : HeapPage C.toLayout v)
    (hne : p ≠ idle → v ≠ s.pageOf p .stack) : s.stackTop p ≤ v ∨ v + pageSize ≤ s.stackBase p := by
  by_cases hidle : p = idle
  · subst hidle
    have hle := hv.image_le
    have himage := C.idleTop_le
    rw [s.stackTop_idle]
    omega
  · rw [Kernel.stackBase_user hidle, Kernel.stackTop_user hidle]
    exact (h.page ⟨hidle, hp⟩ .stack).disjoint hv (hne hidle).symm

/-- The stack of a process is apart from all pages but its own. -/
theorem PageInv.stack_page (h : PageInv C.toLayout s xs) (hp : s.Live p) (hq : s.IsUser q) (hk : q ≠ p ∨ k ≠ .stack) :
    s.stackTop p ≤ s.pageOf q k ∨ s.pageOf q k + pageSize ≤ s.stackBase p := by
  apply h.stack_heap hp (h.page hq k)
  intro hidle
  exact h.ne hq ⟨hidle, hp⟩ hk

theorem PageInv.stacks_apart (h : PageInv C.toLayout s xs) (hp : s.Live p) (hq : s.Live q) (hne : q ≠ p) :
    s.stackTop p ≤ s.stackBase q ∨ s.stackTop q ≤ s.stackBase p := by
  by_cases hidle : q = idle
  · have hp' : s.IsUser p := ⟨fun he => hne (hidle.trans he.symm), hp⟩
    have hpage := h.stack_page hq hp' (k := .stack) (.inl hne.symm)
    rw [Kernel.stackBase_user hp'.1, Kernel.stackTop_user hp'.1]
    exact hpage.symm
  · rw [Kernel.stackBase_user hidle, Kernel.stackTop_user hidle]
    exact h.stack_page hp ⟨hidle, hq⟩ (.inl hne)

/-- There is room for a trap frame and for the registers that `swap` saves. -/
theorem PageInv.stack_bounds (h : PageInv C.toLayout s xs) (hp : s.Live p) :
    s.stackBase p + TrapFrame.size + 12 * 8 ≤ s.stackTop p ∧ s.stackTop p + pageSize < 2 ^ 64 := by
  by_cases hidle : p = idle
  · subst hidle
    rw [s.stackBase_idle, s.stackTop_idle]
    decide
  · have hend := (h.page ⟨hidle, hp⟩ .stack).end
    have hmax : heapMemoryEnd + pageSize < 2 ^ 64 := by decide
    have hsmall : TrapFrame.size + 12 * 8 ≤ pageSize := by decide
    rw [Kernel.stackBase_user hidle, Kernel.stackTop_user hidle]
    omega

/-- The trap frame of a process is at the top of its stack. -/
theorem Good.tf_top (hs : Good s) (hp : s.IsUser p) : (s.proc p).tf = s.stackTop p - TrapFrame.size := by
  rw [Kernel.stackTop_user hp.1]
  exact hs.procs.tfStack p hp.1 hp.2

/-! ## Stores to the heap's stacks -/

/-- Nothing but stacks has been stored to. -/
theorem PageInv.keepHeap (h : PageInv C.toLayout s xs) (hm : ∀ v, HeapPage C.toLayout v →
      (∀ q, s.IsUser q → v ≠ s.pageOf q .stack) → Mem.Same s.memory.mem m v pageSize) :
    PageInv C.toLayout (s.setMem m) xs ∧ ∀ q k, s.IsUser q → (s.setMem m).pageOf q k = s.pageOf q k := by
  have hpages : ∀ q, s.IsUser q → (∀ k, (s.setMem m).pageOf q k = s.pageOf q k) ∧
      AddrSpace m (s.pageOf q .pgd) (s.pageOf q .pud) (s.pageOf q .pmd) (s.pageOf q .frame) := by
    intro q hq
    apply h.pageOf_congr (t := s.setMem m) hq rfl rfl
    intro k hk
    apply hm _ (h.page hq k)
    intro q' hq'
    apply h.ne hq hq' (.inr _)
    rintro rfl
    simp at hk
  refine ⟨⟨?_, ?_, ?_⟩, fun q k hq => (hpages q hq).1 k⟩
  · refine h.free.congr ?_ fun v hv => ?_
    · rfl
    have hsame := hm v (h.freePages v hv) fun q hq he => h.not_free hq .stack (he ▸ hv)
    exact hsame.sub (Nat.le_refl _) (by simp [pageSize])
  · apply h.owned.congr
    intro o
    cases o with
    | fcbTable => rfl
    | fileDescTable => rfl
    | process q k =>
        by_cases hq : s.IsUser q
        · rw [Kernel.holds_process hq, Kernel.holds_process (s := s.setMem m) hq, (hpages q hq).1 k]
        · rw [Kernel.holds_none hq, Kernel.holds_none (s := s.setMem m) hq]
  · intro q hq
    obtain ⟨hpage, hspace⟩ := hpages q hq
    rw [hpage, hpage, hpage, hpage]
    exact hspace

namespace Kernel.Scribbled

theorem refl (s : Kernel) (p : Proc) (top : Nat) : s.Scribbled p top s.memory.mem := fun _ _ => rfl

/-- More is stored to the same part of the stack. -/
theorem trans (h : s.Scribbled p top m) (hm : ∀ x, x < s.stackBase p ∨ top ≤ x → m' x = m x) : s.Scribbled p top m' :=
  fun x hx => (hm x hx).trans (h x hx)

/-- Bytes that are not in this part of the stack. -/
theorem same {a n : Nat} (h : s.Scribbled p top m) (hout : top ≤ a ∨ a + n ≤ s.stackBase p) :
    Mem.Same s.memory.mem m a n := by
  intro x hle hlt
  apply h
  omega

variable (h : s.Scribbled p top m) (hpages : PageInv C.toLayout s xs) (hp : s.Live p) (htop : top ≤ s.stackTop p)

include h hpages hp htop

theorem page (hq : s.IsUser q) (hk : q ≠ p ∨ k ≠ .stack) : Mem.Same s.memory.mem m (s.pageOf q k) pageSize := by
  apply h.same
  have hapart := hpages.stack_page hp hq hk
  omega

theorem stack (hq : s.Live q) (hne : q ≠ p) :
    Mem.Same s.memory.mem m (s.stackBase q) (s.stackTop q - s.stackBase q) := by
  apply h.same
  have hapart := hpages.stacks_apart hp hq hne
  have hbounds := hpages.stack_bounds hq
  omega

theorem pageInv :
    PageInv C.toLayout (s.setMem m) xs ∧ ∀ q k, s.IsUser q → (s.setMem m).pageOf q k = s.pageOf q k := by
  apply hpages.keepHeap
  intro v hv hne
  apply h.same
  have hapart := hpages.stack_heap hp hv fun hidle => hne p ⟨hidle, hp⟩
  omega

end Kernel.Scribbled

/-! ## The saved context -/

theorem Kernel.setContext_proc (s : Kernel) (p : Proc) (context : Nat) (q : Proc) :
    (s.setContext p context).proc q = { s.proc q with context := ((s.setContext p context).proc q).context } := by
  by_cases hq : q = p
  · subst hq
    simp [Kernel.setContext, Kernel.proc, Kernel.setProc]
  · simp [Kernel.setContext, Kernel.proc, Kernel.setProc_ne _ _ _ _ hq]

theorem Kernel.setContext_self (s : Kernel) (p : Proc) (context : Nat) :
    ((s.setContext p context).proc p).context = context := by
  simp [Kernel.setContext, Kernel.proc, Kernel.setProc]

theorem Kernel.setContext_other (s : Kernel) {p q : Proc} (context : Nat) (h : q ≠ p) :
    (s.setContext p context).proc q = s.proc q := s.setProc_ne p q _ h

theorem Good.setContext (hs : Good s) (p : Proc) (context : Nat) : Good (s.setContext p context) := by
  have hproc := s.setContext_proc p context
  obtain ⟨⟨q, lost, hq⟩, hprocs⟩ := hs
  refine ⟨⟨q, lost, ⟨?_, ?_, ?_, ?_, ?_, ?_, hq.fifo, hq.noSelf⟩⟩, ?_, ?_, ?_, hprocs.kontIdle, ?_⟩
  · refine hq.queues.congr (t := s.setContext p context) (fun _ => rfl) (fun i => ?_) fun i => ?_
    · rw [hproc]
    · rw [hproc]
  · intro i hi
    rw [hproc]
    exact hq.lostReady i hi
  · rw [hproc]
    exact hq.idlePid
  · intro i
    rw [hproc]
    exact hq.running i
  · rw [hproc]
    exact hq.idleState
  · rw [hproc]
    exact hq.ttbr0
  · intro i
    rw [hproc]
    exact hprocs.killed i
  · intro i tf pid hk
    rw [hproc]
    intro hi
    refine ⟨(hprocs.waiting i tf pid hk hi).1, fun j => ?_⟩
    rw [hproc]
    exact (hprocs.waiting i tf pid hk hi).2 j
  · intro i
    rw [Kernel.Live, hproc]
    exact hprocs.kontOn i
  · intro i hi
    rw [Kernel.Live, hproc]
    exact hprocs.tfStack i hi

theorem SameOwners.setContext (s : Kernel) (p : Proc) (context : Nat) : SameOwners s (s.setContext p context) := by
  have hproc := s.setContext_proc p context
  refine ⟨rfl, rfl, fun q => ?_, fun q => ?_, fun q => ?_⟩
  · rw [Kernel.Live, Kernel.Live, hproc]
  · rw [hproc]
  · rw [hproc]

theorem Kernel.setContext_pageOf (s : Kernel) (p : Proc) (context : Nat) (q : Proc) (k : PageKind) :
    (s.setContext p context).pageOf q k = s.pageOf q k := by
  have hmap := (SameOwners.setContext s p context).pageMap q
  cases k with
  | stack => exact (SameOwners.setContext s p context).stack q
  | pgd => exact hmap
  | pud => exact congrArg (fun v => tableOf s.memory.mem v 0) hmap
  | pmd => exact congrArg (fun v => tableOf s.memory.mem (tableOf s.memory.mem v 0) 0) hmap
  | frame => exact congrArg (fun v => blockOf s.memory.mem (tableOf s.memory.mem (tableOf s.memory.mem v 0) 0) 2) hmap

/-! ## What the processes see -/

/-- The kernel has stored to no page of a process but to stacks, and there below the trap frames. -/
structure SameUsers (s t : Kernel) : Prop where
  current : t.current = s.current
  kont : t.kont = s.kont
  proc : ∀ q, t.proc q = { s.proc q with context := (t.proc q).context }
  page : ∀ q k, s.IsUser q → t.pageOf q k = s.pageOf q k
  memory : ∀ q k, s.IsUser q → k ≠ .stack → Mem.Same s.memory.mem t.memory.mem (s.pageOf q k) pageSize
  frame : ∀ q, s.Live q → Mem.Same s.memory.mem t.memory.mem (s.stackTop q - TrapFrame.size) TrapFrame.size

namespace SameUsers

theorem refl (s : Kernel) : SameUsers s s :=
  ⟨rfl, rfl, fun _ => rfl, fun _ _ _ => rfl, fun _ _ _ _ => .refl _ _ _, fun _ _ => .refl _ _ _⟩

theorem live (h : SameUsers s t) (q : Proc) : t.Live q ↔ s.Live q := by
  rw [Kernel.Live, Kernel.Live, h.proc]

theorem isUser (h : SameUsers s t) (q : Proc) : t.IsUser q ↔ s.IsUser q := and_congr_right fun _ => h.live q

theorem alive (h : SameUsers s t) (q : Proc) : t.Alive q ↔ s.Alive q := by
  rw [Kernel.Alive, Kernel.Alive, h.proc]

theorem stack (h : SameUsers s t) (q : Proc) : t.stackBase q = s.stackBase q ∧ t.stackTop q = s.stackTop q :=
  Kernel.stack_congr (by rw [h.proc])

theorem trans (h : SameUsers s t) (h' : SameUsers t u) : SameUsers s u where
  current := h'.current.trans h.current
  kont := h'.kont.trans h.kont
  proc q := by rw [h'.proc, h.proc]
  page q k hq := (h'.page q k ((h.isUser q).mpr hq)).trans (h.page q k hq)
  memory q k hq hk := by
    have hlater := h'.memory q k ((h.isUser q).mpr hq) hk
    rw [h.page q k hq] at hlater
    exact (h.memory q k hq hk).trans hlater
  frame q hq := by
    have hlater := h'.frame q ((h.live q).mpr hq)
    rw [(h.stack q).2] at hlater
    exact (h.frame q hq).trans hlater

theorem scribbled (h : s.Scribbled p top m) (hpages : PageInv C.toLayout s xs) (hp : s.Live p)
    (htop : top + TrapFrame.size = s.stackTop p) : SameUsers s (s.setMem m) := by
  have hle : top ≤ s.stackTop p := by omega
  refine ⟨rfl, rfl, fun _ => rfl, (h.pageInv hpages hp hle).2, fun q k hq hk => ?_, fun q hq => ?_⟩
  · exact h.page hpages hp hle hq (.inr hk)
  · have hbounds := hpages.stack_bounds hq
    by_cases hqp : q = p
    · subst hqp
      apply h.same
      omega
    · exact (h.stack hpages hp hle hq hqp).sub (by omega) (by omega)

theorem setContext (s : Kernel) (p : Proc) (context : Nat) : SameUsers s (s.setContext p context) :=
  ⟨rfl, rfl, s.setContext_proc p context, fun q k _ => s.setContext_pageOf p context q k, fun _ _ _ _ => .refl _ _ _,
    fun _ _ => .refl _ _ _⟩

end SameUsers

end ArmOs
