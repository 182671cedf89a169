import ArmOs.Pages.Lemmas.Fork

/-!
# Pages of processes that come and go

`fork` takes the five pages of the child from the free list, and `wait` puts the five pages of a killed process
back.
-/

namespace ArmOs

open Lib

variable {L : Layout} {s t : Kernel} {i x p : Proc} {xs ys : List Nat} {stack pgd pud pmd frame : Nat}

/-! ## Creating a process -/

/-- The process `i` of `t` is new: it owns five pages that were free, and nothing else has changed hands. -/
structure Created (L : Layout) (s t : Kernel) (i : Proc) (stack pgd pud pmd frame : Nat) (ys : List Nat) : Prop where
  notUser : ¬s.IsUser i
  isUser : ∀ p, t.IsUser p ↔ p = i ∨ s.IsUser p
  fcbPage : t.fs.fcbPage = s.fs.fcbPage
  fileDescPage : t.fs.fileDescPage = s.fs.fileDescPage
  stackOf : ∀ p, p ≠ i → (t.proc p).stack = (s.proc p).stack
  pageMapOf : ∀ p, p ≠ i → (t.proc p).pageMap = (s.proc p).pageMap
  newStack : (t.proc i).stack = stack
  newMap : (t.proc i).pageMap = pgd
  free : FreeList t.memory ys
  space : AddrSpace t.memory.mem pgd pud pmd frame
  only : OnlyIn [stack, pgd, frame, pud, pmd] s.memory.mem t.memory.mem

/-- The pages of the new process. -/
def newPages (stack pgd pud pmd frame : Nat) : PageKind → Nat
  | .stack => stack
  | .pgd => pgd
  | .pud => pud
  | .pmd => pmd
  | .frame => frame

theorem Created.pageOf_self (h : Created L s t i stack pgd pud pmd frame ys) (k : PageKind) :
    t.pageOf i k = newPages stack pgd pud pmd frame k := by
  have hspace := h.space
  rw [← h.newMap] at hspace
  obtain ⟨hpud, hpmd, hframe⟩ := Kernel.pageOf_eq hspace
  cases k with
  | stack => exact h.newStack
  | pgd => exact h.newMap
  | pud => exact hpud
  | pmd => exact hpmd
  | frame => exact hframe

/-- The other processes keep their pages. -/
theorem Created.pageOf_other (h : Created L s t i stack pgd pud pmd frame ys)
    (hs : PageInv L s (stack :: pgd :: frame :: pud :: pmd :: ys)) (hp : s.IsUser p) :
    (∀ k, t.pageOf p k = s.pageOf p k) ∧ AddrSpace t.memory.mem (s.pageOf p .pgd) (s.pageOf p .pud) (s.pageOf p .pmd)
      (s.pageOf p .frame) := by
  have hpi : p ≠ i := by
    intro he
    exact h.notUser (he ▸ hp)
  have hsub : [stack, pgd, frame, pud, pmd] ⊆ stack :: pgd :: frame :: pud :: pmd :: ys := by simp
  exact hs.pageOf_congr hp (h.stackOf p hpi) (h.pageMapOf p hpi) fun k _ =>
    h.only.same (fun v hv => hs.freePages v (hsub hv)) (hs.page hp k) fun hmem => hs.not_free hp k (hsub hmem)

theorem PageInv.create (hs : PageInv L s (stack :: pgd :: frame :: pud :: pmd :: ys))
    (h : Created L s t i stack pgd pud pmd frame ys) : PageInv L t ys where
  free := h.free
  owned := by
    have hnone := fun k => Kernel.holds_none h.notUser k
    have hall := ((((hs.owned.take (hnone .stack)).take (k := .process i .pgd) (by simp [hnone])).take
      (k := .process i .frame) (by simp [hnone])).take (k := .process i .pud) (by simp [hnone])).take
      (k := .process i .pmd) (by simp [hnone])
    refine hall.congr fun o => ?_
    cases o with
    | fcbTable => simpa [Function.update_apply, Kernel.holds] using h.fcbPage
    | fileDescTable => simpa [Function.update_apply, Kernel.holds] using h.fileDescPage
    | process p k =>
        by_cases hpi : p = i
        · subst hpi
          rw [Kernel.holds_process ((h.isUser p).mpr (.inl rfl)), h.pageOf_self]
          cases k <;> simp [newPages]
        · simp only [Function.update_apply, PageOwner.process.injEq, hpi, false_and, if_false]
          by_cases hp : s.IsUser p
          · rw [Kernel.holds_process ((h.isUser p).mpr (.inr hp)), Kernel.holds_process hp, (h.pageOf_other hs hp).1]
          · have hp' : ¬t.IsUser p := fun hp' => hp (((h.isUser p).mp hp').resolve_left hpi)
            rw [Kernel.holds_none hp', Kernel.holds_none hp]
  space := by
    intro p hp
    by_cases hpi : p = i
    · subst hpi
      simp only [h.pageOf_self, newPages]
      exact h.space
    · have hp' := ((h.isUser p).mp hp).resolve_left hpi
      obtain ⟨hpage, hspace⟩ := h.pageOf_other hs hp'
      rw [hpage, hpage, hpage, hpage]
      exact hspace

/-! ## `fork` -/

/-- With five free pages and an unused slot, `fork` gets its pages, and copies the frame of its caller. -/
theorem PageInv.forkMemory (h : PageInv L s (stack :: pgd :: frame :: pud :: pmd :: ys)) (hu : s.IsUser s.current)
    (hfound : findUnusedProcess s = some i) :
    ∃ M N, allocNewProcess L s = .ok (i, allocated s i stack pgd M) ∧
      copyUvm L pgd (s.proc s.current).pageMap pageSize M = .ok (true, N) ∧ FreeList N ys ∧
      AddrSpace N.mem pgd pud pmd frame ∧ OnlyIn [stack, pgd, frame, pud, pmd] s.memory.mem N.mem ∧
      N.mem.bytes frame pageSize = s.memory.mem.bytes (s.pageOf s.current .frame) pageSize ∧
      Mem.Same (newStack L stack s.memory.mem) N.mem stack pageSize := by
  have hxs := h.freePages
  have hnodup := h.owned.nodup
  obtain ⟨M, hrun, hfree, hempty, honly, hstack⟩ := allocNewProcess_run hfound h.free hxs hnodup
  have hxs' : ∀ w ∈ frame :: pud :: pmd :: ys, HeapPage L w := fun w hw => hxs w (by simp_all)
  have hpgd := hxs pgd (by simp)
  have hnew : ∀ w ∈ [stack, pgd], HeapPage L w := by simp [hpgd, hxs stack]
  have hsub : [stack, pgd] ⊆ stack :: pgd :: frame :: pud :: pmd :: ys := by simp
  have hsame : ∀ k, Mem.Same s.memory.mem M.mem (s.pageOf s.current k) pageSize := fun k =>
    honly.same hnew (h.page hu k) fun hmem => h.not_free hu k (hsub hmem)
  have hsrc := (h.space s.current hu).congr (hsame .pgd) (hsame .pud) (hsame .pmd)
  have hother : ∀ w ∈ [s.pageOf s.current .pgd, s.pageOf s.current .pud, s.pageOf s.current .pmd,
      s.pageOf s.current .frame], w ∉ pgd :: frame :: pud :: pmd :: ys := by
    have hfree : ∀ k, s.pageOf s.current k ∉ pgd :: frame :: pud :: pmd :: ys := fun k hk =>
      h.not_free hu k (List.mem_cons_of_mem _ hk)
    simp only [List.forall_mem_cons]
    exact ⟨hfree .pgd, hfree .pud, hfree .pmd, hfree .frame, nofun⟩
  obtain ⟨hnotStack, hnodup'⟩ := List.nodup_cons.mp hnodup
  obtain ⟨hnot, hnodup'⟩ := List.nodup_cons.mp hnodup'
  obtain ⟨N, hcopy, hfreeN, hspace, honlyN, hbytes⟩ := copyUvm_run hempty hfree hxs' hnodup' hpgd hnot hsrc
    (by simp [h.page hu]) hother
  have htables : ∀ w ∈ [frame, pgd, pud, pmd], HeapPage L w ∧ w ≠ stack := by
    have hsub : [frame, pgd, pud, pmd] ⊆ pgd :: frame :: pud :: pmd :: ys := by simp
    exact fun w hw => ⟨hxs w (List.mem_cons_of_mem _ (hsub hw)), fun he => hnotStack (he ▸ hsub hw)⟩
  have hkeep : Mem.Same M.mem N.mem stack pageSize :=
    honlyN.same (fun w hw => (htables w hw).1) (hxs stack (by simp)) fun hmem => (htables stack hmem).2 rfl
  exact ⟨M, N, hrun, hcopy, hfreeN, hspace, (honly.trans honlyN).weaken (by simp),
    hbytes.trans (Mem.bytes_congr (hsame .frame)), hstack.trans hkeep⟩

/-- What `fork` does to the memory. -/
structure ForkedPages (L : Layout) (s t : Kernel) (i : Proc) (stack pgd pud pmd frame : Nat) (ys : List Nat) : Prop
    extends Created L s t i stack pgd pud pmd frame ys where
  image : t.memory.mem.bytes frame pageSize = s.memory.mem.bytes (s.pageOf s.current .frame) pageSize
  x0 : t.memory.mem.read 8 ((t.proc i).tf + TrapFrame.x 0) = 0
  registers : ∀ o, 8 ≤ o → o < TrapFrame.size →
    t.memory.mem ((t.proc i).tf + o) = s.memory.mem ((s.proc s.current).tf + o)
  context : (t.proc i).context = stack + pageSize - TrapFrame.size - 12 * 8
  kernelStack : Mem.Same (ArmOs.newStack L stack s.memory.mem) t.memory.mem stack (pageSize - TrapFrame.size)

theorem childFrame_onlyIn {m : Mem} {tf : Nat} (hle : stack ≤ tf) (hend : tf + TrapFrame.size ≤ stack + pageSize)
    (parent : Nat) : OnlyIn [stack] m (childFrame tf parent m) := by
  have hsize : TrapFrame.x 0 + 8 ≤ TrapFrame.size := by decide
  exact (OnlyIn.copy hle hend).trans_self (.write (by omega) (by omega))

/-- Counting slots does not move the tables. -/
theorem countSlots_pages {file : Fin numFile → Option Nat} {fs fs' : Fs} (h : countSlots file fs = .ok fs') :
    fs'.fcbPage = fs.fcbPage ∧ fs'.fileDescPage = fs.fileDescPage := by
  refine foldlM_keeps (P := fun g => g.fcbPage = fs.fcbPage ∧ g.fileDescPage = fs.fileDescPage) ?_ h ⟨rfl, rfl⟩
  intro g j g' hg hstep
  cases hj : file j with
  | none =>
      rw [hj] at hstep
      cases hstep
      exact hg
  | some d =>
      rw [hj] at hstep
      obtain ⟨k, -, hstep⟩ := bind_eq_ok.mp hstep
      cases hstep
      exact hg

theorem PageInv.fork {q : ListId → List Proc} {lost : Set Proc} {r : Int} (h : PageInv L s xs)
    (hq : SchedInv s q lost) (hproc : ProcInv s) (hcur : s.current ≠ idle) (hrun : fork L s = .ok (r, t)) :
    ∃ i stack pgd pud pmd frame ys, xs = stack :: pgd :: frame :: pud :: pmd :: ys ∧ Forked s t i ∧
      ForkedPages L s t i stack pgd pud pmd frame ys := by
  have hu : s.IsUser s.current := ⟨hcur, by simp [Kernel.Live, hq.current_state]⟩
  obtain ⟨i, hf, -, -⟩ := fork_spec hq hrun
  obtain ⟨i', s₁, N', fs, halloc, hcopy, -, happend, -⟩ := fork_ok hrun hu.2
  -- the free list was long enough
  obtain ⟨stack, pgd, zs, rfl⟩ := allocNewProcess_pages halloc h.free h.freePages h.owned.nodup
  have hfound := (allocNewProcess_ok halloc).1
  obtain ⟨M, hrunM, hfreeM, hemptyM, honlyM, -⟩ := allocNewProcess_run hfound h.free h.freePages h.owned.nodup
  obtain rfl : allocated s i' stack pgd M = s₁ := (Prod.mk.inj (Except.ok.inj (hrunM.symm.trans halloc))).2
  have hnodup := (List.nodup_cons.mp h.owned.nodup).2
  have hpgd := h.freePages pgd (by simp)
  have hself : (allocated s i' stack pgd M).proc i' = newProcess s i' stack pgd := s.setProc_self i' _
  rw [hself] at hcopy
  obtain ⟨frame, pud, pmd, ys, rfl⟩ := copyUvm_pages hcopy hemptyM hfreeM
    (fun w hw => h.freePages w (by simp [hw])) (List.nodup_cons.mp hnodup).2 hpgd (List.nodup_cons.mp hnodup).1
  -- so the run is the one with these pages
  obtain ⟨M', N, hrun', hcopy', hfree, hspace, honly, himage, hkernel⟩ := h.forkMemory hu hfound
  obtain rfl : M' = M :=
    congrArg Kernel.memory (Prod.mk.inj (Except.ok.inj (hrun'.symm.trans hrunM))).2
  have hcur' : s.current ≠ i' := by
    intro he
    exact hu.2 (he ▸ findUnusedProcess_eq_some hfound)
  have hparent : (allocated s i' stack pgd M').proc s.current = s.proc s.current := s.setProc_ne i' _ _ hcur'
  rw [hparent] at hcopy
  obtain rfl : N = N' := (Prod.mk.inj (Except.ok.inj (hcopy'.symm.trans hcopy))).2
  have hlinks := SameButLinks.ofAppendTail happend
  have hproc' : t.proc i' = { newProcess s i' stack pgd with
      file := (s.proc s.current).file, state := .ready, next := (t.proc i').next } := by
    rw [hlinks.proc, forked, Kernel.proc, Kernel.setProc_self, hself, hparent]
  obtain rfl : i' = i := by
    by_contra hne
    have hstate := congrArg Process.state (hf.others i' hne)
    rw [hproc'] at hstate
    cases hstate.trans (findUnusedProcess_eq_some hfound)
  have hmem : t.memory = { N with mem := childFrame (stack + pageSize - TrapFrame.size) (s.proc s.current).tf N.mem } := by
    rw [hlinks.memory, forked, hself, hparent]
    rfl
  -- the frame of the child lies in its stack
  have hxs := h.freePages
  have hstack := hxs stack (by simp)
  have hpage : ∀ w ∈ [stack], HeapPage L w := by simpa using hstack
  have hsize : TrapFrame.size ≤ pageSize := by decide
  have hchild : OnlyIn [stack] N.mem t.memory.mem := by
    have hle : stack ≤ stack + pageSize - TrapFrame.size := by omega
    have hend : stack + pageSize - TrapFrame.size + TrapFrame.size ≤ stack + pageSize := by omega
    have hmem' := congrArg Memory.mem hmem
    dsimp only at hmem'
    rw [hmem']
    exact childFrame_onlyIn hle hend (s.proc s.current).tf
  have hnew : ∀ w ∈ [pgd, pud, pmd, frame], w ≠ stack ∧ HeapPage L w := by
    have hne := (List.nodup_cons.mp h.owned.nodup).1
    have hsub : [pgd, pud, pmd, frame] ⊆ pgd :: frame :: pud :: pmd :: ys := by simp
    exact fun w hw => ⟨fun he => hne (he ▸ hsub hw), hxs w (List.mem_cons_of_mem _ (hsub hw))⟩
  have hkeep : ∀ w ∈ [pgd, pud, pmd, frame], Mem.Same N.mem t.memory.mem w pageSize := fun w hw =>
    hchild.same hpage (hnew w hw).2 (by simpa using (hnew w hw).1)
  have hsub : [stack, pgd, frame, pud, pmd] ⊆ stack :: pgd :: frame :: pud :: pmd :: ys := by simp
  have hparent' : Mem.Same s.memory.mem N.mem (s.pageOf s.current .stack) pageSize :=
    honly.same (fun w hw => hxs w (hsub hw)) (h.page hu .stack) fun hmem' => h.not_free hu .stack (hsub hmem')
  have htf : (t.proc i').tf = stack + pageSize - TrapFrame.size := by rw [hproc']; rfl
  have htfp : (s.proc s.current).tf = s.pageOf s.current .stack + pageSize - TrapFrame.size :=
    hproc.tfStack s.current hcur hu.2
  obtain ⟨hfcb, hdesc⟩ := countSlots_pages hf.fs
  refine ⟨i', stack, pgd, pud, pmd, frame, ys, rfl, hf, ⟨?_, ?_, hfcb, hdesc, ?_, ?_, by rw [hproc']; rfl,
    by rw [hproc']; rfl, ?_, ?_, ?_⟩, ?_, ?_, ?_, by rw [hproc']; rfl, ?_⟩
  · exact fun hi => hi.2 hf.unused
  · intro p
    by_cases hp : p = i'
    · subst hp
      exact iff_of_true ⟨hf.ne_idle hq, by simp [Kernel.Live, hf.state]⟩ (.inl rfl)
    · rw [Kernel.IsUser, Kernel.IsUser, hf.live hp]
      simp [hp]
  · intro p hp
    rw [hf.others p hp]
  · intro p hp
    rw [hf.others p hp]
  · refine hfree.onlyIn (by rw [hmem]) hchild hpage (fun w hw => hxs w (by simp [hw])) ?_
    have hne := (List.nodup_cons.mp h.owned.nodup).1
    simp only [List.mem_cons, not_or] at hne
    simpa using hne.2.2.2.2
  · exact hspace.congr (hkeep pgd (by simp)) (hkeep pud (by simp)) (hkeep pmd (by simp))
  · exact (honly.trans hchild).weaken (by simp)
  · exact (Mem.bytes_congr (hkeep frame (by simp))).trans himage
  · rw [htf, hmem, childFrame, Mem.read_write_self, Nat.zero_mod]
  · intro o ho hlt
    rw [htf, hmem, ← hparent' _ (by omega) (by omega)]
    have hout : ¬(stack + pageSize - TrapFrame.size + o < stack + pageSize - TrapFrame.size + TrapFrame.x 0 + 8) := by
      simp only [TrapFrame.x]
      omega
    simp [childFrame, Mem.write, Mem.copy, hout, hlt]
  · have hbelow : stack + (pageSize - TrapFrame.size) ≤ stack + pageSize - TrapFrame.size := by omega
    have hmem' := congrArg Memory.mem hmem
    dsimp only at hmem'
    rw [hmem', childFrame]
    refine (hkernel.sub (Nat.le_refl _) (by omega)).trans ((Mem.copy_same (.inl hbelow)).trans (Mem.write_same (.inl ?_)))
    exact Nat.le_add_right_of_le hbelow

/-! ## Reaping a process -/

/-- The five pages of a process, in the order in which they are on the free list after `wait` has reaped it. -/
def Kernel.pagesOf (s : Kernel) (p : Proc) : List Nat :=
  [s.pageOf p .pgd, s.pageOf p .pud, s.pageOf p .pmd, s.pageOf p .frame, s.pageOf p .stack]

theorem Kernel.mem_pagesOf {v : Nat} : v ∈ s.pagesOf x ↔ ∃ k, v = s.pageOf x k := by
  simp only [Kernel.pagesOf, List.mem_cons, List.not_mem_nil, or_false]
  constructor
  · rintro (hv | hv | hv | hv | hv)
    · exact ⟨.pgd, hv⟩
    · exact ⟨.pud, hv⟩
    · exact ⟨.pmd, hv⟩
    · exact ⟨.frame, hv⟩
    · exact ⟨.stack, hv⟩
  · rintro ⟨k, hv⟩
    cases k <;> simp [hv]

/-- The pages of a process and the free ones are different heap pages. -/
theorem PageInv.pagesOf (h : PageInv L s xs) (hx : s.IsUser x) :
    (∀ v ∈ s.pagesOf x, HeapPage L v) ∧ (s.pagesOf x ++ xs).Nodup := by
  have hne : ∀ {k k'}, k ≠ k' → s.pageOf x k ≠ s.pageOf x k' := fun hk => h.ne hx hx (.inr hk)
  refine ⟨fun v hv => ?_, ?_⟩
  · obtain ⟨k, hk⟩ := Kernel.mem_pagesOf.mp hv
    rw [hk]
    exact h.page hx k
  · simp [Kernel.pagesOf, List.nodup_cons, hne, h.not_free hx, h.owned.nodup]

/-- Freeing the stack and the address space of a process. -/
theorem PageInv.freeProcess (h : PageInv L s xs) (hx : s.IsUser x) :
    ∃ M M', kfree L (s.proc x).stack s.memory = .ok M ∧ freeVm L (s.proc x).pageMap M = .ok M' ∧
      FreeList M' (s.pagesOf x ++ xs) ∧ OnlyIn (s.pagesOf x) s.memory.mem M'.mem := by
  obtain ⟨hpages, hnodup⟩ := h.pagesOf hx
  obtain ⟨hrun, hfree, honly⟩ := kfree_spec h.free h.freePages (h.page hx .stack) (h.not_free hx .stack)
  have hstack : ∀ v ∈ [s.pageOf x .stack], HeapPage L v := fun v hv => List.mem_singleton.mp hv ▸ h.page hx .stack
  have hsame : ∀ k, k ≠ .stack → Mem.Same s.memory.mem (s.memory.mem.write 8 (s.pageOf x .stack) s.memory.freeMemory)
      (s.pageOf x k) pageSize := fun k hk =>
    honly.same hstack (h.page hx k) (by simpa using h.ne hx hx (.inr hk))
  have hsub : [s.pageOf x .pgd, s.pageOf x .pud, s.pageOf x .pmd, s.pageOf x .frame] ⊆ s.pagesOf x := by
    simp [Kernel.pagesOf]
  have hspace := (h.space x hx).congr (hsame .pgd nofun) (hsame .pud nofun) (hsame .pmd nofun)
  obtain ⟨M', hvm, hfree', honly'⟩ := freeVm_spec hspace hfree
    (List.forall_mem_cons.mpr ⟨h.page hx .stack, h.freePages⟩)
    (fun v hv => hpages v (hsub hv)) hnodup
  refine ⟨_, M', hrun, hvm, hfree', (honly.trans honly').weaken ?_⟩
  simp [Kernel.pagesOf]

/-- What `wait` does to the memory. -/
theorem PageInv.reaped_memory {q : ListId → List Proc} {lost : Set Proc} {pid : Int} {as bs : List Proc}
    (h : PageInv L s xs) (hidle : x ≠ idle) (hr : Reaped L s t q lost pid x as bs) :
    s.IsUser x ∧ FreeList t.memory (s.pagesOf x ++ xs) ∧ OnlyIn (s.pagesOf x) s.memory.mem t.memory.mem := by
  have hx : s.IsUser x := ⟨hidle, by simp [Kernel.Live, hr.state]⟩
  obtain ⟨M, M', hrun, hvm, hfree, honly⟩ := h.freeProcess hx
  obtain ⟨N, hrun', hvm'⟩ := hr.memory
  obtain rfl : M = N := Except.ok.inj (hrun.symm.trans hrun')
  obtain rfl : M' = t.memory := Except.ok.inj (hvm.symm.trans hvm')
  exact ⟨hx, hfree, honly⟩

theorem Reaped.live_iff {q : ListId → List Proc} {lost : Set Proc} {pid : Int} {as bs : List Proc}
    (hr : Reaped L s t q lost pid x as bs) (hp : p ≠ x) : t.Live p ↔ s.Live p := by
  rw [Kernel.Live, Kernel.Live, hr.others p hp]

/-- The other processes keep their pages. -/
theorem PageInv.reap_others {q : ListId → List Proc} {lost : Set Proc} {pid : Int} {as bs : List Proc}
    (h : PageInv L s xs) (hidle : x ≠ idle) (hr : Reaped L s t q lost pid x as bs) (hp : p ≠ x) (hu : s.IsUser p) :
    (∀ k, t.pageOf p k = s.pageOf p k) ∧ AddrSpace t.memory.mem (s.pageOf p .pgd) (s.pageOf p .pud) (s.pageOf p .pmd)
      (s.pageOf p .frame) := by
  obtain ⟨hx, -, honly⟩ := h.reaped_memory hidle hr
  refine h.pageOf_congr hu (by rw [hr.others p hp]) (by rw [hr.others p hp]) fun k _ =>
    honly.same (h.pagesOf hx).1 (h.page hu k) fun hmem => ?_
  obtain ⟨k', hk'⟩ := Kernel.mem_pagesOf.mp hmem
  exact h.ne hu hx (.inl hp) hk'

theorem PageInv.reap {q : ListId → List Proc} {lost : Set Proc} {pid : Int} {as bs : List Proc}
    (h : PageInv L s xs) (hidle : x ≠ idle) (hr : Reaped L s t q lost pid x as bs) :
    PageInv L t (s.pagesOf x ++ xs) := by
  obtain ⟨hx, hfree, honly⟩ := h.reaped_memory hidle hr
  have hx' : ¬t.IsUser x := fun hu => hr.ne_of_live hu.2 rfl
  have hisUser : ∀ {p}, p ≠ x → (t.IsUser p ↔ s.IsUser p) := fun hp => and_congr_right fun _ => hr.live_iff hp
  have hpage := fun p (hp : p ≠ x) (hu : s.IsUser p) => h.reap_others hidle hr hp hu
  refine ⟨hfree, ?_, ?_⟩
  · have hgive := ((((h.owned.give (Kernel.holds_process hx .stack)).give (k := .process x .frame)
      (v := s.pageOf x .frame) (by simp [Kernel.holds_process hx])).give (k := .process x .pmd)
      (v := s.pageOf x .pmd) (by simp [Kernel.holds_process hx])).give (k := .process x .pud)
      (v := s.pageOf x .pud) (by simp [Kernel.holds_process hx])).give (k := .process x .pgd)
      (v := s.pageOf x .pgd) (by simp [Kernel.holds_process hx])
    refine hgive.congr fun o => ?_
    cases o with
    | fcbTable => simpa [Function.update_apply, Kernel.holds] using congrArg Fs.fcbPage hr.fs
    | fileDescTable => simpa [Function.update_apply, Kernel.holds] using congrArg Fs.fileDescPage hr.fs
    | process p k =>
        by_cases hp : p = x
        · subst hp
          rw [Kernel.holds_none hx']
          cases k <;> simp
        · simp only [Function.update_apply, PageOwner.process.injEq, hp, false_and, if_false]
          by_cases hu : s.IsUser p
          · rw [Kernel.holds_process ((hisUser hp).mpr hu), Kernel.holds_process hu, (hpage p hp hu).1]
          · rw [Kernel.holds_none fun hu' => hu ((hisUser hp).mp hu'), Kernel.holds_none hu]
  · intro p hu
    have hp : p ≠ x := hr.ne_of_live hu.2
    obtain ⟨hpages', hspace⟩ := hpage p hp ((hisUser hp).mp hu)
    rw [hpages', hpages', hpages', hpages']
    exact hspace

end ArmOs
