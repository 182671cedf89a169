import ArmOs.Sched.Lemmas.Frame

/-!
# New processes

What `alloc_new_process`, `fork` and `init_process` leave, when they succeed. The parts about memory and
files are stated with the functions that compute them.
-/

namespace ArmOs

open Lib

@[simp] theorem Kernel.setProc_setProc (s : Kernel) (i : Proc) (p p' : Process Proc) :
    (s.setProc i p).setProc i p' = s.setProc i p' := by simp [Kernel.setProc]

theorem findUnusedProcess_eq_some {s : Kernel} {i : Proc} (h : findUnusedProcess s = some i) :
    (s.proc i).state = .unused := by
  simpa using (Fin.find?_eq_some_iff.mp h).1

variable {L : Layout}

/-! ## `alloc_new_process` -/

/-- The kernel stack of a new process, with the frames for its first return to user mode. -/
def newStack (L : Layout) (stack : Nat) (m : Mem) : Mem :=
  let m := m.fill stack pageSize 0
  let m := m.write 8 (stack + pageSize - TrapFrame.size - 12 * 8 + 11 * 8) L.trapReturn
  let tf := stack + pageSize - TrapFrame.size
  let m := m.write 8 (tf + TrapFrame.elr) userBase
  let m := m.write 8 (tf + TrapFrame.sp0) (userBase + pageSize)
  m.write 8 (tf + TrapFrame.spsr) 0

/-- What `alloc_new_process` stores in the process structure. -/
def newProcess (s : Kernel) (i : Proc) (stack pageMap : Nat) : Process Proc :=
  { s.proc i with
    stack := stack
    state := .init
    pid := s.pidNum
    context := stack + pageSize - TrapFrame.size - 12 * 8
    tf := stack + pageSize - TrapFrame.size
    pageMap := pageMap }

theorem allocNewProcess_ok {s t : Kernel} {i : Proc} (h : allocNewProcess L s = .ok (i, t)) :
    findUnusedProcess s = some i ∧ ∃ stack pageMap M₁ M₂,
      kalloc L s.memory = .ok (stack, M₁) ∧ stack ≠ 0 ∧
      kalloc L { M₁ with mem := newStack L stack M₁.mem } = .ok (pageMap, M₂) ∧ pageMap ≠ 0 ∧
      t = { (s.setProc i (newProcess s i stack pageMap)).setKont i .ret with
            memory := { M₂ with mem := M₂.mem.fill pageMap pageSize 0 }
            pidNum := int32 (s.pidNum + 1) } := by
  obtain ⟨⟨stack, M₁⟩, hstack, h⟩ := bind_eq_ok.mp h
  obtain ⟨process, hprocess, h⟩ := bind_eq_ok.mp h
  obtain ⟨_, hne, h⟩ := bind_eq_ok.mp h
  obtain ⟨⟨pageMap, M₂⟩, hmap, h⟩ := bind_eq_ok.mp h
  obtain ⟨_, hne', h⟩ := bind_eq_ok.mp h
  cases h
  have hfound : findUnusedProcess s = some i := by
    revert hprocess
    cases findUnusedProcess s with
    | none => exact nofun
    | some i => intro h; cases h; rfl
  exact ⟨hfound, stack, pageMap, M₁, M₂, hstack, require_eq_ok.mp hne, hmap, require_eq_ok.mp hne', rfl⟩

/-- What the scheduler sees of `alloc_new_process`. -/
structure Allocated (s t : Kernel) (i : Proc) : Prop where
  unused : (s.proc i).state = .unused
  same : SameProcs {i} s t
  pid : (t.proc i).pid = s.pidNum
  file : (t.proc i).file = (s.proc i).file
  stack : (t.proc i).tf = (t.proc i).stack + pageSize - TrapFrame.size
  pidNum : t.pidNum = int32 (s.pidNum + 1)
  kont : t.kont = Function.update s.kont i .ret
  fs : t.fs = s.fs
  keyBuffer : t.keyBuffer = s.keyBuffer
  trace : t.trace = s.trace
  others : ∀ j, j ≠ i → t.proc j = s.proc j

theorem allocNewProcess_spec {s t : Kernel} {i : Proc} (h : allocNewProcess L s = .ok (i, t)) :
    Allocated s t i := by
  obtain ⟨hfound, stack, pageMap, M₁, M₂, -, -, -, -, ht⟩ := allocNewProcess_ok h
  have hothers : ∀ j, j ≠ i → t.proc j = s.proc j := fun j hj => by
    rw [ht]
    exact s.setProc_ne i j _ hj
  have hself : t.proc i = newProcess s i stack pageMap := by
    rw [ht]
    exact s.setProc_self i _
  have htrace : t.trace = s.trace := by rw [ht]; rfl
  refine ⟨findUnusedProcess_eq_some hfound, ⟨fun j hj => ?_, by rw [ht]; rfl, by rw [ht]; rfl, [], ?_, by simp⟩,
    by rw [hself]; rfl, by rw [hself]; rfl, by rw [hself]; rfl, by rw [ht], by rw [ht]; rfl, by rw [ht]; rfl,
    by rw [ht]; rfl, htrace, hothers⟩
  · rw [hothers j hj]
  · rw [htrace, List.append_nil]

/-- Appending a new process to `ready_list`. -/
theorem SchedInv.appendNew {s s' : Kernel} {q : ListId → List Proc} {lost : Set Proc} {i : Proc}
    (h : SchedInv s q lost) (hi : (s.proc i).state = .unused) (hs : SameProcs {i} s s')
    (hready : (s'.proc i).state = .ready) :
    ∃ t, s'.appendTail .ready i = .ok t ∧ SchedInv t (Function.update q .ready (q .ready ++ [i])) lost ∧
      SameButLinks s' t ∧ t.trace = s'.trace ++ [.append .ready i] := by
  have hidle : i ≠ idle := by
    rintro rfl
    rcases h.idleState with h' | h' <;> rw [hi] at h' <;> cases h'
  have hcur : s.current ≠ i := by
    rintro rfl
    rw [h.current_state] at hi
    cases hi
  have hlost : i ∉ lost := fun hl => by
    have := (h.lostReady i hl).2.1
    rw [hi] at this
    cases this
  have hl : ∀ l : ListId, (s.proc i).state ≠ l.state := fun l => by
    rw [hi]
    cases l <;> decide
  obtain ⟨t, hrun, hq, hlinks, htr⟩ := (hs.queues (Set.singleton_subset_iff.mpr (Set.mem_insert i lost))
    (h.queues.take (.inr hl))).appendTail (l := .ready) hlost hidle hready
  have hold : ∀ j, j ≠ i → t.proc j = { s.proc j with file := (t.proc j).file, next := (t.proc j).next } := by
    intro j hj
    rw [hlinks.proc, hs.proc j hj]
  refine ⟨t, hrun, ⟨hq, ?_, ?_, ?_, ?_, ?_, ?_, ?_⟩, hlinks, htr⟩
  · intro j hj
    have hji : j ≠ i := by rintro rfl; exact hlost hj
    rw [hold j hji]
    exact h.lostReady j hj
  · rw [hold idle hidle.symm]
    exact h.idlePid
  · intro j
    rw [hlinks.current, hs.current]
    by_cases hj : j = i
    · subst hj
      rw [hlinks.state, hready]
      simp [hcur.symm]
    · rw [hold j hj, ← h.running]
  · rw [hold idle hidle.symm]
    exact h.idleState
  · rw [hlinks.ttbr0, hs.ttbr0, hlinks.current, hs.current, hold s.current hcur]
    exact h.ttbr0
  · rw [htr, readyOps_append, hs.readyOps_eq,
      show readyOps [.append .ready i] = [.enq i] by rfl, QueueOp.replay_snoc h.fifo]
    simp [QueueOp.step]
  · intro p hp
    rw [htr] at hp
    rcases List.mem_append.mp hp with hp | hp
    · exact h.noSelf p ((hs.mem_trace id).mp hp)
    · simp at hp

/-! ## `fork` -/

/-- The file tables after the loop of `fork` over the slots `file`. -/
def countSlots (file : Fin numFile → Option Nat) (fs : Fs) : Except Stop Fs :=
  (List.finRange numFile).foldlM (fun fs i => countSlot (file i) fs) fs

/-- The frame of a child: the parent's, with `x0` cleared. -/
def childFrame (tf parent : Nat) (m : Mem) : Mem :=
  (m.copy tf parent TrapFrame.size).write 8 (tf + TrapFrame.x 0) 0

/-- The state before `fork` puts the child on `ready_list`. -/
def forked (s₁ : Kernel) (i parent : Proc) (M : Memory) (fs : Fs) : Kernel :=
  { s₁.setProc i { s₁.proc i with file := (s₁.proc parent).file, state := .ready } with
    memory := { M with mem := childFrame (s₁.proc i).tf (s₁.proc parent).tf M.mem }
    fs := fs }

theorem fork_ok {s t : Kernel} {r : Int} (h : fork L s = .ok (r, t)) (hcur : (s.proc s.current).state ≠ .unused) :
    ∃ i s₁ M fs, allocNewProcess L s = .ok (i, s₁) ∧
      copyUvm L (s₁.proc i).pageMap (s₁.proc s.current).pageMap pageSize s₁.memory = .ok (true, M) ∧
      countSlots (s.proc s.current).file s.fs = .ok fs ∧
      (forked s₁ i s.current M fs).appendTail .ready i = .ok t ∧ r = (t.proc i).pid := by
  obtain ⟨⟨i, s₁⟩, halloc, h⟩ := bind_eq_ok.mp h
  obtain ⟨⟨status, M⟩, hcopy, h⟩ := bind_eq_ok.mp h
  obtain ⟨_, hstatus, h⟩ := bind_eq_ok.mp h
  obtain ⟨fs, hcount, h⟩ := bind_eq_ok.mp h
  obtain ⟨u, happend, h⟩ := bind_eq_ok.mp h
  cases h
  obtain rfl : status = true := require_eq_ok.mp hstatus
  have hspec := allocNewProcess_spec halloc
  have hi : s.current ≠ i := by
    rintro rfl
    exact hcur hspec.unused
  refine ⟨i, s₁, M, fs, halloc, hcopy, ?_, ?_, rfl⟩
  · simpa [countSlots, Kernel.proc, hspec.fs, hspec.others _ hi] using hcount
  · have hstate : forked s₁ i s.current M fs = Kernel.setProc
        { s₁.setProc i { s₁.proc i with file := (s₁.proc s.current).file } with
          memory := { M with mem := childFrame (s₁.proc i).tf (s₁.proc s.current).tf M.mem }, fs := fs } i
        { s₁.proc i with file := (s₁.proc s.current).file, state := .ready } := by
      simp [forked, Kernel.setProc]
    rw [hstate]
    simpa [Kernel.proc, s₁.setProc_ne i s.current _ hi, childFrame] using happend

/-- What `fork` does to the processes. -/
structure Forked (s t : Kernel) (i : Proc) : Prop where
  unused : (s.proc i).state = .unused
  others : ∀ j, j ≠ i → t.proc j = { s.proc j with next := (t.proc j).next }
  pid : (t.proc i).pid = s.pidNum
  state : (t.proc i).state = .ready
  file : (t.proc i).file = (s.proc s.current).file
  tf : (t.proc i).tf = (t.proc i).stack + pageSize - TrapFrame.size
  current : t.current = s.current
  pidNum : t.pidNum = int32 (s.pidNum + 1)
  kont : t.kont = Function.update s.kont i .ret
  keyBuffer : t.keyBuffer = s.keyBuffer
  fs : countSlots (s.proc s.current).file s.fs = .ok t.fs
  trace : t.trace = s.trace ++ [.append .ready i]

theorem fork_spec {s t : Kernel} {q : ListId → List Proc} {lost : Set Proc} {r : Int}
    (h : SchedInv s q lost) (hfork : fork L s = .ok (r, t)) :
    ∃ i, Forked s t i ∧ SchedInv t (Function.update q .ready (q .ready ++ [i])) lost ∧ r = s.pidNum := by
  obtain ⟨i, s₁, M, fs, halloc, -, hcount, happend, rfl⟩ := fork_ok hfork (by simp [h.current_state])
  have ha := allocNewProcess_spec halloc
  have hcur : s.current ≠ i := by
    rintro he
    have := ha.unused
    rw [← he, h.current_state] at this
    cases this
  have hself : (forked s₁ i s.current M fs).proc i =
      { s₁.proc i with file := (s₁.proc s.current).file, state := .ready } := s₁.setProc_self i _
  have hothers : ∀ j, j ≠ i → (forked s₁ i s.current M fs).proc j = s.proc j := fun j hj =>
    (s₁.setProc_ne i j _ hj).trans (ha.others j hj)
  have hsame : SameProcs {i} s (forked s₁ i s.current M fs) := by
    refine ⟨fun j hj => ?_, ha.same.pc, ha.same.ttbr0, [], ?_, by simp⟩
    · rw [hothers j hj]
    · exact ha.trace.trans (List.append_nil s.trace).symm
  obtain ⟨t', hrun, hinv, hlinks, htr⟩ := h.appendNew ha.unused hsame (by rw [hself])
  obtain rfl : t' = t := Except.ok.inj (hrun.symm.trans happend)
  have hpid : (t'.proc i).pid = s.pidNum := by rw [hlinks.pid, hself, ← ha.pid]
  refine ⟨i, ⟨ha.unused, fun j hj => ?_, hpid, ?_, ?_, ?_, ?_, ?_, ?_, ?_, ?_, ?_⟩, hinv, hpid⟩
  · rw [hlinks.proc, hothers j hj]
  · rw [hlinks.state, hself]
  · rw [hlinks.proc, hself, ha.others _ hcur]
  · rw [hlinks.proc, hself]
    exact ha.stack
  · rw [hlinks.current, hsame.current]
  · rw [hlinks.pidNum]
    exact ha.pidNum
  · rw [hlinks.kont]
    exact ha.kont
  · rw [hlinks.keyBuffer]
    exact ha.keyBuffer
  · rw [hlinks.fs]
    exact hcount
  · rw [htr]
    exact congrArg (· ++ _) ha.trace

/-! ## `init_process` -/

theorem setupUvm_true {s t : Kernel} {i : Proc} {name : Nat → UInt8}
    (h : setupUvm L i name s = .ok (true, t)) :
    ∃ page M₁ M₂ fd s₁ size s₂, kalloc L s.memory = .ok (page, M₁) ∧ page ≠ 0 ∧
      mapPage L (s.proc i).pageMap userBase (v2p page) userAttribute
        { M₁ with mem := M₁.mem.fill page pageSize 0 } = .ok (true, M₂) ∧
      openFile i name { s with memory := M₂ } = (fd, s₁) ∧ fd ≠ -1 ∧
      getFileSize i fd s₁ = .ok size ∧ readFile i fd page size s₁ = .ok (size, s₂) ∧
      closeFile i fd s₂ = .ok t := by
  obtain ⟨⟨page, M₁⟩, hpage, h⟩ := bind_eq_ok.mp h
  dsimp only at h
  split at h
  case isFalse => cases h
  case isTrue hne =>
  obtain ⟨⟨status, M₂⟩, hmap, h⟩ := bind_eq_ok.mp h
  dsimp only at h
  split at h
  case isFalse =>
    obtain ⟨M, _, h⟩ := bind_eq_ok.mp h
    obtain ⟨M', _, h⟩ := bind_eq_ok.mp h
    cases h
  case isTrue hstatus =>
  subst hstatus
  split at h
  case isTrue =>
    obtain ⟨M, _, h⟩ := bind_eq_ok.mp h
    cases h
  case isFalse hfd =>
  obtain ⟨size, hsize, h⟩ := bind_eq_ok.mp h
  obtain ⟨⟨readSize, s₂⟩, hread, h⟩ := bind_eq_ok.mp h
  dsimp only at h
  split at h
  case isTrue =>
    obtain ⟨M, _, h⟩ := bind_eq_ok.mp h
    cases h
  case isFalse hreadSize =>
  obtain ⟨s₃, hclose, h⟩ := bind_eq_ok.mp h
  cases h
  obtain rfl : readSize = size := not_not.mp hreadSize
  exact ⟨page, M₁, M₂, _, _, _, s₂, hpage, hne, hmap, Prod.mk.eta.symm, hfd, hsize, hread, hclose⟩

theorem setupUvm_same {s t : Kernel} {i : Proc} {name : Nat → UInt8}
    (h : setupUvm L i name s = .ok (true, t)) : SameSched s t := by
  obtain ⟨page, M₁, M₂, fd, s₁, size, s₂, -, -, -, hopen, -, -, hread, hclose⟩ := setupUvm_true h
  have hopen' := openFile_same i name { s with memory := M₂ }
  rw [hopen] at hopen'
  exact (((SameSched.ofRest s M₂ _ _ _).trans hopen').trans (readFile_same hread)).trans
    (closeFile_same hclose)

/-- The state `init_idle_process` leaves. -/
def idleStarted (L : Layout) (s : Kernel) : Kernel :=
  { s.setProc idle { s.proc idle with state := .running, pid := 0, pageMap := p2v L.bootPgd } with
    pc := { s.pc with currentProcess := idle } }

/-- The file that `init_user_process` loads. -/
def initBin : Nat → UInt8 := cstring ['I', 'N', 'I', 'T', '.', 'B', 'I', 'N']

theorem initFs_ok {s t : Kernel} (h : initFs L s = .ok t) :
    ∃ fcbPage M₁ fileDescPage M₂, initTable L s.memory = .ok (fcbPage, M₁) ∧
      initTable L M₁ = .ok (fileDescPage, M₂) ∧
      t = { s with
        memory := M₂
        fs := ⟨fun _ => FCB.zero, fun _ => FileDesc.zero, fcbPage, fileDescPage⟩ } := by
  obtain ⟨_, _, h⟩ := bind_eq_ok.mp h
  obtain ⟨⟨fcbPage, M₁⟩, h₁, h⟩ := bind_eq_ok.mp h
  obtain ⟨⟨fileDescPage, M₂⟩, h₂, h⟩ := bind_eq_ok.mp h
  cases h
  exact ⟨fcbPage, M₁, fileDescPage, M₂, h₁, h₂, rfl⟩

theorem boot_ok {m : Mem} {t : Kernel} (h : boot L m = .ok t) :
    ∃ M s₁ i s₂ s₃, initMemory L ⟨m, 0⟩ = .ok M ∧ initFs L { Kernel.reset L m with memory := M } = .ok s₁ ∧
      allocNewProcess L (idleStarted L s₁) = .ok (i, s₂) ∧ setupUvm L i initBin s₂ = .ok (true, s₃) ∧
      (s₃.setProc i { s₃.proc i with state := .ready }).appendTail .ready i = .ok t := by
  obtain ⟨M, hM, h⟩ := bind_eq_ok.mp h
  obtain ⟨s₁, hfs, h⟩ := bind_eq_ok.mp h
  obtain ⟨s₂, hidle, h⟩ := bind_eq_ok.mp h
  obtain ⟨_, _, hidle⟩ := bind_eq_ok.mp hidle
  cases hidle
  obtain ⟨⟨i, s₃⟩, halloc, h⟩ := bind_eq_ok.mp h
  obtain ⟨⟨status, s₄⟩, hsetup, h⟩ := bind_eq_ok.mp h
  obtain ⟨_, hstatus, h⟩ := bind_eq_ok.mp h
  obtain rfl : status = true := require_eq_ok.mp hstatus
  exact ⟨M, s₁, i, s₃, s₄, hM, hfs, halloc, hsetup, h⟩

/-- What the scheduler sees of a kernel that has just started: the idle process and the first user process. -/
structure Booted (t : Kernel) (i : Proc) : Prop where
  idlePid : (t.proc idle).pid = 0
  pid : (t.proc i).pid = 1
  state : (t.proc i).state = .ready
  others : ∀ j, j ≠ i → j ≠ idle → (t.proc j).state = .unused
  tf : ∀ j, j ≠ idle → (t.proc j).state ≠ .unused →
    (t.proc j).tf = (t.proc j).stack + pageSize - TrapFrame.size
  pidNum : t.pidNum = 2
  kont : ∀ j, t.kont j = .ret
  trace : ∃ os, t.trace = os ++ [.append .ready i] ∧ ∀ o ∈ os, o.isKey

theorem v2p_bootPgd (L : Layout) : v2p (p2v L.bootPgd) = L.bootPgd := by
  have := L.bootPgd_phys
  simp only [v2p, p2v, kernelBase]
  omega

/-- Before `init_process`: no process, and empty lists. -/
structure NoProcess (L : Layout) (s : Kernel) : Prop where
  proc : ∀ i, s.proc i = Process.zero
  lists : ∀ l, s.pc.list l = ⟨.null, .null⟩
  ttbr0 : s.ttbr0 = L.bootPgd
  pidNum : s.pidNum = 1
  kont : ∀ i, s.kont i = .ret
  trace : s.trace = []

theorem noProcess_of_initFs {m : Mem} {M : Memory} {s : Kernel}
    (h : initFs L { Kernel.reset L m with memory := M } = .ok s) : NoProcess L s := by
  obtain ⟨_, _, _, _, _, _, rfl⟩ := initFs_ok h
  exact ⟨fun _ => rfl, fun l => by cases l <;> rfl, rfl, rfl, fun _ => rfl, rfl⟩

namespace NoProcess

variable {s : Kernel}

theorem idle_eq (h : NoProcess L s) :
    (idleStarted L s).proc idle = { Process.zero with state := .running, pageMap := p2v L.bootPgd } := by
  have : (idleStarted L s).proc idle = _ := s.setProc_self idle _
  rw [this, h.proc]
  rfl

theorem other_eq (h : NoProcess L s) {i : Proc} (hi : i ≠ idle) :
    (idleStarted L s).proc i = Process.zero := (s.setProc_ne _ _ _ hi).trans (h.proc i)

theorem inv (h : NoProcess L s) : SchedInv (idleStarted L s) (fun _ => []) ∅ := by
  have hstate : ∀ j, ((idleStarted L s).proc j).state = if j = idle then .running else .unused := by
    intro j
    by_cases hj : j = idle
    · subst hj; rw [h.idle_eq]; simp
    · rw [h.other_eq hj]; simp [hj, Process.zero]
  have htrace : (idleStarted L s).trace = [] := h.trace
  refine ⟨⟨fun l => ?_, fun l i => ?_⟩, nofun, ?_, fun i => ?_, ?_, ?_, ?_, ?_⟩
  · have : (idleStarted L s).pc.list l = ⟨.null, .null⟩ := by
      rw [← h.lists l]
      cases l <;> rfl
    rw [this]
    exact Represents.empty _
  · rw [hstate]
    by_cases hi : i = idle
    · simp [hi]
    · simp only [hi, if_false, List.not_mem_nil, false_iff]
      rintro ⟨_, _, hs⟩
      cases l <;> cases hs
  · rw [h.idle_eq]
    rfl
  · rw [hstate]
    show _ ↔ i = idle
    by_cases hi : i = idle <;> simp [hi]
  · rw [hstate]
    simp
  · show s.ttbr0 = v2p ((idleStarted L s).proc idle).pageMap
    rw [h.idle_eq, h.ttbr0]
    exact (v2p_bootPgd L).symm
  · rw [htrace]
    rfl
  · rw [htrace]
    simp

end NoProcess

theorem boot_spec {m : Mem} {t : Kernel} (h : boot L m = .ok t) :
    ∃ i q, i ≠ idle ∧ SchedInv t q ∅ ∧ Booted t i := by
  obtain ⟨M, s₁, i, s₂, s₃, -, hfs, halloc, hsetup, happend⟩ := boot_ok h
  have hno := noProcess_of_initFs hfs
  have ha := allocNewProcess_spec halloc
  have hs := setupUvm_same hsetup
  have hidle : i ≠ idle := by
    rintro rfl
    have := ha.unused
    rw [hno.idle_eq] at this
    cases this
  have hready : SameProcs {i} s₃ (s₃.setProc i { s₃.proc i with state := .ready }) := by
    refine ⟨fun j hj => ?_, rfl, rfl, [], by simp⟩
    simp only [Kernel.proc, s₃.setProc_ne _ _ _ hj]
  have hsame := (ha.same.trans (hs.weaken _)).trans hready
  obtain ⟨t', hrun, hinv, hlinks, htr⟩ := hno.inv.appendNew ha.unused hsame (by simp [Kernel.proc])
  obtain rfl : t' = t := Except.ok.inj (hrun.symm.trans happend)
  have hself : t'.proc i = { s₃.proc i with state := .ready, next := (t'.proc i).next } := by
    rw [hlinks.proc]
    simp [Kernel.proc]
  have hothers : ∀ j, j ≠ i → t'.proc j =
      { (idleStarted L s₁).proc j with next := (t'.proc j).next, file := (t'.proc j).file } := by
    intro j hj
    rw [hlinks.proc, hsame.proc j hj]
  refine ⟨i, _, hidle, hinv, ?_, ?_, ?_, ?_, ?_, ?_, ?_, ?_⟩
  · rw [hothers idle hidle.symm, hno.idle_eq]
    rfl
  · rw [hself]
    show (s₃.proc i).pid = 1
    rw [hs.pid, ha.pid]
    exact hno.pidNum
  · rw [hself]
  · intro j hj hj'
    rw [hothers j hj, hno.other_eq hj']
    rfl
  · intro j hj hlive
    by_cases hji : j = i
    · subst hji
      rw [hself]
      show (s₃.proc j).tf = (s₃.proc j).stack + pageSize - TrapFrame.size
      rw [hs.eq]
      exact ha.stack
    · refine absurd ?_ hlive
      rw [hothers j hji, hno.other_eq hj]
      rfl
  · rw [hlinks.pidNum]
    show s₃.pidNum = 2
    rw [hs.pidNum, ha.pidNum]
    show int32 (s₁.pidNum + 1) = 2
    rw [hno.pidNum]
    rfl
  · intro j
    rw [hlinks.kont]
    show s₃.kont j = .ret
    rw [hs.kont, ha.kont]
    by_cases hj : j = i
    · simp [hj]
    · rw [Function.update_of_ne hj]
      exact hno.kont j
  · obtain ⟨os, hos, hkey⟩ := hsame.trace
    refine ⟨os, ?_, hkey⟩
    rw [htr, hos]
    show s₁.trace ++ os ++ _ = _
    rw [hno.trace, List.nil_append]

end ArmOs
