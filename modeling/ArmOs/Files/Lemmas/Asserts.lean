import ArmOs.Files.Lemmas.Invariants

/-!
# The `ASSERT`s of `kalloc`, `kfree` and `put_fcb`

`fork`, `wait` and `close_file` call them; every other function stops, if it stops, for another reason. So an
`ASSERT` does not fail in a step if it holds where the step calls these three. That of `put_fcb` does when no slot
dangles.
-/

namespace ArmOs

open Lib

variable {L : Layout} {site : Site}

/-- The functions that others are built on. -/
def Site.IsLow : Site → Prop
  | .kfree | .kalloc | .putFcb => True
  | _ => False

theorem Site.putFcb_isLow : Site.putFcb.IsLow := trivial

theorem Site.IsLow.ne {site' : Site} (h : site.IsLow) (h' : ¬site'.IsLow) : Stop.assert site' ≠ .assert site := by
  intro he
  cases he
  exact h' h

/-- The `ASSERT` of `put_fcb` does not fail. -/
abbrev PutsFcb {α : Type} (x : Except Stop α) : Prop := Avoids (.assert .putFcb) x

/-! ## Files -/

theorem resolve_avoids (m : Mem) (ttbr0 va n : Nat) : Avoids (.assert site) (resolve m ttbr0 va n) := by
  unfold resolve
  split
  · exact .ok
  · split
    · split
      · exact .ok
      · exact .error nofun
    · exact .error nofun

theorem copyOut_avoids (ttbr0 : Nat) (m : Mem) (buffer data n : Nat) :
    Avoids (.assert site) (copyOut ttbr0 m buffer data n) :=
  .ite (fun _ => .ok) fun _ => .bind (resolve_avoids _ _ _ _) fun _ _ => .pure

theorem deref_avoids {α : Type} (o : Option α) : Avoids (.assert site) (deref o) := by
  cases o with
  | none => exact .error nofun
  | some a => exact .ok

theorem fileSlot_avoids (p : Process Proc) (fd : Int) : Avoids (.assert site) (fileSlot p fd) := by
  unfold fileSlot
  split
  · exact .ok
  · exact .error nofun

variable {s : Kernel}

theorem getFileSize_avoids (p : Proc) (fd : Int) : Avoids (.assert site) (getFileSize p fd s) :=
  .bind (fileSlot_avoids _ _) fun _ _ => .bind (deref_avoids _) fun _ _ => .bind (deref_avoids _) fun _ _ => .pure

theorem readRootDirectory_avoids (buffer : Nat) : Avoids (.assert site) (readRootDirectory buffer s) :=
  .bind (copyOut_avoids _ _ _ _ _) fun _ _ => .pure

section

variable (hsite : site.IsLow)

include hsite

theorem getClusterOffset_avoids (m : Mem) (index : Nat) : Avoids (.assert site) (getClusterOffset m index) :=
  .bind (.require (hsite.ne id)) fun _ _ => .pure

theorem skipClusters_avoids (m : Mem) (count index : Nat) : Avoids (.assert site) (skipClusters m count index) := by
  induction count generalizing index with
  | zero => exact .ok
  | succ count ih => exact .bind (.require (hsite.ne id)) fun _ _ => ih _

theorem readLoop_avoids (ttbr0 clusterSize bpb size fuel index buffer readSize : Nat) (m : Mem) :
    Avoids (.assert site) (readLoop ttbr0 clusterSize bpb size fuel index buffer readSize m) := by
  induction fuel generalizing index buffer readSize m with
  | zero => exact .error nofun
  | succ fuel ih =>
      refine .ite (fun _ => .bind (getClusterOffset_avoids hsite _ _) fun _ _ => ?_) fun _ => .ok
      exact .ite (fun _ => .bind (copyOut_avoids _ _ _ _ _) fun _ _ => .pure)
        fun _ => .bind (copyOut_avoids _ _ _ _ _) fun _ _ => ih _ _ _ _

theorem readRawData_avoids (ttbr0 clusterIndex buffer position size : Nat) (m : Mem) :
    Avoids (.assert site) (readRawData ttbr0 clusterIndex buffer position size m) :=
  .bind (skipClusters_avoids hsite _ _ _) fun _ _ => .ite
    (fun _ => .bind (getClusterOffset_avoids hsite _ _) fun _ _ => .bind (copyOut_avoids _ _ _ _ _) fun _ _ =>
      readLoop_avoids hsite _ _ _ _ _ _ _ _ _)
    fun _ => readLoop_avoids hsite _ _ _ _ _ _ _ _ _

theorem readFile_avoids (p : Proc) (fd : Int) (buffer size : Nat) :
    Avoids (.assert site) (readFile p fd buffer size s) :=
  .bind (fileSlot_avoids _ _) fun _ _ => .bind (deref_avoids _) fun _ _ => .bind (deref_avoids _) fun _ _ =>
    .ite (fun _ => .pure) fun _ => .bind (readRawData_avoids hsite _ _ _ _ _ _) fun _ _ => .pure

end

/-! ## Processes -/

theorem countSlot_avoids (slot : Option Nat) (fs : Fs) : Avoids (.assert site) (countSlot slot fs) := by
  cases slot with
  | none => exact .ok
  | some d => exact .bind (deref_avoids _) fun _ _ => .pure

theorem appendTail_avoids (l : ListId) (i : Proc) : Avoids (.assert site) (s.appendTail l i) := by
  refine .bind ?_ fun _ _ => .pure
  refine .ite (fun _ => .ok) fun _ => ?_
  split
  · exact .error nofun
  · exact .ok
  · exact .ok

theorem sleep_avoids (h : Good s) (hc : s.current ≠ idle) (w : Int) : Avoids (.assert site) (sleep w s) := by
  obtain ⟨t, ht⟩ := sleep_returns h hc w
  exact .of_ok ht

theorem exit_avoids (h : Good s) (hc : s.current ≠ idle) : Avoids (.assert site) (exit s) := by
  obtain ⟨t, ht⟩ := exit_returns h hc
  exact .of_ok ht

theorem wakeUp_avoids (h : Good s) (w : Int) : Avoids (.assert site) (wakeUp w s) := by
  obtain ⟨t, ht⟩ := wakeUp_returns h w
  exact .of_ok ht

theorem yield_avoids (h : Good s) : Avoids (.assert site) (yield s) := by
  obtain ⟨t, ht⟩ := yield_returns h
  exact .of_ok ht

/-- `wait` frees the pages of a killed process, or goes to sleep. -/
theorem wait_avoids (h : Good s) (hc : s.current ≠ idle) (tf : Nat) (pid : Int)
    (hfree : ∀ x, x ≠ idle → s.Live x → Avoids (.assert site) (kfree L (s.proc x).stack s.memory) ∧
      ∀ M, kfree L (s.proc x).stack s.memory = .ok M → Avoids (.assert site) (freeVm L (s.proc x).pageMap M)) :
    Avoids (.assert site) (wait L tf pid s) := by
  obtain ⟨q, lost, hq⟩ := h.sched
  rcases hq.wait_eq (L := L) tf pid with ⟨ys, x, zs, u, hkill, -, -, -, hwait⟩ | ⟨-, hwait⟩
  · obtain ⟨-, hxi, hstate⟩ := (hq.queues.mem .kill x).mp (by simp [hkill])
    have hx := hfree x hxi (by simp [Kernel.Live, hstate, ListId.state])
    rw [hwait]
    exact .bind hx.1 fun M hM => .bind (hx.2 M hM) fun _ _ => .pure
  · rw [hwait]
    exact .bind (sleep_avoids h hc (-3)) fun _ _ => .pure

/-! ## Exceptions -/

/-- The `ASSERT` holds where the step that handles `ev` from `s` on calls `fork`, `wait` and `close_file`. -/
structure Meets (L : Layout) (site : Site) (s : Kernel) (ev : Event) : Prop where
  fork : ev = .svc .fork → Avoids (.assert site) (fork L s)
  wait : ∀ tf pid u, AtWait s ev pid u → Good u → u.current ≠ idle → Avoids (.assert site) (wait L tf pid u)
  closeFile : ∀ fd u, (ev = .svc (.closeFile fd) ∧ u = s ∨
      ∃ path a, ev = .svc (.exec path) ∧ openFile s.current path s = (fd, a) ∧ SameFiles a u) →
    Avoids (.assert site) (closeFile s.current fd u)

section

variable {ev : Event} (hsite : site.IsLow) (h : Good s)

include hsite h

theorem exec_avoids {path : Nat → UInt8} (hc : s.current ≠ idle) (hm : Meets L site s (.svc (.exec path))) :
    Avoids (.assert site) (exec s.current path s) := by
  have hsame := openFile_same s.current path s
  have hclose := fun fd a u (hopen : openFile s.current path s = (fd, a)) hs =>
    hm.closeFile fd u (.inr ⟨path, a, rfl, hopen, hs⟩)
  unfold exec
  generalize openFile s.current path s = r at hsame hclose
  obtain ⟨fd, s₁⟩ := r
  dsimp only at hsame ⊢
  have h₁ := h.ofSame hsame
  have hc₁ : s₁.current ≠ idle := hsame.current ▸ hc
  refine .ite (fun _ => .bind (exit_avoids h₁ hc₁) fun _ _ => .pure) fun _ => ?_
  refine .bind (resolve_avoids _ _ _ _) fun dst _ => .bind (getFileSize_avoids _ _) fun size _ =>
    .bind (readFile_avoids hsite _ _ _ _) fun r hread => ?_
  obtain ⟨n, s₃⟩ := r
  have hs₃ := (SameSched.setMem s₁ _).trans (readFile_same hread)
  have hfs₃ : SameFiles s₁ s₃ := (SameFiles.setMem s₁ _).trans (readFile_sameFiles hread)
  have hc₃ : s₃.current ≠ idle := hs₃.current ▸ hc₁
  refine .ite (fun _ => .bind (exit_avoids (h₁.ofSame hs₃) hc₃) fun _ _ => .pure) fun _ => ?_
  exact .bind (hclose fd s₁ s₃ rfl hfs₃) fun _ _ => .pure

omit hsite in
theorem sysSleepLoop_avoids (hc : s.current ≠ idle) (tf oldTicks sleepTicks : Nat) :
    Avoids (.assert site) (sysSleepLoop tf oldTicks sleepTicks s) :=
  .ite (fun _ => .bind (sleep_avoids h hc _) fun _ _ => .pure) fun _ => .ok

theorem syscallHandler_avoids {call : Syscall} (hc : s.current ≠ idle) (hm : Meets L site s (.svc call)) (tf : Nat) :
    Avoids (.assert site) (syscallHandler L tf call s) := by
  cases call with
  | write buffer size => exact .ite (fun _ => .bind (resolve_avoids _ _ _ _) fun _ _ => .pure) fun _ => .ok
  | sleep ticks => exact sysSleepLoop_avoids h hc _ _ _
  | exit => exact .bind (exit_avoids h hc) fun _ _ => .pure
  | wait pid => exact .bind (hm.wait _ _ _ (.inl ⟨rfl, rfl⟩) h hc) fun _ _ => .pure
  | openFile path =>
      dsimp only [syscallHandler]
      exact .ok
  | closeFile fd => exact .bind (hm.closeFile _ _ (.inl ⟨rfl, rfl⟩)) fun _ _ => .pure
  | getFileSize fd => exact .bind (getFileSize_avoids _ _) fun _ _ => .pure
  | readFile fd buffer size => exact .bind (readFile_avoids hsite _ _ _ _) fun _ _ => .pure
  | fork => exact .bind (hm.fork rfl) fun _ _ => .pure
  | getpid =>
      dsimp only [syscallHandler]
      exact .ok
  | exec path =>
      dsimp only [syscallHandler]
      exact exec_avoids hsite h hc hm
  | keyboardRead =>
      exact .bind (.ite (fun _ => .bind (sleep_avoids h hc _) fun _ _ => .pure) fun _ => .pure) fun _ _ => .pure
  | readRootDirectory buffer => exact .bind (readRootDirectory_avoids _) fun _ _ => .pure
  | invalid => exact .ok

omit hsite in
theorem resume_avoids (hc : s.current ≠ idle) (hm : Meets L site s .resume) : Avoids (.assert site) (resume L s) := by
  have h' : Good (s.setKont s.current .ret) := (Part.resume (L := L) (o := s) s hc rfl).good h
  unfold resume
  dsimp only
  split
  · exact .ok
  · rename_i tf pid hk
    exact .bind (.bind (hm.wait _ _ _ (.inr ⟨rfl, ⟨tf, hk⟩, rfl⟩) h' hc) fun _ _ => .pure) fun _ _ => .pure
  · exact .bind (sysSleepLoop_avoids h' hc _ _ _) fun _ _ => .pure
  · exact .ok

theorem exceptionHandler_avoids (hen : Enabled s ev) (hm : Meets L site s ev) (tf : Nat) :
    Avoids (.assert site) (exceptionHandler L tf ev s) := by
  cases ev with
  | timer istatus =>
      have htick : Part L s (.timer istatus) s { s with ticks := (s.ticks + 1) % 2 ^ 64 } := .tick s _
      cases istatus with
      | false => exact .bind .ok fun u hu => .bind (Except.ok.inj hu ▸ yield_avoids h) fun _ _ => .pure
      | true =>
          refine .bind (wakeUp_avoids (htick.good h) _) fun u hu => ?_
          have hwake : Part L s (.timer true) _ u := .wakeUp hu
          exact .bind (yield_avoids (hwake.good (htick.good h))) fun _ _ => .pure
  | uart ch =>
      cases ch with
      | none => exact .bind .ok fun _ _ => .pure
      | some ch => exact .bind (wakeUp_avoids (h.ofSame (writeKeyBuffer_same ch s)) _) fun _ _ => .pure
  | fault => exact .bind (exit_avoids h hen.2) fun _ _ => .pure
  | svc call => exact .bind (syscallHandler_avoids hsite h hen.2 hm _) fun _ _ => .pure
  | store va b =>
      refine .bind ?_ fun _ _ => .pure
      unfold userStore
      split
      · exact .ok
      · exact exit_avoids h hen.2
  | resume =>
      refine resume_avoids h ?_ hm
      intro he
      exact hen (by rw [he]; exact h.procs.kontIdle)
  | sleep w => exact .bind (sleep_avoids h hen.2 _) fun _ _ => .pure
  | wakeUp w => exact .bind (wakeUp_avoids h _) fun _ _ => .pure

end

/-! ## `put_fcb` -/

section

variable {M : Memory}

theorem kfree_putsFcb (v : Nat) : PutsFcb (kfree L v M) :=
  .bind (.require nofun) fun _ _ => .bind (.require nofun) fun _ _ => .bind (.require nofun) fun _ _ => .pure

theorem kalloc_putsFcb : PutsFcb (kalloc L M) :=
  .ite (fun _ => .bind (.require nofun) fun _ _ => .bind (.require nofun) fun _ _ =>
    .bind (.require nofun) fun _ _ => .pure) fun _ => .pure

theorem findEntry_putsFcb (map index : Nat) (alloc : Bool) (attr : Nat) :
    PutsFcb (findEntry L map index alloc attr M) :=
  .ite (fun _ => .ok) fun _ => .ite
    (fun _ => .bind kalloc_putsFcb fun _ _ => .ite (fun _ => .pure) fun _ => .pure) fun _ => .ok

theorem findPudEntry_putsFcb (map v : Nat) (alloc : Bool) (attr : Nat) :
    PutsFcb (findPudEntry L map v alloc attr M) :=
  .bind (findEntry_putsFcb _ _ _ _) fun _ _ => .ite (fun _ => .pure) fun _ => findEntry_putsFcb _ _ _ _

theorem mapPage_putsFcb (map v pa attr : Nat) : PutsFcb (mapPage L map v pa attr M) :=
  .bind (.require nofun) fun _ _ => .bind (.require nofun) fun _ _ => .bind (.require nofun) fun _ _ =>
    .bind (findPudEntry_putsFcb _ _ _ _) fun _ _ => .ite (fun _ => .pure) fun _ =>
      .bind (.require nofun) fun _ _ => .pure

theorem freeEntry_putsFcb (addr : Nat → Nat) (map index : Nat) : PutsFcb (freeEntry L addr map index M) :=
  .ite (fun _ => .bind (kfree_putsFcb _) fun _ _ => .pure) fun _ => .ok

theorem freePage_putsFcb (map vstart : Nat) : PutsFcb (freePage L map vstart M) :=
  .bind (.require nofun) fun _ _ => .bind (findPudEntry_putsFcb _ _ _ _) fun _ _ =>
    .ite (fun _ => freeEntry_putsFcb _ _ _) fun _ => .pure

theorem freePmd_putsFcb (map : Nat) : PutsFcb (freePmd L map M) :=
  .foldlM (fun _ _ _ => .ite (fun _ => .foldlM (fun _ _ _ => freeEntry_putsFcb _ _ _) _) fun _ => .ok) _

theorem freePud_putsFcb (map : Nat) : PutsFcb (freePud L map M) :=
  .foldlM (fun _ _ _ => freeEntry_putsFcb _ _ _) _

theorem freeVm_putsFcb (map : Nat) : PutsFcb (freeVm L map M) :=
  .bind (freePage_putsFcb _ _) fun _ _ => .bind (freePmd_putsFcb _) fun _ _ =>
    .bind (freePud_putsFcb _) fun _ _ => kfree_putsFcb _

theorem copyUvm_putsFcb (dstMap srcMap size : Nat) : PutsFcb (copyUvm L dstMap srcMap size M) :=
  .bind kalloc_putsFcb fun _ _ => .ite
    (fun _ => .bind (mapPage_putsFcb _ _ _ _) fun _ _ => .ite
      (fun _ => .bind (findPudEntry_putsFcb _ _ _ _) fun _ _ => .ite
        (fun _ => .bind (freeVm_putsFcb _) fun _ _ => .pure)
        fun _ => .bind (.require nofun) fun _ _ => .pure)
      fun _ => .bind (kfree_putsFcb _) fun _ _ => .bind (freeVm_putsFcb _) fun _ _ => .pure)
    fun _ => .pure

end

/-- A slot that is open can be closed. -/
theorem closeFile_open (h : FileInv s) {p : Proc} {fd : Fin numFile} {d : Nat}
    (hd : (s.proc p).file fd = some d) : ∃ t, closeFile p fd.val s = .ok t := by
  obtain ⟨i, hi⟩ := h.slots.desc (p, fd) d hd
  have hcount : 0 < (s.fs.fcbTable i).count := by
    have hpos : 0 < fcbRefs s i := refs_pos (x := (p, fd)) hd (by simp [Fs.reaches, hi])
    have := h.counts.surplus i
    rw [surplus] at this
    omega
  have hfd : 0 ≤ (fd.val : Int) ∧ (fd.val : Int) < numFile := ⟨by omega, by exact_mod_cast fd.isLt⟩
  have hslot : (s.proc p).file ⟨(fd.val : Int).toNat, by omega⟩ = some d := hd
  simp only [closeFile, hfd, and_self, dite_true, hslot, deref, hi, ok_bind, putFcb, ASSERT, require_of hcount]
  exact ⟨_, rfl⟩

theorem closeFile_putsFcb (h : FileInv s) (p : Proc) (fd : Int) : PutsFcb (closeFile p fd s) := by
  by_cases hfd : 0 ≤ fd ∧ fd < numFile
  · cases hd : (s.proc p).file ⟨fd.toNat, by omega⟩ with
    | none =>
        simp only [closeFile, hfd, and_self, dite_true, hd]
        exact .bind (.error (by simp)) (by simp [deref])
    | some d =>
        obtain ⟨t, ht⟩ := closeFile_open h hd
        have hcast : ((fd.toNat : Nat) : Int) = fd := Int.toNat_of_nonneg hfd.1
        rw [hcast] at ht
        exact .of_ok ht
  · simp only [closeFile, hfd, dite_false]
    exact .error (by simp)

theorem allocNewProcess_putsFcb : PutsFcb (allocNewProcess L s) :=
  .bind kalloc_putsFcb fun _ _ => .bind (deref_avoids _) fun _ _ => .bind (.require nofun) fun _ _ =>
    .bind kalloc_putsFcb fun _ _ => .bind (.require nofun) fun _ _ => .pure

theorem fork_putsFcb : PutsFcb (fork L s) :=
  .bind allocNewProcess_putsFcb fun _ _ => .bind (copyUvm_putsFcb _ _ _) fun _ _ => .bind (.require nofun) fun _ _ =>
    .bind (.foldlM (fun _ _ _ => countSlot_avoids _ _) _) fun _ _ => .bind (appendTail_avoids _ _) fun _ _ => .pure

theorem FileInv.meets {ev : Event} (h : Good s) (hf : FileInv s) (hfit : CountsFit s ev) (hen : Enabled s ev) :
    Meets L .putFcb s ev where
  fork _ := fork_putsFcb
  wait tf pid u _ hu hc :=
    wait_avoids hu hc tf pid fun _ _ _ => ⟨kfree_putsFcb _, fun _ _ => freeVm_putsFcb _⟩
  closeFile fd u hev := by
    rcases hev with ⟨-, rfl⟩ | ⟨path, a, rfl, hopen, hs⟩
    · exact closeFile_putsFcb hf _ _
    · have hpart : Part L s (.svc (.exec path)) s (openFile s.current path s).2 := .openFile path hen.2 (.inr rfl)
      have ha := (hpart.fileEffect h).fileInv h.live hfit hf
      have hlive := (hpart.good h).live
      rw [hopen] at ha hlive
      have hu : FileEffect L s (.svc (.exec path)) a u := .same hs
      exact closeFile_putsFcb (hu.fileInv hlive hfit ha) _ _

theorem exceptionHandler_putsFcb {ev : Event} (h : Good s) (hf : FileInv s) (hfit : CountsFit s ev)
    (hen : Enabled s ev) (tf : Nat) : PutsFcb (exceptionHandler L tf ev s) :=
  exceptionHandler_avoids Site.putFcb_isLow h hen (hf.meets h hfit hen) tf

end ArmOs
