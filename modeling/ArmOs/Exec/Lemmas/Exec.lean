import ArmOs.Fat.Lemmas.Load
import ArmOs.Pages.Lemmas.User

/-!
# `exec` on the way to the new program

When the process can open the file, `exec` clears the frame of the user page and reads the file into it. What the
tables do not map cannot be written, so a read that returns has stayed in the page, and never gives -1.
-/

namespace ArmOs

open Lib

variable {L : Layout} {m m' : Mem} {s t : Kernel} {p : Proc} {name : Nat → UInt8} {slot : Fin numFile}
  {ttbr0 pgd frame va cs bpb size fuel index buffer readSize c d i k n data : Nat}

/-! ## What is loaded -/

/-- What `open_file` knows about the file of the directory entry `i`: what the entry says, or what the table entry
has kept of it if the file is open. -/
def openFcb (s : Kernel) (i : Nat) : FCB := (getFcb s.memory.mem i s.fs).fcbTable i

/-- The size of the file that is found under the name. -/
def loadSize (s : Kernel) (name : Nat → UInt8) : Nat := (openFcb s (searchFile s.memory.mem name)).fileSize

/-- Its first cluster. -/
def loadCluster (s : Kernel) (name : Nat → UInt8) : Nat := (openFcb s (searchFile s.memory.mem name)).clusterIndex

/-- The path from the cluster `c` on ends in a mark before `n` bytes. -/
def EndsBefore (m : Mem) (c n : Nat) : Prop := ∃ xs e, Path m c xs e ∧ 0xfff7 ≤ e ∧ xs.length * getClusterSize m < n

/-- All bytes of the file can be read into a page: the table leads through enough clusters. -/
def Readable (s : Kernel) (name : Nat → UInt8) : Prop :=
  loadSize s name ≤ pageSize ∧ ∃ xs e, Path s.memory.mem (loadCluster s name) xs e ∧
    loadSize s name ≤ xs.length * getClusterSize s.memory.mem

/-- Then no path covers the bytes. -/
theorem EndsBefore.length_lt {ys : List Cluster} {e : Nat} (h : EndsBefore m c n) (hp : Path m c ys e) :
    ys.length * getClusterSize m < n := by
  obtain ⟨xs, e', hp', he, hlen⟩ := h
  have hle : ys.length ≤ xs.length := by
    refine Chain.length_le hp' hp (fun y => ?_) Subtype.val_injective
    have := y.2.2
    omega
  exact Nat.lt_of_le_of_lt (Nat.mul_le_mul_right _ hle) hlen

theorem EndsBefore.not_readable (h : EndsBefore s.memory.mem (loadCluster s name) (loadSize s name)) :
    ¬Readable s name := by
  rintro ⟨-, ys, e, hp, hcovers⟩
  exact Nat.not_lt.mpr hcovers (h.length_lt hp)

/-- The copies of `read_file`. -/
def readFileCopies (process : Proc) (fd : Int) (buffer size : Nat) (s : Kernel) : List (Nat × Nat) :=
  match fileSlot (s.proc process) fd with
  | .ok (some d) =>
      match (s.fs.fileDescTable d).fcb with
      | some fcb =>
          if Refused (s.fs.fileDescTable d).position size (s.fs.fcbTable fcb).fileSize then []
          else
            rawCopies s.ttbr0 (s.fs.fcbTable fcb).clusterIndex buffer (s.fs.fileDescTable d).position size s.memory.mem
      | none => []
  | _ => []

/-- The copies of `exec`, if it gets so far. -/
def execCopies (process : Proc) (name : Nat → UInt8) (s : Kernel) : Except Stop (List (Nat × Nat)) := do
  let (fd, s) := openFile process name s
  if fd = -1 then
    return []
  else
    let dst ← resolve s.memory.mem s.ttbr0 userBase pageSize
    let s := s.setMem (s.memory.mem.fill dst pageSize 0)
    let size ← getFileSize process fd s
    return readFileCopies process fd userBase size s

theorem opened_fcb (s : Kernel) (p : Proc) (slot : Fin numFile) (d i : Nat) :
    (opened s p slot d i).fs.fcbTable i = openFcb s i := by
  simp [opened, openFcb, Fs.setFileDesc]

theorem openFcb_cached (h : (s.fs.fcbTable i).count = 0 ∨ Cached s.memory.mem i (s.fs.fcbTable i)) :
    Cached s.memory.mem i (openFcb s i) := by
  rw [← opened_fcb s idle ⟨0, by decide⟩ 0 i]
  exact opened_cached h

namespace Descriptor

variable {fd : Int} {f : Nat}

/-- A read of a whole file from its beginning is not refused. -/
theorem readFile_whole (h : Descriptor s p fd d f) (buffer : Nat) (hposition : (s.fs.fileDescTable d).position = 0) :
    readFile p fd buffer (s.fs.fcbTable f).fileSize s = (do
      let r ← readRawData s.ttbr0 (s.fs.fcbTable f).clusterIndex buffer 0 (s.fs.fcbTable f).fileSize s.memory.mem
      return (r.1, s.advance d r.1 r.2)) := by
  have hnot : ¬Refused (s.fs.fileDescTable d).position (s.fs.fcbTable f).fileSize (s.fs.fcbTable f).fileSize := by
    rw [Refused, hposition, Nat.zero_add, Nat.not_lt]
    exact Nat.mod_le _ _
  rw [h.readFile_eq hnot, hposition]

theorem readFileCopies_whole (h : Descriptor s p fd d f) (buffer : Nat) (hposition : (s.fs.fileDescTable d).position = 0) :
    readFileCopies p fd buffer (s.fs.fcbTable f).fileSize s =
      rawCopies s.ttbr0 (s.fs.fcbTable f).clusterIndex buffer 0 (s.fs.fcbTable f).fileSize s.memory.mem := by
  have hnot : ¬Refused (s.fs.fileDescTable d).position (s.fs.fcbTable f).fileSize (s.fs.fcbTable f).fileSize := by
    rw [Refused, hposition, Nat.zero_add, Nat.not_lt]
    exact Nat.mod_le _ _
  unfold readFileCopies
  rw [h.slot]
  dsimp only
  rw [h.fcb]
  dsimp only
  rw [if_neg hnot, hposition]

end Descriptor

/-! ## A file that can be opened -/

/-- The process can open the file, and the tables that are installed map its user page to `frame`, which is not where
its trap frame is. -/
structure ExecReady (L : Layout) (s : Kernel) (p : Proc) (name : Nat → UInt8) (slot : Fin numFile) (d pgd frame : Nat) :
    Prop where
  slot : freeSlot (s.proc p) = some slot
  desc : freeFileDesc s.fs = some d
  found : searchFile s.memory.mem name ≠ 0xffffffff
  ttbr0 : s.ttbr0 = v2p pgd
  maps : MapsUser L s.memory.mem pgd frame
  tf : (s.proc p).tf + TrapFrame.size ≤ frame ∨ frame + pageSize ≤ (s.proc p).tf

/-- The frame of the new program: zeros, its first instruction and its stack. -/
def startFrame (m : Mem) (tf : Nat) : Mem :=
  (((m.fill tf TrapFrame.size 0).write 8 (tf + TrapFrame.elr) userBase).write 8 (tf + TrapFrame.sp0)
    (userBase + pageSize)).write 8 (tf + TrapFrame.spsr) 0

/-- The state in which `exec` reads the file: it is open, and the frame is clear. -/
def loading (s : Kernel) (p : Proc) (name : Nat → UInt8) (slot : Fin numFile) (d frame : Nat) : Kernel :=
  (opened s p slot d (searchFile s.memory.mem name)).setMem (s.memory.mem.fill frame pageSize 0)

theorem loading_descriptor (s : Kernel) (p : Proc) (name : Nat → UInt8) (slot : Fin numFile) (d frame : Nat) :
    Descriptor (loading s p name slot d frame) p (slot.val : Int) d (searchFile s.memory.mem name) :=
  let hd := opened_descriptor s p slot d (searchFile s.memory.mem name)
  ⟨hd.slot, hd.fcb⟩

theorem loading_position (s : Kernel) (p : Proc) (name : Nat → UInt8) (slot : Fin numFile) (d frame : Nat) :
    ((loading s p name slot d frame).fs.fileDescTable d).position = 0 := opened_position s p slot d _

theorem loading_fcb (s : Kernel) (p : Proc) (name : Nat → UInt8) (slot : Fin numFile) (d frame : Nat) :
    (loading s p name slot d frame).fs.fcbTable (searchFile s.memory.mem name) =
      openFcb s (searchFile s.memory.mem name) := opened_fcb s p slot d _

theorem userPage_low : userBase < kernelBase ∧ InUserPage userBase pageSize := by decide

namespace ExecReady

variable (h : ExecReady L s p name slot d pgd frame)

include h

theorem resolve_eq : resolve s.memory.mem s.ttbr0 userBase pageSize = .ok frame := by
  rw [h.ttbr0, h.maps.resolve_eq userPage_low.1, if_pos userPage_low.2, Nat.sub_self, Nat.add_zero]

theorem exec_eq : exec p name s = (do
    let r ← readRawData s.ttbr0 (loadCluster s name) userBase 0 (loadSize s name) (s.memory.mem.fill frame pageSize 0)
    let u := (loading s p name slot d frame).advance d r.1 r.2
    if r.1 = 0xffffffff then do
      let t ← exit u
      return (none, t)
    else do
      let t ← closeFile p slot.val u
      return (some 0, t.setMem (startFrame t.memory.mem (t.proc p).tf))) := by
  have hne : ((slot.val : Int)) ≠ -1 := by omega
  have hread := (loading_descriptor s p name slot d frame).readFile_whole userBase (loading_position s p name slot d frame)
  rw [loading_fcb] at hread
  have hsize : getFileSize p slot.val (loading s p name slot d frame) = .ok (loadSize s name) := by
    rw [(loading_descriptor s p name slot d frame).getFileSize_eq, loading_fcb, loadSize]
  have hsize' : (openFcb s (searchFile s.memory.mem name)).fileSize = loadSize s name := rfl
  unfold exec
  rw [openFile_eq h.slot h.desc h.found]
  dsimp only
  rw [if_neg hne, opened_memory, opened_ttbr0, h.resolve_eq]
  simp only [ok_bind]
  rw [show (opened s p slot d (searchFile s.memory.mem name)).setMem (s.memory.mem.fill frame pageSize 0) =
    loading s p name slot d frame from rfl, hsize]
  simp only [ok_bind]
  rw [← hsize', hread, bind_assoc]
  rfl

theorem execCopies_eq : execCopies p name s =
    .ok (rawCopies s.ttbr0 (loadCluster s name) userBase 0 (loadSize s name) (s.memory.mem.fill frame pageSize 0)) := by
  have hne : ((slot.val : Int)) ≠ -1 := by omega
  have hcopies := (loading_descriptor s p name slot d frame).readFileCopies_whole userBase
    (loading_position s p name slot d frame)
  rw [loading_fcb] at hcopies
  have hsize : getFileSize p slot.val (loading s p name slot d frame) =
      .ok (openFcb s (searchFile s.memory.mem name)).fileSize := by
    rw [(loading_descriptor s p name slot d frame).getFileSize_eq, loading_fcb]
  unfold execCopies
  rw [openFile_eq h.slot h.desc h.found]
  dsimp only
  rw [if_neg hne, opened_memory, opened_ttbr0, h.resolve_eq]
  simp only [ok_bind]
  rw [show (opened s p slot d (searchFile s.memory.mem name)).setMem (s.memory.mem.fill frame pageSize 0) =
    loading s p name slot d frame from rfl, hsize]
  simp only [ok_bind, hcopies]
  rfl

end ExecReady

/-! ## A read that returns has stayed in the page -/

theorem MapsUser.copyOut_within (h : MapsUser L m pgd frame) (hva : va ≤ userBase + pageSize)
    (hrun : copyOut (v2p pgd) m va data n = .ok m') : va + n ≤ userBase + pageSize := by
  unfold copyOut at hrun
  split at hrun
  · omega
  · obtain ⟨dst, hdst, -⟩ := bind_eq_ok.mp hrun
    rw [h.resolve_eq (Nat.lt_of_le_of_lt hva userEnd_lt)] at hdst
    split at hdst
    · rename_i hin
      exact hin.2.2
    · cases hdst

/-- The induction is on the fuel: a copy that returns ends in the page, so the next one starts there. -/
theorem MapsUser.readLoop_within (h : MapsUser L m pgd frame) (hle : userBase ≤ buffer)
    (hva : buffer ≤ userBase + pageSize) (hbpb : fsBase ≤ bpb)
    (hrun : readLoop (v2p pgd) cs bpb size fuel index buffer readSize m = .ok (n, m')) :
    CopiesWithin buffer (userBase + pageSize - buffer)
      (loopCopies (v2p pgd) cs bpb size fuel index buffer readSize m) := by
  induction fuel generalizing index buffer readSize m with
  | zero => cases hrun
  | succ fuel ih =>
      rw [readLoop] at hrun
      rw [loopCopies]
      split at hrun
      · rename_i hgo
        obtain ⟨off, hoff, hrun⟩ := bind_eq_ok.mp hrun
        rw [if_pos hgo, hoff]
        dsimp only at hrun ⊢
        split at hrun
        · rename_i hend
          obtain ⟨m₁, hcopy, -⟩ := bind_eq_ok.mp hrun
          have hin := h.copyOut_within hva hcopy
          rw [if_pos hend]
          exact .cons (by omega) .nil
        · rename_i hend
          obtain ⟨m₁, hcopy, hrun⟩ := bind_eq_ok.mp hrun
          have hin := h.copyOut_within hva hcopy
          have hlow : buffer < kernelBase := Nat.lt_of_le_of_lt hva userEnd_lt
          have honly := (h.copyOut_onlyIn hlow (Nat.le_add_left_of_le hbpb) hcopy).1
          have hrest := ih (h.onlyIn honly) (by omega) hin hrun
          rw [if_neg hend, hcopy]
          dsimp only
          refine .cons (by omega) ?_
          rwa [Nat.sub_sub]
      · rename_i hstop
        rw [if_neg hstop]
        exact .nil

theorem MapsUser.readRawData_within (h : MapsUser L m pgd frame)
    (hrun : readRawData (v2p pgd) c userBase 0 size m = .ok (n, m')) :
    CopiesWithin userBase pageSize (rawCopies (v2p pgd) c userBase 0 size m) := by
  rw [readRawData_eq, Nat.zero_div, skipClusters, ok_bind, readFrom, Nat.zero_mod, if_neg (by simp)] at hrun
  simp only [rawCopies, Nat.zero_div, skipClusters, copiesFrom, Nat.zero_mod, ne_eq, not_true_eq_false, if_false]
  have hwithin := h.readLoop_within (Nat.le_refl _) (Nat.le_add_right _ _) (fsBase_le_bpb m) hrun
  rwa [Nat.add_sub_cancel_left] at hwithin

theorem HeapPage.below (h : HeapPage L frame) : frame + pageSize ≤ fsBase := h.end

theorem MapsUser.loadsTo (h : MapsUser L m pgd frame) : LoadsTo m (v2p pgd) userBase pageSize frame where
  lands := by
    have hl := h.lands (Nat.le_refl userBase) (Nat.le_refl (userBase + pageSize))
    rwa [Nat.sub_self, Nat.add_zero] at hl
  below := h.framePage.below
  small := by decide

namespace ExecReady

variable (h : ExecReady L s p name slot d pgd frame)

include h

theorem cleared : MapsUser L (s.memory.mem.fill frame pageSize 0) pgd frame :=
  h.maps.onlyIn (.fill (Nat.le_refl _) (Nat.le_refl _))

/-- What the read has done when it returns: it has copied a path of clusters that fits the page. -/
theorem loaded {r : Nat × Mem} (hrun : readRawData s.ttbr0 (loadCluster s name) userBase 0 (loadSize s name)
      (s.memory.mem.fill frame pageSize 0) = .ok r) :
    (∃ copies, execCopies p name s = .ok copies ∧ CopiesWithin userBase pageSize copies) ∧
    ∃ xs e, Path s.memory.mem (loadCluster s name) xs e ∧ r.1 ≤ pageSize ∧
      r.2 = (s.memory.mem.fill frame pageSize 0).put frame ((pathData s.memory.mem xs).take (loadSize s name)) ∧
      (r.1 = loadSize s name ∧ loadSize s name ≤ xs.length * getClusterSize s.memory.mem ∨
        r.1 = xs.length * getClusterSize s.memory.mem ∧ r.1 < loadSize s name ∧ 0xfff7 ≤ e) := by
  obtain ⟨k, m'⟩ := r
  have habove : SameAbove (s.memory.mem.fill frame pageSize 0) s.memory.mem := by
    intro x hx
    have hend := h.maps.framePage.below
    exact (Mem.fill_same (k := 1) (.inr (by omega)) x (Nat.le_refl x) (Nat.lt_succ_self x)).symm
  have hcopies := h.execCopies_eq
  rw [h.ttbr0] at hrun hcopies
  have hwithin := h.cleared.readRawData_within hrun
  obtain ⟨xs, e, hp, hk, hm, hresult⟩ := readRawData_inv h.cleared.loadsTo hwithin hrun
  refine ⟨⟨_, hcopies, hwithin⟩, xs, e, habove.path hp, hk, ?_, ?_⟩
  · rw [habove.pathData]
    exact hm
  · rwa [habove.clusterSize]

/-- `exec` does not kill a process that can open the file. -/
theorem not_killed : exec p name s ≠ .ok (none, t) := by
  intro hrun
  rw [h.exec_eq] at hrun
  obtain ⟨⟨k, m'⟩, hread, hrun⟩ := bind_eq_ok.mp hrun
  obtain ⟨-, xs, e, -, hk, -⟩ := h.loaded hread
  have hpage : pageSize < 0xffffffff := by decide
  dsimp only at hrun hk
  rw [if_neg (by omega)] at hrun
  obtain ⟨u, -, hrun⟩ := bind_eq_ok.mp hrun
  cases hrun

end ExecReady

/-! ## What `exec` leaves -/

theorem startFrame_same {tf a : Nat} (m : Mem) (h : tf + TrapFrame.size ≤ a ∨ a + n ≤ tf) :
    Mem.Same m (startFrame m tf) a n := by
  have hfields : TrapFrame.elr + 8 ≤ TrapFrame.size ∧ TrapFrame.sp0 + 8 ≤ TrapFrame.size ∧
      TrapFrame.spsr + 8 ≤ TrapFrame.size := by decide
  have hfill : Mem.Same m (m.fill tf TrapFrame.size 0) a n := Mem.fill_same (by omega)
  exact ((hfill.trans (Mem.write_same (by omega))).trans (Mem.write_same (by omega))).trans (Mem.write_same (by omega))

/-- When `exec` returns, the page holds the clusters of a path and zeros, up to the size of the file or up to a
mark. -/
theorem ExecReady.returns {r : Int} (h : ExecReady L s p name slot d pgd frame) (hrun : exec p name s = .ok (some r, t)) :
    ∃ xs e, Path s.memory.mem (loadCluster s name) xs e ∧
      (loadSize s name ≤ xs.length * getClusterSize s.memory.mem ∨
        xs.length * getClusterSize s.memory.mem < loadSize s name ∧ 0xfff7 ≤ e) ∧
      t.memory.mem.bytes frame pageSize = (pathData s.memory.mem xs).take (loadSize s name) ++
        List.replicate (pageSize - ((pathData s.memory.mem xs).take (loadSize s name)).length) 0 := by
  rw [h.exec_eq] at hrun
  obtain ⟨⟨k, m'⟩, hread, hrun⟩ := bind_eq_ok.mp hrun
  obtain ⟨-, xs, e, hp, hk, hm, hresult⟩ := h.loaded hread
  have hpage : pageSize < 0xffffffff := by decide
  dsimp only at hrun hk hm
  rw [if_neg (by omega)] at hrun
  obtain ⟨u, hclose, hrun⟩ := bind_eq_ok.mp hrun
  have ht := (Prod.mk.inj (Except.ok.inj hrun)).2
  have hmem : u.memory.mem = m' := congrArg Memory.mem (closeFile_memory hclose)
  have htf : (u.proc p).tf = (s.proc p).tf := by
    rw [(closeFile_same hclose).proc p (Set.notMem_empty p)]
    show ((opened s p slot d (searchFile s.memory.mem name)).proc p).tf = _
    simp [opened, Kernel.proc, Process.setFile]
  have hsame : Mem.Same m' (startFrame m' (s.proc p).tf) frame pageSize := startFrame_same m' h.tf
  have hends : loadSize s name ≤ xs.length * getClusterSize s.memory.mem ∨
      xs.length * getClusterSize s.memory.mem < loadSize s name ∧ 0xfff7 ≤ e := by
    dsimp only at hresult
    omega
  refine ⟨xs, e, hp, hends, ?_⟩
  rw [← ht]
  show (startFrame u.memory.mem (u.proc p).tf).bytes frame pageSize = _
  rw [hmem, htf, Mem.bytes_congr hsame, hm]
  refine Mem.bytes_fill_put _ _ _ ?_
  rw [List.length_take, length_pathData]
  omega

end ArmOs
