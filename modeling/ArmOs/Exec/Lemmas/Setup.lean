import ArmOs.Exec.Lemmas.Exec
import ArmOs.Pages.Lemmas.Boot

/-!
# `setup_uvm` on the way to the first program

`setup_uvm` reads the file to the address of the frame in the kernel's own map, where nothing stops a copy at the end
of the frame. A read that stays in the frame leaves the tables of the process as they are, so that a read that comes
out short is answered by taking them apart.
-/

namespace ArmOs

open Lib

variable {L : Layout} {m m' : Mem} {s t u : Kernel} {p : Proc} {name : Nat → UInt8} {slot : Fin numFile}
  {pgd pud pmd frame d k : Nat} {M : Memory} {xs ys : List Nat}

/-- The copies of `setup_uvm`, if it gets so far. -/
def setupUvmCopies (L : Layout) (process : Proc) (fileName : Nat → UInt8) (s : Kernel) :
    Except Stop (List (Nat × Nat)) := do
  let (page, M) ← kalloc L s.memory
  if page ≠ 0 then
    let M := { M with mem := M.mem.fill page pageSize 0 }
    let (status, M) ← mapPage L (s.proc process).pageMap userBase (v2p page) userAttribute M
    if status then
      let (fd, s) := openFile process fileName { s with memory := M }
      if fd = -1 then
        return []
      else
        let size ← getFileSize process fd s
        return readFileCopies process fd page size s
    else
      return []
  else
    return []

/-- The process has an empty page directory, the pages for its tables and its frame are free, and it can open the
file. -/
structure SetupReady (L : Layout) (s : Kernel) (p : Proc) (name : Nat → UInt8) (slot : Fin numFile) (d : Nat)
    (pgd pud pmd frame : Nat) (xs : List Nat) : Prop where
  slot : freeSlot (s.proc p) = some slot
  desc : freeFileDesc s.fs = some d
  found : searchFile s.memory.mem name ≠ 0xffffffff
  pageMap : (s.proc p).pageMap = pgd
  page : HeapPage L pgd
  empty : NoEntry s.memory.mem pgd
  free : FreeList s.memory (frame :: pud :: pmd :: xs)
  pages : ∀ v ∈ frame :: pud :: pmd :: xs, HeapPage L v
  nodup : (pgd :: frame :: pud :: pmd :: xs).Nodup

namespace SetupReady

variable (h : SetupReady L s p name slot d pgd pud pmd frame xs)

include h

theorem mapped : ∃ M, Mapped L s.memory M pgd pud pmd frame xs :=
  mapped_of_free h.empty h.free h.pages (List.nodup_cons.mp h.nodup).2 h.page (List.nodup_cons.mp h.nodup).1

theorem tablePages : ∀ w ∈ [pgd, pud, pmd, frame], HeapPage L w := by
  simp [h.page, h.pages pud, h.pages pmd, h.pages frame]

end SetupReady

/-- The state in which `setup_uvm` reads the file. -/
def mapping (s : Kernel) (M : Memory) (p : Proc) (name : Nat → UInt8) (slot : Fin numFile) (d : Nat) : Kernel :=
  opened { s with memory := M } p slot d (searchFile M.mem name)

theorem mapping_descriptor (s : Kernel) (M : Memory) (p : Proc) (name : Nat → UInt8) (slot : Fin numFile) (d : Nat) :
    Descriptor (mapping s M p name slot d) p (slot.val : Int) d (searchFile M.mem name) :=
  opened_descriptor _ p slot d _

/-- The image is behind the pages, so it says the same about the file. -/
theorem SameAbove.openFcb (h : SameAbove s.memory.mem M.mem) (i : Nat) :
    (ArmOs.openFcb { s with memory := M } i).fileSize = (ArmOs.openFcb s i).fileSize ∧
      (ArmOs.openFcb { s with memory := M } i).clusterIndex = (ArmOs.openFcb s i).clusterIndex := by
  by_cases hcount : (s.fs.fcbTable i).count = 0
  · simp [ArmOs.openFcb, getFcb, Fs.setFcb, hcount, h.fileSize, h.clusterIndex]
  · simp [ArmOs.openFcb, getFcb, Fs.setFcb, hcount]

/-- What `setup_uvm` has to go on with when the frame is mapped. -/
structure Loads (L : Layout) (s : Kernel) (M : Memory) (p : Proc) (name : Nat → UInt8) (slot : Fin numFile) (d : Nat)
    (pgd pud pmd frame : Nat) (xs : List Nat) : Prop where
  mapped : Mapped L s.memory M pgd pud pmd frame xs
  above : SameAbove s.memory.mem M.mem
  position : ((mapping s M p name slot d).fs.fileDescTable d).position = 0
  fileSize : ((mapping s M p name slot d).fs.fcbTable (searchFile M.mem name)).fileSize = loadSize s name
  clusterIndex : ((mapping s M p name slot d).fs.fcbTable (searchFile M.mem name)).clusterIndex = loadCluster s name

namespace SetupReady

variable (h : SetupReady L s p name slot d pgd pud pmd frame xs)

include h

theorem loads : ∃ M, Loads L s M p name slot d pgd pud pmd frame xs := by
  obtain ⟨M, hM⟩ := h.mapped
  have hpages : ∀ w ∈ [frame, pgd, pud, pmd], HeapPage L w := by
    simp [h.page, h.pages pud, h.pages pmd, h.pages frame]
  have habove : SameAbove s.memory.mem M.mem := hM.only.above hpages
  have hfcb := opened_fcb { s with memory := M } p slot d (searchFile M.mem name)
  refine ⟨M, hM, habove, opened_position _ p slot d _, ?_, ?_⟩
  · rw [mapping, hfcb, (habove.openFcb _).1, habove.searchFile, loadSize]
  · rw [mapping, hfcb, (habove.openFcb _).2, habove.searchFile, loadCluster]

variable (hM : Loads L s M p name slot d pgd pud pmd frame xs)

include hM

theorem setupUvm_eq : setupUvm L p name s = (do
    let r ← readRawData s.ttbr0 (loadCluster s name) frame 0 (loadSize s name) M.mem
    let u := (mapping s M p name slot d).advance d r.1 r.2
    if r.1 ≠ loadSize s name then do
      let N ← freeVm L pgd u.memory
      return (false, { u with memory := N })
    else do
      let t ← closeFile p slot.val u
      return (true, t)) := by
  have hne : ((slot.val : Int)) ≠ -1 := by omega
  have hframe := h.pages frame List.mem_cons_self
  have hread := (mapping_descriptor s M p name slot d).readFile_whole frame hM.position
  have hsize := (mapping_descriptor s M p name slot d).getFileSize_eq
  rw [hM.fileSize] at hread hsize
  rw [hM.clusterIndex] at hread
  have hfound : searchFile M.mem name ≠ 0xffffffff := by
    rw [hM.above.searchFile]
    exact h.found
  have hopen : openFile p name { s with memory := M } = ((slot.val : Int), mapping s M p name slot d) :=
    openFile_eq h.slot h.desc hfound
  have hmap := hM.mapped.map
  unfold clearedPage at hmap
  unfold setupUvm
  rw [h.pageMap, hM.mapped.alloc]
  simp only [ok_bind, ne_eq, hframe.ne_zero, not_false_eq_true, if_true, hmap, hopen, if_neg hne, hsize, hread,
    bind_assoc]
  rfl

theorem setupUvmCopies_eq : setupUvmCopies L p name s =
    .ok (rawCopies s.ttbr0 (loadCluster s name) frame 0 (loadSize s name) M.mem) := by
  have hne : ((slot.val : Int)) ≠ -1 := by omega
  have hframe := h.pages frame List.mem_cons_self
  have hcopies := (mapping_descriptor s M p name slot d).readFileCopies_whole frame hM.position
  have hsize := (mapping_descriptor s M p name slot d).getFileSize_eq
  rw [hM.fileSize] at hcopies hsize
  rw [hM.clusterIndex] at hcopies
  have hfound : searchFile M.mem name ≠ 0xffffffff := by
    rw [hM.above.searchFile]
    exact h.found
  have hopen : openFile p name { s with memory := M } = ((slot.val : Int), mapping s M p name slot d) :=
    openFile_eq h.slot h.desc hfound
  have hmap := hM.mapped.map
  unfold clearedPage at hmap
  unfold setupUvmCopies
  rw [h.pageMap, hM.mapped.alloc]
  simp only [ok_bind, ne_eq, hframe.ne_zero, not_false_eq_true, if_true, hmap, hopen, if_neg hne, hsize, hcopies]
  rfl

omit hM in
theorem loadsTo : LoadsTo M.mem s.ttbr0 frame pageSize frame where
  lands := .upper M.mem s.ttbr0 pageSize (h.pages frame List.mem_cons_self).bounds.1
  below := (h.pages frame List.mem_cons_self).below
  small := by decide

/-- A file that ends in the page, before the bytes that the directory says it has, comes out short, and `setup_uvm`
takes the tables apart. -/
theorem setupUvm_short {n : Nat} (hends : EndsBefore s.memory.mem (loadCluster s name) n) (hsize : n ≤ loadSize s name)
    (hpage : n ≤ pageSize + 1) :
    (∃ copies, setupUvmCopies L p name s = .ok copies ∧ CopiesWithin frame pageSize copies) ∧
      ∃ t, setupUvm L p name s = .ok (false, t) := by
  obtain ⟨cs, e, hp, he, hlen⟩ := hends
  have hp' := hM.above.path hp
  rw [← hM.above.clusterSize] at hlen
  have hn : cs.length * getClusterSize M.mem ≤ pageSize := Nat.le_of_lt_succ (Nat.lt_of_lt_of_le hlen hpage)
  have hlt : pageSize < 2 ^ 32 := by decide
  have hread := readRawData_short (loadSize s name) hp' he
    (.below (h.loadsTo (M := M)).below cs) h.loadsTo.lands (by omega) (by omega)
  rw [Nat.min_eq_right (by omega)] at hread
  refine ⟨?_, ?_⟩
  · exact ⟨_, h.setupUvmCopies_eq hM, rawCopies_path h.loadsTo hp' he hn⟩
  · have hframe : ∀ w ∈ [frame], HeapPage L w := by simpa using h.pages frame List.mem_cons_self
    generalize hN : M.mem.put frame ((pathData M.mem cs).take (loadSize s name)) = N at hread
    have honly : OnlyIn [frame] M.mem N := by
      rw [← hN]
      refine SameOutside.onlyIn (n := pageSize) (SameOutside.put (o := 0) ?_) (Nat.le_refl _)
      rw [List.length_take, length_pathData]
      omega
    obtain ⟨hpx, hnodup⟩ := List.nodup_cons.mp h.nodup
    obtain ⟨hfx, hnodup'⟩ := List.nodup_cons.mp hnodup
    have hkeep : ∀ w ∈ [pgd, pud, pmd], Mem.Same M.mem N w pageSize := by
      intro w hw
      have hsub : [pgd, pud, pmd] ⊆ [pgd, pud, pmd, frame] := by simp
      refine honly.same hframe (h.tablePages w (hsub hw)) ?_
      simp only [List.mem_cons, List.not_mem_nil, or_false, not_or] at hw hpx hfx ⊢
      rcases hw with rfl | rfl | rfl
      · exact hpx.1
      · exact Ne.symm hfx.1
      · exact Ne.symm hfx.2.1
    have hspace := hM.mapped.space.congr (hkeep pgd (by simp)) (hkeep pud (by simp)) (hkeep pmd (by simp))
    have hxs : ∀ w ∈ xs, HeapPage L w := fun w hw => h.pages w (by simp [hw])
    have hfree : FreeList ⟨N, M.freeMemory⟩ xs :=
      hM.mapped.free.onlyIn rfl honly hframe hxs (by simp_all)
    obtain ⟨M', hvm, -, -⟩ := freeVm_spec (M := ⟨N, M.freeMemory⟩) hspace hfree hxs h.tablePages (by
      simp only [List.nodup_cons, List.mem_cons, not_or] at hpx hfx hnodup' ⊢
      tauto)
    have hshort : cs.length * getClusterSize M.mem ≠ loadSize s name := by omega
    have hvm' : freeVm L pgd ((mapping s M p name slot d).advance d (cs.length * getClusterSize M.mem) N).memory =
      .ok M' := hvm
    rw [h.setupUvm_eq hM, hread, ok_bind]
    dsimp only
    rw [if_pos hshort, hvm']
    exact ⟨_, rfl⟩

/-- What `setup_uvm` has read when it fails and its copies have stayed in the frame. -/
theorem setupUvm_ends (hlarge : pageSize < loadSize s name)
    (hwithin : ∀ copies, setupUvmCopies L p name s = .ok copies → CopiesWithin frame pageSize copies)
    (hrun : setupUvm L p name s = .ok (false, t)) : EndsBefore s.memory.mem (loadCluster s name) (pageSize + 1) := by
  have hwithin := hwithin _ (h.setupUvmCopies_eq hM)
  rw [h.setupUvm_eq hM] at hrun
  obtain ⟨⟨k, N⟩, hread, -⟩ := bind_eq_ok.mp hrun
  obtain ⟨cs, e, hp, hk, -, hresult⟩ := readRawData_inv h.loadsTo hwithin hread
  have habove : SameAbove M.mem s.memory.mem := fun x hx => (hM.above x hx).symm
  refine ⟨cs, e, habove.path hp, ?_⟩
  rw [habove.clusterSize]
  omega

end SetupReady

/-- Before the first program is loaded no file is open. -/
theorem FirstProcess.load_eq {v : Kernel} {i : Proc} {stack : Nat} {N : Memory} {zs : List Nat}
    (h : FirstProcess L m t u v s i stack pgd N zs) (name : Nat → UInt8) :
    SameAbove m u.memory.mem ∧ loadSize u name = DirEntry.fileSize m (searchFile m name) ∧
      loadCluster u name = DirEntry.clusterIndex m (searchFile m name) := by
  have hmem : u.memory = N := by
    rw [h.state]
    rfl
  have habove : SameAbove m u.memory.mem := hmem ▸ h.image
  have hcached := openFcb_cached (s := u) (.inl (h.fresh (searchFile u.memory.mem name)))
  refine ⟨habove, ?_, ?_⟩
  · rw [loadSize, hcached.fileSize, habove.searchFile, habove.fileSize]
  · rw [loadCluster, hcached.clusterIndex, habove.searchFile, habove.clusterIndex]

/-- Another file. -/
theorem SetupReady.other (h : SetupReady L s p name slot d pgd pud pmd frame xs) {name' : Nat → UInt8}
    (hfound : searchFile s.memory.mem name' ≠ 0xffffffff) : SetupReady L s p name' slot d pgd pud pmd frame xs :=
  ⟨h.slot, h.desc, hfound, h.pageMap, h.page, h.empty, h.free, h.pages, h.nodup⟩

/-- `init_process` calls `setup_uvm` in such a state, if the machine starts. -/
theorem FirstProcess.setupReady {v : Kernel} {i : Proc} {stack : Nat} {N : Memory} {zs : List Nat}
    (h : FirstProcess L m t u v s i stack pgd N zs) :
    ∃ slot d frame pud pmd ys, SetupReady L u i initBin slot d pgd pud pmd frame ys := by
  obtain ⟨page, M₁, M₂, fd, s₁, size, s₂, halloc, hne, hmap, hopen, hfd, -⟩ := setupUvm_true h.setup
  obtain ⟨hpx, hnodup⟩ := List.nodup_cons.mp h.nodup
  have hmem : u.memory = N := by
    rw [h.state]
    rfl
  have hpgd : (u.proc i).pageMap = pgd := congrArg Process.pageMap h.proc_self
  rw [hpgd] at hmap
  rw [hmem] at halloc
  obtain ⟨pud, pmd, ys, rfl⟩ := mapped_pages halloc hne hmap h.empty h.free h.freePages hnodup h.pgdPage hpx
  obtain ⟨M, hM⟩ := mapped_of_free h.empty h.free h.freePages hnodup h.pgdPage hpx
  obtain ⟨-, hM₁⟩ := Prod.mk.inj (Except.ok.inj (halloc.symm.trans hM.alloc))
  have hclear : ({ M₁ with mem := M₁.mem.fill page pageSize 0 } : Memory) = clearedPage N page := by
    rw [hM₁, clearedPage]
  rw [hclear] at hmap
  obtain ⟨-, rfl⟩ := Prod.mk.inj (Except.ok.inj (hM.map.symm.trans hmap))
  obtain ⟨slot, d, hslot, hdesc, hfound, -⟩ := openFile_ok hopen hfd
  have hpages : ∀ w ∈ [page, pgd, pud, pmd], HeapPage L w := by
    simp [h.pgdPage, h.freePages page, h.freePages pud, h.freePages pmd]
  refine ⟨slot, d, page, pud, pmd, ys, hslot, hdesc, ?_, hpgd, h.pgdPage, hmem ▸ h.empty, hmem ▸ h.free, h.freePages,
    h.nodup⟩
  rw [hmem, ← (hM.only.above hpages).searchFile]
  exact hfound

end ArmOs
