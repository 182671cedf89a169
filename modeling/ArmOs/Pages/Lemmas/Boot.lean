import ArmOs.Fat.Lemmas.Load
import ArmOs.Pages.Lemmas.Moves

/-!
# The pages when the kernel starts

`init_memory` puts every heap page on the free list, `init_fs` takes two of them and `init_process` five. The image
of the file system lies behind the heap, so it is still there when the first program is loaded.
-/

namespace ArmOs

open Lib

variable {L : Layout} {m : Mem} {M M' : Memory} {s t : Kernel} {xs ys vs : List Nat} {start fuel : Nat}

/-! ## `init_memory` -/

/-- Writing heap pages leaves the image alone. -/
theorem OnlyIn.above {m' : Mem} (h : OnlyIn vs m m') (hvs : ∀ v ∈ vs, HeapPage L v) : SameAbove m m' := by
  intro x hx
  refine h x fun v hv hin => ?_
  have hend := (hvs v hv).end
  have hfs : heapMemoryEnd = fsBase := rfl
  omega

/-- The loop frees the pages from `start` on. -/
theorem freeRegionLoop_spec (hfree : FreeList M xs) (hnodup : xs.Nodup) (hmem : ∀ v, v ∈ xs ↔ HeapPage L v ∧ v < start)
    (haligned : start % pageSize = 0) (hstart : paUp L.imageEnd ≤ start)
    (hrun : freeRegionLoop L heapMemoryEnd fuel start M = .ok M') :
    ∃ ys, FreeList M' ys ∧ ys.Nodup ∧ (∀ v, v ∈ ys ↔ HeapPage L v) ∧ OnlyIn ys M.mem M'.mem := by
  induction fuel generalizing start xs M with
  | zero => cases hrun
  | succ fuel ih =>
      rw [freeRegionLoop] at hrun
      split at hrun
      · rename_i hend
        have hpage : HeapPage L start := ⟨haligned, hstart, hend⟩
        have hnot : start ∉ xs := fun hx => Nat.lt_irrefl start ((hmem start).mp hx).2
        have hxs : ∀ v ∈ xs, HeapPage L v := fun v hv => ((hmem v).mp hv).1
        obtain ⟨hkfree, hfree', honly⟩ := kfree_spec hfree hxs hpage hnot
        dsimp only at hrun
        rw [hkfree, ok_bind] at hrun
        have hmem' : ∀ v, v ∈ start :: xs ↔ HeapPage L v ∧ v < start + pageSize := by
          intro v
          rw [List.mem_cons, hmem]
          constructor
          · rintro (rfl | ⟨hv, hlt⟩)
            · exact ⟨hpage, by rw [pageSize_eq]; omega⟩
            · exact ⟨hv, by omega⟩
          · rintro ⟨hv, hlt⟩
            have hv' := hv.aligned
            rw [pageSize_eq] at hlt haligned hv'
            cases Nat.lt_or_ge v start with
            | inl hlt' => exact .inr ⟨hv, hlt'⟩
            | inr hge => exact .inl (by omega)
        obtain ⟨ys, hys, hnodup', hall, honly'⟩ := ih hfree' (List.nodup_cons.mpr ⟨hnot, hnodup⟩) hmem'
          (by rw [Nat.add_mod_right]; exact haligned) (hstart.trans (Nat.le_add_right _ _)) hrun
        refine ⟨ys, hys, hnodup', hall, (honly.trans honly').weaken ?_⟩
        intro v hv
        cases List.mem_append.mp hv with
        | inl hv =>
            rw [List.mem_singleton.mp hv]
            exact (hall start).mpr hpage
        | inr hv => exact hv
      · rename_i hend
        cases hrun
        refine ⟨xs, hfree, hnodup, fun v => (hmem v).trans ⟨And.left, fun hv => ⟨hv, ?_⟩⟩, .refl _ _⟩
        have := hv.end
        omega

theorem initMemory_spec (hfree : FreeList M []) (hrun : initMemory L M = .ok M') :
    ∃ ys, FreeList M' ys ∧ ys.Nodup ∧ (∀ v, v ∈ ys ↔ HeapPage L v) ∧ OnlyIn ys M.mem M'.mem := by
  refine freeRegionLoop_spec hfree List.nodup_nil (fun v => ?_) (paUp_aligned _) (Nat.le_refl _) hrun
  constructor
  · nofun
  · rintro ⟨hv, hlt⟩
    have := hv.start
    omega

/-! ## `init_fs` -/

theorem initTable_spec {page : Nat} (hfree : FreeList M xs) (hxs : ∀ v ∈ xs, HeapPage L v) (hnodup : xs.Nodup)
    (hrun : initTable L M = .ok (page, M')) :
    ∃ ys, xs = page :: ys ∧ FreeList M' ys ∧ OnlyIn [page] M.mem M'.mem := by
  obtain ⟨⟨v, M₁⟩, halloc, hrun⟩ := bind_eq_ok.mp hrun
  obtain ⟨_, hne, hrun⟩ := bind_eq_ok.mp hrun
  cases hrun
  obtain ⟨ys, rfl⟩ := kalloc_ne_zero hfree hxs halloc (require_eq_ok.mp hne)
  obtain ⟨-, hM₁⟩ := Prod.mk.inj (Except.ok.inj (halloc.symm.trans (kalloc_cons hfree (hxs page (by simp))).1))
  obtain ⟨hfree', honly⟩ := clearedPage_free hfree hxs hnodup
  rw [hM₁]
  exact ⟨ys, rfl, hfree', honly⟩

/-- The pages before the first process is created. -/
theorem initFs_pages (hfree : FreeList M xs) (hall : ∀ v, v ∈ xs ↔ HeapPage L v) (hnodup : xs.Nodup)
    (hrun : initFs L { Kernel.reset L m with memory := M } = .ok s) :
    ∃ ys vs, PageInv L (idleStarted L s) ys ∧ (∀ v ∈ vs, HeapPage L v) ∧ OnlyIn vs M.mem s.memory.mem := by
  have hno := noProcess_of_initFs hrun
  obtain ⟨fcbPage, M₁, descPage, M₂, h₁, h₂, rfl⟩ := initFs_ok hrun
  have hxs : ∀ v ∈ xs, HeapPage L v := fun v => (hall v).mp
  obtain ⟨xs₁, rfl, hfree₁, honly₁⟩ := initTable_spec hfree hxs hnodup h₁
  have hnodup₁ := (List.nodup_cons.mp hnodup).2
  obtain ⟨ys, rfl, hfree₂, honly₂⟩ := initTable_spec hfree₁ (fun v hv => hxs v (List.mem_cons_of_mem _ hv)) hnodup₁ h₂
  have hnone : ∀ p, ¬(idleStarted L { Kernel.reset L m with
      memory := M₂
      fs := ⟨fun _ => FCB.zero, fun _ => FileDesc.zero, fcbPage, descPage⟩ }).IsUser p := by
    rintro p ⟨hp, hlive⟩
    refine hlive ?_
    rw [hno.other_eq hp]
    rfl
  refine ⟨ys, [fcbPage] ++ [descPage], ⟨hfree₂, ?_, fun p hp => absurd hp (hnone p)⟩, by simp [hxs fcbPage, hxs descPage],
    honly₁.trans honly₂⟩
  have hstart : Owned (fcbPage :: descPage :: ys) (fun _ : PageOwner => none) {v | HeapPage L v} :=
    .ofFree hnodup (fun v => (hall v).symm) fun _ => rfl
  have htake := (hstart.take (k := .fcbTable) rfl).take (k := .fileDescTable) (by simp)
  refine htake.congr fun o => ?_
  cases o with
  | fcbTable => simp [Kernel.holds, idleStarted, Kernel.setProc]
  | fileDescTable => simp [Kernel.holds, idleStarted, Kernel.setProc]
  | process p k =>
      rw [Kernel.holds_none (hnone p)]
      simp

/-! ## `init_process` -/

theorem SameOutside.onlyIn {m' : Mem} {v n : Nat} (h : SameOutside m m' v n) (hn : n ≤ pageSize) : OnlyIn [v] m m' := by
  intro x hx
  have hout := hx v (List.mem_singleton_self v)
  exact h x (by omega)

/-- `setup_uvm` maps a frame in the tables of the process, and loads the program there. -/
theorem setupUvm_pages {i : Proc} {pgd : Nat} {name : Nat → UInt8} (hrun : setupUvm L i name s = .ok (true, t))
    (hpgd : (s.proc i).pageMap = pgd) (hempty : NoEntry s.memory.mem pgd) (hfree : FreeList s.memory xs)
    (hxs : ∀ v ∈ xs, HeapPage L v) (hnodup : xs.Nodup) (hpage : HeapPage L pgd) (hnot : pgd ∉ xs)
    (hfresh : ∀ i, (s.fs.fcbTable i).count = 0)
    (hfits : DirEntry.fileSize s.memory.mem (searchFile s.memory.mem name) ≤ pageSize) :
    ∃ frame pud pmd ys, xs = frame :: pud :: pmd :: ys ∧ FreeList t.memory ys ∧
      AddrSpace t.memory.mem pgd pud pmd frame ∧ OnlyIn [frame, pgd, pud, pmd] s.memory.mem t.memory.mem ∧
      t.fs.fcbPage = s.fs.fcbPage ∧ t.fs.fileDescPage = s.fs.fileDescPage := by
  obtain ⟨frame, M₁, M₂, fd, s₁, size, s₂, halloc, hne, hmap, hopen, hfd, hsize, hread, hclose⟩ := setupUvm_true hrun
  subst hpgd
  obtain ⟨pud, pmd, ys, rfl⟩ := mapped_pages halloc hne hmap hempty hfree hxs hnodup hpage hnot
  obtain ⟨N, hN⟩ := mapped_of_free hempty hfree hxs hnodup hpage hnot
  obtain ⟨-, hM₁⟩ := Prod.mk.inj (Except.ok.inj (halloc.symm.trans hN.alloc))
  have hclear : ({ M₁ with mem := M₁.mem.fill frame pageSize 0 } : Memory) = clearedPage s.memory frame := by
    rw [hM₁, clearedPage]
  rw [hclear] at hmap
  obtain ⟨-, rfl⟩ := Prod.mk.inj (Except.ok.inj (hN.map.symm.trans hmap))
  obtain ⟨slot, d, -, -, hfound, rfl, rfl⟩ := openFile_ok hopen hfd
  have hframe := hxs frame (by simp)
  -- the size is the one in the directory
  have hpages : ∀ w ∈ [frame, (s.proc i).pageMap, pud, pmd], HeapPage L w := by
    simp [hframe, hpage, hxs pud, hxs pmd]
  have habove := hN.only.above hpages
  have hd := opened_descriptor { s with memory := N } i slot d (searchFile N.mem name)
  have hcached : Cached N.mem (searchFile N.mem name)
      ((opened { s with memory := N } i slot d (searchFile N.mem name)).fs.fcbTable (searchFile N.mem name)) :=
    opened_cached (s := { s with memory := N }) (.inl (hfresh _))
  have hsize' : size ≤ pageSize := by
    have hfile := Except.ok.inj (hsize.symm.trans hd.getFileSize_eq)
    rw [hfile, hcached.fileSize]
    rwa [habove.searchFile, habove.fileSize]
  obtain ⟨hout, hfree₂⟩ := hd.readFile_within (opened_position _ _ _ _ _) hframe.bounds.1 hsize'
    ((Nat.add_le_add_left hsize' frame).trans hframe.end) hread
  have honly := hout.onlyIn hsize'
  have hframe' : ∀ w ∈ [frame], HeapPage L w := by simpa using hframe
  have hmem : t.memory = s₂.memory := closeFile_memory hclose
  obtain ⟨hfcb, hdesc⟩ := openFile_pages i name { s with memory := N }
  rw [hopen] at hfcb hdesc
  obtain ⟨hfcb₂, hdesc₂⟩ := readFile_pages hread
  obtain ⟨hfcb₃, hdesc₃⟩ := closeFile_pages hclose
  obtain ⟨hfx, hnodup'⟩ := List.nodup_cons.mp hnodup
  obtain ⟨hfpud, hfpmd, hfys⟩ : frame ≠ pud ∧ frame ≠ pmd ∧ frame ∉ ys := by simpa using hfx
  have hpf : (s.proc i).pageMap ≠ frame := fun he => hnot (by simp [he])
  have hkeep : ∀ w, HeapPage L w → w ≠ frame → Mem.Same N.mem t.memory.mem w pageSize := by
    intro w hw hwf
    rw [hmem]
    exact honly.same hframe' hw (by simpa using hwf)
  refine ⟨frame, pud, pmd, ys, rfl, ?_, ?_, ?_, hfcb₃.trans (hfcb₂.trans hfcb), hdesc₃.trans (hdesc₂.trans hdesc)⟩
  · rw [hmem]
    exact hN.free.onlyIn hfree₂ honly hframe' (fun w hw => hxs w (by simp [hw])) (by simpa using hfys)
  · exact hN.space.congr (hkeep _ hpage hpf) (hkeep pud (hxs pud (by simp)) hfpud.symm)
      (hkeep pmd (hxs pmd (by simp)) hfpmd.symm)
  · rw [hmem]
    exact (hN.only.trans honly).weaken (by simp)

/-- The file that `init_process` loads fits its page. -/
def InitFits (m : Mem) : Prop := DirEntry.fileSize m (searchFile m initBin) ≤ pageSize

instance (m : Mem) : Decidable (InitFits m) :=
  inferInstanceAs (Decidable (DirEntry.fileSize m (ArmOs.searchFile m initBin) ≤ pageSize))

theorem smallMem_fits : InitFits smallMem := by decide

/-- The state `u` in which `init_process` calls `setup_uvm` for the process `i`, on the way from `m` to `t`, and the
state `v` after that call. -/
structure FirstProcess (L : Layout) (m : Mem) (t u v : Kernel) (s : Kernel) (i : Proc) (stack pgd : Nat) (N : Memory)
    (zs : List Nat) : Prop where
  noProcess : NoProcess L s
  inv : PageInv L (idleStarted L s) (stack :: pgd :: zs)
  found : findUnusedProcess (idleStarted L s) = some i
  state : u = allocated (idleStarted L s) i stack pgd N
  free : FreeList N zs
  empty : NoEntry N.mem pgd
  only : OnlyIn [stack, pgd] (idleStarted L s).memory.mem N.mem
  kernelStack : Mem.Same (newStack L stack (idleStarted L s).memory.mem) N.mem stack pageSize
  image : SameAbove m N.mem
  fresh : ∀ k, (u.fs.fcbTable k).count = 0
  unopened : ∀ d, (u.fs.fileDescTable d).fcb = none
  setup : setupUvm L i initBin u = .ok (true, v)
  append : (v.setProc i { v.proc i with state := .ready }).appendTail .ready i = .ok t

theorem boot_firstProcess (hboot : boot L m = .ok t) :
    ∃ u v s i stack pgd N zs, FirstProcess L m t u v s i stack pgd N zs := by
  obtain ⟨M, s₁, i, s₂, s₃, hmemory, hfs, halloc, hsetup, happend⟩ := boot_ok hboot
  have hno := noProcess_of_initFs hfs
  obtain ⟨xs, hfree, hnodup, hall, honly₀⟩ := initMemory_spec (M := ⟨m, 0⟩) rfl hmemory
  obtain ⟨ys, vs, hinv, hvs, honly₁⟩ := initFs_pages hfree hall hnodup hfs
  obtain ⟨stack, pgd, zs, rfl⟩ := allocNewProcess_pages halloc hinv.free hinv.freePages hinv.owned.nodup
  have hfound := (allocNewProcess_ok halloc).1
  obtain ⟨N, hrun, hfreeN, hemptyN, honlyN, hstackN⟩ := allocNewProcess_run hfound hinv.free hinv.freePages hinv.owned.nodup
  obtain rfl : allocated (idleStarted L s₁) i stack pgd N = s₂ :=
    (Prod.mk.inj (Except.ok.inj (hrun.symm.trans halloc))).2
  have hnew : ∀ v ∈ [stack, pgd], HeapPage L v := by simp [hinv.freePages stack, hinv.freePages pgd]
  have honly : OnlyIn (vs ++ [stack, pgd]) M.mem N.mem := honly₁.trans honlyN
  have hpages : ∀ v ∈ xs ++ (vs ++ [stack, pgd]), HeapPage L v := by
    simp only [List.forall_mem_append]
    exact ⟨fun v => (hall v).mp, hvs, hnew⟩
  refine ⟨_, s₃, s₁, i, stack, pgd, N, zs, hno, hinv, hfound, rfl, hfreeN, hemptyN, honlyN, hstackN,
    (honly₀.trans honly).above hpages, ?_, ?_, hsetup, happend⟩
  all_goals
    obtain ⟨_, _, _, _, -, -, rfl⟩ := initFs_ok hfs
    exact fun _ => rfl

namespace FirstProcess

variable {u v : Kernel} {i : Proc} {stack pgd : Nat} {N : Memory} {zs : List Nat}
  (h : FirstProcess L m t u v s i stack pgd N zs)

include h

theorem proc_self : u.proc i = newProcess (idleStarted L s) i stack pgd := by
  rw [h.state]
  exact Kernel.setProc_self _ i _

theorem freePages : ∀ v ∈ zs, HeapPage L v := fun v hv => h.inv.freePages v (by simp [hv])

theorem nodup : (pgd :: zs).Nodup := (List.nodup_cons.mp h.inv.owned.nodup).2

theorem pgdPage : HeapPage L pgd := h.inv.freePages pgd (by simp)

end FirstProcess

/-- When the kernel has started, `i` is the only user process, and it has not run. -/
structure Started (L : Layout) (t : Kernel) (xs : List Nat) (i : Proc) : Prop where
  inv : PageInv L t xs
  isUser : ∀ p, t.IsUser p ↔ p = i
  kont : t.kont i = .ret
  context : (t.proc i).context = (t.proc i).stack + pageSize - TrapFrame.size - 12 * 8
  kernelStack : ∃ m₀, Mem.Same (newStack L (t.proc i).stack m₀) t.memory.mem (t.proc i).stack pageSize

theorem boot_started (hboot : boot L m = .ok t) (hfits : InitFits m) : ∃ xs i, Started L t xs i := by
  obtain ⟨u, v, s₁, i, stack, pgd, N, zs, h⟩ := boot_firstProcess hboot
  obtain ⟨hpx, hnodup⟩ := List.nodup_cons.mp h.nodup
  have hmem₀ : u.memory = N := by
    rw [h.state]
    rfl
  -- the file that is loaded
  have hfits' : DirEntry.fileSize u.memory.mem (searchFile u.memory.mem initBin) ≤ pageSize := by
    rwa [hmem₀, h.image.searchFile, h.image.fileSize]
  obtain ⟨frame, pud, pmd, ws, rfl, hfree₃, hspace, honly₃, hfcb, hdesc⟩ := setupUvm_pages h.setup
    (congrArg Process.pageMap h.proc_self) (hmem₀ ▸ h.empty) (hmem₀ ▸ h.free) h.freePages hnodup h.pgdPage hpx h.fresh
    hfits'
  rw [hmem₀] at honly₃
  have hlinks := SameButLinks.ofAppendTail h.append
  have hsame := setupUvm_same h.setup
  have hproc : ∀ p, p ≠ i → (t.proc p).state = ((idleStarted L s₁).proc p).state ∧
      (t.proc p).stack = ((idleStarted L s₁).proc p).stack ∧
      (t.proc p).pageMap = ((idleStarted L s₁).proc p).pageMap := by
    intro p hp
    have hset : (v.setProc i { v.proc i with state := .ready }).proc p = v.proc p := v.setProc_ne i p _ hp
    have halloc : u.proc p = (idleStarted L s₁).proc p := by
      rw [h.state]
      exact Kernel.setProc_ne _ i p _ hp
    rw [hlinks.proc p, hset, hsame.proc p (Set.notMem_empty p), halloc]
    exact ⟨rfl, rfl, rfl⟩
  have hself' : (t.proc i).state = .ready ∧ (t.proc i).stack = stack ∧ (t.proc i).pageMap = pgd ∧
      (t.proc i).context = stack + pageSize - TrapFrame.size - 12 * 8 := by
    have hset : (v.setProc i { v.proc i with state := .ready }).proc i = { v.proc i with state := .ready } :=
      v.setProc_self i _
    rw [hlinks.proc i, hset, hsame.proc i (Set.notMem_empty i), h.proc_self]
    exact ⟨rfl, rfl, rfl, rfl⟩
  have hunused := findUnusedProcess_eq_some h.found
  have hidle : i ≠ idle := by
    intro he
    rw [he, h.noProcess.idle_eq] at hunused
    cases hunused
  have hmem : t.memory = v.memory := hlinks.memory
  have hisUser : ∀ p, t.IsUser p ↔ p = i ∨ (idleStarted L s₁).IsUser p := by
    intro p
    cases eq_or_ne p i with
    | inl hp =>
        refine iff_of_true ⟨hp ▸ hidle, ?_⟩ (.inl hp)
        rw [hp, Kernel.Live, hself'.1]
        decide
    | inr hp =>
        rw [Kernel.IsUser, Kernel.IsUser, Kernel.Live, Kernel.Live, (hproc p hp).1]
        exact (or_iff_right hp).symm
  have hfs : u.fs = (idleStarted L s₁).fs := by
    rw [h.state]
    rfl
  rw [hfs] at hfcb hdesc
  have hsub : [stack, pgd] ++ [frame, pgd, pud, pmd] ⊆ [stack, pgd, frame, pud, pmd] := by simp
  have honly₄ := (h.only.trans honly₃).weaken hsub
  rw [← hmem] at hfree₃ hspace honly₄
  have hstackPage : HeapPage L stack := h.inv.freePages stack (by simp)
  have hnotStack : stack ∉ [frame, pgd, pud, pmd] := by
    have hnot := (List.nodup_cons.mp h.inv.owned.nodup).1
    simp only [List.mem_cons, not_or] at hnot ⊢
    exact ⟨hnot.2.1, hnot.1, hnot.2.2.1, hnot.2.2.2.1, List.not_mem_nil⟩
  have hnew : ∀ w ∈ [frame, pgd, pud, pmd], HeapPage L w := by
    have hzs := h.freePages
    simp only [List.forall_mem_cons] at hzs ⊢
    exact ⟨hzs.1, h.pgdPage, hzs.2.1, hzs.2.2.1, List.forall_mem_nil _⟩
  refine ⟨ws, i, ⟨h.inv.create (i := i) ⟨fun hi => hi.2 hunused, hisUser, ?_, ?_,
    fun p hp => (hproc p hp).2.1, fun p hp => (hproc p hp).2.2, hself'.2.1, hself'.2.2.1, hfree₃, hspace, honly₄⟩,
    fun p => ?_, ?_, ?_, ?_⟩⟩
  · rw [hlinks.fs]
    exact hfcb
  · rw [hlinks.fs]
    exact hdesc
  · refine (hisUser p).trans (or_iff_left fun hp => hp.2 ?_)
    rw [h.noProcess.other_eq hp.1]
    rfl
  · have hkont : t.kont i = u.kont i := by
      rw [hlinks.rest]
      exact congrFun hsame.kont i
    rw [hkont, h.state]
    simp [allocated, Kernel.setKont]
  · rw [hself'.2.1]
    exact hself'.2.2.2
  · rw [hself'.2.1, hmem]
    exact ⟨_, h.kernelStack.trans (honly₃.same hnew hstackPage hnotStack)⟩

theorem boot_pages (hboot : boot L m = .ok t) (hfits : InitFits m) : ∃ xs, PageInv L t xs := by
  obtain ⟨xs, i, h⟩ := boot_started hboot hfits
  exact ⟨xs, h.inv⟩

end ArmOs
