import ArmOs.Exec.Theorems
import ArmOs.Reads.Lemmas.Turns

/-!
# The turns of the kernel

When the kernel has started, the tables say what the directory says. Each of its steps is a sequence of turns, as long
as the processes read files into their own page.
-/

namespace ArmOs

open Lib

variable {L : Layout} {m : Mem} {s t o : Kernel} {ev : Event} {volume : Nat} {xs : List Nat} {l : Label} {p : Proc}

/-! ## The start -/

/-- Opening the first program, reading it and closing it are turns as well. -/
theorem boot_filesOf (hboot : boot L m = .ok t) (hfits : InitFits m) (hw : WellFormed m volume) :
    FilesOf m volume t := by
  obtain ⟨u, v, s, i, stack, pgd, N, zs, h⟩ := boot_firstProcess hboot
  obtain ⟨slot, d, frame, pud, pmd, ys, hready⟩ := h.setupReady
  obtain ⟨M, hM⟩ := hready.loads
  obtain ⟨habove, hsize, -⟩ := h.load_eq initBin
  have hframe := hready.pages frame List.mem_cons_self
  have hend := hframe.below
  have hsize' : loadSize u initBin ≤ pageSize := hsize ▸ hfits
  have hsetup := h.setup
  rw [hready.setupUvm_eq hM] at hsetup
  obtain ⟨⟨k, m'⟩, hread, hrun⟩ := bind_eq_ok.mp hsetup
  dsimp only at hrun
  split at hrun
  · -- a program that was not read as a whole is not started
    obtain ⟨N', -, hrun⟩ := bind_eq_ok.mp hrun
    cases hrun
  · obtain ⟨w, hclose, hrun⟩ := bind_eq_ok.mp hrun
    obtain ⟨-, rfl⟩ := Prod.mk.inj (Except.ok.inj hrun)
    have himage : SameAbove m M.mem := fun x hx => (hM.above x hx).trans (habove x hx)
    have hbase : FilesOf m volume { u with memory := M } := by
      refine ⟨himage.sameImage volume, fun i hi => ?_⟩
      rcases hi with hcount | ⟨k, hk⟩
      · exact absurd (h.fresh i) hcount
      · rw [h.unopened] at hk
        cases hk
    have hfound : searchFile M.mem initBin ≠ 0xffffffff := by
      rw [hM.above.searchFile]
      exact hready.found
    have hopened : FilesOf m volume (mapping u M i initBin slot d) := hbase.opened hw (searchFile_inUse hfound)
    have hout := readRawData_within hframe.bounds.1 hsize' (by omega) hread
    have hadvanced := hopened.advance (d := d) (n := k) hw.block ((hout.above (by omega)).sameImage volume)
    have hclosed : FilesOf m volume w := Turn.Step.filesOf (l := .closeFile i slot.val) hadvanced hw hclose
    have hlinks := SameButLinks.ofAppendTail h.append
    exact hclosed.keep hw.block (fun x _ _ => by rw [hlinks.memory]; rfl)
      (hlinks.fs ▸ (SameEntries.refl w.fs).toKeepsFiles)

/-! ## Parts -/

/-- No step writes the image. -/
theorem Step.above (hs : Good s) (h : PageInv L s xs) (hptr : l.event.UserPointers) (hstep : Step L s l t) :
    SameAbove s.memory.mem t.memory.mem := by
  refine (hstep.preserves (I := fun u => (∃ xs, PageInv L u xs) ∧ SameAbove s.memory.mem u.memory.mem) ?_ hs
    ⟨⟨xs, h⟩, fun _ _ => rfl⟩).2.2
  rintro a b hg hp ⟨⟨ys, ha⟩, himage⟩
  have he := hp.pageEffect ha hg hptr
  exact ⟨he.pageInv ha, fun x hx => (he.above ha x hx).trans (himage x hx)⟩

/-- Memory outside of the image changes. -/
theorem Turn.setMem {m' : Mem} (himage : SameImage s.memory.mem m' volume) : Turn.Step volume s .other (s.setMem m') :=
  ⟨rfl, fun _ _ => rfl, himage⟩

/-- The events whose steps are looked at as a whole. -/
def Event.Opens (ev : Event) : Prop :=
  (∃ path, ev = .svc (.openFile path)) ∨ (∃ fd buffer size, ev = .svc (.readFile fd buffer size)) ∨
    ∃ path, ev = .svc (.exec path)

/-- A part of any other step is a turn. -/
theorem Part.turn (hs : Good s) (h : PageInv L s xs) (hptr : ev.UserPointers) (hev : ¬ev.Opens) (hp : Part L o ev s t) :
    ∃ l, Turn.Step volume s l t := by
  have himage := ((hp.pageEffect h hs hptr).above h).sameImage volume
  have hother : t.fs = s.fs → (∀ p, (t.proc p).file = (s.proc p).file) → ∃ l, Turn.Step volume s l t :=
    fun hfs hfile => ⟨.other, hfs, fun p _ => hfile p, himage⟩
  have hmem : ∀ m', t = s.setMem m' → ∃ l, Turn.Step volume s l t := by
    intro m' ht
    subst ht
    exact ⟨.other, Turn.setMem himage⟩
  obtain ⟨q, lost, hq⟩ := hs.sched
  cases hp with
  | tick _ n => exact hother rfl fun _ => rfl
  | writeKey _ ch hev =>
      refine hother ?_ fun p => ?_
      all_goals
        unfold writeKeyBuffer
        dsimp only
        split <;> rfl
  | wakeUp hrun =>
      obtain ⟨t', hrun', hw⟩ := wakeUp_spec hq.queues _
      obtain rfl := Except.ok.inj (hrun'.symm.trans hrun)
      exact hother hw.frame.fs hw.frame.file
  | yield hrun =>
      obtain ⟨t', q', lost', hrun', -, -, hsw⟩ := yield_spec hq
      obtain rfl := Except.ok.inj (hrun'.symm.trans hrun)
      exact hother hsw.frame.fs hsw.frame.file
  | @sleep _ t w k hm hrun =>
      obtain ⟨t', hrun', -, hsw⟩ := sleep_spec hq hm.notIdle w
      obtain rfl := Except.ok.inj (hrun'.symm.trans hrun)
      exact hother hsw.frame.fs hsw.frame.file
  | exit hc hk hrun =>
      obtain ⟨t', hrun', hsw⟩ := exit_spec hq hc
      obtain rfl := Except.ok.inj (hrun'.symm.trans hrun)
      exact hother hsw.frame.fs hsw.frame.file
  | resume _ hc => exact hother rfl fun _ => rfl
  | reap hc hat hrun =>
      rcases wait_ok hq hrun with ⟨-, x, ys, zs, hr⟩ | ⟨hf, -⟩
      · exact ⟨.reap x, hr.fs, by rw [hr.zero]; rfl, fun p hp => by rw [hr.others p hp], himage⟩
      · cases hf
  | fork hc hev hrun =>
      obtain ⟨i, hf, -, -⟩ := fork_spec hq hrun
      exact ⟨.fork s.current i, hf.fs, hf.file, fun p hp => by rw [hf.others p hp], himage⟩
  | openFile path hc hev' =>
      rcases hev' with hev' | hev'
      · exact absurd (.inl ⟨path, hev'⟩) hev
      · exact absurd (.inr (.inr ⟨path, hev'⟩)) hev
  | @closeFile _ _ fd hc hev' hrun => exact ⟨.closeFile s.current fd, hrun⟩
  | readFile hc hrun hev' =>
      rcases hev' with hev' | ⟨-, hev'⟩
      · exact absurd (.inr (.inl ⟨_, _, _, hev'⟩)) hev
      · exact absurd (.inr (.inr hev')) hev
  | readRoot hc hev' hrun =>
      obtain ⟨m, _, hrun⟩ := bind_eq_ok.mp hrun
      cases hrun
      exact hother rfl fun _ => rfl
  | takeKey hc htake => exact hother rfl fun _ => rfl
  | setX0 _ v hc => exact hmem _ rfl
  | clearUser hc hdst => exact hmem _ rfl
  | newFrame _ hc => exact hmem _ rfl
  | store hc hev' hva hwalk => exact hmem _ rfl

/-! ## Steps -/

/-- The files that a process reads go to its own page. The sum of the position and the size fits in 32 bits. -/
def Event.InPage (s : Kernel) : Event → Prop
  | .svc (.readFile fd buffer size) => InUserPage buffer size ∧ 0 < size ∧
    ∀ d ∈ slotEntry (s.proc s.current) fd, (s.fs.fileDescTable d).position + size ≤ 2 ^ 32 - 1
  | _ => True

instance Event.inPageDecidable (s : Kernel) : DecidablePred (Event.InPage s)
  | .svc (.readFile fd buffer size) =>
      inferInstanceAs (Decidable (InUserPage buffer size ∧ 0 < size ∧
        ∀ d ∈ slotEntry (s.proc s.current) fd, (s.fs.fileDescTable d).position + size ≤ 2 ^ 32 - 1))
  | .svc (.write _ _) | .svc (.sleep _) | .svc .exit | .svc (.wait _) | .svc (.openFile _) | .svc (.closeFile _)
  | .svc (.getFileSize _) | .svc .fork | .svc .getpid | .svc (.exec _) | .svc .keyboardRead
  | .svc (.readRootDirectory _) | .svc .invalid | .timer _ | .uart _ | .fault | .store _ _ | .resume | .sleep _
  | .wakeUp _ => .isTrue trivial

/-- The buffers of a step are in the lower half, and those of `read_file` in the page of the process. -/
def ReadsInPage (s : Kernel) (ev : Event) : Prop := ev.UserPointers ∧ ev.InPage s

instance ReadsInPage.decidable (s : Kernel) (ev : Event) : Decidable (ReadsInPage s ev) :=
  inferInstanceAs (Decidable (ev.UserPointers ∧ ev.InPage s))

theorem returnX0_fs (tf : Nat) (r : Option Int × Kernel) : (returnX0 tf r).2.fs = r.2.fs := by
  rcases r with ⟨_ | ret, u⟩ <;> rfl

theorem returnX0_proc (tf : Nat) (r : Option Int × Kernel) (p : Proc) : (returnX0 tf r).2.proc p = r.2.proc p := by
  rcases r with ⟨_ | ret, u⟩ <;> rfl

section

variable (hs : Good s) (h : PageInv L s xs) (hptr : l.event.UserPointers) (hstep : Step L s l t)

include hs h hptr hstep

/-- A state on the way that has the tables of the end already. -/
theorem Step.other_turn {u : Kernel} (hmem : SameAbove s.memory.mem u.memory.mem) (hfs : t.fs = u.fs)
    (hfile : ∀ p, (t.proc p).file = (u.proc p).file) : Turn.Step volume u .other t := by
  refine ⟨hfs, fun p _ => hfile p, fun x hx _ => ?_⟩
  rw [hstep.above hs h hptr x hx, hmem x hx]

theorem Step.part_turns (hev : ¬l.event.Opens) : ∃ ks, Run (Turn.Step volume) s ks t := by
  refine ((hstep.parts hs).preserves (I := fun u => (∃ xs, PageInv L u xs) ∧ ∃ ks, Run (Turn.Step volume) s ks u) ?_ hs
    ⟨⟨xs, h⟩, [], .nil s⟩).2.2
  rintro a b hg hp ⟨⟨ys, ha⟩, ks, hrun⟩
  obtain ⟨k, hk⟩ := hp.2.turn hg ha hptr hev
  exact ⟨(hp.2.pageEffect ha hg hptr).pageInv ha, ks ++ [k], hrun.snoc hk⟩

theorem Step.openFile_turns {path : Nat → UInt8} (hev : l.event = .svc (.openFile path)) :
    ∃ entry, Run (Turn.Step volume) s [.openFile s.current path entry, .other] t := by
  have hrun := hstep.2.2
  rw [hev] at hrun
  obtain ⟨r, hcall, hrun⟩ := bind_eq_ok.mp hrun
  dsimp only [syscallHandler] at hcall
  have hmem := openFile_memory s.current path s
  have hopen : Turn.Step volume s (.openFile s.current path
      (slotEntry ((openFile s.current path s).2.proc s.current) (openFile s.current path s).1))
      (openFile s.current path s).2 := ⟨rfl, rfl⟩
  generalize hopened : (openFile s.current path s).2 = u at hmem hopen
  have hr : r.2 = u := by
    rw [← hopened, ← Except.ok.inj hcall]
  have ht : (returnX0 (s.proc s.current).tf r).2 = t := congrArg Prod.snd (pure_eq_ok.mp hrun)
  refine ⟨_, (Run.single hopen).snoc (hstep.other_turn hs h hptr ?_ ?_ fun p => ?_)⟩
  · rw [hmem]
    exact fun _ _ => rfl
  · rw [← ht, returnX0_fs, hr]
  · rw [← ht, returnX0_proc, hr]

end

/-- `read_file` is a read of what the page of the process holds afterwards. -/
theorem Step.readFile_turns {fd : Int} {buffer size : Nat} (hs : Good s) (h : PageInv L s xs)
    (hpage : ReadsInPage s l.event) (hev : l.event = .svc (.readFile fd buffer size)) (hstep : Step L s l t) :
    ∃ (d n : Nat), l.ret = some (int32 n) ∧ Run (Turn.Step volume) s [.read ⟨s.current, fd, buffer, size⟩ d n
      (t.memory.mem.bytes (s.pageOf s.current .frame + (buffer - userBase)) size), .other] t := by
  have hen := hstep.2.1
  have hrun := hstep.2.2
  have hin := hpage.2
  rw [hev] at hen hrun hin
  obtain ⟨hin, hsize, hsum⟩ := hin
  obtain ⟨r, hcall, hrun⟩ := bind_eq_ok.mp hrun
  obtain ⟨⟨n, u⟩, hread, hcall⟩ := bind_eq_ok.mp hcall
  cases hcall
  obtain ⟨hret, ht⟩ := Prod.mk.inj (Except.ok.inj hrun)
  obtain ⟨d, f, hd⟩ := exists_descriptor hread
  obtain ⟨hu, httbr0, hmaps⟩ := h.current hs hen.2
  have hend := hmaps.framePage.below
  obtain ⟨hle, hlt, hfit⟩ := hin
  have hlow : buffer < kernelBase := Nat.lt_trans hlt userEnd_lt
  have hallowed : (⟨s.current, fd, buffer, size⟩ : ReadCall).Allowed volume s d f
      (s.pageOf s.current .frame + (buffer - userBase)) := by
    refine ⟨hd, .inl hsize, hsum d (slotEntry_eq_some.mpr hd.slot), ?_, .inl ?_⟩
    · rw [httbr0]
      exact hmaps.lands hle hfit
    · dsimp only
      omega
  have hsame := readFile_same hread
  have hcur : u.current = s.current := hsame.current
  have hw := readFile_writes h hs hen.2 hlow hread
  obtain ⟨vs, honly, hvs⟩ := hw.pages
  have hframe : u.pageOf s.current .frame = s.pageOf s.current .frame :=
    (h.pageOf_eq hw.owners honly (fun v hv => ⟨s.current, hvs v hv⟩) hu).1 .frame
  -- storing the result leaves the page alone
  obtain ⟨-, -, hkeep⟩ := (hw.pageInv h).setX0 (hs.ofSame hsame) (hcur.symm ▸ hen.2) (v := (int32 n % 2 ^ 64).toNat) rfl
  have hbytes := hkeep s.current .frame ((hw.owners.isUser _).mpr hu) (.inr nofun)
  rw [hframe, hcur, hsame.tf] at hbytes
  have hdata : Mem.Same u.memory.mem t.memory.mem (s.pageOf s.current .frame + (buffer - userBase)) size := by
    rw [← ht]
    exact hbytes.sub (by omega) (by omega)
  have hpages : ∀ v ∈ [s.pageOf s.current .frame], HeapPage L v := by simpa using h.page hu .frame
  have habove := (readFile_onlyIn h hs hen.2 hlow hread).1.above hpages
  have hfs : t.fs = u.fs := by
    rw [← ht]
    rfl
  refine ⟨d, n, hret.symm, (Run.single (t := u) ⟨f, _, hallowed, hread, Mem.bytes_congr hdata⟩).snoc
    (hstep.other_turn hs h hpage.1 habove hfs fun p => ?_)⟩
  rw [← ht]
  rfl

/-- The file that `exec` has read is one that fits its page. -/
theorem ExecReady.loadSize_le {path : Nat → UInt8} {slot : Fin numFile} {d pgd frame : Nat} {r : Nat × Mem}
    (h : ExecReady L s p path slot d pgd frame) (hf : FilesOf m volume s) (hw : WellFormed m volume)
    (hrun : readRawData s.ttbr0 (loadCluster s path) userBase 0 (loadSize s path) (s.memory.mem.fill frame pageSize 0) =
      .ok r) : loadSize s path ≤ pageSize := by
  obtain ⟨-, ys, e, hp, hk, -, hresult⟩ := h.loaded hrun
  rcases hresult with ⟨hall, -⟩ | ⟨hshort, hlt, he⟩
  · omega
  · -- no chain of the image ends before its file
    exfalso
    have huse := searchFile_inUse h.found
    obtain ⟨xs, hfile⟩ := (hw.congr hf.image).files _ huse
    have hdir := openFcb_cached (hf.dirCached hw (searchFile s.memory.mem path))
    have hcovers := hfile.covers
    rw [← hdir.fileSize] at hcovers
    have hends : EndsBefore s.memory.mem (loadCluster s path) (loadSize s path) := ⟨ys, e, hp, he, by omega⟩
    rcases hfile.chain with rfl | ⟨e', -, hp'⟩
    · rw [List.length_nil, Nat.zero_mul] at hcovers
      exact Nat.not_lt_zero _ (Nat.lt_of_lt_of_le hlt hcovers)
    · rw [← hdir.clusterIndex] at hp'
      exact Nat.not_lt.mpr hcovers (hends.length_lt hp')

/-- `exec` opens a file, clears the page, reads the file and closes it again. -/
theorem ExecReady.turns {path : Nat → UInt8} {slot : Fin numFile} {d pgd frame k : Nat} {m' : Mem} {c : Kernel}
    (h : ExecReady L s p path slot d pgd frame) (hf : FilesOf m volume s) (hw : WellFormed m volume)
    (hraw : readRawData s.ttbr0 (loadCluster s path) userBase 0 (loadSize s path) (s.memory.mem.fill frame pageSize 0) =
      .ok (k, m'))
    (hclose : closeFile p slot.val ((loading s p path slot d frame).advance d k m') = .ok c) :
    ∃ ks, Run (Turn.Step volume) s ks c ∧ SameAbove s.memory.mem c.memory.mem := by
  have hsize := h.loadSize_le hf hw hraw
  have hend := h.maps.framePage.below
  have hframe : ∀ v ∈ [frame], HeapPage L v := by simpa using h.maps.framePage
  have hclear : OnlyIn [frame] s.memory.mem (s.memory.mem.fill frame pageSize 0) := .fill (Nat.le_refl _) (Nat.le_refl _)
  have honly := hclear.trans_self (h.cleared.readRawData_onlyIn userPage_low.1 (h.ttbr0 ▸ hraw))
  have hopen : Turn.Step volume s (.openFile p path _) (opened s p slot d (searchFile s.memory.mem path)) :=
    ⟨by rw [openFile_eq h.slot h.desc h.found], rfl⟩
  have hload : Turn.Step volume (opened s p slot d (searchFile s.memory.mem path)) .other
      (loading s p path slot d frame) := Turn.setMem ((hclear.above hframe).sameImage volume)
  have hposition := loading_position s p path slot d frame
  have hdescriptor := loading_descriptor s p path slot d frame
  have hread : readFile p slot.val userBase (loadSize s path) (loading s p path slot d frame) =
      .ok (k, (loading s p path slot d frame).advance d k m') := by
    have hwhole := hdescriptor.readFile_whole userBase hposition
    have hraw' : readRawData (loading s p path slot d frame).ttbr0 (openFcb s (searchFile s.memory.mem path)).clusterIndex
        userBase 0 (openFcb s (searchFile s.memory.mem path)).fileSize (loading s p path slot d frame).memory.mem =
        .ok (k, m') := hraw
    rw [loading_fcb, hraw', ok_bind] at hwhole
    exact hwhole
  have hallowed : (⟨p, slot.val, userBase, loadSize s path⟩ : ReadCall).Allowed volume (loading s p path slot d frame) d
      (searchFile s.memory.mem path) frame := by
    refine ⟨hdescriptor, .inr hposition, ?_, ?_, .inl (by dsimp only; omega)⟩
    · have hpage : pageSize ≤ 2 ^ 32 - 1 := by decide
      rw [hposition]
      dsimp only
      omega
    · have hlands := h.cleared.lands (Nat.le_refl userBase) (Nat.add_le_add_left hsize userBase)
      rwa [Nat.sub_self, Nat.add_zero, ← h.ttbr0] at hlands
  have hcmem : c.memory.mem = m' := congrArg Memory.mem (closeFile_memory hclose)
  have hturn : Turn.Step volume (loading s p path slot d frame) (.read ⟨p, slot.val, userBase, loadSize s path⟩ d k
      (m'.bytes frame (loadSize s path))) ((loading s p path slot d frame).advance d k m') :=
    ⟨_, frame, hallowed, hread, rfl⟩
  have hclosed : Turn.Step volume ((loading s p path slot d frame).advance d k m') (.closeFile p slot.val) c := hclose
  refine ⟨_, (((Run.single hopen).snoc hload).snoc hturn).snoc hclosed, ?_⟩
  rw [hcmem]
  exact honly.above hframe

/-- Or it kills the process. -/
theorem Step.exec_turns {path : Nat → UInt8} (hs : Good s) (h : PageInv L s xs) (hf : FilesOf m volume s)
    (hw : WellFormed m volume) (hev : l.event = .svc (.exec path)) (hstep : Step L s l t) :
    ∃ ks, Run (Turn.Step volume) s ks t := by
  have hptr : l.event.UserPointers := by
    rw [hev]
    trivial
  have hen := hstep.2.1
  have hrun := hstep.2.2
  rw [hev] at hen hrun
  obtain ⟨r, hcall, hrun⟩ := bind_eq_ok.mp hrun
  have hexec : exec s.current path s = .ok r := hcall
  have ht : (returnX0 (s.proc s.current).tf r).2 = t := congrArg Prod.snd (pure_eq_ok.mp hrun)
  by_cases hfd : (openFile s.current path s).1 = -1
  · rcases openFile_opened (r := (openFile s.current path s).1) Prod.mk.eta.symm with ⟨-, hsame⟩ | ⟨fd, d, i, hfd', -⟩
    · have hopen : openFile s.current path s = (-1, s) := Prod.ext hfd hsame
      unfold exec at hexec
      rw [hopen] at hexec
      dsimp only at hexec
      rw [if_pos rfl] at hexec
      obtain ⟨u, hexit, hexec⟩ := bind_eq_ok.mp hexec
      cases hexec
      obtain ⟨q, lost, hq⟩ := hs.sched
      obtain ⟨u', hexit', hsw⟩ := exit_spec hq hen.2
      obtain rfl := Except.ok.inj (hexit'.symm.trans hexit)
      refine ⟨[.other], .single (hstep.other_turn hs h hptr (fun _ _ => rfl) ?_ fun p => ?_)⟩
      · rw [← ht]
        exact hsw.frame.fs
      · rw [← ht]
        exact hsw.frame.file p
    · omega
  · obtain ⟨slot, d, hslot, hdesc, hfound, -, -⟩ := openFile_ok Prod.mk.eta.symm hfd
    have hready := h.execReady hs hen.2 hslot hdesc hfound
    rw [hready.exec_eq] at hexec
    obtain ⟨⟨k, m'⟩, hraw, hexec⟩ := bind_eq_ok.mp hexec
    have hne : k ≠ 0xffffffff := by
      obtain ⟨-, -, -, -, hk, -⟩ := hready.loaded hraw
      have hpage : pageSize < 0xffffffff := by decide
      dsimp only at hk
      omega
    dsimp only at hexec
    rw [if_neg hne] at hexec
    obtain ⟨c, hclose, hexec⟩ := bind_eq_ok.mp hexec
    obtain ⟨ks, hks, habove⟩ := hready.turns hf hw hraw hclose
    refine ⟨ks ++ [.other], hks.snoc (hstep.other_turn hs h hptr habove ?_ fun p => ?_)⟩
    · rw [← ht, ← Except.ok.inj hexec]
      rfl
    · rw [← ht, ← Except.ok.inj hexec]
      rfl

/-- Every step is a sequence of turns. -/
theorem Step.turns (hs : Good s) (h : PageInv L s xs) (hf : FilesOf m volume s) (hw : WellFormed m volume)
    (hpage : ReadsInPage s l.event) (hstep : Step L s l t) : ∃ ks, Run (Turn.Step volume) s ks t := by
  by_cases hopens : l.event.Opens
  · obtain ⟨path, hev⟩ | ⟨fd, buffer, size, hev⟩ | ⟨path, hev⟩ := hopens
    · obtain ⟨entry, hks⟩ := hstep.openFile_turns hs h hpage.1 hev
      exact ⟨_, hks⟩
    · obtain ⟨d, n, -, hks⟩ := hstep.readFile_turns hs h hpage hev
      exact ⟨_, hks⟩
    · exact hstep.exec_turns hs h hf hw hev
  · exact hstep.part_turns hs h hpage.1 hopens

/-- Every run of the kernel is one of turns. -/
theorem boot_turns (hboot : boot L m = .ok s) (hfits : InitFits m) (hw : WellFormed m volume) {ls : List Label}
    (hrun : Run (Guarded (fun a l => ReadsInPage a l.event) (Step L)) s ls t) :
    ∃ ks, Run (Turn.Step volume) s ks t := by
  have key : (Good t ∧ ∃ xs, PageInv L t xs) ∧ FilesOf m volume t ∧ ∃ ks, Run (Turn.Step volume) s ks t := by
    refine hrun.invariant (I := fun u => (Good u ∧ ∃ xs, PageInv L u xs) ∧ FilesOf m volume u ∧
      ∃ ks, Run (Turn.Step volume) s ks u)
      ⟨⟨good_of_boot hboot, boot_pages hboot hfits⟩, boot_filesOf hboot hfits hw, [], .nil s⟩ ?_
    rintro a l b ⟨⟨hg, xs, h⟩, hf, ks, hks⟩ ⟨hpage, hstep⟩
    obtain ⟨ks', hks'⟩ := hstep.turns hg h hf hw hpage
    exact ⟨⟨hstep.good hg, hstep.pageInv hg ⟨xs, h⟩ hpage.1⟩,
      hks'.invariant (I := FilesOf m volume) hf fun _ _ _ hfiles hturn => hturn.filesOf hfiles hw, ks ++ ks',
      hks.append hks'⟩
  exact key.2.2

end ArmOs
