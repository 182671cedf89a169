import ArmOs.Accesses.Theorems
import ArmOs.Calls.Theorems
import ArmOs.Capacity.Theorems
import ArmOs.Exec.Theorems

/-!
# The kernel goes on

A failed `ASSERT`, an abort in the kernel and a loop without an end stop the whole system. Programs that keep to the
rules of the calls never bring the kernel there: in every state each exception is handled to its end.
-/

namespace ArmOs

open Lib

variable {L : Layout} {m : Mem} {s t : Kernel} {xs : List Nat} {ls : List Label} {ev : Event} {call : Syscall}
  {path : Nat → UInt8} {fd : Int} {buffer size argptr name i k : Nat} {x0 x1 x8 : BitVec 64}

/-! ## The rules -/

/-- A read of at least one byte: what lies inside of the file is in its clusters, and goes to the user page. -/
def ReadFits (s : Kernel) (fd : Int) (buffer size : Nat) : Prop :=
  0 < size ∧ FdOpen s s.current fd ∧ ∀ d f, Descriptor s s.current fd d f →
    (s.fs.fileDescTable d).position + size < 2 ^ 32 ∧
      ((s.fs.fileDescTable d).position + size ≤ (s.fs.fcbTable f).fileSize →
        InUserPage buffer size ∧ ∃ volume cs, IsFile s.memory.mem volume f cs)

/-- A program that can be opened has its clusters, and fits the user page. -/
def ExecFits (s : Kernel) (path : Nat → UInt8) : Prop :=
  CanOpen s path → DirEntry.fileSize s.memory.mem (searchFile s.memory.mem path) ≤ pageSize ∧
    ∃ volume cs, IsFile s.memory.mem volume (searchFile s.memory.mem path) cs

/-- What a program has to keep to in a system call. -/
def Syscall.Legal (s : Kernel) : Syscall → Prop
  | .write buffer size => 0 < size → InUserPage buffer size.toNat
  | .closeFile fd | .getFileSize fd => FdOpen s s.current fd
  | .readFile fd buffer size => ReadFits s fd buffer size
  | .fork => findUnusedProcess s ≠ none
  | .exec path => ExecFits s path
  | .readRootDirectory buffer => InUserPage buffer (getRootDirectoryCount s.memory.mem * dirEntrySize)
  | _ => True

/-- All of the accesses are in the user page. -/
def AllInPage (as : List (Nat × Nat)) : Prop := ∀ va n, (va, n) ∈ as → InUserPage va n

/-- What a program has to keep to with its registers: the arguments and a file name are in the user page, and what they
ask for is legal. -/
structure RegsLegal (s : Kernel) (x0 x1 x8 : BitVec 64) : Prop where
  arguments : ¬InvalidSvc x0 x8 → AllInPage (argumentAccesses x1.toNat x8.toNat)
  name : ¬InvalidSvc x0 x8 → AllInPage (nameAccesses s x1.toNat x8.toNat)
  call : ∀ call, decode s x0 x1 x8 = .ok call → call.Legal s

theorem InUserPage.lt (h : InUserPage buffer size) : buffer < kernelBase := Nat.lt_trans h.2.1 userEnd_lt

/-! ## Handlers -/

theorem sysSleepLoop_returns (hs : Good s) (hc : s.current ≠ idle) (tf oldTicks sleepTicks : Nat) :
    ∃ r, sysSleepLoop tf oldTicks sleepTicks s = .ok r := by
  unfold sysSleepLoop
  split
  · exact returns_bind (sleep_returns hs hc _) fun _ _ => ⟨_, rfl⟩
  · exact ⟨_, rfl⟩

theorem readKeyBuffer_returns (hs : Good s) (hc : s.current ≠ idle) (tf : Nat) : ∃ r, readKeyBuffer tf s = .ok r := by
  unfold readKeyBuffer
  dsimp only
  split
  · exact returns_bind (sleep_returns hs hc _) fun _ _ => ⟨_, rfl⟩
  · exact ⟨_, rfl⟩

/-! ## Files -/

/-- The file of a slot that is open is counted. -/
theorem FdOpen.descriptor (h : FdOpen s s.current fd) (hf : FileInv s) :
    ∃ d f, Descriptor s s.current fd d f ∧ (s.fs.fcbTable f).count ≠ 0 := by
  obtain ⟨k, rfl, hk⟩ := h
  obtain ⟨d, hk⟩ := Option.ne_none_iff_exists'.mp hk
  obtain ⟨f, hd⟩ := hf.slots.desc (s.current, k) d hk
  have hpos : 0 < fcbRefs s f := refs_pos (x := (s.current, k)) hk (by simp [Fs.reaches, hd])
  have hsurplus := hf.counts.surplus f
  rw [surplus] at hsurplus
  exact ⟨d, f, ⟨(fileSlot_val _ k).trans (congrArg _ hk), hd⟩, by omega⟩

theorem getFileSize_returns (h : FdOpen s s.current fd) (hf : FileInv s) : ∃ n, getFileSize s.current fd s = .ok n := by
  obtain ⟨d, f, hd, -⟩ := h.descriptor hf
  exact bind_returns hd.slot (bind_returns rfl (bind_returns (congrArg deref hd.fcb) ⟨_, rfl⟩))

theorem closeFile_returns (h : FdOpen s s.current fd) (hf : FileInv s) : ∃ t, closeFile s.current fd s = .ok t := by
  obtain ⟨k, rfl, hk⟩ := h
  obtain ⟨d, hk⟩ := Option.ne_none_iff_exists'.mp hk
  exact closeFile_open hf hk

/-- A buffer in the user page can be written. -/
theorem InOrder.resolve (h : InOrder L s) (hc : s.current ≠ idle) (hin : InUserPage buffer size) :
    ∃ dst, ArmOs.resolve s.memory.mem s.ttbr0 buffer size = .ok dst := by
  obtain ⟨xs, hpages⟩ := h.pages
  obtain ⟨hu, httbr0, hmaps⟩ := hpages.current h.good hc
  have hdst := hmaps.resolve_eq hin.lt size
  rw [if_pos hin, ← httbr0] at hdst
  exact ⟨_, hdst⟩

theorem readFile_returns (h : InOrder L s) (hc : s.current ≠ idle) (hfits : ReadFits s fd buffer size) :
    ∃ r, readFile s.current fd buffer size s = .ok r := by
  obtain ⟨hpos, hopen, hread⟩ := hfits
  obtain ⟨d, f, hd, hcount⟩ := hopen.descriptor h.files
  obtain ⟨hlt, hread⟩ := hread d f hd
  by_cases hr : Refused (s.fs.fileDescTable d).position size (s.fs.fcbTable f).fileSize
  · exact ⟨_, hd.readFile_refused buffer hr⟩
  · have hle : (s.fs.fileDescTable d).position + size ≤ (s.fs.fcbTable f).fileSize := by
      rw [Refused, Nat.mod_eq_of_lt hlt] at hr
      omega
    obtain ⟨hin, volume, cs, hfile⟩ := hread hle
    obtain ⟨xs, hpages⟩ := h.pages
    obtain ⟨hu, httbr0, hmaps⟩ := hpages.current h.good hc
    have hlands := hmaps.lands hin.1 hin.2.2
    rw [← httbr0] at hlands
    -- the page of the process is below the image
    have hframe : s.pageOf s.current .frame + pageSize ≤ fsBase := hmaps.framePage.end
    have hoff : OffImage s.memory.mem volume (s.pageOf s.current .frame + (buffer - userBase)) size := by
      obtain ⟨hlow, -, hend⟩ := hin
      exact .inl (by omega)
    have hcached := (h.cached f).resolve_left hcount
    rw [hcached.fileSize] at hle
    have hcovers := hfile.covers
    have hrun := hfile.readRawData hlands hoff hle (.inl (by omega))
    rw [hd.readFile_eq hr, hcached.clusterIndex]
    exact bind_returns hrun ⟨_, rfl⟩

theorem readRootDirectory_returns (h : InOrder L s) (hc : s.current ≠ idle)
    (hin : InUserPage buffer (getRootDirectoryCount s.memory.mem * dirEntrySize)) :
    ∃ r, readRootDirectory buffer s = .ok r := by
  refine returns_bind ?_ fun _ _ => ⟨_, rfl⟩
  unfold copyOut
  split
  · exact ⟨_, rfl⟩
  · obtain ⟨dst, hdst⟩ := h.resolve hc hin
    exact bind_returns hdst ⟨_, rfl⟩

/-! ## `fork` and `exec` -/

theorem fork_returns (h : InOrder L s) (hc : s.current ≠ idle) (hsize : 5 * numProc - 3 ≤ heapSize L)
    (hslot : findUnusedProcess s ≠ none) : ∃ r, fork L s = .ok r := by
  obtain ⟨xs, hpages⟩ := h.pages
  have hfree := hpages.freePages_of_slot h.good hsize hslot
  exact hpages.forkReturns h.good hc (hpages.forkFits hfree hslot) fun x d hx => h.files.slots.desc (s.current, x) d hx

theorem openFile_fails (hc : s.current ≠ idle) (h : ¬CanOpen s path) : (openFile s.current path s).1 = -1 := by
  unfold openFile
  split
  · rfl
  · rename_i slot hslot
    split
    · rfl
    · rename_i d hd
      by_cases hfound : searchFile s.memory.mem path = 0xffffffff
      · simp only [if_pos hfound]
      · exact absurd ⟨hc, by rw [hslot]; rfl, by rw [hd]; rfl, hfound⟩ h

/-- `exec` starts the program, or ends the process that cannot open it. -/
theorem exec_returns (h : InOrder L s) (hc : s.current ≠ idle) (hfits : ExecFits s path)
    (hcount : CountsFit s (.svc (.exec path))) : ∃ r, exec s.current path s = .ok r := by
  by_cases hopen : CanOpen s path
  · obtain ⟨hsize, volume, cs, hfile⟩ := hfits hopen
    obtain ⟨xs, hpages⟩ := h.pages
    obtain ⟨slot, d, hready⟩ := hopen.execReady h.good hpages
    have hnonneg := h.files.counts.nonneg (searchFile s.memory.mem path)
    have hlt : (s.fs.fcbTable (searchFile s.memory.mem path)).count + 1 < 2 ^ 31 := hcount.fcb _
    obtain ⟨fs, hrun, -⟩ := hready.run h.cached hfile hsize hnonneg hlt
    exact ⟨_, hrun⟩
  · have hfails := openFile_fails hc hopen
    have hsame := openFile_same s.current path s
    unfold exec
    generalize openFile s.current path s = r at hfails hsame
    obtain ⟨fd, u⟩ := r
    dsimp only at hfails hsame ⊢
    rw [if_pos hfails]
    exact returns_bind (exit_returns (h.good.ofSame hsame) (hsame.current ▸ hc)) fun _ _ => ⟨_, rfl⟩

/-! ## Registers -/

theorem mapM_returns {α β : Type} {f : α → Except Stop β} {as : List α} (h : ∀ a ∈ as, ∃ b, f a = .ok b) :
    ∃ bs, as.mapM f = .ok bs := by
  induction as with
  | nil => exact ⟨[], rfl⟩
  | cons a as ih =>
      obtain ⟨b, hb⟩ := h a List.mem_cons_self
      have htail := ih fun a' ha' => h a' (List.mem_cons_of_mem a ha')
      rw [List.mapM_cons]
      exact bind_returns hb (returns_bind htail fun _ _ => ⟨_, rfl⟩)

theorem argument_returns (h : InOrder L s) (hc : s.current ≠ idle) (hin : AllInPage (argumentAccesses argptr i))
    (hk : k < argumentCount i) : ∃ w, argument s argptr k = .ok w := by
  obtain ⟨a, ha⟩ := h.resolve hc (hin _ _ (List.mem_map_of_mem (List.mem_range.mpr hk)))
  exact bind_returns ha ⟨_, rfl⟩

theorem loadPath_returns (h : InOrder L s) (hc : s.current ≠ idle) (hin : AllInPage (pathAccesses s name)) :
    ∃ path, loadPath s name = .ok path :=
  returns_bind (mapM_returns fun a ha => h.resolve hc (hin a.1 a.2 ha)) fun _ _ => ⟨_, rfl⟩

/-- The path that `open_file` and `exec` take. -/
theorem namedCall_returns (h : InOrder L s) (hc : s.current ≠ idle) (hi : i = 4 ∨ i = 10)
    (hargs : ∃ w, argument s argptr 0 = .ok w) (hname : AllInPage (nameAccesses s argptr i))
    (f : (Nat → UInt8) → Syscall) :
    ∃ call, (do
      let name ← argument s argptr 0
      let path ← loadPath s name
      return f path) = Except.ok call := by
  obtain ⟨name, hw⟩ := hargs
  rw [nameAccesses, if_pos hi, hw] at hname
  exact bind_returns hw (returns_bind (loadPath_returns h hc hname) fun _ _ => ⟨_, rfl⟩)

theorem handlerCall_returns (h : InOrder L s) (hc : s.current ≠ idle) (hin : AllInPage (argumentAccesses argptr i))
    (hname : AllInPage (nameAccesses s argptr i)) : ∃ call, handlerCall s argptr i = .ok call := by
  have hargs := fun k hk => argument_returns (k := k) h hc hin hk
  unfold handlerCall
  split
  -- the handlers with more than one argument, and those with a file name
  case h_1 => exact returns_bind (hargs 0 (by decide)) fun _ _ => returns_bind (hargs 1 (by decide)) fun _ _ => ⟨_, rfl⟩
  case h_5 => exact namedCall_returns h hc (.inl rfl) (hargs 0 (by decide)) hname _
  case h_8 =>
    refine returns_bind (hargs 0 (by decide)) fun _ _ => returns_bind (hargs 1 (by decide)) fun _ _ => ?_
    exact returns_bind (hargs 2 (by decide)) fun _ _ => ⟨_, rfl⟩
  case h_11 => exact namedCall_returns h hc (.inr rfl) (hargs 0 (by decide)) hname _
  case h_3 => exact ⟨_, rfl⟩
  case h_9 => exact ⟨_, rfl⟩
  case h_10 => exact ⟨_, rfl⟩
  case h_12 => exact ⟨_, rfl⟩
  case h_14 => exact ⟨_, rfl⟩
  all_goals exact returns_bind (hargs 0 (by decide)) fun _ _ => ⟨_, rfl⟩

theorem decode_returns (h : InOrder L s) (hc : s.current ≠ idle) (hlegal : RegsLegal s x0 x1 x8) :
    ∃ call, decode s x0 x1 x8 = .ok call := by
  unfold decode
  split
  · exact ⟨_, rfl⟩
  · rename_i hvalid
    exact handlerCall_returns h hc (hlegal.arguments hvalid) (hlegal.name hvalid)

/-! ## Exceptions -/

theorem syscallHandler_returns (h : InOrder L s) (hc : s.current ≠ idle) (hsize : 5 * numProc - 3 ≤ heapSize L)
    (hlegal : call.Legal s) (hcount : CountsFit s (.svc call)) (tf : Nat) :
    ∃ r, syscallHandler L tf call s = .ok r := by
  obtain ⟨xs, hpages⟩ := h.pages
  cases call with
  | write buffer size =>
      dsimp only [syscallHandler]
      split
      · rename_i hpos
        exact returns_bind (h.resolve hc (hlegal hpos)) fun _ _ => ⟨_, rfl⟩
      · exact ⟨_, rfl⟩
  | sleep ticks => exact sysSleepLoop_returns h.good hc _ _ _
  | exit => exact returns_bind (exit_returns h.good hc) fun _ _ => ⟨_, rfl⟩
  | wait pid => exact sysWait_returns h.good hpages hc _ _
  | openFile path =>
      dsimp only [syscallHandler]
      exact ⟨_, rfl⟩
  | closeFile fd => exact returns_bind (closeFile_returns hlegal h.files) fun _ _ => ⟨_, rfl⟩
  | getFileSize fd => exact returns_bind (getFileSize_returns hlegal h.files) fun _ _ => ⟨_, rfl⟩
  | readFile fd buffer size => exact returns_bind (readFile_returns h hc hlegal) fun _ _ => ⟨_, rfl⟩
  | fork => exact returns_bind (fork_returns h hc hsize hlegal) fun _ _ => ⟨_, rfl⟩
  | getpid =>
      dsimp only [syscallHandler]
      exact ⟨_, rfl⟩
  | exec path =>
      dsimp only [syscallHandler]
      exact exec_returns h hc hlegal hcount
  | keyboardRead => exact returns_bind (readKeyBuffer_returns h.good hc _) fun _ _ => ⟨_, rfl⟩
  | readRootDirectory buffer =>
      have hin : InUserPage buffer (getRootDirectoryCount s.memory.mem * dirEntrySize) := hlegal
      exact returns_bind (readRootDirectory_returns h hc hin) fun _ _ => ⟨_, rfl⟩
  | invalid =>
      dsimp only [syscallHandler]
      exact ⟨_, rfl⟩

theorem resume_returns (h : InOrder L s) (hc : s.current ≠ idle) : ∃ r, resume L s = .ok r := by
  have hpart : Part L s .resume s (s.setKont s.current .ret) := .resume s hc rfl
  obtain ⟨xs, hpages⟩ := h.pages
  have hptr : Event.UserPointers .resume := trivial
  obtain ⟨ys, hpages'⟩ := (hpart.pageEffect hpages h.good hptr).pageInv hpages
  have hgood := hpart.good h.good
  unfold resume
  dsimp only
  split
  · exact ⟨_, rfl⟩
  · exact returns_bind (sysWait_returns hgood hpages' hc _ _) fun _ _ => ⟨_, rfl⟩
  · exact returns_bind (sysSleepLoop_returns hgood hc _ _ _) fun _ _ => ⟨_, rfl⟩
  · exact ⟨_, rfl⟩

theorem systemCallRegs_returns (h : InOrder L s) (hc : s.current ≠ idle) (hsize : 5 * numProc - 3 ≤ heapSize L)
    (hlegal : RegsLegal s x0 x1 x8) (hcount : ∀ call, decode s x0 x1 x8 = .ok call → CountsFit s (.svc call)) :
    ∃ r, systemCallRegs s L x0 x1 x8 = .ok r := by
  obtain ⟨call, hcall⟩ := decode_returns h hc hlegal
  have hhandler := syscallHandler_returns h hc hsize (hlegal.call call hcall) (hcount call hcall) (s.proc s.current).tf
  exact bind_returns hcall (returns_bind hhandler fun _ _ => ⟨_, rfl⟩)

/-- Everything but a system call. -/
theorem exceptionHandler_returns (h : InOrder L s) (hen : Enabled s ev) (hcall : ∀ call, ev ≠ .svc call) (tf : Nat) :
    ∃ r, exceptionHandler L tf ev s = .ok r := by
  cases ev with
  | timer istatus =>
      have htick : Part L s (.timer istatus) s { s with ticks := (s.ticks + 1) % 2 ^ 64 } := .tick s _
      cases istatus with
      | false => exact bind_returns rfl (returns_bind (yield_returns h.good) fun _ _ => ⟨_, rfl⟩)
      | true =>
          refine returns_bind (wakeUp_returns (htick.good h.good) _) fun u hu => ?_
          have hwake : Part L s (.timer true) _ u := .wakeUp hu
          exact returns_bind (yield_returns (hwake.good (htick.good h.good))) fun _ _ => ⟨_, rfl⟩
  | uart ch =>
      cases ch with
      | none => exact bind_returns rfl ⟨_, rfl⟩
      | some ch =>
          exact returns_bind (wakeUp_returns (h.good.ofSame (writeKeyBuffer_same ch s)) _) fun _ _ => ⟨_, rfl⟩
  | fault => exact returns_bind (exit_returns h.good hen.2) fun _ _ => ⟨_, rfl⟩
  | svc call => exact absurd rfl (hcall call)
  | store va b =>
      refine returns_bind ?_ fun _ _ => ⟨_, rfl⟩
      unfold userStore
      split
      · exact ⟨_, rfl⟩
      · exact exit_returns h.good hen.2
  | resume =>
      refine resume_returns h fun he => hen ?_
      rw [he]
      exact h.good.procs.kontIdle
  | sleep w => exact returns_bind (sleep_returns h.good hen.2 _) fun _ _ => ⟨_, rfl⟩
  | wakeUp w => exact returns_bind (wakeUp_returns h.good _) fun _ _ => ⟨_, rfl⟩

/-- The first process writes the name of a file to its page, and the address of the name in front of it. -/
def nameEvents : List Event :=
  [.timer false, .store 0x401000 0x10, .store 0x401001 0x10, .store 0x401002 0x40, .store 0x401010 73,
    .store 0x401011 78, .store 0x401012 73, .store 0x401013 84, .store 0x401014 46, .store 0x401015 66,
    .store 0x401016 73, .store 0x401017 78]

instance (as : List (Nat × Nat)) : Decidable (AllInPage as) :=
  decidable_of_iff (∀ a ∈ as, InUserPage a.1 a.2) ⟨fun h va n hmem => h (va, n) hmem, fun h a ha => h a.1 a.2 ha⟩

theorem handlerCall_openFile (h : handlerCall s argptr 4 = .ok call) : ∃ path, call = .openFile path := by
  obtain ⟨name, -, h⟩ := bind_eq_ok.mp h
  obtain ⟨path, -, h⟩ := bind_eq_ok.mp h
  exact ⟨path, (Except.ok.inj h).symm⟩

end ArmOs
