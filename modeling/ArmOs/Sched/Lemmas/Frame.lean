import ArmOs.Kernel.System
import ArmOs.Sched.Lemmas.Ops

/-!
# What the scheduler does not see

Opening, closing and reading files, writing memory and the keyboard buffer leave the lists and everything
the scheduler reads in a process as they are.
-/

namespace ArmOs

open Lib

/-- An observation of the keyboard. -/
def Obs.isKey : Obs → Prop
  | .keyIn _ | .keyOut _ => True
  | _ => False

/-- The processes that are not in `out` differ in their file slots only, and the lists are the same. -/
structure SameProcs (out : Set Proc) (s t : Kernel) : Prop where
  proc : ∀ i, i ∉ out → t.proc i = { s.proc i with file := (t.proc i).file }
  pc : t.pc = s.pc
  ttbr0 : t.ttbr0 = s.ttbr0
  trace : ∃ os, t.trace = s.trace ++ os ∧ ∀ o ∈ os, o.isKey

/-- All processes differ in their file slots only; nothing else the scheduler reads differs. -/
structure SameSched (s t : Kernel) : Prop extends SameProcs ∅ s t where
  pidNum : t.pidNum = s.pidNum
  kont : t.kont = s.kont

namespace SameProcs

variable {s t u : Kernel} {out : Set Proc} {q : ListId → List Proc}

theorem refl (out : Set Proc) (s : Kernel) : SameProcs out s s := ⟨fun _ _ => rfl, rfl, rfl, [], by simp⟩

theorem trans (h : SameProcs out s t) (h' : SameProcs out t u) : SameProcs out s u where
  proc i hi := by rw [h'.proc i hi, h.proc i hi]
  pc := h'.pc.trans h.pc
  ttbr0 := h'.ttbr0.trans h.ttbr0
  trace := by
    obtain ⟨os, hos, hall⟩ := h.trace
    obtain ⟨os', hos', hall'⟩ := h'.trace
    refine ⟨os ++ os', by rw [hos', hos, List.append_assoc], fun o ho => ?_⟩
    exact (List.mem_append.mp ho).elim (hall o) (hall' o)

theorem weaken (h : SameProcs ∅ s t) (out : Set Proc) : SameProcs out s t :=
  ⟨fun i _ => h.proc i (Set.notMem_empty i), h.pc, h.ttbr0, h.trace⟩

theorem current (h : SameProcs out s t) : t.current = s.current := by rw [Kernel.current, h.pc]

theorem mem_trace (h : SameProcs out s t) {o : Obs} (ho : ¬o.isKey) : o ∈ t.trace ↔ o ∈ s.trace := by
  obtain ⟨os, hos, hall⟩ := h.trace
  rw [hos, List.mem_append]
  exact ⟨fun h => h.resolve_right fun h' => ho (hall o h'), Or.inl⟩

theorem readyOps_eq (h : SameProcs out s t) : readyOps t.trace = readyOps s.trace := by
  obtain ⟨os, hos, hall⟩ := h.trace
  have hnil : readyOps os = [] := by
    refine List.filterMap_eq_nil_iff.mpr fun o ho => ?_
    have := hall o ho
    cases o <;> first | rfl | exact absurd this id
  rw [hos, readyOps_append, hnil, List.append_nil]

/-- A process that was on no list may change as it likes, as long as it stays on none. -/
theorem queues {out' : Set Proc} (h : SameProcs out s t) (hsub : out ⊆ out') (hq : Queues s q out') :
    Queues t q out' where
  represents l := by
    rw [h.pc]
    refine (hq.represents l).congr fun i hi => ?_
    have hi' := ((hq.mem l i).mp hi).1
    show (t.proc i).next = _
    rw [h.proc i fun ho => hi' (hsub ho)]
  mem l i := by
    rw [hq.mem]
    refine and_congr_right fun hi => ?_
    rw [h.proc i fun ho => hi (hsub ho)]

end SameProcs

namespace SameSched

variable {s t u : Kernel} {q : ListId → List Proc} {lost : Set Proc}

theorem refl (s : Kernel) : SameSched s s := ⟨.refl ∅ s, rfl, rfl⟩

theorem trans (h : SameSched s t) (h' : SameSched t u) : SameSched s u :=
  ⟨h.toSameProcs.trans h'.toSameProcs, h'.pidNum.trans h.pidNum, h'.kont.trans h.kont⟩

theorem eq (h : SameSched s t) (i : Proc) : t.proc i = { s.proc i with file := (t.proc i).file } :=
  h.proc i (Set.notMem_empty i)

theorem state (h : SameSched s t) (i : Proc) : (t.proc i).state = (s.proc i).state := by rw [h.eq]
theorem wait (h : SameSched s t) (i : Proc) : (t.proc i).wait = (s.proc i).wait := by rw [h.eq]
theorem pid (h : SameSched s t) (i : Proc) : (t.proc i).pid = (s.proc i).pid := by rw [h.eq]
theorem tf (h : SameSched s t) (i : Proc) : (t.proc i).tf = (s.proc i).tf := by rw [h.eq]

theorem inv (h : SameSched s t) (hs : SchedInv s q lost) : SchedInv t q lost where
  queues := h.queues (Set.empty_subset _) hs.queues
  lostReady i hi := by rw [h.state, h.pid]; exact hs.lostReady i hi
  idlePid := by rw [h.pid]; exact hs.idlePid
  running i := by rw [h.state, h.current, hs.running]
  idleState := by rw [h.state]; exact hs.idleState
  ttbr0 := by rw [h.ttbr0, h.current, h.eq]; exact hs.ttbr0
  fifo := by rw [h.readyOps_eq]; exact hs.fifo
  noSelf p := by rw [h.mem_trace id]; exact hs.noSelf p

/-- Writing anything but processes, lists and pids. -/
theorem ofRest (s : Kernel) (M : Memory) (fs : Fs) (b : KeyboardBuffer) (ticks : Nat) :
    SameSched s { s with memory := M, fs := fs, keyBuffer := b, ticks := ticks } :=
  ⟨⟨fun _ _ => rfl, rfl, rfl, [], by simp⟩, rfl, rfl⟩

theorem setMem (s : Kernel) (m : Mem) : SameSched s (s.setMem m) := .ofRest s _ _ _ _

/-- Writing file slots. -/
theorem setFile (s : Kernel) (i : Proc) (fd : Fin numFile) (d : Option Nat) :
    SameSched s (s.setProc i ((s.proc i).setFile fd d)) := by
  refine ⟨⟨fun j _ => ?_, rfl, rfl, [], by simp⟩, rfl, rfl⟩
  by_cases hj : j = i
  · subst hj; simp [Kernel.proc, Process.setFile]
  · simp [Kernel.proc, s.setProc_ne _ _ _ hj]

end SameSched

/-- The process is in use. -/
def Kernel.Live (s : Kernel) (i : Proc) : Prop := (s.proc i).state ≠ .unused

instance (s : Kernel) : DecidablePred s.Live := fun i => inferInstanceAs (Decidable ((s.proc i).state ≠ .unused))

theorem SameSched.live {s t : Kernel} (h : SameSched s t) (i : Proc) : t.Live i ↔ s.Live i := by
  rw [Kernel.Live, Kernel.Live, h.state]

/-- The slots and the tables are the same, but for positions in files. -/
structure SameFiles (s t : Kernel) : Prop where
  file : ∀ p, (t.proc p).file = (s.proc p).file
  live : ∀ p, t.Live p ↔ s.Live p
  fcbTable : t.fs.fcbTable = s.fs.fcbTable
  desc : ∀ d, t.fs.fileDescTable d =
    { s.fs.fileDescTable d with position := (t.fs.fileDescTable d).position }

namespace SameFiles

variable {s t u : Kernel}

theorem trans (h : SameFiles s t) (h' : SameFiles t u) : SameFiles s u :=
  ⟨fun p => (h'.file p).trans (h.file p), fun p => (h'.live p).trans (h.live p),
    h'.fcbTable.trans h.fcbTable, fun d => by rw [h'.desc, h.desc]⟩

theorem fcb (h : SameFiles s t) (d : Nat) : (t.fs.fileDescTable d).fcb = (s.fs.fileDescTable d).fcb := by
  rw [h.desc]

theorem count (h : SameFiles s t) (d : Nat) :
    (t.fs.fileDescTable d).count = (s.fs.fileDescTable d).count := by rw [h.desc]

/-- Nothing at all happened to the tables. -/
theorem of_eq (hfile : ∀ p, (t.proc p).file = (s.proc p).file) (hlive : ∀ p, t.Live p ↔ s.Live p)
    (hfs : t.fs = s.fs) : SameFiles s t := ⟨hfile, hlive, by rw [hfs], fun d => by rw [hfs]⟩

theorem refl (s : Kernel) : SameFiles s s := of_eq (fun _ => rfl) (fun _ => Iff.rfl) rfl

theorem setMem (s : Kernel) (m : Mem) : SameFiles s (s.setMem m) :=
  of_eq (fun _ => rfl) (fun _ => Iff.rfl) rfl

end SameFiles

/-! ## The functions of the file system and the keyboard -/

theorem openFile_same (i : Proc) (path : Nat → UInt8) (s : Kernel) :
    SameSched s (openFile i path s).2 := by
  unfold openFile
  split
  · exact .refl s
  · split
    · exact .refl s
    · dsimp only
      split
      · exact .refl s
      · exact (SameSched.setFile s i _ _).trans (.ofRest _ _ _ _ _)

theorem closeFile_same {i : Proc} {fd : Int} {s t : Kernel} (h : closeFile i fd s = .ok t) :
    SameSched s t := by
  unfold closeFile at h
  split at h
  · obtain ⟨d, _, h⟩ := bind_eq_ok.mp h
    obtain ⟨fcb, _, h⟩ := bind_eq_ok.mp h
    obtain ⟨fs, _, h⟩ := bind_eq_ok.mp h
    cases h
    exact (SameSched.setFile s i _ _).trans (.ofRest _ _ _ _ _)
  · cases h

theorem readFile_same {i : Proc} {fd : Int} {buffer size n : Nat} {s t : Kernel}
    (h : readFile i fd buffer size s = .ok (n, t)) : SameSched s t := by
  unfold readFile at h
  obtain ⟨slot, _, h⟩ := bind_eq_ok.mp h
  obtain ⟨d, _, h⟩ := bind_eq_ok.mp h
  obtain ⟨fcb, _, h⟩ := bind_eq_ok.mp h
  dsimp only at h
  split at h
  · cases h
    exact .refl s
  · obtain ⟨⟨size', m⟩, _, h⟩ := bind_eq_ok.mp h
    cases h
    exact (SameSched.setMem s m).trans (.ofRest _ _ _ _ _)

theorem readFile_sameFiles {p : Proc} {fd : Int} {buffer size n : Nat} {s t : Kernel}
    (h : readFile p fd buffer size s = .ok (n, t)) : SameFiles s t := by
  unfold readFile at h
  obtain ⟨slot, _, h⟩ := bind_eq_ok.mp h
  obtain ⟨d, _, h⟩ := bind_eq_ok.mp h
  obtain ⟨fcb, _, h⟩ := bind_eq_ok.mp h
  dsimp only at h
  split at h
  · cases h
    exact .of_eq (fun _ => rfl) (fun _ => Iff.rfl) rfl
  · obtain ⟨⟨size', m⟩, _, h⟩ := bind_eq_ok.mp h
    cases h
    refine ⟨fun _ => rfl, fun _ => Iff.rfl, rfl, fun d' => ?_⟩
    simp only [Fs.setFileDesc]
    by_cases hd : d' = d
    · subst hd; simp
    · simp [hd]

theorem readRootDirectory_same {buffer n : Nat} {s t : Kernel}
    (h : readRootDirectory buffer s = .ok (n, t)) : SameSched s t := by
  obtain ⟨m, _, h⟩ := bind_eq_ok.mp h
  cases h
  exact .setMem s m

theorem writeKeyBuffer_same (ch : UInt8) (s : Kernel) : SameSched s (writeKeyBuffer ch s) := by
  unfold writeKeyBuffer
  dsimp only
  split
  · exact .refl s
  · exact ⟨⟨fun _ _ => rfl, rfl, rfl, _, rfl, by simp [Obs.isKey]⟩, rfl, rfl⟩

theorem takeKey_same (front : Nat) (s : Kernel) : SameSched s (takeKey front s).2 :=
  ⟨⟨fun _ _ => rfl, rfl, rfl, _, rfl, by simp [Obs.isKey]⟩, rfl, rfl⟩

theorem returnX0_same (tf : Nat) (r : Option Int) (s : Kernel) : SameSched s (returnX0 tf (r, s)).2 := by
  cases r with
  | none => exact .refl s
  | some ret => exact .setMem s _

@[simp] theorem returnX0_fst (tf : Nat) (r : Option Int × Kernel) : (returnX0 tf r).1 = r.1 := by
  rcases r with ⟨_ | _, _⟩ <;> rfl

end ArmOs
