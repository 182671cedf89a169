import ArmOs.Kernel.System

/-!
# Arguments of system calls

What the kernel does with a descriptor that a user program passes.
-/

namespace ArmOs

open Lib

variable {L : Layout} {s t : Kernel} {p : Proc} {fd : Int} {tf : Nat} {call : Syscall}

/-! ## Descriptors -/

/-- The descriptor that a call passes to the file system. -/
def Syscall.descriptor : Syscall → Option Int
  | .closeFile fd => some fd
  | .getFileSize fd => some fd
  | .readFile fd _ _ => some fd
  | _ => none

/-- The number names an open descriptor of the process. -/
def FdOpen (s : Kernel) (p : Proc) (fd : Int) : Prop :=
  ∃ i : Fin numFile, (i : Int) = fd ∧ (s.proc p).file i ≠ none

/-- The call returns and leaves the processes and the tables of the file system as they are. -/
def ReturnsUnchanged (L : Layout) (tf : Nat) (call : Syscall) (s : Kernel) : Prop :=
  ∃ ret t, systemCall L tf call s = .ok (ret, t) ∧ t.processTable = s.processTable ∧ t.fs = s.fs

theorem FdOpen.of_slot (h : ∃ d, fileSlot (s.proc p) fd = .ok (some d)) : FdOpen s p fd := by
  obtain ⟨d, h⟩ := h
  unfold fileSlot at h
  split at h
  · rename_i hfd
    refine ⟨⟨fd.toNat, by omega⟩, Int.toNat_of_nonneg hfd.1, ?_⟩
    rw [Except.ok.inj h]
    exact Option.some_ne_none d
  · cases h

/-- The kernel takes any descriptor as an index: with one that is not open it finds an empty slot, or leaves the slots of
the process. -/
theorem FdOpen.of_returns {ret : Option Int} (hfd : call.descriptor = some fd)
    (h : syscallHandler L tf call s = .ok (ret, t)) : FdOpen s s.current fd := by
  have hslot : ∀ {α : Type} {f : Nat → Except Stop α} {a : α},
      (fileSlot (s.proc s.current) fd >>= fun slot => deref slot >>= f) = .ok a → FdOpen s s.current fd := by
    intro α f a h
    obtain ⟨slot, hslot, h⟩ := bind_eq_ok.mp h
    cases slot with
    | none => cases h
    | some d => exact .of_slot ⟨d, hslot⟩
  cases call with
  | closeFile fd' =>
      cases hfd
      obtain ⟨u, hclose, -⟩ := bind_eq_ok.mp h
      unfold closeFile at hclose
      split at hclose
      · rename_i hrange
        obtain ⟨d, hd, -⟩ := bind_eq_ok.mp hclose
        refine ⟨⟨fd.toNat, by omega⟩, Int.toNat_of_nonneg hrange.1, fun hnone => ?_⟩
        rw [hnone] at hd
        cases hd
      · cases hclose
  | getFileSize fd' =>
      cases hfd
      obtain ⟨n, hsize, -⟩ := bind_eq_ok.mp h
      exact hslot hsize
  | readFile fd' buffer size =>
      cases hfd
      obtain ⟨r, hread, -⟩ := bind_eq_ok.mp h
      exact hslot hread
  | _ => cases hfd

/-- A call that passes a descriptor is either given an open one or returns without a change, exactly if it is given
an open one. -/
theorem fd_validated_iff (hfd : call.descriptor = some fd) :
    (FdOpen s s.current fd ∨ ReturnsUnchanged L tf call s) ↔ FdOpen s s.current fd := by
  constructor
  · rintro (hopen | ⟨ret, t, hcall, -⟩)
    · exact hopen
    · obtain ⟨r, hr, -⟩ := bind_eq_ok.mp hcall
      exact .of_returns hfd hr
  · exact .inl

theorem fd_validated_small :
    (FdOpen (Kernel.reset smallLayout smallMem) idle (-1) ∨
      ReturnsUnchanged smallLayout 0 (.getFileSize (-1)) (Kernel.reset smallLayout smallMem)) ↔
      FdOpen (Kernel.reset smallLayout smallMem) idle (-1) :=
  fd_validated_iff rfl

/-- The first process opens a file that does not exist and passes the -1 it gets to `close_file`; and it asks for the
size of a file it has not opened. -/
theorem bad_fd_halts : ∃ s ls t, boot smallLayout smallMem = .ok s ∧ Run (Step smallLayout) s ls t ∧
    ls.map Label.event = [.timer true, .svc (.openFile (cstring ['X']))] ∧ ls.map Label.ret = [none, some (-1)] ∧
    systemCall smallLayout (t.proc t.current).tf (.closeFile (-1)) t = .error .outOfBounds ∧
    systemCall smallLayout (t.proc t.current).tf (.getFileSize 0) t = .error .abort := by
  have h : (small [.timer true, .svc (.openFile (cstring ['X']))]).map (fun r =>
      decide (r.1.map Label.ret = [none, some (-1)] ∧
        stopped (systemCall smallLayout (r.2.proc r.2.current).tf (.closeFile (-1)) r.2) = some .outOfBounds ∧
        stopped (systemCall smallLayout (r.2.proc r.2.current).tf (.getFileSize 0) r.2) = some .abort)) =
      some true := by
    decide +kernel
  obtain ⟨⟨ls, t⟩, hr, hd⟩ := Option.map_eq_some_iff.mp h
  obtain ⟨s, hboot, hall⟩ := small_boot hr
  obtain ⟨hret, hclose, hsize⟩ := of_decide_eq_true hd
  exact ⟨s, ls, t, hboot, performAll_run hall, performAll_events hall, hret, stopped_eq_some.mp hclose,
    stopped_eq_some.mp hsize⟩

end ArmOs
