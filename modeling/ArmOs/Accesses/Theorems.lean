import Mathlib.Tactic.IntervalCases
import ArmOs.Accesses.Lemmas.Copies
import ArmOs.Kernel.Accesses
import ArmOs.Pages.Theorems

/-!
# Pointers of the caller

The kernel does not check the pointers that a process passes. In the lower half the page map of the process confines
the accesses; an address of the upper half is used as it is.
-/

namespace ArmOs

open Lib

variable {L : Layout} {m : Mem} {s t : Kernel} {xs : List Nat} {ls : List Label} {x0 x1 x8 : BitVec 64}
  {va n i k tf argptr name : Nat} {call : Syscall} {path : Nat → UInt8} {r : Option Int × Kernel}

/-! ## What a call has accessed when it goes on -/

/-- The address of each of the accesses is translated. -/
def Resolves (s : Kernel) (as : List (Nat × Nat)) : Prop :=
  ∀ va n, (va, n) ∈ as → ∃ a, resolve s.memory.mem s.ttbr0 va n = .ok a

theorem InvalidSvc.le (h : ¬InvalidSvc x0 x8) : x8.toNat ≤ 12 := by
  simp only [InvalidSvc, not_or, not_lt] at h
  obtain ⟨-, hneg, hle⟩ := h
  have hlt := x8.isLt
  rw [BitVec.toInt_eq_toNat_cond] at hneg hle
  split at hle <;> omega

theorem argument_inv {w : Nat} (h : argument s argptr k = .ok w) :
    ∃ a, resolve s.memory.mem s.ttbr0 ((argptr + 8 * k) % 2 ^ 64) 8 = .ok a := by
  obtain ⟨a, ha, -⟩ := bind_eq_ok.mp h
  exact ⟨a, ha⟩

/-- A handler with one argument. -/
theorem first_argument {f : Nat → Except Stop Syscall} (h : (argument s argptr 0 >>= f) = .ok call) (hk : k < 1) :
    ∃ w, argument s argptr k = .ok w := by
  obtain ⟨w, hw, -⟩ := bind_eq_ok.mp h
  obtain rfl : k = 0 := by omega
  exact ⟨w, hw⟩

theorem handlerCall_arguments (hi : i ≤ 12) (h : handlerCall s argptr i = .ok call) (hk : k < argumentCount i) :
    ∃ w, argument s argptr k = .ok w := by
  interval_cases i
  case «0» =>
    obtain ⟨buffer, hbuffer, h⟩ := bind_eq_ok.mp h
    obtain ⟨size, hsize, -⟩ := bind_eq_ok.mp h
    change k < 2 at hk
    interval_cases k
    · exact ⟨buffer, hbuffer⟩
    · exact ⟨size, hsize⟩
  case «7» =>
    obtain ⟨fd, hfd, h⟩ := bind_eq_ok.mp h
    obtain ⟨buffer, hbuffer, h⟩ := bind_eq_ok.mp h
    obtain ⟨size, hsize, -⟩ := bind_eq_ok.mp h
    change k < 3 at hk
    interval_cases k
    · exact ⟨fd, hfd⟩
    · exact ⟨buffer, hbuffer⟩
    · exact ⟨size, hsize⟩
  case «2» => cases hk
  case «8» => cases hk
  case «9» => cases hk
  case «11» => cases hk
  all_goals exact first_argument h hk

theorem handlerCall_path (hx : i = 4 ∨ i = 10) (h : handlerCall s argptr i = .ok call) :
    ∃ name path, argument s argptr 0 = .ok name ∧ loadPath s name = .ok path := by
  cases hx with
  | inl hi =>
      subst hi
      obtain ⟨name, hname, h⟩ := bind_eq_ok.mp h
      obtain ⟨path, hpath, -⟩ := bind_eq_ok.mp h
      exact ⟨name, path, hname, hpath⟩
  | inr hi =>
      subst hi
      obtain ⟨name, hname, h⟩ := bind_eq_ok.mp h
      obtain ⟨path, hpath, -⟩ := bind_eq_ok.mp h
      exact ⟨name, path, hname, hpath⟩

theorem mapM_ok {α β : Type} {f : α → Except Stop β} {as : List α} {bs : List β} (h : as.mapM f = .ok bs) {a : α}
    (ha : a ∈ as) : ∃ b, f a = .ok b := by
  induction as generalizing bs with
  | nil => cases ha
  | cons a' as ih =>
      rw [List.mapM_cons] at h
      obtain ⟨b, hb, h⟩ := bind_eq_ok.mp h
      obtain ⟨bs', hbs, -⟩ := bind_eq_ok.mp h
      cases List.mem_cons.mp ha with
      | inl he => exact ⟨b, he ▸ hb⟩
      | inr ha => exact ih hbs ha

theorem argumentAccesses_resolve (hi : i ≤ 12) (h : handlerCall s argptr i = .ok call) :
    Resolves s (argumentAccesses argptr i) := by
  intro va n hmem
  obtain ⟨k, hk, heq⟩ := List.mem_map.mp hmem
  obtain ⟨w, hw⟩ := handlerCall_arguments hi h (List.mem_range.mp hk)
  cases heq
  exact argument_inv hw

theorem nameAccesses_resolve (h : handlerCall s argptr i = .ok call) : Resolves s (nameAccesses s argptr i) := by
  intro va n hmem
  unfold nameAccesses at hmem
  split at hmem
  · rename_i hx
    obtain ⟨name, path, hname, hpath⟩ := handlerCall_path hx h
    rw [hname] at hmem
    obtain ⟨bs, hbs, -⟩ := bind_eq_ok.mp hpath
    exact mapM_ok hbs hmem
  · cases hmem

/-! ## In the page of the caller -/

namespace MapsUser

variable {frame : Nat} (h : MapsUser L s.memory.mem (s.proc s.current).pageMap frame)
  (httbr0 : s.ttbr0 = v2p (s.proc s.current).pageMap)

include h httbr0

theorem resolve_inPage {a : Nat} (ha : resolve s.memory.mem s.ttbr0 va n = .ok a) (hva : va < kernelBase) :
    InUserPage va n := by
  rw [httbr0, h.resolve_eq hva] at ha
  split at ha
  · assumption
  · cases ha

theorem resolves_inPage {as : List (Nat × Nat)} (has : Resolves s as) : InPage as := by
  intro va n hmem _ hva
  obtain ⟨a, ha⟩ := has va n hmem
  exact h.resolve_inPage httbr0 ha hva

theorem readFile_inPage {fd : Int} {buffer size : Nat} (hrun : readFile s.current fd buffer size s = .ok (n, t)) :
    InPage (readAccesses s fd buffer size) := by
  obtain ⟨d, f, hd⟩ := exists_descriptor hrun
  simp only [readAccesses, hd.slot, hd.fcb]
  split
  · exact .nil
  · rename_i hr
    rw [hd.readFile_eq hr] at hrun
    obtain ⟨⟨k, m⟩, hraw, -⟩ := bind_eq_ok.mp hrun
    rw [httbr0] at hraw ⊢
    exact h.rawCopies_inPage hraw

theorem bufferAccesses_inPage (hrun : syscallHandler L tf call s = .ok r) : InPage (bufferAccesses s call) := by
  cases call
  case write buffer size =>
    refine .cons (fun hn hva => ?_) .nil
    have hpos : 0 < size := Int.lt_toNat.mp (Nat.pos_of_ne_zero hn)
    dsimp only [syscallHandler] at hrun
    rw [if_pos hpos] at hrun
    obtain ⟨a, ha, -⟩ := bind_eq_ok.mp hrun
    exact h.resolve_inPage httbr0 ha hva
  case readFile fd buffer size =>
    obtain ⟨⟨k, u⟩, hread, -⟩ := bind_eq_ok.mp hrun
    exact h.readFile_inPage httbr0 hread
  case readRootDirectory buffer =>
    obtain ⟨⟨k, u⟩, hread, -⟩ := bind_eq_ok.mp hrun
    obtain ⟨m, hcopy, -⟩ := bind_eq_ok.mp hread
    rw [httbr0] at hcopy
    exact .cons (fun hn hva => h.copyOut_inPage hva hcopy hn) .nil
  all_goals exact .nil

theorem accesses_inPage (hrun : systemCallRegs s L x0 x1 x8 = .ok r) : InPage (accesses s x0 x1 x8) := by
  obtain ⟨call, hcall, hrun⟩ := bind_eq_ok.mp hrun
  obtain ⟨r', hhandler, -⟩ := bind_eq_ok.mp hrun
  unfold decode at hcall
  unfold accesses
  split at hcall
  · rename_i hinvalid
    rw [if_pos hinvalid]
    exact .nil
  · rename_i hvalid
    rw [if_neg hvalid, hcall]
    have harguments := argumentAccesses_resolve (InvalidSvc.le hvalid) hcall
    have hname := nameAccesses_resolve hcall
    have hbuffers := h.bufferAccesses_inPage httbr0 hhandler
    exact ((h.resolves_inPage httbr0 harguments).append (h.resolves_inPage httbr0 hname)).append hbuffers

end MapsUser

/-! ## Over a run -/

/-- A call that the registers ask for is a step. -/
theorem systemCallRegs_step (hen : ¬s.inKernel ∧ s.current ≠ idle) (h : systemCallRegs s L x0 x1 x8 = .ok r) :
    ∃ call, decode s x0 x1 x8 = .ok call ∧ Step L s ⟨s.current, .svc call, r.1⟩ r.2 := by
  obtain ⟨call, hcall, hrun⟩ := bind_eq_ok.mp h
  exact ⟨call, hcall, rfl, hen, hrun⟩

/-- The first process writes the address of a page of its tables, and the number 8, to its user page. -/
def pointerEvents : List Event :=
  [.timer false, .store 0x401002 0x20, .store 0x401003 0x2f, .store 0x401006 0xff, .store 0x401007 0xff,
    .store 0x401008 8]

/-- With its arguments at 0x401000 the process makes the system call `x8`: it returns, one of its accesses is the one
to the `n` bytes of the page, and `P` holds of the memory after it. -/
def UsesKernelPage (t : Kernel) (x8 : BitVec 64) (n : Nat) (P : Mem → Prop) : Prop :=
  ∃ ret u, systemCallRegs t smallLayout 2 0x401000 x8 = .ok (some ret, u) ∧
    (smallPmd, n) ∈ accesses t 2 0x401000 x8 ∧ P u.memory.mem

/-- Computes `UsesKernelPage`. -/
def usesKernelPage (t : Kernel) (x8 : BitVec 64) (n : Nat) (P : Mem → Prop) [DecidablePred P] : Bool :=
  match systemCallRegs t smallLayout 2 0x401000 x8 with
  | .ok (some _, u) => decide ((smallPmd, n) ∈ accesses t 2 0x401000 x8 ∧ P u.memory.mem)
  | _ => false

theorem UsesKernelPage.of_run {t : Kernel} {x8 : BitVec 64} {n : Nat} {P : Mem → Prop} [DecidablePred P]
    (h : usesKernelPage t x8 n P = true) : UsesKernelPage t x8 n P := by
  unfold usesKernelPage at h
  split at h
  · rename_i ret u hr
    exact ⟨ret, u, hr, of_decide_eq_true h⟩
  · cases h

end ArmOs
