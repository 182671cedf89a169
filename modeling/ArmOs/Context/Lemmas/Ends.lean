import ArmOs.Context.Lemmas.Turns
import ArmOs.Exec.Lemmas.Replace

/-!
# How a system call ends

A handler that returns has not switched, and one that does not return leaves its process asleep or killed. But for
`exec`, nothing is stored to the kernel stack, where the trap frame is, before the result.
-/

namespace ArmOs

open Lib

variable {L : Layout} {s t u : Kernel} {r : Option Int} {tf : Nat} {xs : List Nat} {E : Effects}
  {q : ListId → List Proc} {lost : Set Proc}

/-- What a system call may do, apart from returning: the pages of its process that it stores to, whether it can end the
process, and whether it can wait. -/
structure Effects where
  writes : PageKind → Prop
  ends : Prop
  waits : Prop

def Effects.none : Effects := ⟨fun _ => False, False, False⟩

def Effects.waiting : Effects := ⟨fun _ => False, False, True⟩

def Syscall.effects : Syscall → Effects
  | .readFile _ _ _ | .readRootDirectory _ => ⟨(· = .frame), False, False⟩
  | .exec _ => ⟨fun _ => True, True, False⟩
  | .exit => ⟨fun _ => False, True, False⟩
  | .wait _ | .sleep _ | .keyboardRead => .waiting
  | _ => .none

/-- `exit` leaves a killed process, and nothing in memory has changed. -/
theorem exit_killed (hq : SchedInv s q lost) (hc : s.current ≠ idle) (hrun : ArmOs.exit s = .ok t) :
    (t.proc s.current).state = .killed ∧ t.memory = s.memory := by
  obtain ⟨t', hrun', hsw⟩ := exit_spec hq hc
  obtain rfl := Except.ok.inj (hrun'.symm.trans hrun)
  have hne : t'.current ≠ s.current := by
    rw [exit_current hq hc hrun]
    apply headD_ne hc
    intro hmem
    obtain hmem | hmem := List.mem_append.mp hmem
    · exact hq.current_not_mem .ready hmem
    · exact hq.current_not_mem .wait (List.mem_filter.mp hmem).1
  refine ⟨?_, hsw.frame.memory⟩
  rw [hsw.state, if_neg hne.symm, if_pos rfl]

/-- A handler of the current process has returned the value in `r`, or it has switched to another process. It has had
no effects but `E`. -/
structure CallEnds (s : Kernel) (E : Effects) (r : Option Int) (t : Kernel) : Prop where
  back : r ≠ none → t.current = s.current ∧ t.kont s.current = s.kont s.current
  away : r = none → E.ends ∧ (t.proc s.current).state = .killed ∨
    E.waits ∧ t.Alive s.current ∧ t.kont s.current ≠ .ret ∧ t.memory = s.memory
  memory : ∀ k, ¬E.writes k → Mem.Same s.memory.mem t.memory.mem (s.pageOf s.current k) pageSize

namespace CallEnds

/-- The handler returns without any scheduling. -/
theorem same {v : Int} (h : SameSched s t)
    (hm : ∀ k, ¬E.writes k → Mem.Same s.memory.mem t.memory.mem (s.pageOf s.current k) pageSize) :
    CallEnds s E (some v) t where
  back _ := ⟨h.current, by rw [h.kont]⟩
  away hr := by cases hr
  memory := hm

theorem sameMemory {v : Int} (h : SameSched s t) (hm : t.memory = s.memory) : CallEnds s E (some v) t :=
  same h fun _ _ => by rw [hm]; exact .refl _ _ _

theorem asleep {w : Int} {c : Kont} (hE : E.waits) (hq : SchedInv s q lost) (hc : s.current ≠ idle) (hret : c ≠ .ret)
    (hrun : sleep w s = .ok t) : CallEnds s E none (t.setKont s.current c) := by
  obtain ⟨t', hrun', -, hsw⟩ := sleep_spec hq hc w
  obtain rfl := Except.ok.inj (hrun'.symm.trans hrun)
  have hmem : (t'.setKont s.current c).memory = s.memory := hsw.frame.memory
  have halive : t'.Alive s.current := by
    rw [Kernel.Alive, hsw.state, if_pos rfl]
    split <;> simp
  refine ⟨fun h => absurd rfl h, fun _ => .inr ⟨hE, halive, ?_, hmem⟩, fun k _ => ?_⟩
  · simpa [Kernel.setKont] using hret
  · rw [hmem]
    exact .refl _ _ _

/-- The process exits, in a state that differs from `s` in no way that matters to the scheduler. -/
theorem exited (hE : E.ends) (hsame : SameSched s u) (hq : SchedInv u q lost) (hc : s.current ≠ idle)
    (hrun : ArmOs.exit u = .ok t)
    (hm : ∀ k, ¬E.writes k → Mem.Same s.memory.mem u.memory.mem (s.pageOf s.current k) pageSize) :
    CallEnds s E none t := by
  rw [← hsame.current] at hc
  obtain ⟨hkilled, hmem⟩ := exit_killed hq hc hrun
  refine ⟨fun h => absurd rfl h, fun _ => .inl ⟨hE, ?_⟩, fun k hk => ?_⟩
  · rw [← hsame.current]
    exact hkilled
  · rw [hmem]
    exact hm k hk

end CallEnds

/-! ## Handlers -/

section

variable (h : PageInv L s xs) (hs : Good s) (hc : s.current ≠ idle)

include h hs hc

theorem sysWait_ends {pid : Int} (hE : E.waits) (hrun : sysWait L tf pid s = .ok (r, t)) : CallEnds s E r t := by
  obtain ⟨q, lost, hq⟩ := hs.sched
  obtain ⟨⟨done, t'⟩, hwait, hrun⟩ := bind_eq_ok.mp hrun
  cases hrun
  cases wait_ok hq hwait with
  | inl hreap =>
      obtain ⟨rfl, x, ys, zs, hr⟩ := hreap
      have hx : x ≠ idle := fun he => hq.queues.idle_not_mem .kill (by rw [hr.list, ← he]; simp)
      obtain ⟨hxu, -, honly⟩ := h.reaped_memory hx hr
      have hne : s.current ≠ x := by
        intro he
        have hrunning := hq.current_state
        rw [he, hr.state] at hrunning
        cases hrunning
      refine ⟨fun _ => ⟨hr.current, by rw [hr.kont]⟩, fun h => (by cases h), fun k _ => ?_⟩
      apply honly.same (h.pagesOf hxu).1 (h.page ⟨hc, hs.live⟩ k)
      intro hmem
      obtain ⟨k', hk'⟩ := Kernel.mem_pagesOf.mp hmem
      exact h.ne ⟨hc, hs.live⟩ hxu (.inl hne) hk'
  | inr hwait =>
      obtain ⟨rfl, hw⟩ := hwait
      obtain ⟨u, hsleep, rfl⟩ := hw.sleep
      exact .asleep hE hq hc (by simp) hsleep

omit h in
theorem sysSleepLoop_ends {oldTicks sleepTicks : Nat} (hE : E.waits)
    (hrun : sysSleepLoop tf oldTicks sleepTicks s = .ok (r, t)) : CallEnds s E r t := by
  obtain ⟨q, lost, hq⟩ := hs.sched
  unfold sysSleepLoop at hrun
  split at hrun
  · obtain ⟨u, hsleep, hrun⟩ := bind_eq_ok.mp hrun
    cases hrun
    exact .asleep hE hq hc (by simp) hsleep
  · cases hrun
    exact .sameMemory (.refl s) rfl

omit h in
theorem readKeyBuffer_ends {ch : Option UInt8} (hE : E.waits) (hrun : readKeyBuffer tf s = .ok (ch, t)) :
    CallEnds s E (ch.map fun c => (c.toNat : Int)) t := by
  obtain ⟨q, lost, hq⟩ := hs.sched
  unfold readKeyBuffer at hrun
  dsimp only at hrun
  split at hrun
  · obtain ⟨u, hsleep, hrun⟩ := bind_eq_ok.mp hrun
    cases hrun
    exact .asleep hE hq hc (by simp) hsleep
  · cases hrun
    exact .sameMemory (takeKey_same _ s) rfl

theorem fork_ends {v : Int} (hrun : ArmOs.fork L s = .ok (v, t)) : CallEnds s E (some v) t := by
  obtain ⟨q, lost, hq⟩ := hs.sched
  obtain ⟨i, stack, pgd, pud, pmd, frame, ys, rfl, hforked, hf⟩ := h.fork hq hs.procs hc hrun
  have hne : s.current ≠ i := fun he => hs.live (he ▸ hforked.unused)
  have hsub : [stack, pgd, frame, pud, pmd] ⊆ stack :: pgd :: frame :: pud :: pmd :: ys := by simp
  have hu : s.IsUser s.current := ⟨hc, hs.live⟩
  refine ⟨fun _ => ⟨hforked.current, ?_⟩, fun h => (by cases h), fun k _ => ?_⟩
  · rw [hforked.kont, Function.update_of_ne hne]
  · apply hf.only.same (fun v hv => h.freePages v (hsub hv)) (h.page hu k)
    exact fun hmem => h.not_free hu k (hsub hmem)

omit h in
/-- `exec` returns with a trap frame that it has made, or the process is gone. -/
theorem exec_ends {path : Nat → UInt8} (hrun : ArmOs.exec s.current path s = .ok (r, t)) :
    CallEnds s (Syscall.exec path).effects r t ∧
      (r ≠ none → r = some 0 ∧ ∃ m, t.memory.mem = startFrame m (s.proc s.current).tf) := by
  have hopen := openFile_same s.current path s
  -- whatever has been stored so far, the process is still there for `exit`
  have hexited : ∀ {u v}, SameSched s u → ArmOs.exit u = .ok v → CallEnds s (Syscall.exec path).effects none v := by
    intro u v hsame hexit
    obtain ⟨q, lost, hq⟩ := (hs.ofSame hsame).sched
    exact .exited trivial hsame hq hc hexit fun k hk => absurd trivial hk
  unfold ArmOs.exec at hrun
  generalize openFile s.current path s = r₁ at hrun hopen
  obtain ⟨fd, s₁⟩ := r₁
  dsimp only at hrun hopen
  split at hrun
  · obtain ⟨u, hexit, hrun⟩ := bind_eq_ok.mp hrun
    cases hrun
    exact ⟨hexited hopen hexit, fun hne => absurd rfl hne⟩
  · obtain ⟨dst, hdst, hrun⟩ := bind_eq_ok.mp hrun
    obtain ⟨size, hsize, hrun⟩ := bind_eq_ok.mp hrun
    obtain ⟨⟨readSize, s₃⟩, hread, hrun⟩ := bind_eq_ok.mp hrun
    have hsame := (hopen.trans (.setMem s₁ _)).trans (readFile_same hread)
    dsimp only at hrun
    split at hrun
    · obtain ⟨u, hexit, hrun⟩ := bind_eq_ok.mp hrun
      cases hrun
      exact ⟨hexited hsame hexit, fun hne => absurd rfl hne⟩
    · obtain ⟨s₄, hclose, hrun⟩ := bind_eq_ok.mp hrun
      cases hrun
      have hlast := hsame.trans (closeFile_same hclose)
      refine ⟨.same (hlast.trans (.setMem s₄ _)) fun k hk => absurd trivial hk, fun _ => ⟨rfl, s₄.memory.mem, ?_⟩⟩
      rw [← hlast.tf]
      rfl

/-- The frame of the user page is one page, and its owner's only page that a read stores to. -/
theorem PageInv.read_ends {v : Int} (hE : E.writes = (· = .frame)) (hsame : SameSched s t)
    (honly : OnlyIn [s.pageOf s.current .frame] s.memory.mem t.memory.mem) :
    CallEnds s E (some v) t := by
  have hu : s.IsUser s.current := ⟨hc, hs.live⟩
  refine .same hsame fun k hk => honly.same (fun v hv => ?_) (h.page hu k) fun hmem => ?_
  · rw [List.mem_singleton.mp hv]
    exact h.page hu .frame
  · rw [hE] at hk
    exact h.ne hu hu (.inr hk) (List.mem_singleton.mp hmem)

theorem syscallHandler_ends {call : Syscall} (hptr : (Event.svc call).UserPointers)
    (hrun : syscallHandler L tf call s = .ok (r, t)) : CallEnds s call.effects r t := by
  obtain ⟨q, lost, hq⟩ := hs.sched
  cases call with
  | write buffer size =>
      dsimp only [syscallHandler] at hrun
      split at hrun
      · obtain ⟨_, _, hrun⟩ := bind_eq_ok.mp hrun
        cases hrun
        exact .sameMemory (.refl s) rfl
      · cases hrun
        exact .sameMemory (.refl s) rfl
  | sleep ticks => exact sysSleepLoop_ends hs hc trivial hrun
  | exit =>
      obtain ⟨u, hexit, hrun⟩ := bind_eq_ok.mp hrun
      cases hrun
      exact .exited trivial (.refl s) hq hc hexit fun _ _ => .refl _ _ _
  | wait pid => exact sysWait_ends h hs hc trivial hrun
  | openFile path =>
      have hsame := openFile_same s.current path s
      have hmem := openFile_memory s.current path s
      dsimp only [syscallHandler] at hrun
      generalize openFile s.current path s = r₁ at hrun hsame hmem
      cases hrun
      exact .sameMemory hsame hmem
  | closeFile fd =>
      obtain ⟨u, hclose, hrun⟩ := bind_eq_ok.mp hrun
      cases hrun
      exact .sameMemory (closeFile_same hclose) (closeFile_memory hclose)
  | getFileSize fd =>
      obtain ⟨_, _, hrun⟩ := bind_eq_ok.mp hrun
      cases hrun
      exact .sameMemory (.refl s) rfl
  | readFile fd buffer size =>
      obtain ⟨⟨n, u⟩, hread, hrun⟩ := bind_eq_ok.mp hrun
      cases hrun
      exact h.read_ends hs hc rfl (readFile_same hread) (readFile_onlyIn h hs hc hptr hread).1
  | fork =>
      obtain ⟨⟨pid, u⟩, hfork, hrun⟩ := bind_eq_ok.mp hrun
      cases hrun
      exact fork_ends h hs hc hfork
  | getpid =>
      cases hrun
      exact .sameMemory (.refl s) rfl
  | exec path =>
      dsimp only [syscallHandler] at hrun
      exact (exec_ends hs hc hrun).1
  | keyboardRead =>
      obtain ⟨⟨ch, u⟩, hread, hrun⟩ := bind_eq_ok.mp hrun
      cases hrun
      exact readKeyBuffer_ends hs hc trivial hread
  | readRootDirectory buffer =>
      obtain ⟨⟨n, u⟩, hread, hrun⟩ := bind_eq_ok.mp hrun
      cases hrun
      exact h.read_ends hs hc rfl (readRootDirectory_same hread) (readRootDirectory_onlyIn h hs hc hptr hread).1
  | invalid =>
      cases hrun
      exact .sameMemory (.refl s) rfl

end

end ArmOs
