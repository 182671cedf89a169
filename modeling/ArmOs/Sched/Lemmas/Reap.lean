import ArmOs.Sched.Lemmas.Create

/-!
# One round of `wait`

Either the first process of `kill_list` with the event value is reaped, or there is none and the caller goes
to sleep.
-/

namespace ArmOs

open Lib

variable {L : Layout}

/-- `wait` reaped the process `x`, which was on `kill_list` between `ys` and `zs`. -/
structure Reaped (L : Layout) (s t : Kernel) (q : ListId → List Proc) (lost : Set Proc) (pid : Int)
    (x : Proc) (ys zs : List Proc) : Prop where
  list : q .kill = ys ++ x :: zs
  before : ∀ y ∈ ys, (s.proc y).wait ≠ pid
  wait : (s.proc x).wait = pid
  state : (s.proc x).state = .killed
  zero : t.proc x = Process.zero
  others : ∀ j, j ≠ x → t.proc j = { s.proc j with next := (t.proc j).next }
  trace : t.trace = s.trace ++ [.reap (s.proc x).pid]
  current : t.current = s.current
  pidNum : t.pidNum = s.pidNum
  kont : t.kont = s.kont
  fs : t.fs = s.fs
  keyBuffer : t.keyBuffer = s.keyBuffer
  memory : ∃ M, kfree L (s.proc x).stack s.memory = .ok M ∧ freeVm L (s.proc x).pageMap M = .ok t.memory
  inv : SchedInv t (Function.update q .kill (ys ++ zs)) lost

theorem SchedInv.reap {s t : Kernel} {q : ListId → List Proc} {lost : Set Proc} {x : Proc}
    {ys zs : List Proc} {pid : Int} {M N : Memory} (h : SchedInv s q lost) (hq : q .kill = ys ++ x :: zs)
    (hys : ∀ y ∈ ys, (s.proc y).wait ≠ pid) (hx : (s.proc x).wait = pid)
    (hkfree : kfree L (s.proc x).stack s.memory = .ok M)
    (hfree : freeVm L (s.proc x).pageMap M = .ok N)
    {u : Kernel} (hrun : s.removeWait .kill pid = .ok (.item x, u))
    (ht : t = { (u.observe (.reap (u.proc x).pid)).setProc x Process.zero with memory := N }) :
    Reaped L s t q lost pid x ys zs := by
  obtain ⟨u', hrun', hqu, hlinks, htr⟩ := h.queues.removeWait_match hq hys hx
  obtain rfl : u' = u := by
    have := hrun'.symm.trans hrun
    cases this
    rfl
  have hmem := (h.queues.mem .kill x).mp (by simp [hq])
  have hself : t.proc x = Process.zero := by
    rw [ht]
    exact Kernel.setProc_self _ _ _
  have hothers : ∀ j, j ≠ x → t.proc j = u'.proc j := by
    intro j hj
    rw [ht]
    exact Kernel.setProc_ne _ _ _ _ hj
  have hcur : t.current = s.current := by rw [← hlinks.current, ht]; rfl
  have hne : s.current ≠ x := by
    rintro rfl
    exact h.current_not_mem .kill (by simp [hq])
  have htrace : t.trace = s.trace ++ [.reap (s.proc x).pid] := by
    rw [ht, ← htr, ← hlinks.pid]
    rfl
  have hq' : Queues t (Function.update q .kill (ys ++ zs)) lost := by
    rw [ht]
    have := hqu.setProc_out (Set.mem_insert x lost) Process.zero
    refine (this.release (.inr ?_)).congr (fun _ => rfl) (fun _ => rfl) fun _ => rfl
    intro l
    rw [Kernel.proc, Kernel.setProc_self]
    cases l <;> simp [ListId.state, Process.zero]
  refine ⟨hq, hys, hx, hmem.2.2, hself, ?_, htrace, hcur, ?_, ?_, ?_, ?_, ?_, hq', ?_, ?_,
    ?_, ?_, ?_, ?_, ?_⟩
  · intro j hj
    rw [hothers j hj, hlinks.proc]
  · rw [ht, ← hlinks.pidNum]
    rfl
  · rw [ht, ← hlinks.kont]
    rfl
  · rw [ht, ← hlinks.fs]
    rfl
  · rw [ht, ← hlinks.keyBuffer]
    rfl
  · refine ⟨M, hkfree, ?_⟩
    rw [ht]
    exact hfree
  · intro i hi
    have hix : i ≠ x := by rintro rfl; exact hmem.1 hi
    rw [hothers i hix, hlinks.state, hlinks.pid]
    exact h.lostReady i hi
  · rw [hothers idle hmem.2.1.symm, hlinks.pid]
    exact h.idlePid
  · intro i
    rw [hcur, ← h.running i]
    by_cases hi : i = x
    · subst hi
      rw [hself, hmem.2.2]
      simp [Process.zero, ListId.state]
    · rw [hothers i hi, hlinks.state]
  · rw [hothers idle hmem.2.1.symm, hlinks.state]
    exact h.idleState
  · have httbr : t.ttbr0 = s.ttbr0 := by
      rw [ht, ← hlinks.ttbr0]
      rfl
    rw [httbr, hcur, hothers _ hne, hlinks.proc]
    exact h.ttbr0
  · rw [htrace, readyOps_append, show readyOps [.reap (s.proc x).pid] = [] by rfl, List.append_nil]
    simpa using h.fifo
  · intro p hp
    rw [htrace] at hp
    simp [h.noSelf p] at hp

/-- `wait` found nothing to reap: `t` is the state after the caller went to sleep. -/
structure Waiting (s t : Kernel) (q : ListId → List Proc) (tf : Nat) (pid : Int) : Prop where
  none : ∀ y ∈ q .kill, (s.proc y).wait ≠ pid
  sleep : ∃ u, ArmOs.sleep (-3) s = .ok u ∧ t = u.setKont s.current (.wait tf pid)

/-- The first element with a property splits the list. -/
theorem exists_first {α : Type} {p : α → Prop} [DecidablePred p] {xs : List α} (h : ∃ x ∈ xs, p x) :
    ∃ ys x zs, xs = ys ++ x :: zs ∧ (∀ y ∈ ys, ¬p y) ∧ p x := by
  obtain ⟨x, hx⟩ := Option.isSome_iff_exists.mp
    (List.find?_isSome.mpr (by simpa using h) : (xs.find? fun x => p x).isSome)
  obtain ⟨hp, ys, zs, hxs, hys⟩ := List.find?_eq_some_iff_append.mp hx
  exact ⟨ys, x, zs, hxs, by simpa using hys, by simpa using hp⟩

/-- One round of `wait`: it frees the pages of the first process with the event value, or the caller goes to sleep. -/
theorem SchedInv.wait_eq {s : Kernel} {q : ListId → List Proc} {lost : Set Proc} (h : SchedInv s q lost) (tf : Nat)
    (pid : Int) :
    (∃ ys x zs u, q .kill = ys ++ x :: zs ∧ (∀ y ∈ ys, (s.proc y).wait ≠ pid) ∧ (s.proc x).wait = pid ∧
      s.removeWait .kill pid = .ok (.item x, u) ∧ wait L tf pid s = (do
        let M ← kfree L (s.proc x).stack s.memory
        let N ← freeVm L (s.proc x).pageMap M
        return (true, { (u.observe (.reap (u.proc x).pid)).setProc x Process.zero with memory := N }))) ∨
    ((∀ y ∈ q .kill, (s.proc y).wait ≠ pid) ∧ wait L tf pid s = (do
      let u ← sleep (-3) s
      return (false, u.setKont s.current (.wait tf pid)))) := by
  by_cases hex : ∃ x ∈ q .kill, (s.proc x).wait = pid
  · obtain ⟨ys, x, zs, hq, hys, hx⟩ := exists_first hex
    obtain ⟨u, hremove, -, hlinks, -⟩ := h.queues.removeWait_match hq hys hx
    have hempty : isListEmpty s.pc.killList = false :=
      (h.queues.represents .kill).isListEmpty_eq.trans (by rw [hq]; cases ys <;> rfl)
    obtain ⟨-, -, hstate⟩ := (h.queues.mem .kill x).mp (by simp [hq])
    have hkilled : (u.proc x).state = .killed := by rw [hlinks.proc]; exact hstate
    have hstack : (u.proc x).stack = (s.proc x).stack := by rw [hlinks.proc]
    have hmap : (u.proc x).pageMap = (s.proc x).pageMap := by rw [hlinks.proc]
    refine .inl ⟨ys, x, zs, u, hq, hys, hx, hremove, ?_⟩
    simp only [wait, hempty, Bool.false_eq_true, if_false, hremove, ok_bind, ASSERT, require_of hkilled, hstack, hmap,
      hlinks.memory]
  · have hnone : ∀ y ∈ q .kill, (s.proc y).wait ≠ pid := by simpa using hex
    have hremove := h.queues.removeWait_none hnone
    refine .inr ⟨hnone, ?_⟩
    by_cases hempty : isListEmpty s.pc.killList = true
    · simp only [wait, hempty, if_true, pure, Except.pure, ok_bind]
    · simp only [wait, hempty, hremove, ok_bind]
      rfl

theorem wait_ok {s t : Kernel} {q : ListId → List Proc} {lost : Set Proc} {tf : Nat} {pid : Int}
    {done : Bool} (h : SchedInv s q lost) (hrun : wait L tf pid s = .ok (done, t)) :
    (done = true ∧ ∃ x ys zs, Reaped L s t q lost pid x ys zs) ∨ (done = false ∧ Waiting s t q tf pid) := by
  rcases h.wait_eq (L := L) tf pid with ⟨ys, x, zs, u, hq, hys, hx, hremove, hwait⟩ | ⟨hnone, hwait⟩
  · rw [hwait] at hrun
    obtain ⟨M, hM, hrun⟩ := bind_eq_ok.mp hrun
    obtain ⟨N, hN, hrun⟩ := bind_eq_ok.mp hrun
    cases hrun
    exact .inl ⟨rfl, x, ys, zs, h.reap hq hys hx hM hN hremove rfl⟩
  · rw [hwait] at hrun
    obtain ⟨u, hu, hrun⟩ := bind_eq_ok.mp hrun
    cases hrun
    exact .inr ⟨rfl, hnone, u, hu, rfl⟩

end ArmOs
