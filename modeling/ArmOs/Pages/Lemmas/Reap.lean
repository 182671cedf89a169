import ArmOs.Pages.Lemmas.Boot
import ArmOs.Pages.Lemmas.Steps

/-!
# Reaping

`wait` can free the pages of the process that it finds. So a process that sleeps in `wait` goes on when the one it waits
for has been killed, and reaps it.
-/

namespace ArmOs

open Lib

variable {L : Layout} {m : Mem} {s t : Kernel} {ls : List Label} {xs : List Nat}

theorem reaches_pageInv (hboot : boot L m = .ok s) (hfits : InitFits m)
    (hrun : Run (Guarded (fun _ l => l.event.UserPointers) (Step L)) s ls t) : Good t ∧ ∃ xs, PageInv L t xs := by
  refine hrun.invariant (I := fun u => Good u ∧ ∃ xs, PageInv L u xs)
    ⟨good_of_boot hboot, boot_pages hboot hfits⟩ ?_
  rintro a l b ⟨hg, ha⟩ ⟨hptr, hstep⟩
  exact ⟨hstep.good hg, hstep.pageInv hg ha hptr⟩

/-- `wait` can free the pages of the process that it finds. -/
theorem wait_returns (hs : Good s) (h : PageInv L s xs) (hc : s.current ≠ idle) (tf : Nat) (pid : Int) :
    ∃ r, wait L tf pid s = .ok r := by
  obtain ⟨q, lost, hq⟩ := hs.sched
  rcases hq.wait_eq (L := L) tf pid with ⟨ys, x, zs, u, hkill, -, -, -, hwait⟩ | ⟨-, hwait⟩
  · obtain ⟨-, hxi, hstate⟩ := (hq.queues.mem .kill x).mp (by simp [hkill])
    obtain ⟨M, N, hstack, hvm, -⟩ := h.freeProcess (x := x) ⟨hxi, by simp [Kernel.Live, hstate, ListId.state]⟩
    rw [hwait]
    exact bind_returns hstack (bind_returns hvm ⟨_, rfl⟩)
  · rw [hwait]
    exact returns_bind (sleep_returns hs hc (-3)) fun _ _ => ⟨_, rfl⟩

theorem sysWait_returns (hs : Good s) (h : PageInv L s xs) (hc : s.current ≠ idle) (tf : Nat) (pid : Int) :
    ∃ r, sysWait L tf pid s = .ok r := returns_bind (wait_returns hs h hc tf pid) fun _ _ => ⟨_, rfl⟩

/-- `wait` reaps a killed process with the pid. -/
theorem wait_reaps (hs : Good s) (h : PageInv L s xs) (hc : s.current ≠ idle) (tf : Nat) {pid : Int} {x : Proc}
    (hx : (s.proc x).state = .killed) (hpid : (s.proc x).pid = pid) :
    ∃ t q lost y ys zs, wait L tf pid s = .ok (true, t) ∧ Reaped L s t q lost pid y ys zs := by
  obtain ⟨q, lost, hq⟩ := hs.sched
  obtain ⟨⟨done, t⟩, hrun⟩ := wait_returns hs h hc tf pid
  rcases wait_ok hq hrun with ⟨rfl, y, ys, zs, hr⟩ | ⟨-, hnone⟩
  · exact ⟨t, q, lost, y, ys, zs, hrun, hr⟩
  · have hlost : x ∉ lost := fun hl => nomatch hx.symm.trans (hq.lostReady x hl).2.1
    have hidle : x ≠ idle := by
      rintro rfl
      rcases hq.idleState with h | h <;> exact nomatch hx.symm.trans h
    have hkill : x ∈ q .kill := (hq.queues.mem .kill x).mpr ⟨hlost, hidle, hx⟩
    exact absurd ((hs.procs.killed x hx).1.trans hpid) (hnone.none x hkill)

/-- A process that sleeps in `wait` for a process that was killed goes on, and reaps it. -/
theorem resume_reaps (hs : Good s) (h : PageInv L s xs) {tf : Nat} {pid : Int} {x : Proc}
    (hk : s.kont s.current = .wait tf pid) (hx : (s.proc x).state = .killed) (hpid : (s.proc x).pid = pid) :
    ∃ t y, Step L s ⟨s.current, .resume, some 0⟩ t ∧ (s.proc y).state = .killed ∧ (s.proc y).pid = pid ∧
      t.proc y = Process.zero ∧ (∀ j, j ≠ y → t.proc j = { s.proc j with next := (t.proc j).next }) ∧
      t.current = s.current ∧ t.fs = s.fs ∧ t.trace = s.trace ++ [.reap pid] := by
  have hc : s.current ≠ idle := fun he => by
    have hidle := hs.procs.kontIdle
    rw [← he, hk] at hidle
    cases hidle
  -- the state in which the loop of `wait` goes on
  have hpart : Part L s .resume s (s.setKont s.current .ret) := .resume s hc rfl
  have hptr : Event.UserPointers .resume := trivial
  obtain ⟨ys, hpages⟩ := (hpart.pageEffect h hs hptr).pageInv h
  obtain ⟨t, q, lost, y, as, bs, hwait, hr⟩ := wait_reaps (hpart.good hs) hpages hc tf hx hpid
  have hy : (s.proc y).pid = pid := (hs.procs.killed y hr.state).1.symm.trans hr.wait
  have hrun : exceptionHandler L (s.proc s.current).tf .resume s = .ok (returnX0 tf (some 0, t)) := by
    simp only [exceptionHandler, resume, hk, sysWait, hwait, ok_bind]
    rfl
  refine ⟨(returnX0 tf (some 0, t)).2, y, ⟨rfl, ?_, hrun⟩, hr.state, hy, hr.zero, hr.others, hr.current, hr.fs, ?_⟩
  · exact fun he => by rw [hk] at he; cases he
  · exact hr.trace.trans (by rw [← hy]; rfl)

/-- After a run of the small machine the current process sleeps in `wait`, for a process that was killed. -/
theorem small_reaps {events : List Event} {pid : Int} {x : Proc} (h : small events = some (ls, t))
    (hptr : ∀ ev ∈ events, ev.UserPointers) (hk : (t.kont t.current).waitedPid = some pid)
    (hx : (t.proc x).state = .killed) (hpid : (t.proc x).pid = pid) :
    ∃ u y, Step smallLayout t ⟨t.current, .resume, some 0⟩ u ∧ (t.proc y).state = .killed ∧ (t.proc y).pid = pid ∧
      u.proc y = Process.zero ∧ (∀ j, j ≠ y → u.proc j = { t.proc j with next := (u.proc j).next }) ∧
      u.current = t.current ∧ u.fs = t.fs ∧ u.trace = t.trace ++ [.reap pid] := by
  obtain ⟨s, hboot, hall⟩ := small_boot h
  obtain ⟨hgood, xs, hpages⟩ := reaches_pageInv hboot smallMem_fits (performAll_pointers hall hptr)
  obtain ⟨tf, hk⟩ := Kont.waitedPid_eq_some.mp hk
  exact resume_reaps hgood hpages hk hx hpid

end ArmOs
