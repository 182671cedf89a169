import ArmOs.Sched.Lemmas.Parts

/-!
# Reachable states

The kernel is in order after its start, and stays so as long as the pids fit in an `int`. The pid counter
tells how many processes were created.
-/

namespace ArmOs

open Lib

variable {L : Layout} {m : Mem} {s t : Kernel} {ls : List Label}

theorem Booted.live {i : Proc} {q : ListId → List Proc} {lost : Set Proc} (hb : Booted t i)
    (hq : SchedInv t q lost) (j : Proc) : t.Live j ↔ j = i ∨ j = idle := by
  constructor
  · intro hj
    by_contra hne
    rw [not_or] at hne
    exact hj (hb.others j hne.1 hne.2)
  · rintro (rfl | rfl)
    · simp [Kernel.Live, hb.state]
    · rcases hq.idleState with h' | h' <;> simp [Kernel.Live, h']

theorem good_of_boot (h : boot L m = .ok t) : Good t := by
  obtain ⟨i, q, hi, hq, hb⟩ := boot_spec h
  have hkilled : ∀ j, (t.proc j).state ≠ .killed := by
    intro j hj
    rcases (hb.live hq j).mp (by simp [Kernel.Live, hj]) with rfl | rfl
    · rw [hb.state] at hj
      cases hj
    · rcases hq.idleState with h' | h' <;> rw [hj] at h' <;> cases h'
  refine ⟨⟨q, _, hq⟩, fun j hj => absurd hj (hkilled j), ?_, ?_, hb.kont idle, hb.tf⟩
  · intro j tf p hk
    rw [hb.kont] at hk
    cases hk
  · intro j _
    rw [hb.kont]
    trivial

theorem pids_of_boot (h : boot L m = .ok t) : PidInv t ∧ t.pidNum = 2 := by
  obtain ⟨i, q, hi, hq, hb⟩ := boot_spec h
  obtain ⟨os, hos, hkey⟩ := hb.trace
  have hreap : ∀ p, .reap p ∉ t.trace := by
    intro p hp
    rw [hos] at hp
    rcases List.mem_append.mp hp with hp | hp
    · exact hkey _ hp
    · simp at hp
  refine ⟨⟨?_, ?_, ?_, fun p hp => absurd hp (hreap p), ?_⟩, hb.pidNum⟩
  · intro j hj hl
    obtain rfl := ((hb.live hq j).mp hl).resolve_right hj
    simp [hb.pid]
  · intro j hl
    rw [hb.pidNum]
    rcases (hb.live hq j).mp hl with rfl | rfl
    · simp [hb.pid]
    · simp [hb.idlePid]
  · intro j k hj hk hp
    rcases (hb.live hq j).mp hj with rfl | rfl <;> rcases (hb.live hq k).mp hk with rfl | rfl
    · rfl
    · rw [hb.pid, hb.idlePid] at hp
      cases hp
    · rw [hb.pid, hb.idlePid] at hp
      cases hp
    · rfl
  · rw [reaps_eq_nil hreap]
    exact List.nodup_nil

/-- Every reachable state is in order. -/
theorem Reaches.good (h : Reaches L m ls t) : Good t := by
  obtain ⟨s, hboot, hrun⟩ := h
  exact hrun.invariant (good_of_boot hboot) fun _ _ _ hg hstep => hstep.good hg

/-! ## How many processes were created -/

def Event.isFork : Event → Bool
  | .svc .fork => true
  | _ => false

theorem Event.isFork_iff {ev : Event} : ev.isFork = true ↔ ev = .svc .fork := by
  constructor
  · intro h
    unfold Event.isFork at h
    split at h
    · rfl
    · cases h
  · rintro rfl
    rfl

/-- The number of processes created in a run: the first by `init_process`, one by each `fork`. -/
def created (ls : List Label) : Nat := 1 + ls.countP fun l => l.event.isFork

theorem created_snoc (ls : List Label) (l : Label) :
    created (ls ++ [l]) = created ls + if l.event.isFork then 1 else 0 := by
  simp only [created, List.countP_append, List.countP_cons, List.countP_nil]
  omega

/-- Only `fork` changes the pid counter. -/
theorem Part.pids {o : Kernel} {ev : Event} (h : Good s) (hp : Part L o ev s t) (hev : ev ≠ .svc .fork) (hs : PidInv s) :
    PidInv t ∧ t.pidNum = s.pidNum := by
  obtain ⟨q, lost, hq⟩ := h.sched
  have hsame : ∀ {t}, SameSched s t → PidInv t ∧ t.pidNum = s.pidNum := fun h =>
    ⟨hs.ofSame h, h.pidNum⟩
  have hframe : ∀ {t}, SchedFrame s t → PidInv t ∧ t.pidNum = s.pidNum := fun h =>
    ⟨hs.ofFrame h, h.pidNum⟩
  cases hp with
  | tick _ n => exact hsame (.ofRest s _ _ _ _)
  | writeKey _ ch => exact hsame (writeKeyBuffer_same ch s)
  | wakeUp hrun =>
      obtain ⟨t', hrun', hw⟩ := wakeUp_spec hq.queues _
      obtain rfl := Except.ok.inj (hrun'.symm.trans hrun)
      exact hframe hw.frame
  | yield hrun =>
      obtain ⟨t', q', lost', hrun', -, -, hsw⟩ := yield_spec hq
      obtain rfl := Except.ok.inj (hrun'.symm.trans hrun)
      exact hframe hsw.frame
  | @sleep _ t w k hm hrun =>
      obtain ⟨t', hrun', -, hsw⟩ := sleep_spec hq hm.notIdle w
      obtain rfl := Except.ok.inj (hrun'.symm.trans hrun)
      obtain ⟨hp, hnum⟩ := hframe hsw.frame
      exact ⟨⟨hp.pos, hp.lt, hp.inj, hp.reaped, hp.reapOnce⟩, hnum⟩
  | exit hc hk hrun =>
      obtain ⟨t', hrun', hsw⟩ := exit_spec hq hc
      obtain rfl := Except.ok.inj (hrun'.symm.trans hrun)
      exact ⟨(hs.observeExit _).ofFrame hsw.frame, hsw.frame.pidNum⟩
  | resume _ hc => exact ⟨⟨hs.pos, hs.lt, hs.inj, hs.reaped, hs.reapOnce⟩, rfl⟩
  | reap hc hat hrun =>
      rcases wait_ok hq hrun with ⟨-, x, ys, zs, hr⟩ | ⟨hf, -⟩
      · exact ⟨hs.ofReap h.procs hr, hr.pidNum⟩
      · cases hf
  | fork hc hev' => exact absurd hev' hev
  | openFile path hc => exact hsame (openFile_same _ path _)
  | closeFile hc hev' hrun => exact hsame (closeFile_same hrun)
  | readFile hc hrun hev' => exact hsame (readFile_same hrun)
  | readRoot hc hev' hrun => exact hsame (readRootDirectory_same hrun)
  | @takeKey _ front hc htake => exact hsame (takeKey_same front s)
  | setX0 _ v hc => exact hsame (.setMem s _)
  | clearUser hc hdst => exact hsame (.setMem s _)
  | newFrame _ hc => exact hsame (.setMem s _)
  | store hc hev' hva hwalk => exact hsame (.setMem s _)

/-- `fork` counts one process. -/
theorem Step.pids_fork {ret : Option Int} {actor : Proc} (h : Good s) (hs : PidInv s)
    (hpid : s.pidNum + 1 < 2 ^ 31) (hstep : Step L s ⟨actor, .svc .fork, ret⟩ t) :
    PidInv t ∧ t.pidNum = s.pidNum + 1 := by
  obtain ⟨q, lost, hq⟩ := h.sched
  obtain ⟨-, -, hrun⟩ := hstep
  obtain ⟨r, hcall, hrun⟩ := bind_eq_ok.mp hrun
  obtain ⟨⟨pid, u⟩, hfork, hcall⟩ := bind_eq_ok.mp hcall
  obtain ⟨i, hf, -, -⟩ := fork_spec hq hfork
  obtain ⟨hu, hnum⟩ := hs.ofFork hq hpid hf
  have hsame : SameSched u t := by
    have h₁ := pure_eq_ok.mp hcall
    have h₂ := pure_eq_ok.mp hrun
    rw [← h₁] at h₂
    rw [← (Prod.mk.inj h₂).2]
    exact .setMem u _
  exact ⟨hu.ofSame hsame, hsame.pidNum.trans hnum⟩

theorem Step.pids {l : Label} (h : Good s) (hs : PidInv s)
    (hpid : l.event.isFork = true → s.pidNum + 1 < 2 ^ 31) (hstep : Step L s l t) :
    PidInv t ∧ t.pidNum = s.pidNum + if l.event.isFork then 1 else 0 := by
  obtain ⟨actor, ev, ret⟩ := l
  by_cases hev : ev = .svc .fork
  · subst hev
    exact hstep.pids_fork h hs (hpid rfl)
  · have hfork : ev.isFork = false := by
      rw [Bool.eq_false_iff]
      exact fun h => hev (Event.isFork_iff.mp h)
    obtain ⟨-, h₁, h₂⟩ := hstep.preserves (I := fun u => PidInv u ∧ u.pidNum = s.pidNum)
      (fun a b ha hp hi => by
        obtain ⟨h₁, h₂⟩ := hp.pids ha hev hi.1
        exact ⟨h₁, h₂.trans hi.2⟩) h ⟨hs, rfl⟩
    exact ⟨h₁, by simp [h₂, hfork]⟩

/-- Along a run with fewer than `2 ^ 31 - 1` processes, pids name processes. -/
theorem Reaches.pids (h : Reaches L m ls t) (hc : created ls < 2 ^ 31 - 1) : PidInv t := by
  obtain ⟨s, hboot, hrun⟩ := h
  obtain ⟨hpids, hnum⟩ := pids_of_boot hboot
  have key := hrun.history (I := fun ls t => created ls < 2 ^ 31 - 1 →
    Good t ∧ PidInv t ∧ t.pidNum = created ls + 1) ?_ ?_
  · exact (key hc).2.1
  · exact fun _ => ⟨good_of_boot hboot, hpids, by simp [hnum, created]⟩
  · intro hs a l b ih hstep hlt
    rw [created_snoc] at hlt
    obtain ⟨ha, hpa, hnum⟩ := ih (by omega)
    obtain ⟨hpb, hnum'⟩ := hstep.pids ha hpa fun hfork => by
      rw [if_pos hfork] at hlt
      omega
    refine ⟨hstep.good ha, hpb, ?_⟩
    rw [hnum', hnum, created_snoc]
    split <;> simp

end ArmOs
