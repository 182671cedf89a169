import ArmOs.Sched.Lemmas.Parts

/-!
# A killed process stays killed

No part of a step takes a process from `kill_list` but the `wait` that reaps it. Until then it is not dispatched.
-/

namespace ArmOs

open Lib

variable {L : Layout} {s t o : Kernel} {ev : Event} {q q' : ListId → List Proc} {lost lost' : Set Proc} {c : Proc}
  {ls : List Label}

theorem SchedInv.mem_kill (h : SchedInv s q lost) (c : Proc) : c ∈ q .kill ↔ (s.proc c).state = .killed := by
  rw [h.queues.mem]
  refine ⟨fun hc => hc.2.2, fun hc => ⟨fun hl => ?_, fun hi => ?_, hc⟩⟩
  · rw [(h.lostReady c hl).2.1] at hc
    cases hc
  · rw [hi] at hc
    rcases h.idleState with hs | hs <;> rw [hs] at hc <;> cases hc

/-- `t` comes after `s`, and the processes that are killed in `s` are so in `t` or have been reaped since. -/
structure KeepsKilled (s t : Kernel) : Prop where
  kept : ∃ os, t.trace = s.trace ++ os ∧ ∀ c, (s.proc c).state = .killed →
    (t.proc c).state = .killed ∧ (t.proc c).pid = (s.proc c).pid ∨ .reap (s.proc c).pid ∈ os

namespace KeepsKilled

theorem refl (s : Kernel) : KeepsKilled s s := ⟨[], (List.append_nil _).symm, fun _ hc => .inl ⟨hc, rfl⟩⟩

theorem trans {u : Kernel} (h : KeepsKilled s t) (h' : KeepsKilled t u) : KeepsKilled s u := by
  obtain ⟨os, htr, hk⟩ := h.kept
  obtain ⟨os', htr', hk'⟩ := h'.kept
  refine ⟨os ++ os', by rw [htr', htr, List.append_assoc], fun c hc => ?_⟩
  cases hk c hc with
  | inl hkilled =>
      rw [← hkilled.2]
      exact (hk' c hkilled.1).imp_right (List.mem_append_right os)
  | inr hreaped => exact .inr (List.mem_append_left os' hreaped)

theorem ofSame (h : SameSched s t) : KeepsKilled s t := by
  obtain ⟨os, htr, -⟩ := h.trace
  refine ⟨os, htr, fun c hc => .inl ?_⟩
  rw [h.proc c (Set.notMem_empty c)]
  exact ⟨hc, rfl⟩

/-- The processes on `kill_list` are still there. -/
theorem ofKillList (hq : SchedInv s q lost) (htr : ∃ os, t.trace = s.trace ++ os)
    (hkill : ∀ c ∈ q .kill, (t.proc c).state = .killed) (hpid : ∀ c, (t.proc c).pid = (s.proc c).pid) :
    KeepsKilled s t := by
  obtain ⟨os, htr⟩ := htr
  exact ⟨os, htr, fun c hc => .inl ⟨hkill c ((hq.mem_kill c).mpr hc), hpid c⟩⟩

theorem ofSwitched {st : Proc → ProcState} {wt : Proc → Int} (hq : SchedInv s q lost)
    (hsw : Switched s t q' lost' st wt) (hkill : q .kill ⊆ q' .kill) : KeepsKilled s t := by
  obtain ⟨os, htr, -⟩ := hsw.frame.trace
  exact .ofKillList hq ⟨os, htr⟩ (fun c hc => (hsw.inv.mem_kill c).mp (hkill hc)) hsw.frame.pid

end KeepsKilled

theorem Part.keepsKilled (h : Good s) (hp : Part L o ev s t) : KeepsKilled s t := by
  obtain ⟨q, lost, hq⟩ := h.sched
  have hrest : ∀ {u : Kernel}, u.processTable = s.processTable → u.trace = s.trace → KeepsKilled s u := by
    intro u hproc htr
    refine ⟨[], htr.trans (List.append_nil _).symm, fun c hc => .inl ?_⟩
    rw [Kernel.proc, hproc]
    exact ⟨hc, rfl⟩
  cases hp with
  | tick _ n => exact hrest rfl rfl
  | writeKey _ ch => exact .ofSame (writeKeyBuffer_same ch s)
  | wakeUp hrun =>
      obtain ⟨t', hrun', hw⟩ := wakeUp_spec hq.queues _
      obtain rfl := Except.ok.inj (hrun'.symm.trans hrun)
      exact .ofKillList hq ⟨_, hw.trace⟩ (fun c hc => ((hw.queues.mem .kill c).mp hc).2.2) hw.frame.pid
  | yield hrun =>
      obtain ⟨t', q', lost', hrun', -, hkill, hsw⟩ := yield_spec hq
      obtain rfl := Except.ok.inj (hrun'.symm.trans hrun)
      exact .ofSwitched hq hsw (by rw [hkill]; exact List.Subset.refl _)
  | @sleep _ t w k hm hrun =>
      obtain ⟨t', hrun', -, hsw⟩ := sleep_spec hq hm.notIdle w
      obtain rfl := Except.ok.inj (hrun'.symm.trans hrun)
      exact (KeepsKilled.ofSwitched hq hsw (by simp)).trans ⟨[], (List.append_nil _).symm, fun _ hc => .inl ⟨hc, rfl⟩⟩
  | exit hc hk hrun =>
      obtain ⟨t', hrun', hsw⟩ := exit_spec hq hc
      obtain rfl := Except.ok.inj (hrun'.symm.trans hrun)
      have hobs : KeepsKilled s (s.observe (.exit (s.proc s.current).pid)) :=
        ⟨[.exit (s.proc s.current).pid], rfl, fun _ hc => .inl ⟨hc, rfl⟩⟩
      exact hobs.trans (.ofSwitched (hq.observe id) hsw (List.subset_append_left _ _))
  | resume _ hc => exact hrest rfl rfl
  | reap hc hat hrun =>
      rcases wait_ok hq hrun with ⟨-, x, ys, zs, hr⟩ | ⟨hf, -⟩
      · refine ⟨_, hr.trace, fun c hc => ?_⟩
        by_cases hcx : c = x
        · exact .inr (by simp [hcx])
        · rw [hr.others c hcx]
          exact .inl ⟨hc, rfl⟩
      · cases hf
  | fork hc hev hrun =>
      obtain ⟨i, hf, -, -⟩ := fork_spec hq hrun
      refine ⟨_, hf.trace, fun c hc => .inl ?_⟩
      have hci : c ≠ i := by
        rintro rfl
        rw [hf.unused] at hc
        cases hc
      rw [hf.others c hci]
      exact ⟨hc, rfl⟩
  | openFile path hc hev => exact .ofSame (openFile_same _ path _)
  | closeFile hc hev hrun => exact .ofSame (closeFile_same hrun)
  | readFile hc hrun hev => exact .ofSame (readFile_same hrun)
  | readRoot hc hev hrun => exact .ofSame (readRootDirectory_same hrun)
  | takeKey hc htake => exact .ofSame (takeKey_same _ s)
  | setX0 _ v hc => exact .ofSame (.setMem s _)
  | clearUser hc hdst => exact .ofSame (.setMem s _)
  | newFrame _ hc => exact .ofSame (.setMem s _)
  | store hc hev hva hwalk => exact .ofSame (.setMem s _)

/-- A run keeps killed processes, until they are reaped. -/
theorem Run.keepsKilled (h : Good s) (hrun : Run (Step L) s ls t) : Good t ∧ KeepsKilled s t :=
  ArmOs.Run.preserves (I := fun u => KeepsKilled s u) hrun (fun _ _ _ _ hg hp hs => hs.trans (hp.keepsKilled hg)) h (.refl s)

end ArmOs
