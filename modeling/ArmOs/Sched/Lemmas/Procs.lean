import ArmOs.Sched.Lemmas.Reap

/-!
# Killed processes, waiters and pids

The invariants behind the protocol of `exit` and `wait`: a killed process has called `exit` and is found by
its pid, nobody sleeps in `wait` for a process that is on `kill_list`, and, as long as no pid overflows, pids
name at most one process.
-/

namespace ArmOs

open Lib

/-- The trap frame a sleeping system call works on is `tf`. -/
def Kont.On (tf : Nat) : Kont → Prop
  | .ret => True
  | .wait tf' _ | .sysSleep tf' _ _ | .readKeyBuffer tf' _ => tf' = tf

/-- The pids that `wait` reaped, in order. -/
def reaps (tr : List Obs) : List Int := tr.filterMap fun | .reap p => some p | _ => none

structure ProcInv (s : Kernel) : Prop where
  killed : ∀ i, (s.proc i).state = .killed →
    (s.proc i).wait = (s.proc i).pid ∧ .exit (s.proc i).pid ∈ s.trace
  waiting : ∀ i tf p, s.kont i = .wait tf p → (s.proc i).state = .sleep →
    (s.proc i).wait = -3 ∧ ∀ j, (s.proc j).state = .killed → (s.proc j).pid ≠ p
  kontOn : ∀ i, s.Live i → (s.kont i).On (s.proc i).tf
  kontIdle : s.kont idle = .ret
  tfStack : ∀ i, i ≠ idle → s.Live i → (s.proc i).tf = (s.proc i).stack + pageSize - TrapFrame.size

/-- Pids name processes. This holds as long as no pid overflows. -/
structure PidInv (s : Kernel) : Prop where
  pos : ∀ i, i ≠ idle → s.Live i → 0 < (s.proc i).pid
  lt : ∀ i, s.Live i → (s.proc i).pid < s.pidNum
  inj : ∀ i j, s.Live i → s.Live j → (s.proc i).pid = (s.proc j).pid → i = j
  reaped : ∀ p, .reap p ∈ s.trace → .exit p ∈ s.trace ∧ p < s.pidNum ∧ ∀ i, s.Live i → (s.proc i).pid ≠ p
  reapOnce : (reaps s.trace).Nodup

theorem reaps_append (tr tr' : List Obs) : reaps (tr ++ tr') = reaps tr ++ reaps tr' := by simp [reaps]

theorem reaps_eq_nil {os : List Obs} (h : ∀ p, .reap p ∉ os) : reaps os = [] := by
  refine List.filterMap_eq_nil_iff.mpr fun o ho => ?_
  cases o with
  | reap p => exact absurd ho (h p)
  | append | dispatch | exit | keyIn | keyOut => rfl

theorem reaps_append_of_not_mem {tr os : List Obs} (h : ∀ p, .reap p ∉ os) :
    reaps (tr ++ os) = reaps tr := by rw [reaps_append, reaps_eq_nil h, List.append_nil]

theorem mem_reaps {tr : List Obs} {p : Int} : p ∈ reaps tr ↔ .reap p ∈ tr := by
  simp only [reaps, List.mem_filterMap]
  constructor
  · rintro ⟨o, ho, h⟩
    cases o with
    | reap p' =>
        cases h
        exact ho
    | append | dispatch | exit | keyIn | keyOut => cases h
  · exact fun h => ⟨_, h, rfl⟩

theorem SchedFrame.reaps_eq {s t : Kernel} (h : SchedFrame s t) : reaps t.trace = reaps s.trace := by
  obtain ⟨os, hos, hall⟩ := h.trace
  rw [hos]
  exact reaps_append_of_not_mem fun p hp => hall _ hp

theorem SchedFrame.live {s t : Kernel} (h : SchedFrame s t) (i : Proc) : t.Live i ↔ s.Live i :=
  not_congr (h.unused i)

theorem Forked.live {s t : Kernel} {i j : Proc} (h : Forked s t i) (hj : j ≠ i) : t.Live j ↔ s.Live j := by
  rw [Kernel.Live, Kernel.Live, h.others j hj]

theorem Forked.ne_idle {s t : Kernel} {q : ListId → List Proc} {lost : Set Proc} {i : Proc}
    (h : Forked s t i) (hs : SchedInv s q lost) : i ≠ idle := by
  rintro rfl
  rcases hs.idleState with h' | h' <;> rw [h.unused] at h' <;> cases h'

section Reaped

variable {L : Layout} {s t : Kernel} {q : ListId → List Proc} {lost : Set Proc} {pid : Int} {x j : Proc}
  {ys zs : List Proc}

theorem Reaped.ne_of_live (h : Reaped L s t q lost pid x ys zs) (hj : t.Live j) : j ≠ x := by
  rintro rfl
  exact hj (by rw [h.zero]; rfl)

theorem Reaped.live (h : Reaped L s t q lost pid x ys zs) (hj : t.Live j) : s.Live j := by
  have := hj
  rwa [Kernel.Live, h.others j (h.ne_of_live hj)] at this

theorem Reaped.killed (h : Reaped L s t q lost pid x ys zs) (hj : (t.proc j).state = .killed) :
    j ≠ x ∧ (s.proc j).state = .killed := by
  have hjx : j ≠ x := h.ne_of_live (by simp [Kernel.Live, hj])
  rw [h.others j hjx] at hj
  exact ⟨hjx, hj⟩

theorem Reaped.mem_trace (h : Reaped L s t q lost pid x ys zs) {o : Obs} (ho : o ∈ s.trace) :
    o ∈ t.trace := by
  rw [h.trace]
  exact List.mem_append_left _ ho

end Reaped

namespace ProcInv

variable {s t : Kernel} {q q' : ListId → List Proc} {lost lost' : Set Proc}

/-- What the file system, the keyboard and stores to memory do. -/
theorem ofSame (h : ProcInv s) (hs : SameSched s t) : ProcInv t := by
  refine ⟨?_, ?_, ?_, ?_, ?_⟩
  · intro i hk
    rw [hs.state] at hk
    rw [hs.wait, hs.pid, hs.mem_trace id]
    exact h.killed i hk
  · intro i tf p hk hi
    rw [hs.kont] at hk
    rw [hs.state] at hi
    rw [hs.wait]
    refine ⟨(h.waiting i tf p hk hi).1, fun j hj => ?_⟩
    rw [hs.state] at hj
    rw [hs.pid]
    exact (h.waiting i tf p hk hi).2 j hj
  · intro i hl
    rw [hs.kont, hs.tf]
    exact h.kontOn i ((hs.live i).mp hl)
  · rw [hs.kont]
    exact h.kontIdle
  · intro i hi hl
    rw [hs.eq]
    exact h.tfStack i hi ((hs.live i).mp hl)

/-- What a scheduling function does, given what it does to killed processes and to those in `wait`. -/
theorem ofFrame (h : ProcInv s) (hf : SchedFrame s t)
    (hkilled : ∀ i, (t.proc i).state = .killed →
      (t.proc i).wait = (s.proc i).pid ∧ .exit (s.proc i).pid ∈ s.trace)
    (hwaiting : ∀ i tf p, s.kont i = .wait tf p → (t.proc i).state = .sleep → (t.proc i).wait = -3 ∧
      ∀ j, (t.proc j).state = .killed → (s.proc j).pid ≠ p) : ProcInv t := by
  refine ⟨?_, ?_, ?_, ?_, ?_⟩
  · intro i hk
    rw [hf.pid, hf.mem_trace id]
    exact hkilled i hk
  · intro i tf p hk hi
    rw [hf.kont] at hk
    refine ⟨(hwaiting i tf p hk hi).1, fun j hj => ?_⟩
    rw [hf.pid]
    exact (hwaiting i tf p hk hi).2 j hj
  · intro i hl
    rw [hf.kont, hf.tf]
    exact h.kontOn i ((hf.live i).mp hl)
  · rw [hf.kont]
    exact h.kontIdle
  · intro i hi hl
    rw [hf.tf, hf.stack]
    exact h.tfStack i hi ((hf.live i).mp hl)

/-- A process starts or ends a system call that sleeps. -/
theorem setKont (h : ProcInv s) {i : Proc} {k : Kont} (hi : i ≠ idle) (hk : k.On (s.proc i).tf)
    (hw : ∀ tf p, k = .wait tf p → (s.proc i).wait = -3 ∧
      ∀ j, (s.proc j).state = .killed → (s.proc j).pid ≠ p) : ProcInv (s.setKont i k) := by
  refine ⟨h.killed, ?_, ?_, ?_, h.tfStack⟩
  · intro j tf p hj hs
    by_cases hji : j = i
    · subst hji
      exact hw tf p (by simpa [Kernel.setKont] using hj)
    · exact h.waiting j tf p (by simpa [Kernel.setKont, hji] using hj) hs
  · intro j hl
    by_cases hji : j = i
    · subst hji
      simpa [Kernel.setKont] using hk
    · simpa [Kernel.setKont, hji] using h.kontOn j hl
  · simpa [Kernel.setKont, hi.symm] using h.kontIdle

theorem ofYield (h : ProcInv s)
    (hsw : Switched s t q' lost' (fun i => if i = s.current then .ready else (s.proc i).state)
      fun i => (s.proc i).wait) : ProcInv t := by
  have hst : ∀ i, (t.proc i).state = .killed ∨ (t.proc i).state = .sleep →
      (t.proc i).state = (s.proc i).state := by
    intro i hi
    rw [hsw.state] at hi ⊢
    split at hi
    · simp at hi
    · rename_i hne
      rw [if_neg hne]
      split at hi
      · simp at hi
      · rename_i hne'
        rw [if_neg hne']
  refine h.ofFrame hsw.frame (fun i hi => ?_) fun i tf p hk hi => ⟨?_, fun j hj => ?_⟩
  · rw [hsw.wait]
    exact h.killed i ((hst i (.inl hi)).symm.trans hi)
  · rw [hsw.wait]
    exact (h.waiting i tf p hk ((hst i (.inr hi)).symm.trans hi)).1
  · exact (h.waiting i tf p hk ((hst i (.inr hi)).symm.trans hi)).2 j ((hst j (.inl hj)).symm.trans hj)

theorem ofSleep (h : ProcInv s) {w : Int} (hk : s.kont s.current = .ret)
    (hsw : Switched s t q' lost' (fun i => if i = s.current then .sleep else (s.proc i).state)
      fun i => if i = s.current then w else (s.proc i).wait) : ProcInv t := by
  have hkilled : ∀ i, (t.proc i).state = .killed → i ≠ s.current ∧ (s.proc i).state = .killed := by
    intro i hi
    rw [hsw.state] at hi
    split at hi
    · cases hi
    · split at hi
      · cases hi
      · exact ⟨‹_›, hi⟩
  refine h.ofFrame hsw.frame (fun i hi => ?_) fun i tf p hk' hi => ?_
  · obtain ⟨hne, hst⟩ := hkilled i hi
    rw [hsw.wait, if_neg hne]
    exact h.killed i hst
  · have hne : i ≠ s.current := by
      rintro rfl
      rw [hk] at hk'
      cases hk'
    have hst : (s.proc i).state = .sleep := by
      rw [hsw.state, if_neg hne] at hi
      split at hi
      · cases hi
      · exact hi
    rw [hsw.wait, if_neg hne]
    exact ⟨(h.waiting i tf p hk' hst).1, fun j hj => (h.waiting i tf p hk' hst).2 j (hkilled j hj).2⟩

theorem ofWakeUp (h : ProcInv s) {w : Int} (hw : Woken s t q lost w [] (q .wait)) : ProcInv t := by
  have hst : ∀ i, (t.proc i).state = .killed ∨ (t.proc i).state = .sleep →
      (t.proc i).state = (s.proc i).state := by
    intro i hi
    rw [hw.state] at hi ⊢
    split at hi
    · simp at hi
    · rename_i hne
      rw [if_neg hne]
  refine h.ofFrame hw.frame (fun i hi => ?_) fun i tf p hk hi => ⟨?_, fun j hj => ?_⟩
  · rw [hw.wait]
    exact h.killed i ((hst i (.inl hi)).symm.trans hi)
  · rw [hw.wait]
    exact (h.waiting i tf p hk ((hst i (.inr hi)).symm.trans hi)).1
  · exact (h.waiting i tf p hk ((hst i (.inr hi)).symm.trans hi)).2 j ((hst j (.inl hj)).symm.trans hj)

/-- `exit` wakes every process in `wait`, so none sleeps while the killed process is on the list. -/
theorem ofExit (h : ProcInv s) (hs : SchedInv s q lost) (hk : s.kont s.current = .ret)
    (hsw : Switched (s.observe (.exit (s.proc s.current).pid)) t (exited s q) lost
      (fun i => if i = s.current then .killed
        else if i ∈ q .wait ∧ (s.proc i).wait = -3 then .ready else (s.proc i).state)
      (fun i => if i = s.current then (s.proc s.current).pid else (s.proc i).wait)) : ProcInv t := by
  have hobs : ProcInv (s.observe (.exit (s.proc s.current).pid)) :=
    ⟨fun i hi => ⟨(h.killed i hi).1, List.mem_append_left _ (h.killed i hi).2⟩, h.waiting, h.kontOn,
      h.kontIdle, h.tfStack⟩
  refine hobs.ofFrame hsw.frame (fun i hi => ?_) fun i tf p hk' hi => ?_
  · rw [hsw.wait]
    by_cases hc : i = s.current
    · subst hc
      simp [Kernel.observe]
    · rw [if_neg hc]
      rw [hsw.state, if_neg hc] at hi
      split at hi
      · cases hi
      · split at hi
        · cases hi
        · exact hobs.killed i hi
  · -- a sleeper in `wait` has the event value -3, and was woken
    exfalso
    have hne : i ≠ s.current := by
      rintro rfl
      have hk'' : s.kont s.current = .wait tf p := hk'
      rw [hk] at hk''
      cases hk''
    rw [hsw.state, if_neg hne] at hi
    split at hi
    · cases hi
    · split at hi
      · cases hi
      · rename_i hnot
        have hidle : i ≠ idle := by
          rintro rfl
          have hk'' : s.kont idle = .wait tf p := hk'
          rw [h.kontIdle] at hk''
          cases hk''
        have hlost : i ∉ lost := fun hl => by
          have := (hs.lostReady i hl).2.1
          rw [hi] at this
          cases this
        exact hnot ⟨(hs.queues.mem .wait i).mpr ⟨hlost, hidle, hi⟩, (h.waiting i tf p hk' hi).1⟩

theorem ofFork (h : ProcInv s) (hs : SchedInv s q lost) {i : Proc} (hf : Forked s t i) : ProcInv t := by
  have hidle := hf.ne_idle hs
  have hkilled : ∀ j, (t.proc j).state = .killed → j ≠ i ∧ (s.proc j).state = .killed := by
    intro j hj
    have hji : j ≠ i := by
      rintro rfl
      rw [hf.state] at hj
      cases hj
    rw [hf.others j hji] at hj
    exact ⟨hji, hj⟩
  refine ⟨?_, ?_, ?_, ?_, ?_⟩
  · intro j hj
    obtain ⟨hji, hj'⟩ := hkilled j hj
    rw [hf.others j hji, hf.trace]
    exact ⟨(h.killed j hj').1, List.mem_append_left _ (h.killed j hj').2⟩
  · intro j tf p hk hj
    have hji : j ≠ i := by
      rintro rfl
      rw [hf.kont] at hk
      simp at hk
    rw [hf.kont, Function.update_of_ne hji] at hk
    rw [hf.others j hji] at hj ⊢
    refine ⟨(h.waiting j tf p hk hj).1, fun k hk' => ?_⟩
    obtain ⟨hki, hk''⟩ := hkilled k hk'
    rw [hf.others k hki]
    exact (h.waiting j tf p hk hj).2 k hk''
  · intro j hl
    rw [hf.kont]
    by_cases hji : j = i
    · simp [hji, Kont.On]
    · rw [Function.update_of_ne hji, hf.others j hji]
      exact h.kontOn j ((hf.live hji).mp hl)
  · rw [hf.kont, Function.update_of_ne hidle.symm]
    exact h.kontIdle
  · intro j hj hl
    by_cases hji : j = i
    · subst hji
      exact hf.tf
    · rw [hf.others j hji]
      exact h.tfStack j hj ((hf.live hji).mp hl)

theorem ofReap {L : Layout} (h : ProcInv s) {pid : Int} {x : Proc} {ys zs : List Proc}
    (hr : Reaped L s t q lost pid x ys zs) : ProcInv t := by
  refine ⟨?_, ?_, ?_, ?_, ?_⟩
  · intro j hj
    obtain ⟨hjx, hj'⟩ := hr.killed hj
    rw [hr.others j hjx]
    exact ⟨(h.killed j hj').1, hr.mem_trace (h.killed j hj').2⟩
  · intro j tf p hk hj
    rw [hr.kont] at hk
    have hjx : j ≠ x := hr.ne_of_live (by simp [Kernel.Live, hj])
    rw [hr.others j hjx] at hj ⊢
    refine ⟨(h.waiting j tf p hk hj).1, fun k hk' => ?_⟩
    obtain ⟨hkx, hk''⟩ := hr.killed hk'
    rw [hr.others k hkx]
    exact (h.waiting j tf p hk hj).2 k hk''
  · intro j hl
    rw [hr.kont, hr.others j (hr.ne_of_live hl)]
    exact h.kontOn j (hr.live hl)
  · rw [hr.kont]
    exact h.kontIdle
  · intro j hj hl
    rw [hr.others j (hr.ne_of_live hl)]
    exact h.tfStack j hj (hr.live hl)

end ProcInv

namespace PidInv

variable {s t : Kernel} {q q' : ListId → List Proc} {lost lost' : Set Proc}

/-- Steps that keep the pids, the processes in use and the record of ends. -/
theorem congr (h : PidInv s) (hlive : ∀ i, t.Live i → s.Live i) (hpid : ∀ i, (t.proc i).pid = (s.proc i).pid)
    (hnum : t.pidNum = s.pidNum) (hreap : ∀ p, .reap p ∈ t.trace ↔ .reap p ∈ s.trace)
    (hexit : ∀ p, .exit p ∈ s.trace → .exit p ∈ t.trace) (honce : reaps t.trace = reaps s.trace) :
    PidInv t := by
  refine ⟨fun i hi hl => ?_, fun i hl => ?_, fun i j hi hj hp => ?_, fun p hp => ?_, honce ▸ h.reapOnce⟩
  · rw [hpid]
    exact h.pos i hi (hlive i hl)
  · rw [hpid, hnum]
    exact h.lt i (hlive i hl)
  · rw [hpid, hpid] at hp
    exact h.inj i j (hlive i hi) (hlive j hj) hp
  · obtain ⟨h₁, h₂, h₃⟩ := h.reaped p ((hreap p).mp hp)
    refine ⟨hexit p h₁, by rwa [hnum], fun i hi => ?_⟩
    rw [hpid]
    exact h₃ i (hlive i hi)

theorem ofSame (h : PidInv s) (hs : SameSched s t) : PidInv t := by
  refine h.congr (fun i => (hs.live i).mp) hs.pid hs.pidNum (fun p => hs.mem_trace id)
    (fun p => (hs.mem_trace id).mpr) ?_
  obtain ⟨os, hos, hall⟩ := hs.trace
  rw [hos, reaps_append_of_not_mem fun p hp => hall _ hp]

theorem ofFrame (h : PidInv s) (hf : SchedFrame s t) : PidInv t :=
  h.congr (fun i => (hf.live i).mp) hf.pid hf.pidNum (fun _ => hf.mem_trace id)
    (fun _ => (hf.mem_trace id).mpr) hf.reaps_eq

theorem observeExit (h : PidInv s) (p : Int) : PidInv (s.observe (.exit p)) :=
  h.congr (fun _ => id) (fun _ => rfl) rfl (fun p => by simp [Kernel.observe])
    (fun p hp => List.mem_append_left _ hp) (reaps_append_of_not_mem (by simp))

theorem ofReap {L : Layout} (h : PidInv s) (hp : ProcInv s) {pid : Int} {x : Proc} {ys zs : List Proc}
    (hr : Reaped L s t q lost pid x ys zs) : PidInv t := by
  have hx : s.Live x := by simp [Kernel.Live, hr.state]
  refine ⟨?_, ?_, ?_, ?_, ?_⟩
  · intro j hj hl
    rw [hr.others j (hr.ne_of_live hl)]
    exact h.pos j hj (hr.live hl)
  · intro j hl
    rw [hr.others j (hr.ne_of_live hl), hr.pidNum]
    exact h.lt j (hr.live hl)
  · intro j k hj hk hjk
    rw [hr.others j (hr.ne_of_live hj), hr.others k (hr.ne_of_live hk)] at hjk
    exact h.inj j k (hr.live hj) (hr.live hk) hjk
  · intro p hp'
    rw [hr.trace] at hp'
    rcases List.mem_append.mp hp' with hp' | hp'
    · obtain ⟨h₁, h₂, h₃⟩ := h.reaped p hp'
      refine ⟨hr.mem_trace h₁, by rwa [hr.pidNum], fun j hj => ?_⟩
      rw [hr.others j (hr.ne_of_live hj)]
      exact h₃ j (hr.live hj)
    · obtain rfl : p = (s.proc x).pid := by simpa using hp'
      refine ⟨hr.mem_trace (hp.killed x hr.state).2, by rw [hr.pidNum]; exact h.lt x hx, fun j hj he => ?_⟩
      rw [hr.others j (hr.ne_of_live hj)] at he
      exact hr.ne_of_live hj (h.inj j x (hr.live hj) hx he)
  · rw [hr.trace, reaps_append, List.nodup_append]
    refine ⟨h.reapOnce, by simp [reaps], ?_⟩
    intro p hp p' hp' he
    obtain rfl : p' = (s.proc x).pid := by simpa [reaps] using hp'
    subst he
    exact (h.reaped _ (mem_reaps.mp hp)).2.2 x hx rfl

theorem ofFork (h : PidInv s) (hs : SchedInv s q lost) {i : Proc} (hpid : s.pidNum + 1 < 2 ^ 31)
    (hf : Forked s t i) : PidInv t ∧ t.pidNum = s.pidNum + 1 := by
  have hpos : 0 < s.pidNum := by
    have := h.lt idle (by rcases hs.idleState with h' | h' <;> simp [Kernel.Live, h'])
    rwa [hs.idlePid] at this
  have hnum : t.pidNum = s.pidNum + 1 := by
    rw [hf.pidNum, int32]
    omega
  have hpids : ∀ j, j ≠ i → (t.proc j).pid = (s.proc j).pid := fun j hj => by rw [hf.others j hj]
  have hold : ∀ {j}, j ≠ i → t.Live j → s.Live j := fun hj => (hf.live hj).mp
  have htrace : ∀ o : Obs, o ≠ .append .ready i → (o ∈ t.trace ↔ o ∈ s.trace) := fun o ho => by
    rw [hf.trace]
    simp [ho]
  refine ⟨⟨?_, ?_, ?_, ?_, ?_⟩, hnum⟩
  · intro j hj hl
    by_cases hji : j = i
    · subst hji
      rwa [hf.pid]
    · rw [hpids j hji]
      exact h.pos j hj (hold hji hl)
  · intro j hl
    rw [hnum]
    by_cases hji : j = i
    · subst hji
      rw [hf.pid]
      omega
    · rw [hpids j hji]
      have := h.lt j (hold hji hl)
      omega
  · intro j k hj hk hp
    by_cases hji : j = i <;> by_cases hki : k = i
    · rw [hji, hki]
    · subst hji
      rw [hf.pid, hpids k hki] at hp
      have := h.lt k (hold hki hk)
      omega
    · subst hki
      rw [hf.pid, hpids j hji] at hp
      have := h.lt j (hold hji hj)
      omega
    · rw [hpids j hji, hpids k hki] at hp
      exact h.inj j k (hold hji hj) (hold hki hk) hp
  · intro p hp
    rw [htrace _ (by simp)] at hp ⊢
    obtain ⟨h₁, h₂, h₃⟩ := h.reaped p hp
    refine ⟨h₁, by omega, fun j hj => ?_⟩
    by_cases hji : j = i
    · subst hji
      rw [hf.pid]
      omega
    · rw [hpids j hji]
      exact h₃ j (hold hji hj)
  · rw [hf.trace, reaps_append_of_not_mem (by simp)]
    exact h.reapOnce

/-- No process is lost while pids name processes. -/
theorem lost_eq_empty (h : PidInv s) (hs : SchedInv s q lost) : lost = ∅ := by
  refine Set.eq_empty_of_forall_notMem fun i hi => ?_
  obtain ⟨hidle, hready, hpid⟩ := hs.lostReady i hi
  have := h.pos i hidle (by simp [Kernel.Live, hready])
  omega

end PidInv

end ArmOs
