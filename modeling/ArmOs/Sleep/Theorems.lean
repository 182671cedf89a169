import ArmOs.Sleep.Lemmas.Passes

/-!
# `sys_sleep`

Every tick wakes all sleepers, and each of them looks at the count again when its turn comes. A process that sleeps for
`n` ticks is on `wait_list` only while fewer than `n` have been counted. From the `n`-th on it is on `ready_list` or
runs, and its turn comes before the count can wrap around.
-/

namespace ArmOs

open Lib

variable {L : Layout} {m : Mem} {s t u : Kernel} {p : Proc} {n old c : Nat} {ks ls : List Label} {l : Label}

/-- The number of ticks that the steps count. -/
def ticked (ls : List Label) : Nat := ls.countP fun l => l.event.isTick

theorem ticked_snoc (ls : List Label) (l : Label) : ticked (ls ++ [l]) = ticked ls + if l.event.isTick then 1 else 0 := by
  simp only [ticked, List.countP_append, List.countP_cons, List.countP_nil, Nat.zero_add]

theorem Step.ticks_lt (h : Good s) (hstep : Step L s l t) (hlt : s.ticks < 2 ^ 64) : t.ticks < 2 ^ 64 := by
  cases hev : l.event.isTick with
  | true =>
      rw [(hstep.tick h hev).1]
      exact Nat.mod_lt _ (Nat.two_pow_pos 64)
  | false => rwa [(hstep.passes h hev).ticks]

/-- After `c` ticks since its call `sys_sleep(n)` at the count `old` the process `p` is inside the call. -/
structure Sleeps (p : Proc) (n old c : Nat) (s : Kernel) : Prop where
  kont : ∃ tf, s.kont p = .sysSleep tf old n
  ticks : s.ticks = (old + c) % 2 ^ 64
  place : Asleep s p (-1) ∧ c < n ∨ ∃ k, Due s p k ∧ c + k ≤ n + numProc

/-- The count that the loop compares with the argument. -/
theorem elapsed_eq (hold : old < 2 ^ 64) (hc : c < 2 ^ 64) : ((old + c) % 2 ^ 64 + (2 ^ 64 - old)) % 2 ^ 64 = c := by
  omega

/-- Too early the loop puts the process to sleep again. -/
theorem sysSleepLoop_early {q : ListId → List Proc} {lost : Set Proc} (tf : Nat) (h : SchedInv s q lost)
    (hc : s.current ≠ idle) (hearly : (s.ticks + (2 ^ 64 - old)) % 2 ^ 64 < n) :
    ∃ t, sysSleepLoop tf old n s = .ok (none, t) ∧ Asleep t s.current (-1) ∧ t.kont s.current = .sysSleep tf old n ∧
      t.ticks = s.ticks := by
  obtain ⟨t, hrun, hcur, hsw⟩ := sleep_spec h hc (-1)
  refine ⟨t.setKont s.current (.sysSleep tf old n), ?_, ⟨?_, ?_⟩, ?_, ?_⟩
  · rw [sysSleepLoop, if_pos hearly, hrun]
    rfl
  · show (t.proc s.current).state = .sleep
    have hne : s.current ≠ t.current := by
      rw [hcur]
      exact (headD_ne hc (h.current_not_mem .ready)).symm
    rw [hsw.state, if_neg hne, if_pos rfl]
  · show (t.proc s.current).wait = -1
    rw [hsw.wait, if_pos rfl]
  · exact Function.update_self _ _ _
  · exact hsw.frame.ticks

theorem sysSleepLoop_late {tf : Nat} (hlate : n ≤ (s.ticks + (2 ^ 64 - old)) % 2 ^ 64) :
    sysSleepLoop tf old n s = .ok (some 0, s) := by
  rw [sysSleepLoop, if_neg (Nat.not_lt.mpr hlate)]

namespace Sleeps

theorem live {q : ListId → List Proc} {lost : Set Proc} (h : Sleeps p n old c s) (hq : SchedInv s q lost) : s.Live p := by
  rw [Kernel.Live]
  by_cases hcur : s.current = p
  · rw [← hcur, hq.current_state]
    decide
  · rcases h.place with ⟨hasleep, -⟩ | ⟨k, hdue, -⟩
    · rw [hasleep.1]
      decide
    · rw [((hq.queues.mem .ready p).mp ((hq.due_iff hcur).mp hdue).1).2.2]
      decide

/-- A process that runs has not been waiting for long. -/
theorem count_le {q : ListId → List Proc} {lost : Set Proc} (h : Sleeps p n old c s) (hq : SchedInv s q lost)
    (hcur : s.current = p) : c ≤ n + numProc := by
  rcases h.place with ⟨hasleep, -⟩ | ⟨k, -, hle⟩
  · have hrunning := hq.current_state
    rw [hcur, hasleep.1] at hrunning
    cases hrunning
  · exact (Nat.le_add_right c k).trans hle

/-- A step of another process. -/
theorem other (h : Sleeps p n old c s) (hg : Good s) (hstep : Step L s l t) (hne : s.current ≠ p) :
    Sleeps p n old (c + if l.event.isTick then 1 else 0) t := by
  obtain ⟨q, lost, hq⟩ := hg.sched
  cases hev : l.event.isTick with
  | false =>
      have hpasses := hstep.passes hg hev
      have hwaits := hpasses.waits p hne (h.live hq)
      refine ⟨by rw [hwaits.kont]; exact h.kont, hpasses.ticks.trans h.ticks, ?_⟩
      rcases h.place with ⟨hasleep, hlt⟩ | ⟨k, hdue, hle⟩
      · cases hwaits.asleep (-1) hasleep with
        | inl hasleep => exact .inl ⟨hasleep, hlt⟩
        | inr hdue => exact .inr ⟨numProc, hdue, Nat.add_le_add_right hlt.le numProc⟩
      · exact .inr ⟨k, hwaits.due k hdue, hle⟩
  | true =>
      obtain ⟨hticks, hothers⟩ := hstep.tick hg hev
      obtain ⟨hnears, hwoken⟩ := hothers p hne
      refine ⟨by rw [hnears.kont]; exact h.kont, ?_, .inr ?_⟩
      · rw [hticks, h.ticks, Nat.mod_add_mod, Nat.add_assoc]
        rfl
      · rcases h.place with ⟨hasleep, hlt⟩ | ⟨k, hdue, hle⟩
        · exact ⟨numProc, hwoken hasleep, Nat.add_le_add_right hlt numProc⟩
        · cases k with
          | zero => exact absurd ((hq.due_iff hne).mp hdue).2 (Nat.not_lt_zero _)
          | succ k =>
              refine ⟨k, hnears.nearer k hdue, ?_⟩
              rw [if_pos rfl]
              omega

/-- Its own step looks at the count. -/
theorem resume (h : Sleeps p n old c s) (hg : Good s) (hcur : s.current = p) (hold : old < 2 ^ 64) (hn : n < 2 ^ 63) :
    ∃ r t, ArmOs.resume L s = .ok (r, t) ∧ (c < n → r = none ∧ Sleeps p n old c t) ∧
      (n ≤ c → r = some 0 ∧ t.kont p = .ret) := by
  obtain ⟨q, lost, hq⟩ := hg.sched
  obtain ⟨tf, hk⟩ := h.kont
  have hidle : s.current ≠ idle := by
    intro hidle
    rw [← hcur, hidle, hg.procs.kontIdle] at hk
    cases hk
  have hc : c < 2 ^ 64 := by
    have hle := h.count_le hq hcur
    have hproc : numProc = 10 := rfl
    omega
  have helapsed : ((s.setKont s.current .ret).ticks + (2 ^ 64 - old)) % 2 ^ 64 = c := by
    show (s.ticks + (2 ^ 64 - old)) % 2 ^ 64 = c
    rw [h.ticks, elapsed_eq hold hc]
  rw [← hcur] at hk
  have hresume : ArmOs.resume L s = (do
      let r ← sysSleepLoop tf old n (s.setKont s.current .ret)
      return returnX0 tf r) := by
    rw [ArmOs.resume, hk]
  rw [hresume, ← hcur]
  by_cases hearly : c < n
  · obtain ⟨t, hrun, hasleep, hkont, hticks⟩ := sysSleepLoop_early tf (hq.setKont s.current .ret) hidle
      (helapsed ▸ hearly)
    refine ⟨none, t, by rw [hrun]; rfl, fun _ => ⟨rfl, ⟨tf, hkont⟩, hticks.trans h.ticks, .inl ⟨hasleep, hearly⟩⟩, ?_⟩
    exact fun hle => absurd hearly (Nat.not_lt.mpr hle)
  · have hlate := Nat.le_of_not_lt hearly
    have hrun : sysSleepLoop tf old n (s.setKont s.current .ret) = .ok (some 0, s.setKont s.current .ret) :=
      sysSleepLoop_late (helapsed ▸ hlate)
    refine ⟨some 0, (returnX0 tf (some 0, s.setKont s.current .ret)).2, by rw [hrun]; rfl, fun hlt => absurd hlt hearly,
      fun _ => ⟨rfl, Function.update_self _ _ _⟩⟩

/-- Inside the call nothing but the rest of the call can happen in the process. -/
theorem step (h : Sleeps p n old c s) (hg : Good s) (hcur : s.current = p) (hold : old < 2 ^ 64) (hn : n < 2 ^ 63)
    (hstep : Step L s l t) : l.event = .resume ∧ (c < n → l.ret = none ∧ Sleeps p n old c t) ∧
      (n ≤ c → l.ret = some 0 ∧ t.kont p = .ret) := by
  obtain ⟨tf, hk⟩ := h.kont
  have hin : s.inKernel := by
    rw [Kernel.inKernel, hcur, hk]
    nofun
  obtain ⟨actor, event, ret⟩ := l
  obtain ⟨-, hen, hrun⟩ := hstep
  have hev : event = .resume := by
    cases event with
    | resume => rfl
    | timer | uart | wakeUp => exact absurd hin hen
    | fault | svc | store | sleep => exact absurd hin hen.1
  subst hev
  obtain ⟨r, u, hrun', hearly, hlate⟩ := h.resume (L := L) hg hcur hold hn
  obtain ⟨rfl, rfl⟩ := Prod.mk.inj (Except.ok.inj (hrun'.symm.trans hrun))
  exact ⟨rfl, hearly, hlate⟩

end Sleeps

/-! ## The call -/

theorem boot_ticks (h : boot L m = .ok s) : s.ticks = 0 := by
  obtain ⟨M, s₁, i, s₂, s₃, -, hfs, halloc, hsetup, happend⟩ := boot_ok h
  obtain ⟨_, _, _, _, -, -, hs₁⟩ := initFs_ok hfs
  obtain ⟨-, _, _, _, _, -, -, -, -, hs₂⟩ := allocNewProcess_ok halloc
  obtain ⟨_, _, M₂, _, s₄, _, s₅, -, -, -, hopen, -, -, hread, hclose⟩ := setupUvm_true hsetup
  have hticks₁ : s₁.ticks = 0 := by rw [hs₁]; rfl
  have hticks₂ : s₂.ticks = 0 := by rw [hs₂]; exact hticks₁
  have hticks₄ : s₄.ticks = 0 := by
    have hticks := openFile_ticks i initBin { s₂ with memory := M₂ }
    rw [hopen] at hticks
    exact hticks.trans hticks₂
  have hticks₃ : s₃.ticks = 0 := (closeFile_ticks hclose).trans ((readFile_ticks hread).trans hticks₄)
  exact (SameButLinks.ofAppendTail happend).ticks.trans hticks₃

theorem Reaches.ticks_lt (h : Reaches L m ks s) : s.ticks < 2 ^ 64 := by
  obtain ⟨s₀, hboot, hrun⟩ := h
  exact (hrun.invariant (I := fun t => Good t ∧ t.ticks < 2 ^ 64) ⟨good_of_boot hboot, by rw [boot_ticks hboot]; decide⟩
    fun _ _ _ ht hstep => ⟨hstep.good ht.1, hstep.ticks_lt ht.1 ht.2⟩).2

/-- The process `p` called `sys_sleep(n)` in `s`, and with the steps `ls` after that the call has not returned. -/
structure InSleep (L : Layout) (s : Kernel) (p : Proc) (n : Nat) (ls : List Label) (t : Kernel) : Prop where
  run : ∃ u, Step L s ⟨p, .svc (.sleep n), none⟩ u ∧ Run (Step L) u ls t
  pending : ∀ l ∈ ls, l.actor = p → l.ret = none

/-- The call itself. -/
theorem Step.sysSleep {r : Option Int} (hg : Good s) (hlt : s.ticks < 2 ^ 64)
    (hstep : Step L s ⟨p, .svc (.sleep n), r⟩ u) :
    (0 < n → r = none ∧ Sleeps p n s.ticks 0 u) ∧ (n = 0 → r = some 0) := by
  obtain ⟨q, lost, hq⟩ := hg.sched
  obtain ⟨rfl, hen, hrun⟩ := hstep
  have hzero : (s.ticks + (2 ^ 64 - s.ticks)) % 2 ^ 64 = 0 := by
    have h := elapsed_eq hlt (Nat.two_pow_pos 64)
    rwa [Nat.add_zero, Nat.mod_eq_of_lt hlt] at h
  have hcall : (do
      let r ← sysSleepLoop (s.proc s.current).tf s.ticks n s
      return returnX0 (s.proc s.current).tf r) = .ok (r, u) := hrun
  constructor
  · intro hpos
    obtain ⟨t, hloop, hasleep, hkont, hticks⟩ := sysSleepLoop_early (s.proc s.current).tf hq hen.2 (hzero ▸ hpos)
    rw [hloop] at hcall
    obtain ⟨rfl, rfl⟩ := Prod.mk.inj (Except.ok.inj hcall)
    refine ⟨rfl, ⟨_, hkont⟩, ?_, .inl ⟨hasleep, hpos⟩⟩
    rw [hticks, Nat.add_zero, Nat.mod_eq_of_lt hlt]
  · rintro rfl
    rw [sysSleepLoop_late (Nat.zero_le _)] at hcall
    exact (Prod.mk.inj (Except.ok.inj hcall)).1.symm

theorem InSleep.sleeps (h : Reaches L m ks s) (hn : n < 2 ^ 63) (hin : InSleep L s p n ls t) :
    Good t ∧ Sleeps p n s.ticks (ticked ls) t := by
  obtain ⟨u, hcall, hrun⟩ := hin.run
  have hlt := h.ticks_lt
  have hstart : Sleeps p n s.ticks 0 u := by
    obtain ⟨hpos, hzero⟩ := hcall.sysSleep h.good hlt
    cases Nat.eq_zero_or_pos n with
    | inl hn => cases hzero hn
    | inr hn => exact (hpos hn).2
  refine hrun.history (I := fun ls t => (∀ l ∈ ls, l.actor = p → l.ret = none) → Good t ∧ Sleeps p n s.ticks (ticked ls) t)
    (fun _ => ⟨hcall.good h.good, hstart⟩) ?_ hin.pending
  intro hs a l b ih hstep hpending
  obtain ⟨ha, hsleeps⟩ := ih fun l hl => hpending l (List.mem_append_left _ hl)
  refine ⟨hstep.good ha, ?_⟩
  rw [ticked_snoc]
  by_cases hcur : a.current = p
  · obtain ⟨hev, hearly, hlate⟩ := hsleeps.step ha hcur hlt hn hstep
    have hret := hpending l (List.mem_append_right _ (List.mem_singleton.mpr rfl)) (hstep.1.trans hcur)
    have hcount : ticked hs < n := by
      by_contra hle
      rw [(hlate (Nat.le_of_not_lt hle)).1] at hret
      cases hret
    rw [hev]
    exact (hearly hcount).2
  · exact hsleeps.other ha hstep hcur

/-- A call `sys_sleep(n)` returns with `0` at its next dispatch from the `n`-th tick on and not before. From that tick
on the process is not on `wait_list`. -/
theorem sysSleep_ticks (h : Reaches L m ks s) (hn : n < 2 ^ 63) :
    (∀ r u, Step L s ⟨p, .svc (.sleep n), r⟩ u → r = if n = 0 then some 0 else none) ∧
    ∀ ls t, InSleep L s p n ls t →
      t.kont p ≠ .ret ∧
      (n ≤ ticked ls → (∀ xs, t.Lists .wait xs → p ∉ xs) ∧ (t.current = p ∨ ∀ xs, t.Lists .ready xs → p ∈ xs)) ∧
      (t.current = p → ∃ u, Step L t ⟨p, .resume, if n ≤ ticked ls then some 0 else none⟩ u) ∧
      ∀ l u, Step L t l u → l.actor = p →
        l.event = .resume ∧ (l.ret = if n ≤ ticked ls then some 0 else none) ∧ (u.kont p = .ret ↔ n ≤ ticked ls) := by
  constructor
  · intro r u hstep
    obtain ⟨hpos, hzero⟩ := hstep.sysSleep h.good h.ticks_lt
    split
    · exact hzero ‹_›
    · exact (hpos (Nat.pos_of_ne_zero ‹_›)).1
  · intro ls t hin
    obtain ⟨hg, hsleeps⟩ := hin.sleeps h hn
    obtain ⟨q, lost, hq⟩ := hg.sched
    obtain ⟨tf, hk⟩ := hsleeps.kont
    refine ⟨by rw [hk]; nofun, fun hle => ?_, fun hcur => ?_, fun l u hstep hactor => ?_⟩
    · obtain ⟨k, hdue, -⟩ := hsleeps.place.resolve_left fun hplace => absurd hplace.2 (Nat.not_lt.mpr hle)
      by_cases hcur : t.current = p
      · refine ⟨fun xs hxs => ?_, .inl hcur⟩
        rw [hxs.unique (hq.queues.represents .wait), ← hcur]
        exact hq.current_not_mem .wait
      · have hp := ((hq.due_iff hcur).mp hdue).1
        refine ⟨fun xs hxs hwait => ?_, .inr fun xs hxs => ?_⟩
        · rw [hxs.unique (hq.queues.represents .wait)] at hwait
          cases hq.queues.disjoint hp hwait
        · rwa [hxs.unique (hq.queues.represents .ready)]
    · obtain ⟨r, u, hrun, hearly, hlate⟩ := hsleeps.resume (L := L) hg hcur h.ticks_lt hn
      have hret : r = if n ≤ ticked ls then some 0 else none := by
        split
        · exact (hlate ‹_›).1
        · exact (hearly (Nat.lt_of_not_le ‹_›)).1
      refine ⟨u, hcur.symm, ?_, ?_⟩
      · show t.kont t.current ≠ .ret
        rw [hcur, hk]
        nofun
      · rw [← hret]
        exact hrun
    · have hcur : t.current = p := hstep.1.symm.trans hactor
      obtain ⟨hev, hearly, hlate⟩ := hsleeps.step hg hcur h.ticks_lt hn hstep
      refine ⟨hev, ?_⟩
      by_cases hle : n ≤ ticked ls
      · rw [if_pos hle]
        exact ⟨(hlate hle).1, iff_of_true (hlate hle).2 hle⟩
      · obtain ⟨hret, hlater⟩ := hearly (Nat.lt_of_not_le hle)
        obtain ⟨tf', hk'⟩ := hlater.kont
        rw [if_neg hle]
        exact ⟨hret, iff_of_false (by rw [hk']; nofun) hle⟩

/-- The first process sleeps for one tick. After the tick it runs, and its call returns. -/
theorem sysSleep_ticks_one : ∃ ks s p ls t, Reaches smallLayout smallMem ks s ∧ InSleep smallLayout s p 1 ls t ∧
    ticked ls = 1 ∧ ∃ u, Step smallLayout t ⟨p, .resume, some 0⟩ u := by
  have h : ((small [.timer false, .svc (.sleep 1), .timer true]).map fun r =>
      (r.1.map fun l => (l.actor, l.ret), r.2.current)) =
      some ([(idle, none), (⟨1, by decide⟩, none), (idle, none)], ⟨1, by decide⟩) := by
    decide +kernel
  obtain ⟨⟨labels, t⟩, hr, hlabels⟩ := Option.map_eq_some_iff.mp h
  obtain ⟨s₀, hboot, hall⟩ := small_boot hr
  obtain ⟨⟨l₁, s⟩, h₁, hall⟩ := Option.bind_eq_some_iff.mp hall
  obtain ⟨⟨rest, t₁⟩, hrest, hall⟩ := Option.bind_eq_some_iff.mp hall
  cases hall
  obtain ⟨⟨⟨actor, event, ret⟩, u⟩, h₂, hrest⟩ := Option.bind_eq_some_iff.mp hrest
  obtain ⟨⟨ls, t₂⟩, hls, hrest⟩ := Option.bind_eq_some_iff.mp hrest
  cases hrest
  obtain rfl : event = .svc (.sleep 1) := perform_event h₂
  obtain ⟨hfields, hcur⟩ := Prod.mk.inj hlabels
  simp only [List.map_cons, List.cons.injEq] at hfields
  obtain ⟨-, hcall, hothers⟩ := hfields
  obtain ⟨rfl, rfl⟩ := Prod.mk.inj hcall
  have hticked : ticked ls = 1 := by
    have hcount : ticked ls = (ls.map Label.event).countP Event.isTick := by
      rw [ticked, List.countP_map]
      rfl
    rw [hcount, performAll_events hls]
    rfl
  have hreach : Reaches smallLayout smallMem [l₁] s := ⟨s₀, hboot, .single (perform_step h₁)⟩
  have hin : InSleep smallLayout s ⟨1, by decide⟩ 1 ls t := by
    refine ⟨⟨u, perform_step h₂, performAll_run hls⟩, fun l hl hactor => ?_⟩
    have hmem := List.mem_map_of_mem (f := fun l : Label => (l.actor, l.ret)) hl
    rw [hothers] at hmem
    exact (Prod.mk.inj (List.mem_singleton.mp hmem)).2
  obtain ⟨-, -, hnext, -⟩ := (sysSleep_ticks hreach (by decide)).2 ls t hin
  rw [hticked, if_pos (Nat.le_refl 1)] at hnext
  exact ⟨_, s, _, ls, t, hreach, hin, hticked, hnext hcur⟩

end ArmOs
