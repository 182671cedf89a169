import ArmOs.Sched.Theorems

/-!
# The turn of a process that does not run

A process on `ready_list` is behind some others, and every dispatch takes away one of them. A process on `wait_list`
stays there or joins `ready_list`. What one step does to such a process, whoever takes the step.
-/

namespace ArmOs

open Lib

variable {L : Layout} {s t u : Kernel} {p : Proc} {k : Nat} {w : Int} {q q' : ListId → List Proc} {lost lost' : Set Proc}
  {st : Proc → ProcState} {wt : Proc → Int} {rs : List Proc}

/-- The process runs after at most `k` dispatches. -/
def Due (s : Kernel) (p : Proc) (k : Nat) : Prop :=
  s.current = p ∨ ∃ xs, s.Lists .ready xs ∧ p ∈ xs ∧ xs.idxOf p < k

/-- The process sleeps for the event value `w`. -/
def Asleep (s : Kernel) (p : Proc) (w : Int) : Prop := (s.proc p).state = .sleep ∧ (s.proc p).wait = w

/-- The process sleeps on, or it is not further from its turn than before. -/
structure Waits (p : Proc) (s t : Kernel) : Prop where
  kont : t.kont p = s.kont p
  asleep : ∀ w, Asleep s p w → Asleep t p w ∨ Due t p numProc
  due : ∀ k, Due s p k → Due t p k

/-- A dispatch brings the process nearer to its turn. -/
structure Nears (p : Proc) (s t : Kernel) : Prop extends Waits p s t where
  nearer : ∀ k, Due s p (k + 1) → Due t p k

theorem Due.mono {k' : Nat} (h : Due s p k) (hk : k ≤ k') : Due s p k' := by
  cases h with
  | inl hcur => exact .inl hcur
  | inr h =>
      obtain ⟨xs, hxs, hp, hlt⟩ := h
      exact .inr ⟨xs, hxs, hp, hlt.trans_le hk⟩

theorem Asleep.mem (h : SchedInv s q lost) (hp : Asleep s p w) : p ∈ q .wait := by
  refine (h.queues.mem .wait p).mpr ⟨fun hl => ?_, ?_, hp.1⟩
  · have hready := (h.lostReady p hl).2.1
    rw [hp.1] at hready
    cases hready
  · rintro rfl
    have hidle := h.idleState
    rw [hp.1] at hidle
    cases hidle with
    | inl h => cases h
    | inr h => cases h

namespace SchedInv

/-- A process on `ready_list` waits for at most as many dispatches as there are processes. -/
theorem due_of_mem (h : SchedInv s q lost) (hp : p ∈ q .ready) : Due s p numProc := by
  have hlen := (h.queues.nodup .ready).length_le_card
  rw [Fintype.card_fin] at hlen
  exact .inr ⟨q .ready, h.queues.represents .ready, hp, (List.idxOf_lt_length_of_mem hp).trans_le hlen⟩

theorem due_iff (h : SchedInv s q lost) (hne : s.current ≠ p) : Due s p k ↔ p ∈ q .ready ∧ (q .ready).idxOf p < k := by
  constructor
  · rintro (hcur | ⟨xs, hxs, hp⟩)
    · exact absurd hcur hne
    · rwa [hxs.unique (h.queues.represents .ready)] at hp
  · exact fun hp => .inr ⟨q .ready, h.queues.represents .ready, hp⟩

end SchedInv

namespace Waits

theorem refl (p : Proc) (s : Kernel) : Waits p s s := ⟨rfl, fun _ h => .inl h, fun _ h => h⟩

theorem trans (h : Waits p s t) (h' : Waits p t u) : Waits p s u where
  kont := h'.kont.trans h.kont
  asleep w hw := by
    cases h.asleep w hw with
    | inl hw => exact h'.asleep w hw
    | inr hdue => exact .inr (h'.due numProc hdue)
  due k hk := h'.due k (h.due k hk)

/-- Nothing that the scheduler reads of the process has changed. -/
theorem congr (hkont : t.kont p = s.kont p) (hcur : t.current = s.current) (hstate : (t.proc p).state = (s.proc p).state)
    (hwait : (t.proc p).wait = (s.proc p).wait) (hlists : ∀ xs, s.Lists .ready xs → t.Lists .ready xs) : Waits p s t where
  kont := hkont
  asleep w hw := .inl ⟨hstate.trans hw.1, hwait.trans hw.2⟩
  due k hk := by
    cases hk with
    | inl h => exact .inl (hcur.trans h)
    | inr h =>
        obtain ⟨xs, hxs, hp⟩ := h
        exact .inr ⟨xs, hlists xs hxs, hp⟩

theorem ofSame (h : SameSched s t) : Waits p s t := by
  refine congr (by rw [h.kont]) h.current (h.state p) (h.wait p) fun xs hxs => ?_
  rw [Kernel.Lists, h.pc]
  refine hxs.congr fun i _ => ?_
  show (t.proc i).next = _
  rw [h.eq]

/-- The place in which another process goes on. -/
theorem setKont {i : Proc} (hne : p ≠ i) (c : Kont) : Waits p s (s.setKont i c) :=
  congr (Function.update_of_ne hne _ _) rfl rfl rfl fun _ h => h

theorem observe (o : Obs) : Waits p s (s.observe o) := congr rfl rfl rfl rfl fun _ h => h

/-- Some processes join `ready_list`, and the current process is the same. -/
theorem append (h : SchedInv s q lost) (h' : SchedInv t q' lost') (hcur : t.current = s.current)
    (hkont : t.kont p = s.kont p) (hrs : ∃ ws, q' .ready = q .ready ++ ws)
    (hasleep : ∀ w, Asleep s p w → Asleep t p w ∨ p ∈ q' .ready) : Waits p s t where
  kont := hkont
  asleep w hw := (hasleep w hw).imp_right h'.due_of_mem
  due k hk := by
    obtain ⟨ws, hws⟩ := hrs
    by_cases hne : s.current = p
    · exact .inl (hcur.trans hne)
    · obtain ⟨hp, hlt⟩ := (h.due_iff hne).mp hk
      refine (h'.due_iff (hcur ▸ hne)).mpr ?_
      rw [hws, List.idxOf_append_of_mem hp]
      exact ⟨List.mem_append_left _ hp, hlt⟩

theorem wakeUp (h : SchedInv s q lost) (hrun : ArmOs.wakeUp w s = .ok t) : Waits p s t := by
  obtain ⟨t', hrun', hw⟩ := wakeUp_spec h.queues w
  obtain rfl := Except.ok.inj (hrun'.symm.trans hrun)
  refine append h (hw.inv h) hw.current (by rw [hw.frame.kont]) ⟨_, rfl⟩ fun w' hp => ?_
  have hmem := hp.mem h
  by_cases he : w' = w
  · refine .inr (List.mem_append_right _ (List.mem_filter.mpr ⟨hmem, ?_⟩))
    rw [hp.2, he]
    exact decide_eq_true rfl
  · have hstays : ¬(p ∈ q .wait ∧ (s.proc p).wait = w) := fun hmatch => he (hp.2.symm.trans hmatch.2)
    exact .inl ⟨by rw [hw.state, if_neg hstays, hp.1], by rw [hw.wait, hp.2]⟩

end Waits

namespace Nears

theorem ofWaits (h : Waits p s t) (h' : Nears p t u) : Nears p s u where
  toWaits := h.trans h'.toWaits
  nearer k hk := h'.nearer k (h.due (k + 1) hk)

/-- The first process of `rs` is dispatched. -/
theorem switched (h : SchedInv s q lost) (hne : s.current ≠ p) (hsw : Switched s t q' lost' st wt)
    (hcur : t.current = rs.headD idle) (hrest : ∃ zs, q' .ready = rs.tail ++ zs) (hrs : ∃ ws, rs = q .ready ++ ws)
    (hasleep : ∀ w, Asleep s p w → st p = .sleep ∧ wt p = w ∨ p ∈ rs) : Nears p s t := by
  have hfirst : p ∈ rs → t.current = p ∨ p ∈ q' .ready ∧ rs.idxOf p = (q' .ready).idxOf p + 1 := by
    intro hp
    obtain ⟨zs, hzs⟩ := hrest
    rw [hcur, hzs]
    cases rs with
    | nil => exact absurd hp List.not_mem_nil
    | cons x xs =>
        by_cases hx : x = p
        · exact .inl hx
        · have hp := (List.mem_cons.mp hp).resolve_left (Ne.symm hx)
          rw [List.tail_cons, List.idxOf_append_of_mem hp]
          exact .inr ⟨List.mem_append_left _ hp, List.idxOf_cons_ne _ hx⟩
  have hnearer : ∀ k, Due s p (k + 1) → Due t p k := by
    intro k hk
    obtain ⟨ws, hws⟩ := hrs
    obtain ⟨hp, hlt⟩ := (h.due_iff hne).mp hk
    have hidx : rs.idxOf p = (q .ready).idxOf p := by rw [hws, List.idxOf_append_of_mem hp]
    rcases hfirst (by rw [hws]; exact List.mem_append_left _ hp) with hp | ⟨hp, heq⟩
    · exact .inl hp
    · exact .inr ⟨q' .ready, hsw.inv.queues.represents .ready, hp, by omega⟩
  refine ⟨⟨by rw [hsw.frame.kont], fun w hw => ?_, fun k hk => ?_⟩, hnearer⟩
  · rcases hasleep w hw with ⟨hst, hwt⟩ | hp
    · by_cases hp : p = t.current
      · exact .inr (.inl hp.symm)
      · exact .inl ⟨by rw [hsw.state, if_neg hp, hst], (hsw.wait p).trans hwt⟩
    · rcases hfirst hp with hp | ⟨hp, -⟩
      · exact .inr (.inl hp)
      · exact .inr (hsw.inv.due_of_mem hp)
  · cases k with
    | zero => exact absurd ((h.due_iff hne).mp hk).2 (Nat.not_lt_zero _)
    | succ k => exact (hnearer k hk).mono (Nat.le_succ k)

theorem sleep (h : SchedInv s q lost) (hc : s.current ≠ idle) (hne : s.current ≠ p) (hrun : ArmOs.sleep w s = .ok t) :
    Nears p s t := by
  obtain ⟨t', hrun', hcur, hsw⟩ := sleep_spec h hc w
  obtain rfl := Except.ok.inj (hrun'.symm.trans hrun)
  refine switched h hne hsw hcur ⟨[], ?_⟩ ⟨[], (List.append_nil _).symm⟩ fun w' hp => .inl ?_
  · rw [Function.update_self, List.append_nil]
  · rw [if_neg hne.symm, if_neg hne.symm]
    exact hp

theorem exit (h : SchedInv s q lost) (hc : s.current ≠ idle) (hne : s.current ≠ p) (hrun : ArmOs.exit s = .ok t) :
    Nears p s t := by
  obtain ⟨t', hrun', hsw⟩ := exit_spec h hc
  obtain rfl := Except.ok.inj (hrun'.symm.trans hrun)
  refine .ofWaits (.observe _) (switched (h.observe id) hne hsw (exit_current h hc hrun) ⟨[], ?_⟩ ⟨_, rfl⟩ fun w' hp => ?_)
  · rw [List.append_nil]
    rfl
  · have hmem := hp.mem (h.observe id)
    by_cases hw : w' = -3
    · refine .inr (List.mem_append_right _ (List.mem_filter.mpr ⟨hmem, ?_⟩))
      exact decide_eq_true (hp.2.trans hw)
    · left
      rw [if_neg hne.symm, if_neg hne.symm, if_neg fun hmatch => hw (hp.2.symm.trans hmatch.2)]
      exact hp

theorem yield (h : SchedInv s q lost) (hne : s.current ≠ p) (hrun : ArmOs.yield s = .ok t) : Nears p s t := by
  cases hq : q .ready with
  | nil =>
      obtain rfl := Except.ok.inj ((yield_nil h hq).symm.trans hrun)
      refine ⟨.refl p s, fun k hk => ?_⟩
      have hp := ((h.due_iff hne).mp hk).1
      rw [hq] at hp
      exact absurd hp List.not_mem_nil
  | cons x xs =>
      obtain ⟨t', zs, lost', hrun', hcur, hsw⟩ := yield_cons h hq
      obtain rfl := Except.ok.inj (hrun'.symm.trans hrun)
      have hfirst : t'.current = (x :: xs).headD idle := hcur
      refine switched h hne hsw hfirst ⟨zs, ?_⟩ ⟨[], ?_⟩ fun w' hp => .inl ?_
      · rw [Function.update_self, List.tail_cons]
      · rw [hq, List.append_nil]
      · rw [if_neg hne.symm]
        exact hp

end Nears

end ArmOs
