import ArmOs.Files.Theorems
import ArmOs.Pages.Lemmas.Child
import ArmOs.Pages.Lemmas.Reap

/-!
# Pages and processes

Every heap page has one owner in every state of a run, no matter how processes come and go, and `fork` gives the
child pages of its own with what is in those of its parent.
-/

namespace ArmOs

open Lib

variable {L : Layout} {m : Mem} {s t : Kernel} {ls : List Label} {xs : List Nat}

/-! ## The owners of pages -/

/-- In the state `s`, with the pages `xs` on the free list, page ownership is in order. -/
structure PagesOwned (L : Layout) (s : Kernel) (xs : List Nat) : Prop where
  free : FreeList s.memory xs
  owner : ∀ v, HeapPage L v → ∃! o, holder xs s.holds o = some v
  heap : ∀ o v, holder xs s.holds o = some v → HeapPage L v
  /-- No two processes share a page, and the five pages of a process are different. -/
  unshared : ∀ p q k k', s.IsUser p → s.IsUser q → p ≠ q ∨ k ≠ k' → s.pageOf p k ≠ s.pageOf q k'
  /-- The pages are those that the hardware uses: user addresses lead to the frame. -/
  frame : ∀ p va, s.IsUser p → (walk s.memory.mem (v2p (s.proc p).pageMap) va).map p2v =
    if userBase ≤ va ∧ va < userBase + pageSize then some (s.pageOf p .frame) else none
  asserts : ∀ ev, Enabled s ev → (ev = .svc .fork → ForkFits s xs) → ∀ site, site = .kalloc ∨ site = .kfree →
    exceptionHandler L (s.proc s.current).tf ev s ≠ .error (.assert site)
  /-- A process that `wait` reaps has left its pages on the free list. -/
  reaped : ∀ l t, l.event.UserPointers → Step L s l t →
    ∃ ys, FreeList t.memory ys ∧ ∀ x, s.IsUser x → ¬t.IsUser x → ∀ k, ys.count (s.pageOf x k) = 1

theorem PageInv.pagesOwned (h : PageInv L s xs) (hs : Good s) : PagesOwned L s xs where
  free := h.free
  owner v hv := h.owned.existsUnique hv
  heap o v ho := by
    cases o with
    | inl i => exact h.freePages v (List.mem_of_getElem? ho)
    | inr k => exact h.owned.own_mem ho
  unshared _ _ _ _ hp hq hne := h.ne hp hq hne
  frame _ va hp := (h.mapsUser hp).walk_eq va
  asserts ev hen hfits site hsite := by
    have hlow : site.IsLow := by rcases hsite with rfl | rfl <;> trivial
    exact exceptionHandler_avoids hlow hs hen (h.meets hsite hs hen hfits) _
  reaped l t hptr hstep := by
    obtain ⟨ys, hys, hkept⟩ := hstep.pagesKept hs h hptr
    refine ⟨ys, hys.free, fun x hx hnot k => List.count_eq_one_of_mem hys.owned.nodup ?_⟩
    cases hkept x hx with
    | inl hk => exact absurd hk.1 hnot
    | inr hk => exact hk.2 k

/-- Every heap page has one owner, in every state that is reached by processes that pass buffers of the lower half to
the system calls that fill one. -/
theorem pages_owned (hboot : boot L m = .ok s) (hfits : InitFits m)
    (hrun : Run (Guarded (fun _ l => l.event.UserPointers) (Step L)) s ls t) : ∃ xs, PagesOwned L t xs := by
  obtain ⟨hg, xs, h⟩ := reaches_pageInv hboot hfits hrun
  exact ⟨xs, h.pagesOwned hg⟩

theorem familyEvents_pointers : ∀ ev ∈ familyEvents, ev.UserPointers := by decide

/-- A child got pages, executed a file in them, and gave them back. -/
theorem pages_owned_small : ∃ ls t xs, Reaches smallLayout smallMem ls t ∧ ls.map Label.event = familyEvents ∧
    .reap 2 ∈ t.trace ∧ PagesOwned smallLayout t xs := by
  obtain ⟨s, ls, t, hboot, hrun, hevents, -, -, hreap⟩ := family_run
  obtain ⟨xs, h⟩ := pages_owned hboot smallMem_fits
    (run_pointers (hrun.mono fun _ _ _ h => h.2) hevents familyEvents_pointers)
  exact ⟨ls, t, xs, .of_guarded hboot hrun, hevents, hreap, h⟩

/-! ## The child of a `fork` -/

/-- The process `i` of `t` is the child of the current process of `s`, and nothing else has happened to the parent. -/
structure Duplicated (s t : Kernel) (i : Proc) : Prop where
  fresh : ¬s.Live i
  ready : ∃ ys, Represents t.processTable t.pc.readyList ys ∧ i ∈ ys
  state : (t.proc i).state = .ready
  /-- The frame of the child is what user addresses lead to, and has the bytes of the frame of the parent. -/
  maps : ∀ va, (walk t.memory.mem (v2p (t.proc i).pageMap) va).map p2v =
    if userBase ≤ va ∧ va < userBase + pageSize then some (t.pageOf i .frame) else none
  image : t.memory.mem.bytes (t.pageOf i .frame) pageSize = s.memory.mem.bytes (s.pageOf s.current .frame) pageSize
  unshared : ∀ p k k', t.IsUser p → p ≠ i → t.pageOf i k ≠ t.pageOf p k'
  /-- The trap frame of the child. -/
  x0 : t.memory.mem.read 8 ((t.proc i).tf + TrapFrame.x 0) = 0
  registers : ∀ o, TrapFrame.x 1 ≤ o → o < TrapFrame.size →
    t.memory.mem ((t.proc i).tf + o) = s.memory.mem ((s.proc s.current).tf + o)
  file : (t.proc i).file = (s.proc s.current).file
  /-- The parent has its pages, its files and its trap frame, except for `x0`. -/
  parent : t.current = s.current ∧ t.proc s.current = { s.proc s.current with next := (t.proc s.current).next }
  parentPages : ∀ k, t.pageOf s.current k = s.pageOf s.current k ∧
    (k ≠ .stack → t.memory.mem.bytes (s.pageOf s.current k) pageSize = s.memory.mem.bytes (s.pageOf s.current k) pageSize)
  parentX0 : t.memory.mem.read 8 ((s.proc s.current).tf + TrapFrame.x 0) = ((t.proc i).pid % 2 ^ 64).toNat
  parentRegisters : ∀ o, TrapFrame.x 1 ≤ o → o < TrapFrame.size →
    t.memory.mem ((s.proc s.current).tf + o) = s.memory.mem ((s.proc s.current).tf + o)
  /-- Every count has grown by the number of slots of the parent that reach it. -/
  descCount : ∀ d, (t.fs.fileDescTable d).count =
    (s.fs.fileDescTable d).count + refs (s.proc s.current).file fun k => k = d
  fcbCount : ∀ i, (t.fs.fcbTable i).count =
    (s.fs.fcbTable i).count + refs (s.proc s.current).file (s.fs.reaches i)

/-- The counts after the loop over the slots of the parent. -/
theorem Forked.counts {i : Proc} (h : Forked s t i) (hf : FileInv s) (hcount : CountsFit s (.svc .fork)) :
    (∀ d, (t.fs.fileDescTable d).count =
      (s.fs.fileDescTable d).count + refs (s.proc s.current).file fun k => k = d) ∧
    ∀ j, (t.fs.fcbTable j).count = (s.fs.fcbTable j).count + refs (s.proc s.current).file (s.fs.reaches j) := by
  refine ⟨fun d => ?_, fun j => h.fcbCount j (hf.counts.nonneg j) (hcount.fcb j)⟩
  by_cases hd : ∃ x, (s.proc s.current).file x = some d
  · obtain ⟨x, hx⟩ := hd
    obtain ⟨j, hj⟩ := hf.slots.desc (s.current, x) d hx
    have hpos := hf.descPos d j hj
    exact h.descCount d (by omega) (hcount.desc d)
  · have hnone : ∀ x, (s.proc s.current).file x ≠ some d := not_exists.mp hd
    have hrefs : refs (s.proc s.current).file (fun k => k = d) = 0 := by
      refine refs_eq_zero_iff.mpr fun x k hx => decide_eq_false fun he => ?_
      exact hnone x (he ▸ hx)
    rw [countSlots_other hnone h.fs, hrefs, Nat.cast_zero, add_zero]

theorem Forked.unique {i j : Proc} (h : Forked s t i) (h' : Forked s t j) : i = j := by
  by_contra hne
  have hstate := congrArg Process.state (h.others j (Ne.symm hne))
  rw [h'.state, h'.unused] at hstate
  cases hstate

theorem PageInv.duplicated {r : Int} (h : PageInv L s xs) (hs : Good s) (hf : FileInv s)
    (hc : s.current ≠ idle) (hcount : CountsFit s (.svc .fork)) (hrun : ArmOs.fork L s = .ok (r, t)) :
    ∃ i, (t.proc i).pid = r ∧ Duplicated s
      (t.setMem (t.memory.mem.write 8 ((s.proc s.current).tf + TrapFrame.x 0) (r % 2 ^ 64).toNat)) i := by
  obtain ⟨q, lost, hq⟩ := hs.sched
  have hu : s.IsUser s.current := ⟨hc, hs.live⟩
  obtain ⟨i, stack, pgd, pud, pmd, frame, ys, rfl, hforked, hpages⟩ := h.fork hq hs.procs hc hrun
  obtain ⟨i', hforked', hq', rfl⟩ := fork_spec hq hrun
  obtain rfl : i = i' := hforked.unique hforked'
  have hcreated := hpages.toCreated
  have ht := h.create hcreated
  have hgood : Good t := ⟨⟨_, _, hq'⟩, hs.procs.ofFork hq hforked⟩
  have hcur : t.current = s.current := hforked.current
  have hne : s.current ≠ i := fun he => hs.live (he ▸ hforked.unused)
  have hiu : t.IsUser i := (hcreated.isUser i).mpr (.inl rfl)
  have hcu : t.IsUser s.current := (hcreated.isUser s.current).mpr (.inr hu)
  have hpar := (hcreated.pageOf_other h hu).1
  -- the value for the parent is all that is written to its stack
  have htf : (t.proc t.current).tf = (s.proc s.current).tf := by rw [hcur, hforked.others _ hne]
  generalize hm : t.memory.mem.write 8 ((s.proc s.current).tf + TrapFrame.x 0) (s.pidNum % 2 ^ 64).toNat = m
  obtain ⟨hown, hpage, hkeep⟩ := ht.setX0 hgood (hcur.symm ▸ hc) (htf.symm ▸ hm)
  rw [hcur] at hkeep
  have hsub : [stack, pgd, frame, pud, pmd] ⊆ stack :: pgd :: frame :: pud :: pmd :: ys := by simp
  have hold : ∀ k, Mem.Same s.memory.mem t.memory.mem (s.pageOf s.current k) pageSize := fun k =>
    hcreated.only.same (fun v hv => h.freePages v (hsub hv)) (h.page hu k) fun hv => h.not_free hu k (hsub hv)
  have hchild : ∀ o k, o + k ≤ TrapFrame.size → Mem.Same t.memory.mem m ((t.proc i).tf + o) k := by
    intro o k hok
    have htf : (t.proc i).tf = t.pageOf i .stack + pageSize - TrapFrame.size := hforked.tf
    have hsize : TrapFrame.size ≤ pageSize := by decide
    exact (hkeep i .stack hiu (.inl hne.symm)).sub (by omega) (by omega)
  obtain ⟨hle, hend⟩ := hs.tf_stack hc
  have hx : TrapFrame.x 0 + 8 = TrapFrame.x 1 ∧ TrapFrame.x 1 ≤ TrapFrame.size := by decide
  obtain ⟨hdesc, hfcb⟩ := hforked.counts hf hcount
  have hinv := hown.pageInv ht
  have hiu' : (t.setMem m).IsUser i := (hown.owners.isUser i).mpr hiu
  refine ⟨i, hforked.pid, ⟨not_not.mpr hforked.unused, ⟨_, hq'.queues.represents .ready, by simp⟩, hforked.state,
    fun va => (hinv.mapsUser hiu').walk_eq va, ?_, ?_, ?_, ?_, hforked.file, ⟨hcur, hforked.others _ hne⟩, ?_, ?_, ?_,
    hdesc, hfcb⟩⟩
  · rw [hpage i .frame hiu]
    refine (Mem.bytes_congr (hkeep i .frame hiu (.inr nofun))).trans ?_
    rw [hcreated.pageOf_self]
    exact hpages.image
  · intro p k k' hp hpi
    exact hinv.ne hiu' hp (.inl hpi.symm)
  · exact (Mem.read_congr (hchild _ _ (by omega))).trans hpages.x0
  · intro o ho hlt
    exact (hchild o 1 hlt _ (Nat.le_refl _) (Nat.lt_succ_self _)).trans (hpages.registers o ho hlt)
  · intro k
    rw [hpage s.current k hcu, hpar]
    refine ⟨rfl, fun hk => ?_⟩
    have hsame := hkeep s.current k hcu (.inr hk)
    rw [hpar] at hsame
    exact (Mem.bytes_congr hsame).trans (Mem.bytes_congr (hold k))
  · have hpid : ((t.setMem m).proc i).pid = s.pidNum := hforked.pid
    rw [hpid]
    show m.read 8 _ = _
    rw [← hm, Mem.read_write_self]
    refine Nat.mod_eq_of_lt ?_
    have hmod := Int.emod_lt_of_pos s.pidNum (show (0 : Int) < 2 ^ 64 by decide)
    have hnonneg := Int.emod_nonneg s.pidNum (show (2 ^ 64 : Int) ≠ 0 by decide)
    omega
  · intro o ho hlt
    have hstack := hold .stack ((s.proc s.current).tf + o) (by omega) (by omega)
    refine Eq.trans ?_ hstack
    show m _ = _
    rw [← hm]
    exact Mem.write_same (k := 1) (.inr (by omega)) ((s.proc s.current).tf + o) (Nat.le_refl _) (Nat.lt_succ_self _)

/-- `fork` in a state with a slot and five free pages. -/
theorem PageInv.forks (h : PageInv L t xs) (hg : Good t) (hf : FileInv t) (hen : Enabled t (.svc .fork))
    (hfree : FreePages t 5) (hslot : findUnusedProcess t ≠ none) (hcount : CountsFit t (.svc .fork)) :
    ∃ i u, Step L t ⟨t.current, .svc .fork, some (u.proc i).pid⟩ u ∧ Duplicated t u i := by
  obtain ⟨⟨r, u⟩, hrun⟩ := h.forkReturns hg hen.2 (h.forkFits hfree hslot) fun x d hx =>
    hf.slots.desc (t.current, x) d hx
  obtain ⟨i, hpid, hd⟩ := h.duplicated hg hf hen.2 hcount hrun
  refine ⟨i, _, ⟨rfl, hen, ?_⟩, hd⟩
  have hcall : exceptionHandler L (t.proc t.current).tf (.svc .fork) t =
      (ArmOs.fork L t >>= fun x => pure (some x.1, x.2)) >>= fun x => pure (returnX0 (t.proc t.current).tf x) := rfl
  rw [hcall, hrun]
  show Except.ok (some r, _) = Except.ok (some (u.proc i).pid, _)
  rw [hpid]

/-- On a short run with buffers of the lower half no reference count overflows, nor in the step after it. -/
theorem performAll_inOrder {events : List Event} (hboot : boot L m = .ok s)
    (hall : performAll L s events = some (ls, t)) (hptr : ∀ ev ∈ events, ev.UserPointers)
    (hlen : events.length < 10 ^ 7) :
    Run (Guarded (fun a l => l.event.UserPointers ∧ CountsFit a l.event) (Step L)) s ls t ∧ ∀ ev, CountsFit t ev := by
  have hrun := performAll_pointers hall hptr
  rw [← performAll_events hall, List.length_map] at hlen
  exact ⟨short_run_fits hboot hrun hlen, short_run_next hboot hrun hlen⟩

/-- The pages that are free when the small machine has started. -/
def smallFree : List Nat := (List.range 9).map fun i => heapMemoryEnd - (8 + i) * pageSize

/-- After the events the first process calls `fork`, with a process slot and five free pages, and the call does not
return. -/
def ForkStops (m : Mem) (events : List Event) : Prop :=
  ∃ s ls t, boot smallLayout m = .ok s ∧ Run (Step smallLayout) s ls t ∧ ls.map Label.event = events ∧
    Enabled t (.svc .fork) ∧ FreePages t 5 ∧ findUnusedProcess t ≠ none ∧
    ∀ r u, ¬Step smallLayout t ⟨t.current, .svc .fork, r⟩ u

theorem ForkStops.of_run {m : Mem} {events : List Event} (h : (smallOn m events).map (fun r =>
    decide (Enabled r.2 (.svc .fork) ∧ FreeList r.2.memory smallFree ∧ findUnusedProcess r.2 ≠ none ∧
      stopped (systemCall smallLayout (r.2.proc r.2.current).tf .fork r.2) = some (.assert .copyUvm))) = some true) :
    ForkStops m events := by
  obtain ⟨⟨ls, t⟩, hr, hd⟩ := Option.map_eq_some_iff.mp h
  obtain ⟨s, hboot, hall⟩ := smallOn_boot hr
  obtain ⟨hen, hfree, hslot, hstop⟩ := of_decide_eq_true hd
  refine ⟨s, ls, t, hboot, performAll_run hall, performAll_events hall, hen, ⟨smallFree, hfree, by decide, by decide⟩,
    hslot, fun r u hstep => ?_⟩
  have hcall : systemCall smallLayout (t.proc t.current).tf .fork t = .ok (r, u) := hstep.2.2
  rw [stopped_eq_some.mp hstop] at hcall
  cases hcall

/-- The page with the user page entry of the first process. -/
def smallPmd : Nat := heapMemoryEnd - 7 * pageSize

end ArmOs
