import ArmOs.Files.Lemmas.Asserts
import ArmOs.Fat.Lemmas.Open
import ArmOs.Pages.Lemmas.Moves

/-!
# What the parts of a step do to the pages

`fork` takes pages and `wait` gives pages back. Every other part writes at most the stack and the frame of the
current process, if the buffers that the process passes on are in the lower half.
-/

namespace ArmOs

open Lib

variable {L : Layout} {s t o : Kernel} {ev : Event} {xs vs : List Nat} {p x : Proc}

/-- The buffers of the system call are in the lower half. -/
def Event.UserPointers : Event → Prop
  | .svc (.readFile _ buffer _) => buffer < kernelBase
  | .svc (.readRootDirectory buffer) => buffer < kernelBase
  | _ => True

instance : DecidablePred Event.UserPointers := by
  intro ev
  unfold Event.UserPointers
  split <;> infer_instance

theorem run_pointers {events : List Event} {ls : List Label} (h : Run (Step L) s ls t)
    (hevents : ls.map Label.event = events) (hptr : ∀ ev ∈ events, ev.UserPointers) :
    Run (Guarded (fun _ l => l.event.UserPointers) (Step L)) s ls t :=
  h.guarded fun _ hl => hptr _ (hevents ▸ List.mem_map_of_mem hl)

theorem performAll_pointers {events : List Event} {ls : List Label} (h : performAll L s events = some (ls, t))
    (hptr : ∀ ev ∈ events, ev.UserPointers) : Run (Guarded (fun _ l => l.event.UserPointers) (Step L)) s ls t :=
  run_pointers (performAll_run h) (performAll_events h) hptr

/-- No process gains or loses a page, and only stacks and frames of the current process are written. -/
structure WritesOwn (s t : Kernel) : Prop where
  owners : SameOwners s t
  freeMemory : t.memory.freeMemory = s.memory.freeMemory
  pages : ∃ vs, OnlyIn vs s.memory.mem t.memory.mem ∧ ∀ v ∈ vs, s.Writable s.current v

namespace WritesOwn

/-- Nothing in memory changed. -/
theorem same (ho : SameOwners s t) (hm : t.memory = s.memory) : WritesOwn s t :=
  ⟨ho, by rw [hm], [], by rw [hm]; exact .refl _ _, nofun⟩

theorem ofFrame (h : SchedFrame s t) : WritesOwn s t := .same (.ofFrame h) h.memory

/-- One page of the current process was written. -/
theorem one {v : Nat} (ho : SameOwners s t) (hfree : t.memory.freeMemory = s.memory.freeMemory)
    (honly : OnlyIn [v] s.memory.mem t.memory.mem) (hv : s.Writable s.current v) : WritesOwn s t :=
  ⟨ho, hfree, [v], honly, by simpa using hv⟩

theorem pageInv (h : WritesOwn s t) (hs : PageInv L s xs) : PageInv L t xs := by
  obtain ⟨vs, honly, hvs⟩ := h.pages
  exact hs.keep h.owners h.freeMemory honly fun v hv => ⟨s.current, hvs v hv⟩

end WritesOwn

/-- What a part of the step that handles `ev` from `o` on does to the pages. -/
inductive PageEffect (L : Layout) (o : Kernel) (ev : Event) (s t : Kernel) (xs : List Nat) : Prop
  | writes : WritesOwn s t → PageEffect L o ev s t xs
  | forked {i stack pgd pud pmd frame ys} : s = o → ev = .svc .fork → Forked s t i →
      xs = stack :: pgd :: frame :: pud :: pmd :: ys → ForkedPages L s t i stack pgd pud pmd frame ys →
      PageEffect L o ev s t xs
  | reaped {q lost pid x ys zs} : x ≠ idle → AtWait o ev pid s → Reaped L s t q lost pid x ys zs →
      PageEffect L o ev s t xs

/-- The tables of the current process map its frame. -/
theorem PageInv.current (h : PageInv L s xs) (hs : Good s) (hc : s.current ≠ idle) :
    s.IsUser s.current ∧ s.ttbr0 = v2p (s.proc s.current).pageMap ∧
      MapsUser L s.memory.mem (s.proc s.current).pageMap (s.pageOf s.current .frame) := by
  obtain ⟨q, lost, hq⟩ := hs.sched
  have hu : s.IsUser s.current := ⟨hc, hs.live⟩
  exact ⟨hu, hq.ttbr0, h.mapsUser hu⟩

/-- The trap frame of the current process lies in its stack. -/
theorem Good.tf_stack (hs : Good s) (hc : s.current ≠ idle) :
    s.pageOf s.current .stack ≤ (s.proc s.current).tf ∧
      (s.proc s.current).tf + TrapFrame.size = s.pageOf s.current .stack + pageSize := by
  have htf := hs.procs.tfStack s.current hc hs.live
  have hsize : TrapFrame.size ≤ pageSize := by decide
  have hstack : s.pageOf s.current .stack = (s.proc s.current).stack := rfl
  omega

/-- Storing `x0` changes no page but the stack of the current process. -/
theorem PageInv.setX0 {v : Nat} {m : Mem} (h : PageInv L s xs) (hs : Good s) (hc : s.current ≠ idle)
    (hm : s.memory.mem.write 8 ((s.proc s.current).tf + TrapFrame.x 0) v = m) :
    WritesOwn s (s.setMem m) ∧ (∀ p k, s.IsUser p → (s.setMem m).pageOf p k = s.pageOf p k) ∧
      ∀ p k, s.IsUser p → p ≠ s.current ∨ k ≠ .stack → Mem.Same s.memory.mem m (s.pageOf p k) pageSize := by
  have hu : s.IsUser s.current := ⟨hc, hs.live⟩
  obtain ⟨hle, hend⟩ := hs.tf_stack hc
  have hx : TrapFrame.x 0 + 8 ≤ TrapFrame.size := by decide
  have hwrite : OnlyIn [s.pageOf s.current .stack] s.memory.mem m := by
    rw [← hm]
    exact .write (by omega) (by omega)
  have hown : WritesOwn s (s.setMem m) := .one (.setMem s m) rfl hwrite ⟨hu, .inl rfl⟩
  refine ⟨hown, fun p k hp => ?_, fun p k hp hother => hwrite.same (fun v hv => ?_) (h.page hp k) ?_⟩
  · exact (h.pageOf_eq hown.owners hwrite (fun v hv => ⟨s.current, hu, .inl (List.mem_singleton.mp hv)⟩) hp).1 k
  · rw [List.mem_singleton.mp hv]
    exact h.page hu .stack
  · rw [List.mem_singleton]
    exact h.ne hp hu hother

/-- Reading a file writes the frame of the current process at most. -/
theorem readFile_onlyIn {fd : Int} {buffer size n : Nat} (h : PageInv L s xs) (hs : Good s) (hc : s.current ≠ idle)
    (hbuffer : buffer < kernelBase) (hrun : readFile s.current fd buffer size s = .ok (n, t)) :
    OnlyIn [s.pageOf s.current .frame] s.memory.mem t.memory.mem ∧ t.memory.freeMemory = s.memory.freeMemory := by
  obtain ⟨hu, httbr0, hmaps⟩ := h.current hs hc
  obtain ⟨d, f, hd⟩ := exists_descriptor hrun
  by_cases hr : Refused (s.fs.fileDescTable d).position size (s.fs.fcbTable f).fileSize
  · rw [hd.readFile_refused buffer hr] at hrun
    have hmem : t.memory = s.memory := congrArg Kernel.memory (Prod.mk.inj (Except.ok.inj hrun)).2.symm
    rw [hmem]
    exact ⟨.refl _ _, rfl⟩
  · rw [hd.readFile_eq hr] at hrun
    obtain ⟨⟨k, m⟩, hraw, hrun⟩ := bind_eq_ok.mp hrun
    have hmem := congrArg Kernel.memory (Prod.mk.inj (Except.ok.inj hrun)).2
    rw [httbr0] at hraw
    rw [← hmem]
    exact ⟨hmaps.readRawData_onlyIn hbuffer hraw, rfl⟩

theorem readFile_writes {fd : Int} {buffer size n : Nat} (h : PageInv L s xs) (hs : Good s) (hc : s.current ≠ idle)
    (hbuffer : buffer < kernelBase) (hrun : readFile s.current fd buffer size s = .ok (n, t)) : WritesOwn s t := by
  have ho : SameOwners s t := .ofSame (readFile_same hrun) (readFile_pages hrun).1 (readFile_pages hrun).2
  obtain ⟨honly, hfree⟩ := readFile_onlyIn h hs hc hbuffer hrun
  exact .one ho hfree honly ⟨⟨hc, hs.live⟩, .inr rfl⟩

/-- So does reading the root directory. -/
theorem readRootDirectory_onlyIn {buffer n : Nat} (h : PageInv L s xs) (hs : Good s) (hc : s.current ≠ idle)
    (hbuffer : buffer < kernelBase) (hrun : readRootDirectory buffer s = .ok (n, t)) :
    OnlyIn [s.pageOf s.current .frame] s.memory.mem t.memory.mem ∧ SameOwners s t ∧
      t.memory.freeMemory = s.memory.freeMemory := by
  obtain ⟨hu, httbr0, hmaps⟩ := h.current hs hc
  obtain ⟨m, hcopy, hrun⟩ := bind_eq_ok.mp hrun
  rw [httbr0] at hcopy
  have honly := (hmaps.copyOut_onlyIn hbuffer (Nat.le_add_right_of_le (fsBase_le_bpb s.memory.mem)) hcopy).1
  rw [← (Prod.mk.inj (Except.ok.inj hrun)).2]
  exact ⟨honly, .setMem s m, rfl⟩

theorem readRootDirectory_writes {buffer n : Nat} (h : PageInv L s xs) (hs : Good s) (hc : s.current ≠ idle)
    (hbuffer : buffer < kernelBase) (hrun : readRootDirectory buffer s = .ok (n, t)) : WritesOwn s t := by
  obtain ⟨honly, ho, hfree⟩ := readRootDirectory_onlyIn h hs hc hbuffer hrun
  exact .one ho hfree honly ⟨⟨hc, hs.live⟩, .inr rfl⟩

theorem Part.pageEffect (h : PageInv L s xs) (hs : Good s) (hptr : ev.UserPointers) (hp : Part L o ev s t) :
    PageEffect L o ev s t xs := by
  obtain ⟨q, lost, hq⟩ := hs.sched
  have hstack : ∀ {m'}, s.current ≠ idle → OnlyIn [s.pageOf s.current .stack] s.memory.mem m' →
      PageEffect L o ev s (s.setMem m') xs := fun hc honly =>
    .writes (.one (.setMem s _) rfl honly ⟨⟨hc, hs.live⟩, .inl rfl⟩)
  have hframe : ∀ {m'}, s.current ≠ idle → OnlyIn [s.pageOf s.current .frame] s.memory.mem m' →
      PageEffect L o ev s (s.setMem m') xs := fun hc honly =>
    .writes (.one (.setMem s _) rfl honly ⟨⟨hc, hs.live⟩, .inr rfl⟩)
  cases hp with
  | tick _ n => exact .writes (.same (.ofSame (.ofRest s _ _ _ _) rfl rfl) rfl)
  | writeKey _ ch hev =>
      refine .writes (.same (.ofSame (writeKeyBuffer_same ch s) ?_ ?_) ?_)
      all_goals
        unfold writeKeyBuffer
        dsimp only
        split <;> rfl
  | wakeUp hrun =>
      obtain ⟨t', hrun', hw⟩ := wakeUp_spec hq.queues _
      obtain rfl := Except.ok.inj (hrun'.symm.trans hrun)
      exact .writes (.ofFrame hw.frame)
  | yield hrun =>
      obtain ⟨t', q', lost', hrun', -, -, hsw⟩ := yield_spec hq
      obtain rfl := Except.ok.inj (hrun'.symm.trans hrun)
      exact .writes (.ofFrame hsw.frame)
  | @sleep _ t w k hm hrun =>
      obtain ⟨t', hrun', -, hsw⟩ := sleep_spec hq hm.notIdle w
      obtain rfl := Except.ok.inj (hrun'.symm.trans hrun)
      have ho : SameOwners s t' := .ofFrame hsw.frame
      exact .writes (.same ⟨ho.fcbPage, ho.fileDescPage, ho.live, ho.stack, ho.pageMap⟩ hsw.frame.memory)
  | exit hc hk hrun =>
      obtain ⟨t', hrun', hsw⟩ := exit_spec hq hc
      obtain rfl := Except.ok.inj (hrun'.symm.trans hrun)
      have ho := SameOwners.ofFrame hsw.frame
      exact .writes (.same ⟨ho.fcbPage, ho.fileDescPage, ho.live, ho.stack, ho.pageMap⟩ hsw.frame.memory)
  | resume _ hc => exact .writes (.same ⟨rfl, rfl, fun _ => Iff.rfl, fun _ => rfl, fun _ => rfl⟩ rfl)
  | reap hc hat hrun =>
      rcases wait_ok hq hrun with ⟨-, x, ys, zs, hr⟩ | ⟨hf, -⟩
      · have hx : x ≠ idle := by
          intro he
          refine hq.queues.idle_not_mem .kill ?_
          rw [hr.list, ← he]
          simp
        exact .reaped hx hat hr
      · cases hf
  | fork hc hev hrun =>
      obtain ⟨i, stack, pgd, pud, pmd, frame, ys, hxs, hforked, hf⟩ := h.fork hq hs.procs hc hrun
      exact .forked rfl hev hforked hxs hf
  | openFile path hc hev =>
      obtain ⟨hfcb, hdesc⟩ := openFile_pages s.current path s
      exact .writes (.same (.ofSame (openFile_same _ path _) hfcb hdesc) (openFile_memory _ _ _))
  | closeFile hc hev hrun =>
      obtain ⟨hfcb, hdesc⟩ := closeFile_pages hrun
      exact .writes (.same (.ofSame (closeFile_same hrun) hfcb hdesc) (closeFile_memory hrun))
  | @readFile _ _ _ buffer _ _ hc hrun hev =>
      refine .writes (readFile_writes h hs hc ?_ hrun)
      rcases hev with rfl | ⟨rfl, -⟩
      · exact hptr
      · exact Nat.lt_of_le_of_lt (Nat.le_add_right _ _) userEnd_lt
  | readRoot hc hev hrun =>
      subst hev
      exact .writes (readRootDirectory_writes h hs hc hptr hrun)
  | @takeKey _ front hc htake => exact .writes (.same (.ofSame (takeKey_same front s) rfl rfl) rfl)
  | setX0 _ v hc =>
      obtain ⟨hle, hend⟩ := hs.tf_stack hc
      have hx0 : TrapFrame.x 0 + 8 ≤ TrapFrame.size := by decide
      exact hstack hc (.write (by omega) (by omega))
  | clearUser hc hdst =>
      obtain ⟨hu, httbr0, hmaps⟩ := h.current hs hc
      have hlow : userBase < kernelBase := Nat.lt_of_le_of_lt (Nat.le_add_right _ _) userEnd_lt
      have hin : InUserPage userBase pageSize := by decide
      rw [httbr0, hmaps.resolve_eq hlow, if_pos hin, Nat.sub_self, Nat.add_zero] at hdst
      rw [← Except.ok.inj hdst]
      exact hframe hc (.fill (Nat.le_refl _) (Nat.le_refl _))
  | newFrame _ hc hev =>
      obtain ⟨hle, hend⟩ := hs.tf_stack hc
      have hfields : TrapFrame.elr + 8 ≤ TrapFrame.size ∧ TrapFrame.sp0 + 8 ≤ TrapFrame.size ∧
          TrapFrame.spsr + 8 ≤ TrapFrame.size := by decide
      obtain ⟨helr, hsp0, hspsr⟩ := hfields
      refine hstack hc (OnlyIn.trans_self (OnlyIn.trans_self (OnlyIn.trans_self (.fill hle ?_) (.write ?_ ?_))
        (.write ?_ ?_)) (.write ?_ ?_))
      all_goals omega
  | @store _ va b pa hc hev hva hwalk =>
      obtain ⟨hu, httbr0, hmaps⟩ := h.current hs hc
      rw [httbr0] at hwalk
      obtain ⟨hle, hlt, hpa⟩ := hmaps.walk_some hwalk
      have hmod := Nat.mod_lt va (show 0 < pageSize by decide)
      rw [hpa]
      exact hframe hc (.write (by omega) (by omega))

theorem PageEffect.pageInv (h : PageInv L s xs) (he : PageEffect L o ev s t xs) : ∃ ys, PageInv L t ys := by
  cases he with
  | writes hw => exact ⟨xs, hw.pageInv h⟩
  | forked hso hev hforked hxs hf =>
      subst hxs
      exact ⟨_, h.create hf.toCreated⟩
  | reaped hx hat hr => exact ⟨_, h.reap hx hr⟩

/-! ## Steps -/

/-- Every process keeps its pages through the step from `s` on, or all of them have been put on the free list. -/
def PagesKept (s u : Kernel) (ys : List Nat) : Prop :=
  ∀ x, s.IsUser x → (u.IsUser x ∧ ∀ k, u.pageOf x k = s.pageOf x k) ∨ ¬u.IsUser x ∧ ∀ k, s.pageOf x k ∈ ys

theorem PageEffect.pagesKept {u : Kernel} {ys : List Nat} (h : PageInv L u ys) (he : PageEffect L o ev u t ys)
    (hk : PagesKept o u ys) : ∃ zs, PageInv L t zs ∧ PagesKept o t zs := by
  cases he with
  | writes hw =>
      obtain ⟨vs, honly, hvs⟩ := hw.pages
      refine ⟨ys, hw.pageInv h, fun x hx => ?_⟩
      cases hk x hx with
      | inl hk =>
          obtain ⟨hpage, -⟩ := h.pageOf_eq hw.owners honly (fun v hv => ⟨u.current, hvs v hv⟩) hk.1
          exact .inl ⟨(hw.owners.isUser x).mpr hk.1, fun k => (hpage k).trans (hk.2 k)⟩
      | inr hk => exact .inr ⟨fun hu => hk.1 ((hw.owners.isUser x).mp hu), hk.2⟩
  | forked hso hev hforked hxs hf =>
      subst hxs
      refine ⟨_, h.create hf.toCreated, fun x hx => .inl ⟨(hf.isUser x).mpr (.inr (hso ▸ hx)), fun k => ?_⟩⟩
      rw [(hf.toCreated.pageOf_other h (hso ▸ hx)).1, hso]
  | @reaped q lost pid z as bs hz hat hr =>
      refine ⟨_, h.reap hz hr, fun x hx => ?_⟩
      have hzu : u.IsUser z := ⟨hz, by simp [Kernel.Live, hr.state]⟩
      cases hk x hx with
      | inl hk =>
          cases eq_or_ne x z with
          | inl he =>
              refine .inr ⟨fun hu => hr.ne_of_live hu.2 he, fun k => List.mem_append_left _ ?_⟩
              rw [← hk.2 k, he]
              exact Kernel.mem_pagesOf.mpr ⟨k, rfl⟩
          | inr hne =>
              have hpage := (h.reap_others hz hr hne hk.1).1
              exact .inl ⟨⟨hk.1.1, (hr.live_iff hne).mpr hk.1.2⟩, fun k => (hpage k).trans (hk.2 k)⟩
      | inr hk => exact .inr ⟨fun hu => hk.1 ⟨hu.1, hr.live hu.2⟩, fun k => List.mem_append_right _ (hk.2 k)⟩

theorem Step.pagesKept {l : Label} (hs : Good s) (h : PageInv L s xs) (hptr : l.event.UserPointers)
    (hstep : Step L s l t) : ∃ ys, PageInv L t ys ∧ PagesKept s t ys :=
  (hstep.preserves (I := fun u => ∃ ys, PageInv L u ys ∧ PagesKept s u ys)
    (fun _ _ hg hp ⟨_, ha, hk⟩ => (hp.pageEffect ha hg hptr).pagesKept ha hk)
    hs ⟨xs, h, fun _ hx => .inl ⟨hx, fun _ => rfl⟩⟩).2

theorem Step.pageInv {l : Label} (hs : Good s) (h : ∃ xs, PageInv L s xs) (hptr : l.event.UserPointers)
    (hstep : Step L s l t) : ∃ ys, PageInv L t ys := by
  obtain ⟨xs, h⟩ := h
  obtain ⟨ys, hys, -⟩ := hstep.pagesKept hs h hptr
  exact ⟨ys, hys⟩

/-! ## The `ASSERT`s of `kalloc` and `kfree` -/

/-- `fork` finds a process slot and the pages it needs. -/
def ForkFits (s : Kernel) (xs : List Nat) : Prop := 5 ≤ xs.length ∧ findUnusedProcess s ≠ none

theorem ForkFits.pages (h : ForkFits s xs) :
    ∃ i stack pgd frame pud pmd ys, findUnusedProcess s = some i ∧ xs = stack :: pgd :: frame :: pud :: pmd :: ys := by
  obtain ⟨hlen, hfound⟩ := h
  obtain ⟨i, hi⟩ := Option.ne_none_iff_exists'.mp hfound
  match xs, hlen with
  | stack :: pgd :: frame :: pud :: pmd :: ys, _ => exact ⟨i, stack, pgd, frame, pud, pmd, ys, hi, rfl⟩

theorem closeFile_avoids {site : Site} (hsite : site ≠ .putFcb) (p : Proc) (fd : Int) :
    Avoids (.assert site) (closeFile p fd s) := by
  unfold closeFile
  split
  · refine .bind (deref_avoids _) fun _ _ => .bind (deref_avoids _) fun _ _ => .bind (.bind (.require ?_) fun _ _ => .pure)
      fun _ _ => .pure
    intro he
    exact hsite (Stop.assert.inj he).symm
  · exact .error nofun

theorem PageInv.meets {site : Site} (hsite : site = .kalloc ∨ site = .kfree) (h : PageInv L s xs) (hs : Good s)
    (hen : Enabled s ev) (hfits : ev = .svc .fork → ForkFits s xs) : Meets L site s ev where
  fork hev := by
    subst hev
    obtain ⟨i, stack, pgd, frame, pud, pmd, ys, hfound, rfl⟩ := (hfits rfl).pages
    obtain ⟨M, N, halloc, hcopy, -⟩ := h.forkMemory ⟨hen.2, hs.live⟩ hfound
    have hself : (allocated s i stack pgd M).proc i = newProcess s i stack pgd := s.setProc_self i _
    have hparent : (allocated s i stack pgd M).proc s.current = s.proc s.current := by
      refine s.setProc_ne i _ _ fun he => ?_
      have hlive := hs.live
      rw [he] at hlive
      exact hlive (findUnusedProcess_eq_some hfound)
    have hcopy' : copyUvm L ((allocated s i stack pgd M).proc i).pageMap
        ((allocated s i stack pgd M).proc s.current).pageMap pageSize (allocated s i stack pgd M).memory =
        .ok (true, N) := by
      rw [hself, hparent]
      exact hcopy
    refine .bind (.of_ok halloc) fun r hr => ?_
    rw [← Except.ok.inj (halloc.symm.trans hr)]
    refine .bind (.of_ok hcopy') fun _ _ => .bind (.require ?_) fun _ _ =>
      .bind (.foldlM (fun _ _ _ => countSlot_avoids _ _) _) fun _ _ => .bind (appendTail_avoids _ _) fun _ _ => .pure
    rcases hsite with rfl | rfl <;> nofun
  wait tf pid u hat hu hc := by
    have hpages : PageInv L u xs := by
      rcases hat with ⟨-, rfl⟩ | ⟨-, -, rfl⟩
      · exact h
      · exact h.same ⟨rfl, rfl, fun _ => Iff.rfl, fun _ => rfl, fun _ => rfl⟩ rfl
    refine wait_avoids hu hc tf pid fun x hx hlive => ?_
    obtain ⟨M, M', hrun, hvm, -⟩ := hpages.freeProcess ⟨hx, hlive⟩
    refine ⟨.of_ok hrun, fun N hN => ?_⟩
    rw [Except.ok.inj (hN.symm.trans hrun)]
    exact .of_ok hvm
  closeFile fd u _ := closeFile_avoids (by rcases hsite with rfl | rfl <;> nofun) _ _

end ArmOs
