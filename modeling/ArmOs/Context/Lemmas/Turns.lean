import ArmOs.Exec.Lemmas.Killed
import ArmOs.Kernel.Context
import ArmOs.Pages.Lemmas.Steps

/-!
# What a step leaves alone

The current process changes its own stack, its own page and its own place in the kernel. Of every other process a step
changes at most the state that the scheduler reads, as long as the process lives.
-/

namespace ArmOs

open Lib

variable {L : Layout} {s t u o : Kernel} {ev : Event} {q q' : ListId → List Proc} {lost lost' : Set Proc} {p x : Proc}
  {xs : List Nat}

/-! ## Processes -/

/-- What process `p` does leaves `x` its stack and its page map, and if `x` is another process its place as well. -/
structure LeavesBe (p : Proc) (s t : Kernel) (x : Proc) : Prop where
  stack : (t.proc x).stack = (s.proc x).stack
  tf : (t.proc x).tf = (s.proc x).tf
  context : (t.proc x).context = (s.proc x).context
  pageMap : (t.proc x).pageMap = (s.proc x).pageMap
  kont : x ≠ p → t.kont x = s.kont x
  killed : x ≠ p → ((t.proc x).state = .killed ↔ (s.proc x).state = .killed)

namespace LeavesBe

theorem refl (p : Proc) (s : Kernel) (x : Proc) : LeavesBe p s s x := ⟨rfl, rfl, rfl, rfl, fun _ => rfl, fun _ => Iff.rfl⟩

theorem trans (h : LeavesBe p s t x) (h' : LeavesBe p t u x) : LeavesBe p s u x where
  stack := h'.stack.trans h.stack
  tf := h'.tf.trans h.tf
  context := h'.context.trans h.context
  pageMap := h'.pageMap.trans h.pageMap
  kont hne := (h'.kont hne).trans (h.kont hne)
  killed hne := (h'.killed hne).trans (h.killed hne)

theorem ofSame (h : SameSched s t) : LeavesBe p s t x := by
  refine ⟨?_, h.tf x, ?_, ?_, fun _ => ?_, fun _ => ?_⟩
  · rw [h.eq]
  · rw [h.eq]
  · rw [h.eq]
  · rw [h.kont]
  · rw [h.state]

/-- The processes on `kill_list` are the killed ones before and after. -/
theorem ofFrame (h : SchedFrame s t) (hq : SchedInv s q lost) (hq' : SchedInv t q' lost')
    (hkill : x ≠ p → (x ∈ q' .kill ↔ x ∈ q .kill)) : LeavesBe p s t x where
  stack := h.stack x
  tf := h.tf x
  context := h.context x
  pageMap := h.pageMap x
  kont _ := by rw [h.kont]
  killed hne := by rw [← hq.mem_kill, ← hq'.mem_kill, hkill hne]

/-- Only the links of the process have changed. -/
theorem ofLinks (hproc : t.proc x = { s.proc x with next := (t.proc x).next }) (hkont : t.kont x = s.kont x) :
    LeavesBe p s t x := by
  refine ⟨?_, ?_, ?_, ?_, fun _ => hkont, fun _ => ?_⟩
  all_goals rw [hproc]

/-- The place of the process `p`. -/
theorem setKont (p : Proc) (s : Kernel) (k : Kont) (x : Proc) : LeavesBe p s (s.setKont p k) x :=
  ⟨rfl, rfl, rfl, rfl, fun hne => Function.update_of_ne hne _ _, fun _ => Iff.rfl⟩

end LeavesBe

/-- No part moves the stack of a process, or touches a process that does not run. -/
theorem Part.leavesBe (h : Good s) (hp : Part L o ev s t) (hx : s.Live x) (hx' : t.Live x) :
    LeavesBe s.current s t x := by
  obtain ⟨q, lost, hq⟩ := h.sched
  cases hp with
  | tick _ n => exact .ofSame (.ofRest s _ _ _ _)
  | writeKey _ ch => exact .ofSame (writeKeyBuffer_same ch s)
  | wakeUp hrun =>
      obtain ⟨t', hrun', hw⟩ := wakeUp_spec hq.queues _
      obtain rfl := Except.ok.inj (hrun'.symm.trans hrun)
      exact .ofFrame hw.frame hq (hw.inv hq) fun _ => Iff.rfl
  | yield hrun =>
      obtain ⟨t', q', lost', hrun', -, hkill, hsw⟩ := yield_spec hq
      obtain rfl := Except.ok.inj (hrun'.symm.trans hrun)
      exact .ofFrame hsw.frame hq hsw.inv fun _ => by rw [hkill]
  | @sleep _ t w k hm hrun =>
      obtain ⟨t', hrun', -, hsw⟩ := sleep_spec hq hm.notIdle w
      obtain rfl := Except.ok.inj (hrun'.symm.trans hrun)
      exact (LeavesBe.ofFrame hsw.frame hq hsw.inv fun _ => by simp).trans (.setKont s.current t' k x)
  | exit hc hk hrun =>
      obtain ⟨t', hrun', hsw⟩ := exit_spec hq hc
      obtain rfl := Except.ok.inj (hrun'.symm.trans hrun)
      have hobserve : LeavesBe s.current s (s.observe (.exit (s.proc s.current).pid)) x :=
        ⟨rfl, rfl, rfl, rfl, fun _ => rfl, fun _ => Iff.rfl⟩
      refine hobserve.trans (.ofFrame hsw.frame (hq.observe id) hsw.inv fun hne => ?_)
      rw [exited, List.mem_append, List.mem_singleton]
      exact or_iff_left hne
  | resume _ hc => exact .setKont s.current s .ret x
  | reap hc hat hrun =>
      cases wait_ok hq hrun with
      | inl hreap =>
          obtain ⟨-, y, ys, zs, hr⟩ := hreap
          exact .ofLinks (hr.others x (hr.ne_of_live hx')) (by rw [hr.kont])
      | inr hwait => cases hwait.1
  | fork hc hev hrun =>
      obtain ⟨i, hf, -, -⟩ := fork_spec hq hrun
      have hne : x ≠ i := by
        rintro rfl
        exact hx hf.unused
      exact .ofLinks (hf.others x hne) (by rw [hf.kont, Function.update_of_ne hne])
  | openFile path hc => exact .ofSame (openFile_same _ path _)
  | closeFile hc hev hrun => exact .ofSame (closeFile_same hrun)
  | readFile hc hrun hev => exact .ofSame (readFile_same hrun)
  | readRoot hc hev hrun => exact .ofSame (readRootDirectory_same hrun)
  | @takeKey _ front hc htake => exact .ofSame (takeKey_same front s)
  | setX0 _ v hc => exact .ofSame (.setMem s _)
  | clearUser hc hdst => exact .ofSame (.setMem s _)
  | newFrame _ hc => exact .ofSame (.setMem s _)
  | store hc hev hva hwalk => exact .ofSame (.setMem s _)

/-! ## Pages -/

/-- Process `p` leaves `x` its pages, and if `x` is another process what they hold. -/
structure LeavesPages (p : Proc) (s t : Kernel) (x : Proc) : Prop where
  page : ∀ k, t.pageOf x k = s.pageOf x k
  memory : x ≠ p → ∀ k, Mem.Same s.memory.mem t.memory.mem (s.pageOf x k) pageSize

theorem LeavesPages.refl (p : Proc) (s : Kernel) (x : Proc) : LeavesPages p s s x := ⟨fun _ => rfl, fun _ _ => .refl _ _ _⟩

theorem LeavesPages.trans (h : LeavesPages p s t x) (h' : LeavesPages p t u x) : LeavesPages p s u x where
  page k := (h'.page k).trans (h.page k)
  memory hne k := (h.memory hne k).trans (h.page k ▸ h'.memory hne k)

theorem PageEffect.leavesPages (h : PageInv L s xs) (he : PageEffect L o ev s t xs) (hx : s.IsUser x) (hx' : t.Live x) :
    LeavesPages s.current s t x := by
  cases he with
  | writes hw =>
      obtain ⟨vs, honly, hvs⟩ := hw.pages
      have hheap : ∀ v ∈ vs, HeapPage L v := fun v hv => (h.writable_page (hvs v hv)).1
      refine ⟨(h.pageOf_eq hw.owners honly (fun v hv => ⟨s.current, hvs v hv⟩) hx).1, fun hne k => ?_⟩
      apply honly.same hheap (h.page hx k)
      intro hmem
      obtain ⟨hu, hv⟩ := hvs _ hmem
      cases hv with
      | inl hv => exact h.ne hx hu (.inl hne) hv
      | inr hv => exact h.ne hx hu (.inl hne) hv
  | @forked i stack pgd pud pmd frame ys hso hev hforked hxs hf =>
      subst hxs
      have hsub : [stack, pgd, frame, pud, pmd] ⊆ stack :: pgd :: frame :: pud :: pmd :: ys := by simp
      refine ⟨(hf.toCreated.pageOf_other h hx).1, fun _ k => ?_⟩
      apply hf.only.same (fun v hv => h.freePages v (hsub hv)) (h.page hx k)
      exact fun hmem => h.not_free hx k (hsub hmem)
  | reaped hz hat hr =>
      have hne := hr.ne_of_live hx'
      obtain ⟨hzu, -, honly⟩ := h.reaped_memory hz hr
      refine ⟨(h.reap_others hz hr hne hx).1, fun _ k => ?_⟩
      apply honly.same (h.pagesOf hzu).1 (h.page hx k)
      intro hmem
      obtain ⟨k', hk'⟩ := Kernel.mem_pagesOf.mp hmem
      exact h.ne hx hzu (.inl hne) hk'

/-- Writing heap pages does not touch the image of the kernel, and the stack of the boot code below it. -/
theorem OnlyIn.low {vs : List Nat} {m m' : Mem} (h : OnlyIn vs m m') (hvs : ∀ v ∈ vs, HeapPage L v) :
    Mem.Same m m' 0 L.imageEnd := by
  intro a _ ha
  apply h a
  intro v hv hin
  have hle := (hvs v hv).image_le
  omega

theorem PageEffect.low (h : PageInv L s xs) (he : PageEffect L o ev s t xs) :
    Mem.Same s.memory.mem t.memory.mem 0 L.imageEnd := by
  cases he with
  | writes hw =>
      obtain ⟨vs, honly, hvs⟩ := hw.pages
      exact honly.low fun v hv => (h.writable_page (hvs v hv)).1
  | @forked i stack pgd pud pmd frame ys hso hev hforked hxs hf =>
      subst hxs
      have hsub : [stack, pgd, frame, pud, pmd] ⊆ stack :: pgd :: frame :: pud :: pmd :: ys := by simp
      exact hf.only.low fun v hv => h.freePages v (hsub hv)
  | reaped hz hat hr =>
      obtain ⟨hzu, -, honly⟩ := h.reaped_memory hz hr
      exact honly.low (h.pagesOf hzu).1

/-- Only processes that have exited are reaped. -/
theorem PageEffect.live (he : PageEffect L o ev s t xs) (hx : s.Alive x) : t.Live x := by
  cases he with
  | writes hw => exact (hw.owners.live x).mpr hx.1
  | forked hso hev hforked hxs hf =>
      apply (hforked.live _).mpr hx.1
      rintro rfl
      exact hx.1 hforked.unused
  | @reaped q lost pid z ys zs hz hat hr =>
      apply (hr.live_iff _).mpr hx.1
      rintro rfl
      exact hx.2 hr.state

theorem Good.current_alive (h : Good s) : s.Alive s.current := by
  obtain ⟨q, lost, hq⟩ := h.sched
  simp [Kernel.Alive, hq.current_state]

/-- Nobody ends another process. -/
theorem LeavesBe.alive (h : LeavesBe p s t x) (hx : s.Alive x) (hx' : t.Live x) (hne : x ≠ p) : t.Alive x :=
  ⟨hx', fun hk => hx.2 ((h.killed hne).mp hk)⟩

/-! ## New processes -/

/-- The process `x` of `t` is new, a copy of the one that runs in `s`: its first `swap` leads to `trap_return`. -/
structure Born (L : Layout) (s t : Kernel) (x : Proc) : Prop where
  kont : t.kont x = .ret
  killed : (t.proc x).state ≠ .killed
  context : (t.proc x).context = (t.proc x).stack + pageSize - TrapFrame.size - 12 * 8
  x30 : t.memory.mem.read 8 ((t.proc x).context + 11 * 8) = L.trapReturn
  image : t.memory.mem.bytes (t.pageOf x .frame) pageSize = s.memory.mem.bytes (s.pageOf s.current .frame) pageSize
  x0 : t.memory.mem.read 8 ((t.proc x).tf + TrapFrame.x 0) = 0
  registers : ∀ k, 8 ≤ k → k < TrapFrame.size →
    t.memory.mem ((t.proc x).tf + k) = s.memory.mem ((s.proc s.current).tf + k)

/-- The return address on a new kernel stack. -/
theorem newStack_x30 (L : Layout) (stack : Nat) (m : Mem) :
    (newStack L stack m).read 8 (stack + pageSize - TrapFrame.size - 12 * 8 + 11 * 8) = L.trapReturn := by
  have hlt : L.trapReturn < 256 ^ 8 := by
    have himage := L.trapReturn_lt
    have hend := L.imageEnd_le
    rw [heapMemoryEnd_eq, kernelBase] at hend
    omega
  have hsize : TrapFrame.size + 12 * 8 ≤ pageSize := by decide
  have hfields : 8 ≤ TrapFrame.elr ∧ 8 ≤ TrapFrame.sp0 ∧ 8 ≤ TrapFrame.spsr := by decide
  obtain ⟨helr, hsp0, hspsr⟩ := hfields
  rw [newStack, Mem.read_write_ne _ _ (.inl (by omega)), Mem.read_write_ne _ _ (.inl (by omega)),
    Mem.read_write_ne _ _ (.inl (by omega)), Mem.read_write_of_lt _ hlt]

/-- Only `fork` makes a process. -/
theorem PageEffect.born (h : PageInv L s xs) (he : PageEffect L o ev s t xs) (hx : ¬s.Live x)
    (hx' : t.Live x) : s = o ∧ ev = .svc .fork ∧ Born L s t x := by
  cases he with
  | writes hw => exact absurd ((hw.owners.live x).mp hx') hx
  | reaped hz hat hr => exact absurd (hr.live hx') hx
  | @forked i stack pgd pud pmd frame ys hso hev hforked hxs hf =>
      subst hxs
      have hxi : x = i := by
        by_contra hne
        exact hx ((hforked.live hne).mp hx')
      subst hxi
      have hread := newStack_x30 L stack s.memory.mem
      have hsize : TrapFrame.size + 12 * 8 ≤ pageSize := by decide
      refine ⟨hso, hev, ?_, ?_, ?_, ?_, ?_, hf.x0, hf.registers⟩
      · rw [hforked.kont, Function.update_self]
      · rw [hforked.state]
        decide
      · rw [hf.context, hf.newStack]
      · rw [hf.context, ← hread]
        apply Mem.read_congr
        exact hf.kernelStack.sub (by omega) (by omega)
      · rw [hf.toCreated.pageOf_self .frame]
        exact hf.image

/-- The new process is left alone by its parent. -/
theorem Born.leaves (h : Born L s t x) (ht : Good t) (hidle : x ≠ idle) (hlive : t.Live x) (hne : x ≠ p)
    (hbe : LeavesBe p t u x) (hpages : LeavesPages p t u x) : Born L s u x := by
  have hstack : Mem.Same t.memory.mem u.memory.mem (t.proc x).stack pageSize := hpages.memory hne .stack
  have htf := ht.procs.tfStack x hidle hlive
  have hcontext := h.context
  have hsize : TrapFrame.size + 12 * 8 ≤ pageSize := by decide
  have hx0 : TrapFrame.x 0 + 8 ≤ TrapFrame.size := by decide
  have hsame : ∀ {a n : Nat}, (t.proc x).stack ≤ a → a + n ≤ (t.proc x).stack + pageSize →
      Mem.Same t.memory.mem u.memory.mem a n := fun hle hend => hstack.sub hle hend
  refine ⟨(hbe.kont hne).trans h.kont, fun hk => h.killed ((hbe.killed hne).mp hk), ?_, ?_, ?_, ?_, fun k hk hlt => ?_⟩
  · rw [hbe.context, hbe.stack, hcontext]
  · rw [hbe.context, ← h.x30]
    apply Mem.read_congr
    apply hsame
    · omega
    · omega
  · rw [hpages.page, ← h.image]
    exact Mem.bytes_congr (hpages.memory hne .frame)
  · rw [hbe.tf]
    refine (Mem.read_congr (hsame ?_ ?_)).trans h.x0
    · omega
    · omega
  · rw [hbe.tf, ← h.registers k hk hlt]
    apply hsame (n := 1) _ _ _ (Nat.le_refl _) (Nat.lt_succ_self _)
    · omega
    · omega

/-! ## Steps -/

/-- What a step from `s` does, apart from what it does to the current process. -/
structure Turned (L : Layout) (s : Kernel) (ev : Event) (t : Kernel) : Prop where
  pages : ∃ ys, PageInv L t ys
  actor : t.Live s.current
  alive : ∀ x, s.Alive x → x ≠ s.current → t.Alive x
  low : Mem.Same s.memory.mem t.memory.mem 0 L.imageEnd
  leavesBe : ∀ x, s.Live x → t.Live x → LeavesBe s.current s t x
  leavesPages : ∀ x, s.IsUser x → t.Live x → LeavesPages s.current s t x
  born : ∀ x, ¬s.Live x → t.Live x → ev = .svc .fork ∧ Born L s t x

theorem OwnPart.turned (ho : Good o) (ht : Good t) (hptr : ev.UserPointers) (hp : OwnPart L o ev t u)
    (h : Turned L o ev t) : Turned L o ev u := by
  obtain ⟨hcur, hp⟩ := hp
  obtain ⟨ys, hys⟩ := h.pages
  have he := hp.pageEffect hys ht hptr
  have hidle : ∀ {x}, ¬o.Live x → x ≠ idle := fun hx he => hx (he ▸ ho.idle_live)
  have hparent : ∀ {x}, ¬o.Live x → x ≠ o.current := fun hx he => hx (he ▸ ho.live)
  -- a process of `o` that is in use at the end was so all the time
  have hlive : ∀ x, o.Live x → u.Live x → t.Live x := by
    intro x hx hx'
    by_contra hnot
    obtain ⟨rfl, -⟩ := he.born hys hnot hx'
    exact hnot hx
  refine ⟨he.pageInv hys, hcur ▸ he.live ht.current_alive, fun x hx hne => ?_, h.low.trans (he.low hys), fun x hx hx' => ?_, fun x hx hx' => ?_, fun x hx hx' => ?_⟩
  · have hmid := h.alive x hx hne
    have hx' := he.live hmid
    exact (hcur ▸ hp.leavesBe ht hmid.1 hx').alive hmid hx' hne
  · have hmid := hlive x hx hx'
    exact (h.leavesBe x hx hmid).trans (hcur ▸ hp.leavesBe ht hmid hx')
  · have hmid := hlive x hx.2 hx'
    exact (h.leavesPages x hx hmid).trans (hcur ▸ he.leavesPages hys ⟨hx.1, hmid⟩ hx')
  · by_cases hmid : t.Live x
    · obtain ⟨hev, hb⟩ := h.born x hx hmid
      exact ⟨hev, hb.leaves ht (hidle hx) hmid (hparent hx) (hcur ▸ hp.leavesBe ht hmid hx')
        (hcur ▸ he.leavesPages hys ⟨hidle hx, hmid⟩ hx')⟩
    · obtain ⟨rfl, hev, hb⟩ := he.born hys hmid hx'
      exact ⟨hev, hb⟩

theorem Step.turned {l : Label} (hs : Good s) (h : PageInv L s xs) (hptr : l.event.UserPointers) (hstep : Step L s l t) :
    Good t ∧ Turned L s l.event t :=
  (hstep.parts hs).preserves (fun _ _ ht hp => hp.turned hs ht hptr) hs
    ⟨⟨xs, h⟩, hs.live, fun _ hx _ => hx, .refl _ _ _, fun x _ _ => .refl _ s x, fun x _ _ => .refl _ s x, fun _ hx hx' => absurd hx' hx⟩

end ArmOs
