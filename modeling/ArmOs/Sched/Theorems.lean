import ArmOs.Pages.Lemmas.Reap

/-!
# The scheduler

For every state reached from the start of the kernel by any steps of any processes: the lists and the states
of the processes agree, processes are dispatched in the order in which they became ready, and `wait` and
`exit` meet. The first and the last need that fewer than `2 ^ 31 - 1` processes were created.
-/

namespace ArmOs

open Lib

variable {L : Layout} {m : Mem} {s t : Kernel} {ls : List Label}

/-! ## The lists -/

/-- The list `l` of the kernel is a `NULL`-terminated chain through `xs`, with its tail at the last one. -/
def Kernel.Lists (s : Kernel) (l : ListId) (xs : List Proc) : Prop :=
  Represents s.processTable (s.pc.list l) xs

/-- The lists and the states of the processes agree. -/
structure Scheduled (s : Kernel) : Prop where
  running : ∀ i, (s.proc i).state = .running ↔ i = s.current
  chain : ∀ l, ∃ xs, s.Lists l xs
  once : ∀ i l, (i ≠ idle ∨ l ≠ .ready) → (s.proc i).state = l.state →
    ∀ xs, s.Lists l xs → xs.count i = 1
  only : ∀ i l, (s.proc i).state ≠ l.state → ∀ xs, s.Lists l xs → i ∉ xs
  unused : ∀ i, (s.proc i).state = .unused → ∀ l xs, s.Lists l xs → i ∉ xs
  idle : ∀ l xs, s.Lists l xs → idle ∉ xs

theorem SchedInv.scheduled {q : ListId → List Proc} (h : SchedInv s q ∅) : Scheduled s := by
  have hq : ∀ l xs, s.Lists l xs → xs = q l := fun l xs hl => hl.unique (h.queues.represents l)
  refine ⟨h.running, fun l => ⟨q l, h.queues.represents l⟩, ?_, ?_, ?_, ?_⟩
  · intro i l hi hs xs hl
    obtain rfl := hq l xs hl
    refine List.count_eq_one_of_mem (h.queues.nodup l) ((h.queues.mem l i).mpr
      ⟨Set.notMem_empty i, ?_, hs⟩)
    rintro rfl
    rcases h.idleState with h' | h' <;> rw [hs] at h'
    · cases l <;> cases h'
    · cases l with
      | ready => simp at hi
      | wait => cases h'
      | kill => cases h'
  · intro i l hs xs hl
    obtain rfl := hq l xs hl
    exact h.queues.not_mem_of_state hs
  · intro i hs l xs hl
    obtain rfl := hq l xs hl
    refine h.queues.not_mem_of_state ?_
    rw [hs]
    cases l <;> decide
  · intro l xs hl
    obtain rfl := hq l xs hl
    exact h.queues.idle_not_mem l

/-- The scheduler invariant. -/
theorem scheduler_invariant (h : Reaches L m ls t) (hc : created ls < 2 ^ 31 - 1) : Scheduled t := by
  obtain ⟨q, lost, hq⟩ := h.good.sched
  obtain rfl := (h.pids hc).lost_eq_empty hq
  exact hq.scheduled

/-- The first user process runs and has forked. -/
theorem small_forks : ∃ r, small [.timer false, .svc .fork] = some r ∧ created r.1 = 2 := by
  have h : ((small [.timer false, .svc .fork]).map fun r => created r.1) = some 2 := by decide +kernel
  obtain ⟨r, hr, hc⟩ := Option.map_eq_some_iff.mp h
  exact ⟨r, hr, hc⟩

theorem scheduler_invariant_small : ∃ ls t, Reaches smallLayout smallMem ls t ∧ Scheduled t := by
  obtain ⟨⟨ls, t⟩, hr, hc⟩ := small_forks
  exact ⟨ls, t, small_reaches hr, scheduler_invariant (small_reaches hr) (by rw [hc]; decide)⟩

/-! ## The order of dispatching -/

/-- The processes appended to `ready_list`, in order. -/
def appended (tr : List Obs) : List Proc :=
  tr.filterMap fun | .append .ready i => some i | _ => none

/-- The processes other than the idle process that `schedule` dispatched, in order. -/
def dispatched (tr : List Obs) : List Proc :=
  tr.filterMap fun | .dispatch _ c => if c = idle then none else some c | _ => none

theorem enqs_readyOps (tr : List Obs) : QueueOp.enqs (readyOps tr) = appended tr := by
  simp only [QueueOp.enqs, readyOps, appended, List.filterMap_filterMap]
  refine List.filterMap_congr fun o _ => ?_
  cases o with
  | append l i => cases l <;> rfl
  | dispatch p c => by_cases hc : c = idle <;> simp [hc]
  | exit | reap | keyIn | keyOut => rfl

theorem deqs_readyOps (tr : List Obs) : QueueOp.deqs (readyOps tr) = dispatched tr := by
  simp only [QueueOp.deqs, readyOps, dispatched, List.filterMap_filterMap]
  refine List.filterMap_congr fun o _ => ?_
  cases o with
  | append l i => cases l <;> rfl
  | dispatch p c => by_cases hc : c = idle <;> simp [hc]
  | exit | reap | keyIn | keyOut => rfl

/-- Processes are dispatched in the order in which they were put on `ready_list`, which holds those not yet
dispatched. The idle process is dispatched only when there are none, and no process is switched to itself. -/
theorem fifo_dispatch (h : Reaches L m ls t) :
    dispatched t.trace <+: appended t.trace ∧
      (∀ xs, t.Lists .ready xs → appended t.trace = dispatched t.trace ++ xs) ∧
      (∀ tr p tr', t.trace = tr ++ .dispatch p idle :: tr' → appended tr = dispatched tr) ∧
      ∀ p, .dispatch p p ∉ t.trace := by
  obtain ⟨q, lost, hq⟩ := h.good.sched
  have hall : appended t.trace = dispatched t.trace ++ q .ready := by
    rw [← enqs_readyOps, ← deqs_readyOps]
    exact QueueOp.enqs_eq hq.fifo
  refine ⟨⟨q .ready, hall.symm⟩, fun xs hxs => ?_, fun tr p tr' htr => ?_, hq.noSelf⟩
  · rw [hall, hxs.unique (hq.queues.represents .ready)]
  · have hf := hq.fifo
    rw [htr, readyOps_append, show readyOps (.dispatch p idle :: tr') = .empty :: readyOps tr' by
      simp [readyOps]] at hf
    rw [← enqs_readyOps, ← deqs_readyOps]
    exact QueueOp.enqs_eq_of_empty hf

theorem fifo_dispatch_small : ∃ ls t, Reaches smallLayout smallMem ls t ∧
    dispatched t.trace <+: appended t.trace := by
  obtain ⟨⟨ls, t⟩, hr, -⟩ := small_forks
  exact ⟨ls, t, small_reaches hr, (fifo_dispatch (small_reaches hr)).1⟩

/-! ## `wait` and `exit` -/

/-- The step labelled `l` in the state `s` is a call `wait(pid)` that returns, or the end of one. -/
def WaitReturns (s : Kernel) (l : Label) (pid : Int) : Prop :=
  l.ret.isSome ∧ (l.event = .svc (.wait pid) ∨ l.event = .resume ∧ ∃ tf, s.kont s.current = .wait tf pid)

/-- Between `s` and `t` exactly the process with this pid was reaped: `x`, between `ys` and `zs` on
`kill_list`. -/
structure ReapsOnly (s t : Kernel) (pid : Int) (x : Proc) (ys zs : List Proc) : Prop where
  named : (s.proc x).pid = pid
  unique : ∀ y, s.Live y → (s.proc y).pid = pid → y = x
  killed : (s.proc x).state = .killed
  unused : t.proc x = Process.zero
  others : ∀ j, j ≠ x → t.proc j = { s.proc j with next := (t.proc j).next }
  before : s.Lists .kill (ys ++ x :: zs)
  after : t.Lists .kill (ys ++ zs)
  lists : ∀ l, l ≠ .kill → ∀ xs, s.Lists l xs → t.Lists l xs
  trace : t.trace = s.trace ++ [.reap pid]

theorem Reaped.reapsOnly {q : ListId → List Proc} {lost : Set Proc} {pid : Int} {x : Proc}
    {ys zs : List Proc} (hq : SchedInv s q lost) (hp : ProcInv s) (hpids : PidInv s)
    (h : Reaped L s t q lost pid x ys zs) : ReapsOnly s t pid x ys zs := by
  have hpid : (s.proc x).pid = pid := (hp.killed x h.state).1.symm.trans h.wait
  have hlive : s.Live x := by simp [Kernel.Live, h.state]
  refine ⟨hpid, fun y hy he => hpids.inj y x hy hlive (he.trans hpid.symm), h.state, h.zero, h.others,
    ?_, ?_, fun l hl xs hxs => ?_, hpid ▸ h.trace⟩
  · rw [← h.list]
    exact hq.queues.represents .kill
  · have := h.inv.queues.represents .kill
    rwa [Function.update_self] at this
  · rw [hxs.unique (hq.queues.represents l)]
    have := h.inv.queues.represents l
    rwa [Function.update_of_ne hl] at this

theorem sysWait_some {tf : Nat} {pid ret : Int} (h : Good s) (hp : PidInv s)
    (hrun : sysWait L tf pid s = .ok (some ret, t)) : ∃ x ys zs, ReapsOnly s t pid x ys zs := by
  obtain ⟨q, lost, hq⟩ := h.sched
  obtain ⟨⟨done, t'⟩, hwait, hrun⟩ := bind_eq_ok.mp hrun
  have hret := pure_eq_ok.mp hrun
  rcases wait_ok hq hwait with ⟨rfl, x, ys, zs, hr⟩ | ⟨rfl, -⟩
  · obtain rfl : t' = t := (Prod.mk.inj hret).2
    exact ⟨x, ys, zs, hr.reapsOnly hq h.procs hp⟩
  · cases (Prod.mk.inj hret).1

/-- Storing the result in the frame changes memory only. -/
theorem ReapsOnly.returnX0 {pid : Int} {x : Proc} {ys zs : List Proc} {tf : Nat} {r : Option Int × Kernel}
    (h : ReapsOnly s r.2 pid x ys zs) : ReapsOnly s (returnX0 tf r).2 pid x ys zs := by
  rcases r with ⟨_ | v, u⟩
  · exact h
  · exact ⟨h.named, h.unique, h.killed, h.unused, h.others, h.before, h.after, h.lists, h.trace⟩

theorem sysWait_reaps {tf : Nat} {pid : Int} {ret : Option Int} (h : Good s) (hp : PidInv s)
    (hret : ret.isSome)
    (hrun : (do let r ← sysWait L tf pid s; pure (returnX0 tf r)) = .ok (ret, t)) :
    ∃ x ys zs, ReapsOnly s t pid x ys zs := by
  obtain ⟨⟨r, u⟩, hwait, hrun⟩ := bind_eq_ok.mp hrun
  have hr := pure_eq_ok.mp hrun
  obtain ⟨v, rfl⟩ : ∃ v, r = some v := by
    have := congrArg Prod.fst hr
    rw [returnX0_fst] at this
    exact Option.isSome_iff_exists.mp (by rw [show r = ret from this]; exact hret)
  obtain ⟨x, ys, zs, hx⟩ := sysWait_some h hp hwait
  refine ⟨x, ys, zs, ?_⟩
  have hret : ReapsOnly s (returnX0 tf (some v, u)).2 pid x ys zs := hx.returnX0
  rwa [hr] at hret

theorem WaitReturns.reaps {l : Label} {pid : Int} (h : Good s) (hp : PidInv s) (hstep : Step L s l t)
    (hw : WaitReturns s l pid) : ∃ x ys zs, ReapsOnly s t pid x ys zs := by
  obtain ⟨-, hen, hrun⟩ := hstep
  obtain ⟨actor, ev, ret⟩ := l
  obtain ⟨hret, rfl | ⟨rfl, tf, hk⟩⟩ := hw
  · exact sysWait_reaps h hp hret hrun
  · have hc : s.current ≠ idle := fun he => hen (by rw [he]; exact h.procs.kontIdle)
    have hgood : Good (s.setKont s.current .ret) := (Part.resume (L := L) (o := s) s hc rfl).good h
    simp only [exceptionHandler, resume, hk] at hrun
    obtain ⟨x, ys, zs, hx⟩ := sysWait_reaps hgood
      ⟨hp.pos, hp.lt, hp.inj, hp.reaped, hp.reapOnce⟩ hret hrun
    exact ⟨x, ys, zs, hx.named, hx.unique, hx.killed, hx.unused, hx.others, hx.before, hx.after, hx.lists,
      hx.trace⟩

/-- `wait(pid)` returns after the process with this pid called `exit`, and reaps exactly that process. No
process is reaped twice, and none sleeps in `wait(p)` while the process with the pid `p` is on
`kill_list`. -/
theorem wait_exit (h : Reaches L m ls t) (hc : created ls < 2 ^ 31 - 1) :
    (∀ l u pid, Step L t l u → WaitReturns t l pid →
      .exit pid ∈ t.trace ∧ ∃ x ys zs, ReapsOnly t u pid x ys zs) ∧
    (reaps t.trace).Nodup ∧
    ∀ i tf p xs, t.kont i = .wait tf p → t.Lists .wait xs → i ∈ xs → (t.proc i).wait = -3 ∧
      ∀ ys, t.Lists .kill ys → ∀ j ∈ ys, (t.proc j).pid ≠ p := by
  have hgood := h.good
  have hpids := h.pids hc
  obtain ⟨q, lost, hq⟩ := hgood.sched
  refine ⟨fun l u pid hstep hw => ?_, hpids.reapOnce, fun i tf p xs hk hxs hi => ?_⟩
  · obtain ⟨x, ys, zs, hx⟩ := hw.reaps hgood hpids hstep
    exact ⟨hx.named ▸ (hgood.procs.killed x hx.killed).2, x, ys, zs, hx⟩
  · rw [hxs.unique (hq.queues.represents .wait)] at hi
    obtain ⟨hw, hnone⟩ := hgood.procs.waiting i tf p hk ((hq.queues.mem .wait i).mp hi).2.2
    refine ⟨hw, fun ys hys j hj => hnone j ?_⟩
    rw [hys.unique (hq.queues.represents .kill)] at hj
    exact ((hq.queues.mem .kill j).mp hj).2.2

instance (s : Kernel) (l : ListId) (xs : List Proc) : Decidable (s.Lists l xs) := by
  unfold Kernel.Lists Represents IsQueue
  infer_instance

instance : NeZero numProc := ⟨by decide⟩

/-- A process forks and waits for another pid than that of its child. The child ends: the process is woken, does not find
the one it waits for, and sleeps on. -/
theorem waits_on : ∃ ls t, Reaches smallLayout smallMem ls t ∧ created ls = 2 ∧ (t.kont 1).waitedPid = some 5 ∧
    t.Lists .wait [1] ∧ t.Lists .kill [2] := by
  have h : (small [.timer false, .svc .fork, .svc (.wait 5), .svc .exit, .resume]).map (fun r =>
      decide (created r.1 = 2 ∧ (r.2.kont 1).waitedPid = some 5 ∧ r.2.Lists .wait [1] ∧ r.2.Lists .kill [2])) =
      some true := by
    decide +kernel
  obtain ⟨⟨ls, t⟩, hr, hd⟩ := Option.map_eq_some_iff.mp h
  exact ⟨ls, t, small_reaches hr, of_decide_eq_true hd⟩

/-- A parent and its child share a descriptor. The parent closes it, opens the file again and waits for the child, which
executes the file, closes its descriptor and ends. -/
def familyStart : List Event :=
  [.timer false, .svc (.openFile initBin), .svc .fork, .svc (.closeFile 0), .svc (.openFile initBin), .svc (.wait 2),
    .svc (.exec initBin), .svc (.closeFile 0), .svc .exit]

/-- Then the call of `wait` returns. -/
def familyEvents : List Event := familyStart ++ [.resume]

/-- The first file slot. -/
def firstFd : Fin numFile := ⟨0, by decide⟩

/-- The child of `familyStart` is the process 2. -/
theorem family_reaps : ∃ s ls t l u, boot smallLayout smallMem = .ok s ∧
    performAll smallLayout s familyStart = some (ls, t) ∧ created ls = 2 ∧ Step smallLayout t l u ∧
    l.event = .resume ∧ WaitReturns t l 2 ∧ (u.proc u.current).file firstFd = some 2 ∧ (u.fs.fcbTable 0).count = 1 ∧
    .reap 2 ∈ u.trace := by
  have h : (small familyStart).map (fun r => decide (created r.1 = 2 ∧ (r.2.kont r.2.current).waitedPid = some 2 ∧
      (r.2.proc 2).state = .killed ∧ (r.2.proc 2).pid = 2 ∧ (r.2.proc r.2.current).state ≠ .killed ∧
      (r.2.proc r.2.current).file firstFd = some 2 ∧ (r.2.fs.fcbTable 0).count = 1)) = some true := by
    decide +kernel
  obtain ⟨⟨ls, t⟩, hr, hd⟩ := Option.map_eq_some_iff.mp h
  obtain ⟨hcount, hkont, hkilled, hpid, hself, hslot, hfcb⟩ := of_decide_eq_true hd
  obtain ⟨u, y, hstep, hy, -, -, hothers, hcurrent, hfs, htrace⟩ := small_reaps hr (by decide) hkont hkilled hpid
  have hne : t.current ≠ y := by
    rintro rfl
    exact hself hy
  obtain ⟨s, hboot, hall⟩ := small_boot hr
  refine ⟨s, ls, t, _, u, hboot, hall, hcount, hstep, rfl, ⟨rfl, .inr ⟨rfl, Kont.waitedPid_eq_some.mp hkont⟩⟩, ?_, ?_, ?_⟩
  · rw [hcurrent, hothers _ hne]
    exact hslot
  · rw [hfs]
    exact hfcb
  · rw [htrace]
    exact List.mem_append_right _ (List.mem_singleton_self _)

theorem wait_exit_small :
    (∃ ls t, Reaches smallLayout smallMem ls t ∧ t.Lists .wait [1] ∧ t.Lists .kill [2] ∧
      (t.kont 1).waitedPid = some 5 ∧ (t.proc 1).wait = -3 ∧ (t.proc 2).pid ≠ 5) ∧
    ∃ ls t l u x ys zs, Reaches smallLayout smallMem ls t ∧ Step smallLayout t l u ∧ WaitReturns t l 2 ∧
      .exit 2 ∈ t.trace ∧ ReapsOnly t u 2 x ys zs := by
  constructor
  · obtain ⟨ls, t, hreach, hcount, hkont, hwait, hkill⟩ := waits_on
    obtain ⟨-, -, hasleep⟩ := wait_exit hreach (by rw [hcount]; decide)
    obtain ⟨tf, hk⟩ := Kont.waitedPid_eq_some.mp hkont
    obtain ⟨hevent, hnone⟩ := hasleep 1 tf 5 [1] hk hwait (List.mem_singleton_self 1)
    exact ⟨ls, t, hreach, hwait, hkill, hkont, hevent, hnone [2] hkill 2 (List.mem_singleton_self 2)⟩
  · obtain ⟨s, ls, t, l, u, hboot, hall, hcount, hstep, -, hw, -⟩ := family_reaps
    have hreach : Reaches smallLayout smallMem ls t := ⟨s, hboot, performAll_run hall⟩
    obtain ⟨hreturns, -⟩ := wait_exit hreach (by rw [hcount]; decide)
    obtain ⟨hexit, x, ys, zs, hreaps⟩ := hreturns l u 2 hstep hw
    exact ⟨ls, t, l, u, x, ys, zs, hreach, hstep, hw, hexit, hreaps⟩

/-! ## `wake_up` -/

/-- `wake_up(w)` terminates. The processes with the event value `w` become ready and follow the old `ready_list`, the
others stay on `wait_list`, and both groups keep their order. -/
theorem wakeUp_partition {rs ws : List Proc} (w : Int) (hready : s.Lists .ready rs) (hwait : s.Lists .wait ws)
    (hdisjoint : rs.Disjoint ws) :
    ∃ t, wakeUp w s = .ok t ∧
      t.Lists .ready (rs ++ ws.filter fun i => (s.proc i).wait = w) ∧
      t.Lists .wait (ws.filter fun i => (s.proc i).wait ≠ w) ∧
      (∀ i ∈ ws, (s.proc i).wait = w → t.proc i = { s.proc i with state := .ready, next := (t.proc i).next }) ∧
      (∀ i, ¬(i ∈ ws ∧ (s.proc i).wait = w) → t.proc i = { s.proc i with next := (t.proc i).next }) ∧
      (∀ i, i ∉ rs → i ∉ ws → t.proc i = s.proc i) ∧
      t = { s with
        processTable := t.processTable
        pc := { s.pc with readyList := t.pc.readyList, waitList := t.pc.waitList }
        trace := s.trace ++ (ws.filter fun i => (s.proc i).wait = w).map (.append .ready) } := by
  obtain ⟨t, hrun, h⟩ := wakeUp_partitions hready hwait hdisjoint
  exact ⟨t, hrun, h.ready, h.wait, h.woken, h.others, fun i hr hw => h.unlisted i hr List.not_mem_nil hw, h.rest⟩

def listed (state : ProcState) (wait : Int) (next : ListPtr Proc) : Process Proc :=
  { (Process.zero : Process Proc) with next := next, state := state, wait := wait }

/-- Process 1 is ready, and 2, 3 and 4 sleep for the events -1, -2 and -1. -/
def sleeperTable (i : Proc) : Process Proc :=
  if i = 1 then listed .ready 0 .null
  else if i = 2 then listed .sleep (-1) (.item 3)
  else if i = 3 then listed .sleep (-2) (.item 4)
  else if i = 4 then listed .sleep (-1) .null
  else Process.zero

def sleepers : Kernel :=
  { Kernel.reset smallLayout fun _ => 0 with
    processTable := sleeperTable
    pc := ⟨idle, ⟨.item 1, .item 1⟩, ⟨.item 2, .item 4⟩, ⟨.null, .null⟩⟩ }

theorem wakeUp_partition_sleepers :
    ∃ t, wakeUp (-1) sleepers = .ok t ∧ t.Lists .ready [1, 2, 4] ∧ t.Lists .wait [3] := by
  have hready : sleepers.Lists .ready [1] := ⟨by decide, by decide⟩
  have hwait : sleepers.Lists .wait [2, 3, 4] := ⟨by decide, by decide⟩
  obtain ⟨t, hrun, h₁, h₂, -⟩ := wakeUp_partition (-1) hready hwait (by simp)
  have hwoken : [2, 3, 4].filter (fun i => (sleepers.proc i).wait = -1) = [2, 4] := by decide
  have hstay : [2, 3, 4].filter (fun i => (sleepers.proc i).wait ≠ -1) = [3] := by decide
  rw [hwoken] at h₁
  rw [hstay] at h₂
  exact ⟨t, hrun, h₁, h₂⟩

/-! ## A full process table -/

/-- `alloc_new_process` as its callers see it, who test the pointer for `NULL`. It has no path that returns `NULL`. -/
def allocResult (L : Layout) (s : Kernel) : Except Stop (Option Proc × Kernel) :=
  (allocNewProcess L s).map fun r => (some r.1, r.2)

/-- The slot `i`, which was unused, holds a new process with a stack and a page map of zeros. -/
structure Creates (s t : Kernel) (i : Proc) : Prop where
  unused : (s.proc i).state = .unused
  proc : ∃ stack pageMap, stack ≠ 0 ∧ pageMap ≠ 0 ∧ t.proc i = newProcess s i stack pageMap ∧
    ∀ x < pageSize, t.memory.mem (pageMap + x) = 0
  others : ∀ j, j ≠ i → t.proc j = s.proc j

/-- `alloc_new_process` creates a process or returns `NULL`; and with all slots in use it returns `NULL`, and the free
list is as it was. -/
structure AllocReports (L : Layout) (s : Kernel) : Prop where
  reports : ∃ i t, allocResult L s = .ok (i, t) ∧ ∀ j, i = some j → Creates s t j
  full : (∀ i, (s.proc i).state ≠ .unused) → ∃ t, allocResult L s = .ok (none, t) ∧ t.memory = s.memory

/-- `kalloc` returns this page if it is the first one of the free list. -/
structure Allocatable (L : Layout) (v : Nat) : Prop where
  ne_zero : v ≠ 0
  aligned : v % pageSize = 0
  start : L.imageEnd ≤ v
  «end» : v + pageSize ≤ heapMemoryEnd

theorem Allocatable.kalloc {M : Memory} (h : Allocatable L M.freeMemory) :
    kalloc L M = .ok (M.freeMemory, { M with freeMemory := M.mem.read 8 M.freeMemory }) := by
  simp [ArmOs.kalloc, ASSERT, require_of, h.ne_zero, h.aligned, h.start, h.end]

theorem kalloc_allocatable {M M' : Memory} {v : Nat} (h : kalloc L M = .ok (v, M')) (hv : v ≠ 0) :
    v = M.freeMemory ∧ Allocatable L v ∧ M' = { M with freeMemory := M.mem.read 8 v } := by
  unfold kalloc at h
  dsimp only at h
  split at h
  · rename_i hne
    obtain ⟨_, haligned, h⟩ := bind_eq_ok.mp h
    obtain ⟨_, hstart, h⟩ := bind_eq_ok.mp h
    obtain ⟨_, hend, h⟩ := bind_eq_ok.mp h
    cases h
    exact ⟨rfl, ⟨hne, require_eq_ok.mp haligned, require_eq_ok.mp hstart, require_eq_ok.mp hend⟩, rfl⟩
  · rename_i hzero
    cases h
    exact absurd (not_not.mp hzero) hv

/-- `alloc_new_process` does what its callers rely on exactly when there is an unused slot and the free list starts
with two pages. -/
theorem alloc_reports_iff (L : Layout) (s : Kernel) :
    AllocReports L s ↔ findUnusedProcess s ≠ none ∧ Allocatable L s.memory.freeMemory ∧
      Allocatable L (s.memory.mem.read 8 s.memory.freeMemory) := by
  constructor
  · intro h
    obtain ⟨i, t, hrun, -⟩ := h.reports
    obtain ⟨⟨j, u⟩, hu⟩ : ∃ r, allocNewProcess L s = .ok r := by
      cases halloc : allocNewProcess L s with
      | ok r => exact ⟨r, rfl⟩
      | error e => simp [allocResult, halloc, Except.map] at hrun
    obtain ⟨hfound, stack, pageMap, M₁, M₂, hk₁, hne₁, hk₂, hne₂, -⟩ := allocNewProcess_ok hu
    obtain ⟨rfl, hstack, rfl⟩ := kalloc_allocatable hk₁ hne₁
    obtain ⟨rfl, hmap, -⟩ := kalloc_allocatable hk₂ hne₂
    exact ⟨by simp [hfound], hstack, hmap⟩
  · rintro ⟨hslot, hstack, hmap⟩
    obtain ⟨i, hfound⟩ := Option.ne_none_iff_exists'.mp hslot
    have hunused := findUnusedProcess_eq_some hfound
    obtain ⟨M₂, hk₂⟩ : ∃ M₂, kalloc L ⟨newStack L s.memory.freeMemory s.memory.mem,
        s.memory.mem.read 8 s.memory.freeMemory⟩ = .ok (s.memory.mem.read 8 s.memory.freeMemory, M₂) := ⟨_, hmap.kalloc⟩
    obtain ⟨t, hrun⟩ : ∃ t, allocNewProcess L s = .ok (i, t) := by
      unfold newStack at hk₂
      simp only [allocNewProcess, hfound, hstack.kalloc, ok_bind, deref, ASSERT, ne_eq, hstack.ne_zero,
        not_false_eq_true, require_of, hk₂, hmap.ne_zero]
      exact ⟨_, rfl⟩
    obtain ⟨-, stack, pageMap, M₁, M₂', -, hne₁, -, hne₂, ht⟩ := allocNewProcess_ok hrun
    refine ⟨⟨some i, t, by rw [allocResult, hrun]; rfl, fun j hj => ?_⟩, fun hfull => absurd hunused (hfull i)⟩
    cases hj
    refine ⟨hunused, ⟨stack, pageMap, hne₁, hne₂, ?_, fun x hx => ?_⟩, (allocNewProcess_spec hrun).others⟩
    · rw [ht]
      exact s.setProc_self i _
    · rw [ht]
      simp [Mem.fill, hx]

/-- A kernel image that leaves forty-eight heap pages. -/
def fullLayout : Layout :=
  { smallLayout with
    imageEnd := heapMemoryEnd - 48 * pageSize
    imageEnd_le := by decide
    bootPgd_lt := by decide
    trapReturn_lt := by decide }

/-- The first process forks until all slots are in use. Its next `fork` takes a page from the free list and then stores
through a null pointer. -/
theorem fork_full : ∃ ls t v M, Reaches fullLayout smallMem ls t ∧ Enabled t (.svc .fork) ∧
    (∀ i, (t.proc i).state ≠ .unused) ∧ kalloc fullLayout t.memory = .ok (v, M) ∧ v ≠ 0 ∧
    allocNewProcess fullLayout t = .error .abort ∧ fork fullLayout t = .error .abort ∧ ¬AllocReports fullLayout t := by
  have h : ((boot fullLayout smallMem).toOption.bind fun s =>
      performAll fullLayout s ([.timer false] ++ List.replicate 8 (.svc .fork))).map (fun r =>
        decide (Enabled r.2 (.svc .fork) ∧ (∀ i, (r.2.proc i).state ≠ .unused) ∧
          ((kalloc fullLayout r.2.memory).toOption.map fun a => decide (a.1 ≠ 0)) = some true ∧
          stopped (allocNewProcess fullLayout r.2) = some .abort ∧ stopped (fork fullLayout r.2) = some .abort)) =
      some true := by
    decide +kernel
  obtain ⟨⟨ls, t⟩, hr, hd⟩ := Option.map_eq_some_iff.mp h
  obtain ⟨hen, hfull, hpage, halloc, hfork⟩ := of_decide_eq_true hd
  obtain ⟨s, hs, hall⟩ := Option.bind_eq_some_iff.mp hr
  have hboot := toOption_eq_some.mp hs
  obtain ⟨⟨v, M⟩, hk, hv⟩ := Option.map_eq_some_iff.mp hpage
  have hkalloc := toOption_eq_some.mp hk
  have habort := stopped_eq_some.mp halloc
  refine ⟨ls, t, v, M, ⟨s, hboot, performAll_run hall⟩, hen, hfull, hkalloc, of_decide_eq_true hv, habort,
    stopped_eq_some.mp hfork, fun hreports => ?_⟩
  obtain ⟨i, u, hrun, -⟩ := hreports.reports
  rw [allocResult, habort] at hrun
  cases hrun

end ArmOs
