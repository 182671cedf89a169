import ArmOs.Context.Lemmas.Switch
import ArmOs.Lib.Family

/-!
# What a program sees

A process is a private machine for its program: registers, one page, and system calls that give a value in `x0`. Here is
that machine, and what the kernel does to the one of the process that enters it.
-/

namespace ArmOs

open Lib El1

/-! ## The private machine -/

/-- The value of a system call. -/
def Context.setX0 (c : Context) (ret : Int) : Context := { c with x := Function.update c.x 0 (BitVec.ofInt 64 ret) }

/-- The context in which a program starts. -/
def Context.start : Context where
  x _ := 0
  spEl0 := BitVec.ofNat 64 (userBase + pageSize)
  pc := BitVec.ofNat 64 userBase
  pstate := 0

/-- The registers of a process, its page, and whether it is inside a system call. -/
@[ext] structure UserView where
  context : Context
  page : Fin pageSize → UInt8
  calling : Bool

/-- What the program may see next, or nothing if the process ends. -/
inductive UserView.Step : UserView → Act → Option UserView → Prop
  | own {c c' : Context} {page : Fin pageSize → UInt8} : Step ⟨c, page, false⟩ none (some ⟨c', page, false⟩)
  | store {c : Context} {page : Fin pageSize → UInt8} {va : Nat} {b : UInt8} {i : Fin pageSize} : va = userBase + i →
      Step ⟨c, page, false⟩ (some (.store va b, none)) (some ⟨c, Function.update page i b, false⟩)
  | timer {v : UserView} {istatus : Bool} : v.calling = false → Step v (some (.timer istatus, none)) (some v)
  | uart {v : UserView} {ch : Option UInt8} : v.calling = false → Step v (some (.uart ch, none)) (some v)
  | fault {v : UserView} : v.calling = false → Step v (some (.fault, none)) none
  | exits {v : UserView} {call : Syscall} : call.effects.ends → v.calling = false → Step v (some (.svc call, none)) none
  | waits {c : Context} {page : Fin pageSize → UInt8} {call : Syscall} : call.effects.waits →
      Step ⟨c, page, false⟩ (some (.svc call, none)) (some ⟨c, page, true⟩)
  | returns {c : Context} {page page' : Fin pageSize → UInt8} {call : Syscall} {ret : Int} :
      ¬call.effects.writes .stack → (¬call.effects.writes .frame → page' = page) →
      Step ⟨c, page, false⟩ (some (.svc call, some ret)) (some ⟨c.setX0 ret, page', false⟩)
  | exec {c : Context} {page page' : Fin pageSize → UInt8} {path : Nat → UInt8} {ret : Int} :
      Step ⟨c, page, false⟩ (some (.svc (.exec path), some ret)) (some ⟨.start, page', false⟩)
  | waitsOn {v : UserView} : v.calling = true → Step v (some (.resume, none)) (some v)
  | resumes {c : Context} {page : Fin pageSize → UInt8} {ret : Int} :
      Step ⟨c, page, true⟩ (some (.resume, some ret)) (some ⟨c.setX0 ret, page, false⟩)

/-- The child of a process that calls `fork`. -/
def UserView.Child (v : UserView) (act : Act) (w : UserView) : Prop :=
  act.map Prod.fst = some (.svc .fork) ∧ w = ⟨v.context.setX0 0, v.page, false⟩

/-! ## Views of the kernel -/

/-- What a process that does not run will see. -/
def Kernel.view (s : Kernel) (p : Proc) : UserView where
  context := contextAt s.memory.mem (s.stackTop p - TrapFrame.size)
  page i := s.memory.mem (s.pageOf p .frame + i)
  calling := s.kont p ≠ .ret

/-- The processes that have not exited. -/
def Kernel.views (s : Kernel) (p : Proc) : Option UserView := if p ≠ idle ∧ s.Alive p then some (s.view p) else none

/-- A process that runs its own code has its registers in the processor. -/
def Machine.view (a : Machine) (p : Proc) : UserView :=
  if a.Runs p then { a.kernel.view p with context := a.context } else a.kernel.view p

def Machine.views (a : Machine) (p : Proc) : Option UserView :=
  if p ≠ idle ∧ a.kernel.Alive p then some (a.view p) else none

variable {C : Code} {L : Layout} {s t u : Kernel} {m m' : Mem} {p q : Proc} {xs : List Nat} {tf : Nat} {ev : Event}
  {r : Option Int} {E : Effects}

theorem Kernel.views_eq_some {v : UserView} : s.views p = some v ↔ (p ≠ idle ∧ s.Alive p) ∧ s.view p = v := by
  rw [Kernel.views]
  split
  · rename_i h
    simp [h]
  · rename_i h
    simp [h]

theorem Kernel.views_eq_none : s.views p = none ↔ ¬(p ≠ idle ∧ s.Alive p) := by
  rw [Kernel.views]
  split
  · rename_i h
    simp [h]
  · rename_i h
    simp [h]

theorem Kernel.views_alive (hp : p ≠ idle) (h : s.Alive p) : s.views p = some (s.view p) := if_pos ⟨hp, h⟩

theorem Kernel.views_killed (h : (s.proc p).state = .killed) : s.views p = none :=
  Kernel.views_eq_none.mpr fun hp => hp.2.2 h

theorem contextAt_congr (h : Mem.Same m m' tf TrapFrame.size) : contextAt m' tf = contextAt m tf := by
  have hfields : TrapFrame.sp0 + 8 ≤ TrapFrame.size ∧ TrapFrame.elr + 8 ≤ TrapFrame.size ∧
      TrapFrame.spsr + 8 ≤ TrapFrame.size := by decide
  apply Context.ext
  · funext i
    have hi : TrapFrame.x i + 8 ≤ TrapFrame.size := by
      rw [TrapFrame.x, TrapFrame.size]
      omega
    exact word_congr (h.sub (by omega) (by omega))
  · exact word_congr (h.sub (by omega) (by omega))
  · exact word_congr (h.sub (by omega) (by omega))
  · exact word_congr (h.sub (by omega) (by omega))

/-- Storing the result of a system call. -/
theorem contextAt_setX0 (m : Mem) (tf : Nat) (ret : Int) :
    contextAt (m.write 8 (tf + TrapFrame.x 0) (ret % 2 ^ 64).toNat) tf = (contextAt m tf).setX0 ret := by
  have hfields : TrapFrame.x 0 + 8 ≤ TrapFrame.sp0 ∧ TrapFrame.x 0 + 8 ≤ TrapFrame.elr ∧
      TrapFrame.x 0 + 8 ≤ TrapFrame.spsr := by decide
  have hother : ∀ k, TrapFrame.x 0 + 8 ≤ k →
      word (m.write 8 (tf + TrapFrame.x 0) (ret % 2 ^ 64).toNat) (tf + k) = word m (tf + k) := fun k hk =>
    word_congr (Mem.write_same (.inr (by omega)))
  apply Context.ext
  · funext i
    by_cases hi : i = 0
    · subst hi
      have hret : (ret % 2 ^ 64).toNat = (BitVec.ofInt 64 ret).toNat := by
        rw [BitVec.toNat_ofInt]
        rfl
      simp only [contextAt, Context.setX0, Function.update_self]
      rw [hret]
      exact word_write m _ _
    · simp only [contextAt, Context.setX0, Function.update_of_ne hi]
      apply hother
      have hpos : i.val ≠ 0 := fun he => hi (Fin.ext he)
      simp only [TrapFrame.x]
      omega
  · exact hother _ hfields.1
  · exact hother _ hfields.2.1
  · exact hother _ hfields.2.2

theorem contextAt_startFrame (m : Mem) (tf : Nat) : contextAt (startFrame m tf) tf = .start := by
  obtain ⟨helr, hsp0, hzero⟩ := startByte_fields
  have hread : ∀ k, k + 8 ≤ TrapFrame.size → word (startFrame m tf) (tf + k) = BitVec.ofNat 64 (startByte.read 8 k) := by
    intro k hk
    rw [word, Mem.read_shift (m := startByte) (a := k)]
    intro i hi
    rw [Nat.add_assoc]
    exact startFrame_apply m tf (by omega)
  apply Context.ext
  · funext i
    have hi : TrapFrame.x i + 8 ≤ TrapFrame.sp0 := by
      rw [TrapFrame.x, TrapFrame.sp0]
      omega
    have hfields : TrapFrame.sp0 ≤ TrapFrame.elr ∧ TrapFrame.sp0 ≤ TrapFrame.size := by decide
    have hx : startByte.read 8 (TrapFrame.x i) = 0 := by
      apply Mem.read_of_digits (v := 0)
      intro j hj
      rw [hzero _ (by omega) (by omega)]
      simp
    exact (hread _ (by omega)).trans (by rw [hx]; rfl)
  · exact (hread _ (by decide)).trans (by rw [hsp0]; rfl)
  · exact (hread _ (by decide)).trans (by rw [helr]; rfl)
  · have hspsr : startByte.read 8 TrapFrame.spsr = 0 := by decide
    exact (hread _ (by decide)).trans (by rw [hspsr]; rfl)

theorem Context.start_setX0 : Context.start.setX0 0 = .start := by
  apply Context.ext
  · funext i
    by_cases hi : i = 0
    · subst hi
      rfl
    · simp [Context.setX0, hi]
  · rfl
  · rfl
  · rfl

theorem SameUsers.view (h : SameUsers s t) (hp : s.IsUser p) : t.view p = s.view p := by
  apply UserView.ext
  · simp only [Kernel.view]
    rw [(h.stack p).2]
    exact contextAt_congr (h.frame p hp.2)
  · funext i
    simp only [Kernel.view]
    rw [h.page p .frame hp]
    exact h.memory p .frame hp (by simp) _ (by omega) (by omega)
  · simp only [Kernel.view]
    rw [h.kont]

/-! ## The process that enters the kernel -/

/-- The stack and the frame of the current process are where they were. -/
def SamePlaces (s t : Kernel) : Prop :=
  t.stackTop s.current = s.stackTop s.current ∧ t.pageOf s.current .frame = s.pageOf s.current .frame

section

variable (hs : Good s) (hc : s.current ≠ idle)

include hs hc

theorem Turned.samePlaces (ht : Turned C.toLayout s ev t) : SamePlaces s t := by
  have hbe := ht.leavesBe s.current hs.live ht.actor
  have hpages := ht.leavesPages s.current ⟨hc, hs.live⟩ ht.actor
  exact ⟨(Kernel.stack_congr hbe.stack).2, hpages.page .frame⟩

theorem Good.view_context : (s.view s.current).context = contextAt s.memory.mem (s.proc s.current).tf := by
  rw [hs.tf_top ⟨hc, hs.live⟩]
  rfl

/-- A handler has returned, and its value has been stored. -/
theorem CallEnds.view_returns {ret : Int} (h : PageInv C.toLayout s xs) (ht : SamePlaces s t)
    (he : CallEnds s E (some ret) u) (hret : s.kont s.current = .ret)
    (htu : returnX0 (s.proc s.current).tf (some ret, u) = (r, t)) :
    (t.view s.current).context = (contextAt u.memory.mem (s.proc s.current).tf).setX0 ret ∧
      (¬E.writes .frame → (t.view s.current).page = (s.view s.current).page) ∧ (t.view s.current).calling = false := by
  obtain ⟨htop, hframe⟩ := ht
  have hu : s.IsUser s.current := ⟨hc, hs.live⟩
  have htf := hs.tf_top hu
  obtain ⟨hle, hend⟩ := hs.tf_stack hc
  have hx0 : TrapFrame.x 0 + 8 ≤ TrapFrame.size := by decide
  obtain ⟨-, hkont⟩ := he.back (by simp)
  obtain ⟨-, rfl⟩ := Prod.mk.inj htu
  refine ⟨?_, fun hE => ?_, ?_⟩
  · simp only [Kernel.view]
    rw [htop, ← htf]
    exact contextAt_setX0 u.memory.mem _ ret
  · -- the trap frame is not on the page
    have hstack : Mem.Same u.memory.mem (u.memory.mem.write 8 ((s.proc s.current).tf + TrapFrame.x 0) (ret % 2 ^ 64).toNat)
        (s.pageOf s.current .frame) pageSize := by
      have hapart := (h.page hu .stack).disjoint (h.page hu .frame) (h.ne hu hu (.inr (by simp)))
      apply Mem.write_same
      omega
    funext i
    simp only [Kernel.view]
    rw [hframe]
    exact ((he.memory .frame hE).trans hstack) _ (Nat.le_add_right _ _) (Nat.add_lt_add_left i.isLt _)
  · simp only [Kernel.view]
    have hkont' : u.kont s.current = .ret := hkont.trans hret
    simp [Kernel.setMem, hkont']

/-- The same, when the handler has left the trap frame alone. -/
theorem CallEnds.view_setX0 {ret : Int} (h : PageInv C.toLayout s xs) (ht : SamePlaces s t)
    (he : CallEnds s E (some ret) u) (hstack : ¬E.writes .stack) (hret : s.kont s.current = .ret)
    (htu : returnX0 (s.proc s.current).tf (some ret, u) = (r, t)) :
    t.view s.current = ⟨(s.view s.current).context.setX0 ret, (t.view s.current).page, false⟩ ∧
      (¬E.writes .frame → (t.view s.current).page = (s.view s.current).page) := by
  obtain ⟨hcontext, hpage, hcalling⟩ := he.view_returns hs hc h ht hret htu
  obtain ⟨hle, hend⟩ := hs.tf_stack hc
  have hframe : Mem.Same s.memory.mem u.memory.mem (s.proc s.current).tf TrapFrame.size :=
    (he.memory .stack hstack).sub hle (Nat.le_of_eq hend)
  refine ⟨UserView.ext ?_ rfl hcalling, hpage⟩
  rw [hcontext, contextAt_congr hframe, ← hs.view_context hc]

omit hs in
/-- A handler has switched: the process waits in the kernel, or it has ended. -/
theorem CallEnds.views_away (ht : SamePlaces s t) (he : CallEnds s E none t) :
    E.ends ∧ t.views s.current = none ∨
      E.waits ∧ t.views s.current = some { s.view s.current with calling := true } := by
  obtain ⟨htop, hframe⟩ := ht
  cases he.away rfl with
  | inl hkilled => exact .inl ⟨hkilled.1, Kernel.views_killed hkilled.2⟩
  | inr hwaits =>
      obtain ⟨hE, halive, hkont, hmem⟩ := hwaits
      refine .inr ⟨hE, Kernel.views_eq_some.mpr ⟨⟨hc, halive⟩, ?_⟩⟩
      apply UserView.ext
      · simp only [Kernel.view]
        rw [htop, hmem]
      · simp only [Kernel.view]
        rw [hframe, hmem]
      · simpa [Kernel.view] using hkont

omit hs in
/-- A handler that has returned leaves the process running. -/
theorem CallEnds.views_back {ret : Int} (hgood : Good t) (he : CallEnds s E (some ret) u)
    (htu : returnX0 (s.proc s.current).tf (some ret, u) = (r, t)) : t.views s.current = some (t.view s.current) := by
  obtain ⟨-, rfl⟩ := Prod.mk.inj htu
  have hcur : u.current = s.current := (he.back (by simp)).1
  have halive := hgood.current_alive
  apply Kernel.views_alive hc
  rw [← hcur]
  exact halive

/-- The process enters the kernel with a system call. -/
theorem systemCall_view {call : Syscall} (h : PageInv C.toLayout s xs) (ht : SamePlaces s t) (hgood : Good t)
    (hptr : (Event.svc call).UserPointers) (hret : s.kont s.current = .ret)
    (hrun : systemCall C.toLayout (s.proc s.current).tf call s = .ok (r, t)) :
    UserView.Step (s.view s.current) (some (.svc call, r)) (t.views s.current) := by
  obtain ⟨⟨r', u⟩, hcall, hrun⟩ := bind_eq_ok.mp hrun
  have hreturn := pure_eq_ok.mp hrun
  have hends := syscallHandler_ends h hs hc hptr hcall
  have hview : s.view s.current = ⟨(s.view s.current).context, (s.view s.current).page, false⟩ := by
    simp [Kernel.view, hret]
  cases r' with
  | none =>
      cases hreturn
      cases hends.views_away hc ht with
      | inl hkilled =>
          rw [hkilled.2]
          exact .exits hkilled.1 (congrArg UserView.calling hview)
      | inr hwaits =>
          rw [hwaits.2, hview]
          exact .waits hwaits.1
  | some ret =>
      rw [hends.views_back hc hgood hreturn]
      obtain ⟨rfl, -⟩ := Prod.mk.inj hreturn
      by_cases hexec : ∃ path, call = .exec path
      · obtain ⟨path, rfl⟩ := hexec
        obtain ⟨hcontext, -, hcalling⟩ := hends.view_returns hs hc h ht hret hreturn
        dsimp only [syscallHandler] at hcall
        obtain ⟨hzero, m, hm⟩ := (exec_ends hs hc hcall).2 (by simp)
        obtain rfl := Option.some.inj hzero
        have hstart : t.view s.current = ⟨.start, (t.view s.current).page, false⟩ := by
          refine UserView.ext ?_ rfl hcalling
          rw [hcontext, hm, contextAt_startFrame, Context.start_setX0]
        rw [hview, hstart]
        exact .exec
      · have hstack : ¬call.effects.writes .stack := by
          cases call with
          | exec path => exact absurd ⟨path, rfl⟩ hexec
          | readFile => simp [Syscall.effects]
          | readRootDirectory => simp [Syscall.effects]
          | _ => exact id
        obtain ⟨hback, hpage⟩ := hends.view_setX0 hs hc h ht hstack hret hreturn
        rw [hview, hback]
        exact .returns hstack hpage

/-- The process goes on inside a system call. -/
theorem resume_view (h : PageInv C.toLayout s xs) (ht : SamePlaces s t) (hgood : Good t) (hin : s.inKernel)
    (hrun : resume C.toLayout s = .ok (r, t)) :
    UserView.Step (s.view s.current) (some (.resume, r)) (t.views s.current) := by
  have hpart : Part C.toLayout s .resume s (s.setKont s.current .ret) := .resume s hc rfl
  have hs₀ := hpart.good hs
  have h₀ : PageInv C.toLayout (s.setKont s.current .ret) xs :=
    h.same ⟨rfl, rfl, fun _ => Iff.rfl, fun _ => rfl, fun _ => rfl⟩ rfl
  have hkont₀ : (s.setKont s.current .ret).kont s.current = .ret := by simp [Kernel.setKont]
  have hview : s.view s.current = ⟨(s.view s.current).context, (s.view s.current).page, true⟩ := by
    have hcalling : s.kont s.current ≠ .ret := hin
    simp [Kernel.view, hcalling]
  -- the handler works on the state in which the process is not in the kernel any more
  have hends : ∀ {r' u}, CallEnds (s.setKont s.current .ret) .waiting r' u →
      returnX0 (s.proc s.current).tf (r', u) = (r, t) →
      UserView.Step (s.view s.current) (some (.resume, r)) (t.views s.current) := by
    intro r' u he hreturn
    cases r' with
    | none =>
        cases hreturn
        have ht₀ : SamePlaces (s.setKont s.current .ret) t := ht
        cases CallEnds.views_away (s := s.setKont s.current .ret) hc ht₀ he with
        | inl hkilled => exact absurd hkilled.1 id
        | inr hwaits =>
            have hsame : t.views s.current = some (s.view s.current) := by
              rw [hview]
              exact hwaits.2
            rw [hsame]
            exact .waitsOn (congrArg UserView.calling hview)
    | some ret =>
        have hviews := CallEnds.views_back (s := s.setKont s.current .ret) hc hgood he hreturn
        obtain ⟨hback, hpage⟩ := CallEnds.view_setX0 (s := s.setKont s.current .ret) hs₀ hc h₀ ht he id hkont₀ hreturn
        obtain ⟨rfl, -⟩ := Prod.mk.inj hreturn
        have hsame : (t.view s.current).page = (s.view s.current).page := hpage id
        have hback' : t.views s.current = some ⟨(s.view s.current).context.setX0 ret, (s.view s.current).page, false⟩ := by
          rw [← hsame]
          exact hviews.trans (congrArg some hback)
        rw [hview, hback']
        exact .resumes
  have hon := hs.procs.kontOn s.current hs.live
  unfold resume at hrun
  dsimp only at hrun
  cases hk : s.kont s.current with
  | ret => exact absurd hk hin
  | wait tf pid =>
      rw [hk] at hrun hon
      obtain rfl : tf = _ := hon
      obtain ⟨⟨r', u⟩, hwait, hrun⟩ := bind_eq_ok.mp hrun
      exact hends (sysWait_ends h₀ hs₀ hc trivial hwait) (pure_eq_ok.mp hrun)
  | sysSleep tf oldTicks sleepTicks =>
      rw [hk] at hrun hon
      obtain rfl : tf = _ := hon
      obtain ⟨⟨r', u⟩, hloop, hrun⟩ := bind_eq_ok.mp hrun
      exact hends (sysSleepLoop_ends hs₀ hc trivial hloop) (pure_eq_ok.mp hrun)
  | readKeyBuffer tf front =>
      rw [hk] at hrun hon
      obtain rfl : tf = _ := hon
      exact hends (.sameMemory (takeKey_same front _) rfl) (Except.ok.inj hrun)

omit hs hc in
/-- An interrupt leaves the process as it is. -/
theorem interrupt_view (ht : SamePlaces s t) (hmem : t.memory = s.memory) (hkont : t.kont = s.kont) :
    t.view s.current = s.view s.current := by
  obtain ⟨htop, hframe⟩ := ht
  apply UserView.ext
  · simp only [Kernel.view]
    rw [htop, hmem]
  · simp only [Kernel.view]
    rw [hframe, hmem]
  · simp only [Kernel.view]
    rw [hkont]

end

end ArmOs
