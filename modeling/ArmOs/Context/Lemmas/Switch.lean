import ArmOs.Context.Lemmas.Stacks

/-!
# What `swap` leads to

A process that does not run has either never run, and `swap` leads to `trap_return`, or it has called `swap` itself,
and what it counts on is still on its stack. The invariant of the machine says so of all processes that have not exited.
-/

namespace ArmOs

open Lib El1

variable {C : Code} {s t u : Kernel} {m : Mem} {p q : Proc} {xs : List Nat} {calls calls' : Proc → Call}
  {parked parked' : Proc → Option SwapCall} {a b : Machine} {c : Cpu}

/-! ## Processes that wait for the processor -/

/-- What the process has on its stack, inside the call of `exception_handler` and that of `swap`. -/
structure Suspended (C : Code) (s : Kernel) (call : Call) (r : SwapCall) (p : Proc) : Prop where
  top : call.sp.toNat + TrapFrame.size = s.stackTop p
  le : r.sp.toNat ≤ call.sp.toNat
  base : s.stackBase p + 12 * 8 ≤ r.sp.toNat
  context : (s.proc p).context + 12 * 8 = r.sp.toNat
  frame : SwapFrame s.memory.mem (s.proc p).context r.saved C.swapReturn
  mem : ∀ x, r.sp.toNat ≤ x → x < call.sp.toNat → s.memory.mem x = r.mem x

/-- `swap` can go on with the process. -/
inductive Resumable (C : Code) (s : Kernel) (calls : Proc → Call) (parked : Proc → Option SwapCall) (p : Proc) : Prop
  | fresh : s.kont p = .ret → (s.proc p).context + 12 * 8 + TrapFrame.size = s.stackTop p →
      s.stackBase p ≤ (s.proc p).context →
      word s.memory.mem ((s.proc p).context + 11 * 8) = BitVec.ofNat 64 C.trapReturn → Resumable C s calls parked p
  | suspended {r : SwapCall} : parked p = some r → Suspended C s (calls p) r p → Resumable C s calls parked p

/-- Nothing of the process has changed, and nothing on its stack. -/
theorem Resumable.congr (h : Resumable C s calls parked p) (hstack : (t.proc p).stack = (s.proc p).stack)
    (hcontext : (t.proc p).context = (s.proc p).context) (hkont : t.kont p = s.kont p) (hcalls : calls' p = calls p)
    (hparked : parked' p = parked p)
    (hmem : Mem.Same s.memory.mem t.memory.mem (s.stackBase p) (s.stackTop p - s.stackBase p)) :
    Resumable C t calls' parked' p := by
  obtain ⟨hbase, htop⟩ := Kernel.stack_congr hstack
  cases h with
  | fresh hret hend hle hx30 =>
      refine .fresh (hkont.trans hret) (by rw [hcontext, htop, hend]) (by rw [hcontext, hbase]; exact hle) ?_
      rw [hcontext]
      exact (word_congr (hmem.sub (by omega) (by omega))).trans hx30
  | @suspended r hr hs =>
      obtain ⟨hcall, hle, hroom, hctx, hframe, hown⟩ := hs
      refine .suspended (hparked.trans hr) ⟨?_, ?_, ?_, ?_, ?_, fun x hx hlt => ?_⟩
      · rw [hcalls, htop, hcall]
      · rw [hcalls]
        exact hle
      · rw [hbase]
        exact hroom
      · rw [hcontext, hctx]
      · rw [hcontext]
        exact hframe.congr (hmem.sub (by omega) (by omega))
      · rw [hcalls] at hlt
        exact (hmem x (by omega) (by omega)).trans (hown x hx hlt)

theorem Resumable.context_le (h : Resumable C s calls parked p) : (s.proc p).context + 12 * 8 ≤ s.stackTop p := by
  cases h with
  | fresh hret hend => omega
  | suspended hr hs =>
      obtain ⟨hcall, hle, hroom, hctx, -⟩ := hs
      omega

/-- `swap` has loaded the registers `c` of the process: it comes to `trap_return` at its trap frame, or back to its own
call of `swap`, which finds all that it counts on. -/
def Resumes (C : Code) (s : Kernel) (calls : Proc → Call) (parked : Proc → Option SwapCall) (p : Proc) (c : Cpu) : Prop :=
  (c.x 30 = BitVec.ofNat 64 C.trapReturn ∧ s.kont p = .ret ∧ c.sp.toNat + TrapFrame.size = s.stackTop p) ∨
    (c.x 30 = C.swapReturn ∧ (calls p).sp.toNat + TrapFrame.size = s.stackTop p ∧
      ∃ r, parked p = some r ∧ r.Restored (calls p).sp.toNat c s.memory.mem)

theorem Resumable.resumes (h : Resumable C s calls parked p) (hpages : PageInv C.toLayout s xs) (hp : s.Live p)
    (hx1 : c.x 1 = BitVec.ofNat 64 (s.proc p).context) :
    Resumes C s calls parked p (run swapLoad (c, s.memory.mem)).1 := by
  obtain ⟨hroom, hwrap⟩ := hpages.stack_bounds hp
  have hctx := h.context_le
  have hx1' : (c.x 1).toNat = (s.proc p).context := by
    rw [hx1, BitVec.toNat_ofNat]
    omega
  cases h with
  | fresh hret hend hle hx30 =>
      have hframe : SwapFrame s.memory.mem (s.proc p).context
          (fun i => word s.memory.mem ((s.proc p).context + 8 * i)) (BitVec.ofNat 64 C.trapReturn) := ⟨fun _ => rfl, hx30⟩
      obtain ⟨hsp, -, hlr, -⟩ := swapLoad_run hframe hx1' (by omega)
      exact .inl ⟨hlr, hret, by omega⟩
  | @suspended r hr hsus =>
      obtain ⟨htop, hle, hbase, hcontext, hframe, hown⟩ := hsus
      obtain ⟨hsp, hsaved, hlr, -⟩ := swapLoad_run hframe hx1' (by omega)
      have hspeq : (run swapLoad (c, s.memory.mem)).1.sp = r.sp := BitVec.eq_of_toNat_eq (hsp.trans hcontext)
      exact .inr ⟨hlr, htop, r, hr, hspeq, hsaved, hown⟩

/-! ## The invariant -/

/-- The kernel and the processor are in order. -/
structure MachineInv (C : Code) (a : Machine) : Prop where
  good : Good a.kernel
  pages : ∃ xs, PageInv C.toLayout a.kernel xs
  others : ∀ p, a.kernel.Alive p → p ≠ a.kernel.current → Resumable C a.kernel a.calls a.parked p
  own : ¬a.kernel.inKernel → a.cpu.sp.toNat = a.kernel.stackTop a.kernel.current
  inside : a.kernel.inKernel →
    (a.calls a.kernel.current).sp.toNat + TrapFrame.size = a.kernel.stackTop a.kernel.current

/-- After the C code of `p`, `s` is the state of the kernel in which the machine `b` goes on. -/
structure Settled (C : Code) (s : Kernel) (b : Machine) : Prop where
  inv : MachineInv C b
  same : SameUsers s b.kernel
  context : ¬b.kernel.inKernel →
    b.context = contextAt b.kernel.memory.mem (b.kernel.stackTop b.kernel.current - TrapFrame.size)

/-- `trap_return`, after the C code has stored to the stack below the trap frame. -/
theorem leave_settled {top : Nat} (hs : Good s) (hpages : PageInv C.toLayout s xs)
    (hothers : ∀ q, s.Alive q → q ≠ s.current → Resumable C s calls parked q)
    (hcall : s.inKernel → (calls s.current).sp.toNat + TrapFrame.size = s.stackTop s.current)
    (htop : top + TrapFrame.size = s.stackTop s.current) (hc : c.sp.toNat = top)
    (hm : s.Scribbled s.current top m) : Settled C s (leave s calls parked c m) := by
  obtain ⟨hroom, hwrap⟩ := hpages.stack_bounds hs.live
  have hle : top ≤ s.stackTop s.current := by omega
  obtain ⟨hcontext, hkernel, hsp⟩ := leave_context s calls parked m hc (by omega)
  have hsame : (s.setMem m).stackTop (s.setMem m).current = s.stackTop s.current := rfl
  refine ⟨⟨?_, ?_, ?_, ?_, ?_⟩, ?_, ?_⟩
  · rw [hkernel]
    exact hs.ofSame (.setMem s m)
  · rw [hkernel]
    exact ⟨xs, (hm.pageInv hpages hs.live hle).1⟩
  · rw [hkernel]
    intro q hq hne
    exact (hothers q hq hne).congr rfl rfl rfl rfl rfl (hm.stack hpages hs.live hle hq.1 hne)
  · intro _
    rw [hsp, hkernel, hsame]
    exact htop
  · rw [hkernel]
    exact hcall
  · rw [hkernel]
    exact .scribbled hm hpages hs.live htop
  · intro _
    rw [hcontext, hkernel, hsame, ← htop, Nat.add_sub_cancel]
    rfl

/-! ## `swap` -/

/-- The process calls `swap`. -/
structure Swaps (C : Code) (p : Proc) (s : Kernel) (call : Call) (c : Cpu) (m : Mem) : Prop where
  other : s.current ≠ p
  scribbled : s.Scribbled p call.sp.toNat m
  base : s.stackBase p + 12 * 8 ≤ c.sp.toNat
  le : c.sp.toNat ≤ call.sp.toNat
  x30 : c.x 30 = C.swapReturn
  x1 : c.x 1 = BitVec.ofNat 64 (s.proc s.current).context

/-- The registers of `p` are on its stack, and the others have lost nothing. -/
theorem Swaps.saved (h : Swaps C p s (calls p) c m) (hs : Good s) (hpages : PageInv C.toLayout s xs) (hp : s.Live p)
    (hcall : (calls p).sp.toNat + TrapFrame.size = s.stackTop p)
    (hothers : ∀ q, s.Alive q → q ≠ p → Resumable C s calls parked q) :
    let t := (swapped p s c m).1
    SameUsers s t ∧ Good t ∧ PageInv C.toLayout t xs ∧ (t.proc s.current).context = (s.proc s.current).context ∧
      ∀ q, t.Alive q → Resumable C t calls (Function.update parked p (some ⟨c.sp, calleeSaved c, m⟩)) q := by
  intro t
  obtain ⟨hne, hm, hbase, hle, hx30, -⟩ := h
  obtain ⟨hctx, hframe, hout⟩ := swapSave_frame (c := c) m (by omega)
  rw [hx30] at hframe
  have ht : t = (s.setMem (run swapSave (c, m)).2).setContext p ((run swapSave (c, m)).1.x 2).toNat := rfl
  generalize ((run swapSave (c, m)).1.x 2).toNat = context at *
  generalize (run swapSave (c, m)).2 = m' at *
  have hm' : s.Scribbled p (calls p).sp.toNat m' := by
    apply hm.trans
    intro x hx
    exact hout x 1 (by omega) x (Nat.le_refl x) (Nat.lt_succ_self x)
  have htop : (calls p).sp.toNat ≤ s.stackTop p := by omega
  have hsame : SameUsers s t := by
    rw [ht]
    exact (SameUsers.scribbled hm' hpages hp hcall).trans (.setContext _ p context)
  have hmem : t.memory.mem = m' := by
    rw [ht]
    rfl
  have hself : (t.proc p).context = context := by
    rw [ht]
    exact Kernel.setContext_self _ p context
  have hother : ∀ q, q ≠ p → (t.proc q).context = (s.proc q).context := by
    intro q hq
    rw [ht, Kernel.setContext_other _ context hq]
    rfl
  obtain ⟨hb, htopeq⟩ := hsame.stack p
  refine ⟨hsame, ?_, ?_, hother _ hne, fun q hq => ?_⟩
  · rw [ht]
    exact (hs.ofSame (.setMem s m')).setContext p context
  · rw [ht]
    have hpages' := (hm'.pageInv hpages hp htop).1
    exact (hpages'.same (.setContext _ p context) rfl)
  · by_cases hqp : q = p
    · subst hqp
      refine .suspended (Function.update_self _ _ _) ⟨?_, hle, ?_, ?_, ?_, fun x hx hlt => ?_⟩
      · rw [htopeq]
        exact hcall
      · rw [hb]
        exact hbase
      · rw [hself]
        exact hctx
      · rw [hself, hmem]
        exact hframe
      · rw [hmem]
        exact hout x 1 (.inr hx) x (Nat.le_refl x) (Nat.lt_succ_self x)
    · have halive := (hsame.alive q).mp hq
      apply (hothers q halive hqp).congr
      · rw [hsame.proc]
      · exact hother q hqp
      · rw [hsame.kont]
      · rfl
      · exact Function.update_of_ne hqp _ _
      · rw [hmem]
        exact hm'.stack hpages hp htop halive.1 hqp

/-- `swap` goes on with the current process: it has what it needs. -/
theorem GoesOn.settled (h : GoesOn C s calls parked c a) (hs : Good s) (hpages : PageInv C.toLayout s xs)
    (hw : ∀ q, s.Alive q → Resumable C s calls parked q) {r : Cpu} (hx1 : r.x 1 = BitVec.ofNat 64 (s.proc s.current).context)
    (hc : c = (run swapLoad (r, s.memory.mem)).1) : Settled C s a := by
  have hresumes := (hw s.current hs.current_alive).resumes hpages hs.live hx1
  have hothers : ∀ q, s.Alive q → q ≠ s.current → Resumable C s calls parked q := fun q hq _ => hw q hq
  rw [← hc] at hresumes
  cases hresumes with
  | inl hfresh =>
      obtain ⟨hlr, hret, hsp⟩ := hfresh
      cases h with
      | first hlr' => exact leave_settled hs hpages hothers (fun hin => absurd hret hin) hsp rfl (.refl s _ _)
      | returns hlr' => exact absurd (hlr'.symm.trans hlr) C.swapReturn_ne
      | inside hlr' => exact absurd (hlr'.symm.trans hlr) C.swapReturn_ne
      | undefined hlr' => exact absurd hlr hlr'
  | inr hback =>
      obtain ⟨hlr, htop, r', hr, hrestored⟩ := hback
      cases h with
      | first hlr' => exact absurd (hlr.symm.trans hlr') C.swapReturn_ne
      | returns hlr' hr' hrestored' hret hreturns hm =>
          exact leave_settled hs hpages hothers (fun hin => absurd hin hret) htop (congrArg _ hreturns.1) hm
      | inside hlr' hr' hrestored' hin hkernel hcalls hparked =>
          subst hkernel hcalls hparked
          exact ⟨⟨hs, ⟨xs, hpages⟩, hothers, fun hret => absurd hin hret, fun _ => htop⟩, .refl _,
            fun hret => absurd hin hret⟩
      | undefined hlr' hnot => exact absurd ⟨hlr, r', hr, hrestored⟩ hnot

/-- Whatever the C code of `p` does, the machine is in order when the code of a process goes on. -/
theorem TurnEnds.settled (h : TurnEnds C p s calls parked b) (hs : Good s) (hpages : PageInv C.toLayout s xs)
    (hp : s.Live p) (hcall : (calls p).sp.toNat + TrapFrame.size = s.stackTop p)
    (hothers : ∀ q, s.Alive q → q ≠ p → Resumable C s calls parked q) : Settled C s b := by
  cases h with
  | returns hcur hreturns hm =>
      subst hcur
      exact leave_settled hs hpages hothers (fun _ => hcall) hcall (congrArg _ hreturns.1) hm
  | @switches c m _ hne hm hbase hle hx30 hx1 hgoes =>
      have hswaps : Swaps C p s (calls p) c m := ⟨hne, hm, hbase, hle, hx30, hx1⟩
      obtain ⟨hsame, hgood, hpages', hcontext, hwaits⟩ := hswaps.saved hs hpages hp hcall hothers
      have hsettled := hgoes.settled hgood hpages' hwaits (r := (run swapSave (c, m)).1) ?_ ?_
      · obtain ⟨hinv, hrest, hcontext⟩ := hsettled
        exact ⟨hinv, hsame.trans hrest, hcontext⟩
      · rw [swapSave_x1, hx1, hsame.current, hcontext]
      · rfl

end ArmOs
