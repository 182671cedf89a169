import ArmOs.Lib.Ownership
import ArmOs.Pages.Lemmas.Free
import ArmOs.Pages.Lemmas.User
import ArmOs.Sched.Lemmas.Reach

/-!
# The owners of pages

Every heap page is on the free list, or one of the file tables or a process owns it. A process owns its kernel
stack, its page directory, the two tables and the frame that it leads to. Writing stacks and frames keeps that.
-/

namespace ArmOs

open Lib

/-! ## Owners -/

/-- The five pages of a process. -/
inductive PageKind
  | stack | pgd | pud | pmd | frame
  deriving DecidableEq, Repr

/-- Who may own a page. -/
inductive PageOwner
  | fcbTable
  | fileDescTable
  | process (p : Proc) (kind : PageKind)
  deriving DecidableEq

/-- The table that the entry `index` of `map` leads to. -/
def tableOf (m : Mem) (map index : Nat) : Nat := p2v (pdeAddr (entryAt m map index))

/-- The block that the entry `index` of `map` leads to. -/
def blockOf (m : Mem) (map index : Nat) : Nat := p2v (pteAddr (entryAt m map index))

/-- A process that is in use, and not the idle process. -/
def Kernel.IsUser (s : Kernel) (p : Proc) : Prop := p ≠ idle ∧ s.Live p

instance (s : Kernel) : DecidablePred s.IsUser := fun p => inferInstanceAs (Decidable (p ≠ idle ∧ s.Live p))

/-- The pages of a process: what its structure says, and what its tables lead to. -/
def Kernel.pageOf (s : Kernel) (p : Proc) : PageKind → Nat
  | .stack => (s.proc p).stack
  | .pgd => (s.proc p).pageMap
  | .pud => tableOf s.memory.mem (s.proc p).pageMap 0
  | .pmd => tableOf s.memory.mem (tableOf s.memory.mem (s.proc p).pageMap 0) 0
  | .frame => blockOf s.memory.mem (tableOf s.memory.mem (tableOf s.memory.mem (s.proc p).pageMap 0) 0) 2

/-- What an owner holds. -/
def Kernel.holds (s : Kernel) : PageOwner → Option Nat
  | .fcbTable => some s.fs.fcbPage
  | .fileDescTable => some s.fs.fileDescPage
  | .process p kind => if s.IsUser p then some (s.pageOf p kind) else none

/-- The pages `xs` are free, every other heap page has one owner, and the tables of every user process map its
user page. -/
structure PageInv (L : Layout) (s : Kernel) (xs : List Nat) : Prop where
  free : FreeList s.memory xs
  owned : Owned xs s.holds {v | HeapPage L v}
  space : ∀ p, s.IsUser p → AddrSpace s.memory.mem (s.pageOf p .pgd) (s.pageOf p .pud) (s.pageOf p .pmd)
    (s.pageOf p .frame)

variable {L : Layout} {m : Mem} {s t : Kernel} {xs vs : List Nat} {p q : Proc} {k k' : PageKind}
  {v pgd pud pmd frame : Nat}

theorem AddrSpace.tableOf_pgd (h : AddrSpace m pgd pud pmd frame) : tableOf m pgd 0 = pud := h.pgd.entry.addr

theorem AddrSpace.tableOf_pud (h : AddrSpace m pgd pud pmd frame) : tableOf m pud 0 = pmd := h.pud.entry.addr

theorem AddrSpace.blockOf_pmd (h : AddrSpace m pgd pud pmd frame) : blockOf m pmd 2 = frame := h.pmd.entry.addr

/-- The tables of a process determine its pages. -/
theorem Kernel.pageOf_eq (h : AddrSpace s.memory.mem (s.proc p).pageMap pud pmd frame) :
    s.pageOf p .pud = pud ∧ s.pageOf p .pmd = pmd ∧ s.pageOf p .frame = frame := by
  simp [Kernel.pageOf, h.tableOf_pgd, h.tableOf_pud, h.blockOf_pmd]

theorem Kernel.holds_process (h : s.IsUser p) (k : PageKind) : s.holds (.process p k) = some (s.pageOf p k) :=
  if_pos h

theorem Kernel.holds_none (h : ¬s.IsUser p) (k : PageKind) : s.holds (.process p k) = none := if_neg h

namespace PageInv

variable (h : PageInv L s xs)

include h

theorem freePages : ∀ v ∈ xs, HeapPage L v := fun _ hv => h.owned.free_mem hv

theorem page (hp : s.IsUser p) (k : PageKind) : HeapPage L (s.pageOf p k) :=
  h.owned.own_mem (Kernel.holds_process hp k)

theorem not_free (hp : s.IsUser p) (k : PageKind) : s.pageOf p k ∉ xs := h.owned.held (Kernel.holds_process hp k)

/-- No two processes share a page, and the pages of a process are different. -/
theorem ne (hp : s.IsUser p) (hq : s.IsUser q) (hne : p ≠ q ∨ k ≠ k') : s.pageOf p k ≠ s.pageOf q k' := by
  refine h.owned.ne (Kernel.holds_process hp k) (Kernel.holds_process hq k') ?_
  simp only [ne_eq, PageOwner.process.injEq, not_and_or]
  exact hne

theorem mapsUser (hp : s.IsUser p) : MapsUser L s.memory.mem (s.proc p).pageMap (s.pageOf p .frame) := by
  refine ⟨s.pageOf p .pud, s.pageOf p .pmd, h.space p hp, ?_, ?_⟩
  · simp only [List.forall_mem_cons]
    exact ⟨h.page hp .pgd, h.page hp .pud, h.page hp .pmd, h.page hp .frame, nofun⟩
  · have hne : ∀ {k k'}, k ≠ k' → s.pageOf p k ≠ s.pageOf p k' := fun hk => h.ne hp hp (.inr hk)
    show [s.pageOf p .pgd, s.pageOf p .pud, s.pageOf p .pmd, s.pageOf p .frame].Nodup
    simp [hne]

end PageInv

/-- A process whose tables are as before has the same pages. -/
theorem PageInv.pageOf_congr (h : PageInv L s xs) (hp : s.IsUser p) (hstack : (t.proc p).stack = (s.proc p).stack)
    (hmap : (t.proc p).pageMap = (s.proc p).pageMap)
    (hsame : ∀ k ∈ [PageKind.pgd, .pud, .pmd], Mem.Same s.memory.mem t.memory.mem (s.pageOf p k) pageSize) :
    (∀ k, t.pageOf p k = s.pageOf p k) ∧ AddrSpace t.memory.mem (s.pageOf p .pgd) (s.pageOf p .pud) (s.pageOf p .pmd)
      (s.pageOf p .frame) := by
  have hspace := (h.space p hp).congr (hsame .pgd (by simp)) (hsame .pud (by simp)) (hsame .pmd (by simp))
  have hspace' := hspace
  rw [show s.pageOf p .pgd = (t.proc p).pageMap from hmap.symm] at hspace'
  obtain ⟨hpud, hpmd, hframe⟩ := Kernel.pageOf_eq hspace'
  refine ⟨fun k => ?_, hspace⟩
  cases k with
  | stack => exact hstack
  | pgd => exact hmap
  | pud => exact hpud
  | pmd => exact hpmd
  | frame => exact hframe

/-! ## Writing stacks and frames -/

/-- The same processes and tables own pages, and a process has the same stack and page directory. -/
structure SameOwners (s t : Kernel) : Prop where
  fcbPage : t.fs.fcbPage = s.fs.fcbPage
  fileDescPage : t.fs.fileDescPage = s.fs.fileDescPage
  live : ∀ p, t.Live p ↔ s.Live p
  stack : ∀ p, (t.proc p).stack = (s.proc p).stack
  pageMap : ∀ p, (t.proc p).pageMap = (s.proc p).pageMap

namespace SameOwners

theorem isUser (h : SameOwners s t) (p : Proc) : t.IsUser p ↔ s.IsUser p := and_congr_right fun _ => h.live p

theorem ofFrame (h : SchedFrame s t) : SameOwners s t :=
  ⟨by rw [h.fs], by rw [h.fs], h.live, h.stack, h.pageMap⟩

theorem ofSame (h : SameSched s t) (hfcb : t.fs.fcbPage = s.fs.fcbPage)
    (hdesc : t.fs.fileDescPage = s.fs.fileDescPage) : SameOwners s t :=
  ⟨hfcb, hdesc, h.live, fun p => by rw [h.eq], fun p => by rw [h.eq]⟩

theorem setMem (s : Kernel) (m : Mem) : SameOwners s (s.setMem m) :=
  ⟨rfl, rfl, fun _ => Iff.rfl, fun _ => rfl, fun _ => rfl⟩

end SameOwners

/-- `v` is the kernel stack or the frame of a process. -/
def Kernel.Writable (s : Kernel) (p : Proc) (v : Nat) : Prop :=
  s.IsUser p ∧ (v = s.pageOf p .stack ∨ v = s.pageOf p .frame)

/-- Writing the page leaves the tables of the processes and the free list alone. -/
theorem PageInv.not_table (h : PageInv L s xs) (hv : s.Writable p v) (hq : s.IsUser q)
    (hk : k ∈ [PageKind.pgd, .pud, .pmd]) : s.pageOf q k ≠ v := by
  obtain ⟨hp, hv⟩ := hv
  have hkind : k ≠ .stack ∧ k ≠ .frame := by
    constructor
    · rintro rfl
      simp at hk
    · rintro rfl
      simp at hk
  cases hv with
  | inl hv =>
      rw [hv]
      exact h.ne hq hp (.inr hkind.1)
  | inr hv =>
      rw [hv]
      exact h.ne hq hp (.inr hkind.2)

theorem PageInv.writable_page (h : PageInv L s xs) (hv : s.Writable p v) : HeapPage L v ∧ v ∉ xs := by
  obtain ⟨hp, hv⟩ := hv
  cases hv with
  | inl hv =>
      rw [hv]
      exact ⟨h.page hp .stack, h.not_free hp .stack⟩
  | inr hv =>
      rw [hv]
      exact ⟨h.page hp .frame, h.not_free hp .frame⟩

/-- Writing stacks and frames moves no page. -/
theorem PageInv.pageOf_eq (h : PageInv L s xs) (ho : SameOwners s t) (honly : OnlyIn vs s.memory.mem t.memory.mem)
    (hvs : ∀ v ∈ vs, ∃ p, s.Writable p v) (hq : s.IsUser q) :
    (∀ k, t.pageOf q k = s.pageOf q k) ∧ AddrSpace t.memory.mem (s.pageOf q .pgd) (s.pageOf q .pud) (s.pageOf q .pmd)
      (s.pageOf q .frame) := by
  refine h.pageOf_congr hq (ho.stack q) (ho.pageMap q) fun k hk => honly.same (fun v hv => ?_) (h.page hq k) fun hmem => ?_
  · obtain ⟨p, hp⟩ := hvs v hv
    exact (h.writable_page hp).1
  · obtain ⟨p, hp⟩ := hvs _ hmem
    exact h.not_table hp hq hk rfl

theorem PageInv.keep (h : PageInv L s xs) (ho : SameOwners s t) (hfree : t.memory.freeMemory = s.memory.freeMemory)
    (honly : OnlyIn vs s.memory.mem t.memory.mem) (hvs : ∀ v ∈ vs, ∃ p, s.Writable p v) : PageInv L t xs where
  free := by
    refine h.free.onlyIn hfree honly (fun v hv => ?_) h.freePages fun v hv => ?_
    · obtain ⟨p, hp⟩ := hvs v hv
      exact (h.writable_page hp).1
    · obtain ⟨p, hp⟩ := hvs v hv
      exact (h.writable_page hp).2
  owned := by
    refine h.owned.congr fun o => ?_
    cases o with
    | fcbTable => exact congrArg some ho.fcbPage
    | fileDescTable => exact congrArg some ho.fileDescPage
    | process q k =>
        by_cases hq : s.IsUser q
        · rw [Kernel.holds_process hq, Kernel.holds_process ((ho.isUser q).mpr hq), (h.pageOf_eq ho honly hvs hq).1]
        · rw [Kernel.holds_none hq, Kernel.holds_none fun hq' => hq ((ho.isUser q).mp hq')]
  space := by
    intro q hq
    have hq' := (ho.isUser q).mp hq
    obtain ⟨hpage, hspace⟩ := h.pageOf_eq ho honly hvs hq'
    rw [hpage, hpage, hpage, hpage]
    exact hspace

/-- Nothing in memory changed. -/
theorem PageInv.same (h : PageInv L s xs) (ho : SameOwners s t) (hm : t.memory = s.memory) : PageInv L t xs := by
  have honly : OnlyIn [] s.memory.mem t.memory.mem := by
    rw [hm]
    exact .refl _ _
  exact h.keep ho (by rw [hm]) honly nofun

end ArmOs
