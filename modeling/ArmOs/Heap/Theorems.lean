import ArmOs.Lib.Ops
import ArmOs.Pages.Lemmas.Boot
import Mathlib.Data.Finset.Insert

/-!
# The page allocator

`kalloc` and `kfree` on the pages that `init_memory` puts on the free list. The links are in the free pages, so the owners
of the others may write what they like.
-/

namespace ArmOs

open Lib

variable {L : Layout} {M : Memory} {v start fuel : Nat} {xs : List Nat}

/-- `v` is the address of a 2MB page wholly inside `[end, HEAP_MEMORY_END)`. -/
def InHeap (L : Layout) (v : Nat) : Prop := v % pageSize = 0 ∧ L.imageEnd ≤ v ∧ v + pageSize ≤ heapMemoryEnd

theorem inHeap_iff : InHeap L v ↔ HeapPage L v := by
  constructor
  · rintro ⟨haligned, hstart, hend⟩
    refine ⟨haligned, ?_, hend⟩
    rw [paUp_eq]
    rw [pageSize_eq] at haligned
    omega
  · exact fun h => ⟨h.aligned, h.image_le, h.end⟩

/-- What `kalloc` and `kfree` are called for, and what the owners of the pages do between. -/
inductive PageOp
  | kalloc
  | kfree (v : Nat)
  | write (v : Nat) (bytes : Nat → UInt8)

/-- The free pages, the one to be allocated next first, and those that are allocated. -/
structure PageStack where
  free : List Nat
  allocated : Finset Nat

namespace PageOp

/-- The result is the page that was allocated, or 0. -/
def perform (L : Layout) (M : Memory) : PageOp → Except Stop (Nat × Memory)
  | kalloc => ArmOs.kalloc L M
  | kfree v => do
      let M ← ArmOs.kfree L v M
      return (0, M)
  | write v bytes =>
      .ok (0, { M with mem := fun x => if v ≤ x ∧ x < v + pageSize then bytes (x - v) else M.mem x })

def spec (a : PageStack) : PageOp → Nat × PageStack
  | kalloc =>
      match a.free with
      | [] => (0, a)
      | v :: xs => (v, ⟨xs, insert v a.allocated⟩)
  | kfree v => (0, ⟨v :: a.free, a.allocated.erase v⟩)
  | write _ _ => (0, a)

/-- Only allocated pages are freed and written. -/
def Pre (a : PageStack) : PageOp → Prop
  | kalloc => True
  | kfree v => v ∈ a.allocated
  | write v _ => v ∈ a.allocated

end PageOp

/-- `free_memory` leads through the free pages. Each page of the heap is either free or allocated. -/
structure PagesHeld (L : Layout) (a : PageStack) (M : Memory) : Prop where
  free : FreeList M a.free
  nodup : a.free.Nodup
  pages : ∀ v, InHeap L v ↔ v ∈ a.free ∨ v ∈ a.allocated
  apart : ∀ v ∈ a.free, v ∉ a.allocated

namespace PagesHeld

variable {a : PageStack}

theorem freePage (h : PagesHeld L a M) : ∀ v ∈ a.free, HeapPage L v := fun v hv =>
  inHeap_iff.mp ((h.pages v).mpr (.inl hv))

theorem allocatedPage (h : PagesHeld L a M) (hv : v ∈ a.allocated) : HeapPage L v :=
  inHeap_iff.mp ((h.pages v).mpr (.inr hv))

theorem kalloc (h : PagesHeld L a M) :
    ∃ N, ArmOs.kalloc L M = .ok ((PageOp.kalloc.spec a).1, N) ∧ PagesHeld L (PageOp.kalloc.spec a).2 N := by
  obtain ⟨free, allocated⟩ := a
  cases free with
  | nil => exact ⟨M, kalloc_nil h.free, h⟩
  | cons v xs =>
      obtain ⟨hrun, hfree⟩ := kalloc_cons h.free (h.freePage v List.mem_cons_self)
      obtain ⟨hv, hnodup⟩ := List.nodup_cons.mp h.nodup
      refine ⟨_, hrun, hfree, hnodup, fun w => ?_, fun w hw => ?_⟩
      · rw [h.pages]
        show w ∈ v :: xs ∨ w ∈ allocated ↔ w ∈ xs ∨ w ∈ insert v allocated
        rw [List.mem_cons, Finset.mem_insert]
        tauto
      · show w ∉ insert v allocated
        rw [Finset.mem_insert, not_or]
        refine ⟨?_, h.apart w (List.mem_cons_of_mem v hw)⟩
        rintro rfl
        exact hv hw

theorem kfree (h : PagesHeld L a M) (hv : v ∈ a.allocated) :
    ∃ N, ArmOs.kfree L v M = .ok N ∧ PagesHeld L ((PageOp.kfree v).spec a).2 N := by
  have hnot : v ∉ a.free := fun hfree => h.apart v hfree hv
  obtain ⟨hrun, hfree, -⟩ := kfree_spec h.free h.freePage (h.allocatedPage hv) hnot
  refine ⟨_, hrun, hfree, List.nodup_cons.mpr ⟨hnot, h.nodup⟩, fun w => ?_, fun w hw => ?_⟩
  · rw [h.pages]
    show _ ↔ w ∈ v :: a.free ∨ w ∈ a.allocated.erase v
    rw [List.mem_cons, Finset.mem_erase]
    by_cases hw : w = v
    · subst hw
      simp [hv]
    · simp [hw]
  · show w ∉ a.allocated.erase v
    rw [Finset.mem_erase]
    rintro ⟨hne, halloc⟩
    exact h.apart w ((List.mem_cons.mp hw).resolve_left hne) halloc

theorem write (h : PagesHeld L a M) (hv : v ∈ a.allocated) (bytes : Nat → UInt8) :
    PagesHeld L a { M with mem := fun x => if v ≤ x ∧ x < v + pageSize then bytes (x - v) else M.mem x } := by
  have honly : OnlyIn [v] M.mem fun x => if v ≤ x ∧ x < v + pageSize then bytes (x - v) else M.mem x :=
    fun x hx => if_neg (hx v List.mem_cons_self)
  refine ⟨h.free.onlyIn (L := L) rfl honly ?_ h.freePage ?_, h.nodup, h.pages, h.apart⟩
  · intro w hw
    rw [List.mem_singleton.mp hw]
    exact h.allocatedPage hv
  · intro w hw hfree
    rw [List.mem_singleton.mp hw] at hfree
    exact h.apart v hfree hv

theorem perform (h : PagesHeld L a M) (o : PageOp) (hpre : o.Pre a) :
    ∃ N, o.perform L M = .ok ((o.spec a).1, N) ∧ PagesHeld L (o.spec a).2 N := by
  cases o with
  | kalloc => exact h.kalloc
  | kfree v =>
      obtain ⟨N, hrun, hN⟩ := h.kfree hpre
      refine ⟨N, ?_, hN⟩
      rw [PageOp.perform, hrun]
      rfl
  | write v bytes => exact ⟨_, rfl, h.write hpre bytes⟩

/-- What the next `kalloc` returns. -/
theorem next (h : PagesHeld L a M) : ∃ v N, ArmOs.kalloc L M = .ok (v, N) ∧
    (v = 0 ↔ ∀ w, InHeap L w → w ∈ a.allocated) ∧ (v ≠ 0 → InHeap L v ∧ v ∉ a.allocated) := by
  obtain ⟨N, hrun, -⟩ := h.kalloc
  refine ⟨_, N, hrun, ?_⟩
  rw [PageOp.spec]
  cases hfree : a.free with
  | nil =>
      refine ⟨iff_of_true rfl fun w hw => ?_, fun hne => absurd rfl hne⟩
      have hmem := (h.pages w).mp hw
      rw [hfree] at hmem
      exact hmem.resolve_left List.not_mem_nil
  | cons v xs =>
      have hv : v ∈ a.free := by
        rw [hfree]
        exact List.mem_cons_self
      have hpage := (h.pages v).mpr (.inl hv)
      refine ⟨iff_of_false (h.freePage v hv).ne_zero fun hall => h.apart v hv (hall v hpage), fun _ => ?_⟩
      exact ⟨hpage, h.apart v hv⟩

end PagesHeld

/-! ## `init_memory` -/

/-- The loop has enough rounds for the pages from `start` on. -/
theorem freeRegionLoop_returns (haligned : start % pageSize = 0) (hstart : L.imageEnd ≤ start) (hpos : 0 < fuel)
    (hfuel : heapMemoryEnd < start + fuel * pageSize) : ∃ N, freeRegionLoop L heapMemoryEnd fuel start M = .ok N := by
  induction fuel generalizing start M with
  | zero => exact absurd hpos (Nat.lt_irrefl 0)
  | succ fuel ih =>
      rw [freeRegionLoop]
      split
      · rename_i hend
        have hkfree : kfree L start M = .ok { mem := M.mem.write 8 start M.freeMemory, freeMemory := start } := by
          simp only [kfree, ASSERT, require_of haligned, require_of hstart, require_of hend, ok_bind]
          rfl
        dsimp only
        rw [hkfree, ok_bind]
        rw [Nat.succ_mul] at hfuel
        have hmore : 0 < fuel := by
          cases fuel with
          | zero => omega
          | succ fuel => exact Nat.succ_pos fuel
        exact ih (by rw [Nat.add_mod_right]; exact haligned) (hstart.trans (Nat.le_add_right _ _)) hmore (by omega)
      · exact ⟨M, rfl⟩

theorem initMemory_returns (L : Layout) (M : Memory) : ∃ N, initMemory L M = .ok N := by
  refine freeRegionLoop_returns (paUp_aligned _) (le_paUp _) (Nat.succ_pos _) ?_
  have hdiv : heapMemoryEnd < (heapMemoryEnd / pageSize + 1) * pageSize :=
    Nat.lt_mul_of_div_lt (Nat.lt_succ_self _) (by decide)
  omega

/-- After `init_memory` any calls of `kalloc` and `kfree`, in which only allocated pages are freed, and any writes of the
owners: no assertion fails, the free list holds the pages that are not allocated, and `kalloc` returns one of these or
`NULL` if there is none. -/
theorem page_allocator (L : Layout) (m : Mem) : ∃ M free, initMemory L ⟨m, 0⟩ = .ok M ∧ PagesHeld L ⟨free, ∅⟩ M ∧
    ∀ os, Allowed PageOp.Pre PageOp.spec ⟨free, ∅⟩ os →
      ∃ N a, performOps (PageOp.perform L) M os = .ok ((specOps PageOp.spec ⟨free, ∅⟩ os).1, N) ∧
        a = (specOps PageOp.spec ⟨free, ∅⟩ os).2 ∧ PagesHeld L a N ∧
        ∃ v N', kalloc L N = .ok (v, N') ∧ (v = 0 ↔ ∀ w, InHeap L w → w ∈ a.allocated) ∧
          (v ≠ 0 → InHeap L v ∧ v ∉ a.allocated) := by
  obtain ⟨M, hrun⟩ := initMemory_returns L ⟨m, 0⟩
  obtain ⟨free, hfree, hnodup, hall, -⟩ := initMemory_spec (show FreeList ⟨m, 0⟩ [] from rfl) hrun
  have hstart : PagesHeld L ⟨free, ∅⟩ M := by
    refine ⟨hfree, hnodup, fun v => ?_, fun v _ => Finset.notMem_empty v⟩
    rw [inHeap_iff, ← hall v]
    simp
  refine ⟨M, free, hrun, hstart, fun os hos => ?_⟩
  have hstep : ∀ a M o, PagesHeld L a M → PageOp.Pre a o →
      ∃ N, PageOp.perform L M o = .ok ((PageOp.spec a o).1, N) ∧ PagesHeld L (PageOp.spec a o).2 N :=
    fun a M o h hpre => h.perform o hpre
  obtain ⟨N, hops, hN⟩ := performOps_refines hstep hstart hos
  exact ⟨N, _, hops, rfl, hN, hN.next⟩

/-- The first page is allocated, written and freed. -/
theorem page_allocator_first : ∃ M v N, initMemory smallLayout ⟨fun _ => 0, 0⟩ = .ok M ∧
    performOps (PageOp.perform smallLayout) M [.kalloc, .write v fun _ => 1, .kfree v] = .ok ([v, 0, 0], N) := by
  obtain ⟨M, free, hrun, hheld, hall⟩ := page_allocator smallLayout fun _ => 0
  have hpage : InHeap smallLayout (heapMemoryEnd - pageSize) := by
    unfold InHeap
    decide
  cases free with
  | nil =>
      have hfree := (hheld.pages _).mp hpage
      simp at hfree
  | cons v xs =>
      have hos : Allowed PageOp.Pre PageOp.spec ⟨v :: xs, ∅⟩ [.kalloc, .write v fun _ => 1, .kfree v] := by
        simp [Allowed, PageOp.Pre, PageOp.spec]
      obtain ⟨N, a, hops, -⟩ := hall _ hos
      exact ⟨M, v, N, hrun, hops⟩

end ArmOs
