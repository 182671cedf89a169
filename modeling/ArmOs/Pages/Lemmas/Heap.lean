import ArmOs.Kernel.Memory
import ArmOs.Lib.Chain

/-!
# Heap pages and the free list

The pages between the kernel image and the end of the heap; what is changed when only some of them are written;
and `kalloc` and `kfree` as taking the first page of the list and putting one in front of it.
-/

namespace ArmOs

open Lib

variable {L : Layout} {m m' m'' : Mem} {v w : Nat} {vs ws : List Nat}

/-! ## Pages -/

/-- `v` is the address of one of the 2MB pages in `[PA_UP(end), HEAP_MEMORY_END)`. -/
structure HeapPage (L : Layout) (v : Nat) : Prop where
  aligned : v % pageSize = 0
  start : paUp L.imageEnd ≤ v
  «end» : v + pageSize ≤ heapMemoryEnd

theorem pageSize_eq : pageSize = 2097152 := by decide

theorem paUp_eq (v : Nat) : paUp v = (v + 2097151) / 2097152 * 2097152 := by
  have hpow : (2 : Nat) ^ 21 = 2097152 := by decide
  have hsum : v + 2097152 - 1 = v + 2097151 := by omega
  unfold paUp
  rw [pageSize_eq, Nat.shiftRight_eq_div_pow, Nat.shiftLeft_eq]
  rw [hpow]
  rw [hsum]

theorem le_paUp (v : Nat) : v ≤ paUp v := by
  rw [paUp_eq]
  omega

theorem paUp_aligned (v : Nat) : paUp v % pageSize = 0 := by
  rw [paUp_eq, pageSize_eq]
  exact Nat.mul_mod_left _ _

theorem heapMemoryEnd_eq : heapMemoryEnd = kernelBase + 0x30000000 := by decide

theorem Layout.kernelBase_le (L : Layout) : kernelBase ≤ L.imageEnd := by
  have h₁ := L.bootPgd_lt
  have h₂ := L.bootPgd_phys
  simp only [p2v, kernelBase] at *
  omega

namespace HeapPage

theorem image_le (h : HeapPage L v) : L.imageEnd ≤ v := (le_paUp _).trans h.start

/-- A heap page is at a multiple of 2MB of physical memory, below the image of the file system. -/
theorem exists_eq (h : HeapPage L v) : ∃ q, q < 384 ∧ v = kernelBase + q * pageSize := by
  have h₁ := h.image_le
  have h₂ := L.kernelBase_le
  have h₃ := h.aligned
  have h₄ := h.end
  rw [heapMemoryEnd_eq] at h₄
  simp only [pageSize, kernelBase] at *
  exact ⟨(v - 0xffff000000000000) / 2097152, by omega, by omega⟩

theorem bounds (h : HeapPage L v) : kernelBase ≤ v ∧ v + pageSize ≤ kernelBase + 0x30000000 := by
  obtain ⟨q, hq, rfl⟩ := h.exists_eq
  simp only [pageSize]
  omega

theorem ne_zero (h : HeapPage L v) : v ≠ 0 := by
  have := h.bounds
  simp only [kernelBase] at this
  omega

theorem lt (h : HeapPage L v) : v < 256 ^ 8 := by
  have := h.bounds
  simp only [kernelBase, pageSize] at this
  omega

theorem v2p_eq (h : HeapPage L v) : v2p v = v - kernelBase := by
  have := h.bounds
  simp only [v2p, kernelBase, pageSize] at *
  omega

theorem p2v_v2p (h : HeapPage L v) : p2v (v2p v) = v := by
  have := h.bounds
  simp only [v2p, p2v, kernelBase, pageSize] at *
  omega

/-- Different pages do not overlap. -/
theorem disjoint (h : HeapPage L v) (h' : HeapPage L w) (hne : v ≠ w) :
    v + pageSize ≤ w ∨ w + pageSize ≤ v := by
  have h₁ := h.aligned
  have h₂ := h'.aligned
  simp only [pageSize] at *
  omega

end HeapPage

/-! ## Writing pages -/

/-- Only bytes of the pages `vs` differ. -/
def OnlyIn (vs : List Nat) (m m' : Mem) : Prop :=
  ∀ x, (∀ v ∈ vs, ¬(v ≤ x ∧ x < v + pageSize)) → m' x = m x

namespace OnlyIn

theorem refl (vs : List Nat) (m : Mem) : OnlyIn vs m m := fun _ _ => rfl

theorem trans (h : OnlyIn vs m m') (h' : OnlyIn ws m' m'') : OnlyIn (vs ++ ws) m m'' := by
  intro x hx
  rw [h' x fun v hv => hx v (List.mem_append_right _ hv), h x fun v hv => hx v (List.mem_append_left _ hv)]

theorem weaken (h : OnlyIn vs m m') (hsub : vs ⊆ ws) : OnlyIn ws m m' := fun x hx => h x fun v hv => hx v (hsub hv)

/-- Two changes of the same pages. -/
theorem trans_self (h : OnlyIn vs m m') (h' : OnlyIn vs m' m'') : OnlyIn vs m m'' :=
  (h.trans h').weaken (by simp)

theorem write {a n b : Nat} (h : v ≤ a) (h' : a + n ≤ v + pageSize) : OnlyIn [v] m (m.write n a b) := by
  intro x hx
  have := hx v (List.mem_singleton.mpr rfl)
  have hout : ¬(a ≤ x ∧ x < a + n) := by omega
  simp [Mem.write, hout]

theorem fill {a n : Nat} {b : UInt8} (h : v ≤ a) (h' : a + n ≤ v + pageSize) : OnlyIn [v] m (m.fill a n b) := by
  intro x hx
  have := hx v (List.mem_singleton.mpr rfl)
  have hout : ¬(a ≤ x ∧ x < a + n) := by omega
  simp [Mem.fill, hout]

theorem copy {a n src : Nat} (h : v ≤ a) (h' : a + n ≤ v + pageSize) : OnlyIn [v] m (m.copy a src n) := by
  intro x hx
  have := hx v (List.mem_singleton.mpr rfl)
  have hout : ¬(a ≤ x ∧ x < a + n) := by omega
  simp [Mem.copy, hout]

/-- Another page is as before. -/
theorem same (h : OnlyIn vs m m') (hv : ∀ v ∈ vs, HeapPage L v) (hw : HeapPage L w) (hnot : w ∉ vs) :
    Mem.Same m m' w pageSize := by
  intro x hx hx'
  refine h x fun v hvs => ?_
  have hne : v ≠ w := by
    rintro rfl
    exact hnot hvs
  have := (hv v hvs).disjoint hw hne
  omega

end OnlyIn

/-! ## The free list -/

/-- `free_memory` leads through the pages `xs`. -/
def FreeList (M : Memory) (xs : List Nat) : Prop := Chain id 0 (fun v => M.mem.read 8 v) M.freeMemory xs

instance (M : Memory) : DecidablePred (FreeList M) := fun xs =>
  inferInstanceAs (Decidable (Chain id 0 (fun v => M.mem.read 8 v) M.freeMemory xs))

variable {M M' : Memory} {xs : List Nat}

theorem FreeList.congr (h : FreeList M xs) (hfree : M'.freeMemory = M.freeMemory)
    (hs : ∀ v ∈ xs, Mem.Same M.mem M'.mem v 8) : FreeList M' xs := by
  rw [FreeList, hfree]
  exact Chain.congr h fun v hv => Mem.read_congr (hs v hv)

/-- Writing pages that are not free. -/
theorem FreeList.onlyIn (h : FreeList M xs) (hfree : M'.freeMemory = M.freeMemory) (hm : OnlyIn vs M.mem M'.mem)
    (hvs : ∀ v ∈ vs, HeapPage L v) (hxs : ∀ v ∈ xs, HeapPage L v) (hnot : ∀ v ∈ vs, v ∉ xs) : FreeList M' xs :=
  h.congr hfree fun v hv => (hm.same hvs (hxs v hv) fun hv' => hnot v hv' hv).sub le_rfl (by simp only [pageSize]; omega)

theorem kalloc_nil (h : FreeList M []) : kalloc L M = .ok (0, M) := by
  have hz : M.freeMemory = 0 := h
  simp [kalloc, hz, pure, Except.pure]

/-- `kalloc` takes the first page of the list. -/
theorem kalloc_cons (h : FreeList M (v :: xs)) (hv : HeapPage L v) :
    kalloc L M = .ok (v, { M with freeMemory := M.mem.read 8 v }) ∧
      FreeList { M with freeMemory := M.mem.read 8 v } xs := by
  have hhead : M.freeMemory = v := h.1
  refine ⟨?_, h.2⟩
  simp only [kalloc, hhead, ne_eq, hv.ne_zero, not_false_eq_true, if_true, ASSERT, require_of hv.aligned,
    require_of hv.image_le, require_of hv.end, ok_bind]
  rfl

theorem FreeList.head_lt (h : FreeList M xs) (hxs : ∀ v ∈ xs, HeapPage L v) : M.freeMemory < 256 ^ 8 := by
  cases xs with
  | nil =>
      have hz : M.freeMemory = 0 := h
      rw [hz]
      decide
  | cons x xs =>
      have hhead : M.freeMemory = x := h.1
      rw [hhead]
      exact (hxs x List.mem_cons_self).lt

/-- `kfree` puts a page in front of the list. -/
theorem kfree_spec (h : FreeList M xs) (hxs : ∀ v ∈ xs, HeapPage L v) (hv : HeapPage L v) (hnot : v ∉ xs) :
    kfree L v M = .ok { mem := M.mem.write 8 v M.freeMemory, freeMemory := v } ∧
      FreeList { mem := M.mem.write 8 v M.freeMemory, freeMemory := v } (v :: xs) ∧
      OnlyIn [v] M.mem (M.mem.write 8 v M.freeMemory) := by
  have honly : OnlyIn [v] M.mem (M.mem.write 8 v M.freeMemory) := .write le_rfl (by simp only [pageSize]; omega)
  refine ⟨?_, ⟨rfl, ?_⟩, honly⟩
  · simp only [kfree, ASSERT, require_of hv.aligned, require_of hv.image_le, require_of hv.end, ok_bind]
    rfl
  · have hlink : (M.mem.write 8 v M.freeMemory).read 8 v = M.freeMemory :=
      Mem.read_write_of_lt _ (h.head_lt hxs)
    show Chain _ _ _ ((M.mem.write 8 v M.freeMemory).read 8 v) xs
    rw [hlink]
    refine Chain.congr h fun w hw => Mem.read_congr ?_
    have hwv : w ∉ [v] := by
      rw [List.mem_singleton]
      rintro rfl
      exact hnot hw
    exact (honly.same (fun u hu => List.mem_singleton.mp hu ▸ hv) (hxs w hw) hwv).sub le_rfl
      (by simp only [pageSize]; omega)

end ArmOs
