import ArmOs.Exec.Lemmas.InOrder
import ArmOs.Pages.Theorems

/-!
# How far the memory goes

A process has five pages, and the file tables have two. The rest is free, in every state, so that a memory of 47 pages
is enough for all process slots: `fork` fails for want of a slot only.
-/

namespace ArmOs

open Lib

variable {L : Layout} {m : Mem} {s t : Kernel} {xs : List Nat} {ls : List Label} {p : Proc} {v : Nat}

/-! ## Counting the owners -/

/-- The pages of `[PA_UP(end), HEAP_MEMORY_END)`. -/
def heapSize (L : Layout) : Nat := (heapMemoryEnd - paUp L.imageEnd) / pageSize

def heapPages (L : Layout) : List Nat := (List.range (heapSize L)).map fun i => paUp L.imageEnd + pageSize * i

/-- The user processes. -/
def Kernel.users (s : Kernel) : List Proc := (List.finRange numProc).filter fun p => s.IsUser p

def pageKinds : List PageKind := [.stack, .pgd, .pud, .pmd, .frame]

def pageOwners : List PageOwner :=
  .fcbTable :: .fileDescTable :: (List.finRange numProc).flatMap fun p => pageKinds.map (.process p)

theorem mem_heapPages : v ∈ heapPages L ↔ HeapPage L v := by
  have haligned := paUp_aligned L.imageEnd
  have hend : heapMemoryEnd % pageSize = 0 := by decide
  have hpos : 0 < pageSize := by decide
  simp only [heapPages, heapSize, List.mem_map, List.mem_range]
  constructor
  · rintro ⟨i, hi, rfl⟩
    have hle := (Nat.le_div_iff_mul_le hpos).mp (Nat.succ_le_of_lt hi)
    rw [Nat.succ_mul, Nat.mul_comm] at hle
    refine ⟨?_, Nat.le_add_right _ _, by omega⟩
    rw [Nat.add_mul_mod_self_left]
    exact haligned
  · intro hv
    have hstart := hv.start
    have hend' := hv.end
    have hoffset : (v - paUp L.imageEnd) % pageSize = 0 := by
      have := hv.aligned
      rw [pageSize_eq] at *
      omega
    refine ⟨(v - paUp L.imageEnd) / pageSize, ?_, ?_⟩
    · rw [pageSize_eq] at *
      omega
    · rw [Nat.mul_div_cancel' (Nat.dvd_of_mod_eq_zero hoffset)]
      omega

theorem heapPages_nodup (L : Layout) : (heapPages L).Nodup := by
  apply List.Nodup.map
  · intro i j hij
    have hpos : 0 < pageSize := by decide
    exact Nat.eq_of_mul_eq_mul_left hpos (Nat.add_left_cancel hij)
  · exact List.nodup_range

theorem mem_pageOwners (o : PageOwner) : o ∈ pageOwners := by
  cases o with
  | fcbTable => simp [pageOwners]
  | fileDescTable => simp [pageOwners]
  | process p kind => cases kind <;> simp [pageOwners, pageKinds]

theorem pageOwners_nodup : pageOwners.Nodup := by decide

/-- What the owners hold: the two tables, and five pages for each user process. -/
theorem length_held (s : Kernel) : (pageOwners.filterMap s.holds).length = 2 + 5 * s.users.length := by
  have hprocess : ∀ ps : List Proc, ((ps.flatMap fun p => pageKinds.map (.process p)).filterMap s.holds).length =
      5 * (ps.filter fun p => s.IsUser p).length := by
    intro ps
    induction ps with
    | nil => rfl
    | cons p ps ih =>
        rw [List.flatMap_cons, List.filterMap_append, List.length_append, ih]
        by_cases hp : s.IsUser p
        · have hfive : ((pageKinds.map (.process p)).filterMap s.holds).length = 5 := by
            simp [pageKinds, Kernel.holds_process hp]
          have hcons : (p :: ps).filter (fun p => s.IsUser p) = p :: ps.filter fun p => s.IsUser p :=
            List.filter_cons_of_pos (decide_eq_true hp)
          rw [hfive, hcons, List.length_cons]
          omega
        · simp [pageKinds, Kernel.holds_none hp, hp]
  have htables : pageOwners.filterMap s.holds = s.fs.fcbPage :: s.fs.fileDescPage ::
      ((List.finRange numProc).flatMap fun p => pageKinds.map (PageOwner.process p)).filterMap s.holds := rfl
  rw [htables, List.length_cons, List.length_cons, hprocess, Kernel.users]
  omega

/-- The free pages and those of the owners are the pages of the heap, each of them once. -/
theorem PageInv.perm (h : PageInv L s xs) : (xs ++ pageOwners.filterMap s.holds).Perm (heapPages L) :=
  h.owned.perm (fun _ => mem_heapPages.symm) (heapPages_nodup L) mem_pageOwners pageOwners_nodup

theorem PageInv.count (h : PageInv L s xs) : xs.length + 5 * s.users.length + 2 = heapSize L := by
  have hall := h.perm.length_eq
  rw [List.length_append, length_held, heapPages, List.length_map, List.length_range] at hall
  omega

/-- While there is a slot, at most eight of them are user processes. -/
theorem users_le {i : Proc} (hi : findUnusedProcess s = some i) (hidle : s.Live idle) :
    s.users.length ≤ numProc - 2 := by
  have hunused := findUnusedProcess_eq_some hi
  have hne : i ≠ idle := by
    rintro rfl
    exact hidle hunused
  have hsub : s.users ⊆ ((List.finRange numProc).erase idle).erase i := by
    intro p hp
    obtain ⟨-, hp⟩ := List.mem_filter.mp hp
    obtain ⟨hpi, hlive⟩ := of_decide_eq_true hp
    have hpne : p ≠ i := by
      rintro rfl
      exact hlive hunused
    exact (List.mem_erase_of_ne hpne).mpr ((List.mem_erase_of_ne hpi).mpr (List.mem_finRange p))
  have hnodup : s.users.Nodup := (List.nodup_finRange numProc).filter _
  have hle := (hnodup.subperm hsub).length_le
  rw [List.length_erase_of_mem ((List.mem_erase_of_ne hne).mpr (List.mem_finRange i)),
    List.length_erase_of_mem (List.mem_finRange idle), List.length_finRange] at hle
  omega

/-! ## In every state -/

/-- With a slot for the child there is memory for it. -/
theorem PageInv.freePages_of_slot (h : PageInv L s xs) (hs : Good s) (hsize : 5 * numProc - 3 ≤ heapSize L)
    (hslot : findUnusedProcess s ≠ none) : FreePages s 5 := by
  obtain ⟨i, hi⟩ := Option.ne_none_iff_exists'.mp hslot
  have hle := users_le hi hs.idle_live
  have hcount := h.count
  refine ⟨xs, h.free, fun v hv => (h.freePages v hv).ne_zero, ?_⟩
  simp only [numProc] at hsize hle
  omega

/-- A kernel image that leaves 47 heap pages. -/
def roomyLayout : Layout :=
  { smallLayout with
    imageEnd := heapMemoryEnd - 47 * pageSize
    imageEnd_le := by decide
    bootPgd_lt := by decide
    trapReturn_lt := by decide }

end ArmOs
