import ArmOs.Pages.Lemmas.Steps

/-!
# `fork` returns

With a process slot and five free pages `fork` returns, if the slots of the parent are open. What it returns to is
the parent, and `x0` of the parent is all that is written after the child is on `ready_list`.
-/

namespace ArmOs

open Lib

variable {L : Layout} {s t : Kernel} {xs ys : List Nat} {i p : Proc} {k : PageKind}

/-! ## Free pages -/

/-- At least `n` pages are on the free list. -/
def FreePages (s : Kernel) (n : Nat) : Prop := ∃ xs, FreeList s.memory xs ∧ (∀ v ∈ xs, v ≠ 0) ∧ n ≤ xs.length

theorem FreeList.unique {M : Memory} (h : FreeList M xs) (h' : FreeList M ys) (hxs : ∀ v ∈ xs, v ≠ 0)
    (hys : ∀ v ∈ ys, v ≠ 0) : xs = ys :=
  Chain.unique_of_mem h h' hxs hys fun _ _ he => he

theorem PageInv.forkFits (h : PageInv L s xs) (hfree : FreePages s 5) (hslot : findUnusedProcess s ≠ none) :
    ForkFits s xs := by
  obtain ⟨ys, hys, hne, hlen⟩ := hfree
  rw [hys.unique h.free hne fun v hv => (h.freePages v hv).ne_zero] at hlen
  exact ⟨hlen, hslot⟩

/-! ## The parts of `fork` return -/

/-- The loop over slots whose entries refer to files. -/
theorem countSlots_run {file : Fin numFile → Option Nat} {fs : Fs}
    (h : ∀ x d, file x = some d → ∃ i, (fs.fileDescTable d).fcb = some i) : ∃ fs', countSlots file fs = .ok fs' := by
  unfold countSlots
  generalize List.finRange numFile = xs
  induction xs generalizing fs with
  | nil => exact ⟨fs, rfl⟩
  | cons x xs ih =>
      rw [List.foldlM_cons]
      cases hx : file x with
      | none => exact ih h
      | some d =>
          obtain ⟨i, hi⟩ := h x d hx
          simp only [countSlot, hi, deref, ok_bind, pure, Except.pure]
          refine ih fun y d' hy => ?_
          obtain ⟨j, hj⟩ := h y d' hy
          refine ⟨j, ?_⟩
          by_cases hd : d' = d
          · subst hd
            simpa [Fs.setFcb, Fs.setFileDesc, hi] using hj
          · simpa [Fs.setFcb, Fs.setFileDesc, hd] using hj

/-- Whether an append returns is up to the head of the list. -/
theorem Queues.appendTail_run {q : ListId → List Proc} {out : Set Proc} {l : ListId} (h : Queues s q out)
    (hl : t.pc.list l = s.pc.list l) (i : Proc) : ∃ u, t.appendTail l i = .ok u := by
  have hrep := h.represents l
  rw [Kernel.appendTail, hl]
  rcases List.eq_nil_or_concat' (q l) with hq | ⟨ys, x, hq⟩
  · rw [hq] at hrep
    simp only [appendListTail, hrep.isListEmpty_eq, List.isEmpty_nil, if_true, ok_bind]
    exact ⟨_, rfl⟩
  · rw [hq] at hrep
    have htail : (s.pc.list l).tail = .item x := IsQueue.tail_eq hrep
    have hempty : isListEmpty (s.pc.list l) = false := by simp [hrep.isListEmpty_eq]
    simp only [appendListTail, hempty, Bool.false_eq_true, if_false, htail, ok_bind]
    exact ⟨_, rfl⟩

theorem PageInv.forkReturns (h : PageInv L s xs) (hs : Good s) (hc : s.current ≠ idle) (hfits : ForkFits s xs)
    (hopen : ∀ x d, (s.proc s.current).file x = some d → ∃ i, (s.fs.fileDescTable d).fcb = some i) :
    ∃ r, ArmOs.fork L s = .ok r := by
  obtain ⟨q, lost, hq⟩ := hs.sched
  obtain ⟨i, stack, pgd, frame, pud, pmd, ys, hfound, rfl⟩ := hfits.pages
  obtain ⟨M, N, halloc, hcopy, -⟩ := h.forkMemory ⟨hc, hs.live⟩ hfound
  have hne : s.current ≠ i := fun he => hs.live (he ▸ findUnusedProcess_eq_some hfound)
  have hself : (allocated s i stack pgd M).proc i = newProcess s i stack pgd := s.setProc_self i _
  have hparent : (allocated s i stack pgd M).proc s.current = s.proc s.current := s.setProc_ne i _ _ hne
  have hcopy' : copyUvm L ((allocated s i stack pgd M).proc i).pageMap
      ((allocated s i stack pgd M).proc s.current).pageMap pageSize (allocated s i stack pgd M).memory =
      .ok (true, N) := by
    rw [hself, hparent]
    exact hcopy
  have hset : ∀ P : Process Proc, ((allocated s i stack pgd M).setProc i P).proc i = P := fun P =>
    Kernel.setProc_self _ i P
  have hcount : ∃ fs, countSlots (((allocated s i stack pgd M).setProc i { (allocated s i stack pgd M).proc i with
      file := ((allocated s i stack pgd M).proc s.current).file }).proc i).file s.fs = .ok fs := by
    rw [hset, hparent]
    exact countSlots_run hopen
  obtain ⟨fs, hfs⟩ := hcount
  refine bind_returns halloc (bind_returns hcopy' (bind_returns (require_of rfl) (bind_returns hfs ?_)))
  refine Exists.elim (hq.queues.appendTail_run (l := .ready) ?_ i) fun u hu => bind_returns hu ⟨_, rfl⟩
  rfl

end ArmOs
