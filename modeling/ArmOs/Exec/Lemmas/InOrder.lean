import ArmOs.Exec.Lemmas.Exec
import ArmOs.Files.Theorems
import ArmOs.Pages.Lemmas.Boot
import ArmOs.Pages.Lemmas.Steps

/-!
# A kernel in order

The invariants of the scheduler, of the pages and of the file tables together, and one more: the entry of an open
file says what the directory says. They hold in every state that is reached by processes that pass buffers of the
lower half, as long as no reference count overflows.
-/

namespace ArmOs

open Lib

variable {L : Layout} {m m' : Mem} {s t o : Kernel} {ev : Event} {xs : List Nat} {ls : List Label} {i : Nat}

/-- The entries of open files say what the directory says. -/
def DirCached (s : Kernel) : Prop := ∀ i, (s.fs.fcbTable i).count = 0 ∨ Cached s.memory.mem i (s.fs.fcbTable i)

theorem Cached.above {f : FCB} (h : Cached m i f) (hm : SameAbove m m') : Cached m' i f :=
  ⟨by rw [hm.clusterIndex]; exact h.clusterIndex, by rw [hm.fileSize]; exact h.fileSize⟩

theorem Cached.withCount {f : FCB} (h : Cached m i f) (n : Int) : Cached m i { f with count := n } :=
  ⟨h.clusterIndex, h.fileSize⟩

/-! ## The image -/

/-- No part of a step writes the image. -/
theorem PageEffect.above (h : PageInv L s xs) (he : PageEffect L o ev s t xs) : SameAbove s.memory.mem t.memory.mem := by
  cases he with
  | writes hw =>
      obtain ⟨vs, honly, hvs⟩ := hw.pages
      exact honly.above fun v hv => (h.writable_page (hvs v hv)).1
  | @forked i stack pgd pud pmd frame ys hso hev hforked hxs hf =>
      have hsub : [stack, pgd, frame, pud, pmd] ⊆ stack :: pgd :: frame :: pud :: pmd :: ys := by simp
      refine hf.toCreated.only.above fun v hv => h.freePages v ?_
      rw [hxs]
      exact hsub hv
  | @reaped q lost pid x ys zs hx hat hr =>
      obtain ⟨hu, -, honly⟩ := h.reaped_memory hx hr
      exact honly.above (h.pagesOf hu).1

/-! ## The entries of files -/

theorem FileEffect.dirCached (he : FileEffect L o ev s t) (hf : FileInv s) (hfit : CountsFit o ev)
    (hm : SameAbove s.memory.mem t.memory.mem) (h : DirCached s) : DirCached t := by
  intro i
  cases he with
  | same hs =>
      rw [hs.fcbTable]
      exact (h i).imp_right (·.above hm)
  | @opened fd d j path ho hev hop =>
      rw [hop.fcbTable]
      by_cases hij : i = j
      · subst hij
        refine .inr (Cached.above ?_ hm)
        have hc := openFcb_cached (h i)
        exact hc
      · have hne : (getFcb s.memory.mem j s.fs).fcbTable i = s.fs.fcbTable i := by simp [getFcb, Fs.setFcb, hij]
        rw [hne]
        exact (h i).imp_right (·.above hm)
  | @closed fd d j hev hc =>
      rw [hc.fcbTable]
      by_cases hij : i = j
      · subst hij
        have hcount := hc.count
        rw [Function.update_self]
        exact .inr (((h i).resolve_left (by omega)).above hm |>.withCount _)
      · rw [Function.update_of_ne hij]
        exact (h i).imp_right (·.above hm)
  | @forked j ho hev hf' =>
      subst ho
      subst hev
      have hkeep := hf'.countedUp.fcb i
      cases h i with
      | inl hzero =>
          -- no slot reaches the file, so the child does not count it
          have hsurplus := hf.counts.surplus i
          rw [surplus, fcbRefs, hzero] at hsurplus
          have hnone : refs s.slot (s.fs.reaches i) = 0 := by omega
          have hrefs : refs (s.proc s.current).file (s.fs.reaches i) = 0 :=
            refs_eq_zero_iff.mpr fun x k hx => refs_eq_zero_iff.mp hnone (s.current, x) k hx
          refine .inl ?_
          rw [hf'.fcbCount i (by omega) (hfit.fcb i), hzero, hrefs]
          rfl
      | inr hc =>
          rw [hkeep]
          exact .inr ((hc.above hm).withCount _)
  | @reaped q lost pid x ys zs hat hfind hr =>
      rw [hr.fs]
      exact (h i).imp_right (·.above hm)

/-! ## The invariants together -/

structure InOrder (L : Layout) (s : Kernel) : Prop where
  good : Good s
  pages : ∃ xs, PageInv L s xs
  files : FileInv s
  cached : DirCached s

/-- A step whose buffers are in the lower half, and that overflows no reference count. -/
def StepInOrder (s : Kernel) (l : Label) : Prop := l.event.UserPointers ∧ CountsFit s l.event

theorem Step.inOrder {l : Label} (h : InOrder L s) (hok : StepInOrder s l) (hstep : Step L s l t) : InOrder L t := by
  have hkeep : ∀ ⦃a b⦄, Good a → Part L s l.event a b → (∃ xs, PageInv L a xs) ∧ FileInv a ∧ DirCached a →
      (∃ xs, PageInv L b xs) ∧ FileInv b ∧ DirCached b := by
    rintro a b ha hp ⟨⟨xs, hpages⟩, hfiles, hcached⟩
    have hpage := hp.pageEffect hpages ha hok.1
    have hfile := hp.fileEffect ha
    exact ⟨hpage.pageInv hpages, hfile.fileInv ha.live hok.2 hfiles,
      hfile.dirCached hfiles hok.2 (hpage.above hpages) hcached⟩
  obtain ⟨hg, hpages, hfiles, hcached⟩ := hstep.preserves hkeep h.good ⟨h.pages, h.files, h.cached⟩
  exact ⟨hg, hpages, hfiles, hcached⟩

theorem boot_inOrder (hboot : boot L m = .ok s) (hfits : InitFits m) : InOrder L s where
  good := good_of_boot hboot
  pages := boot_pages hboot hfits
  files := (boot_files hboot).fileInv
  cached i := .inl ((boot_files hboot).fcb i)

theorem reaches_inOrder (hboot : boot L m = .ok s) (hfits : InitFits m)
    (hrun : Run (Guarded StepInOrder (Step L)) s ls t) : InOrder L t :=
  hrun.invariant (boot_inOrder hboot hfits) fun _ _ _ h hstep => hstep.2.inOrder h hstep.1

end ArmOs
