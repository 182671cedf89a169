import ArmOs.Pages.Lemmas.User

/-!
# The copies of a read to the user page

A read that returns, to a buffer of the lower half, stays in the user page with each of its copies. The copies of a
read to a buffer of the upper half stay in the upper half.
-/

namespace ArmOs

open Lib

variable {L : Layout} {m m' : Mem} {pgd frame va n c cs bpb size fuel index buffer readSize position data : Nat}

/-- Every access of the lower half that is not empty is one to the user page. -/
def InPage (as : List (Nat × Nat)) : Prop := ∀ va n, (va, n) ∈ as → n ≠ 0 → va < kernelBase → InUserPage va n

namespace InPage

variable {as bs : List (Nat × Nat)}

theorem nil : InPage [] := nofun

theorem cons (h : n ≠ 0 → va < kernelBase → InUserPage va n) (has : InPage as) : InPage ((va, n) :: as) := by
  intro va' n' hmem hn
  cases List.mem_cons.mp hmem with
  | inl heq =>
      cases heq
      exact h hn
  | inr hmem => exact has va' n' hmem hn

theorem append (has : InPage as) (hbs : InPage bs) : InPage (as ++ bs) := by
  intro va n hmem
  cases List.mem_append.mp hmem with
  | inl hmem => exact has va n hmem
  | inr hmem => exact hbs va n hmem

end InPage

/-! ## Copies go upwards -/

/-- All accesses are behind `buffer`. -/
def From (buffer : Nat) (as : List (Nat × Nat)) : Prop := ∀ va n, (va, n) ∈ as → buffer ≤ va

namespace From

variable {as : List (Nat × Nat)}

theorem nil : From buffer [] := nofun

theorem cons (h : From (buffer + n) as) : From buffer ((buffer, n) :: as) := by
  intro va n hmem
  cases List.mem_cons.mp hmem with
  | inl heq =>
      cases heq
      exact Nat.le_refl _
  | inr hmem => exact Nat.le_of_add_right_le (h va n hmem)

/-- What follows a copy, if it returns. -/
theorem afterCopy {r : Except Stop Mem} {f : Mem → List (Nat × Nat)} (h : ∀ m, From (buffer + n) (f m)) :
    From buffer ((buffer, n) :: match r with | .error _ => [] | .ok m => f m) := by
  cases r with
  | error _ => exact .cons .nil
  | ok m => exact .cons (h m)

theorem inPage (h : From buffer as) (hbuffer : kernelBase ≤ buffer) : InPage as := fun va n hmem _ hva =>
  absurd hva (Nat.not_lt_of_ge (hbuffer.trans (h va n hmem)))

end From

theorem loopCopies_from {ttbr0 : Nat} :
    From buffer (loopCopies ttbr0 cs bpb size fuel index buffer readSize m) := by
  induction fuel generalizing index buffer readSize m with
  | zero => exact .nil
  | succ fuel ih =>
      rw [loopCopies]
      split
      · split
        · exact .nil
        · split
          · exact .cons .nil
          · exact .afterCopy fun _ => ih
      · exact .nil

theorem rawCopies_from {ttbr0 : Nat} : From buffer (rawCopies ttbr0 c buffer position size m) := by
  unfold rawCopies
  split
  · exact .nil
  · unfold copiesFrom
    split
    · dsimp only
      split
      · exact .nil
      · exact .afterCopy fun _ => loopCopies_from
    · exact loopCopies_from

/-! ## Copies that are made -/

namespace MapsUser

variable (h : MapsUser L m pgd frame)

include h

theorem copyOut_inPage (hva : va < kernelBase) (hrun : copyOut (v2p pgd) m va data n = .ok m') (hn : n ≠ 0) :
    InUserPage va n := by
  rw [copyOut, if_neg hn] at hrun
  obtain ⟨a, ha, -⟩ := bind_eq_ok.mp hrun
  rw [h.resolve_eq hva] at ha
  split at ha
  · assumption
  · cases ha

end MapsUser

theorem MapsUser.loopCopies_inPage (h : MapsUser L m pgd frame) (hva : buffer < kernelBase) (hbpb : fsBase ≤ bpb)
    (hrun : readLoop (v2p pgd) cs bpb size fuel index buffer readSize m = .ok (n, m')) :
    InPage (loopCopies (v2p pgd) cs bpb size fuel index buffer readSize m) := by
  induction fuel generalizing index buffer readSize m with
  | zero => cases hrun
  | succ fuel ih =>
      rw [readLoop] at hrun
      rw [loopCopies]
      split at hrun
      · rename_i hgo
        obtain ⟨off, hoff, hrun⟩ := bind_eq_ok.mp hrun
        simp only [if_pos hgo, hoff]
        split at hrun
        · rename_i hend
          obtain ⟨m₁, hcopy, -⟩ := bind_eq_ok.mp hrun
          rw [if_pos hend]
          exact .cons (fun hn _ => h.copyOut_inPage hva hcopy hn) .nil
        · rename_i hend
          obtain ⟨m₁, hcopy, hrun⟩ := bind_eq_ok.mp hrun
          obtain ⟨honly, hnext⟩ := h.copyOut_onlyIn hva (Nat.le_add_left_of_le hbpb) hcopy
          simp only [if_neg hend, hcopy]
          exact .cons (fun hn _ => h.copyOut_inPage hva hcopy hn) (ih (h.onlyIn honly) hnext hrun)
      · rename_i hgo
        rw [if_neg hgo]
        exact .nil

theorem MapsUser.rawCopies_inPage (h : MapsUser L m pgd frame)
    (hrun : readRawData (v2p pgd) c buffer position size m = .ok (n, m')) :
    InPage (rawCopies (v2p pgd) c buffer position size m) := by
  cases Nat.lt_or_ge buffer kernelBase with
  | inr hva => exact rawCopies_from.inPage hva
  | inl hva =>
      rw [readRawData_eq] at hrun
      obtain ⟨index, hskip, hrun⟩ := bind_eq_ok.mp hrun
      simp only [rawCopies, hskip, copiesFrom]
      unfold readFrom at hrun
      split at hrun
      · rename_i hoffset
        obtain ⟨off, hoff, hrun⟩ := bind_eq_ok.mp hrun
        obtain ⟨m₁, hcopy, hrun⟩ := bind_eq_ok.mp hrun
        have hdata : fsBase ≤ off + getFsBpb m + position % getClusterSize m :=
          Nat.le_add_right_of_le (Nat.le_add_left_of_le (fsBase_le_bpb m))
        obtain ⟨honly, hnext⟩ := h.copyOut_onlyIn hva hdata hcopy
        simp only [if_pos hoffset, hoff, hcopy]
        exact .cons (fun hn _ => h.copyOut_inPage hva hcopy hn)
          ((h.onlyIn honly).loopCopies_inPage hnext (fsBase_le_bpb m) hrun)
      · rename_i hoffset
        rw [if_neg hoffset]
        exact h.loopCopies_inPage hva (fsBase_le_bpb m) hrun

end ArmOs
