import ArmOs.Fat.Lemmas.Copies
import ArmOs.Pages.Lemmas.Spaces

/-!
# The user page

The hardware finds the frame of a process through its tables, for the addresses of the user page and for no other
address of the lower half. What the kernel writes through such an address goes to the frame.
-/

namespace ArmOs

open Lib

variable {L : Layout} {m m' : Mem} {pgd pud pmd frame va pa n k a cs bpb size fuel index buffer readSize c position : Nat}

/-! ## The indices of an address -/

theorem pgdIndex_eq (v : Nat) : pgdIndex v = v / 2 ^ 39 % 512 := by
  rw [pgdIndex, Nat.shiftRight_eq_div_pow]
  exact Nat.and_two_pow_sub_one_eq_mod _ 9

theorem pudIndex_eq (v : Nat) : pudIndex v = v / 2 ^ 30 % 512 := by
  rw [pudIndex, Nat.shiftRight_eq_div_pow]
  exact Nat.and_two_pow_sub_one_eq_mod _ 9

theorem pmdIndex_eq (v : Nat) : pmdIndex v = v / 2 ^ 21 % 512 := by
  rw [pmdIndex, Nat.shiftRight_eq_div_pow]
  exact Nat.and_two_pow_sub_one_eq_mod _ 9

/-- The address is one of the user page. -/
def InUserPage (va n : Nat) : Prop := userBase ≤ va ∧ va < userBase + pageSize ∧ va + n ≤ userBase + pageSize

instance (va n : Nat) : Decidable (InUserPage va n) :=
  inferInstanceAs (Decidable (userBase ≤ va ∧ va < userBase + pageSize ∧ va + n ≤ userBase + pageSize))

theorem userEnd_lt : userBase + pageSize < kernelBase := by decide

theorem indices_iff (hva : va < 2 ^ 48) :
    pgdIndex va = 0 ∧ pudIndex va = 0 ∧ pmdIndex va = 2 ↔ userBase ≤ va ∧ va < userBase + pageSize := by
  rw [pgdIndex_eq, pudIndex_eq, pmdIndex_eq, pageSize_eq, userBase]
  omega

/-! ## The translation -/

/-- The tables at `pgd` map the user page to `frame`, and all of them are different heap pages. -/
structure MapsUser (L : Layout) (m : Mem) (pgd frame : Nat) : Prop where
  tables : ∃ pud pmd, AddrSpace m pgd pud pmd frame ∧ (∀ w ∈ [pgd, pud, pmd, frame], HeapPage L w) ∧
    [pgd, pud, pmd, frame].Nodup

theorem AddrSpace.walk_eq (h : AddrSpace m pgd pud pmd frame) (hpgd : HeapPage L pgd) (va : Nat) :
    (walk m (v2p pgd) va).map p2v = if userBase ≤ va ∧ va < userBase + pageSize then some frame else none := by
  have hi₀ : pgdIndex va < 512 := by rw [pgdIndex_eq]; exact Nat.mod_lt _ (by decide)
  have hi₁ : pudIndex va < 512 := by rw [pudIndex_eq]; exact Nat.mod_lt _ (by decide)
  have hi₂ : pmdIndex va < 512 := by rw [pmdIndex_eq]; exact Nat.mod_lt _ (by decide)
  unfold walk
  rw [hpgd.p2v_v2p]
  dsimp only
  split
  · rename_i hva
    simp only [← indices_iff hva]
    by_cases h₀ : pgdIndex va = 0
    · rw [h₀, if_pos h.pgd.entry.valid, h.pgd.entry.addr]
      by_cases h₁ : pudIndex va = 0
      · rw [h₁, if_pos h.pud.entry.valid, h.pud.entry.addr]
        by_cases h₂ : pmdIndex va = 2
        · rw [h₂, if_pos h.pmd.entry.valid]
          simp [h.pmd.entry.addr]
        · rw [if_neg (h.pmd.rest _ hi₂ h₂)]
          simp [h₂]
      · rw [if_neg (h.pud.rest _ hi₁ h₁)]
        simp [h₁]
    · rw [if_neg (h.pgd.rest _ hi₀ h₀)]
      simp [h₀]
  · rename_i hva
    have hout : ¬(userBase ≤ va ∧ va < userBase + pageSize) := by
      rw [userBase, pageSize_eq]
      omega
    rw [if_neg hout]
    rfl

namespace MapsUser

variable (h : MapsUser L m pgd frame)

include h

theorem framePage : HeapPage L frame := by
  obtain ⟨pud, pmd, -, hpages, -⟩ := h.tables
  exact hpages frame (by simp)

/-- Writing the frame leaves the tables as they are. -/
theorem onlyIn (hm : OnlyIn [frame] m m') : MapsUser L m' pgd frame := by
  obtain ⟨pud, pmd, hspace, hpages, hnodup⟩ := h.tables
  have hframe : ∀ w ∈ [frame], HeapPage L w := fun w hw => hpages w (by simp_all)
  have hsame : ∀ w ∈ [pgd, pud, pmd], Mem.Same m m' w pageSize := by
    intro w hw
    refine hm.same hframe (hpages w ?_) ?_
    · simp only [List.mem_cons, List.not_mem_nil, or_false] at hw ⊢
      tauto
    · simp only [List.nodup_cons, List.mem_cons, List.not_mem_nil, or_false, not_or] at hnodup hw ⊢
      rcases hw with rfl | rfl | rfl
      · exact hnodup.1.2.2
      · exact hnodup.2.1.2
      · exact hnodup.2.2.1
  exact ⟨pud, pmd, hspace.congr (hsame pgd (by simp)) (hsame pud (by simp)) (hsame pmd (by simp)), hpages, hnodup⟩

/-- The hardware finds the frame, at the addresses of the user page only. -/
theorem walk_eq (va : Nat) :
    (walk m (v2p pgd) va).map p2v = if userBase ≤ va ∧ va < userBase + pageSize then some frame else none := by
  obtain ⟨pud, pmd, hspace, hpages, -⟩ := h.tables
  exact hspace.walk_eq (hpages pgd (by simp)) va

theorem walk_some (hw : walk m (v2p pgd) va = some pa) :
    userBase ≤ va ∧ va < userBase + pageSize ∧ p2v pa = frame := by
  have hwalk := h.walk_eq va
  rw [hw, Option.map_some] at hwalk
  split at hwalk
  · rename_i hin
    exact ⟨hin.1, hin.2, Option.some.inj hwalk⟩
  · cases hwalk

/-- An access of the kernel in the lower half: it goes to the frame, or it aborts. -/
theorem resolve_eq (hva : va < kernelBase) (n : Nat) : resolve m (v2p pgd) va n =
    if InUserPage va n then .ok (frame + (va - userBase)) else .error .abort := by
  have hwalk := h.walk_eq va
  have hmod : userBase ≤ va → va < userBase + pageSize → va % pageSize = va - userBase := by
    rw [userBase, pageSize_eq]
    omega
  rw [resolve, if_neg (Nat.not_le.mpr hva)]
  by_cases hin : userBase ≤ va ∧ va < userBase + pageSize
  · rw [if_pos hin] at hwalk
    obtain ⟨pa, hpa, hframe⟩ := Option.map_eq_some_iff.mp hwalk
    rw [hpa, hmod hin.1 hin.2]
    dsimp only
    rw [hframe]
    refine if_congr ?_ rfl rfl
    simp only [InUserPage]
    omega
  · rw [if_neg hin, Option.map_eq_none_iff] at hwalk
    have hout : ¬InUserPage va n := fun hp => hin ⟨hp.1, hp.2.1⟩
    rw [hwalk, if_neg hout]
    split <;> rfl

/-- A buffer in the user page. -/
theorem lands (hle : userBase ≤ va) (hend : va + n ≤ userBase + pageSize) :
    Lands m (v2p pgd) va n (frame + (va - userBase)) := by
  intro m' hm o k ho hk
  have hm' : OnlyIn [frame] m m' := by
    intro x hx
    have := hx frame (by simp)
    refine hm x ?_
    omega
  have hsum : va + o ≤ va + n := by omega
  have hlow : va + o < kernelBase := Nat.lt_of_le_of_lt (hsum.trans hend) userEnd_lt
  have hin : InUserPage (va + o) k := by
    simp only [InUserPage]
    omega
  have hdst : frame + (va + o - userBase) = frame + (va - userBase) + o := by omega
  rw [(h.onlyIn hm').resolve_eq hlow, if_pos hin, hdst]

/-! ## What the kernel writes through a lower-half address -/

theorem copyOut_onlyIn (hva : va < kernelBase) {data : Nat} (hdata : fsBase ≤ data) (hrun : copyOut (v2p pgd) m va data n = .ok m') :
    OnlyIn [frame] m m' ∧ va + n < kernelBase := by
  unfold copyOut at hrun
  split at hrun
  · rename_i hzero
    cases hrun
    exact ⟨.refl _ m, by omega⟩
  · obtain ⟨dst, hdst, hrun⟩ := bind_eq_ok.mp hrun
    cases hrun
    rw [h.resolve_eq hva] at hdst
    split at hdst
    · rename_i hin
      obtain ⟨hle, hlt, hend⟩ := hin
      have hframe : frame + pageSize ≤ fsBase := h.framePage.end
      have hbelow : dst ≤ data := by
        rw [← Except.ok.inj hdst]
        omega
      rw [memcpy_eq_copy fun hlt => absurd hlt (Nat.not_lt_of_ge hbelow), ← Except.ok.inj hdst]
      exact ⟨.copy (Nat.le_add_right _ _) (by omega), Nat.lt_of_le_of_lt hend userEnd_lt⟩
    · cases hdst

end MapsUser

/-- The loop writes the frame only. Every copy that returns ends in the user page, so the next one starts in the
lower half again. -/
theorem MapsUser.readLoop_onlyIn (h : MapsUser L m pgd frame) (hva : buffer < kernelBase) (hbpb : fsBase ≤ bpb)
    (hrun : readLoop (v2p pgd) cs bpb size fuel index buffer readSize m = .ok (n, m')) : OnlyIn [frame] m m' := by
  induction fuel generalizing index buffer readSize m with
  | zero => cases hrun
  | succ fuel ih =>
      rw [readLoop] at hrun
      split at hrun
      · obtain ⟨off, -, hrun⟩ := bind_eq_ok.mp hrun
        dsimp only at hrun
        split at hrun
        · obtain ⟨m₁, hcopy, hrun⟩ := bind_eq_ok.mp hrun
          cases hrun
          exact (h.copyOut_onlyIn hva (Nat.le_add_left_of_le hbpb) hcopy).1
        · obtain ⟨m₁, hcopy, hrun⟩ := bind_eq_ok.mp hrun
          obtain ⟨honly, hnext⟩ := h.copyOut_onlyIn hva (Nat.le_add_left_of_le hbpb) hcopy
          exact honly.trans_self (ih (h.onlyIn honly) hnext hrun)
      · cases hrun
        exact .refl _ _

theorem MapsUser.readRawData_onlyIn (h : MapsUser L m pgd frame) (hva : buffer < kernelBase)
    (hrun : readRawData (v2p pgd) c buffer position size m = .ok (n, m')) : OnlyIn [frame] m m' := by
  rw [readRawData_eq] at hrun
  obtain ⟨index, -, hrun⟩ := bind_eq_ok.mp hrun
  unfold readFrom at hrun
  split at hrun
  · obtain ⟨off, -, hrun⟩ := bind_eq_ok.mp hrun
    obtain ⟨m₁, hcopy, hrun⟩ := bind_eq_ok.mp hrun
    have hdata : fsBase ≤ off + getFsBpb m + position % getClusterSize m :=
      Nat.le_add_right_of_le (Nat.le_add_left_of_le (fsBase_le_bpb m))
    obtain ⟨honly, hnext⟩ := h.copyOut_onlyIn hva hdata hcopy
    exact honly.trans_self ((h.onlyIn honly).readLoop_onlyIn hnext (fsBase_le_bpb m) hrun)
  · exact h.readLoop_onlyIn hva (fsBase_le_bpb m) hrun

end ArmOs
