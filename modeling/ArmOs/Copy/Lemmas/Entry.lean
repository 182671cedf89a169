import ArmOs.Copy.Lemmas.Families

/-!
# The head of `memcpy`: which way it copies
-/

namespace ArmOs

open Lib.Arm

namespace Copy

/-- The registers when the direction is chosen. -/
def saved (r : Reg → Word) : Reg → Word :=
  Function.update (Function.update (Function.update (Function.update r .x6 (r .x0)) .x7 (r .x1)) .x4 1) .x5 4

/-- The registers after `overlap`. -/
def reversed (r : Reg → Word) : Reg → Word :=
  Function.update (Function.update (Function.update (Function.update (Function.update r .x3 (r .x2 - 1))
    .x0 (r .x0 + (r .x2 - 1))) .x1 (r .x1 + (r .x2 - 1))) .x4 (-r .x4)) .x5 (-r .x5)

variable {dst src n : Word} {r : Reg → Word} {s : State}

theorem sizeZero_block (r : Reg → Word) (z c : Bool) (m : Store) :
    run memcpyCode 1 ⟨r, z, c, m, 3⟩ = some ⟨r, r .x2 = 0, 0 ≤ r .x2, m, 4⟩ := rfl

theorem save_block (r : Reg → Word) (z c : Bool) (m : Store) :
    run memcpyCode 5 ⟨r, z, c, m, 5⟩ = some ⟨saved r, r .x1 = r .x0, r .x0 ≤ r .x1, m, 10⟩ := rfl

theorem distance_block (r : Reg → Word) (z c : Bool) (m : Store) :
    run memcpyCode 2 ⟨r, z, c, m, 11⟩ = some ⟨Function.update r .x3 (r .x1 + r .x2), r .x1 + r .x2 = r .x0,
      r .x0 ≤ r .x1 + r .x2, m, 13⟩ := rfl

theorem overlap_block (r : Reg → Word) (z c : Bool) (m : Store) :
    run memcpyCode 6 ⟨r, z, c, m, 14⟩ = some ⟨reversed r, z, c, m, atCopy⟩ := rfl

theorem saved_pointers (h0 : r .x0 = dst) (h1 : r .x1 = src) (h2 : r .x2 = n) :
    Pointers dst src 1 (saved r) (BitVec.ofNat 64 (n.toNat - n.toNat)) n.toNat where
  x0 := by
    rw [Nat.sub_self, ← h0]
    exact (BitVec.add_zero _).symm
  x1 := by
    rw [Nat.sub_self, ← h1]
    exact (BitVec.add_zero _).symm
  x2 := by
    rw [BitVec.ofNat_toNat, BitVec.setWidth_eq, ← h2]
    rfl
  x4 := rfl
  x5 := rfl
  x6 := h0
  x7 := h1

theorem reversed_pointers (h0 : r .x0 = dst) (h1 : r .x1 = src) (h2 : r .x2 = n) :
    Pointers dst src (-1) (reversed (Function.update (saved r) .x3 (src + n))) (BitVec.ofNat 64 n.toNat - 1)
      n.toNat where
  x0 := by
    rw [BitVec.ofNat_toNat, BitVec.setWidth_eq, ← h0, ← h2]
    rfl
  x1 := by
    rw [BitVec.ofNat_toNat, BitVec.setWidth_eq, ← h1, ← h2]
    rfl
  x2 := by
    rw [BitVec.ofNat_toNat, BitVec.setWidth_eq, ← h2]
    rfl
  x4 := rfl
  x5 := (by decide : -(4 : Word) = 4 * -1)
  x6 := h0
  x7 := h1

end Copy

open Copy

/-- The three names are one place. -/
theorem Calls.steps (h : Calls s dst src n) : Steps memcpyCode s { s with pc := 3 } := by
  obtain ⟨r, z, c, m, pc⟩ := s
  obtain ⟨hpc, h0, h1, h2⟩ := h
  rcases hpc with rfl | rfl | rfl
  · exact steps_of_run (n := 3) rfl
  · exact steps_of_run (n := 2) rfl
  · exact steps_of_run (n := 1) rfl

/-- Nothing to copy. -/
theorem Calls.nothing (h : Calls s dst src 0) :
    ∃ t, Returns memcpyCode s t ∧ t.regs .x0 = dst ∧ t.mem = s.mem := by
  have hentry := h.steps
  obtain ⟨r, z, c, m, pc⟩ := s
  have hzero : r .x2 = 0 := h.x2
  have hsteps := hentry.trans (steps_of_run (sizeZero_block r z c m))
  have htaken := hsteps.trans (steps_taken (c := .eq) (l := .memcpyEnd) rfl (by simpa [State.holds] using hzero))
  exact ⟨_, ⟨htaken.trans (steps_of_run (n := 1) rfl), rfl⟩, h.x0, rfl⟩

/-- Something to copy: the arguments are saved, and `x1` is compared with `x0`. -/
theorem Calls.steps_saved (h : Calls s dst src n) (hn : n ≠ 0) :
    Steps memcpyCode s ⟨saved s.regs, src = dst, dst ≤ src, s.mem, 10⟩ := by
  have hentry := h.steps
  obtain ⟨r, z, c, m, pc⟩ := s
  have hmore : ¬r .x2 = 0 := by
    rw [show r .x2 = n from h.x2]
    exact hn
  have h0 : r .x0 = dst := h.x0
  have h1 : r .x1 = src := h.x1
  have hsteps := hentry.trans (steps_of_run (sizeZero_block r z c m))
  have hfall := hsteps.trans (steps_fall (c := .eq) (l := .memcpyEnd) rfl (by simpa [State.holds] using hmore))
  have hsave := hfall.trans (steps_of_run (save_block r _ _ m))
  rw [h0, h1] at hsave
  exact hsave

/-- Upwards where the source is not below the destination, or ends at it. -/
theorem Calls.upwards (h : Calls s dst src n) (hn : n ≠ 0) (hsrc : src.toNat + n.toNat ≤ 2 ^ 64)
    (hside : dst.toNat ≤ src.toNat ∨ src.toNat + n.toNat ≤ dst.toNat) :
    ∃ t, Steps memcpyCode s t ∧
      Head dst src 1 t atCopy (BitVec.ofNat 64 (n.toNat - n.toNat)) n.toNat s.mem := by
  have hsteps := h.steps_saved hn
  have hregs := saved_pointers h.x0 h.x1 h.x2
  cases Nat.lt_or_ge src.toNat dst.toNat with
  | inr hge =>
      have hle : dst ≤ src := hge
      have htaken := hsteps.trans (steps_taken (c := .hs) (l := .copy) rfl (by simpa [State.holds] using hle))
      exact ⟨_, htaken, ⟨rfl, hregs, rfl⟩⟩
  | inl hlt =>
      have hnot : ¬dst ≤ src := Nat.not_le_of_gt hlt
      have hfall := hsteps.trans (steps_fall (c := .hs) (l := .copy) rfl (by simpa [State.holds] using hnot))
      have hdistance := hfall.trans (steps_of_run (distance_block (saved s.regs) _ _ s.mem))
      have hsum : (saved s.regs .x1 + saved s.regs .x2).toNat = src.toNat + n.toNat := by
        rw [show saved s.regs .x1 = src from h.x1, show saved s.regs .x2 = n from h.x2, BitVec.toNat_add]
        have hdst := dst.isLt
        omega
      have hends : ¬saved s.regs .x0 ≤ saved s.regs .x1 + saved s.regs .x2 ∨
          saved s.regs .x1 + saved s.regs .x2 = saved s.regs .x0 := by
        rw [BitVec.le_def, ← BitVec.toNat_inj, hsum, show saved s.regs .x0 = dst from h.x0]
        omega
      have htaken := hdistance.trans (steps_taken (c := .ls) (l := .copy) rfl (by simpa [State.holds] using hends))
      exact ⟨_, htaken, ⟨rfl, ⟨hregs.x0, hregs.x1, hregs.x2, hregs.x4, hregs.x5, hregs.x6, hregs.x7⟩, rfl⟩⟩

/-- Downwards where the destination lies inside the source. -/
theorem Calls.downwards (h : Calls s dst src n) (hlo : src.toNat < dst.toNat) (hhi : dst.toNat < src.toNat + n.toNat)
    (hdst : dst.toNat + n.toNat ≤ 2 ^ 64) :
    ∃ t, Steps memcpyCode s t ∧ Head dst src (-1) t atCopy (BitVec.ofNat 64 n.toNat - 1) n.toNat s.mem := by
  have hn : n ≠ 0 := by
    intro hzero
    rw [hzero] at hhi
    exact absurd hhi (Nat.not_lt_of_gt hlo)
  have hsteps := h.steps_saved hn
  have hnot : ¬dst ≤ src := Nat.not_le_of_gt hlo
  have hfall := hsteps.trans (steps_fall (c := .hs) (l := .copy) rfl (by simpa [State.holds] using hnot))
  have hdistance := hfall.trans (steps_of_run (distance_block (saved s.regs) _ _ s.mem))
  have h0 : saved s.regs .x0 = dst := h.x0
  have h1 : saved s.regs .x1 = src := h.x1
  have h2 : saved s.regs .x2 = n := h.x2
  have hsum : (src + n).toNat = src.toNat + n.toNat := by
    rw [BitVec.toNat_add]
    omega
  rw [h0, h1, h2] at hdistance
  have hends : ¬(¬dst ≤ src + n ∨ src + n = dst) := by
    rw [BitVec.le_def, ← BitVec.toNat_inj, hsum]
    omega
  have hinside := hdistance.trans (steps_fall (c := .ls) (l := .copy) rfl (by simpa [State.holds] using hends))
  exact ⟨_, hinside.trans (steps_of_run (overlap_block _ _ _ s.mem)), ⟨rfl, reversed_pointers h.x0 h.x1 h.x2, rfl⟩⟩

/-! ## The whole routine -/

theorem Calls.copies_upwards (h : Calls s dst src n) (hsrc : src.toNat + n.toNat ≤ 2 ^ 64)
    (hside : dst.toNat ≤ src.toNat ∨ src.toNat + n.toNat ≤ dst.toNat) :
    ∃ t, Returns memcpyCode s t ∧ t.regs .x0 = dst ∧ t.mem = copied s.mem dst src (· < n.toNat) := by
  cases decEq n 0 with
  | isTrue hzero =>
      subst hzero
      obtain ⟨t, hret, hx0, hmem⟩ := h.nothing
      exact ⟨t, hret, hx0, hmem.trans (copied_none (Nat.not_lt_zero)).symm⟩
  | isFalse hmore =>
      obtain ⟨t, hsteps, hhead⟩ := h.upwards hmore hsrc hside
      have hpos : 0 < n.toNat := Nat.pos_of_ne_zero fun hzero => hmore (BitVec.toNat_inj.mp hzero)
      have hnone : s.mem = copied s.mem dst src (· < n.toNat - n.toNat) :=
        (copied_none fun o => by omega).symm
      rw [hnone] at hhead
      obtain ⟨u, ⟨hsteps', hret⟩, hx0, hmem⟩ := Head.copied (ascending 4 hsrc hside (Nat.le_refl _))
        (ascending 1 hsrc hside (Nat.mod_le _ _)) rfl n.isLt hpos hhead
      exact ⟨u, ⟨hsteps.trans hsteps', hret⟩, hx0, hmem⟩

/-- The offsets that the routine copies downwards. -/
def DownTo (n o : Nat) : Prop := 0 ≤ o ∧ o < n % 4 ∨ n % 4 + 3 ≤ o ∧ o < n + 3

instance (n : Nat) : DecidablePred (DownTo n) := fun o =>
  inferInstanceAs (Decidable (0 ≤ o ∧ o < n % 4 ∨ n % 4 + 3 ≤ o ∧ o < n + 3))

theorem Calls.copies_downwards (h : Calls s dst src n) (hlo : src.toNat < dst.toNat)
    (hhi : dst.toNat < src.toNat + n.toNat) (hdst : dst.toNat + n.toNat ≤ 2 ^ 64) (hsize : n.toNat + 3 ≤ 2 ^ 63) :
    ∃ t, Returns memcpyCode s t ∧ t.regs .x0 = dst ∧ t.mem = copied s.mem dst src (DownTo n.toNat) := by
  obtain ⟨t, hsteps, hhead⟩ := h.downwards hlo hhi hdst
  have hnone : s.mem = copied s.mem dst src (fun o => n.toNat + 3 ≤ o ∧ o < n.toNat + 3) :=
    (copied_none fun o => by omega).symm
  rw [hnone] at hhead
  have hjoin : copied s.mem dst src (fun o => n.toNat % 4 + 3 ≤ o ∧ o < n.toNat + 3) =
      copied s.mem dst src
        (fun o => n.toNat % 4 ≤ o ∧ o < n.toNat % 4 ∨ n.toNat % 4 + 3 ≤ o ∧ o < n.toNat + 3) :=
    copied_congr fun o => by omega
  obtain ⟨u, ⟨hsteps', hret⟩, hx0, hmem⟩ := Head.copied (descending_words hlo hdst hsize)
    (descending_bytes hlo hhi hdst hsize) hjoin n.isLt (by omega) hhead
  exact ⟨u, ⟨hsteps.trans hsteps', hret⟩, hx0, hmem⟩

end ArmOs
