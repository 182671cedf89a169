import ArmOs.Kernel.Utils

/-!
# The two loops of `memcpy`

`Head` is the state at the head of a loop: the offset of the pointers, the size that is left and the memory. A loop
runs along a family of offsets and memories, one for each size that is left.
-/

namespace ArmOs

open Lib.Arm

namespace Copy

def atCopy : Nat := place memcpyCode .copy
def atCopy1 : Nat := place memcpyCode .copy1
def atRestore : Nat := place memcpyCode .memcpyRestoreP

/-- The registers of a loop: the pointers are `off` away from `dst` and `src`, and `rem` bytes are left. -/
structure Pointers (dst src unit : Word) (r : Reg → Word) (off : Word) (rem : Nat) : Prop where
  x0 : r .x0 = dst + off
  x1 : r .x1 = src + off
  x2 : r .x2 = BitVec.ofNat 64 rem
  x4 : r .x4 = unit
  x5 : r .x5 = 4 * unit
  x6 : r .x6 = dst
  x7 : r .x7 = src

/-- The state at one of these places. -/
structure Head (dst src unit : Word) (s : State) (pc : Nat) (off : Word) (rem : Nat) (m : Store) : Prop where
  pc : s.pc = pc
  regs : Pointers dst src unit s.regs off rem
  mem : s.mem = m

variable {dst src unit off v d : Word} {r : Reg → Word} {s : State} {rem n k : Nat} {m : Store}

/-! ## The straight lines -/

/-- From `cmp x2, 4` to the branch after it. -/
theorem cmpSize_block (r : Reg → Word) (z c : Bool) (m : Store) :
    run memcpyCode 3 ⟨r, z, c, m, atCopy⟩ = some ⟨r, r .x2 = 4, 4 ≤ r .x2, m, atCopy + 3⟩ := rfl

/-- The registers after a round: `v` was loaded, the pointers moved by `d`, and `k` bytes fewer are left. -/
def advance (r : Reg → Word) (v d k : Word) : Reg → Word :=
  Function.update (Function.update (Function.update (Function.update r .x3 v) .x0 (r .x0 + d)) .x1 (r .x1 + d)) .x2
    (r .x2 - k)

theorem copy4_block (r : Reg → Word) (z c : Bool) (m : Store) :
    run memcpyCode 6 ⟨r, z, c, m, atCopy + 4⟩ = some ⟨advance r (BitVec.ofNat 64 (load m 4 (r .x1))) (r .x5) 4,
      r .x2 = 4, 4 ≤ r .x2, store m 4 (r .x0) (BitVec.ofNat 64 (load m 4 (r .x1))).toNat, atCopy + 10⟩ := rfl

theorem copy1_block (r : Reg → Word) (z c : Bool) (m : Store) :
    run memcpyCode 6 ⟨r, z, c, m, atCopy1⟩ = some ⟨advance r (BitVec.ofNat 64 (load m 1 (r .x1))) (r .x4) 1,
      r .x2 = 1, 1 ≤ r .x2, store m 1 (r .x0) (BitVec.ofNat 64 (load m 1 (r .x1))).toNat, atCopy1 + 6⟩ := rfl

theorem restore_block (r : Reg → Word) (z c : Bool) (m : Store) :
    run memcpyCode 4 ⟨r, z, c, m, atRestore⟩ = some ⟨
      Function.update (Function.update r .x0 (r .x6)) .x1 (r .x7), z, c, m, place memcpyCode .memcpyEnd + 1⟩ := rfl

theorem toNat_rem (hrem : rem < 2 ^ 64) : (BitVec.ofNat 64 rem).toNat = rem := by
  rw [BitVec.toNat_ofNat, Nat.mod_eq_of_lt hrem]

theorem rem_eq (hrem : rem < 2 ^ 64) (hk : k < 2 ^ 64) :
    BitVec.ofNat 64 rem = BitVec.ofNat 64 k ↔ rem = k := by
  rw [← BitVec.toNat_inj, toNat_rem hrem, toNat_rem hk]

theorem le_rem (hrem : rem < 2 ^ 64) (hk : k < 2 ^ 64) :
    BitVec.ofNat 64 k ≤ BitVec.ofNat 64 rem ↔ k ≤ rem := by
  rw [BitVec.le_def, toNat_rem hrem, toNat_rem hk]

theorem sub_rem (hk : k ≤ rem) : BitVec.ofNat 64 rem - BitVec.ofNat 64 k = BitVec.ofNat 64 (rem - k) := by
  rw [BitVec.sub_eq_iff_eq_add, ← BitVec.ofNat_add, Nat.sub_add_cancel hk]

theorem load_toNat (hk : k ≤ 8) : (BitVec.ofNat 64 (load m k off)).toNat = load m k off :=
  toNat_rem (Nat.lt_of_lt_of_le (load_lt m k off) (by
    calc 256 ^ k ≤ 256 ^ 8 := Nat.pow_le_pow_right (by decide) hk
      _ = 2 ^ 64 := by decide))

theorem store_loaded (hk : k ≤ 8) (h : Pointers dst src unit r off rem) :
    store m k (r .x0) (BitVec.ofNat 64 (load m k (r .x1))).toNat =
      store m k (dst + off) (load m k (src + off)) := by
  rw [load_toNat hk, h.x0, h.x1]

theorem Pointers.advance (h : Pointers dst src unit r off rem) (hk : k ≤ rem) :
    Pointers dst src unit (advance r v d (BitVec.ofNat 64 k)) (off + d) (rem - k) where
  x0 := by simp [Copy.advance, h.x0, BitVec.add_assoc]
  x1 := by simp [Copy.advance, h.x1, BitVec.add_assoc]
  x2 := by
    rw [← sub_rem hk, ← h.x2]
    rfl
  x4 := h.x4
  x5 := h.x5
  x6 := h.x6
  x7 := h.x7

theorem Pointers.x2_eq (h : Pointers dst src unit r off rem) (hrem : rem < 2 ^ 64) (hk : k < 2 ^ 64) :
    r .x2 = BitVec.ofNat 64 k ↔ rem = k := by
  rw [h.x2]
  exact rem_eq hrem hk

theorem Pointers.le_x2 (h : Pointers dst src unit r off rem) (hrem : rem < 2 ^ 64) (hk : k < 2 ^ 64) :
    BitVec.ofNat 64 k ≤ r .x2 ↔ k ≤ rem := by
  rw [h.x2]
  exact le_rem hrem hk

/-! ## One round -/

/-- The size is compared with that of a word. -/
theorem Head.cmpSize (h : Head dst src unit s atCopy off rem m) (hrem : rem < 2 ^ 64) :
    ∃ t, Steps memcpyCode s t ∧ Head dst src unit t (if 4 ≤ rem then atCopy + 4 else atCopy1) off rem m := by
  obtain ⟨r, z, c, m', pc⟩ := s
  obtain ⟨rfl, hregs, rfl⟩ := h
  have hregs : Pointers dst src unit r off rem := hregs
  have hsteps := steps_of_run (cmpSize_block r z c m')
  have hsize : 4 ≤ r .x2 ↔ 4 ≤ rem := hregs.le_x2 hrem (by decide)
  cases Nat.decLe 4 rem with
  | isTrue henough =>
      rw [if_pos henough]
      refine ⟨_, hsteps.trans (steps_fall rfl ?_), ⟨rfl, hregs, rfl⟩⟩
      simpa [State.holds] using hsize.mpr henough
  | isFalse hfew =>
      rw [if_neg hfew]
      refine ⟨_, hsteps.trans (steps_taken rfl ?_), ⟨rfl, hregs, rfl⟩⟩
      simpa [State.holds] using mt hsize.mp hfew

/-- One round of `copy_4`. -/
theorem Head.word (h : Head dst src unit s (atCopy + 4) off rem m) (hrem : rem < 2 ^ 64) (hsize : 4 ≤ rem) :
    ∃ t, Steps memcpyCode s t ∧ Head dst src unit t (if rem = 4 then atRestore else atCopy) (off + 4 * unit) (rem - 4)
      (store m 4 (dst + off) (load m 4 (src + off))) := by
  obtain ⟨r, z, c, m', pc⟩ := s
  obtain ⟨rfl, hregs, rfl⟩ := h
  have hregs : Pointers dst src unit r off rem := hregs
  have hsteps := steps_of_run (copy4_block r z c m')
  have hlast : r .x2 = 4 ↔ rem = 4 := hregs.x2_eq hrem (by decide)
  have hafter := hregs.advance (v := BitVec.ofNat 64 (load m' 4 (r .x1))) (d := 4 * unit) hsize
  rw [← hregs.x5] at hafter ⊢
  have hmem := store_loaded (m := m') (k := 4) (by decide) hregs
  cases Nat.decEq rem 4 with
  | isTrue heq =>
      rw [if_pos heq]
      refine ⟨_, hsteps.trans (steps_taken rfl ?_), ⟨rfl, hafter, hmem⟩⟩
      simpa [State.holds] using hlast.mpr heq
  | isFalse hne =>
      rw [if_neg hne]
      refine ⟨_, (hsteps.trans (steps_fall rfl ?_)).trans (steps_of_run (n := 1) rfl), ⟨rfl, hafter, hmem⟩⟩
      simpa [State.holds] using mt hlast.mp hne

/-- One round of `copy_1`. -/
theorem Head.byte (h : Head dst src unit s atCopy1 off rem m) (hrem : rem < 2 ^ 64) (hsize : 1 ≤ rem) :
    ∃ t, Steps memcpyCode s t ∧ Head dst src unit t (if rem = 1 then atRestore else atCopy1) (off + unit) (rem - 1)
      (store m 1 (dst + off) (load m 1 (src + off))) := by
  obtain ⟨r, z, c, m', pc⟩ := s
  obtain ⟨rfl, hregs, rfl⟩ := h
  have hregs : Pointers dst src unit r off rem := hregs
  have hsteps := steps_of_run (copy1_block r z c m')
  have hlast : r .x2 = 1 ↔ rem = 1 := hregs.x2_eq hrem (by decide)
  have hafter := hregs.advance (v := BitVec.ofNat 64 (load m' 1 (r .x1))) (d := unit) hsize
  rw [← hregs.x4] at hafter ⊢
  have hmem := store_loaded (m := m') (k := 1) (by decide) hregs
  cases Nat.decEq rem 1 with
  | isTrue heq =>
      rw [if_pos heq]
      refine ⟨_, hsteps.trans (steps_fall rfl ?_), ⟨rfl, hafter, hmem⟩⟩
      simpa [State.holds] using hlast.mpr heq
  | isFalse hne =>
      rw [if_neg hne]
      refine ⟨_, hsteps.trans (steps_taken rfl ?_), ⟨rfl, hafter, hmem⟩⟩
      simpa [State.holds] using mt hlast.mp hne

/-! ## The loops -/

/-- The offsets and the memories that rounds of `w` bytes pass through, down from the size `n`. -/
structure Family (dst src unit : Word) (w n : Nat) (off : Nat → Word) (mem : Nat → Store) : Prop where
  off_sub : ∀ k, k + w ≤ n → off (k + w) + BitVec.ofNat 64 w * unit = off k
  mem_sub : ∀ k, k + w ≤ n →
    store (mem (k + w)) w (dst + off (k + w)) (load (mem (k + w)) w (src + off (k + w))) = mem k

variable {offs : Nat → Word} {mems : Nat → Store}

/-- The word loop ends at `copy_1` with less than a word left, or at the end of the routine. -/
theorem Family.words (hfam : Family dst src unit 4 n offs mems) (hn : n < 2 ^ 64)
    (h : Head dst src unit s atCopy (offs n) n (mems n)) :
    ∃ t, Steps memcpyCode s t ∧ Head dst src unit t (if n % 4 = 0 ∧ 0 < n then atRestore else atCopy1) (offs (n % 4))
      (n % 4) (mems (n % 4)) := by
  induction n using Nat.strongRecOn generalizing s with
  | ind n ih =>
      obtain ⟨t, hsteps, ht⟩ := h.cmpSize hn
      cases Nat.lt_or_ge n 4 with
      | inl hfew =>
          rw [if_neg (Nat.not_le_of_gt hfew)] at ht
          have hmod : n % 4 = n := Nat.mod_eq_of_lt hfew
          have hplace : ¬(n % 4 = 0 ∧ 0 < n) := by omega
          rw [if_neg hplace, hmod]
          exact ⟨t, hsteps, ht⟩
      | inr hmany =>
          obtain ⟨k, rfl⟩ := Nat.exists_eq_add_of_le' hmany
          rw [if_pos hmany] at ht
          obtain ⟨u, hsteps', hu⟩ := ht.word hn hmany
          have hoff : offs (k + 4) + 4 * unit = offs k := hfam.off_sub k (Nat.le_refl _)
          rw [hoff, hfam.mem_sub k (Nat.le_refl _), Nat.add_sub_cancel] at hu
          have hmod : (k + 4) % 4 = k % 4 := Nat.add_mod_right k 4
          cases Nat.eq_zero_or_pos k with
          | inl hzero =>
              subst hzero
              exact ⟨u, hsteps.trans hsteps', hu⟩
          | inr hpos =>
              have hplace : ¬k + 4 = 4 := by omega
              rw [if_neg hplace] at hu
              have hfam' : Family dst src unit 4 k offs mems :=
                ⟨fun j hj => hfam.off_sub j (Nat.le_trans hj (Nat.le_add_right k 4)),
                  fun j hj => hfam.mem_sub j (Nat.le_trans hj (Nat.le_add_right k 4))⟩
              obtain ⟨v, hrest, hv⟩ := ih k (by omega) hfam' (by omega) hu
              have hsame : (k % 4 = 0 ∧ 0 < k) ↔ ((k + 4) % 4 = 0 ∧ 0 < k + 4) := by omega
              simp only [hsame] at hv
              rw [hmod]
              rw [hmod] at hv
              exact ⟨v, (hsteps.trans hsteps').trans hrest, hv⟩

/-- The byte loop ends at the end of the routine. -/
theorem Family.bytes (hfam : Family dst src unit 1 n offs mems) (hn : n < 2 ^ 64) (hpos : 0 < n)
    (h : Head dst src unit s atCopy1 (offs n) n (mems n)) :
    ∃ t, Steps memcpyCode s t ∧ Head dst src unit t atRestore (offs 0) 0 (mems 0) := by
  induction n generalizing s with
  | zero => cases hpos
  | succ k ih =>
      obtain ⟨t, hsteps, ht⟩ := h.byte hn hpos
      have hoff : offs (k + 1) + unit = offs k := by
        simpa using hfam.off_sub k (Nat.le_refl _)
      rw [hoff, hfam.mem_sub k (Nat.le_refl _), Nat.add_sub_cancel] at ht
      cases Nat.eq_zero_or_pos k with
      | inl hzero =>
          subst hzero
          exact ⟨t, hsteps, ht⟩
      | inr hmore =>
          have hplace : ¬k + 1 = 1 := by omega
          rw [if_neg hplace] at ht
          have hfam' : Family dst src unit 1 k offs mems :=
            ⟨fun j hj => hfam.off_sub j (Nat.le_succ_of_le hj), fun j hj => hfam.mem_sub j (Nat.le_succ_of_le hj)⟩
          obtain ⟨u, hrest, hu⟩ := ih hfam' (Nat.lt_of_succ_lt hn) hmore ht
          exact ⟨u, hsteps.trans hrest, hu⟩

/-- `memcpy_restore_p`. -/
theorem Head.restore (h : Head dst src unit s atRestore off rem m) :
    ∃ t, Returns memcpyCode s t ∧ t.regs .x0 = dst ∧ t.mem = m := by
  obtain ⟨r, z, c, m', pc⟩ := s
  obtain ⟨rfl, hregs, rfl⟩ := h
  exact ⟨_, ⟨steps_of_run (restore_block r z c m'), rfl⟩, hregs.x6, rfl⟩

/-- Both loops: words first, then the bytes that are left. -/
theorem Head.copied {mems' : Nat → Store} (hwords : Family dst src unit 4 n offs mems)
    (hbytes : Family dst src unit 1 (n % 4) offs mems') (hjoin : mems (n % 4) = mems' (n % 4)) (hn : n < 2 ^ 64)
    (hpos : 0 < n) (h : Head dst src unit s atCopy (offs n) n (mems n)) :
    ∃ t, Returns memcpyCode s t ∧ t.regs .x0 = dst ∧ t.mem = mems' 0 := by
  obtain ⟨t, hsteps, ht⟩ := hwords.words hn h
  rw [hjoin] at ht
  have hend : ∃ u, Steps memcpyCode t u ∧ Head dst src unit u atRestore (offs 0) 0 (mems' 0) := by
    cases Nat.eq_zero_or_pos (n % 4) with
    | inl hzero =>
        rw [if_pos ⟨hzero, hpos⟩, hzero] at ht
        exact ⟨t, .refl, ht⟩
    | inr hmore =>
        have hplace : ¬(n % 4 = 0 ∧ 0 < n) := fun hand => Nat.ne_of_gt hmore hand.1
        rw [if_neg hplace] at ht
        exact hbytes.bytes (Nat.lt_of_le_of_lt (Nat.mod_le n 4) hn) hmore ht
  obtain ⟨u, hsteps', hu⟩ := hend
  obtain ⟨v, ⟨hsteps'', hret⟩, hx0, hmem⟩ := hu.restore
  exact ⟨v, ⟨(hsteps.trans hsteps').trans hsteps'', hret⟩, hx0, hmem⟩

end Copy

end ArmOs
