import ArmOs.Copy.Lemmas.Loops

/-!
# What the loops copy

The memory after some rounds is the first one with some offsets copied. A round is right when none of the bytes it
reads was written before.
-/

namespace ArmOs

open Lib.Arm

namespace Copy

/-- The memory `m` where the bytes at the offsets in `P` from `dst` on are those from `src` on. -/
def copied (m : Store) (dst src : Word) (P : Nat → Prop) [DecidablePred P] : Store :=
  fun a => if P (a - dst).toNat then m (src + (a - dst)) else m a

variable {m m' : Store} {dst src : Word} {P Q : Nat → Prop} [DecidablePred P] [DecidablePred Q] {n w k o : Nat} {s : State}

theorem copied_congr (h : ∀ o, P o ↔ Q o) : copied m dst src P = copied m dst src Q := by
  funext a
  simp only [copied, h]

theorem copied_none (h : ∀ o, ¬P o) : copied m dst src P = m := by
  funext a
  exact if_neg (h _)

/-- The offset from `dst` of the byte at the offset `o` from `src`. -/
theorem toNat_source (ho : o < 2 ^ 64) :
    (src + BitVec.ofNat 64 o - dst).toNat = (src.toNat + o + (2 ^ 64 - dst.toNat)) % 2 ^ 64 := by
  have hlt := src.isLt
  rw [BitVec.toNat_sub, BitVec.toNat_add, BitVec.toNat_ofNat, Nat.mod_eq_of_lt ho]
  omega

/-- A round copies `w` bytes from the offset `o` on. -/
theorem copied_round (ho : o + w ≤ 2 ^ 64)
    (hread : ∀ i, o ≤ i → i < o + w → ¬P (src + BitVec.ofNat 64 i - dst).toNat) :
    store (copied m dst src P) w (dst + BitVec.ofNat 64 o) (load (copied m dst src P) w (src + BitVec.ofNat 64 o)) =
      copied m dst src (fun i => P i ∨ o ≤ i ∧ i < o + w) := by
  funext a
  generalize hd : a - dst = d
  have ha : a - (dst + BitVec.ofNat 64 o) = d - BitVec.ofNat 64 o := by
    grind
  have hin : (d - BitVec.ofNat 64 o).toNat < w ↔ o ≤ d.toNat ∧ d.toNat < o + w := by
    cases Nat.eq_zero_or_pos w with
    | inl hzero => omega
    | inr hpos =>
        have hlt : o < 2 ^ 64 := by omega
        have hdlt := d.isLt
        rw [BitVec.toNat_sub, BitVec.toNat_ofNat, Nat.mod_eq_of_lt hlt]
        omega
  have hsum : src + BitVec.ofNat 64 o + (d - BitVec.ofNat 64 o) = src + d := by
    rw [BitVec.add_assoc, BitVec.add_comm (BitVec.ofNat 64 o), BitVec.sub_add_cancel]
  rw [store_load, ha]
  cases Decidable.em (o ≤ d.toNat ∧ d.toNat < o + w) with
  | inl hround =>
      have hfree := hread d.toNat hround.1 hround.2
      rw [BitVec.ofNat_toNat, BitVec.setWidth_eq] at hfree
      rw [if_pos (hin.mpr hround), hsum]
      simp only [copied, hd, hround, and_self, or_true, if_true, if_neg hfree]
  | inr hout =>
      rw [if_neg (mt hin.mp hout)]
      simp only [copied, hd, hout, or_false]

theorem copied_apply (ho : o < 2 ^ 64) : copied m dst src P (dst + BitVec.ofNat 64 o) =
    if P o then m (src + BitVec.ofNat 64 o) else m (dst + BitVec.ofNat 64 o) := by
  have hoff : dst + BitVec.ofNat 64 o - dst = BitVec.ofNat 64 o := by
    rw [BitVec.add_comm, BitVec.add_sub_cancel]
  simp only [copied, hoff, BitVec.toNat_ofNat, Nat.mod_eq_of_lt ho]

/-- The copied offsets in `P` make a transfer of `n` bytes if the other ones do not matter. -/
theorem transfers_iff (hn : dst.toNat + n ≤ 2 ^ 64) : Transfers m dst src n (copied m dst src P) ↔
    ∀ o < 2 ^ 64, (P o ↔ o < n) ∨ m (dst + BitVec.ofNat 64 o) = m (src + BitVec.ofNat 64 o) := by
  constructor
  · intro h o ho
    cases Nat.lt_or_ge o n with
    | inl hin =>
        have hcopied := h.copied o hin
        rw [copied_apply ho] at hcopied
        split at hcopied
        · rename_i hp
          exact .inl ⟨fun _ => hin, fun _ => hp⟩
        · exact .inr hcopied
    | inr hout =>
        have hplace : (dst + BitVec.ofNat 64 o).toNat < dst.toNat ∨
            dst.toNat + n ≤ (dst + BitVec.ofNat 64 o).toNat := by
          rw [BitVec.toNat_add, BitVec.toNat_ofNat, Nat.mod_eq_of_lt ho]
          omega
        have hframe := h.frame _ hplace
        rw [copied_apply ho] at hframe
        split at hframe
        · exact .inr hframe.symm
        · rename_i hp
          exact .inl ⟨fun hin => absurd hin hp, fun hin => absurd hin (Nat.not_lt_of_ge hout)⟩
  · intro h
    refine ⟨fun i hi => ?_, fun a ha => ?_⟩
    · have hlt : i < 2 ^ 64 := by omega
      rw [copied_apply hlt]
      cases h i hlt with
      | inl hp => exact if_pos (hp.mpr hi)
      | inr heq =>
          rw [heq]
          exact ite_self _
    · have hd := (a - dst).isLt
      have ha' : dst + BitVec.ofNat 64 (a - dst).toNat = a := by
        rw [BitVec.ofNat_toNat, BitVec.setWidth_eq, BitVec.add_comm, BitVec.sub_add_cancel]
      have hfar : ¬(a - dst).toNat < n := by
        have halt := a.isLt
        rw [BitVec.toNat_sub]
        omega
      rw [← ha', copied_apply hd]
      cases h _ hd with
      | inl hp => exact if_neg (mt hp.mp hfar)
      | inr heq =>
          rw [heq]
          exact ite_self _

/-- The bytes at addresses that are numbers, for offsets below `k` that do not wrap around. -/
theorem copied_toNat {f : Nat → UInt8} {k : Nat} (hm : ∀ a, m a = f a.toNat) (hsrc : src.toNat + k ≤ 2 ^ 64)
    (hdst : dst.toNat + k ≤ 2 ^ 64) (hP : ∀ o, P o → o < k) (a : Word) : copied m dst src P a =
      if dst.toNat ≤ a.toNat ∧ P (a.toNat - dst.toNat) then f (src.toNat + (a.toNat - dst.toNat)) else f a.toNat := by
  have halt := a.isLt
  unfold copied
  cases Nat.lt_or_ge a.toNat dst.toNat with
  | inl hbelow =>
      have hfar : k ≤ (a - dst).toNat := by
        rw [BitVec.toNat_sub]
        omega
      rw [if_neg (fun hp => Nat.not_le_of_gt (hP _ hp) hfar), if_neg (fun hin => Nat.not_le_of_gt hbelow hin.1), hm]
  | inr habove =>
      have hoff : (a - dst).toNat = a.toNat - dst.toNat := BitVec.toNat_sub_of_le habove
      rw [hoff]
      cases Decidable.em (P (a.toNat - dst.toNat)) with
      | inl hp =>
          have hlt := hP _ hp
          rw [if_pos hp, if_pos ⟨habove, hp⟩, hm, BitVec.toNat_add, hoff, Nat.mod_eq_of_lt (by omega)]
      | inr hp => rw [if_neg hp, if_neg (fun hin => hp hin.2), hm]

/-! ## The two directions -/

/-- Ahead of its own writes, the routine copies upwards. -/
theorem ascending (w : Nat) (hsrc : src.toNat + n ≤ 2 ^ 64)
    (hside : dst.toNat ≤ src.toNat ∨ src.toNat + n ≤ dst.toNat) (hk : k ≤ n) :
    Family dst src 1 w k (fun k => BitVec.ofNat 64 (n - k)) (fun k => copied m dst src (· < n - k)) where
  off_sub j hj := by
    have hsum : n - (j + w) + w = n - j := by omega
    rw [← hsum, BitVec.ofNat_add]
    grind
  mem_sub j hj := by
    rw [copied_round (by omega)]
    · apply copied_congr
      intro o
      omega
    · intro i hlo hhi
      rw [toNat_source (by omega)]
      omega

/-- Words downwards: each is stored three bytes too high. -/
theorem descending_words (hlo : src.toNat < dst.toNat) (hdst : dst.toNat + n ≤ 2 ^ 64) (hsize : n + 3 ≤ 2 ^ 63) :
    Family dst src (-1) 4 n (fun k => BitVec.ofNat 64 k - 1)
      (fun k => copied m dst src (fun o => k + 3 ≤ o ∧ o < n + 3)) where
  off_sub j hj := by
    rw [BitVec.ofNat_add]
    grind
  mem_sub j hj := by
    have hoff : BitVec.ofNat 64 (j + 4) - 1 = BitVec.ofNat 64 (j + 3) := sub_rem (k := 1) (by omega)
    rw [hoff, copied_round (by omega)]
    · apply copied_congr
      intro o
      omega
    · intro i hlo hhi
      rw [toNat_source (by omega)]
      omega

/-- Bytes downwards, after the words of `n` bytes. -/
theorem descending_bytes (hlo : src.toNat < dst.toNat) (hhi : dst.toNat < src.toNat + n) (hdst : dst.toNat + n ≤ 2 ^ 64)
    (hsize : n + 3 ≤ 2 ^ 63) :
    Family dst src (-1) 1 (n % 4) (fun k => BitVec.ofNat 64 k - 1)
      (fun k => copied m dst src (fun o => k ≤ o ∧ o < n % 4 ∨ n % 4 + 3 ≤ o ∧ o < n + 3)) where
  off_sub j hj := by
    rw [BitVec.ofNat_add]
    grind
  mem_sub j hj := by
    have hoff : BitVec.ofNat 64 (j + 1) - 1 = BitVec.ofNat 64 j := sub_rem (k := 1) (by omega)
    rw [hoff, copied_round (by omega)]
    · apply copied_congr
      intro o
      omega
    · intro i hlo hhi
      rw [toNat_source (by omega)]
      omega

end Copy

end ArmOs
