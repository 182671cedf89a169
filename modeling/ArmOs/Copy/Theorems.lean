import ArmOs.Copy.Lemmas.Entry

/-!
# `memcpy` and `memmove`
-/

namespace ArmOs

open Lib Lib.Arm Copy

variable {s t : State} {dst src n : Word} {m : Store} {P : Nat → Prop} [DecidablePred P]

/-- A call on a memory in which every byte is the low byte of its address. -/
def copyCall (l : CodeLabel) (dst src n : Word) : State where
  regs
    | .x0 => dst
    | .x1 => src
    | .x2 => n
    | _ => 0
  z := false
  c := false
  mem := fun a => UInt8.ofNat a.toNat
  pc := place memcpyCode l

/-! ## Upwards -/

/-- The routine ends, returns the destination and copies, if the destination does not lie inside the source. -/
theorem memcpy_transfers (h : Calls s dst src n) (hsrc : src.toNat + n.toNat ≤ 2 ^ 64)
    (hdst : dst.toNat + n.toNat ≤ 2 ^ 64) (hside : dst.toNat ≤ src.toNat ∨ src.toNat + n.toNat ≤ dst.toNat) :
    ∃ t, Returns memcpyCode s t ∧ t.regs .x0 = dst ∧ Transfers s.mem dst src n.toNat t.mem := by
  obtain ⟨t, hret, hx0, hmem⟩ := h.copies_upwards hsrc hside
  refine ⟨t, hret, hx0, ?_⟩
  rw [hmem, transfers_iff hdst]
  exact fun o _ => .inl .rfl

/-- Seven bytes, one byte down: each word that is stored overlaps the next one to be read. -/
theorem memcpy_transfers_near : ∃ t, Returns memcpyCode (copyCall .memcpy 0x1000 0x1001 7) t ∧ t.regs .x0 = 0x1000 ∧
    Transfers (copyCall .memcpy 0x1000 0x1001 7).mem 0x1000 0x1001 7 t.mem :=
  memcpy_transfers ⟨.inr (.inl rfl), rfl, rfl, rfl⟩ (by decide) (by decide) (by decide)

/-! ## Downwards -/

/-- What the routine misses does not matter: there is no word to copy, or the three bytes between the bytes and the
words are right already, and the three bytes behind the destination are what follows the source. -/
def Spared (m : Store) (dst src : Word) (n : Nat) : Prop :=
  n < 4 ∨ ∀ i < 3, m (dst + BitVec.ofNat 64 (n % 4 + i)) = m (src + BitVec.ofNat 64 (n % 4 + i)) ∧
    m (dst + BitVec.ofNat 64 (n + i)) = m (src + BitVec.ofNat 64 (n + i))

theorem memmove_transfers_iff (h : Calls s dst src n) (hlo : src.toNat < dst.toNat)
    (hhi : dst.toNat < src.toNat + n.toNat) (hdst : dst.toNat + n.toNat ≤ 2 ^ 64) (hsize : n.toNat + 3 ≤ 2 ^ 63) :
    (∃ t, Returns memcpyCode s t ∧ Transfers s.mem dst src n.toNat t.mem) ↔ Spared s.mem dst src n.toNat := by
  obtain ⟨t, hret, -, hmem⟩ := h.copies_downwards hlo hhi hdst hsize
  have htransfers : (∃ t, Returns memcpyCode s t ∧ Transfers s.mem dst src n.toNat t.mem) ↔
      Transfers s.mem dst src n.toNat t.mem := by
    constructor
    · rintro ⟨u, hret', hcopied⟩
      rwa [hret.unique hret']
    · exact fun hcopied => ⟨t, hret, hcopied⟩
  rw [htransfers, hmem, transfers_iff hdst]
  constructor
  · intro hall
    cases Nat.lt_or_ge n.toNat 4 with
    | inl hfew => exact .inl hfew
    | inr hmany =>
        refine .inr fun i hi => ⟨?_, ?_⟩
        · cases hall (n.toNat % 4 + i) (by omega) with
          | inl hp =>
              unfold DownTo at hp
              omega
          | inr heq => exact heq
        · cases hall (n.toNat + i) (by omega) with
          | inl hp =>
              unfold DownTo at hp
              omega
          | inr heq => exact heq
  · intro hspared o ho
    cases hspared with
    | inl hfew =>
        left
        unfold DownTo
        omega
    | inr hbytes =>
        cases Decidable.em (DownTo n.toNat o ↔ o < n.toNat) with
        | inl hp => exact .inl hp
        | inr hp =>
            right
            unfold DownTo at hp
            cases Nat.lt_or_ge o n.toNat with
            | inl hin =>
                obtain ⟨i, rfl⟩ := Nat.exists_eq_add_of_le (show n.toNat % 4 ≤ o by omega)
                exact (hbytes i (by omega)).1
            | inr hout =>
                obtain ⟨i, rfl⟩ := Nat.exists_eq_add_of_le hout
                exact (hbytes i (by omega)).2

/-- Five bytes, two bytes up, where three bytes of the destination must be what they are. -/
theorem memmove_transfers_iff_two :
    (∃ t, Returns memcpyCode (copyCall .memmove 0x1002 0x1000 5) t ∧
      Transfers (copyCall .memmove 0x1002 0x1000 5).mem 0x1002 0x1000 5 t.mem) ↔
        Spared (copyCall .memmove 0x1002 0x1000 5).mem 0x1002 0x1000 5 :=
  memmove_transfers_iff ⟨.inl rfl, rfl, rfl, rfl⟩ (by decide) (by decide) (by decide) (by decide)

/-- Four bytes, one byte up. The word goes to `0x1004`, so that `0x1001` keeps its byte and `0x1007` does not. -/
theorem memmove_garbles : ∃ t, Returns memcpyCode (copyCall .memmove 0x1001 0x1000 4) t ∧
    t.mem 0x1001 = 1 ∧ t.mem 0x1007 = 6 ∧
    ¬∃ t, Returns memcpyCode (copyCall .memmove 0x1001 0x1000 4) t ∧
      Transfers (copyCall .memmove 0x1001 0x1000 4).mem 0x1001 0x1000 4 t.mem := by
  have hrun : (run memcpyCode 35 (copyCall .memmove 0x1001 0x1000 4)).map
      (fun t => (memcpyCode[t.pc]?, t.mem 0x1001, t.mem 0x1007)) = some (some .ret, 1, 6) := by
    decide
  obtain ⟨t, ht, hd⟩ := Option.map_eq_some_iff.mp hrun
  obtain ⟨hret, hlow, hhigh⟩ : memcpyCode[t.pc]? = some .ret ∧ t.mem 0x1001 = 1 ∧ t.mem 0x1007 = 6 := by
    simpa using hd
  have hreturns : Returns memcpyCode (copyCall .memmove 0x1001 0x1000 4) t := ⟨steps_of_run ht, hret⟩
  refine ⟨t, hreturns, hlow, hhigh, ?_⟩
  rintro ⟨u, hu, hcopied⟩
  have hfirst := hcopied.copied 0 (by decide)
  rw [← hreturns.unique hu] at hfirst
  have hzero : t.mem 0x1001 = 0 := hfirst
  rw [hlow] at hzero
  exact absurd hzero (by decide)

/-! ## The kernel's memory -/

/-- The routine does what `memcpy` says, on the addresses below `2 ^ 64`. -/
theorem memcpy_refines {m : Mem} (h : Calls s dst src n) (hmem : ∀ a, s.mem a = m a.toNat)
    (hsrc : src.toNat + n.toNat ≤ 2 ^ 64) (hdst : dst.toNat + n.toNat + 3 ≤ 2 ^ 64) (hsize : n.toNat + 3 ≤ 2 ^ 63) :
    ∃ t, Returns memcpyCode s t ∧ t.regs .x0 = dst ∧
      ∀ a, t.mem a = memcpy m dst.toNat src.toNat n.toNat a.toNat := by
  cases Decidable.em (src.toNat < dst.toNat ∧ dst.toNat < src.toNat + n.toNat) with
  | inl hinside =>
      obtain ⟨hlo, hhi⟩ := hinside
      obtain ⟨t, hret, hx0, ht⟩ := h.copies_downwards hlo hhi (by omega) hsize
      have hlast : ∀ o, DownTo n.toNat o → o < n.toNat + 3 := by
        intro o ho
        unfold DownTo at ho
        omega
      refine ⟨t, hret, hx0, fun a => ?_⟩
      rw [ht, copied_toNat hmem (by omega) hdst hlast, memcpy_inside hlo hhi]
      simp only [DownTo, Nat.zero_le, true_and]
  | inr hout =>
      obtain ⟨t, hret, hx0, ht⟩ := h.copies_upwards hsrc (by omega)
      refine ⟨t, hret, hx0, fun a => ?_⟩
      rw [ht, copied_toNat hmem hsrc (by omega) (fun _ => id), memcpy_eq_copy (by omega), Mem.copy]
      refine if_congr ?_ rfl rfl
      omega

end ArmOs
