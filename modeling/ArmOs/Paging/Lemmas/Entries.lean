import ArmOs.Lib.Trie
import ArmOs.Pages.Lemmas.User

/-!
# Entries with any attributes

An entry keeps the address and the attributes apart: the address is a multiple of 2MB, the attributes are below 4KB.
-/

namespace ArmOs

open Lib

variable {L : Layout} {m m' : Mem} {pa attr a map v va va' e : Nat} {i j : Fin 512}

theorem address_bits : ∀ q < 384, q * pageSize &&& 0xfffffffff000 = q * pageSize ∧
    q * pageSize &&& 0xffffffe00000 = q * pageSize ∧ q * pageSize &&& entryV = 0 := by decide +kernel

/-- The masks of the addresses have none of the lower twelve bits. -/
theorem and_mask_eq_zero {mask : Nat} (hmask : ∀ i < 12, mask.testBit i = false) (ha : a < 2 ^ 12) : a &&& mask = 0 := by
  apply Nat.eq_of_testBit_eq
  intro i
  rw [Nat.testBit_and, Nat.zero_testBit]
  cases Nat.lt_or_ge i 12 with
  | inl hlow => rw [hmask i hlow, Bool.and_false]
  | inr hhigh =>
      have hbit : a.testBit i = false :=
        Nat.testBit_lt_two_pow (Nat.lt_of_lt_of_le ha (Nat.pow_le_pow_right (by decide) hhigh))
      rw [hbit, Bool.false_and]

/-- The physical address of a block below the end of the heap. -/
structure BlockAddr (pa : Nat) : Prop where
  aligned : pa % pageSize = 0
  «end» : pa + pageSize ≤ v2p heapMemoryEnd

theorem BlockAddr.exists_eq (h : BlockAddr pa) : ∃ q < 384, pa = q * pageSize := by
  have hend : v2p heapMemoryEnd = 384 * pageSize := by decide
  have haligned := h.aligned
  have hle := h.end
  rw [hend] at hle
  refine ⟨pa / pageSize, ?_, (Nat.div_mul_cancel (Nat.dvd_of_mod_eq_zero haligned)).symm⟩
  rw [pageSize_eq] at *
  omega

theorem HeapPage.blockAddr (h : HeapPage L v) : BlockAddr (v2p v) := by
  have hend : v2p heapMemoryEnd = 0x30000000 := by decide
  have hb := h.bounds
  have ha := h.aligned
  constructor
  · rw [h.v2p_eq]
    simp only [kernelBase, pageSize] at *
    omega
  · rw [h.v2p_eq, hend]
    omega

/-- What an entry says: it is valid, fits in a word, and both masks give the address back. -/
structure Encodes (e pa : Nat) : Prop where
  valid : isValid e
  pde : pdeAddr e = pa
  pte : pteAddr e = pa
  lt : e < 256 ^ 8

theorem BlockAddr.encodes (h : BlockAddr pa) (ha : a < 2 ^ 12) (hv : isValid a) : Encodes (pa ||| a) pa := by
  obtain ⟨q, hq, rfl⟩ := h.exists_eq
  obtain ⟨hpde, hpte, hbit⟩ := address_bits q hq
  have hpde' : a &&& 0xfffffffff000 = 0 := and_mask_eq_zero (by decide) ha
  have hpte' : a &&& 0xffffffe00000 = 0 := and_mask_eq_zero (by decide) ha
  have hlt : q * pageSize < 2 ^ 30 := by
    rw [pageSize_eq]
    omega
  refine ⟨?_, ?_, ?_, ?_⟩
  · rw [isValid, Nat.and_or_distrib_right, hbit, Nat.zero_or]
    exact hv
  · rw [pdeAddr, Nat.and_or_distrib_right, hpde, hpde', Nat.or_zero]
  · rw [pteAddr, Nat.and_or_distrib_right, hpte, hpte', Nat.or_zero]
  · calc q * pageSize ||| a < 2 ^ 30 := Nat.or_lt_two_pow hlt (Nat.lt_trans ha (by decide))
      _ < 256 ^ 8 := by decide

theorem isValid_or (hv : isValid a) (b : Nat) : isValid (a ||| b) := by
  intro hzero
  rw [Nat.and_or_distrib_right] at hzero
  exact hv (Nat.or_eq_zero_iff.mp hzero).1

/-- The entry that leads to a new table. -/
theorem HeapPage.encodesTable (h : HeapPage L v) (ha : attr < 2 ^ 12) (hv : isValid attr) :
    Encodes (v2p v ||| attr ||| ArmOs.tableEntry) (v2p v) := by
  rw [Nat.or_assoc]
  exact h.blockAddr.encodes (Nat.or_lt_two_pow ha (by decide)) (isValid_or hv _)

/-- The entry of a block. -/
theorem BlockAddr.encodesBlock (h : BlockAddr pa) (ha : attr < 2 ^ 12) (hv : isValid attr) :
    Encodes (pa ||| attr ||| blockEntry) pa := by
  have hzero : blockEntry = 0 := rfl
  rw [hzero, Nat.or_zero]
  exact h.encodes ha hv

/-! ## The walk along a path of indices -/

/-- The table that an entry leads to. -/
def tableAt (m : Mem) (map : Nat) (i : Fin 512) : Option Nat :=
  if isValid (entryAt m map i) then some (p2v (pdeAddr (entryAt m map i))) else none

/-- The block that an entry of a middle table leads to. -/
def blockAt (m : Mem) (map : Nat) (i : Fin 512) : Option Nat :=
  if isValid (entryAt m map i) then some (pteAddr (entryAt m map i)) else none

theorem index_lt (n : Nat) : n &&& 0x1ff < 512 := Nat.lt_of_le_of_lt Nat.and_le_right (by decide)

/-- The indices of the upper and the middle table. -/
def tablePath (va : Nat) : List (Fin 512) := [⟨pgdIndex va, index_lt _⟩, ⟨pudIndex va, index_lt _⟩]

def blockIndex (va : Nat) : Fin 512 := ⟨pmdIndex va, index_lt _⟩

theorem length_tablePath (va : Nat) : (tablePath va).length = 2 := rfl

theorem tablePath_le (va : Nat) : (tablePath va).length ≤ 2 := (length_tablePath va).le

theorem walk_eq (m : Mem) (ttbr0 va : Nat) : walk m ttbr0 va =
    if va < 2 ^ 48 then (Trie.find (tableAt m) (p2v ttbr0) (tablePath va)).bind fun t => blockAt m t (blockIndex va)
    else none := by
  unfold walk
  split
  · simp only [tablePath, Trie.find, tableAt, blockAt, blockIndex]
    split
    · simp only [Option.bind_some]
      split
      · rfl
      · rfl
    · rfl
  · rfl

/-- Two addresses are in one block if all their indices are the same. -/
theorem sameBlock_iff (hva : va < 2 ^ 48) (hva' : va' < 2 ^ 48) :
    tablePath va' = tablePath va ∧ blockIndex va' = blockIndex va ↔ va' / pageSize = va / pageSize := by
  simp only [tablePath, blockIndex, List.cons.injEq, Fin.mk.injEq, and_true, pgdIndex_eq, pudIndex_eq, pmdIndex_eq,
    pageSize_eq]
  omega

theorem paDown_eq (va : Nat) : paDown va = va / 2097152 * 2097152 := by
  unfold paDown
  rw [Nat.shiftRight_eq_div_pow, Nat.shiftLeft_eq]

theorem pgdIndex_paDown (va : Nat) : pgdIndex (paDown va) = pgdIndex va := by
  rw [pgdIndex_eq, pgdIndex_eq, paDown_eq]
  omega

theorem pudIndex_paDown (va : Nat) : pudIndex (paDown va) = pudIndex va := by
  rw [pudIndex_eq, pudIndex_eq, paDown_eq]
  omega

theorem pmdIndex_paDown (va : Nat) : pmdIndex (paDown va) = pmdIndex va := by
  rw [pmdIndex_eq, pmdIndex_eq, paDown_eq]
  omega

theorem tablePath_paDown (va : Nat) : tablePath (paDown va) = tablePath va := by
  simp only [tablePath, pgdIndex_paDown, pudIndex_paDown]

/-! ## What the entries of other pages say -/

theorem tableAt_congr (h : entryAt m' map i = entryAt m map i) : tableAt m' map i = tableAt m map i := by
  unfold tableAt
  rw [h]

theorem blockAt_congr (h : entryAt m' map i = entryAt m map i) : blockAt m' map i = blockAt m map i := by
  unfold blockAt
  rw [h]

theorem tableAt_encodes (hv : HeapPage L v) (h : Encodes (entryAt m map i) (v2p v)) : tableAt m map i = some v := by
  rw [tableAt, if_pos h.valid, h.pde, hv.p2v_v2p]

theorem blockAt_encodes (h : Encodes (entryAt m map i) pa) : blockAt m map i = some pa := by
  rw [blockAt, if_pos h.valid, h.pte]

end ArmOs
