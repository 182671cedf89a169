import ArmOs.Kernel.Types

/-!
# Pages and page tables (`memory.c`)

Free pages are linked through their first word. A table is the first 512 words of a page, an entry is the
physical address of what it points to together with attribute bits. `setup_uvm`, which loads a file, is in
`ArmOs.Kernel.Process`.
-/

namespace ArmOs

open Lib

variable (L : Layout)

def kfree (v : Nat) (M : Memory) : Except Stop Memory := do
  ASSERT .kfree (v % pageSize = 0)
  ASSERT .kfree (L.imageEnd ≤ v)
  ASSERT .kfree (v + pageSize ≤ heapMemoryEnd)
  return { mem := M.mem.write 8 v M.freeMemory, freeMemory := v }

/-- `kalloc`. The address is 0 when no page is free. -/
def kalloc (M : Memory) : Except Stop (Nat × Memory) := do
  let page := M.freeMemory
  if page ≠ 0 then
    ASSERT .kalloc (page % pageSize = 0)
    ASSERT .kalloc (L.imageEnd ≤ page)
    ASSERT .kalloc (page + pageSize ≤ heapMemoryEnd)
    return (page, { M with freeMemory := M.mem.read 8 page })
  else
    return (page, M)

/-- The loop of `free_region`. -/
def freeRegionLoop (e : Nat) : (fuel start : Nat) → Memory → Except Stop Memory
  | 0, _, _ => .error .hang
  | fuel + 1, start, M =>
      if start + pageSize ≤ e then do
        let M ← if start + pageSize ≤ heapMemoryEnd then kfree L start M else .ok M
        freeRegionLoop e fuel (start + pageSize) M
      else
        .ok M

def freeRegion (v e : Nat) (M : Memory) : Except Stop Memory :=
  freeRegionLoop L e (e / pageSize + 1) (paUp v) M

def initMemory (M : Memory) : Except Stop Memory := freeRegion L L.imageEnd heapMemoryEnd M

/-- Is the entry valid? -/
def isValid (entry : Nat) : Prop := entry &&& entryV ≠ 0

instance : DecidablePred isValid := fun entry => inferInstanceAs (Decidable (entry &&& entryV ≠ 0))

/-- `map[index]`. -/
def entryAt (m : Mem) (map index : Nat) : Nat := m.read 8 (map + 8 * index)

/-- `map[index] = entry`. -/
def Memory.setEntry (M : Memory) (map index entry : Nat) : Memory :=
  { M with mem := M.mem.write 8 (map + 8 * index) entry }

def pgdIndex (v : Nat) : Nat := v >>> 39 &&& 0x1ff
def pudIndex (v : Nat) : Nat := v >>> 30 &&& 0x1ff
def pmdIndex (v : Nat) : Nat := v >>> 21 &&& 0x1ff

/-- The common part of `find_pgd_entry` and `find_pud_entry`: the table that `map[index]` points to, or a
fresh one if there is none and `alloc` asks for it. -/
def findEntry (map index : Nat) (alloc : Bool) (attr : Nat) (M : Memory) :
    Except Stop (Nat × Memory) :=
  if isValid (entryAt M.mem map index) then
    .ok (p2v (pdeAddr (entryAt M.mem map index)), M)
  else if alloc then do
    let (addr, M) ← kalloc L M
    if addr ≠ 0 then
      let M := { M with mem := M.mem.fill addr pageSize 0 }
      return (addr, M.setEntry map index (v2p addr ||| attr ||| tableEntry))
    else
      return (addr, M)
  else
    .ok (0, M)

def findPgdEntry (map v : Nat) (alloc : Bool) (attr : Nat) (M : Memory) :
    Except Stop (Nat × Memory) :=
  findEntry L map (pgdIndex v) alloc attr M

def findPudEntry (map v : Nat) (alloc : Bool) (attr : Nat) (M : Memory) :
    Except Stop (Nat × Memory) := do
  let (ptr, M) ← findPgdEntry L map v alloc attr M
  if ptr = 0 then
    return (0, M)
  else
    findEntry L ptr (pudIndex v) alloc attr M

def mapPage (map v pa attr : Nat) (M : Memory) : Except Stop (Bool × Memory) := do
  let vstart := paDown v
  ASSERT .mapPage ((vstart + pageSize) % 2 ^ 64 < heapMemoryEnd)
  ASSERT .mapPage (pa % pageSize = 0)
  ASSERT .mapPage ((pa + pageSize) % 2 ^ 64 ≤ v2p heapMemoryEnd)
  let (ptr, M) ← findPudEntry L map vstart true attr M
  if ptr = 0 then
    return (false, M)
  else
    let index := pmdIndex vstart
    ASSERT .mapPage (¬isValid (entryAt M.mem ptr index))
    return (true, M.setEntry ptr index (pa ||| attr ||| blockEntry))

/-- Free what `map[index]` points to, at the address `addr` of it, and clear the entry. -/
def freeEntry (addr : Nat → Nat) (map index : Nat) (M : Memory) : Except Stop Memory :=
  if isValid (entryAt M.mem map index) then do
    let M ← kfree L (p2v (addr (entryAt M.mem map index))) M
    return M.setEntry map index 0
  else
    .ok M

def freePage (map vstart : Nat) (M : Memory) : Except Stop Memory := do
  ASSERT .freePage (vstart % pageSize = 0)
  let (ptr, M) ← findPudEntry L map vstart false 0 M
  if ptr ≠ 0 then
    freeEntry L pteAddr ptr (pmdIndex vstart) M
  else
    return M

def freePmd (map : Nat) (M : Memory) : Except Stop Memory :=
  (List.range 512).foldlM (fun M i =>
    if isValid (entryAt M.mem map i) then
      (List.range 512).foldlM
        (fun M' j => freeEntry L pdeAddr (p2v (pdeAddr (entryAt M.mem map i))) j M') M
    else
      .ok M) M

def freePud (map : Nat) (M : Memory) : Except Stop Memory :=
  (List.range 512).foldlM (fun M i => freeEntry L pdeAddr map i M) M

def freePgd (map : Nat) (M : Memory) : Except Stop Memory := kfree L map M

def freeVm (map : Nat) (M : Memory) : Except Stop Memory := do
  let M ← freePage L map userBase M
  let M ← freePmd L map M
  let M ← freePud L map M
  freePgd L map M

/-- `copy_uvm`, with its `return false` after a failed lookup in `src_map`. -/
def copyUvm (dstMap srcMap size : Nat) (M : Memory) : Except Stop (Bool × Memory) := do
  let (page, M) ← kalloc L M
  if page ≠ 0 then
    let M := { M with mem := M.mem.fill page pageSize 0 }
    let (status, M) ← mapPage L dstMap userBase (v2p page) userAttribute M
    if status then
      let (pd, M) ← findPudEntry L srcMap userBase false 0 M
      if pd = 0 then
        let M ← freeVm L dstMap M
        return (false, M)
      else
        let index := pmdIndex userBase
        ASSERT .copyUvm (entryAt M.mem pd index &&& entryV = 1)
        let start := p2v (pteAddr (entryAt M.mem pd index))
        return (true, { M with mem := M.mem.copy page start size })
    else
      let M ← kfree L page M
      let M ← freeVm L dstMap M
      return (false, M)
  else
    return (false, M)

/-! ## The address translation of the hardware -/

/-- The 2MB block of physical memory that the tables at `ttbr0` map the lower-half address `va` to: two table
entries and a block entry. `T0SZ` makes these addresses 48 bits wide. -/
def walk (m : Mem) (ttbr0 va : Nat) : Option Nat :=
  if va < 2 ^ 48 then
    let e₀ := entryAt m (p2v ttbr0) (pgdIndex va)
    if isValid e₀ then
      let e₁ := entryAt m (p2v (pdeAddr e₀)) (pudIndex va)
      if isValid e₁ then
        let e₂ := entryAt m (p2v (pdeAddr e₁)) (pmdIndex va)
        if isValid e₂ then some (pteAddr e₂) else none
      else none
    else none
  else none

/-- Where an access of the kernel to `n` bytes at `va` lands. The upper half is the linear map of the kernel; all of
it is let through here, while `setup_vm` maps the physical memory below 0x34000000 and from 0x3f000000 to 0x41000000
only, and the processor aborts an access to the rest. The lower half goes through `ttbr0`, and aborts when the access
leaves the block or the block is not mapped. -/
def resolve (m : Mem) (ttbr0 va n : Nat) : Except Stop Nat :=
  if kernelBase ≤ va then
    .ok va
  else if va % pageSize + n ≤ pageSize then
    match walk m ttbr0 va with
    | some pa => .ok (p2v pa + va % pageSize)
    | none => .error .abort
  else
    .error .abort

end ArmOs
