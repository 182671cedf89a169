import ArmOs.Kernel.Memory
import ArmOs.Kernel.Utils

/-!
# The FAT16 file system (`fs.c`)

The image lies in memory from `FS_BASE` on. A path is the bytes from a `char *` on.
-/

namespace ArmOs

open Lib

def fsBase : Nat := p2v 0x30000000
def entryEmpty : UInt8 := 0
def entryDeleted : UInt8 := 0xe5
def maxFilename : Nat := 8
def maxFileExtName : Nat := 3
def dot : UInt8 := 46
def slash : UInt8 := 47
def space : UInt8 := 32

/-- `sizeof(struct DirEntry)`. -/
def dirEntrySize : Nat := 32

/-- `sizeof(struct FileDesc)`. -/
def fileDescSize : Nat := 16

/-! ## Reading the image -/

section

variable (m : Mem)

def getFsBpb : Nat :=
  let lba := m.read 4 (fsBase + 0x1be + 8)
  fsBase + lba * 512 % 2 ^ 32

namespace Bpb

def bytesPerSector : Nat := m.read 2 (getFsBpb m + 11)
def sectorsPerCluster : Nat := m.read 1 (getFsBpb m + 13)
def reservedSectorCount : Nat := m.read 2 (getFsBpb m + 14)
def fatCount : Nat := m.read 1 (getFsBpb m + 16)
def rootEntryCount : Nat := m.read 2 (getFsBpb m + 17)
def sectorsPerFat : Nat := m.read 2 (getFsBpb m + 22)

end Bpb

def getFatTable : Nat := getFsBpb m + Bpb.reservedSectorCount m * Bpb.bytesPerSector m % 2 ^ 32

def getClusterValue (clusterIndex : Nat) : Nat := m.read 2 (getFatTable m + 2 * clusterIndex)

def getClusterOffset (index : Nat) : Except Stop Nat := do
  ASSERT .getClusterOffset (2 ≤ index)
  let resSize := Bpb.reservedSectorCount m * Bpb.bytesPerSector m
  let fatSize := Bpb.fatCount m * Bpb.sectorsPerFat m * Bpb.bytesPerSector m
  let dirSize := Bpb.rootEntryCount m * dirEntrySize
  return (resSize + fatSize + dirSize +
    (index - 2) * (Bpb.sectorsPerCluster m * Bpb.bytesPerSector m)) % 2 ^ 32

def getClusterSize : Nat := Bpb.bytesPerSector m * Bpb.sectorsPerCluster m

def getRootDirectoryCount : Nat := Bpb.rootEntryCount m

def getRootDirectory : Nat :=
  let offset := (Bpb.reservedSectorCount m + Bpb.fatCount m * Bpb.sectorsPerFat m) *
    Bpb.bytesPerSector m
  getFsBpb m + offset % 2 ^ 32

/-- `&get_root_directory()[index]`. -/
def dirEntry (index : Nat) : Nat := getRootDirectory m + dirEntrySize * index

namespace DirEntry

def name (index : Nat) : List UInt8 := m.bytes (dirEntry m index) 8
def ext (index : Nat) : List UInt8 := m.bytes (dirEntry m index + 8) 3
def attributes (index : Nat) : Nat := m.read 1 (dirEntry m index + 11)
def clusterIndex (index : Nat) : Nat := m.read 2 (dirEntry m index + 26)
def fileSize (index : Nat) : Nat := m.read 4 (dirEntry m index + 28)

end DirEntry

def isFileNameEqual (index : Nat) (name ext : List UInt8) : Bool :=
  DirEntry.name m index = name ∧ DirEntry.ext m index = ext

end

/-! ## Paths -/

/-- The first loop of `split_path`, with `n` rounds left: the index it stops at and the name so far. -/
def splitName (path : Nat → UInt8) : (n i : Nat) → List UInt8 → Option (Nat × List UInt8)
  | 0, i, name => some (i, name)
  | n + 1, i, name =>
      if path i ≠ dot ∧ path i ≠ 0 then
        if path i = slash then none else splitName path n (i + 1) (name.set i (path i))
      else
        some (i, name)

/-- The second loop of `split_path`, with `n` rounds left. -/
def splitExt (path : Nat → UInt8) : (n i j : Nat) → List UInt8 → Option (Nat × List UInt8)
  | 0, i, _, ext => some (i, ext)
  | n + 1, i, j, ext =>
      if path i ≠ 0 then
        if path i = slash then none else splitExt path n (i + 1) (j + 1) (ext.set j (path i))
      else
        some (i, ext)

/-- `split_path`: the filled `name` and `ext` when it returns true. -/
def splitPath (path : Nat → UInt8) (name ext : List UInt8) : Option (List UInt8 × List UInt8) := do
  let (i, name) ← splitName path maxFilename 0 name
  let (i, ext) ← if path i = dot then splitExt path maxFileExtName (i + 1) 0 ext else some (i, ext)
  if path i ≠ 0 then none else some (name, ext)

/-- Does the loop of `search_file` stop at the entry? -/
def isMatch (m : Mem) (name ext : List UInt8) (i : Nat) : Bool :=
  if m (dirEntry m i) = entryEmpty ∨ m (dirEntry m i) = entryDeleted then false
  else if DirEntry.attributes m i = 0xf then false
  else isFileNameEqual m i name ext

def searchFile (m : Mem) (path : Nat → UInt8) : Nat :=
  match splitPath path (List.replicate 8 space) (List.replicate 3 space) with
  | some (name, ext) =>
      match findFrom (isMatch m name ext) (getRootDirectoryCount m) 0 with
      | some i => i
      | none => 0xffffffff
  | none => 0xffffffff

/-! ## Reading files -/

/-- The first loop of `read_raw_data`: skip `count` clusters. -/
def skipClusters (m : Mem) : (count index : Nat) → Except Stop Nat
  | 0, index => .ok index
  | count + 1, index => do
      let index := getClusterValue m index
      ASSERT .readRawData (index < 0xfff7)
      skipClusters m count index

/-- `memcpy` to a buffer of the caller. -/
def copyOut (ttbr0 : Nat) (m : Mem) (buffer data n : Nat) : Except Stop Mem :=
  if n = 0 then .ok m
  else do
    let dst ← resolve m ttbr0 buffer n
    return memcpy m dst data n

/-- The `while` loop of `read_raw_data`, one unit of fuel per round: the final `read_size` and the memory. -/
def readLoop (ttbr0 clusterSize bpb size : Nat) :
    (fuel index buffer readSize : Nat) → Mem → Except Stop (Nat × Mem)
  | 0, _, _, _, _ => .error .hang
  | fuel + 1, index, buffer, readSize, m =>
      if readSize < size ∧ index < 0xfff7 then do
        let offset ← getClusterOffset m index
        let data := offset + bpb
        if size ≤ (readSize + clusterSize) % 2 ^ 32 then
          let m ← copyOut ttbr0 m buffer data (size - readSize)
          return (size, m)
        else
          let m ← copyOut ttbr0 m buffer data clusterSize
          readLoop ttbr0 clusterSize bpb size fuel (getClusterValue m index) (buffer + clusterSize)
            ((readSize + clusterSize) % 2 ^ 32) m
      else
        .ok (readSize, m)

/-- More rounds than there are values of the 16-bit `index` and the 32-bit `read_size`: a loop that needs
more goes round for ever. -/
def readFuel : Nat := 2 ^ 48 + 1

def readRawData (ttbr0 clusterIndex buffer position size : Nat) (m : Mem) :
    Except Stop (Nat × Mem) := do
  let clusterSize := getClusterSize m
  let count := position / clusterSize
  let offset := position % clusterSize
  let index ← skipClusters m count clusterIndex
  let bpb := getFsBpb m
  if offset ≠ 0 then
    let readSize := if (offset + size) % 2 ^ 32 ≤ clusterSize then size else clusterSize - offset
    let clusterOffset ← getClusterOffset m index
    let data := clusterOffset + bpb
    let m ← copyOut ttbr0 m buffer (data + offset) readSize
    readLoop ttbr0 clusterSize bpb size readFuel (getClusterValue m index) (buffer + readSize) readSize m
  else
    readLoop ttbr0 clusterSize bpb size readFuel index buffer 0 m

/-! ## Descriptors -/

/-- The value behind a pointer that must not be `NULL`. -/
def deref {α : Type} : Option α → Except Stop α
  | some a => .ok a
  | none => .error .abort

/-- `process->file[fd]`. -/
def fileSlot (p : Process Proc) (fd : Int) : Except Stop (Option Nat) :=
  if h : 0 ≤ fd ∧ fd < numFile then .ok (p.file ⟨fd.toNat, by omega⟩) else .error .outOfBounds

/-- `process->file[fd] = d`. -/
def Process.setFile (p : Process Proc) (fd : Fin numFile) (d : Option Nat) : Process Proc :=
  { p with file := Function.update p.file fd d }

def Fs.setFcb (fs : Fs) (i : Nat) (f : FCB) : Fs := { fs with fcbTable := Function.update fs.fcbTable i f }

def Fs.setFileDesc (fs : Fs) (i : Nat) (d : FileDesc) : Fs :=
  { fs with fileDescTable := Function.update fs.fileDescTable i d }

/-- `read_file`; `-1` is `0xffffffff`. -/
def readFile (process : Proc) (fd : Int) (buffer size : Nat) (s : Kernel) :
    Except Stop (Nat × Kernel) := do
  let slot ← fileSlot (s.proc process) fd
  let d ← deref slot
  let fcb ← deref (s.fs.fileDescTable d).fcb
  let position := (s.fs.fileDescTable d).position
  let fileSize := (s.fs.fcbTable fcb).fileSize
  if fileSize < (position + size) % 2 ^ 32 then
    return (0xffffffff, s)
  else
    let (readSize, m) ← readRawData s.ttbr0 (s.fs.fcbTable fcb).clusterIndex buffer position size
      s.memory.mem
    let desc := s.fs.fileDescTable d
    let fs := s.fs.setFileDesc d { desc with position := (desc.position + readSize) % 2 ^ 32 }
    return (readSize, { s.setMem m with fs := fs })

/-- `get_fcb`: the tables after it; it returns `index` itself. -/
def getFcb (m : Mem) (index : Nat) (fs : Fs) : Fs :=
  let fcb := fs.fcbTable index
  let fcb :=
    if fcb.count = 0 then
      { fcb with
        dirIndex := index
        fileSize := DirEntry.fileSize m index
        clusterIndex := DirEntry.clusterIndex m index
        name := DirEntry.name m index
        ext := DirEntry.ext m index }
    else fcb
  fs.setFcb index { fcb with count := int32 (fcb.count + 1) }

/-- `read_root_directory`. -/
def readRootDirectory (buffer : Nat) (s : Kernel) : Except Stop (Nat × Kernel) := do
  let m := s.memory.mem
  let count := getRootDirectoryCount m
  let m ← copyOut s.ttbr0 m buffer (getRootDirectory m) (count * dirEntrySize)
  return (count, s.setMem m)

def getFileSize (process : Proc) (fd : Int) (s : Kernel) : Except Stop Nat := do
  let slot ← fileSlot (s.proc process) fd
  let d ← deref slot
  let fcb ← deref (s.fs.fileDescTable d).fcb
  return (s.fs.fcbTable fcb).fileSize

/-- The first free slot of a process. -/
def freeSlot (p : Process Proc) : Option (Fin numFile) := Fin.find? fun i => (p.file i).isNone

/-- The first free entry of `file_desc_table`. -/
def freeFileDesc (fs : Fs) : Option Nat :=
  findFrom (fun i => (fs.fileDescTable i).fcb.isNone) (pageSize / fileDescSize) 0

/-- `open_file`: the descriptor, or `-1`. -/
def openFile (process : Proc) (path : Nat → UInt8) (s : Kernel) : Int × Kernel :=
  match freeSlot (s.proc process) with
  | none => (-1, s)
  | some fd =>
      match freeFileDesc s.fs with
      | none => (-1, s)
      | some d =>
          let entryIndex := searchFile s.memory.mem path
          if entryIndex = 0xffffffff then
            (-1, s)
          else
            let fs := getFcb s.memory.mem entryIndex s.fs
            let fs := fs.setFileDesc d { FileDesc.zero with fcb := some entryIndex, count := 1 }
            let s := s.setProc process ((s.proc process).setFile fd (some d))
            (fd.val, { s with fs := fs })

def putFcb (fcb : Nat) (fs : Fs) : Except Stop Fs := do
  ASSERT .putFcb (0 < (fs.fcbTable fcb).count)
  return fs.setFcb fcb { fs.fcbTable fcb with count := int32 ((fs.fcbTable fcb).count - 1) }

def closeFile (process : Proc) (fd : Int) (s : Kernel) : Except Stop Kernel := do
  if h : 0 ≤ fd ∧ fd < numFile then
    let slot : Fin numFile := ⟨fd.toNat, by omega⟩
    let d ← deref ((s.proc process).file slot)
    let fcb ← deref (s.fs.fileDescTable d).fcb
    let fs ← putFcb fcb s.fs
    let fs :=
      if (fs.fileDescTable d).count = 0 then
        fs.setFileDesc d { fs.fileDescTable d with fcb := none }
      else fs
    let s := s.setProc process ((s.proc process).setFile slot none)
    return { s with fs := fs }
  else
    .error .outOfBounds

/-! ## Start-up -/

variable (L : Layout)

/-- `init_fcb` and `init_file_desc`: a cleared page for one table. -/
def initTable (M : Memory) : Except Stop (Nat × Memory) := do
  let (page, M) ← kalloc L M
  ASSERT .initFs (page ≠ 0)
  return (page, { M with mem := M.mem.fill page pageSize 0 })

def initFs (s : Kernel) : Except Stop Kernel := do
  let p := getFsBpb s.memory.mem
  ASSERT .initFs (s.memory.mem (p + 0x1fe) = 0x55 ∧ s.memory.mem (p + 0x1ff) = 0xaa)
  let (fcbPage, M) ← initTable L s.memory
  let (fileDescPage, M) ← initTable L M
  let fs := { fcbTable := fun _ => FCB.zero, fileDescTable := fun _ => FileDesc.zero,
              fcbPage := fcbPage, fileDescPage := fileDescPage }
  return { s with memory := M, fs := fs }

end ArmOs
