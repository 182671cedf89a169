import ArmOs.Dir.Lemmas.Tables
import ArmOs.Fat.Theorems

/-!
# Reads, opens, closes, forks and reaps in any order

What the file tables keep while processes take turns: the image stays as it is, and every file in use has its directory
entry in `fcb_table`.
-/

namespace ArmOs

open Lib

variable {m m₀ : Mem} {s t : Kernel} {p : Proc} {volume d f i n buffer size dst : Nat} {xs : List Cluster}
  {data : List UInt8} {q : Process Proc} {fd : Int}

/-! ## Turns -/

/-- The entry that a descriptor leads to. -/
def slotEntry (q : Process Proc) (fd : Int) : Option Nat := (fileSlot q fd).toOption.join

theorem slotEntry_eq_some : slotEntry q fd = some d ↔ fileSlot q fd = .ok (some d) := by
  unfold slotEntry
  cases fileSlot q fd with
  | error e => exact ⟨nofun, nofun⟩
  | ok slot => simp [Except.toOption]

theorem slotEntry_none (q : Process Proc) : slotEntry q (-1) = none := by simp [slotEntry, fileSlot, Except.toOption]

/-- What happens next. `data` is what the buffer holds after a read that returns `n` through the table entry `d`; `exec`
opens a file, reads it and closes it again. -/
inductive Turn
  | read (call : ReadCall) (d n : Nat) (data : List UInt8)
  /-- The new descriptor leads to `entry`, if the file was opened. -/
  | openFile (p : Proc) (path : Nat → UInt8) (entry : Option Nat)
  | closeFile (p : Proc) (fd : Int)
  /-- The child `q` gets the slots of `p`. -/
  | fork (p q : Proc)
  /-- `wait` clears the slots of `q`. -/
  | reap (q : Proc)
  /-- Anything else, among it that another process runs, with its own page map, and that a process exits. -/
  | other

/-- A call to a buffer apart from the image and the page tables, with a sum that fits in 32 bits. Its size is not zero,
but for a read from the beginning of a file. -/
structure ReadCall.Allowed (volume : Nat) (s : Kernel) (call : ReadCall) (d f dst : Nat) : Prop where
  descriptor : Descriptor s call.process call.fd d f
  size : 0 < call.size ∨ (s.fs.fileDescTable d).position = 0
  sum : (s.fs.fileDescTable d).position + call.size ≤ 2 ^ 32 - 1
  lands : Lands s.memory.mem s.ttbr0 call.buffer call.size dst
  off : OffImage s.memory.mem volume dst call.size

/-- No slot but those of `q` changes, and the image stays. -/
structure Elsewhere (volume : Nat) (s t : Kernel) (q : Set Proc) : Prop where
  file : ∀ p, p ∉ q → (t.proc p).file = (s.proc p).file
  image : SameImage s.memory.mem t.memory.mem volume

def Turn.Step (volume : Nat) (s : Kernel) : Turn → Kernel → Prop
  | read call d n data, t =>
    ∃ f dst, call.Allowed volume s d f dst ∧ readFile call.process call.fd call.buffer call.size s = .ok (n, t) ∧
      data = t.memory.mem.bytes dst call.size
  | openFile p path entry, t =>
    t = (ArmOs.openFile p path s).2 ∧ entry = slotEntry (t.proc p) (ArmOs.openFile p path s).1
  | closeFile p fd, t => ArmOs.closeFile p fd s = .ok t
  | fork p q, t => countSlots (s.proc p).file s.fs = .ok t.fs ∧ (t.proc q).file = (s.proc p).file ∧ Elsewhere volume s t {q}
  | reap q, t => t.fs = s.fs ∧ (t.proc q).file = (fun _ => none) ∧ Elsewhere volume s t {q}
  | other, t => t.fs = s.fs ∧ Elsewhere volume s t ∅

/-- What has been read through `d` since it was opened: after the turn, if it was `bs` before. -/
def Turn.since (d : Nat) (bs : List UInt8) : Turn → List UInt8
  | read _ d' n data => if d' = d ∧ n ≠ 0xffffffff then bs ++ data else bs
  | openFile _ _ (some d') => if d' = d then [] else bs
  | _ => bs

variable {call : ReadCall} {l : Turn}

/-! ## The invariant -/

/-- The file `i` is in use, or was since its entry was filled. -/
def Touched (fs : Fs) (i : Nat) : Prop := (fs.fcbTable i).count ≠ 0 ∨ ∃ d, (fs.fileDescTable d).fcb = some i

/-- The image is the one of `m`, and the entries in use say what its directory says. -/
structure FilesOf (m : Mem) (volume : Nat) (s : Kernel) : Prop where
  image : SameImage m s.memory.mem volume
  cached : ∀ i, Touched s.fs i → InUse m i ∧ Cached m i (s.fs.fcbTable i)

theorem SameImage.trans {m₁ m₂ : Mem} (h : SameImage m m₁ volume) (hblock : 512 ≤ volume)
    (h' : SameImage m₁ m₂ volume) : SameImage m m₂ volume := fun x hx hlt =>
  (h' x hx (by rwa [h.bpb hblock])).trans (h x hx hlt)

theorem InUse.of_same (hm : SameImage m m₀ volume) (hd : DirectoryWithin m volume) (h : InUse m₀ i) : InUse m i := by
  obtain ⟨hi, hempty, hdeleted, hattr⟩ := h
  rw [hm.rootDirectoryCount hd] at hi
  rw [hm.firstByte hd hi] at hempty hdeleted
  rw [hm.attributes hd hi] at hattr
  exact ⟨hi, hempty, hdeleted, hattr⟩

/-- What the entry of an open file says is what the directory says now. -/
theorem FilesOf.dirCached (h : FilesOf m volume s) (hw : WellFormed m volume) : DirCached s := by
  intro i
  by_cases hcount : (s.fs.fcbTable i).count = 0
  · exact .inl hcount
  · obtain ⟨huse, hcluster, hsize⟩ := h.cached i (.inl hcount)
    refine .inr ⟨?_, ?_⟩
    · rw [hcluster, h.image.clusterIndex hw.directoryWithin huse.1]
    · rw [hsize, h.image.fileSize hw.directoryWithin huse.1]

/-! ## What a turn does to the table entries -/

/-- No other file is in use than before, and the entries say the same about files. -/
structure KeepsFiles (fs fs' : Fs) : Prop where
  touched : ∀ i, Touched fs' i → Touched fs i
  fcb : ∀ i, (fs'.fcbTable i).clusterIndex = (fs.fcbTable i).clusterIndex ∧
    (fs'.fcbTable i).fileSize = (fs.fcbTable i).fileSize

/-- All entries are the same but for their counts. -/
structure SameEntries (fs fs' : Fs) : Prop extends KeepsFiles fs fs' where
  desc : ∀ d, (fs'.fileDescTable d).fcb = (fs.fileDescTable d).fcb ∧
    (fs'.fileDescTable d).position = (fs.fileDescTable d).position

theorem SameEntries.refl (fs : Fs) : SameEntries fs fs := ⟨⟨fun _ h => h, fun _ => ⟨rfl, rfl⟩⟩, fun _ => ⟨rfl, rfl⟩⟩

theorem SameEntries.countSlot {fs₀ fs fs' : Fs} {slot : Option Nat} (h : SameEntries fs₀ fs)
    (hc : countSlot slot fs = .ok fs') : SameEntries fs₀ fs' := by
  cases slot with
  | none =>
      cases hc
      exact h
  | some d =>
      obtain ⟨j, hj, hdesc, hfcb⟩ := countSlot_some hc
      have hsame : ∀ k, (fs'.fileDescTable k).fcb = (fs.fileDescTable k).fcb ∧
          (fs'.fileDescTable k).position = (fs.fileDescTable k).position := by
        intro k
        rw [hdesc]
        by_cases hk : k = d
        · subst hk
          simp
        · simp [hk]
      refine ⟨⟨fun i hi => ?_, fun i => ?_⟩, fun k => ?_⟩
      · apply h.touched
        simp only [Touched, hsame, hfcb] at hi ⊢
        by_cases hij : i = j
        · subst hij
          exact .inr ⟨d, hj⟩
        · rwa [Function.update_of_ne hij] at hi
      · rw [hfcb]
        by_cases hij : i = j
        · subst hij
          simpa using h.fcb i
        · rw [Function.update_of_ne hij]
          exact h.fcb i
      · rw [(hsame k).1, (hsame k).2]
        exact h.desc k

theorem countSlots_same {file : Fin numFile → Option Nat} {fs fs' : Fs} (h : countSlots file fs = .ok fs') :
    SameEntries fs fs' :=
  foldlM_keeps (P := SameEntries fs) (fun hP hrun => hP.countSlot hrun) h (.refl fs)

/-- An entry of `file_desc_table` loses its file when it is closed, or it stays as it is. -/
theorem Closed.desc_cases {fd : Fin numFile} (h : Closed s t p fd d i) (k : Nat) :
    (t.fs.fileDescTable k).fcb = none ∨ t.fs.fileDescTable k = s.fs.fileDescTable k := by
  rw [h.desc]
  split
  · by_cases hkd : k = d
    · subst hkd
      rw [Function.update_self]
      exact .inl rfl
    · rw [Function.update_of_ne hkd]
      exact .inr rfl
  · exact .inr rfl

theorem Closed.keepsFiles {fd : Fin numFile} (h : Closed s t p fd d i) : KeepsFiles s.fs t.fs := by
  refine ⟨fun j hj => ?_, fun j => ?_⟩
  · rcases hj with hcount | ⟨k, hk⟩
    · by_cases hji : j = i
      · subst hji
        exact .inr ⟨d, h.fcb⟩
      · rw [h.fcbTable, Function.update_of_ne hji] at hcount
        exact .inl hcount
    · rcases h.desc_cases k with hnone | hsame
      · rw [hnone] at hk
        cases hk
      · rw [hsame] at hk
        exact .inr ⟨k, hk⟩
  · rw [h.fcbTable]
    by_cases hji : j = i
    · subst hji
      rw [Function.update_self]
      exact ⟨rfl, rfl⟩
    · rw [Function.update_of_ne hji]
      exact ⟨rfl, rfl⟩

theorem FilesOf.keep (h : FilesOf m volume s) (hblock : 512 ≤ volume)
    (himage : SameImage s.memory.mem t.memory.mem volume) (hfs : KeepsFiles s.fs t.fs) : FilesOf m volume t where
  image := h.image.trans hblock himage
  cached i hi := by
    obtain ⟨huse, hcluster, hsize⟩ := h.cached i (hfs.touched i hi)
    exact ⟨huse, (hfs.fcb i).1.trans hcluster, (hfs.fcb i).2.trans hsize⟩

theorem FilesOf.advance (h : FilesOf m volume s) (hblock : 512 ≤ volume) {m' : Mem}
    (himage : SameImage s.memory.mem m' volume) : FilesOf m volume (s.advance d n m') where
  image := h.image.trans hblock himage
  cached i hi := by
    apply h.cached i
    rcases hi with hcount | ⟨k, hk⟩
    · exact .inl hcount
    · rw [advance_fcb] at hk
      exact .inr ⟨k, hk⟩

theorem FilesOf.opened (h : FilesOf m volume s) (hw : WellFormed m volume) {slot : Fin numFile}
    (hi : InUse s.memory.mem i) : FilesOf m volume (opened s p slot d i) where
  image := h.image
  cached j hj := by
    have hdir := hw.directoryWithin
    by_cases hji : j = i
    · subst hji
      have huse : InUse m j := hi.of_same h.image hdir
      have hopened : Cached s.memory.mem j ((ArmOs.opened s p slot d j).fs.fcbTable j) := opened_cached (h.dirCached hw j)
      obtain ⟨hcluster, hsize⟩ := hopened
      rw [h.image.clusterIndex hdir huse.1] at hcluster
      rw [h.image.fileSize hdir huse.1] at hsize
      exact ⟨huse, hcluster, hsize⟩
    · have hfcb : (ArmOs.opened s p slot d i).fs.fcbTable j = s.fs.fcbTable j := by
        simp [ArmOs.opened, getFcb, Fs.setFcb, Fs.setFileDesc, hji]
      rw [hfcb]
      apply h.cached j
      rcases hj with hcount | ⟨k, hk⟩
      · rw [hfcb] at hcount
        exact .inl hcount
      · by_cases hkd : k = d
        · subst hkd
          simp [ArmOs.opened, Fs.setFileDesc] at hk
          exact absurd hk.symm hji
        · simp [ArmOs.opened, getFcb, Fs.setFcb, Fs.setFileDesc, hkd] at hk
          exact .inr ⟨k, hk⟩

/-! ## A read -/

/-- A file in use, as the current memory has it. -/
theorem FilesOf.file (h : FilesOf m volume s) (hw : WellFormed m volume) (hf : (s.fs.fileDescTable d).fcb = some f) :
    ∃ xs, IsFile m volume f xs ∧ IsFile s.memory.mem volume f xs ∧ fileBytes s.memory.mem xs = fileBytes m xs := by
  obtain ⟨huse, -⟩ := h.cached f (.inr ⟨d, hf⟩)
  obtain ⟨xs, hfile⟩ := hw.files f huse
  exact ⟨xs, hfile, hfile.congr h.image hw.directoryWithin huse.1, hfile.volume.fileBytes_eq h.image⟩

/-- The directory lies in the volume as well, so no file is as large as -1. -/
theorem IsFile.size_lt (hf : IsFile m volume f xs) (hi : f < getRootDirectoryCount m) :
    DirEntry.fileSize m f < 0xffffffff := by
  have hcovers := hf.covers
  rcases hf.chain with rfl | hchain
  · rw [List.length_nil, Nat.zero_mul] at hcovers
    omega
  · have hlen := hchain.length_mul_le_sub hf.volume
    have hlt := hf.volume.lt
    simp only [clusterStart, getRootDirectoryCount] at hlen hi
    omega

section

variable (h : FilesOf m volume s) (hf : IsFile m volume f xs) (hw : WellFormed m volume)
  (hc : call.Allowed volume s d f dst)

include h hc

theorem FilesOf.read_refused (hgt : DirEntry.fileSize m f < (s.fs.fileDescTable d).position + call.size) :
    readFile call.process call.fd call.buffer call.size s = .ok (0xffffffff, s) := by
  obtain ⟨-, -, hsize⟩ := h.cached f (.inr ⟨d, hc.descriptor.fcb⟩)
  have hsum := hc.sum
  apply hc.descriptor.readFile_refused
  rw [Refused, hsize, Nat.mod_eq_of_lt (by omega)]
  exact hgt

include hf hw

/-- A read within the file gives the bytes from the position on, and moves the position behind them. -/
theorem FilesOf.read_fits (hle : (s.fs.fileDescTable d).position + call.size ≤ DirEntry.fileSize m f) :
    readFile call.process call.fd call.buffer call.size s =
      .ok (call.size, s.advance d call.size (s.memory.mem.put dst
        (((fileBytes m xs).drop (s.fs.fileDescTable d).position).take call.size))) := by
  obtain ⟨huse, hcluster, hsize⟩ := h.cached f (.inr ⟨d, hc.descriptor.fcb⟩)
  have hfile : IsFile s.memory.mem volume f xs := hf.congr h.image hw.directoryWithin huse.1
  have hmem : DirEntry.fileSize s.memory.mem f = DirEntry.fileSize m f := h.image.fileSize hw.directoryWithin huse.1
  have hstart : DirEntry.clusterIndex s.memory.mem f = DirEntry.clusterIndex m f :=
    h.image.clusterIndex hw.directoryWithin huse.1
  have hbytes : fileBytes s.memory.mem xs = fileBytes m xs := hf.volume.fileBytes_eq h.image
  have hcovers := hfile.covers
  have hcs := (hw.congr h.image).clusterSize
  have hposition : (s.fs.fileDescTable d).position < xs.length * getClusterSize s.memory.mem ∨ xs = [] := by
    cases xs with
    | nil => exact .inr rfl
    | cons x xs =>
        rw [List.length_cons, Nat.succ_mul] at hcovers ⊢
        have hpos := hc.size
        omega
  have hrefused : ¬Refused (s.fs.fileDescTable d).position call.size (s.fs.fcbTable f).fileSize := by
    have hmod := Nat.mod_le ((s.fs.fileDescTable d).position + call.size) (2 ^ 32)
    rw [Refused, hsize]
    omega
  rw [hc.descriptor.readFile_eq hrefused, hcluster, ← hstart,
    hfile.readRawData hc.lands hc.off (by omega) hposition, hbytes]
  rfl

end

/-! ## One turn -/

/-- The bytes that a read of `n` bytes from `position` on is to give. -/
def slice (m : Mem) (xs : List Cluster) (position n : Nat) : List UInt8 := ((fileBytes m xs).drop position).take n

theorem IsFile.slice_length (hf : IsFile m volume f xs) {position : Nat} (h : position + n ≤ DirEntry.fileSize m f) :
    (slice m xs position n).length = n := by
  have hcovers := hf.covers
  rw [slice, List.length_take, List.length_drop, ← hf.volume.pathData_eq, length_pathData]
  omega

/-- A read is refused and changes nothing, or it gives the bytes from the position on. -/
theorem Turn.read_inv (h : FilesOf m volume s) (hw : WellFormed m volume) (hopen : (s.fs.fileDescTable d).fcb = some f)
    (hf : IsFile m volume f xs) (hstep : Turn.Step volume s (.read call d n data) t) :
    (n = 0xffffffff ∧ t = s) ∨
      ((s.fs.fileDescTable d).position + n ≤ DirEntry.fileSize m f ∧ n ≠ 0xffffffff ∧
        data = slice m xs (s.fs.fileDescTable d).position n ∧
        ∃ m', t = s.advance d n m' ∧ SameImage s.memory.mem m' volume) := by
  obtain ⟨f', dst, hc, hread, rfl⟩ := hstep
  obtain rfl : f = f' := Option.some.inj (hopen.symm.trans hc.descriptor.fcb)
  obtain ⟨huse, -⟩ := h.cached f (.inr ⟨d, hopen⟩)
  rcases Nat.lt_or_ge (DirEntry.fileSize m f) ((s.fs.fileDescTable d).position + call.size) with hgt | hle
  · rw [h.read_refused hc hgt] at hread
    obtain ⟨rfl, rfl⟩ := Prod.mk.inj (Except.ok.inj hread)
    exact .inl ⟨rfl, rfl⟩
  · rw [h.read_fits hf hw hc hle] at hread
    obtain ⟨rfl, rfl⟩ := Prod.mk.inj (Except.ok.inj hread)
    have hlen := hf.slice_length hle
    have hlt := hf.size_lt huse.1
    have hbytes := Mem.bytes_put s.memory.mem dst (slice m xs (s.fs.fileDescTable d).position call.size)
    have hput : SameOutside s.memory.mem
        (s.memory.mem.put dst (slice m xs (s.fs.fileDescTable d).position call.size)) dst call.size :=
      .put (o := 0) (by omega)
    rw [hlen] at hbytes
    exact .inr ⟨hle, by omega, hbytes, _, rfl, hput.sameImage hc.off⟩

/-- The file that a read goes to. -/
theorem Turn.read_file (h : FilesOf m volume s) (hw : WellFormed m volume)
    (hstep : Turn.Step volume s (.read call d n data) t) :
    ∃ f xs, (s.fs.fileDescTable d).fcb = some f ∧ IsFile m volume f xs := by
  obtain ⟨f, dst, hc, -⟩ := hstep
  obtain ⟨xs, hf⟩ := hw.files f (h.cached f (.inr ⟨d, hc.descriptor.fcb⟩)).1
  exact ⟨f, xs, hc.descriptor.fcb, hf⟩

/-- Opening fails and changes nothing, or it takes a free entry. -/
theorem Turn.openFile_inv {path : Nat → UInt8} {entry : Option Nat}
    (hstep : Turn.Step volume s (.openFile p path entry) t) : (t = s ∧ entry = none) ∨
      ∃ slot d i, (s.fs.fileDescTable d).fcb = none ∧ InUse s.memory.mem i ∧ t = opened s p slot d i ∧ entry = some d := by
  obtain ⟨ht, hentry⟩ := hstep
  have hopen : ArmOs.openFile p path s = ((ArmOs.openFile p path s).1, t) := by rw [ht]
  by_cases hr : (ArmOs.openFile p path s).1 = -1
  · rw [hr] at hentry
    rcases openFile_opened hopen with ⟨-, hsame⟩ | ⟨fd, d, i, hfd, -⟩
    · exact .inl ⟨hsame, hentry.trans (slotEntry_none _)⟩
    · omega
  · obtain ⟨slot, d, -, hdesc, hfound, hfd, hopened⟩ := openFile_ok hopen hr
    obtain ⟨-, -, hfree, -⟩ := findFrom_eq_some.mp hdesc
    rw [hfd, hopened] at hentry
    exact .inr ⟨slot, d, _, by simpa using hfree, searchFile_inUse hfound, hopened,
      hentry.trans (slotEntry_eq_some.mpr (opened_descriptor s p slot d _).slot)⟩

theorem Turn.Step.filesOf (h : FilesOf m volume s) (hw : WellFormed m volume) (hstep : Turn.Step volume s l t) :
    FilesOf m volume t := by
  cases l with
  | read call d n data =>
      obtain ⟨f, xs, hopen, hf⟩ := Turn.read_file h hw hstep
      obtain ⟨-, rfl⟩ | ⟨-, -, -, m', rfl, himage⟩ := Turn.read_inv h hw hopen hf hstep
      · exact h
      · exact h.advance hw.block himage
  | openFile p path entry =>
      obtain ⟨rfl, -⟩ | ⟨slot, d, i, -, huse, rfl, -⟩ := Turn.openFile_inv hstep
      · exact h
      · exact h.opened hw huse
  | closeFile p fd =>
      obtain ⟨slot, d, i, -, hc⟩ := closeFile_closed hstep
      exact h.keep hw.block (fun x _ _ => by rw [closeFile_memory hstep]) hc.keepsFiles
  | fork p q =>
      obtain ⟨hfs, -, helse⟩ := hstep
      exact h.keep hw.block helse.image (countSlots_same hfs).toKeepsFiles
  | reap q =>
      obtain ⟨hfs, -, helse⟩ := hstep
      exact h.keep hw.block helse.image (hfs ▸ (SameEntries.refl s.fs).toKeepsFiles)
  | other =>
      obtain ⟨hfs, helse⟩ := hstep
      exact h.keep hw.block helse.image (hfs ▸ (SameEntries.refl s.fs).toKeepsFiles)

/-- The entry `d` of a state that is open was open before the turn, at the same position, unless the turn opens it or
reads through it. -/
theorem Turn.Step.desc_eq (h : FilesOf m volume s) (hw : WellFormed m volume) (hstep : Turn.Step volume s l t)
    (hopen : (t.fs.fileDescTable d).fcb = some f) (hread : ∀ call n data, l ≠ .read call d n data)
    (hnew : ∀ p path, l ≠ .openFile p path (some d)) :
    (s.fs.fileDescTable d).fcb = some f ∧ (t.fs.fileDescTable d).position = (s.fs.fileDescTable d).position ∧
      ∀ bs, Turn.since d bs l = bs := by
  cases l with
  | read call d' n data =>
      have hne : d ≠ d' := fun hd => hread call n data (by rw [hd])
      have hsince : ∀ bs, Turn.since d bs (.read call d' n data) = bs := fun bs => if_neg fun hd => hne hd.1.symm
      obtain ⟨f', xs, hopen', hf⟩ := Turn.read_file h hw hstep
      obtain ⟨-, rfl⟩ | ⟨-, -, -, m', rfl, -⟩ := Turn.read_inv h hw hopen' hf hstep
      · exact ⟨hopen, rfl, hsince⟩
      · rw [advance_of_ne hne] at hopen ⊢
        exact ⟨hopen, rfl, hsince⟩
  | openFile p path entry =>
      obtain ⟨rfl, rfl⟩ | ⟨slot, d', i, hfree, -, rfl, rfl⟩ := Turn.openFile_inv hstep
      · exact ⟨hopen, rfl, fun _ => rfl⟩
      · have hne : d ≠ d' := fun hd => hnew p path (by rw [hd])
        have hdesc : (opened s p slot d' i).fs.fileDescTable d = s.fs.fileDescTable d := by
          simp [opened, getFcb, Fs.setFcb, Fs.setFileDesc, hne]
        rw [hdesc] at hopen ⊢
        exact ⟨hopen, rfl, fun _ => if_neg hne.symm⟩
  | closeFile p fd =>
      obtain ⟨slot, d', i, -, hc⟩ := closeFile_closed hstep
      rcases hc.desc_cases d with hnone | hsame
      · rw [hnone] at hopen
        cases hopen
      · rw [hsame] at hopen ⊢
        exact ⟨hopen, rfl, fun _ => rfl⟩
  | fork p q =>
      obtain ⟨hfcb, hposition⟩ := (countSlots_same hstep.1).desc d
      exact ⟨hfcb.symm.trans hopen, hposition, fun _ => rfl⟩
  | reap q =>
      rw [hstep.1] at hopen ⊢
      exact ⟨hopen, rfl, fun _ => rfl⟩
  | other =>
      rw [hstep.1] at hopen ⊢
      exact ⟨hopen, rfl, fun _ => rfl⟩

end ArmOs
