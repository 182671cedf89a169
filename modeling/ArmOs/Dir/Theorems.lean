import ArmOs.Dir.Lemmas.Search
import ArmOs.Dir.Lemmas.Tables

/-!
# Finding and opening files by name

Which paths `split_path` accepts and what `search_file` finds for them, what `open_file` leaves when it succeeds and when
it fails, and which entries `search_file` returns that `ls` does not show as files.
-/

namespace ArmOs

open Lib

variable {m : Mem} {s s₀ t : Kernel} {p : Proc} {path : Nat → UInt8} {r : Int}

/-! ## Names -/

/-- `split_path` accepts the names of at most eight characters with an extension of at most three and reads nothing
after the terminator. The text that is shown for an entry finds the first entry with its eleven bytes, and a path that
names no entry finds none. -/
theorem path_names (m : Mem) {str : List UInt8} (hp : StringAt path 0 str) :
    (∀ name ext, splitPath path blankName blankExt = some (name, ext) ↔
      ∃ n e, IsPath str n e ∧ name = pad space maxFilename n ∧ ext = pad space maxFileExtName e) ∧
    (∀ k ∈ splitPathReads path, k ≤ str.length) ∧
    (∀ path', (∀ k ∈ splitPathReads path, path' k = path k) →
      splitPath path' blankName blankExt = splitPath path blankName blankExt) ∧
    (∀ i < getRootDirectoryCount m, LiveEntry m i → Spellable m i → str = displayed m i →
      IsLeast {k | k < getRootDirectoryCount m ∧ LiveEntry m k ∧ SameName m k i} (searchFile m path) ∧
      ∀ s p fd d, s.memory.mem = m → freeSlot (s.proc p) = some fd → freeFileDesc s.fs = some d →
        (openFile p path s).1 = fd.val) ∧
    ((∀ k, ¬Named m str k) → searchFile m path = 0xffffffff) := by
  refine ⟨fun name ext => splitPath_iff hp, fun k => splitPathReads_le hp, fun path' => splitPath_congr,
    fun i hi hlive hspell hstr => ?_, searchFile_none hp⟩
  subst hstr
  have hnamed := (displayed_named_iff hspell).mpr ⟨hi, hlive, rfl, rfl⟩
  have hleast := searchFile_isLeast hp hnamed
  constructor
  · simpa only [displayed_named_iff hspell] using hleast
  · intro s p fd d hm hfd hd
    subst hm
    rw [openFile_eq hfd hd (Named.ne hleast.1)]

theorem path_names_small : StringAt initBin 0 (displayed smallMem 0) ∧
    IsLeast {k | k < getRootDirectoryCount smallMem ∧ LiveEntry smallMem k ∧ SameName smallMem k 0}
      (searchFile smallMem initBin) := by
  have hp : StringAt initBin 0 (displayed smallMem 0) := by decide
  have hlive : LiveEntry smallMem 0 := ⟨by decide, by decide, by decide⟩
  have hspell : Spellable smallMem 0 := ⟨by decide, by decide⟩
  exact ⟨hp, ((path_names smallMem hp).2.2.2.1 0 (by decide) hlive hspell rfl).1⟩

/-! ## Opening -/

/-- In every state of the file tables that opens, closes, forks and reaps lead to: a failed `open_file` changes nothing,
a successful one changes the least free slot, a free table entry and the count of the file, and it fails exactly when
there is no free slot, no free entry or no file. -/
theorem openFile_all_or_nothing (h₀ : EmptyFiles s₀) (hrun : Relation.ReflTransGen FileStep s₀ s)
    (hcounts : ∀ i, (s.fs.fcbTable i).count < 2 ^ 31 - 1) (h : openFile p path s = (r, t)) :
    (r = -1 → t = s) ∧
    (r ≠ -1 → ∃ fd d, r = (fd.val : Int) ∧ Opens s t p path fd d) ∧
    (r = -1 ↔ (∀ fd, (s.proc p).file fd ≠ none) ∨
      (∀ d < pageSize / fileDescSize, (s.fs.fileDescTable d).fcb ≠ none) ∨
      searchFile s.memory.mem path = 0xffffffff) := by
  have htables := FileStep.run_tablesCached hrun h₀.tablesCached
  have hopens : r ≠ -1 → ∃ fd d, r = (fd.val : Int) ∧ Opens s t p path fd d :=
    openFile_opens (fun hcount => htables.cached _ (.inl hcount)) (htables.count _) (hcounts _) h
  refine ⟨fun hr => ?_, hopens, openFile_fails_iff h⟩
  rcases openFile_opened h with ⟨-, ht⟩ | ⟨fd, d, i, hfd, -⟩
  · exact ht
  · omega

theorem openFile_all_or_nothing_small : ∃ t fd d, openFile idle initBin (Kernel.reset smallLayout smallMem) = (0, t) ∧
    (0 : Int) = (fd.val : Int) ∧ Opens (Kernel.reset smallLayout smallMem) t idle initBin fd d := by
  have hempty : EmptyFiles (Kernel.reset smallLayout smallMem) := ⟨fun _ => rfl, fun _ => rfl, fun _ => rfl, fun _ => rfl⟩
  have hopen : (openFile idle initBin (Kernel.reset smallLayout smallMem)).1 = 0 := by decide +kernel
  generalize ht : (openFile idle initBin (Kernel.reset smallLayout smallMem)).2 = t
  have h : openFile idle initBin (Kernel.reset smallLayout smallMem) = (0, t) := Prod.ext hopen ht
  have hcounts : ∀ i, ((Kernel.reset smallLayout smallMem).fs.fcbTable i).count < 2 ^ 31 - 1 := fun i => by
    show (0 : Int) < _
    decide
  obtain ⟨fd, d, hfd, hopens⟩ := (openFile_all_or_nothing hempty .refl hcounts h).2.1 (by decide)
  exact ⟨t, fd, d, h, hfd, hopens⟩

/-! ## Files and other entries -/

/-- The first live entry with its eleven bytes, if a path can spell them. -/
structure FirstNamed (m : Mem) (i : Nat) : Prop where
  lt : i < getRootDirectoryCount m
  live : LiveEntry m i
  spellable : Spellable m i
  first : ∀ k < i, LiveEntry m k → ¬SameName m k i

theorem searchFile_firstNamed (h : searchFile m path ≠ 0xffffffff) : FirstNamed m (searchFile m path) := by
  obtain ⟨str, hp⟩ := searchFile_stringAt h
  have hnamed := searchFile_named hp h
  have hmin := (searchFile_isLeast hp hnamed).2
  obtain ⟨hlt, hlive, n, e, hpath, hname, hext⟩ := id hnamed
  refine ⟨hlt, hlive, hnamed.spellable hp, fun k hk hklive hsame => ?_⟩
  have hle := hmin ⟨hk.trans hlt, hklive, n, e, hpath, hsame.1.trans hname, hsame.2.trans hext⟩
  omega

theorem FirstNamed.search {i : Nat} (h : FirstNamed m i) : searchFile m (toPath (displayed m i)) = i := by
  have hp := toPath_stringAt (displayed_noNul h.spellable)
  have hleast := searchFile_isLeast hp ((displayed_named_iff h.spellable).mpr ⟨h.lt, h.live, rfl, rfl⟩)
  refine Nat.le_antisymm (hleast.2 ((displayed_named_iff h.spellable).mpr ⟨h.lt, h.live, rfl, rfl⟩)) ?_
  by_contra hlt
  obtain ⟨-, hlive, hsame⟩ := (displayed_named_iff h.spellable).mp hleast.1
  exact h.first _ (Nat.lt_of_not_le hlt) hlive hsame

/-- Every entry that `search_file` returns is one that `ls` lists as a file, exactly when no entry that a path can reach
is a volume label or a directory. -/
theorem search_lists_iff (m : Mem) :
    (∀ path, searchFile m path ≠ 0xffffffff → ListsFile (rootBuffer m) (getRootDirectoryCount m) (searchFile m path)) ↔
      ∀ i, FirstNamed m i → DirEntry.attributes m i ≠ 8 ∧ DirEntry.attributes m i &&& 0x10 ≠ 0x10 := by
  constructor
  · intro h i hi
    have hsearch := hi.search
    have hne : searchFile m (toPath (displayed m i)) ≠ 0xffffffff := by
      rw [hsearch]
      have hlt := hi.lt
      have hcount := rootCount_lt m
      omega
    have hlists := h _ hne
    rw [hsearch] at hlists
    exact (listsFile_iff.mp hlists).2.2
  · intro h path hfound
    have hfirst := searchFile_firstNamed hfound
    exact listsFile_iff.mpr ⟨hfirst.lt, hfirst.live, h _ hfirst⟩

/-- The image with a volume label `DISK` and a directory `SUB` behind `INIT.BIN`. -/
def labelMem : Mem := fun a =>
  (([(1056, 68), (1057, 73), (1058, 83), (1059, 75), (1060, 32), (1061, 32), (1062, 32), (1063, 32), (1064, 32),
    (1065, 32), (1066, 32), (1067, 8),
    (1088, 83), (1089, 85), (1090, 66), (1091, 32), (1092, 32), (1093, 32), (1094, 32), (1095, 32), (1096, 32),
    (1097, 32), (1098, 32), (1099, 0x10)] : List (Nat × UInt8)).find? fun e => fsBase + e.1 = a).map (·.2) |>.getD
    (smallMem a)

/-- `search_file` returns the label, over which `ls` passes, and the directory, which `ls` lists as one. -/
theorem search_finds_label :
    searchFile labelMem (cstring ['D', 'I', 'S', 'K']) = 1 ∧ Ls.line (rootBuffer labelMem) 1 = none ∧
    searchFile labelMem (cstring ['S', 'U', 'B']) = 2 ∧
    (Ls.line (rootBuffer labelMem) 2).map LsLine.dir = some true ∧
    ¬∀ path, searchFile labelMem path ≠ 0xffffffff →
      ListsFile (rootBuffer labelMem) (getRootDirectoryCount labelMem) (searchFile labelMem path) := by
  have hfound : searchFile labelMem (cstring ['D', 'I', 'S', 'K']) = 1 := by decide
  have hline : (Ls.line (rootBuffer labelMem) 1).isNone := by decide
  have hnone := Option.isNone_iff_eq_none.mp hline
  refine ⟨hfound, hnone, by decide, by decide, fun h => ?_⟩
  obtain ⟨-, l, hl, -⟩ := h (cstring ['D', 'I', 'S', 'K']) (by rw [hfound]; decide)
  rw [hfound, hnone] at hl
  cases hl

end ArmOs
