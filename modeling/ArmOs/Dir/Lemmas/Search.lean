import Mathlib.Order.Bounds.Basic
import ArmOs.Dir.Lemmas.Path
import ArmOs.Fat.Lemmas.Open
import ArmOs.User.Ls

/-!
# Searching the root directory

`search_file` returns the first entry that is in use and whose eleven bytes are those of the path, and `ls` reads the
same entries.
-/

namespace ArmOs

open Lib

variable {m : Mem} {path : Nat → UInt8} {p n e : List UInt8} {i j k : Nat}

/-- The entry is not empty, not deleted and not part of a long name. -/
structure LiveEntry (m : Mem) (i : Nat) : Prop where
  notEmpty : m (dirEntry m i) ≠ entryEmpty
  notDeleted : m (dirEntry m i) ≠ entryDeleted
  notLong : DirEntry.attributes m i ≠ 0xf

/-- The entries have the same eleven bytes. -/
def SameName (m : Mem) (i k : Nat) : Prop :=
  DirEntry.name m i = DirEntry.name m k ∧ DirEntry.ext m i = DirEntry.ext m k

/-- A path can spell the name of the entry. -/
structure Spellable (m : Mem) (i : Nat) : Prop where
  name : 0 ∉ DirEntry.name m i ∧ dot ∉ DirEntry.name m i ∧ slash ∉ DirEntry.name m i
  ext : 0 ∉ DirEntry.ext m i ∧ slash ∉ DirEntry.ext m i

/-- The text that is shown for the entry: the name, and a dot and the extension if there is one. -/
def displayed (m : Mem) (i : Nat) : List UInt8 :=
  trim space (DirEntry.name m i) ++
    if trim space (DirEntry.ext m i) = [] then [] else dot :: trim space (DirEntry.ext m i)

theorem name_length (m : Mem) (i : Nat) : (DirEntry.name m i).length = maxFilename := by
  simp [DirEntry.name, maxFilename]

theorem ext_length (m : Mem) (i : Nat) : (DirEntry.ext m i).length = maxFileExtName := by
  simp [DirEntry.ext, maxFileExtName]

theorem isMatch_iff {name ext : List UInt8} :
    isMatch m name ext i = true ↔ LiveEntry m i ∧ DirEntry.name m i = name ∧ DirEntry.ext m i = ext := by
  unfold isMatch
  split
  · rename_i h
    simp only [Bool.false_eq_true, false_iff]
    exact fun hl => h.elim hl.1.notEmpty hl.1.notDeleted
  · rename_i h
    obtain ⟨hempty, hdeleted⟩ := not_or.mp h
    split
    · rename_i hlong
      simp only [Bool.false_eq_true, false_iff]
      exact fun hl => hl.1.notLong hlong
    · rename_i hlong
      simp [isFileNameEqual, show LiveEntry m i from ⟨hempty, hdeleted, hlong⟩]

theorem rootCount_lt (m : Mem) : getRootDirectoryCount m < 65536 := m.read_lt 2 _

/-! ## Where the search ends -/

/-- The entries that the path `p` names. -/
def Named (m : Mem) (p : List UInt8) (k : Nat) : Prop :=
  k < getRootDirectoryCount m ∧ LiveEntry m k ∧
    ∃ n e, IsPath p n e ∧ DirEntry.name m k = pad space maxFilename n ∧ DirEntry.ext m k = pad space maxFileExtName e

theorem append_cons_unique {c : UInt8} {u u' v v' : List UInt8} (h : c ∉ u) (h' : c ∉ u')
    (heq : u ++ c :: v = u' ++ c :: v') : u = u' ∧ v = v' := by
  induction u generalizing u' with
  | nil =>
      cases u' with
      | nil => exact ⟨rfl, (List.cons.inj heq).2⟩
      | cons d u' =>
          have hd : c = d := (List.cons.inj heq).1
          exact absurd (hd ▸ List.mem_cons_self) h'
  | cons d u ih =>
      cases u' with
      | nil =>
          have hd : d = c := (List.cons.inj heq).1
          exact absurd (hd ▸ List.mem_cons_self) h
      | cons d' u' =>
          obtain ⟨rfl, htail⟩ := List.cons.inj heq
          obtain ⟨rfl, rfl⟩ := ih (fun hc => h (List.mem_cons_of_mem d hc)) (fun hc => h' (List.mem_cons_of_mem d hc)) htail
          exact ⟨rfl, rfl⟩

/-- The name and the extension are the parts before and after the first dot. -/
theorem IsPath.unique {n' e' : List UInt8} (h : IsPath p n e) (h' : IsPath p n' e') :
    pad space maxFilename n = pad space maxFilename n' ∧ pad space maxFileExtName e = pad space maxFileExtName e' := by
  rcases h.parts with ⟨rfl, rfl⟩ | ⟨rfl, -, -⟩
  · rcases h'.parts with ⟨rfl, rfl⟩ | ⟨rfl, -, -⟩
    · exact ⟨rfl, rfl⟩
    · exact absurd (List.mem_append_right n' List.mem_cons_self) h.dot
  · rcases h'.parts with ⟨rfl, rfl⟩ | ⟨heq, -, -⟩
    · exact absurd (List.mem_append_right n List.mem_cons_self) h'.dot
    · obtain ⟨rfl, he⟩ := append_cons_unique h.dot h'.dot heq
      exact ⟨rfl, by rw [he]⟩

theorem searchFile_path (m : Mem) (hp : StringAt path 0 p) (h : IsPath p n e) :
    searchFile m path = (findFrom (isMatch m (pad space maxFilename n) (pad space maxFileExtName e))
      (getRootDirectoryCount m) 0).getD 0xffffffff := by
  have hsplit : splitPath path (List.replicate 8 space) (List.replicate 3 space) =
      some (pad space maxFilename n, pad space maxFileExtName e) := (splitPath_iff hp).mpr ⟨n, e, h, rfl, rfl⟩
  unfold searchFile
  rw [hsplit]
  dsimp only
  split
  · rename_i hfind
    rw [hfind]
    rfl
  · rename_i hfind
    rw [hfind]
    rfl

theorem searchFile_isLeast (hp : StringAt path 0 p) (hk : Named m p k) :
    IsLeast {j | Named m p j} (searchFile m path) := by
  obtain ⟨hlt, hlive, n, e, hpath, hname, hext⟩ := hk
  rw [searchFile_path m hp hpath]
  cases hfind : findFrom (isMatch m (pad space maxFilename n) (pad space maxFileExtName e))
      (getRootDirectoryCount m) 0 with
  | none =>
      have hnone := findFrom_eq_none.mp hfind k (Nat.zero_le k) (by omega)
      rw [isMatch_iff.mpr ⟨hlive, hname, hext⟩] at hnone
      cases hnone
  | some j =>
      obtain ⟨-, hj, hmatch, hmin⟩ := findFrom_eq_some.mp hfind
      obtain ⟨hjlive, hjname, hjext⟩ := isMatch_iff.mp hmatch
      refine ⟨⟨by simpa using hj, hjlive, n, e, hpath, hjname, hjext⟩, fun i hi => ?_⟩
      obtain ⟨hi, hilive, n', e', hpath', hiname, hiext⟩ := hi
      obtain ⟨hn, he⟩ := hpath.unique hpath'
      by_contra hlt'
      have hfalse := hmin i (Nat.zero_le i) (Nat.lt_of_not_le hlt')
      rw [isMatch_iff.mpr ⟨hilive, hiname.trans hn.symm, hiext.trans he.symm⟩] at hfalse
      cases hfalse

theorem searchFile_none (hp : StringAt path 0 p) (h : ∀ k, ¬Named m p k) : searchFile m path = 0xffffffff := by
  cases hsplit : splitPath path (List.replicate 8 space) (List.replicate 3 space) with
  | none =>
      unfold searchFile
      rw [hsplit]
  | some r =>
      cases r with
      | mk name ext =>
      obtain ⟨n, e, hpath, -, -⟩ := (splitPath_iff hp).mp hsplit
      rw [searchFile_path m hp hpath, findFrom_eq_none.mpr]
      · rfl
      · intro k _ hk
        rw [Bool.eq_false_iff]
        intro hmatch
        obtain ⟨hlive, hname, hext⟩ := isMatch_iff.mp hmatch
        exact h k ⟨by omega, hlive, n, e, hpath, hname, hext⟩

theorem searchFile_named (hp : StringAt path 0 p) (h : searchFile m path ≠ 0xffffffff) :
    Named m p (searchFile m path) := by
  by_cases hnone : ∀ k, ¬Named m p k
  · exact absurd (searchFile_none hp hnone) h
  · obtain ⟨k, hk⟩ := not_forall.mp hnone
    exact (searchFile_isLeast hp (not_not.mp hk)).1

theorem Named.ne (h : Named m p k) : k ≠ 0xffffffff := by
  have hlt := h.1
  have hcount := rootCount_lt m
  omega

/-! ## The displayed name -/

theorem displayed_isPath (h : Spellable m i) :
    IsPath (displayed m i) (trim space (DirEntry.name m i)) (trim space (DirEntry.ext m i)) where
  name := by
    rw [← name_length m i]
    exact (trim_initial _ _).length_le
  dot hd := h.name.2.1 (mem_of_mem_trim hd)
  slash hs := h.name.2.2 (mem_of_mem_trim hs)
  parts := by
    unfold displayed
    split
    · rename_i hnil
      exact .inl ⟨List.append_nil _, hnil⟩
    · refine .inr ⟨rfl, ?_, fun hs => h.ext.2 (mem_of_mem_trim hs)⟩
      rw [← ext_length m i]
      exact (trim_initial _ _).length_le

theorem displayed_named_iff (h : Spellable m i) :
    Named m (displayed m i) k ↔ k < getRootDirectoryCount m ∧ LiveEntry m k ∧ SameName m k i := by
  have hname := pad_trim (b := space) (name_length m i)
  have hext := pad_trim (b := space) (ext_length m i)
  constructor
  · rintro ⟨hk, hlive, n, e, hpath, hn, he⟩
    obtain ⟨hn', he'⟩ := hpath.unique (displayed_isPath h)
    exact ⟨hk, hlive, by rw [hn, hn', hname], by rw [he, he', hext]⟩
  · rintro ⟨hk, hlive, hn, he⟩
    exact ⟨hk, hlive, _, _, displayed_isPath h, hn.trans hname.symm, he.trans hext.symm⟩

/-- The bytes of a string, then NUL. -/
def toPath (p : List UInt8) (i : Nat) : UInt8 := (p[i]?).getD 0

theorem toPath_stringAt (h : 0 ∉ p) : StringAt (toPath p) 0 p := by
  have hall : ∀ u v, p = u ++ v → StringAt (toPath p) u.length v := by
    intro u v
    induction v generalizing u with
    | nil =>
        intro hp
        simp [StringAt, toPath, hp]
    | cons c v ih =>
        intro hp
        refine ⟨by simp [toPath, hp], fun hc => h ?_, ?_⟩
        · rw [hp, ← hc]
          exact List.mem_append_right u List.mem_cons_self
        · have := ih (u ++ [c]) (by simp [hp])
          simpa using this
  exact hall [] p rfl

theorem displayed_noNul (h : Spellable m i) : 0 ∉ displayed m i := by
  intro hz
  unfold displayed at hz
  cases List.mem_append.mp hz with
  | inl hz => exact h.name.1 (mem_of_mem_trim hz)
  | inr hz =>
      split at hz
      · exact absurd hz List.not_mem_nil
      · cases List.mem_cons.mp hz with
        | inl hd => exact absurd hd (by decide)
        | inr hz => exact h.ext.1 (mem_of_mem_trim hz)

/-- A path that names an entry spells its name. -/
theorem Named.spellable (hp : StringAt path 0 p) (h : Named m p k) : Spellable m k := by
  obtain ⟨-, -, n, e, hpath, hname, hext⟩ := h
  have hnul : ∀ {i q}, StringAt path i q → 0 ∉ q := by
    intro i q hq
    induction q generalizing i with
    | nil => exact List.not_mem_nil
    | cons c q ih => simpa using ⟨hq.2.1.symm, ih hq.2.2⟩
  have hpad : ∀ {n : Nat} {c : UInt8} {xs : List UInt8}, c ≠ space → c ∉ xs → c ∉ pad space n xs := by
    intro n c xs hc hxs hmem
    cases List.mem_append.mp hmem with
    | inl h => exact hxs h
    | inr h => exact hc (List.eq_of_mem_replicate h)
  have hz : 0 ∉ n ∧ 0 ∉ e ∧ slash ∉ e := by
    have hzero := hnul hp
    rcases hpath.parts with ⟨rfl, rfl⟩ | ⟨rfl, -, hslash⟩
    · exact ⟨hzero, List.not_mem_nil, List.not_mem_nil⟩
    · simp only [List.mem_append, List.mem_cons, not_or] at hzero
      exact ⟨hzero.1, hzero.2.2, hslash⟩
  rw [show Spellable m k ↔ _ from ⟨fun h => (⟨h.name, h.ext⟩ : _ ∧ _), fun h => ⟨h.1, h.2⟩⟩, hname, hext]
  exact ⟨⟨hpad (by decide) hz.1, hpad (by decide) hpath.dot, hpad (by decide) hpath.slash⟩,
    hpad (by decide) hz.2.1, hpad (by decide) hz.2.2⟩

/-- What `search_file` accepts is terminated. -/
theorem exists_stringAt : ∀ k i, path (i + k) = 0 → ∃ p, StringAt path i p := by
  intro k
  induction k with
  | zero => exact fun i h => ⟨[], h⟩
  | succ k ih =>
      intro i h
      by_cases hi : path i = 0
      · exact ⟨[], hi⟩
      · obtain ⟨p, hp⟩ := ih (i + 1) (by rwa [Nat.add_right_comm])
        exact ⟨path i :: p, rfl, hi, hp⟩

theorem searchFile_stringAt (h : searchFile m path ≠ 0xffffffff) : ∃ p, StringAt path 0 p := by
  cases hsplit : splitPath path (List.replicate 8 space) (List.replicate 3 space) with
  | none =>
      unfold searchFile at h
      rw [hsplit] at h
      exact absurd rfl h
  | some r =>
      obtain ⟨i, n, j, e, -, -, hj, -⟩ := splitPath_eq_some.mp hsplit
      exact exists_stringAt j 0 (by rwa [Nat.zero_add])

/-! ## `ls` -/

/-- What `read_root_directory` leaves in the buffer of `ls`. -/
def rootBuffer (m : Mem) : Mem := fun k => m (getRootDirectory m + k)

theorem rootBuffer_attributes (m : Mem) (i : Nat) : Ls.attributes (rootBuffer m) i = DirEntry.attributes m i :=
  Mem.read_shift fun k _ => by rw [rootBuffer, dirEntry, Nat.add_assoc, Nat.add_assoc, Nat.add_assoc]

/-- `ls` lists the entry, one of `count`, as a file. -/
def ListsFile (buffer : Mem) (count i : Nat) : Prop := i < count ∧ ∃ l, Ls.line buffer i = some l ∧ l.dir = false

theorem ListsFile.mem {buffer : Mem} {count : Nat} (h : ListsFile buffer count i) :
    ∃ l ∈ Ls.main buffer count, l.name = Ls.name buffer i ++ [0, 0] ∧ l.dir = false := by
  obtain ⟨hi, l, hl, hdir⟩ := h
  refine ⟨l, List.mem_filterMap.mpr ⟨i, List.mem_range.mpr hi, hl⟩, ?_, hdir⟩
  unfold Ls.line at hl
  split at hl
  · cases hl
  · cases hl
    rfl

theorem listsFile_iff : ListsFile (rootBuffer m) (getRootDirectoryCount m) i ↔ i < getRootDirectoryCount m ∧
    LiveEntry m i ∧ DirEntry.attributes m i ≠ 8 ∧ DirEntry.attributes m i &&& 0x10 ≠ 0x10 := by
  have hfirst : rootBuffer m (dirEntrySize * i) = m (dirEntry m i) := rfl
  rw [ListsFile, Ls.line, rootBuffer_attributes, hfirst]
  refine and_congr_right fun _ => ?_
  split
  · rename_i hskip
    refine ⟨fun ⟨l, hl, _⟩ => (nomatch hl), fun ⟨hlive, hlabel, _⟩ => ?_⟩
    rcases hskip with h | h | h | h
    · exact absurd h hlive.notEmpty
    · exact absurd h hlive.notDeleted
    · exact absurd h hlive.notLong
    · exact absurd h hlabel
  · rename_i hskip
    simp only [not_or] at hskip
    obtain ⟨hempty, hdeleted, hlong, hlabel⟩ := hskip
    simp [hlabel, show LiveEntry m i from ⟨hempty, hdeleted, hlong⟩]

/-- The buffer after `read_root_directory`, unless it starts inside the directory. -/
theorem readRootDirectory_buffer {s t : Kernel} {buffer count : Nat}
    (h : readRootDirectory buffer s = .ok (count, t)) : count = getRootDirectoryCount s.memory.mem ∧
      (0 < count → ∃ dst, resolve s.memory.mem s.ttbr0 buffer (count * dirEntrySize) = .ok dst ∧
        ((getRootDirectory s.memory.mem < dst → getRootDirectory s.memory.mem + count * dirEntrySize ≤ dst) →
          ∀ k < count * dirEntrySize, t.memory.mem (dst + k) = rootBuffer s.memory.mem k)) := by
  obtain ⟨m', hcopy, h⟩ := bind_eq_ok.mp h
  cases h
  refine ⟨rfl, fun hpos => ?_⟩
  unfold copyOut at hcopy
  rw [if_neg (Nat.mul_ne_zero (Nat.ne_of_gt hpos) (by decide))] at hcopy
  obtain ⟨dst, hdst, hcopy⟩ := bind_eq_ok.mp hcopy
  cases hcopy
  refine ⟨dst, hdst, fun hout k hk => ?_⟩
  simp only [Kernel.setMem, memcpy_eq_copy hout]
  simp [Mem.copy, rootBuffer, hk]

end ArmOs
