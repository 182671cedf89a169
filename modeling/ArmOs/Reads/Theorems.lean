import ArmOs.Reads.Lemmas.Kernel

/-!
# Sequential reads

However the processes take turns after the start, the reads through one table entry give the bytes of its file one after
the other, from the time it was opened.
-/

namespace ArmOs

open Lib

variable {L : Layout} {m : Mem} {s t : Kernel} {volume d f : Nat} {xs : List Cluster} {ls : List Turn} {l : Turn}
  {bs : List UInt8}

/-! ## Along a run -/

/-- The bytes `bs` have been read through the entry `d` since it was opened: the file up to the position. -/
structure ReadUpTo (m : Mem) (f d : Nat) (xs : List Cluster) (bs : List UInt8) (t : Kernel) : Prop where
  position : (t.fs.fileDescTable d).position = bs.length
  within : (t.fs.fileDescTable d).position ≤ DirEntry.fileSize m f
  data : bs = (fileBytes m xs).take (t.fs.fileDescTable d).position

theorem ReadUpTo.read {call : ReadCall} {n : Nat} {data : List UInt8} (hfiles : FilesOf m volume s)
    (hw : WellFormed m volume) (hf : IsFile m volume f xs) (hopen : (s.fs.fileDescTable d).fcb = some f)
    (h : ReadUpTo m f d xs bs s) (hstep : Turn.Step volume s (.read call d n data) t) :
    ReadUpTo m f d xs (Turn.since d bs (.read call d n data)) t := by
  obtain ⟨rfl, rfl⟩ | ⟨hle, hn, hdata, m', rfl, -⟩ := Turn.read_inv hfiles hw hopen hf hstep
  · have hsince : Turn.since d bs (.read call d 0xffffffff data) = bs := if_neg fun hd => hd.2 rfl
    rwa [hsince]
  · have hsince : Turn.since d bs (.read call d n data) = bs ++ slice m xs (s.fs.fileDescTable d).position n :=
      (if_pos ⟨rfl, hn⟩).trans (by rw [hdata])
    have hlt := hf.size_lt (hfiles.cached f (.inr ⟨d, hopen⟩)).1.1
    have hposition : ((s.advance d n m').fs.fileDescTable d).position = (s.fs.fileDescTable d).position + n := by
      rw [advance_position, Nat.mod_eq_of_lt (by omega)]
    rw [hsince]
    refine ⟨?_, by rw [hposition]; exact hle, ?_⟩
    · rw [hposition, List.length_append, hf.slice_length hle, h.position]
    · rw [hposition, List.take_add, ← h.data]
      rfl

/-- What holds after the turns `ls`: an entry that was opened in them and is open on `f` has been read up to its
position. -/
structure ReadsInv (m : Mem) (volume d : Nat) (ls : List Turn) (t : Kernel) : Prop where
  files : FilesOf m volume t
  read : ∀ f xs, (∃ p path, Turn.openFile p path (some d) ∈ ls) → (t.fs.fileDescTable d).fcb = some f →
    IsFile m volume f xs → ReadUpTo m f d xs (ls.foldl (Turn.since d) []) t

theorem ReadsInv.step (hw : WellFormed m volume) (h : ReadsInv m volume d ls s) (hstep : Turn.Step volume s l t) :
    ReadsInv m volume d (ls ++ [l]) t := by
  refine ⟨hstep.filesOf h.files hw, fun f xs hopened hopen hf => ?_⟩
  rw [List.foldl_append, List.foldl_cons, List.foldl_nil]
  by_cases hnew : ∃ p path, l = .openFile p path (some d)
  · -- a new life of the entry
    obtain ⟨p, path, rfl⟩ := hnew
    obtain ⟨-, hnone⟩ | ⟨slot, d', i, -, -, rfl, hd⟩ := Turn.openFile_inv hstep
    · cases hnone
    · cases hd
      have hsince : Turn.since d (ls.foldl (Turn.since d) []) (.openFile p path (some d)) = [] := if_pos rfl
      rw [hsince]
      have hposition := opened_position s p slot d i
      exact ⟨hposition, by rw [hposition]; exact Nat.zero_le _, by rw [hposition, List.take_zero]⟩
  · have hopened' : ∃ p path, Turn.openFile p path (some d) ∈ ls := by
      obtain ⟨p, path, hmem⟩ := hopened
      rcases List.mem_append.mp hmem with hmem | hmem
      · exact ⟨p, path, hmem⟩
      · exact absurd ⟨p, path, (List.mem_singleton.mp hmem).symm⟩ hnew
    by_cases hread : ∃ call n data, l = .read call d n data
    · obtain ⟨call, n, data, rfl⟩ := hread
      obtain ⟨f', xs', hopen', hf'⟩ := Turn.read_file h.files hw hstep
      have hsame : (t.fs.fileDescTable d).fcb = (s.fs.fileDescTable d).fcb := by
        obtain ⟨-, rfl⟩ | ⟨-, -, -, m', rfl, -⟩ := Turn.read_inv h.files hw hopen' hf' hstep
        · rfl
        · rw [advance_fcb]
      rw [hsame] at hopen
      exact (h.read f xs hopened' hopen hf).read h.files hw hf hopen hstep
    · obtain ⟨hopen', hposition, hsince⟩ := hstep.desc_eq h.files hw hopen
        (fun call n data he => hread ⟨call, n, data, he⟩) fun p path he => hnew ⟨p, path, he⟩
      obtain ⟨hlen, hwithin, hdata⟩ := h.read f xs hopened' hopen' hf
      rw [hsince]
      exact ⟨by rw [hposition, hlen], by rw [hposition]; exact hwithin, by rw [hposition]; exact hdata⟩

/-- An entry that is open at the end only has been opened. -/
theorem Turn.opened_of_open (hfiles : FilesOf m volume s) (hw : WellFormed m volume)
    (hrun : Run (Turn.Step volume) s ls t) (hfree : (s.fs.fileDescTable d).fcb = none)
    (hopen : (t.fs.fileDescTable d).fcb = some f) : ∃ p path, Turn.openFile p path (some d) ∈ ls := by
  by_contra hnot
  have key : FilesOf m volume t ∧ ((∃ p path, Turn.openFile p path (some d) ∈ ls) ∨
      (t.fs.fileDescTable d).fcb = none) := by
    refine hrun.history (I := fun ls u => FilesOf m volume u ∧ ((∃ p path, Turn.openFile p path (some d) ∈ ls) ∨
      (u.fs.fileDescTable d).fcb = none)) ⟨hfiles, .inr hfree⟩ ?_
    rintro hs a l b ⟨hfa, ha⟩ hstep
    refine ⟨hstep.filesOf hfa hw, ?_⟩
    rcases ha with ⟨p, path, hmem⟩ | hnone
    · exact .inl ⟨p, path, List.mem_append_left _ hmem⟩
    · by_cases hnew : ∃ p path, l = .openFile p path (some d)
      · obtain ⟨p, path, rfl⟩ := hnew
        exact .inl ⟨p, path, List.mem_append_right _ (List.mem_singleton_self _)⟩
      · refine .inr (Option.eq_none_iff_forall_ne_some.mpr fun f hf => ?_)
        have hread : ∀ call n data, l ≠ .read call d n data := by
          rintro call n data rfl
          obtain ⟨f', -, hopen', -⟩ := Turn.read_file hfa hw hstep
          rw [hnone] at hopen'
          cases hopen'
        obtain ⟨hf', -, -⟩ := hstep.desc_eq hfa hw hf hread fun p path he => hnew ⟨p, path, he⟩
        rw [hnone] at hf'
        cases hf'
  rcases key.2 with hopened | hnone
  · exact hnot hopened
  · rw [hnone] at hopen
    cases hopen

/-- After any turns that follow the start: what the successful reads through an entry have returned since it was opened
is the file up to the position of the entry. The next read is refused without any change, if it would pass the end of the
file, or else it returns the bytes that follow, and no other entry changes. -/
theorem sequential_reads (hboot : boot L m = .ok s) (hfits : InitFits m) (hw : WellFormed m volume)
    (hrun : Run (Turn.Step volume) s ls t) (hopened : ∃ p path, Turn.openFile p path (some d) ∈ ls)
    (hopen : (t.fs.fileDescTable d).fcb = some f) :
    ∃ xs, IsFile m volume f xs ∧
      (t.fs.fileDescTable d).position = (ls.foldl (Turn.since d) []).length ∧
      (t.fs.fileDescTable d).position ≤ DirEntry.fileSize m f ∧
      ls.foldl (Turn.since d) [] = (fileBytes m xs).take (t.fs.fileDescTable d).position ∧
      ∀ (call : ReadCall) (dst : Nat), call.Allowed volume t d f dst →
        if DirEntry.fileSize m f < (t.fs.fileDescTable d).position + call.size then
          readFile call.process call.fd call.buffer call.size t = .ok (0xffffffff, t)
        else
          ∃ u, readFile call.process call.fd call.buffer call.size t = .ok (call.size, u) ∧
            u.memory.mem.bytes dst call.size = slice m xs (t.fs.fileDescTable d).position call.size ∧
            SameOutside t.memory.mem u.memory.mem dst call.size ∧
            ∀ d', d' ≠ d → u.fs.fileDescTable d' = t.fs.fileDescTable d' := by
  have hinv : ReadsInv m volume d ls t :=
    hrun.history (I := ReadsInv m volume d) ⟨boot_filesOf hboot hfits hw, fun f xs hnone => by simp at hnone⟩
      fun _ _ _ _ h hstep => h.step hw hstep
  obtain ⟨xs, hf⟩ := hw.files f (hinv.files.cached f (.inr ⟨d, hopen⟩)).1
  obtain ⟨hposition, hwithin, hdata⟩ := hinv.read f xs hopened hopen hf
  refine ⟨xs, hf, hposition, hwithin, hdata, fun call dst hc => ?_⟩
  split
  · exact hinv.files.read_refused hc ‹_›
  · have hle := Nat.le_of_not_lt ‹_›
    have hlen := hf.slice_length hle
    refine ⟨_, hinv.files.read_fits hf hw hc hle, ?_, .put (o := 0) ?_, fun d' hd => advance_of_ne hd⟩
    · have hbytes := Mem.bytes_put t.memory.mem dst (slice m xs (t.fs.fileDescTable d).position call.size)
      rwa [hlen] at hbytes
    · rw [slice] at hlen
      omega

/-- The first process opens its file, forks and reads two bytes. The child reads the other two through the slot that it
got. -/
def readEvents : List Event :=
  [.timer false, .svc (.openFile initBin), .svc .fork, .svc (.readFile 0 userBase 2), .timer false,
    .svc (.readFile 0 userBase 2)]

theorem sequential_reads_small : ∃ s ls t ks, boot smallLayout smallMem = .ok s ∧ Run (Step smallLayout) s ls t ∧
    ls.map Label.event = readEvents ∧ (t.proc t.current).pid = 2 ∧ t.slot (t.current, firstFd) = some 1 ∧
    Run (Turn.Step 4096) s ks t ∧
    ∃ xs, IsFile smallMem 4096 0 xs ∧ ks.foldl (Turn.since 1) [] = (fileBytes smallMem xs).take 4 := by
  obtain ⟨s, ls, t, hboot, hrun, hevents, hpid, hslot, hfcb, hposition⟩ := smallGuarded_run (P := ReadsInPage)
    (Q := fun t => (t.proc t.current).pid = 2 ∧ t.slot (t.current, firstFd) = some 1 ∧
      (t.fs.fileDescTable 1).fcb = some 0 ∧ (t.fs.fileDescTable 1).position = 4)
    (show (smallGuarded ReadsInPage readEvents).map _ = some true by decide +kernel)
  obtain ⟨ks, hks⟩ := boot_turns hboot smallMem_fits smallMem_wellFormed hrun
  have hopened := Turn.opened_of_open (boot_filesOf hboot smallMem_fits smallMem_wellFormed) smallMem_wellFormed hks
    ((boot_files hboot).desc 1 (by decide)) hfcb
  obtain ⟨xs, hf, -, -, hdata, -⟩ := sequential_reads hboot smallMem_fits smallMem_wellFormed hks hopened hfcb
  rw [hposition] at hdata
  exact ⟨s, ls, t, ks, hboot, hrun.mono fun _ _ _ h => h.2, hevents, hpid, hslot, hks, xs, hf, hdata⟩

end ArmOs
