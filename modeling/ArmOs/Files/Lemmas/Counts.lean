import ArmOs.Files.Lemmas.Effects

/-!
# How the reference counts and the references change

For each of the four changes of the file tables: the number of slots that point to an entry of
`file_desc_table`, the number of slots that reach a file, and the two counts.
-/

namespace ArmOs

open Lib

theorem int32_of_mem {x : Int} (h : -2 ^ 31 ≤ x) (h' : x < 2 ^ 31) : int32 x = x := by
  simp only [int32]
  omega

/-- The number of slots that point to the entry `d` of `file_desc_table`. -/
def descRefs (s : Kernel) (d : Nat) : Nat := refs s.slot fun k => k = d

/-- Does the entry refer to the file `i`? -/
def Fs.reaches (fs : Fs) (i : Nat) (d : Nat) : Bool := (fs.fileDescTable d).fcb = some i

/-- The number of slots that reach the entry `i` of `fcb_table`. -/
def fcbRefs (s : Kernel) (i : Nat) : Nat := refs s.slot (s.fs.reaches i)

theorem card_slot : Fintype.card Slot = 1000 := by
  rw [Fintype.card_prod, Fintype.card_fin, Fintype.card_fin]
  rfl

theorem descRefs_le (s : Kernel) (d : Nat) : descRefs s d ≤ 1000 := card_slot ▸ refs_le_card _ _

theorem fcbRefs_le (s : Kernel) (i : Nat) : fcbRefs s i ≤ 1000 := card_slot ▸ refs_le_card _ _

/-! ## The loop of `fork` -/

/-- The tables after the loop over the slots `file` of which `n` point to an entry with the property. -/
structure CountedUp (file : Fin numFile → Option Nat) (xs : List (Fin numFile)) (fs fs' : Fs) : Prop where
  desc : ∀ d, fs'.fileDescTable d = { fs.fileDescTable d with count := (fs'.fileDescTable d).count }
  fcb : ∀ i, fs'.fcbTable i = { fs.fcbTable i with count := (fs'.fcbTable i).count }
  descCount : ∀ d, 0 ≤ (fs.fileDescTable d).count →
    (fs.fileDescTable d).count + xs.countP (fun x => (file x).any fun k => k = d) < 2 ^ 31 →
    (fs'.fileDescTable d).count =
      (fs.fileDescTable d).count + xs.countP fun x => (file x).any fun k => k = d
  fcbCount : ∀ i, 0 ≤ (fs.fcbTable i).count →
    (fs.fcbTable i).count + xs.countP (fun x => (file x).any (fs.reaches i)) < 2 ^ 31 →
    (fs'.fcbTable i).count = (fs.fcbTable i).count + xs.countP fun x => (file x).any (fs.reaches i)

theorem countSlot_some {d : Nat} {fs fs' : Fs} (h : countSlot (some d) fs = .ok fs') :
    ∃ i, (fs.fileDescTable d).fcb = some i ∧
      fs'.fileDescTable = Function.update fs.fileDescTable d
        { fs.fileDescTable d with count := int32 ((fs.fileDescTable d).count + 1) } ∧
      fs'.fcbTable = Function.update fs.fcbTable i
        { fs.fcbTable i with count := int32 ((fs.fcbTable i).count + 1) } := by
  obtain ⟨i, hi, h⟩ := bind_eq_ok.mp h
  cases h
  exact ⟨i, deref_eq_ok.mp hi, rfl, rfl⟩

theorem foldl_countSlot (file : Fin numFile → Option Nat) (xs : List (Fin numFile)) :
    ∀ {fs fs' : Fs}, xs.foldlM (fun fs x => countSlot (file x) fs) fs = .ok fs' →
      CountedUp file xs fs fs' := by
  induction xs with
  | nil =>
      intro fs fs' h
      cases h
      exact ⟨fun _ => rfl, fun _ => rfl, fun _ _ _ => by simp, fun _ _ _ => by simp⟩
  | cons x xs ih =>
      intro fs fs' h
      rw [List.foldlM_cons] at h
      obtain ⟨fs₁, h₁, h⟩ := bind_eq_ok.mp h
      have hih := ih h
      cases hx : file x with
      | none =>
          rw [hx] at h₁
          cases h₁
          refine ⟨hih.desc, hih.fcb, fun d h₀ hlt => ?_, fun i h₀ hlt => ?_⟩
          · simp only [List.countP_cons, hx, Option.any_none, Bool.false_eq_true, if_false, add_zero] at hlt ⊢
            exact hih.descCount d h₀ hlt
          · simp only [List.countP_cons, hx, Option.any_none, Bool.false_eq_true, if_false, add_zero] at hlt ⊢
            exact hih.fcbCount i h₀ hlt
      | some k =>
          rw [hx] at h₁
          obtain ⟨i₀, hk, hdesc, hfcb⟩ := countSlot_some h₁
          have hfcb_eq : ∀ d, (fs₁.fileDescTable d).fcb = (fs.fileDescTable d).fcb := by
            intro d
            rw [hdesc]
            by_cases hd : d = k
            · subst hd; simp
            · simp [hd]
          have hreach : fs₁.reaches = fs.reaches := by
            funext i d
            simp [Fs.reaches, hfcb_eq]
          refine ⟨fun d => ?_, fun i => ?_, fun d h₀ hlt => ?_, fun i h₀ hlt => ?_⟩
          · rw [hih.desc, hdesc]
            by_cases hd : d = k
            · subst hd; simp
            · simp [hd]
          · rw [hih.fcb, hfcb]
            by_cases hi : i = i₀
            · subst hi; simp
            · simp [hi]
          · simp only [List.countP_cons, hx, Option.any_some] at hlt ⊢
            by_cases hd : d = k
            · subst hd
              have hc : (fs₁.fileDescTable d).count = (fs.fileDescTable d).count + 1 := by
                rw [hdesc, Function.update_self]
                simp only [decide_true, if_true] at hlt
                exact int32_of_mem (by omega) (by omega)
              simp only [decide_true, if_true] at hlt ⊢
              have := hih.descCount d (by omega) (by omega)
              omega
            · have hc : (fs₁.fileDescTable d).count = (fs.fileDescTable d).count := by
                rw [hdesc, Function.update_of_ne hd]
              have hkd : ¬k = d := fun h => hd h.symm
              simp only [hkd, decide_false, Bool.false_eq_true, if_false, add_zero] at hlt ⊢
              rw [← hc] at h₀ hlt ⊢
              exact hih.descCount d h₀ hlt
          · simp only [List.countP_cons, hx, Option.any_some] at hlt ⊢
            have hiff : fs.reaches i k = true ↔ i = i₀ := by
              rw [Fs.reaches, hk, decide_eq_true_eq, Option.some.injEq, eq_comm]
            have hcount := hih.fcbCount i
            rw [hreach] at hcount
            by_cases hi : i = i₀
            · have hc : (fs₁.fcbTable i).count = (fs.fcbTable i).count + 1 := by
                rw [if_pos (hiff.mpr hi)] at hlt
                subst hi
                rw [hfcb, Function.update_self]
                exact int32_of_mem (by omega) (by omega)
              rw [if_pos (hiff.mpr hi)] at hlt ⊢
              have := hcount (by omega) (by omega)
              omega
            · have hc : (fs₁.fcbTable i).count = (fs.fcbTable i).count := by
                rw [hfcb, Function.update_of_ne hi]
              rw [if_neg (hi ∘ hiff.mp)] at hlt ⊢
              rw [← hc] at h₀ hlt ⊢
              simpa using hcount h₀ (by simpa using hlt)

/-- An entry that no slot points to is left alone. -/
theorem countSlots_other {file : Fin numFile → Option Nat} {fs fs' : Fs} {d : Nat} (hd : ∀ x, file x ≠ some d)
    (h : countSlots file fs = .ok fs') : fs'.fileDescTable d = fs.fileDescTable d := by
  refine foldlM_keeps (P := fun g => g.fileDescTable d = fs.fileDescTable d) ?_ h rfl
  intro g x g' hg hstep
  cases hx : file x with
  | none =>
      rw [hx] at hstep
      cases hstep
      exact hg
  | some k =>
      rw [hx] at hstep
      obtain ⟨i, -, hdesc, -⟩ := countSlot_some hstep
      have hne : d ≠ k := by
        intro he
        exact hd x (he ▸ hx)
      rw [hdesc, Function.update_of_ne hne, hg]


theorem countSlots_ok {file : Fin numFile → Option Nat} {fs fs' : Fs} (h : countSlots file fs = .ok fs') :
    CountedUp file (List.finRange numFile) fs fs' := foldl_countSlot file _ h

/-! ## The references -/

variable {L : Layout} {s t : Kernel} {p : Proc} {fd : Fin numFile} {d i : Nat}

theorem SameFiles.slot_eq (h : SameFiles s t) : t.slot = s.slot := funext h.slot

theorem SameFiles.reaches_eq (h : SameFiles s t) : t.fs.reaches = s.fs.reaches := by
  funext i d
  simp [Fs.reaches, h.fcb]

theorem update_slot {o : Option Nat} (hfile : (t.proc p).file = Function.update (s.proc p).file fd o)
    (hothers : ∀ p', p' ≠ p → (t.proc p').file = (s.proc p').file) :
    t.slot = Function.update s.slot (p, fd) o := by
  funext ⟨p', fd'⟩
  simp only [Kernel.slot]
  by_cases hp : p' = p
  · subst hp
    rw [hfile]
    by_cases hfd : fd' = fd
    · subst hfd; simp
    · have : (p', fd') ≠ (p', fd) := fun h => hfd (Prod.ext_iff.mp h).2
      simp [hfd, this, Kernel.slot]
  · have : (p', fd') ≠ (p, fd) := fun h => hp (Prod.ext_iff.mp h).1
    rw [hothers p' hp]
    simp [this, Kernel.slot]

namespace Opened

theorem slot_eq (h : Opened s t p fd d i) : t.slot = Function.update s.slot (p, fd) (some d) :=
  update_slot h.file h.others

theorem refs_eq (h : Opened s t p fd d i) (P : Nat → Bool) :
    refs t.slot P = refs s.slot P + if P d then 1 else 0 := by
  have := refs_update s.slot (p, fd) (some d) P
  rw [← h.slot_eq] at this
  have hnone : s.slot (p, fd) = none := h.slotFree
  simpa [hnone] using this

theorem fcb (h : Opened s t p fd d i) (d' : Nat) :
    (t.fs.fileDescTable d').fcb = if d' = d then some i else (s.fs.fileDescTable d').fcb := by
  rw [h.desc]
  by_cases hd : d' = d <;> simp [hd]

/-- The files reached, when no slot pointed to the entry that was free. -/
theorem fcbRefs_eq (h : Opened s t p fd d i) (hdesc : ∀ x, s.slot x ≠ some d) (i' : Nat) :
    fcbRefs t i' = fcbRefs s i' + if i' = i then 1 else 0 := by
  rw [fcbRefs, h.refs_eq, fcbRefs]
  congr 1
  · refine refs_congr fun x k hx => ?_
    have hk : k ≠ d := by rintro rfl; exact hdesc x hx
    simp [Fs.reaches, h.fcb, hk]
  · have hd : (t.fs.fileDescTable d).fcb = some i := by rw [h.fcb, if_pos rfl]
    by_cases hi : i' = i
    · subst hi; simp [Fs.reaches, hd]
    · simp [Fs.reaches, hd, hi, Ne.symm hi]

theorem fcbCount (h : Opened s t p fd d i) (i' : Nat) : (t.fs.fcbTable i').count =
    if i' = i then int32 ((s.fs.fcbTable i).count + 1) else (s.fs.fcbTable i').count := by
  rw [h.fcbTable]
  by_cases hi : i' = i
  · subst hi
    simp only [getFcb, Fs.setFcb, Function.update_self, if_true]
    split <;> rfl
  · simp [getFcb, Fs.setFcb, hi]

end Opened

namespace Closed

theorem slot_eq (h : Closed s t p fd d i) : t.slot = Function.update s.slot (p, fd) none :=
  update_slot h.file h.others

theorem refs_eq (h : Closed s t p fd d i) (P : Nat → Bool) :
    refs s.slot P = refs t.slot P + if P d then 1 else 0 := by
  have := refs_update s.slot (p, fd) none P
  rw [← h.slot_eq] at this
  have hsome : s.slot (p, fd) = some d := h.slot
  simp only [hsome, holds_some, holds_none, add_zero] at this
  exact this.symm

/-- The entry is freed only if its count is 0. -/
theorem desc_eq (h : Closed s t p fd d i) (hd : (s.fs.fileDescTable d).count ≠ 0) :
    t.fs.fileDescTable = s.fs.fileDescTable := by rw [h.desc, if_neg hd]

theorem desc_ne (h : Closed s t p fd d i) {d' : Nat} (hd : d' ≠ d) :
    t.fs.fileDescTable d' = s.fs.fileDescTable d' := by
  rw [h.desc]
  split
  · exact Function.update_of_ne hd _ _
  · rfl

/-- The entry is freed only if its count is 0; then it matters if other slots point to it. -/
theorem fcb_eq (h : Closed s t p fd d i)
    (hd : (s.fs.fileDescTable d).count ≠ 0 ∨ ∀ x, x ≠ (p, fd) → s.slot x ≠ some d) {x : Slot} {k : Nat}
    (hx : t.slot x = some k) : (t.fs.fileDescTable k).fcb = (s.fs.fileDescTable k).fcb := by
  rcases hd with hd | hd
  · rw [h.desc_eq hd]
  · have hxs : x ≠ (p, fd) := by
      rintro rfl
      rw [h.slot_eq, Function.update_self] at hx
      cases hx
    rw [h.slot_eq, Function.update_of_ne hxs] at hx
    have hk : k ≠ d := by
      rintro rfl
      exact hd x hxs hx
    rw [h.desc_ne hk]

theorem fcbRefs_eq (h : Closed s t p fd d i)
    (hd : (s.fs.fileDescTable d).count ≠ 0 ∨ ∀ x, x ≠ (p, fd) → s.slot x ≠ some d) (i' : Nat) :
    fcbRefs s i' = fcbRefs t i' + if i' = i then 1 else 0 := by
  have hreach : refs t.slot (t.fs.reaches i') = refs t.slot (s.fs.reaches i') :=
    refs_congr fun x k hx => by simp only [Fs.reaches, h.fcb_eq hd hx]
  rw [fcbRefs, h.refs_eq, fcbRefs, hreach]
  by_cases hi : i' = i
  · subst hi; simp [Fs.reaches, h.fcb]
  · simp [Fs.reaches, h.fcb, hi, Ne.symm hi]

theorem fcbCount (h : Closed s t p fd d i) (i' : Nat) : (t.fs.fcbTable i').count =
    if i' = i then int32 ((s.fs.fcbTable i).count - 1) else (s.fs.fcbTable i').count := by
  rw [h.fcbTable]
  by_cases hi : i' = i <;> simp [hi]

end Closed

/-- The slots of a process that is not in use are `NULL`. -/
def UnusedEmpty (s : Kernel) : Prop := ∀ p, ¬s.Live p → ∀ fd, (s.proc p).file fd = none

namespace Forked

variable {j : Proc}

theorem refs_eq (h : Forked s t j) (hu : UnusedEmpty s) (P : Nat → Bool) :
    refs t.slot P = refs s.slot P + refs (s.proc s.current).file P := by
  have hrow := refs_row (f := s.slot) (g := t.slot) (a := j)
    (fun p hp fd => congrFun (congrArg Process.file (h.others p hp)) fd) P
  have hnone : (fun fd => s.slot (j, fd)) = fun _ => none :=
    funext fun fd => hu j (not_not.mpr h.unused) fd
  have hchild : (fun fd => t.slot (j, fd)) = (s.proc s.current).file := h.file
  rwa [hnone, refs_none, add_zero, hchild] at hrow

theorem countedUp (h : Forked s t j) :
    CountedUp (s.proc s.current).file (List.finRange numFile) s.fs t.fs := countSlots_ok h.fs

theorem reaches_eq (h : Forked s t j) : t.fs.reaches = s.fs.reaches := by
  funext i d
  simp only [Fs.reaches]
  rw [h.countedUp.desc]

theorem descCount (h : Forked s t j) (d : Nat) (h₀ : 0 ≤ (s.fs.fileDescTable d).count)
    (hlt : (s.fs.fileDescTable d).count + refs (s.proc s.current).file (fun k => k = d) < 2 ^ 31) :
    (t.fs.fileDescTable d).count =
      (s.fs.fileDescTable d).count + refs (s.proc s.current).file fun k => k = d := by
  rw [← countP_finRange] at hlt ⊢
  exact h.countedUp.descCount d h₀ hlt

theorem fcbCount (h : Forked s t j) (i : Nat) (h₀ : 0 ≤ (s.fs.fcbTable i).count)
    (hlt : (s.fs.fcbTable i).count + refs (s.proc s.current).file (s.fs.reaches i) < 2 ^ 31) :
    (t.fs.fcbTable i).count = (s.fs.fcbTable i).count + refs (s.proc s.current).file (s.fs.reaches i) := by
  rw [← countP_finRange] at hlt ⊢
  exact h.countedUp.fcbCount i h₀ hlt

end Forked

section

variable {q : ListId → List Proc} {lost : Set Proc} {pid : Int} {x : Proc} {ys zs : List Proc}

theorem Reaped.refs_eq (h : Reaped L s t q lost pid x ys zs) (P : Nat → Bool) :
    refs s.slot P = refs t.slot P + refs (s.proc x).file P := by
  have hrow := refs_row (f := s.slot) (g := t.slot) (a := x)
    (fun p hp fd => congrFun (congrArg Process.file (h.others p hp)) fd) P
  have hnone : (fun fd => t.slot (x, fd)) = fun _ => none := by
    funext fd
    simp only [Kernel.slot, h.zero]
    rfl
  rw [hnone, refs_none] at hrow
  exact hrow.symm

end

/-! ## Processes not in use hold no slots -/

theorem FileEffect.unusedEmpty {o : Kernel} {ev : Event} (he : FileEffect L o ev s t)
    (hcur : s.Live s.current) (h : UnusedEmpty s) : UnusedEmpty t := by
  intro p hp fd
  cases he with
  | same hs =>
      rw [hs.file]
      exact h p (fun hl => hp ((hs.live p).mpr hl)) fd
  | opened ho hev hop =>
      have hp' : ¬s.Live p := fun hl => hp ((hop.live p).mpr hl)
      rw [hop.others p (by rintro rfl; exact hp' hcur)]
      exact h p hp' fd
  | closed hev hcl =>
      have hp' : ¬s.Live p := fun hl => hp ((hcl.live p).mpr hl)
      rw [hcl.others p (by rintro rfl; exact hp' hcur)]
      exact h p hp' fd
  | @forked j ho hev hf =>
      have hpj : p ≠ j := by
        rintro rfl
        exact hp (by simp [Kernel.Live, hf.state])
      rw [hf.others p hpj]
      exact h p (fun hl => hp ((hf.live hpj).mpr hl)) fd
  | @reaped q lost pid x ys zs hat hfind hr =>
      by_cases hpx : p = x
      · subst hpx
        rw [hr.zero]
        rfl
      · rw [Kernel.Live, hr.others p hpx] at hp
        rw [hr.others p hpx]
        exact h p hp fd

end ArmOs
