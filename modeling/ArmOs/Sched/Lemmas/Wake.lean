import ArmOs.Kernel.Process
import ArmOs.Sched.Lemmas.Queues

/-!
# `wake_up` on two lists

What `wake_up` does to `ready_list` and `wait_list` when all that is known of them is that they are lists and have no
process in common.
-/

namespace ArmOs

open Lib

variable {s t u : Kernel} {rs ys zs : List Proc} {w : Int}

/-- What waking the processes among `zs` with the event value `w` does; `rs` are ready, and those of `ys` stay. -/
structure Partitioned (s t : Kernel) (w : Int) (rs ys zs : List Proc) : Prop where
  ready : Represents t.processTable t.pc.readyList (rs ++ zs.filter fun i => (s.proc i).wait = w)
  wait : Represents t.processTable t.pc.waitList (ys ++ zs.filter fun i => (s.proc i).wait ≠ w)
  woken : ∀ i ∈ zs, (s.proc i).wait = w → t.proc i = { s.proc i with state := .ready, next := (t.proc i).next }
  others : ∀ i, ¬(i ∈ zs ∧ (s.proc i).wait = w) → t.proc i = { s.proc i with next := (t.proc i).next }
  unlisted : ∀ i, i ∉ rs → i ∉ ys → i ∉ zs → t.proc i = s.proc i
  rest : t = { s with
    processTable := t.processTable
    pc := { s.pc with readyList := t.pc.readyList, waitList := t.pc.waitList }
    trace := s.trace ++ (zs.filter fun i => (s.proc i).wait = w).map (.append .ready) }

/-- The first match moves from `wait_list` to the end of `ready_list`. -/
structure Moved (s t : Kernel) (rs ys zs : List Proc) (z : Proc) : Prop where
  ready : Represents t.processTable t.pc.readyList (rs ++ [z])
  wait : Represents t.processTable t.pc.waitList (ys ++ zs)
  moved : t.proc z = { s.proc z with state := .ready, next := (t.proc z).next }
  others : ∀ i, i ≠ z → t.proc i = { s.proc i with next := (t.proc i).next }
  unlisted : ∀ i, i ∉ rs → i ∉ ys → i ≠ z → t.proc i = s.proc i
  rest : t = { s with
    processTable := t.processTable
    pc := { s.pc with readyList := t.pc.readyList, waitList := t.pc.waitList }
    trace := s.trace ++ [.append .ready z] }

theorem Moved.wait_eq {z : Proc} (h : Moved s t rs ys zs z) (i : Proc) : (t.proc i).wait = (s.proc i).wait := by
  by_cases hi : i = z
  · rw [hi, h.moved]
  · rw [h.others i hi]

/-- `remove_list` and the round of the loop for what it returns. -/
theorem removeWait_moves {z : Proc} (hready : Represents s.processTable s.pc.readyList rs)
    (hwait : Represents s.processTable s.pc.waitList (ys ++ z :: zs)) (hdisjoint : rs.Disjoint (ys ++ z :: zs))
    (hys : ∀ y ∈ ys, (s.proc y).wait ≠ w) (hz : (s.proc z).wait = w) :
    ∃ s₁ t, s.removeWait .wait w = .ok (.item z, s₁) ∧
      (s₁.setProc z { s₁.proc z with state := .ready }).appendTail .ready z = .ok t ∧ Moved s t rs ys zs z := by
  have hnodup := hwait.nodup
  have hlen : ys.length < listFuel := by
    have hcard := hnodup.length_le_card
    rw [Fintype.card_fin, List.length_append, List.length_cons] at hcard
    rw [listFuel]
    omega
  obtain ⟨hdys, hdz, hdzs⟩ : rs.Disjoint ys ∧ z ∉ rs ∧ rs.Disjoint zs := by
    simpa [List.disjoint_append_right, List.disjoint_cons_right] using hdisjoint
  obtain ⟨hnys, hnzs, hyz⟩ := List.nodup_append.mp hnodup
  obtain ⟨hzzs, -⟩ := List.nodup_cons.mp hnzs
  have hzys : z ∉ ys := fun h => hyz z h z List.mem_cons_self rfl
  obtain ⟨⟨item, table₁, waitList⟩, hremove, hremoved⟩ := removeList_match hwait hys hz hlen
  obtain rfl : item = .item z := hremoved.found
  -- the state of `z` is stored in the table that `remove_list` leaves
  have hframe₁ : ∀ j, j ∉ ys → table₁ j = s.processTable j := hremoved.frame
  have hlinks₁ : SameButNext s.processTable table₁ := hremoved.sameButNext
  have hz₁ := hframe₁ z hzys
  have hready₂ : Represents (Function.update table₁ z { table₁ z with state := .ready }) s.pc.readyList rs := by
    refine hready.congr fun i hi => ?_
    have hiz : i ≠ z := by
      rintro rfl
      exact hdz hi
    rw [Function.update_of_ne hiz, hframe₁ i (hdys hi)]
  obtain ⟨table₂, readyList, happend, hready₃, hlinks, hframe⟩ := appendListTail_spec hready₂ hdz
  have hself : table₂ z = { s.processTable z with state := .ready, next := (table₂ z).next } := by
    rw [hlinks z, Function.update_self, hz₁]
  have hne : ∀ i, i ≠ z → table₂ i = { s.processTable i with next := (table₂ i).next } := fun i hi => by
    have hnext := hlinks i
    rw [Function.update_of_ne hi, hlinks₁ i] at hnext
    exact hnext
  refine ⟨{ s with processTable := table₁, pc := s.pc.setList .wait waitList },
    { s with
      processTable := table₂
      pc := { s.pc with readyList := readyList, waitList := waitList }
      trace := s.trace ++ [.append .ready z] }, ?_, ?_, ⟨hready₃, ?_, hself, hne, ?_, rfl⟩⟩
  · rw [Kernel.removeWait, show s.pc.list .wait = s.pc.waitList from rfl, hremove]
    rfl
  · rw [Kernel.appendTail]
    exact congrArg (· >>= _) happend
  · refine hremoved.represents.congr fun i hi => ?_
    have hiz : i ≠ z := by
      rintro rfl
      exact (List.mem_append.mp hi).elim hzys hzzs
    have hirs : i ∉ rs := fun h => (List.mem_append.mp hi).elim (hdys h) (hdzs h)
    have hkeep : table₂ i = table₁ i := by rw [hframe i hirs hiz, Function.update_of_ne hiz]
    exact congrArg Process.next hkeep
  · intro i hrs hiys hiz
    show table₂ i = _
    rw [hframe i hrs hiz, Function.update_of_ne hiz, hframe₁ i hiys]

/-- One `remove_list` and the rounds of the loop after it. -/
theorem wakeUpLoop_partitions (zs : List Proc) :
    ∀ (fuel : Nat) (s : Kernel) (rs ys : List Proc), Represents s.processTable s.pc.readyList rs →
      Represents s.processTable s.pc.waitList (ys ++ zs) → rs.Disjoint (ys ++ zs) →
      (∀ y ∈ ys, (s.proc y).wait ≠ w) → zs.length < fuel →
      ∃ t, (s.removeWait .wait w >>= fun r => wakeUpLoop w fuel r.1 r.2) = .ok t ∧ Partitioned s t w rs ys zs := by
  induction zs with
  | nil =>
      intro fuel s rs ys hready hwait _ hys hfuel
      obtain ⟨fuel, rfl⟩ := Nat.exists_eq_add_one_of_ne_zero (Nat.ne_of_gt hfuel)
      have hlen : (ys ++ []).length < listFuel := by
        have hcard := hwait.nodup.length_le_card
        rw [Fintype.card_fin] at hcard
        exact Nat.lt_succ_of_le hcard
      have hnone : s.removeWait .wait w = .ok (.null, s) := by
        rw [Kernel.removeWait, show s.pc.list .wait = s.pc.waitList from rfl,
          removeList_none hwait (by simpa using hys) hlen]
        rfl
      refine ⟨s, by rw [hnone]; rfl, ⟨by simpa using hready, by simpa using hwait, ?_, fun _ _ => rfl, fun _ _ _ _ => rfl,
        by simp⟩⟩
      exact fun i hi => absurd hi List.not_mem_nil
  | cons z zs ih =>
      intro fuel s rs ys hready hwait hdisjoint hys hfuel
      obtain ⟨fuel, rfl⟩ := Nat.exists_eq_add_one_of_ne_zero (Nat.ne_of_gt (Nat.zero_lt_of_lt hfuel))
      rw [List.length_cons] at hfuel
      by_cases hz : (s.proc z).wait = w
      · -- `z` is the first match: it moves, and the search starts again
        obtain ⟨s₁, s₂, hremove, happend, hmoved⟩ := removeWait_moves hready hwait hdisjoint hys hz
        have hnodup := hwait.nodup
        have hdisjoint₂ : (rs ++ [z]).Disjoint (ys ++ zs) := by
          obtain ⟨-, hnzs, hyz⟩ := List.nodup_append.mp hnodup
          have hzys : z ∉ ys := fun h => hyz z h z List.mem_cons_self rfl
          have hzzs := (List.nodup_cons.mp hnzs).1
          simp only [List.disjoint_append_left, List.disjoint_append_right, List.disjoint_cons_right,
            List.singleton_disjoint] at hdisjoint ⊢
          exact ⟨⟨hdisjoint.1, hzys⟩, hdisjoint.2.2, hzzs⟩
        obtain ⟨t, hrun, h⟩ := ih fuel s₂ (rs ++ [z]) ys hmoved.ready hmoved.wait hdisjoint₂
          (fun y hy => by rw [hmoved.wait_eq]; exact hys y hy) (Nat.lt_of_succ_lt_succ hfuel)
        refine ⟨t, ?_, ⟨?_, ?_, ?_, ?_, ?_, ?_⟩⟩
        · rw [hremove]
          simp only [ok_bind, wakeUpLoop]
          rw [happend]
          exact hrun
        · simpa [hmoved.wait_eq, hz] using h.ready
        · simpa [hmoved.wait_eq, hz] using h.wait
        · intro i hi hw
          by_cases hiz : i = z
          · subst hiz
            rw [h.others i fun hiz => (List.nodup_cons.mp (List.nodup_append.mp hnodup).2.1).1 hiz.1, hmoved.moved]
          · have hizs : i ∈ zs := (List.mem_cons.mp hi).resolve_left hiz
            rw [h.woken i hizs (by rw [hmoved.wait_eq, hw]), hmoved.others i hiz]
        · intro i hi
          have hiz : i ≠ z := by
            rintro rfl
            exact hi ⟨List.mem_cons_self, hz⟩
          rw [h.others i fun hizs => hi ⟨List.mem_cons_of_mem _ hizs.1, by rw [← hmoved.wait_eq, hizs.2]⟩,
            hmoved.others i hiz]
        · intro i hrs hiys hi
          obtain ⟨hiz, hizs⟩ := not_or.mp (mt List.mem_cons.mpr hi)
          rw [h.unlisted i (by simp [hrs, hiz]) hiys hizs, hmoved.unlisted i hrs hiys hiz]
        · rw [h.rest]
          simp only [hmoved.wait_eq]
          rw [hmoved.rest]
          simp [hz]
      · -- `z` stays
        obtain ⟨t, hrun, h⟩ := ih (fuel + 1) s rs (ys ++ [z]) hready (by simpa using hwait) (by simpa using hdisjoint)
          (by simpa [or_imp, forall_and, hz] using hys) (Nat.lt_of_succ_lt hfuel)
        refine ⟨t, hrun, ⟨by simpa [hz] using h.ready, by simpa [hz] using h.wait, ?_, ?_, ?_, by simpa [hz] using h.rest⟩⟩
        · intro i hi hw
          refine h.woken i ((List.mem_cons.mp hi).resolve_left ?_) hw
          rintro rfl
          exact hz hw
        · exact fun i hi => h.others i fun hi' => hi ⟨List.mem_cons_of_mem _ hi'.1, hi'.2⟩
        · intro i hrs hiys hi
          obtain ⟨hiz, hizs⟩ := not_or.mp (mt List.mem_cons.mpr hi)
          exact h.unlisted i hrs (by simp [hiys, hiz]) hizs

theorem wakeUp_partitions {ws : List Proc} (hready : Represents s.processTable s.pc.readyList rs)
    (hwait : Represents s.processTable s.pc.waitList ws) (hdisjoint : rs.Disjoint ws) :
    ∃ t, wakeUp w s = .ok t ∧ Partitioned s t w rs [] ws := by
  have hlen := hwait.nodup.length_le_card
  rw [Fintype.card_fin] at hlen
  exact wakeUpLoop_partitions ws listFuel s rs [] hready hwait hdisjoint (fun _ h => absurd h List.not_mem_nil)
    (Nat.lt_succ_of_le hlen)

end ArmOs
