import ArmOs.Kernel.List
import ArmOs.Lib.Chain

/-!
# The list operations on represented queues

A list head and the process table represent a sequence of processes; the operations of `list.c` act on the
sequence as expected and change nothing but `next` fields.
-/

namespace ArmOs

open Lib

variable {ι : Type}

/-- The list head and the `next` fields of `table` hold the sequence `xs`. -/
def Represents (table : ι → Process ι) (list : HeadList ι) (xs : List ι) : Prop :=
  IsQueue ListPtr.item .null (fun i => (table i).next) list.next list.tail xs

/-- `table'` differs from `table` in `next` fields only. -/
def SameButNext (table table' : ι → Process ι) : Prop :=
  ∀ i, table' i = { table i with next := (table' i).next }

theorem ListPtr.item_ne_null (i : ι) : ListPtr.item i ≠ .null := nofun

theorem ListPtr.item_injective : Function.Injective (ListPtr.item (ι := ι)) := fun _ _ h => by
  cases h; rfl

theorem SameButNext.refl (table : ι → Process ι) : SameButNext table table := fun _ => rfl

theorem SameButNext.trans {t₁ t₂ t₃ : ι → Process ι} (h : SameButNext t₁ t₂) (h' : SameButNext t₂ t₃) :
    SameButNext t₁ t₃ := by
  intro i
  rw [h' i, h i]

theorem SameButNext.wait_eq {table table' : ι → Process ι} (h : SameButNext table table') (i : ι) :
    (table' i).wait = (table i).wait := by rw [h i]

namespace Represents

variable {table table' : ι → Process ι} {list : HeadList ι} {xs ys : List ι}

theorem congr (h : Represents table list xs) (hn : ∀ i ∈ xs, (table' i).next = (table i).next) :
    Represents table' list xs := IsQueue.congr h hn

theorem empty (table : ι → Process ι) : Represents table ⟨.null, .null⟩ [] := IsQueue.empty

theorem unique (h : Represents table list xs) (h' : Represents table list ys) : xs = ys :=
  IsQueue.unique h h' ListPtr.item_ne_null ListPtr.item_injective

theorem nodup (h : Represents table list xs) : xs.Nodup :=
  IsQueue.nodup h ListPtr.item_ne_null ListPtr.item_injective

end Represents

variable [DecidableEq ι]

theorem Represents.isListEmpty_iff {table : ι → Process ι} {list : HeadList ι} {xs : List ι}
    (h : Represents table list xs) : isListEmpty list = true ↔ xs = [] := by
  rw [← IsQueue.head_null_iff h ListPtr.item_ne_null]
  simp [isListEmpty]

theorem Represents.isListEmpty_eq {table : ι → Process ι} {list : HeadList ι} {xs : List ι}
    (h : Represents table list xs) : isListEmpty list = xs.isEmpty := by
  rw [Bool.eq_iff_iff, h.isListEmpty_iff, List.isEmpty_iff]

theorem SameButNext.setNext (table : ι → Process ι) (i : ι) (p : ListPtr ι) :
    SameButNext table (setNext table i p) := by
  intro j
  by_cases hj : j = i
  · subst hj; simp [ArmOs.setNext]
  · simp [ArmOs.setNext, hj]

theorem appendListTail_links {table table' : ι → Process ι} {list list' : HeadList ι} {item : ι}
    (h : appendListTail table list item = .ok (table', list')) : SameButNext table table' := by
  simp only [appendListTail] at h
  split at h
  · cases h
    exact .setNext table item _
  · split at h
    · cases h
    · cases h
      exact .setNext table item _
    · cases h
      exact (SameButNext.setNext table item _).trans (.setNext _ _ _)

@[simp] theorem setNext_self (table : ι → Process ι) (i : ι) (p : ListPtr ι) :
    (setNext table i p i).next = p := by simp [setNext]

theorem setNext_ne (table : ι → Process ι) {i j : ι} (p : ListPtr ι) (h : j ≠ i) :
    setNext table i p j = table j := by simp [setNext, h]

/-! ## `append_list_tail` -/

theorem appendListTail_spec {table : ι → Process ι} {list : HeadList ι} {xs : List ι} {item : ι}
    (h : Represents table list xs) (hi : item ∉ xs) :
    ∃ table' list', appendListTail table list item = .ok (table', list') ∧
      Represents table' list' (xs ++ [item]) ∧ SameButNext table table' ∧
      ∀ j, j ∉ xs → j ≠ item → table' j = table j := by
  rcases List.eq_nil_or_concat' xs with rfl | ⟨ys, t, rfl⟩
  · refine ⟨setNext table item .null, ⟨.item item, .item item⟩, ?_, ?_, SameButNext.setNext table item _, ?_⟩
    · simp [appendListTail, h.isListEmpty_eq]
    · exact IsQueue.singleton (by simp)
    · exact fun j _ hj => setNext_ne _ _ hj
  · have htail : list.tail = .item t := IsQueue.tail_eq h
    have hti : t ≠ item := by rintro rfl; simp at hi
    refine ⟨setNext (setNext table item .null) t (.item item), { list with tail := .item item },
      ?_, ?_, (SameButNext.setNext table item _).trans (SameButNext.setNext _ t _), ?_⟩
    · simp [appendListTail, h.isListEmpty_eq, htail]
    · refine IsQueue.push h ?_ (by simp) ?_
      · rw [setNext_ne _ _ hti.symm, setNext_self]
      · intro y hy
        have hyt : y ≠ t := by
          rintro rfl
          exact (List.nodup_append.mp h.nodup).2.2 y hy y (by simp) rfl
        have hyi : y ≠ item := by rintro rfl; simp [hy] at hi
        rw [setNext_ne _ _ hyt, setNext_ne _ _ hyi]
    · intro j hj hji
      have hjt : j ≠ t := by rintro rfl; simp at hj
      rw [setNext_ne _ _ hjt, setNext_ne _ _ hji]

/-! ## `remove_list_head` -/

theorem removeListHead_nil {table : ι → Process ι} {list : HeadList ι} (h : Represents table list []) :
    removeListHead table list = .ok (.null, list) := by
  simp [removeListHead, h.isListEmpty_eq]

theorem removeListHead_cons {table : ι → Process ι} {list : HeadList ι} {x : ι} {xs : List ι}
    (h : Represents table list (x :: xs)) :
    ∃ list', removeListHead table list = .ok (.item x, list') ∧ Represents table list' xs := by
  have hnext : list.next = .item x := h.1.1
  refine ⟨_, by simp only [removeListHead, h.isListEmpty_eq, hnext]; rfl, ?_⟩
  cases xs with
  | nil =>
      have hx : (table x).next = .null := h.1.2
      simpa [hx] using Represents.empty table
  | cons y ys =>
      have hx : (table x).next ≠ .null := by
        rw [show (table x).next = .item y from h.1.2.1]
        exact ListPtr.item_ne_null y
      simpa [hx, Represents] using IsQueue.pop h (by simp)

/-! ## `remove_list` -/

/-- What `remove_list` finds and leaves behind when `x` is the first match. -/
structure Removed (table : ι → Process ι) (ys zs : List ι) (x : ι)
    (r : ListPtr ι × (ι → Process ι) × HeadList ι) : Prop where
  found : r.1 = .item x
  represents : Represents r.2.1 r.2.2 (ys ++ zs)
  sameButNext : SameButNext table r.2.1
  frame : ∀ j, j ∉ ys → r.2.1 j = table j

/-- The match is unlinked. `ys` are the nodes before it, so `prev` is the last of them or the head. -/
theorem removeListLoop_match {table : ι → Process ι} {list : HeadList ι} {ys zs : List ι} {x : ι}
    {wait : Int} (fuel : Nat) (h : Represents table list (ys ++ x :: zs)) (hx : (table x).wait = wait) :
    ∃ r, removeListLoop table list wait (fuel + 1) ((ys.getLast?.map ListPtr.item).getD .head) (.item x) =
      .ok r ∧ Removed table ys zs x r := by
  refine ⟨_, by simp only [removeListLoop, hx, if_true]; rfl, ?_⟩
  have hnodup := h.nodup
  have hc := (Chain.append_iff.mp h.1)
  rcases List.eq_nil_or_concat' ys with rfl | ⟨ys, t, rfl⟩
  · -- the head struct is `prev`: this is `remove_list_head`
    obtain ⟨list', hrun, hrep⟩ := removeListHead_cons h
    have hnext : list.next = .item x := h.1.1
    simp only [removeListHead, h.isListEmpty_eq, hnext] at hrun
    cases zs with
    | nil =>
        have hxn : (table x).next = .null := hc.2
        exact ⟨rfl, by simpa [hxn] using Represents.empty table, .refl table, fun _ _ => rfl⟩
    | cons z zs =>
        have hxn : (table x).next = .item z := hc.2.1
        refine ⟨rfl, ?_, .refl table, fun _ _ => rfl⟩
        simpa [hxn, Represents] using IsQueue.pop h (by simp)
  · have htx : t ≠ x := by rintro rfl; simp [List.nodup_append] at hnodup
    have hhead : list.next ≠ .null := by
      rw [Ne, h.1.nil_iff ListPtr.item_ne_null]; simp
    have hys : ∀ y ∈ ys, (setNext table t (table x).next y).next = (table y).next := by
      intro y hy
      have hyt : y ≠ t := by
        rintro rfl
        have := (List.nodup_append.mp (List.nodup_append.mp hnodup).1).2.2
        exact this y hy y (by simp) rfl
      rw [setNext_ne _ _ hyt]
    have hframe : ∀ j, j ∉ ys ++ [t] → setNext table t (table x).next j = table j := by
      intro j hj
      exact setNext_ne _ _ (by rintro rfl; simp at hj)
    cases zs with
    | nil =>
        have hxn : (table x).next = .null := hc.2
        refine ⟨rfl, ?_, ?_, ?_⟩
        · have := IsQueue.unlinkLast (n := fun i => (setNext table t (table x).next i).next) h
            (by simp [hxn]) hys
          simpa [Represents, hhead, hxn, setNext_ne table _ htx.symm] using this
        · simpa using SameButNext.setNext table t _
        · simpa using hframe
    | cons z zs =>
        have hxn : (table x).next = .item z := hc.2.1
        have hzs : ∀ y ∈ z :: zs, (setNext table t (table x).next y).next = (table y).next := by
          intro y hy
          have hyt : y ≠ t := by
            rintro rfl
            simp only [List.nodup_append] at hnodup
            exact hnodup.2.2 y (by simp) y (List.mem_cons_of_mem x hy) rfl
          rw [setNext_ne _ _ hyt]
        refine ⟨rfl, ?_, ?_, ?_⟩
        · have := IsQueue.unlink (n := fun i => (setNext table t (table x).next i).next) h
            (by simp) (by simp) hys hzs
          simpa [Represents, hhead, hxn, setNext_ne table _ htx.symm] using this
        · simpa using SameButNext.setNext table t _
        · simpa using hframe

/-- The loop reaches the first match behind the nodes `ys` that it has passed. -/
theorem removeListLoop_spec {table : ι → Process ι} {list : HeadList ι} {x : ι} {zs : List ι} {wait : Int}
    (hx : (table x).wait = wait) (us : List ι) :
    ∀ (ys : List ι) (fuel : Nat), Represents table list (ys ++ (us ++ x :: zs)) →
      (∀ u ∈ us, (table u).wait ≠ wait) → us.length < fuel →
      ∃ r, removeListLoop table list wait fuel ((ys.getLast?.map ListPtr.item).getD .head)
        (((us ++ [x]).head?.map ListPtr.item).getD .null) = .ok r ∧ Removed table (ys ++ us) zs x r := by
  induction us with
  | nil =>
      intro ys fuel h _ hfuel
      obtain ⟨fuel, rfl⟩ := Nat.exists_eq_add_one_of_ne_zero (by simp at hfuel; omega : fuel ≠ 0)
      simpa using removeListLoop_match fuel (by simpa using h) hx
  | cons u us ih =>
      intro ys fuel h hus hfuel
      obtain ⟨fuel, rfl⟩ := Nat.exists_eq_add_one_of_ne_zero (by simp at hfuel; omega : fuel ≠ 0)
      have hu : (table u).wait ≠ wait := hus u List.mem_cons_self
      have hnext : (table u).next = ((us ++ [x]).head?.map ListPtr.item).getD .null := by
        have hc := (Chain.append_iff.mp h.1).2
        cases us with
        | nil => simpa using hc.1
        | cons v vs => simpa using hc.1
      have := ih (ys ++ [u]) fuel (by simpa using h) (fun v hv => hus v (List.mem_cons_of_mem u hv))
        (by simp at hfuel; omega)
      simpa [removeListLoop, hu, hnext] using this

theorem removeListLoop_none {table : ι → Process ι} {list : HeadList ι} {wait : Int} {us : List ι} :
    ∀ (fuel : Nat) (prev current : ListPtr ι),
      Chain ListPtr.item .null (fun i => (table i).next) current us →
      (∀ u ∈ us, (table u).wait ≠ wait) → us.length < fuel →
      removeListLoop table list wait fuel prev current = .ok (.null, table, list) := by
  induction us with
  | nil =>
      intro fuel prev current h _ hfuel
      obtain ⟨fuel, rfl⟩ := Nat.exists_eq_add_one_of_ne_zero (by simp at hfuel; omega : fuel ≠ 0)
      have hcur : current = .null := h
      simp [removeListLoop, hcur]
  | cons u us ih =>
      intro fuel prev current h hus hfuel
      obtain ⟨fuel, rfl⟩ := Nat.exists_eq_add_one_of_ne_zero (by simp at hfuel; omega : fuel ≠ 0)
      have hcur : current = .item u := h.1
      have hu : (table u).wait ≠ wait := hus u List.mem_cons_self
      simp only [removeListLoop, hcur, hu, if_false]
      exact ih fuel _ _ h.2 (fun v hv => hus v (List.mem_cons_of_mem u hv)) (by simp at hfuel; omega)

/-- `remove_list` takes out the first process with the event value. -/
theorem removeList_match {table : ι → Process ι} {list : HeadList ι} {ys zs : List ι} {x : ι} {wait : Int}
    {fuel : Nat} (h : Represents table list (ys ++ x :: zs)) (hys : ∀ y ∈ ys, (table y).wait ≠ wait)
    (hx : (table x).wait = wait) (hfuel : ys.length < fuel) :
    ∃ r, removeList fuel table list wait = .ok r ∧ Removed table ys zs x r := by
  have hnext : list.next = ((ys ++ [x]).head?.map ListPtr.item).getD .null := by
    have := h.1
    cases ys with
    | nil => simpa using this.1
    | cons y ys => simpa using this.1
  have := removeListLoop_spec hx ys [] fuel (by simpa using h) hys hfuel
  simpa [removeList, hnext] using this

/-- `remove_list` changes nothing when no process has the event value. -/
theorem removeList_none {table : ι → Process ι} {list : HeadList ι} {xs : List ι} {wait : Int} {fuel : Nat}
    (h : Represents table list xs) (hxs : ∀ x ∈ xs, (table x).wait ≠ wait) (hfuel : xs.length < fuel) :
    removeList fuel table list wait = .ok (.null, table, list) :=
  removeListLoop_none fuel _ _ h.1 hxs hfuel

end ArmOs
