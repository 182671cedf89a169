import ArmOs.Lib.Ops
import ArmOs.Sched.Lemmas.Queue

/-!
# The lists of `list.c`

A list head that represents a sequence of nodes keeps doing so: any operations in any order return what the operations on
the sequence return.
-/

namespace ArmOs

open Lib

variable {ι : Type} [DecidableEq ι]

/-- Store to the event value of a node. -/
def storeWait (table : ι → Process ι) (item : ι) (wait : Int) : ι → Process ι :=
  Function.update table item { table item with wait := wait }

theorem storeWait_next (table : ι → Process ι) (item : ι) (w : Int) (i : ι) :
    (storeWait table item w i).next = (table i).next := by
  by_cases hi : i = item
  · subst hi
    simp [storeWait]
  · simp [storeWait, hi]

theorem storeWait_wait (table : ι → Process ι) (item : ι) (w : Int) (i : ι) :
    (storeWait table item w i).wait = Function.update (fun i => (table i).wait) item w i := by
  by_cases hi : i = item
  · subst hi
    simp [storeWait]
  · simp [storeWait, hi]

/-- The operations of `list.c`, and what their callers do between them: store an event value in a node. -/
inductive ListOp (ι : Type)
  | appendListTail (item : ι)
  | removeListHead
  | removeList (wait : Int)
  | setWait (item : ι) (wait : Int)

namespace ListOp

/-- The operation on the heap and the list head. The loop of `remove_list` makes at most `fuel` rounds. -/
def perform (fuel : Nat) : (ι → Process ι) × HeadList ι → ListOp ι → Except Stop (ListPtr ι × (ι → Process ι) × HeadList ι)
  | (table, list), appendListTail item => do
      let r ← ArmOs.appendListTail table list item
      return (.null, r)
  | (table, list), removeListHead => do
      let (item, list) ← ArmOs.removeListHead table list
      return (item, table, list)
  | (table, list), removeList wait => ArmOs.removeList fuel table list wait
  | (table, list), setWait item wait =>
      .ok (.null, storeWait table item wait, list)

/-- A pointer to the node, or `NULL`. -/
def pointer : Option ι → ListPtr ι
  | none => .null
  | some i => .item i

/-- The operation on the sequence of the nodes and their event values. -/
def spec : List ι × (ι → Int) → ListOp ι → ListPtr ι × List ι × (ι → Int)
  | (xs, wait), appendListTail item => (.null, xs ++ [item], wait)
  | (xs, wait), removeListHead => (pointer xs.head?, xs.tail, wait)
  | (xs, wait), removeList w => (pointer (xs.find? fun i => wait i = w), xs.eraseP fun i => wait i = w, wait)
  | (xs, wait), setWait item w => (.null, xs, Function.update wait item w)

/-- Only a node that is not in the list may be appended. -/
def Pre : List ι × (ι → Int) → ListOp ι → Prop
  | (xs, _), appendListTail item => item ∉ xs
  | _, _ => True

end ListOp

/-- The heap and the list head represent the sequence, and the event values are those of the nodes. -/
structure ListHolds (a : List ι × (ι → Int)) (s : (ι → Process ι) × HeadList ι) : Prop where
  represents : Represents s.1 s.2 a.1
  wait : ∀ i, (s.1 i).wait = a.2 i

namespace ListHolds

variable {a : List ι × (ι → Int)} {s : (ι → Process ι) × HeadList ι} {fuel : Nat}

theorem removeList (h : ListHolds a s) (w : Int) (hfuel : a.1.length < fuel) :
    ∃ t, ArmOs.removeList fuel s.1 s.2 w = .ok ((ListOp.spec a (.removeList w)).1, t) ∧
      ListHolds (ListOp.spec a (.removeList w)).2 t := by
  obtain ⟨xs, wait⟩ := a
  obtain ⟨table, list⟩ := s
  obtain ⟨hrep, hwait⟩ := h
  dsimp only at hrep hwait hfuel ⊢
  cases hfind : xs.find? fun i => wait i = w with
  | none =>
      have hnone : ∀ x ∈ xs, (table x).wait ≠ w := by simpa [hwait] using hfind
      have herase : (xs.eraseP fun i => wait i = w) = xs := List.eraseP_of_forall_not (by simpa using hfind)
      refine ⟨(table, list), ?_, ?_⟩
      · rw [removeList_none hrep hnone hfuel, ListOp.spec, hfind]
        rfl
      · rw [ListOp.spec, herase]
        exact ⟨hrep, hwait⟩
  | some x =>
      obtain ⟨hx, ys, zs, rfl, hys⟩ := List.find?_eq_some_iff_append.mp hfind
      have hmatch : (table x).wait = w := (hwait x).trans (of_decide_eq_true hx)
      have hbefore : ∀ y ∈ ys, (table y).wait ≠ w := by simpa [hwait] using hys
      have hlen : ys.length < fuel := by
        rw [List.length_append] at hfuel
        omega
      obtain ⟨⟨item, table', list'⟩, hrun, hremoved⟩ := removeList_match hrep hbefore hmatch hlen
      obtain rfl : item = .item x := hremoved.found
      have herase : ((ys ++ x :: zs).eraseP fun i => wait i = w) = ys ++ zs := by
        rw [List.eraseP_append_right _ (by simpa using hys)]
        exact congrArg (ys ++ ·) (List.eraseP_cons_of_pos hx)
      refine ⟨(table', list'), ?_, ?_⟩
      · rw [hrun, ListOp.spec, hfind]
        rfl
      · rw [ListOp.spec, herase]
        exact ⟨hremoved.represents, fun i => (hremoved.sameButNext.wait_eq i).trans (hwait i)⟩

theorem perform (h : ListHolds a s) (o : ListOp ι) (hpre : o.Pre a) (hfuel : a.1.length < fuel) :
    ∃ t, ListOp.perform fuel s o = .ok ((ListOp.spec a o).1, t) ∧ ListHolds (ListOp.spec a o).2 t := by
  cases o with
  | appendListTail item =>
      obtain ⟨table', list', hrun, hrep, hsame, -⟩ := appendListTail_spec h.represents hpre
      refine ⟨(table', list'), ?_, ⟨hrep, fun i => (hsame.wait_eq i).trans (h.wait i)⟩⟩
      rw [ListOp.perform, hrun]
      rfl
  | removeListHead =>
      obtain ⟨xs, wait⟩ := a
      cases xs with
      | nil =>
          refine ⟨s, ?_, h⟩
          rw [ListOp.perform, removeListHead_nil h.represents]
          rfl
      | cons x xs =>
          obtain ⟨list', hrun, hrep⟩ := removeListHead_cons h.represents
          refine ⟨(s.1, list'), ?_, ⟨hrep, h.wait⟩⟩
          rw [ListOp.perform, hrun]
          rfl
  | removeList w => exact h.removeList w hfuel
  | setWait item w =>
      refine ⟨(storeWait s.1 item w, s.2), rfl, ⟨h.represents.congr fun i _ => storeWait_next s.1 item w i, fun i => ?_⟩⟩
      rw [storeWait_wait, funext h.wait]
      rfl

end ListHolds

theorem ListOp.length_le (a : List ι × (ι → Int)) (o : ListOp ι) : (o.spec a).2.1.length ≤ a.1.length + 1 := by
  cases o with
  | appendListTail item => simp [ListOp.spec]
  | removeListHead => simp [ListOp.spec]; omega
  | removeList w => exact (List.length_eraseP_le ..).trans (Nat.le_succ _)
  | setWait item w => exact Nat.le_succ _

/-- The sequence stays shorter than a bound that has room for the appends. -/
theorem ListOp.allowed_short {a : List ι × (ι → Int)} {os : List (ListOp ι)} {fuel : Nat}
    (h : Allowed ListOp.Pre ListOp.spec a os) (hfuel : a.1.length + os.length < fuel) :
    Allowed (fun a o => o.Pre a ∧ a.1.length < fuel) ListOp.spec a os := by
  induction os generalizing a with
  | nil => trivial
  | cons o os ih =>
      rw [List.length_cons] at hfuel
      have hle := o.length_le a
      exact ⟨⟨h.1, by omega⟩, ih h.2 (by omega)⟩

/-- Any operations, in which only nodes that are not in the list are appended: they return, with what the operations on
the sequence return, and the list head represents the sequence that is left. -/
theorem listOps_refine {a : List ι × (ι → Int)} {s : (ι → Process ι) × HeadList ι} {os : List (ListOp ι)}
    (h : ListHolds a s) (hos : Allowed ListOp.Pre ListOp.spec a os) :
    ∃ n, ∀ fuel ≥ n, ∃ t, performOps (ListOp.perform fuel) s os = .ok ((specOps ListOp.spec a os).1, t) ∧
      ListHolds (specOps ListOp.spec a os).2 t ∧
      isListEmpty t.2 = (specOps ListOp.spec a os).2.1.isEmpty := by
  refine ⟨a.1.length + os.length + 1, fun fuel hfuel => ?_⟩
  obtain ⟨t, hrun, ht⟩ := performOps_refines (fun a s o ha hpre => ListHolds.perform ha o hpre.1 hpre.2) h
    (ListOp.allowed_short hos hfuel)
  exact ⟨t, hrun, ht, ht.represents.isListEmpty_eq⟩

/-- The first node is appended twice, with a removal of the first match and of the rest between. -/
theorem listOps_refine_three : ∃ (s t : (Fin 3 → Process (Fin 3)) × HeadList (Fin 3)) (n : Nat),
    performOps (ListOp.perform n) s
        [.appendListTail 0, .appendListTail 1, .setWait 1 5, .appendListTail 2, .removeList 5, .removeList 5,
          .removeListHead, .removeListHead, .appendListTail 0] =
      .ok ([.null, .null, .null, .null, .item 1, .null, .item 0, .item 2, .null], t) ∧
    Represents t.1 t.2 [0] := by
  have hempty : ListHolds ([], fun _ => 0) ((fun _ => Process.zero : Fin 3 → Process (Fin 3)), ⟨.null, .null⟩) :=
    ⟨.empty _, fun _ => rfl⟩
  have hallowed : Allowed ListOp.Pre ListOp.spec (([] : List (Fin 3)), fun _ => 0)
      [.appendListTail 0, .appendListTail 1, .setWait 1 5, .appendListTail 2, .removeList 5, .removeList 5,
        .removeListHead, .removeListHead, .appendListTail 0] := by
    simp [Allowed, ListOp.Pre, ListOp.spec]
  obtain ⟨n, hn⟩ := listOps_refine hempty hallowed
  obtain ⟨t, hrun, ht, -⟩ := hn n (Nat.le_refl n)
  exact ⟨_, t, n, hrun, ht.represents⟩

end ArmOs
