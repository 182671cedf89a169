import ArmOs.Kernel.Process
import ArmOs.Sched.Lemmas.Queue
import Mathlib.Data.Fintype.Card
import Mathlib.Data.Set.Insert

/-!
# The three lists together

Each list holds the processes in its state. While an operation moves a process from one list to another, the
process is on none; `out` are the processes on no list although they are in the state of one.
-/

namespace ArmOs

open Lib

/-- The state of the processes on a list. -/
def ListId.state : ListId → ProcState
  | .ready => .ready
  | .wait => .sleep
  | .kill => .killed

theorem ListId.state_injective : Function.Injective ListId.state := by
  intro l l' h
  cases l <;> cases l' <;> first | rfl | cases h

/-- The lists hold the sequences `q`; apart from `out`, a list holds exactly the processes in its state,
without the idle process. -/
structure Queues (s : Kernel) (q : ListId → List Proc) (out : Set Proc) : Prop where
  represents : ∀ l, Represents s.processTable (s.pc.list l) (q l)
  mem : ∀ l i, i ∈ q l ↔ i ∉ out ∧ i ≠ idle ∧ (s.proc i).state = l.state

/-- `t` differs from `s` in the links of the lists and in the trace only. -/
structure SameButLinks (s t : Kernel) : Prop where
  table : SameButNext s.processTable t.processTable
  rest : t = { s with
    processTable := t.processTable
    pc := { t.pc with currentProcess := s.current }
    trace := t.trace }

@[simp] theorem ProcessControl.list_setList_self (pc : ProcessControl) (l : ListId) (h : HeadList Proc) :
    (pc.setList l h).list l = h := by cases l <;> rfl

theorem ProcessControl.list_setList_ne (pc : ProcessControl) {l l' : ListId} (h : HeadList Proc)
    (hne : l' ≠ l) : (pc.setList l h).list l' = pc.list l' := by
  cases l <;> cases l' <;> first | rfl | exact absurd rfl hne

@[simp] theorem ProcessControl.currentProcess_setList (pc : ProcessControl) (l : ListId)
    (h : HeadList Proc) : (pc.setList l h).currentProcess = pc.currentProcess := by cases l <;> rfl

namespace Kernel

variable (s : Kernel) (i j : Proc) (p : Process Proc)

@[simp] theorem setProc_self : (s.setProc i p).processTable i = p := by simp [setProc]

theorem setProc_ne (h : j ≠ i) : (s.setProc i p).processTable j = s.processTable j := by
  simp [setProc, h]

@[simp] theorem setProc_pc : (s.setProc i p).pc = s.pc := rfl
@[simp] theorem setProc_memory : (s.setProc i p).memory = s.memory := rfl
@[simp] theorem setProc_fs : (s.setProc i p).fs = s.fs := rfl
@[simp] theorem setProc_kont : (s.setProc i p).kont = s.kont := rfl
@[simp] theorem setProc_trace : (s.setProc i p).trace = s.trace := rfl
@[simp] theorem setProc_pidNum : (s.setProc i p).pidNum = s.pidNum := rfl
@[simp] theorem setProc_keyBuffer : (s.setProc i p).keyBuffer = s.keyBuffer := rfl
@[simp] theorem setProc_ticks : (s.setProc i p).ticks = s.ticks := rfl

end Kernel

namespace SameButLinks

variable {s t u : Kernel}

theorem proc (h : SameButLinks s t) (i : Proc) :
    t.proc i = { s.proc i with next := (t.proc i).next } := h.table i

theorem current (h : SameButLinks s t) : t.current = s.current := by rw [h.rest]
theorem pidNum (h : SameButLinks s t) : t.pidNum = s.pidNum := by rw [h.rest]
theorem memory (h : SameButLinks s t) : t.memory = s.memory := by rw [h.rest]
theorem fs (h : SameButLinks s t) : t.fs = s.fs := by rw [h.rest]
theorem keyBuffer (h : SameButLinks s t) : t.keyBuffer = s.keyBuffer := by rw [h.rest]
theorem ticks (h : SameButLinks s t) : t.ticks = s.ticks := by rw [h.rest]
theorem ttbr0 (h : SameButLinks s t) : t.ttbr0 = s.ttbr0 := by rw [h.rest]
theorem kont (h : SameButLinks s t) : t.kont = s.kont := by rw [h.rest]
theorem state (h : SameButLinks s t) (i : Proc) : (t.proc i).state = (s.proc i).state := by rw [h.proc]
theorem wait (h : SameButLinks s t) (i : Proc) : (t.proc i).wait = (s.proc i).wait := by rw [h.proc]
theorem pid (h : SameButLinks s t) (i : Proc) : (t.proc i).pid = (s.proc i).pid := by rw [h.proc]

theorem ofAppendTail {l : ListId} {i : Proc} (h : s.appendTail l i = .ok t) : SameButLinks s t := by
  obtain ⟨⟨table, list⟩, hrun, h⟩ := bind_eq_ok.mp h
  cases h
  exact ⟨appendListTail_links hrun, by cases l <;> rfl⟩

end SameButLinks

theorem appendTail_trace {s t : Kernel} {l : ListId} {i : Proc} (h : s.appendTail l i = .ok t) :
    t.trace = s.trace ++ [.append l i] := by
  obtain ⟨_, _, h⟩ := bind_eq_ok.mp h
  cases h
  rfl

namespace Queues

variable {s t : Kernel} {q : ListId → List Proc} {out : Set Proc} {i x : Proc} {l : ListId}

theorem nodup (h : Queues s q out) (l : ListId) : (q l).Nodup := (h.represents l).nodup

theorem length_lt (h : Queues s q out) (l : ListId) : (q l).length < listFuel := by
  have := (h.nodup l).length_le_card
  simp only [Fintype.card_fin] at this
  exact Nat.lt_succ_of_le this

/-- No process is on two lists. -/
theorem disjoint (h : Queues s q out) {l' : ListId} (hi : i ∈ q l) (hi' : i ∈ q l') : l = l' := by
  have h₁ := ((h.mem l i).mp hi).2.2
  have h₂ := ((h.mem l' i).mp hi').2.2
  exact ListId.state_injective (h₁.symm.trans h₂)

theorem not_mem_out (h : Queues s q out) (hx : x ∈ out) (l : ListId) : x ∉ q l := fun hx' =>
  ((h.mem l x).mp hx').1 hx

theorem idle_not_mem (h : Queues s q out) (l : ListId) : idle ∉ q l := fun hx =>
  ((h.mem l idle).mp hx).2.1 rfl

theorem not_mem_of_state (h : Queues s q out) (hi : (s.proc i).state ≠ l.state) : i ∉ q l := fun hx =>
  hi ((h.mem l i).mp hx).2.2

/-- The lists depend on the links, the heads and the states of the processes. -/
theorem congr (h : Queues s q out) (hpc : ∀ l, t.pc.list l = s.pc.list l)
    (hnext : ∀ i, (t.proc i).next = (s.proc i).next)
    (hstate : ∀ i, (t.proc i).state = (s.proc i).state) : Queues t q out where
  represents l := by
    rw [hpc]
    exact (h.represents l).congr fun i _ => hnext i
  mem l i := by rw [h.mem, hstate]

/-- Everything about a process on no list may change. -/
theorem setProc_out (h : Queues s q out) (hx : x ∈ out) (p : Process Proc) :
    Queues (s.setProc x p) q out where
  represents l := (h.represents l).congr fun i hi => by
    have hix : i ≠ x := by rintro rfl; exact h.not_mem_out hx l hi
    rw [s.setProc_ne _ _ p hix]
  mem l i := by
    rw [h.mem]
    by_cases hix : i = x
    · subst hix; simp [hx]
    · simp only [Kernel.proc, s.setProc_ne _ _ p hix]

/-- A process that belongs on no list may be named. -/
theorem take (h : Queues s q out) (hx : x = idle ∨ ∀ l : ListId, (s.proc x).state ≠ l.state) :
    Queues s q (insert x out) where
  represents := h.represents
  mem l i := by
    rw [h.mem, Set.mem_insert_iff]
    by_cases hix : i = x
    · subst hix
      rcases hx with rfl | hx
      · simp
      · simp [hx l]
    · simp [hix]

/-- A process that belongs on no list need not be named. -/
theorem release (h : Queues s q (insert x out))
    (hx : x = idle ∨ ∀ l : ListId, (s.proc x).state ≠ l.state) : Queues s q out where
  represents := h.represents
  mem l i := by
    rw [h.mem, Set.mem_insert_iff]
    by_cases hix : i = x
    · subst hix
      rcases hx with rfl | hx
      · simp
      · simp [hx l]
    · simp [hix]

/-- Appending the process that is being moved to the list of its state. -/
theorem appendTail (h : Queues s q (insert x out)) (hout : x ∉ out) (hidle : x ≠ idle)
    (hx : (s.proc x).state = l.state) :
    ∃ t, s.appendTail l x = .ok t ∧ Queues t (Function.update q l (q l ++ [x])) out ∧
      SameButLinks s t ∧ t.trace = s.trace ++ [.append l x] := by
  have hnot := h.not_mem_out (Set.mem_insert x out)
  obtain ⟨table, list, hrun, hrep, hsame, hframe⟩ := appendListTail_spec (h.represents l) (hnot l)
  refine ⟨{ s with processTable := table, pc := s.pc.setList l list, trace := s.trace ++ [.append l x] },
    by simp only [Kernel.appendTail, hrun, ok_bind]; rfl, ?_, ⟨hsame, by cases l <;> rfl⟩, rfl⟩
  constructor
  · intro l'
    by_cases hl : l' = l
    · subst hl
      simpa using hrep
    · simp only [ne_eq, hl, not_false_eq_true, Function.update_of_ne,
        ProcessControl.list_setList_ne _ _ hl]
      refine (h.represents l').congr fun i hi => ?_
      have hix : i ≠ x := by rintro rfl; exact hnot l' hi
      have hil : i ∉ q l := fun hi' => hl (h.disjoint hi hi')
      rw [hframe i hil hix]
  · intro l' i
    have hst : (table i).state = (s.proc i).state := by rw [hsame i]
    simp only [Kernel.proc, hst]
    by_cases hl : l' = l
    · subst hl
      simp only [Function.update_self, List.mem_append, List.mem_singleton, h.mem, Set.mem_insert_iff]
      by_cases hix : i = x
      · subst hix; simp [hidle, hx, hout]
      · simp [hix]
    · simp only [ne_eq, hl, not_false_eq_true, Function.update_of_ne, h.mem, Set.mem_insert_iff]
      by_cases hix : i = x
      · subst hix
        have : l.state ≠ l'.state := fun he => hl (ListId.state_injective he).symm
        simp [hx, this]
      · simp [hix]

/-- Taking the first process with an event value off its list. -/
theorem removeWait_match (h : Queues s q out) {ys zs : List Proc} {w : Int} (hq : q l = ys ++ x :: zs)
    (hys : ∀ y ∈ ys, (s.proc y).wait ≠ w) (hx : (s.proc x).wait = w) :
    ∃ t, s.removeWait l w = .ok (.item x, t) ∧ Queues t (Function.update q l (ys ++ zs)) (insert x out) ∧
      SameButLinks s t ∧ t.trace = s.trace := by
  have hrep := hq ▸ h.represents l
  have hlen : ys.length < listFuel := by
    have := h.length_lt l
    simp only [hq, List.length_append, List.length_cons] at this
    omega
  obtain ⟨⟨item, table, list⟩, hrun, hr⟩ := removeList_match hrep hys hx hlen
  obtain rfl : item = .item x := hr.found
  have hsame : SameButNext s.processTable table := hr.sameButNext
  have hframe : ∀ j, j ∉ ys → table j = s.processTable j := hr.frame
  have hnodup := hrep.nodup
  refine ⟨{ s with processTable := table, pc := s.pc.setList l list },
    by simp only [Kernel.removeWait, hrun, ok_bind]; rfl, ?_, ⟨hsame, by cases l <;> rfl⟩, rfl⟩
  constructor
  · intro l'
    by_cases hl : l' = l
    · subst hl
      simpa using hr.represents
    · simp only [ne_eq, hl, not_false_eq_true, Function.update_of_ne,
        ProcessControl.list_setList_ne _ _ hl]
      refine (h.represents l').congr fun i hi => ?_
      have hil : i ∉ ys := fun hi' => hl (h.disjoint hi (by rw [hq]; exact List.mem_append_left _ hi'))
      show (table i).next = _
      rw [hframe i hil]
  · intro l' i
    have hst : (table i).state = (s.proc i).state := by rw [hsame i]
    have hmem := h.mem l' i
    simp only [Kernel.proc, hst, Set.mem_insert_iff]
    by_cases hl : l' = l
    · subst hl
      rw [hq] at hmem
      simp only [Function.update_self]
      by_cases hix : i = x
      · subst hix
        have := List.nodup_middle.mp hnodup
        simpa using (List.nodup_cons.mp this).1
      · simpa [hix] using hmem
    · simp only [ne_eq, hl, not_false_eq_true, Function.update_of_ne]
      by_cases hix : i = x
      · subst hix
        have : i ∉ q l' := fun hi => hl (h.disjoint hi (by simp [hq]))
        simp [this]
      · simpa [hix] using hmem

/-- Taking the first process off `ready_list`. -/
theorem removeHead (h : Queues s q out) {xs : List Proc} (hq : q .ready = x :: xs) :
    ∃ list, removeListHead s.processTable s.pc.readyList = .ok (.item x, list) ∧
      Queues { s with pc := { s.pc with readyList := list } } (Function.update q .ready xs)
        (insert x out) := by
  have hrep : Represents s.processTable s.pc.readyList (x :: xs) := hq ▸ h.represents .ready
  obtain ⟨list, hrun, hrep'⟩ := removeListHead_cons hrep
  have hx : x ∉ xs := (List.nodup_cons.mp hrep.nodup).1
  refine ⟨list, hrun, ?_, ?_⟩
  · intro l
    cases l with
    | ready => simpa [ProcessControl.list] using hrep'
    | wait => simpa [ProcessControl.list] using h.represents .wait
    | kill => simpa [ProcessControl.list] using h.represents .kill
  · intro l i
    have hmem := h.mem l i
    rw [Set.mem_insert_iff]
    by_cases hl : l = .ready
    · subst hl
      rw [hq] at hmem
      by_cases hix : i = x
      · subst hix; simp [hx]
      · simpa [hix] using hmem
    · by_cases hix : i = x
      · subst hix
        have : i ∉ q l := fun hi => hl (h.disjoint hi (by simp [hq]))
        simp [hl, this]
      · simpa [hl, hix] using hmem

/-- Nothing happens when no process has the event value. -/
theorem removeWait_none (h : Queues s q out) {w : Int} (hw : ∀ y ∈ q l, (s.proc y).wait ≠ w) :
    s.removeWait l w = .ok (.null, s) := by
  have hrun := removeList_none (h.represents l) hw (h.length_lt l)
  have hpc : s.pc.setList l (s.pc.list l) = s.pc := by cases l <;> rfl
  simp only [Kernel.removeWait, hrun, ok_bind, hpc]
  rfl

end Queues

end ArmOs
