import ArmOs.Kernel.Types

/-!
# The process lists (`list.c`)

The links of all three lists are the `next` fields of the process structures, so every operation works on
the table of processes and on the list head. The operations make sense over any type of processes.
-/

namespace ArmOs

open Lib

variable {ι : Type} [DecidableEq ι]

/-- Store to `p->next`. -/
def setNext (table : ι → Process ι) (i : ι) (p : ListPtr ι) : ι → Process ι :=
  Function.update table i { table i with next := p }

def isListEmpty (list : HeadList ι) : Bool := list.next == .null

def appendListTail (table : ι → Process ι) (list : HeadList ι) (item : ι) :
    Except Stop ((ι → Process ι) × HeadList ι) :=
  let table := setNext table item .null
  if isListEmpty list then
    .ok (table, { next := .item item, tail := .item item })
  else
    match list.tail with
    | .null => .error .abort
    | .head => .ok (table, { next := .item item, tail := .item item })
    | .item t => .ok (setNext table t (.item item), { list with tail := .item item })

def removeListHead (table : ι → Process ι) (list : HeadList ι) :
    Except Stop (ListPtr ι × HeadList ι) :=
  if isListEmpty list then
    .ok (.null, list)
  else
    match list.next with
    | .item i =>
        let next := (table i).next
        .ok (.item i, { next := next, tail := if next = .null then .null else list.tail })
    | _ => .error .abort

/-- The `while` loop of `remove_list`: `prev` is the node before `current`. One unit of fuel per round. -/
def removeListLoop (table : ι → Process ι) (list : HeadList ι) (wait : Int) :
    (fuel : Nat) → (prev current : ListPtr ι) →
    Except Stop (ListPtr ι × (ι → Process ι) × HeadList ι)
  | 0, _, _ => .error .hang
  | fuel + 1, prev, current =>
      match current with
      | .null => .ok (.null, table, list)
      | .head => .error .abort
      | .item c =>
          if (table c).wait = wait then
            let next := (table c).next
            let (table, list) := match prev with
              | .item p => (setNext table p next, list)
              | _ => (table, { list with next := next })
            let list :=
              if list.next = .null then { list with tail := .null }
              else if (table c).next = .null then { list with tail := prev }
              else list
            .ok (.item c, table, list)
          else
            removeListLoop table list wait fuel current (table c).next

/-- `remove_list`. `fuel` bounds the rounds of its loop. -/
def removeList (fuel : Nat) (table : ι → Process ι) (list : HeadList ι) (wait : Int) :
    Except Stop (ListPtr ι × (ι → Process ι) × HeadList ι) :=
  removeListLoop table list wait fuel .head list.next

end ArmOs
