import DepthOS.Lib.Linked
import DepthOS.Lib.Run
import DepthOS.Spec.Basic

/-! `lib/list.c`: the kernel's doubly linked list, pointer by pointer. Entries
live in a store indexed by address, 0 is NULL, and an operation that allocates
takes the address its `kmalloc` returned. The length is a natural: entries are
distinct 32-bit addresses, so `size_t` never wraps. -/

namespace DepthOS

open Lib

structure ListEntry where
  value : ℕ
  next : ℕ
  prev : ℕ

abbrev Entries := ℕ → ListEntry

structure DList where
  first : ℕ
  last : ℕ
  length : ℕ

def listInit : DList := ⟨0, 0, 0⟩

def setNext (E : Entries) (p v : ℕ) : Entries :=
  Function.update E p { E p with next := v }

def setPrev (E : Entries) (p v : ℕ) : Entries :=
  Function.update E p { E p with prev := v }

def setValue (E : Entries) (p v : ℕ) : Entries :=
  Function.update E p { E p with value := v }

/-- The neighbours are taken as given: nothing checks that they are adjacent. -/
def listInsert (E : Entries) (L : DList) (prev next entry : ℕ) : Entries × DList :=
  if entry = 0 then (E, L)
  else
    let E := setNext (setPrev E entry prev) entry next
    let (E, L) := if next ≠ 0 then (setPrev E next entry, L) else (E, { L with last := entry })
    let (E, L) := if prev ≠ 0 then (setNext E prev entry, L) else (E, { L with first := entry })
    (E, { L with length := L.length + 1 })

/-- `entry` is the block `kmalloc` gave. -/
def listInsertValue (E : Entries) (L : DList) (prev next value entry : ℕ) : Entries × DList :=
  listInsert (setValue E entry value) L prev next entry

def listRemove (E : Entries) (L : DList) (entry : ℕ) : Entries × DList :=
  if entry = 0 then (E, L)
  else
    let (E, L) :=
      if (E entry).prev = 0 then
        (if (E entry).next ≠ 0 then setPrev E (E entry).next 0 else E,
          { L with first := (E entry).next })
      else
        let E := setNext E (E entry).prev (E entry).next
        (if (E entry).next ≠ 0 then setPrev E (E entry).next (E entry).prev else E, L)
    let L := if (E entry).next = 0 then { L with last := (E entry).prev } else L
    (E, { L with length := L.length - 1 })

def listPush (E : Entries) (L : DList) (value entry : ℕ) : Entries × DList :=
  listInsertValue E L L.last 0 value entry

def listPushFront (E : Entries) (L : DList) (value entry : ℕ) : Entries × DList :=
  listInsertValue E L 0 L.first value entry

/-- The removed entry comes first, 0 when there is none. -/
def listPop (E : Entries) (L : DList) : ℕ × Entries × DList :=
  if L.last = 0 then (0, E, L) else (L.last, listRemove E L L.last)

def listPopFront (E : Entries) (L : DList) : ℕ × Entries × DList :=
  if L.first = 0 then (0, E, L) else (L.first, listRemove E L L.first)

/-- The walk of `list_remove_index` from `entry`, the `i`-th. -/
def removeIndexLoop (E : Entries) (L : DList) (index : ℕ) :
    ℕ → ℕ → ℕ → Option (ℕ × Entries × DList)
  | 0, _, _ => none
  | fuel + 1, entry, i =>
    if entry = 0 then some (0, E, L)
    else if i = index then some (entry, listRemove E L entry)
    else removeIndexLoop E L index fuel (E entry).next (i + 1)

def listRemoveIndex (fuel : ℕ) (E : Entries) (L : DList) (index : ℕ) :
    Option (ℕ × Entries × DList) :=
  removeIndexLoop E L index fuel L.first 0

structure ListState where
  entries : Entries
  list : DList

/-- The calls on one list, with the block an insertion gets from `kmalloc`. -/
inductive ListOp where
  | push (value entry : ℕ)
  | pushFront (value entry : ℕ)
  | pop
  | popFront
  | insertValue (prev next value entry : ℕ)
  | remove (entry : ℕ)
  | removeIndex (index : ℕ)

/-- What the call returns, if anything, and what it leaves; `none` is a walk that has not
ended yet. -/
def ListOp.exec (fuel : ℕ) (s : ListState) : ListOp → Option (Option ℕ × Entries × DList)
  | .push value entry => some (some entry, listPush s.entries s.list value entry)
  | .pushFront value entry => some (some entry, listPushFront s.entries s.list value entry)
  | .pop => some ((listPop s.entries s.list).map some id)
  | .popFront => some ((listPopFront s.entries s.list).map some id)
  | .insertValue prev next value entry =>
    some (some entry, listInsertValue s.entries s.list prev next value entry)
  | .remove entry => some (none, listRemove s.entries s.list entry)
  | .removeIndex index =>
    (listRemoveIndex fuel s.entries s.list index).map fun r => r.map some id

/-- The entries reached from `first` by `next`. -/
def ListState.Forward (s : ListState) (es : List ℕ) : Prop :=
  Chain (fun x => (s.entries x).next) s.list.first es

/-- The entries reached from `last` by `prev`. -/
def ListState.Backward (s : ListState) (es : List ℕ) : Prop :=
  Chain (fun x => (s.entries x).prev) s.list.last es

/-- The block is not an entry of the list. -/
def FreshEntry (s : ListState) (entry : ℕ) : Prop :=
  entry ≠ 0 ∧ ∀ es, s.Forward es → entry ∉ es

/-- What a call is given: a new block, neighbours that are adjacent or an end, a member. -/
def ListOp.Allowed (s : ListState) : ListOp → Prop
  | .push _ entry => FreshEntry s entry
  | .pushFront _ entry => FreshEntry s entry
  | .insertValue prev next _ entry => FreshEntry s entry ∧
    ∃ l m, s.Forward (l ++ m) ∧ prev = lastOr 0 l ∧ next = headOr m 0
  | .remove entry => ∃ es, s.Forward es ∧ entry ∈ es
  | _ => True

/-- A call and what it returned. -/
def ListOpStep (s : ListState) (e : ListOp × Option ℕ) (s' : ListState) : Prop :=
  e.1.Allowed s ∧ ∃ fuel, e.1.exec fuel s = some (e.2, s'.entries, s'.list)

def ListRun : List (ListOp × Option ℕ) → ListState → Prop :=
  Run (fun s => s.list = listInit) ListOpStep

end DepthOS
