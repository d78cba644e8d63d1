import Coursework.Nachos.Monitor.Client
import Coursework.Lib.Chain

/-!
# The doubly linked list of `dllist.cc`

First the list itself: what each operation does to the elements between the calls into
the kernel. `SortedInsert` is cut at its `Yield`. Then the code that threads run on one
shared list. Loops take a bound on their rounds; a loop that needs more rounds
makes no step.
-/
namespace Coursework.Nachos

variable {Addr Item : Type} [DecidableEq Addr]

/-- `class DLLElement`; the item is a `void *`, with `none` for `NULL`. -/
structure DLLElement (Addr Item : Type) where
  prev : Option Addr
  next : Option Addr
  key : ℤ
  item : Option Item
  deriving DecidableEq

/-- `class DLList` without its lock and condition. -/
structure DLList (Addr Item : Type) where
  heap : Addr → Option (DLLElement Addr Item)
  first : Option Addr
  last : Option Addr

namespace DLList

/-- Where `SortedInsert` links its new element. -/
inductive Place (Addr : Type) where
  | front
  /-- Between the element at `ptr` and the next one. -/
  | middle (ptr : Addr)
  | tail
  deriving DecidableEq

/-- What `SortedInsert` finds; `fault` stands for a pointer to no element. -/
inductive Found (Addr : Type) where
  | empty
  | place (p : Place Addr)
  | fault
  deriving DecidableEq

/-- The ways out of `SortedRemove`. -/
inductive Removal (Addr Item : Type) where
  | removed (thing : Option Item) (l : DLList Addr Item)
  /-- `return NULL`. -/
  | absent
  | fault

variable (l : DLList Addr Item)

def isEmpty : Bool := l.first = none ∧ l.last = none

/-- `new DLLElement(item, sortKey)` at a free address. -/
def new (newnode : Addr) (item : Option Item) (sortKey : ℤ) : DLList Addr Item :=
  { l with heap := Function.update l.heap newnode (some ⟨none, none, sortKey, item⟩) }

/-- An assignment to fields of `*p`. -/
def write (p : Option Addr) (f : DLLElement Addr Item → DLLElement Addr Item) :
    Option (DLList Addr Item) :=
  match p with
  | none => none
  | some a =>
    match l.heap a with
    | none => none
    | some n => some { l with heap := Function.update l.heap a (some (f n)) }

/-- The part of `Append` that links a new element. -/
def append (newnode : Addr) (item : Option Item) : Option (DLList Addr Item) :=
  let l := l.new newnode item 1
  if l.isEmpty then some { l with first := some newnode, last := some newnode }
  else do
    let l ← l.write l.last fun n => { n with next := some newnode }
    let l ← l.write (some newnode) fun n => { n with prev := l.last }
    some { l with last := some newnode }

/-- `Prepend`, which takes no lock. -/
def prepend (newnode : Addr) (item : Option Item) : Option (DLList Addr Item) :=
  match l.first with
  | none => some { l.new newnode item 1 with first := some newnode, last := some newnode }
  | some p => do
    let n ← l.heap p
    let l := l.new newnode item (n.key - 1)
    let l ← l.write l.first fun n => { n with prev := some newnode }
    let l ← l.write (some newnode) fun n => { n with next := l.first }
    some { l with first := some newnode }

/-- `Remove` after its wait: the item, the key stored through `keyPtr`, and the list. -/
def remove : Option (Option Item × ℤ × DLList Addr Item) := do
  let element ← l.first
  let n ← l.heap element
  let heap := Function.update l.heap element none
  some (n.item, n.key,
    if l.first = l.last ∧ n.next = none then ⟨heap, none, none⟩ else ⟨heap, n.next, l.last⟩)

/-- The loop of `SortedInsert`, from the element at `ptr`. -/
def search (sortKey : ℤ) : ℕ → Addr → Option (Found Addr)
  | 0, _ => none
  | rounds + 1, ptr =>
    match l.heap ptr with
    | none => some .fault
    | some n =>
      match n.next with
      | none => some (.place .tail)
      | some q =>
        match l.heap q with
        | none => some .fault
        | some m =>
          if sortKey < m.key then some (.place (.middle ptr)) else search sortKey rounds q

/-- The branch that `SortedInsert` takes. -/
def find (sortKey : ℤ) (rounds : ℕ) : Option (Found Addr) :=
  if l.isEmpty then some .empty
  else
    match l.first with
    | none => some .fault
    | some p =>
      match l.heap p with
      | none => some .fault
      | some n =>
        if sortKey < n.key then some (.place .front) else l.search sortKey rounds p

/-- The links of the new element, before the `Yield`. -/
def linkNew (newnode : Addr) : Place Addr → Option (DLList Addr Item)
  | .front => l.write (some newnode) fun n => { n with next := l.first }
  | .middle ptr =>
    match l.heap ptr with
    | none => none
    | some m => l.write (some newnode) fun n => { n with next := m.next, prev := some ptr }
  | .tail => l.write (some newnode) fun n => { n with prev := l.last }

/-- The links to the new element, after the `Yield`. -/
def linkTo (newnode : Addr) : Place Addr → Option (DLList Addr Item)
  | .front => do
    let l ← l.write l.first fun n => { n with prev := some newnode }
    some { l with first := some newnode }
  | .middle ptr => do
    let m ← l.heap ptr
    let l ← l.write m.next fun n => { n with prev := some newnode }
    l.write (some ptr) fun n => { n with next := some newnode }
  | .tail => do
    let l ← l.write l.last fun n => { n with next := some newnode }
    some { l with last := some newnode }

/-- The loop of `SortedRemove` and what follows it, from the pointer `ptr`. An element
found before the end is deleted, and the loop goes on from the deleted element. -/
def scan (sortKey : ℤ) : ℕ → Option Addr → Option (Removal Addr Item)
  | 0, _ => none
  | _ + 1, none => some .fault
  | rounds + 1, some ptr =>
    match l.heap ptr with
    | none => some .fault
    | some n =>
      match n.next with
      | some q => if n.key = sortKey then some .fault else scan sortKey rounds (some q)
      | none =>
        if n.key = sortKey then
          match l.write n.prev fun m => { m with next := none } with
          | none => some .fault
          | some l => some (.removed n.item
              { l with heap := Function.update l.heap ptr none, last := n.prev })
        else some .absent

/-- `SortedRemove` after its wait. Its result is not set when the first element has the
key: it is what the memory was. -/
def sortedRemove (sortKey : ℤ) (rounds : ℕ) (garbage : Option Item) :
    Option (Removal Addr Item) :=
  match l.first with
  | none => some .fault
  | some p =>
    match l.heap p with
    | none => some .fault
    | some n =>
      if n.key = sortKey then some (.removed garbage { l with first := none, last := none })
      else l.scan sortKey rounds n.next

/-- The keys of the elements from `p` along `next`. -/
def keys : ℕ → Option Addr → List ℤ
  | 0, _ => []
  | _ + 1, none => []
  | n + 1, some a =>
    match l.heap a with
    | none => []
    | some e => e.key :: keys n e.next

end DLList

/-! ### Threads on one shared list -/

namespace DLList
open Monitor

inductive Cond where
  | dllistEmpty
  deriving DecidableEq

instance : Subsingleton Cond := ⟨fun .dllistEmpty .dllistEmpty => rfl⟩

inductive Op where
  | prepend
  | append
  | remove
  | sortedInsert
  | sortedRemove
  deriving DecidableEq

/-- A place in the code where a call into the kernel returns; `outside` carries what the
last call of a list operation returned. -/
inductive Loc (Addr Item : Type) where
  | outside (ret : Option (Option Item))
  | appending (item : Option Item)
  | removing
  | inserting (item : Option Item) (sortKey : ℤ)
  /-- `SortedInsert` comes back from its `Yield`. -/
  | yielded (item : Option Item) (newnode : Addr) (p : Place Addr)
  /-- `Append` or `SortedInsert` comes back from `Signal`. -/
  | signalled
  | sortedRemoving (sortKey : ℤ)
  /-- A pointer to no element has been followed. -/
  | crashed
  deriving DecidableEq

/-- Which call a thread makes next, the address that `new` finds, the bound of a loop and the
value of a variable that is not set. -/
inductive Input (Addr Item : Type) where
  | prepend (item : Option Item) (newnode : Addr)
  | append (item : Option Item)
  | remove
  | sortedInsert (item : Option Item) (sortKey : ℤ)
  | sortedRemove (sortKey : ℤ)
  | new (newnode : Addr) (rounds : ℕ)
  | go (rounds : ℕ) (garbage : Option Item)

/-- `SortedInsert` from the end of its `Yield`. Only the tail goes on to `Signal` and
`Release`; the other two places `return`. -/
def finish (l : DLList Addr Item) (newnode : Addr) (p : Place Addr) :
    Call Cond × Loc Addr Item × DLList Addr Item :=
  match l.linkTo newnode p with
  | none => (.pause, .crashed, l)
  | some l' =>
    if p = .tail then (.signal .dllistEmpty, .signalled, l') else (.pause, .outside none, l')

/-- `SortedInsert` from its lock to its `Yield`, or to its end when it does not yield. -/
def insert (yields : Bool) (l : DLList Addr Item) (item : Option Item) (newnode : Addr) :
    Found Addr → Call Cond × Loc Addr Item × DLList Addr Item
  | .empty =>
    (.signal .dllistEmpty, .signalled, { l with first := some newnode, last := some newnode })
  | .fault => (.pause, .crashed, l)
  | .place p =>
    match l.linkNew newnode p with
    | none => (.pause, .crashed, l)
    | some l' => if yields then (.pause, .yielded item newnode p, l') else l'.finish newnode p

/-- The code of threads that make the calls `calls`; `yields` is
`yield_flag && (testnum == 2 || testnum == 3)`. -/
def code (calls : Op → Bool) (yields : Bool) :
    Code Cond (Loc Addr Item) (DLList Addr Item) (Input Addr Item)
  | .outside _, l, .prepend item newnode =>
    if calls .prepend = false ∨ (l.heap newnode).isSome then none
    else
      match l.prepend newnode item with
      | some l' => some (.pause, .outside none, l')
      | none => some (.pause, .crashed, l)
  | .outside _, l, .append item =>
    if calls .append then some (.acquire, .appending item, l) else none
  | .outside _, l, .remove => if calls .remove then some (.acquire, .removing, l) else none
  | .outside _, l, .sortedInsert item sortKey =>
    if calls .sortedInsert then some (.acquire, .inserting item sortKey, l) else none
  | .outside _, l, .sortedRemove sortKey =>
    if calls .sortedRemove then some (.acquire, .sortedRemoving sortKey, l) else none
  | .appending item, l, .new newnode _ =>
    if (l.heap newnode).isSome then none
    else
      match l.append newnode item with
      | some l' => some (.signal .dllistEmpty, .signalled, l')
      | none => some (.pause, .crashed, l)
  | .signalled, l, .go _ _ => some (.release, .outside none, l)
  | .removing, l, .go _ _ =>
    if l.isEmpty then some (.wait .dllistEmpty, .removing, l)
    else
      match l.remove with
      | some (thing, _, l') => some (.release, .outside (some thing), l')
      | none => some (.pause, .crashed, l)
  | .inserting item sortKey, l, .new newnode rounds =>
    if (l.heap newnode).isSome then none
    else
      let l := l.new newnode item sortKey
      (l.find sortKey rounds).map (l.insert yields item newnode)
  | .yielded _ newnode p, l, .go _ _ => some (l.finish newnode p)
  | .sortedRemoving sortKey, l, .go rounds garbage =>
    if l.isEmpty then some (.wait .dllistEmpty, .sortedRemoving sortKey, l)
    else
      match l.sortedRemove sortKey rounds garbage with
      | some (.removed thing l') => some (.release, .outside (some thing), l')
      | some .absent => some (.pause, .outside (some none), l)
      | some .fault => some (.pause, .crashed, l)
      | none => none
  | _, _, _ => none

/-- Locations between `Acquire` and the end of an operation. -/
def Loc.inside : Loc Addr Item → Bool
  | .outside _ | .crashed => false
  | _ => true

def Loc.isOutside : Loc Addr Item → Bool
  | .outside _ => true
  | _ => false

end DLList
end Coursework.Nachos
