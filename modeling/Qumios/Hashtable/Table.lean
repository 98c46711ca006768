import Qumios.Lib.Buffer
import Qumios.Lib.Run

/-! The hash table of `qm_utils_hashtable.c`.

A bucket is an item in the table and a chain of items behind it. Nothing points into
a bucket from outside, so its chain is a list. An item owns two buffers, a string each;
`size_val` is kept beside the value's buffer, since it is not always the buffer's
length. What `qm_malloc` leaves in a buffer is a parameter, and what the standard leaves
undefined (writing or reading past a buffer, freeing an item that is still linked) ends
the run. -/
namespace Qumios.Hashtable
open Run

/-- `_hash_func`. -/
def hashFunc (key : Bytes) : UInt32 :=
  let hash : UInt32 := key.foldl (fun hash b =>
    let hash : UInt32 := hash + b.toUInt32
    let hash := hash + (hash <<< 10)
    hash ^^^ (hash >>> 6)) 0
  let hash := hash + (hash <<< 3)
  let hash := hash ^^^ (hash >>> 11)
  hash + (hash <<< 15)

/-- `ht_item_t`, without `next`; `len_key` is the length of `key`. -/
structure Item where
  key : Option Bytes := none
  val : Option Bytes := none
  sizeVal : Nat := 0
  deriving DecidableEq, Repr

structure Bucket where
  root : Item := {}
  chain : List Item := []
  deriving DecidableEq, Repr

def Bucket.items (b : Bucket) : List Item := b.root :: b.chain

/-- `ht_t`. -/
abbrev Table := List Bucket

/-- The calls of `qm_malloc` in `ht_add`. -/
inductive Alloc where
  | key
  | val
  | node
  deriving DecidableEq, Repr

/-- The heap: whether an allocation succeeds, and what is in a new buffer. -/
structure Heap where
  mem : Alloc → Bool := fun _ => true
  fresh : Nat → Bytes := fun n => List.replicate n 0

/-- `ht_init`. -/
def htInit (maxCount : Nat) : Table := List.replicate maxCount {}

/-- `_ht_find`: the bucket of a key that is not empty. -/
def position (t : Table) (key : Bytes) : Nat := (hashFunc key).toNat % t.length

def Table.bucket (t : Table) (key : Bytes) : Bucket := t.getD (position t key) {}

def Item.holds (item : Item) (key : Bytes) : Bool := item.key == some key

/-! ### Finding -/

/-- What is copied from an item to `room` bytes, and the size; `none` if that reads past the
value's buffer. -/
def Item.copy (item : Item) (room : Nat) : Option (Option (Bytes × Nat)) :=
  match item.val with
  | none => some none
  | some val =>
    if val.length < min item.sizeVal room then none else some (some (val.take (min item.sizeVal room), item.sizeVal))

/-- `ht_find`. -/
def htFind (t : Table) (key : Bytes) (room : Nat) : Option (Option (Bytes × Nat)) :=
  if key = [] then some none
  else
    match (t.bucket key).items.find? (·.holds key) with
    | none => some none
    | some item => item.copy room

/-! ### Adding -/

def newItem (heap : Heap) (key val : Bytes) : Option Item :=
  if heap.mem .node && heap.mem .key && heap.mem .val then some ⟨some key, some val, val.length⟩ else none

/-- The loop of `ht_add` from the second item on, with `prev` the item in front of it. An
item with the key gets a new buffer, and the value goes to the item in front. The result
is `prev`, the rest, and the code; `none` is a write past a buffer, or into a freed item. -/
def addLoop (heap : Heap) (key val : Bytes) : Item → List Item → Option (Item × List Item × Bool)
  | prev, [] =>
    match newItem heap key val with
    | none => some (prev, [], false)
    | some item => some (prev, [item], true)
  | prev, cur :: rest =>
    if cur.holds key then
      match prev.val with
      | none => none
      | some old =>
        if old.length < val.length then none
        else
          let cur := { cur with val := if heap.mem .val then some (heap.fresh val.length) else none }
          some ({ prev with val := some (val ++ old.drop val.length), sizeVal := val.length }, cur :: rest, true)
    else
      match addLoop heap key val cur rest with
      | none => none
      | some (cur, rest, code) => some (prev, cur :: rest, code)

/-- `ht_add` in the bucket. -/
def Bucket.add (heap : Heap) (key val : Bytes) (b : Bucket) : Option (Bucket × Bool) :=
  if b.root.key = none then
    if !heap.mem .key || !heap.mem .val then some (b, false)
    else some ({ b with root := ⟨some key, some val, val.length⟩ }, true)
  else if b.root.holds key then
    -- without memory the item in the table would be freed
    if !heap.mem .val then none
    else some ({ b with root := { b.root with val := some val, sizeVal := val.length } }, true)
  else
    match addLoop heap key val b.root b.chain with
    | none => none
    | some (root, chain, code) => some (⟨root, chain⟩, code)

/-- `ht_add`. -/
def htAdd (heap : Heap) (t : Table) (key val : Bytes) : Option (Table × Bool) :=
  if key = [] ∨ val = [] then some (t, false)
  else
    match (t.bucket key).add heap key val with
    | none => none
    | some (b, code) => some (t.set (position t key) b, code)

/-! ### Deleting -/

/-- `!memcmp(a, key, len)` with `len` the length of `key`; `none` if it reads past `a`. -/
def memcmpEq (a key : Bytes) : Option Bool :=
  if a.length < key.length ∧ a = key.take a.length then none else some (a.take key.length == key)

/-- The test of `_ht_del_node`; without a key every item passes. -/
def Item.hit (item : Item) (key : Option Bytes) : Option Bool :=
  match item.key, item.val with
  | some k, some _ =>
    match key with
    | none => some true
    | some key => memcmpEq k key
  | _, _ => some false

/-- Its loop, behind the item in the table. -/
def delChain (key : Option Bytes) : List Item → Option (List Item × Bool)
  | [] => some ([], false)
  | item :: rest =>
    match item.hit key with
    | none => none
    | some true => if key.isSome then some (rest, true) else (delChain key rest).map fun r => (r.1, true)
    | some false => (delChain key rest).map fun r => (item :: r.1, r.2)

/-- `_ht_del_node`. -/
def delNode (key : Option Bytes) (b : Bucket) : Option (Bucket × Bool) :=
  match b.root.hit key with
  | none => none
  | some true =>
    let root := { b.root with key := none, val := none }
    if key.isSome then some (⟨root, b.chain⟩, true) else (delChain key b.chain).map fun r => (⟨root, r.1⟩, true)
  | some false => (delChain key b.chain).map fun r => (⟨b.root, r.1⟩, r.2)

/-- `ht_del`. -/
def htDel (t : Table) (key : Bytes) : Option (Table × Bool) :=
  if key = [] then some (t, false)
  else
    match delNode (some key) (t.bucket key) with
    | none => none
    | some (b, code) => some (t.set (position t key) b, code)

/-- `ht_clear`. -/
def htClear (t : Table) : Option Table := t.mapM fun b => (delNode none b).map Prod.fst

/-! ### Steps -/

inductive Event where
  | add (key val : Bytes)
  | find (key : Bytes) (room : Nat)
  | del (key : Bytes)
  | clear
  deriving DecidableEq, Repr

inductive Output where
  /-- Whether the call returned 0. -/
  | code (ok : Bool)
  | found (r : Option (Bytes × Nat))
  deriving DecidableEq, Repr

def step (heap : Heap) (t : Table) : Event → Option (Table × Output)
  | .add key val => (htAdd heap t key val).map fun r => (r.1, .code r.2)
  | .find key room => (htFind t key room).map fun r => (t, .found r)
  | .del key => (htDel t key).map fun r => (r.1, .code r.2)
  | .clear => (htClear t).map fun t => (t, .code true)

def machine (heap : Heap) : Machine Table Event Output where
  step := step heap

end Qumios.Hashtable
