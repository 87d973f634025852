/-
# `RxFoundation.Data` — a growable byte buffer over `malloc`

A `Data` is a flag, a length, a capacity and a byte pointer; its methods also
read and change the heap.  The platform decides the size constants and what
`flsl` computes, which on Android is the lowest set bit.  The allocator decides
which requests it grants and what fresh memory holds; `realloc` always moves, and
the block it is given is gone.

`Index` values are integers.  The one sum the code forms of arguments it has not
bounded, `newCount`, is undefined beyond `Index`; lengths that pass the checks
are bounded by the memory they are lengths of.

A system is a heap and the `Data` objects on it, each at a place of its own.
Clients have buffers too, from the allocator or not (`provide`), hand them in to
be adopted or borrowed, and do not free them afterwards.  `adopted` and
`borrowed` record what was handed in.
-/
import CrashRealm.Lib.Heap
import CrashRealm.Lib.Machine
import CrashRealm.RxFoundation.HashableInterface

namespace Rx

/-- `Rx::Range`. -/
structure Range where
  location : Int
  length : Int
  deriving DecidableEq, Repr

/-! ## `detail` -/

/-- `flsl`: the position of the highest set bit, from one. -/
def flsl (value : Nat) : Nat := if value = 0 then 0 else value.log2 + 1

/-- `__builtin_ffs`: the position of the lowest set bit, from one. -/
def ffs (value : Nat) : Nat :=
  match (List.range 32).find? value.testBit with
  | some i => i + 1
  | none => 0

structure Platform where
  dataMaxSize : Nat
  chunkSize : Nat
  lowThreshold : Nat
  highThreshold : Nat
  indexMax : Nat
  flsl : Nat → Nat

namespace Platform

def lp64 : Platform := ⟨2 ^ 42 - 1, 2 ^ 29, 2 ^ 20, 2 ^ 32, 2 ^ 63 - 1, Rx.flsl⟩

def ilp32 : Platform := ⟨2 ^ 31 - 1, 2 ^ 26, 2 ^ 20, 2 ^ 29, 2 ^ 31 - 1, Rx.flsl⟩

/-- The platform with Android's own `flsl`. -/
def android (P : Platform) : Platform := { P with flsl := ffs }

def roundUpCapacity (P : Platform) (capacity : Nat) : Nat :=
  if capacity < 16 then 16
  else if capacity < P.lowThreshold then
    let idx := P.flsl capacity
    2 ^ (idx + if idx % 2 = 0 then 0 else 1)
  else if capacity < P.highThreshold then 2 ^ P.flsl capacity
  else min (P.chunkSize * (1 + capacity >>> (P.flsl P.chunkSize - 1))) P.dataMaxSize

end Platform

/-- The platform, and an allocator: what fresh memory holds, and whether the
request that would get this name is granted for this size. -/
structure Host where
  platform : Platform
  garbage : UInt8
  grant : Nat → Nat → Bool

abbrev Memory := Heap UInt8

/-- `memcpy` and `memmove`. -/
def memmove (h : Memory) (dst src : Option Ptr) (n : Nat) : Except Fault Memory :=
  if n = 0 then .ok h
  else
    match dst, src with
    | some dst, some src =>
        match h.read src n with
        | none => .error .outOfBounds
        | some cells =>
            match h.write dst cells with
            | none => .error .outOfBounds
            | some h => .ok h
    | _, _ => .error .dangling

/-- `free`. -/
def free (h : Memory) (p : Option Ptr) : Except Fault Memory :=
  match p with
  | none => .ok h
  | some p =>
      match h.free p with
      | some h => .ok h
      | none => .error .badFree

/-- `p[i]`. -/
def byteAt (h : Memory) (p : Option Ptr) (i : Int) : Except Fault UInt8 :=
  match p with
  | none => .error .dangling
  | some p =>
      if i < 0 then .error .outOfBounds
      else
        match h.read ⟨p.block, p.offset + i.toNat⟩ 1 with
        | some [b] => .ok b
        | _ => .error .outOfBounds

/-- The `n` bytes at `p`, as `memcmp` reads them. -/
def load (h : Memory) (p : Option Ptr) (n : Nat) : Except Fault (List UInt8) :=
  if n = 0 then .ok []
  else
    match p with
    | none => .error .dangling
    | some p =>
        match h.read p n with
        | some cells => .ok cells
        | none => .error .outOfBounds

namespace Host

variable (H : Host)

def dataAllocate (h : Memory) (size : Nat) (clear : Bool) : Memory × Option Ptr :=
  if H.grant h.next size then
    (h.malloc (List.replicate size (if clear then 0 else H.garbage)), some ⟨h.next, 0⟩)
  else (h.refuse, none)

/-- The cells of a block that was moved to a new one of `size` cells. -/
def movedCells (h : Memory) (p : Ptr) (size : Nat) : List UInt8 :=
  (h.read p (min size (h.room p))).getD [] ++ List.replicate (size - h.room p) H.garbage

def realloc (h : Memory) (p : Option Ptr) (size : Nat) : Except Fault (Memory × Option Ptr) :=
  match p with
  | none => .ok (H.dataAllocate h size false)
  | some p =>
      if h.isBase p then
        if H.grant h.next size then do
          let moved ← free (h.malloc (H.movedCells h p size)) (some p)
          .ok (moved, some ⟨h.next, 0⟩)
        else .ok (h.refuse, none)
      else .error .badFree

end Host

/-! ## `Data` -/

structure Data where
  dontDeallocate : Bool
  length : Int
  capacity : Int
  bytes : Option Ptr
  deriving DecidableEq, Repr

/-- What the memory of an object held before it was constructed, as far as the
copy constructor reads it. -/
structure RawData where
  length : Int
  capacity : Int
  bytes : Option Ptr
  deriving DecidableEq, Repr

def RawData.zeroed : RawData := ⟨0, 0, none⟩

/-- `p + n`. -/
def advance (p : Option Ptr) (n : Int) : Option Ptr :=
  p.map fun p => { p with offset := p.offset + n.toNat }

namespace Data

def validateRange (d : Data) (range : Range) : Except Fault Unit :=
  if ¬ (0 ≤ range.location ∧ range.location ≤ d.length) then
    .error (.assertion "0 <= range.location && range.location <= data.getLength()")
  else if ¬ 0 ≤ range.length then .error (.assertion "0 <= range.length")
  else if ¬ range.location + range.length ≤ d.length then
    .error (.assertion "range.location + range.length <= data.getLength()")
  else .ok ()

def ValidRange (d : Data) (range : Range) : Prop :=
  0 ≤ range.location ∧ 0 ≤ range.length ∧ range.location + range.length ≤ d.length

/-- The test whether the source lies in the buffer about to grow. -/
def overlaps (d : Data) (newBytes : Option Ptr) (newLength : Int) : Bool :=
  match d.bytes, newBytes with
  | some p, some q =>
      p.block == q.block && (q.offset : Int) < p.offset + d.capacity &&
        (p.offset : Int) < q.offset + newLength
  | _, _ => false

variable (H : Host)

/-- `Data(bytes, length, copy, freeWhenDone)`. -/
def construct (h : Memory) (bytes : Option Ptr) (length : Int) (copy freeWhenDone : Bool) :
    Except Fault (Memory × Data) :=
  match bytes, copy with
  | some p, false => .ok (h, ⟨!freeWhenDone, length, length, some p⟩)
  | bytes, _ =>
      let (h, memory) := H.dataAllocate h length.toNat true
      match bytes with
      | none => .ok (h, ⟨false, 0, length, memory⟩)
      | some p => do
          let h ← memmove h memory (some p) length.toNat
          .ok (h, ⟨false, length, length, memory⟩)

/-- `Data()`. -/
def constructDefault (h : Memory) : Except Fault (Memory × Data) :=
  construct H h none (H.platform.roundUpCapacity 1) false true

/-- `__dataGrow`, with `clear` false as in its only call. -/
def dataGrow (h : Memory) (d : Data) (numNewValues : Int) : Except Fault (Memory × Data) := do
  let newLength := d.length + numNewValues
  if newLength > H.platform.dataMaxSize ∨ newLength < 0 then .error .halt
  else
    let capacity := H.platform.roundUpCapacity newLength.toNat
    let (h, bytes) ← H.realloc h d.bytes capacity
    match bytes with
    | none => .error .halt
    | some p => .ok (h, { d with capacity, bytes := some p })

/-- The source, moved out of the way if it lies in the buffer about to grow. -/
def saveSource (h : Memory) (d : Data) (newBytes : Option Ptr) (newLength : Int) :
    Except Fault (Memory × Option Ptr) :=
  if d.overlaps newBytes newLength then do
    let (h, srcBuf) := H.dataAllocate h newLength.toNat false
    let h ← memmove h srcBuf newBytes newLength.toNat
    .ok (h, srcBuf)
  else .ok (h, newBytes)

/-- The part of `replaceBytes` that makes room. -/
def makeRoom (h : Memory) (d : Data) (range : Range) (newBytes : Option Ptr)
    (newLength newCount : Int) : Except Fault (Memory × Data × Option Ptr) :=
  if d.capacity < newCount then do
    let (h, srcBuf) ← saveSource H h d newBytes newLength
    let (h, d) ← dataGrow H h d (newLength - range.length)
    .ok (h, d, srcBuf)
  else .ok (h, d, newBytes)

/-- The bytes behind the range move to their new place. -/
def moveTail (h : Memory) (d : Data) (range : Range) (newLength : Int) : Except Fault Memory :=
  if newLength ≠ range.length ∧ range.location + range.length < d.length then
    memmove h (advance d.bytes (range.location + newLength))
      (advance d.bytes (range.location + range.length))
      (d.length - range.location - range.length).toNat
  else .ok h

/-- The new bytes go to theirs. -/
def storeSource (h : Memory) (d : Data) (range : Range) (srcBuf : Option Ptr) (newLength : Int) :
    Except Fault Memory :=
  if 0 < newLength ∧ srcBuf.isSome then
    memmove h (advance d.bytes range.location) srcBuf newLength.toNat
  else .ok h

def releaseSource (h : Memory) (srcBuf newBytes : Option Ptr) : Except Fault Memory :=
  if srcBuf ≠ newBytes then free h srcBuf else .ok h

def replaceBytes (h : Memory) (d : Data) (range : Range) (newBytes : Option Ptr)
    (newLength : Int) : Except Fault (Memory × Data) := do
  d.validateRange range
  if ¬ 0 ≤ newLength then .error (.assertion "0 <= newLength")
  else if d.length < 0 ∨ range.length < 0 ∨ newLength < 0 then .error .halt
  else
    let newCount := d.length - range.length + newLength
    if newCount > H.platform.indexMax then .error .undefinedArithmetic
    else if newCount < 0 then .error .halt
    else
      let (h, d, srcBuf) ← makeRoom H h d range newBytes newLength newCount
      let h ← moveTail h d range newLength
      let h ← storeSource h d range srcBuf newLength
      let h ← releaseSource h srcBuf newBytes
      .ok (h, { d with length := newCount })

/-- `appendData(bytes, length)`. -/
def appendBytes (h : Memory) (d : Data) (bytes : Option Ptr) (length : Int) :
    Except Fault (Memory × Data) :=
  replaceBytes H h d ⟨d.length, 0⟩ bytes length

/-- `appendData(data)`. -/
def appendData (h : Memory) (d data : Data) : Except Fault (Memory × Data) :=
  appendBytes H h d data.bytes data.length

def deleteBytes (h : Memory) (d : Data) (range : Range) : Except Fault (Memory × Data) :=
  replaceBytes H h d range none 0

/-- `Data(const Data &)`: no member is initialised but the flags. -/
def copyConstruct (h : Memory) (raw : RawData) (value : Data) : Except Fault (Memory × Data) :=
  appendData H h ⟨false, raw.length, raw.capacity, raw.bytes⟩ value

/-- `Data(Data &&)`: the source keeps what it has. -/
def moveConstruct (value : Data) : Data := ⟨false, value.length, value.capacity, value.bytes⟩

def setLength (d : Data) (length : Int) : Data := { d with length }

/-- `~Data()`. -/
def destroy (h : Memory) (d : Data) : Except Fault Memory :=
  if d.dontDeallocate then .ok h else Rx.free h d.bytes

/-! ### Reading -/

/-- `operator==`. -/
def equals (h : Memory) (d rhs : Data) : Except Fault Bool :=
  if d.length ≠ rhs.length then .ok false
  else do
    let ptr0 ← load h d.bytes d.length.toNat
    let ptr1 ← load h rhs.bytes d.length.toNat
    .ok (ptr0 == ptr1)

def hash (h : Memory) (d : Data) : Except Fault UInt32 :=
  Rx.hash (byteAt h d.bytes) (min 80 d.length)

/-- `%02x`. -/
def hex2 (b : UInt8) : String :=
  String.ofList [(b.toNat / 16).digitChar, (b.toNat % 16).digitChar]

/-- The bytes from `idx` up to `stop` in hexadecimal. -/
def describeBytes (h : Memory) (d : Data) (idx stop : Int) : Except Fault String :=
  if idx < stop then do
    let b ← byteAt h d.bytes idx
    let rest ← describeBytes h d (idx + 1) stop
    .ok (hex2 b ++ rest)
  else .ok ""
termination_by (stop - idx).toNat

/-- The bytes four at a time, as `%02x%02x%02x%02x` has them. -/
def describeWords (h : Memory) (d : Data) (idx stop : Int) : Except Fault String :=
  if idx < stop then do
    let word ← describeBytes h d idx (idx + 4)
    let rest ← describeWords h d (idx + 4) stop
    .ok (word ++ rest)
  else .ok ""
termination_by (stop - idx).toNat

/-- `(unsigned long)value`. -/
def unsignedLong (P : Platform) (value : Int) : Int := value % (2 * (P.indexMax + 1))

/-- `copyDescription`; `this` is how `%p` shows the object. -/
def copyDescription (P : Platform) (h : Memory) (this : String) (d : Data) :
    Except Fault String := do
  let start := "<Rx::Data " ++ this ++ ">\x7blength = " ++ toString (unsignedLong P d.length) ++
    ", capacity = " ++ toString (unsignedLong P d.capacity) ++ ", bytes = 0x"
  if 24 < d.length then do
    let first ← describeWords h d 0 16
    let last ← describeWords h d (d.length - 8) d.length
    .ok (start ++ first ++ " ... " ++ last ++ "\x7d")
  else do
    let all ← describeBytes h d 0 d.length
    .ok (start ++ all ++ "\x7d")

end Data

/-! ## Systems -/

/-- A heap, the live objects by their place, and what clients have handed in. -/
structure DataSystem where
  heap : Memory
  objects : Nat → Option Data
  adopted : List Nat
  borrowed : List Nat

namespace DataSystem

inductive Action where
  | provide (cells : List UInt8) (malloced : Bool)
  | construct (i : Nat) (bytes : Option Ptr) (length : Int) (copy freeWhenDone : Bool)
  | constructDefault (i : Nat)
  | copyConstruct (i : Nat) (raw : RawData) (j : Nat)
  | moveConstruct (i j : Nat)
  | setLength (i : Nat) (length : Int)
  | appendBytes (i : Nat) (bytes : Option Ptr) (length : Int)
  | appendData (i j : Nat)
  | replaceBytes (i : Nat) (range : Range) (bytes : Option Ptr) (newLength : Int)
  | deleteBytes (i : Nat) (range : Range)
  | destroy (i : Nat)
  deriving DecidableEq, Repr

def init : DataSystem := ⟨.empty, fun _ => none, [], []⟩

def objectAt (s : DataSystem) (i : Nat) : Except Fault Data :=
  match s.objects i with
  | some d => .ok d
  | none => .error .dangling

def put (s : DataSystem) (i : Nat) (result : Memory × Data) : DataSystem :=
  { s with heap := result.1, objects := Function.update s.objects i (some result.2) }

theorem objects_put_self (s : DataSystem) (i : Nat) (result : Memory × Data) :
    (s.put i result).objects i = some result.2 := Function.update_self ..

theorem objects_put_of_ne (s : DataSystem) {i k : Nat} (hk : k ≠ i) (result : Memory × Data) :
    (s.put i result).objects k = s.objects k := Function.update_of_ne hk ..

def remove (s : DataSystem) (i : Nat) (heap : Memory) : DataSystem :=
  { s with heap, objects := Function.update s.objects i none }

theorem objects_remove_self (s : DataSystem) (i : Nat) (heap : Memory) :
    (s.remove i heap).objects i = none := Function.update_self ..

theorem objects_remove_of_ne (s : DataSystem) {i k : Nat} (hk : k ≠ i) (heap : Memory) :
    (s.remove i heap).objects k = s.objects k := Function.update_of_ne hk ..

/-- A method that changes the object at `i`. -/
def edit (s : DataSystem) (i : Nat) (f : Data → Except Fault (Memory × Data)) :
    Except Fault DataSystem := do
  let d ← s.objectAt i
  let result ← f d
  .ok (s.put i result)

theorem edit_eq {s : DataSystem} {i : Nat} {d : Data} (hi : s.objects i = some d)
    (f : Data → Except Fault (Memory × Data)) :
    s.edit i f = f d >>= fun result => .ok (s.put i result) := by
  rw [edit, objectAt, hi, ok_bind]

/-- What a constructor call hands in. -/
def handIn (s : DataSystem) (bytes : Option Ptr) (copy freeWhenDone : Bool) : DataSystem :=
  match bytes, copy, freeWhenDone with
  | some p, false, true => { s with adopted := p.block :: s.adopted }
  | some p, false, false => { s with borrowed := p.block :: s.borrowed }
  | _, _, _ => s

theorem heap_handIn (s : DataSystem) (bytes : Option Ptr) (copy freeWhenDone : Bool) :
    (s.handIn bytes copy freeWhenDone).heap = s.heap := by
  cases bytes <;> cases copy <;> cases freeWhenDone <;> rfl

theorem objects_handIn (s : DataSystem) (bytes : Option Ptr) (copy freeWhenDone : Bool) :
    (s.handIn bytes copy freeWhenDone).objects = s.objects := by
  cases bytes <;> cases copy <;> cases freeWhenDone <;> rfl

variable (H : Host)

def step (s : DataSystem) : Action → Except Fault DataSystem
  | .provide cells malloced => .ok { s with heap := s.heap.add cells malloced }
  | .construct i bytes length copy freeWhenDone => do
      let result ← Data.construct H s.heap bytes length copy freeWhenDone
      .ok ((s.handIn bytes copy freeWhenDone).put i result)
  | .constructDefault i => do
      let result ← Data.constructDefault H s.heap
      .ok (s.put i result)
  | .copyConstruct i raw j => do
      let value ← s.objectAt j
      let result ← Data.copyConstruct H s.heap raw value
      .ok (s.put i result)
  | .moveConstruct i j => do
      let value ← s.objectAt j
      .ok (s.put i (s.heap, value.moveConstruct))
  | .setLength i length => s.edit i fun d => .ok (s.heap, d.setLength length)
  | .appendBytes i bytes length => s.edit i fun d => d.appendBytes H s.heap bytes length
  | .appendData i j => do
      let data ← s.objectAt j
      s.edit i fun d => d.appendData H s.heap data
  | .replaceBytes i range bytes newLength =>
      s.edit i fun d => d.replaceBytes H s.heap range bytes newLength
  | .deleteBytes i range => s.edit i fun d => d.deleteBytes H s.heap range
  | .destroy i => do
      let d ← s.objectAt i
      let heap ← d.destroy s.heap
      .ok (s.remove i heap)

/-- `n` bytes can be read at `p`, or there is no source. -/
def Readable (h : Memory) (p : Option Ptr) (n : Int) : Prop := ∀ q ∈ p, n.toNat ≤ h.room q

/-- A length a caller can pass. -/
def IsLength (length : Int) : Prop := 0 ≤ length ∧ length ≤ H.platform.indexMax

/-- A buffer of the client's own, live and not handed in to be freed. -/
def IsClients (s : DataSystem) (p : Ptr) : Prop :=
  (s.heap.cells? p.block).isSome = true ∧ p.block ∉ s.heap.allocated ∧ p.block ∉ s.adopted

/-- Calls on live objects, constructors at free places; lengths are of type
`Index` and not negative, ranges are valid, and what is handed in is the client's
own: to be freed, the start of a block from the allocator nobody else was given;
to be borrowed, any memory. -/
def enabled (s : DataSystem) : Action → Prop
  | .provide _ _ => True
  | .construct i bytes length copy freeWhenDone => s.objects i = none ∧
      IsLength H length ∧ Readable s.heap bytes length ∧
      ∀ p ∈ bytes, copy = false → s.IsClients p ∧
        (freeWhenDone = true → s.heap.isBase p = true ∧ p.block ∉ s.borrowed)
  | .constructDefault i => s.objects i = none
  | .copyConstruct i _ j | .moveConstruct i j => s.objects i = none ∧ (s.objects j).isSome = true
  | .setLength i length => (s.objects i).isSome = true ∧ IsLength H length
  | .appendBytes i bytes length => (s.objects i).isSome = true ∧ IsLength H length ∧
      Readable s.heap bytes length
  | .appendData i j => (s.objects i).isSome = true ∧ (s.objects j).isSome = true
  | .replaceBytes i range bytes newLength => (∃ d ∈ s.objects i, d.ValidRange range) ∧
      IsLength H newLength ∧ Readable s.heap bytes newLength
  | .deleteBytes i range => ∃ d ∈ s.objects i, d.ValidRange range
  | .destroy i => (s.objects i).isSome = true

instance (length : Int) : Decidable (IsLength H length) :=
  inferInstanceAs (Decidable (_ ∧ _))

instance (h : Memory) (p : Option Ptr) (n : Int) : Decidable (Readable h p n) :=
  inferInstanceAs (Decidable (∀ q ∈ p, n.toNat ≤ h.room q))

instance (s : DataSystem) (p : Ptr) : Decidable (s.IsClients p) :=
  inferInstanceAs (Decidable (_ ∧ _ ∧ _))

instance (d : Data) (range : Range) : Decidable (d.ValidRange range) :=
  inferInstanceAs (Decidable (_ ∧ _ ∧ _))

instance (s : DataSystem) : DecidablePred (enabled H s)
  | .provide .. => inferInstanceAs (Decidable True)
  | .construct .. => inferInstanceAs (Decidable (_ ∧ IsLength _ _ ∧ Readable _ _ _ ∧
      ∀ p ∈ _, _ → IsClients _ _ ∧ (_ → _)))
  | .constructDefault _ => inferInstanceAs (Decidable (_ = _))
  | .copyConstruct .. | .moveConstruct .. | .appendData .. => inferInstanceAs (Decidable (_ ∧ _))
  | .setLength .. => inferInstanceAs (Decidable (_ ∧ IsLength _ _))
  | .appendBytes .. => inferInstanceAs (Decidable (_ ∧ IsLength _ _ ∧ Readable _ _ _))
  | .replaceBytes .. => inferInstanceAs (Decidable ((∃ d ∈ _, Data.ValidRange d _) ∧
      IsLength _ _ ∧ Readable _ _ _))
  | .deleteBytes .. => inferInstanceAs (Decidable (∃ d ∈ _, Data.ValidRange d _))
  | .destroy _ => inferInstanceAs (Decidable (_ = _))

def machine : Machine DataSystem Action Fault where
  start := .init
  enabled := enabled H
  step := step H

instance (s : DataSystem) (a : Action) : Decidable ((machine H).enabled s a) :=
  inferInstanceAs (Decidable (enabled H s a))

/-- A 64-bit host whose allocator grants everything. -/
def generous : Host := ⟨.lp64, 0xAA, fun _ _ => true⟩

end DataSystem

end Rx
