/-
# `RxFoundation.UnicodeChar` — the bitmaps of the character sets

`LoadBitmapData` reads a file that is in memory.  An address is told by how far it is
from the first byte of the file, and a byte that cannot be read ends the call; what is
around the file may be readable or not.  The host stores words lowest byte first, and
`SwapInt32BigToHost` returns an `Int32`.

`isMemberOf` answers from a bitmap.  A `UnicodeChar` has 16 bits, so of the planes of a
character set it only asks plane 0.
-/
import CrashRealm.RxFoundation.Fault
import Mathlib.Algebra.Group.Int.Defs
import Mathlib.Logic.Function.Basic

namespace Rx

/-! ## `ByteOrder.hpp` -/

/-- `swap_bytes<T, 4>` -/
def swapBytes (val : BitVec 32) : BitVec 32 :=
  ((val &&& 0xff000000#32) >>> 24) ||| ((val &&& 0x00ff0000#32) >>> 8) |||
    ((val &&& 0x0000ff00#32) <<< 8) ||| ((val &&& 0x000000ff#32) <<< 24)

/-- `SwapInt32BigToHost`, on a host with the lowest byte first. -/
def swapInt32BigToHost (v : BitVec 32) : BitVec 32 := swapBytes v

namespace UnicodeChar

/-- What can be read, and the bytes there. -/
abbrev Memory := Int → Option UInt8

/-- `*(const uint8_t *)p` -/
def read (m : Memory) (p : Int) : Except Fault UInt8 :=
  match m p with
  | none => .error .outOfBounds
  | some b => .ok b

/-- `*(uint32_t *)p` -/
def readWord (m : Memory) (p : Int) : Except Fault (BitVec 32) := do
  let b₀ ← read m p
  let b₁ ← read m (p + 1)
  let b₂ ← read m (p + 2)
  let b₃ ← read m (p + 3)
  .ok (b₃.toBitVec ++ b₂.toBitVec ++ b₁.toBitVec ++ b₀.toBitVec)

/-- A product of two `int`s. -/
def mulInt (a b : Int) : Except Fault Int :=
  if -2 ^ 31 ≤ a * b ∧ a * b < 2 ^ 31 then .ok (a * b) else .error .undefinedArithmetic

/-- `BitmapData` -/
structure BitmapData where
  numPlanes : Nat
  planes : List (Option Int)
  deriving DecidableEq, Repr

/-- The variables `LoadBitmapData` writes. -/
structure BitmapState where
  unicodeVersionString : Vector UInt8 8
  numberOfBitmaps : BitVec 32
  bitmapDataArray : Option (List BitmapData)
  deriving DecidableEq, Repr

/-- As the program starts. -/
def BitmapState.initial : BitmapState := ⟨Vector.replicate 8 0, 0, none⟩

/-- `UnicodeVersionString[i] = value` -/
def storeVersion (version : Vector UInt8 8) (i : Int) (value : UInt8) :
    Except Fault (Vector UInt8 8) :=
  if 0 ≤ i ∧ i < 8 then .ok (version.setIfInBounds i.toNat value) else .error .outOfBounds

/-- The loop that reads the version; it leaves `idx`. -/
def versionLoop (m : Memory) : (rounds idx : Nat) → Vector UInt8 8 →
    Except Fault (Nat × Vector UInt8 8)
  | 0, idx, version => .ok (idx, version)
  | rounds + 1, idx, version => do
      let b ← read m idx
      if b ≠ 0 then
        let version ← storeVersion version (idx * 2) b
        let version ← storeVersion version (idx * 2 + 1) '.'.toNat.toUInt8
        versionLoop m rounds (idx + 1) version
      else .ok (idx, version)

def loadVersion (m : Memory) (version : Vector UInt8 8) : Except Fault (Vector UInt8 8) := do
  let (idx, version) ← versionLoop m 4 0 version
  storeVersion version (if idx < 4 then (idx : Int) * 2 - 1 else 7) 0

/-- The loop over the planes of a bitmap, from `bitmapIndex` on. -/
def planeLoop (m : Memory) : (rounds bitmapIndex : Nat) → (bitmap : Int) →
    (currentPlane : UInt8) → Except Fault (List (Option Int))
  | 0, _, _, _ => .ok []
  | rounds + 1, bitmapIndex, bitmap, currentPlane =>
      if bitmapIndex = currentPlane.toNat then do
        let nextPlane ← read m (bitmap + 8 * 1024)
        let planes ← planeLoop m rounds (bitmapIndex + 1) (bitmap + 8 * 1024 + 1) nextPlane
        .ok (some bitmap :: planes)
      else do
        let planes ← planeLoop m rounds (bitmapIndex + 1) bitmap currentPlane
        .ok (none :: planes)

/-- One bitmap, from its offset and size at `bytes`. -/
def loadBitmap (m : Memory) (bitmapBase bytes : Int) : Except Fault BitmapData := do
  let offset ← readWord m bytes
  let bitmap := bitmapBase + (swapInt32BigToHost offset).toInt
  let size ← readWord m (bytes + 4)
  let bitmapSize := swapInt32BigToHost size
  let numPlanes : Int := (bitmapSize / (8 * 1024)).toNat
  let skipped ← mulInt (numPlanes - 1) (8 * 1024 + 1)
  -- the number of the last plane, if it has one
  let lastPlane ← read m (bitmap + (skipped - 1))
  let numPlanes := lastPlane.toNat + 1
  let planes ← planeLoop m numPlanes 0 bitmap 0
  .ok ⟨numPlanes, planes⟩

/-- The loop over the bitmaps. -/
def bitmapLoop (m : Memory) (bitmapBase : Int) : (rounds : Nat) → (bytes : Int) →
    Except Fault (List BitmapData)
  | 0, _ => .ok []
  | rounds + 1, bytes => do
      let data ← loadBitmap m bitmapBase bytes
      let array ← bitmapLoop m bitmapBase rounds (bytes + 8)
      .ok (data :: array)

/-- `LoadBitmapData`, where `LoadFile` finds this file or none. -/
def loadBitmapData (s : BitmapState) (file : Option Memory) :
    Except Fault (BitmapState × Bool) :=
  if s.bitmapDataArray.isSome then .ok (s, false) else
  match file with
  | none => .ok (s, false)
  | some m => do
      let version ← loadVersion m s.unicodeVersionString
      let headerSize ← readWord m 4
      let headerSize := swapInt32BigToHost headerSize
      let bitmapBase : Int := headerSize.toNat
      let headerSize := headerSize - 8
      let numberOfBitmaps := headerSize / 8
      let array ← bitmapLoop m bitmapBase numberOfBitmaps.toNat 8
      .ok (⟨version, numberOfBitmaps, some array⟩, true)

/-! ## Membership -/

/-- `_character >> BitShiftForByte` -/
def byteOf (character : UInt16) : Nat := character.toNat >>> 3

/-- `((uint32_t)1) << (_character & BitShiftForMask)` -/
def maskOf (character : UInt16) : Nat := 1 <<< (character.toNat &&& 7)

/-- `isMemberOf(const uint8_t *)` -/
def isMemberOfBitmap (m : Memory) (character : UInt16) (bitmap : Option Int) :
    Except Fault Bool :=
  match bitmap with
  | none => .ok false
  | some bitmap => do
      let b ← read m (bitmap + byteOf character)
      .ok (b.toNat &&& maskOf character != 0)

def addCharacterToBitmap (m : Memory) (bitmap : Int) (character : UInt16) :
    Except Fault Memory := do
  let b ← read m (bitmap + byteOf character)
  let b := UInt8.ofNat (b.toNat ||| maskOf character)
  .ok (Function.update m (bitmap + byteOf character) (some b))

/-! The character sets that the functions below name. -/

def controlCharacterSet : UInt32 := 1
def whitespaceCharacterSet : UInt32 := 2
def whitespaceAndNewlineCharacterSet : UInt32 := 3
def decimalDigitCharacterSet : UInt32 := 4
def illegalCharacterSet : UInt32 := 12
def newlineCharacterSet : UInt32 := 15
def compatibilityDecomposableCharacterSet : UInt32 := 100
def controlAndFormatterCharacterSet : UInt32 := 108

def lastExternalSet : UInt32 := newlineCharacterSet
def firstInternalSet : UInt32 := compatibilityDecomposableCharacterSet
def firstBitmapSet : UInt32 := decimalDigitCharacterSet

def mapExternalSetToInternalIndex (cset : UInt32) : UInt32 :=
  (if firstInternalSet ≤ cset then (cset - firstInternalSet) + lastExternalSet else cset) -
    firstBitmapSet

def mapCompatibilitySetID (cset : UInt32) : UInt32 :=
  if cset = controlCharacterSet then controlAndFormatterCharacterSet
  else if cset > lastExternalSet ∧ cset < firstInternalSet then
    (cset - lastExternalSet) + firstInternalSet
  else cset

def isWhitespace (theChar : UInt16) : Bool :=
  theChar = 0x0020 || theChar = 0x0009 || theChar = 0x00A0 || theChar = 0x1680 ||
    (theChar ≥ 0x2000 && theChar ≤ 0x200B) || theChar = 0x202F || theChar = 0x205F ||
    theChar = 0x3000

def isNewline (theChar : UInt16) : Bool :=
  (theChar ≥ 0x000A && theChar ≤ 0x000D) || theChar = 0x0085 || theChar = 0x2028 ||
    theChar = 0x2029

def isWhitespaceAndNewline (theChar : UInt16) : Bool := isWhitespace theChar || isNewline theChar

/-- `planeNo < data->_numPlanes && data->_planes[planeNo] ? ... : absent` -/
def isMemberOfPlane (m : Memory) (data : BitmapData) (planeNo : Nat) (character : UInt16)
    (absent : Bool) : Except Fault Bool :=
  if planeNo < data.numPlanes then
    match data.planes[planeNo]? with
    | none => .error .outOfBounds
    | some none => .ok absent
    | some (some plane) => isMemberOfBitmap m character (some plane)
  else .ok absent

/-- The table of a set answers; that of the illegal ones has the legal ones. -/
def isMemberOfTable (m : Memory) (data : BitmapData) (character : UInt16) (charset : UInt32) :
    Except Fault Bool :=
  let planeNo := (character.toNat >>> 16) &&& 0xFF
  let character' := character &&& 0xFF
  let special : Bool := character' = 0x01 || (character' > 0x1F && character' < 0x80)
  if charset = illegalCharacterSet then
    if planeNo = 0x0E then .ok (!special)
    else if planeNo = 0x0F ∨ planeNo = 0x10 then .ok (character' > 0xFFFD)
    else do
      let legal ← isMemberOfPlane m data planeNo character false
      .ok (!legal)
  else if charset = controlAndFormatterCharacterSet then
    if planeNo = 0x0E then .ok special
    else isMemberOfPlane m data planeNo character false
  else isMemberOfPlane m data planeNo character false

/-- `isMemberOf(uint32_t)`, where `LoadFile` finds this file or none. -/
def isMemberOf (s : BitmapState) (file : Option Memory) (character : UInt16) (charset : UInt32) :
    Except Fault (BitmapState × Bool) :=
  let charset := mapCompatibilitySetID charset
  if charset = whitespaceCharacterSet then .ok (s, isWhitespace character)
  else if charset = whitespaceAndNewlineCharacterSet then
    .ok (s, isWhitespaceAndNewline character)
  else if charset = newlineCharacterSet then .ok (s, isNewline character)
  else do
    let tableIndex := mapExternalSetToInternalIndex charset
    let s ←
      if s.bitmapDataArray = none then do
        let (s, _) ← loadBitmapData s file
        .ok s
      else .ok s
    if tableIndex.toNat < s.numberOfBitmaps.toNat then
      match file, s.bitmapDataArray.bind (·[tableIndex.toNat]?) with
      | some m, some data => do
          let result ← isMemberOfTable m data character charset
          .ok (s, result)
      | _, _ => .error .outOfBounds
    else .ok (s, false)

/-- One question after the other. -/
def isMemberOfAll (s : BitmapState) (file : Option Memory) : List (UInt16 × UInt32) →
    Except Fault (BitmapState × List Bool)
  | [] => .ok (s, [])
  | (character, charset) :: questions => do
      let (s, result) ← isMemberOf s file character charset
      let (s, results) ← isMemberOfAll s file questions
      .ok (s, result :: results)

/-- One character after the other. -/
def addCharactersToBitmap (m : Memory) (bitmap : Int) : List UInt16 → Except Fault Memory
  | [] => .ok m
  | character :: characters => do
      let m ← addCharacterToBitmap m bitmap character
      addCharactersToBitmap m bitmap characters

end UnicodeChar

end Rx
