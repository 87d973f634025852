/-
# `RxFoundation.String` — finding and splitting

`Rx::String` is a `std::string`: bytes, of which any may be zero, and a zero byte
behind the last.  `findResults` hands its C string to `strstr`, so what is searched
ends at the first zero byte at or after the pointer, and so does what is searched
for.

The loop keeps an absolute pointer.  The range it declares inside hides the
parameter of that name, so the pointer is advanced by the offset of the match in
the whole string, and neither the end of the range nor the pointer's own place
enters.
-/
import CrashRealm.Lib.Occurrence
import CrashRealm.RxFoundation.Data

namespace Rx

/-- `Rx::String`; `max_size` is below what an `Index` can count. -/
structure ByteString where
  bytes : List UInt8
  length_lt : bytes.length < 2 ^ 63
  deriving DecidableEq

/-- An `Index` as `size_t`. -/
def sizeT (value : Int) : Nat := (value % 2 ^ 64).toNat

theorem sizeT_natCast {n : Nat} (h : n < 2 ^ 64) : sizeT n = n := by
  rw [sizeT]
  omega

namespace ByteString

def length (s : ByteString) : Nat := s.bytes.length

/-- What a C function sees of the bytes from a pointer on. -/
def cString (bytes : List UInt8) : List UInt8 := bytes.takeWhile (· != 0)

/-- The offset of what `strstr` finds from `current` on. -/
def matchFrom (s separator : ByteString) (current : Nat) : Option Nat :=
  (Occurrence.search (cString separator.bytes) (cString (s.bytes.drop current))).map (current + ·)

/-- `strstr(current, find)`; it may start at the terminating zero, and not behind it. -/
def strstr (s separator : ByteString) (current : Nat) : Except Fault (Option Nat) :=
  if current ≤ s.length then .ok (s.matchFrom separator current) else .error .outOfBounds

/-- The `do`/`while (1)` of `findResults`, for so many rounds. -/
def findLoop (s separator : ByteString) :
    Nat → Nat → List Range → Except Fault (List Range)
  | 0, _, _ => .error .spinning
  | rounds + 1, current, ranges => do
      let result ← s.strstr separator current
      match result with
      | some offset =>
          findLoop s separator rounds (current + (offset + separator.length))
            (ranges ++ [⟨offset, separator.length⟩])
      | none => .ok ranges

def findResults (rounds : Nat) (s separator : ByteString) (range : Range) :
    Except Fault (List Range) :=
  if s.length < sizeT (range.location + range.length) then .ok []
  else if sizeT range.length < separator.length then .ok []
  else if range.location < 0 then .error .outOfBounds
  else s.findLoop separator rounds range.location.toNat []

/-- `substr(pos, n)`; its exception does not leave a `noexcept` function. -/
def substr (s : ByteString) (pos n : Int) : Except Fault ByteString :=
  if sizeT pos ≤ s.length then
    .ok ⟨(s.bytes.drop (sizeT pos)).take (sizeT n), by
      refine Nat.lt_of_le_of_lt ?_ s.length_lt
      rw [List.length_take, List.length_drop]
      omega⟩
  else .error .halt

/-- The loop of `componetsSeparatedByString`; it leaves `startIndex` and `numChars`. -/
def splitLoop (s : ByteString) :
    List Range → Int → Int → List ByteString → Except Fault (Int × Int × List ByteString)
  | [], startIndex, numChars, array => .ok (startIndex, numChars, array)
  | currentRange :: ranges, startIndex, _, array => do
      let numChars := currentRange.location - startIndex
      let subString ← s.substr startIndex numChars
      splitLoop s ranges (currentRange.location + currentRange.length) numChars
        (array ++ [subString])

def componetsSeparatedByString (rounds : Nat) (s separator : ByteString) :
    Except Fault (List ByteString) := do
  let length : Int := s.length
  let ranges ← s.findResults rounds separator ⟨0, length⟩
  if ranges.length = 0 then .ok [s]
  else
    let (startIndex, numChars, array) ← s.splitLoop ranges 0 0 []
    let subString ← s.substr startIndex (length - numChars)
    .ok (array ++ [subString])

end ByteString

end Rx
