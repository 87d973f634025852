/-
# `RxFoundation.UnicodeCharSpec` — when the bitmaps are found

A file has a version, and for each bitmap an offset and a size.  A bitmap is plane 0
and then, with rising numbers, each plane that is stored beside it, its number before
it.  `Holds` says that a memory holds such a file, with whatever there is around it and
between the bitmaps.

`LoadBitmapData` looks for the number of the last plane before that plane.  Where there
is only plane 0 this is the byte before the bitmap, which is none of its own.  It reads
the byte after the bitmap as well, in search of a next number.
-/
import CrashRealm.Lib.ByteImage
import CrashRealm.RxFoundation.UnicodeChar
import Mathlib.Algebra.Group.Nat.Defs
import Mathlib.Data.List.Forall2
import Mathlib.Tactic.IntervalCases

namespace Rx

/-! ## Words -/

/-- The bytes of a word, in the other order. -/
theorem swapBytes_append (b₀ b₁ b₂ b₃ : BitVec 8) :
    swapBytes (b₃ ++ b₂ ++ b₁ ++ b₀) = b₀ ++ b₁ ++ b₂ ++ b₃ := by
  apply BitVec.eq_of_getLsbD_eq
  intro i hi
  simp only [swapBytes, BitVec.getLsbD_or, BitVec.getLsbD_ushiftRight, BitVec.getLsbD_shiftLeft,
    BitVec.getLsbD_and, BitVec.getLsbD_append]
  -- one bit after the other
  interval_cases i <;> simp

namespace UnicodeChar

open ByteImage

variable {m : Memory} {p : Int}

theorem read_eq_ok {b : UInt8} : read m p = .ok b ↔ m p = some b := by
  rw [read]
  cases m p with
  | none =>
      constructor
      · intro h
        cases h
      · intro h
        cases h
  | some c =>
      constructor
      · intro h
        cases h
        rfl
      · intro h
        cases h
        rfl

theorem toNat_append (b₀ b₁ b₂ b₃ : UInt8) :
    (b₀.toBitVec ++ b₁.toBitVec ++ b₂.toBitVec ++ b₃.toBitVec).toNat =
      ((b₀.toNat * 256 + b₁.toNat) * 256 + b₂.toNat) * 256 + b₃.toNat := by
  have h₁ : b₁.toBitVec.toNat < 2 ^ 8 := b₁.toBitVec.isLt
  have h₂ : b₂.toBitVec.toNat < 2 ^ 8 := b₂.toBitVec.isLt
  have h₃ : b₃.toBitVec.toNat < 2 ^ 8 := b₃.toBitVec.isLt
  rw [BitVec.toNat_append, BitVec.toNat_append, BitVec.toNat_append,
    ← Nat.shiftLeft_add_eq_or_of_lt h₁, ← Nat.shiftLeft_add_eq_or_of_lt h₂,
    ← Nat.shiftLeft_add_eq_or_of_lt h₃, Nat.shiftLeft_eq, Nat.shiftLeft_eq, Nat.shiftLeft_eq]
  rfl

theorem readWord_spec {w : Nat} (h : WordAt m p w) :
    ∃ v, readWord m p = .ok v ∧ (swapInt32BigToHost v).toNat = w := by
  obtain ⟨b₀, b₁, b₂, b₃, ⟨h₀, h₁, h₂, h₃, -⟩, rfl⟩ := h
  have hsecond : p + 1 + 1 = p + 2 := Int.add_assoc p 1 1
  have hthird : p + 2 + 1 = p + 3 := Int.add_assoc p 2 1
  rw [hsecond] at h₂ h₃
  rw [hthird] at h₃
  refine ⟨b₃.toBitVec ++ b₂.toBitVec ++ b₁.toBitVec ++ b₀.toBitVec, ?_, ?_⟩
  · rw [readWord, read_eq_ok.mpr h₀, ok_bind, read_eq_ok.mpr h₁, ok_bind, read_eq_ok.mpr h₂,
      ok_bind, read_eq_ok.mpr h₃, ok_bind]
  · rw [swapInt32BigToHost, swapBytes_append, toNat_append]

/-! ## The file -/

/-- The bytes of one plane. -/
structure Plane where
  bytes : List UInt8
  size : bytes.length = 8 * 1024

/-- A bitmap; `rest` has the planes above 0, with their numbers. -/
structure Bitmap where
  first : Plane
  rest : List (UInt8 × Plane)
  increasing : (0 :: rest.map Prod.fst).Pairwise (· < ·)

/-- A plane, and what follows it. -/
def encode (first : Plane) : List (UInt8 × Plane) → List UInt8
  | [] => first.bytes
  | (number, plane) :: rest => first.bytes ++ number :: encode plane rest

/-- The number of the last of these planes. -/
def lastNumber : UInt8 → List (UInt8 × Plane) → UInt8
  | number, [] => number
  | _, (number, _) :: rest => lastNumber number rest

namespace Bitmap

/-- All planes that are stored. -/
def stored (b : Bitmap) : List (UInt8 × Plane) := (0, b.first) :: b.rest

def bytes (b : Bitmap) : List UInt8 := encode b.first b.rest

/-- The highest plane that is stored. -/
def highest (b : Bitmap) : UInt8 := lastNumber 0 b.rest

end Bitmap

structure File where
  version : List UInt8
  size : version.length = 4
  /-- each bitmap, and its offset -/
  entries : List (Nat × Bitmap)

def File.headerSize (f : File) : Nat := 8 + 8 * f.entries.length

/-- The table, from here on. -/
def TableAt (m : Memory) : Int → List (Nat × Bitmap) → Prop
  | _, [] => True
  | p, (offset, b) :: entries =>
      WordAt m p offset ∧ WordAt m (p + 4) b.bytes.length ∧ TableAt m (p + 8) entries

structure Holds (m : Memory) (f : File) : Prop where
  version : At m 0 f.version
  headerSize : WordAt m 4 f.headerSize
  table : TableAt m 8 f.entries
  bitmaps : ∀ e ∈ f.entries, At m (f.headerSize + e.1) e.2.bytes

/-- The bitmap that starts here is told by this. -/
structure Shows (m : Memory) (p : Int) (b : Bitmap) (data : BitmapData) : Prop where
  numPlanes : data.numPlanes = b.highest.toNat + 1
  length : data.planes.length = data.numPlanes
  stored : ∀ (j : Nat) number plane, b.stored[j]? = some (number, plane) →
    data.planes[number.toNat]? = some (some (p + (8 * 1024 + 1) * j)) ∧
      At m (p + (8 * 1024 + 1) * j) plane.bytes
  absent : ∀ n < data.numPlanes, (∀ e ∈ b.stored, e.1.toNat ≠ n) →
    data.planes[n]? = some none

/-- All bitmaps of the file are. -/
def Loaded (m : Memory) (f : File) (s : BitmapState) : Prop :=
  s.numberOfBitmaps.toNat = f.entries.length ∧ ∃ array, s.bitmapDataArray = some array ∧
    List.Forall₂ (fun e data => Shows m (f.headerSize + e.1) e.2 data) f.entries array

/-- When one bitmap is. -/
structure Finds (m : Memory) (headerSize offset : Nat) (b : Bitmap) : Prop where
  reaches : offset < 2 ^ 31
  before : b.rest = [] → m (headerSize + offset - 1) = some 0
  after : (m (headerSize + offset + b.bytes.length)).isSome

/-- When all are. -/
structure Loads (m : Memory) (f : File) : Prop where
  version : m 0 ≠ some 0
  bitmaps : ∀ e ∈ f.entries, Finds m f.headerSize e.1 e.2

/-! ## The planes of a bitmap -/

section Planes
variable {first : Plane} {rest : List (UInt8 × Plane)} {number : UInt8}

theorem length_encode (first : Plane) (rest : List (UInt8 × Plane)) :
    (encode first rest).length = 8 * 1024 + (8 * 1024 + 1) * rest.length := by
  induction rest generalizing first with
  | nil => exact first.size
  | cons e rest ih =>
      rw [encode, List.length_append, List.length_cons, ih, first.size, List.length_cons]
      omega

/-- What is behind a plane that is not the last: a number, and the next plane. -/
theorem at_encode_cons {plane : Plane} :
    At m p (encode first ((number, plane) :: rest)) ↔ At m p first.bytes ∧
      m (p + 8 * 1024) = some number ∧ At m (p + 8 * 1024 + 1) (encode plane rest) := by
  rw [encode, at_append, first.size]
  rfl

/-- The number of the last plane is before it. -/
theorem lastNumber_at (h : At m p (encode first rest)) (hrest : rest ≠ []) (number : UInt8) :
    m (p + ((8 * 1024 + 1) * rest.length - 1)) = some (lastNumber number rest) := by
  induction rest generalizing first p number with
  | nil => exact absurd rfl hrest
  | cons e rest ih =>
      obtain ⟨next, plane⟩ := e
      obtain ⟨-, hnext, hplane⟩ := at_encode_cons.mp h
      by_cases hlast : rest = []
      · subst hlast
        exact hnext
      · have hnumber := ih hplane hlast next
        rw [lastNumber, ← hnumber, List.length_cons]
        congr 1
        push_cast
        omega

/-- Where plane `n` is, if it is among these. -/
def locate : Int → List (UInt8 × Plane) → Nat → Option Int
  | _, [], _ => none
  | p, (number, _) :: rest, n =>
      if number.toNat = n then some p else locate (p + 8 * 1024 + 1) rest n

theorem locate_eq_none {n : Nat} (h : ∀ e ∈ rest, e.1.toNat ≠ n) : locate p rest n = none := by
  induction rest generalizing p with
  | nil => rfl
  | cons e rest ih =>
      rw [locate, if_neg (h e List.mem_cons_self)]
      exact ih fun e he => h e (List.mem_cons_of_mem _ he)

theorem locate_cons_of_lt {n : Nat} (hn : number.toNat < n) (plane : Plane) :
    locate p ((number, plane) :: rest) n = locate (p + 8 * 1024 + 1) rest n :=
  if_neg (Nat.ne_of_lt hn)

/-- The numbers rise by one at least. -/
theorem le_lastNumber (h : (number :: rest.map Prod.fst).Pairwise (· < ·)) :
    number.toNat + rest.length ≤ (lastNumber number rest).toNat := by
  induction rest generalizing number with
  | nil => exact Nat.le_refl _
  | cons e rest ih =>
      obtain ⟨hfirst, hrest⟩ := List.pairwise_cons.mp h
      have hlt := UInt8.lt_iff_toNat_lt.mp (hfirst e.1 List.mem_cons_self)
      have hle := ih hrest
      rw [List.length_cons, lastNumber]
      omega

/-- From plane `n` on, the loop locates the planes, and reads the byte behind the last. -/
theorem planeLoop_eq {rounds n : Nat}
    (hincreasing : (number :: rest.map Prod.fst).Pairwise (· < ·))
    (h : At m p (encode first rest)) (hn : n ≤ number.toNat)
    (hrounds : n + rounds = (lastNumber number rest).toNat + 1) :
    planeLoop m rounds n p number = (do
      let _ ← read m (p + (encode first rest).length)
      .ok ((List.range' n rounds).map (locate p ((number, first) :: rest)))) := by
  have hlast := le_lastNumber hincreasing
  induction rounds generalizing n p number first rest with
  | zero => omega
  | succ rounds ih =>
      rw [List.range'_succ, List.map_cons, locate]
      by_cases hcurrent : n = number.toNat
      · rw [planeLoop, if_pos hcurrent, if_pos hcurrent.symm]
        cases rest with
        | nil =>
            -- the byte that is read is none of the bitmap's
            have hdone : rounds = 0 := by
              rw [lastNumber] at hrounds
              omega
            subst hdone
            rw [length_encode, List.length_nil]
            rfl
        | cons e rest =>
            obtain ⟨next, plane⟩ := e
            obtain ⟨-, hnext, hplane⟩ := at_encode_cons.mp h
            have hnumbers : (number :: next :: rest.map Prod.fst).Pairwise (· < ·) := hincreasing
            obtain ⟨hfirst, hrest⟩ := List.pairwise_cons.mp hnumbers
            have hlt : number.toNat < next.toNat :=
              UInt8.lt_iff_toNat_lt.mp (hfirst next List.mem_cons_self)
            have hrounds' : n + (rounds + 1) = (lastNumber next rest).toNat + 1 := hrounds
            have hloop := @ih _ _ _ _ (n + 1) hrest hplane (by omega) (by omega)
              (le_lastNumber hrest)
            have hend : p + 8 * 1024 + 1 + ((encode plane rest).length : Nat) =
                p + ((encode first ((next, plane) :: rest)).length : Nat) := by
              rw [length_encode, length_encode, List.length_cons]
              omega
            have hmap : (List.range' (n + 1) rounds).map
                (locate p ((number, first) :: (next, plane) :: rest)) =
                (List.range' (n + 1) rounds).map
                  (locate (p + 8 * 1024 + 1) ((next, plane) :: rest)) := by
              refine List.map_congr_left fun k hk => locate_cons_of_lt ?_ first
              have hbound := (List.mem_range'_1.mp hk).1
              omega
            rw [read_eq_ok.mpr hnext, ok_bind, hloop, hend, hmap]
            cases read m (p + ((encode first ((next, plane) :: rest)).length : Nat)) <;> rfl
      · have hnone : ∀ e ∈ rest, e.1.toNat ≠ n := by
          intro e he
          have hlt := UInt8.lt_iff_toNat_lt.mp
            ((List.pairwise_cons.mp hincreasing).1 e.1 (List.mem_map_of_mem he))
          omega
        have hloop := @ih _ _ _ _ (n + 1) hincreasing h (by omega) (by omega) hlast
        rw [planeLoop, if_neg hcurrent, if_neg (Ne.symm hcurrent), locate_eq_none hnone, hloop]
        cases read m (p + ((encode first rest).length : Nat)) <;> rfl

theorem locate_getElem? {stored : List (UInt8 × Plane)}
    (h : (stored.map Prod.fst).Pairwise (· < ·)) {j : Nat} {plane : Plane}
    (hj : stored[j]? = some (number, plane)) :
    locate p stored number.toNat = some (p + (8 * 1024 + 1) * j) := by
  induction stored generalizing p j with
  | nil =>
      rw [List.getElem?_nil] at hj
      cases hj
  | cons e stored ih =>
      obtain ⟨hfirst, hrest⟩ := List.pairwise_cons.mp h
      cases j with
      | zero =>
          cases hj
          rw [locate, if_pos rfl, Int.natCast_zero, Int.mul_zero, Int.add_zero]
      | succ j =>
          rw [List.getElem?_cons_succ] at hj
          have hmem : number ∈ stored.map Prod.fst :=
            List.mem_map_of_mem (List.mem_of_getElem? hj)
          rw [locate_cons_of_lt (UInt8.lt_iff_toNat_lt.mp (hfirst number hmem)), ih hrest hj]
          congr 1
          push_cast
          omega

/-- Each plane that is stored is there. -/
theorem at_stored (h : At m p (encode first rest)) {j : Nat} {n : UInt8} {plane : Plane}
    (hj : ((n, first) :: rest)[j]? = some (number, plane)) :
    At m (p + (8 * 1024 + 1) * j) plane.bytes := by
  induction rest generalizing p first j n with
  | nil =>
      cases j with
      | zero =>
          cases hj
          rwa [Int.natCast_zero, Int.mul_zero, Int.add_zero]
      | succ j => cases hj
  | cons e rest ih =>
      obtain ⟨next, following⟩ := e
      obtain ⟨hfirst, -, hrest⟩ := at_encode_cons.mp h
      cases j with
      | zero =>
          cases hj
          rwa [Int.natCast_zero, Int.mul_zero, Int.add_zero]
      | succ j =>
          have hplane := ih hrest hj
          have haddress : p + 8 * 1024 + 1 + (8 * 1024 + 1) * (j : Int) =
              p + (8 * 1024 + 1) * ((j + 1 : Nat) : Int) := by
            push_cast
            omega
          rwa [haddress] at hplane

theorem le_lastNumber_of_mem (h : (number :: rest.map Prod.fst).Pairwise (· < ·)) {n : UInt8}
    (hn : n ∈ number :: rest.map Prod.fst) : n.toNat ≤ (lastNumber number rest).toNat := by
  induction rest generalizing number with
  | nil =>
      cases List.mem_singleton.mp hn
      exact Nat.le_refl _
  | cons e rest ih =>
      rcases List.mem_cons.mp hn with rfl | hn
      · exact Nat.le_of_add_right_le (le_lastNumber h)
      · exact ih (List.pairwise_cons.mp h).2 hn

end Planes

namespace Bitmap

variable {b : Bitmap}

theorem highest_lt (b : Bitmap) : b.highest.toNat < 256 := b.highest.toNat_lt

theorem length_rest_le (b : Bitmap) : b.rest.length ≤ b.highest.toNat := by
  have hle := le_lastNumber b.increasing
  exact Nat.le_of_add_left_le hle

theorem length_bytes (b : Bitmap) :
    b.bytes.length = 8 * 1024 + (8 * 1024 + 1) * b.rest.length := length_encode ..

end Bitmap

/-- The loop over all planes, from the right number of planes. -/
theorem planeLoop_spec {b : Bitmap} (h : At m p b.bytes) :
    planeLoop m (b.highest.toNat + 1) 0 p 0 = (do
      let _ ← read m (p + b.bytes.length)
      .ok ((List.range' 0 (b.highest.toNat + 1)).map (locate p b.stored))) :=
  planeLoop_eq b.increasing h (Nat.zero_le _) (Nat.zero_add _)

theorem shows_of_locate {b : Bitmap} (h : At m p b.bytes) : Shows m p b
    ⟨b.highest.toNat + 1, (List.range' 0 (b.highest.toNat + 1)).map (locate p b.stored)⟩ := by
  have hget : ∀ n < b.highest.toNat + 1,
      ((List.range' 0 (b.highest.toNat + 1)).map (locate p b.stored))[n]? =
        some (locate p b.stored n) := by
    intro n hn
    rw [List.getElem?_map, List.getElem?_range' hn, Option.map_some, Nat.zero_add, Nat.one_mul]
  refine ⟨rfl, ?_, fun j number plane hj => ⟨?_, at_stored h hj⟩, fun n hn hother => ?_⟩
  · rw [List.length_map, List.length_range']
  · have hmem : number ∈ b.stored.map Prod.fst := List.mem_map_of_mem (List.mem_of_getElem? hj)
    have hle : number.toNat ≤ b.highest.toNat := le_lastNumber_of_mem b.increasing hmem
    have hlocate := @locate_getElem? p number b.stored b.increasing j plane hj
    rw [hget _ (Nat.lt_succ_of_le hle), hlocate]
  · rw [hget n hn, locate_eq_none hother]

/-! ## One bitmap -/

theorem toInt_eq_iff {v : BitVec 32} : v.toInt = v.toNat ↔ v.toNat < 2 ^ 31 := by
  have hlt := v.isLt
  rw [BitVec.toInt_eq_toNat_cond]
  split
  next h => exact iff_of_true rfl (by omega)
  next h => exact iff_of_false (by omega) (by omega)

/-- The size tells how many planes are stored. -/
theorem planes_of_size (b : Bitmap) {v : BitVec 32} (hv : v.toNat = b.bytes.length) :
    (v / (8 * 1024)).toNat = b.rest.length + 1 := by
  have hrest := b.length_rest_le
  have hhighest := b.highest_lt
  rw [BitVec.toNat_udiv, hv, b.length_bytes]
  show _ / 8192 = _
  omega

theorem mulInt_spec (b : Bitmap) :
    mulInt (((b.rest.length + 1 : Nat) : Int) - 1) (8 * 1024 + 1) =
      .ok ((8 * 1024 + 1) * b.rest.length) := by
  have hrest := b.length_rest_le
  have hhighest := b.highest_lt
  have hproduct : (((b.rest.length + 1 : Nat) : Int) - 1) * (8 * 1024 + 1) =
      (8 * 1024 + 1) * b.rest.length := by
    push_cast
    omega
  rw [mulInt, hproduct, if_pos (by omega)]

section Load
variable {base bytes : Int} {offset : Nat} {b : Bitmap}

theorem loadBitmap_eq (hoffset : WordAt m bytes offset)
    (hsize : WordAt m (bytes + 4) b.bytes.length) : ∃ v : BitVec 32, v.toNat = offset ∧
      loadBitmap m base bytes = (do
        let lastPlane ← read m (base + v.toInt + ((8 * 1024 + 1) * b.rest.length - 1))
        let planes ← planeLoop m (lastPlane.toNat + 1) 0 (base + v.toInt) 0
        .ok ⟨lastPlane.toNat + 1, planes⟩) := by
  obtain ⟨v, hread, hv⟩ := readWord_spec hoffset
  obtain ⟨w, hread', hw⟩ := readWord_spec hsize
  refine ⟨swapInt32BigToHost v, hv, ?_⟩
  rw [loadBitmap, hread, ok_bind, hread', ok_bind]
  dsimp only
  rw [planes_of_size b hw, mulInt_spec, ok_bind]

/-- The first plane is told to be where the loop starts. -/
theorem planeLoop_first {n : Nat} {planes : List (Option Int)}
    (h : planeLoop m (n + 1) 0 p 0 = .ok planes) : planes[0]? = some (some p) := by
  have hzero : 0 = UInt8.toNat 0 := rfl
  rw [planeLoop, if_pos hzero] at h
  obtain ⟨_, -, h⟩ := bind_eq_ok.mp h
  obtain ⟨rest, -, h⟩ := bind_eq_ok.mp h
  cases h
  rfl

/-- What the byte before the last plane, or before the only one, has to be. -/
theorem lastPlane_iff (h : At m p b.bytes) :
    m (p + ((8 * 1024 + 1) * b.rest.length - 1)) = some b.highest ↔
      (b.rest = [] → m (p - 1) = some 0) := by
  by_cases hrest : b.rest = []
  · have hhighest : b.highest = 0 := by
      rw [Bitmap.highest, hrest]
      rfl
    have haddress : p + ((8 * 1024 + 1) * (b.rest.length : Int) - 1) = p - 1 := by
      rw [hrest, List.length_nil]
      omega
    rw [haddress, hhighest]
    exact (imp_iff_right hrest).symm
  · exact iff_of_true (lastNumber_at h hrest 0) fun hnil => absurd hnil hrest

theorem loadBitmap_iff {headerSize : Nat} (hoffset : WordAt m bytes offset)
    (hsize : WordAt m (bytes + 4) b.bytes.length)
    (h : At m (headerSize + offset) b.bytes) :
    (∃ data, loadBitmap m headerSize bytes = .ok data ∧ Shows m (headerSize + offset) b data) ↔
      Finds m headerSize offset b := by
  obtain ⟨v, hv, hload⟩ := loadBitmap_eq hoffset hsize
  rw [hload]
  constructor
  · rintro ⟨data, hok, hshows⟩
    obtain ⟨lastPlane, hlast, hok⟩ := bind_eq_ok.mp hok
    obtain ⟨planes, hplanes, hok⟩ := bind_eq_ok.mp hok
    cases hok
    have hfirst := (hshows.stored 0 0 b.first rfl).1
    have hsame := Option.some.inj (Option.some.inj
      ((planeLoop_first hplanes).symm.trans hfirst))
    have hint : v.toInt = v.toNat := by omega
    have haddress : (headerSize : Int) + v.toInt = headerSize + offset := by omega
    rw [haddress] at hlast hplanes
    -- the number read is that of the last plane, as there are so many planes
    have hnumber : lastPlane = b.highest := by
      have hcount : lastPlane.toNat + 1 = b.highest.toNat + 1 := hshows.numPlanes
      exact UInt8.toNat_inj.mp (Nat.succ.inj hcount)
    rw [hnumber] at hlast hplanes
    rw [planeLoop_spec h] at hplanes
    obtain ⟨next, hnext, -⟩ := bind_eq_ok.mp hplanes
    refine ⟨?_, (lastPlane_iff h).mp (read_eq_ok.mp hlast), ?_⟩
    · rw [← hv]
      exact toInt_eq_iff.mp hint
    · rw [read_eq_ok.mp hnext]
      rfl
  · intro hfinds
    have hint : v.toInt = v.toNat := by
      rw [toInt_eq_iff, hv]
      exact hfinds.reaches
    have haddress : (headerSize : Int) + v.toInt = headerSize + offset := by omega
    have hlast := read_eq_ok.mpr ((lastPlane_iff h).mpr hfinds.before)
    obtain ⟨next, hnext⟩ := Option.isSome_iff_exists.mp hfinds.after
    refine ⟨_, ?_, shows_of_locate h⟩
    rw [haddress, hlast, ok_bind, planeLoop_spec h, read_eq_ok.mpr hnext]
    rfl

end Load

/-! ## The file -/

theorem bitmapLoop_iff {headerSize : Nat} {bytes : Int} {entries : List (Nat × Bitmap)}
    (htable : TableAt m bytes entries)
    (h : ∀ e ∈ entries, At m (headerSize + e.1) e.2.bytes) :
    (∃ array, bitmapLoop m headerSize entries.length bytes = .ok array ∧
      List.Forall₂ (fun e data => Shows m (headerSize + e.1) e.2 data) entries array) ↔
      ∀ e ∈ entries, Finds m headerSize e.1 e.2 := by
  induction entries generalizing bytes with
  | nil => exact iff_of_true ⟨[], rfl, .nil⟩ fun e he => absurd he List.not_mem_nil
  | cons e entries ih =>
      obtain ⟨hoffset, hsize, htable⟩ := htable
      have hfirst := loadBitmap_iff hoffset hsize (h e List.mem_cons_self)
      have hrest := ih htable fun e' he' => h e' (List.mem_cons_of_mem _ he')
      rw [List.forall_mem_cons, ← hfirst, ← hrest]
      constructor
      · rintro ⟨array, hok, hshows⟩
        rw [List.length_cons, bitmapLoop] at hok
        obtain ⟨data, hload, hok⟩ := bind_eq_ok.mp hok
        obtain ⟨others, hloop, hok⟩ := bind_eq_ok.mp hok
        cases hok
        obtain ⟨hdata, hothers⟩ := List.forall₂_cons.mp hshows
        exact ⟨⟨data, hload, hdata⟩, others, hloop, hothers⟩
      · rintro ⟨⟨data, hload, hdata⟩, others, hloop, hothers⟩
        refine ⟨data :: others, ?_, .cons hdata hothers⟩
        rw [List.length_cons, bitmapLoop, hload, ok_bind, hloop]
        rfl

section Version
variable {version : Vector UInt8 8}

theorem storeVersion_spec {i : Int} (hi : 0 ≤ i ∧ i < 8) (value : UInt8) :
    storeVersion version i value = .ok (version.setIfInBounds i.toNat value) := if_pos hi

/-- The loop ends; the first byte tells whether it goes on at all. -/
theorem versionLoop_spec (h : ∀ i : Nat, i < 4 → (m i).isSome) {rounds idx : Nat}
    (hrounds : idx + rounds = 4) : ∃ idx' version', idx ≤ idx' ∧ idx' ≤ 4 ∧
      versionLoop m rounds idx version = .ok (idx', version') := by
  induction rounds generalizing idx version with
  | zero => exact ⟨idx, version, Nat.le_refl _, by omega, rfl⟩
  | succ rounds ih =>
      obtain ⟨b, hb⟩ := Option.isSome_iff_exists.mp (h idx (by omega))
      rw [versionLoop, read_eq_ok.mpr hb, ok_bind]
      split
      next =>
        rw [storeVersion_spec (by omega), ok_bind, storeVersion_spec (by omega), ok_bind]
        obtain ⟨idx', version', hle, hle', hloop⟩ := ih (show idx + 1 + rounds = 4 by omega)
        exact ⟨idx', version', Nat.le_of_succ_le hle, hle', hloop⟩
      next => exact ⟨idx, version, Nat.le_refl _, by omega, rfl⟩

/-- A version of no byte is closed before the first of its own bytes. -/
theorem loadVersion_iff (h : ∀ i : Nat, i < 4 → (m i).isSome) :
    (∃ version', loadVersion m version = .ok version') ↔ m 0 ≠ some 0 := by
  obtain ⟨b, hb⟩ := Option.isSome_iff_exists.mp (h 0 (by omega))
  have hread : read m ((0 : Nat) : Int) = .ok b := read_eq_ok.mpr hb
  rw [show m 0 = some b from hb]
  by_cases hzero : b = 0
  · refine iff_of_false ?_ fun hne => hne (congrArg some hzero)
    have hnone : ¬ b ≠ 0 := fun hne => hne hzero
    rintro ⟨version', hok⟩
    rw [loadVersion, versionLoop, hread, ok_bind, if_neg hnone] at hok
    cases hok
  · refine iff_of_true ?_ fun heq => hzero (Option.some.inj heq)
    rw [loadVersion, versionLoop, hread, ok_bind, if_pos hzero, storeVersion_spec (by omega),
      ok_bind, storeVersion_spec (by omega), ok_bind]
    obtain ⟨idx, version', hle, hle', hloop⟩ := @versionLoop_spec m _ h 3 (0 + 1) rfl
    rw [hloop, ok_bind]
    exact ⟨_, storeVersion_spec (by split <;> omega) 0⟩

end Version

theorem numberOfBitmaps_spec {v : BitVec 32} {n : Nat} (hv : v.toNat = 8 + 8 * n) :
    ((v - 8) / 8).toNat = n := by
  have hlt := v.isLt
  have hle : (8 : BitVec 32) ≤ v := by
    rw [BitVec.le_def, hv]
    exact Nat.le_add_right ..
  rw [BitVec.toNat_udiv, BitVec.toNat_sub_of_le hle, hv]
  show (8 + 8 * n - 8) / 8 = n
  omega

theorem Holds.version_isSome {f : File} (h : Holds m f) (i : Nat) (hi : i < 4) :
    (m i).isSome := by
  have hat := h.version
  obtain ⟨version, hsize, entries⟩ := f
  match version, hsize with
  | [b₀, b₁, b₂, b₃], _ =>
      obtain ⟨h₀, h₁, h₂, h₃, -⟩ := hat
      interval_cases i
      · exact Option.isSome_of_mem h₀
      · exact Option.isSome_of_mem h₁
      · exact Option.isSome_of_mem h₂
      · exact Option.isSome_of_mem h₃

/-- `LoadBitmapData` finds each plane that is stored, and no other, exactly if the version
has a byte, no offset is past the greatest `Int32`, the byte after each bitmap can be read,
and the byte before a bitmap of plane 0 alone is zero. -/
theorem loadBitmapData_iff {f : File} (h : Holds m f) {s : BitmapState}
    (hs : s.bitmapDataArray = none) :
    (∃ s', loadBitmapData s (some m) = .ok (s', true) ∧ Loaded m f s') ↔ Loads m f := by
  have hversion := @loadVersion_iff m s.unicodeVersionString h.version_isSome
  have hbitmaps := bitmapLoop_iff h.table h.bitmaps
  obtain ⟨v, hread, hv⟩ := readWord_spec h.headerSize
  have hcount := numberOfBitmaps_spec hv
  have hload : loadBitmapData s (some m) = (do
      let version ← loadVersion m s.unicodeVersionString
      let array ← bitmapLoop m f.headerSize f.entries.length 8
      .ok (⟨version, (swapInt32BigToHost v - 8) / 8, some array⟩, true)) := by
    have hnone : ¬ s.bitmapDataArray.isSome = true := by
      rw [hs]
      exact Bool.false_ne_true
    rw [loadBitmapData, if_neg hnone]
    cases loadVersion m s.unicodeVersionString with
    | error e => rfl
    | ok version =>
        dsimp only [ok_bind]
        rw [hread, ok_bind, hcount, hv]
  rw [hload]
  constructor
  · rintro ⟨s', hok, -, array, harray, hshows⟩
    obtain ⟨version, hversion', hok⟩ := bind_eq_ok.mp hok
    obtain ⟨array', hloop, hok⟩ := bind_eq_ok.mp hok
    cases hok
    cases harray
    exact ⟨hversion.mp ⟨version, hversion'⟩, hbitmaps.mp ⟨_, hloop, hshows⟩⟩
  · intro hloads
    obtain ⟨version, hversion'⟩ := hversion.mpr hloads.version
    obtain ⟨array, hloop, hshows⟩ := hbitmaps.mpr hloads.bitmaps
    refine ⟨⟨version, (swapInt32BigToHost v - 8) / 8, some array⟩, ?_, hcount, array, rfl,
      hshows⟩
    rw [hversion', ok_bind, hloop]
    rfl

/-! ## Two files -/

/-- A header, then zeros, but for one byte. -/
def image (header : List UInt8) (a : Int) (b : UInt8) : Memory :=
  fun p => if p = a then some b else some (header.getD p.toNat 0)

theorem isSome_image (header : List UInt8) (a : Int) (b : UInt8) (p : Int) :
    (image header a b p).isSome := by
  rw [image]
  split
  · rfl
  · rfl

theorem image_zeros {header : List UInt8} {a : Int} {b : UInt8} {n : Nat}
    (hp : header.length ≤ p) (ha : a < p ∨ p + n ≤ a) :
    At (image header a b) p (List.replicate n 0) := by
  refine at_replicate fun i hi => ?_
  rw [image, if_neg (by omega), List.getD_eq_getElem?_getD, List.getElem?_eq_none (by omega)]
  rfl

/-- No character. -/
def emptyPlane : Plane := ⟨List.replicate (8 * 1024) 0, List.length_replicate⟩

theorem image_emptyPlane {header : List UInt8} {a : Int} {b : UInt8} (hp : header.length ≤ p)
    (ha : a < p ∨ p + 8 * 1024 ≤ a) : At (image header a b) p emptyPlane.bytes :=
  image_zeros hp ha

/-- One bitmap, of planes 0 and 3. -/
def gapFile : File := ⟨[57, 0, 0, 0], rfl, [(0, ⟨emptyPlane, [(3, emptyPlane)], by decide⟩)]⟩

def gapImage : Memory :=
  image [57, 0, 0, 0, 0, 0, 0, 16, 0, 0, 0, 0, 0, 0, 64, 1] (16 + 8 * 1024) 3

theorem holds_gap : Holds gapImage gapFile where
  version := ⟨rfl, rfl, rfl, rfl, trivial⟩
  headerSize := ⟨0, 0, 0, 16, ⟨rfl, rfl, rfl, rfl, trivial⟩, rfl⟩
  table := ⟨⟨0, 0, 0, 0, ⟨rfl, rfl, rfl, rfl, trivial⟩, rfl⟩,
    ⟨0, 0, 64, 1, ⟨rfl, rfl, rfl, rfl, trivial⟩, (length_encode ..).trans (by decide)⟩,
    trivial⟩
  bitmaps := by
    intro e he
    cases List.mem_singleton.mp he
    have hstart : (gapFile.headerSize : Int) + (0 : Nat) = 16 := rfl
    show At gapImage ((gapFile.headerSize : Int) + (0 : Nat)) (encode emptyPlane [(3, emptyPlane)])
    rw [hstart, gapImage]
    refine at_encode_cons.mpr ⟨image_emptyPlane ?_ ?_, ?_, image_emptyPlane ?_ ?_⟩
    · decide
    · decide
    · rw [image, if_pos rfl]
    · decide
    · decide

theorem loadBitmapData_iff_gap : ∃ s', loadBitmapData .initial (some gapImage) = .ok (s', true) ∧
    Loaded gapImage gapFile s' := by
  refine (loadBitmapData_iff holds_gap rfl).mpr ⟨by decide, fun e he => ?_⟩
  cases List.mem_singleton.mp he
  exact ⟨by decide, fun hnil => absurd hnil (List.cons_ne_nil _ _), isSome_image ..⟩

/-- One character, the last of the plane with its byte. -/
def lastBytePlane : Plane :=
  ⟨List.replicate (8 * 1024 - 1) 0 ++ [1], by
    rw [List.length_append, List.length_replicate]
    rfl⟩

/-- Two bitmaps of plane 0 alone, one right after the other. -/
def pairFile : File := ⟨[57, 0, 0, 0], rfl, [(0, ⟨lastBytePlane, [], List.pairwise_singleton ..⟩),
  (8 * 1024, ⟨emptyPlane, [], List.pairwise_singleton ..⟩)]⟩

def pairImage : Memory :=
  image [57, 0, 0, 0, 0, 0, 0, 24, 0, 0, 0, 0, 0, 0, 32, 0, 0, 0, 32, 0, 0, 0, 32, 0]
    (24 + 8 * 1024 - 1) 1

theorem holds_pair : Holds pairImage pairFile where
  version := ⟨rfl, rfl, rfl, rfl, trivial⟩
  headerSize := ⟨0, 0, 0, 24, ⟨rfl, rfl, rfl, rfl, trivial⟩, rfl⟩
  table := ⟨⟨0, 0, 0, 0, ⟨rfl, rfl, rfl, rfl, trivial⟩, rfl⟩,
    ⟨0, 0, 32, 0, ⟨rfl, rfl, rfl, rfl, trivial⟩, (length_encode ..).trans (by decide)⟩,
    ⟨0, 0, 32, 0, ⟨rfl, rfl, rfl, rfl, trivial⟩, by decide⟩,
    ⟨0, 0, 32, 0, ⟨rfl, rfl, rfl, rfl, trivial⟩, (length_encode ..).trans (by decide)⟩,
    trivial⟩
  bitmaps := by
    intro e he
    rcases List.mem_cons.mp he with rfl | he
    · have hstart : (pairFile.headerSize : Int) + (0 : Nat) = 24 := rfl
      show At pairImage ((pairFile.headerSize : Int) + (0 : Nat)) lastBytePlane.bytes
      rw [hstart, pairImage]
      refine at_append.mpr ⟨image_zeros ?_ ?_, ?_, trivial⟩
      · decide
      · decide
      · rw [image, if_pos]
        rw [List.length_replicate]
        rfl
    · cases List.mem_singleton.mp he
      have hstart : (pairFile.headerSize : Int) + (8 * 1024 : Nat) = 24 + 8 * 1024 := rfl
      show At pairImage ((pairFile.headerSize : Int) + (8 * 1024 : Nat)) emptyPlane.bytes
      rw [hstart, pairImage]
      refine image_emptyPlane ?_ ?_
      · decide
      · decide

/-- The number of planes of the second bitmap is taken from the last byte of the first. -/
theorem pair_misread : Holds pairImage pairFile ∧ ∃ s',
    loadBitmapData .initial (some pairImage) = .ok (s', true) ∧ ¬ Loaded pairImage pairFile s' := by
  refine ⟨holds_pair, ⟨_, 2, some [⟨1, [some 24]⟩, ⟨2, [some 8216, none]⟩]⟩, rfl, ?_⟩
  rintro ⟨-, array, harray, hshows⟩
  cases harray
  obtain ⟨-, hshows⟩ := List.forall₂_cons.mp hshows
  have hnumPlanes := (List.forall₂_cons.mp hshows).1.numPlanes
  revert hnumPlanes
  decide

end UnicodeChar

end Rx
