/-
# `RxFoundation.UnicodeCharMember` — which characters a bitmap has

A bitmap has a bit for each character.  `addCharacterToBitmap` sets that of one, and
`isMemberOf` asks for it: so a bitmap has what it had and what was added to it, in
whatever order (`addCharactersToBitmap_spec`).

Where a file is loaded, each character set asks its own bitmap (`isMemberOfAll_spec`).
The file is loaded by the first question that needs it.  `tableOf` says which bitmap is
whose.
-/
import CrashRealm.RxFoundation.UnicodeCharSpec
import Mathlib.Data.Nat.Bitwise

namespace Rx

namespace UnicodeChar

open ByteImage

variable {m : Memory} {p : Int}

/-! ## One bit of a byte -/

theorem byteOf_lt (c : UInt16) : byteOf c < 8 * 1024 := by
  have hlt := c.toNat_lt
  rw [byteOf, Nat.shiftRight_eq_div_pow]
  omega

theorem maskOf_eq (c : UInt16) : maskOf c = 2 ^ (c.toNat % 8) := by
  have hand : c.toNat &&& 7 = c.toNat % 8 := Nat.and_two_pow_sub_one_eq_mod c.toNat 3
  rw [maskOf, hand, Nat.one_shiftLeft]

/-- The mask takes out one bit. -/
theorem and_maskOf_ne_zero (n : Nat) (c : UInt16) :
    (n &&& maskOf c != 0) = n.testBit (c.toNat % 8) := by
  rw [maskOf_eq, Nat.and_two_pow]
  cases n.testBit (c.toNat % 8) with
  | false => rw [Bool.toNat_false, Nat.zero_mul]; rfl
  | true =>
      have hpos := Nat.two_pow_pos (c.toNat % 8)
      rw [Bool.toNat_true, Nat.one_mul]
      exact bne_iff_ne.mpr (Nat.ne_of_gt hpos)

theorem or_maskOf_lt (b : UInt8) (c : UInt16) : b.toNat ||| maskOf c < 2 ^ 8 := by
  rw [maskOf_eq]
  exact Nat.or_lt_two_pow b.toNat_lt (Nat.pow_lt_pow_right (by decide) (Nat.mod_lt _ (by decide)))

/-- Two characters with one byte and one bit of it are the same. -/
theorem eq_of_byteOf_eq {c d : UInt16} (hbyte : byteOf c = byteOf d)
    (hbit : c.toNat % 8 = d.toNat % 8) : c = d := by
  rw [byteOf, byteOf, Nat.shiftRight_eq_div_pow, Nat.shiftRight_eq_div_pow] at hbyte
  exact UInt16.toNat_inj.mp (by omega)

/-! ## The characters of a plane -/

namespace Plane

/-- The byte for a character. -/
def byte (plane : Plane) (c : UInt16) : UInt8 :=
  have hlt : byteOf c < plane.bytes.length := Nat.lt_of_lt_of_eq (byteOf_lt c) plane.size.symm
  plane.bytes[byteOf c]

/-- The plane has the character. -/
def has (plane : Plane) (c : UInt16) : Bool := (plane.byte c).toNat.testBit (c.toNat % 8)

def add (plane : Plane) (c : UInt16) : Plane where
  bytes := plane.bytes.set (byteOf c) (UInt8.ofNat ((plane.byte c).toNat ||| maskOf c))
  size := by
    rw [List.length_set]
    exact plane.size

theorem has_add (plane : Plane) (c d : UInt16) :
    (plane.add c).has d = (plane.has d || decide (d = c)) := by
  by_cases hbyte : byteOf c = byteOf d
  · have hsame : plane.byte c = plane.byte d := by
      simp only [byte, hbyte]
    have hvalue : ((plane.add c).byte d).toNat = (plane.byte d).toNat ||| maskOf c := by
      simp only [byte, add, hbyte, List.getElem_set_self]
      rw [UInt8.toNat_ofNat']
      exact Nat.mod_eq_of_lt (or_maskOf_lt _ c)
    rw [has, has, hvalue, Nat.testBit_or, maskOf_eq, Nat.testBit_two_pow]
    congr 1
    refine decide_eq_decide.mpr ⟨fun hbit => (eq_of_byteOf_eq hbyte hbit).symm, ?_⟩
    rintro rfl
    rfl
  · have hsame : (plane.add c).byte d = plane.byte d := by
      simp only [byte, add, List.getElem_set_ne hbyte]
    have hne : d ≠ c := by
      rintro rfl
      exact hbyte rfl
    rw [has, has, hsame, decide_eq_false hne, Bool.or_false]

end Plane

section Memory

variable {plane : Plane}

theorem read_byte (h : At m p plane.bytes) (c : UInt16) :
    read m (p + byteOf c) = .ok (plane.byte c) := by
  refine read_eq_ok.mpr (h.getElem? ?_)
  exact List.getElem?_eq_getElem _

theorem isMemberOfBitmap_spec (h : At m p plane.bytes) (c : UInt16) :
    isMemberOfBitmap m c (some p) = .ok (plane.has c) := by
  show (read m (p + byteOf c) >>= _) = _
  rw [read_byte h, ok_bind, and_maskOf_ne_zero]
  rfl

theorem addCharacterToBitmap_spec (h : At m p plane.bytes) (c : UInt16) :
    ∃ m', addCharacterToBitmap m p c = .ok m' ∧ At m' p (plane.add c).bytes ∧
      ∀ q, q < p ∨ p + 8 * 1024 ≤ q → m' q = m q := by
  have hlt := byteOf_lt c
  have hsize := plane.size
  refine ⟨_, by rw [addCharacterToBitmap, read_byte h]; rfl, ?_, fun q hq => ?_⟩
  · exact h.set (by omega) _
  · exact Function.update_of_ne (by omega) _ _

/-- After any characters were added, in any order and however often, a bitmap has these and
those it had; nothing but its own bytes is read or written. -/
theorem addCharactersToBitmap_spec (h : At m p plane.bytes) (cs : List UInt16) :
    ∃ (m' : Memory) (plane' : Plane), addCharactersToBitmap m p cs = .ok m' ∧ At m' p plane'.bytes ∧
      (∀ c, isMemberOfBitmap m' c (some p) = .ok (plane.has c || decide (c ∈ cs))) ∧
      ∀ q, q < p ∨ p + 8 * 1024 ≤ q → m' q = m q := by
  induction cs generalizing m plane with
  | nil =>
      refine ⟨m, plane, rfl, h, fun c => ?_, fun q hq => rfl⟩
      rw [isMemberOfBitmap_spec h, decide_eq_false List.not_mem_nil, Bool.or_false]
  | cons d cs ih =>
      obtain ⟨m₁, hadd, hplane, hframe⟩ := addCharacterToBitmap_spec h d
      obtain ⟨m', plane', hadds, hplane', hmember, hframe'⟩ := ih hplane
      refine ⟨m', plane', ?_, hplane', fun c => ?_, fun q hq => ?_⟩
      · show (addCharacterToBitmap m p d >>= fun m => addCharactersToBitmap m p cs) = _
        rw [hadd, ok_bind, hadds]
      · rw [hmember, Plane.has_add, Bool.or_assoc]
        simp only [List.mem_cons, Bool.decide_or]
      · exact (hframe' q hq).trans (hframe q hq)

end Memory

/-- Two characters of one byte, and one of another. -/
theorem addCharactersToBitmap_spec_three : ∃ m' : Memory,
    addCharactersToBitmap (fun _ => some 0) 0 [65, 70, 0x4e00] = .ok m' ∧
      isMemberOfBitmap m' 70 (some 0) = .ok (emptyPlane.has 70 || true) ∧
      isMemberOfBitmap m' 66 (some 0) = .ok (emptyPlane.has 66 || false) := by
  have hempty : At (fun _ => some (0 : UInt8)) 0 emptyPlane.bytes := at_replicate fun _ _ => rfl
  obtain ⟨m', -, hadd, -, hmember, -⟩ := addCharactersToBitmap_spec hempty [65, 70, 0x4e00]
  exact ⟨m', hadd, hmember 70, hmember 66⟩

/-! ## The tables -/

/-- The bitmap of a set, where it has one: the external sets are followed by the internal
ones, the control characters are with the formatters, and the internal sets have numbers
of old right after the external ones. -/
def tableOf (charset : Nat) : Option Nat :=
  if charset = 1 then some 19
  else if 4 ≤ charset ∧ charset < 100 then some (charset - 4)
  else if 100 ≤ charset then some (charset - 89)
  else none

/-- What a set is to answer where its bitmap is that of a file. -/
def answer (f : File) (character : UInt16) (charset : UInt32) : Bool :=
  if charset = whitespaceCharacterSet then isWhitespace character
  else if charset = whitespaceAndNewlineCharacterSet then isWhitespaceAndNewline character
  else if charset = newlineCharacterSet then isNewline character
  else
    match (tableOf charset.toNat).bind (f.entries[·]?) with
    | none => false
    | some (_, b) => if charset = illegalCharacterSet then !b.first.has character
        else b.first.has character

theorem toNat_mapCompatibilitySetID (charset : UInt32) :
    (mapCompatibilitySetID charset).toNat = if charset.toNat = 1 then 108
      else if 15 < charset.toNat ∧ charset.toNat < 100 then charset.toNat + 85
      else charset.toNat := by
  have hone : charset = controlCharacterSet ↔ charset.toNat = 1 := UInt32.toNat_inj.symm
  have hlast : charset > lastExternalSet ↔ 15 < charset.toNat := UInt32.lt_iff_toNat_lt
  have hfirst : charset < firstInternalSet ↔ charset.toNat < 100 := UInt32.lt_iff_toNat_lt
  rw [mapCompatibilitySetID]
  simp only [hone, hlast, hfirst]
  split
  · rfl
  · split
    next h =>
      have hle : lastExternalSet ≤ charset :=
        UInt32.le_iff_toNat_le.mpr (Nat.le_of_lt h.1)
      have hsub : (charset - lastExternalSet).toNat = charset.toNat - 15 :=
        UInt32.toNat_sub_of_le _ _ hle
      have hsum : (charset - lastExternalSet + firstInternalSet).toNat =
          ((charset - lastExternalSet).toNat + 100) % 2 ^ 32 := UInt32.toNat_add ..
      rw [hsum, hsub, Nat.mod_eq_of_lt (by omega)]
      omega
    next => rfl

theorem toNat_mapExternalSetToInternalIndex {charset : UInt32} (h : 4 ≤ charset.toNat) :
    (mapExternalSetToInternalIndex charset).toNat =
      if 100 ≤ charset.toNat then charset.toNat - 89 else charset.toNat - 4 := by
  have hlt := charset.toNat_lt
  have hfirst : firstInternalSet ≤ charset ↔ 100 ≤ charset.toNat := UInt32.le_iff_toNat_le
  rw [mapExternalSetToInternalIndex]
  simp only [hfirst]
  split
  next h' =>
    have hle : firstInternalSet ≤ charset := hfirst.mpr h'
    have hsub : (charset - firstInternalSet).toNat = charset.toNat - 100 :=
      UInt32.toNat_sub_of_le _ _ hle
    have hsum : (charset - firstInternalSet + lastExternalSet).toNat = charset.toNat - 85 := by
      have hmod : (charset - firstInternalSet + lastExternalSet).toNat =
          ((charset - firstInternalSet).toNat + 15) % 2 ^ 32 := UInt32.toNat_add ..
      rw [hmod, hsub, Nat.mod_eq_of_lt (by omega)]
      omega
    have hbitmap : firstBitmapSet ≤ charset - firstInternalSet + lastExternalSet := by
      rw [UInt32.le_iff_toNat_le, hsum]
      show 4 ≤ _
      omega
    have hresult : (charset - firstInternalSet + lastExternalSet - firstBitmapSet).toNat =
        (charset - firstInternalSet + lastExternalSet).toNat - 4 :=
      UInt32.toNat_sub_of_le _ _ hbitmap
    rw [hresult, hsum]
    omega
  next h' =>
    have hbitmap : firstBitmapSet ≤ charset := UInt32.le_iff_toNat_le.mpr h
    exact UInt32.toNat_sub_of_le _ _ hbitmap

/-- The sets that are told apart have their own number only. -/
theorem mapCompatibilitySetID_eq {charset k : UInt32} (hk : k.toNat < 16) (hone : k.toNat ≠ 1) :
    mapCompatibilitySetID charset = k ↔ charset = k := by
  rw [← UInt32.toNat_inj, ← UInt32.toNat_inj, toNat_mapCompatibilitySetID]
  split
  · omega
  · split <;> omega

/-- The table is the right one, or there is none: no file has `2 ^ 32 - 4` bitmaps. -/
theorem table_spec {charset : UInt32} {entries : List (Nat × Bitmap)}
    (hwhitespace : charset.toNat ≠ 2) (hboth : charset.toNat ≠ 3)
    (hlength : entries.length < 2 ^ 32 - 4) :
    entries[(mapExternalSetToInternalIndex (mapCompatibilitySetID charset)).toNat]? =
      (tableOf charset.toNat).bind (entries[·]?) := by
  have hmap := toNat_mapCompatibilitySetID charset
  by_cases hzero : charset.toNat = 0
  · have hcharset : charset = 0 := UInt32.toNat_inj.mp hzero
    subst hcharset
    have hindex : (mapExternalSetToInternalIndex (mapCompatibilitySetID 0)).toNat = 2 ^ 32 - 4 := by
      decide
    rw [hindex, List.getElem?_eq_none (Nat.le_of_lt hlength)]
    rfl
  · have hfour : 4 ≤ (mapCompatibilitySetID charset).toNat := by
      rw [hmap]
      split
      · decide
      · split <;> omega
    have hindex : tableOf charset.toNat =
        some (mapExternalSetToInternalIndex (mapCompatibilitySetID charset)).toNat := by
      rw [toNat_mapExternalSetToInternalIndex hfour, hmap, tableOf]
      by_cases hone : charset.toNat = 1
      · rw [if_pos hone, if_pos hone]
        rfl
      · rw [if_neg hone, if_neg hone]
        by_cases hold : 15 < charset.toNat ∧ charset.toNat < 100
        · rw [if_pos hold, if_pos (by omega), if_pos (by omega)]
          congr 1
        · rw [if_neg hold]
          split
          · rw [if_neg (by omega)]
          · rw [if_pos (by omega), if_pos (by omega)]
    rw [hindex, Option.bind_some]

/-! ## The questions -/

theorem planeNo_eq_zero (c : UInt16) : (c.toNat >>> 16) &&& 0xFF = 0 := by
  have hlt : c.toNat < 65536 := c.toNat_lt
  have hzero : c.toNat >>> 16 = 0 := by
    rw [Nat.shiftRight_eq_div_pow]
    exact Nat.div_eq_of_lt hlt
  rw [hzero]
  rfl

section Loaded

variable {f : File} {s : BitmapState}

theorem isMemberOfPlane_spec {b : Bitmap} {data : BitmapData} (h : Shows m p b data) (c : UInt16)
    (absent : Bool) : isMemberOfPlane m data 0 c absent = .ok (b.first.has c) := by
  obtain ⟨hplane, hat⟩ := h.stored 0 0 b.first rfl
  have hpos : 0 < data.numPlanes := by
    rw [h.numPlanes]
    exact Nat.succ_pos _
  have hget : data.planes[0]? = some (some (p + (8 * 1024 + 1) * (0 : Nat))) := hplane
  rw [isMemberOfPlane, if_pos hpos, hget]
  exact isMemberOfBitmap_spec hat c

theorem isMemberOfTable_spec {b : Bitmap} {data : BitmapData} (h : Shows m p b data) (c : UInt16)
    (charset : UInt32) : isMemberOfTable m data c charset =
      .ok (if charset = illegalCharacterSet then !b.first.has c else b.first.has c) := by
  unfold isMemberOfTable
  rw [planeNo_eq_zero]
  simp only [isMemberOfPlane_spec h, ok_bind]
  split
  · rfl
  · split <;> rfl

/-- A loaded file is not loaded again, and answers. -/
theorem isMemberOf_loaded (hs : Loaded m f s) (hlength : f.entries.length < 2 ^ 32 - 4)
    (c : UInt16) (charset : UInt32) :
    isMemberOf s (some m) c charset = .ok (s, answer f c charset) := by
  obtain ⟨hcount, array, harray, hshows⟩ := hs
  have hwhitespace : mapCompatibilitySetID charset = whitespaceCharacterSet ↔ _ :=
    mapCompatibilitySetID_eq (by decide) (by decide)
  have hboth : mapCompatibilitySetID charset = whitespaceAndNewlineCharacterSet ↔ _ :=
    mapCompatibilitySetID_eq (by decide) (by decide)
  have hnewline : mapCompatibilitySetID charset = newlineCharacterSet ↔ _ :=
    mapCompatibilitySetID_eq (by decide) (by decide)
  have hillegal : mapCompatibilitySetID charset = illegalCharacterSet ↔ _ :=
    mapCompatibilitySetID_eq (by decide) (by decide)
  unfold isMemberOf answer
  simp only [hwhitespace, hboth, hnewline]
  split
  next => rfl
  next h₂ =>
    split
    next => rfl
    next h₃ =>
      split
      next => rfl
      next =>
        have hnone : ¬ s.bitmapDataArray = none := by
          rw [harray]
          exact Option.some_ne_none array
        rw [if_neg hnone, ok_bind, hcount, harray, Option.bind_some]
        have htable := table_spec (fun h => h₂ (UInt32.toNat_inj.mp h))
          (fun h => h₃ (UInt32.toNat_inj.mp h)) hlength
        rw [← htable]
        generalize (mapExternalSetToInternalIndex (mapCompatibilitySetID charset)).toNat = index
        cases hentry : f.entries[index]? with
        | none =>
            have hle := List.getElem?_eq_none_iff.mp hentry
            rw [if_neg (Nat.not_lt.mpr hle)]
        | some e =>
            obtain ⟨hlt, he⟩ := List.getElem?_eq_some_iff.mp hentry
            have hlt' : index < array.length := Nat.lt_of_lt_of_eq hlt hshows.length_eq
            have hdata : Shows m (f.headerSize + e.1) e.2 array[index] := by
              rw [← he]
              exact hshows.get hlt hlt'
            rw [if_pos hlt, List.getElem?_eq_getElem hlt']
            dsimp only
            rw [isMemberOfTable_spec hdata, ok_bind]
            simp only [hillegal]

theorem entries_length_lt (h : Holds m f) : f.entries.length < 2 ^ 32 - 4 := by
  obtain ⟨b₀, b₁, b₂, b₃, -, hsize⟩ := h.headerSize
  have h₀ := b₀.toNat_lt
  have h₁ := b₁.toNat_lt
  have h₂ := b₂.toNat_lt
  have h₃ := b₃.toNat_lt
  rw [File.headerSize] at hsize
  omega

/-- The first question that needs the file loads it. -/
theorem isMemberOf_spec (h : Holds m f) (hloads : Loads m f)
    (hs : s.bitmapDataArray = none ∨ Loaded m f s) (c : UInt16) (charset : UInt32) :
    ∃ s', isMemberOf s (some m) c charset = .ok (s', answer f c charset) ∧
      (s'.bitmapDataArray = none ∨ Loaded m f s') := by
  have hlength := entries_length_lt h
  rcases hs with hs | hs
  · obtain ⟨s', hload, hloaded⟩ := (loadBitmapData_iff h hs).mpr hloads
    have hanswer := isMemberOf_loaded hloaded hlength c charset
    have hsome : ¬ s'.bitmapDataArray = none := by
      obtain ⟨-, array, harray, -⟩ := hloaded
      rw [harray]
      exact Option.some_ne_none array
    unfold isMemberOf at hanswer ⊢
    dsimp only at hanswer ⊢
    by_cases h₂ : mapCompatibilitySetID charset = whitespaceCharacterSet
    · rw [if_pos h₂] at hanswer ⊢
      exact ⟨s, by rw [← (Prod.mk.inj (Except.ok.inj hanswer)).2], .inl hs⟩
    rw [if_neg h₂] at hanswer ⊢
    by_cases h₃ : mapCompatibilitySetID charset = whitespaceAndNewlineCharacterSet
    · rw [if_pos h₃] at hanswer ⊢
      exact ⟨s, by rw [← (Prod.mk.inj (Except.ok.inj hanswer)).2], .inl hs⟩
    rw [if_neg h₃] at hanswer ⊢
    by_cases h₁₅ : mapCompatibilitySetID charset = newlineCharacterSet
    · rw [if_pos h₁₅] at hanswer ⊢
      exact ⟨s, by rw [← (Prod.mk.inj (Except.ok.inj hanswer)).2], .inl hs⟩
    rw [if_neg h₁₅, if_neg hsome] at hanswer
    rw [if_neg h₁₅, if_pos hs, hload]
    exact ⟨s', hanswer, .inr hloaded⟩
  · exact ⟨s, isMemberOf_loaded hs hlength c charset, .inr hs⟩

/-- Any questions in a row are answered from the bitmaps of the file: each set from its own,
the illegal characters from that of the legal ones, and none from a bitmap there is not. -/
theorem isMemberOfAll_spec (h : Holds m f) (hloads : Loads m f)
    (hs : s.bitmapDataArray = none ∨ Loaded m f s) (questions : List (UInt16 × UInt32)) :
    ∃ s', isMemberOfAll s (some m) questions =
      .ok (s', questions.map fun q => answer f q.1 q.2) := by
  induction questions generalizing s with
  | nil => exact ⟨s, rfl⟩
  | cons q questions ih =>
      obtain ⟨s₁, hfirst, hs₁⟩ := isMemberOf_spec h hloads hs q.1 q.2
      obtain ⟨s', hrest⟩ := ih hs₁
      refine ⟨s', ?_⟩
      show (isMemberOf s (some m) q.1 q.2 >>= fun r => isMemberOfAll r.1 (some m) questions >>=
        fun r' => .ok (r'.1, r.2 :: r'.2)) = _
      rw [hfirst, ok_bind, hrest]
      rfl

end Loaded

/-- A digit, a space and a character that is illegal, of a file with one bitmap. -/
theorem isMemberOfAll_spec_gap : ∃ s', isMemberOfAll .initial (some gapImage)
    [(65, 4), (32, 2), (65, 12), (65, 0)] = .ok (s', [(65, 4), (32, 2), (65, 12), (65, 0)].map
      fun q => answer gapFile q.1 q.2) := by
  have hloads : Loads gapImage gapFile := by
    refine ⟨by decide, fun e he => ?_⟩
    cases List.mem_singleton.mp he
    exact ⟨by decide, fun hnil => absurd hnil (List.cons_ne_nil _ _), isSome_image ..⟩
  exact isMemberOfAll_spec holds_gap hloads (.inl rfl) _

end UnicodeChar

end Rx
