/-
# `RxFoundation.BasicHashTypeInfo` — the key infos of `BasicHashTypeInfo.hpp`

The specialisations of `BasicHashInfo` for unsigned integers and for pairs, on a
64-bit target (`HashCode` is 64 bits wide).  Each is a `LawfulKeyInfo`, so what
the tables ask of a key type holds of every key type built from them.
-/
import CrashRealm.RxFoundation.BasicHash

namespace Rx

namespace BasicHashInfo

def HASHFACTOR : UInt64 := 2654435761

/-- `BasicHashInfoHelper::_getHashValue` of an integral key, widened to `HashCode`. -/
def hashIntegral (key : UInt64) : UInt64 := (if key > 0 then key else -key) * HASHFACTOR

/-- `BasicHashInfo<unsigned>`. -/
def unsigned : LawfulKeyInfo UInt32 where
  isEqual lhs rhs := lhs == rhs
  getHashValue val := hashIntegral val.toUInt64
  getEmptyKey := ~~~0
  getTombstoneKey := ~~~0 - 1
  refl a := beq_self_eq_true a
  symm a b h := by rw [beq_iff_eq] at h ⊢; exact h.symm
  trans a b c h h' := by rw [beq_iff_eq] at h h' ⊢; exact h.trans h'
  hash_congr a b h := by rw [beq_iff_eq] at h; rw [h]
  sentinels := by decide

/-- `BasicHashInfo<unsigned long long>`. -/
def unsignedLongLong : LawfulKeyInfo UInt64 where
  isEqual lhs rhs := lhs == rhs
  getHashValue val := hashIntegral val
  getEmptyKey := ~~~0
  getTombstoneKey := ~~~0 - 1
  refl a := beq_self_eq_true a
  symm a b h := by rw [beq_iff_eq] at h ⊢; exact h.symm
  trans a b c h h' := by rw [beq_iff_eq] at h h' ⊢; exact h.trans h'
  hash_congr a b h := by rw [beq_iff_eq] at h; rw [h]
  sentinels := by decide

/-- `combineHashValue`: eight mixing steps, then the low 32 bits. -/
def combineHashValue (a b : UInt64) : UInt64 :=
  let key := a <<< 32 ||| b
  let key := key + ~~~(key <<< 32)
  let key := key ^^^ (key >>> 22)
  let key := key + ~~~(key <<< 13)
  let key := key ^^^ (key >>> 8)
  let key := key + (key <<< 3)
  let key := key ^^^ (key >>> 15)
  let key := key + ~~~(key <<< 27)
  let key := key ^^^ (key >>> 31)
  key.toUInt32.toUInt64

/-- `BasicHashInfo<std::pair<T, U>>`. -/
def pair {A B : Type} (FirstInfo : LawfulKeyInfo A) (SecondInfo : LawfulKeyInfo B) :
    LawfulKeyInfo (A × B) where
  isEqual lhs rhs := FirstInfo.isEqual lhs.1 rhs.1 && SecondInfo.isEqual lhs.2 rhs.2
  getHashValue val :=
    combineHashValue (FirstInfo.getHashValue val.1) (SecondInfo.getHashValue val.2)
  getEmptyKey := (FirstInfo.getEmptyKey, SecondInfo.getEmptyKey)
  getTombstoneKey := (FirstInfo.getTombstoneKey, SecondInfo.getTombstoneKey)
  refl a := by rw [FirstInfo.refl, SecondInfo.refl, Bool.and_self]
  symm a b h := by
    rw [Bool.and_eq_true] at h ⊢
    exact ⟨FirstInfo.symm _ _ h.1, SecondInfo.symm _ _ h.2⟩
  trans a b c h h' := by
    rw [Bool.and_eq_true] at h h' ⊢
    exact ⟨FirstInfo.trans _ _ _ h.1 h'.1, SecondInfo.trans _ _ _ h.2 h'.2⟩
  hash_congr a b h := by
    rw [Bool.and_eq_true] at h
    rw [FirstInfo.hash_congr _ _ h.1, SecondInfo.hash_congr _ _ h.2]
  sentinels := by rw [FirstInfo.sentinels, Bool.false_and]

end BasicHashInfo

/-- A table of trivially copyable values, with `unsigned` keys: fresh memory is
taken to be zeroed. -/
def unsignedTable (V : Type) [Inhabited V] : TableType UInt32 V where
  toLawfulKeyInfo := BasicHashInfo.unsigned
  defaultValue := default
  raw := ⟨0, default⟩
  isTriviallyCopyable := true
  isPodLike := true

/-- The same with `unsigned long long` keys. -/
def unsignedLongLongTable (V : Type) [Inhabited V] : TableType UInt64 V where
  toLawfulKeyInfo := BasicHashInfo.unsignedLongLong
  defaultValue := default
  raw := ⟨0, default⟩
  isTriviallyCopyable := true
  isPodLike := true

end Rx
