/-
# `RxCoreComponents.PrimaryKey` — keys by number, keys by token, and arrays of keys

`RxIntPK` goes by its number throughout.  `RxStringPK` hashes its token and writes it out
by its contents, but compares it by its address: `keyLaws_iff` says that its keys are
lawful just as long as equal tokens are one object.

`ids` and `getInKeys` of an array convert every element, and return an array of
a subclass for which both are the identity.  The first conversion of a chain decides
what all later ones return; `convert_iff` says when that is what was asked for.

Strings are objects with contents; the hash of a string and `longLongValue` are parameters,
and so are the objects of other classes that have the two methods.
-/
import CrashRealm.Lib.KeyEquality
import CrashRealm.RxCoreComponents.MultipleDelegate
import CrashRealm.RxFoundation.Fault

namespace Rx

abbrev RxIDType := Int64

/-- `stringWithFormat:@"%lld"`. -/
def stringWithLongLong (n : RxIDType) : String := toString n.toInt

/-! ## Decimals -/

theorem natRepr_injective {m n : Nat} (h : m.repr = n.repr) : m = n := by
  have hdigits := congrArg String.toList h
  rw [Nat.toList_repr, Nat.toList_repr] at hdigits
  rw [← Nat.ofDigitChars_ten_toDigits (n := m), hdigits, Nat.ofDigitChars_ten_toDigits]

/-- A sign is not a digit. -/
theorem minus_repr_ne (m n : Nat) : "-" ++ m.repr ≠ n.repr := by
  intro h
  have hdigits := congrArg String.toList h
  rw [String.toList_append, Nat.toList_repr, Nat.toList_repr] at hdigits
  have hmem : '-' ∈ Nat.toDigits 10 n := by
    rw [← hdigits]
    simp
  have hdigit := Nat.isDigit_of_mem_toDigits (by decide) (by decide) hmem
  simp at hdigit

theorem intRepr_injective {m n : Int} (h : m.repr = n.repr) : m = n := by
  cases m with
  | ofNat m =>
      cases n with
      | ofNat n => exact congrArg Int.ofNat (natRepr_injective h)
      | negSucc n => exact absurd h.symm (minus_repr_ne _ _)
  | negSucc m =>
      cases n with
      | ofNat n => exact absurd h (minus_repr_ne _ _)
      | negSucc n =>
          have hsucc : m.succ = n.succ := natRepr_injective ((String.append_right_inj "-").mp h)
          exact congrArg Int.negSucc (Nat.succ.inj hsucc)

theorem stringWithLongLong_inj {m n : RxIDType} :
    stringWithLongLong m = stringWithLongLong n ↔ m = n := by
  constructor
  · intro h
    exact Int64.toInt_inj.mp (intRepr_injective h)
  · rintro rfl
    rfl

/-! ## The two classes of keys -/

structure RxIntPK where
  ID : RxIDType
  deriving DecidableEq

namespace RxIntPK

/-- `_ID >> 32`. -/
def hash (key : RxIntPK) : UInt64 := (key.ID >>> 32).toUInt64

def getInKey (key : RxIntPK) : String := stringWithLongLong key.ID

def numericIDKey (key : RxIntPK) : RxIDType := key.ID

/-- `isEqual:` of a key of the same class. -/
def isEqual (key object : RxIntPK) : Bool := object.ID = key.ID

end RxIntPK

/-- The token is a reference to a string. -/
structure RxStringPK (R : Type) where
  token : R
  deriving DecidableEq

namespace RxStringPK

variable {R : Type} (contents : R → String)

def hash (stringHash : String → UInt64) (key : RxStringPK R) : UInt64 :=
  stringHash (contents key.token)

/-- The contents of `getInKey`. -/
def getInKey (key : RxStringPK R) : String := contents key.token

def numericIDKey (longLongValue : String → RxIDType) (key : RxStringPK R) : RxIDType :=
  longLongValue (contents key.token)

/-- `isEqual:` of a key of the same class. -/
def isEqual [DecidableEq R] (key object : RxStringPK R) : Bool := object.token = key.token

end RxStringPK

/-! ## The laws of keys -/

/-- `isEqual:` and `hash` serve a hashed collection, and `isEqual:` goes by `getInKey`. -/
structure KeyLaws {K : Type} (S : K → Prop) (isEqual : K → K → Bool) (hash : K → UInt64)
    (getInKey : K → String) : Prop where
  lawful : KeyEquality.Lawful S (fun a b => isEqual a b = true) hash
  getInKey : ∀ a b, S a → S b → (isEqual a b = true ↔ getInKey a = getInKey b)

theorem RxIntPK.isEqual_iff (a b : RxIntPK) : a.isEqual b = true ↔ a.ID = b.ID := by
  simp only [isEqual, decide_eq_true_eq]
  exact eq_comm

theorem RxIntPK.keyLaws (S : RxIntPK → Prop) : KeyLaws S isEqual hash getInKey where
  lawful := by
    refine KeyEquality.lawful_of_value RxIntPK.ID (fun ID => (ID >>> 32).toUInt64) ?_ ?_
    · intro a b _ _
      exact a.isEqual_iff b
    · intro a _
      rfl
  getInKey := by
    intro a b _ _
    rw [isEqual_iff]
    exact stringWithLongLong_inj.symm

/-- A hashed collection finds a number in its bucket. -/
theorem RxIntPK.lookup (keys : List RxIntPK) (key : RxIntPK) :
    (∃ k ∈ keys, k.hash = key.hash ∧ k.isEqual key = true) ↔ key ∈ keys := by
  rw [(keyLaws fun _ => True).lawful.lookup (fun _ _ => trivial) trivial]
  constructor
  · rintro ⟨⟨ID⟩, hmem, heq⟩
    obtain rfl := (isEqual_iff _ _).mp heq
    exact hmem
  · intro hmem
    exact ⟨key, hmem, (isEqual_iff _ _).mpr rfl⟩

section

variable {R : Type} [DecidableEq R]

theorem RxStringPK.isEqual_iff (a b : RxStringPK R) : a.isEqual b = true ↔ a.token = b.token := by
  simp only [isEqual, decide_eq_true_eq]
  exact eq_comm

theorem RxStringPK.lawful_iff (contents : R → String) (stringHash : String → UInt64)
    (S : RxStringPK R → Prop) :
    KeyLaws S isEqual (hash contents stringHash) (getInKey contents) ↔
      ∀ a b, S a → S b → contents a.token = contents b.token → a.token = b.token := by
  constructor
  · intro h a b ha hb hcontents
    exact (isEqual_iff a b).mp ((h.getInKey a b ha hb).mpr hcontents)
  · intro h
    have hgetInKey : ∀ a b, S a → S b →
        (a.isEqual b = true ↔ a.getInKey contents = b.getInKey contents) := by
      intro a b ha hb
      rw [isEqual_iff]
      exact ⟨fun htoken => congrArg contents htoken, h a b ha hb⟩
    refine ⟨?_, hgetInKey⟩
    exact KeyEquality.lawful_of_value (getInKey contents) stringHash hgetInKey fun _ _ => rfl

end

/-- Keys by number are lawful.  Keys by token are lawful exactly where no two of them
have tokens that are different objects with the same contents. -/
theorem keyLaws_iff (R : Type) [DecidableEq R] (contents : R → String)
    (stringHash : String → UInt64) (S : RxStringPK R → Prop) :
    KeyLaws (fun _ => True) RxIntPK.isEqual RxIntPK.hash RxIntPK.getInKey ∧
      (KeyLaws S RxStringPK.isEqual (RxStringPK.hash contents stringHash)
          (RxStringPK.getInKey contents) ↔
        ∀ a b, S a → S b → contents a.token = contents b.token → a.token = b.token) :=
  ⟨RxIntPK.keyLaws _, RxStringPK.lawful_iff contents stringHash S⟩

/-- Two strings with the same contents. -/
theorem stringPK_notEqual :
    let contents : Bool → String := fun _ => "token"
    RxStringPK.isEqual ⟨false⟩ (⟨true⟩ : RxStringPK Bool) = false ∧
      RxStringPK.getInKey contents ⟨false⟩ = RxStringPK.getInKey contents ⟨true⟩ ∧
      ¬ KeyLaws (fun _ => True) RxStringPK.isEqual (RxStringPK.hash contents fun _ => 0)
        (RxStringPK.getInKey contents) := by
  intro contents
  refine ⟨rfl, rfl, fun h => ?_⟩
  exact Bool.false_ne_true ((h.getInKey ⟨false⟩ ⟨true⟩ trivial trivial).mpr rfl)

/-! ## Arrays of keys -/

/-- An element of an array; `object` is of another class. -/
inductive PKObject (O : Type) where
  | string (s : String)
  | number (n : RxIDType)
  | intPK (key : RxIntPK)
  | stringPK (key : RxStringPK String)
  | object (o : O)
  deriving DecidableEq

/-- `longLongValue` of a string, and the two methods of other objects, if they have them. -/
structure PKMethods (O : Type) where
  longLongValue : String → RxIDType
  getInKey : O → Option String
  numericIDKey : O → Option RxIDType

/-- `NSArray`, or `__RxIDArray`. -/
structure PKArray (O : Type) where
  isIDArray : Bool
  values : List (PKObject O)
  deriving DecidableEq

inductive Conversion where
  | ids
  | getInKeys
  deriving DecidableEq, Repr

section

variable {O : Type} (methods : PKMethods O)

/-- `getInKey`, where the object responds to it. -/
def PKObject.getInKey : PKObject O → Option String
  | string s => some s
  | number n => some (stringWithLongLong n)
  | intPK key => some key.getInKey
  | stringPK key => some (key.getInKey id)
  | object o => methods.getInKey o

/-- `numericIDKey`, where the object responds to it. -/
def PKObject.numericIDKey : PKObject O → Option RxIDType
  | string s => some (methods.longLongValue s)
  | number n => some n
  | intPK key => some key.numericIDKey
  | stringPK key => some (key.numericIDKey id methods.longLongValue)
  | object o => methods.numericIDKey o

/-- What a conversion makes of an element. -/
def PKObject.convert (e : PKObject O) : Conversion → Option (PKObject O)
  | .ids => (e.numericIDKey methods).map .number
  | .getInKeys => (e.getInKey methods).map .string

/-- `RxPrimaryKeyException`. -/
def primaryKeyException : NSException where
  name := "RxPrimaryKeyException"
  reason := "element not conform RxPrimaryKey protocol"

namespace PKArray

/-- The loop of both methods of `NSArray`. -/
def convertLoop (c : Conversion) :
    List (PKObject O) → List (PKObject O) → Except NSException (List (PKObject O))
  | [], ids => .ok ids
  | e :: es, ids =>
      match e.convert methods c with
      | some key => convertLoop c es (ids ++ [key])
      | none => .error primaryKeyException

/-- `arrayWithIDs:`. -/
def arrayWithIDs (keys : List (PKObject O)) : PKArray O := ⟨true, keys⟩

/-- `ids` and `getInKeys`; an `__RxIDArray` returns itself. -/
def convert (a : PKArray O) (c : Conversion) : Except NSException (PKArray O) :=
  if a.isIDArray then .ok a
  else do
    let ids ← convertLoop methods c a.values []
    return arrayWithIDs ids

/-- A chain of conversions. -/
def convertAll (a : PKArray O) (cs : List Conversion) : Except NSException (PKArray O) :=
  cs.foldlM (convert methods) a

/-! ## What is promised -/

/-- The element has both methods. -/
def Implements (e : PKObject O) : Prop :=
  e.getInKey methods ≠ none ∧ e.numericIDKey methods ≠ none

/-- The conversion returns what it makes of each element. -/
def ConvertsWell (a : PKArray O) (c : Conversion) : Prop :=
  ∃ r, a.convert methods c = .ok r ∧ r.values.map some = a.values.map (PKObject.convert methods · c)

/-! ## The loop -/

variable {methods}

theorem convert_isSome {e : PKObject O} (h : Implements methods e) (c : Conversion) :
    ∃ key, e.convert methods c = some key := by
  cases c with
  | ids =>
      obtain ⟨n, hn⟩ := Option.ne_none_iff_exists'.mp h.2
      exact ⟨.number n, by rw [PKObject.convert, hn, Option.map_some]⟩
  | getInKeys =>
      obtain ⟨s, hs⟩ := Option.ne_none_iff_exists'.mp h.1
      exact ⟨.string s, by rw [PKObject.convert, hs, Option.map_some]⟩

theorem convertLoop_ok {c : Conversion} {es : List (PKObject O)}
    (h : ∀ e ∈ es, Implements methods e) (acc : List (PKObject O)) :
    ∃ keys, convertLoop methods c es acc = .ok (acc ++ keys) ∧
      keys.map some = es.map (PKObject.convert methods · c) := by
  induction es generalizing acc with
  | nil => exact ⟨[], by rw [convertLoop, List.append_nil], rfl⟩
  | cons e es ih =>
      obtain ⟨he, hes⟩ := List.forall_mem_cons.mp h
      obtain ⟨key, hkey⟩ := convert_isSome he c
      obtain ⟨keys, hloop, hkeys⟩ := ih hes (acc ++ [key])
      refine ⟨key :: keys, ?_, ?_⟩
      · rw [convertLoop, hkey]
        simpa using hloop
      · rw [List.map_cons, List.map_cons, hkey, hkeys]

/-- An element without the method raises. -/
theorem convertLoop_error {c : Conversion} {es : List (PKObject O)} {e : PKObject O} (he : e ∈ es)
    (h : e.convert methods c = none) (acc : List (PKObject O)) :
    convertLoop methods c es acc = .error primaryKeyException := by
  induction es generalizing acc with
  | nil => cases he
  | cons e' es ih =>
      rcases List.mem_cons.mp he with rfl | hmem
      · rw [convertLoop, h]
      · rw [convertLoop]
        cases e'.convert methods c with
        | none => rfl
        | some key => exact ih hmem _

theorem convert_ok {a : PKArray O} (hplain : a.isIDArray = false)
    (h : ∀ e ∈ a.values, Implements methods e) (c : Conversion) :
    ∃ r, a.convert methods c = .ok r ∧ r.isIDArray = true ∧
      r.values.map some = a.values.map (PKObject.convert methods · c) := by
  obtain ⟨keys, hloop, hkeys⟩ := convertLoop_ok (c := c) h []
  refine ⟨arrayWithIDs keys, ?_, rfl, hkeys⟩
  simp only [convert, hplain, Bool.false_eq_true, if_false, hloop, List.nil_append]
  rfl

theorem convertAll_isIDArray {a : PKArray O} (h : a.isIDArray = true) (cs : List Conversion) :
    a.convertAll methods cs = .ok a := by
  induction cs with
  | nil => rfl
  | cons c cs ih =>
      rw [convertAll, List.foldlM_cons, convert, if_pos h, ok_bind]
      exact ih

/-! ## Chains -/

/-- The first conversion decides what a converted element is. -/
theorem convert_convert {e key : PKObject O} {c c' : Conversion}
    (h : e.convert methods c = some key) : key.convert methods c' = some key ↔ c' = c := by
  cases c with
  | ids =>
      obtain ⟨n, -, rfl⟩ := Option.map_eq_some_iff.mp h
      cases c' with
      | ids => simp [PKObject.convert, PKObject.numericIDKey]
      | getInKeys => simp [PKObject.convert, PKObject.getInKey]
  | getInKeys =>
      obtain ⟨s, -, rfl⟩ := Option.map_eq_some_iff.mp h
      cases c' with
      | ids => simp [PKObject.convert, PKObject.numericIDKey]
      | getInKeys => simp [PKObject.convert, PKObject.getInKey]

/-- An array that was converted once converts well by the same conversion only. -/
theorem convertsWell_iff {a r : PKArray O} {c : Conversion} (hisa : r.isIDArray = true)
    (hr : r.values.map some = a.values.map (PKObject.convert methods · c)) (c' : Conversion) :
    r.ConvertsWell methods c' ↔ a.values = [] ∨ c' = c := by
  have hself : r.convert methods c' = .ok r := by rw [convert, if_pos hisa]
  have hfrom : ∀ key ∈ r.values, ∃ e : PKObject O, e.convert methods c = some key := by
    intro key hkey
    have hmem : some key ∈ r.values.map some := List.mem_map_of_mem hkey
    rw [hr] at hmem
    obtain ⟨e, -, he⟩ := List.mem_map.mp hmem
    exact ⟨e, he⟩
  have hlength : r.values.length = a.values.length := by
    simpa using congrArg List.length hr
  constructor
  · rintro ⟨r', hr', hvalues⟩
    cases hself.symm.trans hr'
    cases hkeys : r.values with
    | nil =>
        rw [hkeys] at hlength
        exact .inl (List.length_eq_zero_iff.mp hlength.symm)
    | cons key keys =>
        obtain ⟨e, he⟩ := hfrom key (by rw [hkeys]; exact List.mem_cons_self)
        rw [hkeys, List.map_cons, List.map_cons] at hvalues
        exact .inr ((convert_convert he).mp (List.cons.inj hvalues).1.symm)
  · intro h
    refine ⟨r, hself, ?_⟩
    rcases h with hempty | rfl
    · rw [hempty] at hlength
      rw [List.length_eq_zero_iff.mp hlength]
      rfl
    · refine List.map_congr_left ?_
      intro key hkey
      obtain ⟨e, he⟩ := hfrom key hkey
      exact ((convert_convert he).mpr rfl).symm

end PKArray

end

namespace PKArray

/-- After a chain of conversions of an array of objects that have both methods, another
conversion gives what was asked for, exactly if the array is empty or the chain began
with the same conversion. -/
theorem convert_iff (O : Type) (methods : PKMethods O) (es : List (PKObject O))
    (h : ∀ e ∈ es, Implements methods e) (cs : List Conversion) (c : Conversion) :
    (∃ a, convertAll methods ⟨false, es⟩ cs = .ok a ∧ a.ConvertsWell methods c) ↔
      es = [] ∨ ∀ c' ∈ cs.head?, c' = c := by
  cases cs with
  | nil =>
      obtain ⟨r, hr, -, hvalues⟩ := convert_ok (a := ⟨false, es⟩) rfl h c
      constructor
      · rintro -
        refine .inr fun c' hc' => ?_
        cases hc'
      · intro _
        exact ⟨⟨false, es⟩, rfl, r, hr, hvalues⟩
  | cons c₀ cs =>
      obtain ⟨r, hr, hisa, hvalues⟩ := convert_ok (a := ⟨false, es⟩) rfl h c₀
      have hall : convertAll methods ⟨false, es⟩ (c₀ :: cs) = .ok r := by
        rw [convertAll, List.foldlM_cons, hr, ok_bind]
        exact convertAll_isIDArray hisa cs
      have hiff := convertsWell_iff (a := ⟨false, es⟩) hisa hvalues c
      constructor
      · rintro ⟨a, ha, hwell⟩
        cases hall.symm.trans ha
        rcases hiff.mp hwell with hempty | rfl
        · exact .inl hempty
        · exact .inr fun c' hc' => (Option.some.inj hc').symm
      · rintro (hempty | hhead)
        · exact ⟨r, hall, hiff.mpr (.inl hempty)⟩
        · exact ⟨r, hall, hiff.mpr (.inr (hhead c₀ rfl).symm)⟩

/-- Strings and numbers only. -/
def sampleMethods : PKMethods Empty := ⟨fun _ => 0, nofun, nofun⟩

theorem convert_iff_ids :
    ∃ a, convertAll sampleMethods ⟨false, [.intPK ⟨7⟩, .number 8]⟩ [.ids, .getInKeys] = .ok a ∧
      a.ConvertsWell sampleMethods .ids := by
  refine (convert_iff Empty sampleMethods [.intPK ⟨7⟩, .number 8] ?_ [.ids, .getInKeys] .ids).mpr ?_
  · intro e he
    simp only [List.mem_cons, List.not_mem_nil, or_false] at he
    rcases he with rfl | rfl
    · exact ⟨Option.some_ne_none _, Option.some_ne_none _⟩
    · exact ⟨Option.some_ne_none _, Option.some_ne_none _⟩
  · exact .inr fun c' hc' => (Option.some.inj hc').symm

/-- `[[@[key] ids] getInKeys]` returns numbers. -/
theorem getInKeys_of_ids :
    convertAll sampleMethods ⟨false, [.intPK ⟨7⟩]⟩ [.ids, .getInKeys] =
        .ok ⟨true, [.number 7]⟩ ∧
      ¬ ConvertsWell sampleMethods ⟨true, [.number 7]⟩ .getInKeys := by
  refine ⟨rfl, ?_⟩
  rintro ⟨r, hr, hvalues⟩
  cases hr
  cases hvalues

end PKArray

end Rx
