/-
# `RxCoreComponents.JSONSerialization` — a JSON object without its nulls

`RxJSONSerialization` filters what `NSJSONSerialization` has parsed.  The two filters
call each other, each going through a container once and adding to a mutable one what
it keeps; the reading options say whether that or a copy of it is returned.

`filter_spec` is about every tree with string keys that are distinct at each depth.
The flag of a container says whether it is mutable.  What `NSJSONSerialization` returns
is a parameter.
-/
import CrashRealm.Lib.JsonTree

namespace Rx

/-- `NSNull`, for which the filter tests as well, or a string. -/
inductive JSONKey where
  | null
  | string (s : String)
  deriving DecidableEq, Repr

/-- A JSON object with scalars in `S`. -/
abbrev JSONObject (S : Type) := JsonTree Bool JSONKey S

abbrev NSJSONReadingOptions := BitVec 64

def NSJSONReadingMutableContainers : NSJSONReadingOptions := 1

namespace RxJSONSerialization

section

variable {S : Type}

/-- Whether the mutable container is returned, and not a copy of it. -/
def mutableContainers (opt : NSJSONReadingOptions) : Bool :=
  opt &&& NSJSONReadingMutableContainers = NSJSONReadingMutableContainers

/-- `md[key] = v`. -/
def setObject : List (JSONKey × JSONObject S) → JSONKey → JSONObject S →
    List (JSONKey × JSONObject S)
  | [], key, v => [(key, v)]
  | entry :: md, key, v =>
      if entry.1 = key then (key, v) :: md else entry :: setObject md key v

mutual

/-- What either filter keeps of an object: nothing of a null, a container filtered. -/
def filterValue (opt : NSJSONReadingOptions) : JSONObject S → Option (JSONObject S)
  | .null => none
  | .scalar s => some (.scalar s)
  | .array _ elements =>
      some (.array (mutableContainers opt) (filterElements opt elements []))
  | .dictionary _ entries =>
      some (.dictionary (mutableContainers opt) (filterEntries opt entries []))
termination_by structural obj => obj

/-- `enumerateObjectsUsingBlock:` in `filterArray:options:`. -/
def filterElements (opt : NSJSONReadingOptions) :
    List (JSONObject S) → List (JSONObject S) → List (JSONObject S)
  | [], ma => ma
  | obj :: array, ma =>
      filterElements opt array
        (match filterValue opt obj with
        | some v => ma ++ [v]
        | none => ma)
termination_by structural array => array

/-- `enumerateKeysAndObjectsUsingBlock:` in `filterDictionary:options:`. -/
def filterEntries (opt : NSJSONReadingOptions) :
    List (JSONKey × JSONObject S) → List (JSONKey × JSONObject S) → List (JSONKey × JSONObject S)
  | [], md => md
  | entry :: dict, md => filterEntries opt dict (filterEntry opt entry md)
termination_by structural dict => dict

def filterEntry (opt : NSJSONReadingOptions) :
    JSONKey × JSONObject S → List (JSONKey × JSONObject S) → List (JSONKey × JSONObject S)
  | (key, obj), md =>
      match key, filterValue opt obj with
      | .string s, some v => setObject md (.string s) v
      | _, _ => md
termination_by structural entry => entry

end

/-- `filterArray:options:`. -/
def filterArray (array : List (JSONObject S)) (opt : NSJSONReadingOptions) : JSONObject S :=
  .array (mutableContainers opt) (filterElements opt array [])

/-- `filterDictionary:options:`. -/
def filterDictionary (dict : List (JSONKey × JSONObject S)) (opt : NSJSONReadingOptions) :
    JSONObject S :=
  .dictionary (mutableContainers opt) (filterEntries opt dict [])

/-- What `__JSONObjectWithData:options:error:` makes of the object that was parsed. -/
def filterObject (opt : NSJSONReadingOptions) : JSONObject S → JSONObject S
  | .array _ elements => filterArray elements opt
  | .dictionary _ entries => filterDictionary entries opt
  | .null => .null
  | .scalar s => .scalar s

/-- `JSONObjectWithData:options:error:`, where `x` was parsed. -/
def JSONObjectWithData (x : Option (JSONObject S)) (opt : NSJSONReadingOptions) :
    Option (JSONObject S) :=
  x.map (filterObject opt)

/-! ## What is promised -/

def NonNull (obj : JSONObject S) : Bool := !obj.isNull

/-- Keys are strings, and distinct in each dictionary. -/
def WellFormed (obj : JSONObject S) : Prop :=
  JsonTree.WellFormed (· ≠ JSONKey.null) obj

/-- What is left of a container: what is not null in it, in order, each filtered. -/
def RemovesNulls (opt : NSJSONReadingOptions) : JSONObject S → Prop
  | .array _ elements => filterArray elements opt =
      .array (mutableContainers opt) ((elements.filter NonNull).map (filterObject opt))
  | .dictionary _ entries => filterDictionary entries opt =
      .dictionary (mutableContainers opt)
        ((entries.filter fun entry => NonNull entry.2).map (Prod.map id (filterObject opt)))
  | .null | .scalar _ => True

/-- The same object with all containers mutable, or none. -/
def withMutability (isMutable : Bool) (obj : JSONObject S) : JSONObject S :=
  JsonTree.rebuild false (fun _ => isMutable) obj

/-! ## The loops -/

/-- An object without its nulls, as it is kept. -/
def pruned (opt : NSJSONReadingOptions) (obj : JSONObject S) : JSONObject S :=
  JsonTree.rebuild true (fun _ => mutableContainers opt) obj

theorem kept_eq_nonNull : (JsonTree.kept true : JSONObject S → Bool) = NonNull := by
  funext obj
  simp [JsonTree.kept, NonNull]

/-- Which objects a filter keeps, and as what. -/
def Keeps (opt : NSJSONReadingOptions) (obj : JSONObject S) : Prop :=
  filterValue opt obj = if NonNull obj then some (pruned opt obj) else none

theorem filterElements_eq {opt : NSJSONReadingOptions} {array : List (JSONObject S)}
    (h : ∀ obj ∈ array, Keeps opt obj) (ma : List (JSONObject S)) :
    filterElements opt array ma = ma ++ (array.filter NonNull).map (pruned opt) := by
  induction array generalizing ma with
  | nil => simp [filterElements]
  | cons obj array ih =>
      obtain ⟨hobj, harray⟩ := List.forall_mem_cons.mp h
      simp only [Keeps] at hobj
      simp only [filterElements, hobj, ih harray, List.filter_cons]
      cases NonNull obj with
      | true => simp
      | false => simp

theorem setObject_of_notMem {md : List (JSONKey × JSONObject S)} {key : JSONKey}
    (h : key ∉ md.map Prod.fst) (v : JSONObject S) : setObject md key v = md ++ [(key, v)] := by
  induction md with
  | nil => rfl
  | cons entry md ih =>
      simp only [List.map_cons, List.mem_cons, not_or] at h
      rw [setObject, if_neg fun heq => h.1 heq.symm, ih h.2]
      rfl

/-- A round of the loop adds an entry, or passes over a null. -/
theorem filterEntry_eq {opt : NSJSONReadingOptions} {key : JSONKey} {obj : JSONObject S}
    (hobj : Keeps opt obj) (hkey : key ≠ .null) {md : List (JSONKey × JSONObject S)}
    (hnew : key ∉ md.map Prod.fst) :
    filterEntry opt (key, obj) md = md ++ if NonNull obj then [(key, pruned opt obj)] else [] := by
  cases key with
  | null => exact absurd rfl hkey
  | string s =>
      simp only [Keeps] at hobj
      simp only [filterEntry, hobj]
      cases NonNull obj with
      | true => exact setObject_of_notMem hnew _
      | false => simp

theorem filterEntries_eq {opt : NSJSONReadingOptions} {dict : List (JSONKey × JSONObject S)}
    (h : ∀ entry ∈ dict, Keeps opt entry.2) (hkeys : ∀ entry ∈ dict, entry.1 ≠ .null)
    (md : List (JSONKey × JSONObject S)) (hnodup : (md.map Prod.fst ++ dict.map Prod.fst).Nodup) :
    filterEntries opt dict md =
      md ++ (dict.filter fun entry => NonNull entry.2).map (Prod.map id (pruned opt)) := by
  induction dict generalizing md with
  | nil => simp [filterEntries]
  | cons entry dict ih =>
      obtain ⟨key, obj⟩ := entry
      obtain ⟨hobj, hdict⟩ := List.forall_mem_cons.mp h
      obtain ⟨hkey, hkeys'⟩ := List.forall_mem_cons.mp hkeys
      have hnew : key ∉ md.map Prod.fst := by
        intro hmem
        exact List.disjoint_of_nodup_append hnodup hmem (by simp)
      rw [filterEntries, filterEntry_eq hobj hkey hnew, List.filter_cons]
      -- what is in `md` now has still none of the keys to come
      split
      next =>
        rw [ih hdict hkeys' _ (by simpa using hnodup)]
        simp
      next =>
        rw [List.append_nil]
        refine ih hdict hkeys' md (hnodup.sublist ?_)
        exact List.Sublist.append_left (List.sublist_cons_self _ _) _

/-- Both filters keep what is not null, without the nulls in it. -/
theorem keeps (opt : NSJSONReadingOptions) (obj : JSONObject S) :
    WellFormed obj → Keeps opt obj := by
  induction obj using JsonTree.ind with
  | null => exact fun _ => rfl
  | scalar s => exact fun _ => rfl
  | array flag elements ih =>
      intro hwf
      cases hwf with
      | array hall =>
          rw [Keeps, filterValue, filterElements_eq fun obj hobj => ih obj hobj (hall obj hobj)]
          simp [NonNull, JsonTree.isNull, pruned, kept_eq_nonNull]
  | dictionary flag entries ih =>
      intro hwf
      cases hwf with
      | dictionary hnodup hkeys hall =>
          rw [Keeps, filterValue, filterEntries_eq
            (fun entry hentry => ih entry hentry (hall entry hentry)) hkeys []
            (by simpa using hnodup)]
          simp [NonNull, JsonTree.isNull, pruned, kept_eq_nonNull]

theorem filterObject_eq {opt : NSJSONReadingOptions} {obj : JSONObject S} (h : WellFormed obj) :
    filterObject opt obj = pruned opt obj := by
  have hkeeps := keeps opt obj h
  cases obj with
  | null => rfl
  | scalar s => rfl
  | array flag elements => exact Option.some.inj hkeeps
  | dictionary flag entries => exact Option.some.inj hkeeps

theorem removesNulls {opt : NSJSONReadingOptions} {obj : JSONObject S} (h : WellFormed obj) :
    RemovesNulls opt obj := by
  cases obj with
  | null => trivial
  | scalar s => trivial
  | array flag elements =>
      cases h with
      | array hall =>
          rw [RemovesNulls, filterArray, filterElements_eq fun e he => keeps opt e (hall e he),
            List.nil_append]
          refine congrArg _ (List.map_congr_left fun e he => ?_)
          exact (filterObject_eq (hall e (List.mem_filter.mp he).1)).symm
  | dictionary flag entries =>
      cases h with
      | dictionary hnodup hkeys hall =>
          rw [RemovesNulls, filterDictionary,
            filterEntries_eq (fun e he => keeps opt e.2 (hall e he)) hkeys []
              (by simpa using hnodup), List.nil_append]
          refine congrArg _ (List.map_congr_left fun e he => ?_)
          exact Prod.ext rfl (filterObject_eq (hall e (List.mem_filter.mp he).1)).symm

/-- In whatever order a dictionary is gone through, the same entries are kept. -/
theorem filterEntries_perm {opt : NSJSONReadingOptions} {flag : Bool}
    {dict dict' : List (JSONKey × JSONObject S)} (hperm : dict.Perm dict')
    (h : WellFormed (.dictionary flag dict)) :
    (filterEntries opt dict []).Perm (filterEntries opt dict' []) := by
  cases h with
  | dictionary hnodup hkeys hall =>
      rw [filterEntries_eq (fun e he => keeps opt e.2 (hall e he)) hkeys [] (by simpa using hnodup),
        filterEntries_eq (fun e he => keeps opt e.2 (hall e (hperm.mem_iff.mpr he)))
          (fun e he => hkeys e (hperm.mem_iff.mpr he)) []
          (by simpa using (hperm.map Prod.fst).nodup_iff.mp hnodup)]
      exact (hperm.filter _).map _

end

/-- On every tree, the filters return what is not null, in order and at every depth;
what they return has no null, filtering it again changes nothing, and other options
make all containers mutable or immutable. -/
theorem filter_spec (S : Type) (opt opt' : NSJSONReadingOptions) (obj : JSONObject S)
    (h : WellFormed obj) :
    RemovesNulls opt obj ∧ (NonNull obj = true → (filterObject opt obj).NoNull) ∧
      filterObject opt (filterObject opt obj) = filterObject opt obj ∧
      filterObject opt' obj = withMutability (mutableContainers opt') (filterObject opt obj) := by
  have hwf : WellFormed (pruned opt obj) := h.rebuild _ _
  refine ⟨removesNulls h, ?_, ?_, ?_⟩
  · intro hnonNull
    rw [filterObject_eq h]
    exact JsonTree.noNull_rebuild _ obj (by simpa [NonNull] using hnonNull)
  · rw [filterObject_eq h, filterObject_eq hwf]
    exact JsonTree.rebuild_rebuild true true _ _ obj
  · rw [filterObject_eq h, filterObject_eq h]
    exact (JsonTree.rebuild_rebuild false true (fun _ => mutableContainers opt')
      (fun _ => mutableContainers opt) obj).symm

/-- `{"a": [null, 1, {"b": null}], "c": null}`. -/
theorem filter_spec_nested :
    let obj : JSONObject Nat := .dictionary false
      [(.string "a", .array false [.null, .scalar 1, .dictionary false [(.string "b", .null)]]),
        (.string "c", .null)]
    filterObject 0 obj = .dictionary false
        [(.string "a", .array false [.scalar 1, .dictionary false []])] ∧
      (filterObject 0 obj).NoNull := by
  intro obj
  have hwf : WellFormed obj := by
    refine .dictionary (by decide) (by simp) ?_
    simp only [List.forall_mem_cons, List.not_mem_nil, false_implies, implies_true, and_true]
    refine ⟨.array ?_, .null⟩
    simp only [List.forall_mem_cons, List.not_mem_nil, false_implies, implies_true, and_true]
    refine ⟨.null, .scalar 1, .dictionary (by decide) (by simp) ?_⟩
    simp only [List.forall_mem_cons, List.not_mem_nil, false_implies, implies_true, and_true]
    exact .null
  exact ⟨rfl, (filter_spec Nat 0 1 obj hwf).2.1 rfl⟩

end RxJSONSerialization

end Rx
