/-
# `Lib.JsonTree` — trees of arrays and dictionaries, and rebuilding them

A tree has nulls and scalars at its leaves, and arrays and dictionaries with a flag each
above them.  The entries of a dictionary are a list, in the order of enumeration.

`rebuild` copies a tree with other flags, and leaves the nulls out of every container
or keeps them.  Two copies in turn are one copy (`rebuild_rebuild`); what was copied
without nulls has none at any depth (`noNull_rebuild`); and a copy has distinct keys
where the tree had them (`WellFormed.rebuild`).  Proofs go by `JsonTree.ind`, which
gives the hypothesis for every element and every value.
-/
import Mathlib.Data.List.Nodup

universe u v w x

inductive JsonTree (F : Type u) (K : Type v) (S : Type w) where
  | null
  | scalar (s : S)
  | array (flag : F) (elements : List (JsonTree F K S))
  | dictionary (flag : F) (entries : List (K × JsonTree F K S))

namespace JsonTree

variable {F : Type u} {F' : Type u} {F'' : Type u} {K : Type v} {S : Type w}

@[elab_as_elim, induction_eliminator]
theorem ind {P : JsonTree F K S → Prop} (null : P .null) (scalar : ∀ s, P (.scalar s))
    (array : ∀ flag elements, (∀ e ∈ elements, P e) → P (.array flag elements))
    (dictionary : ∀ flag entries, (∀ e ∈ entries, P e.2) → P (.dictionary flag entries))
    (t : JsonTree F K S) : P t :=
  @JsonTree.rec F K S P (fun elements => ∀ e ∈ elements, P e)
    (fun entries => ∀ e ∈ entries, P e.2) (fun entry => P entry.2)
    null scalar (fun flag elements ih => array flag elements ih)
    (fun flag entries ih => dictionary flag entries ih)
    (fun _ h => absurd h List.not_mem_nil)
    (fun _ _ he hes => List.forall_mem_cons.mpr ⟨he, hes⟩)
    (fun _ h => absurd h List.not_mem_nil)
    (fun _ _ he hes => List.forall_mem_cons.mpr ⟨he, hes⟩)
    (fun _ _ h => h) t

def isNull : JsonTree F K S → Bool
  | null => true
  | scalar _ | array _ _ | dictionary _ _ => false

/-! ## Rebuilding -/

/-- What a copy keeps. -/
def kept (drop : Bool) (t : JsonTree F K S) : Bool := !(drop && t.isNull)

mutual

/-- A copy with the flags changed by `flag`, and without nulls if `drop`. -/
def rebuild (drop : Bool) (flag : F → F') : JsonTree F K S → JsonTree F' K S
  | null => null
  | scalar s => scalar s
  | array f elements => array (flag f) (rebuildElements drop flag elements)
  | dictionary f entries => dictionary (flag f) (rebuildEntries drop flag entries)
termination_by structural t => t

def rebuildElements (drop : Bool) (flag : F → F') :
    List (JsonTree F K S) → List (JsonTree F' K S)
  | [] => []
  | e :: es =>
      if kept drop e then rebuild drop flag e :: rebuildElements drop flag es
      else rebuildElements drop flag es
termination_by structural es => es

def rebuildEntries (drop : Bool) (flag : F → F') :
    List (K × JsonTree F K S) → List (K × JsonTree F' K S)
  | [] => []
  | e :: es =>
      if kept drop e.2 then rebuildEntry drop flag e :: rebuildEntries drop flag es
      else rebuildEntries drop flag es
termination_by structural es => es

def rebuildEntry (drop : Bool) (flag : F → F') : K × JsonTree F K S → K × JsonTree F' K S
  | (k, t) => (k, rebuild drop flag t)
termination_by structural e => e

end

@[simp] theorem rebuild_null (drop : Bool) (flag : F → F') :
    rebuild drop flag (null : JsonTree F K S) = null := rfl

@[simp] theorem rebuild_scalar (drop : Bool) (flag : F → F') (s : S) :
    rebuild drop flag (scalar s : JsonTree F K S) = scalar s := rfl

theorem rebuildElements_eq (drop : Bool) (flag : F → F') (es : List (JsonTree F K S)) :
    rebuildElements drop flag es = (es.filter (kept drop)).map (rebuild drop flag) := by
  induction es with
  | nil => rfl
  | cons e es ih =>
      simp only [rebuildElements, List.filter_cons, ih]
      split
      next => rfl
      next => rfl

theorem rebuildEntries_eq (drop : Bool) (flag : F → F') (es : List (K × JsonTree F K S)) :
    rebuildEntries drop flag es =
      (es.filter fun e => kept drop e.2).map (Prod.map id (rebuild drop flag)) := by
  induction es with
  | nil => rfl
  | cons e es ih =>
      obtain ⟨k, t⟩ := e
      simp only [rebuildEntries, List.filter_cons, ih]
      split
      next => rfl
      next => rfl

@[simp] theorem rebuild_array (drop : Bool) (flag : F → F') (f : F)
    (es : List (JsonTree F K S)) :
    rebuild drop flag (array f es) =
      array (flag f) ((es.filter (kept drop)).map (rebuild drop flag)) := by
  rw [rebuild, rebuildElements_eq]

@[simp] theorem rebuild_dictionary (drop : Bool) (flag : F → F') (f : F)
    (es : List (K × JsonTree F K S)) :
    rebuild drop flag (dictionary f es) = dictionary (flag f)
      ((es.filter fun e => kept drop e.2).map (Prod.map id (rebuild drop flag))) := by
  rw [rebuild, rebuildEntries_eq]

@[simp] theorem isNull_rebuild (drop : Bool) (flag : F → F') (t : JsonTree F K S) :
    (rebuild drop flag t).isNull = t.isNull := by
  cases t with
  | null => rfl
  | scalar s => rfl
  | array f es => rfl
  | dictionary f es => rfl

theorem kept_or (drop drop' : Bool) (t : JsonTree F K S) :
    kept (drop || drop') t = (kept drop t && kept drop' t) := by
  simp only [kept]
  cases drop <;> cases drop' <;> cases t.isNull <;> rfl

/-- Two copies in turn are one. -/
theorem rebuild_rebuild (drop drop' : Bool) (flag : F' → F'') (flag' : F → F')
    (t : JsonTree F K S) : rebuild drop flag (rebuild drop' flag' t) =
      rebuild (drop || drop') (flag ∘ flag') t := by
  have hkept : ∀ e : JsonTree F K S, kept drop (rebuild drop' flag' e) = kept drop e := by
    intro e
    simp only [kept, isNull_rebuild]
  induction t with
  | null => rfl
  | scalar s => rfl
  | array f es ih =>
      have hfilter : (es.filter (kept drop')).filter (kept drop ∘ rebuild drop' flag') =
          es.filter (kept (drop || drop')) := by
        rw [List.filter_filter]
        refine List.filter_congr fun e _ => ?_
        rw [kept_or, Function.comp_apply, hkept]
      simp only [rebuild_array, List.filter_map, List.map_map, hfilter, Function.comp_apply]
      refine congrArg _ (List.map_congr_left fun e he => ?_)
      exact ih e (List.mem_filter.mp he).1
  | dictionary f es ih =>
      have hfilter : (es.filter fun e => kept drop' e.2).filter
          ((fun e => kept drop e.2) ∘ Prod.map id (rebuild drop' flag')) =
          es.filter fun e => kept (drop || drop') e.2 := by
        rw [List.filter_filter]
        refine List.filter_congr fun e _ => ?_
        rw [kept_or, Function.comp_apply, Prod.map_snd, hkept]
      simp only [rebuild_dictionary, List.filter_map, List.map_map, hfilter, Function.comp_apply]
      refine congrArg _ (List.map_congr_left fun e he => ?_)
      rw [Function.comp_apply, Prod.map_map, Function.id_comp]
      exact Prod.ext rfl (ih e (List.mem_filter.mp he).1)

/-! ## No nulls -/

/-- No null at any depth. -/
inductive NoNull : JsonTree F K S → Prop
  | scalar (s : S) : NoNull (scalar s)
  | array {f : F} {es : List (JsonTree F K S)} : (∀ e ∈ es, NoNull e) → NoNull (array f es)
  | dictionary {f : F} {es : List (K × JsonTree F K S)} :
      (∀ e ∈ es, NoNull e.2) → NoNull (dictionary f es)

theorem noNull_rebuild (flag : F → F') (t : JsonTree F K S) :
    t.isNull = false → (rebuild true flag t).NoNull := by
  have hkept : ∀ e : JsonTree F K S, kept true e = true → e.isNull = false := by
    intro e he
    simpa [kept] using he
  induction t with
  | null => nofun
  | scalar s => exact fun _ => .scalar s
  | array f es ih =>
      intro _
      rw [rebuild_array]
      refine .array ?_
      intro e' he'
      obtain ⟨e, he, rfl⟩ := List.mem_map.mp he'
      obtain ⟨hmem, hnull⟩ := List.mem_filter.mp he
      exact ih e hmem (hkept e hnull)
  | dictionary f es ih =>
      intro _
      rw [rebuild_dictionary]
      refine .dictionary ?_
      intro e' he'
      obtain ⟨e, he, rfl⟩ := List.mem_map.mp he'
      obtain ⟨hmem, hnull⟩ := List.mem_filter.mp he
      exact ih e hmem (hkept e.2 hnull)

/-! ## Keys -/

/-- The keys of every dictionary are distinct, and as `isKey` has them. -/
inductive WellFormed (isKey : K → Prop) : JsonTree F K S → Prop
  | null : WellFormed isKey null
  | scalar (s : S) : WellFormed isKey (scalar s)
  | array {f : F} {es : List (JsonTree F K S)} :
      (∀ e ∈ es, WellFormed isKey e) → WellFormed isKey (array f es)
  | dictionary {f : F} {es : List (K × JsonTree F K S)} : (es.map Prod.fst).Nodup →
      (∀ e ∈ es, isKey e.1) → (∀ e ∈ es, WellFormed isKey e.2) → WellFormed isKey (dictionary f es)

theorem WellFormed.rebuild {isKey : K → Prop} (drop : Bool) (flag : F → F')
    {t : JsonTree F K S} (h : t.WellFormed isKey) :
    (JsonTree.rebuild drop flag t).WellFormed isKey := by
  induction h with
  | null => exact .null
  | scalar s => exact .scalar s
  | array _ ih =>
      rw [rebuild_array]
      refine .array ?_
      intro e' he'
      obtain ⟨e, he, rfl⟩ := List.mem_map.mp he'
      exact ih e (List.mem_filter.mp he).1
  | dictionary hkeys hall _ ih =>
      rw [rebuild_dictionary]
      refine .dictionary ?_ ?_ ?_
      · rw [List.map_map]
        exact hkeys.sublist (List.filter_sublist.map _)
      · intro e' he'
        obtain ⟨e, he, rfl⟩ := List.mem_map.mp he'
        exact hall e (List.mem_filter.mp he).1
      · intro e' he'
        obtain ⟨e, he, rfl⟩ := List.mem_map.mp he'
        exact ih e (List.mem_filter.mp he).1

end JsonTree
