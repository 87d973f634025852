/-
# `RxFoundation.DataBounds` — lengths, capacities and the bytes behind them

`Bounded` says of every live `Data` that it is sound.  Not every call keeps it.
`setLength` looks at no capacity; two constructors do not look at what the
allocator gave them; the copy constructor appends to members nobody initialised;
a move leaves two objects with one buffer, so that growing or destroying either
takes the bytes of the other away; and growing trusts a rounding that Android's
`flsl` gets wrong.  `StepOk` says when a call keeps clear of these, and
`bounds_hold` that in every run of such calls every live `Data` is sound, can be
read through, and that no further such call faults but by halting.
-/
import CrashRealm.RxFoundation.DataEffect

namespace Rx

open Heap

/-! ## Reading within the bounds -/

section Reading
variable {h : Memory} {d : Data}

theorem byteAt_spec {p : Option Ptr} {n i : Int} (hn : n ≤ available h p) (hi : 0 ≤ i)
    (hlt : i < n) : ∃ b, byteAt h p i = .ok b := by
  cases p with
  | none =>
      have hz : (available h none : Int) = 0 := rfl
      omega
  | some p =>
      have hn : n ≤ h.room p := hn
      have hroom : 1 ≤ h.room ⟨p.block, p.offset + i.toNat⟩ := by
        rw [room_advance]
        show 1 ≤ h.room p - i.toNat
        omega
      obtain ⟨cells, hread, hlen⟩ := read_spec hroom
      obtain ⟨b, rfl⟩ := List.length_eq_one_iff.mp hlen
      exact ⟨b, by simp only [byteAt, if_neg (Int.not_lt.mpr hi), hread]⟩

theorem load_spec {p : Option Ptr} {n : Nat} (hn : n ≤ available h p) :
    ∃ cells, load h p n = .ok cells := by
  unfold load
  by_cases hz : n = 0
  · exact ⟨[], if_pos hz⟩
  · cases p with
    | none => exact absurd (Nat.le_zero.mp hn) hz
    | some p =>
        obtain ⟨cells, hread, -⟩ := read_spec hn
        exact ⟨cells, by simp only [if_neg hz, hread]⟩

theorem Data.Sound.length_le (hd : d.Sound h) : d.length ≤ available h d.bytes :=
  Int.le_trans hd.le hd.room

theorem Data.Sound.equals (hd : d.Sound h) {rhs : Data} (hr : rhs.Sound h) :
    ∃ b, d.equals h rhs = .ok b := by
  rw [Data.equals]
  split
  next => exact ⟨false, rfl⟩
  next hlen =>
    have hd' := hd.length_le
    have hr' := hr.length_le
    obtain ⟨ptr0, h0⟩ := load_spec (h := h) (p := d.bytes) (n := d.length.toNat) (by omega)
    obtain ⟨ptr1, h1⟩ := load_spec (h := h) (p := rhs.bytes) (n := d.length.toNat) (by omega)
    exact ⟨ptr0 == ptr1, by rw [h0, ok_bind, h1, ok_bind]⟩

theorem Data.Sound.hash (hd : d.Sound h) : ∃ n, d.hash h = .ok n := by
  have hd' := hd.length_le
  have hpos := hd.nonneg
  refine hash_returns (fun i hi hlt => byteAt_spec hd' hi ?_) ?_ ?_
  · omega
  · omega
  · omega

theorem describeBytes_spec (hd : d.Sound h) (idx stop : Int) (hidx : 0 ≤ idx)
    (hstop : stop ≤ d.length) : ∃ t, d.describeBytes h idx stop = .ok t := by
  rw [Data.describeBytes]
  split
  next hlt =>
    obtain ⟨b, hb⟩ := byteAt_spec hd.length_le hidx (by omega)
    obtain ⟨rest, hrest⟩ := describeBytes_spec hd (idx + 1) stop (by omega) hstop
    exact ⟨Data.hex2 b ++ rest, by rw [hb, ok_bind, hrest, ok_bind]⟩
  next => exact ⟨"", rfl⟩
termination_by (stop - idx).toNat

theorem describeWords_spec (hd : d.Sound h) (idx stop : Int) (hidx : 0 ≤ idx)
    (hfour : (stop - idx) % 4 = 0) (hstop : stop ≤ d.length) :
    ∃ t, d.describeWords h idx stop = .ok t := by
  rw [Data.describeWords]
  split
  next hlt =>
    obtain ⟨word, hword⟩ := describeBytes_spec hd idx (idx + 4) hidx (by omega)
    obtain ⟨rest, hrest⟩ := describeWords_spec hd (idx + 4) stop (by omega) (by omega) hstop
    exact ⟨word ++ rest, by rw [hword, ok_bind, hrest, ok_bind]⟩
  next => exact ⟨"", rfl⟩
termination_by (stop - idx).toNat

theorem Data.Sound.copyDescription (hd : d.Sound h) (P : Platform) (this : String) :
    ∃ t, d.copyDescription P h this = .ok t := by
  rw [Data.copyDescription]
  split
  next hlong =>
    obtain ⟨first, hfirst⟩ := describeWords_spec hd 0 16 (by omega) (by omega) (by omega)
    obtain ⟨last, hlast⟩ :=
      describeWords_spec hd (d.length - 8) d.length (by omega) (by omega) (by omega)
    rw [hfirst, ok_bind, hlast, ok_bind]
    exact ⟨_, rfl⟩
  next =>
    obtain ⟨all, hall⟩ := describeBytes_spec hd 0 d.length (by omega) (by omega)
    rw [hall, ok_bind]
    exact ⟨_, rfl⟩

end Reading

namespace DataSystem

/-! ## Calls that keep within the bounds -/

/-- The one fault the code raises on purpose. -/
def IsHalt (e : Fault) : Prop := e = .halt

theorem isHalt : IsHalt .halt := rfl

/-- Nobody but `i` counts on bytes in the block of `p`. -/
def Alone (s : DataSystem) (i : Nat) (p : Ptr) : Prop :=
  ∀ k e q, k ≠ i → s.objects k = some e → e.bytes = some q → q.block = p.block → e.capacity ≤ 0

variable (H : Host)

/-- An edit of `d`, the object at `i`, that keeps within the bounds: the new length
is an `Index`, and where the buffer has to grow, it can and takes nobody's bytes. -/
structure EditOk (s : DataSystem) (i : Nat) (d : Data) (range : Range) (newBytes : Option Ptr)
    (newLength : Int) : Prop where
  index : d.length - range.length + newLength ≤ H.platform.indexMax
  grows : d.capacity < d.length - range.length + newLength →
    Growable H s.heap d newBytes newLength (d.length - range.length + newLength)
  alone : d.capacity < d.length - range.length + newLength →
    d.length - range.length + newLength ≤ H.platform.dataMaxSize → ∀ p ∈ d.bytes, s.Alone i p

/-- The object the copy constructor appends to. -/
def rawObject (raw : RawData) : Data := ⟨false, raw.length, raw.capacity, raw.bytes⟩

/-- When a call keeps within the bounds. -/
def StepOk (s : DataSystem) : Action → Prop
  | .provide _ _ => True
  | .construct _ bytes length copy _ => bytes = none ∨ copy = true →
      length = 0 ∨ H.grant s.heap.next length.toNat = true
  | .constructDefault _ => H.grant s.heap.next (H.platform.roundUpCapacity 1) = true
  | .copyConstruct i raw j => ∀ value ∈ s.objects j, 0 ≤ raw.length ∧
      (raw.length + value.length ≤ raw.capacity → (rawObject raw).Sound s.heap) ∧
      EditOk H s i (rawObject raw) ⟨raw.length, 0⟩ value.bytes value.length
  | .moveConstruct _ _ => True
  | .setLength i length => ∀ d ∈ s.objects i, length ≤ d.capacity
  | .appendBytes i bytes length => ∀ d ∈ s.objects i, EditOk H s i d ⟨d.length, 0⟩ bytes length
  | .appendData i j => ∀ d ∈ s.objects i, ∀ e ∈ s.objects j,
      EditOk H s i d ⟨d.length, 0⟩ e.bytes e.length
  | .replaceBytes i range bytes newLength => ∀ d ∈ s.objects i,
      EditOk H s i d range bytes newLength
  | .deleteBytes _ _ => True
  | .destroy i => ∀ d ∈ s.objects i, d.dontDeallocate = false →
      ∀ p ∈ d.bytes, s.heap.isBase p = true ∧ s.Alone i p

/-- Every live object is sound, and its length an `Index`. -/
def Bounded (s : DataSystem) : Prop :=
  ∀ i d, s.objects i = some d → d.Sound s.heap ∧ d.length ≤ H.platform.indexMax

variable {H} {s : DataSystem} {i : Nat} {d : Data}

theorem bounded_init : Bounded H init := nofun

/-- The other objects stay sound where whoever counts on bytes keeps them. -/
theorem Bounded.others (hb : Bounded H s) {h' : Memory} (hkeep : ∀ k e q, k ≠ i →
      s.objects k = some e → e.bytes = some q → 0 < e.capacity → s.heap.room q ≤ h'.room q)
    {k : Nat} {e : Data} (hk : k ≠ i) (he : s.objects k = some e) :
    e.Sound h' ∧ e.length ≤ H.platform.indexMax := by
  obtain ⟨hsound, hle⟩ := hb k e he
  refine ⟨?_, hle⟩
  by_cases hcap : 0 < e.capacity
  · refine hsound.mono ?_
    cases hbytes : e.bytes with
    | none => exact Nat.le_refl _
    | some q => exact hkeep k e q hk he hbytes hcap
  · exact ⟨hsound.nonneg, hsound.le, Int.le_trans (Int.not_lt.mp hcap) (Int.natCast_nonneg _)⟩

theorem Bounded.put (hb : Bounded H s) {h' : Memory} {d' : Data} (hd : d'.Sound h')
    (hlen : d'.length ≤ H.platform.indexMax)
    (hkeep : ∀ k e q, k ≠ i → s.objects k = some e → e.bytes = some q → 0 < e.capacity →
      s.heap.room q ≤ h'.room q) : Bounded H (s.put i (h', d')) := by
  intro k e he
  by_cases hk : k = i
  · rw [hk, objects_put_self] at he
    cases he
    exact ⟨hd, hlen⟩
  · rw [objects_put_of_ne s hk] at he
    exact hb.others hkeep hk he

/-- An edit within the bounds. -/
theorem Bounded.edit (hb : Bounded H s) {range : Range} {newBytes : Option Ptr} {newLength : Int}
    (hwithin : Within H s.heap d range newBytes newLength)
    (halone : d.capacity < d.length - range.length + newLength →
      d.length - range.length + newLength ≤ H.platform.dataMaxSize →
      ∀ p ∈ d.bytes, s.Alone i p) :
    Ends IsHalt (do
      let result ← d.replaceBytes H s.heap range newBytes newLength
      .ok (s.put i result)) (Bounded H) := by
  have hpos : 0 ≤ d.length - range.length + newLength := by
    have hnew := hwithin.nonneg
    obtain ⟨hloc, -, hend⟩ := hwithin.valid
    omega
  refine (replaceBytes_ends isHalt (fun hlt => (hwithin.grows hlt).base) (Or.inr hwithin)).bind ?_
  rintro ⟨h', d'⟩ hedited
  refine hb.put (hedited.sound hpos hwithin.inPlace fun hlt => (hwithin.grows hlt).fits) ?_ ?_
  · rw [hedited.length]
    exact hwithin.index
  · intro k e q hk he hq hcap
    refine hedited.room fun hlt hmax p hp hblock => ?_
    exact absurd (halone hlt hmax p hp k e q hk he hq hblock) (Int.not_le.mpr hcap)

/-- An edit of a live object. -/
theorem Bounded.edit_live (hb : Bounded H s) {range : Range} {newBytes : Option Ptr}
    {newLength : Int} (hi : s.objects i = some d) (hvalid : d.ValidRange range)
    (hnonneg : 0 ≤ newLength) (hread : Readable s.heap newBytes newLength)
    (hok : EditOk H s i d range newBytes newLength) :
    Ends IsHalt (do
      let result ← d.replaceBytes H s.heap range newBytes newLength
      .ok (s.put i result)) (Bounded H) := by
  have hsound := (hb i d hi).1
  refine hb.edit ⟨hvalid, hnonneg, hok.index, hread, fun _ => hsound, ?_, hok.grows⟩ hok.alone
  intro hlt
  have hle := hsound.le
  omega

/-- The bytes of a live object can be read. -/
theorem Bounded.readable (hb : Bounded H s) {j : Nat} {e : Data} (hj : s.objects j = some e) :
    Readable s.heap e.bytes e.length := by
  intro q hq
  have hle := (hb j e hj).1.length_le
  rw [Option.mem_def.mp hq] at hle
  exact Int.toNat_le.mpr hle

theorem validRange_end (hpos : 0 ≤ d.length) : d.ValidRange ⟨d.length, 0⟩ :=
  ⟨hpos, Int.le_refl _, Int.le_of_eq (Int.add_zero _)⟩

/-! ## The constructors -/

/-- A new block for a new object changes nobody's bytes. -/
theorem Bounded.put_new (hb : Bounded H s) {h' : Memory} {d' : Data} (hd : d'.Sound h')
    (hlen : d'.length ≤ H.platform.indexMax) (hkeep : ∀ q, s.heap.room q ≤ h'.room q) :
    Bounded H (s.put i (h', d')) :=
  hb.put hd hlen fun _ _ q _ _ _ _ => hkeep q

theorem dataAllocate_spec {h : Memory} {size : Nat} {clear : Bool}
    (hok : size = 0 ∨ H.grant h.next size = true) :
    size ≤ available (H.dataAllocate h size clear).1 (H.dataAllocate h size clear).2 ∧
      ∀ q, h.room q ≤ (H.dataAllocate h size clear).1.room q := by
  rw [Host.dataAllocate]
  by_cases hgrant : H.grant h.next size = true
  · rw [if_pos hgrant]
    exact ⟨Nat.le_of_eq ((room_add_new true 0).trans (List.length_replicate ..)).symm,
      room_add true⟩
  · rw [if_neg hgrant, hok.resolve_right hgrant]
    exact ⟨Nat.zero_le _, fun _ => Nat.le_refl _⟩

/-- `Data(bytes, length, copy, freeWhenDone)`, where memory it needs is granted. -/
theorem construct_ends {h : Memory} {bytes : Option Ptr} {length : Int} {copy freeWhenDone : Bool}
    (hlength : 0 ≤ length) (hread : Readable h bytes length)
    (hok : bytes = none ∨ copy = true → length = 0 ∨ H.grant h.next length.toNat = true) :
    Ends IsHalt (Data.construct H h bytes length copy freeWhenDone) fun r =>
      r.2.Sound r.1 ∧ (r.2.length = 0 ∨ r.2.length = length) ∧ ∀ q, h.room q ≤ r.1.room q := by
  have hsize (hnew : bytes = none ∨ copy = true) :
      length.toNat = 0 ∨ H.grant h.next length.toNat = true :=
    (hok hnew).imp_left fun hz => congrArg Int.toNat hz
  cases bytes with
  | none =>
      obtain ⟨hroom, hkeep⟩ := dataAllocate_spec (hsize (Or.inl rfl))
      exact ⟨⟨Int.le_refl _, hlength, Int.toNat_le.mp hroom⟩, Or.inl rfl, hkeep⟩
  | some p =>
      cases copy with
      | false =>
          exact ⟨⟨hlength, Int.le_refl _, Int.toNat_le.mp (hread p rfl)⟩, Or.inr rfl,
            fun _ => Nat.le_refl _⟩
      | true =>
          obtain ⟨hroom, hkeep⟩ := dataAllocate_spec (hsize (Or.inr rfl))
          have hsrc : length.toNat ≤ available _ (some p) := Nat.le_trans (hread p rfl) (hkeep p)
          refine (memmove_ends (Or.inr ⟨hroom, hsrc⟩)).bind fun h' hs => ?_
          refine ⟨⟨hlength, Int.le_refl _, ?_⟩, Or.inr rfl, fun q => ?_⟩
          · rw [available_congr hs]
            exact Int.toNat_le.mp hroom
          · rw [hs.room]
            exact hkeep q

theorem Bounded.construct (hb : Bounded H s) {bytes : Option Ptr} {length : Int}
    {copy freeWhenDone : Bool} (hlength : IsLength H length) (hread : Readable s.heap bytes length)
    (hok : bytes = none ∨ copy = true → length = 0 ∨ H.grant s.heap.next length.toNat = true) :
    Ends IsHalt (step H s (.construct i bytes length copy freeWhenDone)) (Bounded H) := by
  refine (construct_ends hlength.1 hread hok).bind ?_
  rintro ⟨h', d'⟩ ⟨hsound, hlen, hkeep⟩
  have hb' : Bounded H (s.handIn bytes copy freeWhenDone) := by
    intro k e he
    rw [objects_handIn] at he
    rw [heap_handIn]
    exact hb k e he
  refine hb'.put_new hsound ?_ ?_
  · have hlen : d'.length = 0 ∨ d'.length = length := hlen
    have hindex := hlength.2
    omega
  · rw [heap_handIn]
    exact hkeep

theorem Bounded.constructDefault (hb : Bounded H s)
    (hok : H.grant s.heap.next (H.platform.roundUpCapacity 1) = true) :
    Ends IsHalt (step H s (.constructDefault i)) (Bounded H) := by
  obtain ⟨hroom, hkeep⟩ := dataAllocate_spec (Or.inr hok)
  exact hb.put_new ⟨Int.le_refl _, Int.natCast_nonneg _, Int.ofNat_le.mpr hroom⟩
    (Int.natCast_nonneg _) hkeep

theorem Bounded.copyConstruct (hb : Bounded H s) {raw : RawData} {j : Nat} {value : Data}
    (hj : s.objects j = some value) (hpos : 0 ≤ raw.length)
    (hraw : raw.length + value.length ≤ raw.capacity → (rawObject raw).Sound s.heap)
    (hok : EditOk H s i (rawObject raw) ⟨raw.length, 0⟩ value.bytes value.length) :
    Ends IsHalt (step H s (.copyConstruct i raw j)) (Bounded H) := by
  have hvalue := (hb j value hj).1
  have hadd : raw.length - 0 + value.length = raw.length + value.length := by omega
  have hwithin : Within H s.heap (rawObject raw) ⟨raw.length, 0⟩ value.bytes value.length :=
    ⟨validRange_end (d := rawObject raw) hpos, hvalue.nonneg, hok.index, hb.readable hj,
      fun hle => hraw (hadd ▸ hle), fun _ => hvalue.nonneg, hok.grows⟩
  rw [step, objectAt, hj]
  exact hb.edit hwithin hok.alone

/-! ## Steps and runs -/

theorem destroy_ends (hok : d.dontDeallocate = false →
      ∀ p ∈ d.bytes, s.heap.isBase p = true ∧ s.Alone i p) :
    Ends IsHalt (d.destroy s.heap) fun h' => ∀ k e q, k ≠ i → s.objects k = some e →
      e.bytes = some q → 0 < e.capacity → s.heap.room q ≤ h'.room q := by
  rw [Data.destroy]
  cases hflag : d.dontDeallocate with
  | true => exact fun _ _ _ _ _ _ _ => Nat.le_refl _
  | false =>
      cases hbytes : d.bytes with
      | none => exact fun _ _ _ _ _ _ _ => Nat.le_refl _
      | some p =>
          obtain ⟨hbase, halone⟩ := hok hflag p hbytes
          obtain ⟨h', hfree, hfreed⟩ := free_spec hbase
          simp only [Rx.free, hfree]
          intro k e q hk he hq hcap
          refine Nat.le_of_eq (hfreed.room q fun hblock => ?_).symm
          exact Int.not_le.mpr hcap (halone k e q hk he hq hblock)

theorem step_ends (hb : Bounded H s) {a : Action} (hen : enabled H s a) (hok : StepOk H s a) :
    Ends IsHalt (step H s a) (Bounded H) := by
  cases a with
  | provide cells malloced =>
      intro k e he
      obtain ⟨hsound, hle⟩ := hb k e he
      refine ⟨hsound.mono ?_, hle⟩
      cases e.bytes with
      | none => exact Nat.le_refl _
      | some q => exact room_add malloced q
  | construct i bytes length copy freeWhenDone => exact hb.construct hen.2.1 hen.2.2.1 hok
  | constructDefault i => exact hb.constructDefault hok
  | copyConstruct i raw j =>
      obtain ⟨value, hj⟩ := Option.isSome_iff_exists.mp hen.2
      obtain ⟨hpos, hraw, hedit⟩ := hok value hj
      exact hb.copyConstruct hj hpos hraw hedit
  | moveConstruct i j =>
      obtain ⟨value, hj⟩ := Option.isSome_iff_exists.mp hen.2
      obtain ⟨hsound, hle⟩ := hb j value hj
      rw [step, objectAt, hj]
      exact hb.put_new ⟨hsound.nonneg, hsound.le, hsound.room⟩ hle fun _ => Nat.le_refl _
  | setLength i length =>
      obtain ⟨d, hi⟩ := Option.isSome_iff_exists.mp hen.1
      rw [step, edit_eq hi, ok_bind]
      exact hb.put_new ⟨hen.2.1, hok d hi, (hb i d hi).1.room⟩ hen.2.2 fun _ => Nat.le_refl _
  | appendBytes i bytes length =>
      obtain ⟨d, hi⟩ := Option.isSome_iff_exists.mp hen.1
      have hvalid := validRange_end (hb i d hi).1.nonneg
      rw [step, edit_eq hi]
      exact hb.edit_live hi hvalid hen.2.1.1 hen.2.2 (hok d hi)
  | appendData i j =>
      obtain ⟨d, hi⟩ := Option.isSome_iff_exists.mp hen.1
      obtain ⟨e, hj⟩ := Option.isSome_iff_exists.mp hen.2
      have hvalid := validRange_end (hb i d hi).1.nonneg
      rw [step, objectAt, hj, ok_bind, edit_eq hi]
      exact hb.edit_live hi hvalid (hb j e hj).1.nonneg (hb.readable hj) (hok d hi e hj)
  | replaceBytes i range bytes newLength =>
      obtain ⟨⟨d, hi, hvalid⟩, hlength, hread⟩ := hen
      rw [step, edit_eq hi]
      exact hb.edit_live hi hvalid hlength.1 hread (hok d hi)
  | deleteBytes i range =>
      obtain ⟨d, hi, hvalid⟩ := hen
      obtain ⟨hsound, hle⟩ := hb i d hi
      have hshort : d.length - range.length + 0 ≤ d.length := by
        have hpos := hvalid.2.1
        omega
      have hfits : ¬ d.capacity < d.length - range.length + 0 :=
        Int.not_lt.mpr (Int.le_trans hshort hsound.le)
      rw [step, edit_eq hi]
      refine hb.edit_live hi hvalid (Int.le_refl _) (fun q hq => absurd hq (Option.not_mem_none q))
        ⟨Int.le_trans hshort hle, fun hlt => absurd hlt hfits, fun hlt => absurd hlt hfits⟩
  | destroy i =>
      obtain ⟨d, hi⟩ := Option.isSome_iff_exists.mp hen
      rw [step, objectAt, hi]
      refine (destroy_ends (hok d hi)).bind fun h' hkeep k e he => ?_
      by_cases hk : k = i
      · rw [hk, objects_remove_self] at he
        cases he
      · rw [objects_remove_of_ne s hk] at he
        exact hb.others hkeep hk he

theorem bounded_of_run {as : List Action} (hrun : (machine H).Run (StepOk H) as s) :
    Bounded H s :=
  hrun.invariant bounded_init fun _ _ _ hb hen hok hstep => (step_ends hb hen hok).of_ok hstep

/-- In every run of calls that keep within the bounds, every live `Data` has
`0 <= length <= capacity` and its capacity at its byte pointer; `operator==`, `hash`
and `copyDescription` read nothing else; and no further such call faults but by
halting. -/
theorem bounds_hold {as : List Action} (hrun : (machine H).Run (StepOk H) as s) :
    (∀ i d, s.objects i = some d →
      (0 ≤ d.length ∧ d.length ≤ d.capacity ∧ d.capacity ≤ available s.heap d.bytes) ∧
      (∃ n, d.hash s.heap = .ok n) ∧
      (∀ this, ∃ t, d.copyDescription H.platform s.heap this = .ok t) ∧
      ∀ j rhs, s.objects j = some rhs → ∃ b, d.equals s.heap rhs = .ok b) ∧
    ∀ a e, enabled H s a → StepOk H s a → step H s a = .error e → e = .halt := by
  have hb := bounded_of_run hrun
  refine ⟨fun i d hi => ?_, fun a e hen hok hstep => ?_⟩
  · have hd := (hb i d hi).1
    exact ⟨⟨hd.nonneg, hd.le, hd.room⟩, hd.hash, hd.copyDescription H.platform,
      fun j rhs hj => hd.equals (hb j rhs hj).1⟩
  · have hends := step_ends hb hen hok
    rw [hstep] at hends
    exact hends

/-- Three bytes are copied and appended to themselves, so that the buffer grows
around a copy of its source. -/
def doubling : List Action :=
  [.provide [7, 8, 9] false, .construct 0 (some ⟨0, 0⟩) 3 true true, .appendData 0 0]

theorem doubling_run : ∃ s, (machine generous).Run (StepOk generous) doubling s ∧
    s.objects 0 = some ⟨false, 6, 16, some ⟨3, 0⟩⟩ := by
  have hgrow : ∀ (s : DataSystem) (d : Data), d = ⟨false, 3, 3, some ⟨1, 0⟩⟩ →
      s.heap.isBase ⟨1, 0⟩ = true → (∀ k, k ≠ 0 → s.objects k = none) →
      EditOk generous s 0 d ⟨d.length, 0⟩ d.bytes d.length := by
    rintro s d rfl hbase halone
    refine ⟨by decide, fun _ => ⟨fun _ => Or.inr rfl, fun _ => by decide, fun _ p hp => ?_,
      fun _ p hp q hq _ => Or.inr rfl⟩, fun _ _ p hp k e q hk he => ?_⟩
    · cases hp
      exact hbase
    · rw [halone k hk] at he
      cases he
  refine ⟨_, .step (.step (.step .start trivial trivial rfl) (by decide) (fun _ => Or.inr rfl) rfl)
    (by decide) ?_ rfl, rfl⟩
  rintro d hd e he
  cases hd
  cases he
  exact hgrow _ _ rfl rfl fun k hk => Function.update_of_ne hk ..

theorem bounds_hold_doubling : ∃ (s : DataSystem) (d : Data), s.objects 0 = some d ∧
    d.length = 6 ∧ d.capacity = 16 ∧ d.capacity ≤ available s.heap d.bytes := by
  obtain ⟨s, hrun, hobj⟩ := doubling_run
  exact ⟨s, _, hobj, rfl, rfl, ((bounds_hold hrun).1 0 _ hobj).1.2.2⟩

/-! ## Runs that break the bounds -/

/-- A new length beyond the capacity; a move, after which the destructor of one
object takes the buffer of the other; and a copy of nothing into memory that is
not zero. -/
theorem bounds_broken :
    (∃ s d, (machine generous).Run Machine.anyAction [.constructDefault 0, .setLength 0 17] s ∧
      s.objects 0 = some d ∧ ¬ d.length ≤ d.capacity) ∧
    (∃ s d, (machine generous).Run Machine.anyAction
        [.constructDefault 0, .moveConstruct 1 0, .destroy 1] s ∧
      s.objects 0 = some d ∧ ¬ d.capacity ≤ available s.heap d.bytes) ∧
    ∃ s d, (machine generous).Run Machine.anyAction
        [.constructDefault 0, .copyConstruct 1 ⟨0, 100, none⟩ 0] s ∧
      s.objects 1 = some d ∧ ¬ d.capacity ≤ available s.heap d.bytes := by
  refine ⟨⟨_, _, Machine.run_of_exec rfl, rfl, ?_⟩, ⟨_, _, Machine.run_of_exec rfl, rfl, ?_⟩,
    ⟨_, _, Machine.run_of_exec rfl, rfl, ?_⟩⟩
  · decide
  · decide
  · decide

end DataSystem

end Rx
