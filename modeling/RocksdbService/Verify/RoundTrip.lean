import RocksdbService.Verify.Spelling

/-! # Writing and reading again

What `FastWriter` prints of a value is read as `Value.reread` of it (`parseFromStream_write`). That is a
canonical value, and the canonical values are those that come back as they are
(`Value.Writable.reread_eq_iff`), so the second trip changes nothing. -/

namespace RocksdbService.Json

open OurReader

/-! ## `FastWriter` -/

namespace FastWriter

theorem writeElements_cons_cons (x y : Value) (ys : List Value) : writeElements true (x :: y :: ys) =
    writeValue x ++ 0x2c :: writeElements true (y :: ys) := by
  rw [writeElements, writeElements, writeElements]
  rfl

theorem writeElements_spells {xs : List Value} (hne : xs ≠ [])
    (h : ∀ x ∈ xs, Spells (writeValue x) x) : SpellsElements (writeElements true xs) xs := by
  induction xs with
  | nil => exact absurd rfl hne
  | cons x xs ih =>
    obtain ⟨hx, hxs⟩ := List.forall_mem_cons.mp h
    cases xs with
    | nil => exact SpellsElements.last {} {} hx
    | cons y ys =>
      rw [writeElements_cons_cons]
      have hcons := SpellsElements.cons {} {} hx (ih (List.cons_ne_nil _ _) hxs)
      rwa [List.nil_append, List.append_nil] at hcons

theorem writeMembers_cons_cons (name : Bytes) (x : Value) (m : Bytes × Value) (ms : Members) :
    writeMembers true ((name, x) :: m :: ms) =
      valueToQuotedStringN name ++ [0x3a] ++ writeValue x ++ 0x2c :: writeMembers true (m :: ms) := by
  rw [writeMembers, writeMembers, writeMembers]
  simp

theorem writeMembers_spells {ms : Members} (hne : ms ≠ [])
    (hnames : ∀ p ∈ ms, (recoded p.1).length ≤ maxNameLength)
    (h : ∀ p ∈ ms, Spells (writeValue p.2) p.2) : SpellsMembers (writeMembers true ms) ms := by
  induction ms with
  | nil => exact absurd rfl hne
  | cons m ms ih =>
    obtain ⟨name, x⟩ := m
    obtain ⟨hx, hxs⟩ := List.forall_mem_cons.mp h
    obtain ⟨hname, hnames⟩ := List.forall_mem_cons.mp hnames
    cases ms with
    | nil =>
      have hlast := SpellsMembers.last hname {} {} {} {} hx
      rw [writeMembers, writeMembers]
      simpa using hlast
    | cons m ms =>
      have hcons := SpellsMembers.cons hname {} {} {} {} hx (ih (List.cons_ne_nil _ _) hnames hxs)
      rw [writeMembers_cons_cons]
      simpa using hcons

theorem writeValue_spells {v : Value} (h : v.Writable) : Spells (writeValue v) v := by
  induction h with
  | null => exact spells_null
  | int h => exact spells_int h
  | uint h => exact spells_uint h
  | real h => exact spells_real h
  | string h => exact spells_string h
  | bool b => exact spells_bool b
  | @array xs _ ih =>
    rw [writeValue]
    cases xs with
    | nil => exact spells_emptyArray {}
    | cons x xs => exact (writeElements_spells (List.cons_ne_nil _ _) ih).array
  | @object ms hnames _ ih =>
    rw [writeValue]
    cases ms with
    | nil => exact spells_emptyObject {}
    | cons m ms => exact (writeMembers_spells (List.cons_ne_nil _ _) hnames ih).object

theorem write_spells {v : Value} (h : v.Writable) : ∃ (text : Bytes) (after : Blank),
    write v = text ++ after.bytes ∧ Spells text v :=
  ⟨_, { bytes := [0x0a], blank := List.forall_mem_singleton.mpr rfl }, rfl, writeValue_spells h⟩

end FastWriter

theorem Value.Writable.read_write {v : Value} (h : v.Writable) (hd : v.depth ≤ stackLimit) :
    parseFromStream (FastWriter.write v) = .ok (.ok v.reread) := by
  obtain ⟨text, after, hwrite, hspell⟩ := FastWriter.write_spells h
  rw [hwrite]
  exact (hspell.parseFromStream {} after).trans (if_pos hd)

/-- A double, a small `uint` and bytes that are not UTF-8, in an array. -/
def mixed : Value :=
  .array [.real (.finite true (2 ^ 52 + 1) (-52)), .uint 5, .string ⟨[0x61, 0xff], by decide⟩]

theorem mixed_writable : mixed.Writable := by
  have hreal : (Double.finite true (2 ^ 52 + 1) (-52)).Representable :=
    .inr ⟨⟨by decide, by decide, .inl (by decide)⟩, by decide⟩
  have hstring : (recoded [0x61, 0xff]).length ≤ maxStringLength := (recoded_length _).trans (by decide)
  refine .array ?_
  simp only [List.forall_mem_cons]
  exact ⟨.real hreal, .uint (by decide), .string hstring, List.forall_mem_nil _⟩

namespace Value

theorem rereadElements_eq (xs : List Value) : rereadElements xs = xs.map reread := by
  induction xs with
  | nil => rfl
  | cons x xs ih => rw [rereadElements, ih, List.map_cons]

theorem rereadMembers_eq (ms : Members) :
    rereadMembers ms = ms.map (Prod.map recoded reread) := by
  induction ms with
  | nil => rfl
  | cons m ms ih =>
    obtain ⟨name, x⟩ := m
    rw [rereadMembers, ih, List.map_cons, Prod.map_apply]

theorem elementsDepth_le {xs : List Value} {n : Nat} :
    elementsDepth xs ≤ n ↔ ∀ x ∈ xs, x.depth ≤ n := by
  induction xs with
  | nil => exact ⟨fun _ => List.forall_mem_nil _, fun _ => Nat.zero_le n⟩
  | cons x xs ih => rw [elementsDepth, Nat.max_le, List.forall_mem_cons, ih]

theorem membersDepth_le {ms : Members} {n : Nat} :
    membersDepth ms ≤ n ↔ ∀ p ∈ ms, p.2.depth ≤ n := by
  induction ms with
  | nil => exact ⟨fun _ => List.forall_mem_nil _, fun _ => Nat.zero_le n⟩
  | cons m ms ih =>
    obtain ⟨name, x⟩ := m
    rw [membersDepth, Nat.max_le, List.forall_mem_cons, ih]

/-- A value as a document gives it: strings and names are UTF-8, names increase, and a number has one
representation. -/
inductive Canonical : Value → Prop
  | null : Canonical null
  | int {i : Int} (h : -2 ^ 63 ≤ i ∧ i < 2 ^ 63) : Canonical (int i)
  | uint {n : Nat} (h : 2 ^ 63 ≤ n ∧ n < 2 ^ 64) : Canonical (uint n)
  | real {d : Double} (h : d.Representable) (hnan : d ≠ .nan) (hzero : d.canonical = d) :
    Canonical (real d)
  | string {s : JString} (h : IsUtf8 s.bytes) : Canonical (string s)
  | bool (b : Bool) : Canonical (bool b)
  | array {xs : List Value} (h : ∀ x ∈ xs, Canonical x) : Canonical (array xs)
  | object {ms : Members} (hs : OrdMap.Sorted ms)
      (hnames : ∀ p ∈ ms, IsUtf8 p.1 ∧ p.1.length ≤ maxNameLength)
      (h : ∀ p ∈ ms, Canonical p.2) : Canonical (object ms)

theorem Canonical.reread_eq {v : Value} (h : v.Canonical) : v.reread = v := by
  induction h with
  | null => rfl
  | int _ => rfl
  | uint h => rw [reread, if_neg (by omega)]
  | real h hnan hzero => rw [reread, if_neg hnan, hzero]
  | @string s h =>
    have hrecoded := (recoded_eq_iff s.bytes).mpr h
    have hs : s.reread = s := by
      unfold JString.reread
      split
      · congr
      · rfl
    rw [reread, hs]
  | bool b => rfl
  | array _ ih => rw [reread, rereadElements_eq, List.map_congr_left ih, List.map_id']
  | @object ms hs hnames _ ih =>
    have hms : rereadMembers ms = ms := by
      rw [rereadMembers_eq, ← List.map_id ms, List.map_map]
      refine List.map_congr_left fun p hp => ?_
      exact Prod.ext ((recoded_eq_iff p.1).mpr (hnames p hp).1) (ih p hp)
    rw [reread, hms, OrdMap.insertAll_of_sorted (m := []) hs, List.nil_append]

/-- What comes back is canonical. -/
theorem Writable.reread_canonical {v : Value} (h : v.Writable) : v.reread.Canonical := by
  induction h with
  | null => exact .null
  | int h => exact .int h
  | uint h =>
    rw [reread]
    split
    · exact .int (by omega)
    · exact .uint (by omega)
  | @real d h =>
    rw [reread]
    split
    · exact .null
    · next hnan =>
      cases d with
      | nan => exact absurd rfl hnan
      | inf neg => exact .real trivial Double.noConfusion rfl
      | finite neg mant exp =>
        cases mant with
        | zero => exact .real (.inl rfl) Double.noConfusion rfl
        | succ mant => exact .real h Double.noConfusion rfl
  | @string s h =>
    rw [reread, JString.reread, dif_pos h]
    exact .string (recoded_isUtf8 _)
  | bool b => exact .bool b
  | array _ ih =>
    rw [reread, rereadElements_eq]
    exact .array (List.forall_mem_map.mpr ih)
  | @object ms hnames _ ih =>
    rw [reread, rereadMembers_eq]
    have hmem : ∀ p ∈ OrdMap.insertAll [] (ms.map (Prod.map recoded reread)),
        ∃ q ∈ ms, (recoded q.1, q.2.reread) = p := fun p hp =>
      List.mem_map.mp ((OrdMap.mem_insertAll hp).resolve_left List.not_mem_nil)
    refine .object (OrdMap.Sorted.insertAll .nil _) (fun p hp => ?_) fun p hp => ?_
    · obtain ⟨q, hq, rfl⟩ := hmem p hp
      exact ⟨recoded_isUtf8 _, hnames q hq⟩
    · obtain ⟨q, hq, rfl⟩ := hmem p hp
      exact ih q hq

theorem Canonical.writable {v : Value} (h : v.Canonical) : v.Writable := by
  induction h with
  | null => exact .null
  | int h => exact .int h
  | uint h => exact .uint h.2
  | real h => exact .real h
  | @string s h =>
    refine .string ?_
    rw [(recoded_eq_iff s.bytes).mpr h]
    exact s.fits
  | bool b => exact .bool b
  | array _ ih => exact .array ih
  | object _ hnames _ ih =>
    refine .object (fun p hp => ?_) ih
    rw [(recoded_eq_iff p.1).mpr (hnames p hp).1]
    exact (hnames p hp).2

/-- Nothing gets deeper; members whose names come back as the same name are one. -/
theorem Writable.reread_depth_le {v : Value} (h : v.Writable) : v.reread.depth ≤ v.depth := by
  induction h with
  | null | int | bool | string => exact Nat.le_refl _
  | uint =>
    rw [reread]
    split <;> exact Nat.le_refl _
  | real =>
    rw [reread]
    split <;> exact Nat.le_refl _
  | @array xs _ ih =>
    rw [reread, rereadElements_eq, depth, depth, Nat.add_le_add_iff_right, elementsDepth_le,
      List.forall_mem_map]
    exact fun x hx => (ih x hx).trans (elementsDepth_le.mp (Nat.le_refl _) x hx)
  | @object ms _ _ ih =>
    rw [reread, rereadMembers_eq, depth, depth, Nat.add_le_add_iff_right, membersDepth_le]
    intro p hp
    obtain ⟨q, hq, rfl⟩ :=
      List.mem_map.mp ((OrdMap.mem_insertAll hp).resolve_left List.not_mem_nil)
    exact (ih q hq).trans (membersDepth_le.mp (Nat.le_refl _) q hq)

end Value

/-- Once read back, a value survives any further trip. -/
theorem parseFromStream_write_reread {v : Value} (h : v.Writable) (hd : v.depth ≤ stackLimit) :
    parseFromStream (FastWriter.write v.reread) = .ok (.ok v.reread) := by
  have hread := h.reread_canonical.writable.read_write (h.reread_depth_le.trans hd)
  rw [h.reread_canonical.reread_eq] at hread
  exact hread

end RocksdbService.Json
