import Mathlib.Logic.Relator
import Mathlib.Tactic.Common
import RocksdbService.Theory.OrdMap

/-! # Families of maps

A database holds one map from keys to values for each of its families; here is any number of
databases. `put` changes one value; puts at different keys commute (`putAll_perm`), and of several at
one key the last stays (`putAll_insertAll`). A store keyed by `δ` represents another one keyed by `ι`
(`Represents`) when the databases correspond one to one and the values do through a function; equal
writes on both sides keep that. -/

namespace RocksdbService

universe u

/-- The value, if any, of a key in a family of a database. -/
abbrev Families (δ φ κ ν : Type u) := δ → φ → κ → Option ν

namespace Families

variable {ι δ φ κ ν μ : Type u} [DecidableEq ι] [DecidableEq δ] [DecidableEq φ] [DecidableEq κ]

/-- `k` of family `f` of `d` is set to `v`. -/
def put (m : Families δ φ κ ν) (d : δ) (f : φ) (k : κ) (v : ν) : Families δ φ κ ν :=
  fun d' f' k' => if d' = d ∧ f' = f ∧ k' = k then some v else m d' f' k'

/-- The pairs are set one after another in family `f` of `d`. -/
def putAll (m : Families δ φ κ ν) (d : δ) (f : φ) (kvs : List (κ × ν)) : Families δ φ κ ν :=
  kvs.foldl (fun m kv => m.put d f kv.1 kv.2) m

@[simp] theorem put_self (m : Families δ φ κ ν) (d : δ) (f : φ) (k : κ) (v : ν) :
    m.put d f k v d f k = some v := if_pos ⟨rfl, rfl, rfl⟩

theorem put_of_ne {m : Families δ φ κ ν} {d d' : δ} {f f' : φ} {k k' : κ} {v : ν}
    (h : ¬ (d' = d ∧ f' = f ∧ k' = k)) : m.put d f k v d' f' k' = m d' f' k' := if_neg h

theorem putAll_cons (m : Families δ φ κ ν) (d : δ) (f : φ) (kv : κ × ν) (kvs : List (κ × ν)) :
    m.putAll d f (kv :: kvs) = (m.put d f kv.1 kv.2).putAll d f kvs := rfl

/-- `putAll` leaves alone what its pairs do not name. -/
theorem putAll_of_forall_ne {m : Families δ φ κ ν} {d d' : δ} {f f' : φ} {k' : κ}
    {kvs : List (κ × ν)} (h : ∀ kv ∈ kvs, ¬ (d' = d ∧ f' = f ∧ k' = kv.1)) :
    m.putAll d f kvs d' f' k' = m d' f' k' := by
  induction kvs generalizing m with
  | nil => rfl
  | cons kv kvs ih =>
    obtain ⟨hkv, hkvs⟩ := List.forall_mem_cons.mp h
    rw [putAll_cons, ih hkvs, put_of_ne hkv]

theorem putAll_append (m : Families δ φ κ ν) (d : δ) (f : φ) (kvs kvs' : List (κ × ν)) :
    m.putAll d f (kvs ++ kvs') = (m.putAll d f kvs).putAll d f kvs' := List.foldl_append

/-- What is put last under a key is there in the end. -/
theorem putAll_last (m : Families δ φ κ ν) (d : δ) (f : φ) (before : List (κ × ν)) {k : κ}
    {after : List (κ × ν)} (h : k ∉ after.map Prod.fst) (v : ν) :
    m.putAll d f (before ++ (k, v) :: after) d f k = some v := by
  have hne : ∀ kv ∈ after, ¬ (d = d ∧ f = f ∧ k = kv.1) := by
    rintro kv hkv ⟨-, -, rfl⟩
    exact h (List.mem_map_of_mem hkv)
  rw [putAll_append, putAll_cons, putAll_of_forall_ne hne, put_self]

theorem putAll_of_mem (m : Families δ φ κ ν) (d : δ) (f : φ) {kvs : List (κ × ν)}
    (h : (kvs.map Prod.fst).Nodup) {k : κ} {v : ν} (hmem : (k, v) ∈ kvs) :
    m.putAll d f kvs d f k = some v := by
  obtain ⟨before, after, rfl⟩ := List.append_of_mem hmem
  rw [List.map_append, List.map_cons] at h
  exact putAll_last m d f before (List.nodup_cons.mp (List.nodup_append.mp h).2.1).1 v

/-- The value that the last of the pairs with a key has. -/
def last (k : κ) : List (κ × ν) → Option ν
  | [] => none
  | kv :: kvs => (last k kvs).or (if k = kv.1 then some kv.2 else none)

theorem putAll_self (m : Families δ φ κ ν) (d : δ) (f : φ) (kvs : List (κ × ν)) (k : κ) :
    m.putAll d f kvs d f k = (last k kvs).or (m d f k) := by
  induction kvs generalizing m with
  | nil => rfl
  | cons kv kvs ih =>
    have hput : m.put d f kv.1 kv.2 d f k = (if k = kv.1 then some kv.2 else none).or (m d f k) := by
      simp only [put, true_and]
      split <;> rfl
    rw [putAll_cons, ih, hput, last, Option.or_assoc]

/-! ## The order of writes -/

/-- The later of two values of a key stays. -/
theorem put_put (m : Families δ φ κ ν) (d : δ) (f : φ) (k : κ) (v w : ν) :
    (m.put d f k v).put d f k w = m.put d f k w := by
  funext d' f' k'
  simp only [put]
  split <;> rfl

theorem put_comm (m : Families δ φ κ ν) (d : δ) (f : φ) {k j : κ} (h : k ≠ j) (v w : ν) :
    (m.put d f k v).put d f j w = (m.put d f j w).put d f k v := by
  funext d' f' k'
  simp only [put]
  by_cases hk : k' = k
  · subst hk
    simp [h]
  · simp [hk]

/-- A value can be put after the pairs that do not name its key. -/
theorem putAll_put_comm (m : Families δ φ κ ν) (d : δ) (f : φ) {k : κ} {kvs : List (κ × ν)}
    (h : k ∉ kvs.map Prod.fst) (v : ν) :
    (m.put d f k v).putAll d f kvs = (m.putAll d f kvs).put d f k v := by
  induction kvs generalizing m with
  | nil => rfl
  | cons kv kvs ih =>
    obtain ⟨hkv, hkvs⟩ := not_or.mp (List.mem_cons.not.mp h)
    rw [putAll_cons, put_comm m d f hkv, ih _ hkvs, putAll_cons]

/-- Pairs with different keys can be put in any order. -/
theorem putAll_perm (m : Families δ φ κ ν) (d : δ) (f : φ) {kvs kvs' : List (κ × ν)}
    (h : kvs.Perm kvs') (hnodup : (kvs.map Prod.fst).Nodup) :
    m.putAll d f kvs = m.putAll d f kvs' := by
  induction h generalizing m with
  | nil => rfl
  | cons kv _ ih => exact ih _ (List.nodup_cons.mp hnodup).2
  | swap kv kv' kvs =>
    obtain ⟨hne, -⟩ := not_or.mp (List.mem_cons.not.mp (List.nodup_cons.mp hnodup).1)
    rw [putAll_cons, putAll_cons, putAll_cons, putAll_cons, put_comm m d f hne]
  | trans h _ ih ih' =>
    exact (ih _ hnodup).trans (ih' _ ((h.map Prod.fst).nodup_iff.mp hnodup))

/-- Putting the pairs of an ordered map with one more insertion. -/
theorem putAll_insert [LinearOrder κ] (m : Families δ φ κ ν) (d : δ) (f : φ) {kvs : List (κ × ν)}
    (h : OrdMap.Sorted kvs) (k : κ) (v : ν) :
    m.putAll d f (OrdMap.insert kvs k v) = (m.putAll d f kvs).put d f k v := by
  have habove : ∀ {kvs : List (κ × ν)}, (∀ p ∈ kvs, k < p.1) → k ∉ kvs.map Prod.fst := by
    intro kvs h hk
    obtain ⟨p, hp, rfl⟩ := List.mem_map.mp hk
    exact lt_irrefl _ (h p hp)
  induction kvs generalizing m with
  | nil => rfl
  | cons kv kvs ih =>
    obtain ⟨hkv, hkvs⟩ := List.pairwise_cons.mp h
    rw [OrdMap.insert]
    split
    · next hlt =>
      refine putAll_put_comm m d f (habove (List.forall_mem_cons.mpr ⟨hlt, fun p hp => ?_⟩)) v
      exact hlt.trans (hkv p hp)
    split
    · next heq =>
      subst heq
      rw [putAll_cons, putAll_cons, ← putAll_put_comm _ d f (habove hkv), put_put]
    · rw [putAll_cons, ih _ hkvs, putAll_cons]

/-- What is collected in an ordered map first is put as if one after another. -/
theorem putAll_insertAll [LinearOrder κ] (m : Families δ φ κ ν) (d : δ) (f : φ)
    {kvs : List (κ × ν)} (h : OrdMap.Sorted kvs) (kvs' : List (κ × ν)) :
    m.putAll d f (OrdMap.insertAll kvs kvs') = (m.putAll d f kvs).putAll d f kvs' := by
  induction kvs' generalizing kvs with
  | nil => rfl
  | cons kv kvs' ih =>
    rw [OrdMap.insertAll_cons, ih (h.insert kv.1 kv.2), putAll_insert m d f h, putAll_cons]

/-! ## Representation -/

/-- Where `i` corresponds to `d`, the maps of `i` are those of `d`, the values seen through `g`. -/
def Represents (places : ι → δ → Prop) (g : ν → μ) (m : Families ι φ κ ν)
    (n : Families δ φ κ μ) : Prop :=
  ∀ i d, places i d → ∀ f k, n d f k = (m i f k).map g

section
variable {places : ι → δ → Prop} {g : ν → μ} {m : Families ι φ κ ν} {n : Families δ φ κ μ}

theorem Represents.put (h : Represents places g m n) (hp : Relator.BiUnique places) {i : ι} {d : δ}
    (hid : places i d) (f : φ) (k : κ) (v : ν) :
    Represents places g (m.put i f k v) (n.put d f k (g v)) := by
  intro i' d' hid' f' k'
  have hiff : d' = d ↔ i' = i :=
    ⟨fun e => hp.1 hid' (e ▸ hid), fun e => hp.2 hid' (e ▸ hid)⟩
  simp only [Families.put, hiff]
  split
  · rfl
  · exact h i' d' hid' f' k'

theorem Represents.putAll (h : Represents places g m n) (hp : Relator.BiUnique places) {i : ι}
    {d : δ} (hid : places i d) (f : φ) (kvs : List (κ × ν)) :
    Represents places g (m.putAll i f kvs) (n.putAll d f (kvs.map (Prod.map id g))) := by
  induction kvs generalizing m n with
  | nil => exact h
  | cons kv kvs ih => exact ih (h.put hp hid f kv.1 kv.2)

end

end Families

end RocksdbService
