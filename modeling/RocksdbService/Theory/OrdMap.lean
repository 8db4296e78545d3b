import Mathlib.Order.Basic
import Mathlib.Order.Lattice
import Mathlib.Data.List.Pairwise
import RocksdbService.Theory.Outcome

/-! # Ordered maps as association lists

An ordered map is a list of pairs whose keys strictly increase. Insertion keeps the order and
replaces the value of a key that is present, so two insertions at different keys commute on
sorted lists. Keys come from any linear order. A fold over the pairs in which a part of the state
depends on one key gets that part from the pair at the key (`foldlM_part`). -/

namespace RocksdbService.OrdMap

variable {α β : Type*} [LinearOrder α]

/-- Keys strictly increase. -/
def Sorted (m : List (α × β)) : Prop := m.Pairwise fun p q => p.1 < q.1

/-- The value at `k`. -/
def find? : List (α × β) → α → Option β
  | [], _ => none
  | (k', v) :: m, k => if k = k' then some v else find? m k

/-- Set the value at `k`, keeping the keys in order. -/
def insert : List (α × β) → α → β → List (α × β)
  | [], k, v => [(k, v)]
  | (k', v') :: m, k, v =>
    if k < k' then (k, v) :: (k', v') :: m
    else if k = k' then (k, v) :: m
    else (k', v') :: insert m k v

@[simp] theorem insert_nil (k : α) (v : β) : insert [] k v = [(k, v)] := rfl

@[simp] theorem find?_insert (m : List (α × β)) (k : α) (v : β) (k' : α) :
    find? (insert m k v) k' = if k' = k then some v else find? m k' := by
  induction m with
  | nil => rfl
  | cons p m ih =>
    obtain ⟨j, w⟩ := p
    rw [insert]
    split
    · rfl
    · next hlt =>
      split
      · next heq => subst heq; simp only [find?]; split <;> rfl
      · next hne =>
        simp only [find?, ih]
        by_cases hj : k' = j
        · subst hj; simp [Ne.symm hne]
        · simp [hj]

theorem mem_insert {m : List (α × β)} {k : α} {v : β} {p : α × β} (h : p ∈ insert m k v) :
    p = (k, v) ∨ p ∈ m := by
  induction m with
  | nil => exact .inl (List.mem_singleton.mp h)
  | cons q m ih =>
    rw [insert] at h
    split at h
    · exact List.mem_cons.mp h
    · split at h
      · rcases List.mem_cons.mp h with h | h
        · exact .inl h
        · exact .inr (List.mem_cons_of_mem _ h)
      · rcases List.mem_cons.mp h with rfl | h
        · exact .inr List.mem_cons_self
        · exact (ih h).imp_right (List.mem_cons_of_mem _)

/-- Insertion acts on the values of a map through a function as on the map. -/
theorem map_insert {γ : Type*} (g : β → γ) (m : List (α × β)) (k : α) (v : β) :
    (insert m k v).map (Prod.map id g) = insert (m.map (Prod.map id g)) k (g v) := by
  induction m with
  | nil => rfl
  | cons p m ih =>
    rw [insert, List.map_cons, insert]
    dsimp only [Prod.map, id]
    split
    · rfl
    split
    · rfl
    · rw [List.map_cons, ih]
      rfl

/-- Pairs are inserted one after another. -/
def insertAll (m kvs : List (α × β)) : List (α × β) := kvs.foldl (fun m kv => insert m kv.1 kv.2) m

@[simp] theorem insertAll_cons (m : List (α × β)) (kv : α × β) (kvs : List (α × β)) :
    insertAll m (kv :: kvs) = insertAll (insert m kv.1 kv.2) kvs := rfl

theorem map_insertAll {γ : Type*} (g : β → γ) (m kvs : List (α × β)) :
    (insertAll m kvs).map (Prod.map id g) =
      insertAll (m.map (Prod.map id g)) (kvs.map (Prod.map id g)) := by
  induction kvs generalizing m with
  | nil => rfl
  | cons kv kvs ih => rw [insertAll_cons, ih, map_insert]; rfl

theorem find?_insertAll_of_not_mem (m : List (α × β)) {kvs : List (α × β)} {k : α}
    (h : k ∉ kvs.map Prod.fst) : find? (insertAll m kvs) k = find? m k := by
  induction kvs generalizing m with
  | nil => rfl
  | cons kv kvs ih =>
    obtain ⟨hkv, hkvs⟩ := not_or.mp (List.mem_cons.not.mp h)
    rw [insertAll_cons, ih _ hkvs, find?_insert, if_neg hkv]

/-- Of several values for a key the last stays. -/
theorem find?_insertAll_last (m kvs : List (α × β)) {kvs' : List (α × β)} {k : α} (v : β)
    (h : k ∉ kvs'.map Prod.fst) : find? (insertAll m (kvs ++ (k, v) :: kvs')) k = some v := by
  induction kvs generalizing m with
  | nil =>
    rw [List.nil_append, insertAll_cons, find?_insertAll_of_not_mem _ h, find?_insert]
    exact if_pos rfl
  | cons kv kvs ih => exact ih _

theorem mem_insertAll {m kvs : List (α × β)} {p : α × β} (h : p ∈ insertAll m kvs) :
    p ∈ m ∨ p ∈ kvs := by
  induction kvs generalizing m with
  | nil => exact .inl h
  | cons kv kvs ih =>
    rcases ih h with h | h
    · rcases mem_insert h with rfl | h
      · exact .inr List.mem_cons_self
      · exact .inl h
    · exact .inr (List.mem_cons_of_mem _ h)

theorem Sorted.tail {p : α × β} {m : List (α × β)} (h : Sorted (p :: m)) : Sorted m :=
  (List.pairwise_cons.mp h).2

theorem Sorted.insert {m : List (α × β)} (h : Sorted m) (k : α) (v : β) :
    Sorted (insert m k v) := by
  induction m with
  | nil => exact List.pairwise_singleton _ _
  | cons p m ih =>
    obtain ⟨hp, hm⟩ := List.pairwise_cons.mp h
    rw [OrdMap.insert]
    split
    · next hlt =>
      refine List.pairwise_cons.mpr ⟨fun q hq => ?_, h⟩
      rcases List.mem_cons.mp hq with rfl | hq
      · exact hlt
      · exact hlt.trans (hp q hq)
    · next hlt =>
      split
      · next heq => exact List.pairwise_cons.mpr ⟨fun q hq => heq ▸ hp q hq, hm⟩
      · next hne =>
        refine List.pairwise_cons.mpr ⟨fun q hq => ?_, ih hm⟩
        rcases mem_insert hq with rfl | hq
        · exact lt_of_le_of_ne (not_lt.mp hlt) (Ne.symm hne)
        · exact hp q hq

/-- A key below every key of the map is absent. -/
theorem find?_eq_none_of_lt {m : List (α × β)} {k : α} (h : ∀ p ∈ m, k < p.1) :
    find? m k = none := by
  induction m with
  | nil => rfl
  | cons p m ih =>
    have hp : k ≠ p.1 := (h p List.mem_cons_self).ne
    simp [find?, hp, ih fun q hq => h q (List.mem_cons_of_mem _ hq)]

/-- In a sorted map a member is what lookup returns. -/
theorem Sorted.find?_of_mem {m : List (α × β)} (h : Sorted m) {k : α} {v : β}
    (hm : (k, v) ∈ m) : find? m k = some v := by
  induction m with
  | nil => cases hm
  | cons p m ih =>
    obtain ⟨hp, hs⟩ := List.pairwise_cons.mp h
    rcases List.mem_cons.mp hm with rfl | hm
    · simp [find?]
    · have hne : k ≠ p.1 := (hp _ hm).ne'
      simp [find?, hne, ih hs hm]

theorem mem_of_find? {m : List (α × β)} {k : α} {v : β} (h : find? m k = some v) :
    (k, v) ∈ m := by
  induction m with
  | nil => cases h
  | cons p m ih =>
    simp only [find?] at h
    split at h
    · next heq => cases h; subst heq; exact List.mem_cons_self
    · exact List.mem_cons_of_mem _ (ih h)

theorem Sorted.insertAll {m : List (α × β)} (h : Sorted m) (kvs : List (α × β)) :
    Sorted (insertAll m kvs) := by
  induction kvs generalizing m with
  | nil => exact h
  | cons kv kvs ih => exact ih (h.insert kv.1 kv.2)

/-- A key above every key of the map comes last. -/
theorem insert_of_lt {m : List (α × β)} {k : α} (h : ∀ p ∈ m, p.1 < k) (v : β) :
    insert m k v = m ++ [(k, v)] := by
  induction m with
  | nil => rfl
  | cons p m ih =>
    obtain ⟨hp, hm⟩ := List.forall_mem_cons.mp h
    rw [insert, if_neg hp.not_gt, if_neg hp.ne', ih hm]
    rfl

/-- Inserting in the order of the keys appends. -/
theorem insertAll_of_sorted {m kvs : List (α × β)} (h : Sorted (m ++ kvs)) :
    insertAll m kvs = m ++ kvs := by
  induction kvs generalizing m with
  | nil => exact (List.append_nil m).symm
  | cons kv kvs ih =>
    have hlt : ∀ p ∈ m, p.1 < kv.1 := fun p hp =>
      (List.pairwise_append.mp h).2.2 p hp kv List.mem_cons_self
    rw [insertAll_cons, insert_of_lt hlt, ih]
    · rw [List.append_assoc]
      rfl
    · rw [List.append_assoc]
      exact h

/-- A sorted map has each of its keys once. -/
theorem Sorted.nodup_keys {m : List (α × β)} (h : Sorted m) : (m.map Prod.fst).Nodup :=
  List.pairwise_map.mpr (h.imp fun hlt => hlt.ne)

theorem find?_eq_none_of_not_mem {m : List (α × β)} {k : α} (h : k ∉ m.map Prod.fst) :
    find? m k = none := by
  induction m with
  | nil => rfl
  | cons p m ih =>
    obtain ⟨hp, hm⟩ := not_or.mp (List.mem_cons.not.mp h)
    rw [find?, if_neg hp]
    exact ih hm

/-- A fold over pairs with different keys: a part of the state that only the pair at `key` changes,
and changes in the way `R`, is at the end as that pair has made it. -/
theorem foldlM_part {ε σ γ : Type} {step : σ → α × β → Except ε σ} (part : σ → γ) (key : α)
    (R : β → γ → γ → Prop)
    (hother : ∀ {s p s'}, p.1 ≠ key → step s p = .ok s' → part s' = part s)
    (hkey : ∀ {s v s'}, step s (key, v) = .ok s' → R v (part s) (part s'))
    {m : List (α × β)} (hm : (m.map Prod.fst).Nodup) {s s' : σ} (h : m.foldlM step s = .ok s') :
    match find? m key with
    | none => part s' = part s
    | some v => R v (part s) (part s') := by
  induction m generalizing s with
  | nil => cases h; rfl
  | cons p m ih =>
    obtain ⟨hp, hm'⟩ := List.nodup_cons.mp hm
    rw [List.foldlM_cons] at h
    obtain ⟨s₁, h₁, h₂⟩ := Outcome.bind_eq_ok.mp h
    have ih := ih hm' h₂
    obtain ⟨k, v⟩ := p
    by_cases hk : key = k
    · subst hk
      rw [find?_eq_none_of_not_mem hp] at ih
      simp only [find?, if_true]
      exact ih ▸ hkey h₁
    · simp only [find?, if_neg hk]
      rw [← hother (Ne.symm hk) h₁]
      exact ih

end RocksdbService.OrdMap
