import RocksdbService.Json.Reader

/-! # Comparing values

A check of the root that a concrete document has: `parsesTo` runs the reader and compares
(`parseFromStream_eq`). -/

namespace RocksdbService.Json

namespace Value

mutual

/-- Whether two values are the same. -/
def same : Value → Value → Bool
  | null, null => true
  | int i, int j => i = j
  | uint m, uint n => m = n
  | real d, real e => d = e
  | string s, string t => s = t
  | bool b, bool c => b = c
  | array xs, array ys => sameElements xs ys
  | object ms, object ns => sameMembers ms ns
  | _, _ => false

def sameElements : List Value → List Value → Bool
  | [], [] => true
  | x :: xs, y :: ys => same x y && sameElements xs ys
  | _, _ => false

def sameMembers : List (Bytes × Value) → List (Bytes × Value) → Bool
  | [], [] => true
  | (k, x) :: ms, (l, y) :: ns => k = l && same x y && sameMembers ms ns
  | _, _ => false

end

mutual

theorem eq_of_same : ∀ {v w : Value}, same v w = true → v = w
  | null, w, h => by cases w <;> first | rfl | (simp [same] at h)
  | int i, w, h => by cases w <;> simp_all [same]
  | uint m, w, h => by cases w <;> simp_all [same]
  | real d, w, h => by cases w <;> simp_all [same]
  | string s, w, h => by cases w <;> simp_all [same]
  | bool b, w, h => by cases w <;> simp_all [same]
  | array xs, w, h => by
    cases w with
    | array ys =>
      have heq : xs = ys := eq_of_sameElements (by simpa [same] using h)
      rw [heq]
    | _ => simp [same] at h
  | object ms, w, h => by
    cases w with
    | object ns =>
      have heq : ms = ns := eq_of_sameMembers (by simpa [same] using h)
      rw [heq]
    | _ => simp [same] at h

theorem eq_of_sameElements : ∀ {xs ys : List Value}, sameElements xs ys = true → xs = ys
  | [], [], _ => rfl
  | [], _ :: _, h => by simp [sameElements] at h
  | _ :: _, [], h => by simp [sameElements] at h
  | x :: xs, y :: ys, h => by
    simp only [sameElements, Bool.and_eq_true] at h
    rw [eq_of_same h.1, eq_of_sameElements h.2]

theorem eq_of_sameMembers : ∀ {ms ns : List (Bytes × Value)}, sameMembers ms ns = true → ms = ns
  | [], [], _ => rfl
  | [], _ :: _, h => by simp [sameMembers] at h
  | _ :: _, [], h => by simp [sameMembers] at h
  | (k, x) :: ms, (l, y) :: ns, h => by
    simp only [sameMembers, Bool.and_eq_true, decide_eq_true_eq] at h
    rw [h.1.1, eq_of_same h.1.2, eq_of_sameMembers h.2]

end

end Value

/-- Whether the root of an accepted document is `root`. -/
def parsesTo (doc : Bytes) (root : Value) : Bool :=
  match parseFromStream doc with
  | .ok (.ok v) => v.same root
  | _ => false

theorem parseFromStream_eq {doc : Bytes} {root : Value} (h : parsesTo doc root = true) :
    parseFromStream doc = .ok (.ok root) := by
  unfold parsesTo at h
  split at h
  · next heq => rw [heq, Value.eq_of_same h]
  · cases h

end RocksdbService.Json
