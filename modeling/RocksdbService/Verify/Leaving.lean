import RocksdbService.Service.Leaving
import RocksdbService.Verify.Open

/-! # Requests that leave the stores alone

A request either is answered with the code 0 or leaves the contents of the stores as they were, also when
an exception leaves `exec_json` (`execReplyLeaving_unchanged`). -/

namespace RocksdbService

open Json (Value)
open Leaving (Leaves)

/-! ## The calls that return -/

namespace Config

theorem getLeaving_result (c : Config) (key : Bytes) (r : Rocks) :
    (c.getLeaving key).result r = c.get key r := by
  unfold getLeaving Config.get
  split <;> simp

theorem putLeaving_result (c : Config) (key value : Bytes) (r : Rocks) :
    (c.putLeaving key value).result r = c.put key value r := by
  unfold putLeaving Config.put
  split <;> simp

theorem putCfLeaving_result (c : Config) (cfName key value : Bytes) (r : Rocks) :
    (c.putCfLeaving cfName key value).result r = c.putCf cfName key value r := by
  unfold putCfLeaving Config.putCf
  split
  · simp
  rcases c.getHandle cfName with e | _ | handle <;> simp

theorem getCfLeaving_result (c : Config) (cfName key : Bytes) (r : Rocks) :
    (c.getCfLeaving cfName key).result r = c.getCf cfName key r := by
  unfold getCfLeaving Config.getCf
  split
  · simp
  rcases c.getHandle cfName with e | _ | handle <;> simp

theorem writeBatchLeaving_result (c : Config) (items : Value) (r : Rocks) :
    (c.writeBatchLeaving items).result r = c.writeBatch items r := by
  unfold writeBatchLeaving Config.writeBatch
  split <;> simp

end Config

theorem dispatchLeaving_result (item : Config) (root reply : Value) (op : Bytes) (r : Rocks) :
    (dispatchLeaving item root reply op).result r = dispatch item root reply op r := by
  unfold dispatchLeaving dispatch
  split
  · simp [Config.putCfLeaving_result]
  split
  · simp [Config.putLeaving_result]
  split
  · simp [Config.writeBatchLeaving_result]
  split
  · simp [Config.getLeaving_result]
  split
  · simp [Config.getCfLeaving_result]
  · simp

theorem execRootLeaving_result (root reply : Value) (w : World) :
    (execRootLeaving root reply).result w = execRoot root reply w := by
  unfold execRootLeaving execRoot
  rw [Leaving.result_bind, Leaving.result_lift]
  simp only [bind_assoc]
  apply Outcome.bind_congr_ok
  rintro ⟨dbName, root⟩ -
  simp only [Outcome.pure_eq_ok, Outcome.ok_bind]
  split
  · simp
  simp only [Leaving.result_bind, Leaving.result_get, Outcome.ok_bind]
  cases w.configs.findIdx? (·.name = dbName) with
  | none => simp
  | some i =>
  dsimp only
  cases w.configs[i]? with
  | none => rfl
  | some item =>
  simp only [Leaving.result_bind, World.onRocks, Leaving.result_zoom, Leaving.result_call, bind_assoc]
  apply Outcome.bind_congr_ok
  rintro ⟨⟨reply, item⟩, rocks⟩ -
  simp only [Outcome.pure_eq_ok, Outcome.ok_bind, Leaving.result_modify]
  cases item.isOpen with
  | false => simp
  | true => simp [dispatchLeaving_result]

/-- Where no exception leaves it, this is `exec_json`. -/
theorem execReplyLeaving_result (inp : Bytes) (w : World) :
    (execReplyLeaving inp).result w = execReply inp w := by
  unfold execReplyLeaving execReply
  rw [Leaving.result_bind, Leaving.result_lift, bind_assoc]
  refine Outcome.bind_congr_ok fun parsed _ => ?_
  cases parsed with
  | error _ => simp
  | ok root => exact execRootLeaving_result root _ w

/-! ## All or nothing -/

/-- The code 0, or the contents as they were. -/
def Unchanged (r : Rocks) (outcome : Outcome Value) (r' : Rocks) : Prop :=
  outcome = .ok (errorReply 0) ∨ r'.contents = r.contents

namespace Rocks

theorem put_unchanged {r r' : Rocks} {db : DbPtr} {handle : Option Handle} {key value : Bytes}
    {status : Status} (h : Rocks.put db handle key value r = .ok (status, r')) :
    Unchanged r (.ok (Config.writeReply status)) r' := by
  obtain ⟨_, -, h⟩ := Outcome.bind_eq_ok.mp h
  dsimp only [answer] at h
  cases ha : r.answers r.calls <;> rw [ha] at h <;> cases h
  · exact .inl rfl
  · exact .inr rfl

theorem write_unchanged {r r' : Rocks} {db : DbPtr} {batch : List (Bytes × Bytes)}
    {status : Status} (h : Rocks.write db batch r = .ok (status, r')) :
    Unchanged r (.ok (Config.writeReply status)) r' := by
  obtain ⟨_, -, h⟩ := Outcome.bind_eq_ok.mp h
  dsimp only [answer] at h
  cases ha : r.answers r.calls <;> rw [ha] at h <;> cases h
  · exact .inl rfl
  · exact .inr rfl

theorem get_contents {r r' : Rocks} {db : DbPtr} {handle : Option Handle} {key : Bytes}
    {p : Status × Bytes} (h : Rocks.get db handle key r = .ok (p, r')) :
    r'.contents = r.contents := by
  obtain ⟨_, -, h⟩ := Outcome.bind_eq_ok.mp h
  dsimp only [answer] at h
  cases ha : r.answers r.calls <;> rw [ha] at h
  · dsimp only at h
    split at h <;> cases h <;> rfl
  · cases h
    rfl

end Rocks

namespace Config

variable {c : Config} {r : Rocks}

theorem readReply_unchanged {db : DbPtr} {handle : Option Handle} {key : Bytes} :
    (do let (status, value) ← Leaving.call (Rocks.get db handle key)
        Leaving.lift (readReply status value) : Leaving Rocks Value).Leaves r (Unchanged r) := by
  rw [Leaving.leaves_bind, Leaving.leaves_call]
  exact ⟨fun _ _ h => .inr (Rocks.get_contents h), fun _ _ => .inr rfl⟩

theorem writeReply_unchanged {f : RocksM Status}
    (h : ∀ status r', f r = .ok (status, r') → Unchanged r (.ok (writeReply status)) r') :
    (do return writeReply (← Leaving.call f) : Leaving Rocks Value).Leaves r (Unchanged r) := by
  rw [Leaving.leaves_bind, Leaving.leaves_call]
  exact ⟨h, fun _ _ => .inr rfl⟩

theorem getLeaving_unchanged (key : Bytes) : (c.getLeaving key).Leaves r (Unchanged r) := by
  unfold getLeaving
  split
  · exact .inr rfl
  · exact readReply_unchanged

theorem putLeaving_unchanged (key value : Bytes) :
    (c.putLeaving key value).Leaves r (Unchanged r) := by
  unfold putLeaving
  split
  · exact .inr rfl
  · exact writeReply_unchanged fun _ _ => Rocks.put_unchanged

theorem putCfLeaving_unchanged (cfName key value : Bytes) :
    (c.putCfLeaving cfName key value).Leaves r (Unchanged r) := by
  unfold putCfLeaving
  split
  · exact .inr rfl
  refine Leaving.leaves_lift_bind (fun _ => .inr rfl) fun handle _ => ?_
  cases handle with
  | none => exact .inr rfl
  | some handle => exact writeReply_unchanged fun _ _ => Rocks.put_unchanged

theorem getCfLeaving_unchanged (cfName key : Bytes) :
    (c.getCfLeaving cfName key).Leaves r (Unchanged r) := by
  unfold getCfLeaving
  split
  · exact .inr rfl
  refine Leaving.leaves_lift_bind (fun _ => .inr rfl) fun handle _ => ?_
  cases handle with
  | none => exact .inr rfl
  | some handle => exact readReply_unchanged

/-- The members are converted before the batch is written. -/
theorem writeBatchLeaving_unchanged (items : Value) :
    (c.writeBatchLeaving items).Leaves r (Unchanged r) := by
  unfold writeBatchLeaving
  split
  · exact .inr rfl
  refine Leaving.leaves_lift_bind (fun _ => .inr rfl) fun batch _ => ?_
  exact writeReply_unchanged fun _ _ => Rocks.write_unchanged

end Config

theorem dispatchLeaving_unchanged (item : Config) (root reply : Value) (op : Bytes) {r : Rocks} :
    (dispatchLeaving item root reply op).Leaves r (Unchanged r) := by
  have field : ∀ {α : Type} {x : Outcome α} {f : α → Leaving Rocks Value},
      (∀ a, (f a).Leaves r (Unchanged r)) → (Leaving.lift x >>= f).Leaves r (Unchanged r) :=
    fun h => Leaving.leaves_lift_bind (fun _ => .inr rfl) fun a _ => h a
  unfold dispatchLeaving
  split
  · exact field fun _ => field fun _ => field fun _ => Config.putCfLeaving_unchanged ..
  split
  · exact field fun _ => field fun _ => Config.putLeaving_unchanged ..
  split
  · exact field fun _ => Config.writeBatchLeaving_unchanged ..
  split
  · exact field fun _ => Config.getLeaving_unchanged ..
  split
  · exact field fun _ => field fun _ => Config.getCfLeaving_unchanged ..
  · exact .inr rfl

theorem execReplyLeaving_unchanged (inp : Bytes) (w : World) :
    (execReplyLeaving inp).Leaves w fun outcome w' => Unchanged w.rocks outcome w'.rocks := by
  refine Leaving.leaves_lift_bind (fun _ => .inr rfl) fun parsed _ => ?_
  cases parsed with
  | error _ => exact .inr rfl
  | ok root =>
  refine Leaving.leaves_lift_bind (fun _ => .inr rfl) fun ⟨dbName, root⟩ _ => ?_
  dsimp only
  split
  · exact .inr rfl
  rw [Leaving.leaves_bind, Leaving.leaves_get]
  dsimp only
  cases w.configs.findIdx? (·.name = dbName) with
  | none => exact .inr rfl
  | some i =>
  dsimp only
  cases w.configs[i]? with
  | none => exact .inr rfl
  | some item =>
  rw [Leaving.leaves_bind, World.onRocks, Leaving.leaves_zoom, Leaving.leaves_call]
  refine ⟨fun ⟨reply, item⟩ rocks ho => ?_, fun _ _ => .inr rfl⟩
  -- `open` does not touch the contents
  have hcontents := (Config.open_effect ho).data.contents
  dsimp only
  rw [Leaving.leaves_bind, Leaving.leaves_modify]
  dsimp only
  split
  · exact .inr hcontents
  refine Leaving.leaves_lift_bind (fun _ => .inr hcontents) fun ⟨op, root⟩ _ => ?_
  rw [World.onRocks, Leaving.leaves_zoom]
  have h := dispatchLeaving_unchanged item root reply op (r := rocks)
  unfold Unchanged at h ⊢
  rw [hcontents] at h
  exact h

end RocksdbService
