import RocksdbService.Verify.GetAfterPut

/-! # Restarts

A process that is started again has closed databases and new objects, and what RocksDB holds. Seen from
the clients of all its lives it goes on with the maps that it had (`restarts_refine`). -/

namespace RocksdbService

open Json (JString)

/-- Stores that represent the maps are those that the maps are made of again. -/
theorem storeOf_of_represents {configs : List Config} {contents : Contents} {s : Spec.State}
    (hs : Families.Represents (Place configs) JString.bytes s contents)
    (hunknown : ∀ name, catalogOf configs name = none → ∀ family key, s name family key = none) :
    storeOf configs contents = s := by
  funext name family key
  cases hlookup : lookup configs name with
  | none =>
    have hcatalog : catalogOf configs name = none := by rw [catalogOf, hlookup, Option.map_none]
    rw [hunknown name hcatalog, storeOf, hlookup]
    rfl
  | some c =>
    have hcontents := hs name c.path ⟨c, hlookup, rfl⟩ family key
    simp only [storeOf, hlookup, Option.bind_eq_bind, Option.bind_some, hcontents]
    cases s name family key with
    | none => rfl
    | some v => exact dif_pos v.fits

/-- A life of the process: the state that it starts in, and its calls of `exec_json`. -/
structure Life where
  start : World
  calls : List Call

/-- The lives of a process that is started again and again with one config file, and what RocksDB holds
before and after them. A life ends after any event that is not a fault, with the process and not with the
machine: a call counts when it has been executed, also if its reply is not sent any more. Where `exec_json` faults next, the life has ended before
it, since it leaves the stores alone then (`execReplyLeaving_unchanged`). The next life finds what RocksDB
holds, and nothing else has to be as it was. -/
inductive Lives (P : Platform) (file : Bytes) (configs : List Config) (contents : Contents) :
    List Life → Contents → Prop
  | start : Lives P file configs contents [] contents
  | life {lives : List Life} {rocks : Rocks} {es : List WireEvent} {w : Wire World}
    (h : Lives P file configs contents lives rocks.contents)
    (hread : readConfigs rocks.api file = .ok (some configs)) (hlive : rocks.live = fun _ => none)
    (hrun : es.foldlM (Wire.next P execJson) { net := { state := ⟨configs, rocks⟩ } } = some w)
    (hcrashed : w.net.crashed = false) :
    Lives P file configs contents (lives ++ [⟨⟨configs, rocks⟩, w.net.order.map Prod.snd⟩])
      w.net.state.rocks.contents

/-- The queries that the calls of a life are, with the answers that RocksDB gives in it. -/
structure Life.Asks (life : Life) (qs : List (Spec.Query × Spec.Env)) : Prop where
  queries : life.calls.map (fun k => Spec.queryOf k.request) = qs.map (fun q => .ok q.1)
  steady : Steady life.start qs

/-- The queries of all lives, one life after another, are one run of the maps. -/
structure Continued (configs : List Config) (contents : Contents) (lives : List Life)
    (contents' : Contents) (qss : List (List (Spec.Query × Spec.Env))) : Prop where
  asks : List.Forall₂ Life.Asks lives qss
  replies : (lives.flatMap Life.calls).map Call.reply =
    (trace (Spec.step (catalogOf configs)) qss.flatten (storeOf configs contents)).1.map
      Json.FastWriter.write
  stores : Families.Represents (Place configs) JString.bytes
    (trace (Spec.step (catalogOf configs)) qss.flatten (storeOf configs contents)).2 contents'

theorem Continued.storeOf_eq {configs : List Config} {contents contents' : Contents} {lives : List Life}
    {qss : List (List (Spec.Query × Spec.Env))} (h : Continued configs contents lives contents' qss) :
    storeOf configs contents' =
      (trace (Spec.step (catalogOf configs)) qss.flatten (storeOf configs contents)).2 := by
  refine storeOf_of_represents h.stores fun name hunknown => ?_
  refine trace_invariant (I := fun s : Spec.State => ∀ family key, s name family key = none)
    (fun hs => Spec.step_unknown hunknown hs) qss.flatten fun family key => ?_
  rw [catalogOf, Option.map_eq_none_iff] at hunknown
  rw [storeOf, hunknown]
  rfl

/-- One more life goes on where the last one has ended. -/
theorem Continued.life {P : Platform} {file : Bytes} {configs : List Config}
    (hpaths : (configs.map Config.path).Nodup) {contents : Contents} {lives : List Life} {rocks : Rocks}
    {qss : List (List (Spec.Query × Spec.Env))} (h : Continued configs contents lives rocks.contents qss)
    (hread : readConfigs rocks.api file = .ok (some configs)) (hlive : rocks.live = fun _ => none)
    {es : List WireEvent} {w : Wire World}
    (hrun : es.foldlM (Wire.next P execJson) { net := { state := ⟨configs, rocks⟩ } } = some w) :
    ∃ qs, Continued configs contents (lives ++ [⟨⟨configs, rocks⟩, w.net.order.map Prod.snd⟩])
      w.net.state.rocks.contents (qss ++ [qs]) := by
  obtain ⟨events, hi⟩ := (Wire.Inv.init P execJson _).run hrun
  have hstores := h.stores
  rw [← h.storeOf_eq] at hstores
  obtain ⟨qs, hlin⟩ := Net.linearizable_of_simulates (place_biUnique hpaths)
    (Net.simulates_start hread hlive hstores) hi.steps
  have hreplies := hlin.replies
  have hafter := hlin.stores
  rw [h.storeOf_eq] at hreplies hafter
  have hasks : Life.Asks ⟨⟨configs, rocks⟩, w.net.order.map Prod.snd⟩ qs :=
    ⟨by rw [List.map_map, ← hlin.queries]; rfl, hlin.steady⟩
  refine ⟨qs, List.rel_append h.asks (.cons hasks .nil), ?_, ?_⟩
  · rw [List.flatMap_append, List.flatMap_singleton, List.flatten_append, List.flatten_singleton,
      trace_append, List.map_append, List.map_append, List.map_map, h.replies, ← hreplies]
    rfl
  · rw [List.flatten_append, List.flatten_singleton, trace_append]
    exact hafter

/-- All lives of the process are one run of the maps. -/
theorem restarts_refine {P : Platform} {file : Bytes} {configs : List Config} {contents contents' : Contents}
    {lives : List Life} (hpaths : (configs.map Config.path).Nodup)
    (hfits : ∀ path family key v, contents path family key = some v → v.length ≤ Json.maxStringLength)
    (h : Lives P file configs contents lives contents') :
    ∃ qss, Continued configs contents lives contents' qss := by
  induction h with
  | start => exact ⟨[], .nil, rfl, storeOf_represents hfits⟩
  | life _ hread hlive hrun _ ih =>
    obtain ⟨qss, hcontinued⟩ := ih
    obtain ⟨qs, hcontinued'⟩ := hcontinued.life hpaths hread hlive hrun
    exact ⟨qss ++ [qs], hcontinued'⟩

/-- What a new process finds of RocksDB. -/
def restarted (r : Rocks) : Rocks := { emptyRocks with disk := r.disk, contents := r.contents }

/-- A value is put before a restart, and got after it. -/
theorem restarts_refine_putAndGet : ∃ lives contents qss,
    lives.map (fun life => life.calls.map Call.reply) =
      [[ascii "\x7b\"error\":0\x7d\n"], [ascii "\x7b\"error\":0,\"value\":\"v\"\x7d\n"]] ∧
    Continued [plainConfig] emptyRocks.contents lives contents qss := by
  have hrun : ((Client.putInPieces.foldlM (Wire.next ⟨.little, 0⟩ execJson)
      { net := { state := ⟨[plainConfig], emptyRocks⟩ } }).bind fun w₁ =>
        (Client.getInPieces.foldlM (Wire.next ⟨.little, 0⟩ execJson)
          { net := { state := ⟨[plainConfig], restarted w₁.net.state.rocks⟩ } }).map
            fun w => ((w₁.net.order.map (·.2.reply), w₁.net.crashed),
              w.net.order.map (·.2.reply), w.net.crashed)) =
      some (([ascii "\x7b\"error\":0\x7d\n"], false),
        [ascii "\x7b\"error\":0,\"value\":\"v\"\x7d\n"], false) := by
    decide +kernel
  obtain ⟨w₁, hw₁, hrun⟩ := Option.bind_eq_some_iff.mp hrun
  obtain ⟨w, hw, hseen⟩ := Option.map_eq_some_iff.mp hrun
  simp only [Prod.mk.injEq] at hseen
  obtain ⟨⟨hreplies₁, hcrashed₁⟩, hreplies, hcrashed⟩ := hseen
  have hlife : Lives ⟨.little, 0⟩ plainFile [plainConfig] emptyRocks.contents _ w₁.net.state.rocks.contents :=
    .life .start readConfigs_plainFile rfl hw₁ hcrashed₁
  have hfits : ∀ path family key v, emptyRocks.contents path family key = some v →
      v.length ≤ Json.maxStringLength := by
    intro path family key v h
    cases h
  obtain ⟨qss, hqss⟩ := restarts_refine (by decide) hfits
    (@Lives.life _ _ _ _ _ (restarted w₁.net.state.rocks) _ _ hlife
      readConfigs_plainFile rfl hw hcrashed)
  refine ⟨_, _, qss, ?_, hqss⟩
  simp only [List.nil_append, List.map_append, List.map_cons, List.map_nil, List.map_map]
  exact congrArg₂ (fun a b => [a, b]) hreplies₁ hreplies

end RocksdbService
