import ProtoRegistry.Verify.Clients
import ProtoRegistry.Verify.TypesRuns

/-!
# Lookups during a refresh

A refresh changes the types of a namespace call by call, and stores the snapshot after the last one. The lock is held
for one call at a time, so lookups of other goroutines come in between. A lookup by name loads the snapshot first. It
reads the types later, and only if the snapshot has no schema for the name: then it is right as of that snapshot to find
nothing, and what it does find was there before the refresh or will be there after it.
-/

namespace ProtoRegistry.Client
open NamespacedTypes

variable {env : External} {server : Server} {r r' : Resolver}

/-! ## The calls of a refresh -/

/-- The calls of `removeFromAggregate` that concern types. -/
def removeCalls (ss : SchemaSnapshot) : List TypesCall :=
  ss.aggFingerprint.messages.map (.unregister .message) ++
    (ss.aggFingerprint.enums.map (.unregister .enum) ++ ss.aggFingerprint.extensions.map (.unregister .extension))

/-- The calls of `applyToAggregate` that concern types. -/
def applyCalls (ss : SchemaSnapshot) : List TypesCall :=
  ss.files.rangeFiles.flatMap fun fd => fd.types.map .update

def RefreshPlan.typesCalls (plan : RefreshPlan) (removed : List SchemaSnapshot) : List TypesCall :=
  removed.flatMap removeCalls ++
    ((plan.replaced.flatMap fun rep => removeCalls rep.1) ++ plan.toApply.flatMap applyCalls)

/-- Types that another goroutine can see while the resolver is refreshed. -/
inductive Resolver.During (env : External) (server : Server) (r : Resolver) : NamespacedTypes → Prop where
  | start : During env server r r.nsTypes
  /-- The plan is made, and some of its calls. -/
  | called {infos : List SchemaInfo} {plan : RefreshPlan} {next : NsSnapshot} {types : NamespacedTypes} (k : Nat)
    (hinfos : listAllSchemas server r = .ok infos)
    (hplan : infos.foldlM (planSchema env server r) ⟨.new, [], []⟩ = .ok plan)
    (hindex : plan.next.buildNameIndex = .ok next)
    (hcalls : ((plan.typesCalls (removedBy env.rangeKeys r.snapshot plan.next)).take k).foldlM
      TypesCall.exec r.nsTypes = .ok types) :
    During env server r types

/-- A run of the program that succeeds makes the calls. -/
def Makes (x : StateE Aggregate ClientErr PUnit) (cs : List TypesCall) : Prop :=
  ∀ agg agg', x.exec agg = (.ok (), agg') → cs.foldlM TypesCall.exec agg.nsTypes = .ok agg'.nsTypes

namespace Makes

variable {x y : StateE Aggregate ClientErr PUnit} {cs ds : List TypesCall}

theorem bind (hx : Makes x cs) (hy : Makes y ds) : Makes (x >>= fun _ => y) (cs ++ ds) := by
  intro agg agg' h
  rw [StateE.exec_bind] at h
  split at h
  · next agg₁ hfirst =>
    rw [List.foldlM_append, hx agg agg₁ hfirst]
    exact hy agg₁ agg' h
  · cases h

theorem forM {α : Type} {l : List α} {g : α → StateE Aggregate ClientErr PUnit} {cs : α → List TypesCall}
    (hg : ∀ a, Makes (g a) (cs a)) : Makes (l.forM g) (l.flatMap cs) := by
  induction l with
  | nil =>
    intro agg agg' h
    cases h
    rfl
  | cons a l ih => exact (hg a).bind ih

theorem mapError {g : ClientErr → ClientErr} (hx : Makes x cs) : Makes (x.mapError g) cs := by
  intro agg agg' h
  refine hx agg agg' ?_
  rw [StateE.exec_mapError] at h
  revert h
  obtain ⟨_ | _, _⟩ := x.exec agg <;> rintro ⟨⟩
  rfl

theorem change {step : Aggregate → Except ClientErr Aggregate}
    (hstep : ∀ agg agg', step agg = .ok agg' → cs.foldlM TypesCall.exec agg.nsTypes = .ok agg'.nsTypes) :
    Makes (StateE.change step) cs := by
  intro agg agg' h
  rw [StateE.exec_change] at h
  split at h
  · next hok =>
    cases h
    exact hstep agg agg' hok
  · cases h

/-- A loop that makes one call in each round. -/
theorem each {α : Type} (l : List α) {step : α → Aggregate → Except ClientErr Aggregate} {call : α → TypesCall}
    (hstep : ∀ a agg agg', step a agg = .ok agg' → (call a).exec agg.nsTypes = .ok agg'.nsTypes) :
    Makes (l.forM fun a => StateE.change (step a)) (l.map call) := by
  rw [List.map_eq_flatMap]
  refine forM fun a => change fun agg agg' h => ?_
  rw [List.foldlM_cons, hstep a agg agg' h]
  rfl

end Makes

theorem foldlM_update (ts : List TypeDescriptor) (types : NamespacedTypes) :
    (ts.map .update).foldlM TypesCall.exec types = .ok (ts.foldl updateTypeOf types) := by
  induction ts generalizing types with
  | nil => rfl
  | cons t ts ih => exact ih _

theorem makes_applyToAggregate (ss : SchemaSnapshot) :
    Makes (applyToAggregate ss ss.files.rangeFiles) (applyCalls ss) := by
  refine Makes.forM fun fd => Makes.change fun agg agg' h => ?_
  rw [applyFile] at h
  split at h
  · cases h
  · cases h
    exact foldlM_update fd.types agg.nsTypes

theorem makes_removeFromAggregate (ss : SchemaSnapshot) : Makes (removeFromAggregate ss) (removeCalls ss) := by
  have hfiles : Makes (ss.aggFingerprint.filePaths.forM fun path => StateE.change (unregisterFile ss.schemaID path))
      [] := by
    have hnone : (ss.aggFingerprint.filePaths.flatMap fun _ => ([] : List TypesCall)) = [] := by simp
    rw [← hnone]
    refine Makes.forM fun path => Makes.change fun agg agg' h => ?_
    rw [unregisterFile] at h
    split at h <;> cases h
    rfl
  have hname : ∀ kind name agg agg', unregisterName ss.schemaID kind name agg = .ok agg' →
      (TypesCall.unregister kind name).exec agg.nsTypes = .ok agg'.nsTypes := by
    intro kind name agg agg' h
    rw [unregisterName] at h
    split at h
    · cases h
    · next htypes =>
      cases h
      exact htypes
  exact hfiles.bind ((Makes.each _ (hname .message)).bind
    ((Makes.each _ (hname .enum)).bind (Makes.each _ (hname .extension))))

theorem makes_applyDiff (plan : RefreshPlan) (removed : List SchemaSnapshot) :
    Makes (applyDiff plan removed) (plan.typesCalls removed) := by
  refine Makes.bind ?_ (Makes.bind ?_ ?_)
  · exact Makes.forM fun ss => (makes_removeFromAggregate ss).mapError
  · exact Makes.forM fun rep => (makes_removeFromAggregate rep.1).mapError
  · exact Makes.forM fun ss => (makes_applyToAggregate ss).mapError

/-! ## What is there in between -/

theorem get_foldlM {cs : List TypesCall} {types types' : NamespacedTypes}
    (h : cs.foldlM TypesCall.exec types = .ok types')
    (hget : types'.typesByName.get n = some t) :
    types.typesByName.get n = some t ∨ .update t ∈ cs ∨ .register t ∈ cs := by
  induction cs generalizing types with
  | nil =>
    cases h
    exact .inl hget
  | cons c cs ih =>
    rw [List.foldlM_cons] at h
    obtain ⟨types₁, hstep, hrest⟩ := except_bind_eq_ok.mp h
    obtain hget | hmem | hmem := ih hrest
    · have hupdate : ∀ u, types₁ = updateTypeOf types u → types.typesByName.get n = some t ∨ u = t := by
        rintro u rfl
        rw [get_updateTypeOf] at hget
        split at hget
        · exact .inr (Option.some.inj hget)
        · exact .inl hget
      cases c with
      | update u =>
        obtain hold | rfl := hupdate u (Except.ok.inj hstep).symm
        · exact .inl hold
        · exact .inr (.inl (List.mem_cons_self ..))
      | register u =>
        obtain hold | rfl := hupdate u (registerTypeOf_eq_ok_iff.mp hstep).2.2
        · exact .inl hold
        · exact .inr (.inr (List.mem_cons_self ..))
      | unregister kind name =>
        obtain ⟨u, hu, rfl⟩ := exists_of_unregisterOfKind hstep
        obtain rfl := types.fullName_of_get hu
        obtain ⟨_, hstep', hleft⟩ := left_unregisterOfKind hu
        cases hstep.symm.trans hstep'
        rw [hleft.types, Dict.get_delete] at hget
        split at hget
        · cases hget
        · exact .inl hget
    · exact .inr (.inl (List.mem_cons_of_mem _ hmem))
    · exact .inr (.inr (List.mem_cons_of_mem _ hmem))

theorem RefreshPlan.mem_typesCalls {plan : RefreshPlan} {removed : List SchemaSnapshot} :
    (∀ t, .register t ∉ plan.typesCalls removed) ∧ ∀ t, .update t ∈ plan.typesCalls removed →
      t ∈ (plan.toApply.flatMap fun ss => ss.files.rangeFiles).flatMap (·.types) := by
  simp only [typesCalls, removeCalls, applyCalls, List.mem_append, List.mem_flatMap, List.mem_map]
  simp only [reduceCtorEq, and_false, exists_false, or_false, false_or, not_false_eq_true, implies_true, true_and,
    TypesCall.update.injEq, exists_eq_right]
  rintro t ⟨ss, hss, fd, hfd, htf⟩
  exact ⟨fd, ⟨ss, hss, hfd⟩, htf⟩

section
variable {cur : NsSnapshot} (hlaw : env.Lawful) (ht : r.Tracking env cur) (honce : server.ListsOnce)
  (hreg : Registrable (r.tracked server)) (h : Client.refresh env server r = (res, r'))
include hlaw ht honce hreg h

/-- What is there during a refresh was there before or will be there after. -/
theorem Resolver.Tracking.get_during {types : NamespacedTypes} (hduring : r.During env server types)
    (hget : types.typesByName.get n = some t) :
    r.nsTypes.typesByName.get n = some t ∨ r'.nsTypes.typesByName.get n = some t := by
  cases hduring with
  | start => exact .inl hget
  | @called infos plan next _ k hinfos hplan hindex hcalls =>
    obtain hold | hmem | hmem := get_foldlM hcalls hget
    · exact .inl hold
    · have hnew := RefreshPlan.mem_typesCalls.2 t (List.mem_of_mem_take hmem)
      obtain ⟨os, hmade, hos⟩ := ht.plan_spec honce hinfos hplan
      have hdiff := ht.applyDiff_holds hlaw hmade (tracked_nodup honce hinfos) hos
        (hreg.perm (hmade.files_perm hlaw hinfos hos).symm)
      cases refreshed_of_eq h with
      | stopped hnone => exact absurd hplan (hnone _ _ ht.live hinfos)
      | unchanged _ hinfos' hplan' hadded hreplaced =>
        -- nothing is applied when nothing has changed
        cases hinfos.symm.trans hinfos'
        cases hplan.symm.trans hplan'
        rw [RefreshPlan.toApply, hadded, hreplaced] at hnew
        cases hnew
      | ambiguous hplans hindex' =>
        obtain rfl := hplans.eq hinfos hplan
        cases hindex.symm.trans hindex'
      | failed hplans _ hexec =>
        obtain rfl := hplans.eq hinfos hplan
        exact (hdiff.error ht.holds hexec).elim
      | applied hplans _ hexec =>
        obtain rfl := hplans.eq hinfos hplan
        have hholds := hdiff.ok ht.holds hexec
        obtain ⟨fd, hfd, htf⟩ := List.mem_flatMap.mp hnew
        have hnext := hmade.toApply_perm.mem_iff.mpr (List.mem_append_right _ hfd)
        obtain rfl := types.fullName_of_get hget
        exact .inr (hholds.types.names.get (List.mem_flatMap.mpr ⟨fd, hnext, htf⟩))
    · exact (RefreshPlan.mem_typesCalls.1 t (List.mem_of_mem_take hmem)).elim

theorem Resolver.Tracking.during_refresh :
    (r' = r ∨ res = .ok ()) ∧ r.During env server r'.nsTypes := by
  cases refreshed_of_eq h with
  | stopped | unchanged | ambiguous => exact ⟨.inl rfl, .start⟩
  | failed hplans _ hexec =>
    obtain ⟨infos, hinfos, hplan⟩ := hplans.made
    obtain ⟨os, hmade, hos⟩ := ht.plan_spec honce hinfos hplan
    exact ((ht.applyDiff_holds hlaw hmade (tracked_nodup honce hinfos) hos
      (hreg.perm (hmade.files_perm hlaw hinfos hos).symm)).error ht.holds hexec).elim
  | @applied plan _ _ hplans hindex hexec =>
    obtain ⟨infos, hinfos, hplan⟩ := hplans.made
    refine ⟨.inr rfl, .called (plan.typesCalls (removedBy env.rangeKeys r.snapshot plan.next)).length
      hinfos hplan hindex ?_⟩
    rw [List.take_length]
    exact makes_applyDiff _ _ _ _ hexec

end

/-! ## A resolver that is refreshed -/

theorem Resolver.Reached.tracks {ns : String} {cfg : Config} {parent : Option Resolver} (hlaw : env.Lawful)
    (h : Resolver.Reached env ns cfg parent r) : ∃ cur, r.Tracking env cur ∧ r.Populated env cur := by
  obtain ⟨cur, ht⟩ := h.tracking hlaw
  refine ⟨cur, ht, ht.snapshot, ht.sound, NsSnapshot.consistent_of_registrable ht.registrable, ?_, ht.holds.types.names⟩
  have hcur := ht.snapshot
  clear ht
  induction h with
  | populated honce hnew hreg =>
    obtain ⟨_, snap, _, _, hpop, _⟩ := populate_spec rfl hnew
    rw [hpop.snapshot] at hcur
    cases hcur
    exact hpop.schemaFor
  | refreshed hr honce href hreg ih =>
    obtain ⟨infos, plan, _, hplan, ⟨_, _, _, _, rfl⟩ | ⟨next, hindex, hnext, _⟩⟩ := refresh_eq_ok href
    · exact ih hcur
    · rw [hnext] at hcur
      cases hcur
      exact NsSnapshot.indexed_of_buildNameIndex (plan_covers hplan).nameIndex hindex

/-- A resolver with its refreshes, one after the other. They may fail. -/
structure Refreshes (env : External) (ns : String) (cfg : Config) (parent : Option Resolver) where
  resolver : Nat → Resolver
  server : Nat → Server
  start : Resolver.Reached env ns cfg parent (resolver 0)
  next : ∀ i, (refresh env (server i) (resolver i)).2 = resolver (i + 1)
  once : ∀ i, (server i).ListsOnce
  registrable : ∀ i, Registrable ((resolver i).tracked (server i))

/-- The lookups of a type by its name, with `findByName` for that of the registry. -/
def Resolver.findByName (r : Resolver) (want : TypeKind) (select : TypeDescriptor → Option α) (name : FullName) :
    Except LookupErr α :=
  match r.snapshot.bind (·.schemaFor name) with
  | some ss => (TypesChain.node ss.types r.cfg.parentTypes).findByName want select name
  | none => r.types.findByName want select name

theorem Resolver.Populated.get_eq_none {snap : NsSnapshot} (h : r.Populated env snap)
    (hnone : snap.schemaFor n = none) :
    r.nsTypes.typesByName.get n = none := by
  rw [Option.eq_none_iff_forall_ne_some]
  intro t hget
  obtain ⟨ht, rfl⟩ := (h.types n t).mp hget
  obtain ⟨f, hf, htf⟩ := List.mem_flatMap.mp ht
  obtain ⟨sc, ss, hss, hfss⟩ := NsSnapshot.mem_files.mp hf
  have hvisit := NsSnapshot.mem_visits.mpr ⟨ss, hss, f, hfss, NsSnapshot.fullName_mem_range htf⟩
  rw [(h.schemaFor _ ss).mpr ⟨sc, hss, hvisit⟩] at hnone
  cases hnone

namespace Refreshes

variable {ns : String} {cfg : Config} {parent : Option Resolver} (h : Refreshes env ns cfg parent) {i j : Nat}
  {types : NamespacedTypes} (hlaw : env.Lawful)

theorem refresh_eq (i : Nat) : ∃ res, refresh env (h.server i) (h.resolver i) = (res, h.resolver (i + 1)) :=
  ⟨_, Prod.ext rfl (h.next i)⟩

theorem cfg_eq (i : Nat) : (h.resolver i).cfg = (h.resolver 0).cfg := by
  induction i with
  | zero => rfl
  | succ i ih =>
    obtain ⟨_ | _, hres⟩ := h.refresh_eq i
    · rw [(snapshot_refresh_error hres).2.2, ih]
    · obtain ⟨_, _, _, _, ⟨_, _, _, _, hsame⟩ | ⟨_, _, _, _, hcfg⟩⟩ := refresh_eq_ok hres
      · rw [hsame, ih]
      · rw [hcfg, ih]

include hlaw

theorem reached (i : Nat) : Resolver.Reached env ns cfg parent (h.resolver i) := by
  induction i with
  | zero => exact h.start
  | succ i ih =>
    obtain ⟨cur, ht⟩ := ih.tracking hlaw
    obtain ⟨res, hres⟩ := h.refresh_eq i
    obtain ⟨hsame | rfl, -⟩ := ht.during_refresh hlaw (h.once i) (h.registrable i) hres
    · rw [hsame]
      exact ih
    · exact .refreshed ih (h.once i) hres (h.registrable i)

theorem findByName_of_get {n : FullName} (l : Nat)
    (hget : types.typesByName.get n = (h.resolver l).nsTypes.typesByName.get n) (want : TypeKind)
    (select : TypeDescriptor → Option α) :
    (TypesChain.node types (h.resolver i).cfg.parentTypes).findByName want select n =
      (h.resolver l).findByName want select n := by
  obtain ⟨cur, -, hpop⟩ := (h.reached hlaw l).tracks hlaw
  have hasked : (TypesChain.node types (h.resolver i).cfg.parentTypes).findByName want select n =
      (h.resolver l).types.findByName want select n := by
    rw [h.cfg_eq i, ← h.cfg_eq l]
    exact TypesChain.findByName_congr hget
  rw [hasked, Resolver.findByName, hpop.snapshot, Option.bind_some]
  cases hss : cur.schemaFor n with
  | none => rfl
  | some ss => exact (TypesChain.findByName_congr (hpop.typesByName_eq hss)).symm

theorem findByName_during (hij : i ≤ j) (hduring : (h.resolver j).During env (h.server j) types) (want : TypeKind)
    (select : TypeDescriptor → Option α) (n : FullName) : ∃ l, i ≤ l ∧ l ≤ j + 1 ∧
      { h.resolver i with nsTypes := types }.findByName want select n = (h.resolver l).findByName want select n := by
  obtain ⟨cur, ht, hpop⟩ := (h.reached hlaw i).tracks hlaw
  simp only [Resolver.findByName, ht.snapshot, Option.bind_some]
  cases hss : cur.schemaFor n with
  | some ss =>
    -- the snapshot answers, and the types do not matter
    refine ⟨i, le_rfl, by omega, ?_⟩
    simp only [ht.snapshot, Option.bind_some, hss]
  | none =>
    cases hget : types.typesByName.get n with
    | none =>
      -- the name was not there when the lookup began
      exact ⟨i, le_rfl, by omega, h.findByName_of_get hlaw i (hget.trans (hpop.get_eq_none hss).symm) want select⟩
    | some t =>
      obtain ⟨cur', ht'⟩ := (h.reached hlaw j).tracking hlaw
      obtain ⟨res, hres⟩ := h.refresh_eq j
      rcases ht'.get_during hlaw (h.once j) (h.registrable j) hres hduring hget with hold | hnew
      · exact ⟨j, hij, by omega, h.findByName_of_get hlaw j (hget.trans hold.symm) want select⟩
      · exact ⟨j + 1, by omega, le_rfl, h.findByName_of_get hlaw (j + 1) (hget.trans hnew.symm) want select⟩

end Refreshes

/-- However the calls of refreshes and the two steps of a lookup by name are interleaved, the lookup answers as if
it had been made between two of the refreshes that it ran along with. The calls lead from one refresh to the next. -/
theorem lookups_atomic {ns : String} {cfg : Config} {parent : Option Resolver} (hlaw : env.Lawful)
    (h : Refreshes env ns cfg parent) {i j : Nat} (hij : i ≤ j) :
    (∀ types name, (h.resolver j).During env (h.server j) types →
      (∃ l, i ≤ l ∧ l ≤ j + 1 ∧ { h.resolver i with nsTypes := types }.findMessageByName name =
        (h.resolver l).findMessageByName name) ∧
      ∃ l, i ≤ l ∧ l ≤ j + 1 ∧ { h.resolver i with nsTypes := types }.findExtensionByName name =
        (h.resolver l).findExtensionByName name) ∧
      (h.resolver j).During env (h.server j) (h.resolver j).nsTypes ∧
      (h.resolver j).During env (h.server j) (h.resolver (j + 1)).nsTypes := by
  refine ⟨fun types name hduring => ⟨?_, ?_⟩, .start, ?_⟩
  · exact h.findByName_during hlaw hij hduring _ _ name
  · exact h.findByName_during hlaw hij hduring _ _ name
  · obtain ⟨cur, ht⟩ := (h.reached hlaw j).tracking hlaw
    obtain ⟨res, hres⟩ := h.refresh_eq j
    exact (ht.during_refresh hlaw (h.once j) (h.registrable j) hres).2

/-- The only schema gets a version with one message more. -/
theorem lookups_atomic_replaced : ∃ h : Refreshes Sample.env "n" {} none,
    (h.resolver 0).findFileByPath "a.proto" = .ok (Sample.file "a.proto" [1]) ∧
    (h.resolver 1).findFileByPath "a.proto" = .ok (Sample.file "a.proto" [1, 2]) ∧
    ∀ types name, (h.resolver 0).During Sample.env (h.server 0) types → ∃ l ≤ 1,
      { h.resolver 0 with nsTypes := types }.findMessageByName name = (h.resolver l).findMessageByName name := by
  have hrun : ∃ r r', newSingleNamespace Sample.env (Sample.answers 1 [1]) "n" {} none = .ok r ∧
      refresh Sample.env (Sample.answers 2 [1, 2]) r = (.ok (), r') ∧
      refresh Sample.env (Sample.answers 2 [1, 2]) r' = (.ok (), r') ∧
      Registrable (r.tracked (Sample.answers 2 [1, 2])) ∧ Registrable (r'.tracked (Sample.answers 2 [1, 2])) ∧
      r.findFileByPath "a.proto" = .ok (Sample.file "a.proto" [1]) ∧
      r'.findFileByPath "a.proto" = .ok (Sample.file "a.proto" [1, 2]) :=
    ⟨_, _, rfl, rfl, rfl, by decide +kernel, by decide +kernel, rfl, rfl⟩
  obtain ⟨r, r', hnew, hrefresh, hagain, hreg, hreg', hfile, hfile'⟩ := hrun
  have honce : ∀ v source, (Sample.answers v source).ListsOnce := fun _ _ _ => (by decide : ["s"].Nodup)
  refine ⟨{ resolver := fun i => if i = 0 then r else r'
            server := fun _ => Sample.answers 2 [1, 2]
            start := .populated (honce 1 [1]) hnew (by decide +kernel)
            next := fun i => by cases i <;> simp [hrefresh, hagain]
            once := fun _ => honce 2 [1, 2]
            registrable := fun i => by cases i <;> assumption }, hfile, hfile', fun types name hduring => ?_⟩
  obtain ⟨l, -, hl, heq⟩ := ((lookups_atomic Sample.lawful_env _ le_rfl).1 types name hduring).1
  exact ⟨l, hl, heq⟩

end ProtoRegistry.Client
