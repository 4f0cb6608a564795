import ProtoRegistry.Verify.Rebasing

/-!
# Calls without a gate

`DiscardStaging` and `Rollback` do not ask the authorizer. This module computes what they do, and with it
when a sequence of operations leaves everything as it is although every request is denied.
-/

namespace ProtoRegistry
open RegistryM

/-! ## Comparing worlds -/

/-- The same contents of the store, snapshots and parents. -/
structure World.SameState (w w' : World) : Prop where
  namespaces : ∀ k, w'.store.namespaces.get k = w.store.namespaces.get k
  schemas : ∀ k, w'.store.schemas.get k = w.store.schemas.get k
  versions : ∀ k, w'.store.versions.get k = w.store.versions.get k
  blobs : ∀ k, w'.store.blobs.get k = w.store.blobs.get k
  parentEvents : w'.store.parentEvents = w.store.parentEvents
  parent : ∀ ns, w'.memory.parent ns = w.memory.parent ns
  current : ∀ ns sc, w'.memory.current ns sc = w.memory.current ns sc
  staged : ∀ ns sc, w'.memory.staged ns sc = w.memory.staged ns sc

/-- The same versions, pointers and snapshots of a namespace. -/
structure World.SameVersions (ns : String) (w w' : World) : Prop where
  versions : ∀ sc v, w'.store.versions.get (ns, sc, v) = w.store.versions.get (ns, sc, v)
  pointers : ∀ sc, w'.store.pointers ns sc = w.store.pointers ns sc
  current : ∀ sc, w'.memory.current ns sc = w.memory.current ns sc
  staged : ∀ sc, w'.memory.staged ns sc = w.memory.staged ns sc

namespace World

variable {w w' w'' : World} {ns sc : String}

theorem SameState.refl (w : World) : w.SameState w :=
  ⟨fun _ => rfl, fun _ => rfl, fun _ => rfl, fun _ => rfl, rfl, fun _ => rfl, fun _ _ => rfl, fun _ _ => rfl⟩

theorem SameState.symm (h : w.SameState w') : w'.SameState w where
  namespaces k := (h.namespaces k).symm
  schemas k := (h.schemas k).symm
  versions k := (h.versions k).symm
  blobs k := (h.blobs k).symm
  parentEvents := h.parentEvents.symm
  parent ns := (h.parent ns).symm
  current ns sc := (h.current ns sc).symm
  staged ns sc := (h.staged ns sc).symm

theorem SameState.trans (h : w.SameState w') (h' : w'.SameState w'') : w.SameState w'' where
  namespaces k := (h'.namespaces k).trans (h.namespaces k)
  schemas k := (h'.schemas k).trans (h.schemas k)
  versions k := (h'.versions k).trans (h.versions k)
  blobs k := (h'.blobs k).trans (h.blobs k)
  parentEvents := h'.parentEvents.trans h.parentEvents
  parent ns := (h'.parent ns).trans (h.parent ns)
  current ns sc := (h'.current ns sc).trans (h.current ns sc)
  staged ns sc := (h'.staged ns sc).trans (h.staged ns sc)

theorem SameState.sameVersions (h : w.SameState w') (ns : String) : w.SameVersions ns w' where
  versions sc v := h.versions (ns, sc, v)
  pointers sc := by rw [Store.pointers, h.schemas, Store.pointers]
  current := h.current ns
  staged := h.staged ns

end World

/-! ## Discarding -/

namespace Namespaces

variable {m : Namespaces} {ns sc : String}

theorem staged_clear (sc' : String) : (m.clearStaged ns sc').staged a sc =
    if a = ns ∧ sc = sc' then none else m.staged a sc := by
  split
  · next hkey =>
    rw [hkey.1, hkey.2]
    exact staged_clearStaged
  · next hkey =>
    rw [staged, slot_clearStaged, if_neg fun heq => hkey ⟨heq.1.symm, heq.2.symm⟩]
    rfl

theorem current_setStaged_any (sc' : String) (snap : Option Snapshot) :
    (m.setStaged ns sc' snap).current a sc = m.current a sc := by
  by_cases hkey : ns = a ∧ sc' = sc
  · obtain ⟨rfl, rfl⟩ := hkey
    exact current_setStaged snap
  · rw [current, setStaged, slot_modifySlot_of_ne hkey]
    rfl

/-- `Namespace.DiscardStaging` as a function of memory. -/
def discardStaging (m : Namespaces) (ns : String) : Namespaces :=
  (m.schemaIDs ns).foldl (fun m sc => m.clearStaged ns sc) m

theorem staged_clearAll (ids : List String) : (ids.foldl (fun m sc => m.clearStaged ns sc) m).staged a sc =
    if a = ns ∧ sc ∈ ids then none else m.staged a sc := by
  induction ids generalizing m with
  | nil => simp
  | cons id ids ih =>
    rw [List.foldl_cons, ih, staged_clear]
    simp only [List.mem_cons]
    by_cases hmem : a = ns ∧ sc ∈ ids <;> by_cases hid : sc = id <;> simp_all

theorem current_clearAll (ids : List String) :
    (ids.foldl (fun m sc => m.clearStaged ns sc) m).current a sc = m.current a sc := by
  induction ids generalizing m with
  | nil => rfl
  | cons id ids ih => rw [List.foldl_cons, ih, current_clearStaged]

theorem parent_clearAll (ids : List String) :
    (ids.foldl (fun m sc => m.clearStaged ns sc) m).parent = m.parent := by
  induction ids generalizing m with
  | nil => rfl
  | cons id ids ih => rw [List.foldl_cons, ih, parent_clearStaged]

theorem staged_discardStaging : (m.discardStaging ns).staged a sc = if a = ns then none else m.staged a sc := by
  rw [discardStaging, staged_clearAll]
  by_cases hns : a = ns
  · subst hns
    by_cases hmem : sc ∈ m.schemaIDs a
    · simp [hmem]
    · have hslot : m.slot a sc = none := Option.not_isSome_iff_eq_none.mp fun hsome => hmem (mem_schemaIDs.mpr hsome)
      simp [hmem, staged, hslot]
  · simp [hns]

end Namespaces

theorem exec_forM_memory {α : Type} {g : α → RegistryM PUnit} {f : Namespaces → α → Namespaces}
    (hg : ∀ a w, (g a).exec w = (.ok ⟨⟩, ⟨w.store, f w.memory a⟩)) (l : List α) (w : World) :
    (l.forM g).exec w = (.ok ⟨⟩, ⟨w.store, l.foldl f w.memory⟩) := by
  induction l generalizing w with
  | nil => rfl
  | cons a l ih =>
    rw [RegistryM.exec, execute_forM_cons]
    exact (execute_bind_of_ok (hg a w)).trans (ih _)

theorem Registry.exec_discardStaging (ns : String) (w : World) :
    (discardStaging ns).exec w = (.ok (), ⟨w.store.discardStaging ns, w.memory.discardStaging ns⟩) := by
  refine (execute_bind_of_ok (exec_wrap_of (exec_store (.discardStaging ns) w) _)).trans ?_
  refine (execute_bind_of_ok (exec_mem (.get ns) _)).trans ?_
  by_cases hns : (w.memory.namespaces.get ns).isSome = true
  · simp only [Namespaces.perform, hns, if_true]
    refine (execute_bind_of_ok (exec_mem (.schemaIDs ns) _)).trans ?_
    exact exec_forM_memory (fun sc => exec_mem (.clearStaged ns sc)) _ _
  · have hids : w.memory.schemaIDs ns = [] := by rw [Namespaces.schemaIDs, Option.not_isSome_iff_eq_none.mp hns]
    simp only [Namespaces.perform, hns, Namespaces.discardStaging, hids]
    rfl

/-- Neither the store nor memory has a staged version in the namespace. -/
structure World.NothingStaged (w : World) (ns : String) : Prop where
  store : ∀ sc, (w.store.pointers ns sc).stagedVersion = none
  memory : ∀ sc, w.memory.staged ns sc = none

theorem World.NothingStaged.sameState (h : World.NothingStaged w ns) :
    w.SameState ⟨w.store.discardStaging ns, w.memory.discardStaging ns⟩ where
  namespaces _ := rfl
  schemas k := by
    obtain ⟨a, sc⟩ := k
    have hstore := h.store sc
    simp only [Store.discardStaging, Dict.get_mapValues]
    cases hrow : w.store.schemas.get (a, sc) with
    | none => rfl
    | some row =>
      by_cases hns : a = ns
      · subst hns
        rw [Store.pointers, hrow] at hstore
        simp only [if_true, Option.map_some]
        exact congrArg some (SchemaRow.ext rfl hstore.symm)
      · simp [hns]
  versions _ := rfl
  blobs _ := rfl
  parentEvents := rfl
  parent a := congrFun (Namespaces.parent_clearAll _) a
  current _ _ := Namespaces.current_clearAll _
  staged a sc := by
    rw [Namespaces.staged_discardStaging]
    split
    · next hns => rw [hns, h.memory]
    · rfl

theorem World.NothingStaged.of_sameVersions
    (h : World.SameVersions ns w ⟨w.store.discardStaging ns, w.memory.discardStaging ns⟩) : w.NothingStaged ns where
  store sc := by rw [← h.pointers sc, Store.pointers_discardStaging]
  memory sc := by rw [← h.staged sc, Namespaces.staged_discardStaging, if_pos rfl]

/-! ## Rolling back -/

/-- The version can be rolled back to, as this snapshot. -/
def Registry.RollsBackTo (r : Registry) (w : World) (ns sc : String) (v : Nat) (force : Bool) (snap : Snapshot) :
    Prop :=
  ∃ row, w.store.versions.get (ns, sc, v) = some row ∧ Snapshot.new r.env v row.compiled = .ok snap ∧
    (force = true ∨ Compat.Ok (w.memory.current ns sc) snap)

/-- The version is what the schema has staged, as this snapshot. -/
structure World.HasStaged (w : World) (ns sc : String) (v : Nat) (snap : Snapshot) : Prop where
  store : ∀ {row}, w.store.schemas.get (ns, sc) = some row → row.stagedVersion = if v = 0 then none else some v
  memory : w.memory.staged ns sc = some snap

def World.stage (w : World) (ns sc : String) (v : Nat) (snap : Snapshot) : World :=
  ⟨w.store.setStaged ns sc v, (w.memory.getOrCreate ns).setStaged ns sc (some snap)⟩

namespace World

variable {w : World} {ns sc : String} {snap : Snapshot}

theorem staged_stage (v : Nat) : (w.stage ns sc v snap).memory.staged ns sc = some snap :=
  Namespaces.staged_setStaged (Namespaces.isSome_getOrCreate _)

theorem HasStaged.sameState (h : w.HasStaged ns sc v snap) : w.SameState (w.stage ns sc v snap) where
  namespaces k := by
    simp only [stage, Store.setStaged]
    split <;> rfl
  schemas k := by
    simp only [stage, Store.setStaged]
    split
    · rfl
    · next row hrow =>
      rw [Dict.get_set]
      split
      · next hk =>
        rw [hk, hrow]
        exact congrArg some (SchemaRow.ext rfl (h.store hrow).symm)
      · rfl
  versions k := by
    simp only [stage, Store.setStaged]
    split <;> rfl
  blobs k := by
    simp only [stage, Store.setStaged]
    split <;> rfl
  parentEvents := by
    simp only [stage, Store.setStaged]
    split <;> rfl
  parent a := by rw [stage, Namespaces.setStaged, Namespaces.parent_modifySlot, Namespaces.parent_getOrCreate]
  current a sc' := by
    rw [stage, Namespaces.current_setStaged_any, Namespaces.current, Namespaces.slot_getOrCreate]
    rfl
  staged a sc' := by
    by_cases hkey : ns = a ∧ sc = sc'
    · obtain ⟨rfl, rfl⟩ := hkey
      rw [staged_stage, h.memory]
    · rw [stage, Namespaces.staged, Namespaces.setStaged, Namespaces.slot_modifySlot_of_ne hkey,
        Namespaces.slot_getOrCreate]
      rfl

theorem HasStaged.of_sameVersions (h : w.SameVersions ns (w.stage ns sc v snap)) : w.HasStaged ns sc v snap where
  store {row} hrow := by
    have hpointers := h.pointers sc
    simp only [stage, Store.setStaged, Store.pointers, hrow, Dict.get_set_self, Option.getD_some] at hpointers
    exact (congrArg SchemaRow.stagedVersion hpointers).symm
  memory := by rw [← h.staged sc, staged_stage]

end World

namespace Registry

variable {r : Registry} {w : World} {ns sc : String}

theorem exec_current (ns sc : String) (w : World) : (current ns sc).exec w = (.ok (w.memory.current ns sc), w) := by
  refine (execute_bind_of_ok (exec_mem (.get ns) w)).trans ?_
  by_cases hns : (w.memory.namespaces.get ns).isSome = true
  · simp only [Namespaces.perform, hns, if_true]
    rfl
  · have hcurrent : w.memory.current ns sc = none := by
      rw [Namespaces.current, Namespaces.slot_of_missing (Option.not_isSome_iff_eq_none.mp hns)]
      rfl
    simp only [Namespaces.perform, hns, hcurrent]
    rfl

theorem exec_checkRollback (ns sc : String) (snap : Snapshot) (w : World) :
    (checkRollback ns sc snap).exec w = (.ok (), w) ∧ Compat.Ok (w.memory.current ns sc) snap ∨
      (∃ e, (checkRollback ns sc snap).exec w = (.error e, w)) ∧ ¬ Compat.Ok (w.memory.current ns sc) snap := by
  unfold checkRollback
  rw [RegistryM.exec, execute_bind_of_ok (exec_current ns sc w)]
  cases w.memory.current ns sc with
  | none => exact .inl ⟨rfl, Compat.ok_none⟩
  | some cur =>
    dsimp only
    split
    · next hok => exact .inl ⟨rfl, List.isEmpty_iff.mp hok⟩
    · next hnot => exact .inr ⟨⟨_, rfl⟩, fun hok => hnot (List.isEmpty_iff.mpr hok)⟩

theorem exec_stage (snap : Snapshot) (v : Nat) (context : String) (w : World) :
    RegistryM.exec (do
      (store (.setStaged ns sc v)).wrap context
      mem (.getOrCreate ns)
      mem (.setStaged ns sc snap)) w = (.ok (), w.stage ns sc v snap) := by
  refine (execute_bind_of_ok (exec_wrap_of (exec_store (.setStaged ns sc v) w) _)).trans ?_
  exact (execute_bind_of_ok (exec_mem (.getOrCreate ns) _)).trans rfl

/-- A rollback stages its target, or is refused. -/
theorem exec_rollback (ns sc : String) (v : Nat) (force : Bool) (w : World) :
    (∃ snap, r.RollsBackTo w ns sc v force snap ∧ (r.rollback ns sc v force).exec w = (.ok (), w.stage ns sc v snap)) ∨
      (∀ snap, ¬ r.RollsBackTo w ns sc v force snap) ∧ ∃ e, (r.rollback ns sc v force).exec w = (.error e, w) := by
  have hget := exec_wrap_of (exec_store (.getVersion ns sc v) w) ("getting version " ++ toString v)
  cases hrow : w.store.versions.get (ns, sc, v) with
  | none =>
    refine .inr ⟨fun snap h => ?_, ?_⟩
    · obtain ⟨row, hrow', -⟩ := h
      cases hrow.symm.trans hrow'
    · simp only [Store.perform, Store.getVersion, hrow] at hget
      exact ⟨_, execute_bind_of_error hget⟩
  | some row =>
    simp only [Store.perform, Store.getVersion, hrow] at hget
    unfold rollback
    rw [RegistryM.exec, execute_bind_of_ok hget]
    have hnew := execute_liftExcept (I := registryInterface) World.perform
      ((Snapshot.new r.env v row.compiled).mapError fun e =>
      ({ text := "building snapshot: " ++ e } : Err)) w
    cases hsnap : Snapshot.new r.env v row.compiled with
    | error e =>
      rw [hsnap] at hnew
      refine .inr ⟨fun snap h => ?_, _, execute_bind_of_error hnew⟩
      obtain ⟨row', hrow', hsnap', -⟩ := h
      cases hrow.symm.trans hrow'
      cases hsnap.symm.trans hsnap'
    | ok snap =>
      rw [hsnap] at hnew
      rw [execute_bind_of_ok hnew]
      cases force with
      | true => exact .inl ⟨snap, ⟨row, hrow, hsnap, .inl rfl⟩, exec_stage ..⟩
      | false =>
        obtain ⟨hcheck, hok⟩ | ⟨⟨e, hcheck⟩, hnot⟩ := exec_checkRollback ns sc snap w
        · refine .inl ⟨snap, ⟨row, hrow, hsnap, .inr hok⟩, ?_⟩
          exact (execute_bind_of_ok hcheck).trans (exec_stage ..)
        · refine .inr ⟨fun snap' h => ?_, e, execute_bind_of_error hcheck⟩
          obtain ⟨row', hrow', hsnap', hok⟩ := h
          cases hrow.symm.trans hrow'
          cases hsnap.symm.trans hsnap'
          exact hok.elim (fun h => by cases h) hnot

end Registry

/-! ## Reading -/

def Op.Keeps (op : Op) : Prop := ∀ w, (World.perform op w).2 = w

theorem snd_execute_of_keeps {x : ExceptT ε (Prog registryInterface) α} (hx : Uses Op.Keeps x) (w : World) :
    (execute World.perform x w).2 = w :=
  Prog.Relies.exec_eq (g := id) (fun _ w hop => hop w) hx w

theorem chain_keeps (ns : String) : Uses Op.Keeps (chain ns) :=
  (chainFrom_scoped (fun op hop => World.perform_of_isRead (isRead_of_readsIn op hop))
    (climbs_true _) chainMaxDepth trivial
    (by simp)).done

namespace Registry

theorem current_keeps (ns sc : String) : Uses Op.Keeps (current ns sc) := by
  refine (uses_mem fun _ => rfl).bind fun found => ?_
  cases found with
  | false => exact .pure _
  | true => exact uses_mem fun _ => rfl

theorem staged_keeps (ns sc : String) : Uses Op.Keeps (staged ns sc) := by
  refine (uses_mem fun _ => rfl).bind fun found => ?_
  cases found with
  | false => exact .pure _
  | true => exact uses_mem fun _ => rfl

theorem getNamespaceChain_keeps (ns : String) : Uses Op.Keeps (getNamespaceChain ns) := by
  refine (uses_mem fun _ => rfl).bind fun found => ?_
  cases found with
  | false => exact .throw _
  | true => exact chain_keeps ns

theorem pinStatus_keeps (d : Dep) : Uses Op.Keeps (pinStatus d) := by
  refine ((uses_store fun _ => rfl).attempt).bind fun row _ => .pure trivial

theorem getRebaseStatus_keeps (ns sc : String) : Uses Op.Keeps (getRebaseStatus ns sc) := by
  refine (uses_mem fun _ => rfl).bind fun found => ?_
  cases found with
  | false => exact .throw _
  | true =>
    refine (uses_mem fun _ => rfl).bind fun current => ?_
    cases current with
    | none => exact .throw _
    | some cur =>
      refine ((uses_store fun _ => rfl).wrap _).bind fun deps _ => ?_
      exact Within.bind (Within.mapM fun d _ => pinStatus_keeps d) fun _ _ => .pure trivial

end Registry

/-! ## Denied requests -/

structure Authorizer.DeniesAll (a : Authorizer) : Prop where
  createNamespace : ∀ ns p, ∃ e, a.canCreateNamespace ns p = .error e
  setNamespaceParent : ∀ ns p, ∃ e, a.canSetNamespaceParent ns p = .error e
  publish : ∀ ns sc, ∃ e, a.canPublish ns sc = .error e
  promote : ∀ ns, ∃ e, a.canPromote ns = .error e
  rebase : ∀ ns parent, ∃ e, a.canRebase ns parent = .error e

theorem Sample.deniesAll_denying : Sample.denying.authz.DeniesAll :=
  ⟨fun _ _ => ⟨_, rfl⟩, fun _ _ => ⟨_, rfl⟩, fun _ _ => ⟨_, rfl⟩, fun _ => ⟨_, rfl⟩, fun _ _ => ⟨_, rfl⟩⟩

/-- The operations of a `Registry`: the calls, and those that only read. -/
inductive Operation where
  | call (c : Call)
  | current (namespaceID schemaID : String)
  | staged (namespaceID schemaID : String)
  | getNamespaceChain (namespaceID : String)
  | getRebaseStatus (namespaceID schemaID : String)

namespace Registry

variable {r : Registry} {w w' : World} {ns sc : String}

def operate (r : Registry) (w : World) : Operation → World
  | .call c => (r.exec c w).2
  | .current ns sc => ((current ns sc).exec w).2
  | .staged ns sc => ((staged ns sc).exec w).2
  | .getNamespaceChain ns => ((getNamespaceChain ns).exec w).2
  | .getRebaseStatus ns sc => ((getRebaseStatus ns sc).exec w).2

/-- The operation finds nothing to discard, or its target refused or staged already. -/
def Inert (r : Registry) (w : World) : Operation → Prop
  | .call (.discardStaging ns) => w.NothingStaged ns
  | .call (.rollback ns sc v force) => ∀ snap, r.RollsBackTo w ns sc v force snap → w.HasStaged ns sc v snap
  | _ => True

theorem RollsBackTo.unique {snap snap' : Snapshot} (h : r.RollsBackTo w ns sc v force snap)
    (h' : r.RollsBackTo w ns sc v force snap') : snap' = snap := by
  obtain ⟨row, hrow, hsnap, -⟩ := h
  obtain ⟨row', hrow', hsnap', -⟩ := h'
  cases hrow.symm.trans hrow'
  cases hsnap.symm.trans hsnap'
  rfl

theorem Inert.of_sameState (h : w.SameState w') {op : Operation} (hop : r.Inert w op) : r.Inert w' op := by
  unfold Inert at hop ⊢
  split
  · exact ⟨fun sc => ((h.sameVersions _).pointers sc).symm ▸ hop.store sc,
      fun sc => (h.staged _ sc).trans (hop.memory sc)⟩
  · next ns sc v force =>
    intro snap hroll
    obtain ⟨row, hrow, hsnap, hok⟩ := hroll
    have hstaged := hop snap ⟨row, (h.versions _).symm.trans hrow, hsnap, h.current ns sc ▸ hok⟩
    exact ⟨fun hrow => hstaged.store ((h.schemas _).symm.trans hrow), (h.staged ns sc).trans hstaged.memory⟩
  · trivial

theorem snd_exec_discardStaging (r : Registry) (ns : String) (w : World) :
    (r.exec (.discardStaging ns) w).2 = ⟨w.store.discardStaging ns, w.memory.discardStaging ns⟩ :=
  congrArg Prod.snd (execute_bind_of_ok (exec_discardStaging ns w))

theorem snd_exec_rollback (r : Registry) (ns sc : String) (v : Nat) (force : Bool) (w : World) :
    (∃ snap, r.RollsBackTo w ns sc v force snap ∧ (r.exec (.rollback ns sc v force) w).2 = w.stage ns sc v snap) ∨
      (∀ snap, ¬ r.RollsBackTo w ns sc v force snap) ∧ (r.exec (.rollback ns sc v force) w).2 = w := by
  obtain ⟨snap, hroll, hexec⟩ | ⟨hnone, e, hexec⟩ := r.exec_rollback ns sc v force w
  · exact .inl ⟨snap, hroll, congrArg Prod.snd (execute_bind_of_ok hexec)⟩
  · exact .inr ⟨hnone, congrArg Prod.snd (execute_bind_of_error hexec)⟩

theorem sameState_discardStaging_iff : w.SameState (r.exec (.discardStaging ns) w).2 ↔ w.NothingStaged ns := by
  rw [snd_exec_discardStaging]
  exact ⟨fun h => .of_sameVersions (h.sameVersions ns), fun h => h.sameState⟩

theorem sameState_rollback_iff : w.SameState (r.exec (.rollback ns sc v force) w).2 ↔
    ∀ snap, r.RollsBackTo w ns sc v force snap → w.HasStaged ns sc v snap := by
  obtain ⟨snap, hroll, hstate⟩ | ⟨hnone, hstate⟩ := r.snd_exec_rollback ns sc v force w
  · rw [hstate]
    refine ⟨fun h snap' hroll' => ?_, fun h => (h snap hroll).sameState⟩
    rw [hroll.unique hroll']
    exact .of_sameVersions (h.sameVersions ns)
  · rw [hstate]
    exact ⟨fun _ snap hroll => (hnone snap hroll).elim, fun _ => .refl w⟩

theorem snd_exec_denied {res : Except Err Unit} {x : RegistryM α} {f : α → RegistryM β} (hdeny : ∃ e, res = .error e)
    (w : World) : (RegistryM.exec ((do liftExcept res; x) >>= f) w).2 = w := by
  obtain ⟨e, rfl⟩ := hdeny
  have hdenied : RegistryM.exec (do liftExcept (.error e); x) w = (.error e, w) :=
    execute_bind_of_error (execute_liftExcept ..)
  rw [RegistryM.exec, execute_bind_of_error hdenied]

theorem sameState_operate_iff (hdeny : r.authz.DeniesAll) (op : Operation) :
    w.SameState (r.operate w op) ↔ r.Inert w op := by
  have hsame : ∀ w', w' = w → (w.SameState w' ↔ True) := by
    rintro w' rfl
    exact iff_true_intro (.refl w')
  cases op with
  | call c =>
    cases c with
    | publish req => exact hsame _ (snd_exec_denied (hdeny.publish ..) w)
    | rebase ns sc => exact hsame _ (snd_exec_denied (hdeny.rebase ..) w)
    | rollback ns sc v force => exact sameState_rollback_iff
    | discardStaging ns => exact sameState_discardStaging_iff
    | promote ns => exact hsame _ (snd_exec_denied (hdeny.promote ..) w)
    | createNamespace ns p actor => exact hsame _ (snd_exec_denied (hdeny.createNamespace ..) w)
    | setNamespaceParent ns p actor => exact hsame _ (snd_exec_denied (hdeny.setNamespaceParent ..) w)
  | current ns sc => exact hsame _ (snd_execute_of_keeps (current_keeps ns sc) w)
  | staged ns sc => exact hsame _ (snd_execute_of_keeps (staged_keeps ns sc) w)
  | getNamespaceChain ns => exact hsame _ (snd_execute_of_keeps (getNamespaceChain_keeps ns) w)
  | getRebaseStatus ns sc => exact hsame _ (snd_execute_of_keeps (getRebaseStatus_keeps ns sc) w)

/-- **Mediation.** When every request is denied, a sequence of operations leaves the state alone all along
exactly when each of them is inert. -/
theorem denied_sequence_same_iff (hdeny : r.authz.DeniesAll) (ops : List Operation) (w : World) :
    (∀ k, w.SameState ((ops.take k).foldl r.operate w)) ↔ ∀ op ∈ ops, r.Inert w op := by
  induction ops generalizing w with
  | nil => simp [World.SameState.refl]
  | cons op ops ih =>
    -- the rest runs in a world with the same state, where the same operations are inert
    have hrest : w.SameState (r.operate w op) →
        ((∀ k, w.SameState ((ops.take k).foldl r.operate (r.operate w op))) ↔ ∀ op ∈ ops, r.Inert w op) := by
      intro hop
      refine Iff.trans ⟨fun h k => hop.symm.trans (h k), fun h k => hop.trans (h k)⟩ ((ih _).trans ?_)
      exact forall₂_congr fun op' _ => ⟨fun h => .of_sameState hop.symm h, fun h => .of_sameState hop h⟩
    rw [List.forall_mem_cons, ← sameState_operate_iff hdeny op]
    refine ⟨fun h => ⟨h 1, (hrest (h 1)).mp fun k => h (k + 1)⟩, fun ⟨hop, hops⟩ k => ?_⟩
    cases k with
    | zero => exact .refl w
    | succ k => exact (hrest hop).mpr hops k

end Registry

/-- The staged version of another caller survives what is denied, and what is refused. -/
theorem denied_sequence_same_staged :
    let w := (Sample.registry.exec (Sample.publish [1]) .empty).2
    w.store.pointers "n" "s" = ⟨none, some 1⟩ ∧
      ∀ k, w.SameState (([.call (Sample.publish [2]), .call (.promote "n"), .staged "n" "s",
        .call (.rollback "n" "s" 7 true)].take k).foldl Sample.denying.operate w) := by
  intro w
  have hmissing : (w.store.versions.get ("n", "s", 7)).isSome = false := by decide +kernel
  refine ⟨by decide +kernel, (Registry.denied_sequence_same_iff Sample.deniesAll_denying _ w).mpr fun op hop => ?_⟩
  simp only [List.mem_cons, List.not_mem_nil, or_false] at hop
  obtain rfl | rfl | rfl | rfl := hop
  · trivial
  · trivial
  · trivial
  · intro snap hroll
    obtain ⟨row, hrow, -⟩ := hroll
    rw [hrow] at hmissing
    cases hmissing

/-- The staged version is discarded although every request is denied. -/
theorem denied_discardStaging :
    let w := (Sample.registry.exec (Sample.publish [1]) .empty).2
    Sample.denying.authz.DeniesAll ∧ w.store.pointers "n" "s" = ⟨none, some 1⟩ ∧
      (Sample.denying.operate w (.call (.discardStaging "n"))).store.pointers "n" "s" = ⟨none, none⟩ ∧
      ((Sample.denying.operate w (.call (.discardStaging "n"))).memory.staged "n" "s").isNone := by
  exact ⟨Sample.deniesAll_denying, by decide +kernel, by decide +kernel, by decide +kernel⟩

end ProtoRegistry
