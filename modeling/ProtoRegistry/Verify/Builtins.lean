import ProtoRegistry.Verify.Failures
import ProtoRegistry.Verify.Footprint
import ProtoRegistry.Verify.Mediation
import ProtoRegistry.Verify.Sources

/-!
# Protection of the builtins

Requests of callers that are not admins leave the versions of `__builtins__` alone, but for those that
only move its pointers: `Promote`, `DiscardStaging` and `Rollback` check who may write, not who may write
to `__builtins__`.
-/

namespace ProtoRegistry
open RegistryM ServerM

/-! ## Operations on other namespaces -/

/-- The operation leaves the versions, pointers and slots of the namespace alone. -/
def Op.Spares (ns : String) (op : Op) : Prop :=
  (∀ sc, ¬ op.Touches ns sc) ∧ ∀ sc v row, op ≠ .store (.putVersion ns sc v row)

namespace World

variable {w w' w'' : World} {ns : String}

theorem SameVersions.refl (ns : String) (w : World) : w.SameVersions ns w :=
  (SameState.refl w).sameVersions ns

theorem SameVersions.trans (h : w.SameVersions ns w') (h' : w'.SameVersions ns w'') : w.SameVersions ns w'' where
  versions sc v := (h'.versions sc v).trans (h.versions sc v)
  pointers sc := (h'.pointers sc).trans (h.pointers sc)
  current sc := (h'.current sc).trans (h.current sc)
  staged sc := (h'.staged sc).trans (h.staged sc)

theorem SameVersions.symm (h : w.SameVersions ns w') : w'.SameVersions ns w where
  versions sc v := (h.versions sc v).symm
  pointers sc := (h.pointers sc).symm
  current sc := (h.current sc).symm
  staged sc := (h.staged sc).symm

theorem sameVersions_perform {op : Op} (hop : op.Spares ns) (w : World) : w.SameVersions ns (perform op w).2 := by
  cases op with
  | mem op =>
    have hslot : ∀ sc, (w.memory.perform op).2.slot ns sc = w.memory.slot ns sc :=
      fun sc => Namespaces.slot_perform (hop.1 sc)
    refine ⟨fun _ _ => rfl, fun _ => rfl, fun sc => ?_, fun sc => ?_⟩
    · exact congrArg (Option.bind · (·.current)) (hslot sc)
    · exact congrArg (Option.bind · (·.staged)) (hslot sc)
  | store op =>
    refine ⟨fun sc v => ?_, fun sc => Store.pointers_perform (hop.1 sc), fun _ => rfl, fun _ => rfl⟩
    by_cases hput : ∀ a sc v row, op ≠ .putVersion a sc v row
    · exact congrArg (Dict.get · (ns, sc, v)) (Store.versions_perform hput)
    · push Not at hput
      obtain ⟨a, sc', v', row, rfl⟩ := hput
      have hkey : (ns, sc, v) ≠ (a, sc', v') := by
        rintro ⟨⟩
        exact hop.2 sc v row rfl
      simp only [perform, Store.perform, Store.putVersion]
      split
      · rfl
      · exact Dict.get_set_of_ne _ _ hkey

end World

theorem sameVersions_exec {x : RegistryM α} (hx : Uses (Op.Spares ns) x) (w : World) : w.SameVersions ns (x.exec w).2 :=
  inv_of_uses hx (fun _ w hop hw => hw.trans (World.sameVersions_perform hop w)) (.refl ns w) rfl

theorem Quiet.spares {op : Op} (hop : Quiet op) (ns : String) : op.Spares ns := by
  unfold Quiet at hop
  split at hop <;> first | exact ⟨fun _ => id, by simp⟩ | exact hop.elim

theorem WritesParents.spares {op : Op} (hop : WritesParents op) (ns : String) : op.Spares ns := by
  unfold WritesParents at hop
  split at hop
  · exact ⟨fun _ => id, by simp⟩
  · exact ⟨fun _ => id, by simp⟩
  · exact hop.spares ns

theorem Op.Stores.spares {op : Op} (hop : op.Stores a sc) (hne : a ≠ ns) : op.Spares ns := by
  unfold Op.Stores at hop
  split at hop
  · exact ⟨fun _ => id, by simp⟩
  · refine ⟨fun _ => id, fun _ _ _ heq => ?_⟩
    cases heq
    exact hne hop.1.symm
  · exact ⟨fun _ ht => hne (hop.1.symm.trans ht.1), by simp⟩
  · exact ⟨fun _ ht => hne (hop.1.symm.trans ht.1), by simp⟩
  · exact hop.elim

theorem Op.Discards.spares {op : Op} (hop : op.Discards a) (hne : a ≠ ns) : op.Spares ns := by
  unfold Op.Discards at hop
  split at hop
  · exact ⟨fun _ ht => hne (hop.symm.trans ht), by simp⟩
  · exact ⟨fun _ ht => hne (hop.symm.trans ht.1), by simp⟩
  · exact hop.elim

theorem Op.Promotes.spares {op : Op} (hop : op.Promotes a) (hne : a ≠ ns) : op.Spares ns := by
  unfold Op.Promotes at hop
  split at hop
  · exact ⟨fun _ ht => hne (hop.symm.trans ht), by simp⟩
  · exact ⟨fun _ ht => hne (hop.symm.trans ht.1), by simp⟩
  · exact ⟨fun _ ht => hne (hop.symm.trans ht.1), by simp⟩
  · exact hop.quiet.spares ns

/-- The call is about the versions or pointers of the namespace. -/
def Call.Targets (ns : String) : Call → Prop
  | .publish req => req.namespaceID = ns
  | .rebase a _ | .rollback a .. | .discardStaging a | .promote a => a = ns
  | .createNamespace .. | .setNamespaceParent .. => False

theorem Call.MayPerform.spares {c : Call} {op : Op} (hop : c.MayPerform op) (hc : ¬ c.Targets ns) : op.Spares ns := by
  cases c with
  | publish req => exact hop.elim (·.spares ns) (·.spares hc)
  | rebase a sc => exact hop.elim (·.spares ns) (·.spares hc)
  | rollback a sc v force =>
    obtain hread | rfl | rfl | hstores := hop
    · exact hread.quiet.spares ns
    · exact ⟨fun _ => id, by simp⟩
    · exact ⟨fun _ => id, by simp⟩
    · exact hstores.stores.spares hc
  | discardStaging a => exact hop.elim (·.quiet.spares ns) (·.spares hc)
  | promote a => exact Op.Promotes.spares hop hc
  | createNamespace | setNamespaceParent => exact WritesParents.spares hop.1 ns

theorem Registry.run_spares (r : Registry) {c : Call} (hc : ¬ c.Targets ns) : Uses (Op.Spares ns) (r.run c) :=
  (r.run_uses c).mono fun _ hop => hop.spares hc

/-! ## Promotion -/

/-- Every staged snapshot of the namespace passes the comparison with the current one. -/
def Namespaces.Promotable (m : Namespaces) (ns : String) : Prop :=
  ∀ sc staged, m.staged ns sc = some staged → Passes staged (m.current ns sc)

/-- `Namespace.Promote` as a function of memory. -/
def Namespaces.promoteAll (m : Namespaces) (ns : String) : Namespaces :=
  (m.schemaIDs ns).foldl (fun m sc => m.promoteSlot ns sc) m

namespace Namespaces

variable {m : Namespaces} {ns sc : String}

theorem staged_promoteSlot (a : String) :
    (m.promoteSlot ns a).staged ns sc = if sc = a then none else m.staged ns sc := by
  split
  · next heq =>
    subst heq
    unfold promoteSlot
    split
    · exact staged_clearStaged
    · rw [staged_setCurrent]
      exact staged_clearStaged
  · next hne => exact congrArg (Option.bind · (·.staged)) (slot_promoteSlot_of_ne (Ne.symm hne))

theorem staged_promoteSlots (ids : List String) : (ids.foldl (fun m sc => m.promoteSlot ns sc) m).staged ns sc =
    if sc ∈ ids then none else m.staged ns sc := by
  induction ids generalizing m with
  | nil => simp
  | cons id ids ih =>
    rw [List.foldl_cons, ih, staged_promoteSlot]
    simp only [List.mem_cons]
    by_cases hmem : sc ∈ ids <;> simp_all

theorem staged_promoteAll : (m.promoteAll ns).staged ns sc = none := by
  rw [promoteAll, staged_promoteSlots]
  split
  · rfl
  · next hmem =>
    have hslot : m.slot ns sc = none := Option.not_isSome_iff_eq_none.mp fun hsome => hmem (mem_schemaIDs.mpr hsome)
    rw [staged, hslot]
    rfl

theorem promoteAll_of_none (h : ∀ sc, m.staged ns sc = none) : m.promoteAll ns = m.discardStaging ns := by
  unfold promoteAll discardStaging
  generalize m.schemaIDs ns = ids
  induction ids generalizing m with
  | nil => rfl
  | cons id ids ih =>
    have hslot : m.promoteSlot ns id = m.clearStaged ns id := by rw [promoteSlot, h id]
    rw [List.foldl_cons, List.foldl_cons, hslot]
    refine ih fun sc => ?_
    rw [staged_clear, h sc, ite_self]

end Namespaces

namespace World.NothingStaged

variable {w : World} {ns : String}

theorem sameState_promote (h : w.NothingStaged ns) : w.SameState ⟨(w.store.promote ns).2, w.memory.promoteAll ns⟩ := by
  have hdiscard := h.sameState
  have hrows : (w.store.promote ns).2.schemas.get = (w.store.discardStaging ns).schemas.get := by
    funext k
    obtain ⟨a, sc⟩ := k
    have hstore := h.store sc
    simp only [Store.promote, Store.discardStaging, Dict.get_mapValues]
    cases hrow : w.store.schemas.get (a, sc) with
    | none => rfl
    | some row =>
      by_cases hns : a = ns
      · subst hns
        rw [Store.pointers, hrow, Option.getD_some] at hstore
        simp only [if_true, Option.map_some, SchemaRow.promote, hstore]
        exact congrArg some (SchemaRow.ext rfl hstore)
      · simp [hns]
  rw [Namespaces.promoteAll_of_none h.memory]
  exact { hdiscard with schemas := fun k => (congrFun hrows k).trans (hdiscard.schemas k) }

theorem of_sameVersions_promote (h : w.SameVersions ns ⟨(w.store.promote ns).2, w.memory.promoteAll ns⟩) :
    w.NothingStaged ns where
  store sc := by
    have hpointers := h.pointers sc
    rw [Store.pointers_promote] at hpointers
    rw [← hpointers]
    obtain ⟨c, _ | v⟩ := w.store.pointers ns sc <;> rfl
  memory sc := by rw [← h.staged sc, Namespaces.staged_promoteAll]

end World.NothingStaged

namespace Registry

variable {r : Registry} {w : World} {ns : String}

theorem exec_compare (current : Option Snapshot) (staged : Snapshot) (e : Err) (w : World) :
    let compare : RegistryM Unit := if ∃ c ∈ current, staged.version ≤ c.version then pure ()
      else unless (Compat.check current staged).isEmpty do throw e
    compare.exec w = (.ok (), w) ∧ Passes staged current ∨
      (∃ e, compare.exec w = (.error e, w)) ∧ ¬ Passes staged current := by
  intro compare
  by_cases hold : ∃ c ∈ current, staged.version ≤ c.version
  · refine .inl ⟨?_, .inl hold⟩
    simp only [compare, if_pos hold]
    rfl
  · by_cases hok : (Compat.check current staged).isEmpty = true
    · refine .inl ⟨?_, .inr (List.isEmpty_iff.mp hok)⟩
      simp only [compare, if_neg hold, if_pos hok]
      rfl
    · refine .inr ⟨⟨e, ?_⟩, fun hpass => hpass.elim hold fun h => hok (List.isEmpty_iff.mpr h)⟩
      simp only [compare, if_neg hold, if_neg hok]
      rfl

theorem exec_checkStaged (ns sc : String) (w : World) :
    (checkStaged ns sc).exec w = (.ok (), w) ∧
        (∀ staged, w.memory.staged ns sc = some staged → Passes staged (w.memory.current ns sc)) ∨
      (∃ e, (checkStaged ns sc).exec w = (.error e, w)) ∧
        ¬ ∀ staged, w.memory.staged ns sc = some staged → Passes staged (w.memory.current ns sc) := by
  unfold checkStaged
  rw [RegistryM.exec, execute_bind_of_ok (exec_mem (.staged ns sc) w)]
  simp only [Namespaces.perform]
  cases w.memory.staged ns sc with
  | none => exact .inl ⟨rfl, fun _ h => by cases h⟩
  | some staged =>
    dsimp only
    rw [execute_bind_of_ok (exec_mem (.current ns sc) w)]
    simp only [Namespaces.perform, Option.some.injEq, forall_eq']
    exact exec_compare _ staged _ w

structure AcceptsPromotion (r : Registry) (w : World) (ns : String) : Prop where
  authorized : r.authz.canPromote ns = .ok ()
  found : (w.memory.namespaces.get ns).isSome
  promotable : w.memory.Promotable ns

theorem exec_checkAllStaged (ns : String) (ids : List String) (w : World) :
    (ids.forM (checkStaged ns)).exec w = (.ok ⟨⟩, w) ∧
        (∀ sc ∈ ids, ∀ staged, w.memory.staged ns sc = some staged → Passes staged (w.memory.current ns sc)) ∨
      (∃ e, (ids.forM (checkStaged ns)).exec w = (.error e, w)) ∧
        ¬ ∀ sc ∈ ids, ∀ staged, w.memory.staged ns sc = some staged → Passes staged (w.memory.current ns sc) := by
  induction ids with
  | nil => exact .inl ⟨rfl, by simp⟩
  | cons id ids ih =>
    rw [RegistryM.exec, execute_forM_cons, List.forall_mem_cons]
    obtain ⟨hcheck, hpass⟩ | ⟨⟨e, hcheck⟩, hnot⟩ := exec_checkStaged ns id w
    · rw [execute_bind_of_ok hcheck]
      obtain ⟨hrest, hall⟩ | ⟨hrest, hnot⟩ := ih
      · exact .inl ⟨hrest, hpass, hall⟩
      · exact .inr ⟨hrest, fun h => hnot h.2⟩
    · exact .inr ⟨⟨e, execute_bind_of_error hcheck⟩, fun h => hnot h.1⟩

theorem exec_promote (r : Registry) (ns : String) (w : World) :
    r.AcceptsPromotion w ns ∧ (∃ promoted, (r.promote ns).exec w =
        (.ok promoted, ⟨(w.store.promote ns).2, w.memory.promoteAll ns⟩)) ∨
      ¬ r.AcceptsPromotion w ns ∧ ∃ e, (r.promote ns).exec w = (.error e, w) := by
  have hauthz : execute World.perform (liftExcept (r.authz.canPromote ns) : RegistryM Unit) w =
      (r.authz.canPromote ns, w) := execute_liftExcept ..
  cases hcan : r.authz.canPromote ns with
  | error e =>
    refine .inr ⟨fun h => ?_, e, execute_bind_of_error (hauthz.trans (by rw [hcan]))⟩
    cases hcan.symm.trans h.authorized
  | ok u =>
    replace hauthz := hauthz.trans (congrArg (·, w) hcan)
    unfold promote
    rw [RegistryM.exec, execute_bind_of_ok hauthz, execute_bind_of_ok (exec_mem (.get ns) w)]
    by_cases hfound : (w.memory.namespaces.get ns).isSome = true
    · simp only [Namespaces.perform, hfound, if_true]
      -- a schema with a staged snapshot is among those the loop visits
      have hids : w.memory.Promotable ns ↔ ∀ sc ∈ w.memory.schemaIDs ns, ∀ staged,
          w.memory.staged ns sc = some staged → Passes staged (w.memory.current ns sc) := by
        refine ⟨fun h sc _ => h sc, fun h sc staged hstaged => h sc ?_ staged hstaged⟩
        obtain ⟨slot, hslot, -⟩ := Option.bind_eq_some_iff.mp hstaged
        exact Namespaces.mem_schemaIDs.mpr (by rw [hslot]; rfl)
      rw [execute_bind_of_ok (exec_mem (.schemaIDs ns) w)]
      obtain ⟨hchecks, hall⟩ | ⟨⟨e, hchecks⟩, hnot⟩ := exec_checkAllStaged ns (w.memory.schemaIDs ns) w
      · refine .inl ⟨⟨hcan, hfound, hids.mpr hall⟩, (w.store.promote ns).1, ?_⟩
        refine (execute_bind_of_ok hchecks).trans ?_
        refine (execute_bind_of_ok (exec_wrap_of (exec_store (.promote ns) w) _)).trans ?_
        refine (execute_bind_of_ok (exec_mem (.schemaIDs ns) _)).trans ?_
        exact execute_bind_of_ok (exec_forM_memory (exec_promoteSlot ns) _ _)
      · exact .inr ⟨fun h => hnot (hids.mp h.promotable), e, execute_bind_of_error hchecks⟩
    · simp only [Namespaces.perform, hfound]
      exact .inr ⟨fun h => hfound h.found, _, rfl⟩

end Registry

def Registry.Leaves (r : Registry) (ns : String) (w : World) : Call → Prop
  | .promote a => a = ns → r.AcceptsPromotion w ns → w.NothingStaged ns
  | .discardStaging a => a = ns → w.NothingStaged ns
  | .rollback a sc v force => a = ns → ∀ snap, r.RollsBackTo w ns sc v force snap → w.HasStaged ns sc v snap
  | _ => True

namespace Registry

variable {r : Registry} {w : World} {ns : String}

theorem leaves_of_not_targets {c : Call} (hc : ¬ c.Targets ns) : r.Leaves ns w c := by
  cases c with
  | promote a => exact fun ha => (hc ha).elim
  | discardStaging a => exact fun ha => (hc ha).elim
  | rollback a sc v force => exact fun ha => (hc ha).elim
  | _ => trivial

theorem sameVersions_promote_iff : w.SameVersions ns (r.exec (.promote ns) w).2 ↔ r.Leaves ns w (.promote ns) := by
  obtain ⟨haccepts, promoted, hexec⟩ | ⟨hnot, e, hexec⟩ := r.exec_promote ns w
  · have hstate : (r.exec (.promote ns) w).2 = ⟨(w.store.promote ns).2, w.memory.promoteAll ns⟩ :=
      congrArg Prod.snd (execute_bind_of_ok hexec)
    rw [hstate]
    exact ⟨fun h _ _ => .of_sameVersions_promote h, fun h => ((h rfl haccepts).sameState_promote).sameVersions ns⟩
  · have hstate : (r.exec (.promote ns) w).2 = w := congrArg Prod.snd (execute_bind_of_error hexec)
    rw [hstate]
    exact ⟨fun _ _ haccepts => (hnot haccepts).elim, fun _ => .refl ns w⟩

theorem sameVersions_discardStaging_iff :
    w.SameVersions ns (r.exec (.discardStaging ns) w).2 ↔ r.Leaves ns w (.discardStaging ns) := by
  rw [snd_exec_discardStaging]
  exact ⟨fun h _ => .of_sameVersions h, fun h => ((h rfl).sameState).sameVersions ns⟩

theorem sameVersions_rollback_iff :
    w.SameVersions ns (r.exec (.rollback ns sc v force) w).2 ↔ r.Leaves ns w (.rollback ns sc v force) := by
  obtain ⟨snap, hroll, hstate⟩ | ⟨hnone, hstate⟩ := r.snd_exec_rollback ns sc v force w
  · rw [hstate]
    refine ⟨fun h _ snap' hroll' => ?_, fun h => ((h rfl snap hroll).sameState).sameVersions ns⟩
    rw [hroll.unique hroll']
    exact .of_sameVersions h
  · rw [hstate]
    exact ⟨fun _ _ snap hroll => (hnone snap hroll).elim, fun _ => .refl ns w⟩

theorem sameVersions_exec_iff {c : Call} (hc : ∀ sc, ¬ c.Publishes ns sc) :
    w.SameVersions ns (r.exec c w).2 ↔ r.Leaves ns w c := by
  by_cases htargets : c.Targets ns
  · cases c with
    | publish req => exact (hc req.schemaID ⟨htargets, rfl⟩).elim
    | rebase a sc => exact (hc sc ⟨htargets, rfl⟩).elim
    | promote a =>
      cases htargets
      exact sameVersions_promote_iff
    | discardStaging a =>
      cases htargets
      exact sameVersions_discardStaging_iff
    | rollback a sc v force =>
      cases htargets
      exact sameVersions_rollback_iff
    | createNamespace a p actor => exact htargets.elim
    | setNamespaceParent a p actor => exact htargets.elim
  · exact iff_of_true (sameVersions_exec (r.run_spares htargets) w) (leaves_of_not_targets htargets)

end Registry

/-! ## Requests -/

theorem Within.translating {A : Op → Prop} {C : (op : Op) → op.Res → Prop} {x : RegistryM α} {Q : α → Prop}
    (hx : Scoped A C x Q) (f : Err → Status) : Within (I := registryInterface) A C (translating f x) Q := by
  refine Prog.Relies.bind (Prog.Relies.mono hx fun res hres a ha => ?_)
  cases res with
  | error e => cases ha
  | ok b => exact hres a (mapError_eq_ok.mp ha)

theorem snd_execute_translating (f : Err → Status) (x : RegistryM α) (w : World) :
    (execute World.perform (translating f x) w).2 = (x.exec w).2 :=
  congrArg Prod.snd (execute_translating_of rfl f)

namespace Server

variable {s : Server} {id : Identity} {w : World}

def whenOk (check : Except Status Unit) (c : Call) : Option Call :=
  match check with
  | .ok _ => some c
  | .error _ => none

/-- The call of the registry that a request makes. -/
def callOf (s : Server) (id : Identity) : Rpc → Option Call
  | .publish req => whenOk (s.checkPublish id req) (.publish req)
  | .promote ns => whenOk (s.checkNamespaceWrite id ns) (.promote ns)
  | .discardStaging ns => whenOk (s.checkNamespaceWrite id ns) (.discardStaging ns)
  | .rollback ns sc v force => whenOk (s.checkRollback id ns sc v force) (.rollback ns sc v force)
  | .createNamespace n p => whenOk (s.checkCreateNamespace id n p) (.createNamespace n p id.subject)
  | .setNamespaceParent ns p => whenOk (s.checkSetNamespaceParent id ns p) (.setNamespaceParent ns p id.subject)
  | .rebase ns sc => whenOk (do s.requireWriter id; s.checkSchema ns sc) (.rebase ns sc)
  | _ => none

theorem snd_execute_checked {check : Except Status Unit} {x : RegistryM α} {y : ServerM β} (c : Call) {g : α → Reply}
    {g' : β → Response} (hy : ∀ w, (execute World.perform y w).2 = (x.exec w).2)
    (hrun : s.registry.run c = (do return g (← x))) (w : World) :
    (execute World.perform (do return g' (← (do liftExcept check; y))) w).2 =
      (whenOk check c).elim w fun c => (s.registry.exec c w).2 := by
  refine (snd_execute_bind_pure _ _ w).trans ?_
  have hcheck : execute World.perform (liftExcept check : ServerM Unit) w = (check, w) := execute_liftExcept ..
  cases check with
  | error e => rw [execute_bind_of_error hcheck]; rfl
  | ok u =>
    rw [execute_bind_of_ok hcheck, hy]
    refine (snd_execute_bind_pure x g w).symm.trans ?_
    rw [whenOk, Option.elim_some, Registry.exec, hrun]

theorem getSchema_keeps (ns sc : String) : Uses Op.Keeps (s.getSchema ns sc) := by
  refine (Uses.liftExcept _).bind fun _ => ((uses_store fun _ => rfl).translating _).bind fun schema _ => ?_
  exact ((uses_store fun _ => rfl).translating _).bind fun versions _ => .pure trivial

section
variable {A : Op → Prop} {C : (op : Op) → op.Res → Prop} {ns sc : String} (hget : A (.mem (.get ns)))
  (hcurrent : A (.mem (.current ns sc)))
include hget hcurrent

theorem resolveVersion_scoped (v : Nat) :
    Within (I := registryInterface) A C (resolveVersion ns sc v) fun _ => True := by
  unfold resolveVersion
  split
  · exact .pure trivial
  · refine Within.bind (Within.translating (Q := fun _ => True) ?_ _) fun current _ => ?_
    · refine (scoped_mem hget).bind fun found _ => ?_
      cases found with
      | false => exact .pure trivial
      | true => exact (scoped_mem hcurrent).done
    · cases current with
      | none => exact .throw _
      | some snap => exact .pure trivial

theorem getSource_scoped (hfiles : ∀ v, A (.store (.getVersionFiles ns sc v)))
    (hblob : ∀ sha, A (.store (.getBlob ns sha))) (v : Nat) :
    Within (I := registryInterface) A C (s.getSource ns sc v) fun res =>
      ∃ v files, C (.store (.getVersionFiles ns sc v)) (.ok files) ∧ ∀ path source, res.sources.get path = some source →
        ∃ f ∈ files, f.filename = path ∧ C (.store (.getBlob ns f.blobSHA256)) (.ok source) := by
  refine Within.bind (Within.liftExcept (P := fun _ => True) fun _ _ => trivial) fun _ _ => ?_
  refine (resolveVersion_scoped hget hcurrent v).bind fun v _ => ?_
  refine ((scoped_store (hfiles v)).translating _).bind fun files hread => ?_
  refine Within.bind (Within.mapM (Q := fun f e => f.filename = e.1 ∧ C (.store (.getBlob ns f.blobSHA256)) (.ok e.2))
    fun f _ => ?_) fun entries hentries => .pure ⟨v, files, hread, fun path source hsource => ?_⟩
  · exact ((scoped_store (hblob _)).translating _).bind fun source hsource => .pure ⟨rfl, hsource⟩
  · exact hentries (path, source) (Dict.mem_of_get_ofAssignments hsource)

end

theorem getDescriptor_keeps (ns sc : String) (v : Nat) : Uses Op.Keeps (s.getDescriptor ns sc v) := by
  refine (Uses.liftExcept _).bind fun _ =>
    (resolveVersion_scoped (fun _ => rfl) (fun _ => rfl) v).bind fun version _ => ?_
  exact ((uses_store fun _ => rfl).translating _).bind fun row _ => .pure trivial

/-- **The server adds checks to the registry.** A request changes what the call it makes changes, and nothing
when it makes none. -/
theorem snd_handle (s : Server) (id : Identity) (rpc : Rpc) (w : World) :
    (s.handle id rpc w).2 = (s.callOf id rpc).elim w fun c => (s.registry.exec c w).2 := by
  have hread : ∀ {α} {x : ServerM α} (g : α → Response), Uses Op.Keeps x →
      (execute World.perform (do return g (← x)) w).2 = w :=
    fun g hx => snd_execute_of_keeps (hx.bind fun _ => .pure _) w
  have hpublished : ∀ (f : Err → Status) (x : RegistryM PublishResult) (w : World),
      (execute World.perform (do return (← translating f x).toResponse) w).2 = (x.exec w).2 :=
    fun f x w => (snd_execute_bind_pure _ _ w).trans (snd_execute_translating f x w)
  cases rpc with
  | publish req => exact snd_execute_checked (.publish req) (hpublished _ _) rfl w
  | promote ns => exact snd_execute_checked (.promote ns) (snd_execute_translating _ _) rfl w
  | discardStaging ns => exact snd_execute_checked (.discardStaging ns) (snd_execute_translating _ _) rfl w
  | rollback ns sc v force => exact snd_execute_checked (.rollback ns sc v force) (snd_execute_translating _ _) rfl w
  | createNamespace n p => exact snd_execute_checked (.createNamespace n p _) (snd_execute_translating _ _) rfl w
  | setNamespaceParent ns p =>
    exact snd_execute_checked (.setNamespaceParent ns p _) (snd_execute_translating _ _) rfl w
  | rebase ns sc => exact snd_execute_checked (.rebase ns sc) (hpublished _ _) rfl w
  | getSchema ns sc => exact hread .schema (getSchema_keeps ns sc)
  | getDescriptor ns sc v => exact hread .descriptor (getDescriptor_keeps ns sc v)
  | getSource ns sc v =>
    exact hread .source (getSource_scoped (fun _ => rfl) (fun _ => rfl) (fun _ _ => rfl) (fun _ _ => rfl) v).done
  | getNamespaceChain ns =>
    exact hread .chain ((Uses.liftExcept _).bind fun _ => (Registry.getNamespaceChain_keeps ns).translating _)
  | getRebaseStatus ns sc =>
    exact hread .rebaseStatus ((Uses.liftExcept _).bind fun _ => (Registry.getRebaseStatus_keeps ns sc).translating _)
  | listSchemas ns size token => rfl
  | listNamespaces size token => rfl

theorem checkPublish_builtins (hid : id.admin = false) {req : PublishRequest}
    (hns : req.namespaceID = builtinsNamespace) :
    s.checkPublish id req ≠ .ok u := by
  intro h
  obtain ⟨_, -, h⟩ := except_bind_eq_ok.mp h
  obtain ⟨_, -, h⟩ := except_bind_eq_ok.mp h
  obtain ⟨_, -, h⟩ := except_bind_eq_ok.mp h
  obtain ⟨_, -, h⟩ := except_bind_eq_ok.mp h
  rw [if_pos hns] at h
  obtain ⟨_, hadmin, -⟩ := except_bind_eq_ok.mp h
  simp [requireAdmin, hid] at hadmin

theorem checkSchema_builtins : s.checkSchema builtinsNamespace sc ≠ .ok u := by
  intro h
  obtain ⟨_, hns, -⟩ := except_bind_eq_ok.mp h
  exact absurd (validateID_eq_ok.mp hns).2.2 (by decide)

theorem mem_whenOk {check : Except Status Unit} {c c' : Call} : c' ∈ whenOk check c ↔ check = .ok () ∧ c' = c := by
  cases check <;> simp [whenOk, eq_comm]

theorem not_publishes_of_callOf (hid : id.admin = false) {rpc : Rpc} {c : Call}
    (hc : c ∈ s.callOf id rpc) (sc : String) :
    ¬ c.Publishes builtinsNamespace sc := by
  intro hpublishes
  cases rpc with
  | publish req =>
    obtain ⟨hcheck, rfl⟩ := mem_whenOk.mp hc
    exact checkPublish_builtins hid hpublishes.1 hcheck
  | rebase ns sc' =>
    obtain ⟨hcheck, rfl⟩ := mem_whenOk.mp hc
    obtain ⟨_, -, hcheck⟩ := except_bind_eq_ok.mp hcheck
    cases hpublishes.1
    exact checkSchema_builtins hcheck
  | promote | discardStaging | rollback | createNamespace | setNamespaceParent =>
    obtain ⟨-, rfl⟩ := mem_whenOk.mp hc
    exact hpublishes
  | _ => cases hc

/-- The request does not move anything of the builtins: the call that it makes, if it makes one, has nothing
to move there. -/
def SparesBuiltins (s : Server) (w : World) (req : Identity × Rpc) : Prop :=
  ∀ c ∈ s.callOf req.1 req.2, s.registry.Leaves builtinsNamespace w c

theorem sameVersions_handle_iff (hid : id.admin = false) (rpc : Rpc) (w : World) :
    w.SameVersions builtinsNamespace (s.handle id rpc w).2 ↔ s.SparesBuiltins w (id, rpc) := by
  rw [snd_handle, SparesBuiltins]
  cases hcall : s.callOf id rpc with
  | none => exact iff_of_true (.refl _ w) (by simp)
  | some c =>
    rw [Option.elim_some, Registry.sameVersions_exec_iff (not_publishes_of_callOf hid hcall)]
    simp

def handleAll (s : Server) (reqs : List (Identity × Rpc)) (w : World) : World :=
  reqs.foldl (fun w req => (s.handle req.1 req.2 w).2) w

/-- Each request spares the builtins in the world it is handled in. -/
def SpareBuiltins (s : Server) : World → List (Identity × Rpc) → Prop
  | _, [] => True
  | w, req :: reqs => s.SparesBuiltins w req ∧ s.SpareBuiltins (s.handle req.1 req.2 w).2 reqs

/-- **Protection of the builtins.** Requests of callers who are not admins leave them alone all along exactly
when each spares them. -/
theorem builtins_same_iff (s : Server) {reqs : List (Identity × Rpc)} (hids : ∀ req ∈ reqs, req.1.admin = false)
    (w : World) : (∀ k, w.SameVersions builtinsNamespace (s.handleAll (reqs.take k) w)) ↔ s.SpareBuiltins w reqs := by
  induction reqs generalizing w with
  | nil => exact iff_of_true (fun _ => by simpa [handleAll] using .refl _ w) trivial
  | cons req reqs ih =>
    have hstep := sameVersions_handle_iff (s := s) (hids req (List.mem_cons_self ..)) req.2 w
    have hrest := ih (fun req hreq => hids req (List.mem_cons_of_mem _ hreq)) (s.handle req.1 req.2 w).2
    refine ⟨fun h => ⟨hstep.mp (h 1), hrest.mp fun k => (h 1).symm.trans (h (k + 1))⟩, fun ⟨hreq, hreqs⟩ k => ?_⟩
    cases k with
    | zero => exact .refl _ w
    | succ k => exact (hstep.mpr hreq).trans (hrest.mpr hreqs k)

end Server

/-- A writer tries to publish builtins, and promotes another namespace. -/
theorem builtins_same_writer :
    let s := Sample.service Sample.registry
    let w := (s.handle ⟨"root", true⟩ (.publish (Sample.builtin [1])) .empty).2
    w.store.pointers builtinsNamespace "b" = ⟨none, some 1⟩ ∧ ∀ k, w.SameVersions builtinsNamespace (s.handleAll
      ([(⟨"alice", false⟩, .publish (Sample.builtin [2])), (⟨"alice", false⟩, .promote "n")].take k) w) := by
  intro s w
  have hspare : s.SpareBuiltins w [(⟨"alice", false⟩, .publish (Sample.builtin [2])),
      (⟨"alice", false⟩, .promote "n")] := by
    refine ⟨fun c hc => ?_, fun c hc => ?_, trivial⟩
    · simp only [Server.callOf, Server.mem_whenOk] at hc
      obtain ⟨-, rfl⟩ := hc
      trivial
    · simp only [Server.callOf, Server.mem_whenOk] at hc
      obtain ⟨-, rfl⟩ := hc
      exact fun hns => absurd hns (by decide)
  refine ⟨by decide +kernel, (s.builtins_same_iff (fun req hreq => ?_) w).mpr hspare⟩
  simp only [List.mem_cons, List.not_mem_nil, or_false] at hreq
  obtain rfl | rfl := hreq <;> rfl

/-- What an admin has staged in the builtins is promoted by a writer. -/
theorem builtins_promoted_by_writer :
    let s := { Sample.service Sample.registry with allowAnonymousWrites := false }
    let w := (s.handle ⟨"root", true⟩ (.publish (Sample.builtin [1])) .empty).2
    w.store.pointers builtinsNamespace "b" = ⟨none, some 1⟩ ∧
      (s.handle ⟨"alice", false⟩ (.promote builtinsNamespace) w).2.store.pointers builtinsNamespace "b" =
        ⟨some 1, none⟩ := by
  decide +kernel

end ProtoRegistry
