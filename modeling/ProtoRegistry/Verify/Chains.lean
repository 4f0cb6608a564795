import ProtoRegistry.Verify.Footprint

/-!
# The chain in memory

Memory has every namespace of the store with its stored parent: after every call, whether it succeeds or
not, and after a restart, also when `Restore` fails half way (`hasHierarchy_run`). So the chain of a
namespace is the walk up the stored parents, as far as `Chain` goes.
-/

namespace ProtoRegistry
open RegistryM

/-! ## Climbing the parents -/

/-- `Chain` climbs the parents, when it does not meet a namespace that it has listed already. -/
theorem chainOf_eq_walk {parent : String → Option String} (n : Nat) (cur : String) (chain : List String)
    (hnodup : (chain ++ walk parent n cur).Nodup) : chainOf parent n cur chain = chain ++ walk parent n cur := by
  induction n generalizing cur chain with
  | zero => exact (List.append_nil chain).symm
  | succ n ih =>
    have hcur : cur ∉ chain := fun hmem => by
      rw [walk, List.nodup_append] at hnodup
      exact hnodup.2.2 cur hmem cur (List.mem_cons_self ..) rfl
    rw [chainOf, if_neg hcur, walk]
    cases hp : parent cur with
    | none => rfl
    | some p =>
      rw [walk, hp, List.append_cons] at hnodup
      exact (ih p _ hnodup).trans (List.append_cons ..).symm

/-! ## What the operations keep -/

/-- Memory has the namespaces of the store. -/
def World.MirrorsNamespaces (w : World) : Prop :=
  ∀ n, (w.store.namespaces.get n).isSome → (w.memory.namespaces.get n).isSome

structure World.MirrorsHierarchy (w : World) : Prop where
  parents : w.MirrorsParents
  found : w.MirrorsNamespaces

/-- The operation does not create a row of a namespace. -/
def Op.CreatesNothing : Op → Prop
  | .store (.createNamespace ..) => False
  | _ => True

/-- The operation does not write a parent either. -/
def Op.KeepsHierarchy : Op → Prop
  | .store (.createNamespace ..) | .store (.setNamespaceParent ..) | .mem (.setParent ..) => False
  | _ => True

section
variable {w : World} {op : Op}

theorem Op.KeepsHierarchy.createsNothing (hop : op.KeepsHierarchy) : op.CreatesNothing := by
  unfold Op.CreatesNothing
  split
  · exact hop
  · trivial

theorem Store.parentOf_congr {s s' : Store} (h : s'.namespaces = s.namespaces) : s'.parentOf = s.parentOf := by
  funext id
  rw [parentOf, parentOf, h]

theorem Store.isSome_setNamespaceParent (s : Store) (n : String) (q : Option String) (actor id : String) :
    ((s.setNamespaceParent n q actor).2.namespaces.get id).isSome = (s.namespaces.get id).isSome := by
  obtain ⟨row, -, -, heq⟩ | ⟨-, heq⟩ | ⟨p, -, -, -, -, heq⟩ := s.setNamespaceParent_cases n q actor
  · rw [heq]
    exact isSome_writeParent q id
  · rw [heq]
  · rw [heq]

theorem World.MirrorsNamespaces.perform (hw : w.MirrorsNamespaces) (hop : op.CreatesNothing) :
    (World.perform op w).2.MirrorsNamespaces := by
  intro n hn
  cases op with
  | mem op => exact Namespaces.isSome_perform op (hw n hn)
  | store op =>
    refine hw n ?_
    by_cases hset : ∃ m p actor, op = .setNamespaceParent m p actor
    · obtain ⟨m, p, actor, rfl⟩ := hset
      exact (w.store.isSome_setNamespaceParent m p actor n).symm ▸ hn
    · have hsame : (w.store.perform op).2.namespaces = w.store.namespaces := by
        refine Store.namespaces_perform ?_ fun m p actor heq => hset ⟨m, p, actor, heq⟩
        rintro m p rfl
        exact hop
      exact hsame ▸ hn

theorem World.MirrorsHierarchy.perform (hw : w.MirrorsHierarchy) (hop : op.KeepsHierarchy) :
    (World.perform op w).2.MirrorsHierarchy := by
  refine ⟨?_, hw.found.perform hop.createsNothing⟩
  cases op with
  | mem op =>
    refine (Namespaces.parent_perform ?_).trans hw.parents
    rintro n p rfl
    exact hop
  | store op =>
    have hsame : (w.store.perform op).2.namespaces = w.store.namespaces := by
      refine Store.namespaces_perform ?_ ?_
      · rintro n p rfl
        exact hop
      · rintro n p actor rfl
        exact hop
    exact hw.parents.trans (Store.parentOf_congr hsame).symm

theorem mirrorsHierarchy_of_uses {x : RegistryM α} (hx : Uses Op.KeepsHierarchy x) (hw : w.MirrorsHierarchy) :
    (x.exec w).2.MirrorsHierarchy :=
  inv_of_uses hx (fun _ _ hop hw => hw.perform hop) hw rfl

theorem Op.IsRead.keepsHierarchy (hop : op.IsRead) : op.KeepsHierarchy := by
  unfold Op.KeepsHierarchy
  split <;> first | exact hop | trivial

theorem Op.Stores.keepsHierarchy (hop : op.Stores ns sc) : op.KeepsHierarchy := by
  unfold Op.KeepsHierarchy
  split <;> first | exact hop | trivial

theorem Op.Discards.keepsHierarchy (hop : op.Discards ns) : op.KeepsHierarchy := by
  unfold Op.KeepsHierarchy
  split <;> first | exact hop | trivial

theorem Op.Promotes.keepsHierarchy (hop : op.Promotes ns) : op.KeepsHierarchy := by
  unfold Op.KeepsHierarchy
  split <;> first | exact hop | trivial

def Call.MovesPointers : Call → Prop
  | .rollback .. | .discardStaging _ | .promote _ => True
  | _ => False

theorem Call.MayPerform.keepsHierarchy {c : Call} (hop : c.MayPerform op) (hc : c.MovesPointers) :
    op.KeepsHierarchy := by
  cases c with
  | rollback ns sc v force =>
    obtain hread | rfl | rfl | hstores := hop
    · exact hread.keepsHierarchy
    · trivial
    · trivial
    · exact hstores.stores.keepsHierarchy
  | discardStaging ns => exact hop.elim (·.keepsHierarchy) (·.keepsHierarchy)
  | promote ns => exact Op.Promotes.keepsHierarchy hop
  | publish | rebase | createNamespace | setNamespaceParent => exact hc.elim

end

/-! ## Calls -/

namespace Registry

variable {r : Registry} {w : World} {ns sc : String}

theorem mirrorsHierarchy_insertRoot (hw : w.MirrorsHierarchy) (hns : w.store.namespaces.get ns = none) :
    World.MirrorsHierarchy ⟨w.store.insertRoot ns, w.memory.getOrCreate ns⟩ where
  parents := by
    change (w.memory.getOrCreate ns).parent = (w.store.insertRoot ns).parentOf
    rw [Namespaces.parent_getOrCreate, Store.parentOf_insertRoot hns, hw.parents]
  found n hn := by
    rcases eq_or_ne n ns with rfl | hne
    · exact Namespaces.isSome_getOrCreate n
    · refine Namespaces.isSome_perform (.getOrCreate ns) (hw.found n ?_)
      exact Dict.get_set_of_ne w.store.namespaces _ hne ▸ hn

theorem exec_ensureRow_create (get create : StoreOp) {s : Store} {u : create.Val}
    (hget : ∀ s : Store, (s.perform get).2 = s) (hmissing : (w.store.perform get).1 = .error e)
    (hcreate : w.store.perform create = (.ok u, s)) (context : String) :
    (ensureRow get create context).exec w = (.ok (), ⟨s, w.memory⟩) := by
  have hfirst := exec_attempt_read hget w
  rw [hmissing] at hfirst
  refine (execute_bind_of_ok hfirst).trans ?_
  have hsecond : (attempt (store create)).exec w = (.ok (.ok u), ⟨s, w.memory⟩) := by
    refine (exec_attempt _ w).trans ?_
    change (Except.ok (w.store.perform create).1, (⟨(w.store.perform create).2, w.memory⟩ : World)) = _
    rw [hcreate]
  exact execute_bind_of_ok hsecond

theorem exec_ensureNamespace (w : World) (ns : String) :
    ∃ s : Store, (ensureRow (.getNamespace ns) (.createNamespace ns none) "creating namespace").exec w =
        (.ok (), ⟨s, w.memory⟩) ∧ (s = w.store ∧ (w.store.namespaces.get ns).isSome ∨
      w.store.namespaces.get ns = none ∧ s = w.store.insertRoot ns) := by
  cases hns : w.store.namespaces.get ns with
  | some row =>
    have hrow : ∃ row, w.store.getNamespace ns = .ok row := Store.getNamespace_eq_ok.mpr (by rw [hns]; rfl)
    exact ⟨w.store, exec_ensureRow (.getNamespace ns) _ (fun _ => rfl) hrow _, .inl ⟨rfl, rfl⟩⟩
  | none =>
    have hmissing : w.store.getNamespace ns = .error (errNoRows.wrap ("getting namespace " ++ ns)) := by
      simp [Store.getNamespace, hns]
    have hcreate : w.store.perform (.createNamespace ns none) = (.ok (), w.store.insertRoot ns) :=
      Store.createNamespace_of_missing hns
    exact ⟨_, exec_ensureRow_create (.getNamespace ns) _ (fun _ => rfl) hmissing hcreate _, .inr ⟨rfl, rfl⟩⟩

theorem exec_ensureSchema (ns sc : String) (hns : (w.store.namespaces.get ns).isSome) :
    ∃ s : Store, (ensureRow (.getSchema ns sc) (.createSchema ns sc) "creating schema").exec w =
        (.ok (), ⟨s, w.memory⟩) ∧ (s = w.store ∧ (w.store.schemas.get (ns, sc)).isSome ∨
      w.store.schemas.get (ns, sc) = none ∧
        s = { w.store with schemas := w.store.schemas.set (ns, sc) ⟨none, none⟩ }) := by
  cases hsc : w.store.schemas.get (ns, sc) with
  | some row =>
    have hrow : ∃ row, w.store.getSchema ns sc = .ok row := Store.getSchema_eq_ok.mpr (by rw [hsc]; rfl)
    exact ⟨w.store, exec_ensureRow (.getSchema ns sc) _ (fun _ => rfl) hrow _, .inl ⟨rfl, rfl⟩⟩
  | none =>
    have hmissing : w.store.getSchema ns sc = .error (errNoRows.wrap ("getting schema " ++ ns ++ "/" ++ sc)) := by
      simp [Store.getSchema, hsc]
    have hcreate : w.store.createSchema ns sc =
        (.ok (), { w.store with schemas := w.store.schemas.set (ns, sc) ⟨none, none⟩ }) := by
      simp [Store.createSchema, hsc, Option.isSome_iff_ne_none.mp hns]
    exact ⟨_, exec_ensureRow_create (.getSchema ns sc) (.createSchema ns sc) (fun _ => rfl) hmissing hcreate _,
      .inr ⟨rfl, rfl⟩⟩

theorem exec_ensureNamespaceAndSchema_ok (hw : w.MirrorsHierarchy) (ns sc : String) :
    ∃ s : Store, (ensureNamespaceAndSchema ns sc).exec w = (.ok (), ⟨s, w.memory⟩) ∧
      World.MirrorsHierarchy ⟨s, w.memory.getOrCreate ns⟩ := by
  obtain ⟨s₁, hs₁, hrow⟩ := exec_ensureNamespace w ns
  have hmirrors : World.MirrorsHierarchy ⟨s₁, w.memory.getOrCreate ns⟩ ∧ (s₁.namespaces.get ns).isSome := by
    obtain ⟨rfl, hns⟩ | ⟨hns, rfl⟩ := hrow
    · rw [Namespaces.getOrCreate_of_isSome (hw.found ns hns)]
      exact ⟨hw, hns⟩
    · exact ⟨mirrorsHierarchy_insertRoot hw hns, by simp [Store.insertRoot]⟩
  obtain ⟨s₂, hs₂, hschema⟩ := exec_ensureSchema (w := ⟨s₁, w.memory⟩) ns sc hmirrors.2
  have hsame : s₂.namespaces = s₁.namespaces := by
    obtain ⟨rfl, -⟩ | ⟨-, rfl⟩ := hschema <;> rfl
  refine ⟨s₂, (execute_bind_of_ok hs₁).trans hs₂, ?_, fun n hn => hmirrors.1.found n (hsame ▸ hn)⟩
  exact hmirrors.1.parents.trans (Store.parentOf_congr hsame).symm

theorem mirrorsHierarchy_publishInternal (hw : w.MirrorsHierarchy) (req : PublishRequest) (opts : PublishOpts) :
    ((r.publishInternal req opts).exec w).2.MirrorsHierarchy := by
  refine publishInternal_inv (fun w hw => ?_) (fun _ hw => ?_) hw opts
  · obtain ⟨s, hrows, hs⟩ := exec_ensureNamespaceAndSchema_ok hw req.namespaceID req.schemaID
    exact (congrArg Prod.snd (execute_bind_of_ok hrows)).symm ▸ hs
  · exact mirrorsHierarchy_of_uses ((storeVersion_uses ..).mono fun _ hop => hop.keepsHierarchy) hw

theorem mirrorsHierarchy_rebase (hw : w.MirrorsHierarchy) (ns sc : String) :
    ((r.rebase ns sc).exec w).2.MirrorsHierarchy :=
  rebase_inv (fun _ hw => mirrorsHierarchy_publishInternal hw ..) hw

theorem mirrorsNamespaces_of_uses {x : RegistryM α} (hx : Uses Op.CreatesNothing x) (hw : w.MirrorsNamespaces) :
    (x.exec w).2.MirrorsNamespaces :=
  inv_of_uses hx (fun _ _ hop hw => hw.perform hop) hw rfl

theorem mirrorsNamespaces_setNamespaceParent (hw : w.MirrorsNamespaces) (n : String) (q : Option String)
    (actor : String) : ((r.setNamespaceParent n q actor).exec w).2.MirrorsNamespaces := by
  exact mirrorsNamespaces_of_uses (setNamespaceParent_scoped r trivial trivial trivial fun _ _ => trivial).done hw

theorem mirrorsNamespaces_createNamespace (hw : w.MirrorsHierarchy) (n : String) (q : Option String)
    (actor : String) : ((r.createNamespace n q actor).exec w).2.MirrorsNamespaces := by
  refine execute_bind_inv (by rw [execute_liftExcept]; exact hw.found) fun _ w' hauth _ => ?_
  obtain ⟨-, rfl⟩ := Prod.mk.inj ((execute_liftExcept ..).symm.trans hauth)
  have hcreate : ((store (.createNamespace n none)).wrap ("creating namespace " ++ n)).exec w =
      ((w.store.createNamespace n none).1.mapError (·.wrap ("creating namespace " ++ n)),
        ⟨(w.store.createNamespace n none).2, w.memory⟩) := exec_wrap_of (exec_store ..) _
  cases hn : w.store.namespaces.get n with
  | some row =>
    rw [Store.createNamespace_of_exists (by rw [hn]; rfl)] at hcreate
    rw [execute_bind_of_error hcreate]
    exact hw.found
  | none =>
    rw [Store.createNamespace_of_missing hn] at hcreate
    rw [execute_bind_of_ok hcreate, execute_bind_of_ok (exec_mem (.getOrCreate n) _)]
    refine mirrorsNamespaces_of_uses ?_ (mirrorsHierarchy_insertRoot hw hn).found
    cases q with
    | none => exact .pure _
    | some p =>
      refine ((uses_store trivial).wrap _).bind fun _ _ => (uses_mem trivial).bind fun found => ?_
      cases found with
      | true => exact uses_mem trivial
      | false => exact (uses_mem trivial).bind fun _ => uses_mem trivial

/-- **A call that runs alone** keeps the hierarchy in memory the stored one, whether it succeeds or not. -/
theorem mirrorsHierarchy_exec (hw : w.MirrorsHierarchy) (c : Call) : (r.exec c w).2.MirrorsHierarchy := by
  have hpointers : c.MovesPointers → (r.exec c w).2.MirrorsHierarchy := fun hc =>
    mirrorsHierarchy_of_uses ((r.run_uses c).mono fun _ hop => hop.keepsHierarchy hc) hw
  cases c with
  | publish req =>
    refine execute_bind_inv (execute_bind_inv ?_ fun _ w₁ _ hw₁ => ?_) fun _ _ _ hw' => hw'
    · rwa [execute_liftExcept]
    · exact mirrorsHierarchy_publishInternal hw₁ req _
  | rebase ns sc => exact execute_bind_inv (mirrorsHierarchy_rebase hw ns sc) fun _ _ _ hw' => hw'
  | rollback => exact hpointers trivial
  | discardStaging => exact hpointers trivial
  | promote => exact hpointers trivial
  | createNamespace n q actor =>
    refine ⟨mirrorsParents_createNamespace hw.parents n q actor, ?_⟩
    exact execute_bind_inv (mirrorsNamespaces_createNamespace hw n q actor) fun _ _ _ hw' => hw'
  | setNamespaceParent n q actor =>
    refine ⟨mirrorsParents_setNamespaceParent hw.parents n q actor, ?_⟩
    exact execute_bind_inv (mirrorsNamespaces_setNamespaceParent hw.found n q actor) fun _ _ _ hw' => hw'

/-! ## Restarts -/

theorem mirrorsHierarchy_restoreSchema (hw : w.MirrorsHierarchy) (cs : CurrentSchema) :
    ((r.restoreSchema r.env.compilerVersion cs).exec w).2.MirrorsHierarchy := by
  obtain ⟨m, hbuild, hm⟩ := r.exec_buildSnapshot cs w
  refine execute_bind_inv (J := World.MirrorsHierarchy) ?_ fun snap w₁ _ hw₁ => ?_
  · refine (congrArg Prod.snd (exec_wrap_of hbuild _)).symm ▸ ?_
    obtain rfl | rfl := hm
    · exact hw
    · exact @World.MirrorsHierarchy.perform w (.mem (.getOrCreate cs.namespaceID)) hw trivial
  · refine mirrorsHierarchy_of_uses ?_ hw₁
    exact (uses_mem trivial).bind fun _ => (uses_mem trivial).bind fun _ => .pure _

theorem mirrorsHierarchy_restart (r : Registry) (hs : w.store.ParentsExist) : (r.restart w).2.MirrorsHierarchy := by
  obtain ⟨w₁, hw₁, hexec⟩ := r.exec_restore_wiring hs
  have hstart : w₁.MirrorsHierarchy := by
    refine ⟨hw₁.wired.parent.trans (by rw [hw₁.store]), fun n hn => ?_⟩
    rw [hw₁.store] at hn
    obtain ⟨row, hrow⟩ := Option.isSome_iff_exists.mp hn
    exact hw₁.rows (n, row) (Store.mem_listNamespaces.mpr hrow)
  change (r.restore.exec ⟨w.store, .empty⟩).2.MirrorsHierarchy
  rw [hexec]
  exact execute_forM_inv hstart fun cs _ hw => mirrorsHierarchy_restoreSchema hw cs

end Registry

/-- What happens to a registry: a call, or a restart of the process. -/
inductive Activity where
  | call (c : Call)
  | restart

/-- The world after an activity. -/
def Registry.live (r : Registry) (w : World) : Activity → World
  | .call c => (r.exec c w).2
  | .restart => (r.restart w).2

/-- The hierarchy in memory is the stored one, and complete. -/
structure World.HasHierarchy (w : World) : Prop where
  mirrors : w.MirrorsHierarchy
  parentsExist : w.store.ParentsExist

namespace Registry

variable {r : Registry} {w : World}

theorem parentsExist_exec {x : RegistryM α} (hs : w.store.ParentsExist) : (x.exec w).2.store.ParentsExist := by
  refine Prog.exec_inv World.perform (J := fun w => w.store.ParentsExist) (fun op w hw => ?_) x.run hs
  cases op with
  | store op => exact hw.perform op
  | mem op => exact hw

theorem hasHierarchy_live (hw : w.HasHierarchy) (a : Activity) : (r.live w a).HasHierarchy := by
  cases a with
  | call c => exact ⟨mirrorsHierarchy_exec hw.mirrors c, parentsExist_exec hw.parentsExist⟩
  | restart => exact ⟨mirrorsHierarchy_restart r hw.parentsExist, parentsExist_exec hw.parentsExist⟩

theorem hasHierarchy_run (r : Registry) (as : List Activity) : (as.foldl r.live .empty).HasHierarchy := by
  induction as using List.reverseRecOn with
  | nil => exact ⟨⟨rfl, fun n hn => nomatch hn⟩, Store.parentsExist_empty⟩
  | append_singleton as a ih =>
    rw [List.foldl_append]
    exact hasHierarchy_live ih a

/-- **The chain in memory is the stored one**: after every run of calls and restarts, while the stored
parents have no cycle, the chain of a namespace is its walk up the stored parents, cut after 64. -/
theorem getNamespaceChain_eq_walk (r : Registry) (as : List Activity) {ns : String} :
    let w := as.foldl r.live .empty
    (∀ id, ¬ Relation.TransGen (ParentLink w.store.parentOf) id id) → (w.store.namespaces.get ns).isSome →
      (getNamespaceChain ns).exec w = (.ok (walk w.store.parentOf 64 ns), w) ∧
        (walk w.store.parentOf 64 ns).Nodup := by
  intro w hacyclic hns
  have hw : w.HasHierarchy := hasHierarchy_run r as
  have hnodup : (walk w.store.parentOf 64 ns).Nodup := by
    refine Grounded.nodup_walk (grounded_of_acyclic (l := w.store.namespaces.keys) (fun x _ y hxy => ?_) hacyclic ?_) 64
    · obtain ⟨row, hrow⟩ := Option.isSome_iff_exists.mp (hw.parentsExist x y hxy)
      exact Dict.mem_keys_of_get hrow
    · obtain ⟨row, hrow⟩ := Option.isSome_iff_exists.mp hns
      exact Dict.mem_keys_of_get hrow
  refine ⟨?_, hnodup⟩
  have hfound : (mem (.get ns)).exec w = (.ok true, w) := by
    refine (exec_mem (.get ns) w).trans ?_
    exact Prod.ext (congrArg Except.ok (hw.mirrors.found ns hns)) rfl
  refine (execute_bind_of_ok hfound).trans ((exec_chainFrom ..).trans ?_)
  rw [hw.mirrors.parents, chainOf_eq_walk chainMaxDepth ns [] hnodup]
  rfl

end Registry

/-- A child that is created with its parent, and seen again after a restart. -/
theorem getNamespaceChain_eq_walk_child :
    let w := [Activity.call (.createNamespace "a" none "x"), .call (.createNamespace "b" (some "a") "x"),
      .restart].foldl Sample.registry.live .empty
    (Registry.getNamespaceChain "b").exec w = (.ok ["b", "a"], w) := by
  intro w
  have hkeys : w.store.namespaces.keys = ["a", "b"] := rfl
  have ha : w.store.parentOf "a" = none := rfl
  have hb : w.store.parentOf "b" = some "a" := rfl
  have hlink : ∀ x y, ParentLink w.store.parentOf x y → x = "b" ∧ y = "a" := by
    intro x y hxy
    have hx : x ∈ w.store.namespaces.keys := by
      by_contra hx
      rw [ParentLink, Store.parentOf, Dict.get_eq_none hx] at hxy
      cases hxy
    rw [hkeys, List.mem_pair] at hx
    obtain rfl | rfl := hx
    · cases ha.symm.trans hxy
    · exact ⟨rfl, Option.some.inj (hxy.symm.trans hb)⟩
  have hacyclic : ∀ id, ¬ Relation.TransGen (ParentLink w.store.parentOf) id id := by
    intro id hcycle
    obtain ⟨y, hy, -⟩ := Relation.TransGen.head'_iff.mp hcycle
    obtain ⟨z, -, hz⟩ := Relation.TransGen.tail'_iff.mp hcycle
    exact absurd ((hlink id y hy).1.symm.trans (hlink z id hz).2) (by decide)
  exact (Registry.getNamespaceChain_eq_walk Sample.registry _ hacyclic rfl).1

end ProtoRegistry
