import ProtoRegistry.Verify.Hierarchy
import ProtoRegistry.Verify.Sessions

/-!
# Names along the parent chain

`Publish` compares the names of the version it has compiled with those of the current schemas of the
ancestors (decision D2). In a run of calls the parents and the current snapshots in memory are those of
the store, so at the moment it is stored a version shadows no name of an ancestor. Later calls do not
look again: a parent can promote a name that a child has, and a namespace can be moved below one.
-/

namespace ProtoRegistry

open RegistryM

/-! ## The parents in memory -/

namespace Namespaces

variable {m : Namespaces} {ns : String}

theorem parent_modify {f : Namespace → Namespace} (hf : ∀ n, (f n).parent = n.parent) (id : String) :
    (m.modify id f).parent = m.parent := by
  unfold modify
  split
  · rfl
  · next n hn =>
    funext ns
    obtain rfl | hne := eq_or_ne ns id
    · simp [parent, hn, hf]
    · simp [parent, Dict.get_set_of_ne _ _ hne]

theorem parent_modifySlot {f : SchemaSlot → SchemaSlot} (id sc : String) :
    (m.modifySlot id sc f).parent = m.parent :=
  parent_modify (fun _ => by rfl) id

theorem parent_clearStaged (id sc : String) : (m.clearStaged id sc).parent = m.parent :=
  parent_modify (fun _ => by split <;> rfl) id

theorem parent_getOrCreate (id : String) : (m.getOrCreate id).parent = m.parent := by
  unfold getOrCreate
  split
  · next hnone =>
    funext ns
    obtain rfl | hne := eq_or_ne ns id
    · simp [parent, hnone]
    · simp [parent, Dict.get_set_of_ne _ _ hne]
  · rfl

theorem isSome_getOrCreate (id : String) : ((m.getOrCreate id).namespaces.get id).isSome := by
  unfold getOrCreate
  split
  · simp
  · next hn => simp [hn]

theorem parent_setParent {p : Option String} (hns : (m.namespaces.get ns).isSome) :
    (m.setParent ns p).parent = Function.update m.parent ns p := by
  obtain ⟨n, hn⟩ := Option.isSome_iff_exists.mp hns
  funext id
  obtain rfl | hne := eq_or_ne id ns
  · simp [parent, setParent, modify, hn]
  · simp [parent, setParent, modify, hn, hne, Dict.get_set_of_ne]

theorem parent_perform {op : MemOp} (hop : ∀ id p, op ≠ .setParent id p) :
    (m.perform op).2.parent = m.parent := by
  cases op with
  | setParent id p => exact (hop id p rfl).elim
  | getOrCreate id => exact parent_getOrCreate id
  | setCurrent id sc snap | setStaged id sc snap | storeCurrent id sc snap => exact parent_modifySlot id sc
  | swapStaged id sc | clearStaged id sc => exact parent_clearStaged id sc
  | _ => rfl

end Namespaces

theorem Store.parentOf_perform {s : Store} {op : StoreOp}
    (hop : ∀ n p actor, op ≠ .setNamespaceParent n p actor)
    (hcreate : ∀ n p, op = .createNamespace n p → p = none) :
    (s.perform op).2.parentOf = s.parentOf := by
  cases op with
  | setNamespaceParent n p actor => exact (hop n p actor rfl).elim
  | createNamespace n p =>
    cases hcreate n p rfl
    cases hn : s.namespaces.get n with
    | none =>
      simp only [perform, createNamespace_of_missing hn]
      exact parentOf_insertRoot hn
    | some row =>
      have heq := createNamespace_of_exists (s := s) (n := n) (by rw [hn]; rfl)
      simp only [perform, heq]
  | _ =>
    unfold parentOf
    rw [namespaces_perform (by simp) (by simp)]

def World.MirrorsParents (w : World) : Prop := w.memory.parent = w.store.parentOf

namespace Registry

variable {r : Registry} {w : World} {c : Call}

theorem parents_perform {h : CallHistory} {op : Op} (hc : ¬ c.IsHierarchy) (hG : CallGuard r c h op) :
    (World.perform op w).2.memory.parent = w.memory.parent ∧
      (World.perform op w).2.store.parentOf = w.store.parentOf := by
  cases op with
  | store op =>
    refine ⟨rfl, Store.parentOf_perform ?_ ?_⟩
    · rintro n p actor rfl
      exact hc hG
    · rintro n p rfl
      exact hG
  | mem op =>
    refine ⟨Namespaces.parent_perform ?_, rfl⟩
    rintro id p rfl
    exact hc hG

theorem mirrorsParents_write {s : Store} {m : Namespaces} (hs : (s.namespaces.get n).isSome)
    (hm : (m.namespaces.get n).isSome) (heq : m.parent = s.parentOf) (q : Option String)
    (ev : NamespaceParentEvent) :
    World.MirrorsParents ⟨(s.writeParent n q).recordNamespaceParentEvent ev, m.setParent n q⟩ := by
  have hparents : ((s.writeParent n q).recordNamespaceParentEvent ev).parentOf =
      Function.update s.parentOf n q := Store.parentOf_writeParent hs q
  rw [World.MirrorsParents, hparents, Namespaces.parent_setParent hm, heq]

theorem mirrorsParents_setNamespaceParent (hw : w.MirrorsParents) (n : String) (q : Option String)
    (actor : String) : (r.exec (.setNamespaceParent n q actor) w).2.MirrorsParents := by
  cases hauth : r.authz.canSetNamespaceParent n q with
  | error e =>
    rw [r.exec_setNamespaceParent_denied n q actor w hauth]
    exact hw
  | ok =>
    simp only [exec, run, setNamespaceParent, execute_bind, execute_liftExcept, hauth, exec_store,
      Store.perform]
    obtain ⟨row, hrow, -, heq⟩ | ⟨-, heq⟩ | ⟨p, -, -, -, -, heq⟩ :=
      w.store.setNamespaceParent_cases n q actor
    · simp only [heq]
      have hn : (w.store.namespaces.get n).isSome := by simp [hrow]
      cases q with
      | none =>
        refine mirrorsParents_write (m := w.memory.getOrCreate n) hn
          (Namespaces.isSome_getOrCreate n) ?_ none _
        rw [Namespaces.parent_getOrCreate, hw]
      | some p =>
        refine mirrorsParents_write (m := (w.memory.getOrCreate n).getOrCreate p) hn ?_ ?_ (some p) _
        · exact Namespaces.isSome_perform (.getOrCreate p) (Namespaces.isSome_getOrCreate n)
        · rw [Namespaces.parent_getOrCreate, Namespaces.parent_getOrCreate, hw]
    · simp only [heq]
      exact hw
    · simp only [heq]
      exact hw

theorem mirrorsParents_createNamespace (hw : w.MirrorsParents) (n : String) (q : Option String)
    (actor : String) : (r.exec (.createNamespace n q actor) w).2.MirrorsParents := by
  simp only [exec, run, createNamespace, execute_bind, execute_liftExcept]
  cases r.authz.canCreateNamespace n q with
  | error e => exact hw
  | ok =>
    cases hn : w.store.namespaces.get n with
    | some row =>
      have heq := Store.createNamespace_of_exists (s := w.store) (n := n) (by rw [hn]; rfl)
      simpa only [exec_wrap, exec_store, Store.perform, heq, Except.mapError] using hw
    | none =>
      have heq := Store.createNamespace_of_missing hn
      have hcreated : (w.memory.getOrCreate n).parent = (w.store.insertRoot n).parentOf := by
        rw [Namespaces.parent_getOrCreate, Store.parentOf_insertRoot hn, hw]
      simp only [exec_wrap, exec_store, Store.perform, heq, Except.mapError, exec_mem]
      cases q with
      | none => exact hcreated
      | some p =>
        simp only [exec_wrap, exec_store, Store.perform, execute_bind]
        obtain ⟨row, hrow, -, heq⟩ | ⟨-, heq⟩ | ⟨p, -, -, -, -, heq⟩ :=
          (w.store.insertRoot n).setNamespaceParent_cases n (some p) actor
        · simp only [heq, Except.mapError, exec_mem, Namespaces.perform]
          have hs : ((w.store.insertRoot n).namespaces.get n).isSome := by simp [hrow]
          by_cases hp : ((w.memory.getOrCreate n).namespaces.get p).isSome
          · simp only [hp]
            exact mirrorsParents_write hs (Namespaces.isSome_getOrCreate n) hcreated (some p) _
          · simp only [hp]
            refine mirrorsParents_write (m := (w.memory.getOrCreate n).getOrCreate p) hs ?_ ?_ (some p) _
            · exact Namespaces.isSome_perform (.getOrCreate p) (Namespaces.isSome_getOrCreate n)
            · rw [Namespaces.parent_getOrCreate, hcreated]
        · simp only [heq, Except.mapError]
          exact hcreated
        · simp only [heq, Except.mapError]
          exact hcreated

theorem mirrorsParents_exec (hlaw : r.env.Lawful) (hw : w.MirrorsParents) (c : Call) :
    (r.exec c w).2.MirrorsParents := by
  by_cases hc : c.IsHierarchy
  · cases c with
    | createNamespace n q actor => exact mirrorsParents_createNamespace hw n q actor
    | setNamespaceParent n q actor => exact mirrorsParents_setNamespaceParent hw n q actor
    | _ => exact hc.elim
  · have hexec := Prog.Guarded.exec World.perform (J := fun w _ => w.MirrorsParents)
      (fun w h op hJ hG => by
        obtain ⟨hmemory, hstore⟩ := parents_perform (w := w) hc hG
        rw [World.MirrorsParents, hmemory, hstore]
        exact hJ) (run_spec c fun _ => hlaw) hw
    exact hexec.choose_spec.2

/-! ## The pointers of a run -/

/-- **A call that runs alone** leaves memory as it found it: a mirror of the store. -/
theorem mirrors_exec (hlaw : r.env.Lawful) (hw : w.Sound r.env)
    (hm : ∀ ns sc, w.store.pointers ns sc = w.memory.pointers ns sc) (c : Call) (ns sc : String) :
    (r.exec c w).2.store.pointers ns sc = (r.exec c w).2.memory.pointers ns sc := by
  obtain ⟨h, hend, -, -, ha⟩ := Prog.Guarded.exec World.perform
    (J := fun w h => w.Sound r.env ∧ w.Knows h ∧ ∀ ns sc, w.Agrees False (mirror h) ns sc)
    (fun w h op hJ hG => by
      obtain ⟨hw, hk, ha⟩ := hJ
      refine ⟨World.sound_perform hw hk hG, World.knows_perform hw hk hG, fun ns sc => ?_⟩
      refine World.agrees_executes hw hk hG (World.executes_perform _ _) (ha ns sc) ?_
      rintro rfl
      have hbefore := ha ns sc
      rw [hG.1, World.agrees_iff_of_pending rfl] at hbefore
      rw [hbefore.eq]
      exact .refl _)
    (run_spec c fun _ => hlaw) ⟨hw, w.knows_nil,
      fun ns sc => (World.agrees_iff_of_pending rfl).mpr (hm ns sc ▸ .refl _)⟩
  have hp : (mirror h).pending ns sc = none := by rw [hend, pending_outcome]
  exact ((World.agrees_iff_of_pending hp).mp (ha ns sc)).eq

end Registry

/-- What holds between the calls of a run. -/
structure World.Settled (r : Registry) (w : World) : Prop where
  sound : w.Sound r.env
  mirrors : ∀ ns sc, w.store.pointers ns sc = w.memory.pointers ns sc
  parents : w.MirrorsParents

theorem Registry.settled_runAll {r : Registry} (hlaw : r.env.Lawful) (calls : List Call) :
    (r.runAll calls .empty).Settled r := by
  induction calls using List.reverseRecOn with
  | nil => exact ⟨World.sound_empty _, fun _ _ => rfl, rfl⟩
  | append_singleton calls c ih =>
    rw [runAll_append]
    exact ⟨sound_exec hlaw ih.sound c, mirrors_exec hlaw ih.sound ih.mirrors c,
      mirrorsParents_exec hlaw ih.parents c⟩

/-! ## Publishing -/

/-- No name of the snapshot is defined elsewhere by a current schema of an ancestor. -/
def World.Clear (w : World) (ns : String) (child : Snapshot) : Prop :=
  ∀ d < chainMaxDepth, ∀ a, climb w.memory.parent d ns = some a → a ≠ ns →
    ∀ sc snap, w.memory.current a sc = some snap → detectFQNConflicts child snap = []

/-- What holds of the world `w` after a publishing call has performed `h`, from the world `w₀`. -/
structure PublishInv (r : Registry) (w₀ w : World) (h : CallHistory) : Prop where
  sound : w.Sound r.env
  knows : w.Knows h
  grows : w₀.Grows w
  unmoved : mirror h = .before → w₀.Unmoved w ∧ ∀ e ∈ h, w₀.Told e.1 e.2
  parents : w.memory.parent = w₀.memory.parent ∧ w.store.parentOf = w₀.store.parentOf
  reads : ReadsParents h w₀.memory.parent
  current : ∀ ns sc, (w.store.pointers ns sc).currentVersion = (w₀.store.pointers ns sc).currentVersion
  clear : ∀ {ns sc v row}, ⟨.store (.putVersion ns sc v row), .ok ()⟩ ∈ h → w₀.Clear ns ⟨v, row.compiled⟩
  stored : ∀ {ns sc v}, mirror h = .stage ns sc v ∨ mirror h = .staged ns sc v →
    ∃ row, ⟨.store (.putVersion ns sc v row), .ok ()⟩ ∈ h

section
variable {r : Registry} {c : Call} {w w₀ : World} {h : CallHistory} {op : Op} {ns sc : String} {v : Nat}

theorem World.clear_of_unshadowed {child : Snapshot} (htold : ∀ e ∈ h, w.Told e.1 e.2)
    (hreads : ReadsParents h w.memory.parent) (hu : Unshadowed h ns child) : w.Clear ns child := by
  intro d hd a ha hne sc snap hsnap
  obtain ⟨ancestors, hclimbed, hall⟩ := hu
  have hmem : a ∈ ancestors := (List.mem_cons.mp (hclimbed _ hreads d hd a ha)).resolve_left hne
  obtain ⟨ids, hids, hnone⟩ := hall a hmem
  have hslot : (w.memory.slot a sc).isSome := by
    obtain ⟨slot, hslot, -⟩ := Option.bind_eq_some_iff.mp hsnap
    exact Option.isSome_iff_exists.mpr ⟨slot, hslot⟩
  obtain ⟨current, hcurrent, hconflicts⟩ := hnone sc (htold _ hids sc hslot)
  exact hconflicts snap ((htold _ hcurrent).trans hsnap)

theorem Call.Publishes.not_hierarchy (hc : c.Publishes ns sc) : ¬ c.IsHierarchy := by
  intro hh
  cases c <;> first | exact hc.elim | exact hh.elim

theorem stored_next (hc : c.Publishes ns sc) (hG : CallGuard r c h op) {res : op.Res}
    (hstored : ∀ {ns sc v}, mirror h = .stage ns sc v ∨ mirror h = .staged ns sc v →
      ∃ row, ⟨.store (.putVersion ns sc v row), .ok ()⟩ ∈ h) {ns' sc' : String}
    (hm : (mirror h).next op res = .stage ns' sc' v ∨ (mirror h).next op res = .staged ns' sc' v) :
    ∃ row, ⟨.store (.putVersion ns' sc' v row), .ok ()⟩ ∈ h := by
  obtain hm | hm := hm
  · obtain hstage | ⟨u, heq⟩ := Mirror.of_next_eq_stage hm
    · exact hstored (.inl hstage)
    · cases heq
      obtain ⟨-, ⟨-, -, hput⟩ | ⟨force, row, snap, rfl, -⟩⟩ := hG
      · exact hput
      · exact hc.elim
  · exact hstored (Mirror.of_next_eq_staged hm).symm

theorem PublishInv.step (hc : c.Publishes ns sc) (hi : PublishInv r w₀ w h) (hG : CallGuard r c h op) :
    PublishInv r w₀ (World.perform op w).2 (⟨op, (World.perform op w).1⟩ :: h) where
  sound := World.sound_perform hi.sound hi.knows hG
  knows := World.knows_perform hi.sound hi.knows hG
  grows := hi.grows.trans (World.grows_perform op w)
  unmoved := World.unmoved_cons hi.sound hG hi.unmoved
  parents := by
    obtain ⟨hmemory, hstore⟩ := Registry.parents_perform (w := w) hc.not_hierarchy hG
    exact ⟨hmemory.trans hi.parents.1, hstore.trans hi.parents.2⟩
  reads := by
    intro a p hmem
    obtain heq | hmem := List.mem_cons.mp hmem
    · cases heq
      exact congrFun hi.parents.1 a
    · exact hi.reads a p hmem
  current ns' sc' := by
    rw [← hi.current]
    cases op with
    | mem op => rfl
    | store op =>
      by_cases ht : Op.Touches ns' sc' (.store op)
      · cases op with
        | setStaged _ _ _ => exact Store.currentVersion_setStaged _ _
        | promote _ =>
          cases hG.2.1
          exact hc.elim
        | discardStaging _ =>
          cases hG.2
          exact hc.elim
        | _ => exact ht.elim
      · exact congrArg _ (Store.pointers_perform ht)
  clear {ns' sc' v row} hput := by
    obtain heq | hmem := List.mem_cons.mp hput
    · obtain rfl := congrArg Sigma.fst heq
      obtain ⟨hbefore, -, -, -, hu⟩ := hG
      exact World.clear_of_unshadowed (hi.unmoved hbefore).2 hi.reads hu
    · exact hi.clear hmem
  stored hm := by
    rw [mirror_cons rfl] at hm
    obtain ⟨row, hrow⟩ := stored_next hc hG hi.stored hm
    exact ⟨row, List.mem_cons_of_mem _ hrow⟩

theorem publishInv_nil (hw : w.Settled r) : PublishInv r w w [] where
  sound := hw.sound
  knows := w.knows_nil
  grows := .refl w
  unmoved _ := ⟨.refl w, by simp⟩
  parents := ⟨rfl, rfl⟩
  reads _ _ hmem := by cases hmem
  current _ _ := rfl
  clear hmem := by cases hmem
  stored hm := by obtain hm | hm := hm <;> cases hm

end

/-- A name of the files is also defined, at another path, by a current schema of an ancestor of the
namespace, as far up as `Chain` looks. -/
def Store.ShadowedAbove (s : Store) (ns : String) (files : List FileDescriptor) : Prop :=
  ∃ d < chainMaxDepth, ∃ a, climb s.parentOf d ns = some a ∧ a ≠ ns ∧ ∃ sc v row,
    (s.pointers a sc).currentVersion = some v ∧ s.versions.get (a, sc, v) = some row ∧
    Shadows files row.compiled

theorem Shadows.perm {files' files'' : List FileDescriptor} (h : Shadows files files')
    (hperm : files'.Perm files'') : Shadows files files'' := by
  obtain ⟨f, hf, g, hg, hne, hn⟩ := h
  exact ⟨f, hf, g, hperm.subset hg, hne, hn⟩

theorem World.Clear.not_shadowedAbove {r : Registry} {w : World} {row : VersionRow}
    (hlaw : r.env.Lawful) (hw : w.Settled r) (hrow : row.Built r.env)
    (hclear : w.Clear ns ⟨v, row.compiled⟩) : ¬ w.store.ShadowedAbove ns row.compiled := by
  rintro ⟨d, hd, a, ha, hne, sc, v', row', hcur, hrow', hshadows⟩
  rw [hw.mirrors] at hcur
  obtain ⟨snap, hsnap, rfl⟩ := Option.map_eq_some_iff.mp hcur
  obtain ⟨row'', hrow'', hperm⟩ := hw.sound.slot (.inl hsnap)
  cases hrow'.symm.trans hrow''
  have hnil := hclear d hd a (by rw [hw.parents]; exact ha) hne sc snap hsnap
  have hdisj := (hlaw.registrable_of_registerFiles (hw.sound.version hrow').2.registered).disjointNames
  have hnew := (hlaw.registrable_of_registerFiles hrow.registered).disjointNames
  have hnot := (detectFQNConflicts_eq_nil_iff hnew
    (hdisj.perm hperm.symm)).mp hnil
  exact hnot (hshadows.perm hperm.symm)

theorem Call.Publishes.outcome {c : Call} (hc : c.Publishes ns sc) (hnew : res.noChange = false) :
    c.outcome (.published res) = .staged ns sc res.version := by
  cases c with
  | publish req =>
    obtain ⟨rfl, rfl⟩ := hc
    simp [Call.outcome, PublishResult.outcome, hnew]
  | rebase ns' sc' =>
    obtain ⟨rfl, rfl⟩ := hc
    simp [Call.outcome, PublishResult.outcome, hnew]
  | _ => exact hc.elim

theorem PublishInv.of_shadowedAbove {r : Registry} {w w₀ : World} {h : CallHistory}
    (hw₀ : w₀.Sound r.env) (hi : PublishInv r w₀ w h) (hs : w.store.ShadowedAbove ns files) :
    w₀.store.ShadowedAbove ns files := by
  obtain ⟨d, hd, a, ha, hne, sc, v, row, hcur, hrow, hshadows⟩ := hs
  rw [hi.parents.2] at ha
  rw [hi.current] at hcur
  obtain ⟨row', hrow'⟩ := Option.isSome_iff_exists.mp (hw₀.pointer (.inl hcur))
  cases hrow.symm.trans (hi.grows.versions hrow')
  exact ⟨d, hd, a, ha, hne, sc, v, row, hcur, hrow', hshadows⟩

/-- **A version that is stored shadows no name of its ancestors.** After every run of calls, the version
that a `Publish` or `Rebase` stores defines no name that a current schema of an ancestor defines at
another path. -/
theorem Registry.published_unshadowed {r : Registry} (hlaw : r.env.Lawful) {calls : List Call} {c : Call}
    (hc : c.Publishes ns sc) (hres : (r.exec c (r.runAll calls .empty)).1 = .ok (.published res))
    (hnew : res.noChange = false) :
    ∃ row, (r.runAll (calls ++ [c]) .empty).store.versions.get (ns, sc, res.version) = some row ∧
      ¬ (r.runAll (calls ++ [c]) .empty).store.ShadowedAbove ns row.compiled := by
  have hw := settled_runAll hlaw calls
  rw [runAll_append]
  obtain ⟨h, hm, hi⟩ := Prog.Guarded.exec World.perform (J := PublishInv r (r.runAll calls .empty))
    (fun w h op hi hG => hi.step hc hG) (run_spec c fun _ => hlaw) (publishInv_nil hw)
  change mirror h = orBefore c.outcome (r.exec c (r.runAll calls .empty)).1 at hm
  rw [hres] at hm
  obtain ⟨row, hput⟩ := hi.stored (.inr (hm.trans (hc.outcome hnew)))
  have hrow := hi.knows.facts _ hput
  refine ⟨row, hrow, fun hshadowed => ?_⟩
  exact (hi.clear hput).not_shadowedAbove hlaw hw (hi.sound.version hrow).2
    (hi.of_shadowedAbove hw.sound hshadowed)

def storesVersion : Except Err Reply → Bool
  | .ok (.published res) => !res.noChange
  | _ => false

theorem exists_of_storesVersion {reply : Except Err Reply} (h : storesVersion reply = true) :
    ∃ res, reply = .ok (.published res) ∧ res.noChange = false := by
  unfold storesVersion at h
  split at h
  · next res => exact ⟨res, rfl, by simpa using h⟩
  · cases h

theorem published_unshadowed_child :
    let calls := Sample.family ++ [Sample.publishParent [1], .promote "p"]
    ∃ res row, (Sample.registry.exec (Sample.publish [2]) (Sample.registry.runAll calls .empty)).1 =
        .ok (.published res) ∧ res.noChange = false ∧
      (Sample.registry.runAll (calls ++ [Sample.publish [2]]) .empty).store.versions.get
        ("n", "s", res.version) = some row ∧
      ¬ (Sample.registry.runAll (calls ++ [Sample.publish [2]]) .empty).store.ShadowedAbove "n"
        row.compiled := by
  intro calls
  have hstores : storesVersion
      (Sample.registry.exec (Sample.publish [2]) (Sample.registry.runAll calls .empty)).1 = true := by
    decide +kernel
  obtain ⟨res, hres, hnew⟩ := exists_of_storesVersion hstores
  have hc : (Sample.publish [2]).Publishes "n" "s" := ⟨rfl, rfl⟩
  obtain ⟨row, hrow⟩ := Registry.published_unshadowed Sample.lawful_env hc hres hnew
  exact ⟨res, row, hres, hnew, hrow⟩

/-- The child promotes a message, and then the parent publishes and promotes the same message in another
file. -/
theorem shadowed_by_parent :
    let s := (Sample.registry.runAll (Sample.family ++ [Sample.publish [1], .promote "n",
      Sample.publishParent [1], .promote "p"]) .empty).store
    ∃ v row, (s.pointers "n" "s").currentVersion = some v ∧ s.versions.get ("n", "s", v) = some row ∧
      s.ShadowedAbove "n" row.compiled := by
  refine ⟨_, _, rfl, rfl, 1, by decide, "p", rfl, by decide, "t", 1, _, rfl, rfl, ?_⟩
  refine ⟨_, List.mem_singleton_self _, _, List.mem_singleton_self _, ?_, _, List.mem_singleton_self _,
    List.mem_singleton_self _⟩
  decide

end ProtoRegistry
