import ProtoRegistry.Verify.Families
import ProtoRegistry.Verify.Gate
import ProtoRegistry.Verify.Storing

/-!
# Published versions are permanent

A deployment of the registry goes through any number of processes. Each serves concurrent calls over a store
whose calls may fail, may stop at any time, in the middle of any calls, and is followed by one that restores its
memory from the store. A version that can be listed, or that a pointer refers to, can be read ever after, and is
always read as the same.
-/

namespace ProtoRegistry
open RegistryM ServerM

/-! ## Deployments -/

/-- The worlds that a deployment leads to. -/
inductive Registry.Serves (r : Registry) (w : World) : World → Prop
  | refl : Serves r w w
  /-- Calls are executed concurrently, and stop anywhere. -/
  | calls {calls : List Call} {p : Pool registryInterface (Except Err Reply) World} : Serves r w w₁ →
      Pool.Reach World.MayFail (fun _ _ _ _ => True) (r.pool calls w₁) p → Serves r w p.state
  | restart : Serves r w w₁ → (r.restart w₁).1 = .ok () → Serves r w (r.restart w₁).2

/-! ## What the calls of a process know -/

theorem Mirror.next_error (m : Mirror) (op : StoreOp) (e : Err) : m.next (.store op) (.error e) = m := by
  cases op <;> cases m <;> rfl

namespace World

variable {r : Registry} {w : World} {tr : List (Event registryInterface)}

/-- A call learns nothing from a failure. -/
theorem Consistent.fail (hw : w.Consistent r tr) (i : Nat) (op : StoreOp) (e : Err) :
    w.Consistent r (⟨i, .store op, .error e⟩ :: tr) := by
  refine ⟨hw.sound, fun j => ?_⟩
  by_cases hij : i = j
  · subst hij
    rw [ownHistory_cons_self]
    refine ⟨fun ev hev => ?_, fun hm => ?_⟩
    · obtain rfl | hev := List.mem_cons.mp hev
      · cases op <;> trivial
      · exact (hw.knows i).facts ev hev
    · rw [mirror_cons rfl, Mirror.next_error] at hm
      exact (hw.knows i).half hm
  · rw [ownHistory_cons_of_ne _ _ hij]
    exact hw.knows j

theorem Consistent.mayFail (hw : w.Consistent r tr) (hG : r.poolGuard calls i (ownHistory tr i) op) {res : op.Res}
    (hstep : MayFail op w res w') : w'.Consistent r (⟨i, op, res⟩ :: tr) := by
  cases op with
  | mem op => exact hw.step hG hstep
  | store op =>
    obtain heq | ⟨⟨e, rfl⟩, rfl⟩ := hstep
    · exact hw.step hG heq
    · exact hw.fail i op e

theorem MayFail.store_inv {J : Store → Prop} (hJ : ∀ op s, J s → J (s.perform op).2) {op : Op} {res : op.Res}
    (hstep : MayFail op w res w') (hw : J w.store) : J w'.store := by
  obtain rfl | rfl := hstep.state
  · cases op with
    | mem op => exact hw
    | store op => exact hJ op w.store hw
  · exact hw

/-- What every process can rely on. -/
structure Durable (r : Registry) (w : World) : Prop where
  sound : w.Sound r.env
  keyed : w.store.Keyed

end World

namespace Registry.Serves

variable {r : Registry} {w w' : World}

theorem store_inv {J : Store → Prop} (hJ : ∀ op s, J s → J (s.perform op).2) (h : r.Serves w w') (hw : J w.store) :
    J w'.store := by
  induction h with
  | refl => exact hw
  | calls _ hreach ih => exact hreach.induct (J := fun w _ => J w.store) ih fun hw hstep _ => hstep.store_inv hJ hw
  | restart _ _ ih =>
    rw [store_restart]
    exact ih

theorem durable (hlaw : r.env.Lawful) (h : r.Serves w w') (hw : w.Durable r) : w'.Durable r := by
  refine ⟨?_, h.store_inv (fun op _ hs => hs.perform op) hw.keyed⟩
  induction h with
  | refl => exact hw.sound
  | @calls w₁ calls p _ hreach ih =>
    have hp := Pool.Reach.invariant (J := World.Consistent r) (r.guarded_pool calls w₁ fun _ _ _ => hlaw)
      ⟨ih, fun _ => w₁.knows_nil⟩ (fun hw hG hstep _ => hw.mayFail hG hstep) hreach
    exact hp.2.sound
  | restart _ hok ih => exact (restored hlaw ih hok).sound

end Registry.Serves

/-! ## Reading a version -/

namespace Server

variable {s : Server} {w : World}

theorem execute_getDescriptor {row : VersionRow} (hid : s.checkRead ns sc = .ok ()) (hv : v ≠ 0)
    (hrow : w.store.versions.get (ns, sc, v) = some row) :
    execute World.perform (s.getDescriptor ns sc v) w = (.ok ⟨v, row.compiled⟩, w) := by
  have hversion : execute World.perform (resolveVersion ns sc v) w = (.ok v, w) := by
    rw [resolveVersion, if_pos hv]
    rfl
  refine (execute_bind_eq_ok_of (execute_liftExcept ..)).mpr ⟨(), hid, ?_⟩
  refine (execute_bind_of_ok hversion).trans (execute_bind_of_ok ?_)
  refine (execute_translating_of (exec_store (.getVersion ns sc v) w) _).trans ?_
  simp only [Store.perform, Store.getVersion, hrow]
  rfl

/-- The store has the version, and the blobs of its files. -/
structure Holds (w : World) (ns sc : String) (v : Nat) (row : VersionRow) (blob : VersionFile → Bytes) : Prop where
  version : w.store.versions.get (ns, sc, v) = some row
  blobs : ∀ f ∈ row.files, w.store.blobs.get (ns, f.blobSHA256) = some (blob f)

theorem Holds.handle {row : VersionRow} {blob : VersionFile → Bytes} (h : Holds w ns sc v row blob)
    (hid : s.checkRead ns sc = .ok ()) (hv : v ≠ 0) (id : Identity) :
    (s.handle id (.getDescriptor ns sc v) w).1 = .ok (.descriptor ⟨v, row.compiled⟩) ∧
    (s.handle id (.getSource ns sc v) w).1 = .ok (.source ⟨v, .ofAssignments
      ((Store.sortVersionFiles row.files).map fun f => (f.filename, blob f))⟩) :=
  ⟨congrArg Prod.fst (execute_bind_of_ok (execute_getDescriptor hid hv h.version)),
    congrArg Prod.fst (execute_bind_of_ok (execute_getSource hid hv h.version h.blobs))⟩

theorem Holds.serves {row : VersionRow} {blob : VersionFile → Bytes} (h : Holds w ns sc v row blob)
    (hserves : s.registry.Serves w w') : Holds w' ns sc v row blob where
  version := hserves.store_inv (J := fun st => st.versions.get (ns, sc, v) = some row)
    (fun op _ hrow => Store.get_versions_perform op hrow) h.version
  blobs f hf := hserves.store_inv (J := fun st => st.blobs.get (ns, f.blobSHA256) = some (blob f))
    (fun op _ hblob => Store.get_blobs_perform op hblob) (h.blobs f hf)

theorem exists_holds (hw : w.Durable s.registry) (hv : (w.store.versions.get (ns, sc, v)).isSome) :
    v ≠ 0 ∧ ∃ row blob, Holds w ns sc v row blob := by
  obtain ⟨row, hrow⟩ := Option.isSome_iff_exists.mp hv
  refine ⟨(hw.sound.version hrow).1, row, fun f => (w.store.blobs.get (ns, f.blobSHA256)).getD [], hrow, fun f hf => ?_⟩
  obtain ⟨source, hsource⟩ := Option.isSome_iff_exists.mp (hw.keyed.blobs hrow f hf)
  rw [hsource, Option.getD_some]

/-- **Published versions are permanent.** In every world of a deployment, each version that the schema has or
points to can be read, and is read as the same in every world that follows. -/
theorem published_permanent (hlaw : s.registry.env.Lawful) (hreached : s.registry.Serves .empty w)
    (hlater : s.registry.Serves w w') (hid : s.checkRead ns sc = .ok ())
    (hv : v ∈ w.store.listVersions ns sc ∨ (w.store.pointers ns sc).currentVersion = some v ∨
      (w.store.pointers ns sc).stagedVersion = some v) (id : Identity) :
    ∃ descriptors sources,
      (s.handle id (.getDescriptor ns sc v) w).1 = .ok (.descriptor ⟨v, descriptors⟩) ∧
      (s.handle id (.getSource ns sc v) w).1 = .ok (.source ⟨v, sources⟩) ∧
      (s.handle id (.getDescriptor ns sc v) w').1 = .ok (.descriptor ⟨v, descriptors⟩) ∧
      (s.handle id (.getSource ns sc v) w').1 = .ok (.source ⟨v, sources⟩) := by
  have hw : w.Durable s.registry := hreached.durable hlaw ⟨World.sound_empty _, Store.keyed_empty⟩
  have hstored : (w.store.versions.get (ns, sc, v)).isSome := by
    obtain hv | hv := hv
    · exact Store.mem_listVersions.mp hv
    · exact hw.sound.pointer hv
  obtain ⟨hne, row, blob, h⟩ := exists_holds hw hstored
  obtain ⟨hdescriptor, hsource⟩ := h.handle hid hne id
  obtain ⟨hdescriptor', hsource'⟩ := (h.serves hlater).handle hid hne id
  exact ⟨_, _, hdescriptor, hsource, hdescriptor', hsource'⟩

end Server

/-- Two publishes of a schema, one of which stops before it is staged, and a restart. -/
theorem published_permanent_restart : ∃ w w' : World, ∃ descriptors sources,
    Registry.Serves Sample.registry .empty w ∧ Registry.Serves Sample.registry w w' ∧ w.memory.staged "n" "s" ≠ none ∧
      w'.memory.staged "n" "s" = none ∧
      ((Sample.service Sample.registry).handle anonymousIdentity (.getDescriptor "n" "s" 1) w').1 =
        .ok (.descriptor ⟨1, descriptors⟩) ∧
      ((Sample.service Sample.registry).handle anonymousIdentity (.getSource "n" "s" 1) w').1 =
        .ok (.source ⟨1, sources⟩) := by
  have hrun : ∃ p, Pool.Reach World.Executes (fun _ _ _ _ => True)
      (Sample.registry.pool [Sample.publish [1], Sample.publish [2]] .empty) p ∧
      p.state.store.listVersions "n" "s" = [1] ∧ (p.state.memory.staged "n" "s").isSome = true ∧
      (Sample.registry.restart p.state).1 = .ok () ∧
      ((Sample.registry.restart p.state).2.memory.staged "n" "s").isNone = true :=
    World.exists_reach (List.replicate 9 0 ++ List.replicate 9 1 ++ List.replicate 6 0) (Pool.along_true _ _ _)
      ⟨_, rfl, rfl, rfl, rfl, rfl⟩
  obtain ⟨p, hreach, hlist, hstaged, hrestart, hnone⟩ := hrun
  have hserves : Registry.Serves Sample.registry .empty p.state :=
    .calls .refl (hreach.mono World.Executes.mayFail)
  have hlater : Registry.Serves Sample.registry p.state (Sample.registry.restart p.state).2 := .restart .refl hrestart
  obtain ⟨descriptors, sources, -, -, hdescriptor, hsource⟩ := Server.published_permanent
    (s := Sample.service Sample.registry) Sample.lawful_env hserves hlater (by decide +kernel)
    (.inl (hlist ▸ List.mem_singleton_self 1)) anonymousIdentity
  exact ⟨_, _, descriptors, sources, hserves, hlater, Option.isSome_iff_ne_none.mp hstaged,
    Option.isNone_iff_eq_none.mp hnone, hdescriptor, hsource⟩

end ProtoRegistry
