import ProtoRegistry.Verify.Mirroring

/-!
# The compatibility gate under concurrency

`Promote` compares the snapshots it finds in memory and then lets the store promote whatever is staged
there; `Rollback` compares its target with a current snapshot that may be replaced before the target is
promoted. A promotion is compatible when the two versions it concerns are the ones that were compared.
-/

namespace ProtoRegistry

/-- `compat.Check` reports no violation between two stored versions of a schema. -/
def Store.Compatible (s : Store) (ns sc : String) (c v : Nat) : Prop :=
  ∃ old new, s.versions.get (ns, sc, c) = some old ∧ s.versions.get (ns, sc, v) = some new ∧
    Compat.Ok (some ⟨c, old.compiled⟩) ⟨v, new.compiled⟩

/-- What was found out about snapshots of stored versions holds of the versions. -/
theorem World.Sound.compatible {env : External} {w : World} (hw : w.Sound env) {old new : Snapshot}
    (hold : w.store.Holds ns sc old) (hnew : w.store.Holds ns sc new) (hok : Compat.Ok (some old) new) :
    w.store.Compatible ns sc old.version new.version := by
  obtain ⟨oldRow, holdRow, holdPerm⟩ := hold
  obtain ⟨newRow, hnewRow, hnewPerm⟩ := hnew
  refine ⟨oldRow, newRow, holdRow, hnewRow, (Compat.ok_perm holdPerm hnewPerm ?_).mp hok⟩
  exact (hnewPerm.map _).nodup_iff.mpr (hw.version hnewRow).2.paths

section
variable {r : Registry} {calls : List Call} {w : World} {h : CallHistory} {ns sc : String} {c v : Nat}

/-- A `Promote` that found versions `c` and `v` in the slot of a schema, `v` the newer one, has compared
them. -/
theorem compatible_of_compared {env : External} {staged current : Snapshot} (hw : w.Sound env)
    (hfacts : ∀ e ∈ h, w.Fact e.1 e.2) (hchecked : Checked h ns) (hcompared : Compared h ns sc staged (some current))
    (hlt : current.version < staged.version) :
    w.store.Compatible ns sc current.version staged.version := by
  have hstaged := hfacts _ hcompared.mem_staged
  have hcurrent := hfacts _ hcompared.mem_current
  obtain ⟨_, ⟨⟩, hle⟩ | hok := hchecked.2 sc staged (some current) hcompared
  · omega
  · exact hw.compatible hcurrent hstaged hok

/-- A `Rollback` without force that found version `c` current has compared its target with it. -/
theorem compatible_of_rollback {env : External} {current : Snapshot} (hw : w.Sound env)
    (hfacts : ∀ e ∈ h, w.Fact e.1 e.2) (hstages : Stages (.rollback ns sc v false) h ns sc v)
    (hcurrent : ⟨.mem (.current ns sc), some current⟩ ∈ h) :
    w.store.Compatible ns sc current.version v := by
  obtain ⟨hpub, -⟩ | ⟨force, row, snap, heq, hrow, rfl, hperm, hchecked⟩ := hstages
  · exact hpub.elim
  · cases heq
    have hok := (hchecked rfl).2 _ hcurrent
    exact hw.compatible (hfacts _ hcurrent) ⟨row, hfacts _ hrow, hperm⟩ hok

/-! ## Interleavings -/

/-- For every schema that a promotion moves from `c` to `v`, either the promoting call has found these
versions in the slot, `v` the newer one, or the last call to stage the schema is a `Rollback` without
force that has found `c` current. -/
def CheckedVersions (calls : List Call) (w : World) (tr : List (Event registryInterface)) (i : Nat) :
    Op → Prop
  | .store (.promote ns) => ∀ sc c v, w.store.pointers ns sc = ⟨some c, some v⟩ →
      (c < v ∧ ∃ staged current, Compared (ownHistory tr i) ns sc staged (some current) ∧
        staged.version = v ∧ current.version = c) ∨
      ∃ tr₁ j u tr₂ current, tr = tr₁ ++ ⟨j, .store (.setStaged ns sc v), u⟩ :: tr₂ ∧
        (∀ e ∈ tr₁, ∀ v', e.op ≠ .store (.setStaged ns sc v')) ∧
        calls[j]? = some (.rollback ns sc v false) ∧
        ⟨j, .mem (.current ns sc), some current⟩ ∈ tr₂ ∧ current.version = c
  | _ => True

theorem Registry.consistent_of_reach (hlaw : r.env.Lawful) (hw : w.Sound r.env)
    {ok : World → List (Event registryInterface) → Nat → Op → Prop}
    {p : Pool registryInterface (Except Err Reply) World}
    (h : Pool.Reach World.Executes ok (r.pool calls w) p) :
    p.Guarded (r.poolGuard calls) (fun i res h => ∃ c, calls[i]? = some c ∧ mirror h = orBefore c.outcome res) ∧
      p.state.Consistent r p.trace ∧ Pool.TraceGuarded (r.poolGuard calls) p.trace := by
  refine Pool.Reach.invariant
    (J := fun w tr => w.Consistent r tr ∧ Pool.TraceGuarded (r.poolGuard calls) tr)
    (r.guarded_pool calls w fun _ _ _ => hlaw) ⟨⟨hw, fun _ => w.knows_nil⟩, Pool.TraceGuarded.nil⟩ ?_ h
  rintro w tr i op res w' ⟨hw, htr⟩ hG hstep -
  exact ⟨hw.step hG hstep, htr.cons hG _⟩

end

/-- **Promotions are compatible** in every interleaving in which the versions that a promotion concerns
are the ones that were compared. -/
theorem Registry.promotions_compatible {r : Registry} (hlaw : r.env.Lawful) {calls : List Call}
    {w : World} (hw : w.Sound r.env) {p p' : Pool registryInterface (Except Err Reply) World}
    (h : Pool.Reach World.Executes (CheckedVersions calls) (r.pool calls w) p)
    (hs : Pool.Step World.Executes p i (.store (.promote ns)) p')
    (hok : CheckedVersions calls p.state p.trace i (.store (.promote ns)))
    (hpointers : p.state.store.pointers ns sc = ⟨some c, some v⟩) :
    p.state.store.Compatible ns sc c v := by
  obtain ⟨hguarded, hp, htrace⟩ := consistent_of_reach hlaw hw h
  obtain ⟨hlt, staged, current, hcompared, rfl, rfl⟩ |
    ⟨tr₁, j, u, tr₂, current, htr, -, hj, hmem, rfl⟩ := hok sc c v hpointers
  · obtain @⟨_, _, _, k, res, s', hthread, -⟩ := hs
    obtain ⟨call, -, -, -, -, hchecked⟩ := (hguarded i _ hthread).1
    exact compatible_of_compared hp.sound (hp.knows i).facts hchecked hcompared hlt
  · obtain ⟨call, hcall, -, hstages⟩ := htrace htr
    cases hj.symm.trans hcall
    refine compatible_of_rollback hp.sound ?_ hstages (mem_ownHistory.mpr hmem)
    rintro ⟨op, res⟩ he
    refine (hp.knows j).facts ⟨op, res⟩ (mem_ownHistory.mpr ?_)
    rw [htr]
    exact List.mem_append_right _ (List.mem_cons_of_mem _ (mem_ownHistory.mp he))

def Op.isPromotion : Op → Bool
  | .store (.promote _) => true
  | _ => false

theorem checkedVersions_of_isPromotion (h : op.isPromotion = false) : CheckedVersions calls w tr i op := by
  unfold CheckedVersions
  split
  · cases h
  · trivial

/-- Between the checks of a `Promote` and its promotion, another schema of the namespace is published. -/
theorem promotion_compatible_beside_publish : ∃ p p',
    Pool.Reach World.Executes (CheckedVersions [.promote "n", Sample.publishShared [3]])
      (Sample.registry.pool [.promote "n", Sample.publishShared [3]] (Sample.registry.runAll
        [Sample.publish [1], .promote "n", Sample.publish [1, 2]] .empty)) p ∧
      Pool.Step World.Executes p 0 (.store (.promote "n")) p' ∧
      p.state.store.pointers "n" "s" = ⟨some 1, some 2⟩ ∧ p.state.store.pointers "n" "t" = ⟨none, some 1⟩ ∧
      p.state.store.Compatible "n" "s" 1 2 := by
  have hrun : ∃ p, Pool.Reach World.Executes (CheckedVersions [.promote "n", Sample.publishShared [3]])
      (Sample.registry.pool [.promote "n", Sample.publishShared [3]] (Sample.registry.runAll
        [Sample.publish [1], .promote "n", Sample.publish [1, 2]] .empty)) p ∧
      ∃ k staged current h, p.threads[0]? = some (.call (.store (.promote "n")) k) ∧
      p.state.store.pointers "n" "s" = ⟨some 1, some 2⟩ ∧ p.state.store.pointers "n" "t" = ⟨none, some 1⟩ ∧
      p.state.store.schemas.keys = [("n", "s"), ("n", "t")] ∧
      ownHistory p.trace 0 = ⟨.mem (.current "n" "s"), some current⟩ ::
        ⟨.mem (.staged "n" "s"), some staged⟩ :: h ∧ staged.version = 2 ∧ current.version = 1 :=
    World.exists_reach (List.replicate 4 0 ++ List.replicate 15 1)
      (.mono checkedVersions_of_isPromotion (by decide +kernel))
      ⟨_, rfl, _, _, _, _, rfl, rfl, rfl, rfl, rfl, rfl, rfl⟩
  obtain ⟨p, hreach, k, staged, current, h, hthread, hpointers, ht, hkeys, hown, hstaged, hcurrent⟩ := hrun
  have hstep := Pool.Step.intro (R := World.Executes) hthread rfl
  have hok : CheckedVersions [.promote "n", Sample.publishShared [3]] p.state p.trace 0 (.store (.promote "n")) := by
    intro sc c v hsc
    by_cases hs : sc = "s"
    · subst hs
      cases hpointers.symm.trans hsc
      exact .inl ⟨by decide, staged, current, ⟨[], h, hown⟩, hstaged, hcurrent⟩
    · -- the other schema has no current version
      by_cases hst : sc = "t"
      · subst hst
        cases ht.symm.trans hsc
      · have hnone : p.state.store.schemas.get ("n", sc) = none :=
          Dict.get_eq_none (by simp [hkeys, hs, hst])
        rw [Store.pointers, hnone] at hsc
        cases hsc
  exact ⟨p, _, hreach, hstep, hpointers, ht, Registry.promotions_compatible Sample.lawful_env
    (Registry.sound_runAll Sample.lawful_env (World.sound_empty _) _) hreach hstep hok hpointers⟩

/-- A `Rollback` to version 1 is compared with version 1 while that is current. Version 2 is promoted
before the rollback is staged, and the next promotion replaces it by version 1 without a check. -/
theorem unchecked_rollback : ∃ p p',
    Pool.Reach World.Executes (fun _ _ _ _ => True)
      (Sample.registry.pool [Sample.publish [1], .promote "n", Sample.publish [1, 2],
        .rollback "n" "s" 1 false, .promote "n", .promote "n"] .empty) p ∧
      Pool.Step World.Executes p 5 (.store (.promote "n")) p' ∧
      p.state.store.pointers "n" "s" = ⟨some 2, some 1⟩ ∧
      p'.state.store.pointers "n" "s" = ⟨some 1, none⟩ ∧
      ¬ p.state.store.Compatible "n" "s" 2 1 := by
  have hrun : ∃ p, Pool.Reach World.Executes (fun _ _ _ _ => True)
      (Sample.registry.pool [Sample.publish [1], .promote "n", Sample.publish [1, 2],
        .rollback "n" "s" 1 false, .promote "n", .promote "n"] .empty) p ∧
      ∃ k old new, p.threads[5]? = some (.call (.store (.promote "n")) k) ∧
      p.state.store.pointers "n" "s" = ⟨some 2, some 1⟩ ∧
      p.state.store.versions.get ("n", "s", 2) = some old ∧
      p.state.store.versions.get ("n", "s", 1) = some new ∧
      (Compat.check (some ⟨2, old.compiled⟩) ⟨1, new.compiled⟩).isEmpty = false :=
    World.exists_reach (List.replicate 15 0 ++ List.replicate 8 1 ++ List.replicate 14 2 ++ List.replicate 3 3 ++
      List.replicate 8 4 ++ List.replicate 3 3 ++ List.replicate 4 5) (Pool.along_true _ _ _)
      ⟨_, rfl, _, _, _, rfl, rfl, rfl, rfl, rfl⟩
  obtain ⟨p, hreach, k, old, new, hthread, hpointers, hold, hnew, hcheck⟩ := hrun
  refine ⟨p, _, hreach, .intro hthread rfl, hpointers, ?_, ?_⟩
  · exact Store.pointers_promote.trans (congrArg SchemaRow.promote hpointers)
  · rintro ⟨old', new', hold', hnew', hok⟩
    cases hold.symm.trans hold'
    cases hnew.symm.trans hnew'
    rw [hok] at hcheck
    cases hcheck

end ProtoRegistry
