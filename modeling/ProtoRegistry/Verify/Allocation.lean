import ProtoRegistry.Verify.Sessions

/-!
# The numbers of versions

A call that publishes takes the number after the last one it has listed, which may be out of date when it
stores the version. The versions of a schema are still numbered without gaps: a number that was taken in
the meantime is refused, and what was listed is never ahead of what is stored.
-/

namespace ProtoRegistry

/-- The stored versions of the schema are those from 1 to `n`. -/
def Store.Numbered (s : Store) (ns sc : String) (n : Nat) : Prop :=
  ∀ v, (s.versions.get (ns, sc, v)).isSome ↔ 1 ≤ v ∧ v ≤ n

/-- An operation as the store sees it: a call takes effect or fails, and memory may hold anything. -/
def World.StoreSteps : (op : Op) → World → op.Res → World → Prop
  | .store op, w, res, w' =>
    res = (w.store.perform op).1 ∧ w'.store = (w.store.perform op).2 ∨
      (∃ e, res = .error e) ∧ w'.store = w.store
  | .mem _, w, _, w' => w'.store = w.store

namespace World

variable {w w' : World} {op : Op} {res : op.Res} {ns sc : String} {n v : Nat}

theorem Executes.storeSteps (h : Executes op w res w') : StoreSteps op w res w' := by
  cases op with
  | store op =>
    cases h
    exact .inl ⟨rfl, rfl⟩
  | mem op =>
    rw [h.state]
    rfl

/-- The only step that writes versions of a schema is a `putVersion` that succeeds, and it adds one. -/
theorem StoreSteps.versions (h : StoreSteps op w res w') (ns sc : String) :
    (∀ v, w'.store.versions.get (ns, sc, v) = w.store.versions.get (ns, sc, v)) ∧
      (∀ v row, (⟨op, res⟩ : (op : Op) × op.Res) ≠ ⟨.store (.putVersion ns sc v row), .ok ()⟩) ∨
    ∃ v row, (⟨op, res⟩ : (op : Op) × op.Res) = ⟨.store (.putVersion ns sc v row), .ok ()⟩ ∧
      w.store.versions.get (ns, sc, v) = none ∧
      ∀ v', w'.store.versions.get (ns, sc, v') = if v' = v then some row else w.store.versions.get (ns, sc, v') := by
  have hkeep : w'.store.versions = w.store.versions →
      ∀ v, w'.store.versions.get (ns, sc, v) = w.store.versions.get (ns, sc, v) := fun heq v => by rw [heq]
  cases op with
  | mem op => exact .inl ⟨hkeep (congrArg Store.versions h), by simp⟩
  | store op =>
    obtain ⟨rfl, hw'⟩ | ⟨⟨e, rfl⟩, hw'⟩ := h
    · by_cases hop : ∀ ns sc v row, op ≠ .putVersion ns sc v row
      · refine .inl ⟨hkeep (by rw [hw', Store.versions_perform hop]), fun v row heq => ?_⟩
        exact hop ns sc v row (Op.store.inj (Sigma.mk.inj heq).1)
      · push Not at hop
        obtain ⟨ns', sc', v, row, rfl⟩ := hop
        simp only [Store.perform, Store.putVersion] at hw' ⊢
        cases hviolation : w.store.versionViolation ns' sc' v row with
        | some e =>
          rw [hviolation] at hw'
          exact .inl ⟨hkeep (by rw [hw']), by simp⟩
        | none =>
          rw [hviolation] at hw'
          by_cases hkey : ns' = ns ∧ sc' = sc
          · obtain ⟨rfl, rfl⟩ := hkey
            refine .inr ⟨v, row, rfl, (Store.versionViolation_eq_none_iff.mp hviolation).1, fun v' => ?_⟩
            rw [hw', Dict.get_set]
            simp
          · refine .inl ⟨fun v' => ?_, fun v' row' heq => ?_⟩
            · rw [hw', Dict.get_set_of_ne]
              intro heq
              cases heq
              exact hkey ⟨rfl, rfl⟩
            · cases heq
              exact hkey ⟨rfl, rfl⟩
    · refine .inl ⟨hkeep (congrArg Store.versions hw'), fun v row heq => ?_⟩
      cases heq

theorem StoreSteps.get_versions {row : VersionRow} (h : StoreSteps op w res w')
    (hrow : w.store.versions.get (ns, sc, v) = some row) : w'.store.versions.get (ns, sc, v) = some row := by
  obtain ⟨heq, -⟩ | ⟨v', row', -, hnone, heq⟩ := h.versions ns sc
  · rw [heq, hrow]
  · have hne : v ≠ v' := by
      intro hv
      rw [hv, hnone] at hrow
      cases hrow
    rw [heq, if_neg hne, hrow]

end World

theorem Store.Numbered.nextVersion_le {s : Store} (h : s.Numbered ns sc n) :
    Registry.nextVersion (s.listVersions ns sc) ≤ n + 1 := by
  unfold Registry.nextVersion
  split
  · omega
  · next v hv =>
    have hstored := Store.mem_listVersions.mp (List.mem_of_getLast? hv)
    have := (h v).mp hstored
    omega

/-! ## Interleavings -/

/-- While calls publish versions of a schema: what they have listed is not ahead of what is stored, and
each number has been stored once. -/
structure World.Allocating (w : World) (tr : List (Event registryInterface)) (ns sc : String) (n : Nat) : Prop where
  numbered : w.store.Numbered ns sc n
  listed : ∀ {i versions}, ⟨i, .store (.listVersions ns sc), .ok versions⟩ ∈ tr →
    Registry.nextVersion versions ≤ n + 1
  stored : ∀ {i v row}, ⟨i, .store (.putVersion ns sc v row), .ok ()⟩ ∈ tr →
    (w.store.versions.get (ns, sc, v)).isSome
  once : ∀ {i j v row row'}, ⟨i, .store (.putVersion ns sc v row), .ok ()⟩ ∈ tr →
    ⟨j, .store (.putVersion ns sc v row'), .ok ()⟩ ∈ tr → i = j

section
variable {r : Registry} {calls : List Call} {w w' : World} {tr : List (Event registryInterface)} {i : Nat}
  {op : Op} {res : op.Res} {ns sc : String} {n : Nat}

theorem World.Allocating.listed_step (h : w.Allocating tr ns sc n) (hstep : StoreSteps op w res w')
    (hmem : ⟨j, .store (.listVersions ns sc), .ok versions⟩ ∈ (⟨i, op, res⟩ :: tr : List (Event registryInterface))) :
    Registry.nextVersion versions ≤ n + 1 := by
  obtain heq | hmem := List.mem_cons.mp hmem
  · cases heq
    obtain ⟨heq, -⟩ | ⟨⟨e, heq⟩, -⟩ := hstep
    · cases heq
      exact h.numbered.nextVersion_le
    · cases heq
  · exact h.listed hmem

theorem World.Allocating.stored_step {row : VersionRow} (h : w.Allocating tr ns sc n) (hstep : StoreSteps op w res w')
    (hmem : ⟨j, .store (.putVersion ns sc v row), .ok ()⟩ ∈ tr) :
    (w'.store.versions.get (ns, sc, v)).isSome := by
  obtain ⟨row', hrow⟩ := Option.isSome_iff_exists.mp (h.stored hmem)
  exact Option.isSome_iff_exists.mpr ⟨row', hstep.get_versions hrow⟩

theorem World.Allocating.eq_succ (h : w.Allocating tr ns sc n) (hv : Allocated (ownHistory tr i) ns sc v)
    (hnew : w.store.versions.get (ns, sc, v) = none) : v = n + 1 := by
  have hne := hv.ne_zero
  obtain ⟨versions, hversions, rfl⟩ := hv
  have hle := h.listed (mem_ownHistory.mp hversions)
  have hnot : ¬ (1 ≤ Registry.nextVersion versions ∧ Registry.nextVersion versions ≤ n) := by
    rw [← h.numbered, hnew]
    simp
  omega

theorem World.Allocating.step (h : w.Allocating tr ns sc n) (hG : r.poolGuard calls i (ownHistory tr i) op)
    (hstep : StoreSteps op w res w') : ∃ n', n ≤ n' ∧ w'.Allocating (⟨i, op, res⟩ :: tr) ns sc n' := by
  obtain ⟨hsame, hother⟩ | ⟨v, row, heq, hnew, hset⟩ := hstep.versions ns sc
  · have hold : ∀ {j v row}, ⟨j, .store (.putVersion ns sc v row), .ok ()⟩ ∈
        (⟨i, op, res⟩ :: tr : List (Event registryInterface)) →
        ⟨j, .store (.putVersion ns sc v row), .ok ()⟩ ∈ tr := by
      intro j v row hmem
      refine (List.mem_cons.mp hmem).resolve_left fun heq => ?_
      cases heq
      exact hother v row rfl
    refine ⟨n, le_rfl, fun v => ?_, h.listed_step hstep, fun hmem => h.stored_step hstep (hold hmem),
      fun hmem hmem' => h.once (hold hmem) (hold hmem')⟩
    rw [hsame]
    exact h.numbered v
  · cases heq
    obtain ⟨c, -, -, -, hallocated, -⟩ := hG
    have hnext := h.eq_succ hallocated hnew
    -- no call has stored this number before
    have hfresh : ∀ {j row'}, ⟨j, .store (.putVersion ns sc v row'), .ok ()⟩ ∉ tr := by
      intro j row' hmem
      have hsome := h.stored hmem
      rw [hnew] at hsome
      cases hsome
    refine ⟨n + 1, by omega, fun u => ?_, fun hmem => (h.listed_step hstep hmem).trans (by omega), fun hmem => ?_,
      fun hmem hmem' => ?_⟩
    · rw [hset]
      split
      · simp only [Option.isSome_some, true_iff]
        omega
      · rw [h.numbered u]
        omega
    · obtain heq | hmem := List.mem_cons.mp hmem
      · cases heq
        rw [hset, if_pos rfl]
        rfl
      · exact h.stored_step hstep hmem
    · obtain heq | hmem := List.mem_cons.mp hmem
      · cases heq
        obtain heq' | hmem' := List.mem_cons.mp hmem'
        · cases heq'
          rfl
        · exact (hfresh hmem').elim
      · obtain heq' | hmem' := List.mem_cons.mp hmem'
        · cases heq'
          exact (hfresh hmem).elim
        · exact h.once hmem hmem'

theorem Registry.allocating_of_reach (hcalls : ∀ c ∈ calls, c.Publishes ns sc) (hw : w.store.Numbered ns sc n)
    {p : Pool registryInterface (Except Err Reply) World}
    (h : Pool.Reach World.StoreSteps (fun _ _ _ _ => True) (r.pool calls w) p) :
    p.Guarded (r.poolGuard calls) (fun i res h => ∃ c, calls[i]? = some c ∧ mirror h = orBefore c.outcome res) ∧
      (∃ n', n ≤ n' ∧ p.state.Allocating p.trace ns sc n') ∧ Pool.TraceGuarded (r.poolGuard calls) p.trace := by
  have hlaw : ∀ c ∈ calls, c.IsRollback → r.env.Lawful := by
    intro c hc hrollback
    have hpub := hcalls c hc
    cases c with
    | rollback => exact hpub.elim
    | _ => exact hrollback.elim
  have hinit : w.Allocating [] ns sc n := ⟨hw, by simp, by simp, by simp⟩
  refine Pool.Reach.invariant
    (J := fun w tr => (∃ n', n ≤ n' ∧ w.Allocating tr ns sc n') ∧ Pool.TraceGuarded (r.poolGuard calls) tr)
    (r.guarded_pool calls w hlaw) ⟨⟨n, le_rfl, hinit⟩, Pool.TraceGuarded.nil⟩ ?_ h
  intro w tr i op res w' ⟨⟨n', hn', hw⟩, htr⟩ hG hstep _
  obtain ⟨n'', hn'', hw'⟩ := hw.step hG hstep
  exact ⟨⟨n'', hn'.trans hn'', hw'⟩, htr.cons hG _⟩

theorem setStaged_of_mirror {h : CallHistory} (hm : mirror h = .stage ns sc v ∨ mirror h = .staged ns sc v) :
    ∃ u, ⟨.store (.setStaged ns sc v), .ok u⟩ ∈ h := by
  induction h with
  | nil => rcases hm with hm | hm <;> cases hm
  | cons e h ih =>
    obtain ⟨op, res⟩ := e
    rw [mirror_cons rfl] at hm
    have hcases : (mirror h = .stage ns sc v ∨ mirror h = .staged ns sc v) ∨
        ∃ u, (⟨op, res⟩ : (op : Op) × op.Res) = ⟨.store (.setStaged ns sc v), .ok u⟩ := by
      rcases hm with hm | hm
      · exact (Mirror.of_next_eq_stage hm).imp_left .inl
      · exact .inl (Mirror.of_next_eq_staged hm).symm
    obtain hold | ⟨u, heq⟩ := hcases
    · obtain ⟨u, hu⟩ := ih hold
      exact ⟨u, List.mem_cons_of_mem _ hu⟩
    · exact ⟨u, heq ▸ List.mem_cons_self ..⟩

def Returned (p : Pool registryInterface (Except Err Reply) World) (i v : Nat) : Prop :=
  ∃ res : PublishResult, p.threads[i]? = some (.ret (.ok (.published res))) ∧ res.noChange = false ∧ res.version = v

theorem putVersion_of_returned {p : Pool registryInterface (Except Err Reply) World}
    (hcalls : ∀ c ∈ calls, c.Publishes ns sc)
    (hguarded : p.Guarded (r.poolGuard calls) fun i res h => ∃ c, calls[i]? = some c ∧
      mirror h = orBefore c.outcome res)
    (htrace : Pool.TraceGuarded (r.poolGuard calls) p.trace) (hreturned : Returned p i v) :
    ∃ row, ⟨i, .store (.putVersion ns sc v row), .ok ()⟩ ∈ p.trace := by
  obtain ⟨res, hthread, hnew, rfl⟩ := hreturned
  obtain ⟨c, hc, hm⟩ := hguarded i _ hthread
  have hpub := hcalls c (List.mem_of_getElem? hc)
  have hstaged : mirror (ownHistory p.trace i) = .staged ns sc res.version := by
    rw [hm]
    cases c with
    | publish req =>
      obtain ⟨rfl, rfl⟩ := hpub
      simp [orBefore, Call.outcome, PublishResult.outcome, hnew]
    | rebase ns' sc' =>
      obtain ⟨rfl, rfl⟩ := hpub
      simp [orBefore, Call.outcome, PublishResult.outcome, hnew]
    | _ => exact hpub.elim
  obtain ⟨u, hu⟩ := setStaged_of_mirror (.inr hstaged)
  obtain ⟨tr₁, tr₂, htr⟩ := List.append_of_mem (mem_ownHistory.mp hu)
  obtain ⟨c', hc', -, hstages⟩ := htrace htr
  cases hc.symm.trans hc'
  obtain ⟨-, -, row, hput⟩ | ⟨force, row, snap, rfl, -⟩ := hstages
  · refine ⟨row, ?_⟩
    rw [htr]
    exact List.mem_append_right _ (List.mem_cons_of_mem _ (mem_ownHistory.mp hput))
  · exact hpub.elim

end

/-- **Versions are numbered without gaps**, never change once they are stored, and no number is returned
twice, for every interleaving of calls that publish versions of one schema. -/
theorem Registry.versions_allocated {r : Registry} {calls : List Call} (hcalls : ∀ c ∈ calls, c.Publishes ns sc)
    {w : World} (hw : w.store.Numbered ns sc n₀) {p : Pool registryInterface (Except Err Reply) World}
    (h : Pool.Reach World.StoreSteps (fun _ _ _ _ => True) (r.pool calls w) p) :
    (∃ n, n₀ ≤ n ∧ p.state.store.Numbered ns sc n) ∧
      (∀ p', Pool.Reach World.StoreSteps (fun _ _ _ _ => True) p p' → ∀ v row,
        p.state.store.versions.get (ns, sc, v) = some row → p'.state.store.versions.get (ns, sc, v) = some row) ∧
      ∀ i j v, Returned p i v → Returned p j v → i = j := by
  obtain ⟨hguarded, ⟨n, hn, hp⟩, htrace⟩ := allocating_of_reach hcalls hw h
  refine ⟨⟨n, hn, hp.numbered⟩, fun p' hp' v row hrow => ?_, fun i j v hi hj => ?_⟩
  · exact hp'.induct (J := fun w _ => w.store.versions.get (ns, sc, v) = some row) hrow
      fun hrow hstep _ => hstep.get_versions hrow
  · obtain ⟨row, hput⟩ := putVersion_of_returned hcalls hguarded htrace hi
    obtain ⟨row', hput'⟩ := putVersion_of_returned hcalls hguarded htrace hj
    exact hp.once hput hput'

/-- Two calls list the versions before either has stored one. The second is refused. -/
theorem versions_allocated_stale : ∃ p,
    Pool.Reach World.StoreSteps (fun _ _ _ _ => True)
      (Sample.registry.pool [Sample.publish [1], Sample.publish [2]] .empty) p ∧
      p.Finished ∧ Returned p 0 1 ∧ ¬ Returned p 1 1 ∧ ∃ n, p.state.store.Numbered "n" "s" n := by
  have hrun : ∃ p, Pool.Reach World.Executes (fun _ _ _ _ => True)
      (Sample.registry.pool [Sample.publish [1], Sample.publish [2]] .empty) p ∧ p.Finished ∧ Returned p 0 1 :=
    World.exists_reach (List.replicate 9 0 ++ List.replicate 9 1 ++ List.replicate 6 0 ++ List.replicate 2 1)
      (Pool.along_true _ _ _) ⟨_, rfl, Pool.finished_iff.mpr rfl, _, rfl, rfl, rfl⟩
  obtain ⟨p, hreach, hfin, hfirst⟩ := hrun
  have hcalls : ∀ c ∈ [Sample.publish [1], Sample.publish [2]], c.Publishes "n" "s" := by
    intro c hc
    rcases List.mem_pair.mp hc with rfl | rfl
    · exact ⟨rfl, rfl⟩
    · exact ⟨rfl, rfl⟩
  have hnone : World.empty.store.Numbered "n" "s" 0 := by
    intro v
    simp only [World.empty, Store.empty, Dict.get_empty, Option.isSome_none, Bool.false_eq_true, false_iff]
    omega
  have hallocated := Registry.versions_allocated hcalls hnone (hreach.mono World.Executes.storeSteps)
  refine ⟨p, hreach.mono World.Executes.storeSteps, hfin, hfirst, ?_, ?_⟩
  · intro hreturned
    cases hallocated.2.2 0 1 1 hfirst hreturned
  · obtain ⟨n, -, hn⟩ := hallocated.1
    exact ⟨n, hn⟩

end ProtoRegistry
