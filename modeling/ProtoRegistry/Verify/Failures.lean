import ProtoRegistry.Verify.Sessions

/-!
# Calls that fail

A call moves the pointers of the store in one operation, and writes slots after it. Nothing it does
afterwards can fail. So a call that returns an error has moved nothing, whichever calls of the store have
failed on the way.
-/

namespace ProtoRegistry
open RegistryM

section
variable {r : Registry} {h : CallHistory} {ns sc : String}

theorem slotGuard_of_quiet {op : Op} (hop : Quiet op) : SlotGuard h op := by
  cases op with
  | store op => trivial
  | mem op => exact fun ns sc ht _ => (WritesParents.of_quiet hop).not_touches ht

theorem spec_slots_quiet {x : RegistryM α} (hx : Uses Quiet x) (hbefore : mirror h = .before) :
    Spec SlotGuard x h fun _ h' => mirror h' = .before := by
  refine (Spec.ofUses (K := fun h => mirror h = .before) hx (fun _ _ _ hop => slotGuard_of_quiet hop) ?_
    hbefore).mono fun _ _ hh => hh.2
  intro h op res hb hop
  exact (mirror_cons hb).trans (Mirror.next_before_of_quiet hop res)

theorem checkRollback_quiet (snap : Snapshot) : Uses Quiet (Registry.checkRollback ns sc snap) :=
  (Registry.checkRollback_scoped (fun op => quiet_of_readsIn (.mem op)) trivial sc snap).done

/-- What `spec_rollback` says of the pointers, for descriptor sets that are read back in any way. -/
theorem spec_rollback_slots {v : Nat} {force : Bool} :
    Spec SlotGuard (r.rollback ns sc v force) [] fun res h' =>
      ∀ e, res = .error e → mirror h' = .before := by
  unfold Registry.rollback
  refine spec_store_bind trivial (fun _ _ _ _ => rfl) fun row => ?_
  refine spec_liftExcept_bind (fun _ _ _ _ => rfl) fun snap _ => ?_
  have hstage : ∀ h, mirror h = .before → Spec SlotGuard (do
      (store (.setStaged ns sc v)).wrap ("setting staged to version " ++ toString v)
      mem (.getOrCreate ns)
      mem (.setStaged ns sc snap) : RegistryM Unit) h fun res h' =>
        ∀ e, res = .error e → mirror h' = .before := by
    intro h hbefore
    refine spec_store_bind trivial (fun _ _ _ _ => mirror_cons hbefore) fun u => ?_
    refine spec_mem_bind (slotGuard_of_quiet trivial) fun u' => ?_
    have hm : mirror (⟨.mem (.getOrCreate ns), u'⟩ :: ⟨.store (.setStaged ns sc v), .ok u⟩ :: h) =
        .stage ns sc v := mirror_cons (mirror_cons hbefore)
    refine (spec_mem fun _ _ _ hb => ?_).mono fun res h' hres e he => ?_
    · cases hm.symm.trans hb
    · obtain ⟨_, rfl, -⟩ := hres
      cases he
  cases force with
  | true => exact hstage _ rfl
  | false =>
    refine (spec_slots_quiet (checkRollback_quiet snap) rfl).bind (fun _ _ hb _ _ => hb) ?_
    exact fun _ h' hb => hstage h' hb

theorem run_slots (c : Call) :
    Spec SlotGuard (r.run c) [] fun res h => ∀ e, res = .error e → mirror h = .before := by
  by_cases hc : c.IsRollback
  · cases c with
    | rollback ns sc v force =>
      exact spec_rollback_slots.bind (fun _ _ hres e _ => hres _ rfl) fun _ _ _ => Meets.pure (by simp)
    | _ => exact hc.elim
  · refine (Prog.Contract.weaken (fun _ _ => slotGuard_of_callGuard) (run_spec c fun h => (hc h).elim)).mono ?_
    rintro _ h hm e rfl
    exact hm

end

/-- **A call that fails moves nothing**: not the pointers of the store, and not the snapshots in memory,
whatever the state it starts in and whichever calls of the store fail. -/
theorem Registry.failed_call_moves_nothing {r : Registry} {fails : Nat → Option Err} {c : Call} {w : World}
    {e : Err} (herr : (r.execFailing fails c w).1 = .error e) (ns sc : String) :
    (r.execFailing fails c w).2.store.pointers ns sc = w.store.pointers ns sc ∧
      (r.execFailing fails c w).2.memory.current ns sc = w.memory.current ns sc ∧
      (r.execFailing fails c w).2.memory.staged ns sc = w.memory.staged ns sc := by
  obtain ⟨h, hend, hu⟩ := Prog.Guarded.exec (World.performFailing fails)
    (J := fun s h => mirror h = .before → w.Unmoved s.1)
    (by
      intro ⟨w', n⟩ h op hJ hG hafter
      rw [mirror_cons rfl] at hafter
      have hbefore := Mirror.of_next_eq_before hafter
      cases op with
      | mem op => exact (hJ hbefore).perform hG hbefore hafter
      | store op =>
        cases hfails : fails n with
        | some e =>
          simp only [World.performFailing, hfails]
          exact hJ hbefore
        | none =>
          simp only [World.performFailing, hfails] at hafter ⊢
          exact (hJ hbefore).perform hG hbefore hafter)
    (run_slots c) (s := (w, 0)) fun _ => .refl w
  have hmoved := hu (hend e herr)
  exact ⟨hmoved.pointers ns sc, hmoved.current, hmoved.staged⟩

def stagingFails (n : Nat) : Option Err := if n = 10 then some { text := "connection reset" } else none

theorem unstaged_publish_moves_nothing :
    let res := Sample.registry.execFailing stagingFails (Sample.publish [1]) .empty
    res.1.toOption.isNone ∧ (res.2.store.versions.get ("n", "s", 1)).isSome ∧
      res.2.store.pointers "n" "s" = ⟨none, none⟩ ∧ res.2.memory.staged "n" "s" = none := by
  obtain ⟨e, herr, hrow⟩ : ∃ e, (Sample.registry.execFailing stagingFails (Sample.publish [1]) .empty).1 = .error e ∧
      ((Sample.registry.execFailing stagingFails (Sample.publish [1]) .empty).2.store.versions.get
        ("n", "s", 1)).isSome := ⟨_, rfl, rfl⟩
  have hmoved := Registry.failed_call_moves_nothing herr "n" "s"
  refine ⟨?_, hrow, hmoved.1, hmoved.2.2⟩
  rw [herr]
  rfl

end ProtoRegistry
