import ProtoRegistry.Model.Resolve
import ProtoRegistry.Verify.Builtins

/-!
# Readers during a promotion

`Namespace.Promote` visits the slots of a namespace one after another: it takes the staged snapshot out and
then stores it as current. A concurrent `AllCurrent` finds each schema as it was before the promotion or
as it is after it, but not all schemas on the same side: `promotion_atomic_iff` says when it does.
-/

namespace ProtoRegistry
open RegistryM

namespace Namespaces

variable {m : Namespaces} {ns sc : String}

/-- The current snapshot of a schema after a promotion. -/
def promoted (m : Namespaces) (ns sc : String) : Option Snapshot := (m.staged ns sc).or (m.current ns sc)

/-- A promotion changes the current snapshot of the schema. -/
def Changes (m : Namespaces) (ns sc : String) : Prop := m.promoted ns sc ≠ m.current ns sc

theorem promoted_of_missing (h : sc ∉ m.schemaIDs ns) : m.current ns sc = none ∧ m.promoted ns sc = none := by
  have hslot : m.slot ns sc = none := Option.not_isSome_iff_eq_none.mp (mt mem_schemaIDs.mpr h)
  simp [promoted, current, staged, hslot]

theorem mem_schemaIDs_of_current (h : (m.current ns sc).isSome) : sc ∈ m.schemaIDs ns := by
  by_contra hmem
  rw [(promoted_of_missing hmem).1] at h
  cases h

theorem Changes.mem_schemaIDs (h : m.Changes ns sc) : sc ∈ m.schemaIDs ns := by
  by_contra hmem
  obtain ⟨hcurrent, hpromoted⟩ := promoted_of_missing hmem
  exact h (hpromoted.trans hcurrent.symm)

theorem current_promoteSlot_eq (a : String) :
    (m.promoteSlot ns a).current ns sc = if sc = a then m.promoted ns sc else m.current ns sc := by
  split
  · next heq =>
    subst heq
    cases hstaged : m.staged ns sc with
    | none =>
      rw [promoted, hstaged, promoteSlot, hstaged]
      exact current_clearStaged ns sc
    | some snap => rw [current_promoteSlot hstaged, promoted, hstaged, Option.some_or]
  · next hne => exact congrArg (Option.bind · (·.current)) (slot_promoteSlot_of_ne (Ne.symm hne))

theorem promoted_promoteSlot (a : String) : (m.promoteSlot ns a).promoted ns sc = m.promoted ns sc := by
  rw [promoted, current_promoteSlot_eq, staged_promoteSlot]
  split <;> rfl

theorem current_promoteSlots (ids : List String) : (ids.foldl (fun m sc => m.promoteSlot ns sc) m).current ns sc =
    if sc ∈ ids then m.promoted ns sc else m.current ns sc := by
  induction ids generalizing m with
  | nil => simp
  | cons id ids ih =>
    rw [List.foldl_cons, ih, promoted_promoteSlot, current_promoteSlot_eq]
    simp only [List.mem_cons]
    by_cases hmem : sc ∈ ids <;> simp [hmem]

theorem current_promoteAll : (m.promoteAll ns).current ns sc = m.promoted ns sc := by
  rw [promoteAll, current_promoteSlots]
  split
  · rfl
  · next hmem =>
    obtain ⟨hcurrent, hpromoted⟩ := promoted_of_missing hmem
    rw [hcurrent, hpromoted]

theorem current_setCurrent_cases (m : Namespaces) (ns sc a : String) (snap : Option Snapshot) :
    (m.setCurrent ns a snap).current ns sc = m.current ns sc ∨
      a = sc ∧ (m.setCurrent ns a snap).current ns sc = snap := by
  by_cases ha : a = sc
  · subst ha
    cases hns : m.namespaces.get ns with
    | none => exact .inl (by rw [setCurrent, slot_modifySlot_of_missing hns])
    | some n => exact .inr ⟨rfl, current_setCurrent (by rw [hns]; rfl)⟩
  · have hslot : (m.setCurrent ns a snap).slot ns sc = m.slot ns sc := slot_modifySlot_of_ne fun hkey => ha hkey.2
    exact .inl (by rw [current, hslot, current])

theorem staged_setCurrent_any (a : String) (snap : Option Snapshot) :
    (m.setCurrent ns a snap).staged ns sc = m.staged ns sc := by
  by_cases ha : a = sc
  · subst ha
    exact staged_setCurrent snap
  · have hslot : (m.setCurrent ns a snap).slot ns sc = m.slot ns sc := slot_modifySlot_of_ne fun hkey => ha hkey.2
    rw [staged, hslot, staged]

end Namespaces

/-! ## A promotion and a reader -/

/-- `Namespace.Promote` and `AllCurrent`, each with the order in which its `Range` visits the slots. -/
def promotion (ns : String) (promotes reads : List String) (w : World) :
    Pool registryInterface (Except Err (Option (Dict String Snapshot))) World :=
  let promoter : RegistryM (Option (Dict String Snapshot)) := do
    promotes.forM (Registry.promoteSlot ns)
    return none
  let reader : RegistryM (Option (Dict String Snapshot)) := do
    return some (← allCurrent ns reads)
  ⟨w, [promoter.run, reader.run], []⟩

/-- What the promotion and the reader perform: a snapshot that becomes current was staged. -/
def PromotionGuard (ns : String) (h : CallHistory) : Op → Prop
  | .mem (.swapStaged a _) | .mem (.current a _) => a = ns
  | .mem (.storeCurrent a sc snap) => a = ns ∧ ⟨.mem (.swapStaged ns sc), some snap⟩ ∈ h
  | _ => False

/-- Everything the map has was read, and every slot was read. -/
def ReadFrom (ns : String) (reads : List String) (seen : Dict String Snapshot) (h : CallHistory) : Prop :=
  ∀ sc, ⟨.mem (.current ns sc), seen.get sc⟩ ∈ h ∨ sc ∉ reads ∧ seen.get sc = none

section
variable {ns sc : String} {promotes reads : List String} {w : World} {h : CallHistory}

theorem promotionGuard_promoteSlots (ns : String) (ids : List String) (h : CallHistory) :
    Spec (PromotionGuard ns) (ids.forM (Registry.promoteSlot ns)) h fun _ _ => True := by
  refine Meets.mono (Meets.forM (J := fun _ _ _ => True) (E := fun _ _ => True) (fun done a rest h _ _ => ?_) trivial)
    fun _ _ _ => trivial
  unfold Registry.promoteSlot
  refine spec_mem_bind rfl fun staged => ?_
  cases staged with
  | none => exact Meets.pure trivial
  | some snap => exact ⟨⟨rfl, List.mem_cons_self ..⟩, fun _ _ => trivial⟩

theorem spec_allCurrent (ns : String) (reads : List String) (h : CallHistory) :
    Spec (PromotionGuard ns) (allCurrent ns reads) h
      (Ends (fun seen h' => ReadFrom ns reads seen h') fun _ _ => True) := by
  -- an entry was read, and a slot without an entry was read as empty
  let J (done : List String) (entries : List (Option (String × Snapshot))) (h : CallHistory) : Prop :=
    (∀ sc snap, (sc, snap) ∈ entries.filterMap id → ⟨.mem (.current ns sc), some snap⟩ ∈ h) ∧
      ∀ sc ∈ done, (∀ snap, (sc, snap) ∉ entries.filterMap id) → ⟨.mem (.current ns sc), none⟩ ∈ h
  refine Meets.bind (Meets.mapM (J := J) (E := fun _ _ => True) (fun done entries a h hJ => ?_) ⟨by simp, by simp⟩)
    (fun _ _ _ => trivial) fun entries h' hJ => Meets.pure fun sc => ?_
  rotate_left
  · cases hget : (Dict.ofAssignments (entries.filterMap id)).get sc with
    | some snap => exact .inl (hJ.1 sc snap (Dict.mem_of_get_ofAssignments hget))
    | none =>
      by_cases hmem : sc ∈ reads
      · refine .inl (hJ.2 sc hmem fun snap hsnap => ?_)
        have hsome := Dict.isSome_get_ofAssignments hsnap
        rw [hget] at hsome
        cases hsome
      · exact .inr ⟨hmem, rfl⟩
  · refine spec_mem_bind rfl fun found => Meets.pure ⟨fun sc snap hmem => ?_, fun sc hmem hnone => ?_⟩
    · rw [List.filterMap_append, List.mem_append] at hmem
      obtain hmem | hmem := hmem
      · exact List.mem_cons_of_mem _ (hJ.1 sc snap hmem)
      · cases found with
        | none => simp at hmem
        | some snap' =>
          obtain ⟨rfl, rfl⟩ : sc = a ∧ snap = snap' := by simpa using hmem
          exact List.mem_cons_self ..
    · simp only [List.filterMap_append, List.mem_append, not_or] at hnone
      obtain hmem | hmem := List.mem_append.mp hmem
      · exact List.mem_cons_of_mem _ (hJ.2 sc hmem fun snap => (hnone snap).1)
      · obtain rfl := List.mem_singleton.mp hmem
        cases found with
        | none => exact List.mem_cons_self ..
        | some snap => exact ((hnone snap).2 (by simp)).elim

theorem guarded_promotion (ns : String) (promotes reads : List String) (w : World) :
    (promotion ns promotes reads w).Guarded (fun _ => PromotionGuard ns) fun _ res h =>
      ∀ seen, res = .ok (some seen) → ReadFrom ns reads seen h := by
  intro i t ht
  obtain _ | _ | i := i
  · cases ht
    refine (promotionGuard_promoteSlots ns promotes []).bind (fun _ _ _ seen heq => ?_) fun _ _ _ => ?_
    · cases heq
    · exact Meets.pure fun seen heq => by cases heq
  · cases ht
    refine (spec_allCurrent ns reads []).bind (fun _ _ _ seen heq => ?_) fun seen h' hread => ?_
    · cases heq
    · refine Meets.pure fun seen' heq => ?_
      cases heq
      exact hread
  · cases ht

/-- The result is one that the promotion of the memory of `w₀` allows: a snapshot taken out of its slot was
staged, and a snapshot that is read is on one side or the other. -/
def Allowed (ns : String) (w₀ : World) : (op : Op) → op.Res → Prop
  | .mem (.swapStaged a sc), some snap => a = ns → w₀.memory.staged ns sc = some snap
  | .mem (.current a sc), found => a = ns → found = w₀.memory.current ns sc ∨ found = w₀.memory.promoted ns sc
  | _, _ => True

/-- Halfway through a promotion of the memory of `w₀`. -/
structure Halfway (ns : String) (w₀ w : World) (tr : List (Event registryInterface)) : Prop where
  current : ∀ sc, w.memory.current ns sc = w₀.memory.current ns sc ∨
    w.memory.current ns sc = w₀.memory.promoted ns sc
  staged : ∀ sc snap, w.memory.staged ns sc = some snap → w₀.memory.staged ns sc = some snap
  trace : ∀ e ∈ tr, Allowed ns w₀ e.op e.res

theorem Halfway.init (ns : String) (w : World) : Halfway ns w w [] where
  current _ := .inl rfl
  staged _ _ := id
  trace := by simp

theorem Halfway.step {w₀ w' : World} {tr : List (Event registryInterface)} {op : Op} {res : op.Res}
    (hw : Halfway ns w₀ w tr) (hG : PromotionGuard ns (ownHistory tr i) op) (hstep : World.Executes op w res w') :
    Halfway ns w₀ w' (⟨i, op, res⟩ :: tr) := by
  unfold PromotionGuard at hG
  split at hG
  · next a sc =>
    cases hstep
    subst hG
    refine ⟨fun sc' => ?_, fun sc' snap hsnap => hw.staged sc' snap ?_, List.forall_mem_cons.mpr ⟨?_, hw.trace⟩⟩
    · exact (Namespaces.current_clearStaged ..).symm ▸ hw.current sc'
    · change (w.memory.clearStaged a sc).staged a sc' = some snap at hsnap
      rw [Namespaces.staged_clear] at hsnap
      split at hsnap
      · cases hsnap
      · exact hsnap
    · simp only [Namespaces.perform]
      cases hstaged : w.memory.staged a sc with
      | none => trivial
      | some snap => exact fun _ => hw.staged sc snap hstaged
  · next a sc =>
    cases hstep
    subst hG
    exact ⟨hw.current, hw.staged, List.forall_mem_cons.mpr ⟨fun _ => hw.current sc, hw.trace⟩⟩
  · next a sc snap =>
    cases hstep
    obtain ⟨rfl, htaken⟩ := hG
    have hstaged : w₀.memory.staged a sc = some snap := hw.trace _ (mem_ownHistory.mp htaken) rfl
    refine ⟨fun sc' => ?_, fun sc' snap' hsnap => hw.staged sc' snap' ?_,
      List.forall_mem_cons.mpr ⟨trivial, hw.trace⟩⟩
    · obtain hsame | ⟨rfl, hset⟩ := w.memory.current_setCurrent_cases a sc' sc (some snap)
      · exact hsame.symm ▸ hw.current sc'
      · exact .inr (hset.trans (by rw [Namespaces.promoted, hstaged, Option.some_or]))
    · exact (Namespaces.staged_setCurrent_any sc (some snap)).symm.trans hsnap
  · exact hG.elim

theorem seen_of_reach {p : Pool registryInterface (Except Err (Option (Dict String Snapshot))) World}
    (hreads : reads.Perm (w.memory.schemaIDs ns))
    (h : Pool.Reach World.Executes (fun _ _ _ _ => True) (promotion ns promotes reads w) p)
    (hseen : p.threads[1]? = some (.ret (.ok (some seen)))) (sc : String) :
    seen.get sc = w.memory.current ns sc ∨ seen.get sc = w.memory.promoted ns sc := by
  obtain ⟨hguarded, hhalf⟩ := h.invariant (J := Halfway ns w) (guarded_promotion ns promotes reads w)
    (Halfway.init ns w) (fun hJ hG hstep _ => hJ.step hG hstep)
  obtain hread | ⟨hmem, hnone⟩ := hguarded 1 _ hseen seen rfl sc
  · exact hhalf.trace _ (mem_ownHistory.mp hread) rfl
  · left
    rw [hnone, (Namespaces.promoted_of_missing (mt hreads.mem_iff.mpr hmem)).1]

/-! ## A reader in the middle -/

theorem exec_allCurrent (ns : String) (order : List String) (w : World) :
    ∃ seen, (allCurrent ns order).exec w = (.ok seen, w) ∧
      ∀ sc, seen.get sc = if sc ∈ order then w.memory.current ns sc else none := by
  have hread : ∀ sc ∈ order, RegistryM.exec (do return (← mem (.current ns sc)).map (sc, ·)) w =
      (.ok ((w.memory.current ns sc).map (sc, ·)), w) := fun sc _ => rfl
  have hloop := execute_mapM_of_read hread
  rw [mapM_eq_map fun _ _ => rfl] at hloop
  refine ⟨_, (execute_bind_of_ok hloop).trans rfl, fun sc => ?_⟩
  rw [List.filterMap_map]
  exact Dict.get_ofAssignments_filterMap (w.memory.current ns) order sc

theorem reach_between (ns : String) (done rest reads : List String) (w : World) :
    ∃ p seen, Pool.Reach World.Executes (fun _ _ _ _ => True) (promotion ns (done ++ rest) reads w) p ∧
      p.threads[1]? = some (.ret (.ok (some seen))) ∧ ∀ sc ∈ reads,
        seen.get sc = if sc ∈ done then w.memory.promoted ns sc else w.memory.current ns sc := by
  -- the promotion stands behind the slots it has visited
  have hpromoter : (promotion ns (done ++ rest) reads w).threads[0]? = some (ExceptT.run <|
      done.forM (Registry.promoteSlot ns) >>= fun _ => do rest.forM (Registry.promoteSlot ns); return none) := by
    refine congrArg (some ∘ ExceptT.run) (Eq.trans ?_ (bind_assoc ..))
    exact congrArg (· >>= fun _ => pure none) List.forM_append
  obtain ⟨tr, hdone⟩ := Pool.Reach.run_ok World.executes_perform .refl hpromoter
    (exec_forM_memory (f := fun m sc => m.promoteSlot ns sc) (Registry.exec_promoteSlot ns) done w)
  obtain ⟨seen, hexec, hseen⟩ := exec_allCurrent ns reads _
  obtain ⟨tr', hread⟩ := hdone.run_ok World.executes_perform (i := 1) rfl hexec
  refine ⟨_, seen, hread, rfl, fun sc hsc => ?_⟩
  rw [hseen, if_pos hsc]
  exact Namespaces.current_promoteSlots done

theorem exists_between (hpromotes : promotes.Perm (w.memory.schemaIDs ns)) (ha : w.memory.Changes ns a)
    (hb : w.memory.Changes ns b) (hne : a ≠ b) : ∃ done rest, promotes = done ++ rest ∧
      ∃ first second, w.memory.Changes ns first ∧ w.memory.Changes ns second ∧ first ∈ done ∧ second ∉ done := by
  have hnd : promotes.Nodup := hpromotes.nodup_iff.mpr (w.memory.schemaIDs_nodup ns)
  obtain ⟨before, after, rfl⟩ := List.append_of_mem (hpromotes.mem_iff.mpr ha.mem_schemaIDs)
  by_cases hbefore : b ∈ before
  · refine ⟨before, a :: after, rfl, b, a, hb, ha, hbefore, fun hmem => ?_⟩
    exact (List.nodup_append.mp hnd).2.2 a hmem a (List.mem_cons_self ..) rfl
  · exact ⟨before ++ [a], after, List.append_cons .., a, b, ha, hb, by simp, by simp [hbefore, Ne.symm hne]⟩

end

/-- **Promotions and readers.** Whatever the orders in which they visit the slots, every interleaving of a
promotion with a reader shows the reader all current snapshots from before the promotion or all from after
it, if and only if the promotion changes the current snapshot of at most one schema. -/
theorem promotion_atomic_iff {w : World} {ns : String} {promotes reads : List String}
    (hpromotes : promotes.Perm (w.memory.schemaIDs ns)) (hreads : reads.Perm (w.memory.schemaIDs ns)) :
    (∀ p seen, Pool.Reach World.Executes (fun _ _ _ _ => True) (promotion ns promotes reads w) p →
        p.threads[1]? = some (.ret (.ok (some seen))) →
        (∀ sc, seen.get sc = w.memory.current ns sc) ∨ ∀ sc, seen.get sc = (w.memory.promoteAll ns).current ns sc) ↔
      ∀ a b, w.memory.Changes ns a → w.memory.Changes ns b → a = b := by
  simp only [Namespaces.current_promoteAll]
  constructor
  · intro hatomic a b ha hb
    by_contra hne
    obtain ⟨done, rest, rfl, first, second, hfirst, hsecond, hdone, hrest⟩ := exists_between hpromotes ha hb hne
    obtain ⟨p, seen, hreach, hret, hseen⟩ := reach_between ns done rest reads w
    have hfirst' := hseen first (hreads.mem_iff.mpr hfirst.mem_schemaIDs)
    have hsecond' := hseen second (hreads.mem_iff.mpr hsecond.mem_schemaIDs)
    rw [if_pos hdone] at hfirst'
    rw [if_neg hrest] at hsecond'
    obtain hbefore | hafter := hatomic p seen hreach hret
    · exact hfirst (hfirst'.symm.trans (hbefore first))
    · exact hsecond ((hafter second).symm.trans hsecond')
  · intro hone p seen hreach hret
    have hsides := seen_of_reach hreads hreach hret
    by_cases hbefore : ∀ sc, seen.get sc = w.memory.current ns sc
    · exact .inl hbefore
    · push Not at hbefore
      obtain ⟨a, ha⟩ := hbefore
      have ha' := (hsides a).resolve_left ha
      have hchanges : w.memory.Changes ns a := fun heq => ha (ha'.trans heq)
      refine .inr fun sc => ?_
      -- a schema that does not change is the same on both sides
      by_cases hsc : w.memory.Changes ns sc
      · exact hone a sc hchanges hsc ▸ ha'
      · exact (hsides sc).elim (·.trans (not_not.mp hsc).symm) id

/-- One schema is staged. -/
theorem promotion_atomic_one_staged :
    let w := Sample.registry.runAll [Sample.publishShared [1], .promote "n", Sample.publish [2]] .empty
    w.memory.Changes "n" "s" ∧ ∀ p seen,
      Pool.Reach World.Executes (fun _ _ _ _ => True) (promotion "n" ["s", "t"] ["t", "s"] w) p →
      p.threads[1]? = some (.ret (.ok (some seen))) →
      (∀ sc, seen.get sc = w.memory.current "n" sc) ∨ ∀ sc, seen.get sc = (w.memory.promoteAll "n").current "n" sc := by
  intro w
  have hids : w.memory.schemaIDs "n" = ["t", "s"] := by decide +kernel
  have hchanges : w.memory.Changes "n" "s" := fun heq => by
    have hversion := congrArg (Option.map Snapshot.version) heq
    revert hversion
    decide +kernel
  have hunchanged : ¬ w.memory.Changes "n" "t" := by
    have hstaged : w.memory.staged "n" "t" = none := by
      rw [← Option.isNone_iff_eq_none]
      decide +kernel
    rw [Namespaces.Changes, Namespaces.promoted, hstaged, Option.none_or, not_not]
  refine ⟨hchanges, (promotion_atomic_iff (hids ▸ .swap ..) (hids ▸ .refl _)).mpr fun a b ha hb => ?_⟩
  have honly : ∀ sc, w.memory.Changes "n" sc → sc = "s" := by
    intro sc hsc
    have hmem := hsc.mem_schemaIDs
    rw [hids, List.mem_cons, List.mem_singleton] at hmem
    exact hmem.resolve_left fun heq => hunchanged (heq ▸ hsc)
  rw [honly a ha, honly b hb]

/-- Two new schemas are staged: a reader finds one of them and not the other. -/
theorem promotion_torn :
    let w := Sample.registry.runAll [Sample.publish [1], Sample.publishShared [2]] .empty
    ∃ p seen, Pool.Reach World.Executes (fun _ _ _ _ => True) (promotion "n" ["s", "t"] ["s", "t"] w) p ∧
      p.threads[1]? = some (.ret (.ok (some seen))) ∧
      (w.memory.current "n" "s" = none ∧ (seen.get "s").isSome) ∧
      (((w.memory.promoteAll "n").current "n" "t").isSome ∧ seen.get "t" = none) := by
  intro w
  obtain ⟨p, seen, hreach, hret, hseen⟩ := reach_between "n" ["s"] ["t"] ["s", "t"] w
  have hs := hseen "s" (by simp)
  have ht := hseen "t" (by simp)
  rw [if_pos (by simp)] at hs
  rw [if_neg (by simp)] at ht
  refine ⟨p, seen, hreach, hret, ⟨?_, ?_⟩, ?_, ?_⟩
  · rw [← Option.isNone_iff_eq_none]
    decide +kernel
  · rw [hs]
    decide +kernel
  · decide +kernel
  · rw [ht, ← Option.isNone_iff_eq_none]
    decide +kernel

end ProtoRegistry
