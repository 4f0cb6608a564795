import ProtoRegistry.Verify.Promotion

/-!
# The order in which a resolver visits snapshots

`resolve.Resolver` returns the first answer it finds among the current snapshots of a namespace, in an order
that Go does not specify. The order does not matter when the snapshots agree on what they have in common.
They carry copies of the files they import, so they agree only as long as every promotion leaves them so.
-/

namespace ProtoRegistry
open RegistryM

theorem findSome?_eq_of_agree {f : α → Option β} {l l' : List α} (hmem : ∀ a, a ∈ l ↔ a ∈ l')
    (hagree : ∀ a b x y, f a = some x → f b = some y → x = y) : l.findSome? f = l'.findSome? f := by
  cases hx : l.findSome? f with
  | none =>
    rw [List.findSome?_eq_none_iff] at hx
    exact (List.findSome?_eq_none_iff.mpr fun a ha => hx a ((hmem a).mpr ha)).symm
  | some x =>
    obtain ⟨a, ha, hfa⟩ := List.exists_of_findSome?_eq_some hx
    cases hy : l'.findSome? f with
    | none => exact absurd hfa (by rw [List.findSome?_eq_none_iff.mp hy a ((hmem a).mp ha)]; simp)
    | some y =>
      obtain ⟨b, -, hfb⟩ := List.exists_of_findSome?_eq_some hy
      rw [hagree a b x y hfa hfb]

/-! ## Agreement of snapshots -/

/-- Files of the same path are the same, and so are declarations of the same name. -/
structure Snapshot.Agrees (s t : Snapshot) : Prop where
  files : ∀ f ∈ s.fileList, ∀ g ∈ t.fileList, f.path = g.path → f = g
  descriptors : ∀ f ∈ s.fileList, ∀ g ∈ t.fileList, ∀ d ∈ f.descriptors, ∀ e ∈ g.descriptors,
    d.fullName = e.fullName → d = e

theorem Snapshot.agrees_of_apart {s t : Snapshot} (hnames : ∀ f ∈ s.fileList, f.declared.Nodup)
    (h : ∀ f ∈ s.fileList, ∀ g ∈ t.fileList, f = g ∨ f.path ≠ g.path ∧ ∀ n ∈ f.declared, n ∉ g.declared) :
    s.Agrees t where
  files f hf g hg hpath := (h f hf g hg).resolve_right fun hapart => hapart.1 hpath
  descriptors f hf g hg d hd e he hname := by
    obtain rfl | ⟨-, hapart⟩ := h f hf g hg
    · exact List.inj_on_of_nodup_map (f.map_descriptors ▸ hnames f hf) hd he hname
    · have hdeclared : d.fullName ∈ f.declared := f.map_descriptors ▸ List.mem_map_of_mem hd
      have hdeclared' : e.fullName ∈ g.declared := g.map_descriptors ▸ List.mem_map_of_mem he
      exact absurd (hname ▸ hdeclared') (hapart _ hdeclared)

/-- The snapshots of different schemas agree. -/
def Agreeing (snaps : String → Option Snapshot) : Prop :=
  ∀ a b s t, a ≠ b → snaps a = some s → snaps b = some t → s.Agrees t

/-- The question has the same answer in the snapshots of all schemas that have one. -/
theorem Agreeing.answers {snaps : String → Option Snapshot} {find : Snapshot → Option α} (h : Agreeing snaps)
    (hfind : ∀ s t x y, s.Agrees t → find s = some x → find t = some y → x = y) (a b : String) (x y : α)
    (hx : (snaps a).bind find = some x) (hy : (snaps b).bind find = some y) : x = y := by
  obtain ⟨s, hs, hfs⟩ := Option.bind_eq_some_iff.mp hx
  obtain ⟨t, ht, hft⟩ := Option.bind_eq_some_iff.mp hy
  by_cases hab : a = b
  · subst hab
    exact Option.some.inj (hx.symm.trans hy)
  · exact hfind s t x y (h a b s t hab hs ht) hfs hft

theorem MessageDescriptor.message_mem_descriptors {m md : MessageDescriptor} (h : .message m ∈ md.types) :
    .message m ∈ md.descriptors := by
  induction md using MessageDescriptor.nested_induction with
  | h md ih =>
    obtain ⟨n, fs, os, ms, es, xs⟩ := md
    rw [MessageDescriptor.types] at h
    rw [MessageDescriptor.descriptors]
    simp only [List.mem_cons, List.mem_append, List.mem_map, TypeDescriptor.message.injEq, Descriptor.message.injEq,
      mem_messagesTypes, mem_messagesDescriptors, reduceCtorEq, and_false, exists_false, or_false] at h ⊢
    obtain h | ⟨m', hm', h⟩ := h
    · exact .inl h
    · exact .inr (.inl (.inr ⟨m', hm', ih m' hm' h⟩))

theorem FileDescriptor.message_mem_descriptors {fd : FileDescriptor} (h : .message m ∈ fd.types) :
    .message m ∈ fd.descriptors := by
  rw [FileDescriptor.types] at h
  rw [FileDescriptor.descriptors]
  simp only [List.mem_append, List.mem_map, mem_messagesTypes, mem_messagesDescriptors, reduceCtorEq, and_false,
    exists_false, or_false] at h ⊢
  obtain ⟨md, hmd, h⟩ := h
  exact .inl (.inl ⟨md, hmd, MessageDescriptor.message_mem_descriptors h⟩)

namespace Snapshot

variable {s t : Snapshot}

theorem mem_of_findFileByPath (h : s.findFileByPath path = some f) : f ∈ s.fileList ∧ f.path = path :=
  ⟨List.mem_of_find?_eq_some h, by simpa using List.find?_some h⟩

theorem mem_of_findDescriptorByName (h : s.findDescriptorByName name = some d) :
    (∃ f ∈ s.fileList, d ∈ f.descriptors) ∧ d.fullName = name :=
  ⟨List.mem_flatMap.mp (List.mem_of_find?_eq_some h), by simpa using List.find?_some h⟩

theorem mem_of_findMessageByName (h : s.findMessageByName name = some m) :
    (∃ f ∈ s.fileList, .message m ∈ f.descriptors) ∧ m.fullName = name := by
  obtain ⟨type, htype, hm⟩ := List.exists_of_findSome?_eq_some h
  obtain ⟨f, hf, htype⟩ := List.mem_flatMap.mp htype
  cases type with
  | message m' =>
    obtain ⟨hname, rfl⟩ : m'.fullName = name ∧ m' = m := by simpa using hm
    exact ⟨⟨f, hf, f.message_mem_descriptors htype⟩, hname⟩
  | enum | extension => cases hm

theorem Agrees.findFileByPath (h : s.Agrees t) (hs : s.findFileByPath path = some f)
    (ht : t.findFileByPath path = some g) : f = g := by
  obtain ⟨hf, hpath⟩ := mem_of_findFileByPath hs
  obtain ⟨hg, hpath'⟩ := mem_of_findFileByPath ht
  exact h.files f hf g hg (hpath.trans hpath'.symm)

theorem Agrees.findDescriptorByName (h : s.Agrees t) (hs : s.findDescriptorByName name = some d)
    (ht : t.findDescriptorByName name = some e) : d = e := by
  obtain ⟨⟨f, hf, hd⟩, hname⟩ := mem_of_findDescriptorByName hs
  obtain ⟨⟨g, hg, he⟩, hname'⟩ := mem_of_findDescriptorByName ht
  exact h.descriptors f hf g hg d hd e he (hname.trans hname'.symm)

theorem Agrees.findMessageByName (h : s.Agrees t) (hs : s.findMessageByName name = some m)
    (ht : t.findMessageByName name = some m') : m = m' := by
  obtain ⟨⟨f, hf, hd⟩, hname⟩ := mem_of_findMessageByName hs
  obtain ⟨⟨g, hg, he⟩, hname'⟩ := mem_of_findMessageByName ht
  cases h.descriptors f hf g hg _ hd _ he (hname.trans hname'.symm)
  rfl

end Snapshot

/-! ## Lookups as functions of memory -/

/-- `findInTiers` as a function of memory. -/
def Namespaces.findInTiers (m : Namespaces) (find : Snapshot → Option α) (order : String → List String) :
    List String → Except LookupErr (α × String)
  | [] => .error .notFound
  | ns :: rest =>
    match (order ns).findSome? fun sc => (m.current ns sc).bind find with
    | some a => .ok (a, ns)
    | none => m.findInTiers find order rest

theorem exec_findInTiers (find : Snapshot → Option α) (order : String → List String) (tiers : List String)
    (w : World) : (findInTiers find order tiers).exec w = (.ok (w.memory.findInTiers find order tiers), w) := by
  induction tiers with
  | nil => rfl
  | cons ns rest ih =>
    obtain ⟨seen, hexec, hseen⟩ := exec_allCurrent ns (w.memory.schemaIDs ns) w
    have hget : seen.get = w.memory.current ns := by
      funext sc
      rw [hseen]
      split
      · rfl
      · next hmem => exact (Namespaces.promoted_of_missing hmem).1.symm
    unfold ProtoRegistry.findInTiers Namespaces.findInTiers
    refine (execute_bind_of_ok (exec_mem (.schemaIDs ns) w)).trans ((execute_bind_of_ok hexec).trans ?_)
    simp only [hget]
    cases (order ns).findSome? fun sc => (w.memory.current ns sc).bind find with
    | some a => rfl
    | none => exact ih

theorem exec_findWithOrigin (find : Snapshot → Option α) (order : String → List String) (ns : String) (w : World) :
    (findWithOrigin find order ns).exec w =
      (.ok (w.memory.findInTiers find order (chainOf w.memory.parent chainMaxDepth ns [])), w) :=
  (execute_bind_of_ok (exec_chainFrom ..)).trans (exec_findInTiers ..)

/-- A map is iterated in some order of its keys. -/
def Namespaces.IterationOrder (m : Namespaces) (order : String → List String) : Prop :=
  ∀ ns, (order ns).Nodup ∧ ∀ sc, sc ∈ order ns ↔ (m.current ns sc).isSome

theorem Namespaces.iterationOrder_of_keys {m : Namespaces} {schemas : List String} (hkeys : m.namespaces.keys = [ns])
    (hcurrent : ∀ sc ∈ m.schemaIDs ns, (m.current ns sc).isSome) (hperm : schemas.Perm (m.schemaIDs ns)) :
    m.IterationOrder fun a => if a = ns then schemas else [] := by
  intro a
  by_cases ha : a = ns
  · subst ha
    simp only [if_true]
    refine ⟨hperm.nodup_iff.mpr (m.schemaIDs_nodup a), fun sc => hperm.mem_iff.trans ⟨hcurrent sc, ?_⟩⟩
    exact mem_schemaIDs_of_current
  · simp only [if_neg ha]
    refine ⟨List.nodup_nil, fun sc => ?_⟩
    have hmissing : m.namespaces.get a = none := Dict.get_eq_none (by rw [hkeys]; simpa using ha)
    simp [current, slot_of_missing hmissing]

section
variable {w : World} {order order' : String → List String} {find : Snapshot → Option α}

theorem findWithOrigin_eq (hagree : ∀ ns, Agreeing (w.memory.current ns)) (h : w.memory.IterationOrder order)
    (h' : w.memory.IterationOrder order')
    (hfind : ∀ s t x y, s.Agrees t → find s = some x → find t = some y → x = y) (ns : String) :
    (findWithOrigin find order ns).exec w = (findWithOrigin find order' ns).exec w := by
  rw [exec_findWithOrigin, exec_findWithOrigin]
  generalize chainOf w.memory.parent chainMaxDepth ns [] = tiers
  refine congrArg (fun res => (Except.ok res, w)) ?_
  induction tiers with
  | nil => rfl
  | cons a rest ih =>
    have hmem : ∀ sc, sc ∈ order a ↔ sc ∈ order' a := fun sc => ((h a).2 sc).trans ((h' a).2 sc).symm
    unfold Namespaces.findInTiers
    rw [findSome?_eq_of_agree hmem ((hagree a).answers hfind), ih]

end

/-! ## Current snapshots along a run -/

def Op.KeepsCurrent : Op → Prop
  | .mem (.setCurrent ..) | .mem (.storeCurrent ..) => False
  | _ => True

theorem World.current_perform {op : Op} (hop : op.KeepsCurrent) (w : World) :
    (perform op w).2.memory.current = w.memory.current := by
  funext ns sc
  cases op with
  | store op => rfl
  | mem op =>
    by_cases ht : Op.Touches ns sc (.mem op)
    · cases op with
      | setStaged => exact Namespaces.current_setStaged_any ..
      | swapStaged | clearStaged => exact Namespaces.current_clearStaged ..
      | setCurrent | storeCurrent => exact hop.elim
      | _ => exact ht.elim
    · exact congrArg (Option.bind · (·.current)) (Namespaces.slot_perform ht)

theorem Quiet.keepsCurrent {op : Op} (hop : Quiet op) : op.KeepsCurrent := by
  unfold Op.KeepsCurrent
  split <;> first | exact hop | trivial

theorem Op.Stores.keepsCurrent {op : Op} (hop : op.Stores ns sc) : op.KeepsCurrent := by
  unfold Op.KeepsCurrent
  split <;> first | exact hop | trivial

theorem Op.Discards.keepsCurrent {op : Op} (hop : op.Discards ns) : op.KeepsCurrent := by
  unfold Op.KeepsCurrent
  split <;> first | exact hop | trivial

theorem WritesParents.keepsCurrent {op : Op} (hop : WritesParents op) : op.KeepsCurrent := by
  unfold Op.KeepsCurrent
  split <;> first | exact hop | trivial

theorem Call.MayPerform.keepsCurrent {c : Call} {op : Op} (hop : c.MayPerform op) (hc : ∀ ns, c ≠ .promote ns) :
    op.KeepsCurrent := by
  cases c with
  | publish | rebase => exact hop.elim (·.keepsCurrent) (·.keepsCurrent)
  | rollback =>
    obtain hread | rfl | rfl | hstores := hop
    · exact hread.quiet.keepsCurrent
    · trivial
    · trivial
    · exact hstores.stores.keepsCurrent
  | discardStaging => exact hop.elim (·.quiet.keepsCurrent) (·.keepsCurrent)
  | promote ns => exact (hc ns rfl).elim
  | createNamespace | setNamespaceParent => exact WritesParents.keepsCurrent hop.1

namespace Registry

variable {r : Registry} {w : World}

theorem current_exec {c : Call} (hc : ∀ ns, c ≠ .promote ns) (w : World) :
    (r.exec c w).2.memory.current = w.memory.current :=
  keeps_of_uses (g := fun w => w.memory.current) (r.run_uses c)
    (fun _ w hop => World.current_perform (hop.keepsCurrent hc) w) rfl

theorem current_exec_promote (r : Registry) (ns : String) (w : World) :
    (r.exec (.promote ns) w).2.memory.current = w.memory.current ∨ r.AcceptsPromotion w ns ∧
      (r.exec (.promote ns) w).2.memory.current ns = w.memory.promoted ns ∧
      ∀ a, a ≠ ns → (r.exec (.promote ns) w).2.memory.current a = w.memory.current a := by
  have hworld : (r.exec (.promote ns) w).2 = ((r.promote ns).exec w).2 := snd_execute_bind_pure ..
  obtain ⟨haccepts, promoted, hexec⟩ | ⟨-, e, hexec⟩ := exec_promote r ns w
  · right
    refine ⟨haccepts, ?_, fun a ha => ?_⟩
    · rw [hworld, hexec]
      funext sc
      exact Namespaces.current_promoteAll
    · have hother : ¬ Call.Targets a (.promote ns) := Ne.symm ha
      funext sc
      exact (sameVersions_exec (r.run_spares hother) w).current sc
  · left
    rw [hworld, hexec]

/-- Every promotion that is accepted finds snapshots that agree, those that are staged with each other and
with the current ones of the schemas that have none. -/
def PromotesAgreeing (r : Registry) (calls : List Call) : Prop :=
  ∀ done ns rest, calls = done ++ .promote ns :: rest → r.AcceptsPromotion (r.runAll done .empty) ns →
    Agreeing ((r.runAll done .empty).memory.promoted ns)

theorem agreeing_runAll {calls : List Call} (h : r.PromotesAgreeing calls) :
    ∀ ns, Agreeing ((r.runAll calls .empty).memory.current ns) := by
  induction calls using List.reverseRecOn with
  | nil =>
    intro ns a b s t _ hs
    cases hs
  | append_singleton calls c ih =>
    have ih := ih fun done ns rest heq => h done ns (rest ++ [c]) (by rw [heq, List.append_assoc, List.cons_append])
    intro ns
    rw [runAll_append]
    by_cases hc : ∃ a, c = .promote a
    · obtain ⟨a, rfl⟩ := hc
      obtain hkept | ⟨haccepts, hpromoted, hothers⟩ := current_exec_promote r a (r.runAll calls .empty)
      · rw [hkept]
        exact ih ns
      · by_cases hns : ns = a
        · rw [hns, hpromoted]
          exact h calls a [] rfl haccepts
        · rw [hothers ns hns]
          exact ih ns
    · rw [current_exec (not_exists.mp hc)]
      exact ih ns

end Registry

/-- **Resolution does not depend on the order of the maps**, in every run whose promotions leave snapshots
that agree. -/
theorem Resolver.find_eq_of_agreeing (r : Registry) {calls : List Call} (hcalls : r.PromotesAgreeing calls)
    {order order' : String → List String} (h : (r.runAll calls .empty).memory.IterationOrder order)
    (h' : (r.runAll calls .empty).memory.IterationOrder order') (ns : String) :
    (∀ path, (findFileByPath order ns path).exec (r.runAll calls .empty) =
        (findFileByPath order' ns path).exec (r.runAll calls .empty)) ∧
      (∀ name, (findDescriptorByName order ns name).exec (r.runAll calls .empty) =
        (findDescriptorByName order' ns name).exec (r.runAll calls .empty)) ∧
      ∀ name, (findMessageByName order ns name).exec (r.runAll calls .empty) =
        (findMessageByName order' ns name).exec (r.runAll calls .empty) := by
  have hagree := Registry.agreeing_runAll hcalls
  refine ⟨fun path => execute_bind_congr ?_, fun name => execute_bind_congr ?_, fun name => execute_bind_congr ?_⟩
  · exact findWithOrigin_eq hagree h h' (fun _ _ _ _ hst => hst.findFileByPath) ns
  · exact findWithOrigin_eq hagree h h' (fun _ _ _ _ hst => hst.findDescriptorByName) ns
  · exact findWithOrigin_eq hagree h h' (fun _ _ _ _ hst => hst.findMessageByName) ns

/-- Memory after two schemas that have a file in common were published. -/
def Sample.sharingMemory : Namespaces :=
  (Sample.registry.runAll [Sample.publishSharing "s" "a.proto" [1], Sample.publishSharing "t" "b.proto" [2]]
    .empty).memory

theorem Sample.promoted_sharingMemory : ∃ s t, Sample.sharingMemory.promoted "n" "s" = some s ∧
    Sample.sharingMemory.promoted "n" "t" = some t ∧
    s.fileList = [Sample.file "a.proto" [1], Sample.file "common.proto" [9]] ∧
    t.fileList = [Sample.file "b.proto" [2], Sample.file "common.proto" [9]] := ⟨_, _, rfl, rfl, rfl, rfl⟩

theorem agreeing_sharing : Agreeing (Sample.sharingMemory.promoted "n") := by
  have hids : Sample.sharingMemory.schemaIDs "n" = ["s", "t"] := by decide +kernel
  have hmem : ∀ sc s, Sample.sharingMemory.promoted "n" sc = some s → sc = "s" ∨ sc = "t" := by
    intro sc s hs
    by_contra hne
    cases hs.symm.trans (Namespaces.promoted_of_missing (by simpa [hids] using hne)).2
  obtain ⟨s₀, t₀, hs₀, ht₀, hfiles, hfiles'⟩ := Sample.promoted_sharingMemory
  have hboth : s₀.Agrees t₀ ∧ t₀.Agrees s₀ := by
    refine ⟨Snapshot.agrees_of_apart (by rw [hfiles]; decide) ?_, Snapshot.agrees_of_apart (by rw [hfiles']; decide) ?_⟩
    all_goals
      rw [hfiles, hfiles']
      intro f hf g hg
      rcases List.mem_pair.mp hf with rfl | rfl <;> rcases List.mem_pair.mp hg with rfl | rfl <;>
        first | exact .inl rfl | exact .inr (by decide)
  intro a b s t hab hs ht
  rcases hmem a s hs with rfl | rfl <;> rcases hmem b t ht with rfl | rfl
  · exact absurd rfl hab
  · cases hs₀.symm.trans hs
    cases ht₀.symm.trans ht
    exact hboth.1
  · cases ht₀.symm.trans hs
    cases hs₀.symm.trans ht
    exact hboth.2
  · exact absurd rfl hab

/-- Two schemas that have a file in common. -/
theorem Resolver.find_eq_of_sharing :
    let calls := [Sample.publishSharing "s" "a.proto" [1], Sample.publishSharing "t" "b.proto" [2], .promote "n"]
    let w := Sample.registry.runAll calls .empty
    let order (schemas : List String) (ns : String) := if ns = "n" then schemas else []
    (∀ path, (findFileByPath (order ["s", "t"]) "n" path).exec w =
      (findFileByPath (order ["t", "s"]) "n" path).exec w) ∧
      (∀ name, (findDescriptorByName (order ["s", "t"]) "n" name).exec w =
        (findDescriptorByName (order ["t", "s"]) "n" name).exec w) ∧
      ∀ name, (findMessageByName (order ["s", "t"]) "n" name).exec w =
        (findMessageByName (order ["t", "s"]) "n" name).exec w := by
  intro calls w order
  have hkeys : w.memory.namespaces.keys = ["n"] := by decide +kernel
  have hids : w.memory.schemaIDs "n" = ["s", "t"] := by decide +kernel
  have hcurrent : ∀ sc ∈ w.memory.schemaIDs "n", (w.memory.current "n" sc).isSome := by decide +kernel
  refine find_eq_of_agreeing Sample.registry ?_ ?_ ?_ "n"
  · intro done ns rest heq _
    change [Sample.publishSharing "s" "a.proto" [1], Sample.publishSharing "t" "b.proto" [2], .promote "n"] = _ at heq
    -- the only promotion is the last call
    obtain _ | ⟨c₁, _ | ⟨c₂, _ | ⟨c₃, done⟩⟩⟩ := done
    · cases heq
    · cases heq
    · cases heq
      exact agreeing_sharing
    · simp at heq
  · exact Namespaces.iterationOrder_of_keys hkeys hcurrent (hids ▸ .refl _)
  · exact Namespaces.iterationOrder_of_keys hkeys hcurrent (hids ▸ .swap ..)

/-- A schema is published and imported by another one, and then published again: which of the two copies of
the file a resolver finds depends on the order. -/
theorem Resolver.findFileByPath_order_dependent :
    let w := (Sample.importing "v1").runAll [Sample.publishShared [1], .promote "n", Sample.publish [2],
      .promote "n", Sample.publishShared [1, 3], .promote "n"] .empty
    let order (schemas : List String) (ns : String) := if ns = "n" then schemas else []
    w.memory.IterationOrder (order ["s", "t"]) ∧ w.memory.IterationOrder (order ["t", "s"]) ∧
      ∃ f g, (findFileByPath (order ["s", "t"]) "n" "b.proto").exec w = (.ok (.ok f), w) ∧
        (findFileByPath (order ["t", "s"]) "n" "b.proto").exec w = (.ok (.ok g), w) ∧
        f.messages.length = 1 ∧ g.messages.length = 2 := by
  intro w order
  have hkeys : w.memory.namespaces.keys = ["n"] := by decide +kernel
  have hids : w.memory.schemaIDs "n" = ["t", "s"] := by decide +kernel
  have hcurrent : ∀ sc ∈ w.memory.schemaIDs "n", (w.memory.current "n" sc).isSome := by decide +kernel
  refine ⟨Namespaces.iterationOrder_of_keys hkeys hcurrent (hids ▸ .swap ..),
    Namespaces.iterationOrder_of_keys hkeys hcurrent (hids ▸ .refl _), ?_⟩
  exact ⟨_, _, rfl, rfl, by decide +kernel, by decide +kernel⟩

end ProtoRegistry
