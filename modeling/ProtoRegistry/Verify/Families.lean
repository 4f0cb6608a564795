import ProtoRegistry.Verify.Chains
import ProtoRegistry.Verify.Mirroring

/-!
# The part of a family of namespaces

A family of namespaces that is closed under parents has its own part of the store and of memory. An operation
on its namespaces is a function of this part (`World.perform_restrict`), and an operation that writes other
namespaces leaves it as it is (`World.restrict_perform`).
-/

namespace ProtoRegistry
open RegistryM

/-! ## The part of a family -/

def Store.restrict (F : String → Bool) (s : Store) : Store where
  namespaces := s.namespaces.filter F
  schemas := s.schemas.filter fun k => F k.1
  versions := s.versions.filter fun k => F k.1
  blobs := s.blobs.filter fun k => F k.1
  parentEvents := s.parentEvents.filter fun ev => F ev.namespaceID

def Namespaces.restrict (F : String → Bool) (m : Namespaces) : Namespaces := ⟨m.namespaces.filter F⟩

def World.restrict (F : String → Bool) (w : World) : World := ⟨w.store.restrict F, w.memory.restrict F⟩

/-- The stored and the remembered parents of the family belong to it. -/
structure World.Closed (F : String → Bool) (w : World) : Prop where
  stored : ∀ {n p}, F n = true → w.store.parentOf n = some p → F p = true
  remembered : ∀ {n p}, F n = true → w.memory.parent n = some p → F p = true

/-! ## What an operation is about -/

def Op.Names (P : String → Prop) : Op → Prop
  | .store .listNamespaces | .store .loadAllCurrent => ∀ n, P n
  | .store (.createNamespace n p) | .store (.setNamespaceParent n p _) | .mem (.setParent n p) =>
    P n ∧ ∀ q, p = some q → P q
  | .store (.putVersion n _ _ row) => P n ∧ ∀ d ∈ row.deps, P d.depNamespaceID
  | .store (.getNamespace n) | .store (.putBlob n ..) | .store (.getBlob n _) | .store (.createSchema n _)
  | .store (.getSchema n _) | .store (.getVersion n ..) | .store (.getVersionFiles n ..)
  | .store (.getVersionDeps n ..) | .store (.listVersions n _) | .store (.setStaged n ..) | .store (.promote n)
  | .store (.discardStaging n) | .store (.loadNamespaceCurrent n) | .store (.loadNamespaceProposed n)
  | .mem (.get n) | .mem (.getOrCreate n) | .mem (.parent n) | .mem (.schemaIDs n) | .mem (.current n _)
  | .mem (.staged n _) | .mem (.setCurrent n ..) | .mem (.setStaged n ..) | .mem (.swapStaged n _)
  | .mem (.storeCurrent n ..) | .mem (.clearStaged n _) => P n

def Op.Writes (P : String → Prop) : Op → Prop
  | .store (.createNamespace n _) | .store (.setNamespaceParent n ..) | .store (.putBlob n ..)
  | .store (.createSchema n _) | .store (.putVersion n ..) | .store (.setStaged n ..) | .store (.promote n)
  | .store (.discardStaging n) | .mem (.getOrCreate n) | .mem (.setParent n _) | .mem (.setCurrent n ..)
  | .mem (.setStaged n ..) | .mem (.swapStaged n _) | .mem (.storeCurrent n ..) | .mem (.clearStaged n _) => P n
  | _ => True

/-! ## Operations of the family -/

namespace Store

variable {F : String → Bool} {s : Store}

theorem restrict_eq_self (s : Store) (h : ∀ n, F n = true) : s.restrict F = s := by
  obtain ⟨namespaces, schemas, versions, blobs, parentEvents⟩ := s
  simp only [restrict, Dict.filter_eq_self _ h, Dict.filter_eq_self _ fun k : String × String => h k.1,
    Dict.filter_eq_self _ fun k : String × String × Nat => h k.1]
  congr
  exact List.filter_eq_self.mpr fun ev _ => h ev.namespaceID

theorem get_namespaces_restrict (h : F n = true) : (s.restrict F).namespaces.get n = s.namespaces.get n :=
  Dict.get_filter_of_pos _ h

theorem get_schemas_restrict (h : F n = true) : (s.restrict F).schemas.get (n, sc) = s.schemas.get (n, sc) :=
  Dict.get_filter_of_pos _ h

theorem get_versions_restrict (h : F n = true) : (s.restrict F).versions.get (n, sc, v) = s.versions.get (n, sc, v) :=
  Dict.get_filter_of_pos _ h

theorem get_blobs_restrict (h : F n = true) : (s.restrict F).blobs.get (n, sha) = s.blobs.get (n, sha) :=
  Dict.get_filter_of_pos _ h

theorem parentOf_restrict (h : F n = true) : (s.restrict F).parentOf n = s.parentOf n := by
  rw [parentOf, parentOf, get_namespaces_restrict h]

theorem ancestors_restrict (hclosed : ∀ {n p}, F n = true → s.parentOf n = some p → F p = true) (h : F n = true)
    (depth : Nat) : (s.restrict F).ancestors depth n = s.ancestors depth n := by
  induction depth generalizing n with
  | zero => rfl
  | succ depth ih =>
    unfold ancestors
    rw [get_namespaces_restrict h]
    cases hrow : s.namespaces.get n with
    | none => rfl
    | some row =>
      cases hp : row.parentNamespaceID with
      | none => simp only [hp]
      | some p =>
        have hparent : s.parentOf n = some p := by rw [parentOf, hrow, Option.bind_some, hp]
        simp only [hp, ih (hclosed h hparent)]

theorem loadSchemas_restrict (h : F n = true) (pointer : SchemaRow → Option Nat) :
    (s.restrict F).loadSchemas pointer (· = n) = s.loadSchemas pointer (· = n) := by
  have hrows : (s.restrict F).schemas.toList.filter (fun e => decide (e.1.1 = n)) =
      s.schemas.toList.filter fun e => decide (e.1.1 = n) := by
    rw [restrict, Dict.toList_filter, List.filter_filter]
    apply List.filter_congr
    intro e _
    by_cases he : e.1.1 = n
    · simp [he, h]
    · simp [he]
  unfold loadSchemas
  rw [hrows]
  congr 1
  apply List.filterMap_congr
  intro e he
  have hn : e.1.1 = n := by simpa using (List.mem_filter.mp he).2
  unfold loadSchema
  simp only [get_versions_restrict (hn ▸ h)]

theorem listVersions_restrict (h : F n = true) (sc : String) :
    (s.restrict F).listVersions n sc = s.listVersions n sc := by
  unfold listVersions
  congr 1
  rw [restrict, Dict.keys_filter, List.filterMap_filter]
  apply List.filterMap_congr
  rintro ⟨a, b, v⟩ _
  by_cases ha : a = n
  · simp [ha, h]
  · simp [ha]

theorem insertViolation_congr [DecidableEq κ] {key : α → κ} {dangling dangling' : α → Bool} {rows : List α}
    (h : ∀ row ∈ rows, dangling row = dangling' row) (inserted : List κ) :
    insertViolation table foreignKey key dangling context inserted rows =
      insertViolation table foreignKey key dangling' context inserted rows := by
  induction rows generalizing inserted with
  | nil => rfl
  | cons row rows ih =>
    rw [List.forall_mem_cons] at h
    simp only [insertViolation, h.1, ih h.2]

theorem versionViolation_restrict {row : VersionRow} (h : F n = true)
    (hdeps : ∀ d ∈ row.deps, F d.depNamespaceID = true) :
    (s.restrict F).versionViolation n sc v row = s.versionViolation n sc v row := by
  have hdep : ∀ d ∈ row.deps, ((s.restrict F).namespaces.get d.depNamespaceID).isNone =
      (s.namespaces.get d.depNamespaceID).isNone := by
    intro d hd
    rw [get_namespaces_restrict (hdeps d hd)]
  unfold versionViolation
  simp only [get_schemas_restrict h, get_versions_restrict h, get_blobs_restrict h]
  rw [insertViolation_congr hdep]

theorem promote_restrict (h : F n = true) :
    (s.restrict F).promote n = ((s.promote n).1, (s.promote n).2.restrict F) := by
  unfold promote
  refine Prod.ext ?_ ?_
  · simp only [restrict, Dict.toList_filter, List.filterMap_filter]
    apply List.filterMap_congr
    rintro ⟨⟨a, sc⟩, row⟩ _
    by_cases ha : a = n
    · simp [ha, h]
    · simp [ha]
  · simp only [restrict, Dict.filter_mapValues]

theorem setNamespaceParent_restrict (hclosed : ∀ {n p}, F n = true → s.parentOf n = some p → F p = true)
    (h : F n = true) (hp : ∀ q, p = some q → F q = true) (actor : String) :
    (s.restrict F).setNamespaceParent n p actor =
      ((s.setNamespaceParent n p actor).1, (s.setNamespaceParent n p actor).2.restrict F) := by
  have hwrite : (s.restrict F).writeParent n p = (s.writeParent n p).restrict F := by
    unfold writeParent
    rw [get_namespaces_restrict h]
    cases s.namespaces.get n with
    | none => rfl
    | some row => simp only [restrict, Dict.filter_set, h, if_true]
  have hcommit : ∀ previous new, ((s.restrict F).writeParent n p).recordNamespaceParentEvent ⟨n, previous, new, actor⟩ =
      ((s.writeParent n p).recordNamespaceParentEvent ⟨n, previous, new, actor⟩).restrict F := by
    intro previous new
    rw [hwrite]
    simp only [recordNamespaceParentEvent, restrict, List.filter_append, List.filter_cons, h, if_true, List.filter_nil]
  unfold setNamespaceParent
  rw [get_namespaces_restrict h]
  cases s.namespaces.get n with
  | none => rfl
  | some row =>
    cases p with
    | none => exact Prod.ext rfl (hcommit ..)
    | some q =>
      have hq := hp q rfl
      have haccepts : (s.restrict F).AcceptsParent n q ↔ s.AcceptsParent n q := by
        unfold AcceptsParent AcceptsUpdate
        rw [get_namespaces_restrict h, get_namespaces_restrict hq, ancestors_restrict hclosed hq]
      simp only [get_namespaces_restrict hq, haccepts, hcommit]
      split
      · rfl
      · split <;> rfl

theorem perform_restrict {op : StoreOp} (hop : Op.Names (F · = true) (.store op))
    (hclosed : ∀ {n p}, F n = true → s.parentOf n = some p → F p = true) :
    (s.restrict F).perform op = ((s.perform op).1, (s.perform op).2.restrict F) := by
  cases op with
  | getNamespace n => simp only [perform, getNamespace, get_namespaces_restrict hop]
  | getBlob n sha => simp only [perform, getBlob, get_blobs_restrict hop]
  | getSchema n sc => simp only [perform, getSchema, get_schemas_restrict hop]
  | getVersion n sc v | getVersionFiles n sc v | getVersionDeps n sc v =>
    simp only [perform, getVersion, getVersionFiles, getVersionDeps, get_versions_restrict hop]
  | listVersions n sc => simp only [perform, listVersions_restrict hop]
  | loadNamespaceCurrent n => simp only [perform, loadNamespaceCurrent, loadSchemas_restrict hop]
  | loadNamespaceProposed n => simp only [perform, loadNamespaceProposed, loadSchemas_restrict hop]
  | listNamespaces | loadAllCurrent => simp only [perform, restrict_eq_self s hop]
  | promote n => simp only [perform, promote_restrict hop]
  | setNamespaceParent n p actor => exact setNamespaceParent_restrict hclosed hop.1 hop.2 actor
  | createNamespace n p =>
    have hparent : (∃ q ∈ p, q ≠ n ∧ (s.restrict F).namespaces.get q = none) ↔
        ∃ q ∈ p, q ≠ n ∧ s.namespaces.get q = none :=
      exists_congr fun q => and_congr_right fun hq => by rw [get_namespaces_restrict (hop.2 q hq)]
    simp only [perform, createNamespace, get_namespaces_restrict hop.1, hparent]
    repeat' split
    all_goals simp [restrict, Dict.filter_set, hop.1]
  | putVersion n sc v row =>
    simp only [perform, putVersion, versionViolation_restrict hop.1 hop.2]
    split
    · rfl
    · simp [restrict, Dict.filter_set, hop.1]
  | putBlob n _ _ | createSchema n _ | setStaged n _ _ =>
    replace hop : F n = true := hop
    simp only [perform, putBlob, createSchema, setStaged, get_namespaces_restrict hop, get_schemas_restrict hop,
      get_blobs_restrict hop]
    repeat' split
    all_goals simp [restrict, Dict.filter_set, hop]
  | discardStaging n => simp only [perform, discardStaging, restrict, Dict.filter_mapValues]

theorem restrict_perform {op : StoreOp} (hop : Op.Writes (F · = false) (.store op)) :
    (s.perform op).2.restrict F = s.restrict F := by
  have hmap : ∀ {n} (f : SchemaRow → SchemaRow), F n = false →
      (s.schemas.mapValues fun k row => if k.1 = n then f row else row).filter (fun k => F k.1) =
        s.schemas.filter fun k => F k.1 := by
    intro n f hn
    refine Dict.ext (fun k => ?_) rfl
    rw [Dict.get_filter, Dict.get_filter, Dict.get_mapValues]
    split
    · next hk =>
      have hne : k.1 ≠ n := fun heq => by rw [heq, hn] at hk; cases hk
      simp [hne]
    · rfl
  cases op with
  | createNamespace n _ | putBlob n _ _ | createSchema n _ | putVersion n _ _ _ | setStaged n _ _ =>
    replace hop : F n = false := hop
    simp only [perform, createNamespace, putBlob, createSchema, putVersion, setStaged]
    repeat' split
    all_goals simp [restrict, Dict.filter_set, hop]
  | setNamespaceParent n p actor =>
    have hwrite : ∀ ev : NamespaceParentEvent, F ev.namespaceID = false →
        ((s.writeParent n p).recordNamespaceParentEvent ev).restrict F = s.restrict F := by
      intro ev hev
      unfold writeParent recordNamespaceParentEvent
      split
      · simp [restrict, List.filter_append, hev]
      · simp [restrict, List.filter_append, hev, Dict.filter_set, show F n = false from hop]
    simp only [perform, setNamespaceParent]
    repeat' split
    all_goals first | rfl | exact hwrite _ hop
  | promote n => simp only [perform, promote, restrict, hmap SchemaRow.promote hop]
  | discardStaging n =>
    simp only [perform, discardStaging, restrict, hmap (fun row => { row with stagedVersion := none }) hop]
  | _ => rfl

end Store

namespace Namespaces

variable {F : String → Bool} {m : Namespaces}

theorem get_restrict (h : F n = true) : (m.restrict F).namespaces.get n = m.namespaces.get n :=
  Dict.get_filter_of_pos _ h

theorem modify_restrict (h : F n = true) (f : Namespace → Namespace) :
    (m.restrict F).modify n f = (m.modify n f).restrict F := by
  unfold modify
  rw [get_restrict h]
  split
  · rfl
  · simp only [restrict, Dict.filter_set, h, if_true]

theorem restrict_modify (h : F n = false) (f : Namespace → Namespace) : (m.modify n f).restrict F = m.restrict F := by
  unfold modify
  split
  · rfl
  · simp [restrict, Dict.filter_set, h]

theorem getOrCreate_restrict (h : F n = true) : (m.restrict F).getOrCreate n = (m.getOrCreate n).restrict F := by
  unfold getOrCreate
  rw [get_restrict h]
  split
  · simp only [restrict, Dict.filter_set, h, if_true]
  · rfl

theorem perform_restrict {op : MemOp} (hop : Op.Names (F · = true) (.mem op)) :
    (m.restrict F).perform op = ((m.perform op).1, (m.perform op).2.restrict F) := by
  cases op with
  | get n => simp only [perform, get_restrict hop]
  | getOrCreate n => simp only [perform, getOrCreate_restrict hop]
  | parent n => simp only [perform, parent, get_restrict hop]
  | schemaIDs n => simp only [perform, schemaIDs, get_restrict hop]
  | current n sc | staged n sc => simp only [perform, current, staged, slot, get_restrict hop]
  | setParent n p => simp only [perform, setParent, modify_restrict hop.1]
  | setCurrent n sc snap | setStaged n sc snap | swapStaged n sc | storeCurrent n sc snap | clearStaged n sc =>
    simp only [perform, current, staged, slot, get_restrict hop, setCurrent, setStaged, clearStaged, modifySlot,
      modify_restrict hop]

theorem restrict_perform {op : MemOp} (hop : Op.Writes (F · = false) (.mem op)) :
    (m.perform op).2.restrict F = m.restrict F := by
  cases op with
  | getOrCreate n =>
    simp only [perform, getOrCreate]
    split
    · simp [restrict, Dict.filter_set, show F n = false from hop]
    · rfl
  | setParent n p => exact restrict_modify hop _
  | setCurrent n sc snap | setStaged n sc snap | swapStaged n sc | storeCurrent n sc snap | clearStaged n sc =>
    exact restrict_modify hop _
  | _ => rfl

end Namespaces

/-! ## Parents of the family -/

theorem Store.of_parentOf_perform {s : Store} {op : StoreOp} (h : (s.perform op).2.parentOf n = some p) :
    s.parentOf n = some p ∨ op = .createNamespace n (some p) ∨ ∃ actor, op = .setNamespaceParent n (some p) actor := by
  cases op with
  | createNamespace m q =>
    simp only [perform, createNamespace] at h
    split at h
    · exact .inl h
    · split at h
      · exact .inl h
      · rw [parentOf, Dict.get_set] at h
        split at h
        · next hm =>
          cases h
          exact .inr (.inl (by rw [hm]))
        · exact .inl h
  | setNamespaceParent m q actor =>
    obtain ⟨row, hrow, -, heq⟩ | ⟨-, heq⟩ | ⟨_, -, -, -, -, heq⟩ := s.setNamespaceParent_cases m q actor
    · have hparent : (s.writeParent m q).parentOf n = some p := by rwa [perform, heq] at h
      rw [parentOf_writeParent (by rw [hrow]; rfl), Function.update_apply] at hparent
      split at hparent
      · next hn => exact .inr (.inr ⟨actor, by rw [hn, hparent]⟩)
      · exact .inl hparent
    · rw [perform, heq] at h
      exact .inl h
    · rw [perform, heq] at h
      exact .inl h
  | _ =>
    refine .inl ?_
    rwa [Store.parentOf_perform (by simp) (by simp)] at h

theorem Namespaces.of_parent_perform {m : Namespaces} {op : MemOp} (h : (m.perform op).2.parent n = some p) :
    m.parent n = some p ∨ op = .setParent n (some p) := by
  by_cases hop : ∃ a q, op = .setParent a q
  · obtain ⟨a, q, rfl⟩ := hop
    cases ha : m.namespaces.get a with
    | none =>
      simp only [perform, setParent, modify, ha] at h
      exact .inl h
    | some obj =>
      rw [perform, parent_setParent (by rw [ha]; rfl), Function.update_apply] at h
      split at h
      · next hn => exact .inr (by rw [hn, h])
      · exact .inl h
  · rw [parent_perform fun a q heq => hop ⟨a, q, heq⟩] at h
    exact .inl h

/-- A parent that is read belongs to the family. -/
def ReturnsFamily (F : String → Bool) : (op : Op) → op.Res → Prop
  | .mem (.parent n), some p => F n = true → F p = true
  | _, _ => True

/-- One operation of a call. A call of the store may fail instead, without an effect. -/
def World.MayFail : (op : Op) → World → op.Res → World → Prop
  | .store op, w, res, w' => World.perform (.store op) w = (res, w') ∨ (∃ e, res = .error e) ∧ w' = w
  | .mem op, w, res, w' => World.Executes (.mem op) w res w'

namespace World

variable {F : String → Bool} {w w' v v' : World} {op : Op} {res : op.Res}

theorem Executes.mayFail (h : Executes op w res w') : MayFail op w res w' := by
  cases op with
  | store op => exact .inl h
  | mem op => exact h

theorem MayFail.state (hstep : MayFail op w res w') : w' = (w.perform op).2 ∨ w' = w := by
  cases op with
  | store op =>
    obtain heq | ⟨-, hsame⟩ := hstep
    · exact .inl (congrArg Prod.snd heq).symm
    · exact .inr hsame
  | mem op => exact .inl (Executes.state hstep)

theorem perform_restrict (hop : op.Names (F · = true)) (hw : w.Closed F) :
    (w.restrict F).perform op = ((w.perform op).1, (w.perform op).2.restrict F) := by
  cases op with
  | store op =>
    have hstore := Store.perform_restrict hop hw.stored
    simp only [perform, restrict, hstore]
  | mem op =>
    have hmem := Namespaces.perform_restrict (m := w.memory) hop
    simp only [perform, restrict, hmem]

theorem restrict_perform (hop : op.Writes (F · = false)) : (w.perform op).2.restrict F = w.restrict F := by
  cases op with
  | store op => simp only [perform, restrict, Store.restrict_perform hop]
  | mem op => simp only [perform, restrict, Namespaces.restrict_perform hop]

theorem Closed.of_restrict (h : (w.restrict F).Closed F) : w.Closed F where
  stored hn hp := h.stored hn (by rwa [restrict, Store.parentOf_restrict hn])
  remembered hn hp := h.remembered hn (by
    rwa [restrict, Namespaces.restrict, Namespaces.parent, Dict.get_filter_of_pos _ hn])

theorem Closed.restrict (h : w.Closed F) : (w.restrict F).Closed F where
  stored hn hp := h.stored hn (by rwa [World.restrict, Store.parentOf_restrict hn] at hp)
  remembered hn hp := h.remembered hn (by
    rwa [World.restrict, Namespaces.restrict, Namespaces.parent, Dict.get_filter_of_pos _ hn] at hp)

theorem Closed.perform (h : w.Closed F) (hop : op.Names (F · = true)) : (w.perform op).2.Closed F := by
  cases op with
  | store op =>
    refine ⟨fun hn hp => ?_, h.remembered⟩
    obtain hp | rfl | ⟨actor, rfl⟩ := Store.of_parentOf_perform hp
    · exact h.stored hn hp
    · exact hop.2 _ rfl
    · exact hop.2 _ rfl
  | mem op =>
    refine ⟨h.stored, fun hn hp => ?_⟩
    obtain hp | rfl := Namespaces.of_parent_perform hp
    · exact h.remembered hn hp
    · exact hop.2 _ rfl

theorem Closed.returnsFamily (h : w.Closed F) (hstep : MayFail op w res w') : ReturnsFamily F op res := by
  unfold ReturnsFamily
  split
  · next n p =>
    have hp : w.memory.parent n = some p := congrArg Prod.fst hstep
    exact fun hn => h.remembered hn hp
  · trivial

theorem MayFail.act (hop : op.Names (F · = true)) (hw : w.Closed F) (hv : v.restrict F = w.restrict F)
    (hstep : MayFail op w res w') : ∃ v', MayFail op v res v' ∧ v'.restrict F = w'.restrict F := by
  have hclosed : v.Closed F := .of_restrict (hv ▸ hw.restrict)
  have hsame : ((v.perform op).1, (v.perform op).2.restrict F) = ((w.perform op).1, (w.perform op).2.restrict F) := by
    rw [← perform_restrict hop hclosed, ← perform_restrict hop hw, hv]
  have hrun : w.perform op = (res, w') → v.perform op = (res, (v.perform op).2) ∧
      (v.perform op).2.restrict F = w'.restrict F := by
    intro heq
    rw [heq] at hsame
    have hres : (v.perform op).1 = res := congrArg Prod.fst hsame
    exact ⟨Prod.ext hres rfl, congrArg Prod.snd hsame⟩
  cases op with
  | store op =>
    obtain heq | ⟨herr, rfl⟩ := hstep
    · exact ⟨_, .inl (hrun heq).1, (hrun heq).2⟩
    · exact ⟨v, .inr ⟨herr, rfl⟩, hv⟩
  | mem op =>
    obtain heq | ⟨rfl, ns, visited, hvisits, heq⟩ := Executes.cases hstep
    · obtain ⟨hperform, hsame⟩ := hrun heq
      rw [(Prod.mk.inj hperform).1.symm]
      exact ⟨_, executes_perform .., hsame⟩
    · cases heq
      have hids : v.memory.schemaIDs ns = w'.memory.schemaIDs ns := congrArg Prod.fst hsame
      exact ⟨v, ⟨⟨hvisits.1, hids ▸ hvisits.2⟩, rfl⟩, hv⟩

theorem Closed.mayFail (hw : w.Closed F) (hop : op.Names (F · = true)) (hstep : MayFail op w res w') : w'.Closed F := by
  obtain rfl | rfl := hstep.state
  · exact hw.perform hop
  · exact hw

theorem MayFail.spare (hop : op.Writes (F · = false)) (hstep : MayFail op w res w') : w'.restrict F = w.restrict F := by
  obtain rfl | rfl := hstep.state
  · exact restrict_perform hop
  · rfl

end World

end ProtoRegistry
