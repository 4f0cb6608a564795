import ProtoRegistry.Theory.Ordering
import ProtoRegistry.Verify.Loading

/-!
# The order in which a directory is published

The requests that the publishing loop sends are recorded by a client that keeps a log. Each file is sent at most
once, and after the files of the directory that it imports were accepted. The loop ends by itself, and when the
imports have no cycle and nothing is refused, it has sent every file.
-/

namespace ProtoRegistry.Ctl
open Relation

/-! ## The log -/

/-- A client that records each request and whether it was accepted. -/
def logging {σ : Type} (client : RegistryClient σ) : RegistryClient (σ × List (PublishRequest × Bool)) where
  publish req s :=
    ((client.publish req s.1).1, (client.publish req s.1).2, s.2 ++ [(req, (client.publish req s.1).1.isOk)])
  promote ns s := ((client.promote ns s.1).1, (client.promote ns s.1).2, s.2)

section
variable {σ : Type} (client : RegistryClient σ) (ns : String) (force : Bool) (protos : List ProtoFile)

def Load.forget {τ : Type} (x : Load (σ × τ)) : Load σ := ⟨x.loaded, x.failed, x.progress, x.registry.1⟩

theorem visit_logging (x : Load (σ × List (PublishRequest × Bool))) (p : ProtoFile) :
    (visit (logging client) ns force protos x p).forget = visit client ns force protos x.forget p := by
  by_cases hsettled : p.filename ∈ x.loaded ∨ (x.failed.get p.filename).isSome
  · exact (congrArg Load.forget (if_pos hsettled)).trans (if_pos hsettled).symm
  · refine (congrArg Load.forget (if_neg hsettled)).trans (Eq.trans ?_ (if_neg hsettled).symm)
    dsimp only [Load.forget]
    cases readiness (fileSet protos) x.loaded x.failed p.imports with
    | depFailed imp err => rfl
    | waiting => rfl
    | canPublish =>
      dsimp only [logging]
      cases client.publish (publishRequest ns force p) x.registry.1 with
      | mk res s =>
        cases res with
        | error err => rfl
        | ok res => rfl

theorem foldl_visit_logging (l : List ProtoFile) (x : Load (σ × List (PublishRequest × Bool))) :
    (l.foldl (visit (logging client) ns force protos) x).forget = l.foldl (visit client ns force protos) x.forget := by
  induction l generalizing x with
  | nil => rfl
  | cons p l ih => rw [List.foldl_cons, ih, visit_logging, List.foldl_cons]

theorem pass_logging (x : Load (σ × List (PublishRequest × Bool))) :
    (pass (logging client) ns force protos x).forget = pass client ns force protos x.forget :=
  foldl_visit_logging client ns force protos protos { x with progress := false }

theorem publishAll_logging (s : σ) (log : List (PublishRequest × Bool)) :
    (publishAll (logging client) ns force protos (s, log)).forget = publishAll client ns force protos s := by
  have hprogress (x : Load (σ × List (PublishRequest × Bool))) : x.forget.progress = x.progress := rfl
  exact map_repeatWhile (pass_logging client ns force protos) hprogress _ _

end

theorem publish_logging {σ : Type} {client : RegistryClient σ} {s s' : σ × List (PublishRequest × Bool)}
    (h : (logging client).publish req s = (res, s')) : s'.2 = s.2 ++ [(req, res.isOk)] := by
  cases h
  rfl

theorem isSome_failed_set {failed : Dict String LoadError} :
    ((failed.set k err).get filename).isSome ↔ filename = k ∨ (failed.get filename).isSome := by
  rw [Dict.get_set]
  split
  next heq => simp [heq]
  next hne => simp [hne]

/-! ## What the log says -/

/-- The calls that a call waits for. -/
def importCalls (ns : String) (force : Bool) (protos : List ProtoFile) (c : PublishRequest × Bool) :
    List (PublishRequest × Bool) :=
  (fileNamed protos c.1.schemaID).elim [] fun p => (needs protos p).map fun q => (publishRequest ns force q, true)

/-- The log belongs to what is loaded and what failed. -/
structure Logged {σ : Type} (ns : String) (force : Bool) (protos : List ProtoFile)
    (x : Load (σ × List (PublishRequest × Bool))) : Prop where
  files : ∀ c ∈ x.registry.2, ∃ p ∈ protos, c.1 = publishRequest ns force p
  nodup : (x.registry.2.map (·.1.schemaID)).Nodup
  settled : ∀ c ∈ x.registry.2, c.1.schemaID ∈ x.loaded ∨ (x.failed.get c.1.schemaID).isSome
  loaded : ∀ p ∈ protos, p.filename ∈ x.loaded → (publishRequest ns force p, true) ∈ x.registry.2
  order : InOrder (importCalls ns force protos) x.registry.2
  refused : ∀ filename, (x.failed.get filename).isSome → ∃ c ∈ x.registry.2, c.2 = false

namespace Logged
variable {σ : Type} {client : RegistryClient σ} {ns : String} {force : Bool} {protos : List ProtoFile}
  {x y : Load (σ × List (PublishRequest × Bool))} {p : ProtoFile}

theorem start (s : σ) : Logged ns force protos ⟨[], .empty, false, s, []⟩ where
  files := by simp
  nodup := List.nodup_nil
  settled := by simp
  loaded := by simp
  order := inOrder_nil
  refused filename h := by simp at h

variable (hnd : (fileSet protos).Nodup)
include hnd

theorem fileNamed_of_mem (hp : p ∈ protos) : fileNamed protos p.filename = some p := by
  obtain ⟨q, hq⟩ := exists_fileNamed (List.mem_map_of_mem hp)
  obtain ⟨hmem, hname⟩ := of_fileNamed hq
  rw [hq, eq_of_filename hnd hmem hp hname]

/-- A file is sent that was not sent before and whose imports are loaded. -/
theorem extend (hx : Logged ns force protos x) (hp : p ∈ protos) (hnew : p.filename ∉ x.loaded)
    (hnone : x.failed.get p.filename = none) (hneeds : ∀ q ∈ needs protos p, q.filename ∈ x.loaded)
    (hlog : y.registry.2 = x.registry.2 ++ [(publishRequest ns force p, ok)])
    (hsettled : ∀ filename, filename = p.filename ∨ filename ∈ x.loaded ∨ (x.failed.get filename).isSome →
      filename ∈ y.loaded ∨ (y.failed.get filename).isSome)
    (hloaded : ∀ filename ∈ y.loaded, filename ∈ x.loaded ∨ filename = p.filename ∧ ok = true)
    (hfailed : ∀ filename, (y.failed.get filename).isSome → (x.failed.get filename).isSome ∨ ok = false) :
    Logged ns force protos y where
  files c hc := by
    rw [hlog, List.mem_append, List.mem_singleton] at hc
    rcases hc with hc | rfl
    · exact hx.files c hc
    · exact ⟨p, hp, rfl⟩
  nodup := by
    rw [hlog, List.map_append, List.map_singleton]
    refine List.nodup_append.mpr ⟨hx.nodup, List.nodup_singleton _, ?_⟩
    intro filename hmem filename' hmem' heq
    obtain ⟨c, hc, hname⟩ := List.mem_map.mp hmem
    have hsame : c.1.schemaID = p.filename := hname.trans (heq.trans (List.mem_singleton.mp hmem'))
    have hc := hx.settled c hc
    rw [hsame, hnone] at hc
    exact hc.elim hnew (by simp)
  settled c hc := by
    rw [hlog, List.mem_append, List.mem_singleton] at hc
    rcases hc with hc | rfl
    · exact hsettled _ (.inr (hx.settled c hc))
    · exact hsettled _ (.inl rfl)
  loaded q hq hmem := by
    rw [hlog, List.mem_append, List.mem_singleton]
    rcases hloaded _ hmem with hmem | ⟨hname, hok⟩
    · exact .inl (hx.loaded q hq hmem)
    · rw [eq_of_filename hnd hq hp hname, hok]
      exact .inr rfl
  order := by
    rw [hlog, inOrder_concat]
    refine ⟨hx.order, fun c hc => ?_⟩
    have himports : importCalls ns force protos (publishRequest ns force p, ok) =
        (needs protos p).map fun q => (publishRequest ns force q, true) := by
      rw [importCalls, show (publishRequest ns force p, ok).1.schemaID = p.filename from rfl, fileNamed_of_mem hnd hp]
      rfl
    rw [himports] at hc
    obtain ⟨q, hq, rfl⟩ := List.mem_map.mp hc
    exact hx.loaded q (mem_of_mem_needs hq) (hneeds q hq)
  refused filename h := by
    rw [hlog]
    rcases hfailed filename h with h | hok
    · obtain ⟨c, hc, hrefused⟩ := hx.refused filename h
      exact ⟨c, List.mem_append_left _ hc, hrefused⟩
    · exact ⟨(publishRequest ns force p, ok), by simp, hok⟩

theorem visited (hx : Logged ns force protos x) (hp : p ∈ protos)
    (h : Visited (logging client) ns force protos x p y) : Logged ns force protos y := by
  cases h with
  | settled => exact hx
  | waits => exact hx
  | @dependency dep err _ hnone hdep =>
    refine ⟨hx.files, hx.nodup, fun c hc => ?_, hx.loaded, hx.order, fun filename h => ?_⟩
    · exact (hx.settled c hc).imp id fun h => isSome_failed_set.mpr (.inr h)
    · rcases isSome_failed_set.mp h with rfl | h
      · exact hx.refused dep hdep
      · exact hx.refused filename h
  | @refused err s hnew hnone hneeds hpublish =>
    refine hx.extend hnd hp hnew hnone hneeds (publish_logging hpublish) (fun filename h => ?_)
      (fun filename h => .inl h) fun _ _ => .inr rfl
    rcases h with rfl | h | h
    · exact .inr (isSome_failed_set.mpr (.inl rfl))
    · exact .inl h
    · exact .inr (isSome_failed_set.mpr (.inr h))
  | @accepted res s hnew hnone hneeds hpublish =>
    refine hx.extend hnd hp hnew hnone hneeds (publish_logging hpublish) (fun filename h => ?_)
      (fun filename h => ?_) fun _ h => .inl h
    · rcases h with rfl | h | h
      · exact .inl List.mem_cons_self
      · exact .inl (List.mem_cons_of_mem _ h)
      · exact .inr h
    · rcases List.mem_cons.mp h with rfl | h
      · exact .inr ⟨rfl, rfl⟩
      · exact .inl h

end Logged

/-! ## The whole run -/

section
variable {σ : Type} (client : RegistryClient σ) (ns : String) (force : Bool) (protos : List ProtoFile) (s : σ)

def afterPasses (k : Nat) : Load σ := (pass client ns force protos)^[k] ⟨[], .empty, false, s⟩

theorem publishAll_passes : ∃ k < protos.length + 1,
    publishAll client ns force protos s = afterPasses client ns force protos s (k + 1) ∧
      (afterPasses client ns force protos s (k + 1)).progress = false ∧
      ∀ j < k, (afterPasses client ns force protos s (j + 1)).progress = true := by
  have hsucc (k : Nat) : afterPasses client ns force protos s (k + 1) =
      pass client ns force protos (afterPasses client ns force protos s k) := Function.iterate_succ_apply' ..
  obtain ⟨k, x, ⟨rfl, hprogress, hbound⟩, hlast, heq⟩ := publishAll_spec client ns force protos s
    (J := fun k x => x = afterPasses client ns force protos s k ∧
      (∀ j < k, (afterPasses client ns force protos s (j + 1)).progress = true) ∧ unloaded protos x + k ≤ protos.length)
    ⟨rfl, by simp, List.countP_le_length⟩ (by
      rintro k x ⟨rfl, hprogress, hbound⟩ h
      have hless := unloaded_pass client ns force protos _ h
      rw [← hsucc] at h hless ⊢
      refine ⟨rfl, fun j hj => ?_, by omega⟩
      rcases Nat.lt_succ_iff_lt_or_eq.mp hj with hj | rfl
      · exact hprogress j hj
      · exact h)
  rw [← hsucc] at hlast heq
  exact ⟨k, by omega, heq, hlast, hprogress⟩

/-- The requests that the loop sends, in this order, and whether each was accepted. -/
def publishLog : List (PublishRequest × Bool) := (publishAll (logging client) ns force protos (s, [])).registry.2

variable (hnd : (fileSet protos).Nodup)
include hnd

theorem logged_publishAll : Logged ns force protos (publishAll (logging client) ns force protos (s, [])) :=
  comes_publishAll.1.inv (Logged.start s)
    (fun _ hx => ⟨hx.files, hx.nodup, hx.settled, hx.loaded, hx.order, hx.refused⟩)
    fun hp _ hx hvisited => hx.visited hnd hp hvisited

/-- **A directory is published in the order of its imports.** -/
theorem publishAll_in_order :
    (publishAll (logging client) ns force protos (s, [])).forget = publishAll client ns force protos s ∧
    (∀ c ∈ publishLog client ns force protos s, ∃ p ∈ protos, c.1 = publishRequest ns force p) ∧
    ((publishLog client ns force protos s).map (·.1.schemaID)).Nodup ∧
    InOrder (importCalls ns force protos) (publishLog client ns force protos s) ∧
    (∃ k < protos.length + 1, publishAll client ns force protos s = afterPasses client ns force protos s (k + 1) ∧
      (afterPasses client ns force protos s (k + 1)).progress = false ∧
      ∀ j < k, (afterPasses client ns force protos s (j + 1)).progress = true) ∧
    ((∀ p ∈ protos, ¬TransGen (fun p q => q ∈ needs protos p) p p) →
      (∀ c ∈ publishLog client ns force protos s, c.2 = true) →
      ∀ p ∈ protos, (publishRequest ns force p, true) ∈ publishLog client ns force protos s) := by
  have hlogged := logged_publishAll client ns force protos s hnd
  refine ⟨publishAll_logging client ns force protos s [], hlogged.files, hlogged.nodup, hlogged.order,
    publishAll_passes client ns force protos s, fun hacyclic hall p hp => ?_⟩
  refine hlogged.loaded p hp (loaded_publishAll (fun filename => ?_) hacyclic hp)
  by_contra hsome
  obtain ⟨c, hc, hrefused⟩ := hlogged.refused filename (Option.isSome_iff_ne_none.mpr hsome)
  cases hrefused.symm.trans (hall c hc)

end

namespace Sample

/-- Three files, scanned against the order of their imports. -/
def backwards : List ProtoFile := [⟨"c", [], ["b", "a"]⟩, ⟨"b", [], ["a"]⟩, ⟨"a", [], []⟩]

def accepting : RegistryClient Unit := answering fun _ => .ok ⟨1, "", false⟩

theorem acyclic_backwards : ∀ p ∈ backwards, ¬TransGen (fun p q => q ∈ needs backwards p) p p := by
  exact acyclic_of_rank (·.imports.length) (by decide)

end Sample

theorem publishAll_in_order_backwards :
    (fileSet Sample.backwards).Nodup ∧
      (∀ p ∈ Sample.backwards, ¬TransGen (fun p q => q ∈ needs Sample.backwards p) p p) ∧
      (∀ c ∈ publishLog Sample.accepting "n" false Sample.backwards (), c.2 = true) ∧
      ∀ p ∈ Sample.backwards,
        (publishRequest "n" false p, true) ∈ publishLog Sample.accepting "n" false Sample.backwards () := by
  have hnd : (fileSet Sample.backwards).Nodup := by decide
  have hall : ∀ c ∈ publishLog Sample.accepting "n" false Sample.backwards (), c.2 = true := by
    have hlog : (publishLog Sample.accepting "n" false Sample.backwards ()).map (·.2) = [true, true, true] := by
      decide +kernel
    intro c hc
    have hmem := List.mem_map_of_mem (f := (·.2)) hc
    rw [hlog] at hmem
    simpa using hmem
  obtain ⟨-, -, -, -, -, hcomplete⟩ := publishAll_in_order Sample.accepting "n" false Sample.backwards () hnd
  exact ⟨hnd, Sample.acyclic_backwards, hall, hcomplete Sample.acyclic_backwards hall⟩

end ProtoRegistry.Ctl
