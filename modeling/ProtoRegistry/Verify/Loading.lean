import ProtoRegistry.Model.Load
import ProtoRegistry.Theory.Grounded
import Mathlib.Order.Basic
import Mathlib.Tactic.Push

/-!
# What loading a directory accounts for

The passes of the publishing loop are rounds over the files, in which a file needs the files of the directory
that it imports. Every file that can be published is. A file that cannot, because one of its imports cannot,
is reported only when it is visited once more after that import: in the same pass, or in a later one if
there is any.
-/

namespace ProtoRegistry.Ctl

variable {σ : Type} {client : RegistryClient σ} {ns : String} {force : Bool} {protos l : List ProtoFile}

def fileNamed (protos : List ProtoFile) (filename : String) : Option ProtoFile := protos.find? (·.filename = filename)

/-- The files of the directory that a file imports, in the order of its imports. -/
def needs (protos : List ProtoFile) (p : ProtoFile) : List ProtoFile := p.imports.filterMap (fileNamed protos)

theorem fileNamed_eq_none (h : filename ∉ fileSet protos) : fileNamed protos filename = none := by
  rw [fileNamed, List.find?_eq_none]
  intro q hq heq
  exact h (List.mem_map.mpr ⟨q, hq, of_decide_eq_true heq⟩)

theorem of_fileNamed (h : fileNamed protos filename = some q) : q ∈ protos ∧ q.filename = filename := by
  unfold fileNamed at h
  exact ⟨List.mem_of_find?_eq_some h, by simpa using List.find?_some h⟩

theorem exists_fileNamed (h : filename ∈ fileSet protos) : ∃ q, fileNamed protos filename = some q := by
  obtain ⟨q, hq, rfl⟩ := List.mem_map.mp h
  cases hfind : fileNamed protos q.filename with
  | some q' => exact ⟨q', rfl⟩
  | none => exact absurd (decide_eq_true rfl) (List.find?_eq_none.mp hfind q hq)

theorem mem_of_mem_needs (h : q ∈ needs protos p) : q ∈ protos := by
  obtain ⟨imp, -, hfind⟩ := List.mem_filterMap.mp h
  exact (of_fileNamed hfind).1

theorem eq_of_filename (hnd : (fileSet protos).Nodup) (hp : p ∈ protos) (hq : q ∈ protos)
    (h : p.filename = q.filename) :
    p = q := List.inj_on_of_nodup_map hnd hp hq h

/-- The imports are looked at up to the first file of the directory that is not loaded. -/
theorem readiness_cases (protos : List ProtoFile) (loaded : List String)
    (failed : Dict String LoadError) (p : ProtoFile) :
    readiness (fileSet protos) loaded failed p.imports = .canPublish ∧ (∀ q ∈ needs protos p, q.filename ∈ loaded) ∨
      ∃ m q m', needs protos p = m ++ q :: m' ∧ (∀ c ∈ m, c.filename ∈ loaded) ∧ q.filename ∉ loaded ∧
        readiness (fileSet protos) loaded failed p.imports =
          (failed.get q.filename).elim .waiting (.depFailed q.filename) := by
  unfold needs
  induction p.imports with
  | nil => exact .inl ⟨rfl, by simp⟩
  | cons imp imports ih =>
    rw [readiness]
    by_cases hset : imp ∈ fileSet protos
    · obtain ⟨q, hfind⟩ := exists_fileNamed hset
      obtain ⟨-, rfl⟩ := of_fileNamed hfind
      rw [List.filterMap_cons_some hfind]
      by_cases hloaded : q.filename ∈ loaded
      · rw [if_pos hloaded]
        obtain ⟨hready, hall⟩ | ⟨m, q', m', heq, hm, hq', hready⟩ := ih
        · exact .inl ⟨hready, List.forall_mem_cons.mpr ⟨hloaded, hall⟩⟩
        · exact .inr ⟨q :: m, q', m', congrArg (q :: ·) heq, List.forall_mem_cons.mpr ⟨hloaded, hm⟩, hq', hready⟩
      · rw [if_neg hloaded, if_pos hset]
        refine .inr ⟨[], q, _, rfl, by simp, hloaded, ?_⟩
        cases failed.get q.filename <;> rfl
    · rw [List.filterMap_cons_none (fileNamed_eq_none hset), if_neg hset, ite_self]
      exact ih

theorem readiness_eq_canPublish {x : Load σ} (h : ∀ q ∈ needs protos p, q.filename ∈ x.loaded) :
    readiness (fileSet protos) x.loaded x.failed p.imports = .canPublish := by
  obtain ⟨hready, -⟩ | ⟨m, q, m', hneeds, -, hq, -⟩ := readiness_cases protos x.loaded x.failed p
  · exact hready
  · exact absurd (h q (by simp [hneeds])) hq

/-! ## One pass -/

/-- The client answers the publish of each file as the pattern says. -/
def Follows (client : RegistryClient σ) (ns : String) (force : Bool) (protos : List ProtoFile)
    (answer : String → Except Status PublishResponse) : Prop :=
  ∀ p ∈ protos, ∀ s, (client.publish (publishRequest ns force p) s).1 = answer p.filename

def Accepted (answer : String → Except Status PublishResponse) (p : ProtoFile) : Prop :=
  ∃ res, answer p.filename = .ok res

/-- After `k` passes and the visits of `l`, the files settled so far are loaded or have failed. -/
structure Accurate (protos : List ProtoFile) (good : ProtoFile → Prop) (k : Nat) (l : List ProtoFile) (x : Load σ) :
    Prop where
  loaded : ∀ p ∈ protos, p.filename ∈ x.loaded ↔
    Attainable (needs protos) good p ∧ SettledUpTo protos (needs protos) good k l p
  failed : ∀ p ∈ protos, (x.failed.get p.filename).isSome ↔
    ¬ Attainable (needs protos) good p ∧ SettledUpTo protos (needs protos) good k l p
  progress : x.progress = true ↔ ∃ p ∈ l, Attainable (needs protos) good p ∧
    SettledWithin protos (needs protos) good (k + 1) p ∧ ¬ SettledWithin protos (needs protos) good k p

section
variable {good : ProtoFile → Prop} {x : Load σ} {p : ProtoFile} {k : Nat}

theorem Accurate.settled_iff (hx : Accurate protos good k l x) (hp : p ∈ protos) :
    SettledUpTo protos (needs protos) good k l p ↔ p.filename ∈ x.loaded ∨ (x.failed.get p.filename).isSome := by
  rw [hx.loaded p hp, hx.failed p hp]
  by_cases hatt : Attainable (needs protos) good p <;> simp [hatt]

theorem Accurate.skip (hx : Accurate protos good k l x)
    (hp : SettledWithin protos (needs protos) good (k + 1) p → SettledWithin protos (needs protos) good k p) :
    Accurate protos good k (l ++ [p]) x := by
  have hsame : ∀ q, SettledUpTo protos (needs protos) good k (l ++ [p]) q ↔
      SettledUpTo protos (needs protos) good k l q := by
    intro q
    rw [settledUpTo_append]
    refine or_iff_left_of_imp ?_
    rintro ⟨rfl, hq⟩
    exact .inl (hp hq)
  refine ⟨fun q hq => ?_, fun q hq => ?_, ?_⟩
  · rw [hx.loaded q hq, hsame]
  · rw [hx.failed q hq, hsame]
  · rw [hx.progress]
    constructor
    · rintro ⟨q, hq, h⟩
      exact ⟨q, List.mem_append_left _ hq, h⟩
    · rintro ⟨q, hq, hatt, hsucc, hnot⟩
      obtain hq | hq := List.mem_append.mp hq
      · exact ⟨q, hq, hatt, hsucc, hnot⟩
      · cases List.mem_singleton.mp hq
        exact absurd (hp hsucc) hnot

variable (hnd : (fileSet protos).Nodup) (hp : p ∈ protos)
include hnd hp

/-- The visit loads the file. -/
theorem Accurate.load (hx : Accurate protos good k l x) (hatt : Attainable (needs protos) good p)
    (hsucc : SettledWithin protos (needs protos) good (k + 1) p) (hnot : ¬ SettledUpTo protos (needs protos) good k l p)
    (s : σ) : Accurate protos good k (l ++ [p])
      { x with loaded := p.filename :: x.loaded, progress := true, registry := s } := by
  refine ⟨fun q hq => ?_, fun q hq => ?_, ?_⟩
  · rw [List.mem_cons, hx.loaded q hq, settledUpTo_append]
    constructor
    · rintro (heq | ⟨hq', hset⟩)
      · cases eq_of_filename hnd hq hp heq
        exact ⟨hatt, .inr ⟨rfl, hsucc⟩⟩
      · exact ⟨hq', .inl hset⟩
    · rintro ⟨hq', hset | ⟨rfl, -⟩⟩
      · exact .inr ⟨hq', hset⟩
      · exact .inl rfl
  · rw [hx.failed q hq, settledUpTo_append]
    refine and_congr_right fun hq' => (or_iff_left_of_imp ?_).symm
    rintro ⟨rfl, -⟩
    exact absurd hatt hq'
  · refine iff_of_true rfl ⟨p, List.mem_append_right _ (List.mem_singleton_self p), hatt, hsucc, fun h => hnot (.inl h)⟩

/-- The visit reports the file as failed. -/
theorem Accurate.fail (hx : Accurate protos good k l x) (hatt : ¬ Attainable (needs protos) good p)
    (hsucc : SettledWithin protos (needs protos) good (k + 1) p) (err : LoadError) (s : σ) :
    Accurate protos good k (l ++ [p]) { x with failed := x.failed.set p.filename err, registry := s } := by
  refine ⟨fun q hq => ?_, fun q hq => ?_, ?_⟩
  · rw [hx.loaded q hq, settledUpTo_append]
    refine and_congr_right fun hq' => (or_iff_left_of_imp ?_).symm
    rintro ⟨rfl, -⟩
    exact absurd hq' hatt
  · rw [settledUpTo_append]
    by_cases heq : q.filename = p.filename
    · cases eq_of_filename hnd hq hp heq
      rw [Dict.get_set_self]
      exact iff_of_true rfl ⟨hatt, .inr ⟨rfl, hsucc⟩⟩
    · rw [Dict.get_set_of_ne _ _ heq, hx.failed q hq]
      refine and_congr_right fun _ => (or_iff_left_of_imp ?_).symm
      rintro ⟨rfl, -⟩
      exact absurd rfl heq
  · rw [hx.progress]
    constructor
    · rintro ⟨q, hq, h⟩
      exact ⟨q, List.mem_append_left _ hq, h⟩
    · rintro ⟨q, hq, hatt', h⟩
      obtain hq | hq := List.mem_append.mp hq
      · exact ⟨q, hq, hatt', h⟩
      · cases List.mem_singleton.mp hq
        exact absurd hatt' hatt

end

theorem Accurate.attained {good : ProtoFile → Prop} {x : Load σ} (hx : Accurate protos good k l x)
    (hneeds : needs protos p = m ++ m') (hm : ∀ c ∈ m, c.filename ∈ x.loaded) (hc : c ∈ m) :
    Attainable (needs protos) good c ∧ SettledUpTo protos (needs protos) good k l c := by
  refine (hx.loaded c (mem_of_mem_needs (p := p) ?_)).mp (hm c hc)
  rw [hneeds]
  exact List.mem_append_left _ hc

section
variable {good : ProtoFile → Prop} {x : Load σ} {p q : ProtoFile} {k : Nat} (hx : Accurate protos good k l x)
  (hnd : protos.Nodup) (hprotos : protos = l ++ p :: l')
include hx hnd hprotos

theorem Accurate.settles_of_loaded (hall : ∀ q ∈ needs protos p, q.filename ∈ x.loaded) :
    (∀ q ∈ needs protos p, Attainable (needs protos) good q) ∧ SettledWithin protos (needs protos) good (k + 1) p := by
  have hneeds := fun q hq => (hx.loaded q (mem_of_mem_needs hq)).mp (hall q hq)
  refine ⟨fun q hq => (hneeds q hq).1, (settledWithin_succ_iff hnd hprotos).mpr ?_⟩
  rintro q ⟨m, m', heq, -⟩
  exact (hneeds q (by simp [heq])).2

section
variable (hneeds : needs protos p = m ++ q :: m') (hm : ∀ c ∈ m, c.filename ∈ x.loaded)
include hneeds hm

theorem Accurate.settles_of_failed (hfailed : (x.failed.get q.filename).isSome) :
    ¬ Attainable (needs protos) good p ∧ SettledWithin protos (needs protos) good (k + 1) p := by
  have hq : q ∈ needs protos p := by simp [hneeds]
  obtain ⟨hatt, hset⟩ := (hx.failed q (mem_of_mem_needs hq)).mp hfailed
  refine ⟨fun h => hatt ((attainable_iff.mp h).2 q hq), (settledWithin_succ_iff hnd hprotos).mpr fun b hb => ?_⟩
  obtain hb | rfl := hb.mem_of_not_attainable hneeds hatt
  · exact (hx.attained hneeds hm hb).2
  · exact hset

/-- A file whose first import that is not loaded has not failed waits for it. -/
theorem Accurate.waits (hq : q.filename ∉ x.loaded) (hfailed : x.failed.get q.filename = none) :
    ¬ SettledWithin protos (needs protos) good (k + 1) p := by
  intro hsucc
  have hawaits : Awaits (needs protos) good p q := ⟨m, m', hneeds, fun c hc => (hx.attained hneeds hm hc).1⟩
  have hset := (settledWithin_succ_iff hnd hprotos).mp hsucc q hawaits
  have := (hx.settled_iff (mem_of_mem_needs (p := p) (by simp [hneeds]))).mp hset
  simp [hq, hfailed] at this

end

end

section
variable {answer : String → Except Status PublishResponse} {x : Load σ} {p : ProtoFile} {k : Nat}
  (hfollows : Follows client ns force protos answer) (hnd : (fileSet protos).Nodup)
include hfollows hnd

/-- A visit settles the file if what it awaits is settled. -/
theorem Accurate.visit (hprotos : protos = l ++ p :: l') (hx : Accurate protos (Accepted answer) k l x) :
    Accurate protos (Accepted answer) k (l ++ [p]) (visit client ns force protos x p) := by
  have hp : p ∈ protos := by
    rw [hprotos]
    exact List.mem_append_right _ (List.mem_cons_self ..)
  have hitems : protos.Nodup := hnd.of_map
  unfold Ctl.visit
  by_cases hsettled : p.filename ∈ x.loaded ∨ (x.failed.get p.filename).isSome
  · rw [if_pos hsettled]
    obtain hk | ⟨hmem, -⟩ := (hx.settled_iff hp).mpr hsettled
    · exact hx.skip fun _ => hk
    · rw [hprotos, List.nodup_middle, List.nodup_cons] at hitems
      exact absurd (List.mem_append_left _ hmem) hitems.1
  rw [if_neg hsettled]
  have hnot := mt (hx.settled_iff hp).mp hsettled
  obtain ⟨hready, hall⟩ | ⟨m, q, m', hneeds, hm, hq, hready⟩ := readiness_cases protos x.loaded x.failed p
  · obtain ⟨hatt, hsucc⟩ := hx.settles_of_loaded hitems hprotos hall
    have hanswer := hfollows p hp x.registry
    rw [hready]
    rcases hpublish : client.publish (publishRequest ns force p) x.registry with ⟨res, s⟩
    rw [hpublish] at hanswer
    cases res with
    | ok res => exact hx.load hnd hp (.intro ⟨res, hanswer.symm⟩ hatt) hsucc hnot s
    | error err =>
      refine hx.fail hnd hp (fun h => ?_) hsucc (.publish err) s
      obtain ⟨⟨res, hres⟩, -⟩ := attainable_iff.mp h
      cases hres.symm.trans hanswer.symm
  · rw [hready]
    cases hfailed : x.failed.get q.filename with
    | none => exact hx.skip fun hsucc => absurd hsucc (hx.waits hitems hprotos hneeds hm hq hfailed)
    | some err =>
      obtain ⟨hatt, hsucc⟩ := hx.settles_of_failed hitems hprotos hneeds hm (by simp [hfailed])
      exact hx.fail hnd hp hatt hsucc _ _

theorem Accurate.foldl (hx : Accurate protos (Accepted answer) k l x) (hprotos : protos = l ++ l') :
    Accurate protos (Accepted answer) k protos (l'.foldl (Ctl.visit client ns force protos) x) := by
  induction l' generalizing l x with
  | nil =>
    rw [hprotos, List.append_nil] at hx ⊢
    exact hx
  | cons p l' ih =>
    refine ih (hx.visit hfollows hnd hprotos) ?_
    rw [hprotos, List.append_assoc]
    rfl

/-- A pass settles what is settled one pass later. -/
theorem Accurate.pass (hx : Accurate protos (Accepted answer) k [] x) :
    Accurate protos (Accepted answer) k protos (pass client ns force protos x) := by
  refine Accurate.foldl hfollows hnd (l := []) ⟨hx.loaded, hx.failed, ?_⟩ rfl
  exact iff_of_false Bool.false_ne_true (by simp)

end

theorem Accurate.next {good : ProtoFile → Prop} {x : Load σ} (hx : Accurate protos good k protos x) :
    Accurate protos good (k + 1) [] { x with progress := false } := by
  have hsame : ∀ p ∈ protos, SettledUpTo protos (needs protos) good k protos p ↔
      SettledUpTo protos (needs protos) good (k + 1) [] p := by
    intro p hp
    constructor
    · rintro (h | ⟨-, h⟩)
      · exact .inl h.succ
      · exact .inl h
    · rintro (h | ⟨h, -⟩)
      · exact .inr ⟨hp, h⟩
      · cases h
  refine ⟨fun p hp => ?_, fun p hp => ?_, iff_of_false Bool.false_ne_true (by simp)⟩
  · rw [← hsame p hp]
    exact hx.loaded p hp
  · rw [← hsame p hp]
    exact hx.failed p hp

/-! ## The loop ends by itself -/

/-- The outcome of a visit. -/
inductive Visited (client : RegistryClient σ) (ns : String) (force : Bool) (protos : List ProtoFile) (x : Load σ)
    (p : ProtoFile) : Load σ → Prop where
  | settled : p.filename ∈ x.loaded ∨ (x.failed.get p.filename).isSome → Visited client ns force protos x p x
  | waits : q ∈ needs protos p → q.filename ∉ x.loaded → Visited client ns force protos x p x
  | dependency : p.filename ∉ x.loaded → x.failed.get p.filename = none → (x.failed.get dep).isSome →
      Visited client ns force protos x p { x with failed := x.failed.set p.filename err }
  | refused : p.filename ∉ x.loaded → x.failed.get p.filename = none →
      (∀ q ∈ needs protos p, q.filename ∈ x.loaded) →
      client.publish (publishRequest ns force p) x.registry = (.error err, s) →
      Visited client ns force protos x p { x with failed := x.failed.set p.filename (.publish err), registry := s }
  | accepted : p.filename ∉ x.loaded → x.failed.get p.filename = none →
      (∀ q ∈ needs protos p, q.filename ∈ x.loaded) →
      client.publish (publishRequest ns force p) x.registry = (.ok res, s) →
      Visited client ns force protos x p { x with loaded := p.filename :: x.loaded, progress := true, registry := s }

variable (client ns force protos) in
theorem visit_visited (x : Load σ) (p : ProtoFile) :
    Visited client ns force protos x p (visit client ns force protos x p) := by
  unfold visit
  split
  next hsettled => exact .settled hsettled
  next hnew =>
    obtain ⟨hloaded, hfailed⟩ := not_or.mp hnew
    have hnone : x.failed.get p.filename = none := by simpa using hfailed
    obtain ⟨hready, hneeds⟩ | ⟨m, q, m', hneeds, -, hq, hready⟩ := readiness_cases protos x.loaded x.failed p
    · rw [hready]
      cases hpublish : client.publish (publishRequest ns force p) x.registry with
      | mk res s =>
        cases res with
        | error err => exact .refused hloaded hnone hneeds hpublish
        | ok res => exact .accepted hloaded hnone hneeds hpublish
    · rw [hready]
      cases hdep : x.failed.get q.filename with
      | none => exact .waits (by simp [hneeds]) hq
      | some err => exact .dependency hloaded hnone (Option.isSome_of_eq_some hdep)

theorem Visited.progress {x y : Load σ} (h : Visited client ns force protos x p y) : x.loaded ⊆ y.loaded ∧
    (y.progress = true → x.progress = true ∨ p.filename ∉ x.loaded ∧ p.filename ∈ y.loaded) := by
  cases h with
  | settled | waits | dependency | refused => exact ⟨List.Subset.refl _, .inl⟩
  | accepted hnew => exact ⟨List.subset_cons_self .., fun _ => .inr ⟨hnew, List.mem_cons_self ..⟩⟩

section
variable (client ns force protos)

theorem foldl_progress (l : List ProtoFile) (x : Load σ) :
    x.loaded ⊆ (l.foldl (visit client ns force protos) x).loaded ∧
    ((l.foldl (visit client ns force protos) x).progress = true → x.progress = true ∨
      ∃ p ∈ l, p.filename ∉ x.loaded ∧ p.filename ∈ (l.foldl (visit client ns force protos) x).loaded) := by
  induction l generalizing x with
  | nil => exact ⟨List.Subset.refl _, .inl⟩
  | cons p l ih =>
    obtain ⟨hkept, hvisit⟩ := (visit_visited client ns force protos x p).progress
    obtain ⟨hkept', hrest⟩ := ih (visit client ns force protos x p)
    refine ⟨List.Subset.trans hkept hkept', fun hprogress => ?_⟩
    obtain hprogress | ⟨q, hq, hnot, hloaded⟩ := hrest hprogress
    · obtain hprogress | ⟨hnot, hloaded⟩ := hvisit hprogress
      · exact .inl hprogress
      · exact .inr ⟨p, List.mem_cons_self .., hnot, hkept' hloaded⟩
    · exact .inr ⟨q, List.mem_cons_of_mem _ hq, fun h => hnot (hkept h), hloaded⟩

def unloaded (protos : List ProtoFile) (x : Load σ) : Nat := protos.countP fun p => p.filename ∉ x.loaded

theorem unloaded_pass (x : Load σ) (h : (pass client ns force protos x).progress = true) :
    unloaded protos (pass client ns force protos x) < unloaded protos x := by
  obtain ⟨hkept, hprogress⟩ := foldl_progress client ns force protos protos
    { x with progress := false }
  obtain h | ⟨p, hp, hnot, hloaded⟩ := hprogress h
  · cases h
  · refine countP_lt_countP (a := p) (fun q _ hq => ?_) hp ?_ (decide_eq_true hnot)
    · exact decide_eq_true fun hmem => of_decide_eq_true hq (hkept hmem)
    · exact fun hq => of_decide_eq_true hq hloaded

/-- The publishing loop ends with a pass that loads nothing. -/
theorem publishAll_spec {J : Nat → Load σ → Prop} (s : σ) (hstart : J 0 ⟨[], .empty, false, s⟩)
    (hpass : ∀ k x, J k x → (pass client ns force protos x).progress = true →
      J (k + 1) (pass client ns force protos x)) :
    ∃ K x, J K x ∧ (pass client ns force protos x).progress = false ∧
      publishAll client ns force protos s = pass client ns force protos x :=
  repeatWhile_spec (unloaded protos) (fun _ x _ => unloaded_pass client ns force protos x) hpass hstart
    (Nat.lt_succ_of_le List.countP_le_length)

end

/-! ## Rounds -/

section
variable (client ns force protos)

/-- One round of the loops: the next of the files that are left in the pass is visited, or another pass begins. -/
inductive Round : List ProtoFile × Load σ → List ProtoFile × Load σ → Prop where
  | visit : Round (p :: rest, x) (rest, visit client ns force protos x p)
  | pass : x.progress = true → Round ([], x) (protos, { x with progress := false })

/-- The loops come to the state, with the given files left in the pass. -/
def Comes (s : σ) : List ProtoFile × Load σ → Prop :=
  Relation.ReflTransGen (Round client ns force protos) (protos, ⟨[], .empty, false, s⟩)

end

section
variable {s : σ} {c d : List ProtoFile × Load σ} {x y : Load σ}

theorem Round.rightUnique : Relator.RightUnique (Round client ns force protos) := by
  rintro c d d' hd hd'
  cases hd <;> cases hd' <;> rfl

theorem comes_foldl (l : List ProtoFile) (x : Load σ) :
    Relation.ReflTransGen (Round client ns force protos) (l, x) ([], l.foldl (visit client ns force protos) x) := by
  induction l generalizing x with
  | nil => exact .refl
  | cons p l ih => exact .head .visit (ih _)

/-- The loops end where `publishAll` does. -/
theorem comes_publishAll : Comes client ns force protos s ([], publishAll client ns force protos s) ∧
    (publishAll client ns force protos s).progress = false := by
  obtain ⟨-, x, hx, hquiet, heq⟩ := publishAll_spec client ns force protos
    (J := fun _ x => Comes client ns force protos s (protos, { x with progress := false })) s .refl
    fun _ x hx hprogress => (hx.trans (comes_foldl protos _)).tail (.pass hprogress)
  rw [heq]
  exact ⟨hx.trans (comes_foldl protos _), hquiet⟩

theorem eq_of_rounds (hquiet : x.progress = false)
    (h : Relation.ReflTransGen (Round client ns force protos) ([], x) c) :
    c = ([], x) := by
  obtain rfl | ⟨d, hround, -⟩ := Relation.ReflTransGen.cases_head h
  · rfl
  · cases hround with
    | pass hprogress => cases hquiet.symm.trans hprogress

theorem Comes.rest (h : Comes client ns force protos s c) :
    Relation.ReflTransGen (Round client ns force protos) c ([], publishAll client ns force protos s) := by
  obtain ⟨hend, hquiet⟩ := comes_publishAll
  obtain hrest | hrest := Relation.ReflTransGen.total_of_right_unique Round.rightUnique h hend
  · exact hrest
  · exact eq_of_rounds hquiet hrest ▸ .refl

/-- What every visit keeps holds all along. -/
theorem Comes.inv {J : Load σ → Prop} (h : Comes client ns force protos s c) (hstart : J ⟨[], .empty, false, s⟩)
    (hpass : ∀ x, J x → J { x with progress := false })
    (hvisit : ∀ {p rest x y}, p ∈ protos → Comes client ns force protos s (p :: rest, x) → J x →
      Visited client ns force protos x p y → J y) : J c.2 := by
  have hinv : c.1 ⊆ protos ∧ J c.2 := by
    induction h with
    | refl => exact ⟨List.Subset.refl _, hstart⟩
    | tail hc hround ih =>
      cases hround with
      | pass _ => exact ⟨List.Subset.refl _, hpass _ ih.2⟩
      | visit =>
        obtain ⟨hp, hrest⟩ := List.cons_subset.mp ih.1
        exact ⟨hrest, hvisit hp hc ih.2 (visit_visited ..)⟩
  exact hinv.2

/-- What is recorded stays as it is. -/
structure Below (x z : Load σ) : Prop where
  loaded : x.loaded ⊆ z.loaded
  failed : ∀ {filename err}, x.failed.get filename = some err → z.failed.get filename = some err

theorem below_fail (h : x.failed.get filename = none) (err : LoadError) (s : σ) :
    Below x { x with failed := x.failed.set filename err, registry := s } := by
  refine ⟨List.Subset.refl _, fun he => (Dict.get_set_of_ne _ _ ?_).trans he⟩
  rintro rfl
  cases h.symm.trans he

theorem Visited.below (h : Visited client ns force protos x p y) : Below x y := by
  cases h with
  | settled | waits => exact ⟨List.Subset.refl _, id⟩
  | dependency _ hnone => exact below_fail hnone _ _
  | refused _ hnone => exact below_fail hnone _ _
  | accepted => exact ⟨List.subset_cons_self .., id⟩

theorem Comes.below (h : Comes client ns force protos s c) : Below c.2 (publishAll client ns force protos s) := by
  have hrounds {d} (h : Relation.ReflTransGen (Round client ns force protos) c d) : Below c.2 d.2 := by
    induction h with
    | refl => exact ⟨List.Subset.refl _, id⟩
    | tail _ hround ih =>
      cases hround with
      | pass _ => exact ⟨ih.loaded, ih.failed⟩
      | @visit p rest x =>
        have hvisit := (visit_visited client ns force protos x p).below
        exact ⟨List.Subset.trans ih.loaded hvisit.loaded, fun he => hvisit.failed (ih.failed he)⟩
  exact hrounds h.rest

/-! ## The last pass -/

/-- The file is loaded or failed, or it waits for a file that is not loaded. -/
def Stuck (protos : List ProtoFile) (x : Load σ) (p : ProtoFile) : Prop :=
  p.filename ∈ x.loaded ∨ (x.failed.get p.filename).isSome ∨ ∃ q ∈ needs protos p, q.filename ∉ x.loaded

theorem Visited.stuck (h : Visited client ns force protos x p y) :
    y.progress = true ∨ x.progress = y.progress ∧ y.loaded = x.loaded ∧ Stuck protos y p := by
  cases h with
  | settled h => exact .inr ⟨rfl, rfl, h.imp id .inl⟩
  | waits hq hnew => exact .inr ⟨rfl, rfl, .inr (.inr ⟨_, hq, hnew⟩)⟩
  | dependency => exact .inr ⟨rfl, rfl, .inr (.inl (by simp))⟩
  | refused => exact .inr ⟨rfl, rfl, .inr (.inl (by simp))⟩
  | accepted => exact .inl rfl

/-- As long as a pass loads nothing, the files that it has visited are stuck. -/
theorem Comes.stuck (h : Comes client ns force protos s c) :
    c.2.progress = true ∨ ∀ p ∈ protos, p ∈ c.1 ∨ Stuck protos c.2 p := by
  induction h with
  | refl => exact .inr fun _ => .inl
  | tail _ hround ih =>
    cases hround with
    | pass _ => exact .inr fun _ => .inl
    | @visit p rest x =>
      have hvisited := visit_visited client ns force protos x p
      obtain hprogress | ⟨hsame, hloaded, hstuck⟩ := hvisited.stuck
      · exact .inl hprogress
      refine ih.imp (fun hprogress => hsame.symm.trans hprogress) fun ih q hq => ?_
      obtain hmem | hq := ih q hq
      · obtain rfl | hmem := List.mem_cons.mp hmem
        · exact .inr hstuck
        · exact .inl hmem
      · refine .inr (hq.imp (hloaded ▸ ·) (Or.imp (fun hfailed => ?_) (hloaded ▸ ·)))
        obtain ⟨err, herr⟩ := Option.isSome_iff_exists.mp hfailed
        exact Option.isSome_of_eq_some (hvisited.below.failed herr)

variable (client ns force protos s) in
theorem stuck_publishAll : ∀ p ∈ protos, Stuck protos (publishAll client ns force protos s) p := by
  intro p hp
  obtain ⟨hend, hquiet⟩ := comes_publishAll
  obtain hprogress | hstuck := hend.stuck
  · cases hquiet.symm.trans hprogress
  · exact (hstuck p hp).resolve_left List.not_mem_nil

theorem acyclic_of_rank (rank : ProtoFile → Nat) (hrank : ∀ p ∈ protos, ∀ q ∈ needs protos p, rank q < rank p) :
    ∀ p ∈ protos, ¬ Relation.TransGen (fun p q => q ∈ needs protos p) p p := by
  have hground : ∀ p ∈ protos, Grounded (fun p q => q ∈ needs protos p) p := by
    intro p
    induction p using (measure rank).wf.induction with
    | _ p ih => exact fun hp => grounded_iff.mpr fun q hq => ih q (hrank p hp q hq) (mem_of_mem_needs hq)
  exact fun p hp => (hground p hp).not_cycle

/-- When the imports have no cycle and nothing has failed, everything is loaded. -/
theorem loaded_publishAll (hfailed : ∀ filename, (publishAll client ns force protos s).failed.get filename = none)
    (hacyclic : ∀ p ∈ protos, ¬ Relation.TransGen (fun p q => q ∈ needs protos p) p p) (hp : p ∈ protos) :
    p.filename ∈ (publishAll client ns force protos s).loaded := by
  have hgrounded : Grounded (fun p q => q ∈ needs protos p) p := by
    refine grounded_of_acyclic (fun _ _ _ hq => mem_of_mem_needs hq) (fun q hcycle => ?_) hp
    obtain ⟨_, -, hlast⟩ := Relation.TransGen.tail'_iff.mp hcycle
    exact hacyclic q (mem_of_mem_needs hlast) hcycle
  induction hgrounded with
  | intro p _ ih =>
    obtain hloaded | hfail | ⟨q, hq, hnot⟩ := stuck_publishAll client ns force protos s p hp
    · exact hloaded
    · simp [hfailed] at hfail
    · exact absurd (ih q hq (mem_of_mem_needs hq)) hnot

end

/-! ## Accounting -/

/-- The state after `k` passes, none of which was the last. -/
structure Underway (protos : List ProtoFile) (good : ProtoFile → Prop) (k : Nat) (x : Load σ) : Prop where
  accurate : Accurate protos good k [] { x with progress := false }
  least : ∀ n, AttainsWithin protos (needs protos) good n → k ≤ n

theorem underway_start (good : ProtoFile → Prop) (s : σ) : Underway protos good 0 ⟨[], .empty, false, s⟩ := by
  have hnone : ∀ p, ¬ SettledUpTo protos (needs protos) good 0 [] p := by
    rintro p (h | ⟨h, -⟩)
    · exact not_settledWithin_zero h
    · cases h
  refine ⟨⟨fun p _ => ?_, fun p _ => ?_, ?_⟩, fun _ _ => Nat.zero_le _⟩
  · exact iff_of_false List.not_mem_nil fun h => hnone p h.2
  · exact iff_of_false (by simp) fun h => hnone p h.2
  · exact iff_of_false Bool.false_ne_true (by simp)

section
variable {answer : String → Except Status PublishResponse} (hfollows : Follows client ns force protos answer)
  (hnd : (fileSet protos).Nodup)
include hfollows hnd

theorem Underway.pass {x : Load σ} (hx : Underway protos (Accepted answer) k x)
    (hprogress : (pass client ns force protos x).progress = true) :
    Underway protos (Accepted answer) (k + 1) (Ctl.pass client ns force protos x) := by
  have hnext := hx.accurate.pass hfollows hnd
  obtain ⟨p, hp, hatt, -, hnot⟩ := hnext.progress.mp hprogress
  refine ⟨hnext.next, fun n hn => ?_⟩
  by_contra hlt
  exact hnot ((hn p hp hatt).mono (Nat.le_of_lt_succ (Nat.lt_of_not_le hlt)))

theorem accurate_publishAll (s : σ) : ∃ K, AttainsWithin protos (needs protos) (Accepted answer) K ∧
    (∀ n, AttainsWithin protos (needs protos) (Accepted answer) n → K ≤ n) ∧
    Accurate protos (Accepted answer) K protos (publishAll client ns force protos s) := by
  obtain ⟨K, x, hx, hquiet, heq⟩ := publishAll_spec client ns force protos s (underway_start (Accepted answer) s)
    fun k x hx => hx.pass hfollows hnd
  have hlast := hx.accurate.pass hfollows hnd
  refine ⟨K, attainsWithin_of_quiet (fun p _ q hq => mem_of_mem_needs hq) fun q hq hatt hsucc => ?_, hx.least, ?_⟩
  · by_contra hnot
    have hprogress := hlast.progress.mpr ⟨q, hq, hatt, hsucc, hnot⟩
    cases hquiet.symm.trans hprogress
  · rw [heq]
    exact hlast

theorem publishAll_accounts_iff (s : σ) :
    (∀ p ∈ protos, Xor (p.filename ∈ (publishAll client ns force protos s).loaded)
      ((publishAll client ns force protos s).failed.get p.filename).isSome) ↔
      SettlesAll protos (needs protos) (Accepted answer) := by
  obtain ⟨K, hattains, hleast, hx⟩ := accurate_publishAll hfollows hnd s
  have hsettled : ∀ p ∈ protos, SettledUpTo protos (needs protos) (Accepted answer) K protos p ↔
      SettledWithin protos (needs protos) (Accepted answer) (K + 1) p := by
    intro p hp
    constructor
    · rintro (h | ⟨-, h⟩)
      · exact h.succ
      · exact h
    · exact fun h => .inr ⟨hp, h⟩
  constructor
  · intro h k hk p hp
    have haccounted : p.filename ∈ (publishAll client ns force protos s).loaded ∨
        ((publishAll client ns force protos s).failed.get p.filename).isSome := by
      obtain ⟨hloaded, -⟩ | ⟨hfailed, -⟩ := h p hp
      · exact .inl hloaded
      · exact .inr hfailed
    have hK := (hsettled p hp).mp ((hx.settled_iff hp).mpr haccounted)
    exact hK.mono (Nat.succ_le_succ (hleast k hk))
  · intro h p hp
    have hset := (hsettled p hp).mpr (h K hattains p hp)
    rw [Xor, hx.loaded p hp, hx.failed p hp]
    by_cases hatt : Attainable (needs protos) (Accepted answer) p
    · exact .inl ⟨⟨hatt, hset⟩, fun h => h.1 hatt⟩
    · exact .inr ⟨⟨hatt, hset⟩, fun h => hatt h.1⟩

end

theorem loadResult_of_runLoad {ext : LoadExternal} (hscan : scanProtos ext dir = .ok protos)
    (h : (runLoad ext client ns dir promote force s).1 = .ok ()) :
    loadResult (publishAll client ns force protos s).failed = .ok () := by
  rw [runLoad, hscan] at h
  dsimp only at h
  split at h
  · cases h
  · split at h
    · split at h
      · cases h
      · exact h
    · exact h

theorem loadResult_eq_ok {failed : Dict String LoadError} (h : loadResult failed = .ok ()) (filename : String) :
    failed.get filename = none := by
  unfold loadResult at h
  split at h
  · next hempty =>
    by_contra hsome
    have hmem : filename ∈ failed.keys := (failed.mem_keys _).mpr (Option.isSome_iff_ne_none.mpr hsome)
    rw [List.isEmpty_iff.mp hempty] at hmem
    cases hmem
  · cases h

/-- **Loading accounts for every file** exactly when every file is settled at the latest one pass after the last
file that can be published. -/
theorem load_accounts_iff {ext : LoadExternal} (hscan : scanProtos ext dir = .ok protos) (hnd : (fileSet protos).Nodup)
    (hfollows : Follows client ns force protos answer) (promote : Bool) (s : σ) :
    ((∀ p ∈ protos, Xor (p.filename ∈ (publishAll client ns force protos s).loaded)
        ((publishAll client ns force protos s).failed.get p.filename).isSome) ∧
      ((runLoad ext client ns dir promote force s).1 = .ok () →
        ∀ p ∈ protos, p.filename ∈ (publishAll client ns force protos s).loaded)) ↔
      SettlesAll protos (needs protos) (Accepted answer) := by
  rw [← publishAll_accounts_iff hfollows hnd s]
  refine and_iff_left_of_imp fun haccounted hrun p hp => ?_
  obtain ⟨hloaded, -⟩ | ⟨hfailed, -⟩ := haccounted p hp
  · exact hloaded
  · rw [loadResult_eq_ok (loadResult_of_runLoad hscan hrun)] at hfailed
    cases hfailed

/-! ## Patterns of answers -/

/-- The client of a registry without state that answers as the pattern says. -/
def answering (answer : String → Except Status PublishResponse) : RegistryClient Unit where
  publish req s := (answer req.schemaID, s)
  promote _ s := (.ok [], s)

theorem follows_answering (answer : String → Except Status PublishResponse) :
    Follows (answering answer) ns force protos answer := fun _ _ _ => rfl

theorem exclusive_publishAll (h : filename ∈ (publishAll client ns force protos s).loaded) :
    (publishAll client ns force protos s).failed.get filename = none := by
  refine comes_publishAll.1.inv (J := fun x => ∀ filename ∈ x.loaded, x.failed.get filename = none) (by simp)
    (fun _ hx => hx) (fun _ _ hx hvisited => ?_) filename h
  have hfail {k : String} (x : Load σ) (hx : ∀ filename ∈ x.loaded, x.failed.get filename = none) (hnew : k ∉ x.loaded)
      (err : LoadError) : ∀ filename ∈ x.loaded, (x.failed.set k err).get filename = none := by
    intro filename hmem
    refine (Dict.get_set_of_ne _ _ ?_).trans (hx filename hmem)
    rintro rfl
    exact hnew hmem
  cases hvisited with
  | settled | waits => exact hx
  | dependency hnew => exact hfail _ hx hnew _
  | refused hnew => exact hfail _ hx hnew _
  | accepted _ hnone => exact List.forall_mem_cons.mpr ⟨hnone, hx⟩

/-- The answers that the final state records. -/
def recorded (z : Load σ) (filename : String) : Except Status PublishResponse :=
  match z.failed.get filename with
  | some (.publish err) => .error err
  | _ => .ok ⟨0, "", false⟩

/-- Two loads with the same maps. -/
structure Agrees (x : Load σ) (y : Load Unit) : Prop where
  loaded : y.loaded = x.loaded
  failed : y.failed = x.failed
  progress : y.progress = x.progress

theorem Agrees.visit {x z : Load σ} {y : Load Unit} (h : Agrees x y)
    (hz : ∀ filename ∈ z.loaded, z.failed.get filename = none) (hbelow : Below (visit client ns force protos x p) z) :
    Agrees (visit client ns force protos x p) (visit (answering (recorded z)) ns force protos y p) := by
  unfold Ctl.visit at hbelow ⊢
  rw [h.loaded, h.failed]
  split at hbelow
  · next hsettled =>
    rw [if_pos hsettled, if_pos hsettled]
    exact h
  · next hnot =>
    rw [if_neg hnot, if_neg hnot]
    cases hready : readiness (fileSet protos) x.loaded x.failed p.imports with
    | depFailed imp err => exact ⟨rfl, rfl, h.progress⟩
    | waiting => exact h
    | canPublish =>
      rw [hready] at hbelow
      rcases hpublish : client.publish (publishRequest ns force p) x.registry with ⟨res, s⟩
      rw [hpublish] at hbelow
      cases res with
      | error err =>
        have hrecorded : recorded z p.filename = .error err := by
          rw [recorded, hbelow.failed (Dict.get_set_self ..)]
        have hanswer : (answering (recorded z)).publish (publishRequest ns force p) y.registry =
            (.error err, y.registry) :=
          Prod.ext hrecorded rfl
        rw [hanswer]
        exact ⟨rfl, rfl, h.progress⟩
      | ok res =>
        have hrecorded : recorded z p.filename = .ok ⟨0, "", false⟩ := by
          rw [recorded, hz p.filename (hbelow.loaded (List.mem_cons_self ..))]
        have hanswer : (answering (recorded z)).publish (publishRequest ns force p) y.registry =
            (.ok ⟨0, "", false⟩, y.registry) := Prod.ext hrecorded rfl
        rw [hanswer]
        exact ⟨rfl, rfl, rfl⟩

theorem Comes.answering (h : Comes client ns force protos s c) :
    ∃ y, Comes (answering (recorded (publishAll client ns force protos s))) ns force protos () (c.1, y) ∧
    Agrees c.2 y := by
  induction h with
  | refl => exact ⟨_, .refl, rfl, rfl, rfl⟩
  | tail hc hround ih =>
    obtain ⟨y, hy, hagrees⟩ := ih
    cases hround with
    | visit => exact ⟨_, hy.tail .visit, hagrees.visit (fun _ => exclusive_publishAll) (Comes.below (hc.tail .visit))⟩
    | pass hprogress =>
      exact ⟨_, hy.tail (.pass (hagrees.progress.trans hprogress)), hagrees.loaded, hagrees.failed, rfl⟩

/-- A file is published once at most, so what any registry answers in a run is a pattern of answers. -/
theorem exists_answering (client : RegistryClient σ) (s : σ) :
    ∃ answer, (publishAll (answering answer) ns force protos ()).loaded = (publishAll client ns force protos s).loaded ∧
      (publishAll (answering answer) ns force protos ()).failed = (publishAll client ns force protos s).failed := by
  obtain ⟨hend, hquiet⟩ : Comes client ns force protos s _ ∧ _ := comes_publishAll
  obtain ⟨y, hy, hagrees⟩ := hend.answering
  have hlast := (Prod.mk.inj (eq_of_rounds (hagrees.progress.trans hquiet) hy.rest)).2
  exact ⟨_, (congrArg Load.loaded hlast).trans hagrees.loaded, (congrArg Load.failed hlast).trans hagrees.failed⟩

end ProtoRegistry.Ctl

namespace ProtoRegistry.Sample
open Ctl

/-- A directory with the files `a.proto` and `b.proto`, with these imports. -/
def directory (a b : List String) : LoadExternal where
  clean := id
  walkDir dir := [.ok ⟨dir ++ "/a.proto", false, .ok [1], .ok "a.proto"⟩,
    .ok ⟨dir ++ "/b.proto", false, .ok [2], .ok "b.proto"⟩]
  parseImports filename _ := .ok ((if filename = "a.proto" then a else b).map fun imp => ⟨imp, false⟩)
  trimSpace := id

def refusing (refused : List String) : RegistryClient Unit :=
  answering fun filename => if filename ∈ refused then .error ⟨.internal, "publish failed"⟩ else .ok ⟨1, "", false⟩

end ProtoRegistry.Sample

namespace ProtoRegistry.Ctl

/-- `b.proto` imports `a.proto`, which is refused. -/
theorem load_accounts_iff_refused :
    let protos := [⟨"a.proto", [1], []⟩, ⟨"b.proto", [2], ["a.proto"]⟩]
    scanProtos (Sample.directory [] ["a.proto"]) "d" = .ok protos ∧
      SettlesAll protos (needs protos) (Accepted fun filename =>
        if filename ∈ ["a.proto"] then .error ⟨.internal, "publish failed"⟩ else .ok ⟨1, "", false⟩) := by
  intro protos
  have hscan : scanProtos (Sample.directory [] ["a.proto"]) "d" = .ok protos := rfl
  have hfollows : Follows (Sample.refusing ["a.proto"]) "n" false protos _ := follows_answering _
  refine ⟨hscan, (load_accounts_iff hscan (by decide) hfollows false ()).mp ?_⟩
  decide +kernel

/-- Two files that import each other: none is published, and the command succeeds. And two files of which the
first imports the second, which is refused: the first is not reported. -/
theorem load_loses_files :
    (let protos := [⟨"a.proto", [1], ["b.proto"]⟩, ⟨"b.proto", [2], ["a.proto"]⟩]
    scanProtos (Sample.directory ["b.proto"] ["a.proto"]) "d" = .ok protos ∧
      (publishAll (Sample.refusing []) "n" false protos ()).loaded = [] ∧
      (publishAll (Sample.refusing []) "n" false protos ()).failed.keys = [] ∧
      (runLoad (Sample.directory ["b.proto"] ["a.proto"]) (Sample.refusing []) "n" "d" false false ()).1 = .ok ()) ∧
    (let protos := [⟨"a.proto", [1], ["b.proto"]⟩, ⟨"b.proto", [2], []⟩]
    scanProtos (Sample.directory ["b.proto"] []) "d" = .ok protos ∧
      (publishAll (Sample.refusing ["b.proto"]) "n" false protos ()).loaded = [] ∧
      (publishAll (Sample.refusing ["b.proto"]) "n" false protos ()).failed.keys = ["b.proto"]) := by
  decide +kernel

end ProtoRegistry.Ctl
