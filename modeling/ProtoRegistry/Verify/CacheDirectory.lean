import ProtoRegistry.Model.CacheFiles
import ProtoRegistry.Verify.Caching

/-!
# Writing to a cache directory

A process writes a file under a name of its own and renames it, and puts a manifest in place after the files that are
listed in it. `Coherent` says what holds of the directory at any time, whatever processes do this at the same time and
wherever they fail or stop.
-/

namespace ProtoRegistry.Client
open Prog

abbrev FsHistory := History fsInterface

/-! ## What a process knows -/

def Made (h : FsHistory) (t : Nat) : Prop := ∃ path, ⟨.createTemp path, .ok t⟩ ∈ h

def Placed (h : FsHistory) (path : CachePath) : Prop := ∃ t, ⟨.rename t path, .ok ()⟩ ∈ h

/-- The temporary file in use and its contents, after one more call. -/
def nextScratch (scratch : Option (Nat × Bytes)) : (op : FsOp) → op.Res → Option (Nat × Bytes)
  | .createTemp _, .ok t => some (t, [])
  | .write _ data, .ok _ => scratch.map fun s => (s.1, s.2 ++ data)
  | .write _ _, .error _ | .rename _ _, _ | .remove _, _ => none
  | _, _ => scratch

/-- The temporary file in use and its contents, as far as the process knows them. -/
def scratch (h : FsHistory) : Option (Nat × Bytes) := h.foldr (fun ev s => nextScratch s ev.1 ev.2) none

theorem scratch_cons (op : FsOp) (res : op.Res) (h : FsHistory) :
    scratch (⟨op, res⟩ :: h) = nextScratch (scratch h) op res := rfl

theorem Made.suffix {h h' : FsHistory} (hsuffix : h <:+ h') (hmade : Made h t) : Made h' t := by
  obtain ⟨path, hev⟩ := hmade
  exact ⟨path, hsuffix.subset hev⟩

theorem Placed.suffix {h h' : FsHistory} (hsuffix : h <:+ h') (hstored : Placed h path) : Placed h' path := by
  obtain ⟨t, hev⟩ := hstored
  exact ⟨t, hsuffix.subset hev⟩

theorem made_cons {op : FsOp} {res : op.Res} {h : FsHistory} :
    Made (⟨op, res⟩ :: h) t ↔ (∃ path, (⟨op, res⟩ : (op : FsOp) × op.Res) = ⟨.createTemp path, .ok t⟩) ∨ Made h t := by
  simp only [Made, List.mem_cons, exists_or]
  exact or_congr_left (exists_congr fun _ => eq_comm)

theorem made_of_scratch {h : FsHistory} (hs : scratch h = some (t, data)) : Made h t := by
  induction h generalizing data with
  | nil => cases hs
  | cons ev h ih =>
    obtain ⟨op, res⟩ := ev
    have hs : nextScratch (scratch h) op res = some (t, data) := hs
    have hkeep : ∀ {data}, scratch h = some (t, data) → Made (⟨op, res⟩ :: h) t :=
      fun hs => (ih hs).suffix (List.suffix_cons _ _)
    cases op with
    | createTemp path =>
      cases res with
      | ok t' =>
        cases hs
        exact ⟨path, List.mem_cons_self ..⟩
      | error e => exact hkeep hs
    | write t' data' =>
      cases res with
      | ok u =>
        obtain ⟨⟨t', old⟩, hold, heq⟩ := Option.map_eq_some_iff.mp hs
        cases heq
        exact hkeep hold
      | error e => cases hs
    | rename | remove => cases hs
    | _ => exact hkeep hs

/-! ## What processes write and read -/

section
variable (ext : CacheExternal) (W : String → List String → NsSnapshot → Prop)
  (sets : String → String → Nat → List FileDescriptor)

/-- What is written can be decoded. -/
structure CacheExternal.Lawful : Prop where
  manifest : ∀ {ns chain snap}, W ns chain snap →
    ext.unmarshalManifest (ext.marshalManifest (cacheManifest ns chain snap)) = .ok (cacheManifest ns chain snap)
  set : ∀ ns sc v, ext.unmarshalSet (ext.marshalSet (sets ns sc v)) = .ok (sets ns sc v)

/-- What may be in a file: the manifest of a snapshot that is written, or the descriptor set of the version in
its name. -/
def Fits : CachePath → Bytes → Prop
  | .manifest ns, data => ∃ chain snap, W ns chain snap ∧ data = ext.marshalManifest (cacheManifest ns chain snap)
  | .schema ns file, data => ∃ sc v, idPattern sc ∧ file = cacheFile sc v ∧ data = ext.marshalSet (sets ns sc v)

def Lists (data : Bytes) (file : String) : Prop :=
  ∃ man, ext.unmarshalManifest data = .ok man ∧ ∃ sm ∈ man.schemas, sm.file = file

/-- How a process writes: only to its own temporary files, and it puts a manifest in place after the files
that are listed. -/
def Guarantees (h : FsHistory) : FsOp → Prop
  | .write t _ => ∃ data, scratch h = some (t, data)
  | .rename t path => ∃ data, scratch h = some (t, data) ∧ Fits ext W sets path data ∧
      ∀ ns, path = .manifest ns → ∀ file, Lists ext data file → Placed h (.schema ns file)
  | .remove t => Made h t
  | _ => True

/-- What a process can rely on when it reads: files are whole, and those that are listed are there. -/
def Assumes (h : FsHistory) : (op : FsOp) → op.Res → Prop
  | .readFile path, .ok data => Fits ext W sets path data
  | .readFile (.schema ns file), .error .notExist =>
    ∀ data, ⟨.readFile (.manifest ns), .ok data⟩ ∈ h → ¬ Lists ext data file
  | _, _ => True

/-- The state of the directory, and what the processes know of it. -/
structure Coherent (s : Fs) (tr : List (Event fsInterface)) : Prop where
  temps : ∀ {i t data}, scratch (ownHistory tr i) = some (t, data) → s.temps.get t = some data
  fresh : ∀ {i t}, Made (ownHistory tr i) t → t < s.next
  apart : ∀ {i j t}, Made (ownHistory tr i) t → Made (ownHistory tr j) t → i = j
  fits : ∀ {path data}, s.files.get path = some data → Fits ext W sets path data
  listed : ∀ {ns data file}, s.files.get (.manifest ns) = some data → Lists ext data file →
    (s.files.get (.schema ns file)).isSome
  stored : ∀ {i path}, Placed (ownHistory tr i) path → (s.files.get path).isSome
  read : ∀ {i ns data file}, ⟨.readFile (.manifest ns), .ok data⟩ ∈ ownHistory tr i → Lists ext data file →
    (s.files.get (.schema ns file)).isSome

end

/-! ## One call -/

section
variable {ext : CacheExternal} {W : String → List String → NsSnapshot → Prop}
  {sets : String → String → Nat → List FileDescriptor} {s s' : Fs} {tr : List (Event fsInterface)} {i : Nat}

theorem Coherent.extend (h : Coherent ext W sets s tr) {op : FsOp} {res : op.Res}
    (hself : ∀ t data, nextScratch (scratch (ownHistory tr i)) op res = some (t, data) → s'.temps.get t = some data)
    (hother : ∀ t, t < s.next → ¬ Made (ownHistory tr i) t → s'.temps.get t = s.temps.get t)
    (hnext : s.next ≤ s'.next)
    (hmade : ∀ path t, (⟨op, res⟩ : (op : FsOp) × op.Res) = ⟨.createTemp path, .ok t⟩ → s.next = t ∧ t < s'.next)
    (hfits : ∀ path data, s'.files.get path = some data → Fits ext W sets path data)
    (hlisted : ∀ ns data file, s'.files.get (.manifest ns) = some data → Lists ext data file →
      (s'.files.get (.schema ns file)).isSome)
    (hkept : ∀ path, (s.files.get path).isSome → (s'.files.get path).isSome)
    (hstored : ∀ t path, (⟨op, res⟩ : (op : FsOp) × op.Res) = ⟨.rename t path, .ok ()⟩ → (s'.files.get path).isSome)
    (hread : ∀ ns data file, (⟨op, res⟩ : (op : FsOp) × op.Res) = ⟨.readFile (.manifest ns), .ok data⟩ →
      Lists ext data file → (s'.files.get (.schema ns file)).isSome) :
    Coherent ext W sets s' (⟨i, op, res⟩ :: tr) := by
  -- the history of a process is that before, or it is the one that made the call
  have hown : ∀ j, ownHistory (⟨i, op, res⟩ :: tr) j = ⟨op, res⟩ :: ownHistory tr j ∧ j = i ∨
      ownHistory (⟨i, op, res⟩ :: tr) j = ownHistory tr j ∧ j ≠ i := by
    intro j
    by_cases hij : i = j
    · subst hij
      exact .inl ⟨ownHistory_cons_self .., rfl⟩
    · exact .inr ⟨ownHistory_cons_of_ne _ _ hij, Ne.symm hij⟩
  have hnew : ∀ {j t}, Made (ownHistory (⟨i, op, res⟩ :: tr) j) t → (j = i ∧ s.next = t ∧ t < s'.next) ∨
      Made (ownHistory tr j) t := by
    intro j t hm
    obtain ⟨heq, rfl⟩ | ⟨heq, -⟩ := hown j
    · rw [heq] at hm
      obtain ⟨path, hev⟩ | hm := made_cons.mp hm
      · exact .inl ⟨rfl, hmade path t hev⟩
      · exact .inr hm
    · exact .inr (heq ▸ hm)
  constructor
  · intro j t data hs
    obtain ⟨heq, rfl⟩ | ⟨heq, hne⟩ := hown j
    · rw [heq] at hs
      exact hself t data hs
    · rw [heq] at hs
      have hm := made_of_scratch hs
      rw [hother t (h.fresh hm) fun hm' => hne (h.apart hm hm')]
      exact h.temps hs
  · intro j t hm
    obtain ⟨-, -, hlt⟩ | hm := hnew hm
    · exact hlt
    · exact Nat.lt_of_lt_of_le (h.fresh hm) hnext
  · intro j k t hj hk
    obtain ⟨hi, ht, -⟩ | hj := hnew hj
    · obtain ⟨hi', -, -⟩ | hk := hnew hk
      · exact hi.trans hi'.symm
      · exact absurd (h.fresh hk) (ht ▸ Nat.lt_irrefl _)
    · obtain ⟨-, ht, -⟩ | hk := hnew hk
      · exact absurd (h.fresh hj) (ht ▸ Nat.lt_irrefl _)
      · exact h.apart hj hk
  · exact hfits _ _
  · exact hlisted _ _ _
  · intro j path hst
    obtain ⟨heq, rfl⟩ | ⟨heq, -⟩ := hown j
    · rw [heq] at hst
      obtain ⟨t, hev⟩ := hst
      obtain hev | hev := List.mem_cons.mp hev
      · exact hstored t path hev.symm
      · exact hkept path (h.stored ⟨t, hev⟩)
    · exact hkept path (h.stored (heq ▸ hst))
  · intro j ns data file hev hlists
    obtain ⟨heq, rfl⟩ | ⟨heq, -⟩ := hown j
    · rw [heq] at hev
      obtain hev | hev := List.mem_cons.mp hev
      · exact hread ns data file hev.symm hlists
      · exact hkept _ (h.read hev hlists)
    · exact hkept _ (h.read (heq ▸ hev) hlists)

theorem Coherent.extend_of_files (h : Coherent ext W sets s tr) {op : FsOp} {res : op.Res} (hfiles : s'.files = s.files)
    (hself : ∀ t data, nextScratch (scratch (ownHistory tr i)) op res = some (t, data) → s'.temps.get t = some data)
    (hother : ∀ t, t < s.next → ¬ Made (ownHistory tr i) t → s'.temps.get t = s.temps.get t)
    (hnext : s.next ≤ s'.next)
    (hmade : ∀ path t, (⟨op, res⟩ : (op : FsOp) × op.Res) = ⟨.createTemp path, .ok t⟩ → s.next = t ∧ t < s'.next)
    (hrename : ∀ t path, (⟨op, res⟩ : (op : FsOp) × op.Res) ≠ ⟨.rename t path, .ok ()⟩)
    (hread : ∀ ns data, (⟨op, res⟩ : (op : FsOp) × op.Res) = ⟨.readFile (.manifest ns), .ok data⟩ →
      s.files.get (.manifest ns) = some data) :
    Coherent ext W sets s' (⟨i, op, res⟩ :: tr) := by
  refine h.extend hself hother hnext hmade ?_ ?_ ?_ ?_ ?_
  · rw [hfiles]
    exact fun _ _ => h.fits
  · rw [hfiles]
    exact fun _ _ _ => h.listed
  · rw [hfiles]
    exact fun _ hpath => hpath
  · exact fun t path hev => (hrename t path hev).elim
  · rw [hfiles]
    exact fun ns data file hev => h.listed (hread ns data hev)

theorem Coherent.extend_of_eq (h : Coherent ext W sets s tr) {op : FsOp} {res : op.Res}
    (hself : ∀ {t data}, nextScratch (scratch (ownHistory tr i)) op res = some (t, data) →
      scratch (ownHistory tr i) = some (t, data))
    (hmade : ∀ path t, (⟨op, res⟩ : (op : FsOp) × op.Res) ≠ ⟨.createTemp path, .ok t⟩)
    (hrename : ∀ t path, (⟨op, res⟩ : (op : FsOp) × op.Res) ≠ ⟨.rename t path, .ok ()⟩)
    (hread : ∀ ns data, (⟨op, res⟩ : (op : FsOp) × op.Res) = ⟨.readFile (.manifest ns), .ok data⟩ →
      s.files.get (.manifest ns) = some data) :
    Coherent ext W sets s (⟨i, op, res⟩ :: tr) :=
  h.extend_of_files rfl (fun _ _ hs => h.temps (hself hs)) (fun _ _ _ => rfl) le_rfl
    (fun path t hev => (hmade path t hev).elim) hrename hread

theorem nextScratch_error {sc : Option (Nat × Bytes)} {op : FsOp} {e : FsErr}
    (hs : nextScratch sc op (.error e) = some (t, data)) : sc = some (t, data) := by
  cases op <;> first | exact hs | cases hs

theorem Coherent.extend_of_error (h : Coherent ext W sets s tr) (op : FsOp) (e : FsErr) :
    Coherent ext W sets s (⟨i, op, .error e⟩ :: tr) := by
  refine h.extend_of_eq nextScratch_error ?_ ?_ ?_
  · intro path t hev
    cases hev
  · intro t path hev
    cases hev
  · intro ns data hev
    cases hev

/-- **One call**: what a process guarantees keeps the directory coherent, and what it assumes is the case. -/
theorem Coherent.mayFail (h : Coherent ext W sets s tr) {op : FsOp} {res : op.Res}
    (hop : Guarantees ext W sets (ownHistory tr i) op) (hstep : Fs.MayFail op s res s') :
    Assumes ext W sets (ownHistory tr i) op res ∧ Coherent ext W sets s' (⟨i, op, res⟩ :: tr) := by
  obtain heq | ⟨⟨e, rfl⟩, hs'⟩ := hstep
  · cases op with
    | mkdirAll ns =>
      cases heq
      exact ⟨trivial, h.extend_of_eq id (by simp) (by simp) (by simp)⟩
    | sync t =>
      cases heq
      exact ⟨trivial, h.extend_of_eq id (by simp) (by simp) (by simp)⟩
    | close t =>
      cases heq
      exact ⟨trivial, h.extend_of_eq id (by simp) (by simp) (by simp)⟩
    | stat t =>
      simp only [Fs.perform] at heq
      split at heq
      · cases heq
        exact ⟨trivial, h.extend_of_eq id (by simp) (by simp) (by simp)⟩
      · cases heq
        exact ⟨trivial, h.extend_of_error _ _⟩
    | createTemp path =>
      cases heq
      refine ⟨trivial, h.extend_of_files rfl ?_ ?_ (Nat.le_succ _) ?_ (by simp) (by simp)⟩
      · intro t data hs
        cases hs
        exact Dict.get_set_self ..
      · intro t hlt _
        exact Dict.get_set_of_ne _ _ (Nat.ne_of_lt hlt)
      · intro path' t hev
        cases hev
        exact ⟨rfl, Nat.lt_succ_self _⟩
    | write t data =>
      obtain ⟨old, hs⟩ := hop
      simp only [Fs.perform, h.temps hs] at heq
      cases heq
      refine ⟨trivial, h.extend_of_files rfl ?_ ?_ le_rfl (by simp) (by simp) (by simp)⟩
      · intro t' data' hs'
        simp only [nextScratch, hs] at hs'
        cases hs'
        exact Dict.get_set_self ..
      · intro t' _ hnot
        refine Dict.get_set_of_ne _ _ ?_
        rintro rfl
        exact hnot (made_of_scratch hs)
    | rename t path =>
      obtain ⟨data, hs, hfits, hlist⟩ := hop
      simp only [Fs.perform, h.temps hs] at heq
      cases heq
      refine ⟨trivial, h.extend (by rintro _ _ ⟨⟩) ?_ le_rfl (by simp) ?_ ?_ ?_ ?_ (by simp)⟩
      · intro t' _ hnot
        refine Dict.get_delete_of_ne _ ?_
        rintro rfl
        exact hnot (made_of_scratch hs)
      · intro path' data' hget
        rw [Dict.get_set] at hget
        split at hget
        · next hpath =>
          cases hget
          exact hpath ▸ hfits
        · exact h.fits hget
      · intro ns data' file hget hlists
        rw [Dict.get_set] at hget
        split at hget
        · next hpath =>
          cases hget
          exact Dict.isSome_get_set _ _ (h.stored (hlist ns hpath.symm file hlists))
        · exact Dict.isSome_get_set _ _ (h.listed hget hlists)
      · intro path' hsome
        exact Dict.isSome_get_set _ _ hsome
      · intro t' path' hev
        cases hev
        rw [Dict.get_set_self]
        rfl
    | remove t =>
      simp only [Fs.perform] at heq
      split at heq
      · cases heq
        refine ⟨trivial, h.extend_of_files rfl (by rintro _ _ ⟨⟩) ?_ le_rfl (by simp) (by simp) (by simp)⟩
        intro t' _ hnot
        refine Dict.get_delete_of_ne _ ?_
        rintro rfl
        exact hnot hop
      · cases heq
        exact ⟨trivial, h.extend_of_error _ _⟩
    | readFile path =>
      simp only [Fs.perform] at heq
      split at heq
      · next hnone =>
        cases heq
        refine ⟨?_, h.extend_of_error _ _⟩
        cases path with
        | manifest ns => trivial
        | schema ns file =>
          intro data hev hlists
          have hsome := h.read hev hlists
          rw [hnone] at hsome
          cases hsome
      · next data hdata =>
        cases heq
        refine ⟨h.fits hdata, h.extend_of_eq id (by simp) (by simp) ?_⟩
        intro ns data' hev
        cases hev
        exact hdata
  · obtain rfl | ⟨t, data, n, old, rfl, hold, rfl⟩ := hs'
    · refine ⟨?_, h.extend_of_error op (.io e)⟩
      cases op with
      | readFile path => cases path <;> trivial
      | _ => trivial
    · obtain ⟨old', hs⟩ := hop
      refine ⟨trivial, h.extend_of_files rfl (by rintro _ _ ⟨⟩) ?_ le_rfl (by simp) (by simp) (by simp)⟩
      intro t' _ hnot
      refine Dict.get_set_of_ne _ _ ?_
      rintro rfl
      exact hnot (made_of_scratch hs)

theorem coherent_empty : Coherent ext W sets {} [] := by
  constructor
  · rintro _ _ _ ⟨⟩
  · rintro _ _ ⟨_, ⟨⟩⟩
  · rintro _ _ _ ⟨_, ⟨⟩⟩
  · rintro _ _ ⟨⟩
  · rintro _ _ _ ⟨⟩
  · rintro _ _ ⟨_, ⟨⟩⟩
  · rintro _ _ _ _ ⟨⟩

/-! ## Writing -/

abbrev Follows (ext : CacheExternal) (W : String → List String → NsSnapshot → Prop)
    (sets : String → String → Nat → List FileDescriptor) {ε α : Type} (x : ExceptT ε (Prog fsInterface) α)
    (h : FsHistory) (Q : Except ε α → FsHistory → Prop) : Prop :=
  Meets (I := fsInterface) (Guarantees ext W sets) (Assumes ext W sets) x h Q

variable {h : FsHistory} {α : Type}

theorem follows_fs {op : FsOp} {Q : op.Res → FsHistory → Prop} (hop : Guarantees ext W sets h op)
    (hQ : ∀ res, Assumes ext W sets h op res → Q res (⟨op, res⟩ :: h)) : Follows ext W sets (fs op) h Q :=
  ⟨hop, hQ⟩

namespace Follows

/-- The rule for a call. -/
theorem call {op : FsOp} {f : op.Val → FsM α} {Q : Except FsErr α → FsHistory → Prop} (hop : Guarantees ext W sets h op)
    (herr : ∀ e, Assumes ext W sets h op (.error e) → Q (.error e) (⟨op, .error e⟩ :: h))
    (hok : ∀ v, Assumes ext W sets h op (.ok v) → Follows ext W sets (f v) (⟨op, .ok v⟩ :: h) Q) :
    Follows ext W sets (fs op >>= f) h Q := by
  refine ⟨hop, fun res hres => ?_⟩
  cases res with
  | error e => exact herr e hres
  | ok v => exact hok v hres

theorem attempt {x : FsM β} {f : Except FsErr β → FsM α} {R : Except FsErr β → FsHistory → Prop}
    {Q : Except FsErr α → FsHistory → Prop} (hx : Follows ext W sets x h R)
    (hf : ∀ res h', R res h' → Follows ext W sets (f res) h' Q) : Follows ext W sets (attemptFs x >>= f) h Q := by
  refine Meets.bind (R := fun res h' => ∃ r, res = .ok r ∧ R r h') ?_ ?_ ?_
  · exact Prog.Contract.bind (Prog.Contract.mono hx fun res _ hres => ⟨res, rfl, hres⟩)
  · rintro e h' ⟨_, ⟨⟩, _⟩
  · rintro res h' ⟨_, ⟨⟩, hres⟩
    exact hf res h' hres

theorem inContext {x : FsM α} {Q : Except ClientErr α → FsHistory → Prop} (text : String)
    (hx : Follows ext W sets x h fun res => Q (res.mapError fun e => .error (text ++ ": " ++ e.text))) :
    Follows ext W sets (inContext text x) h Q :=
  Prog.Contract.bind (Prog.Contract.mono hx fun _ _ hres => hres)

theorem wrapContext {x : CacheM α} {Q : Except ClientErr α → FsHistory → Prop} (text : String)
    (hx : Follows ext W sets x h fun res => Q (res.mapError (·.context text))) :
    Follows ext W sets (wrapContext text x) h Q :=
  Prog.Contract.bind (Prog.Contract.mono hx fun _ _ hres => hres)

/-- If `x` fails, the file is closed and nothing else is done. -/
theorem orClose {x : FsM Unit} {R Q : Except FsErr Unit → FsHistory → Prop} (t : Nat) (hx : Follows ext W sets x h R)
    (hok : ∀ h', R (.ok ()) h' → Q (.ok ()) h')
    (herr : ∀ e h' res, R (.error e) h' → Q (.error e) (⟨.close t, res⟩ :: h')) :
    Follows ext W sets (orClose t x) h Q := by
  refine attempt hx fun res h' hres => ?_
  cases res with
  | ok u => exact Meets.pure (hok h' hres)
  | error e =>
    refine attempt (R := fun _ h'' => ∃ res, h'' = ⟨.close t, res⟩ :: h')
      (follows_fs trivial fun res _ => ⟨res, rfl⟩) ?_
    rintro _ _ ⟨res, rfl⟩
    exact Meets.throw (herr e h' res hres)

end Follows

/-- From its temporary file on, `atomicWrite` has the contents in place or reports an error. -/
theorem fillTemp_follows (hs : scratch h = some (t, [])) (hfits : Fits ext W sets path data)
    (hlist : ∀ ns, path = .manifest ns → ∀ file, Lists ext data file → Placed h (.schema ns file)) :
    Follows ext W sets (do
      orClose t (fs (.write t data))
      orClose t (fs (.sync t))
      fs (.close t)
      fs (.rename t path)) h fun res h' => h <:+ h' ∧ (res = .ok () → Placed h' path) := by
  -- a result, with the contents in the temporary file and nothing put in place
  let Filled : Except FsErr Unit → FsHistory → Prop :=
    fun res h' => h <:+ h' ∧ (res = .ok () → scratch h' = some (t, data))
  refine Meets.bind (R := Filled) ?_ (fun e h' hres => ⟨hres.1, by rintro ⟨⟩⟩) fun _ h₁ ⟨hh₁, hs₁⟩ => ?_
  · refine Follows.orClose (R := Filled) t (follows_fs ⟨[], hs⟩ fun res _ => ⟨List.suffix_cons _ _, ?_⟩)
      (fun h' hres => hres) fun e h' res hres => ⟨hres.1.trans (List.suffix_cons _ _), by rintro ⟨⟩⟩
    rintro rfl
    rw [scratch_cons, hs]
    rfl
  refine Meets.bind (R := Filled) ?_ (fun e h' hres => ⟨hres.1, by rintro ⟨⟩⟩) fun _ h₂ ⟨hh₂, hs₂⟩ => ?_
  · refine Follows.orClose (R := Filled) t (follows_fs trivial fun res _ =>
      ⟨hh₁.trans (List.suffix_cons _ _), fun _ => ?_⟩)
      (fun h' hres => hres) fun e h' res hres => ⟨hres.1.trans (List.suffix_cons _ _), by rintro ⟨⟩⟩
    exact (scratch_cons (.sync t) res h₁).trans (hs₁ rfl)
  refine Follows.call trivial (fun e _ => ⟨hh₂.trans (List.suffix_cons _ _), by rintro ⟨⟩⟩) fun _ _ => ?_
  refine follows_fs ⟨data, hs₂ rfl, hfits, fun ns hns file hfile => ?_⟩ fun res _ => ⟨?_, ?_⟩
  · exact (hlist ns hns file hfile).suffix (hh₂.trans (List.suffix_cons _ _))
  · exact hh₂.trans ((List.suffix_cons _ _).trans (List.suffix_cons _ _))
  · rintro rfl
    exact ⟨t, List.mem_cons_self ..⟩

/-- **A file is written as a whole**: with the contents in place or not at all. -/
theorem atomicWrite_follows (hfits : Fits ext W sets path data)
    (hlist : ∀ ns, path = .manifest ns → ∀ file, Lists ext data file → Placed h (.schema ns file)) :
    Follows ext W sets (atomicWrite path data) h fun res h' => h <:+ h' ∧ (res = .ok () → Placed h' path) := by
  refine Follows.call trivial (fun e _ => ⟨List.suffix_cons _ _, by rintro ⟨⟩⟩) fun t _ => ?_
  have hfill := fillTemp_follows (h := ⟨.createTemp path, .ok t⟩ :: h) rfl hfits
    fun ns hns file hfile => (hlist ns hns file hfile).suffix (List.suffix_cons _ _)
  refine Follows.attempt hfill fun res h₁ ⟨hsuffix, hres⟩ => ?_
  have hh : h <:+ h₁ := (List.suffix_cons _ _).trans hsuffix
  have hdone : ∀ {h₂}, h₁ <:+ h₂ → Follows ext W sets (liftExcept res) h₂ fun res h' => h <:+ h' ∧
      (res = .ok () → Placed h' path) :=
    fun hsuffix' => Meets.liftExcept ⟨hh.trans hsuffix', fun hok => (hres hok).suffix hsuffix'⟩
  refine Follows.attempt (R := fun _ h₂ => h₁ <:+ h₂) (follows_fs trivial fun _ _ => List.suffix_cons _ _)
    fun stat h₂ hstat => ?_
  cases stat with
  | error e => exact hdone hstat
  | ok u =>
    refine Follows.attempt (R := fun _ h₃ => h₂ <:+ h₃) (follows_fs ?_ fun _ _ => List.suffix_cons _ _)
      fun _ h₃ hremove => hdone (hstat.trans hremove)
    exact ⟨path, (hsuffix.trans hstat).subset (List.mem_cons_self ..)⟩

/-- A namespace is written with its files before its manifest. -/
theorem writeNamespace_follows (hext : ext.Lawful W sets) {chain : List String} (hW : W ns chain snap)
    (hsnap : ∀ sc ss, snap.schemas.get sc = some ss → idPattern sc ∧ ss.rawDescriptorSet = sets ns sc ss.version) :
    Follows ext W sets (writeNamespace ext ns chain snap) h fun _ _ => True := by
  refine Meets.bind (R := fun _ _ => True) (Follows.inContext _ (follows_fs trivial fun _ _ => trivial))
    (fun _ _ _ => trivial) fun _ h₁ _ => ?_
  let Written : List (String × SchemaSnapshot) → FsHistory → Prop :=
    fun done h => ∀ e ∈ done, Placed h (.schema ns (cacheFile e.1 e.2.version))
  refine Meets.bind (Meets.forM (J := fun done _ => Written done) (E := fun _ _ => True) ?_ (by rintro _ ⟨⟩))
    (fun _ _ _ => trivial)
    fun _ h₂ hwritten => ?_
  · intro done e rest h₂ hl hdone
    have he : e ∈ snap.cached := hl ▸ List.mem_append_right _ (List.mem_cons_self ..)
    obtain ⟨hid, hset⟩ := hsnap e.1 e.2 (NsSnapshot.mem_cached.mp he).1
    have hfits : Fits ext W sets (.schema ns (cacheFile e.1 e.2.version)) (ext.marshalSet e.2.rawDescriptorSet) :=
      ⟨e.1, e.2.version, hid, rfl, by rw [hset]⟩
    refine Follows.inContext _ ((atomicWrite_follows hfits (by rintro _ ⟨⟩)).mono fun res h₃ hres => ?_)
    cases res with
    | error err => trivial
    | ok u =>
      intro e' he'
      obtain he' | he' := List.mem_append.mp he'
      · exact (hdone e' he').suffix hres.1
      · rw [List.mem_singleton.mp he']
        exact hres.2 rfl
  · have hfits : Fits ext W sets (.manifest ns) (ext.marshalManifest (cacheManifest ns chain snap)) :=
      ⟨chain, snap, hW, rfl⟩
    refine Follows.inContext _ ((atomicWrite_follows hfits ?_).mono fun _ _ _ => trivial)
    rintro _ ⟨⟩ file ⟨man, hman, sm, hsm, rfl⟩
    rw [hext.manifest hW] at hman
    cases hman
    obtain ⟨e, he, rfl⟩ := List.mem_map.mp hsm
    exact hwritten e he

mutual
/-- A resolver and the resolvers below it. -/
def Resolver.parts : Resolver → List Resolver
  | ⟨agg, ns, cfg, snapshot, ancestors, fromCache⟩ =>
    ⟨agg, ns, cfg, snapshot, ancestors, fromCache⟩ :: partsOf ancestors
def partsOf : List Resolver → List Resolver
  | [] => []
  | a :: rest => a.parts ++ partsOf rest
end

/-- What is written of a resolver: its snapshot and its chain, with descriptor sets that depend on the version
alone. -/
structure Resolver.Writes (W : String → List String → NsSnapshot → Prop)
    (sets : String → String → Nat → List FileDescriptor) (r : Resolver) : Prop where
  snapshot : ∀ {snap}, r.snapshot = some snap → W r.ns r.recordedChain snap
  sets : ∀ {snap}, r.snapshot = some snap → ∀ sc ss, snap.schemas.get sc = some ss →
    idPattern sc ∧ ss.rawDescriptorSet = sets r.ns sc ss.version

mutual
theorem persistFiles_follows (hext : ext.Lawful W sets) (h : FsHistory) :
    ∀ r : Resolver, (∀ a ∈ r.parts, a.Writes W sets) → Follows ext W sets (r.persistFiles ext) h fun _ _ => True
  | ⟨agg, ns, cfg, snapshot, ancestors, fromCache⟩, hr => by
    rw [Resolver.parts, List.forall_mem_cons] at hr
    unfold Resolver.persistFiles
    cases snapshot with
    | none => exact Meets.pure trivial
    | some snap =>
      dsimp only
      split
      · exact Meets.pure trivial
      · refine Meets.bind (writeNamespace_follows hext (hr.1.snapshot rfl) (hr.1.sets rfl)) (fun _ _ _ => trivial)
          fun _ h' _ => persistAllFiles_follows hext h' ancestors hr.2
theorem persistAllFiles_follows (hext : ext.Lawful W sets) (h : FsHistory) :
    ∀ l : List Resolver, (∀ a ∈ partsOf l, a.Writes W sets) →
      Follows ext W sets (persistAllFiles ext l) h fun _ _ => True
  | [], _ => Meets.pure trivial
  | a :: rest, hl => by
    rw [partsOf, List.forall_mem_append] at hl
    refine Meets.bind (R := fun _ _ => True) (Follows.wrapContext _ (persistFiles_follows hext h a hl.1))
      (fun _ _ _ => trivial) fun _ h' _ => persistAllFiles_follows hext h' rest hl.2
end

end

end ProtoRegistry.Client
