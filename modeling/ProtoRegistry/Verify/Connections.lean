import ProtoRegistry.Model.Connection
import ProtoRegistry.Model.Sample
import ProtoRegistry.Verify.Refreshing

/-!
# Calls through a missing connection

Whether a resolver was loaded from the cache decides whether its `rpc` is nil, and that of its ancestors with
it. `Refresh` asks first. `Pin` and `GetSource` do not, and call a method on nil: `Pin` whenever there is
something to pin, and `GetSource` for every path that is in the cache.
-/

namespace ProtoRegistry.Client

variable {env : External} {server : Server} {r : Resolver} {h : Handle} {hs : List Handle}

/-! ## Where resolvers come from -/

theorem fromCache_of_newSingleNamespace {parent : Option Resolver}
    (h : newSingleNamespace env server ns cfg parent = .ok r) : r.fromCache = false := by
  obtain ⟨_, _, _, _, -, -, -, -, rfl⟩ := populate_eq_ok h
  rfl

theorem fromCache_of_new (h : Client.new env server ns cfg = .ok r) : r.fromCache = false := by
  rw [Client.new] at h
  split at h
  · cases h
  · split at h
    · exact fromCache_of_newSingleNamespace h
    · split at h
      · cases h
      · split at h
        · cases h
        · obtain ⟨ancestors, -, h⟩ := except_bind_eq_ok.mp h
          obtain ⟨main, hmain, h⟩ := except_bind_eq_ok.mp h
          have hcache := fromCache_of_newSingleNamespace hmain
          cases h
          exact hcache

theorem fromCache_of_loadSingleNamespace {disk : Disk} {parent : Option Resolver}
    (h : loadSingleNamespaceFromCache env disk ns cfg parent = .ok r) : r.fromCache = true := by
  obtain ⟨man, -, h⟩ := except_bind_eq_ok.mp h
  obtain ⟨snap₀, -, h⟩ := except_bind_eq_ok.mp h
  obtain ⟨snap, -, h⟩ := except_bind_eq_ok.mp h
  split at h
  · cases h
  · cases h
    rfl

theorem fromCache_of_loadFromCache {disk : Disk} (h : loadFromCache env disk ns cfg = .ok r) : r.fromCache = true := by
  obtain ⟨man, -, h⟩ := except_bind_eq_ok.mp h
  split at h
  · exact fromCache_of_loadSingleNamespace h
  · obtain ⟨ancestors, -, h⟩ := except_bind_eq_ok.mp h
    obtain ⟨main, hmain, h⟩ := except_bind_eq_ok.mp h
    have hcache := fromCache_of_loadSingleNamespace hmain
    cases h
    exact hcache

theorem refresh_frame (env : External) (server : Server) (r : Resolver) :
    (Client.refresh env server r).2.fromCache = r.fromCache ∧
    (Client.refresh env server r).2.ancestors = r.ancestors := by
  rcases h : Client.refresh env server r with ⟨res, r'⟩
  cases refreshed_of_eq h <;> exact ⟨rfl, rfl⟩

/-- A resolver has a connection unless it was loaded from the cache, and so have its ancestors. -/
structure Handle.Wired (h : Handle) : Prop where
  rpc : h.rpc = !h.resolver.fromCache
  ancestors : h.ancestorRpc = h.resolver.ancestors.map fun _ => h.rpc

theorem new_eq_ok {server : Server} (hnew : Handle.new env (some server) ns cfg = .ok h) :
    Client.new env server ns cfg = .ok h.resolver ∧ h.rpc = true ∧
      h.ancestorRpc = h.resolver.ancestors.map fun _ => true := by
  rw [Handle.new] at hnew
  cases hr : Client.new env server ns cfg with
  | error e =>
    rw [hr] at hnew
    cases hnew
  | ok r =>
    rw [hr] at hnew
    cases hnew
    exact ⟨rfl, rfl, rfl⟩

theorem wired_of_new (hnew : Handle.new env conn ns cfg = .ok h) : h.Wired := by
  cases conn with
  | none => cases hnew
  | some server =>
    obtain ⟨hr, hrpc, hancestors⟩ := new_eq_ok hnew
    constructor
    · rw [hrpc, fromCache_of_new hr]
      rfl
    · rw [hrpc, hancestors]

theorem wired_of_loadFromCache {disk : Disk} (hload : Handle.loadFromCache env disk ns cfg = .ok h) : h.Wired := by
  rw [Handle.loadFromCache] at hload
  cases hr : Client.loadFromCache env disk ns cfg with
  | error e =>
    rw [hr] at hload
    cases hload
  | ok r =>
    rw [hr] at hload
    cases hload
    exact ⟨by rw [fromCache_of_loadFromCache hr]; rfl, rfl⟩

theorem wired_of_dial {cache : Option Disk} (hdial : Handle.dial env conn cache addr ns cfg = .ok h) : h.Wired := by
  rw [Handle.dial] at hdial
  split at hdial
  · next h' honline =>
    cases hdial
    cases conn with
    | error e => cases honline
    | ok server =>
      have hnew : Handle.new env (some server) ns cfg = .ok h := honline
      exact wired_of_new hnew
  · cases hdial
  · split at hdial
    · cases hdial
    · split at hdial
      · next h' hload =>
        cases hdial
        exact wired_of_loadFromCache hload
      · cases hdial
      · cases hdial

theorem Handle.Wired.refresh (hw : h.Wired) (env : External) (server : Server) : (h.refresh env server).2.Wired := by
  rw [Handle.refresh]
  split
  · exact hw
  · obtain ⟨hcache, hancestors⟩ := refresh_frame env server h.resolver
    exact ⟨by rw [hcache]; exact hw.rpc, by rw [hancestors]; exact hw.ancestors⟩

/-! ## Pinning -/

theorem pinSchema_of_nil (hrpc : h.rpc = false) (snap : NsSnapshot) (e : String × Nat) :
    h.pinSchema env server snap e = .error .nilClient := by
  rw [Handle.pinSchema, hrpc]
  rfl

theorem pinSchema_of_live (hrpc : h.rpc = true) (snap : NsSnapshot) (e : String × Nat) :
    h.pinSchema env server snap e ≠ .error .nilClient := by
  rw [Handle.pinSchema, hrpc, if_neg (by simp)]
  split <;> simp

theorem pin_of_empty {versions : Dict String Nat} (hempty : versions.keys = []) :
    h.pin env server versions = .error (.client (.error "protoregistry/client: empty pin map")) := by
  rw [Handle.pin, hempty]
  rfl

theorem pin_of_nil {versions : Dict String Nat} (hrpc : h.rpc = false) (hne : versions.keys ≠ []) :
    h.pin env server versions = .error .nilClient := by
  have hlist : versions.toList ≠ [] := fun hnil => hne (Dict.toList_eq_nil.mp hnil)
  obtain ⟨e, rest, hcons⟩ := List.exists_cons_of_ne_nil hlist
  rw [Handle.pin, if_neg (by simpa using hne), hcons, List.foldlM_cons, pinSchema_of_nil (h := h.toPin) hrpc]
  rfl

theorem pin_of_live {versions : Dict String Nat} (hrpc : h.rpc = true) :
    h.pin env server versions ≠ .error .nilClient := by
  intro hpin
  rw [Handle.pin] at hpin
  split at hpin
  · cases hpin
  · cases hload : versions.toList.foldlM (h.toPin.pinSchema env server) .new with
    | error e =>
      rw [hload] at hpin
      cases hpin
      obtain ⟨a, -, snap, hstep⟩ := exists_of_foldlM_error hload
      exact pinSchema_of_live (h := h.toPin) hrpc snap a hstep
    | ok snap =>
      rw [hload] at hpin
      change (snap.buildNameIndex.mapError CallErr.client >>= _) = _ at hpin
      cases hindex : snap.buildNameIndex with
      | error e =>
        rw [hindex] at hpin
        cases hpin
      | ok snap' =>
        rw [hindex] at hpin
        simp only [Except.mapError, bind, Except.bind] at hpin
        split at hpin <;> cases hpin

theorem wired_of_pin {h' : Handle} {versions : Dict String Nat} (hpin : h.pin env server versions = .ok h') :
    h'.Wired := by
  have hlive : h.rpc = true := by
    by_contra hnot
    rw [Bool.not_eq_true] at hnot
    by_cases hempty : versions.keys = []
    · rw [pin_of_empty hempty] at hpin
      cases hpin
    · rw [pin_of_nil hnot hempty] at hpin
      cases hpin
  rw [Handle.pin] at hpin
  split at hpin
  · cases hpin
  · obtain ⟨snap₀, -, hpin⟩ := except_bind_eq_ok.mp hpin
    obtain ⟨snap, -, hpin⟩ := except_bind_eq_ok.mp hpin
    split at hpin
    · cases hpin
    · cases hpin
      exact ⟨hlive, rfl⟩

/-! ## Sources -/

/-- A schema that the resolver has loaded mentions the path. -/
def Resolver.MentionsOwn (r : Resolver) (path : String) : Prop :=
  ∃ snap ss, r.snapshot = some snap ∧ ss ∈ snap.schemas.values ∧ path ∈ ss.aggFingerprint.filePaths

/-- The resolver, or one of its ancestors, has loaded a schema that mentions the path. -/
def Resolver.Mentions (r : Resolver) (path : String) : Prop := ∃ a ∈ r :: r.ancestors, a.MentionsOwn path

section
variable {sources : SourceServer} {order : MapOrder} {path : String}

theorem fetchOwnSource_of_not_mentions (hnot : ¬ r.MentionsOwn path) (rpc : Bool) :
    Handle.fetchOwnSource sources order path r rpc = .ok none := by
  rw [Handle.fetchOwnSource]
  split
  · rfl
  · next snap hsnap =>
    split
    · rfl
    · next owner howner =>
      have hmem := (order.perm snap.schemas).mem_iff.mp (List.mem_of_find?_eq_some howner)
      exact absurd ⟨snap, owner, hsnap, hmem, by simpa using List.find?_some howner⟩ hnot

theorem fetchOwnSource_of_nil (h : r.MentionsOwn path) :
    Handle.fetchOwnSource sources order path r false = .error .nilClient := by
  obtain ⟨snap, ss, hsnap, hss, hpath⟩ := h
  rw [Handle.fetchOwnSource, hsnap]
  dsimp only
  split
  · next hnone =>
    rw [List.find?_eq_none] at hnone
    exact absurd (by simpa using hpath) (hnone ss ((order.perm snap.schemas).mem_iff.mpr hss))
  · rfl

theorem fetchOwnSource_of_live : Handle.fetchOwnSource sources order path r true ≠ .error .nilClient := by
  rw [Handle.fetchOwnSource]
  split
  · simp
  · split
    · simp
    · dsimp only
      rw [if_neg (by simp)]
      split
      · simp
      · split <;> simp

theorem fetchFrom_nil (l : List Resolver) :
    ((∃ a ∈ l, a.MentionsOwn path) →
        Handle.fetchFrom sources order path (l.map fun a => (a, false)) = .error .nilClient) ∧
      ((¬ ∃ a ∈ l, a.MentionsOwn path) →
        Handle.fetchFrom sources order path (l.map fun a => (a, false)) = .error (.client errNotFound)) := by
  induction l with
  | nil =>
    refine ⟨fun hex => ?_, fun _ => rfl⟩
    obtain ⟨a, ha, -⟩ := hex
    cases ha
  | cons a l ih =>
    rw [List.map_cons, Handle.fetchFrom]
    by_cases ha : a.MentionsOwn path
    · rw [fetchOwnSource_of_nil ha]
      exact ⟨fun _ => rfl, fun hnot => absurd ⟨a, List.mem_cons_self .., ha⟩ hnot⟩
    · rw [fetchOwnSource_of_not_mentions ha]
      have hiff : (∃ b ∈ a :: l, b.MentionsOwn path) ↔ ∃ b ∈ l, b.MentionsOwn path := by
        simp [ha]
      rw [hiff]
      exact ih

theorem fetchFrom_live (l : List Resolver) :
    Handle.fetchFrom sources order path (l.map fun a => (a, true)) ≠ .error .nilClient := by
  induction l with
  | nil => simp [Handle.fetchFrom]
  | cons a l ih =>
    rw [List.map_cons, Handle.fetchFrom]
    split
    · next e he =>
      intro heq
      cases heq
      exact fetchOwnSource_of_live he
    · simp
    · exact ih

theorem Handle.Wired.tiers_eq (hw : h.Wired) :
    h.tiers = (h.resolver :: h.resolver.ancestors).map fun a => (a, h.rpc) := by
  have hzip : ∀ l : List Resolver, l.zip (l.map fun _ => h.rpc) = l.map fun a => (a, h.rpc) := by
    intro l
    induction l with
    | nil => rfl
    | cons a l ih => rw [List.map_cons, List.zip_cons_cons, ih, List.map_cons]
  rw [Handle.tiers, hw.ancestors, hzip, List.map_cons]

end

/-! ## Runs -/

/-- On a resolver that was loaded from the cache nothing is pinned, and no source is asked for that a loaded
schema mentions. -/
def Op.Guarded (hs : List Handle) : Op → Prop
  | .pin i _ versions => ∀ h, hs[i]? = some h → h.resolver.fromCache → versions.keys = []
  | .getSource i _ _ path => ∀ h, hs[i]? = some h → h.resolver.fromCache → ¬ h.resolver.Mentions path
  | _ => True

def AllGuarded (env : External) : List Handle → List Op → Prop
  | _, [] => True
  | hs, op :: ops => op.Guarded hs ∧ AllGuarded env (step env hs op).2 ops

theorem mapError_client_ne {x : Except ClientErr α} : x.mapError CallErr.client ≠ .error .nilClient := by
  cases x <;> simp [Except.mapError]

theorem map_eq_error {x : Except ε α} {f : α → β} : x.map f = .error e ↔ x = .error e := by
  cases x <;> simp [Except.map]

theorem keep_nil_iff {x : Except CallErr Handle} : (keep hs x).1 = .error .nilClient ↔ x = .error .nilClient := by
  cases x <;> simp [keep]

theorem atIndex_nil_iff {i : Nat} {f : Handle → Except CallErr Answer × List Handle} :
    (atIndex hs i f).1 = .error .nilClient ↔ ∃ h, hs[i]? = some h ∧ (f h).1 = .error .nilClient := by
  rw [atIndex]
  cases hs[i]? <;> simp

theorem Handle.Wired.pin_nil_iff (hw : h.Wired) {versions : Dict String Nat} :
    h.pin env server versions = .error .nilClient ↔ h.resolver.fromCache ∧ versions.keys ≠ [] := by
  have hrpc := hw.rpc
  cases hcache : h.resolver.fromCache with
  | false =>
    rw [hcache] at hrpc
    exact iff_of_false (pin_of_live hrpc) fun hboth => Bool.false_ne_true hboth.1
  | true =>
    rw [hcache] at hrpc
    by_cases hempty : versions.keys = []
    · rw [pin_of_empty hempty]
      exact iff_of_false (by simp) fun hboth => hboth.2 hempty
    · exact iff_of_true (pin_of_nil hrpc hempty) ⟨rfl, hempty⟩

theorem Handle.Wired.refresh_ne_nil (hw : h.Wired) (env : External) (server : Server) :
    (h.refresh env server).1 ≠ .error .nilClient := by
  have hcond : (!h.resolver.fromCache && !h.rpc) = false := by
    rw [hw.rpc]
    cases h.resolver.fromCache <;> rfl
  rw [Handle.refresh, if_neg (by rw [hcond]; exact Bool.false_ne_true)]
  exact mapError_client_ne

theorem Handle.Wired.getSource_nil_iff (hw : h.Wired) {sources : SourceServer} {order : MapOrder} {path : String} :
    h.getSource sources order path = .error .nilClient ↔ h.resolver.fromCache ∧ h.resolver.Mentions path := by
  rw [Handle.getSource, hw.tiers_eq, hw.rpc]
  cases h.resolver.fromCache with
  | false => exact iff_of_false (fetchFrom_live _) fun hboth => Bool.false_ne_true hboth.1
  | true =>
    obtain ⟨hnil, hfound⟩ := fetchFrom_nil (h.resolver :: h.resolver.ancestors)
    by_cases hmentions : h.resolver.Mentions path
    · exact iff_of_true (hnil hmentions) ⟨rfl, hmentions⟩
    · rw [Bool.not_true, hfound hmentions]
      exact iff_of_false (by simp [errNotFound]) fun hboth => hmentions hboth.2

/-- An operation calls a method on nil exactly when it is not guarded. -/
theorem step_nil_iff (hw : ∀ h ∈ hs, h.Wired) (op : Op) :
    (step env hs op).1 = .error .nilClient ↔ ¬ op.Guarded hs := by
  cases op with
  | new conn ns cfg => exact iff_of_false (fun h => mapError_client_ne (keep_nil_iff.mp h)) (not_not.mpr trivial)
  | dial conn cache addr ns cfg =>
    exact iff_of_false (fun h => mapError_client_ne (keep_nil_iff.mp h)) (not_not.mpr trivial)
  | pin i server versions =>
    rw [step, atIndex_nil_iff, Op.Guarded]
    push Not
    refine exists_congr fun h => and_congr_right fun hi => ?_
    rw [keep_nil_iff, (hw h (List.mem_of_getElem? hi)).pin_nil_iff]
  | refresh i server =>
    refine iff_of_false (fun hnil => ?_) (not_not.mpr trivial)
    obtain ⟨h, hi, hres⟩ := atIndex_nil_iff.mp hnil
    exact (hw h (List.mem_of_getElem? hi)).refresh_ne_nil env server (map_eq_error.mp hres)
  | getSource i server order path =>
    rw [step, atIndex_nil_iff, Op.Guarded]
    push Not
    refine exists_congr fun h => and_congr_right fun hi => ?_
    rw [map_eq_error, (hw h (List.mem_of_getElem? hi)).getSource_nil_iff]
  | read i op =>
    refine iff_of_false (fun hnil => ?_) (not_not.mpr trivial)
    obtain ⟨h, -, hres⟩ := atIndex_nil_iff.mp hnil
    cases hres
  | close i =>
    refine iff_of_false (fun hnil => ?_) (not_not.mpr trivial)
    obtain ⟨h, -, hres⟩ := atIndex_nil_iff.mp hnil
    cases hres

theorem wired_keep (hw : ∀ h ∈ hs, h.Wired) {x : Except CallErr Handle} (hx : ∀ h, x = .ok h → h.Wired) :
    ∀ h ∈ (keep hs x).2, h.Wired := by
  cases x with
  | error e => exact hw
  | ok h =>
    intro h' hmem
    obtain hold | hnew := List.mem_append.mp hmem
    · exact hw h' hold
    · exact List.mem_singleton.mp hnew ▸ hx h rfl

theorem wired_atIndex (hw : ∀ h ∈ hs, h.Wired) {i : Nat} {f : Handle → Except CallErr Answer × List Handle}
    (hf : ∀ h ∈ hs, ∀ h' ∈ (f h).2, h'.Wired) : ∀ h ∈ (atIndex hs i f).2, h.Wired := by
  rw [atIndex]
  cases hi : hs[i]? with
  | none => exact hw
  | some h => exact hf h (List.mem_of_getElem? hi)

theorem step_wired (hw : ∀ h ∈ hs, h.Wired) (op : Op) : ∀ h ∈ (step env hs op).2, h.Wired := by
  cases op with
  | new conn ns cfg => exact wired_keep hw fun h hnew => wired_of_new (mapError_eq_ok.mp hnew)
  | dial conn cache addr ns cfg => exact wired_keep hw fun h hdial => wired_of_dial (mapError_eq_ok.mp hdial)
  | pin i server versions => exact wired_atIndex hw fun h _ => wired_keep hw fun h' hpin => wired_of_pin hpin
  | refresh i server =>
    refine wired_atIndex hw fun h hh h' hmem => ?_
    obtain hold | rfl := List.mem_or_eq_of_mem_set hmem
    · exact hw h' hold
    · exact (hw h hh).refresh env server
  | getSource i server order path => exact wired_atIndex hw fun _ _ => hw
  | read i op => exact wired_atIndex hw fun _ _ => hw
  | close i => exact wired_atIndex hw fun _ _ => hw

theorem outcomes_nil_iff (hw : ∀ h ∈ hs, h.Wired) (ops : List Op) :
    (∀ res ∈ outcomes env hs ops, res ≠ .error .nilClient) ↔ AllGuarded env hs ops := by
  induction ops generalizing hs with
  | nil => simp [outcomes, AllGuarded]
  | cons op ops ih =>
    rw [outcomes, AllGuarded, List.forall_mem_cons, ih (step_wired hw op), Ne, step_nil_iff hw op, not_not]

theorem runOps_wired (hw : ∀ h ∈ hs, h.Wired) (ops : List Op) : ∀ h ∈ runOps env hs ops, h.Wired := by
  induction ops generalizing hs with
  | nil => exact hw
  | cons op ops ih => exact ih (step_wired hw op)

/-- **No call through a missing connection.** In a run of public operations from the start, no method is called on
a nil `rpc` exactly when all operations are guarded. A resolver from the cache answers a refresh, an empty pin
and a path that it does not know with an error. -/
theorem no_nil_call_iff (env : External) (ops : List Op) :
    ((∀ res ∈ outcomes env [] ops, res ≠ .error .nilClient) ↔ AllGuarded env [] ops) ∧
      ∀ h ∈ runOps env [] ops, h.resolver.fromCache →
        (∀ server, (h.refresh env server).1 = .error (.client errStaleResolver)) ∧
          (∀ server versions, versions.keys = [] →
            h.pin env server versions = .error (.client (.error "protoregistry/client: empty pin map"))) ∧
          ∀ server order path, ¬ h.resolver.Mentions path →
            h.getSource server order path = .error (.client errNotFound) := by
  have hstart : ∀ h ∈ ([] : List Handle), h.Wired := fun h hh => by cases hh
  refine ⟨outcomes_nil_iff hstart ops, fun h hh hcache => ⟨fun server => ?_, fun server versions => pin_of_empty,
    fun server order path hnot => ?_⟩⟩
  · rw [Handle.refresh, Client.refresh, hcache]
    rfl
  · have hwired := runOps_wired hstart ops h hh
    rw [Handle.getSource, hwired.tiers_eq, hwired.rpc, hcache]
    exact (fetchFrom_nil _).2 hnot

/-- A cache with one schema, which has the file `m.proto`. -/
def sampleDisk : Disk where
  manifests := Dict.empty.set "n" ⟨1, "n", [⟨"s", 1, cacheFile "s" 1⟩], []⟩
  schemas := Dict.empty.set ("n", cacheFile "s" 1) [Sample.file "m.proto" [1]]

/-- The server is not there, and the cache is. -/
def sampleDial : Op := .dial (.error "connection refused") (some sampleDisk) "127.0.0.1:1" "n" {}

def sampleSources : SourceServer :=
  { Sample.server ["n"] Sample.oneFile with getSource := fun _ _ _ => .ok (Dict.empty.set "m.proto" [1]) }

theorem no_nil_call_unknown_path : ∃ h ∈ runOps Sample.env [] [sampleDial], h.resolver.fromCache ∧
    (∀ server, (h.refresh Sample.env server).1 = .error (.client errStaleResolver)) ∧
    ∀ server order, h.getSource server order "other.proto" = .error (.client errNotFound) := by
  obtain ⟨h, hrun, hcache, hsource⟩ : ∃ h, runOps Sample.env [] [sampleDial] = [h] ∧ h.resolver.fromCache = true ∧
      h.getSource sampleSources .written "other.proto" = .error (.client errNotFound) := ⟨_, rfl, rfl, rfl⟩
  have hmem : h ∈ runOps Sample.env [] [sampleDial] := hrun ▸ List.mem_singleton_self h
  have hwired : h.Wired := runOps_wired (fun h hh => by cases hh) [sampleDial] h hmem
  have hnot : ¬ h.resolver.Mentions "other.proto" := by
    intro hmentions
    cases hsource.symm.trans (hwired.getSource_nil_iff.mpr ⟨hcache, hmentions⟩)
  obtain ⟨hrefresh, -, hget⟩ := (no_nil_call_iff Sample.env [sampleDial]).2 h hmem hcache
  exact ⟨h, hmem, hcache, hrefresh, fun server order => hget server order "other.proto" hnot⟩

/-- The file is in the cache, but asking for its source, or pinning its version, goes through nil. -/
theorem calls_through_nil :
    outcomes Sample.env [] [sampleDial, .read 0 .isStale, .getSource 0 sampleSources .written "m.proto",
      .pin 0 sampleSources.toServer (Dict.empty.set "s" 1)] =
      [.ok .created, .ok (.flag true), .error .nilClient, .error .nilClient] := rfl

end ProtoRegistry.Client
