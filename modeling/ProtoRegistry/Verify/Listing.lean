import ProtoRegistry.Model.Sample
import ProtoRegistry.Theory.Paging
import Mathlib.Data.FinEnum
import Mathlib.Data.Set.Finite.List

/-!
# Listing page by page

A client follows `next_page_token` from the empty token on. The handlers fetch one row more than a page has,
to see whether there are more pages. As long as the limit of the query leaves room for that row, or for all
rows, the pages are those of a keyset walk, so nothing is left out and nothing is returned twice, whatever
page sizes are asked for and however the tables change between the pages.
-/

namespace ProtoRegistry

/-- The order of the database on IDs, and base64. -/
structure ServerExternal.Lawful (ext : ServerExternal) : Prop where
  irrefl : ∀ a, ¬ ext.less a a
  trans : ∀ a b c, ext.less a b → ext.less b c → ext.less a c
  total : ∀ a b, a ≠ b → ext.less a b ∨ ext.less b a
  empty_least : ∀ a ≠ "", ext.less "" a
  encode_empty : ext.encodeToString "" = ""
  decode_encode : ∀ c, ext.decodeString (ext.encodeToString c) = .ok c

/-! ## The rows of a page -/

section
variable {ext : ServerExternal} (hlaw : ext.Lawful)
include hlaw

namespace ServerExternal.Lawful

theorem isStrictOrder : IsStrictOrder String (ext.less · ·) where
  irrefl := hlaw.irrefl
  trans := hlaw.trans

theorem encode_ne_empty (hc : c ≠ "") : ext.encodeToString c ≠ "" := by
  intro hempty
  have hdecode := hlaw.decode_encode c
  rw [hempty, ← hlaw.encode_empty, hlaw.decode_encode] at hdecode
  exact hc (Except.ok.inj hdecode).symm

theorem less_of_not_less {a b : String} (h : ext.less b a = false) (hne : a ≠ b) : ext.less a b = true := by
  refine (hlaw.total a b hne).resolve_right ?_
  rw [h]
  exact Bool.false_ne_true

/-- The order of `ORDER BY`, which puts rows with the same ID next to each other. -/
theorem isTrans_orderBy : IsTrans (String × α) fun a b => ext.less b.1 a.1 = false where
  trans a b c hab hbc := by
    by_contra hca
    rw [Bool.not_eq_false] at hca
    by_cases heq : a.1 = b.1
    · rw [heq, hbc] at hca
      exact Bool.false_ne_true hca
    · have hcb := hlaw.trans _ _ _ hca (hlaw.less_of_not_less hab heq)
      rw [hbc] at hcb
      exact Bool.false_ne_true hcb

theorem total_orderBy : Std.Total fun a b : String × α => ext.less b.1 a.1 = false where
  total a b := by
    by_contra h
    rw [not_or, Bool.not_eq_false, Bool.not_eq_false] at h
    exact hlaw.irrefl _ (hlaw.trans _ _ _ h.1 h.2)

end ServerExternal.Lawful

theorem pairwise_orderBy {rows : List (String × α)} (hnd : (rows.map Prod.fst).Nodup) :
    ((rows.insertionSort fun a b => ext.less b.1 a.1 = false).map Prod.fst).Pairwise (ext.less · ·) := by
  have := hlaw.isTrans_orderBy (α := α)
  have := hlaw.total_orderBy (α := α)
  have hperm := List.perm_insertionSort (fun a b : String × α => ext.less b.1 a.1 = false) rows
  have hnodup := ((hperm.map Prod.fst).nodup_iff.mpr hnd)
  rw [List.pairwise_map]
  refine (List.pairwise_insertionSort _ rows).imp₂ (fun a b hle hne => ?_) (List.pairwise_map.mp hnodup)
  exact hlaw.less_of_not_less hle hne

end

/-! ## The size of a page -/

/-- The query of a page can return all of a page and one row more, or all of the rows. -/
def Server.Fits (s : Server) (requested : UInt32) (count : Nat) : Prop :=
  (s.limits.resolvePageSize requested).toInt < 2147483647 ∨
    (s.limits.resolvePageSize requested).toInt < 9223372036854775807 ∧ count ≤ 2147483647 ∨ count = 0

theorem Limits.resolvePageSize_pos {l : Limits} (hdefault : 0 < l.defaultListPageSize) (hmax : 0 < l.maxListPageSize)
    (requested : UInt32) : 0 < (l.resolvePageSize requested).toInt := by
  unfold resolvePageSize
  split
  · exact Int64.lt_iff_toInt_lt.mp hdefault
  · next hzero =>
    have hlt := requested.toNat_lt
    have hpos : requested.toNat ≠ 0 := fun h => hzero (UInt32.toNat_inj.mp h)
    split
    · exact Int64.lt_iff_toInt_lt.mp hmax
    · have hsize : Int64.size = 18446744073709551616 := rfl
      rw [Int64.toInt_ofNat', Int.bmod_eq_of_le] <;> omega

/-- The limit of the query is one more than the page size, unless that is not an `int32`. -/
theorem toNat_intToInt32Clamp {p : Int64} (hpos : 0 < p.toInt) (hmax : p.toInt < 9223372036854775807) :
    (intToInt32Clamp (p + 1)).toInt.toNat = min (p.toInt.toNat + 1) 2147483647 := by
  have hone : (1 : Int64).toInt = 1 := rfl
  have hsucc : (p + 1).toInt = p.toInt + 1 := by
    rw [Int64.toInt_add, hone]
    exact Int.bmod_eq_of_le (by omega) (by omega)
  have hbound : (2147483647 : Int64).toInt = 2147483647 := rfl
  have hzero : (0 : Int64).toInt = 0 := rfl
  unfold intToInt32Clamp
  simp only [Int64.lt_iff_toInt_lt, hsucc, hbound, hzero]
  split
  · have hlimit : (2147483647 : Int32).toInt = 2147483647 := rfl
    rw [hlimit]
    omega
  · rw [if_neg (by omega), Int64.toInt_toInt32, hsucc, Int.bmod_eq_of_le (by omega) (by omega)]
    omega

/-! ## One request -/

namespace Server

variable {s : Server} {requested : UInt32} {id : String}

theorem Fits.limit (hfits : s.Fits requested count) (hpos : 0 < (s.limits.resolvePageSize requested).toInt) :
    (s.limits.resolvePageSize requested).toInt.toNat <
        (intToInt32Clamp (s.limits.resolvePageSize requested + 1)).toInt.toNat ∨
      count ≤ (intToInt32Clamp (s.limits.resolvePageSize requested + 1)).toInt.toNat := by
  obtain hsmall | ⟨hmax, hcount⟩ | hempty := hfits
  · rw [toNat_intToInt32Clamp hpos (by omega)]
    omega
  · rw [toNat_intToInt32Clamp hpos hmax]
    omega
  · exact .inr (by omega)

def tokenOf (s : Server) (next : Option String) : String := encodePageToken s.ext (next.getD "")

section
variable (hlaw : s.ext.Lawful)
include hlaw

theorem cutPage_eq {p : Int64} (hpos : 0 < p.toInt) (rows : List (String × α)) : s.cutPage p rows =
    ((cutAt Prod.fst p.toInt.toNat rows).1, s.tokenOf (cutAt Prod.fst p.toInt.toNat rows).2) := by
  unfold cutPage cutAt
  by_cases hmore : p.toInt < rows.length
  · rw [if_pos hmore, if_pos (by omega)]
    rfl
  · rw [if_neg hmore, if_neg (by omega)]
    exact congrArg _ hlaw.encode_empty.symm

theorem exists_page {rows : List (String × α)} (hpos : 0 < (s.limits.resolvePageSize requested).toInt)
    (hnd : (rows.map Prod.fst).Nodup) (hfits : s.Fits requested rows.length) (after : String) :
    ∃ page next, KeysetPage (s.ext.less · ·) Prod.fst rows after page next ∧
      s.cutPage (s.limits.resolvePageSize requested)
        (selectPage s.ext.less rows after (s.limits.resolvePageSize requested + 1)) = (page, s.tokenOf next) := by
  have := hlaw.isStrictOrder
  have hlength : ((rows.filter fun row => s.ext.less after row.1).insertionSort
      fun a b => s.ext.less b.1 a.1 = false).length ≤ rows.length := by
    rw [List.length_insertionSort]
    exact List.length_filter_le ..
  rw [cutPage_eq hlaw hpos, selectPage, cutAt_take ((hfits.limit hpos).imp_right hlength.trans)]
  refine ⟨_, _, keysetPage_cutAt (by omega) (pairwise_orderBy hlaw ?_) fun row => ?_, rfl⟩
  · exact hnd.sublist (List.filter_sublist.map _)
  · rw [List.mem_insertionSort, List.mem_filter]

end

/-- An ID that `validateID` admits, or that of the builtins when it is not too long for the cursor of a token. -/
def Admitted (s : Server) (id : String) : Prop :=
  validateID id "id" s.limits.maxIDLength = .ok () ∨
    id = builtinsNamespace ∧ (id.utf8ByteSize : Int) ≤ s.limits.maxIDLength.toInt

theorem Admitted.ne_empty (h : s.Admitted id) : id ≠ "" := by
  obtain h | ⟨rfl, -⟩ := h
  · exact (validateID_eq_ok.mp h).1
  · decide

theorem Admitted.utf8ByteSize_le (h : s.Admitted id) : (id.utf8ByteSize : Int) ≤ s.limits.maxIDLength.toInt := by
  obtain h | ⟨-, h⟩ := h
  · exact (validateID_eq_ok.mp h).2.1
  · exact h

theorem cursor_eq_ok (hdecode : decodePageToken s.ext token = .ok after)
    (hsize : (after.utf8ByteSize : Int) ≤ s.limits.maxIDLength.toInt) : s.cursor token = .ok after := by
  rw [cursor, hdecode]
  change (if _ then _ else _) = _
  rw [if_neg (Int.not_lt.mpr hsize)]
  rfl

theorem cursor_empty (hid : 0 ≤ s.limits.maxIDLength) : s.cursor "" = .ok "" :=
  cursor_eq_ok rfl (Int64.le_iff_toInt_le.mp hid)

theorem Admitted.cursor_tokenOf (h : s.Admitted id) (hlaw : s.ext.Lawful) :
    s.cursor (s.tokenOf (some id)) = .ok id := by
  refine cursor_eq_ok ?_ h.utf8ByteSize_le
  have hne : s.tokenOf (some id) ≠ "" := hlaw.encode_ne_empty h.ne_empty
  rw [decodePageToken, if_neg hne]
  exact hlaw.decode_encode id

end Server

/-! ## Following the tokens -/

/-- The requests of a client for one page after the other, at most as many as the fuel, from the one with number
`k` on. The client stops at an empty token. -/
def follow (list : Nat → String → Except Status (List β × String)) :
    Nat → Nat → String → Except Status (Option (List β))
  | 0, _, _ => .ok none
  | fuel + 1, k, token => do
    let (items, nextToken) ← list k token
    if nextToken = "" then return some items
    let rest ← follow list fuel (k + 1) nextToken
    return rest.map (items ++ ·)

/-- A listing that ends and returns the rows that are in the table throughout, each once, and no others than
those that are in the table when a page is read, in the order of their IDs. -/
structure ListsExactly (less : String → String → Bool) (table : Nat → String → Option α) (toItem : String × α → β)
    (list : Nat → String → Except Status (List β × String)) : Prop where
  succeeds : ∀ fuel, ∃ res, follow list fuel 0 "" = .ok res
  terminates : ∃ fuel items, follow list fuel 0 "" = .ok (some items)
  returns : ∀ fuel items, follow list fuel 0 "" = .ok (some items) → ∃ rows : List (String × α),
    items = rows.map toItem ∧ (rows.map Prod.fst).Pairwise (less · ·) ∧
      (∀ row ∈ rows, ∃ k < fuel, table k row.1 = some row.2) ∧
      ∀ id, (∀ k < fuel, (table k id).isSome) → (rows.map Prod.fst).count id = 1

/-- Every request with a cursor is answered with a page of the table. -/
def Server.Serves (s : Server) (tables : Nat → List (String × α)) (toItem : String × α → β)
    (list : Nat → String → Except Status (List β × String)) : Prop :=
  ∀ k token after, s.cursor token = .ok after → ∃ page next,
    KeysetPage (s.ext.less · ·) Prod.fst (tables k) after page next ∧
      list k token = .ok (page.map toItem, s.tokenOf next)

namespace Server.Serves

variable {s : Server} {tables : Nat → List (String × α)} {toItem : String × α → β}
  {list : Nat → String → Except Status (List β × String)}

section
variable (hserves : s.Serves tables toItem list) (hlaw : s.ext.Lawful)
  (hadmitted : ∀ k, ∀ row ∈ tables k, s.Admitted row.1)
include hserves hlaw hadmitted

/-- What one request does to a client: the listing is at its end, or goes on after the last ID. -/
theorem step (hcursor : s.cursor token = .ok after) (fuel k : Nat) :
    (∃ page, KeysetPage (s.ext.less · ·) Prod.fst (tables k) after page none ∧
        follow list (fuel + 1) k token = .ok (some (page.map toItem))) ∨
      ∃ page b nextToken, KeysetPage (s.ext.less · ·) Prod.fst (tables k) after page (some b) ∧
        s.cursor nextToken = .ok b ∧ follow list (fuel + 1) k token =
          (follow list fuel (k + 1) nextToken).map (·.map (page.map toItem ++ ·)) := by
  obtain ⟨page, next, hpage, hlist⟩ := hserves k token after hcursor
  cases next with
  | none =>
    refine .inl ⟨page, hpage, ?_⟩
    have hempty : s.tokenOf none = "" := hlaw.encode_empty
    rw [follow, hlist, hempty]
    rfl
  | some b =>
    obtain ⟨row, hrow, rfl⟩ := List.mem_map.mp (hpage.next_mem b rfl)
    have hb := hadmitted k row ((hpage.mem row).mp hrow).1
    refine .inr ⟨page, row.1, s.tokenOf (some row.1), hpage, hb.cursor_tokenOf hlaw, ?_⟩
    have hne : s.tokenOf (some row.1) ≠ "" := hlaw.encode_ne_empty hb.ne_empty
    rw [follow, hlist]
    change (if _ then _ else _) = _
    rw [if_neg hne]
    cases follow list fuel (k + 1) (s.tokenOf (some row.1)) <;> rfl

/-- The requests do not fail. If they come to the end, they are a walk over the pages. -/
theorem run (hcursor : s.cursor token = .ok after) (fuel k : Nat) :
    follow list fuel k token = .ok none ∨ ∃ n rows, n ≤ fuel ∧ Walk (s.ext.less · ·) Prod.fst tables k after n rows ∧
      follow list fuel k token = .ok (some (rows.map toItem)) := by
  induction fuel generalizing k token after with
  | zero => exact .inl rfl
  | succ fuel ih =>
    obtain ⟨page, hpage, heq⟩ | ⟨page, b, nextToken, hpage, hnext, heq⟩ := hserves.step hlaw hadmitted hcursor fuel k
    · exact .inr ⟨1, page, by omega, .last hpage, heq⟩
    · rw [heq]
      obtain hrest | ⟨n, rows, hn, hwalk, hrest⟩ := ih hnext (k + 1)
      · rw [hrest]
        exact .inl rfl
      · rw [hrest]
        refine .inr ⟨n + 1, page ++ rows, by omega, .next hpage hwalk, ?_⟩
        rw [List.map_append]
        rfl

/-- The requests come to the end: each page that is not the last leaves fewer IDs. -/
theorem ends {ids : List String} (hids : ∀ k, ∀ row ∈ tables k, row.1 ∈ ids) (hcursor : s.cursor token = .ok after)
    (fuel k : Nat) (hfuel : (ids.filter (s.ext.less after ·)).length < fuel) :
    ∃ items, follow list fuel k token = .ok (some items) := by
  have := hlaw.isStrictOrder
  induction fuel generalizing k token after with
  | zero => exact absurd hfuel (Nat.not_lt_zero _)
  | succ fuel ih =>
    obtain ⟨page, hpage, heq⟩ | ⟨page, b, nextToken, hpage, hnext, heq⟩ := hserves.step hlaw hadmitted hcursor fuel k
    · exact ⟨_, heq⟩
    · have hlt := hpage.remaining_lt (hids k)
      simp only [Bool.decide_eq_true] at hlt
      obtain ⟨items, hitems⟩ := ih hnext (k + 1) (by omega)
      rw [heq, hitems]
      exact ⟨_, rfl⟩

end

end Server.Serves

theorem finite_utf8ByteSize_le (n : Nat) : {s : String | s.utf8ByteSize ≤ n}.Finite := by
  refine Set.Finite.of_finite_image (f := fun s : String => s.toByteArray.data.toList)
    ((List.finite_length_le UInt8 n).subset ?_) ?_
  · rintro bytes ⟨s, hs, rfl⟩
    exact hs
  · intro s _ t _ h
    exact String.toByteArray_inj.mp (ByteArray.ext (Array.toList_inj.mp h))

/-- A server that answers every request with a page of the table lists the table. -/
theorem Server.Serves.listsExactly {s : Server} {table : Nat → String → Option α}
    (hserves : s.Serves tables toItem list) (hlaw : s.ext.Lawful) (hid : 0 ≤ s.limits.maxIDLength)
    (htable : ∀ k id row, (id, row) ∈ tables k ↔ table k id = some row)
    (hadmitted : ∀ k id, (table k id).isSome → s.Admitted id) : ListsExactly s.ext.less table toItem list := by
  have hrows : ∀ k, ∀ row ∈ tables k, s.Admitted row.1 :=
    fun k row hrow => hadmitted k row.1 (Option.isSome_of_eq_some ((htable k row.1 row.2).mp hrow))
  have hcursor := cursor_empty hid
  have := hlaw.isStrictOrder
  refine ⟨fun fuel => ?_, ?_, fun fuel items hitems => ?_⟩
  · obtain hnone | ⟨n, rows, -, -, hsome⟩ := hserves.run hlaw hrows hcursor fuel 0
    · exact ⟨_, hnone⟩
    · exact ⟨_, hsome⟩
  · have hfinite := finite_utf8ByteSize_le s.limits.maxIDLength.toInt.toNat
    have hids : ∀ k, ∀ row ∈ tables k, row.1 ∈ hfinite.toFinset.toList := by
      intro k row hrow
      have hsize := (hrows k row hrow).utf8ByteSize_le
      rw [Finset.mem_toList, Set.Finite.mem_toFinset, Set.mem_ofPred_eq]
      omega
    exact ⟨_, hserves.ends hlaw hrows hids hcursor _ 0 (Nat.lt_succ_self _)⟩
  · obtain hnone | ⟨n, rows, hn, hwalk, hsome⟩ := hserves.run hlaw hrows hcursor fuel 0
    · rw [hitems] at hnone
      cases hnone
    · rw [hitems] at hsome
      cases hsome
      refine ⟨rows, rfl, hwalk.ascending, fun row hrow => ?_, fun id hpresent => ?_⟩
      · obtain ⟨j, -, hj, hmem⟩ := hwalk.exists_mem hrow
        exact ⟨j, by omega, (htable j row.1 row.2).mp hmem⟩
      · have hpos : 0 < n := by cases hwalk <;> omega
        have hne := (hadmitted 0 id (hpresent 0 (by omega))).ne_empty
        refine List.count_eq_one_of_mem hwalk.ascending.nodup (hwalk.mem_of_present (fun j _ hj => ?_)
          (hlaw.empty_least id hne))
        obtain ⟨row, hrow⟩ := Option.isSome_iff_exists.mp (hpresent j (by omega))
        exact List.mem_map.mpr ⟨(id, row), (htable j id row).mpr hrow, rfl⟩

/-! ## The two listings -/

def Store.schemaTable (s : Store) (namespaceID : String) : List (String × SchemaRow) :=
  s.schemas.toList.filterMap fun e => if e.1.1 = namespaceID then some (e.1.2, e.2) else none

namespace Store

variable {st : Store} {ns id : String}

theorem mem_schemaTable : (id, row) ∈ st.schemaTable ns ↔ st.schemas.get (ns, id) = some row := by
  rw [← Dict.mem_toList, schemaTable, List.mem_filterMap]
  constructor
  · rintro ⟨⟨⟨ns', id'⟩, row'⟩, hmem, heq⟩
    split at heq
    · next hns =>
      cases heq
      cases hns
      exact hmem
    · cases heq
  · intro hmem
    exact ⟨_, hmem, if_pos rfl⟩

theorem map_schemaTable : (st.schemaTable ns).map Prod.fst = (st.schemas.keys.filter (·.1 = ns)).map Prod.snd := by
  rw [← Dict.keys_toList, schemaTable]
  induction st.schemas.toList with
  | nil => rfl
  | cons e es ih =>
    by_cases hns : e.1.1 = ns
    · simp [hns, ih]
    · simp [hns, ih]

theorem nodup_schemaTable : ((st.schemaTable ns).map Prod.fst).Nodup := by
  rw [map_schemaTable]
  refine (st.schemas.nodup.filter _).map_on fun x hx y hy h => ?_
  have hx := of_decide_eq_true (List.mem_filter.mp hx).2
  have hy := of_decide_eq_true (List.mem_filter.mp hy).2
  exact Prod.ext (hx.trans hy.symm) h

end Store

namespace Server

variable {s : Server}

theorem listSchemas_eq (hns : s.validateNamespaceID ns = .ok ()) (hcursor : s.cursor token = .ok after)
    (hcut : s.cutPage (s.limits.resolvePageSize size) (selectPage s.ext.less (st.schemaTable ns) after
      (s.limits.resolvePageSize size + 1)) = (page, nextToken)) :
    s.listSchemas st ns size token = .ok ⟨page.map fun row => schemaToProto ns row.1 row.2 [], nextToken⟩ := by
  change s.cutPage _ (st.listSchemasPage s.ext.less ns after _) = _ at hcut
  simp only [listSchemas, hns, hcursor, hcut, bind, Except.bind]
  rfl

theorem listNamespaces_eq (hcursor : s.cursor token = .ok after)
    (hcut : s.cutPage (s.limits.resolvePageSize size) (selectPage s.ext.less st.namespaces.toList after
      (s.limits.resolvePageSize size + 1)) = (page, nextToken)) :
    s.listNamespaces st size token = .ok ⟨page.map Prod.fst, nextToken⟩ := by
  change s.cutPage _ (st.listNamespacesPage s.ext.less after _) = _ at hcut
  simp only [listNamespaces, hcursor, hcut, bind, Except.bind]
  rfl

variable (hlaw : s.ext.Lawful) (hdefault : 0 < s.limits.defaultListPageSize)
  (hmax : 0 < s.limits.maxListPageSize) {stores : Nat → Store} {sizes : Nat → UInt32}
include hlaw hdefault hmax

theorem serves_schemas (hns : s.validateNamespaceID ns = .ok ())
    (hfits : ∀ k, s.Fits (sizes k) ((stores k).schemas.keys.filter (·.1 = ns)).length) :
    s.Serves (fun k => (stores k).schemaTable ns) (fun row => schemaToProto ns row.1 row.2 [])
      fun k token => (s.listSchemas (stores k) ns (sizes k) token).map fun res => (res.schemas, res.nextPageToken) := by
  intro k token after hcursor
  have hlength : ((stores k).schemas.keys.filter (·.1 = ns)).length = ((stores k).schemaTable ns).length := by
    rw [← List.length_map Prod.snd, ← Store.map_schemaTable, List.length_map]
  obtain ⟨page, next, hpage, hcut⟩ := exists_page hlaw (Limits.resolvePageSize_pos hdefault hmax (sizes k))
    Store.nodup_schemaTable (hlength ▸ hfits k) after
  exact ⟨page, next, hpage, congrArg (Except.map _) (listSchemas_eq hns hcursor hcut)⟩

theorem serves_namespaces (hfits : ∀ k, s.Fits (sizes k) (stores k).namespaces.keys.length) :
    s.Serves (fun k => (stores k).namespaces.toList) Prod.fst
      fun k token => (s.listNamespaces (stores k) (sizes k) token).map fun res =>
        (res.namespaces, res.nextPageToken) := by
  intro k token after hcursor
  have hkeys := (stores k).namespaces.keys_toList
  obtain ⟨page, next, hpage, hcut⟩ := exists_page hlaw (Limits.resolvePageSize_pos hdefault hmax (sizes k))
    (hkeys ▸ (stores k).namespaces.nodup) (by rw [← List.length_map Prod.fst, hkeys]; exact hfits k) after
  exact ⟨page, next, hpage, congrArg (Except.map _) (listNamespaces_eq hcursor hcut)⟩

end Server

/-- **Listings are exact** when the query of every page fits: whatever page sizes are asked for and however the
store changes between the pages. -/
theorem Server.listing_exact (s : Server) (hlaw : s.ext.Lawful) (hdefault : 0 < s.limits.defaultListPageSize)
    (hmax : 0 < s.limits.maxListPageSize) (hid : 0 ≤ s.limits.maxIDLength) (stores : Nat → Store)
    (sizes : Nat → UInt32) :
    (∀ ns, s.validateNamespaceID ns = .ok () →
      (∀ k id, ((stores k).schemas.get (ns, id)).isSome → s.Admitted id) →
      (∀ k, s.Fits (sizes k) ((stores k).schemas.keys.filter (·.1 = ns)).length) →
      ListsExactly s.ext.less (fun k id => (stores k).schemas.get (ns, id))
        (fun row => schemaToProto ns row.1 row.2 [])
        fun k token => (s.listSchemas (stores k) ns (sizes k) token).map fun res => (res.schemas, res.nextPageToken)) ∧
    ((∀ k id, ((stores k).namespaces.get id).isSome → s.Admitted id) →
      (∀ k, s.Fits (sizes k) (stores k).namespaces.keys.length) →
      ListsExactly s.ext.less (fun k id => (stores k).namespaces.get id) Prod.fst
        fun k token => (s.listNamespaces (stores k) (sizes k) token).map fun res =>
          (res.namespaces, res.nextPageToken)) := by
  refine ⟨fun ns hns hadmitted hfits => ?_, fun hadmitted hfits => ?_⟩
  · exact (serves_schemas hlaw hdefault hmax hns hfits).listsExactly hlaw hid (fun _ _ _ => Store.mem_schemaTable)
      hadmitted
  · exact (serves_namespaces hlaw hdefault hmax hfits).listsExactly hlaw hid (fun _ _ _ => Dict.mem_toList) hadmitted

theorem Sample.lawful_service (registry : Registry) : (service registry).ext.Lawful where
  irrefl a h := lt_irrefl a (of_decide_eq_true h)
  trans a b c hab hbc := decide_eq_true (lt_trans (of_decide_eq_true hab) (of_decide_eq_true hbc))
  total a b hne := (lt_or_gt_of_ne hne).imp decide_eq_true decide_eq_true
  empty_least a hne := by
    refine decide_eq_true (String.lt_iff_toList_lt.mpr ?_)
    cases ha : a.toList with
    | nil => exact absurd (String.toList_injective ha) hne
    | cons c cs => exact List.Lex.nil
  encode_empty := rfl
  decode_encode _ := rfl

/-- Two namespaces, and two schemas in the first. -/
def Sample.listed : Store :=
  { Store.empty with
    namespaces := (Dict.empty.set "b" ⟨none⟩).set "a" ⟨none⟩
    schemas := (Dict.empty.set ("a", "t") ⟨some 1, none⟩).set ("a", "s") ⟨some 2, none⟩ }

/-- Two rows on pages of one row each. -/
theorem Server.listing_exact_two_pages :
    follow (fun _ token => ((Sample.service Sample.registry).listNamespaces Sample.listed 1 token).map
      fun res => (res.namespaces, res.nextPageToken)) 2 0 "" = .ok (some ["a", "b"]) ∧
    (∃ fuel items, follow (fun _ token => ((Sample.service Sample.registry).listSchemas Sample.listed "a" 1 token).map
      fun res => (res.schemas, res.nextPageToken)) fuel 0 "" = .ok (some items)) ∧
    ∃ fuel items, follow (fun _ token => ((Sample.service Sample.registry).listNamespaces Sample.listed 1 token).map
      fun res => (res.namespaces, res.nextPageToken)) fuel 0 "" = .ok (some items) := by
  obtain ⟨hschemas, hnamespaces⟩ := Server.listing_exact (Sample.service Sample.registry)
    (Sample.lawful_service Sample.registry) (by decide) (by decide) (by decide) (fun _ => Sample.listed) fun _ => 1
  refine ⟨by decide +kernel, (hschemas "a" (by decide) (fun _ id h => ?_) fun _ => .inl (by decide)).terminates,
    (hnamespaces (fun _ id h => ?_) fun _ => .inl (by decide)).terminates⟩
  · have hid : id = "s" ∨ id = "t" := by
      by_contra hne
      rw [not_or] at hne
      simp [Sample.listed, Dict.get_set, hne] at h
    obtain rfl | rfl := hid <;> exact .inl (by decide)
  · have hid : id = "a" ∨ id = "b" := by
      by_contra hne
      rw [not_or] at hne
      simp [Sample.listed, Dict.get_set, hne] at h
    obtain rfl | rfl := hid <;> exact .inl (by decide)

/-- The page size plus one wraps around and the limit of the query is zero: both listings are empty and end
there. -/
theorem Server.listing_lost :
    let s : Server := { Sample.service Sample.registry with limits := { defaultListPageSize := 9223372036854775807 } }
    0 < s.limits.defaultListPageSize ∧ 0 < s.limits.maxListPageSize ∧
      (∀ id ∈ ["a", "b", "s", "t"], validateID id "id" s.limits.maxIDLength = .ok ()) ∧
      Sample.listed.schemas.keys = [("a", "t"), ("a", "s")] ∧ Sample.listed.namespaces.keys = ["b", "a"] ∧
      follow (fun _ token => (s.listSchemas Sample.listed "a" 0 token).map fun res =>
        (res.schemas, res.nextPageToken)) 1 0 "" = .ok (some []) ∧
      follow (fun _ token => (s.listNamespaces Sample.listed 0 token).map fun res =>
        (res.namespaces, res.nextPageToken)) 1 0 "" = .ok (some []) :=
  ⟨by decide, by decide, by decide, by decide, by decide, rfl, by decide +kernel⟩

end ProtoRegistry
