import ProtoRegistry.Model.Path
import ProtoRegistry.Model.Server
import Mathlib.Tactic

/-! The file names that a Publish request may carry. `validateFilename` compares a name with its
canonical form `path.Clean` and looks for a `..` among its segments. The canonical form of a
relative path without a `..` is described here segment by segment: the empty segments and the `.`
are left out, and a path of nothing else becomes `.` itself, which is how that one name passes. -/

namespace ProtoRegistry

namespace Path

/-- A segment that `path.Clean` copies. -/
def Plain (name : List Char) : Prop := name ≠ [] ∧ name ≠ ['.'] ∧ name ≠ ['.', '.']

instance : DecidablePred Plain := fun _ => inferInstanceAs (Decidable (_ ∧ _ ∧ _))

theorem not_mem_of_mem_splitOn {c : Char} {name path : List Char} (h : name ∈ path.splitOn c) :
    c ∉ name := by
  induction path generalizing name with
  | nil => simp_all
  | cons d path ih =>
    rw [List.splitOn_cons_eq_if_modifyHead] at h
    split at h
    next =>
      rcases List.mem_cons.mp h with rfl | h
      · simp
      · exact ih h
    next hd =>
      cases hsplit : path.splitOn c with
      | nil => simp at hsplit
      | cons first names =>
        rw [hsplit] at h ih
        rcases List.mem_cons.mp h with rfl | h
        · intro hc
          rcases List.mem_cons.mp hc with rfl | hc
          · simp at hd
          · exact ih List.mem_cons_self hc
        · exact ih (List.mem_cons_of_mem _ h)

/-! ## The loop -/

theorem length_cleanStep (rooted : Bool) (b : Buffer) {path : List Char} (h : path ≠ []) :
    (cleanStep rooted b path).2.length < path.length := by
  have hpath := List.length_pos_iff.mpr h
  simp only [cleanStep]
  split_ifs with h₁ h₂ h₃
  · simp; omega
  · simp; omega
  · simp; omega
  · have := List.length_pos_iff.mpr h₁
    simp only [List.length_drop]
    omega

theorem cleanLoop_rounds {rooted : Bool} {b : Buffer} {path : List Char} {m n : Nat}
    (hm : path.length ≤ m) (hn : path.length ≤ n) :
    cleanLoop rooted m b path = cleanLoop rooted n b path := by
  induction m generalizing n b path with
  | zero =>
    obtain rfl := List.length_eq_zero_iff.mp (Nat.le_zero.mp hm)
    simp [cleanLoop]
  | succ m ih =>
    cases path with
    | nil => simp [cleanLoop]
    | cons c path =>
      cases n with
      | zero => simp at hn
      | succ n =>
        have hlt := length_cleanStep rooted b (List.cons_ne_nil c path)
        exact ih (by omega) (by omega)

/-- The buffer after the rest of a relative path. -/
def Buffer.read (b : Buffer) (path : List Char) : Buffer := cleanLoop false path.length b path

theorem Buffer.read_step (b : Buffer) {path : List Char} (h : path ≠ []) :
    b.read path = (cleanStep false b path).1.read (cleanStep false b path).2 := by
  have hlt := length_cleanStep false b h
  cases path with
  | nil => exact absurd rfl h
  | cons c path => exact cleanLoop_rounds (Nat.le_of_lt_succ hlt) le_rfl

theorem Buffer.read_slash (b : Buffer) (path : List Char) : b.read ('/' :: path) = b.read path := by
  rw [b.read_step (List.cons_ne_nil '/' path)]
  simp [cleanStep]

/-- What a segment other than `..` does to the buffer. -/
def Buffer.keep (b : Buffer) (name : List Char) : Buffer :=
  if Plain name then b.element false name else b

theorem Buffer.read_segment (b : Buffer) {name rest : List Char} (hname : '/' ∉ name)
    (hparent : name ≠ ['.', '.']) (hrest : rest.takeWhile (· ≠ '/') = []) :
    b.read (name ++ rest) = (b.keep name).read rest := by
  by_cases hempty : name = []
  · simp [hempty, keep, Plain]
  have htake : (name ++ rest).takeWhile (· ≠ '/') = name := by
    rw [List.takeWhile_append_of_pos, hrest, List.append_nil]
    intro c hc
    simpa using ne_of_mem_of_not_mem hc hname
  rw [b.read_step (by simp [hempty]), cleanStep]
  simp only [htake, hempty, hparent, if_false, keep, Plain, ne_eq, not_false_eq_true, true_and, and_true]
  split_ifs with hdot
  · simp [hdot]
  · rw [List.drop_left]

theorem Buffer.read_segments (b : Buffer) {names : List (List Char)}
    (hnames : ∀ name ∈ names, '/' ∉ name ∧ name ≠ ['.', '.']) :
    b.read (['/'].intercalate names) = names.foldl Buffer.keep b := by
  induction names generalizing b with
  | nil => rfl
  | cons name names ih =>
    obtain ⟨⟨hslash, hparent⟩, hnames⟩ := List.forall_mem_cons.mp hnames
    cases names with
    | nil =>
      rw [List.intercalate_singleton, ← List.append_nil name, b.read_segment hslash hparent rfl,
        List.append_nil]
      rfl
    | cons next names =>
      rw [List.intercalate_cons_cons, List.append_assoc, b.read_segment hslash hparent (by simp),
        List.singleton_append, read_slash, ih _ hnames]
      rfl

/-! ## The canonical form -/

theorem Buffer.foldl_keep (b : Buffer) (names : List (List Char)) :
    names.foldl Buffer.keep b = (names.filter Plain).foldl (Buffer.element false) b := by
  induction names generalizing b with
  | nil => rfl
  | cons name names ih =>
    by_cases hname : Plain name
    · simp [hname, ih, keep]
    · simp [hname, ih, keep]

theorem Buffer.foldl_element {b : Buffer} (hb : b.out ≠ []) (names : List (List Char)) :
    (names.foldl (Buffer.element false) b).out.reverse =
      b.out.reverse ++ names.flatMap ('/' :: ·) := by
  induction names generalizing b with
  | nil => simp
  | cons name names ih =>
    have hout : (b.element false name).out = name.reverse ++ '/' :: b.out := by simp [element, hb]
    rw [List.foldl_cons, ih (by simp [hout]), hout]
    simp

theorem intercalate_slash (name : List Char) (names : List (List Char)) :
    ['/'].intercalate (name :: names) = name ++ names.flatMap ('/' :: ·) := by
  induction names generalizing name with
  | nil => simp
  | cons next names ih => rw [List.intercalate_cons_cons, ih]; simp

theorem Buffer.foldl_element_nil {names : List (List Char)} (hnames : ∀ name ∈ names, Plain name) :
    (names.foldl (Buffer.element false) {}).out.reverse = ['/'].intercalate names := by
  cases names with
  | nil => rfl
  | cons name names =>
    have hout : (Buffer.element false {} name).out = name.reverse := by simp [element]
    have hname := (hnames name List.mem_cons_self).1
    rw [List.foldl_cons, foldl_element (by simpa [hout] using hname), intercalate_slash, hout,
      List.reverse_reverse]

theorem intercalate_plain_ne_nil {names : List (List Char)} (hne : names ≠ [])
    (hnames : ∀ name ∈ names, Plain name) : ['/'].intercalate names ≠ [] := by
  cases names with
  | nil => exact absurd rfl hne
  | cons name names =>
    rw [intercalate_slash]
    exact List.append_ne_nil_of_left_ne_nil (hnames name List.mem_cons_self).1 _

/-- The canonical form of a relative path without a `..`. -/
theorem clean_of_no_parent {path : String} (hrelative : path.toList.head? ≠ some '/')
    (hparent : ['.', '.'] ∉ path.toList.splitOn '/') :
    clean path = if (path.toList.splitOn '/').filter Plain = [] then "." else
      String.ofList (['/'].intercalate ((path.toList.splitOn '/').filter Plain)) := by
  by_cases hempty : path = ""
  · subst hempty
    decide
  set names := path.toList.splitOn '/' with hsplit
  have hpath : ['/'].intercalate names = path.toList := List.intercalate_splitOn '/'
  have hplain : ∀ name ∈ names.filter Plain, Plain name := fun name hname => by
    simpa using (List.mem_filter.mp hname).2
  have hread : (Buffer.read {} path.toList).out.reverse = ['/'].intercalate (names.filter Plain) := by
    rw [← hpath, Buffer.read_segments, Buffer.foldl_keep, Buffer.foldl_element_nil hplain]
    intro name hname
    exact ⟨not_mem_of_mem_splitOn hname, ne_of_mem_of_not_mem hname hparent⟩
  have hclean : clean path = if (Buffer.read {} path.toList).out = [] then "." else
      String.ofList (Buffer.read {} path.toList).out.reverse := by
    simp [clean, hempty, hrelative, Buffer.read, String.length_toList]
  rw [hclean]
  by_cases hnone : names.filter Plain = []
  · rw [hnone] at hread
    rw [if_pos hnone, if_pos (by simpa using hread)]
  · have hout := intercalate_plain_ne_nil hnone hplain
    rw [← hread] at hout
    rw [if_neg hnone, if_neg (by simpa using hout), hread]

/-- A relative path without a `..` is in canonical form if it is `.` or each of its segments is
copied. -/
theorem clean_eq_self_iff {path : String} (hrelative : path.toList.head? ≠ some '/')
    (hparent : ['.', '.'] ∉ path.toList.splitOn '/') :
    clean path = path ↔ path = "." ∨ ∀ name ∈ path.toList.splitOn '/', Plain name := by
  rw [clean_of_no_parent hrelative hparent]
  constructor
  · intro hself
    split at hself
    next => exact .inl hself.symm
    next hsome =>
      right
      have hkept : (path.toList.splitOn '/').filter Plain = path.toList.splitOn '/' := by
        have hchars := congrArg (List.splitOn '/' ·.toList) hself
        simp only [String.toList_ofList] at hchars
        rwa [List.splitOn_intercalate '/' _ hsome] at hchars
        intro name hname
        exact not_mem_of_mem_splitOn (List.mem_filter.mp hname).1
      intro name hname
      rw [← hkept] at hname
      simpa using (List.mem_filter.mp hname).2
  · rintro (rfl | hplain)
    · decide
    · have hkept : (path.toList.splitOn '/').filter Plain = path.toList.splitOn '/' :=
        List.filter_eq_self.mpr fun name hname => by simpa using hplain name hname
      rw [hkept, if_neg (by simp), List.intercalate_splitOn, String.ofList_toList]

example : clean "a/./b//c" = "a/b/c" := by decide

end Path

theorem validateFilename_eq_ok {ext : ServerExternal} {name : String} {maxLen : Int64} :
    validateFilename ext name maxLen = .ok () ↔
      name ≠ "" ∧ (name.utf8ByteSize : Int) ≤ maxLen.toInt ∧ Char.ofNat 0 ∉ name.toList ∧
        name.toList.head? ≠ some '/' ∧ ext.clean name = name ∧
        ['.', '.'] ∉ name.toList.splitOn '/' := by
  unfold validateFilename
  simp only [check_eq_ok]
  by_cases hparent : ['.', '.'] ∈ name.toList.splitOn '/'
  · simp [hparent, throw, throwThe, MonadExceptOf.throw]
  · simp [hparent, pure, Except.pure]

/-- The file names the server means to accept, up to `maxLen` bytes long. -/
def CleanRelative (name : String) (maxLen : Int64) : Prop :=
  (name.utf8ByteSize : Int) ≤ maxLen.toInt ∧ Char.ofNat 0 ∉ name.toList ∧
    ∀ segment ∈ name.toList.splitOn '/', Path.Plain segment

theorem head_ne_slash {name : String} (h : ∀ segment ∈ name.toList.splitOn '/', Path.Plain segment) :
    name.toList.head? ≠ some '/' := by
  intro hhead
  obtain ⟨rest, hrest⟩ := List.head?_eq_some_iff.mp hhead
  rw [hrest, List.splitOn_cons_eq_if_modifyHead] at h
  exact (h [] (by simp)).1 rfl

section
variable {ext : ServerExternal} (hclean : ext.clean = Path.clean)
include hclean

theorem validateFilename_iff {name : String} {maxLen : Int64} :
    validateFilename ext name maxLen = .ok () ↔
      CleanRelative name maxLen ∨ name = "." ∧ 1 ≤ maxLen.toInt := by
  rw [validateFilename_eq_ok, hclean]
  constructor
  · rintro ⟨-, hlength, hnul, hrelative, hself, hparent⟩
    rcases (Path.clean_eq_self_iff hrelative hparent).mp hself with rfl | hplain
    · exact .inr ⟨rfl, hlength⟩
    · exact .inl ⟨hlength, hnul, hplain⟩
  · rintro (⟨hlength, hnul, hplain⟩ | ⟨rfl, hlength⟩)
    · have hrelative := head_ne_slash hplain
      have hparent : ['.', '.'] ∉ name.toList.splitOn '/' := fun h => (hplain _ h).2.2 rfl
      refine ⟨?_, hlength, hnul, hrelative, (Path.clean_eq_self_iff hrelative hparent).mpr (.inr hplain),
        hparent⟩
      rintro rfl
      exact (hplain [] (by simp)).1 rfl
    · exact ⟨by decide, hlength, by decide, by decide, by decide, by decide⟩

/-- `validateFilename` accepts the clean relative paths and no other name, but for the name `.`. -/
theorem validateFilename_iff_cleanRelative (name : String) (maxLen : Int64) :
    (validateFilename ext name maxLen = .ok () ↔ CleanRelative name maxLen) ↔
      name ≠ "." ∨ maxLen.toInt < 1 := by
  rw [validateFilename_iff hclean]
  have hdot : ¬CleanRelative "." maxLen := fun h => (h.2.2 ['.'] (by decide)).2.1 rfl
  constructor
  · intro h
    by_contra! hboth
    obtain ⟨rfl, hlength⟩ := hboth
    exact hdot (h.mp (.inr ⟨rfl, hlength⟩))
  · intro hname
    constructor
    · rintro (h | ⟨rfl, hlength⟩)
      · exact h
      · exact absurd hlength (by simpa using hname)
    · exact .inl

end

def Sample.serverExternal : ServerExternal where
  clean := Path.clean
  encodeToString := id
  decodeString := .ok
  less x y := decide (x < y)

theorem validateFilename_iff_cleanRelative_nested :
    Sample.serverExternal.clean = Path.clean ∧
      (validateFilename Sample.serverExternal "billing/config.proto" 512 = .ok () ↔
        CleanRelative "billing/config.proto" 512) :=
  ⟨rfl, (validateFilename_iff_cleanRelative rfl "billing/config.proto" 512).mpr (.inl (by decide))⟩

/-- The canonical form of the empty name passes, although the empty name does not. -/
theorem validateFilename_dot :
    validateFilename Sample.serverExternal "." 512 = .ok () ∧ ¬CleanRelative "." 512 := by
  refine ⟨by decide, ?_⟩
  rintro ⟨-, -, hplain⟩
  exact (hplain ['.'] (by decide)).2.1 rfl

end ProtoRegistry
